import Mathlib.Tactic.Common
import LmcacheDaos.Lib.Machine

/-!
# A list of calls on an executor

`list(executor.map(f, items))` of `concurrent.futures`, for any `f`: every item is
submitted, threads take the work items in order, and the caller collects the results
in order. At the first item that raised it cancels the futures that are left, from the
last one on, and raises; what a thread has already taken runs on.

Results: the list is complete and in order when the call returns (`Inv.returned`), and
when it raises the exception is that of the first item that failed and nothing is left
to be started (`Inv.raised`).
-/

namespace Lib.PoolMap

variable {β ε : Type}

inductive Job (β ε : Type) where
  | queued
  | running
  | done (r : Except ε β)
  | cancelled
deriving DecidableEq, Repr

/-- Started before queued before cancelled. -/
def Job.rank : Job β ε → ℕ
  | .running | .done _ => 0
  | .queued => 1
  | .cancelled => 2

def Job.isQueued : Job β ε → Bool
  | .queued => true
  | _ => false

/-- `future.cancel()` of item `i` -/
def cancelAt (jobs : List (Job β ε)) (i : ℕ) : List (Job β ε) := match jobs[i]? with
  | some .queued => jobs.set i .cancelled
  | _ => jobs

/-- Where the caller is. -/
inductive Pc (ε : Type) where
  | collecting
  | returned
  /-- `e` was raised, and item `i` is the next to be cancelled -/
  | unwinding (e : ε) (i : ℕ)
  | raised (e : ε)
deriving DecidableEq, Repr

structure St (β ε : Type) where
  jobs : List (Job β ε)
  /-- the results collected so far -/
  got : List β
  pc : Pc ε
deriving DecidableEq, Repr

/-- `n` items submitted. -/
def submitted (n : ℕ) : St β ε := ⟨List.replicate n .queued, [], .collecting⟩

inductive Lbl (β ε : Type) where
  /-- a thread takes the oldest work item -/
  | start
  /-- the call of item `i` returns or raises -/
  | finish (i : ℕ) (r : Except ε β)
  /-- the caller goes on -/
  | collect
deriving DecidableEq, Repr

/-- The caller's next step. -/
def collect (s : St β ε) : Option (St β ε) := match s.pc with
  | .collecting => match s.jobs[s.got.length]? with
    | none => some { s with pc := .returned }
    | some (.done (.ok b)) => some { s with got := s.got ++ [b] }
    | some (.done (.error e)) => some { s with pc := .unwinding e (s.jobs.length - 1) }
    | some _ => none
  | .unwinding e i =>
      if s.got.length < i then
        some { s with jobs := cancelAt s.jobs i, pc := .unwinding e (i - 1) }
      else some { s with pc := .raised e }
  | .returned | .raised _ => none

def step (s : St β ε) : Lbl β ε → Option (St β ε)
  | .start => (s.jobs.findIdx? Job.isQueued).map fun i => { s with jobs := s.jobs.set i .running }
  | .finish i r => match s.jobs[i]? with
    | some .running => some { s with jobs := s.jobs.set i (.done r) }
    | _ => none
  | .collect => collect s

/-! ## The order of the items -/

/-- Items are started in order and cancelled from the end. -/
def Ordered (jobs : List (Job β ε)) : Prop :=
  ∀ (i j : ℕ) (a b : Job β ε), i < j → jobs[i]? = some a → jobs[j]? = some b → a.rank ≤ b.rank

section Ordered

variable {jobs : List (Job β ε)} {i : ℕ} {x : Job β ε}

theorem ordered_replicate (n : ℕ) (a : Job β ε) : Ordered (List.replicate n a) := by
  intro i j b c _ hi hj
  rw [List.getElem?_replicate] at hi hj
  split at hi <;> cases hi
  split at hj <;> cases hj
  exact Nat.le_refl _

theorem Ordered.set (h : Ordered jobs)
    (hbefore : ∀ k a, k < i → jobs[k]? = some a → a.rank ≤ x.rank)
    (hafter : ∀ k b, i < k → jobs[k]? = some b → x.rank ≤ b.rank) : Ordered (jobs.set i x) := by
  intro j k a b hjk hj hk
  rcases Threads.getElem?_set_cases hj with ⟨rfl, rfl⟩ | ⟨hji, hj'⟩
  · rcases Threads.getElem?_set_cases hk with ⟨rfl, -⟩ | ⟨-, hk'⟩
    · exact absurd hjk (Nat.lt_irrefl _)
    · exact hafter k b hjk hk'
  · rcases Threads.getElem?_set_cases hk with ⟨rfl, rfl⟩ | ⟨-, hk'⟩
    · exact hbefore j a hjk hj'
    · exact h j k a b hjk hj' hk'

/-- The oldest work item is started. -/
theorem Ordered.start (h : Ordered jobs) (hi : jobs.findIdx? Job.isQueued = some i) :
    jobs[i]? = some .queued ∧ Ordered (jobs.set i .running) := by
  obtain ⟨hlt, hqueued, hfirst⟩ := List.findIdx?_eq_some_iff_getElem.mp hi
  have hget : jobs[i]? = some .queued := by
    rw [List.getElem?_eq_getElem hlt]
    cases hj : jobs[i] with
    | queued => rfl
    | _ => simp [hj, Job.isQueued] at hqueued
  refine ⟨hget, h.set ?_ fun _ _ _ _ => Nat.zero_le _⟩
  intro k a hk ha
  have hle := h k i a .queued hk ha hget
  have hne : a ≠ .queued := by
    rintro rfl
    have := hfirst k hk
    rw [List.getElem?_eq_some_iff] at ha
    obtain ⟨hlt', ha⟩ := ha
    simp [ha, Job.isQueued] at this
  cases a with
  | queued => exact absurd rfl hne
  | cancelled => simp [Job.rank] at hle
  | _ => exact Nat.le_refl _

theorem Ordered.finish (h : Ordered jobs) (hi : jobs[i]? = some .running) (r : Except ε β) :
    Ordered (jobs.set i (.done r)) := by
  refine h.set ?_ fun _ _ _ _ => Nat.zero_le _
  intro k a hk ha
  exact h k i a .running hk ha hi

/-- The last queued item is cancelled. -/
theorem Ordered.cancel (h : Ordered jobs) (hi : jobs[i]? = some .queued)
    (hlast : ∀ k, i < k → jobs[k]? ≠ some .queued) : Ordered (jobs.set i .cancelled) := by
  refine h.set ?_ ?_
  · intro k a hk ha
    exact Nat.le_succ_of_le (h k i a .queued hk ha hi)
  · intro k b hk hb
    have hle := h i k .queued b hk hi hb
    cases b with
    | queued => exact absurd hb (hlast k hk)
    | cancelled => exact Nat.le_refl _
    | _ => simp [Job.rank] at hle

end Ordered

/-! ## What the caller has -/

/-- What was collected are the results of the first items. -/
def Front (s : St β ε) : Prop := ∀ (i : ℕ) b, s.got[i]? = some b → s.jobs[i]? = some (.done (.ok b))

/-- What is known at each place of the caller. -/
def AtPc (s : St β ε) : Pc ε → Prop
  | .collecting => .cancelled ∉ s.jobs
  | .returned => s.jobs.length = s.got.length
  | .unwinding e i => s.jobs[s.got.length]? = some (.done (.error e)) ∧ s.got.length ≤ i ∧
      ∀ k, i < k → s.jobs[k]? ≠ some .queued
  | .raised e => s.jobs[s.got.length]? = some (.done (.error e)) ∧ .queued ∉ s.jobs

structure Inv (s : St β ε) : Prop where
  ordered : Ordered s.jobs
  front : Front s
  atPc : AtPc s s.pc

theorem inv_submitted (n : ℕ) : Inv (submitted n : St β ε) where
  ordered := ordered_replicate n .queued
  front := by
    intro i b hb
    simp [submitted] at hb
  atPc := by simp [submitted, AtPc]

section Step

variable {s s' : St β ε} {i : ℕ}

/-- What is done stays done when another item changes. -/
theorem done_of_set {jobs : List (Job β ε)} {x old : Job β ε} (hi : jobs[i]? = some old)
    (hold : ∀ r, old ≠ .done r) {k : ℕ} {r : Except ε β} (h : jobs[k]? = some (.done r)) :
    (jobs.set i x)[k]? = some (.done r) := by
  rw [List.getElem?_set_ne, h]
  rintro rfl
  rw [hi] at h
  exact hold r (Option.some.inj h)

theorem Front.set {x old : Job β ε} (h : Front s) (hi : s.jobs[i]? = some old)
    (hold : ∀ r, old ≠ .done r) (pc : Pc ε) : Front ⟨s.jobs.set i x, s.got, pc⟩ :=
  fun k b hb => done_of_set hi hold (h k b hb)

theorem not_mem_set {jobs : List (Job β ε)} {x y : Job β ε} (h : y ∉ jobs) (hxy : y ≠ x) :
    y ∉ jobs.set i x := by
  intro hmem
  rcases List.mem_or_eq_of_mem_set hmem with hmem | heq
  · exact h hmem
  · exact hxy heq

/-- A thread starts or ends an item. -/
theorem Inv.set {x old : Job β ε} (h : Inv s) (hi : s.jobs[i]? = some old)
    (hold : ∀ r, old ≠ .done r) (hx : x ≠ .queued ∧ x ≠ .cancelled)
    (hord : Ordered (s.jobs.set i x)) : Inv { s with jobs := s.jobs.set i x } where
  ordered := hord
  front := h.front.set hi hold s.pc
  atPc := by
    have hat := h.atPc
    cases hpc : s.pc with
    | collecting =>
        rw [hpc] at hat
        exact not_mem_set hat hx.2.symm
    | returned =>
        rw [hpc] at hat
        exact (List.length_set ..).trans hat
    | unwinding e j =>
        rw [hpc] at hat
        refine ⟨done_of_set hi hold hat.1, hat.2.1, ?_⟩
        intro k hk hq
        rcases Threads.getElem?_set_cases hq with ⟨-, heq⟩ | ⟨-, hq⟩
        · exact hx.1 heq.symm
        · exact hat.2.2 k hk hq
    | raised e =>
        rw [hpc] at hat
        exact ⟨done_of_set hi hold hat.1, not_mem_set hat.2 hx.1.symm⟩

theorem Front.length_le (h : Front s) : s.got.length ≤ s.jobs.length := by
  by_contra hlt
  have hsome := h s.jobs.length s.got[s.jobs.length] (List.getElem?_eq_getElem (by omega))
  simp at hsome

theorem Front.concat (h : Front s) {b : β} (hget : s.jobs[s.got.length]? = some (.done (.ok b))) :
    Front ⟨s.jobs, s.got ++ [b], s.pc⟩ := by
  intro i c hc
  rcases Threads.getElem?_concat_cases hc with ⟨rfl, rfl⟩ | hc
  · exact hget
  · exact h i c hc

/-- The cancellation of an item, with those behind it not queued. -/
theorem cancelAt_cases (jobs : List (Job β ε)) (i : ℕ) :
    (jobs[i]? = some .queued ∧ cancelAt jobs i = jobs.set i .cancelled) ∨
      (jobs[i]? ≠ some .queued ∧ cancelAt jobs i = jobs) := by
  unfold cancelAt
  split
  · rename_i h
    exact .inl ⟨h, rfl⟩
  · rename_i h
    exact .inr ⟨h, rfl⟩

theorem Inv.cancel (h : Inv s) {e : ε} (hget : s.jobs[s.got.length]? = some (.done (.error e)))
    (hlt : s.got.length < i) (hlast : ∀ k, i < k → s.jobs[k]? ≠ some .queued) :
    Inv { s with jobs := cancelAt s.jobs i, pc := .unwinding e (i - 1) } := by
  have hback : ∀ jobs : List (Job β ε), (∀ k, i ≤ k → jobs[k]? ≠ some .queued) →
      ∀ k, i - 1 < k → jobs[k]? ≠ some .queued := fun jobs hq k hk => hq k (by omega)
  rcases cancelAt_cases s.jobs i with ⟨hq, heq⟩ | ⟨hq, heq⟩
  · rw [heq]
    refine ⟨h.ordered.cancel hq hlast,
      h.front.set hq (by simp) _, done_of_set hq (by simp) hget, by simp only; omega, ?_⟩
    refine hback _ ?_
    intro k hk hqueued
    rcases Threads.getElem?_set_cases hqueued with ⟨-, hbad⟩ | ⟨hne, hqueued⟩
    · cases hbad
    · exact hlast k (by omega) hqueued
  · rw [heq]
    refine ⟨h.ordered, h.front, hget, by simp only; omega, hback _ ?_⟩
    intro k hk
    rcases Nat.eq_or_lt_of_le hk with rfl | hk
    · exact hq
    · exact hlast k hk

/-- Collecting, then unwinding. -/
theorem collect_inv (h : Inv s) (hst : collect s = some s') : Inv s' := by
  have hat := h.atPc
  unfold collect at hst
  split at hst
  · rename_i hpc
    rw [hpc] at hat
    split at hst
    · -- every item is collected
      rename_i hget
      cases hst
      have hle := h.front.length_le
      rw [List.getElem?_eq_none_iff] at hget
      exact ⟨h.ordered, h.front, Nat.le_antisymm hget hle⟩
    · rename_i b hget
      cases hst
      refine ⟨h.ordered, h.front.concat hget, ?_⟩
      simp only [hpc]
      exact hat
    · rename_i e hget
      cases hst
      have hlt := (List.getElem?_eq_some_iff.mp hget).1
      refine ⟨h.ordered, h.front, hget, by simp only; omega, ?_⟩
      intro k hk hq
      have hlt' := (List.getElem?_eq_some_iff.mp hq).1
      simp only at hlt'
      omega
    · cases hst
  · rename_i e j hpc
    rw [hpc] at hat
    obtain ⟨hget, hle, hlast⟩ := hat
    split at hst
    · rename_i hlt
      cases hst
      exact h.cancel hget hlt hlast
    · rename_i hnlt
      cases hst
      refine ⟨h.ordered, h.front, hget, ?_⟩
      intro hmem
      obtain ⟨k, hk⟩ := List.mem_iff_getElem?.mp hmem
      rcases Nat.lt_trichotomy k s.got.length with hlt | rfl | hgt
      · have hrank := h.ordered k _ _ _ hlt hk hget
        simp [Job.rank] at hrank
      · rw [hget] at hk
        cases hk
      · exact hlast k (by omega) hk
  · cases hst
  · cases hst

/-- A step of a thread leaves the caller where it is. -/
theorem step_frame {a : Lbl β ε} (hst : step s a = some s') :
    s'.jobs.length = s.jobs.length ∧ (a ≠ .collect → s'.pc = s.pc ∧ s'.got = s.got) := by
  cases a with
  | start =>
      obtain ⟨i, -, rfl⟩ := Option.map_eq_some_iff.mp hst
      exact ⟨List.length_set .., fun _ => ⟨rfl, rfl⟩⟩
  | finish i r =>
      simp only [step] at hst
      split at hst
      · cases hst
        exact ⟨List.length_set .., fun _ => ⟨rfl, rfl⟩⟩
      · cases hst
  | collect =>
      refine ⟨?_, fun hne => absurd rfl hne⟩
      simp only [step, collect] at hst
      split at hst
      · split at hst <;> cases hst <;> rfl
      · split at hst
        · cases hst
          rename_i i _ _
          rcases cancelAt_cases s.jobs i with ⟨-, heq⟩ | ⟨-, heq⟩
          · simp [heq]
          · simp [heq]
        · cases hst
          rfl
      · cases hst
      · cases hst

/-- Until it has returned or raised, the call can go on, if what it calls returns. -/
theorem progress (h : Inv s) (hret : s.pc ≠ .returned) (hraised : ∀ e, s.pc ≠ .raised e)
    (r : Except ε β) : ∃ a, (step s a).isSome := by
  cases hpc : s.pc with
  | returned => exact absurd hpc hret
  | raised e => exact absurd hpc (hraised e)
  | unwinding e i =>
      by_cases hlt : s.got.length < i
      · exact ⟨.collect, by simp [step, collect, hpc, hlt]⟩
      · exact ⟨.collect, by simp [step, collect, hpc, hlt]⟩
  | collecting =>
      have hat := h.atPc
      rw [hpc] at hat
      rcases hget : s.jobs[s.got.length]? with _ | _ | _ | r' | _
      · exact ⟨.collect, by simp [step, collect, hpc, hget]⟩
      · -- it waits in the queue
        have hmem : Job.queued ∈ s.jobs := List.mem_of_getElem? hget
        have hany : (s.jobs.findIdx? Job.isQueued).isSome := by
          rw [List.findIdx?_isSome, List.any_eq_true]
          exact ⟨_, hmem, rfl⟩
        obtain ⟨i, hi⟩ := Option.isSome_iff_exists.mp hany
        exact ⟨.start, by simp [step, hi]⟩
      · exact ⟨.finish s.got.length r, by simp [step, hget]⟩
      · cases r' with
        | error e => exact ⟨.collect, by simp [step, collect, hpc, hget]⟩
        | ok b => exact ⟨.collect, by simp [step, collect, hpc, hget]⟩
      · exact absurd (List.mem_of_getElem? hget) hat

theorem step_inv (h : Inv s) {a : Lbl β ε} (hst : step s a = some s') : Inv s' := by
  cases a with
  | start =>
      obtain ⟨i, hi, rfl⟩ := Option.map_eq_some_iff.mp hst
      obtain ⟨hget, hord⟩ := h.ordered.start hi
      exact h.set hget (by simp) (by simp) hord
  | finish i r =>
      simp only [step] at hst
      split at hst
      · rename_i hget
        cases hst
        exact h.set hget (by simp) (by simp) (h.ordered.finish hget r)
      · cases hst
  | collect => exact collect_inv h hst

end Step

section Outcome

variable {s : St β ε}

/-- The call returns what all items returned, in order. -/
theorem Inv.returned (h : Inv s) (hpc : s.pc = .returned) :
    s.jobs = s.got.map fun b => .done (.ok b) := by
  have hat := h.atPc
  rw [hpc] at hat
  apply List.ext_getElem?
  intro i
  rw [List.getElem?_map]
  cases hb : s.got[i]? with
  | some b => exact h.front i b hb
  | none =>
      rw [List.getElem?_eq_none_iff] at hb
      exact List.getElem?_eq_none (hat.trans_le hb)

/-- It raises what the first item that failed has raised, with the items before it
returned and none left to be started. -/
theorem Inv.raised (h : Inv s) {e : ε} (hpc : s.pc = .raised e) :
    s.jobs[s.got.length]? = some (.done (.error e)) ∧ .queued ∉ s.jobs ∧
      ∀ i < s.got.length, ∃ b, s.jobs[i]? = some (.done (.ok b)) := by
  have hat := h.atPc
  rw [hpc] at hat
  refine ⟨hat.1, hat.2, ?_⟩
  intro i hi
  exact ⟨s.got[i], h.front i _ (List.getElem?_eq_getElem hi)⟩

/-- A call is still under way behind the caller only if one has raised. -/
theorem Inv.running_behind (h : Inv s) (hrun : .running ∈ s.jobs)
    (hpc : s.pc ≠ .collecting) : ∃ e, .done (.error e) ∈ s.jobs := by
  have hat := h.atPc
  cases hp : s.pc with
  | collecting => exact absurd hp hpc
  | returned =>
      rw [h.returned hp] at hrun
      obtain ⟨b, -, hb⟩ := List.mem_map.mp hrun
      cases hb
  | unwinding e i =>
      rw [hp] at hat
      exact ⟨e, List.mem_of_getElem? hat.1⟩
  | raised e =>
      rw [hp] at hat
      exact ⟨e, List.mem_of_getElem? hat.1⟩

end Outcome

end Lib.PoolMap
