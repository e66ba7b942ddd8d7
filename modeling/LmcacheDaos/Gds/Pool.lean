import Mathlib.Tactic.Common
import LmcacheDaos.Lib.Machine

/-!
# The GDS backend's one thread pool

`DaosGdsBackend` has a single `ThreadPoolExecutor` of `io_workers` threads
(`gds_backend.py`). Reads, writes and single lookups are jobs of one storage
call. `batched_async_contains` puts `batched_contains` itself on that pool,
and `batched_contains` submits one job per key to the same pool
(`self._pool.map`) and waits for their futures.

The machine has the executor's FIFO queue, one state per thread and the set of
finished futures. A caller that runs `batched_contains`, `batched_get_blocking`
or a put outside the pool only contributes jobs of one storage call.

Result: no thread is ever stuck as long as a `batched_contains` with keys is
never picked up by the last thread that is not already inside one; with
`io_workers` such calls in flight every thread can end up waiting for jobs that
no thread is left to run.
-/

namespace LmcacheDaos.Gds.Pool

open Lib

/-- What a job does on its thread. -/
inductive Work where
  /-- one storage call: `contains`, `get_blocking` or `_put_one` of a key -/
  | io
  /-- `batched_contains` of this many keys -/
  | batchedContains (keys : ℕ)
deriving DecidableEq, Repr

/-- A work item with the identifier of its future. -/
structure Job where
  future : ℕ
  work : Work
deriving DecidableEq, Repr

inductive Thread where
  | idle
  /-- inside a storage call -/
  | io (future : ℕ)
  /-- in `Executor.map`: `left` keys still to submit, `subs` submitted -/
  | submitting (future left : ℕ) (subs : List ℕ)
  /-- collecting the results of `subs` -/
  | waiting (future : ℕ) (subs : List ℕ)
deriving DecidableEq, Repr

structure St where
  queue : List Job
  threads : List Thread
  finished : List ℕ
  nextFuture : ℕ
deriving DecidableEq, Repr

def initial (ioWorkers : ℕ) : St := ⟨[], List.replicate ioWorkers .idle, [], 0⟩

inductive Lbl where
  /-- a call arrives from outside the pool -/
  | call (w : Work)
  /-- thread `w` takes its next step -/
  | worker (w : ℕ)
deriving DecidableEq, Repr

/-- `pool.submit` -/
def submit (s : St) (w : Work) : St :=
  { s with queue := s.queue ++ [⟨s.nextFuture, w⟩], nextFuture := s.nextFuture + 1 }

/-- The next step of a thread: the pool without the thread's own new state,
and that state. `none` when it has nothing to do or waits for a future. -/
def threadStep (s : St) : Thread → Option (St × Thread)
  | .idle => match s.queue with
      | [] => none
      | ⟨f, .io⟩ :: rest => some ({ s with queue := rest }, .io f)
      | ⟨f, .batchedContains n⟩ :: rest => some ({ s with queue := rest }, .submitting f n [])
  -- storage calls always return
  | .io f => some ({ s with finished := f :: s.finished }, .idle)
  | .submitting f 0 subs => some (s, .waiting f subs)
  | .submitting f (n + 1) subs => some (submit s .io, .submitting f n (subs ++ [s.nextFuture]))
  | .waiting f subs =>
      if ∀ j ∈ subs, j ∈ s.finished then some ({ s with finished := f :: s.finished }, .idle)
      else none

def step (s : St) : Lbl → Option St
  | .call w => some (submit s w)
  | .worker w => (s.threads[w]?).bind fun t =>
      (threadStep s t).map fun r => { r.1 with threads := s.threads.set w r.2 }

def machine (ioWorkers : ℕ) : Machine St Lbl where
  Init s := s = initial ioWorkers
  step := step

/-- Some call has not finished. -/
def Unfinished (s : St) : Prop := s.queue ≠ [] ∨ ∃ t ∈ s.threads, t ≠ .idle

/-- Some thread of the pool can take a step. -/
def CanStep (s : St) : Prop := ∃ w, (step s (.worker w)).isSome

/-- The thread is inside a `batched_contains` that has keys. -/
def holdsContains : Thread → Bool
  | .submitting _ left subs => decide (0 < left + subs.length)
  | .waiting _ subs => decide (0 < subs.length)
  | _ => false

/-- The next job is a `batched_contains` with keys. -/
def batchNext (s : St) : Bool :=
  match s.queue with
  | ⟨_, .batchedContains (_ + 1)⟩ :: _ => true
  | _ => false

/-- The step does not put a `batched_contains` with keys on the last thread
that is outside one. -/
def KeepsOneFree (s : St) : Lbl → Prop
  | .call _ => True
  | .worker w => s.threads[w]? = some .idle → batchNext s = true →
      ∃ v < s.threads.length, v ≠ w ∧ (s.threads[v]?).map holdsContains = some false

instance : ∀ s a, Decidable (KeepsOneFree s a)
  | _, .call _ => inferInstanceAs (Decidable True)
  | _, .worker _ => inferInstanceAs (Decidable (_ → _ → _))

instance (s : St) : Decidable (CanStep s) :=
  decidable_of_iff (∃ w < s.threads.length, (step s (.worker w)).isSome) <| by
    refine ⟨fun ⟨w, _, h⟩ => ⟨w, h⟩, fun ⟨w, h⟩ => ⟨w, ?_, h⟩⟩
    by_contra hlt
    simp [step, List.getElem?_eq_none (Nat.le_of_not_lt hlt)] at h

/-! ## One step of a thread -/

/-- Everything a thread's step can do. -/
theorem threadStep_cases {s s' : St} {t t' : Thread} (h : threadStep s t = some (s', t')) :
    (∃ f w rest, t = .idle ∧ s.queue = ⟨f, w⟩ :: rest ∧ s' = { s with queue := rest } ∧
      t' = match w with
        | .io => .io f
        | .batchedContains n => .submitting f n []) ∨
    (∃ f, t = .io f ∧ s' = { s with finished := f :: s.finished } ∧ t' = .idle) ∨
    (∃ f subs, t = .submitting f 0 subs ∧ s' = s ∧ t' = .waiting f subs) ∨
    (∃ f n subs, t = .submitting f (n + 1) subs ∧ s' = submit s .io ∧
      t' = .submitting f n (subs ++ [s.nextFuture])) ∨
    (∃ f subs, t = .waiting f subs ∧ (∀ j ∈ subs, j ∈ s.finished) ∧
      s' = { s with finished := f :: s.finished } ∧ t' = .idle) := by
  cases t with
  -- an idle thread takes the first job of the queue
  | idle =>
      simp only [threadStep] at h
      split at h
      · cases h
      · cases h
        exact .inl ⟨_, _, _, rfl, ‹_›, rfl, rfl⟩
      · cases h
        exact .inl ⟨_, _, _, rfl, ‹_›, rfl, rfl⟩
  -- an I/O job ends
  | io f =>
      cases h
      exact .inr (.inl ⟨f, rfl, rfl, rfl⟩)
  -- `batched_contains` submits one job for each key from inside the pool
  | submitting f left subs =>
      cases left with
      | zero =>
          cases h
          exact .inr (.inr (.inl ⟨f, subs, rfl, rfl, rfl⟩))
      | succ n =>
          cases h
          exact .inr (.inr (.inr (.inl ⟨f, n, subs, rfl, rfl, rfl⟩)))
  -- and then holds its thread until they have finished
  | waiting f subs =>
      simp only [threadStep] at h
      split at h
      · cases h
        exact .inr (.inr (.inr (.inr ⟨f, subs, rfl, ‹_›, rfl, rfl⟩)))
      · cases h

theorem step_worker_iff {s s' : St} {w : ℕ} :
    step s (.worker w) = some s' ↔ ∃ t r t', s.threads[w]? = some t ∧
      threadStep s t = some (r, t') ∧ s' = { r with threads := s.threads.set w t' } := by
  simp only [step, Option.bind_eq_some_iff, Option.map_eq_some_iff]
  constructor
  · rintro ⟨t, ht, ⟨r, t'⟩, hr, rfl⟩
    exact ⟨t, r, t', ht, hr, rfl⟩
  · rintro ⟨t, r, t', ht, hr, rfl⟩
    exact ⟨t, ht, ⟨r, t'⟩, hr, rfl⟩

/-- A thread's step from outside to inside a `batched_contains` with keys is
the pick-up of one. -/
theorem pickup_of_holds {s s' : St} {t t' : Thread} (h : threadStep s t = some (s', t'))
    (hout : holdsContains t = false) (hin : holdsContains t' = true) :
    t = .idle ∧ batchNext s = true := by
  rcases threadStep_cases h with ⟨f, w, rest, rfl, hq, -, rfl⟩ | ⟨f, rfl, -, rfl⟩ |
    ⟨f, subs, rfl, -, rfl⟩ | ⟨f, n, subs, rfl, -, rfl⟩ | ⟨f, subs, rfl, -, -, rfl⟩
  · refine ⟨rfl, ?_⟩
    cases w with
    | io => simp [holdsContains] at hin
    | batchedContains n =>
        cases n with
        | zero => simp [holdsContains] at hin
        | succ n => simp [batchNext, hq]
  · simp [holdsContains] at hin
  · simp only [holdsContains, Nat.zero_add] at hout hin
    rw [hout] at hin
    cases hin
  · simp [holdsContains] at hout
  · simp [holdsContains] at hin

/-! ## The invariants -/

/-- Some thread is outside every `batched_contains` with keys. -/
def OneFree (s : St) : Prop := ∃ v : ℕ, (s.threads[v]?).map holdsContains = some false

/-- A future a thread collects from. -/
def awaits : Thread → List ℕ
  | .submitting _ _ subs | .waiting _ subs => subs
  | _ => []

/-- A future is not lost: its job is queued, running or finished. -/
def Live (s : St) (j : ℕ) : Prop :=
  ⟨j, .io⟩ ∈ s.queue ∨ .io j ∈ s.threads ∨ j ∈ s.finished

def NoLost (s : St) : Prop := ∀ t ∈ s.threads, ∀ j ∈ awaits t, Live s j

theorem step_oneFree {s s' : St} {a : Lbl} (hinv : OneFree s) (hok : KeepsOneFree s a)
    (hst : step s a = some s') : OneFree s' := by
  cases a with
  | call w =>
      cases hst
      obtain ⟨v, hv⟩ := hinv
      exact ⟨v, hv⟩
  | worker w =>
      obtain ⟨t, r, t', ht, hr, rfl⟩ := step_worker_iff.mp hst
      have hlt : w < s.threads.length := (List.getElem?_eq_some_iff.mp ht).1
      obtain ⟨v, hv⟩ := hinv
      by_cases hvw : v = w
      · subst hvw
        rw [ht, Option.map_some, Option.some.injEq] at hv
        cases hin : holdsContains t' with
        | false => exact ⟨v, by simp [hlt, hin]⟩
        | true =>
            -- the free thread picked up a batch: the condition leaves another one
            obtain ⟨rfl, hq⟩ := pickup_of_holds hr hv hin
            obtain ⟨u, -, hne, hu⟩ := hok ht hq
            exact ⟨u, by rw [List.getElem?_set_ne hne.symm, hu]⟩
      · exact ⟨v, by rw [List.getElem?_set_ne (Ne.symm hvw), hv]⟩

/-- A step of thread `w` keeps every future alive. -/
theorem live_step {s r : St} {w j : ℕ} {t t' : Thread} (ht : s.threads[w]? = some t)
    (hr : threadStep s t = some (r, t')) (hj : Live s j) :
    Live { r with threads := s.threads.set w t' } j := by
  have hlt : w < s.threads.length := (List.getElem?_eq_some_iff.mp ht).1
  have hnew : t' ∈ s.threads.set w t' := List.mem_set hlt t'
  -- a running job other than the stepping thread's own keeps running
  have hkeep : .io j ∈ s.threads → t ≠ .io j → .io j ∈ s.threads.set w t' := by
    intro hmem hne
    obtain ⟨v, hv⟩ := List.mem_iff_getElem?.mp hmem
    have hvw : w ≠ v := by
      rintro rfl
      rw [ht, Option.some.injEq] at hv
      exact hne hv
    exact List.mem_iff_getElem?.mpr ⟨v, by rw [List.getElem?_set_ne hvw, hv]⟩
  rcases threadStep_cases hr with ⟨f, wk, rest, rfl, hq, rfl, rfl⟩ | ⟨f, rfl, rfl, rfl⟩ |
    ⟨f, subs, rfl, rfl, rfl⟩ | ⟨f, n, subs, rfl, rfl, rfl⟩ | ⟨f, subs, rfl, -, rfl, rfl⟩
  · rcases hj with hj | hj | hj
    · rw [hq] at hj
      rcases List.mem_cons.mp hj with hj | hj
      · cases hj
        exact .inr (.inl hnew)
      · exact .inl hj
    · exact .inr (.inl (hkeep hj (by simp)))
    · exact .inr (.inr hj)
  · rcases hj with hj | hj | hj
    · exact .inl hj
    · by_cases hf : f = j
      · exact .inr (.inr (by simp [hf]))
      · exact .inr (.inl (hkeep hj (by simpa using hf)))
    · exact .inr (.inr (List.mem_cons_of_mem _ hj))
  · exact hj.imp id (Or.imp (fun h => hkeep h (by simp)) id)
  · rcases hj with hj | hj | hj
    · exact .inl (List.mem_append_left _ hj)
    · exact .inr (.inl (hkeep hj (by simp)))
    · exact .inr (.inr hj)
  · rcases hj with hj | hj | hj
    · exact .inl hj
    · exact .inr (.inl (hkeep hj (by simp)))
    · exact .inr (.inr (List.mem_cons_of_mem _ hj))

theorem step_noLost {s s' : St} {a : Lbl} (hinv : NoLost s) (hst : step s a = some s') :
    NoLost s' := by
  cases a with
  | call w =>
      cases hst
      intro t ht j hj
      rcases hinv t ht j hj with h | h | h
      · exact .inl (List.mem_append_left _ h)
      · exact .inr (.inl h)
      · exact .inr (.inr h)
  | worker w =>
      obtain ⟨t, r, t', ht, hr, rfl⟩ := step_worker_iff.mp hst
      have htm : t ∈ s.threads := List.mem_of_getElem? ht
      intro u hu j hj
      rcases List.mem_or_eq_of_mem_set hu with hu | rfl
      · exact live_step ht hr (hinv u hu j hj)
      · -- the stepping thread: what it awaits now it awaited before, or has just submitted
        by_cases hold : j ∈ awaits t
        · exact live_step ht hr (hinv t htm j hold)
        · rcases threadStep_cases hr with ⟨f, wk, rest, rfl, -, -, rfl⟩ | ⟨f, rfl, -, rfl⟩ |
            ⟨f, subs, rfl, -, rfl⟩ | ⟨f, n, subs, rfl, rfl, rfl⟩ | ⟨f, subs, rfl, -, -, rfl⟩
          · cases wk <;> simp [awaits] at hj
          · simp [awaits] at hj
          · exact absurd hj hold
          · rcases List.mem_append.mp hj with hj | hj
            · exact absurd hj hold
            · rw [List.mem_singleton.mp hj]
              exact .inl (List.mem_append_right _ (List.mem_singleton.mpr rfl))
          · simp [awaits] at hj

/-! ## Progress -/

theorem canStep_of_threadStep {s : St} {w : ℕ} {t : Thread} (ht : s.threads[w]? = some t)
    (h : (threadStep s t).isSome) : CanStep s :=
  ⟨w, by simp [step, ht, h]⟩

theorem canStep_of_io {s : St} {j : ℕ} (h : .io j ∈ s.threads) : CanStep s := by
  obtain ⟨w, hw⟩ := List.mem_iff_getElem?.mp h
  exact canStep_of_threadStep hw rfl

/-- With an empty queue, a thread that is not idle can step or waits for a job
that can. -/
theorem canStep_of_busy {s : St} (hlost : NoLost s) (hq : s.queue = []) {t : Thread}
    (ht : t ∈ s.threads) (hbusy : t ≠ .idle) : CanStep s := by
  obtain ⟨w, hw⟩ := List.mem_iff_getElem?.mp ht
  cases t with
  | idle => exact absurd rfl hbusy
  | io f => exact canStep_of_io ht
  | submitting f left subs =>
      refine canStep_of_threadStep hw ?_
      cases left <;> rfl
  | waiting f subs =>
      by_cases hall : ∀ j ∈ subs, j ∈ s.finished
      · exact canStep_of_threadStep hw (by simp only [threadStep, if_pos hall, Option.isSome_some])
      · push Not at hall
        obtain ⟨j, hj, hnot⟩ := hall
        rcases hlost _ ht j hj with h | h | h
        · rw [hq] at h
          simp at h
        · exact canStep_of_io h
        · exact absurd h hnot

theorem canStep_of_inv {s : St} (hfree : OneFree s) (hlost : NoLost s) (hun : Unfinished s) :
    CanStep s := by
  by_cases hq : s.queue = []
  · rcases hun with h | ⟨t, ht, hbusy⟩
    · exact absurd hq h
    · exact canStep_of_busy hlost hq ht hbusy
  · -- the queue has work and the free thread either takes it or is itself able to step
    obtain ⟨v, hv⟩ := hfree
    obtain ⟨t, hv, ht⟩ := Option.map_eq_some_iff.mp hv
    refine canStep_of_threadStep hv ?_
    cases t with
    | idle =>
        obtain ⟨⟨f, w⟩, rest, hq⟩ := List.exists_cons_of_ne_nil hq
        cases w <;> simp [threadStep, hq]
    | io f => rfl
    | submitting f left subs => cases left <;> rfl
    | waiting f subs =>
        have hnil : subs = [] := by simpa [holdsContains] using ht
        simp [threadStep, hnil]

/-- In every run that never puts a `batched_contains` with keys on the last
free thread, every state with an unfinished call has a thread that can step. -/
theorem some_thread_can_step {ioWorkers : ℕ} (hpos : 0 < ioWorkers) {s : St}
    (h : (machine ioWorkers).ReachableVia KeepsOneFree s) (hun : Unfinished s) : CanStep s := by
  have hinv : OneFree s ∧ NoLost s := by
    refine h.invariant (fun s => OneFree s ∧ NoLost s) ?_ ?_
    · rintro s rfl
      refine ⟨⟨0, by simp [initial, hpos, holdsContains]⟩, ?_⟩
      intro t ht j hj
      rw [List.eq_of_mem_replicate ht] at hj
      simp [awaits] at hj
    · intro s a s' hinv hok hst
      exact ⟨step_oneFree hinv.1 hok hst, step_noLost hinv.2 hst⟩
  exact canStep_of_inv hinv.1 hinv.2 hun

/-- One lookup of two keys on a pool of two threads, followed up to the point
where one thread waits and the other has taken the first key. -/
def oneLookup : List Lbl :=
  [.call (.batchedContains 2), .worker 0, .worker 0, .worker 0, .worker 0, .worker 1]

/-- With two threads, one `batched_async_contains` in flight leaves a thread free. -/
theorem one_lookup_can_step :
    ∃ s, (machine 2).run (initial 2) oneLookup = some s ∧ Unfinished s ∧ CanStep s := by
  have hok : (machine 2).Along KeepsOneFree (initial 2) oneLookup :=
    Machine.along_of_alongB (by decide)
  refine ⟨_, rfl, .inr ⟨.io 1, by decide, by decide⟩, ?_⟩
  exact some_thread_can_step (by decide)
    ((Machine.ReachableVia.init (rfl : (machine 2).Init (initial 2))).run hok rfl)
    (.inr ⟨.io 1, by decide, by decide⟩)

/-- Sixteen lookups of one key each reach the default pool of sixteen threads
at once; every thread picks one up, submits its key and waits. -/
def sixteenLookups : List Lbl :=
  List.replicate 16 (.call (.batchedContains 1)) ++
    (List.range 16).map .worker ++ (List.range 16).map .worker ++ (List.range 16).map .worker

/-- All sixteen threads wait for jobs that no thread is left to run. -/
theorem sixteen_lookups_deadlock :
    ∃ s, (machine 16).run (initial 16) sixteenLookups = some s ∧ Unfinished s ∧ ¬ CanStep s := by
  refine ⟨_, rfl, .inl (by decide), ?_⟩
  decide

end LmcacheDaos.Gds.Pool
