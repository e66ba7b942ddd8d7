import LmcacheDaos.Lib.Countdown
import LmcacheDaos.Nixl.Prepare
import LmcacheDaos.Nixl.Request

/-!
# The status of a NIXL request

`recordError`, `finishOne` and `checkXfer` (`daos_backend.h`,
`daos_backend.cpp`), over the runs of `Nixl.Request`. A job records the error of
its group, if there is one, and decrements `pending` in a later step; `checkXfer`
loads `pending` and then `status`, and jobs may step in between.

With the lock and the release left out, a request is a countdown that keeps the
first error (`Lib.Countdown`): every run of the one is a run of the other
(`latch_run`).

Result: as long as the request is not posted or a group of it has not finished,
a poll says so. Once all groups have, every poll gives one answer until the
request is posted again: that of the group whose error was recorded first.
-/

namespace LmcacheDaos.Nixl.Request

open Lib
open Transfer (XferOp)

/-! ## What a group records -/

/-- What the call for a group leaves behind: its return code and the `iod_size`
of each iod. -/
structure Outcome where
  rc : ℤ
  iodSizes : List ℕ
deriving DecidableEq, Repr

/-- What the job passes to `recordError`, if it does. -/
def Outcome.error (op : XferOp) (o : Outcome) : Option Status :=
  if o.rc ≠ 0 then some .errBackend
  else if op = .read ∧ 0 ∈ o.iodSizes then some .errNotFound
  else none

/-- The jobs of the run are for `op`, and `outcome` is what their calls leave. -/
def Follows (op : XferOp) (outcome : ℕ → Outcome) (as : List Lbl) : Prop :=
  ∀ i e, Lbl.job i (.record e) ∈ as → e = (outcome i).error op

/-! ## Polls -/

/-- `checkXfer` load by load: `posted` and `pending` in one state, `status` in a
later one. -/
def poll (s s' : St) : Status :=
  if !s.posted then .inProg else if s.pending ≠ 0 then .inProg else s'.status

/-- A poll whose loads see one state is `checkXfer`. -/
theorem poll_self (s : St) : poll s s = checkXfer s := rfl

/-- Not posted, or a group has yet to be submitted or to count down. -/
def Unfinished (s : St) : Prop :=
  s.posted = false ∨ (∃ k, s.caller = .posting k) ∨
    ∃ j ∈ s.jobs, j = .queued ∨ j = .io ∨ j = .finishing

/-! ## A request as a countdown -/

def Job.phase : Job → Countdown.Phase
  | .queued | .io => .running
  | .finishing => .recorded
  | _ => .counted

def St.latch (s : St) : Countdown.St Status where
  armed := s.posted
  pending := s.pending
  remaining := s.caller.remaining
  first := if s.status = .success then none else some s.status
  phases := s.jobs.map Job.phase

/-- What a step of the request is for the countdown. -/
def shadow (n : ℕ) : Lbl → List (Countdown.Lbl Status)
  | .post => if n = 0 then [] else [.arm]
  | .submit => [.submit]
  | .job i (.record e) => [.record i e]
  | .job i .decrement => [.count i]
  | _ => []

/-- The jobs that have recorded since the last `postXfer`, in that order. -/
def recorded (n : ℕ) (as : List Lbl) : List ℕ :=
  (Countdown.records (as.flatMap (shadow n))).map Prod.fst

/-- Of the jobs' errors the first. -/
def firstError (op : XferOp) (outcome : ℕ → Outcome) (order : List ℕ) : Option Status :=
  order.findSome? fun i => (outcome i).error op

/-- The status is the first error recorded, or success. -/
theorem status_eq (s : St) : s.status = s.latch.first.getD .success := by
  simp only [St.latch]
  split
  · assumption
  · rfl

/-- A job that only moves within its phase. -/
theorem phases_set {s : St} {i : ℕ} {j j' : Job} (hj : s.jobs[i]? = some j)
    (hphase : j'.phase = j.phase) : (s.jobs.set i j').map Job.phase = s.jobs.map Job.phase := by
  rw [List.map_set, hphase]
  apply List.ext_getElem?
  intro k
  by_cases hk : k = i
  · subst hk
    rw [List.getElem?_set_self', List.getElem?_map, hj]
    rfl
  · rw [List.getElem?_set_ne (Ne.symm hk)]

/-- What is recorded is an error. -/
def Reports : Lbl → Prop
  | .job _ (.record e) => e ≠ some .success
  | _ => True

/-- Where the caller is matters by the groups it has still to submit. -/
theorem latch_caller {s : St} {c : Caller} {b : Bool} (h : c.remaining = s.caller.remaining) :
    St.latch { s with caller := c, doneMtx := b } = s.latch := by
  simp only [St.latch, h]

/-- A job that moves within its phase, with the caller where it is or woken. -/
theorem latch_quiet {s : St} {i : ℕ} {j : Job} (hj : s.jobs[i]? = some j) (j' : Job)
    (hphase : j'.phase = j.phase) (c : Caller) (b : Bool)
    (hrem : c.remaining = s.caller.remaining) :
    St.latch { s with caller := c, doneMtx := b, jobs := s.jobs.set i j' } = s.latch := by
  simp only [St.latch, hrem, phases_set hj hphase]

/-- The phase of a job. -/
theorem getElem?_phases {s : St} {i : ℕ} {j : Job} (hj : s.jobs[i]? = some j) :
    s.latch.phases[i]? = some j.phase := by
  rw [St.latch, List.getElem?_map, hj]
  rfl

/-- A step of the request is one of the countdown, or leaves it as it is. -/
theorem latch_step {n : ℕ} {s s' : St} {a : Lbl} (ha : Reports a) (hst : step n s a = some s') :
    (Countdown.machine n).run s.latch (shadow n a) = some s'.latch := by
  cases moves_of_step hst with
  | postNone hn => rw [shadow, if_pos hn]; rfl
  | post hn hcaller hpend =>
      subst hn
      simp [shadow, Machine.run, Countdown.machine, Countdown.step, St.latch, hpend,
        Caller.remaining]
  | submit hcaller | submitLast hcaller =>
      simp [shadow, Machine.run, Countdown.machine, Countdown.step, St.latch, hcaller,
        Caller.remaining, Job.phase]
  | check => rfl
  | release hcaller =>
      refine congrArg some (latch_caller ?_).symm
      rw [hcaller]
      split <;> rfl
  | acquire hcaller _ | seen hcaller _ | wait hcaller _ | wake hcaller | leave hcaller
  | delete hcaller =>
      refine congrArg some (latch_caller ?_).symm
      rw [hcaller]
      rfl
  | succeed hj =>
      rw [shadow, Machine.run_singleton]
      refine (if_pos (getElem?_phases hj)).trans ?_
      simp [St.latch, Job.phase, List.map_set]
  | fail hj =>
      -- `recordError` keeps an error that is there, as the countdown does
      rename_i i e
      have he : e ≠ .success := fun h => ha (congrArg some h)
      rw [shadow, Machine.run_singleton]
      refine (if_pos (getElem?_phases hj)).trans ?_
      by_cases hsucc : s.status = .success
      · simp [St.latch, Job.phase, List.map_set, hsucc, he]
      · simp [St.latch, Job.phase, List.map_set, hsucc]
  | decrement hj =>
      -- the last job goes on to the lock: counted all the same
      rw [shadow, Machine.run_singleton]
      refine (if_pos (getElem?_phases hj)).trans ?_
      split <;> simp [St.latch, Job.phase, List.map_set]
  | start hj => exact congrArg some (latch_quiet hj .io rfl s.caller s.doneMtx rfl).symm
  | lock hj _ => exact congrArg some (latch_quiet hj .locked rfl s.caller true rfl).symm
  | notify hj =>
      -- a waiter that is woken has submitted everything long ago
      refine congrArg some (latch_quiet hj .notified rfl _ s.doneMtx ?_).symm
      split
      · rename_i hwaits
        rw [hwaits]
        rfl
      · rfl
  | unlock hj => exact congrArg some (latch_quiet hj .done rfl s.caller false rfl).symm

/-! ## Runs -/

section Runs

variable {n : ℕ} {op : XferOp} {outcome : ℕ → Outcome} {as : List Lbl} {s s' : St}

/-- Success is not recorded as an error. -/
theorem Outcome.error_ne (op : XferOp) (o : Outcome) : o.error op ≠ some .success := by
  unfold Outcome.error
  split
  · simp
  · split <;> simp

/-- What follows the outcomes reports errors only. -/
theorem Follows.reports (h : Follows op outcome as) : ∀ a ∈ as, Reports a := by
  intro a ha
  unfold Reports
  split
  · rename_i i e
    rw [h i e ha]
    exact Outcome.error_ne op _
  · trivial

/-- A run that follows the outcomes does so in both parts. -/
theorem Follows.of_append {bs : List Lbl} (h : Follows op outcome (as ++ bs)) :
    Follows op outcome as ∧ Follows op outcome bs :=
  ⟨fun i e hmem => h i e (List.mem_append_left _ hmem),
    fun i e hmem => h i e (List.mem_append_right _ hmem)⟩

/-- A run of the request is one of the countdown. -/
theorem latch_run (h : Follows op outcome as) (hrun : (machine n).run s as = some s') :
    (Countdown.machine n).run s.latch (as.flatMap (shadow n)) = some s'.latch :=
  Machine.run_simulates (fun _ _ _ ha hst => latch_step ha hst) h.reports hrun

/-- Seen as a countdown, the request keeps the countdown's invariant. -/
theorem latch_inv (h : Follows op outcome as) (hrun : (machine n).run initial as = some s) :
    Countdown.Inv n (Countdown.records (as.flatMap (shadow n))) s.latch :=
  Countdown.run_inv (latch_run h hrun)

/-- What the countdown records was recorded by a job. -/
theorem mem_shadow {i : ℕ} {e : Option Status}
    (h : .record i e ∈ as.flatMap (shadow n)) : Lbl.job i (.record e) ∈ as := by
  rcases List.mem_flatMap.mp h with ⟨a, ha, hmem⟩
  unfold shadow at hmem
  split at hmem
  · split at hmem <;> simp at hmem
  · simp at hmem
  · simp only [List.mem_singleton, Countdown.Lbl.record.injEq] at hmem
    rw [hmem.1, hmem.2]
    exact ha
  · simp at hmem
  · simp at hmem

/-- It is armed by the post alone. -/
theorem arm_not_mem (h : Lbl.post ∉ as) : .arm ∉ as.flatMap (shadow n) := by
  intro hmem
  rcases List.mem_flatMap.mp hmem with ⟨a, ha, hmem⟩
  unfold shadow at hmem
  split at hmem
  · exact h ha
  all_goals simp at hmem

/-- The first error of the countdown is that of the first failing group to record. -/
theorem findSome_records (h : Follows op outcome as) :
    (Countdown.records (as.flatMap (shadow n))).findSome? Prod.snd =
      firstError op outcome (recorded n as) := by
  have hrecs : (Countdown.records (as.flatMap (shadow n))).map
      (fun p => (p.1, (outcome p.1).error op)) = Countdown.records (as.flatMap (shadow n)) := by
    refine (List.map_congr_left fun p hp => ?_).trans (List.map_id _)
    rw [← h p.1 p.2 (mem_shadow (Countdown.mem_of_mem_records hp))]
    rfl
  rw [firstError, recorded, List.findSome?_map, ← hrecs, List.findSome?_map, hrecs]
  rfl

/-- What `pending` says. -/
theorem unfinished_iff (h : Follows op outcome as) (hrun : (machine n).run initial as = some s) :
    Unfinished s ↔ s.posted = false ∨ s.pending ≠ 0 := by
  have hinv := latch_inv h hrun
  have hsum : s.pending =
      ((s.jobs.map Job.phase).map Countdown.Phase.undone).sum + s.caller.remaining :=
    hinv.pending_eq
  constructor
  · rintro (hposted | ⟨k, hcaller⟩ | ⟨j, hj, hphase⟩)
    · exact .inl hposted
    · -- a group that is not submitted is counted
      rw [hcaller, Caller.remaining] at hsum
      exact .inr (by omega)
    · -- so is one whose job has not decremented
      have hundone : j.phase.undone = 1 := by
        rcases hphase with rfl | rfl | rfl <;> rfl
      have hle := List.le_sum_of_mem (List.mem_map_of_mem (f := Countdown.Phase.undone)
        (List.mem_map_of_mem (f := Job.phase) hj))
      exact .inr (by omega)
  · rintro (hposted | hpend)
    · exact .inl hposted
    · rw [hsum] at hpend
      by_cases hrem : s.caller.remaining = 0
      · rw [hrem, Nat.add_zero] at hpend
        rcases List.exists_mem_ne_zero_of_sum_ne_zero hpend with ⟨u, hu, hne⟩
        rw [List.map_map] at hu
        rcases List.mem_map.mp hu with ⟨j, hj, rfl⟩
        refine .inr (.inr ⟨j, hj, ?_⟩)
        cases j <;> simp_all [Job.phase, Countdown.Phase.undone]
      · refine .inr (.inl ?_)
        cases hc : s.caller <;> simp_all [Caller.remaining]

/-- When all groups have finished, nothing but `postXfer` changes the counters. -/
theorem latch_stuck {recs : List (ℕ × Option Status)} (hinv : Countdown.Inv n recs s.latch)
    (hpend : s.pending = 0) (h : Follows op outcome as) (hpost : .post ∉ as)
    (hrun : (machine n).run s as = some s') : s'.latch = s.latch :=
  hinv.run_stuck hpend (arm_not_mem hpost) (latch_run h hrun)

/-- From the end on every poll answers the same. -/
theorem poll_eq (h : Follows op outcome as) (hrun : (machine n).run initial as = some s)
    (hposted : s.posted = true) (hpend : s.pending = 0) {bs : List Lbl}
    (hbs : Follows op outcome bs) (hpost : .post ∉ bs) (hlater : (machine n).run s bs = some s') :
    poll s s' = (firstError op outcome (recorded n as)).getD .success := by
  have hinv := latch_inv h hrun
  have hlatch := latch_stuck hinv hpend hbs hpost hlater
  calc poll s s' = s'.status := by rw [poll, hposted, hpend]; rfl
    _ = s.latch.first.getD .success := by rw [status_eq, hlatch]
    _ = (firstError op outcome (recorded n as)).getD .success := by
        rw [hinv.first_eq, findSome_records h]

/-- Every group of the round has recorded, once. -/
theorem recorded_perm (h : Follows op outcome as) (hrun : (machine n).run initial as = some s)
    (hposted : s.posted = true) (hpend : s.pending = 0) :
    (recorded n as).Perm (List.range' (s.jobs.length - n) n) := by
  have hall := (latch_inv h hrun).finished hposted hpend
  rwa [St.latch, List.length_map] at hall

/-- That is success exactly if every group succeeded. -/
theorem getD_firstError {order : List ℕ} : (firstError op outcome order).getD .success = .success ↔
    ∀ i ∈ order, (outcome i).error op = none := by
  cases hfirst : firstError op outcome order with
  | none => exact iff_of_true rfl (List.findSome?_eq_none_iff.mp hfirst)
  | some e =>
      rcases List.exists_of_findSome?_eq_some hfirst with ⟨i, hi, he⟩
      refine iff_of_false ?_ ?_
      · -- no job reports success as an error
        rintro rfl
        exact Outcome.error_ne op _ he
      · intro hall
        rw [hall i hi] at he
        cases he

/-- What a poll that answers success tells. -/
theorem succeeded {bs : List Lbl} (h : Follows op outcome (as ++ bs))
    (hrun : (machine n).run initial as = some s) (hpost : .post ∉ bs)
    (hlater : (machine n).run s bs = some s') (hpoll : poll s s' = .success) :
    s.posted = true ∧ s.pending = 0 ∧ ∀ i ∈ recorded n as, (outcome i).error op = none := by
  have hposted : s.posted = true := by
    cases hp : s.posted with
    | true => rfl
    | false => simp [poll, hp] at hpoll
  have hpend : s.pending = 0 := by
    by_contra hne
    simp [poll, hposted, hne] at hpoll
  rw [poll_eq h.of_append.1 hrun hposted hpend h.of_append.2 hpost hlater] at hpoll
  exact ⟨hposted, hpend, getD_firstError.mp hpoll⟩

/-- The `g`-th group has recorded. -/
theorem exists_recorded (h : Follows op outcome as) (hrun : (machine n).run initial as = some s)
    (hposted : s.posted = true) (hpend : s.pending = 0) {g : ℕ} (hg : g < n) :
    ∃ i ∈ recorded n as, i % n = g := by
  have hinv := latch_inv h hrun
  have hsum : s.pending = _ + s.caller.remaining := hinv.pending_eq
  have hrounds : n ∣ s.jobs.length := by
    have hupTo : n ∣ (s.jobs.map Job.phase).length + s.caller.remaining := hinv.rounds
    rwa [show s.caller.remaining = 0 by omega, List.length_map] at hupTo
  -- the jobs of earlier rounds come in whole rounds
  refine ⟨s.jobs.length - n + g, ?_, ?_⟩
  · rw [(recorded_perm h hrun hposted hpend).mem_iff, List.mem_range'_1]
    omega
  · rw [Nat.add_mod, Nat.mod_eq_zero_of_dvd (Nat.dvd_sub hrounds (Nat.dvd_refl n)), Nat.zero_add,
      Nat.mod_mod, Nat.mod_eq_of_lt hg]

end Runs

/-! ## A run to the end -/

/-- The steps of a job that succeeds. -/
def succeeds (i : ℕ) : List Lbl := [.job i .start, .job i (.record none), .job i .decrement]

/-- All groups are submitted and succeed one after the other. -/
def straight (n : ℕ) : List Lbl :=
  .post :: (List.replicate n .submit ++ (List.range n).flatMap succeeds)

/-- The loop of `postXfer`, to its end. -/
theorem run_submits {n k : ℕ} {s : St} (hcaller : s.caller = .posting k) :
    (machine n).run s (List.replicate (k + 1) .submit) =
      some { s with caller := .idle, jobs := s.jobs ++ List.replicate (k + 1) .queued } := by
  induction k generalizing s with
  | zero =>
      simp [Machine.run, machine, step, hcaller]
  | succ k ih =>
      rw [List.replicate_succ, Machine.run]
      have hst : (machine n).step s .submit =
          some { s with jobs := s.jobs ++ [.queued], caller := .posting k } := by
        simp [machine, step, hcaller]
      rw [hst, Option.bind_some, ih rfl]
      simp [List.replicate_succ]

/-- One queued job that succeeds, from start to end. -/
theorem run_succeeds (n : ℕ) {i : ℕ} {s : St} (hi : s.jobs[i]? = some .queued) :
    ∃ s', (machine n).run s (succeeds i) = some s' ∧ s'.posted = s.posted ∧
      s'.pending = s.pending - 1 ∧ ∀ k, k ≠ i → s'.jobs[k]? = s.jobs[k]? := by
  have hlt : i < s.jobs.length := (List.getElem?_eq_some_iff.mp hi).1
  have hstart : step n s (.job i .start) = some { s with jobs := s.jobs.set i .io } :=
    step_job_iff.mpr ⟨_, _, _, hi, rfl, rfl⟩
  have hrecord : step n { s with jobs := s.jobs.set i .io } (.job i (.record none)) =
      some { s with jobs := s.jobs.set i .finishing } :=
    step_job_iff.mpr ⟨_, _, _, List.getElem?_set_self hlt, rfl, by simp⟩
  have hdecrement : step n { s with jobs := s.jobs.set i .finishing } (.job i .decrement) =
      some { s with
        pending := s.pending - 1
        jobs := s.jobs.set i (if s.pending = 1 then .last else .done) } :=
    step_job_iff.mpr ⟨_, _, _, List.getElem?_set_self hlt, rfl, by simp⟩
  have hrun : (machine n).run s (succeeds i) = some { s with
      pending := s.pending - 1
      jobs := s.jobs.set i (if s.pending = 1 then .last else .done) } := by
    simp only [succeeds, Machine.run, machine, hstart, hrecord, hdecrement, Option.bind_some]
  exact ⟨_, hrun, rfl, rfl, fun k hk => List.getElem?_set_ne (Ne.symm hk)⟩

/-- All of them, one after the other. -/
theorem run_all_succeed (n : ℕ) {is : List ℕ} (hnodup : is.Nodup) {s : St}
    (hqueued : ∀ i ∈ is, s.jobs[i]? = some .queued) :
    ∃ s', (machine n).run s (is.flatMap succeeds) = some s' ∧ s'.posted = s.posted ∧
      s'.pending = s.pending - is.length := by
  induction is generalizing s with
  | nil => exact ⟨s, rfl, rfl, rfl⟩
  | cons i is ih =>
      rw [List.nodup_cons] at hnodup
      rcases run_succeeds n (hqueued i List.mem_cons_self) with ⟨t, hrun, hposted, hpend, hothers⟩
      have hrest : ∀ k ∈ is, t.jobs[k]? = some .queued := by
        intro k hk
        rw [hothers k (fun heq => hnodup.1 (heq ▸ hk)), hqueued k (List.mem_cons_of_mem _ hk)]
      rcases ih hnodup.2 hrest with ⟨s', hrun', hposted', hpend'⟩
      refine ⟨s', ?_, hposted'.trans hposted, ?_⟩
      · rw [List.flatMap_cons, Machine.run_append, hrun]
        exact hrun'
      · rw [hpend', hpend, List.length_cons]
        omega

/-- A run in which everything succeeds ends with `pending == 0`. -/
theorem run_straight {n : ℕ} (hn : 0 < n) :
    ∃ s, (machine n).run initial (straight n) = some s ∧ s.posted = true ∧ s.pending = 0 := by
  rcases Nat.exists_eq_succ_of_ne_zero hn.ne' with ⟨k, rfl⟩
  have hpost : (machine (k + 1)).step initial .post =
      some { initial with pending := k + 1, posted := true, caller := .posting k } := rfl
  have hqueued : ∀ i ∈ List.range (k + 1),
      (List.replicate (k + 1) Job.queued)[i]? = some .queued := by
    intro i hi
    rw [List.mem_range] at hi
    simp [hi]
  rcases run_all_succeed (k + 1) List.nodup_range
    (s := { initial with
      pending := k + 1, posted := true, jobs := List.replicate (k + 1) .queued }) hqueued with
    ⟨s, hrun, hposted, hpend⟩
  refine ⟨s, ?_, hposted, ?_⟩
  · rw [straight, Machine.run, hpost, Option.bind_some, Machine.run_append, run_submits rfl]
    exact hrun
  · rw [hpend, List.length_range]
    exact Nat.sub_self _

/-- It follows outcomes without errors. -/
theorem follows_straight {n : ℕ} {op : XferOp} {outcome : ℕ → Outcome}
    (h : ∀ i, (outcome i).error op = none) : Follows op outcome (straight n) := by
  intro i e hmem
  rw [h i]
  simp only [straight, List.mem_cons, List.mem_append, List.mem_replicate, List.mem_flatMap,
    succeeds] at hmem
  simp_all

/-- For every number of groups, every outcome of each and every order of the
jobs' steps and the polls: a poll of a request that is not posted or has an
unfinished group says that it is in progress. From when all groups have
finished, each having recorded once, the polls give one answer: success exactly
if every group succeeded, otherwise the error that was recorded first. -/
theorem polls_settle {n : ℕ} {op : XferOp} {outcome : ℕ → Outcome} {as : List Lbl} {s : St}
    (h : Follows op outcome as) (hrun : (machine n).run initial as = some s) :
    (Unfinished s → ∀ s', poll s s' = .inProg) ∧
    (¬ Unfinished s →
      (recorded n as).Perm (List.range' (s.jobs.length - n) n) ∧
      ∀ bs s₁ cs s₂, Follows op outcome (bs ++ cs) → .post ∉ bs ++ cs →
        (machine n).run s bs = some s₁ → (machine n).run s₁ cs = some s₂ →
        (poll s₁ s₂ = .success ↔
          ∀ i ∈ List.range' (s.jobs.length - n) n, (outcome i).error op = none) ∧
        ∀ e, firstError op outcome (recorded n as) = some e → poll s₁ s₂ = e) := by
  rw [unfinished_iff h hrun]
  constructor
  · rintro hunfinished s'
    rw [poll]
    rcases hunfinished with hposted | hpend
    · rw [hposted]
      rfl
    · rw [if_pos hpend]
      exact ite_self _
  · intro hfinished
    rw [not_or, Bool.not_eq_false, not_not] at hfinished
    rcases hfinished with ⟨hposted, hpend⟩
    have hperm := recorded_perm h hrun hposted hpend
    refine ⟨hperm, ?_⟩
    intro bs s₁ cs s₂ hfollows hpost hbs hcs
    have hrest := Follows.of_append hfollows
    rw [List.mem_append, not_or] at hpost
    -- a later poll sees the same counters, so it may as well have begun in `s`
    have hlatch := latch_stuck (latch_inv h hrun) hpend hrest.1 hpost.1 hbs
    have hpoll : poll s₁ s₂ = poll s s₂ := by
      have hposted₁ : s₁.posted = s.posted := congrArg Countdown.St.armed hlatch
      have hpend₁ : s₁.pending = s.pending := congrArg Countdown.St.pending hlatch
      rw [poll, poll, hposted₁, hpend₁]
    have hlater : (machine n).run s (bs ++ cs) = some s₂ := by
      rw [Machine.run_append, hbs]
      exact hcs
    rw [hpoll, poll_eq h hrun hposted hpend hfollows (by simp [hpost]) hlater]
    constructor
    · rw [getD_firstError]
      exact forall_congr' fun i => by rw [hperm.mem_iff]
    · intro e hfirst
      rw [hfirst]
      rfl

/-- Two groups, the first of which fails after the second has recorded that an
akey is absent. -/
def secondFirst : List Lbl :=
  [.post, .submit, .submit, .job 1 .start, .job 0 .start, .job 1 (.record (some .errNotFound)),
    .job 0 (.record (some .errBackend)), .job 0 .decrement, .job 1 .decrement]

/-- Two failing groups; the second one records its error first. -/
theorem second_group_records_first :
    ∃ s, (machine 2).run initial secondFirst = some s ∧ ¬ Unfinished s ∧
      checkXfer s = .errNotFound := by
  have h : Follows .read (fun i => if i = 0 then ⟨-1, []⟩ else ⟨0, [1, 0]⟩) secondFirst := by
    intro i e hmem
    simp [secondFirst] at hmem
    rcases hmem with ⟨rfl, rfl⟩ | ⟨rfl, rfl⟩ <;> rfl
  have hrun : (machine 2).run initial secondFirst =
      some ⟨0, .errNotFound, true, false, .idle, [.done, .last]⟩ := by decide
  have hfinished : ¬ Unfinished ⟨0, .errNotFound, true, false, .idle, [.done, .last]⟩ := by
    simp [Unfinished]
  have hpolls := ((polls_settle h hrun).2 hfinished).2 [] _ [] _ (by simp [Follows]) (by simp)
    rfl rfl
  exact ⟨_, hrun, hfinished, hpolls.2 .errNotFound rfl⟩

end LmcacheDaos.Nixl.Request
