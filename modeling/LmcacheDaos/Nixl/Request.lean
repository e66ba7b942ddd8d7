import Mathlib.Algebra.Order.BigOperators.Group.List
import Mathlib.Algebra.Order.Group.Nat
import Mathlib.Tactic.Common
import LmcacheDaos.Lib.Machine

/-!
# The lifetime of a NIXL request

`nixlDaosBackendReqH` with `postXfer`, `checkXfer` and `releaseReqH`
(`daos_backend.h`, `daos_backend.cpp`). `postXfer` counts the groups into
`pending` and submits one job a group to the thread pool; the tail of a job is
`finishOne`, which decrements `pending` and, when it was the last, locks
`doneMtx`, notifies and unlocks. `releaseReqH` of a posted request waits in
`waitDone` until it sees `pending == 0` under `doneMtx`, and deletes.

Every one of these is a step of its own. A job's steps stay possible after the
request is deleted, so that a run can show a use after the delete. The caller
follows the order of NIXL: it polls and releases after `postXfer` has
returned, and posts again only what has finished.

Result: no job touches a deleted request in any run in which `waitDone` does
not find `pending == 0` while the job that brought it there has yet to lock
`doneMtx` (`EarlyRelease`); and every such release can go on to the use after
the delete. The lock in `finishOne` comes after the decrement, so it does not
keep a waiter from leaving in between.
-/

namespace LmcacheDaos.Nixl.Request

open Lib

/-- The part of `nixl_status_t` a request takes. -/
inductive Status where
  | success
  | inProg
  | errBackend
  | errNotFound
deriving DecidableEq, Repr

/-- Where a job of the request is. -/
inductive Job where
  /-- submitted, not picked up -/
  | queued
  /-- in its transfer: reads the group's vectors -/
  | io
  /-- at `finishOne` -/
  | finishing
  /-- has brought `pending` to 0, not yet at the lock -/
  | last
  /-- holds `doneMtx` -/
  | locked
  /-- holds `doneMtx`, has notified -/
  | notified
  | done
deriving DecidableEq, Repr

/-- Where the thread that owns the handle is. -/
inductive Caller where
  | idle
  /-- in the loop of `postXfer`, `k + 1` groups to go -/
  | posting (k : ℕ)
  /-- in `waitDone`, about to take `doneMtx` -/
  | acquiring
  /-- holds `doneMtx`, about to test `pending` -/
  | testing
  /-- in `doneCv.wait` -/
  | waiting
  /-- holds `doneMtx`, has seen `pending == 0` -/
  | leaving
  | deleting
  /-- `releaseReqH` has deleted the request -/
  | gone
deriving DecidableEq, Repr

structure St where
  pending : ℕ
  status : Status
  posted : Bool
  /-- `doneMtx` is held -/
  doneMtx : Bool
  caller : Caller
  /-- the jobs submitted so far -/
  jobs : List Job
deriving DecidableEq, Repr

/-- After `prepXfer`. -/
def initial : St := ⟨0, .success, false, false, .idle, []⟩

/-- `recordError`: the first error stays. -/
def recordError (s : St) (e : Status) : St :=
  if s.status = .success then { s with status := e } else s

/-- `checkXfer` -/
def checkXfer (s : St) : Status :=
  if !s.posted then .inProg else if s.pending ≠ 0 then .inProg else s.status

/-- What a job does with the request. -/
inductive JobAct where
  /-- picked up: reads the group's vectors from here on -/
  | start
  /-- the transfer ends, with an error to record or without -/
  | record (e : Option Status)
  /-- `pending.fetch_sub(1)` -/
  | decrement
  /-- locks `doneMtx` -/
  | lock
  /-- `doneCv.notify_all()` -/
  | notify
  /-- unlocks `doneMtx` -/
  | unlock
deriving DecidableEq, Repr

inductive Lbl where
  /-- `postXfer` up to its loop -/
  | post
  /-- one round of the loop: `pool_->submit` -/
  | submit
  | check
  /-- `releaseReqH` up to `waitDone` -/
  | release
  /-- `waitDone` takes `doneMtx` -/
  | acquire
  /-- `waitDone` evaluates `pending.load() == 0`, and waits otherwise -/
  | test
  /-- `doneCv.wait` wakes up by itself -/
  | wake
  /-- `waitDone` returns -/
  | leave
  | delete
  /-- the `i`-th job steps -/
  | job (i : ℕ) (a : JobAct)
deriving DecidableEq, Repr

/-- A job's step: the request and the job after it. -/
def jobStep (s : St) (j : Job) : JobAct → Option (St × Job)
  | .start => if j = .queued then some (s, .io) else none
  | .record e =>
      if j = .io then some (match e with | none => s | some e => recordError s e, .finishing)
      else none
  | .decrement =>
      if j = .finishing then
        some ({ s with pending := s.pending - 1 }, if s.pending = 1 then .last else .done)
      else none
  | .lock =>
      if j = .last ∧ s.doneMtx = false then some ({ s with doneMtx := true }, .locked) else none
  | .notify =>
      if j = .locked then
        some ({ s with caller := if s.caller = .waiting then .acquiring else s.caller }, .notified)
      else none
  | .unlock => if j = .notified then some ({ s with doneMtx := false }, .done) else none

/-- A step, for a request of `n` groups. -/
def step (n : ℕ) (s : St) : Lbl → Option St
  | .post =>
      -- NIXL posts a request again only after `checkXfer` reported its end
      if s.caller = .idle ∧ s.pending = 0 then
        match n with
        | 0 => some s
        | k + 1 => some { s with
            status := .success, pending := k + 1, posted := true, caller := .posting k }
      else none
  | .submit => match s.caller with
      | .posting k => some { s with
          jobs := s.jobs ++ [.queued]
          caller := match k with | 0 => .idle | k' + 1 => .posting k' }
      | _ => none
  | .check => if s.caller = .idle then some s else none
  | .release =>
      if s.caller = .idle then
        some { s with caller := if s.posted then .acquiring else .deleting }
      else none
  | .acquire =>
      if s.caller = .acquiring ∧ s.doneMtx = false then
        some { s with caller := .testing, doneMtx := true }
      else none
  | .test =>
      if s.caller = .testing then
        if s.pending = 0 then some { s with caller := .leaving }
        else some { s with caller := .waiting, doneMtx := false }
      else none
  | .wake => if s.caller = .waiting then some { s with caller := .acquiring } else none
  | .leave =>
      if s.caller = .leaving then some { s with caller := .deleting, doneMtx := false } else none
  | .delete => if s.caller = .deleting then some { s with caller := .gone } else none
  | .job i a => (s.jobs[i]?).bind fun j =>
      (jobStep s j a).map fun r => { r.1 with jobs := r.1.jobs.set i r.2 }

def machine (n : ℕ) : Machine St Lbl where
  Init s := s = initial
  step := step n

/-! ## Deleting the request before its last job has left it -/

/-- The request is deleted. -/
def Deleted (s : St) : Prop := s.caller = .gone

/-- `waitDone` finds `pending == 0` while a job that has decremented it is
still on its way to the lock. -/
def EarlyRelease (s : St) (a : Lbl) : Prop :=
  a = .test ∧ s.caller = .testing ∧ s.pending = 0 ∧ Job.last ∈ s.jobs

instance : DecidableRel EarlyRelease := fun s a =>
  inferInstanceAs (Decidable (a = .test ∧ s.caller = .testing ∧ s.pending = 0 ∧ Job.last ∈ s.jobs))

/-! ## Counting jobs and owners of the mutex -/

/-- The job has not decremented `pending`. -/
def Job.undone : Job → ℕ
  | .queued | .io | .finishing => 1
  | _ => 0

/-- The job holds `doneMtx`. -/
def Job.holds : Job → ℕ
  | .locked | .notified => 1
  | _ => 0

/-- Groups counted into `pending` whose job is not submitted yet. -/
def Caller.remaining : Caller → ℕ
  | .posting k => k + 1
  | _ => 0

/-- `releaseReqH` holds `doneMtx`. -/
def Caller.holds : Caller → ℕ
  | .testing | .leaving => 1
  | _ => 0

/-- `releaseReqH` will delete without looking again. -/
def Caller.released : Caller → Bool
  | .leaving | .deleting | .gone => true
  | _ => false

structure Inv (s : St) : Prop where
  pending_eq : s.pending = (s.jobs.map Job.undone).sum + s.caller.remaining
  doneMtx_eq : s.doneMtx.toNat = (s.jobs.map Job.holds).sum + s.caller.holds
  released : s.caller.released = true → ∀ j ∈ s.jobs, j = .done
  unposted : s.posted = false → s.jobs = [] ∧ s.caller.remaining = 0

/-! ## What a step can do -/

/-- The steps that are possible in `s`, each with the state after it. -/
inductive Moves (n : ℕ) (s : St) : Lbl → St → Prop where
  | postNone (hn : n = 0) : Moves n s .post s
  | post {k} (hn : n = k + 1) (hcaller : s.caller = .idle) (hpend : s.pending = 0) :
      Moves n s .post { s with
        status := .success, pending := k + 1, posted := true, caller := .posting k }
  | submit {k} (hcaller : s.caller = .posting (k + 1)) :
      Moves n s .submit { s with jobs := s.jobs ++ [.queued], caller := .posting k }
  | submitLast (hcaller : s.caller = .posting 0) :
      Moves n s .submit { s with jobs := s.jobs ++ [.queued], caller := .idle }
  | check : Moves n s .check s
  | release (hcaller : s.caller = .idle) :
      Moves n s .release { s with caller := if s.posted then .acquiring else .deleting }
  | acquire (hcaller : s.caller = .acquiring) (hfree : s.doneMtx = false) :
      Moves n s .acquire { s with caller := .testing, doneMtx := true }
  | seen (hcaller : s.caller = .testing) (hpend : s.pending = 0) :
      Moves n s .test { s with caller := .leaving }
  | wait (hcaller : s.caller = .testing) (hpend : s.pending ≠ 0) :
      Moves n s .test { s with caller := .waiting, doneMtx := false }
  | wake (hcaller : s.caller = .waiting) : Moves n s .wake { s with caller := .acquiring }
  | leave (hcaller : s.caller = .leaving) :
      Moves n s .leave { s with caller := .deleting, doneMtx := false }
  | delete (hcaller : s.caller = .deleting) : Moves n s .delete { s with caller := .gone }
  | start {i} (hj : s.jobs[i]? = some .queued) :
      Moves n s (.job i .start) { s with jobs := s.jobs.set i .io }
  | succeed {i} (hj : s.jobs[i]? = some .io) :
      Moves n s (.job i (.record none)) { s with jobs := s.jobs.set i .finishing }
  | fail {i e} (hj : s.jobs[i]? = some .io) :
      Moves n s (.job i (.record (some e))) { s with
        status := if s.status = .success then e else s.status
        jobs := s.jobs.set i .finishing }
  | decrement {i} (hj : s.jobs[i]? = some .finishing) :
      Moves n s (.job i .decrement) { s with
        pending := s.pending - 1
        jobs := s.jobs.set i (if s.pending = 1 then .last else .done) }
  | lock {i} (hj : s.jobs[i]? = some .last) (hfree : s.doneMtx = false) :
      Moves n s (.job i .lock) { s with doneMtx := true, jobs := s.jobs.set i .locked }
  | notify {i} (hj : s.jobs[i]? = some .locked) :
      Moves n s (.job i .notify) { s with
        caller := if s.caller = .waiting then .acquiring else s.caller
        jobs := s.jobs.set i .notified }
  | unlock {i} (hj : s.jobs[i]? = some .notified) :
      Moves n s (.job i .unlock) { s with doneMtx := false, jobs := s.jobs.set i .done }

theorem step_job_iff {n : ℕ} {s s' : St} {i : ℕ} {a : JobAct} :
    step n s (.job i a) = some s' ↔ ∃ j s₁ j', s.jobs[i]? = some j ∧
      jobStep s j a = some (s₁, j') ∧ s' = { s₁ with jobs := s₁.jobs.set i j' } := by
  simp only [step, Option.bind_eq_some_iff, Option.map_eq_some_iff]
  constructor
  · rintro ⟨j, hj, ⟨s₁, j'⟩, hst, rfl⟩
    exact ⟨j, s₁, j', hj, hst, rfl⟩
  · rintro ⟨j, s₁, j', hj, hst, rfl⟩
    exact ⟨j, hj, ⟨s₁, j'⟩, hst, rfl⟩

theorem moves_of_job {n : ℕ} {s s' : St} {i : ℕ} {a : JobAct}
    (hst : step n s (.job i a) = some s') : Moves n s (.job i a) s' := by
  rcases step_job_iff.mp hst with ⟨j, s₁, j', hj, hjs, rfl⟩
  cases a with
  -- a test of the job's stage, then the next stage
  | start | notify | unlock | decrement =>
      simp only [jobStep] at hjs
      split at hjs
      · cases hjs
        subst j
        constructor
        exact hj
      · cases hjs
  -- the error is recorded before the job counts down
  | record e =>
      simp only [jobStep] at hjs
      split at hjs
      · cases hjs
        subst j
        cases e with
        | none => exact .succeed hj
        | some e =>
            -- only the first error is kept
            have hmove := Moves.fail (n := n) (e := e) hj
            simp only [recordError]
            split at hmove <;> simp_all
      · cases hjs
  -- the lock is free, or the step waits
  | lock =>
      simp only [jobStep] at hjs
      split at hjs
      · rename_i h
        cases hjs
        rcases h with ⟨rfl, hfree⟩
        exact .lock hj hfree
      · cases hjs

theorem moves_of_step {n : ℕ} {s s' : St} {a : Lbl} (hst : step n s a = some s') :
    Moves n s a s' := by
  cases a with
  | post =>
      simp only [step] at hst
      split at hst
      · rename_i h
        -- a request without groups is done at once
        cases n with
        | zero =>
            cases hst
            exact .postNone rfl
        | succ k =>
            cases hst
            exact .post rfl h.1 h.2
      · cases hst
  | submit =>
      simp only [step] at hst
      split at hst
      · rename_i k hk
        cases hst
        -- the last group to hand over, or one of several
        cases k with
        | zero => exact .submitLast hk
        | succ k => exact .submit hk
      · cases hst
  | check =>
      simp only [step] at hst
      split at hst <;> cases hst
      exact .check
  | test =>
      simp only [step] at hst
      split at hst
      · rename_i h
        -- the loop's test: all done, or wait on the condition
        split at hst
        · rename_i hpend
          cases hst
          exact .seen h hpend
        · rename_i hpend
          cases hst
          exact .wait h hpend
      · cases hst
  | acquire =>
      simp only [step] at hst
      split at hst
      · rename_i h
        cases hst
        exact .acquire h.1 h.2
      · cases hst
  | release | wake | leave | delete =>
      simp only [step] at hst
      split at hst
      · rename_i h
        cases hst
        constructor
        exact h
      · cases hst
  | job i a => exact moves_of_job hst

/-! ## The invariant is kept -/

/-- A job that has decremented `pending` for good does not step again. -/
theorem Moves.not_done {n : ℕ} {s s' : St} {i : ℕ} {a : JobAct} (h : Moves n s (.job i a) s') :
    ∃ j ∈ s.jobs, j ≠ .done := by
  cases h with
  | start hj | succeed hj | fail hj | decrement hj | lock hj _ | notify hj | unlock hj =>
      exact ⟨_, List.mem_of_getElem? hj, by decide⟩

theorem Inv.undone_le {s : St} (hinv : Inv s) {i : ℕ} {j : Job} (hj : s.jobs[i]? = some j) :
    j.undone ≤ s.pending := by
  have hle := List.le_sum_of_mem (List.mem_map_of_mem (f := Job.undone) (List.mem_of_getElem? hj))
  have hpend := hinv.pending_eq
  omega

theorem Inv.holds_le {s : St} (hinv : Inv s) {i : ℕ} {j : Job} (hj : s.jobs[i]? = some j) :
    j.holds ≤ s.doneMtx.toNat := by
  have hle := List.le_sum_of_mem (List.mem_map_of_mem (f := Job.holds) (List.mem_of_getElem? hj))
  have hmtx := hinv.doneMtx_eq
  omega

/-- A job goes on: it leaves the caller where it is or wakes it, and moves both
counters with it. -/
theorem Inv.job {s t : St} (hinv : Inv s) {i : ℕ} {j : Job} (j' : Job)
    (hj : s.jobs[i]? = some j) (hne : j ≠ .done) (hjobs : t.jobs = s.jobs.set i j')
    (hposted : t.posted = s.posted)
    (hcaller : t.caller = s.caller ∨ (s.caller = .waiting ∧ t.caller = .acquiring))
    (hpend : t.pending + j.undone = s.pending + j'.undone)
    (hmtx : t.doneMtx.toNat + j.holds = s.doneMtx.toNat + j'.holds) : Inv t := by
  have hundone := sum_map_set (f := Job.undone) (g := Job.undone) (b := j') hj fun _ _ _ _ => rfl
  have hholds := sum_map_set (f := Job.holds) (g := Job.holds) (b := j') hj fun _ _ _ _ => rfl
  have hsame : t.caller.remaining = s.caller.remaining ∧ t.caller.holds = s.caller.holds ∧
      t.caller.released = s.caller.released := by
    rcases hcaller with h | ⟨h, h'⟩
    · rw [h]
      exact ⟨rfl, rfl, rfl⟩
    · rw [h, h']
      exact ⟨rfl, rfl, rfl⟩
  constructor
  · have hold := hinv.pending_eq
    rw [hjobs, hsame.1]
    omega
  · have hold := hinv.doneMtx_eq
    rw [hjobs, hsame.2.1]
    omega
  · -- a released request has no job left that could step
    rw [hsame.2.2]
    intro h
    exact absurd (hinv.released h j (List.mem_of_getElem? hj)) hne
  · rw [hposted]
    intro h
    rw [(hinv.unposted h).1] at hj
    simp at hj

/-- A request with `pending` at 0 and `doneMtx` held by the caller has no job
but finished ones, apart from one on its way to the lock. -/
theorem done_of_settled {s : St} (hinv : Inv s) (hcaller : s.caller = .testing)
    (hpend : s.pending = 0) (hlast : Job.last ∉ s.jobs) : ∀ j ∈ s.jobs, j = .done := by
  intro j hj
  have hundone := List.le_sum_of_mem (List.mem_map_of_mem (f := Job.undone) hj)
  have hholds := List.le_sum_of_mem (List.mem_map_of_mem (f := Job.holds) hj)
  have hp := hinv.pending_eq
  have hm := hinv.doneMtx_eq
  have hle := Bool.toNat_le s.doneMtx
  simp only [hcaller, Caller.holds] at hm
  cases j <;> simp only [Job.undone, Job.holds] at hundone hholds
  case last => exact absurd hj hlast
  case done => rfl
  all_goals omega

/-- `releaseReqH` goes on, with `doneMtx` taken, kept or given up. -/
theorem Inv.moves {s : St} (h : Inv s) (c : Caller) (b : Bool) (hrem : s.caller.remaining = 0)
    (hrem' : c.remaining = 0) (hmtx : b.toNat + s.caller.holds = s.doneMtx.toNat + c.holds)
    (hrel : c.released = true → ∀ j ∈ s.jobs, j = .done) :
    Inv { s with caller := c, doneMtx := b } where
  pending_eq := by
    have hp := h.pending_eq
    rw [hrem] at hp
    simp only [hrem']
    exact hp
  doneMtx_eq := by
    have hm := h.doneMtx_eq
    simp only
    omega
  released := hrel
  unposted hpost := ⟨(h.unposted hpost).1, hrem'⟩

/-- While `releaseReqH` holds `doneMtx` it is locked. -/
theorem Inv.locked {s : St} (h : Inv s) (hholds : s.caller.holds = 1) : s.doneMtx.toNat = 1 := by
  have hm := h.doneMtx_eq
  have hle := Bool.toNat_le s.doneMtx
  omega

theorem step_inv {n : ℕ} {s s' : St} {a : Lbl} (hinv : Inv s) (hok : ¬ EarlyRelease s a)
    (hst : step n s a = some s') : Inv s' := by
  have hp := hinv.pending_eq
  have hm := hinv.doneMtx_eq
  cases moves_of_step hst with
  | postNone hn => exact hinv
  | post hn hcaller hpend =>
      -- all groups are counted before the first job is submitted
      simp only [hcaller, Caller.remaining, Caller.holds] at hp hm
      refine ⟨?_, hm, by simp [Caller.released], by simp⟩
      simp only [Caller.remaining]
      omega
  | submit hcaller | submitLast hcaller =>
      simp only [hcaller, Caller.remaining, Caller.holds] at hp hm
      refine ⟨?_, ?_, ?_, ?_⟩
      · simp [Caller.remaining, Job.undone]
        omega
      · simp [Caller.holds, Job.holds, hm]
      · simp [Caller.released]
      · intro h
        have hrem := (hinv.unposted h).2
        simp [hcaller, Caller.remaining] at hrem
  | check => exact hinv
  | release hcaller =>
      have hrem : s.caller.remaining = 0 := by rw [hcaller]; rfl
      split
      · apply hinv.moves .acquiring s.doneMtx hrem rfl (by rw [hcaller]; rfl)
        simp [Caller.released]
      · -- never posted: there is no job at all
        rename_i hposted
        have hnil := (hinv.unposted (Bool.eq_false_iff.mpr hposted)).1
        apply hinv.moves .deleting s.doneMtx hrem rfl (by rw [hcaller]; rfl)
        simp [hnil]
  | acquire hcaller hfree =>
      apply hinv.moves .testing true (by rw [hcaller]; rfl) rfl (by rw [hcaller, hfree]; rfl)
      simp [Caller.released]
  | seen hcaller hpend =>
      -- the release is not early, so no job is on its way to the lock
      have hdone := done_of_settled hinv hcaller hpend fun hl => hok ⟨rfl, hcaller, hpend, hl⟩
      exact hinv.moves .leaving s.doneMtx (by rw [hcaller]; rfl) rfl (by rw [hcaller]; rfl)
        fun _ => hdone
  | wait hcaller hpend =>
      have hlocked := hinv.locked (by rw [hcaller]; rfl)
      apply hinv.moves .waiting false (by rw [hcaller]; rfl) rfl (by rw [hcaller, hlocked]; rfl)
      simp [Caller.released]
  | wake hcaller =>
      apply hinv.moves .acquiring s.doneMtx (by rw [hcaller]; rfl) rfl (by rw [hcaller]; rfl)
      simp [Caller.released]
  | leave hcaller =>
      have hlocked := hinv.locked (by rw [hcaller]; rfl)
      exact hinv.moves .deleting false (by rw [hcaller]; rfl) rfl (by rw [hcaller, hlocked]; rfl)
        fun _ => hinv.released (by rw [hcaller]; rfl)
  | delete hcaller =>
      exact hinv.moves .gone s.doneMtx (by rw [hcaller]; rfl) rfl (by rw [hcaller]; rfl)
        fun _ => hinv.released (by rw [hcaller]; rfl)
  | start hj => exact hinv.job .io hj (by decide) rfl rfl (.inl rfl) rfl rfl
  | succeed hj => exact hinv.job .finishing hj (by decide) rfl rfl (.inl rfl) rfl rfl
  | fail hj => exact hinv.job .finishing hj (by decide) rfl rfl (.inl rfl) rfl rfl
  | decrement hj =>
      -- the job itself is still counted
      have hpos := hinv.undone_le hj
      refine hinv.job _ hj (by decide) rfl rfl (.inl rfl) ?_ ?_
      · simp only [Job.undone] at hpos
        split <;> simp only [Job.undone] <;> omega
      · split <;> rfl
  | lock hj hfree =>
      exact hinv.job .locked hj (by decide) rfl rfl (.inl rfl) rfl (by rw [hfree]; rfl)
  | notify hj =>
      refine hinv.job .notified hj (by decide) rfl rfl ?_ rfl rfl
      simp only
      split
      · exact .inr ⟨‹_›, rfl⟩
      · exact .inl rfl
  | unlock hj =>
      -- the job holds the lock it gives up
      have hheld := hinv.holds_le hj
      refine hinv.job .done hj (by decide) rfl rfl (.inl rfl) rfl ?_
      have hle := Bool.toNat_le s.doneMtx
      simp only [Job.holds, Bool.toNat_false] at hheld ⊢
      omega

theorem initial_inv : Inv initial := by
  constructor <;> simp [initial, Caller.remaining, Caller.holds, Caller.released]

/-- For every number of groups: in every run without an early release, a job
that can take a step on the request finds it alive. -/
theorem job_finds_request_alive {n : ℕ} {s : St}
    (h : (machine n).ReachableVia (fun s a => ¬ EarlyRelease s a) s) (i : ℕ) (a : JobAct)
    (hst : ((machine n).step s (.job i a)).isSome = true) : ¬ Deleted s := by
  have hinv : Inv s := by
    refine h.invariant Inv ?_ fun s a s' hinv hok hst => step_inv hinv hok hst
    rintro s rfl
    exact initial_inv
  intro hdel
  obtain ⟨s', hs'⟩ := Option.isSome_iff_exists.mp hst
  have hmove : Moves n s (.job i a) s' := moves_of_step hs'
  obtain ⟨j, hmem, hnot⟩ := hmove.not_done
  exact hnot (hinv.released (by rw [hdel]; rfl) j hmem)

/-- `releaseReqH` starts to wait before the only group is done: the job still
finds the request when it comes to the lock. -/
theorem waiting_release_keeps_request :
    ∃ s, (machine 1).ReachableVia (fun s a => ¬ EarlyRelease s a) s ∧ s.caller = .waiting ∧
      Job.last ∈ s.jobs ∧ ¬ Deleted s := by
  have hrun : ∃ s, (machine 1).ReachableVia (fun s a => ¬ EarlyRelease s a) s ∧
      s.caller = .waiting ∧ Job.last ∈ s.jobs ∧ (step 1 s (.job 0 .lock)).isSome = true :=
    Machine.ReachableVia.of_run (M := machine 1) rfl
      [.post, .submit, .job 0 .start, .job 0 (.record none), .release, .acquire, .test,
        .job 0 .decrement] (by decide) _ (by decide)
  rcases hrun with ⟨s, hs, hwait, hlast, hstep⟩
  exact ⟨s, hs, hwait, hlast, job_finds_request_alive hs 0 .lock hstep⟩

/-- The condition cannot be relaxed: after an early release, leaving the wait
and deleting lead to a deleted request that a job is about to lock. -/
theorem early_release_uses_deleted_request {n : ℕ} {s : St} (h : EarlyRelease s .test) :
    ∃ s', (machine n).run s [.test, .leave, .delete] = some s' ∧ Deleted s' ∧
      ∃ i, ((machine n).step s' (.job i .lock)).isSome = true := by
  rcases h with ⟨-, hcaller, hpend, hlast⟩
  obtain ⟨i, hi⟩ := List.mem_iff_getElem?.mp hlast
  refine ⟨{ s with caller := .gone, doneMtx := false }, ?_, rfl, i, ?_⟩
  · simp [Machine.run, machine, step, hcaller, hpend]
  · simp [machine, step, jobStep, hi]

/-- One group. The job has decremented `pending` when `releaseReqH` takes the
lock, sees 0 and deletes; the job then locks the mutex of the deleted request. -/
theorem job_locks_deleted_request :
    ∃ s, (machine 1).Reachable s ∧ Deleted s ∧
      ((machine 1).step s (.job 0 .lock)).isSome = true :=
  Machine.Reachable.of_run (M := machine 1) rfl
    [.post, .submit, .job 0 .start, .job 0 (.record none), .job 0 .decrement, .release,
      .acquire, .test, .leave, .delete]
    (fun s => s.caller = .gone ∧ (step 1 s (.job 0 .lock)).isSome = true) (by decide)

end LmcacheDaos.Nixl.Request
