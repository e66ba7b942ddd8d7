import LmcacheDaos.Nixl.Request
import LmcacheDaos.Nixl.ThreadPool

/-!
# The engine: requests and the threads that run their jobs

`postXfer` (`daos_backend.cpp`) brings the two together: its loop submits a job for
every group of a request (`Nixl.Request`) to the pool (`Nixl.ThreadPool`), and the
worker that takes the job makes its steps on the request, `finishOne` included,
before it returns to the queue. Any number of requests share the pool; `(r, j)`
is the `j`-th job of the `r`-th request.

The engine is not used any more when its destructor starts: no `postXfer` or
`releaseReqH` is in progress then, and none follows.

* The pool has queued what the requests have queued, each job once, and a job
  on its way is in a worker (`Placed`).
* No wakeup of `releaseReqH` is lost: while it waits, groups are outstanding or a
  job is on its way to notify (`Woken`).
* Transfers complete. The steps of the engine come to an end, and then every group of
  every request has been finished: `checkXfer` does not answer `IN_PROG` to a request
  that was posted, and a `releaseReqH` that was entered has deleted its request
  (`transfers_complete`).
-/

namespace LmcacheDaos.Nixl.Engine

open Lib

/-- A request and the number of its groups. -/
structure Req where
  groups : ℕ
  st : Request.St
deriving DecidableEq, Repr

structure St where
  pool : ThreadPool.Pool (ℕ × ℕ)
  requests : List Req
deriving DecidableEq, Repr

inductive Lbl where
  /-- `prepXfer` has made a request -/
  | prep (groups : ℕ)
  /-- a step on the `r`-th request, by its caller or by the worker of a job -/
  | request (r : ℕ) (a : Request.Lbl)
  /-- one round of the loop of `postXfer` -/
  | submit (r : ℕ)
  /-- worker `i` takes a job from the queue -/
  | take (i r j : ℕ)
  /-- the job returns to worker `i` -/
  | finish (i r j : ℕ)
  /-- a step of the pool alone -/
  | pool (a : ThreadPool.Lbl (ℕ × ℕ))

/-- Made by the pool and the request together. -/
def joint : Request.Lbl → Bool
  | .submit | .job _ .start => true
  | _ => false

/-- A job records `ERR_BACKEND` or `ERR_NOT_FOUND` (`Outcome.error`). -/
def recordable : Request.Lbl → Bool
  | .job _ (.record (some .success)) | .job _ (.record (some .inProg)) => false
  | _ => true

/-- A call by the user of the engine. -/
def opens : Request.Lbl → Bool
  | .post | .check | .release => true
  | _ => false

def poolJoint : ThreadPool.Lbl (ℕ × ℕ) → Bool
  | .submit _ | .take _ _ | .finish _ _ => true
  | _ => false

/-- The owner of the handle is in no call. -/
def between : Request.Caller → Bool
  | .idle | .gone => true
  | _ => false

def jobAt (s : St) (x : ℕ × ℕ) : Option Request.Job :=
  (s.requests[x.1]?).bind fun q => q.st.jobs[x.2]?

def stepRequest (s : St) (r : ℕ) (a : Request.Lbl) : Option St :=
  (s.requests[r]?).bind fun q => (Request.step q.groups q.st a).map fun st =>
    { s with requests := s.requests.set r { q with st := st } }

def stepPool (s : St) (a : ThreadPool.Lbl (ℕ × ℕ)) : Option St :=
  (ThreadPool.step s.pool a).map fun pool => { s with pool := pool }

def step (s : St) : Lbl → Option St
  | .prep groups =>
      if s.pool.owner = .inUse then
        some { s with requests := s.requests ++ [⟨groups, Request.initial⟩] }
      else none
  | .request r a =>
      if joint a = false ∧ recordable a = true ∧ (opens a = true → s.pool.owner = .inUse) then
        stepRequest s r a
      else none
  | .submit r => (s.requests[r]?).bind fun q =>
      (stepPool s (.submit (r, q.st.jobs.length))).bind fun s => stepRequest s r .submit
  | .take i r j => (stepPool s (.take i (r, j))).bind fun s => stepRequest s r (.job j .start)
  | .finish i r j => if jobAt s (r, j) = some .done then stepPool s (.finish i (r, j)) else none
  | .pool a =>
      if poolJoint a = false ∧ (a = .stop → ∀ q ∈ s.requests, between q.st.caller = true) then
        stepPool s a
      else none

/-- An engine of `n` threads, as its constructor leaves it. -/
def initial (n : ℕ) : St := ⟨ThreadPool.initial n, []⟩

def machine (n : ℕ) : Machine St Lbl where
  Init s := s = initial n
  step := step

/-- No `waitDone` leaves while a job is still on its way to the lock
(`Request.EarlyRelease`). -/
def InTime (s : St) : Lbl → Prop
  | .request r a => ∀ q ∈ s.requests[r]?, ¬ Request.EarlyRelease q.st a
  | _ => True

instance (s : St) (a : Lbl) : Decidable (InTime s a) :=
  match a with
  | .request r a =>
      inferInstanceAs (Decidable (∀ q ∈ s.requests[r]?, ¬ Request.EarlyRelease q.st a))
  | .prep _ | .submit _ | .take _ _ _ | .finish _ _ _ | .pool _ => inferInstanceAs (Decidable True)

/-- What a step does, case by case. -/
inductive Moves (s : St) : Lbl → St → Prop where
  | prep {groups : ℕ} (howner : s.pool.owner = .inUse) : Moves s (.prep groups)
      { s with requests := s.requests ++ [⟨groups, Request.initial⟩] }
  | request {r : ℕ} {a : Request.Lbl} {q : Req} {st : Request.St} (hq : s.requests[r]? = some q)
      (hst : Request.step q.groups q.st a = some st) (hjoint : joint a = false)
      (hrec : recordable a = true) (hopens : opens a = true → s.pool.owner = .inUse) :
      Moves s (.request r a) { s with requests := s.requests.set r { q with st := st } }
  | submit {r : ℕ} {q : Req} {st : Request.St} {pool : ThreadPool.Pool (ℕ × ℕ)}
      (hq : s.requests[r]? = some q) (hst : Request.step q.groups q.st .submit = some st)
      (hpool : ThreadPool.Moves s.pool (.submit (r, q.st.jobs.length)) pool) :
      Moves s (.submit r) ⟨pool, s.requests.set r { q with st := st }⟩
  | take {i r j : ℕ} {q : Req} {st : Request.St} {pool : ThreadPool.Pool (ℕ × ℕ)}
      (hq : s.requests[r]? = some q) (hst : Request.step q.groups q.st (.job j .start) = some st)
      (hpool : ThreadPool.Moves s.pool (.take i (r, j)) pool) :
      Moves s (.take i r j) ⟨pool, s.requests.set r { q with st := st }⟩
  | finish {i r j : ℕ} {pool : ThreadPool.Pool (ℕ × ℕ)} (hjob : jobAt s (r, j) = some .done)
      (hpool : ThreadPool.Moves s.pool (.finish i (r, j)) pool) :
      Moves s (.finish i r j) { s with pool := pool }
  | pool {a : ThreadPool.Lbl (ℕ × ℕ)} {pool : ThreadPool.Pool (ℕ × ℕ)}
      (hpool : ThreadPool.Moves s.pool a pool) (hjoint : poolJoint a = false)
      (hstop : a = .stop → ∀ q ∈ s.requests, between q.st.caller = true) :
      Moves s (.pool a) { s with pool := pool }

section Steps

variable {s t : St}

/-- What a step can do: to one request, to the pool, or to both at once. -/
theorem moves_of_step {a : Lbl} (hst : step s a = some t) : Moves s a t := by
  cases a with
  | prep groups =>
      obtain ⟨h, rfl⟩ := Option.ite_none_right_eq_some.mp hst |>.imp_right Option.some.inj
      exact .prep h
  | request r a =>
      obtain ⟨⟨hjoint, hrec, hopens⟩, hst⟩ := Option.ite_none_right_eq_some.mp hst
      obtain ⟨q, hq, hst⟩ := Option.bind_eq_some_iff.mp hst
      -- the request's own step, no pool involved
      obtain ⟨st, hreq, rfl⟩ := Option.map_eq_some_iff.mp hst
      exact .request hq hreq hjoint hrec hopens
  | submit r =>
      obtain ⟨q, hq, hst⟩ := Option.bind_eq_some_iff.mp hst
      obtain ⟨s₁, hpool, hst⟩ := Option.bind_eq_some_iff.mp hst
      -- the job goes on the pool's queue and into the request's record, in one step
      obtain ⟨pool, hp, rfl⟩ := Option.map_eq_some_iff.mp hpool
      obtain ⟨q', hq', hst⟩ := Option.bind_eq_some_iff.mp hst
      obtain ⟨st, hreq, rfl⟩ := Option.map_eq_some_iff.mp hst
      obtain rfl : q = q' := Option.some.inj (hq.symm.trans hq')
      exact .submit hq hreq (ThreadPool.moves_of_step hp)
  | take i r j =>
      obtain ⟨s₁, hpool, hst⟩ := Option.bind_eq_some_iff.mp hst
      obtain ⟨pool, hp, rfl⟩ := Option.map_eq_some_iff.mp hpool
      obtain ⟨q, hq, hst⟩ := Option.bind_eq_some_iff.mp hst
      obtain ⟨st, hreq, rfl⟩ := Option.map_eq_some_iff.mp hst
      -- a thread takes the job, and the request sees it begin
      exact .take hq hreq (ThreadPool.moves_of_step hp)
  | finish i r j =>
      obtain ⟨hjob, hst⟩ := Option.ite_none_right_eq_some.mp hst
      obtain ⟨pool, hpool, rfl⟩ := Option.map_eq_some_iff.mp hst
      -- a thread ends with a job whose I/O is done
      exact .finish hjob (ThreadPool.moves_of_step hpool)
  | pool a =>
      obtain ⟨⟨hjoint, hstop⟩, hst⟩ := Option.ite_none_right_eq_some.mp hst
      obtain ⟨pool, hpool, rfl⟩ := Option.map_eq_some_iff.mp hst
      exact .pool (ThreadPool.moves_of_step hpool) hjoint hstop

/-! ### Where the jobs are -/

/-- A step of one request changes the jobs of that request only. -/
theorem jobAt_set {r : ℕ} {q : Req} (q' : Req) (hq : s.requests[r]? = some q) (x : ℕ × ℕ) :
    jobAt { s with requests := s.requests.set r q' } x =
      if x.1 = r then q'.st.jobs[x.2]? else jobAt s x := by
  have hlt := (List.getElem?_eq_some_iff.mp hq).1
  by_cases h : x.1 = r
  · simp [jobAt, h, hlt]
  · simp [jobAt, h, Ne.symm h]

/-- A job is looked up in its own request. -/
theorem jobAt_eq {r : ℕ} {q : Req} (hq : s.requests[r]? = some q) (j : ℕ) :
    jobAt s (r, j) = q.st.jobs[j]? := by
  simp [jobAt, hq]

/-- The job of the pool and the job of the request are the same. -/
structure Placed (job : ℕ × ℕ → Option Request.Job) (pool : ThreadPool.Pool (ℕ × ℕ)) : Prop where
  once : pool.q.Nodup
  queued : ∀ x, x ∈ pool.q ↔ job x = some .queued
  started : ∀ x ∈ ThreadPool.running pool, ∃ y, job x = some y ∧ y ≠ .queued
  carried : ∀ x y, job x = some y → y ≠ .queued → y ≠ .done → x ∈ ThreadPool.running pool

/-- A job that is on its way went on. -/
def Onward (y y' : Option Request.Job) : Prop :=
  y' = y ∨ (∃ z, y = some z ∧ z ≠ .queued ∧ z ≠ .done) ∧ ∃ z, y' = some z ∧ z ≠ .queued

/-- Jobs that go on without entering or leaving the pool stay where they are. -/
theorem Placed.onward {job job' : ℕ × ℕ → Option Request.Job}
    {pool pool' : ThreadPool.Pool (ℕ × ℕ)} (h : Placed job pool) (hq : pool'.q = pool.q)
    (hrun : (ThreadPool.running pool').Perm (ThreadPool.running pool))
    (hjob : ∀ x, Onward (job x) (job' x)) : Placed job' pool' := by
  constructor
  case once => rw [hq]; exact h.once
  case queued =>
    intro x
    rw [hq, h.queued]
    -- a job that goes on was neither queued nor done, and is neither now
    rcases hjob x with heq | ⟨⟨z, hz, hnq, -⟩, z', hz', hnq'⟩
    · rw [heq]
    · rw [hz, hz', Option.some.injEq, Option.some.injEq]
      exact iff_of_false hnq hnq'
  case started =>
    intro x hx
    obtain ⟨y, hy, hne⟩ := h.started x (hrun.mem_iff.mp hx)
    rcases hjob x with heq | ⟨-, z', hz', hnq'⟩
    · exact ⟨y, heq.trans hy, hne⟩
    · exact ⟨z', hz', hnq'⟩
  case carried =>
    intro x y hy hnq hnd
    refine hrun.mem_iff.mpr ?_
    rcases hjob x with heq | ⟨⟨z, hz, hzq, hzd⟩, -⟩
    · exact h.carried x y (heq.symm.trans hy) hnq hnd
    · exact h.carried x z hz hzq hzd

/-- A submitted job is queued, in its request and in the pool. -/
theorem Placed.submit {job : ℕ × ℕ → Option Request.Job} {pool pool' : ThreadPool.Pool (ℕ × ℕ)}
    {x : ℕ × ℕ} (h : Placed job pool) (hnew : job x = none)
    (hm : ThreadPool.Moves pool (.submit x) pool') :
    Placed (Function.update job x (some .queued)) pool' := by
  have hq : pool.q ++ [x] = pool'.q := hm.order
  have hrun : (ThreadPool.running pool').Perm (ThreadPool.running pool) := by
    have hplaced := hm.placed
    simp only [ThreadPool.Lbl.takes, ThreadPool.Lbl.finishes, Option.toList_none, List.append_nil,
      List.nil_append] at hplaced
    exact hplaced.symm
  -- a job that the request had not sent is not on the queue
  have hnot : x ∉ pool.q := fun hmem => by simpa [hnew] using (h.queued x).mp hmem
  constructor
  case once =>
    -- `x` is not yet there, so the queue has no job twice
    rw [← hq, List.nodup_append]
    refine ⟨h.once, List.nodup_singleton x, ?_⟩
    rintro a ha b hb rfl
    rw [List.mem_singleton.mp hb] at ha
    exact hnot ha
  case queued =>
    intro y
    rw [← hq, List.mem_append, List.mem_singleton]
    by_cases hy : y = x
    · simp [hy]
    · simp [hy, h.queued]
  case started =>
    intro y hy
    obtain ⟨z, hz, hne⟩ := h.started y (hrun.mem_iff.mp hy)
    have hyx : y ≠ x := by
      rintro rfl
      -- what runs was sent, and `x` was not
      rw [hnew] at hz
      cases hz
    exact ⟨z, by rw [Function.update_of_ne hyx]; exact hz, hne⟩
  case carried =>
    intro y z hz hnq hnd
    by_cases hyx : y = x
    · subst hyx
      rw [Function.update_self] at hz
      -- `x` is queued, hence not among those that a thread carries
      exact absurd (Option.some.inj hz).symm hnq
    · rw [Function.update_of_ne hyx] at hz
      exact hrun.mem_iff.mpr (h.carried y z hz hnq hnd)

/-- The worker that takes a job has it before its I/O. -/
theorem Placed.take {job : ℕ × ℕ → Option Request.Job} {pool pool' : ThreadPool.Pool (ℕ × ℕ)}
    {i : ℕ} {x : ℕ × ℕ} (h : Placed job pool) (hm : ThreadPool.Moves pool (.take i x) pool') :
    Placed (Function.update job x (some .io)) pool' := by
  have hq : pool.q = x :: pool'.q := by
    have horder := hm.order
    simpa [ThreadPool.Lbl.submits, ThreadPool.Lbl.takes] using horder
  have hrun : (ThreadPool.running pool ++ [x]).Perm (ThreadPool.running pool') := hm.placed
  have hnodup := h.once
  rw [hq, List.nodup_cons] at hnodup
  constructor
  case once => exact hnodup.2
  case queued =>
    intro y
    by_cases hy : y = x
    · -- the front of the queue leaves it, and as no job is there twice it is gone
      subst hy
      rw [Function.update_self]
      exact iff_of_false hnodup.1 (by simp)
    · rw [Function.update_of_ne hy, ← h.queued, hq]
      simp [hy]
  case started =>
    intro y hy
    by_cases hyx : y = x
    · subst hyx
      -- the job taken is at its I/O, not queued
      exact ⟨.io, Function.update_self .., by simp⟩
    · rw [Function.update_of_ne hyx]
      refine h.started y ?_
      simpa [hyx] using hrun.mem_iff.mpr hy
  case carried =>
    intro y z hz hnq hnd
    refine hrun.mem_iff.mp (List.mem_append.mpr ?_)
    by_cases hyx : y = x
    · -- `x` is what the thread took
      exact .inr (List.mem_singleton.mpr hyx)
    · rw [Function.update_of_ne hyx] at hz
      exact .inl (h.carried y z hz hnq hnd)

/-- A worker gives a job back when it is done. -/
theorem Placed.finish {job : ℕ × ℕ → Option Request.Job} {pool pool' : ThreadPool.Pool (ℕ × ℕ)}
    {i : ℕ} {x : ℕ × ℕ} (h : Placed job pool) (hjob : job x = some .done)
    (hm : ThreadPool.Moves pool (.finish i x) pool') : Placed job pool' := by
  have hq : pool.q = pool'.q := by
    have horder := hm.order
    simpa [ThreadPool.Lbl.submits, ThreadPool.Lbl.takes] using horder
  have hrun : (ThreadPool.running pool).Perm (x :: ThreadPool.running pool') := by
    have hplaced := hm.placed
    simpa [ThreadPool.Lbl.takes, ThreadPool.Lbl.finishes] using hplaced
  constructor
  case once => rw [← hq]; exact h.once
  case queued => intro y; rw [← hq]; exact h.queued y
  case started => exact fun y hy => h.started y (hrun.mem_iff.mpr (.tail _ hy))
  case carried =>
    intro y z hz hnq hnd
    refine (List.mem_cons.mp (hrun.mem_iff.mp (h.carried y z hz hnq hnd))).resolve_left ?_
    rintro rfl
    exact hnd (Option.some.inj (hz.symm.trans hjob))

end Steps

/-! ## One request -/

/-- While `releaseReqH` waits, somebody will notify it. -/
def Woken (st : Request.St) : Prop :=
  st.caller = .waiting → st.pending ≠ 0 ∨ ∃ j ∈ st.jobs, j = .last ∨ j = .locked

/-- The steps of the request itself: no call by its user, and no spurious wakeup. -/
def callOwn : Request.Lbl → Prop
  | .acquire | .test | .leave | .delete | .job _ _ => True
  | _ => False

def jobWork : Request.Job → ℕ
  | .queued => 8
  | .io => 7
  | .finishing => 6
  | .last => 5
  | .locked => 4
  | .notified => 1
  | .done => 0

/-- A round of the loop of `postXfer` leaves a job and work for the pool. -/
def callerWork : Request.Caller → ℕ
  | .idle => 0
  | .posting k => 14 * (k + 1)
  | .acquiring => 6
  | .testing => 5
  | .waiting => 4
  | .leaving => 2
  | .deleting => 1
  | .gone => 0

def reqWork (st : Request.St) : ℕ := (st.jobs.map jobWork).sum + callerWork st.caller

section Request

variable {n : ℕ} {st st' : Request.St} {a : Request.Lbl}

/-- Replacing one job shifts the sum by the difference. -/
theorem jobWork_set {jobs : List Request.Job} {i : ℕ} {x : Request.Job} (y : Request.Job)
    (hx : jobs[i]? = some x) :
    ((jobs.set i y).map jobWork).sum + jobWork x = (jobs.map jobWork).sum + jobWork y :=
  sum_map_set hx fun _ _ _ _ => rfl

/-- A job with less to do makes the sum smaller. -/
theorem jobWork_lt {jobs : List Request.Job} {i : ℕ} {x y : Request.Job} (hx : jobs[i]? = some x)
    (hlt : jobWork y < jobWork x) :
    ((jobs.set i y).map jobWork).sum < (jobs.map jobWork).sum := by
  have hset := jobWork_set y hx
  omega

/-- What was put into a list is in it. -/
theorem mem_set_self {jobs : List Request.Job} {i : ℕ} {x : Request.Job} (y : Request.Job)
    (hx : jobs[i]? = some x) : y ∈ jobs.set i y :=
  List.mem_set (List.getElem?_eq_some_iff.mp hx).1 y

/-- A job that is on its way to notify stays so while another one goes on. -/
theorem notifier_set {jobs : List Request.Job} {i : ℕ} {x : Request.Job} (y : Request.Job)
    (hx : jobs[i]? = some x) (hne : x ≠ .last ∧ x ≠ .locked)
    (h : ∃ j ∈ jobs, j = .last ∨ j = .locked) : ∃ j ∈ jobs.set i y, j = .last ∨ j = .locked := by
  obtain ⟨j, hj, hnotifies⟩ := h
  obtain ⟨k, hk⟩ := List.mem_iff_getElem?.mp hj
  have hki : k ≠ i := by
    rintro rfl
    rw [hx] at hk
    obtain rfl := Option.some.inj hk
    rcases hnotifies with rfl | rfl
    · exact hne.1 rfl
    · exact hne.2 rfl
  refine ⟨j, List.mem_of_getElem? (i := k) ?_, hnotifies⟩
  rw [List.getElem?_set_ne (Ne.symm hki)]
  exact hk

/-- No step leaves `releaseReqH` waiting with nobody left to wake it. -/
theorem Woken.step (h : Woken st) (hinv : Request.Inv st) (hm : Request.Moves n st a st') :
    Woken st' := by
  intro hwait
  cases hm with
  | postNone | check => exact h hwait
  | post | submit | submitLast | acquire | seen | wake | leave | delete => cases hwait
  | release => split at hwait <;> cases hwait
  | wait hcaller hpend => exact .inl hpend
  | start hj | succeed hj | fail hj | unlock hj =>
      exact (h hwait).imp_right (notifier_set _ hj (by decide))
  | decrement hj =>
      have hpos := hinv.undone_le hj
      by_cases hone : st.pending = 1
      · refine .inr ⟨.last, ?_, .inl rfl⟩
        simp only [hone, if_true]
        exact mem_set_self _ hj
      · left
        simp only [Request.Job.undone] at hpos ⊢
        omega
  | lock hj => exact .inr ⟨.locked, mem_set_self _ hj, .inr rfl⟩
  | notify hj =>
      -- the notification reaches it
      simp only at hwait
      split at hwait
      · cases hwait
      · exact absurd hwait ‹_›

/-- Only one job moves on, the others stay. -/
theorem onward_set {jobs : List Request.Job} {i : ℕ} {x y : Request.Job} (hx : jobs[i]? = some x)
    (hne : x ≠ .queued ∧ x ≠ .done ∧ y ≠ .queued) (j : ℕ) :
    Onward jobs[j]? (jobs.set i y)[j]? := by
  by_cases hj : j = i
  · subst hj
    refine .inr ⟨⟨x, hx, hne.1, hne.2.1⟩, y, ?_, hne.2.2⟩
    rw [List.getElem?_set_self (List.getElem?_eq_some_iff.mp hx).1]
  · left
    rw [List.getElem?_set_ne (Ne.symm hj)]

/-- A step of a request that is its own moves no job into or out of the pool. -/
theorem jobs_onward (hm : Request.Moves n st a st') (hjoint : joint a = false) (j : ℕ) :
    Onward st.jobs[j]? st'.jobs[j]? := by
  cases hm with
  | submit | submitLast | start => cases hjoint
  | succeed hj | fail hj | lock hj | notify hj | unlock hj => exact onward_set hj (by decide) j
  | decrement hj =>
      refine onward_set hj ⟨by decide, by decide, ?_⟩ j
      split <;> decide
  | _ => exact .inl rfl

/-- A recorded error is not taken back to `IN_PROG`. -/
theorem status_step (hm : Request.Moves n st a st') (hrec : recordable a = true)
    (h : st.status ≠ .inProg) : st'.status ≠ .inProg := by
  cases hm with
  | post => exact nofun
  | @fail i e hj =>
      simp only
      split
      · rintro rfl
        cases hrec
      · exact h
  | _ => exact h

/-- Without a call by its user the caller stays out of the request. -/
theorem between_step (hm : Request.Moves n st a st') (hb : between st.caller = true)
    (hopens : opens a = false) : between st'.caller = true := by
  cases hm with
  | post | check | postNone | release => cases hopens
  | submit hcaller | submitLast hcaller | seen hcaller | wait hcaller | wake hcaller
  | leave hcaller | delete hcaller =>
      rw [hcaller] at hb
      cases hb
  | acquire hcaller =>
      rw [hcaller] at hb
      cases hb
  | notify =>
      simp only
      split
      · rename_i hcaller
        rw [hcaller] at hb
        cases hb
      · exact hb
  | _ => exact hb

/-- A step of a job, or of a caller that has posted, leaves less to do. -/
theorem reqWork_lt (hm : Request.Moves n st a st') (hown : callOwn a) :
    reqWork st' < reqWork st := by
  cases hm with
  | postNone | post | submit | submitLast | check | release | wake => exact hown.elim
  | acquire hcaller | seen hcaller | wait hcaller | leave hcaller | delete hcaller =>
      simp only [reqWork, hcaller, callerWork]
      omega
  | start hj | succeed hj | fail hj | lock hj | unlock hj =>
      exact Nat.add_lt_add_right (jobWork_lt hj (by decide)) _
  | decrement hj =>
      refine Nat.add_lt_add_right (jobWork_lt hj ?_) _
      split <;> decide
  | notify hj =>
      have hset := jobWork_set .notified hj
      have hle : callerWork (if st.caller = .waiting then .acquiring else st.caller) ≤
          callerWork st.caller + 2 := by
        split
        · simp [*, callerWork]
        · omega
      simp only [reqWork, jobWork] at hset hle ⊢
      omega

/-- The loop of `postXfer` adds one queued job. -/
theorem submit_jobs (hm : Request.Moves n st .submit st') :
    st'.jobs = st.jobs ++ [.queued] ∧ reqWork st' + 6 = reqWork st := by
  cases hm with
  | submit hcaller =>
      refine ⟨rfl, ?_⟩
      simp only [reqWork, hcaller, callerWork, List.map_append, List.sum_append, List.map_singleton,
        List.sum_singleton, jobWork]
      omega
  | submitLast hcaller =>
      refine ⟨rfl, ?_⟩
      simp only [reqWork, hcaller, callerWork, List.map_append, List.sum_append, List.map_singleton,
        List.sum_singleton, jobWork]

/-- A worker that starts a job touches nothing else of the request. -/
theorem start_jobs {j : ℕ} (hm : Request.Moves n st (.job j .start) st') :
    st'.jobs = st.jobs.set j .io ∧ st'.caller = st.caller := by
  cases hm
  exact ⟨rfl, rfl⟩

end Request

/-! ## Runs -/

structure Inv (n : ℕ) (s : St) : Prop where
  pool : ThreadPool.Inv n s.pool
  each : ∀ q ∈ s.requests, Request.Inv q.st ∧ Woken q.st ∧ q.st.status ≠ .inProg
  placed : Placed (jobAt s) s.pool
  closed : s.pool.owner ≠ .inUse → ∀ q ∈ s.requests, between q.st.caller = true

section Runs

variable {n : ℕ} {s t : St} {as bs : List Lbl}

/-- A property of all requests is one of the new request and the others. -/
theorem forall_set {P : Req → Prop} {r : ℕ} {q' : Req} (h : ∀ q ∈ s.requests, P q) (hq' : P q') :
    ∀ q ∈ s.requests.set r q', P q := by
  intro q hq
  rcases List.mem_or_eq_of_mem_set hq with hmem | rfl
  · exact h q hmem
  · exact hq'

/-- Only the test of `waitDone` can come too early. -/
theorem not_early {st : Request.St} {a : Request.Lbl} (ha : a ≠ .test) :
    ¬ Request.EarlyRelease st a :=
  fun hearly => ha hearly.1

/-- What one step of the engine preserves, when no request is deleted too early. -/
theorem Inv.step {a : Lbl} (h : Inv n s) (hok : InTime s a) (hst : step s a = some t) :
    Inv n t := by
  cases moves_of_step hst with
  | prep howner =>
      refine ⟨h.pool, ?_, ?_, fun hne => absurd howner hne⟩
      · intro q hq
        rcases List.mem_append.mp hq with hq | hq
        · exact h.each q hq
        · rw [List.mem_singleton.mp hq]
          exact ⟨Request.initial_inv, nofun, nofun⟩
      · -- it has no job yet
        refine h.placed.onward rfl (.refl _) fun x => .inl ?_
        rcases Nat.lt_trichotomy x.1 s.requests.length with hlt | heq | hgt
        · simp [jobAt, List.getElem?_append_left hlt]
        · simp [jobAt, heq, Request.initial]
        · rw [jobAt, jobAt, List.getElem?_eq_none (by simp; omega),
            List.getElem?_eq_none (by omega)]
  | @request r a q st hq hreq hjoint hrec hopens =>
      have hmem := List.mem_of_getElem? hq
      have hm := Request.moves_of_step hreq
      refine ⟨h.pool, forall_set h.each ⟨?_, ?_, ?_⟩, ?_, fun hne => ?_⟩
      · exact Request.step_inv (h.each q hmem).1 (hok q hq) hreq
      · exact (h.each q hmem).2.1.step (h.each q hmem).1 hm
      · exact status_step hm hrec (h.each q hmem).2.2
      · refine h.placed.onward rfl (.refl _) fun x => ?_
        rw [jobAt_set _ hq]
        split
        · rename_i heq
          obtain ⟨r', j⟩ := x
          obtain rfl : r' = r := heq
          rw [jobAt_eq hq]
          exact jobs_onward hm hjoint j
        · exact .inl rfl
      · refine forall_set (h.closed hne) (between_step hm (h.closed hne q hmem) ?_)
        exact Bool.eq_false_iff.mpr fun hop => hne (hopens hop)
  | @submit r q st pool hq hreq hpool =>
      have hmem := List.mem_of_getElem? hq
      have hm := Request.moves_of_step hreq
      obtain ⟨hjobs, -⟩ := submit_jobs hm
      refine ⟨h.pool.step hpool, forall_set h.each ⟨?_, ?_, ?_⟩, ?_, ?_⟩
      · exact Request.step_inv (h.each q hmem).1 (not_early (by simp)) hreq
      · exact (h.each q hmem).2.1.step (h.each q hmem).1 hm
      · exact status_step hm rfl (h.each q hmem).2.2
      · have hnew : jobAt s (r, q.st.jobs.length) = none := by simp [jobAt_eq hq]
        have hplaced := h.placed.submit hnew hpool
        refine hplaced.onward rfl (.refl _) fun x => .inl ?_
        obtain ⟨r', j⟩ := x
        have hset := jobAt_set (s := s) { q with st := st } hq (r', j)
        change jobAt { s with requests := s.requests.set r { q with st := st } } (r', j) = _
        rw [hset]
        by_cases hr : r' = r
        · subst hr
          simp only [if_true, hjobs]
          rcases Nat.lt_trichotomy j q.st.jobs.length with hlt | heq | hgt
          · rw [Function.update_of_ne (by simp; omega), jobAt_eq hq,
              List.getElem?_append_left hlt]
          · simp [heq]
          · rw [Function.update_of_ne (by simp; omega), jobAt_eq hq,
              List.getElem?_eq_none (by simp; omega), List.getElem?_eq_none (by omega)]
        · rw [if_neg hr, Function.update_of_ne (by simp [hr])]
      · intro hne
        cases hpool with
        | submitted howner => exact absurd howner hne
  | @take i r j q st pool hq hreq hpool =>
      have hmem := List.mem_of_getElem? hq
      have hm := Request.moves_of_step hreq
      obtain ⟨hjobs, hcaller⟩ := start_jobs hm
      refine ⟨h.pool.step hpool, forall_set h.each ⟨?_, ?_, ?_⟩, ?_, fun hne => ?_⟩
      · exact Request.step_inv (h.each q hmem).1 (not_early (by simp)) hreq
      · exact (h.each q hmem).2.1.step (h.each q hmem).1 hm
      · exact status_step hm rfl (h.each q hmem).2.2
      · refine (h.placed.take hpool).onward rfl (.refl _) fun x => .inl ?_
        obtain ⟨r', j'⟩ := x
        have hset := jobAt_set (s := s) { q with st := st } hq (r', j')
        change jobAt { s with requests := s.requests.set r { q with st := st } } (r', j') = _
        rw [hset]
        have hlt : j < q.st.jobs.length := by
          cases hm with
          | start hj => exact (List.getElem?_eq_some_iff.mp hj).1
        by_cases hr : r' = r
        · subst hr
          simp only [if_true, hjobs]
          by_cases hj : j' = j
          · subst hj
            rw [Function.update_self, List.getElem?_set_self hlt]
          · rw [Function.update_of_ne (by simp [hj]), jobAt_eq hq,
              List.getElem?_set_ne (Ne.symm hj)]
        · rw [if_neg hr, Function.update_of_ne (by simp [hr])]
      · have hbefore : s.pool.owner ≠ .inUse := by
          cases hpool
          exact hne
        refine forall_set (h.closed hbefore) ?_
        rw [hcaller]
        exact h.closed hbefore q hmem
  | finish hjob hpool =>
      refine ⟨h.pool.step hpool, h.each, h.placed.finish hjob hpool, fun hne => h.closed ?_⟩
      cases hpool
      exact hne
  | @pool a pool hpool hjoint hstop =>
      have hnone : a.submits = none ∧ a.takes = none ∧ a.finishes = none := by
        cases a <;> first | exact ⟨rfl, rfl, rfl⟩ | cases hjoint
      refine ⟨h.pool.step hpool, h.each, ?_, fun hne => ?_⟩
      · have horder := hpool.order
        have hplaced := hpool.placed
        simp only [hnone, Option.toList_none, List.append_nil, List.nil_append] at horder hplaced
        exact h.placed.onward horder.symm hplaced.symm fun x => .inl rfl
      · by_cases ha : a = .stop
        · exact hstop ha
        · refine h.closed ?_
          cases hpool <;> first | exact hne | exact absurd rfl ha | simp [*]

/-- No request has been made at first. -/
theorem initial_inv (n : ℕ) : Inv n (initial n) := by
  refine ⟨ThreadPool.initial_inv n, nofun, ?_, nofun⟩
  have hnone : ∀ x, jobAt (initial n) x = none := fun x => by simp [jobAt, initial]
  have hidle : ThreadPool.running (initial n).pool = [] :=
    List.filterMap_eq_nil_iff.mpr fun w hw => by
      rw [List.eq_of_mem_replicate hw]
      rfl
  constructor
  case once => exact List.nodup_nil
  case queued =>
    intro x
    rw [hnone]
    simp [initial, ThreadPool.initial]
  case started => exact fun x hx => by simp [hidle] at hx
  case carried => exact fun x y hy => by simp [hnone] at hy

/-- So the invariant holds along every such run. -/
theorem inv_of_run (halong : (machine n).Along InTime (initial n) as)
    (hrun : (machine n).run (initial n) as = some s) : Inv n s :=
  Machine.run_induction (M := machine n) (fun _ s => Inv n s) (initial_inv n)
    (fun _ _ _ _ h _ hok hst => h.step hok hst) halong hrun

/-! ### The engine comes to rest -/

/-- The steps of the engine: no call by its user, and no spurious wakeup. -/
def Lbl.Own : Lbl → Prop
  | .prep _ => False
  | .request _ a => callOwn a
  | .submit _ | .take _ _ _ | .finish _ _ _ => True
  | .pool a => a.Own

/-- An upper bound of the steps that are left. -/
def work (s : St) : ℕ := ThreadPool.work s.pool + (s.requests.map fun q => reqWork q.st).sum

/-- Replacing one request shifts the sum by the difference. -/
theorem reqWork_set {r : ℕ} {q : Req} (q' : Req) (hq : s.requests[r]? = some q) :
    ((s.requests.set r q').map fun q => reqWork q.st).sum + reqWork q.st =
      (s.requests.map fun q => reqWork q.st).sum + reqWork q'.st :=
  sum_map_set hq fun _ _ _ _ => rfl

/-- Every step of the engine itself leaves less to do. -/
theorem Moves.work_lt {a : Lbl} (hm : Moves s a t) (hown : a.Own) : work t < work s := by
  cases hm with
  | prep => exact hown.elim
  | @request r a q st hq hreq =>
      have hset := reqWork_set { q with st := st } hq
      have hlt := reqWork_lt (Request.moves_of_step hreq) hown
      simp only [work] at hset ⊢
      -- no job is handed over: only the request's own work falls
      omega
  | @submit r q st pool hq hreq hpool =>
      have hset := reqWork_set { q with st := st } hq
      -- six of the request's work become five of the pool's
      have hsix := (submit_jobs (Request.moves_of_step hreq)).2
      have hfive : ThreadPool.work pool = ThreadPool.work s.pool + 5 := by
        cases hpool
        simp only [ThreadPool.work, List.length_append, List.length_singleton]
        omega
      simp only [work] at hset ⊢
      omega
  | @take i r j q st pool hq hreq hpool =>
      have hset := reqWork_set { q with st := st } hq
      have hlt := reqWork_lt (Request.moves_of_step hreq) trivial
      have hpoolLt := hpool.work_lt trivial
      simp only [work] at hset ⊢
      omega
  -- the request has let go of the job already; the thread's last step is the pool's
  | finish hjob hpool =>
      have hpoolLt := hpool.work_lt trivial
      simp only [work]
      omega
  | pool hpool =>
      have hpoolLt := hpool.work_lt hown
      simp only [work]
      omega

/-- No step of the engine is possible. -/
def AtRest (s : St) : Prop := ∀ a : Lbl, a.Own → step s a = none

/-- Where the engine has come to rest, no step of a request that is its own is possible. -/
theorem AtRest.stuck {r : ℕ} {q : Req} (h : AtRest s) (hq : s.requests[r]? = some q)
    {a : Request.Lbl} (hown : callOwn a) (hjoint : joint a = false) (hrec : recordable a = true) :
    Request.step q.groups q.st a = none := by
  have hopens : opens a = false := by cases a <;> first | rfl | exact hown.elim
  have hst := h (.request r a) hown
  simpa [step, stepRequest, hjoint, hrec, hopens, hq] using hst

/-- The mutex is free, and no job or caller is on its way. -/
theorem AtRest.request {r : ℕ} {q : Req} (h : AtRest s) (hinv : Request.Inv q.st)
    (hq : s.requests[r]? = some q) :
    (∀ j ∈ q.st.jobs, j = .queued ∨ j = .done) ∧
      (between q.st.caller = true ∨ q.st.caller = .waiting ∨ ∃ k, q.st.caller = .posting k) := by
  have hjob : ∀ j ∈ q.st.jobs, j = .queued ∨ j = .last ∨ j = .done := by
    intro j hj
    obtain ⟨i, hi⟩ := List.mem_iff_getElem?.mp hj
    have hstuck : ∀ b, joint (.job i b) = false → recordable (.job i b) = true →
        Request.step q.groups q.st (.job i b) = none :=
      fun b hb hrec => h.stuck hq trivial hb hrec
    cases j with
    | queued => exact .inl rfl
    | last => exact .inr (.inl rfl)
    | done => exact .inr (.inr rfl)
    | io => simpa [Request.step, Request.jobStep, hi] using hstuck (.record none) rfl rfl
    | finishing => simpa [Request.step, Request.jobStep, hi] using hstuck .decrement rfl rfl
    | locked => simpa [Request.step, Request.jobStep, hi] using hstuck .notify rfl rfl
    | notified => simpa [Request.step, Request.jobStep, hi] using hstuck .unlock rfl rfl
  have hcaller : q.st.caller ≠ .testing ∧ q.st.caller ≠ .leaving ∧ q.st.caller ≠ .deleting := by
    refine ⟨fun hc => ?_, fun hc => ?_, fun hc => ?_⟩
    · have hst := h.stuck (a := .test) hq trivial rfl rfl
      simp only [Request.step, hc, if_true] at hst
      split at hst <;> cases hst
    · simpa [Request.step, hc] using h.stuck (a := .leave) hq trivial rfl rfl
    · simpa [Request.step, hc] using h.stuck (a := .delete) hq trivial rfl rfl
  have hfree : q.st.doneMtx = false := by
    have hnone : (q.st.jobs.map Request.Job.holds).sum = 0 := by
      refine List.sum_eq_zero fun x hx => ?_
      obtain ⟨j, hj, rfl⟩ := List.mem_map.mp hx
      rcases hjob j hj with rfl | rfl | rfl <;> rfl
    have hout : q.st.caller.holds = 0 := by
      cases hc : q.st.caller <;> first | rfl | exact absurd hc hcaller.1 |
        exact absurd hc hcaller.2.1
    have hmtx := hinv.doneMtx_eq
    rw [hnone, hout] at hmtx
    cases hb : q.st.doneMtx with
    | false => rfl
    | true => simp [hb] at hmtx
  constructor
  · intro j hj
    rcases hjob j hj with hqueued | rfl | hdone
    · exact .inl hqueued
    · -- nobody keeps the last job from the lock
      obtain ⟨i, hi⟩ := List.mem_iff_getElem?.mp hj
      simpa [Request.step, Request.jobStep, hi, hfree] using
        h.stuck (a := .job i .lock) hq trivial rfl rfl
    · exact .inr hdone
  · cases hc : q.st.caller with
    | idle | gone => exact .inl rfl
    | waiting => exact .inr (.inl rfl)
    | posting k => exact .inr (.inr ⟨k, rfl⟩)
    | acquiring => simpa [Request.step, hc, hfree] using h.stuck (a := .acquire) hq trivial rfl rfl
    | testing => exact absurd hc hcaller.1
    | leaving => exact absurd hc hcaller.2.1
    | deleting => exact absurd hc hcaller.2.2

/-- A job that exists belongs to a request. -/
theorem jobAt_some {x : ℕ × ℕ} {y : Request.Job} (h : jobAt s x = some y) :
    ∃ q, s.requests[x.1]? = some q ∧ q.st.jobs[x.2]? = some y :=
  Option.bind_eq_some_iff.mp h

/-- The pool alone is at rest, too. -/
theorem AtRest.pool (h : AtRest s) (hinv : Inv n s) : ThreadPool.AtRest s.pool := by
  intro a hown
  -- steps that only the pool takes are the engine's steps as they are
  have halone : poolJoint a = false → a ≠ .stop → ThreadPool.step s.pool a = none := by
    intro hjoint hstop
    have hst := h (.pool a) hown
    simpa [step, stepPool, hjoint, hstop] using hst
  cases a with
  | submit x => exact hown.elim
  | wake i => exact hown.elim
  | stop => exact hown.elim
  | take i x =>
      by_contra hne
      obtain ⟨pool, hpool⟩ := Option.ne_none_iff_exists'.mp hne
      -- the job taken is queued, so its request waits for it and could take the step too
      have hmem : x ∈ s.pool.q := by
        cases ThreadPool.moves_of_step hpool with
        | took hw hq => simp [hq]
      obtain ⟨q, hq, hj⟩ := jobAt_some ((hinv.placed.queued x).mp hmem)
      have hst := h (.take i x.1 x.2) trivial
      simp [step, stepPool, stepRequest, hpool, hq, Request.step, Request.jobStep, hj] at hst
  | finish i x =>
      by_contra hne
      obtain ⟨pool, hpool⟩ := Option.ne_none_iff_exists'.mp hne
      have hmem : x ∈ ThreadPool.running s.pool := by
        cases ThreadPool.moves_of_step hpool with
        | finished hw => exact List.mem_filterMap.mpr ⟨_, List.mem_of_getElem? hw, rfl⟩
      -- the job that runs has begun, and a request at rest has no job left at its I/O
      obtain ⟨y, hy, hnq⟩ := hinv.placed.started x hmem
      obtain ⟨q, hq, hj⟩ := jobAt_some hy
      have hdone := ((h.request (hinv.each q (List.mem_of_getElem? hq)).1 hq).1 y
        (List.mem_of_getElem? hj)).resolve_left hnq
      have hst := h (.finish i x.1 x.2) trivial
      simp [step, stepPool, hy, hdone, hpool] at hst
  | _ => exact halone rfl (by simp)

/-- A request when the engine is at rest. -/
structure Over (st : Request.St) : Prop where
  jobs : ∀ j ∈ st.jobs, j = .done
  answered : st.posted = true → Request.checkXfer st ≠ .inProg
  caller : st.caller = .idle ∨ st.caller = .gone

/-- At rest every request is over: a job that is not done could go on, or its worker could.
-/
theorem AtRest.over {v : Option ℤ} (h : AtRest s) (hinv : Inv (ThreadPool.threadCount v) s)
    {q : Req} (hmem : q ∈ s.requests) : Over q.st := by
  obtain ⟨r, hq⟩ := List.mem_iff_getElem?.mp hmem
  obtain ⟨hreq, hwoken, hstatus⟩ := hinv.each q hmem
  obtain ⟨hjob, hcaller⟩ := h.request hreq hq
  obtain ⟨hnone, -, -⟩ := (h.pool hinv).settled hinv.pool (ThreadPool.threadCount_pos v)
  have hdone : ∀ j ∈ q.st.jobs, j = .done := by
    intro j hj
    refine (hjob j hj).resolve_left ?_
    rintro rfl
    obtain ⟨i, hi⟩ := List.mem_iff_getElem?.mp hj
    have hqueued := (hinv.placed.queued (r, i)).mpr ((jobAt_eq hq i).trans hi)
    rw [hnone] at hqueued
    cases hqueued
  have hpend : q.st.pending = q.st.caller.remaining := by
    have hzero : (q.st.jobs.map Request.Job.undone).sum = 0 := by
      refine List.sum_eq_zero fun x hx => ?_
      obtain ⟨j, hj, rfl⟩ := List.mem_map.mp hx
      rw [hdone j hj]
      rfl
    have hp := hreq.pending_eq
    omega
  have hquiet : between q.st.caller = true := by
    rcases hcaller with hb | hwait | ⟨k, hpost⟩
    · exact hb
    · -- somebody would notify it
      rcases hwoken hwait with hne | ⟨j, hj, hnotifies⟩
      · rw [hpend, hwait] at hne
        exact absurd rfl hne
      · rw [hdone j hj] at hnotifies
        rcases hnotifies with heq | heq <;> cases heq
    · have howner : s.pool.owner = .inUse := by
        by_contra hne
        have hb := hinv.closed hne q hmem
        rw [hpost] at hb
        cases hb
      have hst := h (.submit r) trivial
      simp [step, stepPool, stepRequest, hq, ThreadPool.step, howner, Request.step, hpost] at hst
  have hcases : q.st.caller = .idle ∨ q.st.caller = .gone := by
    cases hc : q.st.caller with
    | idle => exact .inl rfl
    | gone => exact .inr rfl
    | _ =>
        rw [hc] at hquiet
        cases hquiet
  refine ⟨hdone, fun hposted => ?_, hcases⟩
  have hzero : q.st.pending = 0 := by
    rw [hpend]
    rcases hcases with hc | hc <;> rw [hc] <;> rfl
  simpa [Request.checkXfer, hposted, hzero] using hstatus

/-- The engine's own steps come to an end. Then all groups of all requests have been
finished, whoever polls gets an answer, and nobody is left in `releaseReqH`. -/
theorem transfers_complete {v : Option ℤ}
    (hrun : (machine (ThreadPool.threadCount v)).run (initial (ThreadPool.threadCount v)) as =
      some s) :
    ∃ N, ∀ bs t, (∀ b ∈ bs, b.Own) → (machine (ThreadPool.threadCount v)).run s bs = some t →
      bs.length ≤ N ∧
        ((machine (ThreadPool.threadCount v)).Along InTime (initial (ThreadPool.threadCount v))
          (as ++ bs) → AtRest t → ∀ q ∈ t.requests, Over q.st) := by
  refine ⟨work s, fun bs t hown hbs => ?_⟩
  have hle := Machine.length_add_work_le
    (fun _ _ _ hown hst => (moves_of_step hst).work_lt hown) hown hbs
  refine ⟨by omega, fun halong hrest q hmem => ?_⟩
  have hall : (machine (ThreadPool.threadCount v)).run (initial (ThreadPool.threadCount v))
      (as ++ bs) = some t := by
    rw [Machine.run_append, hrun]
    exact hbs
  exact hrest.over (inv_of_run halong hall) hmem

end Runs

/-! ## Two requests on one thread -/

/-- The worker sleeps when the first request is posted; it is in the first group
when the second request is posted and the first one is released. -/
def released : List Lbl :=
  [.pool (.sleep 0), .prep 2, .prep 1, .request 0 .post, .submit 0, .pool (.notifyOne (some 0)),
    .take 0 0 0, .submit 0, .request 1 .post, .submit 1, .request 0 .release, .request 0 .acquire,
    .request 0 .test]

/-- The rest of what the engine has to do. -/
def toTheEnd : List Lbl :=
  [.request 0 (.job 0 (.record none)), .request 0 (.job 0 .decrement), .finish 0 0 0,
    .take 0 0 1, .request 0 (.job 1 (.record (some .errNotFound))), .request 0 (.job 1 .decrement),
    .request 0 (.job 1 .lock), .request 0 (.job 1 .notify), .request 0 (.job 1 .unlock),
    .request 0 .acquire, .request 0 .test, .request 0 .leave, .request 0 .delete,
    .finish 0 0 1, .take 0 1 0, .request 1 (.job 0 (.record none)), .request 1 (.job 0 .decrement),
    .request 1 (.job 0 .lock), .request 1 (.job 0 .notify), .request 1 (.job 0 .unlock),
    .finish 0 1 0, .pool (.notifyOne none), .pool (.notifyOne none), .pool (.sleep 0)]

/-- A posted request that is released while its job is under way; the engine takes it to the
end. -/
theorem released_completes : ∃ s t,
    (machine (ThreadPool.threadCount (some 1))).run (initial (ThreadPool.threadCount (some 1)))
        released = some s ∧
      (machine (ThreadPool.threadCount (some 1))).run s toTheEnd = some t ∧
      (AtRest t → ∀ q ∈ t.requests, Over q.st) := by
  have hrun : ((machine (ThreadPool.threadCount (some 1))).run
      (initial (ThreadPool.threadCount (some 1))) released).isSome = true := by
    decide
  have hend : ((machine (ThreadPool.threadCount (some 1))).run
      (initial (ThreadPool.threadCount (some 1))) (released ++ toTheEnd)).isSome = true := by
    decide
  have halong : (machine (ThreadPool.threadCount (some 1))).Along InTime
      (initial (ThreadPool.threadCount (some 1))) (released ++ toTheEnd) :=
    Machine.along_of_alongB (by decide)
  obtain ⟨s, hs⟩ := Option.isSome_iff_exists.mp hrun
  rw [Machine.run_append, hs, Option.bind_some] at hend
  obtain ⟨t, ht⟩ := Option.isSome_iff_exists.mp hend
  obtain ⟨N, hN⟩ := transfers_complete hs
  have hown : ∀ b ∈ toTheEnd, b.Own := by
    simp [toTheEnd, Lbl.Own, callOwn, ThreadPool.Lbl.Own]
  exact ⟨s, t, hs, ht, (hN toTheEnd t hown ht).2 halong⟩

end LmcacheDaos.Nixl.Engine
