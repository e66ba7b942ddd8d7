import Mathlib.Algebra.Order.BigOperators.Group.List
import Mathlib.Algebra.Order.Group.Nat
import Mathlib.Data.List.Perm.Lattice
import Mathlib.Tactic.Common
import LmcacheDaos.Lib.Machine

/-!
# The IO threads of the NIXL engine

`nixlDaosThreadPool` with the constructor and the destructor of
`nixlDaosEngine` that own it (`daos_backend.cpp`). What a worker does between
taking `m_` and releasing it is one step: it evaluates the predicate of
`cv_.wait` and sleeps, returns, or moves the front of `q_` out. `submit` pushes
under the lock and notifies after it; a notification that finds nobody waiting is
lost, and a waiting worker may wake up by itself.

The object is not used any more when its destructor starts: no `submit` is in
progress then, and none follows.

* Every job is run once, in the order of `submit`, also through the destructor,
  which returns only when no job runs or is queued; the containers are closed
  after that (`jobs_run_once`).
* No wakeup is lost. While a worker waits, every queued job has a notification or
  a worker on its way to the lock (`Inv.covered`). With the threads the
  engine makes, the pool's own steps come to an end, all jobs have run then, and a
  destructor that was entered has returned (`pool_settles`).
-/

namespace LmcacheDaos.Nixl.ThreadPool

open Lib

variable {α : Type}

/-- Where a worker is. -/
inductive Worker (α : Type) where
  /-- about to take `m_` and evaluate the predicate of `cv_.wait` -/
  | testing
  /-- in `cv_.wait` -/
  | waiting
  | running (job : α)
  | returned
deriving DecidableEq, Repr

/-- Where the thread that owns the engine is. -/
inductive Owner where
  | inUse
  /-- in the destructor of the pool, has set `stop_` -/
  | stopping
  /-- has notified all and joined the first `k` workers -/
  | joining (k : ℕ)
  /-- `pool_.reset()` has returned -/
  | destroyed
  /-- has closed the containers -/
  | closed
deriving DecidableEq, Repr

structure Pool (α : Type) where
  /-- `q_` -/
  q : List α
  /-- `stop_` -/
  stop : Bool
  workers : List (Worker α)
  /-- calls of `submit` between the lock and `cv_.notify_one()` -/
  notifying : ℕ
  owner : Owner
deriving DecidableEq, Repr

inductive Lbl (α : Type) where
  /-- `submit`, up to the end of its critical section -/
  | submit (job : α)
  /-- `cv_.notify_one()` wakes worker `i`, or finds nobody waiting -/
  | notifyOne (i : Option ℕ)
  /-- the predicate of `cv_.wait` is false -/
  | sleep (i : ℕ)
  /-- a spurious wakeup -/
  | wake (i : ℕ)
  /-- takes the front of `q_` -/
  | take (i : ℕ) (job : α)
  /-- `job()` returns -/
  | finish (i : ℕ) (job : α)
  /-- `if (stop_ && q_.empty()) return` -/
  | leave (i : ℕ)
  /-- the destructor sets `stop_` -/
  | stop
  /-- `cv_.notify_all()` -/
  | notifyAll
  /-- the loop of `join()` goes on, or ends -/
  | join
  /-- `~nixlDaosEngine` closes the containers -/
  | close
deriving DecidableEq, Repr

/-- The number of threads: `NIXL_DAOS_THREADS`, as `atoi` reads it. -/
def threadCount : Option ℤ → ℕ
  | none => 64
  | some v => if 0 < v ∧ v ≤ 512 then v.toNat else 64

/-- The constructor of the pool. -/
def initial (n : ℕ) : Pool α := ⟨[], false, List.replicate n .testing, 0, .inUse⟩

/-- `cv_.notify_all()` -/
def Worker.woken : Worker α → Worker α
  | .waiting => .testing
  | w => w

def step [DecidableEq α] (s : Pool α) : Lbl α → Option (Pool α)
  | .submit job =>
      if s.owner = .inUse then
        some { s with q := s.q ++ [job], notifying := s.notifying + 1 }
      else none
  | .notifyOne none =>
      if 0 < s.notifying ∧ .waiting ∉ s.workers then
        some { s with notifying := s.notifying - 1 }
      else none
  | .notifyOne (some i) =>
      if 0 < s.notifying ∧ s.workers[i]? = some .waiting then
        some { s with notifying := s.notifying - 1, workers := s.workers.set i .testing }
      else none
  | .sleep i =>
      if s.workers[i]? = some .testing ∧ s.stop = false ∧ s.q = [] then
        some { s with workers := s.workers.set i .waiting }
      else none
  | .wake i =>
      if s.workers[i]? = some .waiting then
        some { s with workers := s.workers.set i .testing }
      else none
  | .take i job =>
      if s.workers[i]? = some .testing ∧ s.q.head? = some job then
        some { s with q := s.q.tail, workers := s.workers.set i (.running job) }
      else none
  | .finish i job =>
      if s.workers[i]? = some (.running job) then
        some { s with workers := s.workers.set i .testing }
      else none
  | .leave i =>
      if s.workers[i]? = some .testing ∧ s.stop = true ∧ s.q = [] then
        some { s with workers := s.workers.set i .returned }
      else none
  | .stop =>
      if s.owner = .inUse ∧ s.notifying = 0 then
        some { s with stop := true, owner := .stopping }
      else none
  | .notifyAll =>
      if s.owner = .stopping then
        some { s with workers := s.workers.map Worker.woken, owner := .joining 0 }
      else none
  | .join => match s.owner with
      | .joining k => match s.workers[k]? with
        | some .returned => some { s with owner := .joining (k + 1) }
        | some _ => none
        | none => some { s with owner := .destroyed }
      | _ => none
  | .close => if s.owner = .destroyed then some { s with owner := .closed } else none

def machine (α : Type) [DecidableEq α] (n : ℕ) : Machine (Pool α) (Lbl α) where
  Init s := s = initial n
  step := step

/-! ## What a run has done -/

def Lbl.submits : Lbl α → Option α
  | .submit job => some job
  | _ => none

def Lbl.takes : Lbl α → Option α
  | .take _ job => some job
  | _ => none

def Lbl.finishes : Lbl α → Option α
  | .finish _ job => some job
  | _ => none

/-- The jobs, in the order of `submit`. -/
def submitted (as : List (Lbl α)) : List α := as.filterMap Lbl.submits

/-- The jobs, in the order the workers took them. -/
def taken (as : List (Lbl α)) : List α := as.filterMap Lbl.takes

/-- The jobs that have returned. -/
def finished (as : List (Lbl α)) : List α := as.filterMap Lbl.finishes

def Worker.job : Worker α → Option α
  | .running job => some job
  | _ => none

/-- The jobs the workers are in. -/
def running (s : Pool α) : List α := s.workers.filterMap Worker.job

/-! ## The invariant -/

def Worker.tests : Worker α → ℕ
  | .testing => 1
  | _ => 0

/-- How many workers are on their way to the lock. -/
def testers (s : Pool α) : ℕ := (s.workers.map Worker.tests).sum

/-- `pool_.reset()` has returned. -/
def Owner.Past : Owner → Prop
  | .destroyed | .closed => True
  | _ => False

/-- Where the jobs of a run are. -/
structure Ledger (as : List (Lbl α)) (s : Pool α) : Prop where
  order : submitted as = taken as ++ s.q
  placed : (taken as).Perm (finished as ++ running s)

/-- The part that speaks of the state alone, for a pool of `n` threads. -/
structure Inv (n : ℕ) (s : Pool α) : Prop where
  covered : .waiting ∈ s.workers → s.q.length ≤ s.notifying + testers s
  count : s.workers.length = n
  stop : s.stop = true ↔ s.owner ≠ .inUse
  quiet : s.owner ≠ .inUse → s.notifying = 0
  left : .returned ∈ s.workers → s.stop = true ∧ s.q = []
  awake : s.owner ≠ .inUse → s.owner ≠ .stopping → .waiting ∉ s.workers
  joined : ∀ k, s.owner = .joining k → k ≤ n ∧ ∀ i < k, s.workers[i]? = some .returned
  past : s.owner.Past → ∀ w ∈ s.workers, w = .returned

/-- What a step does, case by case. -/
inductive Moves (s : Pool α) : Lbl α → Pool α → Prop where
  | submitted {job : α} (howner : s.owner = .inUse) : Moves s (.submit job)
      { s with q := s.q ++ [job], notifying := s.notifying + 1 }
  | unheard (hpos : 0 < s.notifying) (hnone : .waiting ∉ s.workers) : Moves s (.notifyOne none)
      { s with notifying := s.notifying - 1 }
  | notified {i : ℕ} (hpos : 0 < s.notifying) (hw : s.workers[i]? = some .waiting) :
      Moves s (.notifyOne (some i))
        { s with notifying := s.notifying - 1, workers := s.workers.set i .testing }
  | slept {i : ℕ} (hw : s.workers[i]? = some .testing) (hstop : s.stop = false) (hq : s.q = []) :
      Moves s (.sleep i) { s with workers := s.workers.set i .waiting }
  | woke {i : ℕ} (hw : s.workers[i]? = some .waiting) :
      Moves s (.wake i) { s with workers := s.workers.set i .testing }
  | took {i : ℕ} {job : α} {rest : List α} (hw : s.workers[i]? = some .testing)
      (hq : s.q = job :: rest) : Moves s (.take i job)
        { s with q := rest, workers := s.workers.set i (.running job) }
  | finished {i : ℕ} {job : α} (hw : s.workers[i]? = some (.running job)) :
      Moves s (.finish i job) { s with workers := s.workers.set i .testing }
  | left {i : ℕ} (hw : s.workers[i]? = some .testing) (hstop : s.stop = true) (hq : s.q = []) :
      Moves s (.leave i) { s with workers := s.workers.set i .returned }
  | stopped (howner : s.owner = .inUse) (hquiet : s.notifying = 0) :
      Moves s .stop { s with stop := true, owner := .stopping }
  | notifiedAll (howner : s.owner = .stopping) : Moves s .notifyAll
      { s with workers := s.workers.map Worker.woken, owner := .joining 0 }
  | joined {k : ℕ} (howner : s.owner = .joining k) (hw : s.workers[k]? = some .returned) :
      Moves s .join { s with owner := .joining (k + 1) }
  | destroyed {k : ℕ} (howner : s.owner = .joining k) (hw : s.workers[k]? = none) :
      Moves s .join { s with owner := .destroyed }
  | closed (howner : s.owner = .destroyed) : Moves s .close { s with owner := .closed }

section Steps

variable {n : ℕ} {s s' : Pool α} {a : Lbl α} {as : List (Lbl α)}

/-- What a step can do. -/
theorem moves_of_step [DecidableEq α] (hst : step s a = some s') : Moves s a s' := by
  cases a with
  | submit job =>
      obtain ⟨h, rfl⟩ := Option.ite_none_right_eq_some.mp hst |>.imp_right Option.some.inj
      exact .submitted h
  | notifyOne i => cases i with
    | none =>
        obtain ⟨⟨hpos, hnone⟩, rfl⟩ :=
          Option.ite_none_right_eq_some.mp hst |>.imp_right Option.some.inj
        exact .unheard hpos hnone
    | some i =>
        obtain ⟨⟨hpos, hw⟩, rfl⟩ :=
          Option.ite_none_right_eq_some.mp hst |>.imp_right Option.some.inj
        exact .notified hpos hw
  | sleep i =>
      obtain ⟨⟨hw, hstop, hq⟩, rfl⟩ :=
        Option.ite_none_right_eq_some.mp hst |>.imp_right Option.some.inj
      exact .slept hw hstop hq
  | wake i =>
      obtain ⟨hw, rfl⟩ := Option.ite_none_right_eq_some.mp hst |>.imp_right Option.some.inj
      exact .woke hw
  | take i job =>
      obtain ⟨⟨hw, hhead⟩, rfl⟩ :=
        Option.ite_none_right_eq_some.mp hst |>.imp_right Option.some.inj
      -- the job in the label is the one at the front, so the queue is not empty
      cases hq : s.q with
      | nil => rw [hq] at hhead; cases hhead
      | cons x rest =>
          rw [hq] at hhead
          cases hhead
          exact .took hw hq
  | finish i job =>
      obtain ⟨hw, rfl⟩ := Option.ite_none_right_eq_some.mp hst |>.imp_right Option.some.inj
      exact .finished hw
  | leave i =>
      obtain ⟨⟨hw, hstop, hq⟩, rfl⟩ :=
        Option.ite_none_right_eq_some.mp hst |>.imp_right Option.some.inj
      exact .left hw hstop hq
  | stop =>
      obtain ⟨⟨howner, hquiet⟩, rfl⟩ :=
        Option.ite_none_right_eq_some.mp hst |>.imp_right Option.some.inj
      exact .stopped howner hquiet
  | notifyAll =>
      obtain ⟨howner, rfl⟩ := Option.ite_none_right_eq_some.mp hst |>.imp_right Option.some.inj
      exact .notifiedAll howner
  | join =>
      simp only [step] at hst
      split at hst
      · -- join thread `k` if it has returned, block while it has not, and past the last one go on
        rename_i k howner
        split at hst
        · rename_i hw
          cases hst
          exact .joined howner hw
        · cases hst
        · rename_i hw
          cases hst
          exact .destroyed howner hw
      · cases hst
  | close =>
      obtain ⟨howner, rfl⟩ := Option.ite_none_right_eq_some.mp hst |>.imp_right Option.some.inj
      exact .closed howner

/-! ### The jobs -/

theorem submitted_concat : submitted (as ++ [a]) = submitted as ++ a.submits.toList := by
  rw [submitted, List.filterMap_append, filterMap_cons_eq, List.filterMap_nil, List.append_nil]
  rfl

theorem taken_concat : taken (as ++ [a]) = taken as ++ a.takes.toList := by
  rw [taken, List.filterMap_append, filterMap_cons_eq, List.filterMap_nil, List.append_nil]
  rfl

theorem finished_concat : finished (as ++ [a]) = finished as ++ a.finishes.toList := by
  rw [finished, List.filterMap_append, filterMap_cons_eq, List.filterMap_nil, List.append_nil]
  rfl

/-- Where a queued job goes. -/
theorem Moves.order (hm : Moves s a s') :
    s.q ++ a.submits.toList = a.takes.toList ++ s'.q := by
  cases hm
  case took hw hq => exact (List.append_nil _).trans hq
  all_goals simp [Lbl.submits, Lbl.takes]

/-- Where a job that a worker took goes. -/
theorem Moves.placed (hm : Moves s a s') :
    (running s ++ a.takes.toList).Perm (a.finishes.toList ++ running s') := by
  -- a thread that moves between states without a job changes nothing
  have hset : ∀ {i : ℕ} {w w' : Worker α}, s.workers[i]? = some w → w'.job = w.job →
      (running s ++ []).Perm ((s.workers.set i w').filterMap Worker.job) := by
    intro i w w' hw heq
    rw [List.append_nil]
    exact (perm_filterMap_set_same hw heq).symm
  cases hm
  case notified hpos hw => exact hset hw rfl
  case slept hw hstop hq => exact hset hw rfl
  case woke hw => exact hset hw rfl
  case left hw hstop hq => exact hset hw rfl
  -- a job begins
  case took i job rest hw hq =>
      exact (perm_filterMap_set_new (f := Worker.job) (x := job) hw rfl rfl).symm
  -- a job ends
  case finished i job hw =>
      have hperm := perm_filterMap_set Worker.job .testing hw
      simp only [Worker.job, Option.toList_some, Option.toList_none, List.append_nil] at hperm
      simp only [Lbl.takes, Lbl.finishes, Option.toList_some, Option.toList_none, List.append_nil]
      exact hperm.symm.trans List.perm_append_comm
  -- waking changes no thread's job
  case notifiedAll howner =>
      have hwoken : ∀ w : Worker α, w.woken.job = w.job := by
        intro w
        cases w <;> rfl
      simp [Lbl.takes, Lbl.finishes, running, List.filterMap_map, hwoken]
  all_goals exact .of_eq (by simp [Lbl.takes, Lbl.finishes, running])

/-- What one step adds to the books. -/
theorem Ledger.step (h : Ledger as s) (hm : Moves s a s') : Ledger (as ++ [a]) s' := by
  constructor
  case order =>
    rw [submitted_concat, taken_concat, h.order, List.append_assoc, List.append_assoc, hm.order]
  case placed =>
    rw [taken_concat, finished_concat]
    calc (taken as ++ a.takes.toList).Perm ((finished as ++ running s) ++ a.takes.toList) :=
          h.placed.append_right _
      _ = finished as ++ (running s ++ a.takes.toList) := List.append_assoc ..
      List.Perm _ (finished as ++ (a.finishes.toList ++ running s')) := hm.placed.append_left _
      _ = finished as ++ a.finishes.toList ++ running s' := (List.append_assoc ..).symm

/-! ### The invariant -/

/-- A worker that has not returned is not where `join` has been. -/
theorem returned_set {ws : List (Worker α)} {i j : ℕ} {w w' : Worker α} (hw : ws[i]? = some w)
    (hne : w ≠ .returned) (hj : ws[j]? = some .returned) : (ws.set i w')[j]? = some .returned := by
  have hij : i ≠ j := by
    rintro rfl
    exact hne (Option.some.inj (hw.symm.trans hj))
  rw [List.getElem?_set_ne hij, hj]

/-- Worker `i` moves on and is neither waiting nor back: what is left to show is
about the queue. -/
theorem Inv.worker (h : Inv n s) {i : ℕ} {w w' : Worker α} (hw : s.workers[i]? = some w)
    (hne : w ≠ .returned) (hne' : w' ≠ .returned) (hwait : w' = .waiting → s.owner = .inUse)
    {q : List α} (hq : s.q = [] → q = []) {k : ℕ} (hk : k ≤ s.notifying)
    (hcovered : .waiting ∈ s.workers.set i w' →
      q.length ≤ k + ((s.workers.set i w').map Worker.tests).sum) :
    Inv n { s with q := q, notifying := k, workers := s.workers.set i w' } := by
  constructor
  -- only `covered` looks at which jobs are queued
  case covered => exact hcovered
  case count => exact (List.length_set ..).trans h.count
  case stop => exact h.stop
  case quiet => exact fun howner => Nat.le_zero.mp (hk.trans_eq (h.quiet howner))
  -- a thread that has returned is none that moved
  case left =>
    intro hmem
    rcases List.mem_or_eq_of_mem_set hmem with hmem | heq
    · exact ⟨(h.left hmem).1, hq (h.left hmem).2⟩
    · exact absurd heq.symm hne'
  -- what waits now waited before, or has just gone to sleep, which only an owner in use allows
  case awake =>
    intro huse hstopping hmem
    rcases List.mem_or_eq_of_mem_set hmem with hmem | heq
    · exact h.awake huse hstopping hmem
    · exact huse (hwait heq.symm)
  -- joined threads have returned, and the thread that moved had not
  case joined =>
    intro j hj
    obtain ⟨hle, hall⟩ := h.joined j hj
    exact ⟨hle, fun m hm => returned_set hw hne (hall m hm)⟩
  case past =>
    intro hpast
    exact absurd (h.past hpast w (List.mem_of_getElem? hw)) hne

/-- Replacing one worker shifts the number of testers by the difference. -/
theorem tests_set {ws : List (Worker α)} {i : ℕ} {w : Worker α} (w' : Worker α)
    (hw : ws[i]? = some w) :
    ((ws.set i w').map Worker.tests).sum + w.tests = (ws.map Worker.tests).sum + w'.tests :=
  sum_map_set hw fun _ _ _ _ => rfl

/-- What one step preserves. -/
theorem Inv.step (h : Inv n s) (hm : Moves s a s') : Inv n s' := by
  cases hm
  case submitted job howner =>
    refine ⟨?_, h.count, h.stop, fun hne => absurd howner hne, ?_, h.awake, h.joined, h.past⟩
    · -- one job more, and one `notify_one` owed for it
      intro hmem
      have := h.covered hmem
      rw [List.length_append, List.length_singleton]
      show _ ≤ s.notifying + 1 + testers s
      omega
    · intro hmem
      exact absurd (h.left hmem).1 (by simp [h.stop, howner])
  -- nobody waits, so the signal is lost and owes nobody a test
  case unheard hpos hnone =>
    exact ⟨fun hmem => absurd hmem hnone, h.count, h.stop,
      fun howner => by have := h.quiet howner; omega, h.left, h.awake, h.joined, h.past⟩
  case notified i hpos hw =>
    refine h.worker hw (by simp) (by simp) (by simp) id (Nat.sub_le ..) fun _ => ?_
    -- the signal owed becomes a thread that is about to test the queue
    have := h.covered (List.mem_of_getElem? hw)
    have hsum := tests_set .testing hw
    simp only [Worker.tests, testers] at this hsum
    omega
  case slept i hw hstop hq =>
    -- the predicate was false: not stopping, hence in use
    have howner : s.owner = .inUse := by
      by_contra hne
      simp [h.stop.mpr hne] at hstop
    exact h.worker hw (by simp) (by simp) (fun _ => howner) id le_rfl
      fun _ => by simp [hq]
  case woke i hw =>
    -- a thread woken for no reason tests the queue too
    refine h.worker hw (by simp) (by simp) (by simp) id le_rfl fun _ => ?_
    have := h.covered (List.mem_of_getElem? hw)
    have hsum := tests_set .testing hw
    simp only [Worker.tests, testers] at this hsum
    omega
  case took i job rest hw hq =>
    refine h.worker hw (by simp) (by simp) (by simp) (by simp [hq]) le_rfl fun hmem => ?_
    have hwait : .waiting ∈ s.workers := by
      rcases List.mem_or_eq_of_mem_set hmem with hmem | heq
      · exact hmem
      · cases heq
    have := h.covered hwait
    have hsum := tests_set (.running job) hw
    -- one job less, and one tester less
    rw [hq, List.length_cons] at this
    simp only [Worker.tests, testers] at this hsum
    omega
  case finished i job hw =>
    refine h.worker hw (by simp) (by simp) (by simp) id le_rfl fun hmem => ?_
    have hwait : .waiting ∈ s.workers := by
      rcases List.mem_or_eq_of_mem_set hmem with hmem | heq
      · exact hmem
      · cases heq
    -- back from its job, the thread tests the queue again
    have := h.covered hwait
    have hsum := tests_set .testing hw
    simp only [Worker.tests, testers] at this hsum
    omega
  case left i hw hstop hq =>
    -- a thread leaves only when stopping and the queue is empty
    have hne : s.owner ≠ .inUse := h.stop.mp hstop
    refine ⟨fun _ => by simp [hq], (List.length_set ..).trans h.count, h.stop, h.quiet,
      fun _ => ⟨hstop, hq⟩, ?_, ?_, ?_⟩
    · intro huse hstopping hmem
      rcases List.mem_or_eq_of_mem_set hmem with hmem | heq
      · exact h.awake huse hstopping hmem
      · cases heq
    · intro k hk
      obtain ⟨hle, hall⟩ := h.joined k hk
      exact ⟨hle, fun j hj => returned_set hw (by simp) (hall j hj)⟩
    · intro hpast
      exact absurd (h.past hpast _ (List.mem_of_getElem? hw)) (by simp)
  case stopped howner hquiet =>
    exact ⟨h.covered, h.count, by simp, fun _ => hquiet, fun hmem => ⟨rfl, (h.left hmem).2⟩,
      by simp, by simp, by simp [Owner.Past]⟩
  case notifiedAll howner =>
    -- `notify_all` leaves nobody asleep
    have hnone : .waiting ∉ s.workers.map Worker.woken := by
      intro hmem
      obtain ⟨w, -, hw⟩ := List.mem_map.mp hmem
      cases w <;> simp [Worker.woken] at hw
    refine ⟨fun hmem => absurd hmem hnone, (List.length_map ..).trans h.count, ?_,
      fun _ => h.quiet (by simp [howner]), ?_, fun _ _ => hnone, ?_, by simp [Owner.Past]⟩
    · simpa [howner] using h.stop
    · intro hmem
      obtain ⟨w, hw, heq⟩ := List.mem_map.mp hmem
      cases w <;> simp only [Worker.woken, reduceCtorEq] at heq
      exact h.left hw
    · rintro k ⟨⟩
      exact ⟨Nat.zero_le n, fun j hj => absurd hj (Nat.not_lt_zero j)⟩
  case joined k howner hw =>
    obtain ⟨hle, hall⟩ := h.joined k howner
    refine ⟨h.covered, h.count, ?_, fun _ => h.quiet (by simp [howner]), h.left,
      fun _ _ => h.awake (by simp [howner]) (by simp [howner]), ?_, by simp [Owner.Past]⟩
    · simpa [howner] using h.stop
    · -- the threads joined so far, and the one just seen to have returned
      rintro j ⟨⟩
      have hlt := (List.getElem?_eq_some_iff.mp hw).1
      refine ⟨by rw [← h.count]; omega, fun m hm => ?_⟩
      rcases Nat.lt_succ_iff_lt_or_eq.mp hm with hlt | rfl
      · exact hall m hlt
      · exact hw
  case destroyed k howner hw =>
    obtain ⟨hle, hall⟩ := h.joined k howner
    refine ⟨h.covered, h.count, ?_, fun _ => h.quiet (by simp [howner]), h.left,
      fun _ _ => h.awake (by simp [howner]) (by simp [howner]), by simp, ?_⟩
    · simpa [howner] using h.stop
    · -- past the last index all threads were joined, so all have returned
      intro _ w hmem
      obtain ⟨m, hm⟩ := List.mem_iff_getElem?.mp hmem
      have hlt : m < s.workers.length := (List.getElem?_eq_some_iff.mp hm).1
      have hk := List.getElem?_eq_none_iff.mp hw
      exact Option.some.inj (hm.symm.trans (hall m (by omega)))
  case closed howner =>
    exact ⟨h.covered, h.count, by simpa [howner] using h.stop,
      fun _ => h.quiet (by simp [howner]), h.left,
      fun _ _ => h.awake (by simp [howner]) (by simp [howner]), by simp,
      fun _ => h.past (by simp [howner, Owner.Past])⟩

end Steps

/-- There is at least one thread. -/
theorem threadCount_pos (v : Option ℤ) : 0 < threadCount v := by
  cases v with
  | none => decide
  | some v =>
      simp only [threadCount]
      split <;> omega

/-- All workers are about to look at an empty queue. -/
theorem initial_inv (n : ℕ) : Inv n (initial n : Pool α) := by
  have htesting : ∀ w ∈ (initial n : Pool α).workers, w = .testing :=
    fun w hw => (List.mem_replicate.mp hw).2
  exact ⟨fun h => (nomatch htesting _ h), List.length_replicate, by simp [initial],
    fun _ => rfl, fun h => (nomatch htesting _ h), fun h => absurd rfl h, by simp [initial],
    by simp [initial, Owner.Past]⟩

/-- No job has been submitted. -/
theorem initial_ledger (n : ℕ) : Ledger [] (initial n : Pool α) := by
  have hidle : ∀ m, (List.replicate m (Worker.testing : Worker α)).filterMap Worker.job = [] := by
    intro m
    rw [List.filterMap_replicate_of_none rfl]
  exact ⟨rfl, .of_eq (hidle n).symm⟩

section Runs

variable [DecidableEq α] {n : ℕ} {s t : Pool α} {as bs : List (Lbl α)}

/-- So books and invariant hold along every run. -/
theorem inv_of_run (hrun : (machine α n).run (initial n) as = some s) :
    Ledger as s ∧ Inv n s := by
  refine Machine.run_induction_all (M := machine α n) (fun as s => Ledger as s ∧ Inv n s)
    ⟨initial_ledger n, initial_inv n⟩ ?_ hrun
  rintro as s a s' ⟨hled, hinv⟩ - hst
  exact ⟨hled.step (moves_of_step hst), hinv.step (moves_of_step hst)⟩

omit [DecidableEq α] in
/-- All workers are back: nothing is queued and nothing runs. -/
theorem Inv.over (h : Inv n s) (hn : 0 < n) (hback : ∀ w ∈ s.workers, w = .returned) :
    s.q = [] ∧ running s = [] := by
  constructor
  · have hpos : 0 < s.workers.length := by rw [h.count]; exact hn
    have hmem := List.getElem_mem hpos
    rw [hback _ hmem] at hmem
    exact (h.left hmem).2
  · refine List.filterMap_eq_nil_iff.mpr fun w hw => ?_
    rw [hback w hw]
    rfl

/-- Every job is run once, in the order of `submit`; none is left or running when
the engine closes its containers. -/
theorem jobs_run_once {v : Option ℤ}
    (hrun : (machine α (threadCount v)).run (initial (threadCount v)) as = some s) :
    submitted as = taken as ++ s.q ∧ (taken as).Perm (finished as ++ running s) ∧
      (s.owner.Past → (finished as).Perm (submitted as) ∧ running s = []) := by
  obtain ⟨hled, hinv⟩ := inv_of_run hrun
  refine ⟨hled.order, hled.placed, fun hpast => ?_⟩
  obtain ⟨hq, hidle⟩ := hinv.over (threadCount_pos v) (hinv.past hpast)
  have horder := hled.order
  have hplaced := hled.placed
  rw [hq, List.append_nil] at horder
  rw [hidle, List.append_nil] at hplaced
  exact ⟨horder ▸ hplaced.symm, hidle⟩

/-! ## The pool comes to rest -/

/-- The steps of the pool itself: not those of a caller, and no spurious wakeup. -/
def Lbl.Own : Lbl α → Prop
  | .submit _ | .wake _ | .stop => False
  | _ => True

def Worker.work : Worker α → ℕ
  | .testing => 1
  | .waiting => 0
  | .running _ => 2
  | .returned => 0

/-- What the destructor has to do, in a pool of `n` threads. -/
def Owner.work (n : ℕ) : Owner → ℕ
  | .inUse => 0
  | .stopping => 2 * n + 4
  | .joining k => n - k + 2
  | .destroyed => 1
  | .closed => 0

/-- An upper bound of the steps that are left. -/
def work (s : Pool α) : ℕ :=
  3 * s.q.length + 2 * s.notifying + (s.workers.map Worker.work).sum + s.owner.work s.workers.length

omit [DecidableEq α] in
/-- Replacing one worker shifts the sum by the difference. -/
theorem work_set {ws : List (Worker α)} {i : ℕ} {w : Worker α} (w' : Worker α)
    (hw : ws[i]? = some w) :
    ((ws.set i w').map Worker.work).sum + w.work = (ws.map Worker.work).sum + w'.work :=
  sum_map_set hw fun _ _ _ _ => rfl

omit [DecidableEq α] in
/-- Waking all workers costs a test each. -/
theorem work_woken (ws : List (Worker α)) :
    ((ws.map Worker.woken).map Worker.work).sum ≤ (ws.map Worker.work).sum + ws.length := by
  induction ws with
  | nil => exact Nat.le_refl 0
  | cons w ws ih =>
      simp only [List.map_cons, List.sum_cons, List.length_cons]
      cases w <;> simp only [Worker.woken, Worker.work] <;> omega

omit [DecidableEq α] in
/-- Every step of the pool itself leaves less to do. -/
theorem Moves.work_lt {a : Lbl α} (hm : Moves s a t) (hown : a.Own) :
    work t < work s := by
  -- nobody submits, wakes or stops in the pool's own steps
  cases hm
  case submitted => exact hown.elim
  case woke => exact hown.elim
  case stopped => exact hown.elim
  case unheard hpos hnone =>
    simp only [work]
    omega
  -- the signal weighs more than the test it leads to
  case notified i hpos hw =>
    have := work_set .testing hw
    simp only [work, List.length_set, Worker.work] at this ⊢
    omega
  case slept i hw hstop hq =>
    have := work_set .waiting hw
    simp only [work, List.length_set, Worker.work] at this ⊢
    omega
  case took i job rest hw hq =>
    have := work_set (.running job) hw
    simp only [work, List.length_set, Worker.work, hq, List.length_cons] at this ⊢
    omega
  case finished i job hw =>
    have := work_set .testing hw
    simp only [work, List.length_set, Worker.work] at this ⊢
    omega
  case left i hw hstop hq =>
    have := work_set .returned hw
    simp only [work, List.length_set, Worker.work] at this ⊢
    omega
  case notifiedAll howner =>
    have := work_woken s.workers
    simp only [work, List.length_map, howner, Owner.work]
    omega
  case joined k howner hw =>
    -- one thread less to join
    have hlt := (List.getElem?_eq_some_iff.mp hw).1
    simp only [work, howner, Owner.work]
    omega
  case destroyed k howner hw =>
    simp only [work, howner, Owner.work]
    omega
  case closed howner =>
    simp only [work, howner, Owner.work]
    omega

/-- No step of the pool itself is possible. -/
def AtRest (s : Pool α) : Prop := ∀ a : Lbl α, a.Own → step s a = none

/-- A pool at rest: nobody runs, nothing is queued or on its way. -/
theorem AtRest.settled (h : AtRest s) (hinv : Inv n s) (hn : 0 < n) :
    s.q = [] ∧ running s = [] ∧ (s.owner = .inUse ∨ s.owner = .closed) := by
  have hback : ∀ w ∈ s.workers, w = .waiting ∨ w = .returned := by
    intro w hmem
    obtain ⟨i, hw⟩ := List.mem_iff_getElem?.mp hmem
    cases w with
    | waiting => exact .inl rfl
    | returned => exact .inr rfl
    | running job => simpa [step, hw] using h (.finish i job) trivial
    | testing =>
        cases hq : s.q with
        | cons job rest => simpa [step, hw, hq] using h (.take i job) trivial
        | nil => cases hstop : s.stop with
          | true => simpa [step, hw, hq, hstop] using h (.leave i) trivial
          | false => simpa [step, hw, hq, hstop] using h (.sleep i) trivial
  have hquiet : s.notifying = 0 := by
    by_contra hne
    have hpos : 0 < s.notifying := by omega
    by_cases hwait : .waiting ∈ s.workers
    · obtain ⟨i, hw⟩ := List.mem_iff_getElem?.mp hwait
      simpa [step, hpos, hw] using h (.notifyOne (some i)) trivial
    · simpa [step, hpos, hwait] using h (.notifyOne none) trivial
  have htesters : testers s = 0 := by
    refine List.sum_eq_zero fun x hx => ?_
    obtain ⟨w, hw, rfl⟩ := List.mem_map.mp hx
    rcases hback w hw with rfl | rfl <;> rfl
  refine ⟨?_, ?_, ?_⟩
  · -- a queued job would be covered by a worker that is on its way
    by_cases hwait : .waiting ∈ s.workers
    · have := hinv.covered hwait
      exact List.length_eq_zero_iff.mp (by omega)
    · refine (hinv.over hn fun w hw => ?_).1
      exact (hback w hw).resolve_left fun heq => hwait (heq ▸ hw)
  · refine List.filterMap_eq_nil_iff.mpr fun w hw => ?_
    rcases hback w hw with rfl | rfl <;> rfl
  · cases howner : s.owner with
    | inUse => exact .inl rfl
    | closed => exact .inr rfl
    | stopping => simpa [step, howner] using h .notifyAll trivial
    | destroyed => simpa [step, howner] using h .close trivial
    | joining k =>
        have hnone := hinv.awake (by simp [howner]) (by simp [howner])
        have hjoin := h .join trivial
        cases hw : s.workers[k]? with
        | none => simp [step, howner, hw] at hjoin
        | some w =>
            have hmem := List.mem_of_getElem? hw
            rcases hback w hmem with rfl | rfl
            · exact absurd hmem hnone
            · simp [step, howner, hw] at hjoin

omit [DecidableEq α] in
/-- Nobody uses the pool again once its destructor has started. -/
theorem Moves.owner {a : Lbl α} (hm : Moves s a t) (howner : s.owner ≠ .inUse) :
    t.owner ≠ .inUse := by
  cases hm <;> first | exact howner | exact nofun

/-- A destructor that was entered is not left again. -/
theorem owner_of_run (hrun : (machine α n).run s bs = some t) (howner : s.owner ≠ .inUse) :
    t.owner ≠ .inUse := by
  refine Machine.run_induction_all (M := machine α n) (fun _ t => t.owner ≠ .inUse) howner ?_ hrun
  exact fun _ _ _ _ ih _ hst => (moves_of_step hst).owner ih

/-- While a worker waits, every queued job has a notification or a worker on its
way. The pool's own steps come to an end; then all that was submitted has run, and
a destructor that was entered has returned. -/
theorem pool_settles {v : Option ℤ}
    (hrun : (machine α (threadCount v)).run (initial (threadCount v)) as = some s) :
    (.waiting ∈ s.workers → s.q.length ≤ s.notifying + testers s) ∧
      ∃ N, ∀ bs t, (∀ b ∈ bs, b.Own) → (machine α (threadCount v)).run s bs = some t →
        bs.length ≤ N ∧ (AtRest t → (finished (as ++ bs)).Perm (submitted as) ∧
          (s.owner ≠ .inUse → t.owner = .closed)) := by
  refine ⟨(inv_of_run hrun).2.covered, work s, fun bs t hown hbs => ?_⟩
  have hle := Machine.length_add_work_le
    (fun _ _ _ hown hst => (moves_of_step hst).work_lt hown) hown hbs
  refine ⟨by omega, fun hrest => ?_⟩
  have hall : (machine α (threadCount v)).run (initial (threadCount v)) (as ++ bs) = some t := by
    rw [Machine.run_append, hrun]
    exact hbs
  obtain ⟨hled, hinv⟩ := inv_of_run hall
  obtain ⟨hq, hidle, hend⟩ := hrest.settled hinv (threadCount_pos v)
  -- nothing is submitted any more, so all jobs are those of `as`
  have hnone : submitted bs = [] := by
    refine List.filterMap_eq_nil_iff.mpr fun b hb => ?_
    cases b <;> first | rfl | exact (hown _ hb).elim
  have horder := hled.order
  have hplaced := hled.placed
  -- at rest the queue is empty and no thread has a job: taken are all, finished are all taken
  rw [hq, List.append_nil, submitted, List.filterMap_append] at horder
  change submitted as ++ submitted bs = taken (as ++ bs) at horder
  rw [hnone, List.append_nil] at horder
  rw [hidle, List.append_nil] at hplaced
  exact ⟨horder ▸ hplaced.symm, fun hne => hend.resolve_left (owner_of_run hbs hne)⟩

end Runs

/-- Two threads, three jobs: the destructor starts with one job running and one
queued. -/
def shutdown : List (Lbl ℕ) :=
  [.sleep 0, .sleep 1, .submit 7, .submit 8, .notifyOne (some 1), .take 1 7, .finish 1 7,
    .submit 9, .take 1 8, .notifyOne (some 0), .notifyOne none, .stop, .notifyAll, .take 0 9,
    .finish 1 8, .finish 0 9, .leave 0, .leave 1, .join, .join, .join, .close]

/-- Three jobs on two threads, the last ones run while the destructor waits. -/
theorem shutdown_runs_all : ∃ s,
    (machine ℕ (threadCount (some 2))).run (initial (threadCount (some 2))) shutdown = some s ∧
      s.owner.Past ∧ (finished shutdown).Perm [7, 8, 9] ∧ running s = [] := by
  have hrun : (machine ℕ (threadCount (some 2))).run (initial (threadCount (some 2))) shutdown =
      some ⟨[], true, [.returned, .returned], 0, .closed⟩ := by
    decide
  have hpast : Owner.Past .closed := trivial
  exact ⟨_, hrun, hpast, (jobs_run_once hrun).2.2 hpast⟩

/-- The same run, cut off before its end. -/
theorem shutdown_settles : ∃ s,
    (machine ℕ (threadCount (some 2))).run (initial (threadCount (some 2)))
        (shutdown.take 12) = some s ∧ s.owner ≠ .inUse ∧
      ∃ N, ∀ bs t, (∀ b ∈ bs, b.Own) → (machine ℕ (threadCount (some 2))).run s bs = some t →
        bs.length ≤ N ∧ (AtRest t → (finished (shutdown.take 12 ++ bs)).Perm [7, 8, 9] ∧
          (s.owner ≠ .inUse → t.owner = .closed)) := by
  have hrun : (machine ℕ (threadCount (some 2))).run (initial (threadCount (some 2)))
      (shutdown.take 12) = some ⟨[9], true, [.testing, .running 8], 0, .stopping⟩ := by
    decide
  exact ⟨_, hrun, nofun, (pool_settles hrun).2⟩

end LmcacheDaos.Nixl.ThreadPool
