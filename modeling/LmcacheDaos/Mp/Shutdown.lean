import LmcacheDaos.Mp.Pools

/-!
# Closing the MP adapter

`DaosL2Adapter.close` over the pools of `Mp.Pools`: it waits until `_inflight` is 0 or
30 s have passed, stops the dispatcher, shuts the task pool, the I/O pool and the
metadata pool down in this order and joins the threads of each, and closes the mount
and then the event fds. Tasks come from any threads meanwhile. A pool that is shut
down refuses new work and finishes what it has; `submit_*_task` has counted the
task into `_inflight` before it finds the task pool shut, and the dispatcher does not
return to its queues once it is stopped.

`delete` runs on its caller's thread, which `close` does not wait for.

* The mount is closed under nobody: from the join of the metadata pool on no task
  is left, no key is queued or on a thread, and none can come
  (`Inv.joined`). The pools are shut from the outside in, so no task finds the pool it
  fans out to shut.
* `_inflight` counts the unfinished tasks and the refused ones.
* `close` comes to its end, unless keys were left in the queues of the dispatcher;
  with the fifo schedule there are none (`close_settles`).
-/

namespace LmcacheDaos.Mp.Shutdown

open Lib Pools

/-- Where the thread in `close` is: about to do this. -/
inductive Closing where
  /-- `close` has not been called -/
  | serving
  /-- in the loop with the deadline -/
  | draining
  /-- `self._fair.close()` -/
  | stopping
  /-- `self._tasks.shutdown` up to its join -/
  | shutTasks
  | joinTasks
  /-- `self._pool.shutdown` has shut the I/O pool -/
  | joinIo
  /-- `self._meta.shutdown` has shut the metadata pool -/
  | joinMeta
  | unmount
  | closeFds
  | closed
deriving DecidableEq, Repr

def Closing.stage : Closing → ℕ
  | .serving => 0
  | .draining => 1
  | .stopping => 2
  | .shutTasks => 3
  | .joinTasks => 4
  | .joinIo => 5
  | .joinMeta => 6
  | .unmount => 7
  | .closeFds => 8
  | .closed => 9

structure St where
  pools : Pools.St
  /-- `_inflight` -/
  inflight : ℕ
  /-- tasks that found the task pool shut (not kept by the code) -/
  refused : ℕ
  closing : Closing
deriving DecidableEq, Repr

inductive Lbl where
  | pools (a : Pools.Lbl)
  /-- `submit_*_task` finds the task pool shut and raises -/
  | refuse
  /-- `close` is called -/
  | call
  /-- `_inflight` is seen at 0 -/
  | drained
  /-- the 30 s are over -/
  | deadline
  | stop
  | shutTasks
  | tasksJoined
  | ioJoined
  | metaJoined
  | unmount
  | closeFds
deriving DecidableEq, Repr

/-- The pool a step of a pool thread or of the dispatcher needs is shut, or the
dispatcher has been stopped. -/
def refuses (s : St) : Pools.Lbl → Bool
  | .submit _ _ => decide (4 ≤ s.closing.stage)
  | .take => decide (3 ≤ s.closing.stage)
  | .dispatch => decide (5 ≤ s.closing.stage)
  | .send w => match s.pools.taskThreads[w]? with
      | some (some r) => match r.kind with
          | .lookup => decide (6 ≤ s.closing.stage)
          | _ => decide (5 ≤ s.closing.stage)
      | _ => false
  | _ => false

/-- `_new_task_id` and `_finish`. -/
def count (n : ℕ) : Pools.Lbl → ℕ
  | .submit _ _ => n + 1
  | .close _ => n - 1
  | _ => n

def step (cfg : PoolConfig) (s : St) : Lbl → Option St
  | .pools a =>
      if refuses s a then none
      else (Pools.step cfg s.pools a).map fun pools =>
        { s with pools := pools, inflight := count s.inflight a }
  | .refuse =>
      if 4 ≤ s.closing.stage then
        some { s with inflight := s.inflight + 1, refused := s.refused + 1 }
      else none
  | .call => if s.closing = .serving then some { s with closing := .draining } else none
  | .drained =>
      if s.closing = .draining ∧ s.inflight = 0 then some { s with closing := .stopping } else none
  | .deadline => if s.closing = .draining then some { s with closing := .stopping } else none
  | .stop => if s.closing = .stopping then some { s with closing := .shutTasks } else none
  | .shutTasks => if s.closing = .shutTasks then some { s with closing := .joinTasks } else none
  | .tasksJoined =>
      if s.closing = .joinTasks ∧ s.pools.tasks = [] ∧ (∀ o ∈ s.pools.taskThreads, o = none) then
        some { s with closing := .joinIo }
      else none
  | .ioJoined =>
      if s.closing = .joinIo ∧ s.pools.io.held = [] then some { s with closing := .joinMeta }
      else none
  | .metaJoined =>
      if s.closing = .joinMeta ∧ s.pools.metadata.held = [] then some { s with closing := .unmount }
      else none
  | .unmount => if s.closing = .unmount then some { s with closing := .closeFds } else none
  | .closeFds => if s.closing = .closeFds then some { s with closing := .closed } else none

def initial (cfg : PoolConfig) : St := ⟨Pools.initial cfg, 0, 0, .serving⟩

def machine (cfg : PoolConfig) : Machine St Lbl where
  Init s := s = initial cfg
  step := step cfg

/-- Tasks that are queued or on a thread. -/
def unfinished (s : Pools.St) : ℕ := s.tasks.length + s.taskThreads.countP Option.isSome

/-- No task is queued or on a thread. -/
def NoTask (s : Pools.St) : Prop := s.tasks = [] ∧ ∀ o ∈ s.taskThreads, o = none

structure Inv (cfg : PoolConfig) (s : St) : Prop where
  pools : Pools.Inv cfg s.pools
  inflight : s.inflight = unfinished s.pools + s.refused
  noTask : 5 ≤ s.closing.stage → NoTask s.pools
  noIo : 6 ≤ s.closing.stage → s.pools.io.held = []
  noMeta : 7 ≤ s.closing.stage → s.pools.metadata.held = []

/-! ## Steps of the pools -/

section PoolSteps

variable {cfg : PoolConfig} {p p' : Pools.St} {a : Pools.Lbl}

/-- Hearing of an item ends no task. -/
theorem hear_length (s : Pools.St) (x : Item) (slot : Slot) :
    (hear s x slot).taskThreads.countP Option.isSome = s.taskThreads.countP Option.isSome := by
  rw [hear, List.countP_map]
  refine List.countP_congr fun o _ => ?_
  cases o <;> rfl

/-- Fanning out changes its own task only. -/
theorem fanOut_taskThreads (cfg : PoolConfig) (s : Pools.St) (w : ℕ) (r : Run) :
    ∃ r', (fanOut cfg s w r).taskThreads = s.taskThreads.set w (some r') ∧
      (fanOut cfg s w r).tasks = s.tasks := by
  unfold fanOut
  split
  · split <;> exact ⟨_, rfl, rfl⟩
  · exact ⟨_, rfl, rfl⟩

/-- The other pools see nothing of it. -/
theorem fanOut_pools (cfg : PoolConfig) (s : Pools.St) (w : ℕ) (r : Run) :
    (fanOut cfg s w r).io = s.io ∧ (fanOut cfg s w r).metadata = s.metadata := by
  unfold fanOut
  split
  · split <;> exact ⟨rfl, rfl⟩
  · exact ⟨rfl, rfl⟩

/-- Neither does a send change another task. -/
theorem send_taskThreads (s : Pools.St) (w : ℕ) (r : Run) (slots : List Slot) :
    ∃ r', (send s w r slots).taskThreads = s.taskThreads.set w (some r') ∧
      (send s w r slots).tasks = s.tasks := by
  unfold send
  cases r.kind <;> exact ⟨_, rfl, rfl⟩

/-- The number of unfinished tasks goes with the submissions and the ends. -/
theorem unfinished_step (hst : Pools.step cfg p a = some p') :
    unfinished p' = count (unfinished p) a ∧
      (∀ w, a = .close w → 0 < unfinished p) := by
  -- a task that goes on keeps its thread busy
  have hset : ∀ {w : ℕ} {r r' : Run}, p.taskThreads[w]? = some (some r) →
      (p.taskThreads.set w (some r')).countP Option.isSome =
        p.taskThreads.countP Option.isSome := by
    intro w r r' hw
    have hcount := countP_set_entry (p := Option.isSome) (some r') hw
    simpa using hcount
  cases a with
  | submit kind n =>
      cases hst
      refine ⟨?_, fun _ h => by cases h⟩
      -- one more task is queued
      simp only [unfinished, count, List.length_append, List.length_singleton]
      omega
  | taskStart w =>
      simp only [Pools.step] at hst
      split at hst
      · rename_i kind n rest hidle htasks
        -- from the queue to a thread: the task is counted on either side
        cases hst
        have hcount := countP_set_entry (p := Option.isSome)
          (some ⟨p.nextTag, kind, n, .start⟩) hidle
        refine ⟨?_, fun _ h => by cases h⟩
        simp only [unfinished, count, setRun, htasks, List.length_cons, Option.isSome_none,
          Option.isSome_some, Bool.toNat_false, Bool.toNat_true] at hcount ⊢
        omega
      · cases hst
  | fanOut w =>
      simp only [Pools.step] at hst
      split at hst
      · rename_i r hw
        split at hst <;> cases hst
        -- the fan-out sends jobs; the task stays on its thread
        obtain ⟨r', hthreads, htasks⟩ := fanOut_taskThreads cfg p w r
        refine ⟨?_, fun _ h => by cases h⟩
        rw [unfinished, hthreads, htasks, hset hw]
        rfl
      · cases hst
  | send w =>
      simp only [Pools.step] at hst
      split at hst
      · rename_i tag kind n slots hw
        split at hst <;> cases hst
        obtain ⟨r', hthreads, htasks⟩ :=
          send_taskThreads p w ⟨tag, kind, n, .waiting false slots⟩ slots
        refine ⟨?_, fun _ h => by cases h⟩
        rw [unfinished, hthreads, htasks, hset hw]
        rfl
      · cases hst
  | collect w =>
      simp only [Pools.step] at hst
      split at hst
      · rename_i hw
        split at hst <;> cases hst
        refine ⟨?_, fun _ h => by cases h⟩
        -- `closing` is the task's last stage, still on the thread
        rw [unfinished, setRun]
        simp only [hset hw]
        rfl
      · cases hst
  | close w =>
      simp only [Pools.step] at hst
      split at hst <;> cases hst
      rename_i hw
      -- the one step that ends a task; its thread was busy, so the count is positive
      have hcount := countP_set_entry (p := Option.isSome) none hw
      simp only [Option.isSome_none, Option.isSome_some, Bool.toNat_false,
        Bool.toNat_true] at hcount
      refine ⟨?_, fun _ _ => ?_⟩
      · simp only [unfinished, count, setRun]
        omega
      · simp only [unfinished]
        omega
  | ioStart v =>
      obtain ⟨P, -, rfl⟩ := Option.map_eq_some_iff.mp hst
      exact ⟨rfl, fun _ h => by cases h⟩
  | metaStart v =>
      obtain ⟨P, -, rfl⟩ := Option.map_eq_some_iff.mp hst
      exact ⟨rfl, fun _ h => by cases h⟩
  | ioReturn v raised =>
      simp only [Pools.step] at hst
      split at hst
      · split at hst <;> cases hst
        · exact ⟨rfl, fun _ h => by cases h⟩
        · -- signals may release a waiting task, which stays on its thread
          refine ⟨?_, fun _ h => by cases h⟩
          rw [unfinished, hear_length]
          rfl
      · cases hst
  | ioCount v | metaReturn v raised =>
      simp only [Pools.step] at hst
      split at hst
      · cases hst
        refine ⟨?_, fun _ h => by cases h⟩
        rw [unfinished, hear_length]
        rfl
      · cases hst
  | take =>
      simp only [Pools.step] at hst
      split at hst
      · -- the dispatcher holds jobs of tasks, never a task
        split at hst <;> cases hst <;> exact ⟨rfl, fun _ h => by cases h⟩
      · cases hst
  | acquire | dispatch =>
      simp only [Pools.step] at hst
      split at hst <;> cases hst
      exact ⟨rfl, fun _ h => by cases h⟩

/-- No task is left exactly if none is unfinished. -/
theorem noTask_iff (s : Pools.St) : NoTask s ↔ unfinished s = 0 := by
  rw [NoTask, unfinished, Nat.add_eq_zero_iff, List.length_eq_zero_iff, List.countP_eq_zero]
  refine and_congr_right fun _ => forall_congr' fun o => forall_congr' fun _ => ?_
  rw [Option.not_isSome_iff_eq_none]

/-- Without a submission no task comes up again. -/
theorem noTask_step (h : NoTask p) (hnew : ∀ kind n, a ≠ .submit kind n)
    (hst : Pools.step cfg p a = some p') : NoTask p' := by
  rw [noTask_iff] at h ⊢
  obtain ⟨hcount, hpos⟩ := unfinished_step hst
  rw [hcount, h]
  cases a with
  | submit kind n => exact absurd rfl (hnew kind n)
  | _ => rfl

/-- Without a task nothing is sent. -/
theorem send_none (h : NoTask p) (w : ℕ) : Pools.step cfg p (.send w) = none := by
  simp only [Pools.step]
  split
  · rename_i hw
    cases h.2 _ (List.mem_of_getElem? hw)
  · rfl

/-- Nobody holds what is in no pool. -/
theorem not_held {P : Pool} (h : P.held = []) {v : ℕ} {x : Item} {b : Bool} :
    P.threads[v]? ≠ some (some (x, b)) := by
  intro hv
  have hmem : x ∈ P.held := Pool.mem_held.mpr (.inr ⟨b, List.mem_of_getElem? hv⟩)
  rw [h] at hmem
  cases hmem

/-- A pool without items hands nothing out. -/
theorem pick_none {P : Pool} (h : P.held = []) (v : ℕ) : P.pick v = none := by
  cases hpick : P.pick v with
  | none => rfl
  | some P' =>
      obtain ⟨x, rest, -, hq, -⟩ := Pool.pick_eq_some hpick
      have hmem : x ∈ P.held := Pool.mem_held.mpr (.inl (by simp [hq]))
      rw [h] at hmem
      cases hmem

/-- A key pool that is empty stays so, unless something is sent to it. -/
theorem held_step (hst : Pools.step cfg p a = some p') (hsend : ∀ w, a ≠ .send w) :
    (a ≠ .dispatch → p.io.held = [] → p'.io.held = []) ∧
      (p.metadata.held = [] → p'.metadata.held = []) := by
  cases a with
  | send w => exact absurd rfl (hsend w)
  | submit kind n =>
      cases hst
      exact ⟨fun _ => id, id⟩
  | taskStart w =>
      simp only [Pools.step] at hst
      split at hst <;> cases hst
      exact ⟨fun _ => id, id⟩
  | collect w =>
      simp only [Pools.step] at hst
      split at hst
      · split at hst <;> cases hst
        exact ⟨fun _ => id, id⟩
      · cases hst
  | fanOut w =>
      simp only [Pools.step] at hst
      split at hst
      · rename_i r hw
        split at hst <;> cases hst
        obtain ⟨hio, hmeta⟩ := fanOut_pools cfg p w r
        -- fan-outs queue jobs, and `held` counts only what a thread runs
        rw [hio, hmeta]
        exact ⟨fun _ => id, id⟩
      · cases hst
  | close w =>
      simp only [Pools.step] at hst
      split at hst <;> cases hst
      exact ⟨fun _ => id, id⟩
  | ioStart v =>
      obtain ⟨P, hP, rfl⟩ := Option.map_eq_some_iff.mp hst
      refine ⟨fun _ h => ?_, id⟩
      -- without a job in the pool there is none to start
      rw [pick_none h] at hP
      cases hP
  | metaStart v =>
      obtain ⟨P, hP, rfl⟩ := Option.map_eq_some_iff.mp hst
      refine ⟨fun _ => id, fun h => ?_⟩
      rw [pick_none h] at hP
      cases hP
  | ioReturn v raised =>
      simp only [Pools.step] at hst
      split at hst
      · rename_i hv
        -- a return frees a thread that held a job, so the pool was not empty
        split at hst <;> cases hst <;> exact ⟨fun _ h => absurd hv (not_held h), id⟩
      · cases hst
  | ioCount v =>
      simp only [Pools.step] at hst
      split at hst
      · rename_i hv
        cases hst
        exact ⟨fun _ h => absurd hv (not_held h), id⟩
      · cases hst
  | metaReturn v raised =>
      simp only [Pools.step] at hst
      split at hst
      · rename_i hv
        cases hst
        exact ⟨fun _ => id, fun h => absurd hv (not_held h)⟩
      · cases hst
  | take =>
      simp only [Pools.step] at hst
      split at hst
      · split at hst <;> cases hst <;> exact ⟨fun _ => id, id⟩
      · cases hst
  | acquire =>
      simp only [Pools.step] at hst
      split at hst <;> cases hst
      exact ⟨fun _ => id, id⟩
  | dispatch =>
      simp only [Pools.step] at hst
      split at hst <;> cases hst
      -- the dispatcher hands the I/O pool a job; the first part excludes this step
      exact ⟨fun hne => absurd rfl hne, id⟩

/-! ### What is left to do -/

/-- A work item on a thread: the call, and for the dispatcher's the count. -/
def threadWork : Option (Item × Bool) → ℕ
  | none => 0
  | some (_, false) => 2
  | some (_, true) => 1

def poolWork (P : Pool) : ℕ := 3 * P.queue.length + (P.threads.map threadWork).sum

def handWork : Option (Item × Bool) → ℕ
  | none => 0
  | some (_, false) => 5
  | some (_, true) => 4

/-- A key costs six steps on its way through the dispatcher, four through `pool.map`. -/
def runWork (r : Run) : ℕ := match r.phase with
  | .start => 6 * r.keys + 3
  | .waiting true _ => 2
  | .waiting false slots => 4 * (r.keys - slots.length) + 2
  | .closing => 1

def poolsWork (s : Pools.St) : ℕ :=
  (s.tasks.map fun t => 6 * t.2 + 4).sum + (s.taskThreads.map fun o => o.elim 0 runWork).sum +
    poolWork s.io + poolWork s.metadata + 6 * (s.order.map List.length).sum + handWork s.hand

/-- Replacing one task shifts the sum by the difference. -/
theorem runWork_set {ts : List (Option Run)} {w : ℕ} {o : Option Run} (o' : Option Run)
    (hw : ts[w]? = some o) :
    ((ts.set w o').map fun o => o.elim 0 runWork).sum + o.elim 0 runWork =
      (ts.map fun o => o.elim 0 runWork).sum + o'.elim 0 runWork :=
  sum_map_set hw fun _ _ _ _ => rfl

/-- So does replacing one thread. -/
theorem threadWork_set {ts : List (Option (Item × Bool))} {v : ℕ} {o : Option (Item × Bool)}
    (o' : Option (Item × Bool)) (hv : ts[v]? = some o) :
    ((ts.set v o').map threadWork).sum + threadWork o = (ts.map threadWork).sum + threadWork o' :=
  sum_map_set hv fun _ _ _ _ => rfl

/-- Hearing of an item is counted with the item, not with the task. -/
theorem runWork_hear (x : Item) (slot : Slot) (ts : List (Option Run)) :
    ((ts.map fun o => o.map (Run.hear x slot)).map fun o => o.elim 0 runWork).sum =
      (ts.map fun o => o.elim 0 runWork).sum := by
  rw [List.map_map]
  congr 1
  refine List.map_congr_left fun o _ => ?_
  cases o with
  | none => rfl
  | some r =>
      rcases r with ⟨tag, kind, n, phase⟩
      cases phase with
      | start | closing => rfl
      | waiting fair slots =>
          simp only [Function.comp_apply, Option.map_some, Option.elim_some, Run.hear]
          split
          · cases fair <;> simp [runWork]
          · rfl

/-- A thread that takes an item leaves less to do. -/
theorem poolWork_pick {P P' : Pool} {v : ℕ} (h : P.pick v = some P') :
    poolWork P' < poolWork P := by
  obtain ⟨x, rest, hv, hq, rfl⟩ := Pool.pick_eq_some h
  have hset := threadWork_set (some (x, false)) hv
  simp only [poolWork, hq, List.length_cons, threadWork] at hset ⊢
  omega

/-- So does one that is through with it. -/
theorem poolWork_drop {P : Pool} {v : ℕ} {e : Item × Bool} (h : P.threads[v]? = some (some e)) :
    poolWork (P.drop v) < poolWork P := by
  have hset := threadWork_set none h
  obtain ⟨x, b⟩ := e
  cases b <;> simp only [poolWork, Pool.drop, threadWork] at hset ⊢ <;> omega

/-- An item costs three steps. -/
theorem poolWork_push (P : Pool) (x : Item) : poolWork (P.push x) = poolWork P + 3 := by
  simp only [poolWork, Pool.push, List.length_append, List.length_singleton]
  omega

/-- A queue that is taken out of the order takes its items along. -/
theorem sum_eraseIdx {q : List Item} {order : List (List Item)} {r : ℕ} (h : order[r]? = some q) :
    ((order.eraseIdx r).map List.length).sum + q.length = (order.map List.length).sum := by
  induction order generalizing r with
  | nil => simp at h
  | cons q' order ih =>
      cases r with
      | zero =>
          obtain rfl := Option.some.inj h
          simp only [List.eraseIdx_cons_zero, List.map_cons, List.sum_cons]
          omega
      | succ r =>
          have hrest := ih h
          simp only [List.eraseIdx_cons_succ, List.map_cons, List.sum_cons]
          omega

/-- A fan-out pays for the items it queues. -/
theorem fanOut_work {w : ℕ} {r : Run} (hw : p.taskThreads[w]? = some (some r))
    (hstart : r.phase = .start) : poolsWork (fanOut cfg p w r) < poolsWork p := by
  have hr : runWork r = 6 * r.keys + 3 := by rw [runWork, hstart]
  have hset := fun o' => runWork_set o' hw
  simp only [Option.elim_some, hr] at hset
  unfold fanOut
  split
  · split
    · have h := hset (some { r with phase := .closing })
      simp only [poolsWork, setRun, runWork, Option.elim_some] at h ⊢
      omega
    · have h := hset (some { r with phase := .waiting true (List.replicate r.keys .out) })
      simp only [poolsWork, setRun, runWork, Option.elim_some, List.map_append, List.map_singleton,
        List.sum_append, List.sum_singleton, items, List.length_map, List.length_range] at h ⊢
      omega
  · have h := hset (some { r with phase := .waiting false [] })
    simp only [poolsWork, setRun, runWork, Option.elim_some, List.length_nil] at h ⊢
    omega

/-- So does each send of a load. -/
theorem send_work {w tag n : ℕ} {kind : Kind} {slots : List Slot}
    (hw : p.taskThreads[w]? = some (some ⟨tag, kind, n, .waiting false slots⟩))
    (hlt : slots.length < n) :
    poolsWork (send p w ⟨tag, kind, n, .waiting false slots⟩ slots) < poolsWork p := by
  have h := runWork_set (some ⟨tag, kind, n, .waiting false (slots ++ [.out])⟩) hw
  simp only [Option.elim_some, runWork, List.length_append, List.length_singleton] at h
  cases kind <;> simp only [send, poolsWork, setRun, poolWork_push] <;> omega

/-- Every step of a thread uses up work. -/
theorem poolsWork_lt (hint : Internal a) (hst : Pools.step cfg p a = some p') :
    poolsWork p' < poolsWork p := by
  cases a with
  | submit kind n => exact hint.elim
  | taskStart w =>
      simp only [Pools.step] at hst
      split at hst
      · rename_i kind n rest hidle htasks
        cases hst
        -- `start` weighs what the queued task weighed, less the step
        have h := runWork_set (some ⟨p.nextTag, kind, n, .start⟩) hidle
        simp only [poolsWork, setRun, htasks, List.map_cons, List.sum_cons, runWork,
          Option.elim_some, Option.elim_none] at h ⊢
        omega
      · cases hst
  | fanOut w =>
      simp only [Pools.step] at hst
      split at hst
      · rename_i hw
        split at hst <;> cases hst
        exact fanOut_work hw ‹_›
      · cases hst
  | send w =>
      simp only [Pools.step] at hst
      split at hst
      · rename_i hw
        split at hst <;> cases hst
        exact send_work hw ‹_›
      · cases hst
  | collect w =>
      simp only [Pools.step] at hst
      split at hst
      · rename_i tag kind n fair slots hw
        split at hst <;> cases hst
        -- from `waiting` to `closing` the task loses at least one
        have h := runWork_set (some ⟨tag, kind, n, .closing⟩) hw
        have hone : runWork ⟨tag, kind, n, .closing⟩ = 1 := rfl
        have htwo : 2 ≤ runWork ⟨tag, kind, n, .waiting fair slots⟩ := by
          cases fair <;> simp [runWork]
        simp only [poolsWork, setRun, Option.elim_some, hone] at h ⊢
        omega
      · cases hst
  | close w =>
      simp only [Pools.step] at hst
      split at hst <;> cases hst
      rename_i tag kind n hw
      have h := runWork_set none hw
      have hone : runWork ⟨tag, kind, n, .closing⟩ = 1 := rfl
      simp only [poolsWork, setRun, Option.elim_some, Option.elim_none, hone] at h ⊢
      omega
  | ioStart v =>
      obtain ⟨P, hP, rfl⟩ := Option.map_eq_some_iff.mp hst
      -- picking up a job takes one from the pool's weight
      have hlt := poolWork_pick hP
      simp only [poolsWork]
      omega
  | metaStart v =>
      obtain ⟨P, hP, rfl⟩ := Option.map_eq_some_iff.mp hst
      have hlt := poolWork_pick hP
      simp only [poolsWork]
      omega
  | ioReturn v raised =>
      simp only [Pools.step] at hst
      split at hst
      · rename_i x hv
        split at hst <;> cases hst
        · -- the job stays on the thread with one step less to go
          have hset := threadWork_set (some (x, true)) hv
          simp only [poolsWork, poolWork, threadWork] at hset ⊢
          omega
        · -- the job leaves the pool; signals cost the task nothing
          have hlt := poolWork_drop hv
          simp only [poolsWork, hear, runWork_hear]
          omega
      · cases hst
  | ioCount v =>
      simp only [Pools.step] at hst
      split at hst
      · rename_i x hv
        cases hst
        have hlt := poolWork_drop hv
        simp only [poolsWork, hear, runWork_hear]
        omega
      · cases hst
  | metaReturn v raised =>
      simp only [Pools.step] at hst
      split at hst
      · rename_i x b hv
        cases hst
        have hlt := poolWork_drop hv
        simp only [poolsWork, hear, runWork_hear]
        omega
      · cases hst
  | take =>
      simp only [Pools.step] at hst
      split at hst
      · rename_i x rest hhand hr
        split at hst
        · -- the queue was used up, so its place in the order goes too
          rename_i hrest
          cases hst
          have herase := sum_eraseIdx hr
          simp only [poolsWork, hhand, handWork, List.length_cons] at herase ⊢
          omega
        · cases hst
          -- one job less in its queue, and one in the dispatcher's hand
          have hset := sum_map_set (f := List.length) (g := List.length) (b := rest) hr
            fun _ _ _ _ => rfl
          simp only [poolsWork, hhand, handWork, List.length_cons] at hset ⊢
          omega
      · cases hst
  | acquire =>
      simp only [Pools.step] at hst
      split at hst <;> cases hst
      rename_i hhand _
      simp only [poolsWork, hhand, handWork]
      -- the hand goes from `waiting for a slot` to `slot held`
      omega
  | dispatch =>
      simp only [Pools.step] at hst
      split at hst <;> cases hst
      rename_i hhand
      simp only [poolsWork, hhand, handWork, poolWork_push]
      -- a job weighs more in the hand than in the pool
      omega

/-- With no key on its way, a task that is left can go on. -/
theorem task_steps (h : Pools.Inv cfg p) (hnone : everywhere p = []) (hun : ¬ NoTask p) :
    ∃ a, Internal a ∧ a ≠ .take ∧ a ≠ .dispatch ∧ Pools.step cfg p a ≠ none := by
  have hloc := hnone ▸ h.located
  -- a running task: its phase says which step it can take
  by_cases hrun : ∃ r, some r ∈ p.taskThreads
  · obtain ⟨r, hr⟩ := hrun
    obtain ⟨w, hw⟩ := List.mem_iff_getElem?.mp hr
    rcases r with ⟨tag, kind, n, phase⟩
    cases phase with
    | start => exact ⟨.fanOut w, trivial, by simp, by simp, by simp [Pools.step, hw]⟩
    | waiting fair slots =>
        by_cases hsent : fair = true ∨ n ≤ slots.length
        · -- no job of it is left anywhere, so all its slots have reported
          have hrel := released_of_located hloc hr rfl hsent
          exact ⟨.collect w, trivial, by simp, by simp, by simp [Pools.step, hw, hrel]⟩
        · -- a FIFO task that has more jobs to send
          push Not at hsent
          rcases hsent with ⟨hfair, hlt⟩
          rw [Bool.eq_false_iff.mpr hfair] at hw
          exact ⟨.send w, trivial, by simp, by simp, by simp [Pools.step, hw, hlt]⟩
    | closing => exact ⟨.close w, trivial, by simp, by simp, by simp [Pools.step, hw]⟩
  · -- none runs: a thread is idle and takes the first queued one
    have hidle : ∀ o ∈ p.taskThreads, o = none := by
      intro o ho
      cases o with
      | none => rfl
      | some r => exact absurd ⟨r, ho⟩ hrun
    have htasks : p.tasks ≠ [] := fun hnil => hun ⟨hnil, hidle⟩
    obtain ⟨⟨kind, n⟩, rest, htasks⟩ := List.exists_cons_of_ne_nil htasks
    have hlen : 0 < p.taskThreads.length := by
      rw [h.taskLen]
      exact cfg.taskWorkers_pos
    have hfirst : p.taskThreads[0]? = some none := by
      rw [List.getElem?_eq_getElem hlen, hidle _ (List.getElem_mem hlen)]
    exact ⟨.taskStart 0, trivial, by simp, by simp, by simp [Pools.step, hfirst, htasks]⟩

/-- The dispatcher gets nothing with the fifo schedule. -/
theorem order_step (hfifo : cfg.loadSchedule = .fifo) (h : p.order = [])
    (hst : Pools.step cfg p a = some p') : p'.order = [] := by
  cases a with
  | submit kind n =>
      cases hst
      exact h
  | fanOut w =>
      simp only [Pools.step] at hst
      split at hst
      · split at hst <;> cases hst
        -- a FIFO fan-out leaves the fair queues alone
        simpa [fanOut, hfifo, setRun] using h
      · cases hst
  | send w =>
      simp only [Pools.step] at hst
      split at hst
      · rename_i tag kind n slots hw
        split at hst <;> cases hst
        cases kind <;> exact h
      · cases hst
  | collect w =>
      simp only [Pools.step] at hst
      split at hst
      · split at hst <;> cases hst
        exact h
      · cases hst
  | ioStart v | metaStart v =>
      obtain ⟨P, -, rfl⟩ := Option.map_eq_some_iff.mp hst
      exact h
  | ioReturn v raised =>
      simp only [Pools.step] at hst
      split at hst
      · split at hst <;> cases hst <;> exact h
      · cases hst
  | take =>
      simp only [Pools.step, h] at hst
      split at hst
      · -- without a queue in the order there is nothing to take
        rename_i hr
        simp at hr
      · cases hst
  | taskStart w | close w | ioCount v | metaReturn v raised | acquire | dispatch =>
      simp only [Pools.step] at hst
      split at hst <;> cases hst
      exact h

end PoolSteps

/-! ## The adapter -/

section Runs

variable {cfg : PoolConfig} {s t : St} {as bs : List Lbl}

/-- A step of the pools, when `close` does not refuse it. -/
theorem Inv.poolStep {a : Pools.Lbl} {pools : Pools.St} (h : Inv cfg s)
    (hopen : refuses s a = false) (hst : Pools.step cfg s.pools a = some pools) :
    Inv cfg { s with pools := pools, inflight := count s.inflight a } := by
  obtain ⟨hcount, hpos⟩ := unfinished_step hst
  -- once the I/O pool is shut no task is left that could send to it
  have hsend : 5 ≤ s.closing.stage → ∀ w, a ≠ .send w := by
    rintro hstage w rfl
    rw [send_none (h.noTask hstage)] at hst
    cases hst
  constructor
  case pools => exact Pools.step_inv h.pools hst
  case inflight =>
    simp only [hcount, h.inflight]
    -- the counter follows the tasks; it never passes below 0, as `close` had a task to count
    cases a with
    | submit kind n =>
        simp only [count]
        omega
    | close w =>
        have hone := hpos w rfl
        simp only [count]
        omega
    | _ => rfl
  case noTask =>
    intro hstage
    -- no task comes back: the submissions are refused
    refine noTask_step (h.noTask hstage) ?_ hst
    rintro kind n rfl
    simp only [refuses, decide_eq_false_iff_not] at hopen
    simp only at hstage
    omega
  case noIo =>
    intro hstage
    simp only at hstage
    refine (held_step hst (hsend (by omega))).1 ?_ (h.noIo hstage)
    -- `dispatch` is refused once the I/O pool is shut
    rintro rfl
    simp only [refuses, decide_eq_false_iff_not] at hopen
    omega
  case noMeta =>
    intro hstage
    simp only at hstage
    exact (held_step hst (hsend (by omega))).2 (h.noMeta hstage)

/-- `close` goes on by one line. -/
theorem Inv.advance {c : Closing} (h : Inv cfg s) (hnext : c.stage = s.closing.stage + 1)
    (hfive : c.stage = 5 → NoTask s.pools) (hsix : c.stage = 6 → s.pools.io.held = [])
    (hseven : c.stage = 7 → s.pools.metadata.held = []) :
    Inv cfg { s with closing := c } where
  pools := h.pools
  inflight := h.inflight
  noTask hstage := by
    simp only at hstage
    by_cases heq : c.stage = 5
    · exact hfive heq
    · exact h.noTask (by omega)
  noIo hstage := by
    simp only at hstage
    by_cases heq : c.stage = 6
    · exact hsix heq
    · exact h.noIo (by omega)
  noMeta hstage := by
    simp only at hstage
    by_cases heq : c.stage = 7
    · exact hseven heq
    · exact h.noMeta (by omega)

/-- What one step preserves. -/
theorem Inv.step {a : Lbl} (h : Inv cfg s) (hst : step cfg s a = some t) : Inv cfg t := by
  cases a with
  | pools a =>
      simp only [Shutdown.step] at hst
      split at hst
      · -- a refused step is not taken
        cases hst
      · rename_i hopen
        obtain ⟨pools, hpools, rfl⟩ := Option.map_eq_some_iff.mp hst
        exact h.poolStep (Bool.eq_false_iff.mpr hopen) hpools
  | refuse =>
      obtain ⟨-, rfl⟩ := Option.ite_none_right_eq_some.mp hst |>.imp_right Option.some.inj
      -- the refused submission was counted and is not on any queue
      refine ⟨h.pools, ?_, h.noTask, h.noIo, h.noMeta⟩
      have hcount := h.inflight
      simp only
      omega
  | call | deadline | stop | shutTasks | unmount | closeFds =>
      obtain ⟨hc, rfl⟩ := Option.ite_none_right_eq_some.mp hst |>.imp_right Option.some.inj
      -- the shutdown goes on; the pools are as they were
      exact h.advance (by rw [hc]; rfl) nofun nofun nofun
  | drained =>
      obtain ⟨⟨hc, -⟩, rfl⟩ := Option.ite_none_right_eq_some.mp hst |>.imp_right Option.some.inj
      exact h.advance (by rw [hc]; rfl) nofun nofun nofun
  | tasksJoined =>
      obtain ⟨⟨hc, htasks⟩, rfl⟩ :=
        Option.ite_none_right_eq_some.mp hst |>.imp_right Option.some.inj
      -- a join ends when its pool is empty, which is what the next stage relies on
      exact h.advance (by rw [hc]; rfl) (fun _ => htasks) nofun nofun
  | ioJoined =>
      obtain ⟨⟨hc, hheld⟩, rfl⟩ :=
        Option.ite_none_right_eq_some.mp hst |>.imp_right Option.some.inj
      exact h.advance (by rw [hc]; rfl) nofun (fun _ => hheld) nofun
  | metaJoined =>
      obtain ⟨⟨hc, hheld⟩, rfl⟩ :=
        Option.ite_none_right_eq_some.mp hst |>.imp_right Option.some.inj
      exact h.advance (by rw [hc]; rfl) nofun nofun fun _ => hheld

/-- The adapter begins with nothing to do and nothing shut. -/
theorem initial_inv (cfg : PoolConfig) : Inv cfg (initial cfg) where
  pools := Pools.initial_inv cfg
  inflight := by simp [initial, unfinished, Pools.initial, List.countP_replicate]
  noTask := by simp [initial, Closing.stage]
  noIo := by simp [initial, Closing.stage]
  noMeta := by simp [initial, Closing.stage]

/-- So the invariant holds along every run. -/
theorem inv_of_run (hrun : (machine cfg).run (initial cfg) as = some s) : Inv cfg s :=
  Machine.run_induction_all (M := machine cfg) (fun _ s => Inv cfg s) (initial_inv cfg)
    (fun _ _ _ _ h _ hst => h.step hst) hrun

/-- The first-come schedule never uses the dispatcher. -/
theorem order_of_run (hfifo : cfg.loadSchedule = .fifo)
    (hrun : (machine cfg).run (initial cfg) as = some s) : s.pools.order = [] := by
  refine Machine.run_induction_all (M := machine cfg) (fun _ s => s.pools.order = []) rfl ?_ hrun
  intro as s a t h _ hst
  cases a with
  | pools a =>
      simp only [machine, step] at hst
      split at hst
      · cases hst
      · obtain ⟨pools, hpools, rfl⟩ := Option.map_eq_some_iff.mp hst
        exact order_step hfifo h hpools
  | _ =>
      obtain ⟨-, rfl⟩ := Option.ite_none_right_eq_some.mp hst |>.imp_right Option.some.inj
      exact h

/-! ### The end -/

/-- The steps of the adapter's threads and of `close`: no call comes. -/
def Lbl.Own : Lbl → Prop
  | .pools a => Internal a
  | .refuse | .call => False
  | _ => True

/-- An upper bound of the steps that are left. -/
def work (s : St) : ℕ := poolsWork s.pools + (9 - s.closing.stage)

/-- Every step of the adapter itself leaves less to do. -/
theorem work_lt {a : Lbl} (hown : a.Own) (hst : step cfg s a = some t) : work t < work s := by
  cases a with
  | pools a =>
      simp only [step] at hst
      split at hst
      · cases hst
      · obtain ⟨pools, hpools, rfl⟩ := Option.map_eq_some_iff.mp hst
        exact Nat.add_lt_add_right (poolsWork_lt hown hpools) _
  | refuse => exact hown.elim
  | call => exact hown.elim
  | deadline | stop | shutTasks | unmount | closeFds =>
      obtain ⟨hc, rfl⟩ := Option.ite_none_right_eq_some.mp hst |>.imp_right Option.some.inj
      simp [work, hc, Closing.stage]
  | drained | tasksJoined | ioJoined | metaJoined =>
      obtain ⟨⟨hc, -⟩, rfl⟩ := Option.ite_none_right_eq_some.mp hst |>.imp_right Option.some.inj
      simp [work, hc, Closing.stage]

/-- No thread of the adapter can step. -/
def AtRest (cfg : PoolConfig) (s : St) : Prop := ∀ a : Lbl, a.Own → step cfg s a = none

/-- At rest the pools are stuck, but for what `close` refuses. -/
theorem AtRest.pools (h : AtRest cfg s) {a : Pools.Lbl} (hint : Internal a)
    (hopen : refuses s a = false) : Pools.step cfg s.pools a = none := by
  have hst := h (.pools a) hint
  simpa [step, hopen] using hst

/-- The key pools are empty. -/
theorem AtRest.held (h : AtRest cfg s) (hinv : Pools.Inv cfg s.pools) :
    s.pools.io.held = [] ∧ s.pools.metadata.held = [] := by
  have hworkers := cfg.workers_pos
  constructor
  · by_contra hne
    rcases Pool.progress (by rw [hinv.ioLen]; exact hworkers) hne with ⟨v, hv⟩ | ⟨v, x, b, hv⟩
    · have hst := h.pools (a := .ioStart v) trivial rfl
      rw [Pools.step, Option.map_eq_none_iff] at hst
      rw [hst] at hv
      cases hv
    · cases b with
      | true => simpa [Pools.step, hv] using h.pools (a := .ioCount v) trivial rfl
      | false =>
          have hst := h.pools (a := .ioReturn v false) trivial rfl
          simp only [Pools.step, hv] at hst
          split at hst <;> cases hst
  · by_contra hne
    rcases Pool.progress (by rw [hinv.metaLen]; omega) hne with ⟨v, hv⟩ | ⟨v, x, b, hv⟩
    · have hst := h.pools (a := .metaStart v) trivial rfl
      rw [Pools.step, Option.map_eq_none_iff] at hst
      rw [hst] at hv
      cases hv
    · simpa [Pools.step, hv] using h.pools (a := .metaReturn v false) trivial rfl

/-- Before the I/O pool is shut the dispatcher hands on what it has. -/
theorem AtRest.hand (h : AtRest cfg s) (hinv : Pools.Inv cfg s.pools)
    (hstage : s.closing.stage < 5) : s.pools.hand = none := by
  cases hhand : s.pools.hand with
  | none => rfl
  | some e =>
      obtain ⟨x, b⟩ := e
      cases b with
      | true =>
          have hst := h.pools (a := .dispatch) trivial (by simp [refuses]; omega)
          simp [Pools.step, hhand] at hst
      | false =>
          have hsem := hinv.semaphore
          rw [Pool.slotsHeld_of_held_nil (h.held hinv).1, hhand] at hsem
          have hpos := cfg.workers_pos
          obtain ⟨k, hk⟩ : ∃ k, s.pools.slots = k + 1 := by
            simp only [handSlot] at hsem
            exact ⟨s.pools.slots - 1, by omega⟩
          have hst := h.pools (a := .acquire) trivial rfl
          simp [Pools.step, hhand, hk] at hst

/-- At rest `close` has not begun, is over, or waits for a dispatcher that was left with
keys. -/
theorem AtRest.settled (h : AtRest cfg s) (hinv : Inv cfg s) :
    s.closing = .serving ∨ s.closing = .closed ∨
      (3 ≤ s.closing.stage ∧ s.pools.order ≠ []) := by
  obtain ⟨hio, hmeta⟩ := h.held hinv.pools
  cases hc : s.closing with
  | serving => exact .inl rfl
  | closed => exact .inr (.inl rfl)
  | draining => simpa [step, hc] using h .deadline trivial
  | stopping => simpa [step, hc] using h .stop trivial
  | shutTasks => simpa [step, hc] using h .shutTasks trivial
  | joinIo => simpa [step, hc, hio] using h .ioJoined trivial
  | joinMeta => simpa [step, hc, hmeta] using h .metaJoined trivial
  | unmount => simpa [step, hc] using h .unmount trivial
  | closeFds => simpa [step, hc] using h .closeFds trivial
  | joinTasks =>
      by_cases horder : s.pools.order = []
      · -- no key is on its way, so a task that is left would go on
        have hstage : s.closing.stage = 4 := by rw [hc]; rfl
        have hhand := h.hand hinv.pools (by omega)
        have hnone : everywhere s.pools = [] := by
          simp [everywhere, hio, hmeta, horder, hhand]
        have htask : NoTask s.pools := by
          by_contra hun
          obtain ⟨a, hint, htake, hdisp, hne⟩ := task_steps hinv.pools hnone hun
          refine hne (h.pools hint ?_)
          cases a with
          | submit kind n => exact hint.elim
          | take => exact absurd rfl htake
          | dispatch => exact absurd rfl hdisp
          | send w =>
              simp only [refuses, hstage]
              split
              · split <;> rfl
              · rfl
          | _ => rfl
        have hst := h .tasksJoined trivial
        simp only [step] at hst
        rw [if_pos ⟨hc, htask⟩] at hst
        cases hst
      · exact .inr (.inr ⟨by decide, horder⟩)

/-- Nobody is left in the storage when the mount is closed, no task finds its pool shut,
`_inflight` counts the unfinished and the refused tasks, and `close` comes to its end
unless the dispatcher was left with keys. -/
theorem close_settles (hrun : (machine cfg).run (initial cfg) as = some s) :
    (7 ≤ s.closing.stage →
        NoTask s.pools ∧ s.pools.io.held = [] ∧ s.pools.metadata.held = []) ∧
      (∀ w, refuses s (.send w) = true → Pools.step cfg s.pools (.send w) = none) ∧
      s.inflight = unfinished s.pools + s.refused ∧
      ∃ N, ∀ bs t, (∀ b ∈ bs, b.Own) → (machine cfg).run s bs = some t → bs.length ≤ N ∧
        (AtRest cfg t → t.closing = .serving ∨ t.closing = .closed ∨
          (3 ≤ t.closing.stage ∧ t.pools.order ≠ [] ∧ cfg.loadSchedule = .fair)) := by
  have hinv := inv_of_run hrun
  refine ⟨fun hstage => ⟨hinv.noTask (by omega), hinv.noIo (by omega), hinv.noMeta hstage⟩,
    fun w href => ?_, hinv.inflight, work s, fun bs t hown hbs => ?_⟩
  · refine send_none (hinv.noTask ?_) w
    simp only [refuses] at href
    split at href
    · split at href <;> simp only [decide_eq_true_eq] at href <;> omega
    · cases href
  · -- every own step costs work, so runs of own steps end
    have hle := Machine.length_add_work_le (fun _ _ _ hown hst => work_lt hown hst) hown hbs
    refine ⟨by omega, fun hrest => ?_⟩
    have hall : (machine cfg).run (initial cfg) (as ++ bs) = some t := by
      rw [Machine.run_append, hrun]
      exact hbs
    refine (hrest.settled (inv_of_run hall)).imp_right (Or.imp_right ?_)
    rintro ⟨hstage, horder⟩
    refine ⟨hstage, horder, ?_⟩
    -- under FIFO the dispatcher has nothing, so only the fair schedule can be left with jobs
    cases hs : cfg.loadSchedule with
    | fair => rfl
    | fifo => exact absurd (order_of_run hs hall) horder

end Runs

/-- `close` finds a store on its thread and a load in the queue; a task that comes too
late is refused. -/
def closing : List Lbl :=
  [.pools (.submit .store 1), .pools (.submit .load 1), .pools (.taskStart 0), .pools (.fanOut 0),
    .pools (.send 0), .call, .pools (.taskStart 1), .pools (.fanOut 1), .pools .take, .deadline,
    .stop, .shutTasks, .refuse, .pools (.ioStart 0), .pools .acquire, .pools (.ioReturn 0 false),
    .pools (.collect 0), .pools (.close 0), .pools .dispatch, .pools (.ioStart 0),
    .pools (.ioReturn 0 false), .pools (.ioCount 0), .pools (.collect 1), .pools (.close 1),
    .tasksJoined, .ioJoined, .metaJoined, .unmount, .closeFds]

/-- A task under way, one refused, and a `close` that comes to its end. -/
theorem closing_settles : ∃ s, (machine oneWorker).run (initial oneWorker) closing = some s ∧
    s.closing = .closed ∧ NoTask s.pools ∧ s.pools.io.held = [] ∧ s.pools.metadata.held = [] ∧
      s.inflight = 1 := by
  have hrun : ((machine oneWorker).run (initial oneWorker) closing).map
      (fun s => (s.closing, s.inflight)) = some (.closed, 1) := by
    decide
  obtain ⟨s, hs, hall⟩ := Option.map_eq_some_iff.mp hrun
  simp only [Prod.mk.injEq] at hall
  have hover := (close_settles hs).1 (by rw [hall.1]; decide)
  exact ⟨s, hs, hall.1, hover.1, hover.2.1, hover.2.2, hall.2⟩

end LmcacheDaos.Mp.Shutdown
