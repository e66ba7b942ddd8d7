import Mathlib.Algebra.Order.BigOperators.Group.List
import Mathlib.Algebra.Order.Group.Nat
import Mathlib.Tactic.Common
import LmcacheDaos.Lib.Machine

/-!
# The pools of the MP L2 adapter

`DaosL2Adapter` has a task pool of `task_workers` threads, an I/O pool of
`workers`, a metadata pool of `max(4, workers)` and, with `load_schedule =
"fair"`, the dispatcher thread of `_FairDispatcher` (`mp/l2_adapter.py`). A
task thread fans its keys out (a store to the I/O pool, a lookup to the
metadata pool, a load to the I/O pool or to the dispatcher) and waits for them;
`pool.map` submits key by key, so the fan-outs of several tasks interleave.
The dispatcher takes one key at a time, round robin over the loads, acquires a
slot of its semaphore and submits the key to the I/O pool; `_one` releases the
slot after the read and then counts the key.

Storage calls always return, by a value or an exception. Critical sections of
`_cv` and of `self._lock` are single steps: nothing inside them waits, except
for `_cv.wait`, which gives the lock up. A fan-out that raised cancels its other
keys; a cancelled work item stays in its queue until a thread takes it out.

Result: in every reachable state with an unfinished task, some thread of the
three pools or the dispatcher can step. Waiting goes one way: task threads wait
for keys, keys for the dispatcher or a pool thread, the dispatcher for a slot,
and a slot is held only by a key that is in the I/O pool.
-/

namespace LmcacheDaos.Mp.Pools

open Lib

inductive Schedule where
  | fifo
  | fair
deriving DecidableEq, Repr

structure PoolConfig where
  taskWorkers : ℕ
  workers : ℕ
  loadSchedule : Schedule
  taskWorkers_pos : 0 < taskWorkers
  workers_pos : 0 < workers

inductive Kind where
  | store
  | lookup
  | load
deriving DecidableEq, Repr

/-- A key of a fan-out, on its way to a thread: whose it is, which one, and
whether the dispatcher handles it. -/
structure Item where
  tag : ℕ
  idx : ℕ
  fair : Bool
deriving DecidableEq, Repr

/-- A `ThreadPoolExecutor`: its queue, and per thread the work item it runs;
one that the dispatcher submitted may have released its slot already. -/
structure Pool where
  queue : List Item
  threads : List (Option (Item × Bool))
deriving DecidableEq, Repr

/-- What a waiting task knows of a key. -/
inductive Slot where
  | out
  | back
  | raised
deriving DecidableEq, Repr

inductive Phase where
  /-- about to fan out -/
  | start
  /-- in `pool.map`, with a slot for each key submitted so far, or in
  `_FairDispatcher.run` -/
  | waiting (fair : Bool) (slots : List Slot)
  /-- has its results; the rest of the executor waits for nothing -/
  | closing
deriving DecidableEq, Repr

/-- A task on its thread. -/
structure Run where
  tag : ℕ
  kind : Kind
  keys : ℕ
  phase : Phase
deriving DecidableEq, Repr

structure St where
  /-- tasks no thread has picked up, with their number of keys -/
  tasks : List (Kind × ℕ)
  taskThreads : List (Option Run)
  nextTag : ℕ
  io : Pool
  metadata : Pool
  /-- the queues of the dispatcher, in `_order` -/
  order : List (List Item)
  /-- `_rr` -/
  rr : ℕ
  /-- the item in the dispatcher's hands, and whether it has a slot -/
  hand : Option (Item × Bool)
  /-- `_slots` -/
  slots : ℕ
deriving DecidableEq, Repr

def emptyPool (n : ℕ) : Pool := ⟨[], List.replicate n none⟩

def initial (cfg : PoolConfig) : St where
  tasks := []
  taskThreads := List.replicate cfg.taskWorkers none
  nextTag := 0
  io := emptyPool cfg.workers
  metadata := emptyPool (max 4 cfg.workers)
  order := []
  rr := 0
  hand := none
  slots := cfg.workers

inductive Lbl where
  /-- a task is submitted, from any thread -/
  | submit (kind : Kind) (keys : ℕ)
  /-- task thread `w` picks up a task -/
  | taskStart (w : ℕ)
  | fanOut (w : ℕ)
  /-- task thread `w`, in `pool.map`, submits its next key -/
  | send (w : ℕ)
  /-- the fan-out of task thread `w` ends -/
  | collect (w : ℕ)
  /-- the task of thread `w` finishes -/
  | close (w : ℕ)
  /-- I/O thread `v` picks up a work item -/
  | ioStart (v : ℕ)
  /-- the key on I/O thread `v` returns or raises -/
  | ioReturn (v : ℕ) (raised : Bool)
  /-- the `finally` of `_one`, after the release -/
  | ioCount (v : ℕ)
  | metaStart (v : ℕ)
  | metaReturn (v : ℕ) (raised : Bool)
  /-- the dispatcher takes the next item -/
  | take
  /-- the dispatcher gets a slot -/
  | acquire
  /-- the dispatcher submits to the I/O pool -/
  | dispatch
deriving DecidableEq, Repr

/-- A thread takes the oldest work item. -/
def Pool.pick (P : Pool) (v : ℕ) : Option Pool := match P.threads[v]?, P.queue with
  | some none, x :: rest => some ⟨rest, P.threads.set v (some (x, false))⟩
  | _, _ => none

def Pool.push (P : Pool) (x : Item) : Pool := { P with queue := P.queue ++ [x] }

/-- A thread is done with its work item. -/
def Pool.drop (P : Pool) (v : ℕ) : Pool := { P with threads := P.threads.set v none }

/-- The items of `_FairDispatcher.run`. -/
def items (tag n : ℕ) : List Item := (List.range n).map fun i => ⟨tag, i, true⟩

/-- A task hears of its key `x`. -/
def Run.hear (x : Item) (slot : Slot) (r : Run) : Run := match r.phase with
  | .waiting fair slots =>
      if r.tag = x.tag then { r with phase := .waiting fair (slots.set x.idx slot) } else r
  | _ => r

def hear (s : St) (x : Item) (slot : Slot) : St :=
  { s with taskThreads := s.taskThreads.map fun o => o.map (Run.hear x slot) }

/-- `list(pool.map(..))` ends: at the first exception in order, or with all
results. -/
def mapEnds : List Slot → Bool
  | [] => true
  | .out :: _ => false
  | .raised :: _ => true
  | .back :: rest => mapEnds rest

/-- A waiting task of `n` keys is released: `run` waits for `left` to come to 0,
`list(pool.map(..))` has submitted every key and has its results. -/
def released (n : ℕ) (fair : Bool) (slots : List Slot) : Bool :=
  if fair then slots.all (· ≠ .out) else n ≤ slots.length && mapEnds slots

/-- A task thread goes on to this. -/
def setRun (s : St) (w : ℕ) (r : Option Run) : St := { s with taskThreads := s.taskThreads.set w r }

/-- The fan-out of an executor begins: a load under the fair schedule hands all
its keys to the dispatcher, the others enter `pool.map`. -/
def fanOut (cfg : PoolConfig) (s : St) (w : ℕ) (r : Run) : St := match r.kind, cfg.loadSchedule with
  | .load, .fair =>
      -- `run` of no items returns at once
      if r.keys = 0 then setRun s w (some { r with phase := .closing })
      else { setRun s w (some { r with phase := .waiting true (List.replicate r.keys .out) }) with
        order := s.order ++ [items r.tag r.keys] }
  | _, _ => setRun s w (some { r with phase := .waiting false [] })

/-- `pool.map` submits its next key, to the pool of the task's kind. -/
def send (s : St) (w : ℕ) (r : Run) (slots : List Slot) : St :=
  let x : Item := ⟨r.tag, slots.length, false⟩
  let s' := setRun s w (some { r with phase := .waiting false (slots ++ [.out]) })
  match r.kind with
  | .lookup => { s' with metadata := s.metadata.push x }
  | _ => { s' with io := s.io.push x }

def step (cfg : PoolConfig) (s : St) : Lbl → Option St
  | .submit kind n => some { s with tasks := s.tasks ++ [(kind, n)] }
  | .taskStart w => match s.taskThreads[w]?, s.tasks with
      | some none, (kind, n) :: rest => some { setRun s w (some ⟨s.nextTag, kind, n, .start⟩) with
          tasks := rest, nextTag := s.nextTag + 1 }
      | _, _ => none
  | .fanOut w => match s.taskThreads[w]? with
      | some (some r) => if r.phase = .start then some (fanOut cfg s w r) else none
      | _ => none
  | .send w => match s.taskThreads[w]? with
      | some (some ⟨tag, kind, n, .waiting false slots⟩) =>
          if slots.length < n then some (send s w ⟨tag, kind, n, .waiting false slots⟩ slots)
          else none
      | _ => none
  | .collect w => match s.taskThreads[w]? with
      | some (some ⟨tag, kind, n, .waiting fair slots⟩) =>
          -- what of a cancelled fan-out is still queued stays there
          if released n fair slots then some (setRun s w (some ⟨tag, kind, n, .closing⟩)) else none
      | _ => none
  | .close w => match s.taskThreads[w]? with
      | some (some ⟨_, _, _, .closing⟩) => some (setRun s w none)
      | _ => none
  | .ioStart v => (s.io.pick v).map fun io => { s with io := io }
  | .ioReturn v raised => match s.io.threads[v]? with
      | some (some (x, false)) =>
          -- `_one` releases its slot first and counts the key afterwards
          if x.fair then some { s with
            io := { s.io with threads := s.io.threads.set v (some (x, true)) }
            slots := s.slots + 1 }
          else some (hear { s with io := s.io.drop v } x (if raised then .raised else .back))
      | _ => none
  | .ioCount v => match s.io.threads[v]? with
      | some (some (x, true)) => some (hear { s with io := s.io.drop v } x .back)
      | _ => none
  | .metaStart v => (s.metadata.pick v).map fun m => { s with metadata := m }
  | .metaReturn v raised => match s.metadata.threads[v]? with
      | some (some (x, _)) =>
          some (hear { s with metadata := s.metadata.drop v } x (if raised then .raised else .back))
      | _ => none
  | .take => match s.hand, s.order[s.rr % s.order.length]? with
      | none, some (x :: rest) =>
          let r := s.rr % s.order.length
          -- an emptied queue leaves `_order`, and `_rr` is on the next one already
          if rest = [] then
            some { s with hand := some (x, false), order := s.order.eraseIdx r, rr := r }
          else some { s with hand := some (x, false), order := s.order.set r rest, rr := r + 1 }
      | _, _ => none
  | .acquire => match s.hand, s.slots with
      | some (x, false), k + 1 => some { s with hand := some (x, true), slots := k }
      | _, _ => none
  | .dispatch => match s.hand with
      | some (x, true) => some { s with hand := none, io := s.io.push x }
      | _ => none

def machine (cfg : PoolConfig) : Machine St Lbl where
  Init s := s = initial cfg
  step := step cfg

/-- A task has not finished. -/
def Unfinished (s : St) : Prop := s.tasks ≠ [] ∨ ∃ r, some r ∈ s.taskThreads

/-- The step is one of a pool thread or of the dispatcher. -/
def Internal : Lbl → Prop
  | .submit _ _ => False
  | _ => True

/-! ## Where the keys are -/

/-- The work items in a pool: queued or on a thread. -/
def Pool.held (P : Pool) : List Item := P.queue ++ P.threads.filterMap fun o => o.map Prod.fst

/-- A pool holds what is queued or on a thread. -/
theorem Pool.mem_held {P : Pool} {x : Item} :
    x ∈ P.held ↔ x ∈ P.queue ∨ ∃ b, some (x, b) ∈ P.threads := by
  simp only [Pool.held, List.mem_append, List.mem_filterMap, Option.map_eq_some_iff, Prod.exists]
  constructor
  · rintro (h | ⟨o, ho, y, b, rfl, rfl⟩)
    · exact .inl h
    · exact .inr ⟨b, ho⟩
  · rintro (h | ⟨b, hb⟩)
    · exact .inl h
    · exact .inr ⟨_, hb, x, b, rfl, rfl⟩

/-- Every key that is on its way. -/
def everywhere (s : St) : List Item :=
  s.io.held ++ s.metadata.held ++ s.order.flatten ++ (s.hand.map Prod.fst).toList

/-- Where an item that is out can be. -/
theorem mem_everywhere {s : St} {x : Item} :
    x ∈ everywhere s ↔
      x ∈ s.io.held ∨ x ∈ s.metadata.held ∨ (∃ q ∈ s.order, x ∈ q) ∨ ∃ b, s.hand = some (x, b) := by
  simp [everywhere]

/-- Every key a task waits for is among `xs`. -/
def Located (ts : List (Option Run)) (xs : List Item) : Prop :=
  ∀ r, some r ∈ ts → ∀ fair slots, r.phase = .waiting fair slots → ∀ i, slots[i]? = some .out →
    ∃ x ∈ xs, x.tag = r.tag ∧ x.idx = i

/-- More places do no harm. -/
theorem Located.mono {ts : List (Option Run)} {xs ys : List Item} (h : Located ts xs)
    (hsub : ∀ x ∈ xs, x ∈ ys) : Located ts ys := by
  intro r hr fair slots hphase i hi
  obtain ⟨x, hx, hrest⟩ := h r hr fair slots hphase i hi
  exact ⟨x, hsub x hx, hrest⟩

/-- A task thread moves on; in its new state it waits for keys among `xs`. -/
theorem Located.set {ts : List (Option Run)} {xs : List Item} (h : Located ts xs) (w : ℕ)
    {o : Option Run} (hnew : ∀ r fair slots, o = some r → r.phase = .waiting fair slots →
      ∀ i, slots[i]? = some .out → ∃ x ∈ xs, x.tag = r.tag ∧ x.idx = i) :
    Located (ts.set w o) xs := by
  intro r hr fair slots hphase i hi
  rcases List.mem_or_eq_of_mem_set hr with hr | hr
  · exact h r hr fair slots hphase i hi
  · exact hnew r fair slots hr.symm hphase i hi

/-- A key that leaves is one its task no longer waits for. -/
theorem Located.hear {ts : List (Option Run)} {xs ys : List Item} {x : Item} {slot : Slot}
    (h : Located ts xs) (hsub : ∀ y ∈ xs, y = x ∨ y ∈ ys) (hslot : slot ≠ .out) :
    Located (ts.map fun o => o.map (Run.hear x slot)) ys := by
  intro r' hr' fair slots hphase i hi
  obtain ⟨o, ho, heq⟩ := List.mem_map.mp hr'
  obtain ⟨r, rfl, rfl⟩ := Option.map_eq_some_iff.mp heq
  -- another key of this task, or a key of another task
  have hother : ∀ {slots₀}, r.phase = .waiting fair slots₀ → slots₀[i]? = some .out →
      (r.tag ≠ x.tag ∨ i ≠ x.idx) → ∃ y ∈ ys, y.tag = r.tag ∧ y.idx = i := by
    intro slots₀ hp hi hne
    obtain ⟨y, hy, htag, hidx⟩ := h r ho fair slots₀ hp i hi
    refine ⟨y, ?_, htag, hidx⟩
    rcases hsub y hy with rfl | hy
    · rcases hne with hne | hne
      · exact absurd htag.symm hne
      · exact absurd hidx.symm hne
    · exact hy
  cases hp : r.phase with
  | start => simp [Run.hear, hp] at hphase
  | closing => simp [Run.hear, hp] at hphase
  | waiting fair₀ slots₀ =>
      by_cases htag : r.tag = x.tag
      · simp only [Run.hear, hp, htag, if_true, Phase.waiting.injEq] at hphase
        obtain ⟨rfl, rfl⟩ := hphase
        have hne : i ≠ x.idx := by
          rintro rfl
          rw [List.getElem?_set_self'] at hi
          obtain ⟨_, -, hs⟩ := Option.map_eq_some_iff.mp hi
          exact hslot hs
        rw [List.getElem?_set_ne hne.symm] at hi
        have htag' : (Run.hear x slot r).tag = r.tag := by simp [Run.hear, hp, htag]
        rw [htag']
        exact hother hp hi (.inr hne)
      · have hsame : Run.hear x slot r = r := by simp [Run.hear, hp, htag]
        rw [hsame] at hphase ⊢
        exact hother hphase hi (.inl htag)

/-! ## The pools and the semaphore -/

/-- A free thread takes the head of the queue. -/
theorem Pool.pick_eq_some {P P' : Pool} {v : ℕ} (h : P.pick v = some P') :
    ∃ x rest, P.threads[v]? = some none ∧ P.queue = x :: rest ∧
      P' = ⟨rest, P.threads.set v (some (x, false))⟩ := by
  unfold Pool.pick at h
  split at h
  · rename_i x rest hv hq
    exact ⟨x, rest, hv, hq, (Option.some.inj h).symm⟩
  · cases h

/-- Picking up an item loses none. -/
theorem Pool.held_pick {P P' : Pool} {v : ℕ} (h : P.pick v = some P') :
    ∀ x ∈ P.held, x ∈ P'.held := by
  obtain ⟨y, rest, hv, hq, rfl⟩ := Pool.pick_eq_some h
  obtain ⟨hlt, hget⟩ := List.getElem?_eq_some_iff.mp hv
  intro x hx
  rw [Pool.mem_held] at hx ⊢
  rcases hx with hx | ⟨b, hx⟩
  · rw [hq] at hx
    rcases List.mem_cons.mp hx with rfl | hx
    · exact .inr ⟨false, List.mem_set hlt _⟩
    · exact .inl hx
  · obtain ⟨u, hu⟩ := List.mem_iff_getElem?.mp hx
    have hne : v ≠ u := by
      rintro rfl
      rw [hv] at hu
      cases hu
    exact .inr ⟨b, List.mem_of_getElem? ((List.getElem?_set_ne hne).trans hu)⟩

/-- A pick leaves the number of threads as it is. -/
theorem Pool.length_pick {P P' : Pool} {v : ℕ} (h : P.pick v = some P') :
    P'.threads.length = P.threads.length := by
  obtain ⟨x, rest, -, -, rfl⟩ := Pool.pick_eq_some h
  exact List.length_set

/-- Replacing the item `x` of a thread loses at most `x`. -/
theorem Pool.held_set {P : Pool} {v : ℕ} {x : Item} {b : Bool} {o : Option (Item × Bool)}
    (h : P.threads[v]? = some (some (x, b))) :
    ∀ y ∈ P.held, y = x ∨ y ∈ Pool.held { P with threads := P.threads.set v o } := by
  intro y hy
  rw [Pool.mem_held] at hy ⊢
  rcases hy with hy | ⟨c, hy⟩
  · exact .inr (.inl hy)
  · obtain ⟨u, hu⟩ := List.mem_iff_getElem?.mp hy
    by_cases huv : v = u
    · subst huv
      rw [h] at hu
      cases hu
      exact .inl rfl
    · exact .inr (.inr ⟨c, List.mem_of_getElem? ((List.getElem?_set_ne huv).trans hu)⟩)

/-- A pool with threads and work has a thread that can step. -/
theorem Pool.progress {P : Pool} (hlen : 0 < P.threads.length) (hne : P.held ≠ []) :
    (∃ v, (P.pick v).isSome = true) ∨ ∃ (v : ℕ) (x : Item) (b : Bool),
      P.threads[v]? = some (some (x, b)) := by
  by_cases hbusy : ∃ (v : ℕ) (x : Item) (b : Bool), P.threads[v]? = some (some (x, b))
  · exact .inr hbusy
  · -- all threads are idle, so the work is in the queue
    left
    have hidle : P.threads[0]? = some none := by
      rw [List.getElem?_eq_getElem hlen]
      cases h0 : P.threads[0] with
      | none => rfl
      | some e => exact absurd ⟨0, e.1, e.2, by rw [List.getElem?_eq_getElem hlen, h0]⟩ hbusy
    cases hq : P.queue with
    | nil =>
        refine absurd ?_ hne
        refine List.eq_nil_iff_forall_not_mem.mpr fun x hx => ?_
        rcases Pool.mem_held.mp hx with hx | ⟨b, hx⟩
        · rw [hq] at hx
          cases hx
        · obtain ⟨v, hv⟩ := List.mem_iff_getElem?.mp hx
          exact hbusy ⟨v, x, b, hv⟩
    | cons x rest =>
        refine ⟨0, ?_⟩
        simp [Pool.pick, hidle, hq]

/-- The item on a thread holds a slot of the dispatcher. -/
def holdsSlot : Option (Item × Bool) → Bool
  | some (x, false) => x.fair
  | _ => false

/-- Slots held by keys in a pool. -/
def Pool.slotsHeld (P : Pool) : ℕ :=
  P.queue.countP (fun x => x.fair) + P.threads.countP holdsSlot

/-- The slot in the dispatcher's hands. -/
def handSlot : Option (Item × Bool) → ℕ
  | some (_, true) => 1
  | _ => 0

/-- A pick takes no slot. -/
theorem Pool.slotsHeld_pick {P P' : Pool} {v : ℕ} (h : P.pick v = some P') :
    P'.slotsHeld = P.slotsHeld := by
  obtain ⟨x, rest, hv, hq, rfl⟩ := Pool.pick_eq_some h
  obtain ⟨hlt, hget⟩ := List.getElem?_eq_some_iff.mp hv
  simp only [Pool.slotsHeld, hq, List.countP_cons, List.countP_set hlt, hget, holdsSlot]
  by_cases hx : x.fair = true
  · simp [hx]
    omega
  · simp [hx]

/-- An empty pool holds no slot. -/
theorem Pool.slotsHeld_of_held_nil {P : Pool} (h : P.held = []) : P.slotsHeld = 0 := by
  have hno : ∀ x, x ∉ P.held := fun x hx => by rw [h] at hx; cases hx
  have hq : P.queue.countP (fun x => x.fair) = 0 :=
    List.countP_eq_zero.mpr fun x hx => absurd (Pool.mem_held.mpr (.inl hx)) (hno x)
  have ht : P.threads.countP holdsSlot = 0 := by
    refine List.countP_eq_zero.mpr fun o ho => ?_
    cases o with
    | none => simp [holdsSlot]
    | some e => exact absurd (Pool.mem_held.mpr (.inr ⟨e.2, ho⟩)) (hno e.1)
  rw [Pool.slotsHeld, hq, ht]

/-! ## The invariant -/

structure Inv (cfg : PoolConfig) (s : St) : Prop where
  located : Located s.taskThreads (everywhere s)
  /-- the dispatcher keeps no empty queue, and only its own items -/
  nonempty : ∀ q ∈ s.order, q ≠ []
  orderFair : ∀ q ∈ s.order, ∀ x ∈ q, x.fair = true
  handFair : ∀ x b, s.hand = some (x, b) → x.fair = true
  /-- a slot is free, in the dispatcher's hands, or with a key in the I/O pool -/
  semaphore : s.slots + s.io.slotsHeld + handSlot s.hand = cfg.workers
  taskLen : s.taskThreads.length = cfg.taskWorkers
  ioLen : s.io.threads.length = cfg.workers
  metaLen : s.metadata.threads.length = max 4 cfg.workers

/-- Nothing is out at first. -/
theorem initial_inv (cfg : PoolConfig) : Inv cfg (initial cfg) where
  located := by
    intro r hr
    cases List.eq_of_mem_replicate hr
  nonempty := by simp [initial]
  orderFair := by simp [initial]
  handFair := by simp [initial]
  semaphore := by
    simp [initial, emptyPool, Pool.slotsHeld, handSlot, List.countP_replicate, holdsSlot]
  taskLen := List.length_replicate
  ioLen := List.length_replicate
  metaLen := List.length_replicate

/-- A step that is not the dispatcher's: the keys tasks wait for are still
somewhere, and slots only move between `_slots` and the I/O pool. -/
theorem Inv.keeps {cfg : PoolConfig} {s s' : St} (h : Inv cfg s) (horder : s'.order = s.order)
    (hhand : s'.hand = s.hand) (hloc : Located s'.taskThreads (everywhere s'))
    (hslots : s'.slots + s'.io.slotsHeld = s.slots + s.io.slotsHeld)
    (htask : s'.taskThreads.length = s.taskThreads.length)
    (hio : s'.io.threads.length = s.io.threads.length)
    (hmeta : s'.metadata.threads.length = s.metadata.threads.length) : Inv cfg s' where
  located := hloc
  nonempty := by
    rw [horder]
    exact h.nonempty
  orderFair := by
    rw [horder]
    exact h.orderFair
  handFair := by
    rw [hhand]
    exact h.handFair
  semaphore := by
    rw [hhand, hslots]
    exact h.semaphore
  taskLen := htask.trans h.taskLen
  ioLen := hio.trans h.ioLen
  metaLen := hmeta.trans h.metaLen

/-- A step of a task thread that sends no keys out. -/
theorem Inv.setRun {cfg : PoolConfig} {s : St} (h : Inv cfg s) (w : ℕ) {o : Option Run}
    (hnew : ∀ r fair slots, o = some r → r.phase ≠ .waiting fair slots) :
    Inv cfg (setRun s w o) := by
  refine h.keeps rfl rfl ?_ rfl List.length_set rfl rfl
  exact h.located.set w fun r fair slots ho hp => absurd hp (hnew r fair slots ho)

/-- A slot of a fan-out that is out has its item. -/
theorem mem_items {tag n i : ℕ} (hi : (List.replicate n Slot.out)[i]? = some .out) :
    (⟨tag, i, true⟩ : Item) ∈ items tag n := by
  have hlt : i < n := by
    by_contra hge
    rw [List.getElem?_eq_none (by simp; omega)] at hi
    cases hi
  exact List.mem_map.mpr ⟨i, List.mem_range.mpr hlt, rfl⟩

/-- The items of the dispatcher take slots. -/
theorem fair_of_mem_items {tag n : ℕ} {x : Item} (h : x ∈ items tag n) : x.fair = true := by
  obtain ⟨i, -, rfl⟩ := List.mem_map.mp h
  rfl

/-- All keys of a fair load are with the dispatcher. -/
theorem fanOut_inv {cfg : PoolConfig} {s : St} (h : Inv cfg s) {w : ℕ} {r : Run} :
    Inv cfg (fanOut cfg s w r) := by
  unfold fanOut
  split
  · split
    · exact h.setRun w fun r fair slots ho hp => by cases ho; cases hp
    · rename_i hkeys
      refine ⟨?_, fun q hq => ?_, fun q hq x hx => ?_, h.handFair, h.semaphore,
        List.length_set.trans h.taskLen, h.ioLen, h.metaLen⟩
      · have hmore : Located s.taskThreads
            (everywhere { s with order := s.order ++ [items r.tag r.keys] }) := by
          refine h.located.mono fun x hx => ?_
          rw [mem_everywhere] at hx ⊢
          refine hx.imp_right (Or.imp_right (Or.imp_left ?_))
          rintro ⟨q, hq, hxq⟩
          exact ⟨q, List.mem_append_left _ hq, hxq⟩
        refine hmore.set w fun r' fair slots ho hp i hi => ?_
        cases ho
        cases hp
        refine ⟨⟨r.tag, i, true⟩, mem_everywhere.mpr ?_, rfl, rfl⟩
        exact .inr (.inr (.inl ⟨_, List.mem_append_right _ List.mem_cons_self, mem_items hi⟩))
      · rcases List.mem_append.mp hq with hq | hq
        · exact h.nonempty q hq
        · rw [List.mem_singleton.mp hq]
          simpa [items] using hkeys
      · rcases List.mem_append.mp hq with hq | hq
        · exact h.orderFair q hq x hx
        · rw [List.mem_singleton.mp hq] at hx
          exact fair_of_mem_items hx
  · -- `pool.map` waits for no key yet
    refine h.keeps rfl rfl ?_ rfl List.length_set rfl rfl
    refine h.located.set w fun r' fair slots ho hp i hi => ?_
    cases ho
    cases hp
    simp at hi

/-- A pushed item is held, with those before it. -/
theorem Pool.mem_held_push {P : Pool} {x y : Item} (h : y ∈ P.held ∨ y = x) :
    y ∈ (P.push x).held := by
  rw [Pool.mem_held] at h ⊢
  rcases h with (h | h) | rfl
  · exact .inl (List.mem_append_left _ h)
  · exact .inr h
  · exact .inl (List.mem_append_right _ List.mem_cons_self)

/-- It has taken its slot when it comes from the dispatcher. -/
theorem Pool.slotsHeld_push (P : Pool) (x : Item) :
    (P.push x).slotsHeld = P.slotsHeld + if x.fair then 1 else 0 := by
  simp only [Pool.slotsHeld, Pool.push, List.countP_append, List.countP_singleton]
  omega

/-- The key that `pool.map` submits is on its way, and so are those before it. -/
theorem Located.send {ts : List (Option Run)} {xs ys : List Item} {w : ℕ} {r : Run}
    {slots : List Slot} (h : Located ts xs) (hw : ts[w]? = some (some r))
    (hphase : r.phase = .waiting false slots) (hsub : ∀ x ∈ xs, x ∈ ys)
    (hnew : (⟨r.tag, slots.length, false⟩ : Item) ∈ ys) :
    Located (ts.set w (some { r with phase := .waiting false (slots ++ [.out]) })) ys := by
  refine (h.mono hsub).set w fun r' fair slots' ho hp i hi => ?_
  cases ho
  cases hp
  by_cases hlt : i < slots.length
  · rw [List.getElem?_append_left hlt] at hi
    obtain ⟨x, hx, hrest⟩ := h r (List.mem_of_getElem? hw) false slots hphase i hi
    exact ⟨x, hsub x hx, hrest⟩
  · have hlen := (List.getElem?_eq_some_iff.mp hi).1
    rw [List.length_append, List.length_singleton] at hlen
    exact ⟨_, hnew, rfl, show slots.length = i by omega⟩

/-- A send puts the item of a slot into the pool. -/
theorem send_inv {cfg : PoolConfig} {s : St} (h : Inv cfg s) {w : ℕ} {r : Run} {slots : List Slot}
    (hw : s.taskThreads[w]? = some (some r)) (hphase : r.phase = .waiting false slots) :
    Inv cfg (send s w r slots) := by
  unfold send
  simp only
  split
  · refine h.keeps rfl rfl ?_ rfl List.length_set rfl rfl
    refine h.located.send hw hphase (fun x hx => ?_) ?_
    · rw [mem_everywhere] at hx ⊢
      exact hx.imp_right (Or.imp_left fun hx => Pool.mem_held_push (.inl hx))
    · exact mem_everywhere.mpr (.inr (.inl (Pool.mem_held_push (.inr rfl))))
  · -- a key of `pool.map` holds no slot
    refine h.keeps rfl rfl ?_ (congrArg (s.slots + ·) (s.io.slotsHeld_push _))
      List.length_set rfl rfl
    refine h.located.send hw hphase (fun x hx => ?_) ?_
    · rw [mem_everywhere] at hx ⊢
      exact hx.imp_left fun hx => Pool.mem_held_push (.inl hx)
    · exact mem_everywhere.mpr (.inl (Pool.mem_held_push (.inr rfl)))

/-- A key comes back from the I/O pool, after it has released its slot or
without one. -/
theorem hear_io_inv {cfg : PoolConfig} {s : St} (h : Inv cfg s) {v : ℕ} {x : Item} {b : Bool}
    {slot : Slot} (hv : s.io.threads[v]? = some (some (x, b)))
    (hfree : holdsSlot (some (x, b)) = false) (hslot : slot ≠ .out) :
    Inv cfg (hear { s with io := s.io.drop v } x slot) := by
  refine h.keeps rfl rfl ?_ ?_ (List.length_map _) List.length_set rfl
  · refine h.located.hear (fun y hy => ?_) hslot
    rw [mem_everywhere] at hy ⊢
    rcases hy with hy | hy
    · rcases Pool.held_set hv y hy with rfl | hy
      · exact .inl rfl
      · exact .inr (.inl hy)
    · exact .inr (.inr hy)
  · obtain ⟨hlt, hget⟩ := List.getElem?_eq_some_iff.mp hv
    simp only [hear, Pool.drop, Pool.slotsHeld, List.countP_set hlt, hget, hfree]
    simp [holdsSlot]

/-- A task hears of an item that the metadata pool is through with. -/
theorem hear_meta_inv {cfg : PoolConfig} {s : St} (h : Inv cfg s) {v : ℕ} {x : Item} {b : Bool}
    {slot : Slot} (hv : s.metadata.threads[v]? = some (some (x, b))) (hslot : slot ≠ .out) :
    Inv cfg (hear { s with metadata := s.metadata.drop v } x slot) := by
  refine h.keeps rfl rfl ?_ rfl (List.length_map _) rfl List.length_set
  refine h.located.hear (fun y hy => ?_) hslot
  rw [mem_everywhere] at hy ⊢
  rcases hy with hy | hy | hy
  · exact .inr (.inl hy)
  · rcases Pool.held_set hv y hy with rfl | hy
    · exact .inl rfl
    · exact .inr (.inr (.inl hy))
  · exact .inr (.inr (.inr hy))

/-- A dispatched key releases its slot. -/
theorem release_inv {cfg : PoolConfig} {s : St} (h : Inv cfg s) {v : ℕ} {x : Item}
    (hv : s.io.threads[v]? = some (some (x, false))) (hfair : x.fair = true) :
    Inv cfg { s with
      io := { s.io with threads := s.io.threads.set v (some (x, true)) }
      slots := s.slots + 1 } := by
  obtain ⟨hlt, hget⟩ := List.getElem?_eq_some_iff.mp hv
  refine h.keeps rfl rfl ?_ ?_ rfl List.length_set rfl
  · refine h.located.mono fun y hy => ?_
    rw [mem_everywhere] at hy ⊢
    refine hy.imp_left fun hy => ?_
    rcases Pool.held_set (o := some (x, true)) hv y hy with rfl | hy
    · exact Pool.mem_held.mpr (.inr ⟨true, List.mem_set hlt _⟩)
    · exact hy
  · have hpos : 0 < s.io.threads.countP holdsSlot :=
      List.countP_pos_iff.mpr ⟨some (x, false), hget ▸ List.getElem_mem hlt, hfair⟩
    simp only [Pool.slotsHeld, List.countP_set hlt, hget, holdsSlot, hfair, if_true,
      Bool.false_eq_true, if_false]
    omega

/-- The dispatcher takes the first item of queue `r`; an emptied queue goes. -/
theorem take_inv {cfg : PoolConfig} {s : St} (h : Inv cfg s) {r : ℕ} {x : Item} {rest : List Item}
    (hhand : s.hand = none) (hr : s.order[r]? = some (x :: rest)) (k : ℕ) :
    Inv cfg { s with
      hand := some (x, false)
      order := if rest = [] then s.order.eraseIdx r else s.order.set r rest
      rr := k } where
  located := by
    refine h.located.mono fun y hy => ?_
    rw [mem_everywhere] at hy ⊢
    refine hy.imp_right (Or.imp_right ?_)
    rintro (⟨q, hq, hyq⟩ | ⟨b, hb⟩)
    · obtain ⟨j, hj⟩ := List.mem_iff_getElem?.mp hq
      by_cases hjr : j = r
      · subst hjr
        rw [hr] at hj
        cases hj
        rcases List.mem_cons.mp hyq with rfl | hyq
        · exact .inr ⟨false, rfl⟩
        · have hne : rest ≠ [] := List.ne_nil_of_mem hyq
          obtain ⟨hlt, -⟩ := List.getElem?_eq_some_iff.mp hr
          refine .inl ⟨rest, ?_, hyq⟩
          simp only [if_neg hne]
          exact List.mem_set hlt _
      · refine .inl ⟨q, ?_, hyq⟩
        simp only
        split
        · exact List.mem_eraseIdx_iff_getElem?.mpr ⟨j, hjr, hj⟩
        · exact List.mem_of_getElem? ((List.getElem?_set_ne (Ne.symm hjr)).trans hj)
    · rw [hhand] at hb
      cases hb
  nonempty q hq := by
    simp only at hq
    split at hq
    · exact h.nonempty q (List.mem_of_mem_eraseIdx hq)
    · rcases List.mem_or_eq_of_mem_set hq with hq | rfl
      · exact h.nonempty q hq
      · assumption
  orderFair q hq y hy := by
    simp only at hq
    split at hq
    · exact h.orderFair q (List.mem_of_mem_eraseIdx hq) y hy
    · rcases List.mem_or_eq_of_mem_set hq with hq | rfl
      · exact h.orderFair q hq y hy
      · exact h.orderFair _ (List.mem_of_getElem? hr) y (List.mem_cons_of_mem _ hy)
  handFair y b hb := by
    cases hb
    exact h.orderFair _ (List.mem_of_getElem? hr) x List.mem_cons_self
  semaphore := by
    have := h.semaphore
    simpa [hhand, handSlot] using this
  taskLen := h.taskLen
  ioLen := h.ioLen
  metaLen := h.metaLen

/-- A thread of the I/O pool takes an item. -/
theorem pick_io_inv {cfg : PoolConfig} {s : St} (h : Inv cfg s) {v : ℕ} {P : Pool}
    (hP : s.io.pick v = some P) : Inv cfg { s with io := P } := by
  refine h.keeps rfl rfl ?_ (congrArg (s.slots + ·) (Pool.slotsHeld_pick hP)) rfl ?_ rfl
  · refine h.located.mono fun x hx => ?_
    rw [mem_everywhere] at hx ⊢
    exact hx.imp_left (Pool.held_pick hP x)
  · exact Pool.length_pick hP

/-- So does one of the metadata pool. -/
theorem pick_meta_inv {cfg : PoolConfig} {s : St} (h : Inv cfg s) {v : ℕ} {P : Pool}
    (hP : s.metadata.pick v = some P) : Inv cfg { s with metadata := P } := by
  refine h.keeps rfl rfl ?_ rfl rfl rfl (Pool.length_pick hP)
  refine h.located.mono fun x hx => ?_
  rw [mem_everywhere] at hx ⊢
  exact hx.imp_right (Or.imp_left (Pool.held_pick hP x))

/-- The dispatcher's item goes to the I/O pool with its slot. -/
theorem dispatch_inv {cfg : PoolConfig} {s : St} (h : Inv cfg s) {x : Item}
    (hhand : s.hand = some (x, true)) :
    Inv cfg { s with hand := none, io := s.io.push x } where
  located := by
    refine h.located.mono fun y hy => ?_
    rw [mem_everywhere] at hy ⊢
    rcases hy with hy | hy | hy | ⟨b, hb⟩
    · exact .inl (Pool.mem_held_push (.inl hy))
    · exact .inr (.inl hy)
    · exact .inr (.inr (.inl hy))
    · rw [hhand] at hb
      cases hb
      exact .inl (Pool.mem_held_push (.inr rfl))
  nonempty := h.nonempty
  orderFair := h.orderFair
  handFair := by simp
  semaphore := by
    have hfair := h.handFair x true hhand
    have := h.semaphore
    simp only [Pool.slotsHeld_push, hhand, handSlot, hfair, if_true] at this ⊢
    omega
  taskLen := h.taskLen
  ioLen := h.ioLen
  metaLen := h.metaLen

/-- The dispatcher takes a free slot for the item in its hand. -/
theorem acquire_inv {cfg : PoolConfig} {s : St} (h : Inv cfg s) {x : Item} {k : ℕ}
    (hhand : s.hand = some (x, false)) (hslots : s.slots = k + 1) :
    Inv cfg { s with hand := some (x, true), slots := k } where
  located := by
    refine h.located.mono fun y hy => ?_
    rw [mem_everywhere] at hy ⊢
    refine hy.imp_right (Or.imp_right (Or.imp_right ?_))
    rintro ⟨b, hb⟩
    rw [hhand] at hb
    cases hb
    exact ⟨true, rfl⟩
  nonempty := h.nonempty
  orderFair := h.orderFair
  handFair y b hb := by
    cases hb
    exact h.handFair x false hhand
  semaphore := by
    have := h.semaphore
    simp only [hhand, hslots, handSlot] at this ⊢
    omega
  taskLen := h.taskLen
  ioLen := h.ioLen
  metaLen := h.metaLen

/-- What one step preserves. -/
theorem step_inv {cfg : PoolConfig} {s s' : St} {a : Lbl} (h : Inv cfg s)
    (hst : step cfg s a = some s') : Inv cfg s' := by
  have hheard : ∀ raised : Bool, (if raised then Slot.raised else .back) ≠ .out := by
    intro raised
    cases raised <;> decide
  cases a with
  | submit kind n =>
      cases hst
      exact ⟨h.located, h.nonempty, h.orderFair, h.handFair, h.semaphore, h.taskLen, h.ioLen,
        h.metaLen⟩
  | taskStart w =>
      simp only [step] at hst
      split at hst
      · -- a new task waits for nothing yet
        rename_i kind n rest hidle htasks
        cases hst
        have hset := h.setRun w (o := some ⟨s.nextTag, kind, n, .start⟩)
          fun r fair slots ho hp => by cases ho; cases hp
        exact ⟨hset.located, h.nonempty, h.orderFair, h.handFair, h.semaphore, hset.taskLen,
          h.ioLen, h.metaLen⟩
      · cases hst
  | fanOut w =>
      simp only [step] at hst
      split at hst
      · split at hst <;> cases hst
        exact fanOut_inv h
      · cases hst
  | send w =>
      simp only [step] at hst
      split at hst
      · rename_i hw
        split at hst <;> cases hst
        exact send_inv h hw rfl
      · cases hst
  | collect w =>
      simp only [step] at hst
      split at hst
      · split at hst <;> cases hst
        exact h.setRun w fun r fair slots ho hp => by cases ho; cases hp
      · cases hst
  | close w =>
      simp only [step] at hst
      split at hst <;> cases hst
      exact h.setRun w fun r fair slots ho => by cases ho
  | ioStart v =>
      obtain ⟨P, hP, rfl⟩ := Option.map_eq_some_iff.mp hst
      exact pick_io_inv h hP
  | ioReturn v raised =>
      simp only [step] at hst
      split at hst
      · rename_i x hv
        split at hst
        · rename_i hfair
          cases hst
          exact release_inv h hv hfair
        · -- a key of `pool.map` has no slot to release
          rename_i hfair
          cases hst
          exact hear_io_inv h hv (by simpa [holdsSlot] using hfair) (hheard raised)
      · cases hst
  | ioCount v =>
      simp only [step] at hst
      split at hst
      · rename_i x hv
        cases hst
        exact hear_io_inv h hv rfl (by decide)
      · cases hst
  | metaStart v =>
      obtain ⟨P, hP, rfl⟩ := Option.map_eq_some_iff.mp hst
      exact pick_meta_inv h hP
  | metaReturn v raised =>
      simp only [step] at hst
      split at hst
      · rename_i x b hv
        cases hst
        exact hear_meta_inv h hv (hheard raised)
      · cases hst
  | take =>
      simp only [step] at hst
      split at hst
      · rename_i x rest hhand hr
        split at hst
        · rename_i hrest
          cases hst
          simpa [hrest] using take_inv h hhand hr (s.rr % s.order.length)
        · rename_i hrest
          cases hst
          simpa [hrest] using take_inv h hhand hr (s.rr % s.order.length + 1)
      · cases hst
  | acquire =>
      simp only [step] at hst
      split at hst
      · rename_i x k hhand hslots
        cases hst
        exact acquire_inv h hhand hslots
      · cases hst
  | dispatch =>
      simp only [step] at hst
      split at hst
      · rename_i x hhand
        cases hst
        exact dispatch_inv h hhand
      · cases hst

/-- So the invariant holds in every reachable state. -/
theorem inv_of_reachable {cfg : PoolConfig} {s : St} (h : (machine cfg).Reachable s) :
    Inv cfg s := by
  refine h.invariant (Inv cfg) ?_ fun s a s' hs _ hst => step_inv hs hst
  rintro s rfl
  exact initial_inv cfg

/-! ## Progress -/

/-- Some pool thread or the dispatcher can take a step. -/
def CanStep (cfg : PoolConfig) (s : St) : Prop :=
  ∃ a, Internal a ∧ (step cfg s a).isSome = true

/-- A key in one of the two key pools is picked up or runs. -/
theorem canStep_of_io {cfg : PoolConfig} {s : St} (h : Inv cfg s) (hne : s.io.held ≠ []) :
    CanStep cfg s := by
  -- `workers >= 1`
  have hlen : 0 < s.io.threads.length := by
    rw [h.ioLen]
    exact cfg.workers_pos
  rcases Pool.progress hlen hne with ⟨v, hv⟩ | ⟨v, x, b, hv⟩
  · exact ⟨.ioStart v, trivial, by simpa [step] using hv⟩
  · cases b with
    | true => exact ⟨.ioCount v, trivial, by simp [step, hv]⟩
    | false =>
        refine ⟨.ioReturn v false, trivial, ?_⟩
        simp only [step, hv]
        split <;> rfl

/-- The metadata pool is never stuck. -/
theorem canStep_of_meta {cfg : PoolConfig} {s : St} (h : Inv cfg s) (hne : s.metadata.held ≠ []) :
    CanStep cfg s := by
  have hlen : 0 < s.metadata.threads.length := by
    rw [h.metaLen]
    omega
  rcases Pool.progress hlen hne with ⟨v, hv⟩ | ⟨v, x, b, hv⟩
  · exact ⟨.metaStart v, trivial, by simpa [step] using hv⟩
  · exact ⟨.metaReturn v false, trivial, by simp [step, hv]⟩

/-- With no key in the I/O pool every slot is free, so the dispatcher moves. -/
theorem canStep_of_dispatcher {cfg : PoolConfig} {s : St} (h : Inv cfg s) (hio : s.io.held = [])
    (hne : s.order ≠ [] ∨ s.hand ≠ none) : CanStep cfg s := by
  cases hhand : s.hand with
  | some e =>
      rcases e with ⟨x, _ | _⟩
      · -- it waits for a slot: none is in use, so all of them are free
        have hsem := h.semaphore
        rw [Pool.slotsHeld_of_held_nil hio, hhand] at hsem
        have hpos := cfg.workers_pos
        obtain ⟨k, hk⟩ : ∃ k, s.slots = k + 1 := by
          simp only [handSlot] at hsem
          exact ⟨s.slots - 1, by omega⟩
        exact ⟨.acquire, trivial, by simp [step, hhand, hk]⟩
      · exact ⟨.dispatch, trivial, by simp [step, hhand]⟩
  | none =>
      -- it waits for an item: the queues in `_order` are never empty
      have horder : s.order ≠ [] := hne.resolve_right fun hn => hn hhand
      have hlt := Nat.mod_lt s.rr (List.length_pos_iff.mpr horder)
      have hget := List.getElem?_eq_getElem hlt
      have hq := h.nonempty _ (List.mem_of_getElem? hget)
      obtain ⟨x, rest, hx⟩ := List.exists_cons_of_ne_nil hq
      rw [hx] at hget
      refine ⟨.take, trivial, ?_⟩
      simp only [step, hhand, hget]
      split <;> rfl

/-- Without a key on its way, no task waits. -/
theorem released_of_located {s : St} {r : Run} {fair : Bool} {slots : List Slot}
    (h : Located s.taskThreads []) (hr : some r ∈ s.taskThreads)
    (hphase : r.phase = .waiting fair slots) (hsent : fair = true ∨ r.keys ≤ slots.length) :
    released r.keys fair slots = true := by
  have hall : ∀ x ∈ slots, x ≠ .out := by
    rintro x hx rfl
    obtain ⟨i, hi⟩ := List.mem_iff_getElem?.mp hx
    obtain ⟨y, hy, -⟩ := h r hr fair slots hphase i hi
    cases hy
  have hmap : mapEnds slots = true := by
    clear hphase hsent
    induction slots with
    | nil => rfl
    | cons x rest ih =>
        cases x with
        | out => exact absurd rfl (hall .out List.mem_cons_self)
        | raised => rfl
        | back => exact ih fun y hy => hall y (List.mem_cons_of_mem _ hy)
  unfold released
  split
  · exact List.all_eq_true.mpr fun x hx => decide_eq_true (hall x hx)
  · rename_i hfair
    rw [hmap, Bool.and_true]
    exact decide_eq_true (hsent.resolve_left hfair)

/-- For every number of task and I/O workers and either load schedule: in every
reachable state with an unfinished task, a pool thread or the dispatcher can
take a step. -/
theorem some_thread_steps {cfg : PoolConfig} {s : St} (hs : (machine cfg).Reachable s)
    (hun : Unfinished s) : CanStep cfg s := by
  have h := inv_of_reachable hs
  -- from the innermost waiter outwards: pool threads, dispatcher, task threads
  by_cases hio : s.io.held = []
  · by_cases hmeta : s.metadata.held = []
    · by_cases hdisp : s.order ≠ [] ∨ s.hand ≠ none
      · exact canStep_of_dispatcher h hio hdisp
      · -- no key is on its way
        push Not at hdisp
        have hnone : everywhere s = [] := by
          simp [everywhere, hio, hmeta, hdisp.1, hdisp.2]
        have hloc := hnone ▸ h.located
        by_cases hrun : ∃ r, some r ∈ s.taskThreads
        · obtain ⟨r, hr⟩ := hrun
          obtain ⟨w, hw⟩ := List.mem_iff_getElem?.mp hr
          rcases r with ⟨tag, kind, n, phase⟩
          -- a task thread: it fans out, submits, collects or closes
          cases phase with
          | start => exact ⟨.fanOut w, trivial, by simp [step, hw]⟩
          | waiting fair slots =>
              by_cases hsent : fair = true ∨ n ≤ slots.length
              · have hrel := released_of_located hloc hr rfl hsent
                exact ⟨.collect w, trivial, by simp [step, hw, hrel]⟩
              · push Not at hsent
                rcases hsent with ⟨hfair, hlt⟩
                rw [Bool.eq_false_iff.mpr hfair] at hw
                exact ⟨.send w, trivial, by simp [step, hw, hlt]⟩
          | closing => exact ⟨.close w, trivial, by simp [step, hw]⟩
        · -- every task thread is free to pick up what is queued
          have htasks := hun.resolve_right hrun
          obtain ⟨⟨kind, n⟩, rest, htasks⟩ := List.exists_cons_of_ne_nil htasks
          have hlen : 0 < s.taskThreads.length := by
            rw [h.taskLen]
            exact cfg.taskWorkers_pos
          have hidle : s.taskThreads[0]? = some none := by
            rw [List.getElem?_eq_getElem hlen]
            cases h0 : s.taskThreads[0] with
            | none => rfl
            | some r => exact absurd ⟨r, h0 ▸ List.getElem_mem hlen⟩ hrun
          exact ⟨.taskStart 0, trivial, by simp [step, hidle, htasks]⟩
    · exact canStep_of_meta h hmeta
  · exact canStep_of_io h hio

/-- Two task threads, one I/O thread. -/
def oneWorker : PoolConfig := ⟨2, 1, .fair, by decide, by decide⟩

/-- A store has the I/O thread, one key of a load has the slot and waits for
that thread, and the dispatcher waits for the slot. -/
def crowded : List Lbl :=
  [.submit .store 1, .submit .load 2, .taskStart 0, .taskStart 1, .fanOut 0, .send 0, .ioStart 0,
    .fanOut 1, .take, .acquire, .dispatch, .take]

/-- All slots taken, one item in the dispatcher's hand, and one queued for the only thread.
-/
theorem crowded_state_steps :
    ∃ s, (machine oneWorker).Reachable s ∧ s.slots = 0 ∧ s.hand = some (⟨1, 1, true⟩, false) ∧
      s.io.queue = [⟨1, 0, true⟩] ∧ Unfinished s ∧ CanStep oneWorker s := by
  have h₀ : (machine oneWorker).Reachable (initial oneWorker) := .init rfl
  obtain ⟨s, hrun⟩ : ∃ s, (machine oneWorker).run (initial oneWorker) crowded = some s := ⟨_, rfl⟩
  have hs := h₀.run hrun
  have hun : Unfinished s := by
    cases hrun
    exact .inr ⟨_, List.mem_cons_self⟩
  refine ⟨s, hs, ?_, ?_, ?_, hun, some_thread_steps hs hun⟩ <;> (cases hrun; rfl)

end LmcacheDaos.Mp.Pools
