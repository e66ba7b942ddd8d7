import Mathlib.Data.List.Enum
import Mathlib.Data.List.Nodup
import Mathlib.Data.List.Perm.Lattice
import Mathlib.Tactic.Common
import LmcacheDaos.Lib.Machine
import LmcacheDaos.Mp.FairQueues

/-!
# The fair dispatcher

`_FairDispatcher` (`mp/l2_adapter.py`) with everything that runs at the same
time: any number of callers in `run`, the dispatcher thread in `_loop`, the
threads of the I/O pool in `_one`, and a caller of `close`. `DaosL2Adapter.close`
calls it while callers may still wait, and then joins the threads they are on.

Critical sections of `_cv` are single steps, and so is what a caller of `run`
does before it waits. A thread in `_cv.wait` goes on only after a notification.
`fn` returns or raises; which of the two, and what, is up to the step.

The invariant has four parts: every item is in one place (`Ledger`), a slot is
free or with an item (`Gate`), a call counts the items that are still to come
(`Counted`), and what was executed is in its place of the results (`Recorded`).
-/

namespace LmcacheDaos.Mp.Dispatcher

open Lib

variable {ι β : Type}

/-- What a call of `fn` comes to. -/
inductive Outcome (β : Type) where
  | returned (v : β)
  /-- it raises an `Exception` -/
  | raised
  /-- it raises a `BaseException` that is no `Exception` -/
  | exited
deriving DecidableEq, Repr

/-- An entry of `state["results"]`. -/
inductive Cell (β : Type) where
  | none
  | value (v : β)
  | false
deriving DecidableEq, Repr

/-- What `_one` stores. -/
def Outcome.cell : Outcome β → Cell β
  | .returned v => .value v
  | .raised => .false
  | .exited => .none

/-- `(idx, item, fn, state)`: `fn` and `state` are those of the call. -/
structure Item (ι : Type) where
  idx : ℕ
  item : ι
  call : ℕ
deriving DecidableEq, Repr

/-- A `run` call and its `state`. -/
structure Call (ι β : Type) where
  items : List ι
  results : List (Cell β)
  left : ℕ
  done : Bool
  returned : Bool
deriving DecidableEq, Repr

/-- `run` of no items returns at once. -/
def newCall (items : List ι) : Call ι β where
  items := items
  results := List.replicate items.length .none
  left := items.length
  done := false
  returned := items.isEmpty

/-- What call `c` puts into its queue. -/
def entries (c : ℕ) (items : List ι) : List (Item ι) := items.zipIdx.map fun p => ⟨p.2, p.1, c⟩

/-- Where `_loop` is. -/
inductive Loop (ι : Type) where
  /-- at `while not self._stop` -/
  | testing
  /-- about to take `_cv`, or woken in it -/
  | entering
  /-- in `_cv.wait` -/
  | asleep
  /-- in `_slots.acquire`, with an item -/
  | acquiring (x : Item ι)
  /-- has a slot, before `_pool.submit` -/
  | submitting (x : Item ι)
  | exited
deriving DecidableEq, Repr

/-- `_cv.notify` -/
def Loop.notify : Loop ι → Loop ι
  | .asleep => .entering
  | l => l

/-- Where `_one` is. -/
inductive Stage where
  /-- in `fn` -/
  | running
  /-- before the release of the slot -/
  | stored
  /-- before the countdown -/
  | released
deriving DecidableEq, Repr

structure St (ι β : Type) where
  queues : FairQueues.Queues (Item ι)
  /-- the `run` calls so far -/
  calls : List (Call ι β)
  loop : Loop ι
  /-- `_slots` -/
  slots : ℕ
  /-- work items of the I/O pool that no thread has taken -/
  work : List (Item ι)
  /-- the threads of the I/O pool -/
  threads : List (Option (Item ι × Stage))
  /-- `_stop` -/
  stop : Bool
  /-- the threads of the callers are joined -/
  joined : Bool
  /-- every execution of `fn` that has ended (not kept by the code) -/
  log : List (Item ι × Outcome β)
  /-- the items counted down (not kept by the code) -/
  finished : List (Item ι)

inductive Lbl (ι β : Type) where
  /-- `run` is called -/
  | call (items : List ι)
  /-- call `c` returns -/
  | ret (c : ℕ)
  /-- `while not self._stop` -/
  | test
  /-- `_loop` under `_cv`, up to where it sleeps or gives the lock up -/
  | take
  | acquire
  | submit
  /-- thread `v` takes a work item -/
  | start (v : ℕ)
  /-- `fn` ends on thread `v` -/
  | exec (v : ℕ) (r : Outcome β)
  | release (v : ℕ)
  | count (v : ℕ)
  /-- `close` -/
  | close
  /-- `DaosL2Adapter.close` has joined the callers -/
  | join

/-- `state["results"][idx] = fn(item)`, or `False` -/
def Call.store (idx : ℕ) (r : Outcome β) (k : Call ι β) : Call ι β :=
  match r with
  | .returned v => { k with results := k.results.set idx (.value v) }
  | .raised => { k with results := k.results.set idx .false }
  | .exited => k

/-- `state["left"] -= 1`, and `done` is set at 0. -/
def Call.count (k : Call ι β) : Call ι β :=
  { k with left := k.left - 1, done := if k.left - 1 = 0 then true else k.done }

def Call.ret (k : Call ι β) : Call ι β := { k with returned := true }

def step (s : St ι β) : Lbl ι β → Option (St ι β)
  | .call items =>
      if s.joined then none
      else some { s with
        queues := FairQueues.arrive s.queues (entries s.calls.length items)
        calls := s.calls ++ [newCall items]
        loop := if items.isEmpty then s.loop else s.loop.notify }
  | .ret c => match s.calls[c]? with
      | some k =>
          if k.done = true ∧ k.returned = false then
            some { s with calls := s.calls.modify c Call.ret }
          else none
      | none => none
  | .test => match s.loop with
      | .testing => some { s with loop := if s.stop then .exited else .entering }
      | _ => none
  | .take => match s.loop with
      | .entering =>
          if s.stop then some { s with loop := .exited }
          else if s.queues.order.isEmpty then some { s with loop := .asleep }
          else (FairQueues.pick s.queues).map fun p =>
            { s with queues := p.2, loop := .acquiring p.1.2 }
      | _ => none
  | .acquire => match s.loop, s.slots with
      | .acquiring x, k + 1 => some { s with loop := .submitting x, slots := k }
      | _, _ => none
  | .submit => match s.loop with
      | .submitting x => some { s with loop := .testing, work := s.work ++ [x] }
      | _ => none
  | .start v => match s.threads[v]?, s.work with
      | some none, x :: rest => some { s with
          work := rest, threads := s.threads.set v (some (x, .running)) }
      | _, _ => none
  | .exec v r => match s.threads[v]? with
      | some (some (x, .running)) => some { s with
          calls := s.calls.modify x.call (Call.store x.idx r)
          threads := s.threads.set v (some (x, .stored))
          log := s.log ++ [(x, r)] }
      | _ => none
  | .release v => match s.threads[v]? with
      | some (some (x, .stored)) => some { s with
          threads := s.threads.set v (some (x, .released)), slots := s.slots + 1 }
      | _ => none
  | .count v => match s.threads[v]? with
      | some (some (x, .released)) => some { s with
          calls := s.calls.modify x.call Call.count
          threads := s.threads.set v none
          finished := s.finished ++ [x] }
      | _ => none
  | .close => some { s with stop := true, loop := s.loop.notify }
  | .join =>
      if s.stop = true ∧ (∀ k ∈ s.calls, k.returned = true) then some { s with joined := true }
      else none

/-- A new dispatcher, over a pool of `workers` threads. -/
def initial (slots workers : ℕ) : St ι β where
  queues := FairQueues.empty
  calls := []
  loop := .testing
  slots := slots
  work := []
  threads := List.replicate workers none
  stop := false
  joined := false
  log := []
  finished := []

def machine (ι β : Type) (slots workers : ℕ) : Machine (St ι β) (Lbl ι β) where
  Init s := s = initial slots workers
  step := step

theorem initial_init (slots workers : ℕ) :
    (machine ι β slots workers).Init (initial slots workers) := rfl

/-! ## Where the items are -/

/-- The item in the hands of `_loop`. -/
def Loop.hand : Loop ι → List (Item ι)
  | .acquiring x | .submitting x => [x]
  | _ => []

/-- ... with a slot. -/
def Loop.slotted : Loop ι → List (Item ι)
  | .submitting x => [x]
  | _ => []

/-- The item of a thread. -/
def onThread : Option (Item ι × Stage) → Option (Item ι) := Option.map Prod.fst

/-- ... in `fn`. -/
def inFn : Option (Item ι × Stage) → Option (Item ι)
  | some (x, .running) => some x
  | _ => none

/-- ... after `fn`. -/
def executed : Option (Item ι × Stage) → Option (Item ι)
  | some (x, .stored) | some (x, .released) => some x
  | _ => none

/-- ... with a slot. -/
def slotted : Option (Item ι × Stage) → Option (Item ι)
  | some (x, .running) | some (x, .stored) => some x
  | _ => none

/-- With the pool, or back from it. -/
def handed (s : St ι β) : List (Item ι) := s.work ++ s.threads.filterMap onThread ++ s.finished

/-- Not counted down yet. -/
def pending (s : St ι β) : List (Item ι) :=
  FairQueues.queued s.queues ++ s.loop.hand ++ s.work ++ s.threads.filterMap onThread

/-- The executions of `fn`, those that have not ended too. -/
def executions (s : St ι β) : List (Item ι) :=
  s.log.map Prod.fst ++ s.threads.filterMap inFn

/-- Between the acquisition of a slot and its release. -/
def holders (s : St ι β) : List (Item ι) :=
  s.loop.slotted ++ s.work ++ s.threads.filterMap slotted

/-- The items of all calls. -/
def issued (ls : List (List ι)) : List (Item ι) := ls.zipIdx.flatMap fun p => entries p.2 p.1

/-- The entries of a call are its items at their positions. -/
theorem mem_entries {c : ℕ} {items : List ι} {x : Item ι} :
    x ∈ entries c items ↔ x.call = c ∧ items[x.idx]? = some x.item := by
  simp only [entries, List.mem_map, Prod.exists]
  constructor
  · rintro ⟨item, i, hmem, rfl⟩
    exact ⟨rfl, List.mem_zipIdx_iff_getElem?.mp hmem⟩
  · rintro ⟨rfl, hget⟩
    exact ⟨x.item, x.idx, List.mem_zipIdx_iff_getElem?.mpr hget, rfl⟩

/-- An issued item is an item of one of the calls. -/
theorem mem_issued {ls : List (List ι)} {x : Item ι} :
    x ∈ issued ls ↔ ∃ items, ls[x.call]? = some items ∧ items[x.idx]? = some x.item := by
  simp only [issued, List.mem_flatMap, Prod.exists, mem_entries]
  constructor
  · rintro ⟨items, c, hmem, rfl, hget⟩
    exact ⟨items, List.mem_zipIdx_iff_getElem?.mp hmem, hget⟩
  · rintro ⟨items, hcall, hget⟩
    exact ⟨items, x.call, List.mem_zipIdx_iff_getElem?.mpr hcall, rfl, hget⟩

/-- A new call issues its own entries behind the others. -/
theorem issued_concat (ls : List (List ι)) (items : List ι) :
    issued (ls ++ [items]) = issued ls ++ entries ls.length items := by
  simp [issued, List.zipIdx_append]

/-- No entry of a call comes twice. -/
theorem nodup_entries (c : ℕ) (items : List ι) : (entries c items).Nodup := by
  refine List.Nodup.map_on ?_ (List.Nodup.of_map Prod.snd ?_)
  · rintro ⟨a, i⟩ ha ⟨b, j⟩ hb heq
    cases heq
    rfl
  · rw [List.zipIdx_map_snd]
    exact List.nodup_range'

/-- No two calls have an entry in common. -/
theorem nodup_issued (ls : List (List ι)) : (issued ls).Nodup := by
  induction ls using List.reverseRecOn with
  | nil => exact List.nodup_nil
  | append_singleton ls items ih =>
      rw [issued_concat]
      refine List.nodup_append.mpr ⟨ih, nodup_entries _ _, ?_⟩
      rintro x hx y hy rfl
      -- an item of an earlier call is not one of this call
      rcases mem_issued.mp hx with ⟨l, hl, -⟩
      have hlt := (List.getElem?_eq_some_iff.mp hl).1
      have heq := (mem_entries.mp hy).1
      omega

/-! ## The steps -/

/-- What a step can do, case by case. -/
inductive Moves (s : St ι β) : Lbl ι β → St ι β → Prop where
  | called {items : List ι} (hjoined : s.joined = false) : Moves s (.call items) { s with
      queues := FairQueues.arrive s.queues (entries s.calls.length items)
      calls := s.calls ++ [newCall items]
      loop := if items.isEmpty then s.loop else s.loop.notify }
  | returned {c : ℕ} {k : Call ι β} (hget : s.calls[c]? = some k) (hdone : k.done = true)
      (hret : k.returned = false) :
      Moves s (.ret c) { s with calls := s.calls.modify c Call.ret }
  | passed (hloop : s.loop = .testing) (hstop : s.stop = false) :
      Moves s .test { s with loop := .entering }
  | left (hloop : s.loop = .testing ∨ s.loop = .entering) (hstop : s.stop = true) {a : Lbl ι β}
      (ha : a = .test ∨ a = .take) : Moves s a { s with loop := .exited }
  | slept (hloop : s.loop = .entering) (hstop : s.stop = false) (horder : s.queues.order = []) :
      Moves s .take { s with loop := .asleep }
  | picked {t : ℕ} {x : Item ι} {q : FairQueues.Queues (Item ι)} (hloop : s.loop = .entering)
      (hstop : s.stop = false) (hpick : FairQueues.pick s.queues = some ((t, x), q)) :
      Moves s .take { s with queues := q, loop := .acquiring x }
  | acquired {x : Item ι} {k : ℕ} (hloop : s.loop = .acquiring x) (hslots : s.slots = k + 1) :
      Moves s .acquire { s with loop := .submitting x, slots := k }
  | submitted {x : Item ι} (hloop : s.loop = .submitting x) :
      Moves s .submit { s with loop := .testing, work := s.work ++ [x] }
  | started {v : ℕ} {x : Item ι} {rest : List (Item ι)} (hget : s.threads[v]? = some none)
      (hwork : s.work = x :: rest) : Moves s (.start v) { s with
        work := rest, threads := s.threads.set v (some (x, .running)) }
  | executed {v : ℕ} {x : Item ι} {r : Outcome β}
      (hget : s.threads[v]? = some (some (x, .running))) : Moves s (.exec v r) { s with
        calls := s.calls.modify x.call (Call.store x.idx r)
        threads := s.threads.set v (some (x, .stored))
        log := s.log ++ [(x, r)] }
  | released {v : ℕ} {x : Item ι} (hget : s.threads[v]? = some (some (x, .stored))) :
      Moves s (.release v) { s with
        threads := s.threads.set v (some (x, .released)), slots := s.slots + 1 }
  | counted {v : ℕ} {x : Item ι} (hget : s.threads[v]? = some (some (x, .released))) :
      Moves s (.count v) { s with
        calls := s.calls.modify x.call Call.count
        threads := s.threads.set v none
        finished := s.finished ++ [x] }
  | closed : Moves s .close { s with stop := true, loop := s.loop.notify }
  | joined (hstop : s.stop = true) (hall : ∀ k ∈ s.calls, k.returned = true) :
      Moves s .join { s with joined := true }

/-- What a step can do. -/
theorem step_moves {s s' : St ι β} {a : Lbl ι β} (hst : step s a = some s') : Moves s a s' := by
  cases a <;> simp only [step] at hst
  case call items =>
      -- a joined dispatcher takes no further call
      split at hst
      · cases hst
      · rename_i hjoined
        cases hst
        exact .called (by simpa using hjoined)
  case ret c =>
      -- `map` returns once its counter is at zero
      split at hst
      · rename_i k hget
        split at hst
        · rename_i hcond
          cases hst
          exact .returned hget hcond.1 hcond.2
        · cases hst
      · cases hst
  case test =>
      -- the loop's test: leave when stopping, else go on to take
      split at hst
      · rename_i hloop
        cases hst
        split
        · rename_i hstop
          exact .left (.inl hloop) hstop (.inl rfl)
        · rename_i hstop
          exact .passed hloop (by simpa using hstop)
      · cases hst
  case take =>
      -- stop is looked at again under the lock; then sleep on an empty order, or pick
      split at hst
      · rename_i hloop
        split at hst
        · rename_i hstop
          cases hst
          exact .left (.inr hloop) hstop (.inr rfl)
        · rename_i hstop
          split at hst
          · rename_i horder
            cases hst
            exact .slept hloop (by simpa using hstop) (by simpa using horder)
          · rcases Option.map_eq_some_iff.mp hst with ⟨⟨⟨t, x⟩, q⟩, hpick, rfl⟩
            exact .picked hloop (by simpa using hstop) hpick
      · cases hst
  case acquire =>
      -- a free slot goes to the job in hand
      split at hst
      · rename_i x k hloop hslots
        cases hst
        exact .acquired hloop hslots
      · cases hst
  case submit =>
      split at hst
      · rename_i x hloop
        cases hst
        exact .submitted hloop
      · cases hst
  -- a thread of the pool takes the first job of its queue
  case start v =>
      split at hst
      · rename_i x rest hget hwork
        cases hst
        exact .started hget hwork
      · cases hst
  -- the job has run and its result is in the call's slot
  case exec v r =>
      split at hst
      · rename_i x hget
        cases hst
        exact .executed hget
      · cases hst
  -- its slot of the semaphore is back
  case release v =>
      split at hst
      · rename_i x hget
        cases hst
        exact .released hget
      · cases hst
  case count v =>
      split at hst
      · rename_i x hget
        cases hst
        exact .counted hget
      · cases hst
  case close =>
      cases hst
      exact .closed
  case join =>
      -- `shutdown` ends when the loop has left and no thread is busy
      split at hst
      · rename_i hcond
        cases hst
        exact .joined hcond.1 hcond.2
      · cases hst

/-! ## The ledger -/

@[simp] theorem hand_notify (l : Loop ι) : l.notify.hand = l.hand := by
  cases l <;> rfl

@[simp] theorem slotted_notify (l : Loop ι) : l.notify.slotted = l.slotted := by
  cases l <;> rfl

/-- Every item is in one place. -/
structure Ledger (s : St ι β) : Prop where
  queues : FairQueues.Inv s.queues
  issued : (pending s ++ s.finished).Perm (issued (s.calls.map Call.items))
  log : (s.log.map Prod.fst).Perm (s.threads.filterMap executed ++ s.finished)

section Ledger

variable {s s' : St ι β} {a : Lbl ι β}

/-- A call adds its entries to what is pending. -/
theorem pending_called (h : FairQueues.Inv s.queues) {items : List ι}
    (hm : Moves s (.call items) s') :
    (pending s').Perm (pending s ++ entries s.calls.length items) := by
  classical
  cases hm
  case called hjoined =>
    refine List.perm_iff_count.mpr fun y => ?_
    have hhand : (if items.isEmpty then s.loop else s.loop.notify).hand = s.loop.hand := by
      split
      · rfl
      · exact hand_notify _
    simp only [pending, FairQueues.queued_arrive h, hhand, List.count_append]
    omega
  case left ha => rcases ha with ha | ha <;> cases ha

/-- A count takes one item out and counts down its call. -/
theorem pending_counted {v : ℕ} (hm : Moves s (.count v) s') :
    ∃ x, s.threads[v]? = some (some (x, .released)) ∧
      s'.finished = s.finished ++ [x] ∧ s'.calls = s.calls.modify x.call Call.count ∧
      (pending s).Perm (x :: pending s') := by
  classical
  cases hm
  case counted x hget =>
    refine ⟨x, hget, rfl, rfl, List.perm_iff_count.mpr fun y => ?_⟩
    have hset := (perm_filterMap_set onThread none hget).count_eq y
    simp only [pending, onThread, Option.map_none, Option.map_some, Option.toList_none,
      Option.toList_some, List.count_append, List.count_cons, List.count_nil] at hset ⊢
    omega
  case left ha => rcases ha with ha | ha <;> cases ha

/-- No other step takes an item in or counts one down. -/
theorem pending_other (hm : Moves s a s') (h : FairQueues.Inv s.queues)
    (hcall : ∀ items, a ≠ .call items) (hcount : ∀ v, a ≠ .count v) :
    (pending s').Perm (pending s) ∧ s'.finished = s.finished := by
  classical
  cases hm
  case called => exact absurd rfl (hcall _)
  case counted => exact absurd rfl (hcount _)
  case returned => exact ⟨.refl _, rfl⟩
  case joined => exact ⟨.refl _, rfl⟩
  case passed hloop hstop => exact ⟨by simp [pending, hloop, Loop.hand], rfl⟩
  case left hloop hstop ha =>
    refine ⟨?_, rfl⟩
    rcases hloop with hloop | hloop <;> simp [pending, hloop, Loop.hand]
  case slept hloop hstop horder => exact ⟨by simp [pending, hloop, Loop.hand], rfl⟩
  case closed => exact ⟨by simp [pending], rfl⟩
  case acquired x k hloop hslots => exact ⟨by simp [pending, hloop, Loop.hand], rfl⟩
  case picked t x q hloop hstop hpick =>
    -- from its queue into the hand
    refine ⟨List.perm_iff_count.mpr fun y => ?_, rfl⟩
    have hq := ((h.pick hpick).queued h).count_eq y
    simp only [pending, hloop, Loop.hand, List.count_append, List.count_cons,
      List.count_nil] at hq ⊢
    omega
  case submitted x hloop =>
    refine ⟨List.perm_iff_count.mpr fun y => ?_, rfl⟩
    simp only [pending, hloop, Loop.hand, List.count_append, List.count_nil]
    omega
  case started v x rest hget hwork =>
    refine ⟨List.perm_iff_count.mpr fun y => ?_, rfl⟩
    have hset := (perm_filterMap_set onThread (some (x, .running)) hget).count_eq y
    simp only [pending, hwork, onThread, Option.map_none, Option.map_some, Option.toList_none,
      Option.toList_some, List.count_append, List.count_cons, List.count_nil] at hset ⊢
    omega
  case executed v x r hget =>
    have hset := perm_filterMap_set_same (f := onThread) (b := some (x, .stored)) hget rfl
    exact ⟨hset.append_left _, rfl⟩
  case released v x hget =>
    have hset := perm_filterMap_set_same (f := onThread) (b := some (x, .released)) hget rfl
    exact ⟨hset.append_left _, rfl⟩

/-- What a change of one call leaves as it is. -/
theorem map_modify {γ : Type} {f : Call ι β → Call ι β} {g : Call ι β → γ}
    (hf : ∀ k, g (f k) = g k) (calls : List (Call ι β)) (c : ℕ) :
    (calls.modify c f).map g = calls.map g := by
  refine List.ext_getElem? fun i => ?_
  rw [List.getElem?_map, List.getElem?_map, List.getElem?_modify]
  cases calls[i]? with
  | none => rfl
  | some k =>
      by_cases hc : c = i
      · simp [hc, hf]
      · simp [hc]

/-- Recording a result leaves the items alone. -/
theorem items_store (idx : ℕ) (r : Outcome β) (k : Call ι β) :
    (k.store idx r).items = k.items := by
  cases r <;> rfl

/-- Only a new call changes what the calls are. -/
theorem items_moves (hm : Moves s a s') (hcall : ∀ items, a ≠ .call items) :
    s'.calls.map Call.items = s.calls.map Call.items := by
  cases hm
  case called => exact absurd rfl (hcall _)
  case returned => exact map_modify (f := Call.ret) (fun _ => rfl) _ _
  case executed => exact map_modify (items_store _ _) _ _
  case counted => exact map_modify (f := Call.count) (fun _ => rfl) _ _
  all_goals rfl

/-- The executions that have ended. -/
theorem log_moves (hm : Moves s a s')
    (h : (s.log.map Prod.fst).Perm (s.threads.filterMap executed ++ s.finished)) :
    (s'.log.map Prod.fst).Perm (s'.threads.filterMap executed ++ s'.finished) := by
  classical
  cases hm
  -- a job that has begun has not executed, so neither side counts it yet
  case started v x rest hget hwork =>
    have hset := perm_filterMap_set_same (f := executed) (b := some (x, .running)) hget rfl
    exact h.trans (hset.symm.append_right _)
  -- it executes: one entry in the log, one job executed and not counted
  case executed v x r hget =>
    refine List.perm_iff_count.mpr fun y => ?_
    have hset := (perm_filterMap_set executed (some (x, .stored)) hget).count_eq y
    have hold := h.count_eq y
    simp only [executed, Option.toList_none, Option.toList_some, List.map_append, List.map_cons,
      List.map_nil, List.count_append, List.count_cons, List.count_nil] at hset hold ⊢
    omega
  -- giving the slot back changes nobody's record
  case released v x hget =>
    have hset := perm_filterMap_set_same (f := executed) (b := some (x, .released)) hget rfl
    exact h.trans (hset.symm.append_right _)
  -- from the threads to the finished ones
  case counted v x hget =>
    refine List.perm_iff_count.mpr fun y => ?_
    have hset := (perm_filterMap_set executed none hget).count_eq y
    have hold := h.count_eq y
    simp only [executed, Option.toList_none, Option.toList_some, List.count_append,
      List.count_cons, List.count_nil] at hset hold ⊢
    omega
  -- the other steps touch neither the log nor what has executed
  all_goals exact h

/-- The queues keep their own invariant. -/
theorem queues_moves (hm : Moves s a s') (h : FairQueues.Inv s.queues) :
    FairQueues.Inv s'.queues := by
  cases hm
  case called items hjoined => exact h.arrive _
  case picked t x q hloop hstop hpick => exact (h.pick hpick).inv
  all_goals exact h

/-- Each issued item stays pending or finished, once. -/
theorem Ledger.moves (h : Ledger s) (hm : Moves s a s') : Ledger s' := by
  have hqueues := queues_moves hm h.queues
  have hlog := log_moves hm h.log
  refine ⟨hqueues, ?_, hlog⟩
  classical
  -- a new call issues items, `count` finishes one, the others only move items
  by_cases hcall : ∃ items, a = .call items
  · rcases hcall with ⟨items, rfl⟩
    have hperm := pending_called h.queues hm
    cases hm
    case called hjoined =>
      rw [List.map_append, List.map_singleton, issued_concat, List.length_map]
      refine List.perm_iff_count.mpr fun y => ?_
      have hold := h.issued.count_eq y
      have hnew := hperm.count_eq y
      simp only [List.count_append, newCall] at hold hnew ⊢
      omega
    case left ha => rcases ha with ha | ha <;> cases ha
  · rw [items_moves hm fun items heq => hcall ⟨items, heq⟩]
    by_cases hcount : ∃ v, a = .count v
    · rcases hcount with ⟨v, rfl⟩
      rcases pending_counted hm with ⟨x, -, hfin, -, hperm⟩
      rw [hfin]
      refine List.Perm.trans (List.perm_iff_count.mpr fun y => ?_) h.issued
      have hnew := hperm.count_eq y
      simp only [List.count_append, List.count_cons, List.count_nil] at hnew ⊢
      omega
    · rcases pending_other hm h.queues (fun items heq => hcall ⟨items, heq⟩)
        (fun v heq => hcount ⟨v, heq⟩) with ⟨hperm, hfin⟩
      rw [hfin]
      exact (hperm.append_right _).trans h.issued

end Ledger

/-! ## Slots and the loop -/

/-- A slot is free or with an item, and a thread that sleeps or has left had a
reason. -/
structure Gate (slots : ℕ) (s : St ι β) : Prop where
  slots_eq : s.slots + (holders s).length = slots
  asleep : s.loop = .asleep → s.queues.order = [] ∧ s.stop = false
  exited : s.loop = .exited → s.stop = true

section Gate

variable {slots : ℕ} {s s' : St ι β} {a : Lbl ι β}

/-- Who holds a slot: the loop, what it has handed over, and threads before the release. -/
theorem length_holders (s : St ι β) : (holders s).length =
    s.loop.slotted.length + s.work.length + (s.threads.filterMap slotted).length := by
  simp only [holders, List.length_append]

/-- After a notification the loop is not asleep. -/
theorem notify_ne_asleep (l : Loop ι) : l.notify ≠ .asleep := by
  cases l <;> simp [Loop.notify]

/-- A notification does not bring a loop back that has returned. -/
theorem notify_eq_exited {l : Loop ι} : l.notify = .exited ↔ l = .exited := by
  cases l <;> simp [Loop.notify]

/-- A slot is free or held, in every step. -/
theorem slots_moves (hm : Moves s a s') :
    s'.slots + (holders s').length = s.slots + (holders s).length := by
  simp only [length_holders]
  cases hm
  -- the empty call is done at once, the other one queues its jobs; no slot moves
  case called =>
    simp only
    split <;> simp
  case passed hloop hstop => simp [hloop, Loop.slotted]
  case left hloop hstop ha => rcases hloop with hloop | hloop <;> simp [hloop, Loop.slotted]
  case slept hloop hstop horder => simp [hloop, Loop.slotted]
  case picked t x q hloop hstop hpick => simp [hloop, Loop.slotted]
  -- a free slot less, and one in the dispatcher's hand
  case acquired x k hloop hslots =>
    simp only [hloop, hslots, Loop.slotted, List.length_nil, List.length_singleton]
    omega
  -- from the hand to the queue of the pool, slot and all
  case submitted x hloop =>
    simp only [hloop, Loop.slotted, List.length_append, List.length_nil, List.length_singleton]
    omega
  -- from the queue to the thread
  case started v x rest hget hwork =>
    have hset := (perm_filterMap_set slotted (some (x, .running)) hget).length_eq
    simp only [slotted, Option.toList_none, Option.toList_some, List.length_append,
      List.length_nil, List.length_singleton] at hset
    simp only [hwork, List.length_cons]
    omega
  case executed v x r hget =>
    have hset :=
      (perm_filterMap_set_same (f := slotted) (b := some (x, .stored)) hget rfl).length_eq
    simp only [hset]
  case released v x hget =>
    -- the thread gives it back
    have hset := (perm_filterMap_set slotted (some (x, .released)) hget).length_eq
    simp only [slotted, Option.toList_none, Option.toList_some, List.length_append,
      List.length_nil, List.length_singleton] at hset
    simp only
    omega
  case counted v x hget =>
    have hset := (perm_filterMap_set_same (f := slotted) (b := none) hget rfl).length_eq
    simp only [hset]
  case closed => simp
  all_goals rfl

/-- So the bound on slots is kept. -/
theorem Gate.moves (h : Gate slots s) (hm : Moves s a s') : Gate slots s' := by
  refine ⟨(slots_moves hm).trans h.slots_eq, ?_, ?_⟩
  · intro hasleep
    cases hm
    case called items hjoined =>
      cases items with
      | nil => exact h.asleep hasleep
      | cons x xs => exact absurd hasleep (notify_ne_asleep _)
    case slept hloop hstop horder => exact ⟨horder, hstop⟩
    case closed => exact absurd hasleep (notify_ne_asleep _)
    case passed | left | picked | acquired | submitted => cases hasleep
    all_goals exact h.asleep hasleep
  · intro hexited
    cases hm
    case called items hjoined =>
      cases items with
      | nil => exact h.exited hexited
      | cons x xs => exact h.exited (notify_eq_exited.mp hexited)
    case left hloop hstop ha => exact hstop
    case closed => rfl
    case passed | slept | picked | acquired | submitted => cases hexited
    all_goals exact h.exited hexited

end Gate

/-! ## The countdowns -/

/-- A call has as many items to come as it counts. -/
structure Counted (s : St ι β) (c : ℕ) (k : Call ι β) : Prop where
  left : k.left = (pending s).countP (·.call = c)
  done : k.done = true ↔ k.left = 0 ∧ k.items ≠ []
  returned : k.returned = true → k.done = true ∨ k.items = []
  nil : k.items = [] → k.returned = true

section Counted

variable {s s' : St ι β} {a : Lbl ι β}

/-- The same for the calls of a state. -/
theorem mem_issued_calls {calls : List (Call ι β)} {x : Item ι} :
    x ∈ issued (calls.map Call.items) ↔
      ∃ k, calls[x.call]? = some k ∧ k.items[x.idx]? = some x.item := by
  rw [mem_issued]
  constructor
  · rintro ⟨items, hget, hitem⟩
    rw [List.getElem?_map] at hget
    rcases Option.map_eq_some_iff.mp hget with ⟨k, hk, rfl⟩
    exact ⟨k, hk, hitem⟩
  · rintro ⟨k, hk, hitem⟩
    exact ⟨k.items, by rw [List.getElem?_map, hk]; rfl, hitem⟩

/-- An item that is not counted down is one of its call. -/
theorem Ledger.item (h : Ledger s) {x : Item ι} (hx : x ∈ pending s) :
    ∃ k, s.calls[x.call]? = some k ∧ k.items[x.idx]? = some x.item :=
  mem_issued_calls.mp (h.issued.mem_iff.mp (List.mem_append_left _ hx))

/-- How many entries of a call belong to a given one. -/
theorem countP_entries (c d : ℕ) (items : List ι) :
    (entries d items).countP (·.call = c) = if d = c then items.length else 0 := by
  split
  · rename_i heq
    rw [List.countP_eq_length.mpr]
    · simp [entries]
    · intro x hx
      simpa using (mem_entries.mp hx).1.trans heq
  · rename_i hne
    rw [List.countP_eq_zero]
    intro x hx
    simpa using fun heq => hne ((mem_entries.mp hx).1.symm.trans heq)

/-- A new call waits for exactly its own items. -/
theorem counted_called (h : Ledger s) (hc : ∀ c k, s.calls[c]? = some k → Counted s c k)
    {items : List ι} (hm : Moves s (.call items) s') :
    ∀ c k, s'.calls[c]? = some k → Counted s' c k := by
  have hperm := pending_called h.queues hm
  intro c k hk
  have hcalls : s'.calls = s.calls ++ [newCall items] := by
    cases hm
    case called => rfl
    case left ha => rcases ha with ha | ha <;> cases ha
  have hcount := hperm.countP_eq (·.call = c)
  rw [List.countP_append, countP_entries] at hcount
  rw [hcalls] at hk
  rcases Threads.getElem?_concat_cases hk with ⟨rfl, rfl⟩ | hk
  · -- the new call: none of its items was there before
    have hzero : (pending s).countP (·.call = s.calls.length) = 0 := by
      rw [List.countP_eq_zero]
      intro x hx
      rcases h.item hx with ⟨k, hk, -⟩
      have hlt := (List.getElem?_eq_some_iff.mp hk).1
      simp only [decide_eq_true_eq]
      omega
    rw [hzero, if_pos rfl, Nat.zero_add] at hcount
    refine ⟨hcount.symm, ?_, ?_, ?_⟩
    · cases items <;> simp [newCall]
    · cases items <;> simp [newCall]
    · rintro rfl
      rfl
  · have hlt := (List.getElem?_eq_some_iff.mp hk).1
    rw [if_neg (by omega), Nat.add_zero] at hcount
    have hold := hc c k hk
    exact ⟨hold.left.trans hcount.symm, hold.done, hold.returned, hold.nil⟩

/-- A count takes one off the call of the item, -/
theorem counted_counted (h : Ledger s) (hc : ∀ c k, s.calls[c]? = some k → Counted s c k) {v : ℕ}
    (hm : Moves s (.count v) s') : ∀ c k, s'.calls[c]? = some k → Counted s' c k := by
  rcases pending_counted hm with ⟨x, -, -, hcalls, hperm⟩
  intro c k hk
  have hcount := hperm.countP_eq (·.call = c)
  rw [List.countP_cons] at hcount
  rw [hcalls, List.getElem?_modify] at hk
  rcases Option.map_eq_some_iff.mp hk with ⟨k₀, hget, hk⟩
  have hold := hc c k₀ hget
  have hleft := hold.left
  by_cases hcall : x.call = c
  · -- one less, and the last one sets the event
    simp only [hcall, decide_true, if_true] at hk hcount
    rw [← hk]
    refine ⟨?_, ?_, ?_, hold.nil⟩
    · simp only [Call.count]
      omega
    · have hnot : k₀.done = false := by
        by_contra hd
        have hzero := (hold.done.mp (by simpa using hd)).1
        omega
      have hne : k₀.items ≠ [] := by
        rcases h.item (hperm.mem_iff.mpr List.mem_cons_self) with ⟨k₁, hk₁, hitem⟩
        rw [hcall, hget] at hk₁
        cases hk₁
        intro hnil
        rw [hnil] at hitem
        cases hitem
      simp only [Call.count, hnot]
      split
      · rename_i hz
        exact ⟨fun _ => ⟨hz, hne⟩, fun _ => rfl⟩
      · rename_i hz
        exact ⟨fun hf => absurd hf (by decide), fun hcond => absurd hcond.1 hz⟩
    · intro hret
      rcases hold.returned hret with hd | hnil
      · left
        simp only [Call.count, hd]
        split <;> rfl
      · exact .inr hnil
  · rw [if_neg (by simpa using hcall)] at hcount
    rw [if_neg hcall] at hk
    have hk : k₀ = k := hk
    rw [← hk]
    exact ⟨by omega, hold.done, hold.returned, hold.nil⟩

/-- No other step changes how many items a call waits for. -/
theorem counted_other (hl : Ledger s) (hc : ∀ c k, s.calls[c]? = some k → Counted s c k)
    (hm : Moves s a s') (hcall : ∀ items, a ≠ .call items) (hcount : ∀ v, a ≠ .count v) :
    ∀ c k, s'.calls[c]? = some k → Counted s' c k := by
  have hperm := (pending_other hm hl.queues hcall hcount).1
  intro c k hk
  have hleft := hperm.countP_eq (·.call = c)
  -- what of a call the step may have changed
  have hsame : ∃ k₀, s.calls[c]? = some k₀ ∧ k.left = k₀.left ∧ k.done = k₀.done ∧
      k.items = k₀.items ∧ (k.returned = true → k₀.returned = true ∨ k₀.done = true) ∧
      (k₀.returned = true → k.returned = true) := by
    cases hm
    case called => exact absurd rfl (hcall _)
    case counted => exact absurd rfl (hcount _)
    case returned d k₀ hget hdone hret =>
      rw [List.getElem?_modify] at hk
      rcases Option.map_eq_some_iff.mp hk with ⟨k₁, hget₁, rfl⟩
      refine ⟨k₁, hget₁, ?_⟩
      by_cases hd : d = c
      · rw [← hd, hget] at hget₁
        cases hget₁
        simp [hd, Call.ret, hdone]
      · simp only [hd, if_false, true_and]
        exact ⟨.inl, id⟩
    case executed v x r hget =>
      rw [List.getElem?_modify] at hk
      rcases Option.map_eq_some_iff.mp hk with ⟨k₁, hget₁, rfl⟩
      refine ⟨k₁, hget₁, ?_⟩
      by_cases hd : x.call = c
      · simp only [hd, if_true]
        cases r <;> exact ⟨rfl, rfl, rfl, .inl, id⟩
      · simp only [hd, if_false, true_and]
        exact ⟨.inl, id⟩
    all_goals exact ⟨k, hk, rfl, rfl, rfl, .inl, id⟩
  rcases hsame with ⟨k₀, hget, hl, hd, hi, hr, hr'⟩
  have hold := hc c k₀ hget
  refine ⟨?_, ?_, fun hret => ?_, fun hnil => hr' (hold.nil (hi ▸ hnil))⟩
  · rw [hl, hold.left, hleft]
  · rw [hd, hl, hi]
    exact hold.done
  · rw [hd, hi]
    rcases hr hret with hr | hr
    · exact hold.returned hr
    · exact .inl hr

end Counted

/-! ## The results -/

/-- What was stored for an execution is in its place. -/
structure Recorded (calls : List (Call ι β)) (log : List (Item ι × Outcome β)) : Prop where
  length : ∀ (c : ℕ) (k : Call ι β), calls[c]? = some k → k.results.length = k.items.length
  fresh : ∀ (c : ℕ) (k : Call ι β) i, calls[c]? = some k → i < k.items.length →
    (∀ x r, (x, r) ∈ log → x.call = c → x.idx ≠ i) → k.results[i]? = some .none
  stored : ∀ x r (k : Call ι β), (x, r) ∈ log → calls[x.call]? = some k →
    k.results[x.idx]? = some r.cell

section Recorded

variable {s s' : St ι β} {a : Lbl ι β}

/-- A thread is in `fn` or after it. -/
theorem perm_onThread (ts : List (Option (Item ι × Stage))) :
    (ts.filterMap onThread).Perm (ts.filterMap executed ++ ts.filterMap inFn) := by
  induction ts with
  | nil => exact .refl _
  | cons o ts ih =>
      rw [filterMap_cons_eq, filterMap_cons_eq, filterMap_cons_eq]
      rcases o with _ | ⟨x, _ | _ | _⟩
      · exact ih
      · exact (ih.cons x).trans List.perm_middle.symm
      · exact ih.cons x
      · exact ih.cons x

/-- No item is executed twice. -/
theorem Ledger.once (h : Ledger s) : (executions s).Nodup := by
  classical
  have hall : (pending s ++ s.finished).Nodup := h.issued.nodup_iff.mpr (nodup_issued _)
  have hperm : (executions s).Perm (s.threads.filterMap onThread ++ s.finished) := by
    refine List.perm_iff_count.mpr fun y => ?_
    have hlog := h.log.count_eq y
    have hsplit := (perm_onThread s.threads).count_eq y
    simp only [executions, List.count_append] at hlog hsplit ⊢
    omega
  refine hperm.nodup_iff.mpr (hall.sublist ?_)
  exact (List.sublist_append_right _ _).append_right _

/-- What runs has not been executed. -/
theorem Ledger.not_logged (h : Ledger s) {v : ℕ} {x : Item ι}
    (hget : s.threads[v]? = some (some (x, .running))) : x ∉ s.log.map Prod.fst := by
  intro hmem
  have hin : x ∈ s.threads.filterMap inFn :=
    List.mem_filterMap.mpr ⟨_, List.mem_of_getElem? hget, rfl⟩
  exact (List.nodup_append.mp h.once).2.2 x hmem x hin rfl

/-- An item on a thread belongs to a call. -/
theorem Ledger.on_thread (h : Ledger s) {v : ℕ} {x : Item ι} {stage : Stage}
    (hget : s.threads[v]? = some (some (x, stage))) :
    ∃ k, s.calls[x.call]? = some k ∧ k.items[x.idx]? = some x.item := by
  refine h.item (List.mem_append_right _ ?_)
  exact List.mem_filterMap.mpr ⟨_, List.mem_of_getElem? hget, rfl⟩

/-- So does an item that was executed. -/
theorem Ledger.logged (h : Ledger s) {x : Item ι} (hx : x ∈ s.log.map Prod.fst) :
    ∃ k, s.calls[x.call]? = some k ∧ k.items[x.idx]? = some x.item := by
  have hmem : x ∈ pending s ++ s.finished := by
    rcases List.mem_append.mp (h.log.mem_iff.mp hx) with hx | hx
    · refine List.mem_append_left _ (List.mem_append_right _ ?_)
      exact (perm_onThread _).mem_iff.mpr (List.mem_append_left _ hx)
    · exact List.mem_append_right _ hx
  exact mem_issued_calls.mp (h.issued.mem_iff.mp hmem)

/-- What was executed of the same call is another place. -/
theorem Ledger.elsewhere (h : Ledger s) {v : ℕ} {x y : Item ι}
    (hget : s.threads[v]? = some (some (x, .running))) (hy : y ∈ s.log.map Prod.fst)
    (hcall : y.call = x.call) : y.idx ≠ x.idx := by
  intro hidx
  rcases h.on_thread hget with ⟨k, hk, hitem⟩
  rcases h.logged hy with ⟨k', hk', hitem'⟩
  rw [hcall, hk] at hk'
  cases hk'
  rw [hidx, hitem] at hitem'
  have heq : y = x := by
    cases x
    cases y
    simp_all
  exact h.not_logged hget (heq ▸ hy)

/-- Recording a result does not change the number of results. -/
theorem length_store (idx : ℕ) (r : Outcome β) (k : Call ι β) :
    (k.store idx r).results.length = k.results.length := by
  cases r <;> simp [Call.store]

/-- It does not touch results at other positions. -/
theorem store_other {idx i : ℕ} (hne : idx ≠ i) (r : Outcome β) (k : Call ι β) :
    (k.store idx r).results[i]? = k.results[i]? := by
  cases r <;> simp [Call.store, hne]

/-- Storing an outcome where nothing was stored. -/
theorem store_self {idx : ℕ} (r : Outcome β) {k : Call ι β} (h : k.results[idx]? = some .none) :
    (k.store idx r).results[idx]? = some r.cell := by
  have hlt := (List.getElem?_eq_some_iff.mp h).1
  cases r with
  | returned v => simp [Call.store, hlt, Outcome.cell]
  | raised => simp [Call.store, hlt, Outcome.cell]
  | exited => exact h

/-- An execution records its own result at its own position. -/
theorem recorded_executed (hl : Ledger s) (h : Recorded s.calls s.log) {v : ℕ} {r : Outcome β}
    (hm : Moves s (.exec v r) s') : Recorded s'.calls s'.log := by
  cases hm
  case left ha => rcases ha with ha | ha <;> cases ha
  case executed x hget =>
    rcases hl.on_thread hget with ⟨k₀, hk₀, hitem⟩
    have hlt : x.idx < k₀.items.length := (List.getElem?_eq_some_iff.mp hitem).1
    -- nothing of the log is about this place
    have hfresh : k₀.results[x.idx]? = some .none := by
      refine h.fresh x.call k₀ x.idx hk₀ hlt ?_
      exact fun y r' hy => hl.elsewhere hget (List.mem_map_of_mem hy)
    refine ⟨?_, ?_, ?_⟩
    · intro c k hk
      rw [List.getElem?_modify] at hk
      rcases Option.map_eq_some_iff.mp hk with ⟨k₁, hk₁, rfl⟩
      have hlen := h.length c k₁ hk₁
      split
      · rw [length_store, items_store, hlen]
      · exact hlen
    · intro c k i hk hi hlog
      rw [List.getElem?_modify] at hk
      rcases Option.map_eq_some_iff.mp hk with ⟨k₁, hk₁, rfl⟩
      have hold : ∀ y r', (y, r') ∈ s.log → y.call = c → y.idx ≠ i :=
        fun y r' hy => hlog y r' (List.mem_append_left _ hy)
      by_cases hc : x.call = c
      · have hidx : x.idx ≠ i :=
          hlog x r (List.mem_append_right _ (List.mem_singleton_self _)) hc
        simp only [hc, if_true] at hi ⊢
        rw [items_store] at hi
        rw [store_other hidx]
        exact h.fresh c k₁ i hk₁ hi hold
      · simp only [hc, if_false] at hi ⊢
        exact h.fresh c k₁ i hk₁ hi hold
    · intro y r' k hy hk
      rw [List.getElem?_modify] at hk
      rcases Option.map_eq_some_iff.mp hk with ⟨k₁, hk₁, rfl⟩
      rcases List.mem_append.mp hy with hy | hy
      · have hold := h.stored y r' k₁ hy hk₁
        by_cases hc : x.call = y.call
        · simp only [hc, if_true]
          -- another place of this call
          have hidx := hl.elsewhere hget (List.mem_map_of_mem hy) hc.symm
          rw [store_other (Ne.symm hidx)]
          exact hold
        · simp only [hc, if_false]
          exact hold
      · cases List.mem_singleton.mp hy
        rw [hk₀] at hk₁
        cases hk₁
        simp only [if_true]
        exact store_self r hfresh

/-- A change of a call that is not one of its results. -/
theorem Recorded.modify {calls : List (Call ι β)} {log : List (Item ι × Outcome β)}
    (h : Recorded calls log) {f : Call ι β → Call ι β} (hres : ∀ k, (f k).results = k.results)
    (hitems : ∀ k, (f k).items = k.items) (c : ℕ) : Recorded (calls.modify c f) log := by
  -- every call of the new list is one of the old list, with its results and items
  have hback : ∀ (d : ℕ) (k : Call ι β), (calls.modify c f)[d]? = some k →
      ∃ k₀ : Call ι β, calls[d]? = some k₀ ∧ k.results = k₀.results ∧ k.items = k₀.items := by
    intro d k hk
    rw [List.getElem?_modify] at hk
    rcases Option.map_eq_some_iff.mp hk with ⟨k₀, hk₀, rfl⟩
    refine ⟨k₀, hk₀, ?_⟩
    split
    · exact ⟨hres k₀, hitems k₀⟩
    · exact ⟨rfl, rfl⟩
  constructor
  case length =>
    intro d k hk
    rcases hback d k hk with ⟨k₀, hk₀, hr, hi⟩
    rw [hr, hi]
    exact h.length d k₀ hk₀
  case fresh =>
    intro d k i hk hlt hnot
    rcases hback d k hk with ⟨k₀, hk₀, hr, hi⟩
    rw [hi] at hlt
    rw [hr]
    exact h.fresh d k₀ i hk₀ hlt hnot
  case stored =>
    intro x r k hx hk
    rcases hback x.call k hk with ⟨k₀, hk₀, hr, -⟩
    rw [hr]
    exact h.stored x r k₀ hx hk₀

/-- A new call has no results, and nothing of it was executed. -/
theorem Recorded.concat {calls : List (Call ι β)} {log : List (Item ι × Outcome β)}
    (h : Recorded calls log) (hlog : ∀ x r, (x, r) ∈ log → x.call < calls.length)
    (items : List ι) : Recorded (calls ++ [newCall items]) log := by
  constructor
  case length =>
    intro c k hk
    rcases Threads.getElem?_concat_cases hk with ⟨-, rfl⟩ | hk
    · exact List.length_replicate
    · exact h.length c k hk
  case fresh =>
    intro c k i hk hlt hnot
    rcases Threads.getElem?_concat_cases hk with ⟨-, rfl⟩ | hk
    · exact List.getElem?_replicate_of_lt hlt
    · exact h.fresh c k i hk hlt hnot
  case stored =>
    intro x r k hx hk
    rw [List.getElem?_append_left (hlog x r hx)] at hk
    exact h.stored x r k hx hk

/-- No step loses a recorded result. -/
theorem recorded_moves (hl : Ledger s) (h : Recorded s.calls s.log) (hm : Moves s a s') :
    Recorded s'.calls s'.log := by
  cases hm
  case executed hget => exact recorded_executed hl h (.executed hget)
  case returned => exact h.modify (f := Call.ret) (fun _ => rfl) (fun _ => rfl) _
  case counted => exact h.modify (f := Call.count) (fun _ => rfl) (fun _ => rfl) _
  case called items hjoined =>
    refine h.concat (fun x r hx => ?_) items
    rcases hl.logged (List.mem_map_of_mem (f := Prod.fst) hx) with ⟨k, hk, -⟩
    exact (List.getElem?_eq_some_iff.mp hk).1
  all_goals exact h

end Recorded

/-! ## The invariant -/

structure Inv (slots : ℕ) (s : St ι β) : Prop where
  ledger : Ledger s
  gate : Gate slots s
  counted : ∀ c k, s.calls[c]? = some k → Counted s c k
  recorded : Recorded s.calls s.log

section Runs

variable {slots workers : ℕ} {s s' : St ι β} {a : Lbl ι β}

/-- Nothing has been issued at first. -/
theorem inv_initial : Inv slots (initial slots workers : St ι β) := by
  have hthreads : ∀ f : Option (Item ι × Stage) → Option (Item ι), f none = none →
      (List.replicate workers none).filterMap f = [] := by
    intro f hf
    rw [List.filterMap_eq_nil_iff]
    intro o ho
    rw [List.eq_of_mem_replicate ho]
    exact hf
  constructor
  case ledger =>
    refine ⟨FairQueues.inv_empty, ?_, ?_⟩
    · simp [pending, initial, hthreads onThread rfl, FairQueues.queued, FairQueues.empty,
        Loop.hand, issued]
    · simp [initial, hthreads executed rfl]
  case gate =>
    refine ⟨?_, by simp [initial], by simp [initial]⟩
    simp [holders, initial, hthreads slotted rfl, Loop.slotted]
  case counted =>
    intro c k hk
    cases hk
  case recorded => constructor <;> simp [initial]

/-- The four parts, step by step. -/
theorem Inv.step (h : Inv slots s) (hst : Dispatcher.step s a = some s') : Inv slots s' := by
  have hm := step_moves hst
  refine ⟨h.ledger.moves hm, h.gate.moves hm, ?_, recorded_moves h.ledger h.recorded hm⟩
  by_cases hcall : ∃ items, a = .call items
  · rcases hcall with ⟨items, rfl⟩
    exact counted_called h.ledger h.counted hm
  · by_cases hcount : ∃ v, a = .count v
    · rcases hcount with ⟨v, rfl⟩
      exact counted_counted h.ledger h.counted hm
    · exact counted_other h.ledger h.counted hm (fun items heq => hcall ⟨items, heq⟩)
        fun v heq => hcount ⟨v, heq⟩

/-- The invariant holds in every reachable state, also with `close` and under any discipline
of steps. -/
theorem inv_of_reachable {ok : St ι β → Lbl ι β → Prop}
    (h : (machine ι β slots workers).ReachableVia ok s) : Inv slots s := by
  refine h.invariant (Inv slots) ?_ fun s a s' hinv _ hst => hinv.step hst
  rintro _ rfl
  exact inv_initial

/-! ## The queues alone -/

/-- A step of the dispatcher, as one of its queues. -/
def queueing (s : St ι β) : Lbl ι β → List (FairQueues.Lbl (Item ι))
  | .call items => [.arrive (entries s.calls.length items)]
  | .take => match s.loop with
      | .entering => if s.stop ∨ s.queues.order.isEmpty then [] else [.dispatch]
      | _ => []
  | _ => []

/-- A step of the dispatcher is one of its queues, or none. -/
theorem step_queues (s : St ι β) (a : Lbl ι β) (s' : St ι β) (hst : step s a = some s') :
    (FairQueues.machine (Item ι)).run s.queues (queueing s a) = some s'.queues := by
  cases step_moves hst
  case called items hjoined =>
    exact Machine.run_singleton.trans rfl
  case left hloop hstop ha =>
    rcases ha with rfl | rfl
    · rfl
    · rcases hloop with hloop | hloop <;> simp [queueing, hloop, hstop, Machine.run]
  case slept hloop hstop horder => simp [queueing, hloop, horder, Machine.run]
  case picked t x q hloop hstop hpick =>
    have horder : s.queues.order ≠ [] := by
      intro horder
      simp [FairQueues.pick, horder] at hpick
    have hlabel : queueing s .take = [.dispatch] := by
      simp [queueing, hloop, hstop, horder]
    rw [hlabel, Machine.run_singleton]
    exact congrArg (Option.map Prod.snd) hpick
  all_goals rfl

/-- The queues are served as they are without the threads around them. -/
theorem run_queues {as : List (Lbl ι β)}
    (hrun : (machine ι β slots workers).run (initial slots workers) as = some s) :
    (FairQueues.machine (Item ι)).run FairQueues.empty
        ((machine ι β slots workers).seen queueing (initial slots workers) as) = some s.queues ∧
      FairQueues.Alternates s.queues ∧ FairQueues.Balances s.queues := by
  have hseen := Machine.run_seen (M := machine ι β slots workers) (f := St.queues) (g := queueing)
    (fun _ _ _ h _ => h) (fun s a s' (_ : True) hst => step_queues s a s' hst) trivial hrun
  have hqueues := FairQueues.inv_empty.run hseen
  exact ⟨hseen, hqueues.alternates, hqueues.balances⟩

end Runs

end LmcacheDaos.Mp.Dispatcher
