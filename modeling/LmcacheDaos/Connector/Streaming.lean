import Mathlib.Data.List.Nodup
import Mathlib.Data.List.Perm.Basic
import LmcacheDaos.Lib.Machine

/-!
# Completion-ordered streaming

`stream_completions` (`streaming.py`), an asynchronous generator: it keeps up to
`max_inflight` calls of `fn` with the executor, waits until some are done, and
yields each with the position of its item, refilling before it yields.

A future is the number of its `run_in_executor` call. Between two awaits nothing
else runs on the loop, so what the generator does there is one step: one round of
the first loop, the wake-up of `asyncio.wait` with what is done by then, one
round of the `for`, which ends in a `yield` or in what `fut.result()` raised. The
executor completes calls, and the consumer asks for the next item, in between
anywhere. The cancellation of the generator itself is not modelled.

What a call came to is handed from the executor's future to that of `asyncio`
(`settle`), and not every `Exception` gets through: a `StopIteration` leaves the
`asyncio` future pending, and two exceptions of `concurrent.futures` are replaced
by their namesakes of `asyncio`, of which `CancelledError` is no `Exception` and
ends the generator. As long as no call raises one of the three (`Reported`):

* In every reachable state each position was yielded at most once, with what its
  own call came to, and at most `max_inflight` calls have not been taken out of
  `pending` (`Delivers`).
* The stream ends: every run is bounded, a state that has not ended can step or
  waits for a call of the executor, and when it has ended every position was
  yielded.
-/

namespace LmcacheDaos.Streaming

open Lib

variable {α β ε : Type}

/-- What a call raises, as far as `asyncio` tells exceptions apart. -/
inductive Raised (ε : Type) where
  | stopIteration
  /-- of `concurrent.futures`, an `Exception` -/
  | futuresCancelledError
  /-- of `concurrent.futures`, an `Exception` -/
  | futuresInvalidStateError
  /-- of `asyncio`, a `BaseException` only -/
  | asyncioCancelledError
  | asyncioInvalidStateError
  /-- any other `Exception` -/
  | other (e : ε)
deriving DecidableEq, Repr

/-- `asyncio.futures._convert_future_exc` -/
def convertFutureExc : Raised ε → Raised ε
  | .futuresCancelledError => .asyncioCancelledError
  | .futuresInvalidStateError => .asyncioInvalidStateError
  | e => e

/-- What the future of `asyncio` gets when the executor's has completed
(`asyncio.futures._copy_future_state`); nothing when `set_exception` refuses a
`StopIteration`. -/
def settle : Except (Raised ε) β → Option (Except (Raised ε) β)
  | .ok res => some (.ok res)
  | .error .stopIteration => none
  | .error e => some (.error (convertFutureExc e))

/-- A call with the executor: its item, and what it returned or raised. -/
structure Future (α β ε : Type) where
  item : α
  result : Option (Except (Raised ε) β)

inductive Pc where
  /-- the body has not begun -/
  | start
  /-- `max_inflight` was below 1 -/
  | raised
  /-- in the loop that fills `pending` -/
  | filling
  /-- at the head of `while pending` -/
  | loop
  /-- in `asyncio.wait` -/
  | waiting
  /-- in the `for`, with the futures still to come -/
  | draining (done : List ℕ)
  /-- suspended at the `yield` -/
  | yielded (done : List ℕ)
  | ended
  /-- `fut.result()` raised what `except Exception` does not catch -/
  | aborted
deriving DecidableEq, Repr

structure St (α β ε : Type) where
  pc : Pc
  /-- how far `it` has come -/
  next : ℕ
  exhausted : Bool
  /-- a future and the index of its item -/
  pending : List (ℕ × ℕ)
  /-- every call handed to the executor -/
  futures : List (Future α β ε)
  /-- what was yielded (not kept by the code) -/
  out : List (ℕ × Except (Raised ε) β)

inductive Lbl (β ε : Type) where
  | begin
  /-- one `submit_one` of the first loop -/
  | fill
  /-- the first loop ends -/
  | filled
  /-- the test of `while pending` -/
  | head
  /-- `asyncio.wait` returns this set, in this order -/
  | wake (done : List ℕ)
  /-- one round of the `for`, up to its `yield` -/
  | pop
  /-- the `for` ends -/
  | drained
  /-- the consumer asks for the next item -/
  | resume
  /-- the executor has completed the call -/
  | complete (fut : ℕ) (r : Except (Raised ε) β)

/-- What the `asyncio` future has got. -/
def arrived (futures : List (Future α β ε)) (fut : ℕ) : Option (Except (Raised ε) β) :=
  ((futures[fut]?).bind Future.result).bind settle

/-- The `asyncio` future is done. -/
def St.isDone (s : St α β ε) (fut : ℕ) : Bool := (arrived s.futures fut).isSome

/-- `submit_one` -/
def submitOne (items : List α) (s : St α β ε) : St α β ε :=
  match items[s.next]? with
  | none => { s with exhausted := true }
  | some item =>
      { s with
        next := s.next + 1
        pending := s.pending ++ [(s.futures.length, s.next)]
        futures := s.futures ++ [⟨item, none⟩] }

/-- The refill before a yield. -/
def refill (items : List α) (maxInflight : ℕ) (s : St α β ε) : St α β ε :=
  if s.exhausted = false ∧ s.pending.length < maxInflight then submitOne items s else s

def step (items : List α) (maxInflight : ℕ) (s : St α β ε) : Lbl β ε → Option (St α β ε)
  | .begin => match s.pc with
      | .start => some { s with pc := if maxInflight < 1 then .raised else .filling }
      | _ => none
  | .fill =>
      if s.pc = .filling ∧ s.pending.length < maxInflight ∧ s.exhausted = false then
        some (submitOne items s)
      else none
  | .filled =>
      if s.pc = .filling ∧ ¬ (s.pending.length < maxInflight ∧ s.exhausted = false) then
        some { s with pc := .loop }
      else none
  | .head =>
      if s.pc = .loop then some { s with pc := if s.pending = [] then .ended else .waiting }
      else none
  | .wake done =>
      if s.pc = .waiting ∧ done ≠ [] ∧ done.Perm ((s.pending.map Prod.fst).filter s.isDone) then
        some { s with pc := .draining done }
      else none
  | .pop => match s.pc with
      | .draining (fut :: rest) =>
          -- `pending.pop(fut)`, `fut.result()`
          match s.pending.lookup fut, arrived s.futures fut with
          | some _, some (.error .asyncioCancelledError) =>
              some { s with pc := .aborted, pending := s.pending.filter (·.1 ≠ fut) }
          | some idx, some res =>
              let s := refill items maxInflight
                { s with pending := s.pending.filter (·.1 ≠ fut) }
              some { s with pc := .yielded rest, out := s.out ++ [(idx, res)] }
          | _, _ => none
      | _ => none
  | .drained => if s.pc = .draining [] then some { s with pc := .loop } else none
  | .resume => match s.pc with
      | .yielded rest => some { s with pc := .draining rest }
      | _ => none
  | .complete fut r => match s.futures[fut]? with
      | some ⟨item, none⟩ => some { s with futures := s.futures.set fut ⟨item, some r⟩ }
      | _ => none

def initial : St α β ε := ⟨.start, 0, false, [], [], []⟩

def machine (items : List α) (maxInflight : ℕ) : Machine (St α β ε) (Lbl β ε) where
  Init s := s = initial
  step := step items maxInflight

/-! ## The law -/

/-- An `Exception` that arrives as it was raised. -/
def Raised.Reported : Raised ε → Prop
  | .other _ | .asyncioInvalidStateError => True
  | _ => False

/-- No call raises one of the others. -/
def Reported (_ : St α β ε) (a : Lbl β ε) : Prop :=
  ∀ fut e, a = .complete fut (.error e) → e.Reported

structure Delivers (items : List α) (maxInflight : ℕ) (s : St α β ε) : Prop where
  /-- no position twice -/
  once : (s.out.map Prod.fst).Nodup
  /-- a position comes with what the call made for its item has come to -/
  result : ∀ i r, (i, r) ∈ s.out →
    ∃ item, items[i]? = some item ∧ s.futures[i]? = some ⟨item, some r⟩
  /-- calls that were not taken out -/
  inflight : s.pending.length ≤ maxInflight
  /-- at the end, every position -/
  all : s.pc = .ended → (s.out.map Prod.fst).Perm (List.range items.length)

/-- The futures still to be popped in this round. -/
def Pc.rest : Pc → List ℕ
  | .draining done | .yielded done => done
  | _ => []

/-- The first loop has ended. -/
def Pc.running : Pc → Bool
  | .loop | .waiting | .draining _ | .yielded _ | .ended => true
  | .start | .raised | .filling | .aborted => false

/-- The books: what was submitted is pending or was yielded, with what its own
call came to. -/
structure Books (items : List α) (maxInflight : ℕ) (s : St α β ε) : Prop where
  next_eq : s.futures.length = s.next
  next_le : s.next ≤ items.length
  item : ∀ (i : ℕ) (fut : Future α β ε), s.futures[i]? = some fut → items[i]? = some fut.item
  /-- a future has the number of its item -/
  diag : ∀ p ∈ s.pending, p.1 = p.2
  exhausted : s.exhausted = true → s.next = items.length
  account : (s.out.map Prod.fst ++ s.pending.map Prod.fst).Perm (List.range s.next)
  results : ∀ i r, (i, r) ∈ s.out → arrived s.futures i = some r
  inflight : s.pending.length ≤ maxInflight

/-- The futures still to come in a round are done, and pending. -/
structure Round (s : St α β ε) (rest : List ℕ) : Prop where
  nodup : rest.Nodup
  pending : ∀ fut ∈ rest, fut ∈ s.pending.map Prod.fst
  isDone : ∀ fut ∈ rest, s.isDone fut = true

/-- What the tests have found. -/
def Tested (maxInflight : ℕ) (pending : List (ℕ × ℕ)) : Pc → Prop
  | .raised => maxInflight < 1
  | .waiting => pending ≠ []
  | .ended => pending = []
  | _ => True

/-- What calls have raised so far arrives as it was raised. -/
def AllReported (futures : List (Future α β ε)) : Prop :=
  ∀ fut ∈ futures, ∀ e, fut.result = some (.error e) → e.Reported

structure Inv (items : List α) (maxInflight : ℕ) (s : St α β ε) : Prop where
  books : Books items maxInflight s
  reported : AllReported s.futures
  alive : s.pc ≠ .aborted
  round : Round s s.pc.rest
  filled : s.pc.running = true → s.exhausted = true ∨ s.pending.length = maxInflight
  tested : Tested maxInflight s.pending s.pc

section Steps

variable {items : List α} {maxInflight : ℕ} {s s' : St α β ε}

/-- What has arrived is there whatever calls are added. -/
theorem arrived_append {futures : List (Future α β ε)} {i : ℕ} {r : Except (Raised ε) β}
    (h : arrived futures i = some r) (fut : Future α β ε) :
    arrived (futures ++ [fut]) i = some r := by
  have hlt : i < futures.length := by
    by_contra hge
    rw [arrived, List.getElem?_eq_none (Nat.le_of_not_lt hge)] at h
    cases h
  rwa [arrived, List.getElem?_append_left hlt]

/-- Nothing has been submitted at first. -/
theorem books_initial : Books items maxInflight (initial : St α β ε) where
  next_eq := rfl
  next_le := Nat.zero_le _
  item := by simp [initial]
  diag := by simp [initial]
  exhausted := by simp [initial]
  account := by simp [initial]
  results := by simp [initial]
  inflight := Nat.zero_le _

/-- An empty rest asks for nothing. -/
theorem round_nil (s : St α β ε) : Round s [] := ⟨List.nodup_nil, by simp, by simp⟩

/-- The invariant holds before the body begins. -/
theorem inv_initial : Inv items maxInflight (initial : St α β ε) :=
  ⟨books_initial, by simp [AllReported, initial], by simp [initial], round_nil _,
    by simp [initial, Pc.running], trivial⟩

/-- The books do not mention where the generator is. -/
theorem Books.setPc (h : Books items maxInflight s) (pc : Pc) :
    Books items maxInflight { s with pc := pc } :=
  ⟨h.next_eq, h.next_le, h.item, h.diag, h.exhausted, h.account, h.results, h.inflight⟩

/-- A submission enters one more call, or notes the end of the items. -/
theorem Books.submitOne (h : Books items maxInflight s) (hlt : s.pending.length < maxInflight) :
    Books items maxInflight (submitOne items s) := by
  unfold Streaming.submitOne
  cases hitem : items[s.next]? with
  -- the items are used up: the iterator ends
  | none =>
      have hend : items.length ≤ s.next := List.getElem?_eq_none_iff.mp hitem
      exact { h with exhausted := fun _ => Nat.le_antisymm h.next_le hend }
  -- one more future, for the next item
  | some item =>
      have hin : s.next < items.length := (List.getElem?_eq_some_iff.mp hitem).1
      refine ⟨?_, hin, ?_, ?_, ?_, ?_, ?_, ?_⟩
      · show (s.futures ++ [_]).length = s.next + 1
        rw [List.length_append, h.next_eq]
        rfl
      · -- the new future carries the next item; the others carry what they did
        intro i fut hget
        rcases Threads.getElem?_concat_cases hget with ⟨rfl, rfl⟩ | hold
        · rw [h.next_eq]
          exact hitem
        · exact h.item i fut hold
      · -- a future's number is its item's position
        intro p hp
        rcases List.mem_append.mp hp with hp | hp
        · exact h.diag p hp
        · rw [List.mem_singleton] at hp
          rw [hp, h.next_eq]
      · intro hex
        have hnext := h.exhausted hex
        omega
      · -- returned and pending positions together are those submitted so far
        show (s.out.map Prod.fst ++ (s.pending ++ [(s.futures.length, s.next)]).map Prod.fst).Perm
          (List.range (s.next + 1))
        rw [List.map_append, ← List.append_assoc, List.range_succ, h.next_eq]
        exact h.account.append_right [s.next]
      · exact fun i r hout => arrived_append (h.results i r hout) _
      · show (s.pending ++ [_]).length ≤ maxInflight
        rw [List.length_append, List.length_singleton]
        exact hlt

/-- Refilling keeps the books, whatever it submits. -/
theorem Books.refill (h : Books items maxInflight s) :
    Books items maxInflight (refill items maxInflight s) := by
  unfold Streaming.refill
  split
  · rename_i hcond
    exact h.submitOne hcond.2
  · exact h

/-- A submission yields nothing and does not move the generator. -/
theorem submitOne_frame : (submitOne items s).pc = s.pc ∧ (submitOne items s).out = s.out := by
  unfold submitOne
  split
  · exact ⟨rfl, rfl⟩
  · exact ⟨rfl, rfl⟩

/-- Calls that are done stay done. -/
theorem isDone_submitOne {fut : ℕ} (h : s.isDone fut = true) :
    (submitOne items s).isDone fut = true := by
  unfold submitOne
  split
  · exact h
  · obtain ⟨r, hr⟩ := Option.isSome_iff_exists.mp h
    exact Option.isSome_iff_exists.mpr ⟨r, arrived_append hr _⟩

/-- A submission takes nothing out of `pending`. -/
theorem mem_pending_submitOne {p : ℕ × ℕ} (h : p ∈ s.pending) :
    p ∈ (submitOne items s).pending := by
  unfold submitOne
  split
  · exact h
  · exact List.mem_append_left _ h

/-- A submission at the end of the items, or one more call. -/
theorem length_submitOne :
    (submitOne items s).exhausted = true ∨
      (submitOne items s).pending.length = s.pending.length + 1 := by
  unfold submitOne
  split
  · exact .inl rfl
  · refine .inr ?_
    rw [List.length_append, List.length_singleton]

/-- A refill does not disturb the round: new calls are not in the done set. -/
theorem Round.refill {rest : List ℕ} (h : Round s rest) :
    Round (refill items maxInflight s) rest := by
  unfold Streaming.refill
  split
  · refine ⟨h.nodup, ?_, fun fut hfut => isDone_submitOne (h.isDone fut hfut)⟩
    intro fut hfut
    rcases List.mem_map.mp (h.pending fut hfut) with ⟨p, hp, rfl⟩
    exact List.mem_map_of_mem (mem_pending_submitOne hp)
  · exact h

/-- After a refill the window is full again, or the items are exhausted. -/
theorem filled_refill
    (hone : s.exhausted = true ∨ s.pending.length + 1 = maxInflight) :
    (refill items maxInflight s).exhausted = true ∨
      (refill items maxInflight s).pending.length = maxInflight := by
  unfold refill
  split
  · rename_i hcond
    rcases @length_submitOne _ _ _ items s with hex | hlen
    · exact .inl hex
    · rcases hone with hex | hone
      · rw [hcond.1] at hex
        cases hex
      · exact .inr (hlen.trans hone)
  · rename_i hcond
    rcases hone with hex | hone
    · exact .inl hex
    · cases hx : s.exhausted with
      | true => exact .inl rfl
      | false => exact absurd ⟨hx, by omega⟩ hcond

/-- Taking a future out of `pending`. -/
theorem perm_filter_ne {pending : List (ℕ × ℕ)} (hnd : (pending.map Prod.fst).Nodup) {fut : ℕ}
    (h : fut ∈ pending.map Prod.fst) :
    (pending.map Prod.fst).Perm (fut :: (pending.filter (·.1 ≠ fut)).map Prod.fst) := by
  have herase : (pending.filter (·.1 ≠ fut)).map Prod.fst = (pending.map Prod.fst).erase fut := by
    rw [hnd.erase_eq_filter, List.filter_map]
    congr 1
    refine List.filter_congr fun p _ => ?_
    by_cases heq : p.1 = fut
    · simp [heq]
    · simp [heq]
  rw [herase]
  exact List.perm_cons_erase h

/-- The state in which a round of the `for` refills, its result already out. -/
def St.popped (s : St α β ε) (fut idx : ℕ) (res : Except (Raised ε) β) : St α β ε :=
  { s with pending := s.pending.filter (·.1 ≠ fut), out := s.out ++ [(idx, res)] }

/-- The source refills before it yields; for the state it is the same to yield first. -/
theorem refill_popped (fut idx : ℕ) (res : Except (Raised ε) β) (rest : List ℕ) :
    ({ refill items maxInflight { s with pending := s.pending.filter (·.1 ≠ fut) } with
        pc := .yielded rest
        out := (refill items maxInflight
          { s with pending := s.pending.filter (·.1 ≠ fut) }).out ++ [(idx, res)] } : St α β ε) =
      { refill items maxInflight (s.popped fut idx res) with pc := .yielded rest } := by
  unfold refill St.popped
  split
  · unfold submitOne
    simp only
    split
    · rfl
    · rfl
  · rfl

section Pop

variable {fut idx : ℕ} {rest : List ℕ} {res : Except (Raised ε) β}

/-- No future is in `pending` twice. -/
theorem nodup_pending (h : Books items maxInflight s) : (s.pending.map Prod.fst).Nodup :=
  (List.nodup_append.mp (h.account.nodup_iff.mpr List.nodup_range)).2.1

/-- A future that is popped has arrived; its position is yielded with what arrived, once. -/
theorem Books.popped (h : Books items maxInflight s) (hmem : fut ∈ s.pending.map Prod.fst)
    (hidx : s.pending.lookup fut = some idx)
    (hres : arrived s.futures fut = some res) :
    Books items maxInflight (s.popped fut idx res) ∧
      (s.popped fut idx res).pending.length + 1 = s.pending.length := by
  -- `pending` maps each future to its own position
  have heq : fut = idx := by
    rcases List.lookup_eq_some_iff.mp hidx with ⟨front, back, hpending, -⟩
    exact h.diag (fut, idx) (by rw [hpending]; simp)
  -- popping takes exactly one entry out
  have hperm := perm_filter_ne (nodup_pending h) hmem
  have hlen : (s.popped fut idx res).pending.length + 1 = s.pending.length := by
    have hlen := hperm.length_eq
    rw [List.length_cons, List.length_map, List.length_map] at hlen
    exact hlen.symm
  refine ⟨{ h with
    diag := fun p hp => h.diag p (List.mem_of_mem_filter hp)
    account := ?_
    results := ?_
    inflight := ?_ }, hlen⟩
  · -- the position goes from `pending` to the output
    show ((s.out ++ [(idx, res)]).map Prod.fst ++
      (s.pending.filter (·.1 ≠ fut)).map Prod.fst).Perm (List.range s.next)
    rw [List.map_append, List.append_assoc, ← heq]
    exact (hperm.symm.append_left _).trans h.account
  · -- the result written is the one that has arrived for that position
    intro i r hout
    rcases List.mem_append.mp hout with hold | hnew
    · exact h.results i r hold
    · rw [List.mem_singleton, Prod.mk.injEq] at hnew
      rw [hnew.1, hnew.2, ← heq]
      exact hres
  · have hinflight := h.inflight
    omega

/-- The rest of the round goes on behind the popped future. -/
theorem Round.popped (h : Round s (fut :: rest)) : Round (s.popped fut idx res) rest := by
  refine ⟨(List.nodup_cons.mp h.nodup).2, ?_, fun g hg => h.isDone g (List.mem_cons_of_mem _ hg)⟩
  intro g hg
  rcases List.mem_map.mp (h.pending g (List.mem_cons_of_mem _ hg)) with ⟨p, hp, rfl⟩
  refine List.mem_map_of_mem (List.mem_filter.mpr ⟨hp, decide_eq_true ?_⟩)
  rintro rfl
  exact (List.nodup_cons.mp h.nodup).1 hg

end Pop

/-- What has arrived stays when another call completes. -/
theorem arrived_complete {futures : List (Future α β ε)} {f : ℕ} {item : α}
    {r : Except (Raised ε) β} (hget : futures[f]? = some ⟨item, none⟩) {i : ℕ}
    {x : Except (Raised ε) β} (h : arrived futures i = some x) :
    arrived (futures.set f ⟨item, some r⟩) i = some x := by
  have hne : f ≠ i := by
    rintro rfl
    rw [arrived, hget] at h
    cases h
  rwa [arrived, List.getElem?_set_ne hne]

/-- A completed call changes nothing in the books but its own result. -/
theorem Books.complete (h : Books items maxInflight s) {f : ℕ} {item : α} {r : Except (Raised ε) β}
    (hget : s.futures[f]? = some ⟨item, none⟩) :
    Books items maxInflight { s with futures := s.futures.set f ⟨item, some r⟩ } :=
  { h with
    next_eq := by rw [List.length_set]; exact h.next_eq
    item := by
      intro i fut hi
      rcases Threads.getElem?_set_cases hi with ⟨rfl, rfl⟩ | ⟨-, hold⟩
      · have hitem := h.item _ _ hget
        exact hitem
      · exact h.item i fut hold
    results := fun i x hout => arrived_complete hget (h.results i x hout) }

/-- Completions during a round only add to what is done. -/
theorem Round.complete {rest : List ℕ} (h : Round s rest) {f : ℕ} {item : α}
    {r : Except (Raised ε) β} (hget : s.futures[f]? = some ⟨item, none⟩) :
    Round { s with futures := s.futures.set f ⟨item, some r⟩ } rest := by
  refine ⟨h.nodup, h.pending, ?_⟩
  intro fut hfut
  rcases Option.isSome_iff_exists.mp (h.isDone fut hfut) with ⟨x, hx⟩
  exact Option.isSome_iff_exists.mpr ⟨x, arrived_complete hget hx⟩

/-- An exception that gets through arrives as it was raised. -/
theorem settle_of_reported {r : Except (Raised ε) β} (h : ∀ e, r = .error e → e.Reported) :
    settle r = some r := by
  match r with
  | .ok _ => rfl
  | .error e =>
      have he := h e rfl
      cases e <;> first | rfl | exact he.elim

/-- What has arrived is what the call came to. -/
theorem arrived_of_reported {futures : List (Future α β ε)} (h : AllReported futures) (i : ℕ) :
    arrived futures i = (futures[i]?).bind Future.result := by
  unfold arrived
  cases hget : futures[i]? with
  | none => rfl
  | some fut =>
      cases hres : fut.result with
      | none => simp [hres]
      | some r =>
          have hsettle : settle r = some r :=
            settle_of_reported fun e he => h fut (List.mem_of_getElem? hget) e (he ▸ hres)
          simp [hres, hsettle]

/-- So no future gets a `CancelledError`. -/
theorem arrived_ne_cancelled {futures : List (Future α β ε)} (h : AllReported futures) (i : ℕ) :
    arrived futures i ≠ some (.error .asyncioCancelledError) := by
  rw [arrived_of_reported h]
  intro hres
  obtain ⟨fut, hget, hres⟩ := Option.bind_eq_some_iff.mp hres
  exact h fut (List.mem_of_getElem? hget) _ hres

/-- A new call has raised nothing. -/
theorem AllReported.submitOne (h : AllReported s.futures) :
    AllReported (submitOne items s).futures := by
  unfold Streaming.submitOne
  split
  · exact h
  · intro fut hfut e he
    rcases List.mem_append.mp hfut with hold | hnew
    · exact h fut hold e he
    · rw [List.mem_singleton.mp hnew] at he
      cases he

/-- Neither have several. -/
theorem AllReported.refill (h : AllReported s.futures) :
    AllReported (refill items maxInflight s).futures := by
  unfold Streaming.refill
  split
  · exact h.submitOne
  · exact h

/-- A completion adds what the call raised. -/
theorem AllReported.complete {futures : List (Future α β ε)} (h : AllReported futures) {f : ℕ}
    {item : α} {r : Except (Raised ε) β} (hr : ∀ e, r = .error e → e.Reported) :
    AllReported (futures.set f ⟨item, some r⟩) := by
  intro fut hfut e he
  rcases List.mem_or_eq_of_mem_set hfut with hold | rfl
  · exact h fut hold e he
  · exact hr e (Option.some.inj he)

/-- What one step preserves, while calls raise what gets through. -/
theorem step_inv (h : Inv items maxInflight s) {a : Lbl β ε} (hok : Reported s a)
    (hst : step items maxInflight s a = some s') : Inv items maxInflight s' := by
  have hrep := h.reported
  cases a with
  | begin =>
      simp only [step] at hst
      split at hst
      · cases hst
        split
        · exact ⟨h.books.setPc _, hrep, by simp, round_nil _, by simp [Pc.running], ‹_›⟩
        · exact ⟨h.books.setPc _, hrep, by simp, round_nil _, by simp [Pc.running], trivial⟩
      · cases hst
  | fill =>
      simp only [step] at hst
      split at hst
      · rename_i hcond
        cases hst
        have hpc : (submitOne items s).pc = .filling := submitOne_frame.1.trans hcond.1
        refine ⟨h.books.submitOne hcond.2.1, hrep.submitOne, by simp [hpc], ?_, ?_, ?_⟩
        · rw [hpc]
          exact round_nil _
        · rw [hpc]
          simp [Pc.running]
        · rw [hpc]
          trivial
      · cases hst
  | filled =>
      simp only [step] at hst
      split at hst
      · rename_i hcond
        cases hst
        refine ⟨h.books.setPc _, hrep, by simp, round_nil _, fun _ => ?_, trivial⟩
        -- the test of the first loop failed
        have hle := h.books.inflight
        cases hx : s.exhausted with
        | true => exact .inl rfl
        | false =>
            refine .inr (Nat.le_antisymm hle (Nat.le_of_not_lt fun hlt => ?_))
            exact hcond.2 ⟨hlt, hx⟩
      · cases hst
  | head =>
      simp only [step] at hst
      split at hst
      · rename_i hpc
        cases hst
        have hfilled := h.filled (by rw [hpc]; rfl)
        split
        · rename_i hempty
          exact ⟨h.books.setPc _, hrep, by simp, round_nil _, fun _ => hfilled, hempty⟩
        · rename_i hne
          exact ⟨h.books.setPc _, hrep, by simp, round_nil _, fun _ => hfilled, hne⟩
      · cases hst
  | wake done =>
      simp only [step] at hst
      split at hst
      · rename_i hcond
        cases hst
        rcases hcond with ⟨hpc, -, hperm⟩
        have hmem : ∀ fut ∈ done, fut ∈ s.pending.map Prod.fst ∧ s.isDone fut = true := by
          intro fut hfut
          exact List.mem_filter.mp (hperm.mem_iff.mp hfut)
        refine ⟨h.books.setPc _, hrep, by simp,
          ⟨?_, fun fut hf => (hmem fut hf).1, fun fut hf => (hmem fut hf).2⟩,
          fun _ => h.filled (by rw [hpc]; rfl), trivial⟩
        exact hperm.nodup_iff.mpr ((nodup_pending h.books).filter _)
      · cases hst
  | pop =>
      simp only [step] at hst
      split at hst
      · rename_i fut rest hpc
        split at hst
        · exact absurd ‹_› (arrived_ne_cancelled hrep fut)
        · rename_i idx res _ hidx hres
          have hround : Round s (fut :: rest) := by
            have hround := h.round
            rwa [hpc] at hround
          rcases h.books.popped (hround.pending fut List.mem_cons_self) hidx hres with
            ⟨hbooks, hlen⟩
          rw [Option.some.injEq, refill_popped] at hst
          rw [← hst]
          refine ⟨hbooks.refill.setPc _, hrep.refill (s := s.popped fut idx res), by simp, ?_,
            fun _ => filled_refill ?_, trivial⟩
          · have hr : Round (refill items maxInflight (s.popped fut idx res)) _ :=
              hround.popped.refill
            exact ⟨hr.nodup, hr.pending, hr.isDone⟩
          · rw [hlen]
            exact h.filled (by rw [hpc]; rfl)
        · cases hst
      · cases hst
  | drained =>
      simp only [step] at hst
      split at hst
      · rename_i hpc
        cases hst
        exact ⟨h.books.setPc _, hrep, by simp, round_nil _,
          fun _ => h.filled (by rw [hpc]; rfl), trivial⟩
      · cases hst
  | resume =>
      simp only [step] at hst
      split at hst
      · rename_i rest hpc
        cases hst
        have hround : Round s rest := by
          have hround := h.round
          rwa [hpc] at hround
        refine ⟨h.books.setPc _, hrep, by simp, ⟨hround.nodup, hround.pending, hround.isDone⟩,
          fun _ => h.filled (by rw [hpc]; rfl), trivial⟩
      · cases hst
  | complete fut r =>
      simp only [step] at hst
      split at hst
      · rename_i item hget
        cases hst
        have hnew : AllReported (s.futures.set fut ⟨item, some r⟩) :=
          hrep.complete fun e he => hok fut e (he ▸ rfl)
        exact ⟨h.books.complete hget, hnew, h.alive, h.round.complete hget, h.filled, h.tested⟩
      · cases hst

end Steps

/-! ## Runs -/

section Runs

variable {items : List α} {maxInflight : ℕ} {s s' : St α β ε}

/-- So it holds along every such run. -/
theorem inv_of_reachable (h : (machine items maxInflight).ReachableVia Reported s) :
    Inv items maxInflight s := by
  refine h.invariant (Inv items maxInflight) ?_ (fun t a t' hinv hok hst => step_inv hinv hok hst)
  rintro _ rfl
  exact inv_initial

/-- What the invariant says about the yields. -/
theorem Inv.delivers (h : Inv items maxInflight s) (hmax : 1 ≤ maxInflight) :
    Delivers items maxInflight s where
  once := (List.nodup_append.mp (h.books.account.nodup_iff.mpr List.nodup_range)).1
  result := by
    intro i r hout
    have hres := h.books.results i r hout
    rw [arrived_of_reported h.reported] at hres
    rcases Option.bind_eq_some_iff.mp hres with ⟨⟨item, result⟩, hget, hr⟩
    have hr : result = some r := hr
    subst hr
    exact ⟨item, h.books.item i _ hget, hget⟩
  inflight := h.books.inflight
  all := by
    intro hpc
    have hempty : s.pending = [] := by
      have htested := h.tested
      rwa [hpc] at htested
    have hperm := h.books.account
    rw [hempty, List.map_nil, List.append_nil] at hperm
    -- an empty window that is not full: nothing is left to submit
    rcases h.filled (by rw [hpc]; rfl) with hex | hfull
    · rwa [h.books.exhausted hex] at hperm
    · rw [hempty, List.length_nil] at hfull
      omega

/-- A pending future is a call with the executor. -/
theorem exists_future (h : Books items maxInflight s) {fut : ℕ}
    (hmem : fut ∈ s.pending.map Prod.fst) : ∃ f, s.futures[fut]? = some f := by
  have hlt := List.mem_range.mp (h.account.mem_iff.mp (List.mem_append_right _ hmem))
  rw [← h.next_eq] at hlt
  exact ⟨_, List.getElem?_eq_getElem hlt⟩

/-- The generator or its consumer can go on, or a call runs. -/
theorem progress (h : Inv items maxInflight s) (hmax : 1 ≤ maxInflight) (hend : s.pc ≠ .ended) :
    (∃ a, (step items maxInflight s a).isSome) ∨
      ∃ (i : ℕ) (f : Future α β ε), s.futures[i]? = some f ∧ f.result = none := by
  have htested := h.tested
  have hround := h.round
  cases hpc : s.pc with
  | start => exact .inl ⟨.begin, by simp [step, hpc]⟩
  | raised =>
      rw [hpc] at htested
      exact absurd hmax (Nat.not_le_of_lt htested)
  | filling =>
      by_cases hcond : s.pending.length < maxInflight ∧ s.exhausted = false
      · exact .inl ⟨.fill, by simp [step, hpc, hcond]⟩
      · refine .inl ⟨.filled, ?_⟩
        simp only [step, hpc]
        rw [if_pos ⟨trivial, hcond⟩]
        rfl
  | loop => exact .inl ⟨.head, by simp [step, hpc]⟩
  | waiting =>
      by_cases hdone : (s.pending.map Prod.fst).filter s.isDone = []
      · -- the calls that are waited for all run
        rw [hpc] at htested
        rcases List.exists_mem_of_ne_nil _ htested with ⟨p, hp⟩
        have hmem : p.1 ∈ s.pending.map Prod.fst := List.mem_map_of_mem hp
        have hnot := List.filter_eq_nil_iff.mp hdone p.1 hmem
        rcases exists_future h.books hmem with ⟨f, hf⟩
        refine .inr ⟨p.1, f, hf, ?_⟩
        simpa [St.isDone, arrived_of_reported h.reported, hf] using hnot
      · refine .inl ⟨.wake ((s.pending.map Prod.fst).filter s.isDone), ?_⟩
        simp only [step, hpc]
        rw [if_pos ⟨trivial, hdone, .refl _⟩]
        rfl
  | draining done =>
      cases done with
      | nil => exact .inl ⟨.drained, by simp [step, hpc]⟩
      | cons fut rest =>
          rw [hpc] at hround
          rcases List.mem_map.mp (hround.pending fut List.mem_cons_self) with ⟨⟨g, idx⟩, hp, rfl⟩
          rcases Option.isSome_iff_exists.mp (hround.isDone g List.mem_cons_self) with ⟨res, hres⟩
          have hlookup : (s.pending.lookup g).isSome := by
            rw [List.lookup_isSome_iff]
            exact ⟨(g, idx), hp, by simp⟩
          rcases Option.isSome_iff_exists.mp hlookup with ⟨idx', hidx⟩
          have hne : res ≠ .error .asyncioCancelledError := by
            rintro rfl
            exact arrived_ne_cancelled h.reported g hres
          refine .inl ⟨.pop, ?_⟩
          simp only [step, hpc, hidx, hres]
          rfl
  | yielded done => exact .inl ⟨.resume, by simp [step, hpc]⟩
  | ended => exact absurd hpc hend
  | aborted => exact absurd hpc h.alive

/-! ## The end of a run -/

/-- Steps that the generator can still take before its next yield. -/
def weight : Pc → ℕ
  | .start => 9
  | .filling => 8
  | .yielded _ => 7
  | .draining [] => 5
  | .loop => 4
  | .waiting => 3
  | .draining _ => 2
  | .raised | .ended | .aborted => 0

/-- What `submit_one` has left to do. -/
def unsubmitted (items : List α) (s : St α β ε) : ℕ :=
  (items.length - s.next) + if s.exhausted = true then 0 else 1

def completed (s : St α β ε) : ℕ := s.futures.countP fun f => f.result.isSome

def remaining (items : List α) (s : St α β ε) : ℕ :=
  6 * (items.length - s.out.length) + weight s.pc + (items.length - completed s) +
    unsubmitted items s

/-- A submission makes progress: it takes an item or finds that there is none. -/
theorem unsubmitted_submitOne (h : s.exhausted = false) :
    unsubmitted items (submitOne items s) < unsubmitted items s := by
  unfold unsubmitted submitOne
  cases hitem : items[s.next]? with
  | none => simp [h]
  | some item =>
      have hlt := (List.getElem?_eq_some_iff.mp hitem).1
      simp only [h]
      omega

/-- It completes no call. -/
theorem completed_submitOne : completed (submitOne items s) = completed s := by
  unfold completed submitOne
  split
  · rfl
  · simp

/-- A refill hands out nothing and completes nothing. -/
theorem refill_frame (items : List α) (maxInflight : ℕ) (s : St α β ε) :
    (refill items maxInflight s).out = s.out ∧
      completed (refill items maxInflight s) = completed s ∧
      unsubmitted items (refill items maxInflight s) ≤ unsubmitted items s := by
  unfold refill
  split
  · rename_i hcond
    exact ⟨submitOne_frame.2, completed_submitOne, Nat.le_of_lt (unsubmitted_submitOne hcond.1)⟩
  · exact ⟨rfl, rfl, Nat.le_refl _⟩

/-- Setting one entry right adds one to the count. -/
theorem countP_set_of_neg {p : α → Bool} {l : List α} {i : ℕ} {a b : α} (h : l[i]? = some a)
    (ha : p a = false) (hb : p b = true) : (l.set i b).countP p = l.countP p + 1 := by
  rcases List.getElem?_eq_some_iff.mp h with ⟨hi, rfl⟩
  rw [List.countP_set hi, ha, hb]
  simp

/-- What has been submitted was yielded or is pending. -/
theorem length_out (h : Books items maxInflight s) :
    s.out.length + s.pending.length = s.next := by
  have hlen := h.account.length_eq
  simpa using hlen

/-- No more calls complete than there are items. -/
theorem completed_le (h : Books items maxInflight s) : completed s ≤ items.length := by
  have hcount := List.countP_le_length (p := fun f : Future α β ε => f.result.isSome)
    (l := s.futures)
  have hnext := h.next_eq
  have hle := h.next_le
  unfold completed
  omega

/-- Every step brings the end closer. -/
theorem remaining_lt (h : Inv items maxInflight s) {a : Lbl β ε}
    (hst : step items maxInflight s a = some s') : remaining items s' < remaining items s := by
  cases a with
  -- the loop begins; the filling steps weigh less
  | begin =>
      simp only [step] at hst
      split at hst
      · rename_i hpc
        cases hst
        unfold remaining
        rw [hpc]
        split <;> simp [weight, unsubmitted, completed]
      · cases hst
  -- an item is submitted: unsubmitted falls, the rest is as it was
  | fill =>
      simp only [step] at hst
      split at hst
      · rename_i hcond
        cases hst
        have hun : unsubmitted items (submitOne items s) < unsubmitted items s :=
          unsubmitted_submitOne hcond.2.2
        unfold remaining
        rw [submitOne_frame.1, submitOne_frame.2, completed_submitOne]
        omega
      · cases hst
  | filled =>
      simp only [step] at hst
      split at hst
      · rename_i hcond
        cases hst
        simp [remaining, hcond.1, weight, unsubmitted, completed]
      · cases hst
  | head =>
      simp only [step] at hst
      split at hst
      · rename_i hpc
        cases hst
        unfold remaining
        rw [hpc]
        split <;> simp [weight, unsubmitted, completed]
      · cases hst
  -- at least one future has completed, so the woken round has something to pop
  | wake done =>
      simp only [step] at hst
      split at hst
      · rename_i hcond
        cases hst
        rcases List.exists_cons_of_ne_nil hcond.2.1 with ⟨fut, rest, rfl⟩
        simp [remaining, hcond.1, weight, unsubmitted, completed]
      · cases hst
  -- a completed future is taken out: one result more, which outweighs the refill
  | pop =>
      simp only [step] at hst
      split at hst
      · rename_i fut rest hpc
        split at hst
        · -- no future is cancelled in such runs
          exact absurd ‹_› (arrived_ne_cancelled h.reported fut)
        · rename_i idx res _ hidx hres
          have hround := h.round
          rw [hpc] at hround
          have hmem := hround.pending fut List.mem_cons_self
          have hbooks := (h.books.popped hmem hidx hres).1
          rw [Option.some.injEq, refill_popped] at hst
          have hframe := refill_frame items maxInflight (s.popped fut idx res)
          -- the refill touches neither the output nor the completions
          have hout := length_out h.books
          have hnext := h.books.next_le
          have hpos : 0 < s.pending.length := by
            rw [← List.length_map Prod.fst]
            exact List.length_pos_of_mem hmem
          have hlen : s'.out.length = s.out.length + 1 := by
            rw [← hst]
            show (refill items maxInflight (s.popped fut idx res)).out.length = _
            rw [hframe.1]
            exact List.length_append
          have hdone : completed s' = completed s := by
            rw [← hst]
            exact hframe.2.1
          have hun : unsubmitted items s' ≤ unsubmitted items s := by
            rw [← hst]
            exact hframe.2.2
          have hweight : weight s'.pc = 7 := by
            rw [← hst]
            rfl
          unfold remaining
          rw [hlen, hdone, hweight, hpc]
          show _ < 6 * (items.length - s.out.length) + 2 + _ + _
          omega
        · cases hst
      · cases hst
  | drained =>
      simp only [step] at hst
      split at hst
      · rename_i hpc
        cases hst
        simp [remaining, hpc, weight, unsubmitted, completed]
      · cases hst
  | resume =>
      simp only [step] at hst
      split at hst
      · rename_i rest hpc
        cases hst
        cases rest <;> simp [remaining, hpc, weight, unsubmitted, completed]
      · cases hst
  -- a thread completes a future; the coroutine has not moved
  | complete fut r =>
      simp only [step] at hst
      split at hst
      · rename_i item hget
        cases hst
        have hle := completed_le (h.books.complete (r := r) hget)
        have hone : completed { s with futures := s.futures.set fut ⟨item, some r⟩ } =
            completed s + 1 := countP_set_of_neg hget rfl rfl
        rw [hone] at hle
        have hun : unsubmitted items { s with futures := s.futures.set fut ⟨item, some r⟩ } =
          unsubmitted items s := rfl
        unfold remaining
        rw [hone, hun]
        show 6 * (items.length - s.out.length) + weight s.pc + _ + _ < _
        omega
      · cases hst

/-- What is left bounds the rest of the run. -/
theorem length_run_le {as : List (Lbl β ε)} (h : Inv items maxInflight s)
    (hok : (machine items maxInflight).Along Reported s as)
    (hrun : (machine items maxInflight).run s as = some s') :
    as.length + remaining items s' ≤ remaining items s := by
  induction as generalizing s with
  | nil =>
      cases hrun
      exact Nat.le_of_eq (Nat.zero_add _)
  | cons a as ih =>
      rcases Option.bind_eq_some_iff.mp hrun with ⟨t, hst, hrest⟩
      have hlt := remaining_lt h hst
      have hle := ih (step_inv h hok.1 hst) (hok.2 t hst) hrest
      rw [List.length_cons]
      omega

end Runs

/-- What `stream_get` makes of a result: an exception is a miss. -/
def missOnError (p : ℕ × Except (Raised ε) (Option β)) : ℕ × Option β :=
  (p.1, match p.2 with
    | .error _ => none
    | .ok res => res)

/-- A `stream_get` that has ended has one entry for each key. -/
theorem stream_get_total (paths : List α) {maxInflight : ℕ} (hmax : 1 ≤ maxInflight)
    {s : St α (Option β) ε} (hs : (machine paths maxInflight).ReachableVia Reported s)
    (hend : s.pc = .ended) :
    ((s.out.map missOnError).map Prod.fst).Perm (List.range paths.length) := by
  rw [List.map_map]
  exact ((inv_of_reachable hs).delivers hmax).all hend

/-- Two items with a window of one: the second is submitted before the first is
yielded. -/
def twoItems : List (Lbl ℕ ℕ) :=
  [.begin, .fill, .filled, .head, .complete 0 (.ok 7), .wake [0], .pop,
    .complete 1 (.error (.other 3)), .resume, .drained, .head, .wake [1], .pop, .resume, .drained,
    .head]

/-- One item, whose call raises `StopIteration`. -/
def stopIteration : List (Lbl ℕ ℕ) :=
  [.begin, .fill, .filled, .head, .complete 0 (.error .stopIteration)]

end LmcacheDaos.Streaming
