import Mathlib.Data.List.Basic
import Mathlib.Logic.Function.Basic
import Mathlib.Tactic.Common
import LmcacheDaos.Lib.RoundRobin

/-!
# The queues of the fair dispatcher

`_FairDispatcher` (`mp/l2_adapter.py`) keeps the items of each `run` call in a
queue of its own, under a token that is never used again, and the tokens in
`_order`, in which `_rr` is a cursor: `_loop` takes the first item of the queue
under the cursor and moves on, unless the queue is exhausted and taken out, and
then the cursor is on the next one already. It is wrapped only when the next
item is taken, against the order as it is by then.

From the cursor on and around, the order is a line that is served round robin
(`line`): a new call steps in between those that the cursor has still to pass
and those it has passed.
-/

namespace LmcacheDaos.Mp.FairQueues

open Lib

variable {α : Type}

structure Queues (α : Type) where
  /-- `_queues` -/
  queues : ℕ → Option (List α)
  /-- `_order` -/
  order : List ℕ
  /-- `_rr` -/
  rr : ℕ
  /-- `_next` -/
  next : ℕ

def empty : Queues α := ⟨fun _ => none, [], 0, 0⟩

/-- `run` under `_cv` -/
def enqueue (q : Queues α) (items : List α) : Queues α where
  queues := Function.update q.queues q.next (some items)
  order := q.order ++ [q.next]
  rr := q.rr
  next := q.next + 1

@[simp] theorem enqueue_queues_next (q : Queues α) (items : List α) :
    (enqueue q items).queues q.next = some items := Function.update_self _ _ _

/-- A new caller's queue is its own. -/
theorem enqueue_queues_of_ne {q : Queues α} {t : ℕ} (h : t ≠ q.next) (items : List α) :
    (enqueue q items).queues t = q.queues t := Function.update_of_ne h _ _

/-- A `run` call arrives; one without items returns at once. -/
def arrive (q : Queues α) : List α → Queues α
  | [] => q
  | x :: xs => enqueue q (x :: xs)

/-- `_loop` under `_cv`: the token and the item taken. -/
def pick (q : Queues α) : Option ((ℕ × α) × Queues α) :=
  let rr := q.rr % q.order.length
  match q.order[rr]? with
  | none => none
  | some token => match q.queues token with
      | some [x] => some ((token, x), { q with
          queues := Function.update q.queues token none
          order := q.order.eraseIdx rr
          rr := rr })
      | some (x :: xs) => some ((token, x), { q with
          queues := Function.update q.queues token (some xs)
          rr := rr + 1 })
      -- no queue, or an empty one: `_loop` would raise
      | _ => none

inductive Lbl (α : Type) where
  | arrive (items : List α)
  | dispatch

def step (q : Queues α) : Lbl α → Option (Queues α)
  | .arrive items => some (arrive q items)
  | .dispatch => (pick q).map Prod.snd

def machine (α : Type) : Machine (Queues α) (Lbl α) where
  Init q := q = empty
  step := step

/-- The items dispatched in a run, each with the token of its call. -/
def dispatched (q : Queues α) : List (Lbl α) → List (ℕ × α)
  | [] => []
  | .arrive items :: as => dispatched (arrive q items) as
  | .dispatch :: as => match pick q with
      | some (x, q') => x :: dispatched q' as
      | none => []

/-- The calls dispatched in a run. -/
def tokens (q : Queues α) (as : List (Lbl α)) : List ℕ := (dispatched q as).map Prod.fst

/-- The call has items that were not dispatched. -/
def Pending (t : ℕ) (q : Queues α) : Prop := ∃ x xs, q.queues t = some (x :: xs)

/-! ## The invariant -/

structure Inv (q : Queues α) : Prop where
  nodup : q.order.Nodup
  lt : ∀ t ∈ q.order, t < q.next
  cursor : q.rr ≤ q.order.length
  pending : ∀ t ∈ q.order, Pending t q
  out : ∀ t, t ∉ q.order → q.queues t = none

/-- The order has exactly the callers with items queued. -/
theorem Inv.mem_iff {q : Queues α} (h : Inv q) {t : ℕ} : t ∈ q.order ↔ Pending t q := by
  constructor
  · exact h.pending t
  · rintro ⟨x, xs, hq⟩
    by_contra hout
    rw [h.out t hout] at hq
    cases hq

/-- The order from the cursor on and around, and the tokens used so far. -/
def line (q : Queues α) : RoundRobin.Line ℕ where
  queue := q.order.drop q.rr ++ q.order.take q.rr
  known := (List.range q.next).reverse

/-- The line is the order, turned to the cursor. -/
theorem mem_line {q : Queues α} {t : ℕ} : t ∈ (line q).queue ↔ t ∈ q.order := by
  rw [line, List.mem_append, or_comm, ← List.mem_append, List.take_append_drop]

/-- Nobody stands in line twice. -/
theorem line_inv {q : Queues α} (h : Inv q) : (line q).Inv where
  nodup := by
    have hperm : (line q).queue.Perm q.order := by
      refine List.perm_append_comm.trans ?_
      rw [List.take_append_drop]
    exact hperm.nodup_iff.mpr h.nodup
  known := by
    intro t ht
    rw [line, List.mem_reverse, List.mem_range]
    exact h.lt t (mem_line.mp ht)

/-- No caller at first. -/
theorem inv_empty : Inv (empty : Queues α) := by
  constructor <;> simp [empty]

/-- A caller that arrives with items gets a place in the order. -/
theorem Inv.arrive {q : Queues α} (h : Inv q) (items : List α) : Inv (arrive q items) := by
  cases items with
  | nil => exact h
  | cons x xs =>
      -- the new task's queue has a number that was never used
      have hout : q.next ∉ q.order := fun hmem => Nat.lt_irrefl _ (h.lt _ hmem)
      constructor
      case nodup =>
        show (q.order ++ [q.next]).Nodup
        rw [List.nodup_append_comm]
        exact List.nodup_cons.mpr ⟨hout, h.nodup⟩
      -- all numbers in use are below the next
      case lt =>
        intro t ht
        rcases List.mem_append.mp ht with ht | ht
        · exact Nat.lt_succ_of_lt (h.lt t ht)
        · rw [List.mem_singleton.mp ht]
          exact Nat.lt_succ_self _
      case cursor =>
        have hle := h.cursor
        simp only [FairQueues.arrive, enqueue, List.length_append, List.length_singleton]
        omega
      -- queues in the order are not empty
      case pending =>
        intro t ht
        rcases List.mem_append.mp ht with ht | ht
        · rcases h.pending t ht with ⟨y, ys, hq⟩
          refine ⟨y, ys, ?_⟩
          have hne : t ≠ q.next := fun heq => hout (heq ▸ ht)
          exact (enqueue_queues_of_ne hne _).trans hq
        · rw [List.mem_singleton.mp ht]
          exact ⟨x, xs, enqueue_queues_next q _⟩
      -- and the others are gone
      case out =>
        intro t ht
        have ht' : t ∉ q.order ∧ t ≠ q.next := by
          simpa [FairQueues.arrive, enqueue, not_or] using ht
        exact (enqueue_queues_of_ne ht'.2 _).trans (h.out t ht'.1)

/-- What `_loop` takes: the first of the line, which goes to the back or, exhausted,
leaves. -/
structure Picks (q : Queues α) (t : ℕ) (x : α) (q' : Queues α) : Prop where
  queue : ∃ xs, q.queues t = some (x :: xs) ∧
    q'.queues = Function.update q.queues t (if xs = [] then none else some xs)
  order : ∃ rest, (line q).queue = t :: rest ∧
    (line q').queue = if (q'.queues t).isSome then rest ++ [t] else rest
  next : q'.next = q.next
  inv : Inv q'

/-- Wrapping the cursor does not change the line. -/
theorem Inv.line_wrapped {q : Queues α} (h : Inv q) :
    (line q).queue =
      q.order.drop (q.rr % q.order.length) ++ q.order.take (q.rr % q.order.length) := by
  rcases Nat.lt_or_eq_of_le h.cursor with hlt | heq
  · rw [Nat.mod_eq_of_lt hlt]
    rfl
  · rw [line, heq, Nat.mod_self]
    simp

/-- What `_loop` picks: the first item of the caller at the cursor. -/
theorem Inv.pick {q q' : Queues α} {t : ℕ} {x : α} (h : Inv q)
    (hpick : FairQueues.pick q = some ((t, x), q')) : Picks q t x q' := by
  have hwrap := h.line_wrapped
  simp only [FairQueues.pick] at hpick
  generalize hk : q.rr % q.order.length = k at hpick hwrap
  split at hpick
  case h_1 => cases hpick
  case h_2 token hget =>
    have hlt : k < q.order.length := (List.getElem?_eq_some_iff.mp hget).1
    have htok : q.order[k] = token := (List.getElem?_eq_some_iff.mp hget).2
    have hmem : token ∈ q.order := List.mem_of_getElem? hget
    have hline : (line q).queue = token :: (q.order.drop (k + 1) ++ q.order.take k) := by
      rw [hwrap, List.drop_eq_getElem_cons hlt, htok, List.cons_append]
    have hnd := h.nodup
    split at hpick
    case h_1 y hq =>
      -- exhausted: the queue and its token are taken out
      cases hpick
      have herase : q.order.eraseIdx k = q.order.erase t := by
        rw [← htok, hnd.erase_getElem]
      have hsub : (q.order.erase t).Sublist q.order := List.erase_sublist
      constructor
      case queue => exact ⟨[], hq, by rw [if_pos rfl]⟩
      case order =>
        refine ⟨_, hline, ?_⟩
        rw [if_neg (by simp [Function.update_self])]
        simp only [line, List.eraseIdx_eq_take_drop_succ]
        have hlen : (q.order.take k).length = k := List.length_take_of_le (Nat.le_of_lt hlt)
        rw [List.drop_left' hlen, List.take_left' hlen]
      case next => rfl
      case inv =>
        constructor <;> simp only [herase]
        case nodup => exact hnd.sublist hsub
        case lt => exact fun u hu => h.lt u (hsub.subset hu)
        case cursor =>
          rw [List.length_erase_of_mem hmem]
          omega
        case pending =>
          intro u hu
          rcases h.pending u (hsub.subset hu) with ⟨z, zs, hz⟩
          have hne := (hnd.mem_erase_iff.mp hu).1
          exact ⟨z, zs, (Function.update_of_ne hne _ _).trans hz⟩
        case out =>
          intro u hu
          by_cases hne : u = t
          · rw [hne]
            exact Function.update_self _ _ _
          · have hout : u ∉ q.order := fun hin => hu (hnd.mem_erase_iff.mpr ⟨hne, hin⟩)
            exact (Function.update_of_ne hne _ _).trans (h.out u hout)
    case h_2 y ys hys hq =>
      -- the cursor moves on
      cases hpick
      have hne : ys ≠ [] := by
        rintro rfl
        exact hys rfl
      constructor
      case queue => exact ⟨ys, hq, by rw [if_neg hne]⟩
      case order =>
        refine ⟨_, hline, ?_⟩
        rw [if_pos (by simp [Function.update_self])]
        simp only [line]
        rw [List.take_succ_eq_append_getElem hlt, htok, List.append_assoc]
      case next => rfl
      case inv =>
        constructor
        case nodup => exact hnd
        case lt => exact h.lt
        case cursor => exact hlt
        case pending =>
          intro u hu
          by_cases heq : u = t
          · rcases List.exists_cons_of_ne_nil hne with ⟨z, zs, rfl⟩
            exact ⟨z, zs, by rw [heq]; exact Function.update_self _ _ _⟩
          · rcases h.pending u hu with ⟨z, zs, hz⟩
            exact ⟨z, zs, (Function.update_of_ne heq _ _).trans hz⟩
        case out =>
          intro u hu
          have heq : u ≠ t := fun heq => hu (heq ▸ hmem)
          exact (Function.update_of_ne heq _ _).trans (h.out u hu)
    case h_3 => cases hpick

/-- `_loop` finds an item whenever a call has one. -/
theorem Inv.pick_isSome {q : Queues α} (h : Inv q) (hne : q.order ≠ []) :
    ∃ t x q', FairQueues.pick q = some ((t, x), q') := by
  have hlt : q.rr % q.order.length < q.order.length :=
    Nat.mod_lt _ (List.length_pos_iff.mpr hne)
  have hget := List.getElem?_eq_getElem hlt
  rcases h.pending _ (List.getElem_mem hlt) with ⟨x, xs, hq⟩
  simp only [FairQueues.pick, hget, hq]
  cases xs with
  | nil => exact ⟨_, _, _, rfl⟩
  | cons y ys => exact ⟨_, _, _, rfl⟩

/-! ## The items queued -/

/-- The items of all queues. -/
def queued (q : Queues α) : List α := q.order.flatMap fun t => (q.queues t).getD []

/-- An arrival queues its items. -/
theorem queued_arrive {q : Queues α} (h : Inv q) (items : List α) :
    queued (arrive q items) = queued q ++ items := by
  cases items with
  | nil => exact (List.append_nil _).symm
  | cons x xs =>
      have hold : q.order.flatMap (fun t => ((enqueue q (x :: xs)).queues t).getD []) =
          queued q := by
        refine List.flatMap_congr fun t ht => ?_
        have hne : t ≠ q.next := fun heq => Nat.lt_irrefl _ (heq ▸ h.lt t ht)
        rw [enqueue_queues_of_ne hne]
      calc queued (arrive q (x :: xs))
          = (q.order ++ [q.next]).flatMap
              (fun t => ((enqueue q (x :: xs)).queues t).getD []) := rfl
        _ = queued q ++ x :: xs := by
            rw [List.flatMap_append, hold, List.flatMap_singleton, enqueue_queues_next,
              Option.getD_some]

/-- Nothing is queued exactly if nobody is in the order. -/
theorem queued_eq_nil {q : Queues α} (h : Inv q) : queued q = [] ↔ q.order = [] := by
  constructor
  · intro hnil
    refine List.eq_nil_iff_forall_not_mem.mpr fun t ht => ?_
    rcases h.pending t ht with ⟨x, xs, hq⟩
    have hmem : x ∈ queued q := List.mem_flatMap.mpr ⟨t, ht, by rw [hq]; exact List.mem_cons_self⟩
    rw [hnil] at hmem
    cases hmem
  · intro hnil
    rw [queued, hnil]
    rfl

/-- What is queued stands in line. -/
theorem queued_perm_line (q : Queues α) :
    ((line q).queue.flatMap fun t => (q.queues t).getD []).Perm (queued q) := by
  refine List.Perm.flatMap_right _ ?_
  refine List.perm_append_comm.trans ?_
  rw [List.take_append_drop]

/-- The item taken is no longer queued. -/
theorem Picks.queued {q q' : Queues α} {t : ℕ} {x : α} (h : Picks q t x q') (hinv : Inv q) :
    (FairQueues.queued q).Perm (x :: FairQueues.queued q') := by
  rcases h.order with ⟨rest, hline, hline'⟩
  rcases h.queue with ⟨xs, hq, hq'⟩
  have hnd := (line_inv hinv).nodup
  rw [hline] at hnd
  have hrest : rest.flatMap (fun u => (q'.queues u).getD []) =
      rest.flatMap fun u => (q.queues u).getD [] := by
    refine List.flatMap_congr fun u hu => ?_
    have hne : u ≠ t := fun heq => (List.nodup_cons.mp hnd).1 (heq ▸ hu)
    rw [hq', Function.update_of_ne hne]
  refine (queued_perm_line q).symm.trans ?_
  refine List.Perm.trans ?_ ((queued_perm_line q').cons x)
  rw [hline, hline', List.flatMap_cons, hq, Option.getD_some, List.cons_append]
  refine List.Perm.cons x ?_
  cases xs with
  | nil =>
      rw [if_neg (by simp [hq']), hrest, List.nil_append]
  | cons y ys =>
      rw [if_pos (by simp [hq']), List.flatMap_append, hrest, List.flatMap_singleton, hq',
        Function.update_self, if_neg (List.cons_ne_nil y ys), Option.getD_some]
      exact List.perm_append_comm

/-! ## Histories seen as a line -/

/-- What one step preserves. -/
theorem Inv.step {q q' : Queues α} {a : Lbl α} (h : Inv q) (hst : FairQueues.step q a = some q') :
    Inv q' := by
  cases a with
  | arrive items =>
      cases hst
      exact h.arrive items
  | dispatch =>
      rcases Option.map_eq_some_iff.mp hst with ⟨⟨⟨t, x⟩, q₁⟩, hpick, rfl⟩
      exact (h.pick hpick).inv

/-- So the invariant holds along every run. -/
theorem Inv.run {q q' : Queues α} {as : List (Lbl α)} (h : Inv q)
    (hrun : (machine α).run q as = some q') : Inv q' := by
  induction as generalizing q with
  | nil =>
      cases hrun
      exact h
  | cons a as ih =>
      rcases Option.bind_eq_some_iff.mp hrun with ⟨t, hst, hrest⟩
      exact ih (h.step hst) hrest

/-- What happens to the line. -/
def view (q : Queues α) : Lbl α → List (RoundRobin.Lbl ℕ)
  | .arrive [] => []
  | .arrive (_ :: _) => [.join q.next (q.order.length - q.rr)]
  | .dispatch => match pick q with
      | some ((t, _), q') => [.serve t (q'.queues t).isSome]
      | none => []

/-- A caller that arrives joins the line just before the cursor, that is at its end. -/
theorem line_enqueue {q : Queues α} (h : Inv q) (items : List α) :
    RoundRobin.step (line q) (.join q.next (q.order.length - q.rr)) =
      some (line (enqueue q items)) := by
  rw [RoundRobin.step_join_iff]
  constructor
  · simp [line]
  · have hlen : q.order.length - q.rr = (q.order.drop q.rr).length := by
      rw [List.length_drop]
    simp only [line, enqueue, List.range_succ, List.reverse_append, List.reverse_singleton,
      List.singleton_append]
    rw [hlen, RoundRobin.insertIdx_length_append, List.drop_append_of_le_length h.cursor,
      List.take_append_of_le_length h.cursor, List.append_assoc, List.singleton_append]

/-- A pick serves the head of the line. -/
theorem line_pick {q q' : Queues α} {t : ℕ} {x : α} (h : Picks q t x q') :
    RoundRobin.step (line q) (.serve t (q'.queues t).isSome) =
      some (line q') := by
  rcases h.order with ⟨rest, hq, hq'⟩
  rw [RoundRobin.step_serve_iff]
  refine ⟨rest, hq, ?_⟩
  have hknown : (line q').known = (line q).known := by
    simp only [line, h.next]
  rw [← hq', ← hknown]

/-- A step of the dispatcher is one of the line. -/
theorem step_line (q : Queues α) (a : Lbl α) (q' : Queues α) (h : Inv q)
    (hst : FairQueues.step q a = some q') :
    RoundRobin.machine.run (line q) (view q a) = some (line q') := by
  cases a with
  | arrive items =>
      cases hst
      cases items with
      | nil => rfl
      | cons x xs => exact Machine.run_singleton.trans (line_enqueue h (x :: xs))
  | dispatch =>
      rcases Option.map_eq_some_iff.mp hst with ⟨⟨⟨t, x⟩, q₁⟩, hpick, rfl⟩
      simp only [view, hpick]
      exact Machine.run_singleton.trans (line_pick (h.pick hpick))

section Histories

variable {q q' : Queues α} {as : List (Lbl α)}

/-- So a run of the queues is a run of the round robin. -/
theorem run_line (h : Inv q) (hrun : (machine α).run q as = some q') :
    RoundRobin.machine.run (line q) ((machine α).seen view q as) = some (line q') :=
  Machine.run_seen (fun _ _ _ hq hst => hq.step hst) step_line h hrun

/-- The calls dispatched are those served in the line. -/
theorem turns_seen (hrun : (machine α).run q as = some q') :
    RoundRobin.turns ((machine α).seen view q as) = tokens q as := by
  induction as generalizing q with
  | nil => rfl
  | cons a as ih =>
      rcases Option.bind_eq_some_iff.mp hrun with ⟨t, hst, hrest⟩
      rw [Machine.seen_cons hst, RoundRobin.turns, List.filterMap_append]
      have hrest := ih hrest
      rw [RoundRobin.turns] at hrest
      rw [hrest]
      cases a with
      | arrive items =>
          cases hst
          cases items with
          | nil => rfl
          | cons x xs => rfl
      | dispatch =>
          rcases Option.map_eq_some_iff.mp hst with ⟨⟨x, q₁⟩, hpick, rfl⟩
          simp only [view, tokens, dispatched, hpick]
          rfl

/-- What is said of the queues before every step, said of the line. -/
theorem along_line (h : Inv q) (hrun : (machine α).run q as = some q') {P : Queues α → Prop}
    {Q : RoundRobin.Line ℕ → Prop} (hPQ : ∀ q, Inv q → P q → Q (line q))
    (hP : (machine α).Along (fun q _ => P q) q as) :
    RoundRobin.machine.Along (fun s _ => Q s) (line q) ((machine α).seen view q as) := by
  refine Machine.along_seen (fun _ _ _ hq hst => hq.step hst) step_line ?_ h hrun hP
  intro q a q' hq hst hPq
  have hline := hPQ q hq hPq
  cases a with
  | arrive items =>
      cases items with
      | nil => trivial
      | cons x xs => exact ⟨hline, fun _ _ => trivial⟩
  | dispatch =>
      rcases Option.map_eq_some_iff.mp hst with ⟨⟨⟨t, x⟩, q₁⟩, hpick, rfl⟩
      simp only [view, hpick]
      exact ⟨hline, fun _ _ => trivial⟩

/-- Who has items queued stands in line. -/
theorem Inv.mem_line_iff (h : Inv q) {t : ℕ} : t ∈ (line q).queue ↔ Pending t q :=
  mem_line.trans h.mem_iff

/-- From one dispatch of a call to its next, every other call is dispatched at
most once, and once if it had items all the time. -/
def Alternates (q : Queues α) : Prop :=
  ∀ ⦃a b : ℕ⦄ ⦃x y : α⦄ ⦃as : List (Lbl α)⦄ ⦃q₁ q₂ q₃ : Queues α⦄, pick q = some ((a, x), q₁) →
    (machine α).run q₁ as = some q₂ → pick q₂ = some ((a, y), q₃) → a ∉ tokens q₁ as → a ≠ b →
      (tokens q₁ as).count b ≤ 1 ∧
        ((machine α).Throughout (Pending b) q₁ as → (tokens q₁ as).count b = 1)

/-- While two calls both have items, as many of the one are dispatched as of the
other, up to one. -/
def Balances (q : Queues α) : Prop :=
  ∀ ⦃a b : ℕ⦄ ⦃as : List (Lbl α)⦄ ⦃q' : Queues α⦄, a ≠ b → (machine α).run q as = some q' →
    (machine α).Along (fun q _ => Pending a q ∧ Pending b q) q as →
      (tokens q as).count a ≤ (tokens q as).count b + 1 ∧
        (tokens q as).count b ≤ (tokens q as).count a + 1

/-- Between two picks of one caller every other waiting one is served. -/
theorem Inv.alternates (h : Inv q) : Alternates q := by
  intro a b x y as q₁ q₂ q₃ hfirst hrun hlast hout hne
  have hpick := h.pick hfirst
  have h₁ := hpick.inv
  have h₂ := h₁.run hrun
  have hlast' := h₂.pick hlast
  have hline := run_line h₁ hrun
  rw [← turns_seen hrun] at hout ⊢
  -- `a` has more items, so it went to the back of the line
  have ha₂ : a ∈ (line q₂).queue := by
    rcases hlast'.order with ⟨rest, hq, -⟩
    rw [hq]
    exact List.mem_cons_self
  have ha : a ∈ (line q₁).queue := by
    by_contra hgone
    refine RoundRobin.not_mem_of_run ?_ hgone hline ha₂
    have hmem : a ∈ (line q).queue := by
      rcases hpick.order with ⟨rest, hq, -⟩
      rw [hq]
      exact List.mem_cons_self
    have hknown := (line_inv h).known a hmem
    rwa [line, hpick.next]
  refine ⟨RoundRobin.once (line_inv h₁) ha hne hline hout, fun hwaits => ?_⟩
  have hb₁ : b ∈ (line q₁).queue := h₁.mem_line_iff.mpr hwaits.first
  have hb : b ∈ (line q).queue := by
    rcases hpick.order with ⟨rest, hq, hq'⟩
    rw [hq'] at hb₁
    rw [hq]
    split at hb₁
    · rcases List.mem_append.mp hb₁ with hb₁ | hb₁
      · exact List.mem_cons_of_mem _ hb₁
      · exact absurd (List.mem_singleton.mp hb₁).symm hne
    · exact List.mem_cons_of_mem _ hb₁
  have hba := (RoundRobin.behind_of_serve (line_inv h) (line_pick hpick) hb (Ne.symm hne)).2 ha
  -- the run up to the next turn of `a`
  have hrun' : (machine α).run q₁ (as ++ [.dispatch]) = some q₃ := by
    rw [Machine.run_append, hrun]
    show (machine α).run q₂ [.dispatch] = some q₃
    rw [Machine.run_singleton]
    exact Option.map_eq_some_iff.mpr ⟨_, hlast, rfl⟩
  have hseen : (machine α).seen view q₁ (as ++ [.dispatch]) =
      (machine α).seen view q₁ as ++ [.serve a (q₃.queues a).isSome] := by
    rw [Machine.seen_append hrun]
    have hst : (machine α).step q₂ .dispatch = some q₃ :=
      Option.map_eq_some_iff.mpr ⟨_, hlast, rfl⟩
    rw [Machine.seen_cons hst]
    simp only [view, hlast]
    rfl
  have hline' := run_line h₁ hrun'
  have hwaits' := along_line h₁ hrun' (Q := fun s => b ∈ s.queue)
    (fun q hq => hq.mem_line_iff.mpr) hwaits.along
  rw [hseen] at hline' hwaits'
  exact RoundRobin.served_between (line_inv h₁) hne hba hline' hwaits' hout

/-- So two callers that both wait are served equally often, but for one. -/
theorem Inv.balances (h : Inv q) : Balances q := by
  intro a b as q' hne hrun hboth
  rw [← turns_seen hrun]
  refine RoundRobin.balanced (line_inv h) hne (run_line h hrun) ?_
  exact along_line h hrun (Q := fun s => a ∈ s.queue ∧ b ∈ s.queue)
    (fun q hq hp => ⟨hq.mem_line_iff.mpr hp.1, hq.mem_line_iff.mpr hp.2⟩) hboth

end Histories

/-! ## The items of a call -/

/-- The `run` calls with items; the token of a call is its place among them. -/
def arrivals (as : List (Lbl α)) : List (List α) := as.filterMap fun
  | .arrive [] => none
  | .arrive (x :: xs) => some (x :: xs)
  | .dispatch => none

/-- What was dispatched of a call, and what is still queued of it, are its items in
their order. -/
def InOrder (as : List (Lbl α)) (q : Queues α) : Prop :=
  ∀ t, ((dispatched empty as).filter (·.1 = t)).map Prod.snd ++ (q.queues t).getD [] =
    ((arrivals as)[t]?).getD []

/-- What a run dispatches, in two parts. -/
theorem dispatched_append {q q' : Queues α} {as : List (Lbl α)} (bs : List (Lbl α))
    (hrun : (machine α).run q as = some q') :
    dispatched q (as ++ bs) = dispatched q as ++ dispatched q' bs := by
  induction as generalizing q with
  | nil =>
      cases hrun
      rfl
  | cons a as ih =>
      rcases Option.bind_eq_some_iff.mp hrun with ⟨t, hst, hrest⟩
      cases a with
      | arrive items =>
          cases hst
          exact ih hrest
      | dispatch =>
          rcases Option.map_eq_some_iff.mp hst with ⟨⟨x, q₁⟩, hpick, rfl⟩
          simp only [List.cons_append, dispatched, hpick]
          rw [ih hrest]

/-- The queues after the history `as`. -/
structure After (as : List (Lbl α)) (q : Queues α) : Prop where
  next : (arrivals as).length = q.next
  order : InOrder as q
  inv : Inv q

section Steps

variable {q q' : Queues α} {as : List (Lbl α)}

/-- An arrival dispatches nothing. -/
theorem dispatched_arrive (items : List α) (hrun : (machine α).run empty as = some q) :
    dispatched empty (as ++ [.arrive items]) = dispatched empty as := by
  rw [dispatched_append _ hrun]
  exact List.append_nil _

/-- A call gets a token of its own, for which nothing was dispatched or queued. -/
theorem After.enqueue {x : α} {xs : List α} (h : After as q)
    (hrun : (machine α).run empty as = some q) :
    After (as ++ [.arrive (x :: xs)]) (enqueue q (x :: xs)) := by
  -- one call more
  have harr : arrivals (as ++ [.arrive (x :: xs)]) = arrivals as ++ [x :: xs] := by
    simp [arrivals]
  constructor
  case next =>
    rw [harr, List.length_append, h.next]
    rfl
  case inv => exact h.inv.arrive (x :: xs)
  case order =>
    intro t
    rw [dispatched_arrive _ hrun, harr]
    -- the new call: nothing of it was dispatched, all of it is queued
    by_cases ht : t = q.next
    · have hout : q.queues q.next = none :=
        h.inv.out _ fun hmem => Nat.lt_irrefl _ (h.inv.lt _ hmem)
      have hnone : (arrivals as)[q.next]? = none :=
        List.getElem?_eq_none (Nat.le_of_eq h.next)
      have hnil := h.order q.next
      rw [hout, hnone, Option.getD_none, List.append_nil] at hnil
      rw [ht, hnil, ← h.next, List.getElem?_concat_length, h.next, enqueue_queues_next]
      rfl
    · -- an earlier call: its queue is as it was
      have hget : (arrivals as ++ [x :: xs])[t]? = (arrivals as)[t]? := by
        rcases Nat.lt_trichotomy t (arrivals as).length with hlt | heq | hgt
        · exact List.getElem?_append_left hlt
        · exact absurd (heq.trans h.next) ht
        · rw [List.getElem?_eq_none (Nat.le_of_lt hgt), List.getElem?_eq_none]
          rw [List.length_append, List.length_singleton]
          omega
      rw [hget, enqueue_queues_of_ne ht]
      exact h.order t

/-- The first of a queue moves over to what was dispatched. -/
theorem After.pick {u : ℕ} {x : α} (h : After as q) (hrun : (machine α).run empty as = some q)
    (hpick : pick q = some ((u, x), q')) : After (as ++ [.dispatch]) q' := by
  have hp := h.inv.pick hpick
  rcases hp.queue with ⟨xs, hq, hq'⟩
  have harr : arrivals (as ++ [.dispatch]) = arrivals as := by
    simp [arrivals]
  have hdisp : dispatched empty (as ++ [.dispatch]) = dispatched empty as ++ [(u, x)] := by
    rw [dispatched_append _ hrun]
    simp only [dispatched, hpick]
  constructor
  case next => rw [harr, h.next, hp.next]
  case inv => exact hp.inv
  case order =>
    intro t
    rw [hdisp, harr, ← h.order t, List.filter_append, List.map_append, List.append_assoc, hq']
    congr 1
    by_cases ht : t = u
    · rw [ht, Function.update_self, hq]
      cases xs with
      | nil => simp
      | cons y ys => simp
    · rw [Function.update_of_ne ht]
      simp [Ne.symm ht]

/-- What is dispatched and what is queued make up what arrived, in order for each caller. -/
theorem after_run (hrun : (machine α).run empty as = some q) : After as q := by
  refine Machine.run_induction_all (M := machine α) After ⟨rfl, fun t => rfl, inv_empty⟩ ?_ hrun
  intro as q a q' h hrun hst
  cases a with
  | arrive items =>
      cases hst
      cases items with
      | nil =>
          have harr : arrivals (as ++ [.arrive []]) = arrivals as := by
            simp [arrivals]
          refine ⟨by rw [harr]; exact h.next, fun t => ?_, h.inv⟩
          rw [dispatched_arrive _ hrun, harr]
          exact h.order t
      | cons x xs => exact h.enqueue hrun
  | dispatch =>
      rcases Option.map_eq_some_iff.mp hst with ⟨⟨⟨u, x⟩, q₁⟩, hpick, rfl⟩
      exact h.pick hrun hpick

end Steps

/-- The dispatcher is round robin, and keeps the order of each call. -/
theorem round_robin {as : List (Lbl α)} {q : Queues α} (hrun : (machine α).run empty as = some q) :
    Alternates q ∧ Balances q ∧ InOrder as q := by
  have hafter := after_run hrun
  exact ⟨hafter.inv.alternates, hafter.inv.balances, hafter.order⟩

/-- Three calls, the third of which comes when the cursor is past the end. -/
def lateArrival : List (Lbl ℕ) :=
  [.arrive [1, 2, 3], .arrive [4, 5], .dispatch, .dispatch, .arrive [6], .dispatch]

/-- A third caller arrives between the items of two others. -/
theorem round_robin_late_arrival : ∃ q, (machine ℕ).run empty lateArrival = some q ∧
    Alternates q ∧ Balances q ∧ InOrder lateArrival q := by
  have hrun : ((machine ℕ).run empty lateArrival).isSome = true := by
    decide
  rcases Option.isSome_iff_exists.mp hrun with ⟨q, hq⟩
  exact ⟨q, hq, round_robin hq⟩

/-- The third call is dispatched before the cursor wraps. -/
example : tokens empty (lateArrival ++ [.dispatch, .dispatch, .dispatch]) = [0, 1, 2, 0, 1, 0] := by
  decide

end LmcacheDaos.Mp.FairQueues
