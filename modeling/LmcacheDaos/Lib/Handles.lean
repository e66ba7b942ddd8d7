import Mathlib.Algebra.BigOperators.Group.List.Basic
import Mathlib.Algebra.Order.Group.Multiset
import LmcacheDaos.Lib.Trace

/-!
# Handles that are opened, used and closed

`Ledger n held ts held'`: the touches `ts` lead from the open handles `held` to
`held'`, every use and every close is of a handle that is open then, and there are
never more than `n`. A handle that was opened twice is open until it is closed twice.

`Program.Takes` is the triple of a program for it. A program's ledger does not
depend on what others have open (`Ledger.frame`), so ledgers of programs that are
balanced by themselves are those of any interleaving (`Interleaving.balanced`).
-/

namespace Lib

universe u v w

/-- What a call does with handles. -/
inductive Touch (η : Type*) where
  | opens (h : η)
  | uses (hs : List η)
  | closes (h : η)

section Ledger

variable {η : Type*} {n m : ℕ} {held held' held'' others : Multiset η} {ts ts' : List (Touch η)}
variable {t : Touch η}

inductive Touch.Step : Multiset η → Touch η → Multiset η → Prop
  | opens (held : Multiset η) (h : η) : Step held (.opens h) (h ::ₘ held)
  | uses {held : Multiset η} {hs : List η} (hmem : ∀ h ∈ hs, h ∈ held) : Step held (.uses hs) held
  | closes (held : Multiset η) (h : η) : Step (h ::ₘ held) (.closes h) held

inductive Ledger (n : ℕ) : Multiset η → List (Touch η) → Multiset η → Prop
  | nil {held : Multiset η} (hcard : held.card ≤ n) : Ledger n held [] held
  | cons {held mid held' : Multiset η} {t : Touch η} {ts : List (Touch η)} (hcard : held.card ≤ n)
      (hstep : Touch.Step held t mid) (hrest : Ledger n mid ts held') :
      Ledger n held (t :: ts) held'

/-- No use at all. -/
theorem ledger_nil : Ledger n held [] held' ↔ held' = held ∧ held.card ≤ n := by
  constructor
  · rintro ⟨hcard⟩
    exact ⟨rfl, hcard⟩
  · rintro ⟨rfl, hcard⟩
    exact .nil hcard

/-- The first use, and then the rest. -/
theorem ledger_cons : Ledger n held (t :: ts) held' ↔
    held.card ≤ n ∧ ∃ mid, Touch.Step held t mid ∧ Ledger n mid ts held' := by
  constructor
  · rintro (_ | ⟨hcard, hstep, hrest⟩)
    exact ⟨hcard, _, hstep, hrest⟩
  · rintro ⟨hcard, mid, hstep, hrest⟩
    exact .cons hcard hstep hrest

/-- Never more open than allowed. -/
theorem Ledger.card_le (h : Ledger n held ts held') : held.card ≤ n := by
  cases h with
  | nil hcard => exact hcard
  | cons hcard _ _ => exact hcard

/-- One stretch of uses after another. -/
theorem Ledger.append (h : Ledger n held ts held') (h' : Ledger n held' ts' held'') :
    Ledger n held (ts ++ ts') held'' := by
  induction h with
  | nil _ => exact h'
  | cons hcard hstep _ ih => exact .cons hcard hstep (ih h')

/-- More may be allowed. -/
theorem Ledger.mono (h : Ledger n held ts held') (hnm : n ≤ m) : Ledger m held ts held' := by
  induction h with
  | nil hcard => exact .nil (hcard.trans hnm)
  | cons hcard hstep _ ih => exact .cons (hcard.trans hnm) hstep ih

/-- Handles of others are not affected. -/
theorem Touch.Step.frame (h : Touch.Step held t held') :
    Touch.Step (held + others) t (held' + others) := by
  cases h with
  | opens _ h => exact (Multiset.cons_add h held others).symm ▸ .opens (held + others) h
  | uses hmem => exact .uses fun h hh => Multiset.mem_add.mpr (.inl (hmem h hh))
  | closes _ h => exact (Multiset.cons_add h held' others).symm ▸ .closes (held' + others) h

/-- What others have open does not matter. -/
theorem Ledger.frame (h : Ledger n held ts held') :
    Ledger (n + others.card) (held + others) ts (held' + others) := by
  induction h with
  | nil hcard =>
      refine .nil ?_
      rw [Multiset.card_add]
      omega
  | cons hcard hstep _ ih =>
      refine .cons ?_ hstep.frame ih
      rw [Multiset.card_add]
      omega

end Ledger

/-! ## Programs -/

namespace Program

variable {Op : Type u} {Ans : Op → Type v} {α β : Type w} {η : Type*}
variable {touch : Event Op Ans → Touch η} {n : ℕ} {held mid held' : Multiset η}

/-- Every execution of `p` leads from `held` to `held'`. -/
def Takes (touch : Event Op Ans → Touch η) (n : ℕ) (held held' : Multiset η)
    (p : Program Op Ans α) : Prop :=
  ∀ t a, p.Runs t a → Ledger n held (t.map touch) held'

/-- Returning uses nothing. -/
theorem takes_ret (hcard : held.card ≤ n) (a : α) :
    (ret a : Program Op Ans α).Takes touch n held held := by
  intro t b hr
  rcases runs_ret.mp hr with ⟨rfl, -⟩
  exact .nil hcard

/-- A call, and then the rest for each of its answers. -/
theorem takes_call {o : Op} {k : Ans o → Program Op Ans α} (hcard : held.card ≤ n)
    (h : ∀ ans, ∃ mid, Touch.Step held (touch ⟨o, ans⟩) mid ∧ (k ans).Takes touch n mid held') :
    (call o k).Takes touch n held held' := by
  intro t a hr
  rcases runs_call.mp hr with ⟨ans, t', rfl, hr'⟩
  obtain ⟨mid, hstep, hk⟩ := h ans
  exact .cons hcard hstep (hk t' a hr')

/-- A call on handles that are open. -/
theorem takes_call_uses {o : Op} {k : Ans o → Program Op Ans α} {hs : List η}
    (hcard : held.card ≤ n) (htouch : ∀ ans, touch ⟨o, ans⟩ = .uses hs)
    (hmem : ∀ x ∈ hs, x ∈ held) (h : ∀ ans, (k ans).Takes touch n held held') :
    (call o k).Takes touch n held held' := by
  refine takes_call hcard ?_
  intro ans
  exact ⟨held, htouch ans ▸ .uses hmem, h ans⟩

/-- A program that opens and closes nothing. -/
theorem OnlyCalls.takes {P : Op → Prop} {p : Program Op Ans α} (h : p.OnlyCalls P)
    (hcard : held.card ≤ n) (htouch : ∀ e : Event Op Ans, P e.op →
      ∃ hs, touch e = .uses hs ∧ ∀ x ∈ hs, x ∈ held) : p.Takes touch n held held := by
  induction p with
  | ret a => exact takes_ret hcard a
  | call o k ih =>
      refine takes_call hcard ?_
      intro ans
      obtain ⟨hs, heq, hmem⟩ := htouch ⟨o, ans⟩ h.1
      exact ⟨held, heq ▸ .uses hmem, ih ans (h.2 ans)⟩

/-- One program after the other. -/
theorem Takes.bind {p : Program Op Ans α} {f : α → Program Op Ans β}
    (hp : p.Takes touch n held mid) (hf : ∀ a, (f a).Takes touch n mid held') :
    (p.bind f).Takes touch n held held' := by
  intro t b hr
  rcases runs_bind.mp hr with ⟨t₁, t₂, a, rfl, h₁, h₂⟩
  rw [List.map_append]
  exact (hp t₁ a h₁).append (hf a t₂ b h₂)

/-- `p`, and then the handle is closed. -/
theorem Takes.close {p : Program Op Ans α} {f : α → Program Op Ans β} {h : η}
    (hp : p.Takes touch n (h ::ₘ held) (h ::ₘ held)) (hcard : (h ::ₘ held).card ≤ n)
    {o : α → Op} {k : (a : α) → Ans (o a) → Program Op Ans β} (hf : ∀ a, f a = call (o a) (k a))
    (htouch : ∀ a ans, touch ⟨o a, ans⟩ = .closes h)
    (hk : ∀ a ans, (k a ans).Takes touch n held held') :
    (p.bind f).Takes touch n (h ::ₘ held) held' := by
  refine hp.bind ?_
  intro a
  rw [hf]
  refine takes_call hcard ?_
  intro ans
  refine ⟨held, ?_, hk a ans⟩
  rw [htouch]
  exact .closes held h

end Program

/-! ## Side by side -/

section Interleaving

variable {ε η : Type*} {touch : ε → Touch η} {n : ℕ} {us rest : List (List ε)} {t : List ε}

/-- `t` is an interleaving of the beginnings of `us`, with `rest` still to come. -/
inductive Interleaving : List (List ε) → List ε → List (List ε) → Prop
  | nil (us : List (List ε)) : Interleaving us [] us
  | cons (before : List (List ε)) {after rest : List (List ε)} {u t : List ε} {e : ε}
      (h : Interleaving (before ++ u :: after) t rest) :
      Interleaving (before ++ (e :: u) :: after) (e :: t) rest

/-- Each of `us` closes what it has open. -/
def Owes (touch : ε → Touch η) (n : ℕ) (helds : List (Multiset η)) (us : List (List ε)) : Prop :=
  List.Forall₂ (fun held u => Ledger n held (u.map touch) 0) helds us

/-- What one of several programs still owes. -/
theorem owes_append {helds : List (Multiset η)} {before after : List (List ε)} {u : List ε}
    (h : Owes touch n helds (before ++ u :: after)) : ∃ pre held post, helds = pre ++ held :: post ∧
      Owes touch n pre before ∧ Ledger n held (u.map touch) 0 ∧ Owes touch n post after := by
  induction before generalizing helds with
  | nil =>
      cases h with
      | cons hu hpost => exact ⟨[], _, _, rfl, .nil, hu, hpost⟩
  | cons v before ih =>
      cases h with
      | cons hv h =>
          obtain ⟨pre, held, post, rfl, hpre, hu, hpost⟩ := ih h
          exact ⟨_ :: pre, held, post, rfl, .cons hv hpre, hu, hpost⟩

/-- Two groups of programs. -/
theorem Owes.append {pre post : List (Multiset η)} {before after : List (List ε)}
    (h : Owes touch n pre before) (h' : Owes touch n post after) :
    Owes touch n (pre ++ post) (before ++ after) :=
  List.rel_append h h'

/-- Each unfinished program has at most its own number open. -/
theorem Owes.card_le {helds : List (Multiset η)} (h : Owes touch n helds us) :
    helds.sum.card ≤ n * us.countP (· ≠ []) := by
  induction h with
  | nil => simp
  | @cons held u helds us hu _ ih =>
      rw [List.sum_cons, Multiset.card_add]
      cases u with
      | nil =>
          -- a program that has ended holds nothing
          rw [List.map_nil, ledger_nil] at hu
          rw [← hu.1, Multiset.card_zero, Nat.zero_add]
          simpa using ih
      | cons e u =>
          have hcard := hu.card_le
          rw [List.countP_cons_of_pos (by simp), Nat.mul_succ]
          omega

/-- A call of one of several programs, and what it has open before and after it. -/
theorem Owes.step {helds : List (Multiset η)} {before after : List (List ε)} {u : List ε} {e : ε}
    (h : Owes touch n helds (before ++ (e :: u) :: after)) :
    ∃ helds', Touch.Step helds.sum (touch e) helds'.sum ∧
      Owes touch n helds' (before ++ u :: after) := by
  obtain ⟨pre, held, post, rfl, hpre, hu, hpost⟩ := owes_append h
  rw [List.map_cons, ledger_cons] at hu
  obtain ⟨-, mid, hstep, hrest⟩ := hu
  refine ⟨pre ++ mid :: post, ?_, hpre.append (.cons hrest hpost)⟩
  have hsum : ∀ x : Multiset η, (pre ++ x :: post).sum = x + (pre.sum + post.sum) := by
    intro x
    rw [List.sum_append, List.sum_cons, add_left_comm]
  rw [hsum, hsum]
  exact hstep.frame

/-- Programs do not start again. -/
theorem countP_le_of_interleaving (h : Interleaving us t rest) :
    rest.countP (· ≠ []) ≤ us.countP (· ≠ []) := by
  induction h with
  | nil us => exact Nat.le_refl _
  | cons before h ih =>
      refine ih.trans ?_
      simp only [List.countP_append, List.countP_cons]
      split <;> simp

/-- An interleaving of programs keeps the books of all. -/
theorem Interleaving.ledger (h : Interleaving us t rest) {helds : List (Multiset η)}
    (howes : Owes touch n helds us) : ∃ helds', Owes touch n helds' rest ∧
      Ledger (n * us.countP (· ≠ [])) helds.sum (t.map touch) helds'.sum := by
  induction h generalizing helds with
  | nil us => exact ⟨helds, howes, .nil howes.card_le⟩
  | @cons before after rest u t e h ih =>
      obtain ⟨mid, hstep, hmid⟩ := howes.step
      obtain ⟨helds', hrest, hled⟩ := ih hmid
      refine ⟨helds', hrest, ?_⟩
      refine .cons howes.card_le hstep ?_
      have hle : (before ++ u :: after).countP (· ≠ []) ≤
          (before ++ (e :: u) :: after).countP (· ≠ []) :=
        countP_le_of_interleaving (.cons before (.nil _))
      exact hled.mono (Nat.mul_le_mul_left n hle)

/-- Calls that have nothing open before and after them, side by side: they use and
close only what is open, and what is open belongs to those under way. -/
theorem Interleaving.balanced {γ : Type*} {makes : γ → List ε → Prop} {calls : List γ}
    (h : Interleaving us t rest) (hmakes : List.Forall₂ makes calls us)
    (hled : ∀ c u, makes c u → Ledger n 0 (u.map touch) 0) :
    ∃ held : Multiset η, Ledger (n * calls.length) 0 (t.map touch) held ∧
      held.card ≤ n * rest.countP (· ≠ []) := by
  have howes : Owes touch n (calls.map fun _ => 0) us := by
    rw [Owes, List.forall₂_map_left_iff]
    exact hmakes.imp hled
  obtain ⟨helds, hrest, hall⟩ := h.ledger howes
  have hzero : (calls.map fun _ => (0 : Multiset η)).sum = 0 := by simp
  rw [hzero] at hall
  have hle : us.countP (· ≠ []) ≤ calls.length :=
    hmakes.length_eq ▸ List.countP_le_length
  exact ⟨helds.sum, hall.mono (Nat.mul_le_mul_left n hle), hrest.card_le⟩

end Interleaving

end Lib
