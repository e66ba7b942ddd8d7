import LmcacheDaos.Lib.Program

/-!
# Executions of a program against any answers

`Program.Runs` relates a program to the calls it made, with what each was
answered, and to its result; nothing is assumed of the answers. What is known
of them is a premise on the events.

`Program.Asks` says of every call a program comes to make, against answers that
are known to satisfy something, that it satisfies something in turn.

`Interleaved` carries out the events of a run in a state that others change in
between.
-/

namespace Lib

universe u v w

/-- A call and its answer. -/
structure Event (Op : Type u) (Ans : Op → Type v) where
  op : Op
  ans : Ans op

namespace Program

variable {Op : Type u} {Ans : Op → Type v} {α β : Type w}

/-- `p.Runs t a`: `p` makes the calls of `t`, gets the answers of `t` and
returns `a`. -/
inductive Runs : Program Op Ans α → List (Event Op Ans) → α → Prop
  | ret (a : α) : Runs (.ret a) [] a
  | call {o : Op} {k : Ans o → Program Op Ans α} {t : List (Event Op Ans)} {a : α} (ans : Ans o)
      (h : Runs (k ans) t a) : Runs (.call o k) (⟨o, ans⟩ :: t) a

/-- To return nothing is asked. -/
theorem runs_ret {a b : α} {t : List (Event Op Ans)} :
    (ret a : Program Op Ans α).Runs t b ↔ t = [] ∧ b = a := by
  constructor
  · intro h
    cases h
    exact ⟨rfl, rfl⟩
  · rintro ⟨rfl, rfl⟩
    exact .ret _

/-- A call may get any answer. -/
theorem runs_call {o : Op} {k : Ans o → Program Op Ans α} {t : List (Event Op Ans)} {a : α} :
    (call o k).Runs t a ↔ ∃ ans t', t = ⟨o, ans⟩ :: t' ∧ (k ans).Runs t' a := by
  constructor
  · intro h
    cases h with
    | call ans h => exact ⟨ans, _, rfl, h⟩
  · rintro ⟨ans, t', rfl, h⟩
    exact .call ans h

/-- A run of two programs is a run of each. -/
theorem runs_bind {p : Program Op Ans α} {f : α → Program Op Ans β} {t : List (Event Op Ans)}
    {b : β} : (p.bind f).Runs t b ↔
      ∃ t₁ t₂ a, t = t₁ ++ t₂ ∧ p.Runs t₁ a ∧ (f a).Runs t₂ b := by
  induction p generalizing t with
  | ret a =>
      simp only [bind, runs_ret]
      constructor
      · intro h
        exact ⟨[], t, a, rfl, ⟨rfl, rfl⟩, h⟩
      · rintro ⟨_, _, _, rfl, ⟨rfl, rfl⟩, h⟩
        exact h
  | call o k ih =>
      simp only [bind, runs_call]
      constructor
      · rintro ⟨ans, t', rfl, h⟩
        rcases (ih ans).mp h with ⟨t₁, t₂, a, rfl, h₁, h₂⟩
        exact ⟨_, t₂, a, rfl, ⟨ans, t₁, rfl, h₁⟩, h₂⟩
      · rintro ⟨_, t₂, a, rfl, ⟨ans, t₁, rfl, h₁⟩, h₂⟩
        exact ⟨ans, t₁ ++ t₂, rfl, (ih ans).mpr ⟨t₁, t₂, a, rfl, h₁, h₂⟩⟩

/-- The calls of a run under a handler. -/
def trace {σ : Type*} (h : σ → (o : Op) → Ans o × σ) :
    Program Op Ans α → σ → List (Event Op Ans)
  | ret _, _ => []
  | call o k, s => ⟨o, (h s o).1⟩ :: (k (h s o).1).trace h (h s o).2

/-- What a handler makes of a program is one of its runs. -/
theorem runs_trace {σ : Type*} (h : σ → (o : Op) → Ans o × σ) (p : Program Op Ans α) (s : σ) :
    p.Runs (p.trace h s) (p.run h s).1 := by
  induction p generalizing s with
  | ret a => exact .ret a
  | call o k ih => exact .call _ (ih _ _)

/-- Whatever the answers, the result is in `Q`. -/
def Ends (Q : α → Prop) : Program Op Ans α → Prop
  | ret a => Q a
  | call _ k => ∀ ans, Ends Q (k ans)

/-- A program whose first part ends in `P` and whose rest ends in `Q` from there. -/
theorem Ends.bind {P : α → Prop} {Q : β → Prop} {p : Program Op Ans α}
    {f : α → Program Op Ans β} (hp : p.Ends P) (hf : ∀ a, P a → (f a).Ends Q) :
    (p.bind f).Ends Q := by
  induction p with
  | ret a => exact hf a hp
  | call o k ih => exact fun ans => ih ans (hp ans)

/-- In a run only calls of that kind are made. -/
theorem OnlyCalls.of_runs {P : Op → Prop} {p : Program Op Ans α} (h : p.OnlyCalls P)
    {t : List (Event Op Ans)} {a : α} (hr : p.Runs t a) : ∀ e ∈ t, P e.op := by
  induction hr with
  | ret a => exact fun e he => absurd he List.not_mem_nil
  | call ans hr ih =>
      intro e he
      rcases List.mem_cons.mp he with rfl | he
      · exact h.1
      · exact ih (h.2 ans) e he

theorem ends_trivial (p : Program Op Ans α) : p.Ends fun _ => True := by
  induction p with
  | ret a => trivial
  | call o k ih => exact ih

/-- Every run ends so. -/
theorem Ends.of_runs {Q : α → Prop} {p : Program Op Ans α} (h : p.Ends Q)
    {t : List (Event Op Ans)} {a : α} (hr : p.Runs t a) : Q a := by
  induction hr with
  | ret a => exact h
  | call ans hr ih => exact ih (h ans)

/-- Every call made against answers in `A` is in `P`. -/
def Asks (A : (o : Op) → Ans o → Prop) (P : Op → Prop) : Program Op Ans α → Prop
  | ret _ => True
  | call o k => P o ∧ ∀ ans, A o ans → Asks A P (k ans)

theorem asks_bind {A : (o : Op) → Ans o → Prop} {P : Op → Prop} {p : Program Op Ans α}
    {f : α → Program Op Ans β} (hp : p.Asks A P) (hf : ∀ a, (f a).Asks A P) :
    (p.bind f).Asks A P := by
  induction p with
  | ret a => exact hf a
  | call o k ih => exact ⟨hp.1, fun ans hans => ih ans (hp.2 ans hans)⟩

theorem Asks.of_bind {A : (o : Op) → Ans o → Prop} {P : Op → Prop} {p : Program Op Ans α}
    {f : α → Program Op Ans β} (h : (p.bind f).Asks A P) : p.Asks A P := by
  induction p with
  | ret a => trivial
  | call o k ih => exact ⟨h.1, fun ans hans => ih ans (h.2 ans hans)⟩

end Program

/-! ## Events among the changes of others -/

section Interleaved

variable {σ ε : Type*} {F : σ → σ → Prop} {effect : σ → ε → σ} {s s' : σ} {t t₁ t₂ : List ε}

/-- The events of `t` take effect one after the other, with a change in `F`
before each of them and after the last. -/
def Interleaved (F : σ → σ → Prop) (effect : σ → ε → σ) : σ → List ε → σ → Prop
  | s, [], s' => F s s'
  | s, e :: t, s' => ∃ r, F s r ∧ Interleaved F effect (effect r e) t s'

/-- With no one else around. -/
theorem interleaved_foldl (hrefl : ∀ s, F s s) (s : σ) (t : List ε) :
    Interleaved F effect s t (t.foldl effect s) := by
  induction t generalizing s with
  | nil => exact hrefl s
  | cons e t ih => exact ⟨s, hrefl s, ih (effect s e)⟩

/-- A run beside others can be cut anywhere. -/
theorem Interleaved.of_append (hrefl : ∀ s, F s s) (h : Interleaved F effect s (t₁ ++ t₂) s') :
    ∃ r, Interleaved F effect s t₁ r ∧ Interleaved F effect r t₂ s' := by
  induction t₁ generalizing s with
  | nil => exact ⟨s, hrefl s, h⟩
  | cons e t₁ ih =>
      rcases h with ⟨r, hF, h⟩
      rcases ih h with ⟨r', h₁, h₂⟩
      exact ⟨r', ⟨r, hF, h₁⟩, h₂⟩

/-- What others keep and each event keeps, holds in the end. -/
theorem Interleaved.keeps {P : σ → Prop} (h : Interleaved F effect s t s')
    (hF : ∀ r r', F r r' → P r → P r') (hE : ∀ r, ∀ e ∈ t, P r → P (effect r e)) (hs : P s) :
    P s' := by
  induction t generalizing s with
  | nil => exact hF _ _ h hs
  | cons e t ih =>
      rcases h with ⟨r, hFr, h⟩
      refine ih h ?_ ?_
      · intro r' e' he'
        exact hE r' e' (List.mem_cons_of_mem _ he')
      · exact hE r e List.mem_cons_self (hF _ _ hFr hs)

end Interleaved

end Lib
