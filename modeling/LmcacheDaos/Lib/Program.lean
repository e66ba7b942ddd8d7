import Mathlib.Data.List.Forall2
import Mathlib.Tactic.Common
import LmcacheDaos.Lib.Machine

/-!
# Programs as trees of calls

A program either returns or makes a call and continues with the answer. What a
call does is not part of it, so one text has several meanings:

* `run`: one call after the other under a handler, with no one else around;
* `threads`: any number of programs over one shared state. A call takes several
  steps there (`CallSteps`), others step in between, and a program whose calls
  are never stepped again has died.

`threads_safe` is the rule for the second meaning: an invariant of the shared
state, a relation that every step respects, what a call in flight knows (`K`)
and what an answer may be (`post`). A program is then checked by itself against
every such answer (`Valid`).
-/

namespace Lib

universe u v w x y

inductive Program (Op : Type u) (Ans : Op → Type v) (α : Type w) where
  | ret (a : α)
  | call (o : Op) (k : Ans o → Program Op Ans α)

namespace Program

variable {Op : Type u} {Ans : Op → Type v} {α β : Type w} {σ : Type x}

/-- `p`, then `f` of what it returns. -/
def bind : Program Op Ans α → (α → Program Op Ans β) → Program Op Ans β
  | ret a, f => f a
  | call o k, f => call o fun ans => (k ans).bind f

/-- Rename the result. -/
def map (f : α → β) (p : Program Op Ans α) : Program Op Ans β := p.bind fun a => ret (f a)

/-- Sequential meaning: the result and the state after it. -/
def run (h : σ → (o : Op) → Ans o × σ) : Program Op Ans α → σ → α × σ
  | ret a, s => (a, s)
  | call o k, s => (k (h s o).1).run h (h s o).2

/-- A call is answered by the handler. -/
theorem run_call (h : σ → (o : Op) → Ans o × σ) (o : Op) (k : Ans o → Program Op Ans α) (s : σ) :
    (call o k).run h s = (k (h s o).1).run h (h s o).2 := rfl

/-- One program after the other. -/
theorem run_bind (h : σ → (o : Op) → Ans o × σ) (p : Program Op Ans α)
    (f : α → Program Op Ans β) (s : σ) :
    (p.bind f).run h s = (f (p.run h s).1).run h (p.run h s).2 := by
  induction p generalizing s with
  | ret a => rfl
  | call o k ih =>
      show ((k (h s o).1).bind f).run h (h s o).2 = _
      rw [ih, run_call]

/-- Mapping the result does not change the run. -/
theorem run_map (h : σ → (o : Op) → Ans o × σ) (f : α → β) (p : Program Op Ans α) (s : σ) :
    (p.map f).run h s = (f (p.run h s).1, (p.run h s).2) := by
  rw [map, run_bind]
  rfl

/-- Whatever the answers, the program makes no call outside `P`. -/
def OnlyCalls (P : Op → Prop) : Program Op Ans α → Prop
  | ret _ => True
  | call o k => P o ∧ ∀ ans, OnlyCalls P (k ans)

/-- Two programs with such calls together have such calls. -/
theorem OnlyCalls.bind {P : Op → Prop} {p : Program Op Ans α} {f : α → Program Op Ans β}
    (hp : p.OnlyCalls P) (hf : ∀ a, (f a).OnlyCalls P) : (p.bind f).OnlyCalls P := by
  induction p with
  | ret a => exact hf a
  | call o k ih => exact ⟨hp.1, fun ans => ih ans (hp.2 ans)⟩

/-- A weaker condition on calls. -/
theorem OnlyCalls.mono {P P' : Op → Prop} (h : ∀ o, P o → P' o) {p : Program Op Ans α}
    (hp : p.OnlyCalls P) : p.OnlyCalls P' := by
  induction p with
  | ret a => trivial
  | call o k ih => exact ⟨h o hp.1, fun ans => ih ans (hp.2 ans)⟩

/-- States that these calls cannot tell apart: the program returns the same in
both. -/
theorem OnlyCalls.run_congr {P : Op → Prop} {h : σ → (o : Op) → Ans o × σ} {R : σ → σ → Prop}
    (hR : ∀ s s' o, R s s' → P o → (h s o).1 = (h s' o).1 ∧ R (h s o).2 (h s' o).2)
    {p : Program Op Ans α} (hp : p.OnlyCalls P) {s s' : σ} (hs : R s s') :
    (p.run h s).1 = (p.run h s').1 := by
  induction p generalizing s s' with
  | ret a => rfl
  | call o k ih =>
      obtain ⟨hans, hnext⟩ := hR s s' o hs hp.1
      rw [run_call, run_call, ← hans]
      exact ih _ (hp.2 _) hnext

/-- Frame rule: a part of the state that these calls keep is kept. -/
theorem OnlyCalls.frame {P : Op → Prop} {h : σ → (o : Op) → Ans o × σ} {γ : Type*} {f : σ → γ}
    (hP : ∀ s o, P o → f (h s o).2 = f s) {p : Program Op Ans α} (hp : p.OnlyCalls P) (s : σ) :
    f (p.run h s).2 = f s := by
  induction p generalizing s with
  | ret a => rfl
  | call o k ih =>
      rw [run_call, ih _ (hp.2 _), hP s o hp.1]

end Program

/-! ## Calls that take several steps -/

/-- How a call is carried out: it starts with some progress, and a step changes
the shared state and leaves the call in flight or answers it. -/
structure CallSteps (σ : Type x) (Op : Type u) (Ans : Op → Type v) (lbl : Type y) where
  Progress : Op → Type w
  start : (o : Op) → Progress o
  step : σ → (o : Op) → Progress o → lbl → Option (σ × (Progress o ⊕ Ans o))

namespace Program

variable {Op : Type u} {Ans : Op → Type v} {α β : Type y} {σ : Type x} {lbl : Type*} {call : Type*}
variable (C : CallSteps σ Op Ans lbl)

/-- A program in the course of its execution. -/
inductive Thread (α : Type y) where
  | done (a : α)
  | inside (o : Op) (f : C.Progress o) (k : Ans o → Program Op Ans α)

variable {C}

/-- Up to its first call. -/
def enter : Program Op Ans α → Thread C α
  | .ret a => .done a
  | .call o k => .inside o (C.start o) k

/-- What a step of a call makes of the thread that made it. -/
def Thread.resume {o : Op} (k : Ans o → Program Op Ans α) : C.Progress o ⊕ Ans o → Thread C α
  | .inl f => .inside o f k
  | .inr ans => (k ans).enter

variable (C)

/-- Programs side by side; a thread remembers the call it was spawned for. -/
def threads (Init : σ → Prop) (body : call → Program Op Ans α) :
    Threads σ (call × Thread C α) call lbl Empty where
  Init := Init
  entry c := (c, (body c).enter)
  step s p a := match p with
    | (_, .done _) => none
    | (c, .inside o f k) => (C.step s o f a).map fun r => (r.1, c, Thread.resume k r.2)
  envStep _ e := e.elim

variable {C}

/-- Against every answer that `post` admits, in every state that others may
have led to, the program ends with a result in `Q`. -/
def Valid (I : σ → Prop) (R : σ → σ → Prop) (K : σ → (o : Op) → C.Progress o → Prop)
    (post : σ → (o : Op) → Ans o → Prop) (Q : α → Prop) : σ → Program Op Ans α → Prop
  | _, .ret a => Q a
  | s, .call o k => K s o (C.start o) ∧
      ∀ s' ans, R s s' → I s' → post s' o ans → Valid I R K post Q s' (k ans)

section Rule

variable {I : σ → Prop} {R : σ → σ → Prop} {K : σ → (o : Op) → C.Progress o → Prop}
variable {post : σ → (o : Op) → Ans o → Prop} {Q : α → Prop}

/-- One program after the other, each with its own postcondition. -/
theorem Valid.bind {Q' : β → Prop} {f : α → Program Op Ans β} {p : Program Op Ans α} :
    ∀ {s : σ}, Valid I R K post Q s p → (∀ s' a, I s' → Q a → Valid I R K post Q' s' (f a)) →
      I s → Valid I R K post Q' s (p.bind f) := by
  induction p with
  | ret a =>
      intro s h hf hI
      exact hf s a hI h
  | call o k ih =>
      intro s h hf hI
      refine ⟨h.1, ?_⟩
      intro s' ans hR hI' hpost
      exact ih ans (h.2 s' ans hR hI' hpost) hf hI'

/-- A postcondition of the mapped result. -/
theorem Valid.map {Q' : β → Prop} {f : α → β} {p : Program Op Ans α} {s : σ} (hI : I s)
    (h : Valid I R K post (fun a => Q' (f a)) s p) : Valid I R K post Q' s (p.map f) := by
  apply h.bind _ hI
  intro _ a _ ha
  exact ha

/-- What a thread in the course of its execution satisfies. -/
def ThreadOk (I : σ → Prop) (R : σ → σ → Prop) (K : σ → (o : Op) → C.Progress o → Prop)
    (post : σ → (o : Op) → Ans o → Prop) (Q : α → Prop) (s : σ) : Thread C α → Prop
  | .done a => Q a
  | .inside o f k => K s o f ∧
      ∀ s' ans, R s s' → I s' → post s' o ans → Valid I R K post Q s' (k ans)

/-- A thread that begins a valid program. -/
theorem threadOk_enter {s : σ} {p : Program Op Ans α} (h : Valid I R K post Q s p) :
    ThreadOk I R K post Q s (p.enter (C := C)) := by
  cases p with
  | ret a => exact h
  | call o k => exact h

/-- A thread keeps what it knows while others step. -/
theorem ThreadOk.stable (htrans : ∀ s t r, R s t → R t r → R s r)
    (hK : ∀ s s' o f, R s s' → I s' → K s o f → K s' o f) {s s' : σ} (hR : R s s') (hI : I s')
    {t : Thread C α} (h : ThreadOk I R K post Q s t) : ThreadOk I R K post Q s' t := by
  cases t with
  | done a => exact h
  | inside o f k =>
      refine ⟨hK s s' o f hR hI h.1, ?_⟩
      intro s'' ans hR' hI' hpost
      exact h.2 s'' ans (htrans _ _ _ hR hR') hI' hpost

end Rule

/-- The rule for programs side by side: if every step of a call in flight keeps
the invariant, respects `R` and leads to what `K` and `post` say, and `K` is
stable under `R`, then programs that are valid when spawned end with results in
their postcondition. -/
theorem threads_safe {Init : σ → Prop} {body : call → Program Op Ans α}
    {ok : ThreadState σ (call × Thread C α) → ThreadLbl call lbl Empty → Prop}
    (I : σ → Prop) (R : σ → σ → Prop) (K : σ → (o : Op) → C.Progress o → Prop)
    (post : σ → (o : Op) → Ans o → Prop) (Q : call → α → Prop)
    (htrans : ∀ s t r, R s t → R t r → R s r)
    (hK : ∀ s s' o f, R s s' → I s' → K s o f → K s' o f)
    (hinit : ∀ s, Init s → I s)
    (hspawn : ∀ s c, I s.shared → ok s (.spawn c) → Valid I R K post (Q c) s.shared (body c))
    (hstep : ∀ s i a c o f k s' r, I s.shared → ok s (.act i a) →
      s.threads[i]? = some (c, .inside o f k) → K s.shared o f →
      C.step s.shared o f a = some (s', r) →
      I s' ∧ R s.shared s' ∧ match r with
        | .inl f' => K s' o f'
        | .inr ans => post s' o ans)
    {s : ThreadState σ (call × Thread C α)}
    (h : (threads C Init body).machine.ReachableVia ok s) :
    I s.shared ∧ ∀ c a, (c, Thread.done a) ∈ s.threads → Q c a := by
  have hsafe := Threads.safety (I := I)
    (J := fun sh p => ThreadOk I R K post (Q p.1) sh p.2) (E := fun _ _ => True)
    (fun _ _ _ => trivial) hinit ?_ ?_ ?_ ?_ h
  · refine ⟨hsafe.1, ?_⟩
    intro c a hmem
    exact hsafe.2.1 (c, .done a) hmem
  · intro t c hI _ hok
    exact ⟨threadOk_enter (hspawn t c hI hok), fun _ _ => trivial⟩
  · -- the thread's own step
    intro t i a p sh p' hI hJ hok hget hst
    obtain ⟨c, th⟩ := p
    cases th with
    | done b => cases hst
    | inside o f k =>
        obtain ⟨⟨s', r⟩, hcs, heq⟩ := Option.map_eq_some_iff.mp hst
        cases heq
        obtain ⟨hI', hR, hpost⟩ := hstep t i a c o f k s' r hI hok hget hJ.1 hcs
        refine ⟨hI', ?_⟩
        cases r with
        | inl f' =>
            refine ⟨hpost, ?_⟩
            intro s'' ans hR' hI'' hans
            exact hJ.2 s'' ans (htrans _ _ _ hR hR') hI'' hans
        | inr ans => exact threadOk_enter (hJ.2 s' ans hR hI' hpost)
  · -- a step of another thread
    intro t i a p sh p' q hI hJ hok hget hst _ hJq _
    obtain ⟨c, th⟩ := p
    cases th with
    | done b => cases hst
    | inside o f k =>
        obtain ⟨⟨s', r⟩, hcs, heq⟩ := Option.map_eq_some_iff.mp hst
        cases heq
        obtain ⟨hI', hR, -⟩ := hstep t i a c o f k s' r hI hok hget hJ.1 hcs
        exact ⟨hJq.stable htrans hK hR hI', trivial⟩
  · intro _ e _ _ _ _
    exact e.elim

end Program

/-! ## Loops that may raise -/

section Loops

variable {ε : Type*} {α : Type*} {β : Type*}

/-- A list of fallible computations, from its first one. -/
theorem mapM_cons_except (f : α → Except ε β) (a : α) (l : List α) :
    (a :: l).mapM f = match f a with
      | .error e => .error e
      | .ok b => match l.mapM f with
        | .error e => .error e
        | .ok bs => .ok (b :: bs) := by
  rw [List.mapM_cons]
  cases f a with
  | error e => rfl
  | ok b =>
      cases l.mapM f with
      | error e => simp [bind, Except.bind]
      | ok bs => simp [bind, Except.bind, pure, Except.pure]

/-- Computations that agree on the list. -/
theorem mapM_congr {f g : α → Except ε β} {l : List α} (h : ∀ a ∈ l, f a = g a) :
    l.mapM f = l.mapM g := by
  induction l with
  | nil => rfl
  | cons a l ih =>
      rw [mapM_cons_except, mapM_cons_except, h a List.mem_cons_self,
        ih fun b hb => h b (List.mem_cons_of_mem _ hb)]

/-- All succeed, each with its own result. -/
theorem mapM_eq_ok {f : α → Except ε β} {l : List α} {bs : List β} :
    l.mapM f = .ok bs ↔ List.Forall₂ (fun a b => f a = .ok b) l bs := by
  induction l generalizing bs with
  | nil =>
      rw [List.mapM_nil, List.forall₂_nil_left_iff]
      exact ⟨fun h => (Except.ok.inj h).symm, fun h => h ▸ rfl⟩
  | cons a l ih =>
      rw [mapM_cons_except, List.forall₂_cons_left_iff]
      constructor
      · intro h
        cases hf : f a with
        | error e =>
            rw [hf] at h
            cases h
        | ok b =>
            rw [hf] at h
            cases hl : l.mapM f with
            | error e =>
                rw [hl] at h
                cases h
            | ok bs' =>
                rw [hl] at h
                cases h
                exact ⟨b, bs', rfl, ih.mp hl, rfl⟩
      · rintro ⟨b, bs', hf, hl, rfl⟩
        rw [hf, ih.mpr hl]

/-- A result is one of the computations'. -/
theorem exists_of_mapM_eq_ok {f : α → Except ε β} {l : List α} {bs : List β}
    (h : l.mapM f = .ok bs) {b : β} (hb : b ∈ bs) : ∃ a ∈ l, f a = .ok b := by
  induction mapM_eq_ok.mp h with
  | nil => cases hb
  | cons hab hrest ih =>
      rcases List.mem_cons.mp hb with rfl | hb
      · exact ⟨_, List.mem_cons_self, hab⟩
      · obtain ⟨a, ha, heq⟩ := ih (mapM_eq_ok.mpr hrest) hb
        exact ⟨a, List.mem_cons_of_mem _ ha, heq⟩

/-- If all succeed each one does. -/
theorem forall_ok_of_mapM_eq_ok {f : α → Except ε β} {l : List α} {bs : List β}
    (h : l.mapM f = .ok bs) : ∀ a ∈ l, ∃ b, f a = .ok b := by
  induction mapM_eq_ok.mp h with
  | nil => simp
  | cons hab hrest ih =>
      intro a ha
      rcases List.mem_cons.mp ha with rfl | ha
      · exact ⟨_, hab⟩
      · exact ih (mapM_eq_ok.mpr hrest) a ha

/-- If not, one of them fails with that error. -/
theorem exists_of_mapM_eq_error {f : α → Except ε β} {l : List α} {e : ε}
    (h : l.mapM f = .error e) : ∃ a ∈ l, f a = .error e := by
  induction l with
  | nil => cases h
  | cons a l ih =>
      rw [mapM_cons_except] at h
      cases hf : f a with
      | error e' =>
          rw [hf] at h
          cases h
          exact ⟨a, List.mem_cons_self, hf⟩
      | ok b =>
          rw [hf] at h
          cases hl : l.mapM f with
          | error e' =>
              rw [hl] at h
              cases h
              obtain ⟨a', hmem, ha'⟩ := ih hl
              exact ⟨a', List.mem_cons_of_mem _ hmem, ha'⟩
          | ok bs =>
              rw [hl] at h
              cases h

/-- A loop none of whose steps raises. -/
theorem mapM_of_ok {f : α → Except ε β} {g : α → β} {l : List α} (h : ∀ a ∈ l, f a = .ok (g a)) :
    l.mapM f = .ok (l.map g) := by
  rw [mapM_eq_ok, List.forall₂_map_right_iff, List.forall₂_same]
  exact h

end Loops

end Lib
