import Mathlib.Algebra.BigOperators.Group.List.Basic
import Mathlib.Algebra.GroupWithZero.Nat
import Mathlib.Data.List.Induction
import Mathlib.Tactic.Common

/-!
# Machines: guarded executable steps, runs and invariants

A machine is an initial-state predicate plus a partial step function; all
nondeterminism sits in the label, so a finite run is a list of labels and can
be evaluated. Two layers:

* `Machine`: runs, reachability along runs whose steps meet a side condition
  (`ReachableVia`), the invariant rule, and runs of one machine that are runs of
  another (`run_simulates`);
* `Threads`: any number of threads over one shared state. A thread is spawned
  by a call, steps on its own label, and the environment may step too. The
  invariant rule `Threads.safety` splits an invariant into a part about the
  shared state, one about each thread and one about every two threads, in the
  manner of Owicki and Gries.
-/

namespace Lib

universe u v w x

/-- An initial-state predicate and an executable, label-driven step. -/
structure Machine (σ : Type u) (lbl : Type v) where
  Init : σ → Prop
  step : σ → lbl → Option σ

namespace Machine

variable {σ : Type u} {lbl : Type v} (M : Machine σ lbl)

/-- States reached by runs each of whose steps meets `ok`, a condition on the
state before the step and on its label. -/
inductive ReachableVia (ok : σ → lbl → Prop) : σ → Prop where
  | init {s : σ} (h : M.Init s) : ReachableVia ok s
  | step {s : σ} {a : lbl} {s' : σ} (hs : ReachableVia ok s) (hok : ok s a)
      (hst : M.step s a = some s') : ReachableVia ok s'

/-- States reached by any run. -/
def Reachable (s : σ) : Prop := M.ReachableVia (fun _ _ => True) s

variable {M}

/-- Invariant induction over the runs that meet `ok`. -/
theorem ReachableVia.invariant {ok : σ → lbl → Prop} (inv : σ → Prop)
    (hinit : ∀ s, M.Init s → inv s)
    (hstep : ∀ s a s', inv s → ok s a → M.step s a = some s' → inv s')
    {s : σ} (h : M.ReachableVia ok s) : inv s := by
  induction h with
  | init hs => exact hinit _ hs
  | step _ hok hst ih => exact hstep _ _ _ ih hok hst

/-- A weaker discipline reaches at least as much. -/
theorem ReachableVia.mono {ok ok' : σ → lbl → Prop} (hle : ∀ s a, ok s a → ok' s a)
    {s : σ} (h : M.ReachableVia ok s) : M.ReachableVia ok' s := by
  induction h with
  | init hs => exact .init hs
  | step _ hok hst ih => exact .step ih (hle _ _ hok) hst

variable (M)

/-- Run a list of labels; `none` when one of them is not enabled. -/
def run : σ → List lbl → Option σ
  | s, [] => some s
  | s, a :: as => (M.step s a).bind fun s' => run s' as

/-- `P` holds at every step of the run: of the state before it and its label. -/
def Along (P : σ → lbl → Prop) : σ → List lbl → Prop
  | _, [] => True
  | s, a :: as => P s a ∧ ∀ s', M.step s a = some s' → Along P s' as

variable {M}

/-- What a run under the discipline reaches is reachable. -/
theorem ReachableVia.run {ok : σ → lbl → Prop} {as : List lbl} :
    ∀ {s s' : σ}, M.ReachableVia ok s → M.Along ok s as → M.run s as = some s' →
      M.ReachableVia ok s' := by
  induction as with
  | nil =>
      intro s s' h _ hrun
      cases hrun
      exact h
  | cons a as ih =>
      intro s s' h hok hrun
      obtain ⟨t, hst, hrest⟩ := Option.bind_eq_some_iff.mp hrun
      exact ih (.step h hok.1 hst) (hok.2 t hst) hrest

/-- What a run reaches is reachable. -/
theorem Reachable.run {s s' : σ} {as : List lbl} (h : M.Reachable s)
    (hrun : M.run s as = some s') : M.Reachable s' := by
  have hall : ∀ (as : List lbl) (s : σ), M.Along (fun _ _ => True) s as := by
    intro as
    induction as with
    | nil => exact fun _ => trivial
    | cons _ _ ih => exact fun _ => ⟨trivial, fun _ _ => ih _⟩
  exact ReachableVia.run h (hall as s) hrun

/-- Two step properties that agree on reachable states agree along every run. -/
theorem along_congr {P Q : σ → lbl → Prop} (hPQ : ∀ s a, M.Reachable s → (P s a ↔ Q s a))
    {as : List lbl} : ∀ {s : σ}, M.Reachable s → (M.Along P s as ↔ M.Along Q s as) := by
  induction as with
  | nil => exact fun _ => Iff.rfl
  | cons a as ih =>
      intro s hs
      refine and_congr (hPQ s a hs) (forall_congr' fun s' => forall_congr' fun hst => ?_)
      exact ih (.step hs trivial hst)

/-- A condition on labels, label by label. -/
theorem along_of_forall {P : lbl → Prop} {as : List lbl} (h : ∀ a ∈ as, P a) :
    ∀ {s : σ}, M.Along (fun _ a => P a) s as := by
  induction as with
  | nil => exact trivial
  | cons a as ih =>
      intro s
      exact ⟨h a (by simp), fun _ _ => ih fun b hb => h b (List.mem_cons_of_mem _ hb)⟩

/-- The machine with a history beside its state: `observe` adds to it what a step says. -/
def recording {η : Type w} (M : Machine σ lbl) (h₀ : η) (observe : σ → η → lbl → η) :
    Machine (σ × η) lbl where
  Init x := M.Init x.1 ∧ x.2 = h₀
  step x a := (M.step x.1 a).map fun s' => (s', observe x.1 x.2 a)

/-- A history does not get in the way: what holds along a run holds along the run with
its history, and conversely. -/
theorem along_recording {η : Type w} {h₀ : η} {observe : σ → η → lbl → η}
    {P : σ → lbl → Prop} {as : List lbl} : ∀ {s : σ} {h : η},
    (M.recording h₀ observe).Along (fun x a => P x.1 a) (s, h) as ↔ M.Along P s as := by
  induction as with
  | nil => exact fun {_ _} => Iff.rfl
  | cons a as ih =>
      intro s h
      refine and_congr Iff.rfl ?_
      constructor
      · intro hrest s' hst
        exact ih.mp (hrest (s', observe s h a) (by simp [recording, hst]))
      · rintro hrest ⟨s', h'⟩ hst
        obtain ⟨t, hstep, heq⟩ := Option.map_eq_some_iff.mp hst
        cases heq
        exact ih.mpr (hrest s' hstep)

/-- The same for what holds of these labels in every state. -/
theorem along_of_forall_states {P : σ → lbl → Prop} {as : List lbl} (h : ∀ a ∈ as, ∀ s, P s a) :
    ∀ {s : σ}, M.Along P s as := by
  induction as with
  | nil => exact trivial
  | cons a as ih =>
      intro s
      exact ⟨h a (by simp) s, fun _ _ => ih fun b hb => h b (List.mem_cons_of_mem _ hb)⟩

variable (M) in
/-- `P` holds in every state of the run, the first and the last included. -/
def Throughout (P : σ → Prop) : σ → List lbl → Prop
  | s, [] => P s
  | s, a :: as => P s ∧ ∀ s', M.step s a = some s' → Throughout P s' as

/-- What holds throughout holds at the start. -/
theorem Throughout.first {P : σ → Prop} {s : σ} {as : List lbl} (h : M.Throughout P s as) :
    P s := by
  cases as with
  | nil => exact h
  | cons _ _ => exact h.1

/-- Of every state of the run: also of the state before one step more. -/
theorem Throughout.along {P : σ → Prop} {as : List lbl} {a : lbl} :
    ∀ {s : σ}, M.Throughout P s as → M.Along (fun s _ => P s) s (as ++ [a]) := by
  induction as with
  | nil => exact fun h => ⟨h, fun _ _ => trivial⟩
  | cons b as ih => exact fun h => ⟨h.1, fun s' hst => ih (h.2 s' hst)⟩

/-- What a step cannot mend holds throughout a run if it holds at its end. -/
theorem throughout_iff_last {P : σ → Prop} (hback : ∀ s a s', M.step s a = some s' → P s' → P s)
    {as : List lbl} : ∀ {s s' : σ}, M.run s as = some s' → (M.Throughout P s as ↔ P s') := by
  induction as with
  | nil =>
      intro s s' hrun
      cases hrun
      exact Iff.rfl
  | cons a as ih =>
      intro s s' hrun
      rcases Option.bind_eq_some_iff.mp hrun with ⟨t, hst, hrest⟩
      constructor
      · intro h
        exact (ih hrest).mp (h.2 t hst)
      · intro h
        have ht := (ih hrest).mpr h
        refine ⟨hback s a t hst ht.first, fun t' hst' => ?_⟩
        rw [hst] at hst'
        cases hst'
        exact ht

/-- Two laws that agree on reachable states agree throughout every run. -/
theorem throughout_congr {P Q : σ → Prop} (hPQ : ∀ s, M.Reachable s → (P s ↔ Q s))
    {as : List lbl} : ∀ {s : σ}, M.Reachable s → (M.Throughout P s as ↔ M.Throughout Q s as) := by
  induction as with
  | nil => exact fun hs => hPQ _ hs
  | cons a as ih =>
      intro s hs
      refine and_congr (hPQ s hs) (forall_congr' fun s' => forall_congr' fun hst => ?_)
      exact ih (.step hs trivial hst)

/-- A law that a step keeps exactly when it meets `ok` holds throughout a run
exactly when every step the run takes meets `ok`. -/
theorem throughout_iff {P : σ → Prop} {ok : σ → lbl → Prop}
    (hstep : ∀ s a s', P s → M.step s a = some s' → (P s' ↔ ok s a)) {as : List lbl} :
    ∀ {s : σ}, P s →
      (M.Throughout P s as ↔ M.Along (fun s a => (M.step s a).isSome → ok s a) s as) := by
  induction as with
  | nil =>
      intro s hs
      exact ⟨fun _ => trivial, fun _ => hs⟩
  | cons a as ih =>
      intro s hs
      constructor
      · rintro ⟨-, hrest⟩
        refine ⟨fun hen => ?_, fun s' hst => (ih (hrest s' hst).first).mp (hrest s' hst)⟩
        obtain ⟨s', hst⟩ := Option.isSome_iff_exists.mp hen
        exact (hstep s a s' hs hst).mp (hrest s' hst).first
      · rintro ⟨hok, hrest⟩
        refine ⟨hs, fun s' hst => ?_⟩
        have hs' : P s' := (hstep s a s' hs hst).mpr (hok (by rw [hst]; rfl))
        exact (ih hs').mpr (hrest s' hst)

/-- A run of one step. -/
theorem run_singleton {s : σ} {a : lbl} : M.run s [a] = M.step s a := by
  simp [Machine.run]

/-- When each of some steps uses up work, what is left bounds how many of them can be
made. -/
theorem length_add_work_le {own : lbl → Prop} {work : σ → ℕ}
    (hlt : ∀ s a t, own a → M.step s a = some t → work t < work s) {as : List lbl} :
    ∀ {s t : σ}, (∀ a ∈ as, own a) → M.run s as = some t → as.length + work t ≤ work s := by
  induction as with
  | nil =>
      intro s t _ hrun
      cases hrun
      simp
  | cons a as ih =>
      intro s t hown hrun
      obtain ⟨s₁, hst, hrest⟩ := Option.bind_eq_some_iff.mp hrun
      have hle := ih (fun b hb => hown b (List.mem_cons_of_mem _ hb)) hrest
      have hstep := hlt s a s₁ (hown a (by simp)) hst
      rw [List.length_cons]
      omega

/-- A run in two parts. -/
theorem run_append {s : σ} {as bs : List lbl} :
    M.run s (as ++ bs) = (M.run s as).bind fun t => M.run t bs := by
  induction as generalizing s with
  | nil => rfl
  | cons a as ih =>
      cases h : M.step s a <;> simp [Machine.run, h, ih]

/-- Steps that are runs of another machine make runs that are. -/
theorem run_simulates {τ : Type w} {lbl' : Type x} {N : Machine τ lbl'} {f : σ → τ}
    {g : lbl → List lbl'} {ok : lbl → Prop}
    (hsim : ∀ s a s', ok a → M.step s a = some s' → N.run (f s) (g a) = some (f s'))
    {as : List lbl} (hok : ∀ a ∈ as, ok a) {s s' : σ} (hrun : M.run s as = some s') :
    N.run (f s) (as.flatMap g) = some (f s') := by
  induction as generalizing s with
  | nil =>
      cases hrun
      rfl
  | cons a as ih =>
      rcases Option.bind_eq_some_iff.mp hrun with ⟨t, hst, hrest⟩
      rw [List.flatMap_cons, run_append, hsim s a t (hok a List.mem_cons_self) hst]
      exact ih (fun b hb => hok b (List.mem_cons_of_mem _ hb)) hrest

/-- A condition along both parts of a run. -/
theorem along_append {P : σ → lbl → Prop} {as bs : List lbl} :
    ∀ {s : σ}, M.Along P s as → (∀ t, M.run s as = some t → M.Along P t bs) →
      M.Along P s (as ++ bs) := by
  induction as with
  | nil =>
      intro s _ h
      exact h s rfl
  | cons a as ih =>
      intro s has h
      refine ⟨has.1, fun s' hst => ih (has.2 s' hst) fun t hrun => h t ?_⟩
      exact Option.bind_eq_some_iff.mpr ⟨s', hst, hrun⟩

/-! ### Runs seen as runs of another machine -/

section Seen

variable {τ : Type w} {lbl' : Type x} {N : Machine τ lbl'} {f : σ → τ}
  {g : σ → lbl → List lbl'} {inv : σ → Prop}

variable (M) in
/-- The steps of a run, each seen as `g` of it. -/
def seen (g : σ → lbl → List lbl') : σ → List lbl → List lbl'
  | _, [] => []
  | s, a :: as => g s a ++ match M.step s a with
    | some s' => seen g s' as
    | none => []

/-- What is seen of the first step, and then of the rest. -/
theorem seen_cons {s s' : σ} {a : lbl} {as : List lbl} (h : M.step s a = some s') :
    M.seen g s (a :: as) = g s a ++ M.seen g s' as := by
  rw [seen, h]

/-- What is seen of a run in two parts. -/
theorem seen_append {s t : σ} {as bs : List lbl} (h : M.run s as = some t) :
    M.seen g s (as ++ bs) = M.seen g s as ++ M.seen g t bs := by
  induction as generalizing s with
  | nil =>
      cases h
      rfl
  | cons a as ih =>
      rcases Option.bind_eq_some_iff.mp h with ⟨t', hst, hrest⟩
      rw [List.cons_append, seen_cons hst, seen_cons hst, ih hrest, List.append_assoc]

/-- A run is seen as a run of the other machine, when each step is. -/
theorem run_seen (hinv : ∀ s a s', inv s → M.step s a = some s' → inv s')
    (hsim : ∀ s a s', inv s → M.step s a = some s' → N.run (f s) (g s a) = some (f s'))
    {as : List lbl} : ∀ {s s' : σ}, inv s → M.run s as = some s' →
      N.run (f s) (M.seen g s as) = some (f s') := by
  induction as with
  | nil =>
      intro s s' _ hrun
      cases hrun
      rfl
  | cons a as ih =>
      intro s s' hs hrun
      rcases Option.bind_eq_some_iff.mp hrun with ⟨t, hst, hrest⟩
      rw [seen_cons hst, run_append, hsim s a t hs hst]
      exact ih (hinv s a t hs hst) hrest

/-- What holds along a run holds along the run it is seen as. -/
theorem along_seen {P : σ → lbl → Prop} {Q : τ → lbl' → Prop}
    (hinv : ∀ s a s', inv s → M.step s a = some s' → inv s')
    (hsim : ∀ s a s', inv s → M.step s a = some s' → N.run (f s) (g s a) = some (f s'))
    (hP : ∀ s a s', inv s → M.step s a = some s' → P s a → N.Along Q (f s) (g s a))
    {as : List lbl} : ∀ {s s' : σ}, inv s → M.run s as = some s' → M.Along P s as →
      N.Along Q (f s) (M.seen g s as) := by
  induction as with
  | nil => exact fun _ _ _ => trivial
  | cons a as ih =>
      intro s s' hs hrun hPs
      rcases Option.bind_eq_some_iff.mp hrun with ⟨t, hst, hrest⟩
      rw [seen_cons hst]
      refine along_append (hP s a t hs hst hPs.1) fun t' hrun' => ?_
      rw [hsim s a t hs hst] at hrun'
      cases hrun'
      exact ih (hinv s a t hs hst) hrest (hPs.2 t hst)

end Seen

/-! ### Runs read from their end -/

/-- A run and one step more. -/
theorem run_concat {s : σ} {as : List lbl} {a : lbl} :
    M.run s (as ++ [a]) = (M.run s as).bind fun t => M.step t a := by
  induction as generalizing s with
  | nil =>
      cases h : M.step s a <;> simp [Machine.run, h]
  | cons b bs ih =>
      cases h : M.step s b <;> simp [Machine.run, h, ih]

/-- A condition along a run and one step more. -/
theorem Along.concat {P : σ → lbl → Prop} {as : List lbl} {a : lbl} :
    ∀ {s t : σ}, M.Along P s (as ++ [a]) → M.run s as = some t → M.Along P s as ∧ P t a := by
  induction as with
  | nil =>
      intro s t h hrun
      cases hrun
      exact ⟨trivial, h.1⟩
  | cons b bs ih =>
      intro s t h hrun
      obtain ⟨u, hst, hrest⟩ := Option.bind_eq_some_iff.mp hrun
      refine ⟨⟨h.1, fun u' hst' => ?_⟩, (ih (h.2 u hst) hrest).2⟩
      rw [hst] at hst'
      cases hst'
      exact (ih (h.2 u hst) hrest).1

/-- The same as an equivalence. -/
theorem along_concat_iff {P : σ → lbl → Prop} {s t : σ} {as : List lbl} {a : lbl}
    (hrun : M.run s as = some t) : M.Along P s (as ++ [a]) ↔ M.Along P s as ∧ P t a := by
  constructor
  · exact fun h => h.concat hrun
  · rintro ⟨has, ha⟩
    refine along_append has fun t' hrun' => ?_
    rw [hrun] at hrun'
    cases hrun'
    exact ⟨ha, fun _ _ => trivial⟩

variable (M) in
/-- The run passes through the state `t`. -/
def Visits (s : σ) (as : List lbl) (t : σ) : Prop :=
  ∃ n ≤ as.length, M.run s (as.take n) = some t

/-- A run visits its last state. -/
theorem visits_last {s t : σ} {as : List lbl} (h : M.run s as = some t) : M.Visits s as t :=
  ⟨as.length, Nat.le_refl _, by rwa [List.take_length]⟩

/-- A longer run visits what the shorter one did. -/
theorem Visits.concat {s t : σ} {as : List lbl} (h : M.Visits s as t) (a : lbl) :
    M.Visits s (as ++ [a]) t := by
  obtain ⟨n, hn, hrun⟩ := h
  refine ⟨n, by simp; omega, ?_⟩
  rwa [List.take_append_of_le_length hn]

/-- What holds at every prefix of a run, by computation. -/
theorem forall_visits {s : σ} {as : List lbl} (P : σ → Prop) [DecidablePred P]
    (h : (List.range (as.length + 1)).all
      (fun n => (M.run s (as.take n)).all fun t => decide (P t)) = true) :
    ∀ t, M.Visits s as t → P t := by
  rintro t ⟨n, hn, hrun⟩
  have hn' := List.all_eq_true.mp h n (List.mem_range.mpr (by omega))
  rw [hrun] at hn'
  exact of_decide_eq_true hn'

/-- Induction over the runs from `s₀` that meet `ok`, for what depends on the
states a run has passed through. -/
theorem run_induction {ok : σ → lbl → Prop} {s₀ : σ} (P : List lbl → σ → Prop) (hinit : P [] s₀)
    (hstep : ∀ as s a s', P as s → M.run s₀ as = some s → ok s a → M.step s a = some s' →
      P (as ++ [a]) s')
    {as : List lbl} : ∀ {s : σ}, M.Along ok s₀ as → M.run s₀ as = some s → P as s := by
  induction as using List.reverseRecOn with
  | nil =>
      intro s _ hrun
      cases hrun
      exact hinit
  | append_singleton as a ih =>
      intro s' hok hrun
      rw [run_concat] at hrun
      obtain ⟨s, hs, hst⟩ := Option.bind_eq_some_iff.mp hrun
      obtain ⟨hok, hoka⟩ := hok.concat hs
      exact hstep as s a s' (ih hok hs) hs hoka hst

/-- ... over all runs from `s₀`. -/
theorem run_induction_all {s₀ : σ} (P : List lbl → σ → Prop) (hinit : P [] s₀)
    (hstep : ∀ as s a s', P as s → M.run s₀ as = some s → M.step s a = some s' → P (as ++ [a]) s')
    {as : List lbl} {s : σ} (hrun : M.run s₀ as = some s) : P as s :=
  run_induction (M := M) P hinit (fun as s a s' hP hs (_ : True) hst => hstep as s a s' hP hs hst)
    (along_of_forall (P := fun _ => True) fun _ _ => trivial) hrun

/-- `Along` evaluated, for runs that are checked by computation. -/
def alongB (M : Machine σ lbl) (P : σ → lbl → Prop) [∀ s a, Decidable (P s a)] :
    σ → List lbl → Bool
  | _, [] => true
  | s, a :: as => decide (P s a) && match M.step s a with
    | none => true
    | some s' => alongB M P s' as

/-- The condition can be evaluated along a run. -/
theorem along_of_alongB {P : σ → lbl → Prop} [∀ s a, Decidable (P s a)] {as : List lbl} :
    ∀ {s : σ}, M.alongB P s as = true → M.Along P s as := by
  induction as with
  | nil => exact fun _ => trivial
  | cons a as ih =>
      intro s h
      rw [alongB, Bool.and_eq_true, decide_eq_true_eq] at h
      refine ⟨h.1, fun s' hst => ih ?_⟩
      simpa [hst] using h.2

/-- A run checked by computation: its end is reached through `ok` and meets `Q`. -/
theorem ReachableVia.of_run {ok : σ → lbl → Prop} [∀ s a, Decidable (ok s a)] {s₀ : σ}
    (h₀ : M.Init s₀) (as : List lbl) (hok : M.alongB ok s₀ as = true) (Q : σ → Prop)
    [DecidablePred Q] (hrun : (M.run s₀ as).any (fun s => decide (Q s)) = true) :
    ∃ s, M.ReachableVia ok s ∧ Q s := by
  obtain ⟨s, hs, hQ⟩ := (Option.any_eq_true _ _).mp hrun
  exact ⟨s, .run (.init h₀) (along_of_alongB hok) hs, of_decide_eq_true hQ⟩

/-- A state found by evaluating a run is reachable. -/
theorem Reachable.of_run {s₀ : σ} (h₀ : M.Init s₀) (as : List lbl) (Q : σ → Prop)
    [DecidablePred Q] (hrun : (M.run s₀ as).any (fun s => decide (Q s)) = true) :
    ∃ s, M.Reachable s ∧ Q s := by
  obtain ⟨s, hs, hQ⟩ := (Option.any_eq_true _ _).mp hrun
  exact ⟨s, .run (.init h₀) hs, of_decide_eq_true hQ⟩

end Machine

/-! ## Threads over a shared state -/

/-- Labels of a threaded machine: a call spawns a thread, thread `i` steps, or
the environment steps. -/
inductive ThreadLbl (call : Type u) (act : Type v) (env : Type w) where
  | spawn (c : call)
  | act (i : ℕ) (a : act)
  | env (e : env)
deriving DecidableEq, Repr

/-- Shared state and the local state of every thread spawned so far. -/
structure ThreadState (S : Type u) (P : Type v) where
  shared : S
  threads : List P

/-- A threaded program: where a call starts, how a thread steps on its label
and how the environment steps. -/
structure Threads (S : Type u) (P : Type v) (call : Type w) (act : Type x) (env : Type*) where
  Init : S → Prop
  entry : call → P
  step : S → P → act → Option (S × P)
  envStep : S → env → Option S

namespace Threads

variable {S : Type u} {P : Type v} {call : Type w} {act : Type x} {env : Type*}
variable (T : Threads S P call act env)

/-- The interleaving machine of a threaded program. -/
def machine : Machine (ThreadState S P) (ThreadLbl call act env) where
  Init s := T.Init s.shared ∧ s.threads = []
  step s
    | .spawn c => some { s with threads := s.threads ++ [T.entry c] }
    | .act i a => (s.threads[i]?).bind fun p =>
        (T.step s.shared p a).map fun r => ⟨r.1, s.threads.set i r.2⟩
    | .env e => (T.envStep s.shared e).map fun sh => { s with shared := sh }

variable {T}

/-- A step of a thread. -/
theorem step_act_iff {s s' : ThreadState S P} {i : ℕ} {a : act} :
    T.machine.step s (.act i a) = some s' ↔
      ∃ p sh p', s.threads[i]? = some p ∧ T.step s.shared p a = some (sh, p') ∧
        s' = ⟨sh, s.threads.set i p'⟩ := by
  simp only [machine, Option.bind_eq_some_iff, Option.map_eq_some_iff]
  constructor
  · rintro ⟨p, hp, ⟨sh, p'⟩, hst, rfl⟩
    exact ⟨p, sh, p', hp, hst, rfl⟩
  · rintro ⟨p, sh, p', hp, hst, rfl⟩
    exact ⟨p, hp, ⟨sh, p'⟩, hst, rfl⟩

/-- A step of the environment. -/
theorem step_env_iff {s s' : ThreadState S P} {e : env} :
    T.machine.step s (.env e) = some s' ↔
      ∃ sh, T.envStep s.shared e = some sh ∧ s' = { s with shared := sh } := by
  simp only [machine, Option.map_eq_some_iff]
  constructor
  · rintro ⟨sh, hst, rfl⟩
    exact ⟨sh, hst, rfl⟩
  · rintro ⟨sh, hst, rfl⟩
    exact ⟨sh, hst, rfl⟩

/-- Entry `j` after entry `i` was replaced: the new value, or the old entry of
another index. -/
theorem getElem?_set_cases {l : List P} {i j : ℕ} {x q : P} (h : (l.set i x)[j]? = some q) :
    (j = i ∧ q = x) ∨ (j ≠ i ∧ l[j]? = some q) := by
  by_cases hij : i = j
  · subst hij
    rw [List.getElem?_set_self'] at h
    obtain ⟨_, -, rfl⟩ := Option.map_eq_some_iff.mp h
    exact .inl ⟨rfl, rfl⟩
  · rw [List.getElem?_set_ne hij] at h
    exact .inr ⟨Ne.symm hij, h⟩

/-- An entry of a longer list is the new one or an old one. -/
theorem getElem?_concat_cases {l : List P} {j : ℕ} {x q : P} (h : (l ++ [x])[j]? = some q) :
    (j = l.length ∧ q = x) ∨ l[j]? = some q := by
  rcases Nat.lt_trichotomy j l.length with hlt | heq | hgt
  · exact .inr (by rwa [List.getElem?_append_left hlt] at h)
  · subst heq
    simp only [List.getElem?_concat_length, Option.some.injEq] at h
    exact .inl ⟨rfl, h.symm⟩
  · rw [List.getElem?_eq_none (by simp; omega)] at h
    cases h

/-- A step of the thread that was spawned last. -/
theorem step_last {sh sh' : S} {ps : List P} {p p' : P} {a : act}
    (h : T.step sh p a = some (sh', p')) :
    T.machine.step ⟨sh, ps ++ [p]⟩ (.act ps.length a) = some ⟨sh', ps ++ [p']⟩ := by
  refine step_act_iff.mpr ⟨p, sh', p', List.getElem?_concat_length, h, ?_⟩
  rw [List.set_append_right _ _ (Nat.le_refl _), Nat.sub_self]
  rfl

/-- The invariant rule for threads: `I` of the shared state, `J` of each
thread and `E` of every two threads are established by `Init` and by spawning,
kept by a thread's own step, and stable under the steps of the others. -/
theorem safety {ok : ThreadState S P → ThreadLbl call act env → Prop}
    {I : S → Prop} {J : S → P → Prop} {E : P → P → Prop} (hsymm : ∀ p q, E p q → E q p)
    (hinit : ∀ s, T.Init s → I s)
    (hspawn : ∀ s c, I s.shared → (∀ p ∈ s.threads, J s.shared p) → ok s (.spawn c) →
      J s.shared (T.entry c) ∧ ∀ q ∈ s.threads, E (T.entry c) q)
    (hown : ∀ s i a p sh p', I s.shared → J s.shared p → ok s (.act i a) →
      s.threads[i]? = some p → T.step s.shared p a = some (sh, p') → I sh ∧ J sh p')
    (hother : ∀ s i a p sh p' q, I s.shared → J s.shared p → ok s (.act i a) →
      s.threads[i]? = some p → T.step s.shared p a = some (sh, p') →
      q ∈ s.threads → J s.shared q → E p q → J sh q ∧ E p' q)
    (henv : ∀ s e sh, I s.shared → ok s (.env e) → T.envStep s.shared e = some sh →
      I sh ∧ ∀ q, J s.shared q → J sh q)
    {s : ThreadState S P} (h : T.machine.ReachableVia ok s) :
    I s.shared ∧ (∀ p ∈ s.threads, J s.shared p) ∧
      ∀ (i j : ℕ) p q, i ≠ j → s.threads[i]? = some p → s.threads[j]? = some q → E p q := by
  refine h.invariant (fun s => I s.shared ∧ (∀ p ∈ s.threads, J s.shared p) ∧
    ∀ (i j : ℕ) p q, i ≠ j → s.threads[i]? = some p → s.threads[j]? = some q → E p q) ?_ ?_
  · rintro s ⟨hs, hnil⟩
    rw [hnil]
    exact ⟨hinit _ hs, by simp, by simp⟩
  · rintro s a s' ⟨hI, hJ, hE⟩ hok hst
    cases a with
    | spawn c =>
        cases hst
        obtain ⟨hnew, hEnew⟩ := hspawn s c hI hJ hok
        refine ⟨hI, fun p hp => ?_, fun i j p q hij hi hj => ?_⟩
        · rcases List.mem_append.mp hp with hp | hp
          · exact hJ p hp
          · rw [List.mem_singleton.mp hp]
            exact hnew
        · -- at most one of the two is the new thread
          rcases getElem?_concat_cases hi with ⟨hi', rfl⟩ | hi'
          · rcases getElem?_concat_cases hj with ⟨hj', -⟩ | hj'
            · exact absurd (hi'.trans hj'.symm) hij
            · exact hEnew q (List.mem_of_getElem? hj')
          · rcases getElem?_concat_cases hj with ⟨-, rfl⟩ | hj'
            · exact hsymm _ _ (hEnew p (List.mem_of_getElem? hi'))
            · exact hE i j p q hij hi' hj'
    | act i a =>
        obtain ⟨p, sh, p', hp, hstep, rfl⟩ := step_act_iff.mp hst
        have hJp := hJ p (List.mem_of_getElem? hp)
        have hown' := hown s i a p sh p' hI hJp hok hp hstep
        have hoth : ∀ (j : ℕ) q, j ≠ i → s.threads[j]? = some q → J sh q ∧ E p' q :=
          fun j q hji hq =>
          hother s i a p sh p' q hI hJp hok hp hstep (List.mem_of_getElem? hq)
            (hJ q (List.mem_of_getElem? hq)) (hE i j p q (Ne.symm hji) hp hq)
        refine ⟨hown'.1, fun q hq => ?_, fun j k q r hjk hj hk => ?_⟩
        · obtain ⟨j, hj⟩ := List.mem_iff_getElem?.mp hq
          rcases getElem?_set_cases hj with ⟨-, rfl⟩ | ⟨hji, hj⟩
          · exact hown'.2
          · exact (hoth j q hji hj).1
        · rcases getElem?_set_cases hj with ⟨hji, hqp⟩ | ⟨hji, hj'⟩
          · rcases getElem?_set_cases hk with ⟨hki, -⟩ | ⟨hki, hk'⟩
            · exact absurd (hji.trans hki.symm) hjk
            · exact hqp ▸ (hoth k r hki hk').2
          · rcases getElem?_set_cases hk with ⟨-, hrp⟩ | ⟨-, hk'⟩
            · exact hsymm _ _ (hrp ▸ (hoth j q hji hj').2)
            · exact hE j k q r hjk hj' hk'
    | env e =>
        obtain ⟨sh, hstep, rfl⟩ := step_env_iff.mp hst
        have henv' := henv s e sh hI hok hstep
        exact ⟨henv'.1, fun q hq => henv'.2 q (hJ q hq), hE⟩

end Threads

/-! ## What the threads contribute -/

/-- A filtered list, entry by entry. -/
theorem filterMap_cons_eq {α : Type u} {β : Type v} (f : α → Option β) (y : α) (ys : List α) :
    (y :: ys).filterMap f = (f y).toList ++ ys.filterMap f := by
  cases h : f y <;> simp [h]

/-- What a list contributes through `f`, after one entry was replaced. -/
theorem perm_filterMap_set {α : Type u} {β : Type v} (f : α → Option β) {l : List α} {i : ℕ}
    {a : α} (b : α) (h : l[i]? = some a) :
    ((l.set i b).filterMap f ++ (f a).toList).Perm (l.filterMap f ++ (f b).toList) := by
  induction l generalizing i with
  | nil => simp at h
  | cons y ys ih =>
      cases i with
      | zero =>
          simp only [List.getElem?_cons_zero, Option.some.injEq] at h
          subst h
          rw [List.set_cons_zero, filterMap_cons_eq, filterMap_cons_eq,
            List.append_assoc _ _ (f b).toList]
          refine List.perm_append_comm.trans (List.Perm.append_left _ ?_)
          exact List.perm_append_comm
      | succ i =>
          simp only [List.getElem?_cons_succ] at h
          rw [List.set_cons_succ, filterMap_cons_eq, filterMap_cons_eq, List.append_assoc,
            List.append_assoc]
          exact (ih h).append_left _

/-- The same through a function to lists. -/
theorem perm_flatMap_set {α : Type u} {β : Type v} (f : α → List β) {l : List α} {i : ℕ}
    {a : α} (b : α) (h : l[i]? = some a) :
    ((l.set i b).flatMap f ++ f a).Perm (l.flatMap f ++ f b) := by
  induction l generalizing i with
  | nil => simp at h
  | cons y ys ih =>
      cases i with
      | zero =>
          simp only [List.getElem?_cons_zero, Option.some.injEq] at h
          subst h
          rw [List.set_cons_zero, List.flatMap_cons, List.flatMap_cons, List.append_assoc _ _ (f b)]
          refine List.perm_append_comm.trans (List.Perm.append_left _ ?_)
          exact List.perm_append_comm
      | succ i =>
          simp only [List.getElem?_cons_succ] at h
          rw [List.set_cons_succ, List.flatMap_cons, List.flatMap_cons, List.append_assoc,
            List.append_assoc]
          exact (ih h).append_left _

/-- Replacing an entry by one that looks the same. -/
theorem perm_filterMap_set_same {α : Type u} {β : Type v} {f : α → Option β} {l : List α} {i : ℕ}
    {a b : α} (h : l[i]? = some a) (hf : f b = f a) :
    ((l.set i b).filterMap f).Perm (l.filterMap f) := by
  have hset := perm_filterMap_set f b h
  rw [hf] at hset
  exact (List.perm_append_right_iff _).mp hset

/-- Replacing an entry that is not seen by one that is. -/
theorem perm_filterMap_set_new {α : Type u} {β : Type v} {f : α → Option β} {l : List α} {i : ℕ}
    {a b : α} {x : β} (h : l[i]? = some a) (ha : f a = none) (hb : f b = some x) :
    ((l.set i b).filterMap f).Perm (l.filterMap f ++ [x]) := by
  have hset := perm_filterMap_set f b h
  rwa [ha, hb, Option.toList_none, List.append_nil] at hset

/-- The number of entries with a property, after one entry was replaced. -/
theorem countP_set_entry {α : Type u} {p : α → Bool} {l : List α} {i : ℕ} {a : α} (b : α)
    (h : l[i]? = some a) :
    (l.set i b).countP p + (p a).toNat = l.countP p + (p b).toNat := by
  obtain ⟨hi, rfl⟩ := List.getElem?_eq_some_iff.mp h
  have hpos : p l[i] = true → 0 < l.countP p := fun hp =>
    List.countP_pos_iff.mpr ⟨l[i], List.getElem_mem hi, hp⟩
  rw [List.countP_set hi]
  cases hp : p l[i] <;> cases hb : p b <;>
    simp only [hp, if_true, Bool.false_eq_true, if_false, Bool.toNat_true, Bool.toNat_false,
      forall_const] at hpos ⊢ <;> omega

/-- A contribution that occurs once comes from one entry. -/
theorem index_unique {α : Type u} {β : Type v} {f : α → Option β} {l : List α}
    (hnd : (l.filterMap f).Nodup) {i j : ℕ} {a b : α} {x : β} (hi : l[i]? = some a)
    (hj : l[j]? = some b) (ha : f a = some x) (hb : f b = some x) : i = j := by
  rw [List.Nodup, List.pairwise_filterMap] at hnd
  obtain ⟨hi', hia⟩ := List.getElem?_eq_some_iff.mp hi
  obtain ⟨hj', hjb⟩ := List.getElem?_eq_some_iff.mp hj
  have hpair := List.pairwise_iff_getElem.mp hnd
  rcases Nat.lt_trichotomy i j with h | h | h
  · exact absurd rfl (hpair i j hi' hj' h x (hia ▸ ha) x (hjb ▸ hb))
  · exact h
  · exact absurd rfl (hpair j i hj' hi' h x (hjb ▸ hb) x (hia ▸ ha))

/-- Contributions through `g` are among those through `f`. -/
theorem filterMap_sublist_filterMap {α : Type u} {β : Type v} {f g : α → Option β}
    (h : ∀ a x, g a = some x → f a = some x) (l : List α) :
    (l.filterMap g).Sublist (l.filterMap f) := by
  induction l with
  | nil => exact .slnil
  | cons y ys ih =>
      rw [filterMap_cons_eq, filterMap_cons_eq]
      refine List.Sublist.append ?_ ih
      cases hg : g y with
      | none => exact List.nil_sublist _
      | some x =>
          rw [h y x hg]

/-! ## Sums over the threads -/

/-- A mapped sum after one entry was replaced and the mapped function changed
on no other entry. -/
theorem sum_map_set {α : Type u} {f g : α → ℕ} {l : List α} {i : ℕ} {a b : α}
    (h : l[i]? = some a) (hfg : ∀ (j : ℕ) x, j ≠ i → l[j]? = some x → g x = f x) :
    ((l.set i b).map g).sum + f a = (l.map f).sum + g b := by
  induction l generalizing i with
  | nil => simp at h
  | cons y ys ih =>
      cases i with
      | zero =>
          simp only [List.getElem?_cons_zero, Option.some.injEq] at h
          subst h
          have htail : ys.map g = ys.map f := by
            refine List.map_congr_left fun x hx => ?_
            obtain ⟨j, hj⟩ := List.mem_iff_getElem?.mp hx
            exact hfg (j + 1) x (by omega) (by simpa using hj)
          simp only [List.set_cons_zero, List.map_cons, List.sum_cons, htail]
          omega
      | succ i =>
          simp only [List.getElem?_cons_succ] at h
          have hy : g y = f y := hfg 0 y (by omega) rfl
          have := ih h fun j x hj hx => hfg (j + 1) x (by omega) (by simpa using hx)
          simp only [List.set_cons_succ, List.map_cons, List.sum_cons, hy]
          omega

end Lib
