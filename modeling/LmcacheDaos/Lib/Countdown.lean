import Mathlib.Algebra.Order.BigOperators.Group.List
import Mathlib.Algebra.Order.Group.Nat
import Mathlib.Data.List.Perm.Lattice
import Mathlib.Data.List.Nodup
import LmcacheDaos.Lib.Machine

/-!
# A countdown that keeps the first error

A counter is armed with `n` and `n` tasks are submitted. A task records its
error, if it has one, and then counts down; the two are steps of their own, in
any order between tasks. Of the errors the first stays. Once the counter is at 0
it can be armed again.

* `records`: what the tasks recorded since the counter was armed, in order;
* `Inv.finished`: at 0, every task of the round has recorded, once;
* `Inv.first_eq`: the error kept is the first recorded;
* `Inv.stuck`: at 0 nothing moves until the counter is armed again.
-/

namespace Lib.Countdown

universe u

variable {ε : Type u}

/-- Where a task is. -/
inductive Phase where
  | running
  /-- has recorded, not counted down -/
  | recorded
  | counted
deriving DecidableEq, Repr

structure St (ε : Type u) where
  armed : Bool
  pending : ℕ
  /-- counted into `pending`, not submitted yet -/
  remaining : ℕ
  first : Option ε
  /-- the tasks submitted so far, those of earlier rounds too -/
  phases : List Phase
deriving DecidableEq, Repr

inductive Lbl (ε : Type u) where
  | arm
  | submit
  | record (i : ℕ) (e : Option ε)
  | count (i : ℕ)
deriving DecidableEq, Repr

def step (n : ℕ) (s : St ε) : Lbl ε → Option (St ε)
  | .arm =>
      if s.pending = 0 then
        some { s with armed := true, pending := n, remaining := n, first := none }
      else none
  | .submit =>
      if 0 < s.remaining then
        some { s with remaining := s.remaining - 1, phases := s.phases ++ [.running] }
      else none
  | .record i e =>
      if s.phases[i]? = some .running then
        some { s with first := s.first.or e, phases := s.phases.set i .recorded }
      else none
  | .count i =>
      if s.phases[i]? = some .recorded then
        some { s with pending := s.pending - 1, phases := s.phases.set i .counted }
      else none

def initial : St ε := ⟨false, 0, 0, none, []⟩

def machine (n : ℕ) : Machine (St ε) (Lbl ε) where
  Init s := s = initial
  step := step n

/-! ## What was recorded -/

def note (recs : List (ℕ × Option ε)) : Lbl ε → List (ℕ × Option ε)
  | .arm => []
  | .record i e => recs ++ [(i, e)]
  | _ => recs

/-- What the tasks have recorded since the last `arm`, in that order. -/
def records (as : List (Lbl ε)) : List (ℕ × Option ε) := as.foldl note []

theorem mem_of_mem_records {as : List (Lbl ε)} {p : ℕ × Option ε} (hp : p ∈ records as) :
    .record p.1 p.2 ∈ as := by
  induction as using List.reverseRecOn with
  | nil => cases hp
  | append_singleton as a ih =>
      rw [records, List.foldl_concat] at hp
      rw [List.mem_append, List.mem_singleton]
      cases a with
      -- arming forgets what was recorded before
      | arm => cases hp
      | record i e =>
          rcases List.mem_append.mp hp with hold | hnew
          · exact .inl (ih hold)
          · rw [List.mem_singleton.mp hnew]
            exact .inr rfl
      | submit | count => exact .inl (ih hp)

/-! ## The invariant -/

/-- The task has not counted down. -/
def Phase.undone : Phase → ℕ
  | .counted => 0
  | _ => 1

/-- One more than the last task of the round. -/
def St.upTo (s : St ε) : ℕ := s.phases.length + s.remaining

structure Inv (n : ℕ) (recs : List (ℕ × Option ε)) (s : St ε) : Prop where
  pending_eq : s.pending = (s.phases.map Phase.undone).sum + s.remaining
  first_eq : s.first = recs.findSome? Prod.snd
  unarmed : s.armed = false → s.upTo = 0
  armed : s.armed = true → n ≤ s.upTo
  rounds : n ∣ s.upTo
  le : s.remaining ≤ n
  /-- tasks of earlier rounds are done -/
  earlier : ∀ i p, s.phases[i]? = some p → i + n < s.upTo → p = .counted
  nodup : (recs.map Prod.fst).Nodup
  mem_iff : ∀ i, i ∈ recs.map Prod.fst ↔
    s.upTo ≤ i + n ∧ ∃ p, s.phases[i]? = some p ∧ p ≠ .running

section Steps

variable {n : ℕ} {recs : List (ℕ × Option ε)} {s s' : St ε}

theorem initial_inv : Inv n [] (initial : St ε) := by
  constructor <;> simp [initial, St.upTo]

theorem Inv.undone_le (h : Inv n recs s) {i : ℕ} {p : Phase} (hp : s.phases[i]? = some p) :
    p.undone ≤ s.pending := by
  have hle := List.le_sum_of_mem (List.mem_map_of_mem (f := Phase.undone) (List.mem_of_getElem? hp))
  have hpend := h.pending_eq
  omega

theorem Inv.counted (h : Inv n recs s) (hpend : s.pending = 0) {i : ℕ} {p : Phase}
    (hp : s.phases[i]? = some p) : p = .counted := by
  have hle := h.undone_le hp
  cases p with
  | counted => rfl
  | running | recorded =>
      -- it would still be counted
      simp only [Phase.undone] at hle
      omega

/-- A task that has not counted down is of this round. -/
theorem Inv.upTo_le (h : Inv n recs s) {i : ℕ} {p : Phase} (hp : s.phases[i]? = some p)
    (hne : p ≠ .counted) : s.upTo ≤ i + n :=
  not_lt.mp fun hlt => hne (h.earlier i p hp hlt)

theorem Inv.arm (h : Inv n recs s) (hpend : s.pending = 0) :
    Inv n ([] : List (ℕ × Option ε))
      { s with armed := true, pending := n, remaining := n, first := none } := by
  have hsum := h.pending_eq
  have hrounds : n ∣ s.phases.length := by
    have hrounds := h.rounds
    rwa [St.upTo, show s.remaining = 0 by omega, Nat.add_zero] at hrounds
  refine ⟨?_, rfl, ?_, ?_, ?_, le_refl n, ?_, List.nodup_nil, ?_⟩
  · simp only
    omega
  · simp
  · simp [St.upTo]
  · exact Nat.dvd_add_self_right.mpr hrounds
  · exact fun i p hp _ => h.counted hpend hp
  · intro i
    constructor
    · intro hmem
      cases hmem
    · -- no task of the new round is there yet
      rintro ⟨hle, p, hp, -⟩
      have hlt : i < s.phases.length := (List.getElem?_eq_some_iff.mp hp).1
      simp only [St.upTo] at hle
      omega

theorem Inv.submit (h : Inv n recs s) (hpos : 0 < s.remaining) :
    Inv n recs { s with remaining := s.remaining - 1, phases := s.phases ++ [.running] } := by
  have hupTo : St.upTo { s with
      remaining := s.remaining - 1, phases := s.phases ++ [.running] } = s.upTo := by
    simp only [St.upTo, List.length_append, List.length_singleton]
    omega
  have hle := h.le
  have hsum := h.pending_eq
  refine ⟨?_, h.first_eq, ?_, ?_, ?_, ?_, ?_, h.nodup, ?_⟩
  · simp [Phase.undone]
    omega
  · rw [hupTo]
    exact h.unarmed
  · rw [hupTo]
    exact h.armed
  · rw [hupTo]
    exact h.rounds
  · simp only
    omega
  · -- a task of an earlier round is not the one appended
    intro i p hp hlt
    rw [hupTo] at hlt
    refine h.earlier i p ?_ hlt
    rwa [List.getElem?_append_left] at hp
    rw [St.upTo] at hlt
    omega
  · intro i
    rw [h.mem_iff, hupTo]
    refine and_congr_right fun _ => ?_
    -- the task that is new is running
    rcases Nat.lt_trichotomy i s.phases.length with hlt | rfl | hgt
    · rw [List.getElem?_append_left hlt]
    · simp
    · rw [List.getElem?_eq_none (by omega), List.getElem?_eq_none (by simp; omega)]

/-- A task of this round goes on. -/
theorem Inv.move (h : Inv n recs s) {i : ℕ} {p q : Phase} (hp : s.phases[i]? = some p)
    (hne : p ≠ .counted) (hq : q ≠ .running) {pending : ℕ} {recs' : List (ℕ × Option ε)}
    (hpend : pending + p.undone = s.pending + q.undone) (hnodup : (recs'.map Prod.fst).Nodup)
    (hmem : ∀ j, j ∈ recs'.map Prod.fst ↔ j = i ∨ j ∈ recs.map Prod.fst) :
    Inv n recs' { s with
      pending := pending, first := recs'.findSome? Prod.snd, phases := s.phases.set i q } := by
  have hupTo : St.upTo { s with
      pending := pending, first := recs'.findSome? Prod.snd, phases := s.phases.set i q } =
        s.upTo := by
    simp only [St.upTo, List.length_set]
  have hi : i < s.phases.length := (List.getElem?_eq_some_iff.mp hp).1
  have hround := h.upTo_le hp hne
  refine ⟨?_, rfl, ?_, ?_, ?_, h.le, ?_, hnodup, ?_⟩
  · have hsum := sum_map_set (f := Phase.undone) (g := Phase.undone) (b := q) hp fun _ _ _ _ => rfl
    have hold := h.pending_eq
    simp only
    omega
  · rw [hupTo]
    exact h.unarmed
  · rw [hupTo]
    exact h.armed
  · rw [hupTo]
    exact h.rounds
  · -- `i` is of this round, so the earlier ones stay
    intro j r hr hlt
    rw [hupTo] at hlt
    refine h.earlier j r ?_ hlt
    rwa [List.getElem?_set_ne] at hr
    omega
  · intro j
    rw [hmem, hupTo, h.mem_iff]
    by_cases hj : j = i
    · subst hj
      simp [hround, hi, hq]
    · rw [List.getElem?_set_ne (Ne.symm hj)]
      simp [hj]

theorem step_inv {a : Lbl ε} (h : Inv n recs s) (hst : step n s a = some s') :
    Inv n (note recs a) s' := by
  cases a with
  | arm =>
      simp only [step] at hst
      split at hst
      · rename_i hpend
        cases hst
        exact h.arm hpend
      · cases hst
  | submit =>
      simp only [step] at hst
      split at hst
      · rename_i hpos
        cases hst
        exact h.submit hpos
      · cases hst
  | record i e =>
      simp only [step] at hst
      split at hst
      · rename_i hp
        cases hst
        -- a running task has not recorded in this round
        have hnew : i ∉ recs.map Prod.fst := by
          intro hmem
          rcases ((h.mem_iff i).mp hmem).2 with ⟨p, hp', hne⟩
          rw [hp] at hp'
          exact hne (Option.some.inj hp').symm
        have hfirst : s.first.or e = (recs ++ [(i, e)]).findSome? Prod.snd := by
          rw [List.findSome?_append, ← h.first_eq]
          cases e <;> rfl
        rw [hfirst]
        refine h.move hp (by decide) (by decide) rfl ?_ ?_
        · rw [note, List.map_append, List.nodup_append_comm]
          exact List.nodup_cons.mpr ⟨hnew, h.nodup⟩
        · intro j
          simp [note, or_comm]
      · cases hst
  | count i =>
      simp only [step] at hst
      split at hst
      · rename_i hp
        cases hst
        -- the task has recorded, and goes on being among those
        have hmem : i ∈ recs.map Prod.fst :=
          (h.mem_iff i).mpr ⟨h.upTo_le hp (by decide), _, hp, by decide⟩
        have hpos := h.undone_le hp
        rw [h.first_eq]
        refine h.move hp (by decide) (by decide) ?_ h.nodup ?_
        · simp only [Phase.undone] at hpos ⊢
          omega
        · intro j
          constructor
          · exact .inr
          · rintro (rfl | hj)
            · exact hmem
            · exact hj
      · cases hst

theorem run_inv {as : List (Lbl ε)} (hrun : (machine n).run initial as = some s) :
    Inv n (records as) s := by
  refine Machine.run_induction_all (fun as s => Inv n (records as) s) initial_inv ?_ hrun
  intro as s a s' hinv _ hst
  rw [records, List.foldl_concat]
  exact step_inv hinv hst

/-- At 0 the tasks of the round have recorded, each once. -/
theorem Inv.finished (h : Inv n recs s) (harmed : s.armed = true) (hpend : s.pending = 0) :
    (recs.map Prod.fst).Perm (List.range' (s.phases.length - n) n) := by
  have hsum := h.pending_eq
  have hlen := h.armed harmed
  rw [St.upTo] at hlen
  rw [List.perm_ext_iff_of_nodup h.nodup List.nodup_range']
  intro i
  rw [h.mem_iff, List.mem_range'_1, St.upTo]
  constructor
  · rintro ⟨hle, p, hp, -⟩
    have hlt := (List.getElem?_eq_some_iff.mp hp).1
    omega
  · rintro ⟨hge, hlt⟩
    have hi : i < s.phases.length := by omega
    have hp := List.getElem?_eq_getElem hi
    refine ⟨by omega, _, hp, ?_⟩
    rw [h.counted hpend hp]
    decide

/-- At 0 nothing but `arm` is possible. -/
theorem Inv.stuck (h : Inv n recs s) (hpend : s.pending = 0) {a : Lbl ε} (ha : a ≠ .arm) :
    step n s a = none := by
  have hsum := h.pending_eq
  cases a with
  | arm => exact absurd rfl ha
  | submit => exact if_neg (by omega)
  | record i e =>
      refine if_neg fun hp => ?_
      cases h.counted hpend hp
  | count i =>
      refine if_neg fun hp => ?_
      cases h.counted hpend hp

theorem Inv.run_stuck (h : Inv n recs s) (hpend : s.pending = 0) {as : List (Lbl ε)}
    (has : .arm ∉ as) (hrun : (machine n).run s as = some s') : s' = s := by
  cases as with
  | nil => exact (Option.some.inj hrun).symm
  | cons a as =>
      rw [List.mem_cons, not_or] at has
      rcases Option.bind_eq_some_iff.mp hrun with ⟨t, hst, -⟩
      rw [show (machine n).step s a = none from h.stuck hpend (Ne.symm has.1)] at hst
      cases hst

end Steps

end Lib.Countdown
