import Mathlib.Data.List.InsertIdx
import Mathlib.Data.List.Nodup
import LmcacheDaos.Lib.Machine

/-!
# A line served round robin

Clients wait in a line. The first is served, and then goes to the back or
leaves; a newcomer may step in anywhere, but nobody comes a second time.

* `once`: while a client waits, every other is served at most once;
* `served_between`: a client that waits from before one turn of another to its
  next is served in between;
* `balanced`: while two clients both wait, the numbers of their turns differ by
  at most one.

All three come from one fact: of two clients that wait, the one that was served
last is behind the other.
-/

namespace Lib.RoundRobin

universe u

variable {τ : Type u}

structure Line (τ : Type u) where
  queue : List τ
  /-- everyone who ever came -/
  known : List τ
deriving DecidableEq, Repr

inductive Lbl (τ : Type u) where
  | join (t : τ) (pos : ℕ)
  | serve (t : τ) (stays : Bool)
deriving DecidableEq, Repr

/-- Who is served. -/
def Lbl.turn : Lbl τ → Option τ
  | .serve t _ => some t
  | .join _ _ => none

/-- The turns of a run, in order. -/
def turns (as : List (Lbl τ)) : List τ := as.filterMap Lbl.turn

theorem turns_cons (l : Lbl τ) (as : List (Lbl τ)) : turns (l :: as) = l.turn.toList ++ turns as :=
  filterMap_cons_eq Lbl.turn l as

theorem turn_eq_of_turns {a : τ} {l : Lbl τ} {as : List (Lbl τ)} (h : a ∉ turns (l :: as)) :
    l.turn ≠ some a ∧ a ∉ turns as := by
  rw [turns_cons, List.mem_append, not_or, Option.mem_toList] at h
  exact h

/-- The label that serves `a`. -/
theorem eq_serve_of_turn {a : τ} {l : Lbl τ} (h : l.turn = some a) :
    ∃ stays, l = .serve a stays := by
  cases l with
  | join t pos => cases h
  | serve t stays =>
      cases h
      exact ⟨stays, rfl⟩

/-- Nobody stands in the line twice, and everyone in it has come. -/
structure Line.Inv (s : Line τ) : Prop where
  nodup : s.queue.Nodup
  known : ∀ t ∈ s.queue, t ∈ s.known

/-- `b` has come, and is not in front of `a`. -/
def Behind (a b : τ) (s : Line τ) : Prop :=
  b ∈ s.known ∧ (b ∈ s.queue → [a, b].Sublist s.queue)

/-- Both stand in the line. -/
def Both (a b : τ) (s : Line τ) (_ : Lbl τ) : Prop := a ∈ s.queue ∧ b ∈ s.queue

theorem both_comm (a b : τ) : Both a b = Both b a := by
  funext s l
  exact propext and_comm

variable {a b : τ}

/-- Only the first is served. -/
theorem Line.Inv.not_first {s : Line τ} (h : s.Inv) (hne : a ≠ b) (hab : [a, b].Sublist s.queue)
    {rest : List τ} : s.queue ≠ b :: rest := by
  intro hq
  have hnd := h.nodup
  rw [hq] at hab hnd
  have hmem : b ∈ rest := by
    cases hab with
    | cons _ hsub => exact hsub.subset (by simp)
    | cons_cons => exact absurd rfl hne
  exact (List.nodup_cons.mp hnd).1 hmem

/-- Of two that wait, one is in front. -/
theorem sublist_pair_or {q : List τ} (ha : a ∈ q) (hb : b ∈ q) (hne : a ≠ b) :
    [a, b].Sublist q ∨ [b, a].Sublist q := by
  rcases List.append_of_mem ha with ⟨xs, ys, rfl⟩
  rcases List.mem_append.mp hb with hb | hb
  · exact .inr ((List.singleton_sublist.mpr hb).append (List.singleton_sublist.mpr (by simp)))
  · rcases List.mem_cons.mp hb with rfl | hb
    · exact absurd rfl hne
    · exact .inl (List.sublist_append_of_sublist_right
        ((List.singleton_sublist.mpr hb).cons_cons a))

/-- Stepping in between two groups. -/
theorem insertIdx_length_append (xs ys : List τ) (t : τ) :
    (xs ++ ys).insertIdx xs.length t = xs ++ t :: ys := by
  induction xs with
  | nil => rfl
  | cons x xs ih => simp [ih]

variable [DecidableEq τ]

def step (s : Line τ) : Lbl τ → Option (Line τ)
  | .join t pos =>
      if t ∈ s.known then none
      else some ⟨s.queue.insertIdx pos t, t :: s.known⟩
  | .serve t stays => match s.queue with
      | x :: rest =>
          if x = t then some { s with queue := if stays then rest ++ [t] else rest } else none
      | [] => none

def machine : Machine (Line τ) (Lbl τ) where
  Init s := s = ⟨[], []⟩
  step := step

theorem step_join_iff {s s' : Line τ} {t : τ} {pos : ℕ} :
    step s (.join t pos) = some s' ↔
      t ∉ s.known ∧ s' = ⟨s.queue.insertIdx pos t, t :: s.known⟩ := by
  simp only [step]
  split
  · simp [*]
  · simp [*, eq_comm]

theorem step_serve_iff {s s' : Line τ} {t : τ} {stays : Bool} :
    step s (.serve t stays) = some s' ↔
      ∃ rest, s.queue = t :: rest ∧
        s' = { s with queue := if stays then rest ++ [t] else rest } := by
  simp only [step]
  constructor
  · intro h
    split at h
    · rename_i x rest hq
      split at h
      · rename_i hx
        cases h
        exact ⟨rest, by rw [hq, hx], rfl⟩
      · cases h
    · cases h
  · rintro ⟨rest, hq, rfl⟩
    rw [hq]
    exact if_pos rfl

section Steps

variable {s s' : Line τ} {l : Lbl τ}

theorem Line.Inv.step (h : s.Inv) (hst : RoundRobin.step s l = some s') : s'.Inv := by
  cases l with
  | join t pos =>
      rcases step_join_iff.mp hst with ⟨hnew, rfl⟩
      have hout : t ∉ s.queue := fun hmem => hnew (h.known t hmem)
      constructor
      case nodup =>
        by_cases hle : pos ≤ s.queue.length
        · exact (List.perm_insertIdx t s.queue hle).nodup_iff.mpr (h.nodup.cons hout)
        · rw [List.insertIdx_of_length_lt (by omega)]
          exact h.nodup
      case known =>
        intro x hx
        rcases List.eq_or_mem_of_mem_insertIdx hx with rfl | hx
        · exact List.mem_cons_self
        · exact List.mem_cons_of_mem _ (h.known x hx)
  | serve t stays =>
      rcases step_serve_iff.mp hst with ⟨rest, hq, rfl⟩
      have hnd := h.nodup
      have hknown := h.known
      rw [hq] at hnd hknown
      cases stays with
      | true =>
          have hperm : (rest ++ [t]).Perm (t :: rest) := List.perm_append_singleton t rest
          exact ⟨hperm.nodup_iff.mpr hnd, fun x hx => hknown x (hperm.mem_iff.mp hx)⟩
      | false =>
          exact ⟨(List.nodup_cons.mp hnd).2, fun x hx => hknown x (List.mem_cons_of_mem _ hx)⟩

theorem Line.Inv.run {as : List (Lbl τ)} (h : s.Inv) (hrun : machine.run s as = some s') :
    s'.Inv := by
  induction as generalizing s with
  | nil =>
      cases hrun
      exact h
  | cons l as ih =>
      rcases Option.bind_eq_some_iff.mp hrun with ⟨t, hst, hrest⟩
      exact ih (h.step hst) hrest

/-- The turn of a third client, or a newcomer, leaves the order of two. -/
theorem sublist_of_step (hst : step s l = some s') (hab : [a, b].Sublist s.queue)
    (ha : l.turn ≠ some a) : [a, b].Sublist s'.queue := by
  cases l with
  | join t pos =>
      rcases step_join_iff.mp hst with ⟨-, rfl⟩
      exact hab.trans (List.sublist_insertIdx s.queue pos t)
  | serve t stays =>
      rcases step_serve_iff.mp hst with ⟨rest, hq, rfl⟩
      have hsub : [a, b].Sublist rest := by
        rw [hq] at hab
        cases hab with
        | cons _ hsub => exact hsub
        | cons_cons => exact absurd rfl ha
      cases stays with
      | true => exact List.sublist_append_of_sublist_left hsub
      | false => exact hsub

/-- After its turn a client is behind every other, or gone. -/
theorem behind_of_serve {stays : Bool} (h : s.Inv) (hst : step s (.serve b stays) = some s')
    (ha : a ∈ s.queue) (hne : a ≠ b) : Behind a b s' := by
  rcases step_serve_iff.mp hst with ⟨rest, hq, rfl⟩
  have hmem : b ∈ s.queue := by rw [hq]; exact List.mem_cons_self
  refine ⟨h.known b hmem, ?_⟩
  have ha' : a ∈ rest := by
    rw [hq] at ha
    exact (List.mem_cons.mp ha).resolve_left hne
  cases stays with
  | true =>
      intro _
      exact (List.singleton_sublist.mpr ha').append (List.Sublist.refl [b])
  | false =>
      intro hb
      have hnd := h.nodup
      rw [hq] at hnd
      exact absurd hb (List.nodup_cons.mp hnd).1

/-- A client keeps waiting until its turn. -/
theorem mem_of_step (hst : step s l = some s') (ha : a ∈ s.queue) (hout : l.turn ≠ some a) :
    a ∈ s'.queue := by
  cases l with
  | join t pos =>
      rcases step_join_iff.mp hst with ⟨-, rfl⟩
      exact List.subset_insertIdx s.queue pos t ha
  | serve t stays =>
      rcases step_serve_iff.mp hst with ⟨rest, hq, rfl⟩
      have ha' : a ∈ rest := by
        rw [hq] at ha
        exact (List.mem_cons.mp ha).resolve_left fun heq => hout (congrArg some heq.symm)
      cases stays with
      | true => exact List.mem_append_left _ ha'
      | false => exact ha'

/-- Nobody who left comes back. -/
theorem not_mem_of_step (hst : step s l = some s') (hknown : b ∈ s.known) (hb : b ∉ s.queue) :
    b ∈ s'.known ∧ b ∉ s'.queue := by
  cases l with
  | join t pos =>
      rcases step_join_iff.mp hst with ⟨hnew, rfl⟩
      refine ⟨List.mem_cons_of_mem _ hknown, fun hmem => ?_⟩
      rcases List.eq_or_mem_of_mem_insertIdx hmem with rfl | hmem
      · exact hnew hknown
      · exact hb hmem
  | serve t stays =>
      rcases step_serve_iff.mp hst with ⟨rest, hq, rfl⟩
      rw [hq, List.mem_cons, not_or] at hb
      refine ⟨hknown, ?_⟩
      cases stays with
      | true => simpa [or_comm] using hb
      | false => exact hb.2

theorem Behind.step (h : Behind a b s) (hst : RoundRobin.step s l = some s')
    (hout : l.turn ≠ some a) : Behind a b s' := by
  by_cases hb : b ∈ s.queue
  · have hab := sublist_of_step hst (h.2 hb) hout
    refine ⟨?_, fun _ => hab⟩
    cases l with
    | join t pos =>
        rcases step_join_iff.mp hst with ⟨-, rfl⟩
        exact List.mem_cons_of_mem _ h.1
    | serve t stays =>
        rcases step_serve_iff.mp hst with ⟨rest, -, rfl⟩
        exact h.1
  · have hgone := not_mem_of_step hst h.1 hb
    exact ⟨hgone.1, fun hmem => absurd hmem hgone.2⟩

end Steps

/-! ## Runs -/

section Runs

variable {s s' : Line τ} {as : List (Lbl τ)}

/-- While `a` waits, nobody behind it is served. -/
theorem not_mem_turns (h : s.Inv) (ha : a ∈ s.queue) (hne : a ≠ b) (hb : Behind a b s)
    (hrun : machine.run s as = some s') (hout : a ∉ turns as) : b ∉ turns as := by
  induction as generalizing s with
  | nil => exact List.not_mem_nil
  | cons l as ih =>
      rcases Option.bind_eq_some_iff.mp hrun with ⟨t, (hst : step s l = some t), hrest⟩
      rcases turn_eq_of_turns hout with ⟨hl, hout⟩
      have hlb : l.turn ≠ some b := by
        intro hturn
        rcases eq_serve_of_turn hturn with ⟨stays, rfl⟩
        rcases step_serve_iff.mp hst with ⟨rest, hq, -⟩
        exact h.not_first hne (hb.2 (by rw [hq]; exact List.mem_cons_self)) hq
      rw [turns_cons, List.mem_append, not_or, Option.mem_toList]
      exact ⟨hlb, ih (h.step hst) (mem_of_step hst ha hl) (hb.step hst hl) hrest hout⟩

/-- While a client waits, every other is served at most once. -/
theorem once (h : s.Inv) (ha : a ∈ s.queue) (hne : a ≠ b)
    (hrun : machine.run s as = some s') (hout : a ∉ turns as) : (turns as).count b ≤ 1 := by
  induction as generalizing s with
  | nil => exact Nat.zero_le 1
  | cons l as ih =>
      rcases Option.bind_eq_some_iff.mp hrun with ⟨t, (hst : step s l = some t), hrest⟩
      rcases turn_eq_of_turns hout with ⟨hl, hnext⟩
      have ha' := mem_of_step hst ha hl
      rw [turns_cons, List.count_append]
      by_cases hlb : l.turn = some b
      · -- its turn: from now on it is behind `a`
        rcases eq_serve_of_turn hlb with ⟨stays, rfl⟩
        have hnot := not_mem_turns (h.step hst) ha' hne (behind_of_serve h hst ha hne) hrest hnext
        rw [List.count_eq_zero.mpr hnot]
        simp [Lbl.turn]
      · have hnone : l.turn.toList.count b = 0 := by
          rw [List.count_eq_zero, Option.mem_toList]
          exact hlb
        have hle := ih (h.step hst) ha' hrest hnext
        omega

/-- While two both wait, the one in front has had as many turns as the other, or
one more. -/
theorem turns_of_front (h : s.Inv) (hne : a ≠ b) (hab : [a, b].Sublist s.queue)
    (hrun : machine.run s as = some s') (hboth : machine.Along (Both a b) s as) :
    (turns as).count b ≤ (turns as).count a ∧ (turns as).count a ≤ (turns as).count b + 1 := by
  induction as generalizing s a b with
  | nil => simp [turns]
  | cons l as ih =>
      rcases Option.bind_eq_some_iff.mp hrun with ⟨t, (hst : step s l = some t), hrest⟩
      rcases hboth with ⟨⟨ha, hb⟩, hboth⟩
      have hnext := hboth t hst
      have hlb : l.turn ≠ some b := by
        intro hturn
        rcases eq_serve_of_turn hturn with ⟨stays, rfl⟩
        rcases step_serve_iff.mp hst with ⟨rest, hq, -⟩
        exact h.not_first hne hab hq
      have hzero : l.turn.toList.count b = 0 := by
        rw [List.count_eq_zero, Option.mem_toList]
        exact hlb
      rw [turns_cons, List.count_append, List.count_append, hzero]
      by_cases hla : l.turn = some a
      · rw [hla, Option.toList_some, List.count_singleton_self]
        rcases eq_serve_of_turn hla with ⟨stays, rfl⟩
        cases as with
        | nil => simp [turns]
        | cons l' as =>
            -- the two change places
            have hbehind := behind_of_serve h hst hb (Ne.symm hne)
            have hle := ih (h.step hst) (Ne.symm hne) (hbehind.2 hnext.1.1) hrest
              (both_comm a b ▸ hnext)
            omega
      · have hzero : l.turn.toList.count a = 0 := by
          rw [List.count_eq_zero, Option.mem_toList]
          exact hla
        have hle := ih (h.step hst) hne (sublist_of_step hst hab hla) hrest hnext
        omega

/-- While two both wait, the numbers of their turns differ by at most one. -/
theorem balanced (h : s.Inv) (hne : a ≠ b) (hrun : machine.run s as = some s')
    (hboth : machine.Along (Both a b) s as) :
    (turns as).count a ≤ (turns as).count b + 1 ∧ (turns as).count b ≤ (turns as).count a + 1 := by
  cases as with
  | nil => simp [turns]
  | cons l as =>
      rcases sublist_pair_or hboth.1.1 hboth.1.2 hne with hab | hba
      · have hle := turns_of_front h hne hab hrun hboth
        omega
      · have hle := turns_of_front h (Ne.symm hne) hba hrun
          (both_comm a b ▸ hboth)
        omega

/-- Nobody who left is in the line later. -/
theorem not_mem_of_run (hknown : b ∈ s.known) (hb : b ∉ s.queue)
    (hrun : machine.run s as = some s') : b ∉ s'.queue := by
  induction as generalizing s with
  | nil =>
      cases hrun
      exact hb
  | cons l as ih =>
      rcases Option.bind_eq_some_iff.mp hrun with ⟨t, hst, hrest⟩
      have hgone := not_mem_of_step hst hknown hb
      exact ih hgone.1 hgone.2 hrest

/-- Without a turn, `a` stands in the line all the time. -/
theorem along_both {l : Lbl τ} (ha : a ∈ s.queue) (hout : a ∉ turns as)
    (hb : machine.Along (fun s _ => b ∈ s.queue) s (as ++ [l])) :
    machine.Along (Both b a) s (as ++ [l]) := by
  induction as generalizing s with
  | nil => exact ⟨⟨hb.1, ha⟩, fun _ _ => trivial⟩
  | cons l' as ih =>
      rcases turn_eq_of_turns hout with ⟨hl, hnext⟩
      exact ⟨⟨hb.1, ha⟩, fun t hst => ih (mem_of_step hst ha hl) hnext (hb.2 t hst)⟩

/-- A client that is in front of `a`, and waits until the turn of `a`, has been
served by then. -/
theorem served_between {stays : Bool} (h : s.Inv) (hne : a ≠ b) (hba : [b, a].Sublist s.queue)
    (hrun : machine.run s (as ++ [.serve a stays]) = some s')
    (hb : machine.Along (fun s _ => b ∈ s.queue) s (as ++ [.serve a stays]))
    (hout : a ∉ turns as) : (turns as).count b = 1 := by
  have hmem : a ∈ s.queue := hba.subset (by simp)
  have hle := turns_of_front h (Ne.symm hne) hba hrun (along_both hmem hout hb)
  have hturns : turns (as ++ [.serve a stays]) = turns as ++ [a] := List.filterMap_append
  have hb : (turns (as ++ [.serve a stays])).count b = (turns as).count b := by
    rw [hturns, List.count_append, List.count_singleton, if_neg (by simpa using hne), Nat.add_zero]
  have ha : (turns (as ++ [.serve a stays])).count a = 1 := by
    rw [hturns, List.count_append, List.count_eq_zero.mpr hout, List.count_singleton_self]
  rw [ha, hb] at hle
  rw [Machine.run_append] at hrun
  rcases Option.bind_eq_some_iff.mp hrun with ⟨t, hrun, -⟩
  have honce := once h hmem hne hrun hout
  omega

end Runs

end Lib.RoundRobin
