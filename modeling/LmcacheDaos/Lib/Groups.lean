import Mathlib.Data.List.Nodup
import Mathlib.Data.List.Perm.Basic
import Mathlib.Logic.Function.Basic
import Mathlib.Tactic.Common

/-!
# Grouping and scattering

A dict of lists in insertion order, as a list of pairs: `append` is
`d.setdefault(k, []).append(v)`. What was put in comes out again, reordered, with
the values of one key as they came (`reordered_flat_append`).

`scatter` writes values to positions of a list. When no position occurs twice,
each position holds its value afterwards.
-/

namespace Lib.Groups

universe u v w

variable {κ : Type u} {β : Type v} {γ : Type w}

/-- `d.setdefault(k, []).append(v)` -/
def append [DecidableEq κ] (k : κ) (v : β) : List (κ × List β) → List (κ × List β)
  | [] => [(k, [v])]
  | (k', vs) :: rest => if k' = k then (k', vs ++ [v]) :: rest else (k', vs) :: append k v rest

/-- Every value with its key, group after group. -/
def flat (gs : List (κ × List β)) : List (κ × β) := gs.flatMap fun g => g.2.map fun v => (g.1, v)

/-- The entries of the first group come first. -/
theorem flat_cons (g : κ × List β) (gs : List (κ × List β)) :
    flat (g :: gs) = (g.2.map fun v => (g.1, v)) ++ flat gs := by
  rw [flat, List.flatMap_cons]
  rfl

/-- An entry is in one of the groups. -/
theorem mem_flat {gs : List (κ × List β)} {k : κ} {v : β} :
    (k, v) ∈ flat gs ↔ ∃ g ∈ gs, g.1 = k ∧ v ∈ g.2 := by
  simp only [flat, List.mem_flatMap, List.mem_map, Prod.mk.injEq]
  constructor
  · rintro ⟨g, hg, v', hv, hk, rfl⟩
    exact ⟨g, hg, hk, hv⟩
  · rintro ⟨g, hg, hk, hv⟩
    exact ⟨g, hg, v, hv, hk, rfl⟩

section Append

variable [DecidableEq κ]

/-- The same elements, those of one key in the same order. -/
def Reordered (key : β → κ) (xs ys : List β) : Prop :=
  ∀ k, xs.filter (fun x => key x = k) = ys.filter fun x => key x = k

namespace Reordered

variable {key : β → κ} {xs ys zs : List β}

/-- Nothing has moved. -/
theorem refl (key : β → κ) (xs : List β) : Reordered key xs xs := fun _ => rfl

/-- One reordering after another. -/
theorem trans (h : Reordered key xs ys) (h' : Reordered key ys zs) : Reordered key xs zs :=
  fun k => (h k).trans (h' k)

/-- A common front does not matter. -/
theorem append_left (h : Reordered key xs ys) (zs : List β) :
    Reordered key (zs ++ xs) (zs ++ ys) := by
  intro k
  rw [List.filter_append, List.filter_append, h k]

/-- A common tail does not matter. -/
theorem append_right (h : Reordered key xs ys) (zs : List β) :
    Reordered key (xs ++ zs) (ys ++ zs) := by
  intro k
  rw [List.filter_append, List.filter_append, h k]

/-- Neither does a map that keeps keys. -/
theorem map (h : Reordered key xs ys) (f : β → γ) (key' : γ → κ) (hf : ∀ x, key' (f x) = key x) :
    Reordered key' (xs.map f) (ys.map f) := by
  intro k
  simp only [List.filter_map, Function.comp_def, hf, h k]

/-- Nothing is lost. -/
theorem perm (h : Reordered key xs ys) : xs.Perm ys := by
  classical
  rw [List.perm_iff_count]
  intro x
  rw [← List.count_filter (p := fun y => key y = key x) (by simp), h, List.count_filter (by simp)]

/-- What comes of the elements of one key. -/
theorem flatMap_eq (h : Reordered key xs ys) {f : β → List γ} {k : κ}
    (hf : ∀ x, key x ≠ k → f x = []) : xs.flatMap f = ys.flatMap f := by
  have hfilter : ∀ l : List β, l.flatMap f = (l.filter fun x => key x = k).flatMap f := by
    intro l
    induction l with
    | nil => rfl
    | cons x l ih =>
        by_cases hx : key x = k
        · rw [List.filter_cons_of_pos (by simp [hx]), List.flatMap_cons, List.flatMap_cons, ih]
        · rw [List.filter_cons_of_neg (by simp [hx]), List.flatMap_cons, hf x hx, ih]
          rfl
  rw [hfilter xs, h k, ← hfilter ys]

end Reordered

/-- Adding an entry adds at most its own key. -/
theorem mem_keys_append {k k' : κ} {v : β} {gs : List (κ × List β)} :
    k' ∈ (append k v gs).map Prod.fst ↔ k' = k ∨ k' ∈ gs.map Prod.fst := by
  induction gs with
  | nil => simp [append]
  | cons g gs ih =>
      unfold append
      split
      · rename_i hk
        simp only [List.map_cons, List.mem_cons, hk]
        tauto
      · simp only [List.map_cons, List.mem_cons, ih]
        tauto

/-- Keys stay unique. -/
theorem nodup_keys_append {k : κ} {v : β} {gs : List (κ × List β)}
    (h : (gs.map Prod.fst).Nodup) : ((append k v gs).map Prod.fst).Nodup := by
  induction gs with
  | nil => simp [append]
  | cons g gs ih =>
      rw [List.map_cons, List.nodup_cons] at h
      unfold append
      split
      · rw [List.map_cons, List.nodup_cons]
        exact h
      · rename_i hk
        rw [List.map_cons, List.nodup_cons, mem_keys_append, not_or]
        exact ⟨⟨hk, h.1⟩, ih h.2⟩

/-- A value put in comes last among those of its key. -/
theorem reordered_flat_append {gs : List (κ × List β)} (h : (gs.map Prod.fst).Nodup) (k : κ)
    (v : β) :
    Reordered Prod.fst (flat (append k v gs)) (flat gs ++ [(k, v)]) := by
  induction gs with
  | nil => exact .refl _ _
  | cons g gs ih =>
      obtain ⟨k₁, vs⟩ := g
      rw [List.map_cons, List.nodup_cons] at h
      unfold append
      split
      · rename_i hk
        subst hk
        intro k'
        have hrest : (flat gs ++ [(k₁, v)]).filter (fun m => m.1 = k') =
            ([(k₁, v)] ++ flat gs).filter fun m => m.1 = k' := by
          rw [List.filter_append, List.filter_append]
          by_cases hk' : k₁ = k'
          · -- the other groups have other keys
            have hnone : (flat gs).filter (fun m => m.1 = k') = [] := by
              rw [List.filter_eq_nil_iff]
              intro m hm heq
              obtain ⟨g, hg, hgk, -⟩ := mem_flat.mp hm
              have heq : m.1 = k₁ := (of_decide_eq_true heq).trans hk'.symm
              exact h.1 (heq ▸ hgk ▸ List.mem_map_of_mem hg)
            rw [hnone, List.nil_append, List.append_nil]
          · simp [hk']
        rw [flat_cons, flat_cons, List.append_assoc,
          List.filter_append (vs.map fun v => (k₁, v)) (flat gs ++ [(k₁, v)]), hrest]
        simp
      · rw [flat_cons, flat_cons, List.append_assoc]
        exact (ih h.2).append_left _

/-- Only one key of several has the entries. -/
theorem flatMap_single {ks : List κ} (hnodup : ks.Nodup) {k : κ} (hk : k ∈ ks) (xs : List β) :
    (ks.flatMap fun k' => if k' = k then xs else []) = xs := by
  induction ks with
  | nil => cases hk
  | cons k' ks ih =>
      rw [List.nodup_cons] at hnodup
      rw [List.flatMap_cons]
      rcases List.mem_cons.mp hk with rfl | hk
      · have hrest : (ks.flatMap fun k' => if k' = k then xs else []) = [] := by
          rw [List.flatMap_eq_nil_iff]
          intro k' hk'
          exact if_neg fun heq : k' = k => hnodup.1 (heq ▸ hk')
        rw [if_pos rfl, hrest, List.append_nil]
      · have hne : k' ≠ k := fun heq => hnodup.1 (heq ▸ hk)
        rw [if_neg hne, ih hnodup.2 hk, List.nil_append]

/-- The elements key after key. -/
theorem reordered_flatMap_filter {key : β → κ} {ks : List κ} (hnodup : ks.Nodup) {xs : List β}
    (hcover : ∀ x ∈ xs, key x ∈ ks) :
    Reordered key (ks.flatMap fun k => xs.filter (key · = k)) xs := by
  intro k
  have hone : ∀ k', (xs.filter (key · = k')).filter (fun x => decide (key x = k)) =
      if k' = k then xs.filter (key · = k) else [] := by
    intro k'
    rw [List.filter_filter]
    split
    · rename_i heq
      simp [heq]
    · rename_i hne
      rw [List.filter_eq_nil_iff]
      intro x _
      simp only [Bool.and_eq_true, decide_eq_true_eq, not_and]
      intro hk hk'
      exact hne (hk'.symm.trans hk)
  rw [List.filter_flatMap, List.flatMap_congr fun k' _ => hone k']
  by_cases hk : k ∈ ks
  · exact flatMap_single hnodup hk _
  · have hnone : xs.filter (key · = k) = [] := by
      rw [List.filter_eq_nil_iff]
      intro x hx heq
      exact hk (of_decide_eq_true heq ▸ hcover x hx)
    simp [hnone]

end Append

/-! ## Scattering -/

/-- `res[pos] = value` for every pair. -/
def scatter (res : List γ) (pairs : List (ℕ × γ)) : List γ :=
  pairs.foldl (fun res p => res.set p.1 p.2) res

/-- Scattering in two parts. -/
theorem scatter_append (res : List γ) (ps qs : List (ℕ × γ)) :
    scatter res (ps ++ qs) = scatter (scatter res ps) qs :=
  List.foldl_append

@[simp] theorem length_scatter (res : List γ) (ps : List (ℕ × γ)) :
    (scatter res ps).length = res.length := by
  induction ps generalizing res with
  | nil => rfl
  | cons p ps ih =>
      show (scatter (res.set p.1 p.2) ps).length = res.length
      rw [ih, List.length_set]

/-- Places that are not named keep what they have. -/
theorem getElem?_scatter_of_not_mem {ps : List (ℕ × γ)} {i : ℕ} (h : i ∉ ps.map Prod.fst)
    (res : List γ) : (scatter res ps)[i]? = res[i]? := by
  induction ps generalizing res with
  | nil => rfl
  | cons p ps ih =>
      rw [List.map_cons, List.mem_cons, not_or] at h
      show (scatter (res.set p.1 p.2) ps)[i]? = res[i]?
      rw [ih h.2, List.getElem?_set_ne (Ne.symm h.1)]

/-- Places that are named once get their value. -/
theorem getElem?_scatter_of_mem {ps : List (ℕ × γ)} (hnodup : (ps.map Prod.fst).Nodup) {i : ℕ}
    {v : γ} (h : (i, v) ∈ ps) {res : List γ} (hi : i < res.length) :
    (scatter res ps)[i]? = some v := by
  induction ps generalizing res with
  | nil => cases h
  | cons p ps ih =>
      rw [List.map_cons, List.nodup_cons] at hnodup
      show (scatter (res.set p.1 p.2) ps)[i]? = some v
      rcases List.mem_cons.mp h with rfl | h
      · rw [getElem?_scatter_of_not_mem hnodup.1, List.getElem?_set_self hi]
      · exact ih hnodup.2 h (by rwa [List.length_set])

/-- The first halves of a zip are part of the first list. -/
theorem sublist_fst_zip (xs : List β) (ys : List γ) : ((xs.zip ys).map Prod.fst).Sublist xs := by
  induction xs generalizing ys with
  | nil => exact List.Sublist.refl _
  | cons x xs ih =>
      cases ys with
      | nil => exact List.nil_sublist _
      | cons y ys => exact (ih ys).cons_cons x

/-- A position depends on what was there before it only. -/
theorem getElem?_scatter_congr {res res' : List γ} {i : ℕ} (h : res[i]? = res'[i]?)
    (ps : List (ℕ × γ)) : (scatter res ps)[i]? = (scatter res' ps)[i]? := by
  induction ps generalizing res res' with
  | nil => exact h
  | cons p ps ih =>
      apply ih
      show (res.set p.1 p.2)[i]? = (res'.set p.1 p.2)[i]?
      by_cases hp : p.1 = i
      · rw [hp, List.getElem?_set_self', List.getElem?_set_self', h]
      · rw [List.getElem?_set_ne hp, List.getElem?_set_ne hp, h]

/-- Values for the elements of a list, in any order, end up where the elements
are. -/
theorem scatter_of_perm {xs : List β} {placed : List (β × ℕ)} (hperm : placed.Perm xs.zipIdx)
    (f : β × ℕ → γ) {res : List γ} (hlen : res.length = xs.length) :
    scatter res (placed.map fun p => (p.2, f p)) = xs.zipIdx.map f := by
  have hpos : (placed.map fun p => (p.2, f p)).map Prod.fst = placed.map Prod.snd :=
    List.map_map
  have hnodup : ((placed.map fun p => (p.2, f p)).map Prod.fst).Nodup := by
    rw [hpos, (hperm.map Prod.snd).nodup_iff, List.zipIdx_map_snd]
    exact List.nodup_range'
  apply List.ext_getElem?
  intro i
  by_cases hi : i < xs.length
  · have hmem : (xs[i], i) ∈ placed := by
      rw [hperm.mem_iff, List.mem_zipIdx_iff_getElem?]
      exact List.getElem?_eq_getElem hi
    rw [getElem?_scatter_of_mem hnodup (List.mem_map_of_mem hmem) (hlen ▸ hi)]
    simp [hi]
  · rw [List.getElem?_eq_none (by rw [length_scatter]; omega),
      List.getElem?_eq_none (by rw [List.length_map, List.length_zipIdx]; omega)]

theorem map_getElem?_range (xs : List γ) :
    (List.range xs.length).map (fun i => xs[i]?) = xs.map some := by
  apply List.ext_getElem?
  intro i
  by_cases hi : i < xs.length
  · simp [hi]
  · rw [List.getElem?_eq_none (by simpa using hi), List.getElem?_eq_none (by simpa using hi)]

theorem filterMap_getElem?_range (xs : List γ) :
    (List.range xs.length).filterMap (fun i => xs[i]?) = xs := by
  have hmap := congrArg (List.filterMap id) (map_getElem?_range xs)
  rw [List.filterMap_map, List.filterMap_map] at hmap
  exact hmap.trans (List.filterMap_some ..)

/-- Values that are where their positions say are all the values there are. -/
theorem perm_of_getElem? {ps : List (ℕ × γ)} {res : List γ}
    (hpos : (ps.map Prod.fst).Perm (List.range res.length))
    (hval : ∀ p ∈ ps, res[p.1]? = some p.2) : (ps.map Prod.snd).Perm res := by
  have hget : (ps.map Prod.fst).map (fun i => res[i]?) = (ps.map Prod.snd).map some := by
    rw [List.map_map, List.map_map]
    exact List.map_congr_left hval
  have hperm := hpos.map fun i => res[i]?
  rw [hget, map_getElem?_range] at hperm
  exact (List.map_perm_map_iff (fun _ _ h => Option.some.inj h)).mp hperm

end Lib.Groups
