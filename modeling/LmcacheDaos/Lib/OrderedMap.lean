import Mathlib.Data.List.Perm.Basic
import Mathlib.Data.List.Nodup
import Mathlib.Tactic.Common
import LmcacheDaos.Lib.Groups

/-!
# Ordered maps as lists of entries

`Std.ExtTreeMap` in the role of `std::map`: equal when it answers every lookup
alike, listed in the order of its keys. The lemmas here say what inserting and
erasing do to the list of entries, up to its order, and when an insertion
undoes another.

`collect` is a loop that updates the entry of each element's key. What it leaves
under a key is the loop over the elements of that key.
-/

namespace Lib.OrderedMap

open Std

universe u v

variable {κ : Type u} {β : Type v} {cmp : κ → κ → Ordering} [TransCmp cmp] [LawfulEqCmp cmp]
variable {m : ExtTreeMap κ β cmp} {k : κ} {v w : β}

theorem nodup_keys (m : ExtTreeMap κ β cmp) : (m.toList.map Prod.fst).Nodup := by
  rw [List.Nodup, List.pairwise_map]
  refine ExtTreeMap.distinct_keys_toList.imp ?_
  intro a b hab heq
  exact hab (heq ▸ ReflCmp.compare_self)

theorem nodup_toList (m : ExtTreeMap κ β cmp) : m.toList.Nodup :=
  .of_map Prod.fst (nodup_keys m)

/-- An entry and the others. -/
theorem perm_erase (h : m[k]? = some v) : m.toList.Perm ((k, v) :: (m.erase k).toList) := by
  rw [List.perm_ext_iff_of_nodup (nodup_toList m)]
  · rintro ⟨a, b⟩
    rw [List.mem_cons, ExtTreeMap.mem_toList_iff_getElem?_eq_some,
      ExtTreeMap.mem_toList_iff_getElem?_eq_some, ExtTreeMap.getElem?_erase]
    by_cases ha : a = k
    · subst ha
      simp [h, eq_comm]
    · have hne : cmp k a ≠ .eq := fun heq => ha (LawfulEqCmp.eq_of_compare heq).symm
      simp [hne, ha]
  · rw [List.nodup_cons]
    refine ⟨?_, nodup_toList _⟩
    rw [ExtTreeMap.mem_toList_iff_getElem?_eq_some, ExtTreeMap.getElem?_erase_self]
    simp

@[simp] theorem erase_insert : (m.insert k v).erase k = m.erase k := by
  apply ExtTreeMap.ext_getElem?
  intro a
  rw [ExtTreeMap.getElem?_erase, ExtTreeMap.getElem?_erase, ExtTreeMap.getElem?_insert]
  split <;> rfl

@[simp] theorem insert_insert : (m.insert k w).insert k v = m.insert k v := by
  apply ExtTreeMap.ext_getElem?
  intro a
  rw [ExtTreeMap.getElem?_insert, ExtTreeMap.getElem?_insert, ExtTreeMap.getElem?_insert]
  split <;> rfl

theorem insert_of_getElem? (h : m[k]? = some v) : m.insert k v = m := by
  apply ExtTreeMap.ext_getElem?
  intro a
  rw [ExtTreeMap.getElem?_insert]
  split
  · rename_i heq
    rw [← LawfulEqCmp.eq_of_compare heq, h]
  · rfl

theorem erase_of_none (h : m[k]? = none) : m.erase k = m := by
  apply ExtTreeMap.ext_getElem?
  intro a
  rw [ExtTreeMap.getElem?_erase]
  split
  · rename_i heq
    rw [← LawfulEqCmp.eq_of_compare heq, h]
  · rfl

theorem perm_insert (m : ExtTreeMap κ β cmp) (k : κ) (v : β) :
    (m.insert k v).toList.Perm ((k, v) :: (m.erase k).toList) := by
  have hperm := perm_erase (m := m.insert k v) (k := k) ExtTreeMap.getElem?_insert_self
  rwa [erase_insert] at hperm

/-- A new entry beside the old ones. -/
theorem perm_insert_of_none (h : m[k]? = none) :
    (m.insert k v).toList.Perm ((k, v) :: m.toList) := by
  have hperm := perm_insert m k v
  rwa [erase_of_none h] at hperm

theorem getElem?_insert_of_ne {a : κ} (h : a ≠ k) : (m.insert k v)[a]? = m[a]? := by
  rw [ExtTreeMap.getElem?_insert, if_neg]
  intro heq
  exact h (LawfulEqCmp.eq_of_compare heq).symm

theorem getElem?_erase_of_ne {a : κ} (h : a ≠ k) : (m.erase k)[a]? = m[a]? := by
  rw [ExtTreeMap.getElem?_erase, if_neg]
  intro heq
  exact h (LawfulEqCmp.eq_of_compare heq).symm

/-! ## Collecting by key -/

section Collect

variable {α γ : Type*} (key : α → κ) (upd : Option β → α → β)

/-- `for x in xs: m[key(x)] = upd(m[key(x)], x)` -/
def collect (m : ExtTreeMap κ β cmp) (xs : List α) : ExtTreeMap κ β cmp :=
  xs.foldl (fun m x => m.insert (key x) (upd m[key x]? x)) m

variable {key upd} [DecidableEq κ]

theorem getElem?_collect (m : ExtTreeMap κ β cmp) (xs : List α) (k : κ) :
    (collect key upd m xs)[k]? =
      (xs.filter (key · = k)).foldl (fun b x => some (upd b x)) m[k]? := by
  induction xs generalizing m with
  | nil => rfl
  | cons x xs ih =>
      show (collect key upd (m.insert (key x) (upd m[key x]? x)) xs)[k]? = _
      rw [ih]
      by_cases hx : key x = k
      · rw [List.filter_cons_of_pos (by simpa using hx), List.foldl_cons, ← hx,
          ExtTreeMap.getElem?_insert_self]
      · rw [List.filter_cons_of_neg (by simpa using hx), getElem?_insert_of_ne (Ne.symm hx)]

theorem isSome_foldl_some {xs : List α} (h : xs ≠ []) (b : Option β) :
    (xs.foldl (fun b x => some (upd b x)) b).isSome := by
  induction xs generalizing b with
  | nil => exact absurd rfl h
  | cons x xs ih =>
      rw [List.foldl_cons]
      cases xs with
      | nil => rfl
      | cons y ys => exact ih (List.cons_ne_nil _ _) _

/-- Lists that hold, entry by entry, something for each element of the key hold
it for every element. -/
theorem perm_flatMap_collect {xs : List α} {h : κ × β → List γ} {g : α → γ}
    (hone : ∀ e ∈ (collect key upd (∅ : ExtTreeMap κ β cmp) xs).toList,
      h e = (xs.filter (key · = e.1)).map g) :
    ((collect key upd (∅ : ExtTreeMap κ β cmp) xs).toList.flatMap h).Perm (xs.map g) := by
  have hkeys : ∀ x ∈ xs, key x ∈
      (collect key upd (∅ : ExtTreeMap κ β cmp) xs).toList.map Prod.fst := by
    intro x hx
    have hsome : ((collect key upd (∅ : ExtTreeMap κ β cmp) xs)[key x]?).isSome := by
      rw [getElem?_collect]
      exact isSome_foldl_some (List.ne_nil_of_mem (List.mem_filter.mpr ⟨hx, by simp⟩)) _
    rcases Option.isSome_iff_exists.mp hsome with ⟨b, hb⟩
    exact List.mem_map.mpr ⟨(key x, b), ExtTreeMap.mem_toList_iff_getElem?_eq_some.mpr hb, rfl⟩
  have hreordered := Groups.reordered_flatMap_filter (nodup_keys _) hkeys
  rw [List.flatMap_map] at hreordered
  rw [List.flatMap_congr hone, ← List.map_flatMap]
  exact hreordered.perm.map g

end Collect

end Lib.OrderedMap
