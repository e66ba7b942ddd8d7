import Mathlib.Data.List.TakeWhile
import Mathlib.Tactic.Common

/-!
# Fields and separators

A field that does not contain the separator can be read off the front
(`sep_inj`), splitting at the separator gives such fields
(`sep_not_mem_splitOn`), and so does a cut at the first separator
(`cut_of_mem`).
-/

namespace Lib

universe u

variable {α : Type u}

/-- A first field and what follows its separator. -/
theorem sep_inj {c : α} {xs ys us vs : List α} (hxs : c ∉ xs) (hys : c ∉ ys)
    (h : xs ++ c :: us = ys ++ c :: vs) : xs = ys ∧ us = vs := by
  induction xs generalizing ys with
  | nil =>
      cases ys with
      | nil => exact ⟨rfl, (List.cons.inj h).2⟩
      | cons y ys => exact absurd (List.mem_cons.mpr (.inl (List.cons.inj h).1)) hys
  | cons x xs ih =>
      cases ys with
      | nil => exact absurd (List.mem_cons.mpr (.inl (List.cons.inj h).1.symm)) hxs
      | cons y ys =>
          rcases List.cons.inj h with ⟨rfl, htail⟩
          rw [List.mem_cons, not_or] at hxs hys
          rcases ih hxs.2 hys.2 htail with ⟨rfl, rfl⟩
          exact ⟨rfl, rfl⟩

/-- A list cut at its first separator. -/
theorem cut_of_mem [DecidableEq α] {c : α} {xs : List α} (h : c ∈ xs) :
    xs = xs.takeWhile (· ≠ c) ++ c :: (xs.dropWhile (· ≠ c)).tail := by
  induction xs with
  | nil => cases h
  | cons x xs ih =>
      by_cases hx : x = c
      · simp [hx]
      · have hrest := ih ((List.mem_cons.mp h).resolve_left (Ne.symm hx))
        simpa [hx] using hrest

theorem sep_not_mem_takeWhile [DecidableEq α] (c : α) (xs : List α) :
    c ∉ xs.takeWhile (· ≠ c) := by
  intro h
  simpa using List.mem_takeWhile_imp h

theorem sep_not_mem_splitOn [DecidableEq α] {c : α} {xs field : List α}
    (h : field ∈ xs.splitOn c) : c ∉ field := by
  induction xs generalizing field with
  | nil =>
      rw [List.splitOn_nil, List.mem_singleton] at h
      rw [h]
      exact List.not_mem_nil
  | cons x xs ih =>
      rw [List.splitOn_eq_splitOnP, List.splitOnP_cons_eq_if_modifyHead,
        ← List.splitOn_eq_splitOnP] at h
      split at h
      · rcases List.mem_cons.mp h with rfl | h
        · exact List.not_mem_nil
        · exact ih h
      · rename_i hx
        -- `x` belongs to the first field of the rest
        cases hrest : xs.splitOn c with
        | nil => simp [hrest] at h
        | cons f fs =>
            rw [hrest] at ih h
            rw [List.modifyHead_cons, List.mem_cons] at h
            rcases h with rfl | h
            · rw [List.mem_cons, not_or]
              refine ⟨?_, ih List.mem_cons_self⟩
              rintro rfl
              simp at hx
            · exact ih (List.mem_cons_of_mem _ h)

end Lib
