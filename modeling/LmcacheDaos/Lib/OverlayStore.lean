import Mathlib.Logic.Function.Basic
import LmcacheDaos.Lib.SparseFile

/-!
# A store whose objects are overwritten in place

The sequential meaning of a store of sparse files that never truncates: a write
lays the data over what the name holds, so a longer object keeps its tail. An
operation is atomic and carries what it answered; a run is a sequence of them
that a store can have given.

* `Torn`: what a write that was given up may have left.
* What a name holds stays until an operation changes it (`Run.kept`), so a load
  after a write gets what was written (`Run.load_after_write`).
-/

namespace Lib.OverlayStore

open SparseFile

universe u v

variable {κ : Type u} {α : Type v}

/-- What each name holds. -/
abbrev Held (κ : Type u) (α : Type v) := κ → Option (List α)

inductive Op (κ : Type u) (α : Type v) where
  | write (p : κ) (data : List α)
  /-- a write that was given up -/
  | torn (p : κ) (data : List α)
  /-- an object of this length is found, and not written -/
  | skip (p : κ) (n : ℕ)
  | drop (p : κ)
  /-- whether there is an object, of the length expected -/
  | probe (p : κ) (expected : Option ℕ) (hit : Bool)
  /-- a buffer of `n` values, if the object fills it -/
  | load (p : κ) (n : ℕ) (buf : Option (List α))
deriving DecidableEq, Repr

/-- The data over what was there. -/
def overlay (old : Option (List α)) (data : List α) : List α :=
  data ++ (old.getD []).drop data.length

/-- Some of the data over what was there: every value is an old or a new one. -/
def Torn (z : α) (old data f : List α) : Prop :=
  old.length ≤ f.length ∧ f.length ≤ max old.length data.length ∧
    ∀ i, f.getD i z = old.getD i z ∨ i < data.length ∧ f.getD i z = data.getD i z

/-- The answer to a probe. -/
def found (held : Option (List α)) (expected : Option ℕ) : Bool :=
  held.any fun f => expected.all fun n => f.length == n

/-- The answer to a load. -/
def loaded (held : Option (List α)) (n : ℕ) : Option (List α) :=
  held.bind fun f => if n ≤ f.length then some (f.take n) else none

inductive Step [DecidableEq κ] (z : α) (H : Held κ α) : Op κ α → Held κ α → Prop where
  | write {p : κ} {data : List α} :
      Step z H (.write p data) (Function.update H p (some (overlay (H p) data)))
  | torn {p : κ} {data f : List α} (h : Torn z ((H p).getD []) data f) :
      Step z H (.torn p data) (Function.update H p (some f))
  | skip {p : κ} {n : ℕ} (h : (H p).map List.length = some n) : Step z H (.skip p n) H
  | drop {p : κ} : Step z H (.drop p) (Function.update H p none)
  | probe {p : κ} {expected : Option ℕ} : Step z H (.probe p expected (found (H p) expected)) H
  | load {p : κ} {n : ℕ} : Step z H (.load p n (loaded (H p) n)) H

inductive Run [DecidableEq κ] (z : α) : Held κ α → List (Op κ α) → Held κ α → Prop where
  | nil {H : Held κ α} : Run z H [] H
  | cons {H H₁ H' : Held κ α} {op : Op κ α} {ops : List (Op κ α)} (hst : Step z H op H₁)
      (hrun : Run z H₁ ops H') : Run z H (op :: ops) H'

/-- The operation changes what `p` holds. -/
def Op.Changes (p : κ) : Op κ α → Prop
  | .write q _ | .torn q _ | .drop q => q = p
  | _ => False

instance [DecidableEq κ] (p : κ) (op : Op κ α) : Decidable (op.Changes p) :=
  match op with
  | .write q _ | .torn q _ | .drop q => inferInstanceAs (Decidable (q = p))
  | .skip _ _ | .probe _ _ _ | .load _ _ _ => inferInstanceAs (Decidable False)

/-! ## Values -/

variable {z : α}

theorem torn_refl (old data : List α) : Torn z old data old :=
  ⟨Nat.le_refl _, le_max_left _ _, fun _ => .inl rfl⟩

/-- One more piece of the data. -/
theorem Torn.landChunk {old data f : List α} (h : Torn z old data f) {cs : ℕ} (hcs : 0 < cs)
    (k : ℕ) : Torn z old data (landChunk z cs f 0 data k) := by
  obtain ⟨hge, hle, hvalue⟩ := h
  have hgrown := length_landChunk_le (z := z) cs f 0 data k
  refine ⟨hge.trans (length_le_length_landChunk cs f 0 data k), ?_, fun i => ?_⟩
  · omega
  · rw [getD_landChunk hcs]
    split
    · rename_i hin
      exact .inr ⟨by omega, rfl⟩
    · exact hvalue i

/-- All of the data. -/
theorem Torn.eq_overlay {data f : List α} {old : Option (List α)} (h : Torn z (old.getD []) data f)
    {cs : ℕ} (hlanded : Landed z cs f 0 data []) : f = overlay old data := by
  obtain ⟨hge, hle, hvalue⟩ := h
  have hdata : data.length ≤ f.length := by
    rcases Nat.eq_zero_or_pos data.length with hzero | hpos
    · omega
    · have hin := (hlanded (data.length - 1) (Nat.zero_le _) (by omega) (by simp)).1
      omega
  refine ext_getD (z := z) ?_ fun i hi => ?_
  · rw [overlay, List.length_append, List.length_drop]
    omega
  · rw [overlay, getD_append]
    split
    · rename_i hlt
      rw [(hlanded i (Nat.zero_le _) (by omega) (by simp)).2, Nat.sub_zero]
    · rename_i hge
      rw [getD_drop, Nat.add_sub_cancel' (Nat.le_of_not_lt hge)]
      exact (hvalue i).resolve_right fun hnew => hge hnew.1

/-- A load that is not longer than the last write gets its data. -/
theorem loaded_overlay (old : Option (List α)) {data : List α} {n : ℕ} (hn : n ≤ data.length) :
    loaded (some (overlay old data)) n = some (data.take n) := by
  have hlen : n ≤ (overlay old data).length := by
    rw [overlay, List.length_append]
    omega
  rw [loaded, Option.bind_some, if_pos hlen, overlay, List.take_append_of_le_length hn]

/-! ## Runs -/

section Runs

variable [DecidableEq κ] {H H' : Held κ α} {p : κ} {xs ys : List (Op κ α)}

theorem Run.append {H₁ : Held κ α} (h : Run z H xs H₁) (h' : Run z H₁ ys H') :
    Run z H (xs ++ ys) H' := by
  induction h with
  | nil => exact h'
  | cons hst _ ih => exact .cons hst (ih h')

theorem Run.single {op : Op κ α} (h : Step z H op H') : Run z H [op] H' := .cons h .nil

theorem Run.split (h : Run z H (xs ++ ys) H') : ∃ H₁, Run z H xs H₁ ∧ Run z H₁ ys H' := by
  induction xs generalizing H with
  | nil => exact ⟨H, .nil, h⟩
  | cons op xs ih =>
      cases h with
      | cons hst hrun =>
          obtain ⟨H₁, hxs, hys⟩ := ih hrun
          exact ⟨H₁, .cons hst hxs, hys⟩

theorem Step.kept {op : Op κ α} (h : Step z H op H') (hp : ¬ op.Changes p) : H' p = H p := by
  cases h with
  | write | torn | drop => exact Function.update_of_ne (Ne.symm hp) _ _
  | skip | probe | load => rfl

/-- What a name holds stays until an operation changes it. -/
theorem Run.kept (h : Run z H xs H') (hp : ∀ op ∈ xs, ¬ op.Changes p) : H' p = H p := by
  induction h with
  | nil => rfl
  | cons hst _ ih =>
      rw [ih fun op hop => hp op (.tail _ hop), hst.kept (hp _ (.head _))]

/-- With no change between a write and a load of no more than it, the load gets what was
written. -/
theorem Run.load_after_write {data : List α} {n : ℕ} {buf : Option (List α)}
    {mid rest : List (Op κ α)}
    (h : Run z H (xs ++ .write p data :: (mid ++ .load p n buf :: rest)) H')
    (hmid : ∀ op ∈ mid, ¬ op.Changes p) (hn : n ≤ data.length) : buf = some (data.take n) := by
  obtain ⟨H₁, -, h⟩ := h.split
  cases h with
  | cons hwrite h =>
      obtain ⟨H₂, hkept, h⟩ := h.split
      cases h with
      | cons hload _ =>
          cases hload
          cases hwrite
          rw [hkept.kept hmid, Function.update_self]
          exact loaded_overlay _ hn

end Runs

end Lib.OverlayStore
