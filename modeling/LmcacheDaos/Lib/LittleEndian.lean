import Mathlib.Algebra.Group.Nat.Defs
import Mathlib.Tactic.Common
import LmcacheDaos.Lib.SparseFile

/-!
# Fixed-width little-endian integers

`leBytes w n` is the encoding of `n` in `w` bytes, as `struct.pack` writes its
unsigned fields; `ofLe` reads it back. `readAt_append_mid` and `readAt_take`
pick a field out of a record, whole or cut short.
-/

namespace Lib

/-- The low `w` bytes of `n`, least significant first. -/
def leBytes : ℕ → ℕ → List UInt8
  | 0, _ => []
  | w + 1, n => UInt8.ofNat n :: leBytes w (n / 256)

/-- The number whose little-endian bytes these are. -/
def ofLe : List UInt8 → ℕ
  | [] => 0
  | b :: bs => b.toNat + 256 * ofLe bs

@[simp] theorem length_leBytes (w n : ℕ) : (leBytes w n).length = w := by
  induction w generalizing n with
  | zero => rfl
  | succ w ih =>
      show (leBytes w (n / 256)).length + 1 = w + 1
      rw [ih]

theorem ofLe_leBytes {w n : ℕ} (h : n < 256 ^ w) : ofLe (leBytes w n) = n := by
  induction w generalizing n with
  | zero =>
      rw [Nat.pow_zero] at h
      show 0 = n
      omega
  | succ w ih =>
      have hdiv : n / 256 < 256 ^ w := by
        rw [Nat.pow_succ] at h
        exact (Nat.div_lt_iff_lt_mul (by decide)).mpr h
      show (UInt8.ofNat n).toNat + 256 * ofLe (leBytes w (n / 256)) = n
      rw [ih hdiv, UInt8.toNat_ofNat']
      show n % 256 + 256 * (n / 256) = n
      exact Nat.mod_add_div n 256

/-- Bytes that are missing make a number smaller. -/
theorem ofLe_le_of_zeroed {bs cs : List UInt8}
    (h : List.Forall₂ (fun b c => b = 0 ∨ b = c) bs cs) : ofLe bs ≤ ofLe cs := by
  induction h with
  | nil => exact Nat.le_refl _
  | cons hhead _ ih =>
      rw [ofLe, ofLe]
      rcases hhead with rfl | rfl
      · exact Nat.add_le_add (Nat.zero_le _) (Nat.mul_le_mul_left _ ih)
      · exact Nat.add_le_add_left (Nat.mul_le_mul_left _ ih) _

theorem leBytes_ofLe (bs : List UInt8) : leBytes bs.length (ofLe bs) = bs := by
  induction bs with
  | nil => rfl
  | cons b bs ih =>
      have hlow : UInt8.ofNat (b.toNat + 256 * ofLe bs) = b := by
        apply UInt8.toNat_inj.mp
        rw [UInt8.toNat_ofNat']
        have hb := b.toNat_lt
        omega
      have hhigh : (b.toNat + 256 * ofLe bs) / 256 = ofLe bs := by
        have hb := b.toNat_lt
        omega
      rw [ofLe, List.length_cons, leBytes, hlow, hhigh, ih]

theorem ofLe_lt (bs : List UInt8) : ofLe bs < 256 ^ bs.length := by
  induction bs with
  | nil => exact Nat.one_pos
  | cons b bs ih =>
      have hb := b.toNat_lt
      rw [ofLe, List.length_cons, Nat.pow_succ]
      omega

/-- The bytes of a field are those of its number. -/
theorem eq_leBytes {bs : List UInt8} {w n : ℕ} (hlen : bs.length = w) (h : ofLe bs = n) :
    bs = leBytes w n := by
  rw [← hlen, ← h, leBytes_ofLe]

namespace SparseFile

universe u

variable {α : Type u}

/-- A field between what comes before it and what comes after. -/
theorem readAt_append_mid (a b c : List α) : readAt (a ++ b ++ c) a.length b.length = b := by
  rw [readAt, List.append_assoc, List.drop_left, List.take_left]

/-- A field inside the first `m` values is not affected by cutting there. -/
theorem readAt_take {f : List α} {m off n : ℕ} (h : off + n ≤ m) :
    readAt (f.take m) off n = readAt f off n := by
  rw [readAt, readAt, List.drop_take, List.take_take]
  congr 1
  omega

/-- A full read of a file that was cut short is a read of the whole file. -/
theorem readAt_of_prefix {f g : List α} {off n : ℕ} (h : f <+: g)
    (hfull : (readAt f off n).length = n) : readAt f off n = readAt g off n := by
  rw [length_readAt] at hfull
  rw [List.prefix_iff_eq_take.mp h]
  by_cases hn : n = 0
  · subst hn
    simp [readAt]
  · exact readAt_take (by omega)

end SparseFile

end Lib
