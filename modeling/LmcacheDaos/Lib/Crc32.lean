import Mathlib.Tactic.Common

/-!
# CRC-32

The reflected CRC with polynomial `0xEDB88320`, initial value and final xor all
ones, bit by bit. `crc32 data value` continues from an earlier result, as
`zlib.crc32(data, value)` does.

The register is linear in exclusive or, and the top bit of the polynomial tells
whether a bit was shifted out, so no two registers become equal again. Up to
four bytes fit the register side by side (`foldl_crcByte`): two different runs of
that length leave different registers, and data that differ in one such run
have different checksums (`crc32_burst`).
-/

namespace Lib.Crc32

/-- Shift one bit out of the register. -/
def crcBit (c : BitVec 32) : BitVec 32 :=
  if c.getLsbD 0 then (c >>> 1) ^^^ 0xEDB88320#32 else c >>> 1

/-- Feed `n` bits. -/
def crcBits : ℕ → BitVec 32 → BitVec 32
  | 0, c => c
  | n + 1, c => crcBits n (crcBit c)

/-- Feed one byte. -/
def crcByte (c : BitVec 32) (b : UInt8) : BitVec 32 := crcBits 8 (c ^^^ b.toBitVec.setWidth 32)

/-- `zlib.crc32(data, value)` -/
def crc32 (data : List UInt8) (value : BitVec 32) : BitVec 32 :=
  data.foldl crcByte (value ^^^ 0xFFFFFFFF#32) ^^^ 0xFFFFFFFF#32

-- the check value of CRC-32, on the bytes of "123456789"
example : crc32 [0x31, 0x32, 0x33, 0x34, 0x35, 0x36, 0x37, 0x38, 0x39] 0 = 0xCBF43926#32 := by
  decide +kernel

/-! ## The register -/

theorem xor_left_cancel {a b c : BitVec 32} (h : a ^^^ b = a ^^^ c) : b = c := by
  have h' := congrArg (a ^^^ ·) h
  simpa [← BitVec.xor_assoc] using h'

theorem xor_right_cancel {a b c : BitVec 32} (h : b ^^^ a = c ^^^ a) : b = c := by
  rw [BitVec.xor_comm b, BitVec.xor_comm c] at h
  exact xor_left_cancel h

theorem crcBit_xor (a b : BitVec 32) : crcBit (a ^^^ b) = crcBit a ^^^ crcBit b := by
  have hcancel : ∀ x y p : BitVec 32, x ^^^ p ^^^ (y ^^^ p) = x ^^^ y := by
    intro x y p
    rw [BitVec.xor_comm y, BitVec.xor_assoc, ← BitVec.xor_assoc p, BitVec.xor_self,
      BitVec.zero_xor]
  unfold crcBit
  simp only [BitVec.getLsbD_xor, BitVec.ushiftRight_xor_distrib]
  cases a.getLsbD 0 <;> cases b.getLsbD 0
  · rfl
  · simp [BitVec.xor_assoc]
  · simp only [Bool.xor_false, if_true, Bool.false_eq_true, if_false]
    rw [BitVec.xor_assoc, BitVec.xor_assoc, BitVec.xor_comm (b >>> 1)]
  · simpa using (hcancel (a >>> 1) (b >>> 1) _).symm

theorem crcBits_xor (n : ℕ) (a b : BitVec 32) :
    crcBits n (a ^^^ b) = crcBits n a ^^^ crcBits n b := by
  induction n generalizing a b with
  | zero => rfl
  | succ n ih => rw [crcBits, crcBits, crcBits, crcBit_xor, ih]

theorem crcBits_add (m n : ℕ) (c : BitVec 32) : crcBits (m + n) c = crcBits n (crcBits m c) := by
  induction m generalizing c with
  | zero => rw [Nat.zero_add, crcBits]
  | succ m ih => rw [Nat.succ_add, crcBits, crcBits, ih]

/-- The top bit of the register is the bit that was shifted out. -/
theorem getLsbD_crcBit (c : BitVec 32) : (crcBit c).getLsbD 31 = c.getLsbD 0 := by
  have htop : (c >>> 1).getLsbD 31 = false := by simp
  unfold crcBit
  split
  · rename_i hlow
    rw [BitVec.getLsbD_xor, htop, hlow]
    rfl
  · rename_i hlow
    rw [htop, Bool.eq_false_iff.mpr hlow]

theorem crcBit_injective : Function.Injective crcBit := by
  intro a b h
  have hlow : a.getLsbD 0 = b.getLsbD 0 := by
    rw [← getLsbD_crcBit, h, getLsbD_crcBit]
  have hshift : a >>> 1 = b >>> 1 := by
    unfold crcBit at h
    rw [hlow] at h
    split at h
    · exact xor_right_cancel h
    · exact h
  apply BitVec.eq_of_getLsbD_eq
  intro i _
  cases i with
  | zero => exact hlow
  | succ i =>
      have hi := congrArg (fun c => c.getLsbD i) hshift
      simpa [Nat.add_comm] using hi

theorem crcBits_injective (n : ℕ) : Function.Injective (crcBits n) := by
  induction n with
  | zero => exact fun _ _ h => h
  | succ n ih => exact ih.comp crcBit_injective

theorem crcByte_injective (b : UInt8) : Function.Injective (crcByte · b) := by
  intro c c' h
  exact xor_right_cancel (crcBits_injective 8 h)

theorem foldl_crcByte_injective (data : List UInt8) :
    Function.Injective fun c => data.foldl crcByte c := by
  induction data with
  | nil => exact fun _ _ h => h
  | cons b bs ih => exact ih.comp (crcByte_injective b)

/-! ## Runs of up to four bytes -/

/-- Bytes side by side, the first one lowest. -/
def word : List UInt8 → BitVec 32
  | [] => 0
  | b :: bs => b.toBitVec.setWidth 32 ^^^ word bs <<< 8

theorem getLsbD_word {bs : List UInt8} {i : ℕ} (h : 8 * bs.length ≤ i) :
    (word bs).getLsbD i = false := by
  induction bs generalizing i with
  | nil => exact BitVec.getLsbD_zero
  | cons b bs ih =>
      rw [List.length_cons] at h
      have hrest : (word bs).getLsbD (i - 8) = false := ih (by omega)
      simp [word, hrest, BitVec.getLsbD_of_ge b.toBitVec i (by omega)]

/-- A register whose low bits are clear only moves down. -/
theorem crcBits_shiftLeft (n : ℕ) {w : BitVec 32} (h : ∀ i, 32 ≤ i + n → w.getLsbD i = false) :
    crcBits n (w <<< n) = w := by
  induction n with
  | zero => simp [crcBits]
  | succ n ih =>
      have hstep : crcBit (w <<< (n + 1)) = w <<< n := by
        rw [crcBit, if_neg (by simp)]
        apply BitVec.eq_of_getLsbD_eq
        intro i hi
        by_cases hlt : i + 1 < 32
        · have hcond : (1 + i < n + 1) = (i < n) := by
            rw [eq_iff_iff]
            omega
          have hsub : 1 + i - (n + 1) = i - n := by omega
          simp [hi, show 1 + i < 32 by omega, hcond, hsub]
        · -- the bit that moves up from nowhere is clear in `w`
          by_cases hn : i < n
          · simp [hn, show ¬ 1 + i < 32 by omega]
          · have hclear := h (i - n) (by omega)
            simp [hclear, show ¬ 1 + i < 32 by omega]
      rw [crcBits, hstep]
      exact ih fun i hi => h i (by omega)

theorem foldl_crcByte {bs : List UInt8} (h : bs.length ≤ 4) (c : BitVec 32) :
    bs.foldl crcByte c = crcBits (8 * bs.length) (c ^^^ word bs) := by
  induction bs generalizing c with
  | nil => simp [word, crcBits]
  | cons b bs ih =>
      rw [List.length_cons] at h
      have hdown : crcBits 8 (word bs <<< 8) = word bs :=
        crcBits_shiftLeft 8 fun i hi => getLsbD_word (by omega)
      calc (b :: bs).foldl crcByte c
          = crcBits (8 * bs.length) (crcByte c b ^^^ word bs) := ih (by omega) _
        _ = crcBits (8 * bs.length)
              (crcBits 8 (c ^^^ b.toBitVec.setWidth 32 ^^^ word bs <<< 8)) := by
            rw [crcBits_xor 8, hdown, crcByte]
        _ = crcBits (8 * (b :: bs).length) (c ^^^ word (b :: bs)) := by
            rw [← crcBits_add, BitVec.xor_assoc, List.length_cons, Nat.add_comm, word]
            rfl

theorem word_inj {x y : List UInt8} (hlen : x.length = y.length) (h4 : x.length ≤ 4)
    (h : word x = word y) : x = y := by
  induction x generalizing y with
  | nil => exact (List.length_eq_zero_iff.mp hlen.symm).symm
  | cons a x ih =>
      cases y with
      | nil => cases hlen
      | cons b y =>
          rw [List.length_cons] at h4
          rw [List.length_cons, List.length_cons] at hlen
          have hhead : a = b := by
            apply UInt8.toBitVec_inj.mp
            apply BitVec.eq_of_getLsbD_eq
            intro i hi
            have hbit := congrArg (fun c => c.getLsbD i) h
            simpa [word, hi, show i < 32 by omega] using hbit
          subst hhead
          have htail : word x <<< 8 = word y <<< 8 := xor_left_cancel h
          have hx : crcBits 8 (word x <<< 8) = word x :=
            crcBits_shiftLeft 8 fun i hi => getLsbD_word (by omega)
          have hy : crcBits 8 (word y <<< 8) = word y :=
            crcBits_shiftLeft 8 fun i hi => getLsbD_word (by omega)
          have hword : word x = word y := by rw [← hx, htail, hy]
          rw [ih (by omega) (by omega) hword]

/-! ## Checksums -/

theorem crc32_append (a b : List UInt8) (v : BitVec 32) :
    crc32 (a ++ b) v = crc32 b (crc32 a v) := by
  simp only [crc32, List.foldl_append]
  rw [BitVec.xor_assoc (a.foldl _ _), BitVec.xor_self, BitVec.xor_zero]

/-- Data that differ in at most four consecutive bytes have different checksums. -/
theorem crc32_burst {x y : List UInt8} (hlen : x.length = y.length) (h4 : x.length ≤ 4)
    (hne : x ≠ y) (before after : List UInt8) (v : BitVec 32) :
    crc32 (before ++ x ++ after) v ≠ crc32 (before ++ y ++ after) v := by
  intro h
  have hfold := xor_right_cancel h
  simp only [List.foldl_append] at hfold
  have hmid := foldl_crcByte_injective after hfold
  have h4' : y.length ≤ 4 := hlen ▸ h4
  rw [foldl_crcByte h4, foldl_crcByte h4', ← hlen] at hmid
  exact hne (word_inj hlen h4 (xor_left_cancel (crcBits_injective _ hmid)))

end Lib.Crc32
