import Mathlib.Algebra.Group.Nat.Defs
import Mathlib.Tactic.Common

/-!
# SHA-256

`hashlib.sha256(data).digest()`, over 32-bit words.
-/

namespace Lib.Sha256

abbrev Word := BitVec 32

/-- The round constants. -/
def roundConstants : List Word := [
  0x428a2f98, 0x71374491, 0xb5c0fbcf, 0xe9b5dba5, 0x3956c25b, 0x59f111f1, 0x923f82a4, 0xab1c5ed5,
  0xd807aa98, 0x12835b01, 0x243185be, 0x550c7dc3, 0x72be5d74, 0x80deb1fe, 0x9bdc06a7, 0xc19bf174,
  0xe49b69c1, 0xefbe4786, 0x0fc19dc6, 0x240ca1cc, 0x2de92c6f, 0x4a7484aa, 0x5cb0a9dc, 0x76f988da,
  0x983e5152, 0xa831c66d, 0xb00327c8, 0xbf597fc7, 0xc6e00bf3, 0xd5a79147, 0x06ca6351, 0x14292967,
  0x27b70a85, 0x2e1b2138, 0x4d2c6dfc, 0x53380d13, 0x650a7354, 0x766a0abb, 0x81c2c92e, 0x92722c85,
  0xa2bfe8a1, 0xa81a664b, 0xc24b8b70, 0xc76c51a3, 0xd192e819, 0xd6990624, 0xf40e3585, 0x106aa070,
  0x19a4c116, 0x1e376c08, 0x2748774c, 0x34b0bcb5, 0x391c0cb3, 0x4ed8aa4a, 0x5b9cca4f, 0x682e6ff3,
  0x748f82ee, 0x78a5636f, 0x84c87814, 0x8cc70208, 0x90befffa, 0xa4506ceb, 0xbef9a3f7, 0xc67178f2]

/-- The working variables `a` to `h`, which also hold the hash value. -/
structure Digest where
  a : Word
  b : Word
  c : Word
  d : Word
  e : Word
  f : Word
  g : Word
  h : Word
deriving DecidableEq, Repr

def initial : Digest :=
  ⟨0x6a09e667, 0xbb67ae85, 0x3c6ef372, 0xa54ff53a, 0x510e527f, 0x9b05688c, 0x1f83d9ab, 0x5be0cd19⟩

/-- The message schedule, extended by `n` words; the last sixteen words are
kept with the latest first. -/
def extend : ℕ → List Word → List Word
  | 0, _ => []
  | n + 1, last =>
      let w15 := last.getD 14 0
      let w2 := last.getD 1 0
      let s0 := w15.rotateRight 7 ^^^ w15.rotateRight 18 ^^^ (w15 >>> 3)
      let s1 := w2.rotateRight 17 ^^^ w2.rotateRight 19 ^^^ (w2 >>> 10)
      let w := last.getD 15 0 + s0 + last.getD 6 0 + s1
      w :: extend n (w :: last.take 15)

/-- One round with its constant and its word of the schedule. -/
def round (v : Digest) (kw : Word × Word) : Digest :=
  let s1 := v.e.rotateRight 6 ^^^ v.e.rotateRight 11 ^^^ v.e.rotateRight 25
  let ch := (v.e &&& v.f) ^^^ (~~~v.e &&& v.g)
  let t1 := v.h + s1 + ch + kw.1 + kw.2
  let s0 := v.a.rotateRight 2 ^^^ v.a.rotateRight 13 ^^^ v.a.rotateRight 22
  let maj := (v.a &&& v.b) ^^^ (v.a &&& v.c) ^^^ (v.b &&& v.c)
  ⟨t1 + (s0 + maj), v.a, v.b, v.c, v.d + t1, v.e, v.f, v.g⟩

/-- Absorb one block of sixteen words. -/
def compress (v : Digest) (block : List Word) : Digest :=
  let r := (roundConstants.zip (block ++ extend 48 block.reverse)).foldl round v
  ⟨v.a + r.a, v.b + r.b, v.c + r.c, v.d + r.d, v.e + r.e, v.f + r.f, v.g + r.g, v.h + r.h⟩

/-- A word from four bytes, most significant first. -/
def beWord (bs : List UInt8) : Word :=
  bs.foldl (fun w b => (w <<< 8) ||| b.toBitVec.setWidth 32) 0

/-- `n` big-endian in `w` bytes. -/
def beBytes (w n : ℕ) : List UInt8 :=
  (List.range w).map fun i => UInt8.ofNat (n / 256 ^ (w - 1 - i))

/-- Cut into pieces of `n`. -/
def pieces {α : Type*} (n count : ℕ) (l : List α) : List (List α) :=
  (List.range count).map fun i => (l.drop (i * n)).take n

/-- The message with its padding: a one bit, zeros, and the length in bits. -/
def padded (data : List UInt8) : List UInt8 :=
  data ++ 0x80 :: List.replicate ((119 - data.length % 64) % 64) 0 ++ beBytes 8 (8 * data.length)

/-- `hashlib.sha256(data).digest()` -/
def digest (data : List UInt8) : List UInt8 :=
  let msg := padded data
  let blocks := (pieces 64 (msg.length / 64) msg).map fun b => (pieces 4 16 b).map beWord
  let v := blocks.foldl compress initial
  [v.a, v.b, v.c, v.d, v.e, v.f, v.g, v.h].flatMap fun w => beBytes 4 w.toNat

example : digest [0x61, 0x62, 0x63] =
    [0xba, 0x78, 0x16, 0xbf, 0x8f, 0x01, 0xcf, 0xea, 0x41, 0x41, 0x40, 0xde, 0x5d, 0xae, 0x22, 0x23,
     0xb0, 0x03, 0x61, 0xa3, 0x96, 0x17, 0x7a, 0x9c, 0xb4, 0x10, 0xff, 0x61, 0xf2, 0x00, 0x15, 0xad]
    := by decide +kernel

end Lib.Sha256
