import LmcacheDaos.ObjBinding
import LmcacheDaos.Serde.V2
import LmcacheDaos.Lib.Sha256

/-!
# The v3 placement

`serde_v3.py`: one dkey per chunk, the payload and an unpadded v2 header in
akeys of their own, one pair for the whole chunk or one per layer.
-/

namespace LmcacheDaos.Serde

open Lib

/-- `AKEY_META` -/
def akeyMeta : Akey := [0x4D]

/-- `AKEY_PAYLOAD` -/
def akeyPayload : Akey := [0x50]

/-- `_MAX_LAYER` -/
def maxLayer : ℕ := 999

/-- `str.encode()` -/
def encode (s : String) : Bytes := s.toUTF8.data.toList

/-- `dkey_for_str` -/
def dkeyForStr (s : String) : Dkey := Sha256.digest (encode s)

/-- `b"X%03d" % i` for a layer in range. -/
def layerName (letter : UInt8) (i : ℕ) : Akey :=
  [letter, UInt8.ofNat (48 + i / 100), UInt8.ofNat (48 + i / 10 % 10), UInt8.ofNat (48 + i % 10)]

/-- The akey of a layer, behind the range check. -/
def akeyOfLayer (letter : UInt8) (i : ℕ) : Except PackError Akey :=
  if maxLayer < i then .error (.valueError s!"layer {i} outside 0..{maxLayer}")
  else .ok (layerName letter i)

/-- `akey_layer` -/
def akeyLayer : ℕ → Except PackError Akey := akeyOfLayer 0x4C

/-- `akey_meta_layer` -/
def akeyMetaLayer : ℕ → Except PackError Akey := akeyOfLayer 0x4D

example : akeyMetaLayer 7 = .ok (encode "M007") := by decide

/-- `pack_meta`; `payload_len` is a length, so it is not negative. -/
def packMeta (metadata : Bytes) (payloadLen state : ℕ) : Except PackError Bytes :=
  let n := metadata.length
  packChecked s!"metadata too large: {n} > {maxMeta}" ⟨state, metadata, payloadLen⟩

/-- `parse_meta` -/
def parseMeta (buf : Bytes) (requireCommitted : Bool) : Except BadHeader Header :=
  parseHeader buf requireCommitted

theorem packMeta_eq_ok {metadata buf : Bytes} {payloadLen state : ℕ} :
    packMeta metadata payloadLen state = .ok buf ↔
      Header.Packable ⟨state, metadata, payloadLen⟩ ∧ buf = header ⟨state, metadata, payloadLen⟩ :=
  packChecked_eq_ok

theorem layerName_inj {a b : UInt8} {i j : ℕ} (hi : i ≤ maxLayer) (hj : j ≤ maxLayer)
    (h : layerName a i = layerName b j) : a = b ∧ i = j := by
  have hi : i ≤ 999 := hi
  have hj : j ≤ 999 := hj
  simp only [layerName, List.cons.injEq, ← UInt8.toNat_inj, UInt8.toNat_ofNat'] at h
  obtain ⟨ha, h1, h2, h3, -⟩ := h
  refine ⟨UInt8.toNat_inj.mp ha, ?_⟩
  have e1 : i / 100 = j / 100 := by omega
  have e2 : i / 10 % 10 = j / 10 % 10 := by omega
  have e3 : i % 10 = j % 10 := by omega
  omega

end LmcacheDaos.Serde
