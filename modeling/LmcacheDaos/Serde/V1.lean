import LmcacheDaos.Serde.V2

/-!
# The v1 framing

`serde.py`: an object is a prefix `<II` with the lengths of metadata and
payload, then the metadata, then the payload.
-/

namespace LmcacheDaos.Serde

open Lib

/-- `prefix_size` -/
def prefixSize : ℕ := 8

/-- `prefix_pack`; `struct` refuses a length that does not fit 32 bits. -/
def prefixPack (metaLen payloadLen : ℕ) : Except PackError Bytes :=
  if 2 ^ 32 ≤ metaLen ∨ 2 ^ 32 ≤ payloadLen then .error .structError
  else .ok (leBytes 4 metaLen ++ leBytes 4 payloadLen)

/-- `parse_prefix` -/
def parsePrefix (framing : Bytes) : Except PackError (ℕ × ℕ) :=
  let n := framing.length
  if n ≠ prefixSize then .error (.valueError s!"short prefix: {n} != {prefixSize}")
  else .ok (ofLe (SparseFile.readAt framing 0 4), ofLe (SparseFile.readAt framing 4 4))

/-- `pack` -/
def pack (metadata payload : Bytes) : Except PackError Bytes :=
  (prefixPack metadata.length payload.length).map fun framing => framing ++ metadata ++ payload

/-- `unpack` -/
def unpack (blob : Bytes) : Except PackError (Bytes × Bytes) :=
  (parsePrefix (blob.take prefixSize)).map fun (metaLen, payloadLen) =>
    (SparseFile.readAt blob prefixSize metaLen,
      SparseFile.readAt blob (prefixSize + metaLen) payloadLen)

theorem prefixPack_eq_ok {metaLen payloadLen : ℕ} (hm : metaLen < 2 ^ 32)
    (hp : payloadLen < 2 ^ 32) :
    prefixPack metaLen payloadLen = .ok (leBytes 4 metaLen ++ leBytes 4 payloadLen) := by
  rw [prefixPack, if_neg (by omega)]

theorem parsePrefix_prefixPack {metaLen payloadLen : ℕ} (hm : metaLen < 2 ^ 32)
    (hp : payloadLen < 2 ^ 32) :
    parsePrefix (leBytes 4 metaLen ++ leBytes 4 payloadLen) = .ok (metaLen, payloadLen) := by
  have hmeta : ofLe (SparseFile.readAt (leBytes 4 metaLen ++ leBytes 4 payloadLen) 0 4) =
      metaLen := by
    apply field_eq (a := []) (c := leBytes 4 payloadLen)
    · rfl
    · rfl
    · exact hm
  have hpay : ofLe (SparseFile.readAt (leBytes 4 metaLen ++ leBytes 4 payloadLen) 4 4) =
      payloadLen := by
    apply field_eq (a := leBytes 4 metaLen) (c := [])
    · simp
    · simp
    · exact hp
  unfold parsePrefix
  rw [if_neg (by simp [prefixSize]), hmeta, hpay]

/-- The bytes of an object. -/
def framed (metadata payload : Bytes) : Bytes :=
  leBytes 4 metadata.length ++ leBytes 4 payload.length ++ metadata ++ payload

section Framed

variable {metadata payload : Bytes}

theorem length_framed (metadata payload : Bytes) : (framed metadata payload).length =
    prefixSize + metadata.length + payload.length := by
  simp [framed, prefixSize]
  omega

theorem pack_eq_ok (hm : metadata.length < 2 ^ 32) (hp : payload.length < 2 ^ 32) :
    pack metadata payload = .ok (framed metadata payload) := by
  rw [pack, prefixPack_eq_ok hm hp]
  rfl

theorem parsePrefix_framed (hm : metadata.length < 2 ^ 32) (hp : payload.length < 2 ^ 32)
    (rest : Bytes) : parsePrefix ((framed metadata payload ++ rest).take prefixSize) =
      .ok (metadata.length, payload.length) := by
  have hpre : (framed metadata payload ++ rest).take prefixSize =
      leBytes 4 metadata.length ++ leBytes 4 payload.length := by
    simp only [framed, List.append_assoc]
    rw [← List.append_assoc]
    exact List.take_left' (by simp [prefixSize])
  rw [hpre, parsePrefix_prefixPack hm hp]

theorem readAt_framed_metadata (metadata payload rest : Bytes) :
    SparseFile.readAt (framed metadata payload ++ rest) prefixSize metadata.length = metadata := by
  have hmid := SparseFile.readAt_append_mid
    (leBytes 4 metadata.length ++ leBytes 4 payload.length) metadata (payload ++ rest)
  simpa [framed, prefixSize] using hmid

theorem readAt_framed_payload (metadata payload rest : Bytes) :
    SparseFile.readAt (framed metadata payload ++ rest) (prefixSize + metadata.length)
      payload.length = payload := by
  have hmid := SparseFile.readAt_append_mid
    (leBytes 4 metadata.length ++ leBytes 4 payload.length ++ metadata) payload rest
  have hlen : (leBytes 4 metadata.length ++ leBytes 4 payload.length ++ metadata).length =
      prefixSize + metadata.length := by
    simp [prefixSize]
    omega
  rw [hlen] at hmid
  exact hmid

/-- What was packed is unpacked, whatever comes behind it. -/
theorem unpack_framed (hm : metadata.length < 2 ^ 32) (hp : payload.length < 2 ^ 32)
    (rest : Bytes) : unpack (framed metadata payload ++ rest) = .ok (metadata, payload) := by
  rw [unpack, parsePrefix_framed hm hp]
  show Except.ok (_, _) = _
  rw [readAt_framed_metadata, readAt_framed_payload]

end Framed

end LmcacheDaos.Serde
