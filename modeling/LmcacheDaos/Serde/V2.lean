import LmcacheDaos.DfsBinding
import LmcacheDaos.Lib.Crc32
import LmcacheDaos.Lib.LittleEndian

/-!
# The v2 header page

`serde_v2.py`: a fixed part of 36 bytes (magic, version, state, metadata length,
reserved, payload length, CRC), the metadata, and zeros up to 4096 bytes. The
payload follows at 4096. `pack_meta` of `serde_v3.py` writes the same bytes
without the zeros, so both share `header` here.

`parse_header` is described on everything a reader can get of a page that a
writer packed: the page itself (`parseHeader_header`) and what a cut leaves of
it (`parseHeader_prefix`).
-/

namespace LmcacheDaos.Serde

open Lib

/-- `MAGIC` -/
def magic : Bytes := [0x4C, 0x4D, 0x44, 0x47, 0x44, 0x53, 0x32, 0x00]

/-- `VERSION` -/
def version : ℕ := 2

/-- `HEADER_SIZE` -/
def headerSize : ℕ := 4096

/-- `STATE_WRITING` -/
def stateWriting : ℕ := 0

/-- `STATE_COMMITTED` -/
def stateCommitted : ℕ := 1

/-- `FIXED_SIZE` -/
def fixedSize : ℕ := 36

/-- `MAX_META` -/
def maxMeta : ℕ := headerSize - fixedSize

/-- `BadHeader`: not a committed, intact header. -/
structure BadHeader where
  message : String
deriving DecidableEq, Repr

/-- What packing a header can raise. -/
inductive PackError where
  | valueError (message : String)
  /-- `struct.error`: a field does not fit -/
  | structError
deriving DecidableEq, Repr

structure Header where
  state : ℕ
  metadata : Bytes
  payloadLen : ℕ
deriving DecidableEq, Repr

/-- `struct.pack("<8sIIIIQ", MAGIC, VERSION, state, len(meta), 0, payload_len)` -/
def fixedFields (state metaLen payloadLen : ℕ) : Bytes :=
  magic ++ leBytes 4 version ++ leBytes 4 state ++ leBytes 4 metaLen ++ leBytes 4 0 ++
    leBytes 8 payloadLen

/-- `_crc` -/
def crc (state : ℕ) (metadata : Bytes) (payloadLen : ℕ) : ℕ :=
  (Crc32.crc32 metadata (Crc32.crc32 (fixedFields state metadata.length payloadLen) 0)).toNat

/-- The packed header without padding. -/
def header (h : Header) : Bytes :=
  fixedFields h.state h.metadata.length h.payloadLen ++
    leBytes 4 (crc h.state h.metadata h.payloadLen) ++ h.metadata

/-- The checks before packing, and `struct.pack` itself: `payload_len` is a
length, so it is not negative, and it must fit its 64-bit field. -/
def packChecked (tooLarge : String) (h : Header) : Except PackError Bytes :=
  if maxMeta < h.metadata.length then .error (.valueError tooLarge)
  else if h.state ≠ stateWriting ∧ h.state ≠ stateCommitted then
    let state := h.state
    .error (.valueError s!"bad state {state}")
  else if 2 ^ 64 ≤ h.payloadLen then .error .structError
  else .ok (header h)

/-- The message of `pack_header` for `n` bytes of metadata. -/
def tooLargeForPage (n : ℕ) : String := s!"metadata too large for v2 header: {n} > {maxMeta}"

/-- `pack_header` -/
def packHeader (metadata : Bytes) (payloadLen state : ℕ) : Except PackError Bytes :=
  (packChecked (tooLargeForPage metadata.length) ⟨state, metadata, payloadLen⟩).map fun page =>
    page ++ List.replicate (headerSize - page.length) 0

/-- `parse_header` -/
def parseHeader (page : Bytes) (requireCommitted : Bool) : Except BadHeader Header :=
  let n := page.length
  if n < fixedSize then .error ⟨s!"short header: {n} < {fixedSize}"⟩
  else
    let v := ofLe (SparseFile.readAt page 8 4)
    let state := ofLe (SparseFile.readAt page 12 4)
    let metaLen := ofLe (SparseFile.readAt page 16 4)
    let payloadLen := ofLe (SparseFile.readAt page 24 8)
    let sum := ofLe (SparseFile.readAt page 32 4)
    if SparseFile.readAt page 0 8 ≠ magic then .error ⟨"bad magic"⟩
    else if v ≠ version then .error ⟨s!"unsupported version {v}"⟩
    else if maxMeta < metaLen then .error ⟨s!"meta_len {metaLen} exceeds header page"⟩
    else if n < fixedSize + metaLen then .error ⟨"short header: metadata truncated"⟩
    else
      let metadata := SparseFile.readAt page fixedSize metaLen
      if crc state metadata payloadLen ≠ sum then .error ⟨"header CRC mismatch"⟩
      else if requireCommitted ∧ state ≠ stateCommitted then .error ⟨"object not committed"⟩
      else .ok ⟨state, metadata, payloadLen⟩

/-- What a page that parses has, and where the payload length comes from. -/
theorem fields_of_parseHeader {page : Bytes} {requireCommitted : Bool} {hdr : Header}
    (h : parseHeader page requireCommitted = .ok hdr) :
    fixedSize ≤ page.length ∧ SparseFile.readAt page 0 8 = magic ∧
      hdr.payloadLen = ofLe (SparseFile.readAt page 24 8) := by
  unfold parseHeader at h
  simp only at h
  -- too short
  split at h
  · cases h
  rename_i hlen
  -- another magic
  split at h
  · cases h
  rename_i hmagic
  refine ⟨Nat.le_of_not_lt hlen, not_not.mp hmagic, ?_⟩
  -- version, lengths, sum and state change nothing of what is read
  split at h
  · cases h
  split at h
  · cases h
  split at h
  · cases h
  split at h
  · cases h
  split at h
  · cases h
  cases h
  rfl

/-- `payload_offset` -/
def payloadOffset : ℕ := headerSize

/-- `temp_path`: the same directory, a hidden prefix. -/
def tempPath (final nonce : String) : String :=
  let name := (final.toList.reverse.takeWhile (· ≠ '/')).reverse
  let dir := final.toList.take (final.toList.length - name.length - 1)
  String.ofList dir ++ "/.tmp-" ++ String.ofList name ++ "-" ++ nonce

example : tempPath "/v2/00ff" "1a2b3c4d" = "/v2/.tmp-00ff-1a2b3c4d" := by decide

theorem tempPath_toList (final nonce : String) : (tempPath final nonce).toList =
    (tempPath final "").toList ++ nonce.toList := by
  simp [tempPath]

/-- Different nonces give different temporary names. -/
theorem tempPath_inj {final m n : String} (h : tempPath final m = tempPath final n) : m = n := by
  have hl := congrArg String.toList h
  rw [tempPath_toList, tempPath_toList final n] at hl
  exact String.toList_inj.mp (List.append_cancel_left hl)

/-- A temporary name is longer than the final one. -/
theorem length_lt_tempPath (final nonce : String) :
    final.toList.length < (tempPath final nonce).toList.length := by
  simp [tempPath]
  omega

/-- A temporary name is never the final one. -/
theorem tempPath_ne (final nonce : String) : tempPath final nonce ≠ final := by
  intro h
  have hlen := length_lt_tempPath final nonce
  rw [h] at hlen
  exact Nat.lt_irrefl _ hlen

/-! ## Fields of a packed header -/

/-- A header that packing accepts. -/
structure Header.Packable (h : Header) : Prop where
  metaLen : h.metadata.length ≤ maxMeta
  state : h.state = stateWriting ∨ h.state = stateCommitted
  payloadLen : h.payloadLen < 2 ^ 64

theorem Header.Packable.state_lt {h : Header} (hp : h.Packable) : h.state < 256 ^ 4 := by
  rcases hp.state with hw | hc
  · rw [hw]
    decide
  · rw [hc]
    decide

theorem packChecked_eq_ok {tooLarge : String} {h : Header} {page : Bytes} :
    packChecked tooLarge h = .ok page ↔ h.Packable ∧ page = header h := by
  unfold packChecked
  constructor
  · intro hp
    split at hp
    · cases hp
    split at hp
    · cases hp
    split at hp
    · cases hp
    cases hp
    refine ⟨⟨by omega, ?_, by omega⟩, rfl⟩
    by_contra hstate
    push Not at hstate
    contradiction
  · rintro ⟨⟨hlen, hstate, hpay⟩, rfl⟩
    rw [if_neg (by omega), if_neg, if_neg (by omega)]
    rintro ⟨hw, hc⟩
    exact hstate.elim hw hc

@[simp] theorem length_fixedFields (state metaLen payloadLen : ℕ) :
    (fixedFields state metaLen payloadLen).length = 32 := by
  simp [fixedFields, magic]

@[simp] theorem length_header (h : Header) : (header h).length = fixedSize + h.metadata.length := by
  simp [header, fixedSize]
  omega

/-- What `pack_header` accepts, and the page it makes. -/
theorem packHeader_eq_ok {metadata page : Bytes} {payloadLen state : ℕ} :
    packHeader metadata payloadLen state = .ok page ↔
      Header.Packable ⟨state, metadata, payloadLen⟩ ∧
        page = header ⟨state, metadata, payloadLen⟩ ++
          List.replicate (maxMeta - metadata.length) 0 := by
  -- the page is the header and what is missing to its size, in zeros
  have hpad : headerSize - (header ⟨state, metadata, payloadLen⟩).length =
      maxMeta - metadata.length := by
    rw [length_header]
    show 4096 - (36 + metadata.length) = 4060 - metadata.length
    omega
  unfold packHeader
  constructor
  · intro h
    cases hp : packChecked (tooLargeForPage metadata.length) ⟨state, metadata, payloadLen⟩ with
    | error e =>
        rw [hp] at h
        cases h
    | ok packed =>
        rw [hp] at h
        cases h
        obtain ⟨hpack, rfl⟩ := packChecked_eq_ok.mp hp
        exact ⟨hpack, by rw [← hpad]⟩
  · rintro ⟨hpack, rfl⟩
    rw [packChecked_eq_ok.mpr ⟨hpack, rfl⟩, ← hpad]
    rfl

theorem length_packHeader {metadata page : Bytes} {payloadLen state : ℕ}
    (h : packHeader metadata payloadLen state = .ok page) : page.length = headerSize := by
  obtain ⟨hpack, rfl⟩ := packHeader_eq_ok.mp h
  have hle : metadata.length ≤ 4060 := hpack.metaLen
  rw [List.length_append, length_header, List.length_replicate]
  show 36 + metadata.length + (4060 - metadata.length) = 4096
  omega

theorem crc_lt (state : ℕ) (metadata : Bytes) (payloadLen : ℕ) :
    crc state metadata payloadLen < 256 ^ 4 :=
  BitVec.isLt _

/-- An integer field in the middle of a record. -/
theorem field_eq {a c page : Bytes} {off w n : ℕ} (hpage : page = a ++ leBytes w n ++ c)
    (hoff : off = a.length) (hn : n < 256 ^ w) : ofLe (SparseFile.readAt page off w) = n := by
  subst hpage hoff
  have h := SparseFile.readAt_append_mid a (leBytes w n) c
  rw [length_leBytes] at h
  rw [h, ofLe_leBytes hn]

/-- What `parse_header` reads out of a packed header, whatever follows it. -/
structure FieldsOf (page : Bytes) (h : Header) : Prop where
  magic : SparseFile.readAt page 0 8 = magic
  version : ofLe (SparseFile.readAt page 8 4) = version
  state : ofLe (SparseFile.readAt page 12 4) = h.state
  metaLen : ofLe (SparseFile.readAt page 16 4) = h.metadata.length
  payloadLen : ofLe (SparseFile.readAt page 24 8) = h.payloadLen
  crc : ofLe (SparseFile.readAt page 32 4) = crc h.state h.metadata h.payloadLen

theorem fieldsOf_header {h : Header} (hp : h.Packable) (rest : Bytes) :
    FieldsOf (header h ++ rest) h where
  -- each field is read back from its place
  magic := SparseFile.readAt_append_mid [] magic _
  version := by
    apply field_eq (a := magic) (n := version)
    · simp only [header, fixedFields, List.append_assoc]
      rfl
    · rfl
    · decide
  state := by
    apply field_eq (a := magic ++ leBytes 4 version) (n := h.state)
    · simp only [header, fixedFields, List.append_assoc]
      rfl
    · rfl
    · exact hp.state_lt
  metaLen := by
    apply field_eq (a := magic ++ leBytes 4 version ++ leBytes 4 h.state)
    · simp only [header, fixedFields, List.append_assoc]
      rfl
    · rfl
    · exact Nat.lt_of_le_of_lt hp.metaLen (by decide)
  payloadLen := by
    apply field_eq (a := magic ++ leBytes 4 version ++ leBytes 4 h.state ++
      leBytes 4 h.metadata.length ++ leBytes 4 0)
    · simp only [header, fixedFields, List.append_assoc]
      rfl
    · rfl
    · exact hp.payloadLen
  crc := by
    apply field_eq (a := fixedFields h.state h.metadata.length h.payloadLen)
    · simp only [header, List.append_assoc]
      rfl
    · simp
    · exact crc_lt ..

/-- The fixed part survives any cut behind it. -/
theorem FieldsOf.take {page : Bytes} {h : Header} (hf : FieldsOf page h) {m : ℕ}
    (hm : fixedSize ≤ m) : FieldsOf (page.take m) h := by
  have hm : 36 ≤ m := hm
  constructor
  · rw [SparseFile.readAt_take (by omega), hf.magic]
  · rw [SparseFile.readAt_take (by omega), hf.version]
  · rw [SparseFile.readAt_take (by omega), hf.state]
  · rw [SparseFile.readAt_take (by omega), hf.metaLen]
  · rw [SparseFile.readAt_take (by omega), hf.payloadLen]
  · rw [SparseFile.readAt_take (by omega), hf.crc]

theorem readAt_metadata (h : Header) (rest : Bytes) :
    SparseFile.readAt (header h ++ rest) fixedSize h.metadata.length = h.metadata := by
  have hmid := SparseFile.readAt_append_mid
    (fixedFields h.state h.metadata.length h.payloadLen ++
      leBytes 4 (crc h.state h.metadata h.payloadLen)) h.metadata rest
  rw [List.length_append, length_fixedFields, length_leBytes] at hmid
  exact hmid

/-! ## Parsing what was packed -/

/-- A whole header parses back, whatever follows it. -/
theorem parseHeader_header {h : Header} (hp : h.Packable) (rest : Bytes) {requireCommitted : Bool}
    (hc : requireCommitted = true → h.state = stateCommitted) :
    parseHeader (header h ++ rest) requireCommitted = .ok h := by
  have hf := fieldsOf_header hp rest
  have hlen : (header h ++ rest).length = fixedSize + h.metadata.length + rest.length := by
    rw [List.length_append, length_header]
  have hmeta := hp.metaLen
  unfold parseHeader
  simp only [hlen, hf.version, hf.state, hf.metaLen, hf.payloadLen, hf.crc, hf.magic,
    readAt_metadata]
  rw [if_neg (by omega), if_neg (by simp), if_neg (by simp), if_neg (by omega), if_neg (by omega),
    if_neg (by simp), if_neg (fun hn => hn.2 (hc hn.1))]

/-- A header that was cut short is rejected. -/
theorem parseHeader_cut {h : Header} (hp : h.Packable) (rest : Bytes) {m : ℕ}
    (hm : m < fixedSize + h.metadata.length) (requireCommitted : Bool) :
    ∃ e, parseHeader ((header h ++ rest).take m) requireCommitted = .error e := by
  have hlen : ((header h ++ rest).take m).length = m := by
    rw [List.length_take, List.length_append, length_header]
    omega
  unfold parseHeader
  simp only [hlen]
  by_cases hfix : m < fixedSize
  · rw [if_pos hfix]
    exact ⟨_, rfl⟩
  · have hf := (fieldsOf_header hp rest).take (Nat.le_of_not_lt hfix)
    have hmeta := hp.metaLen
    rw [if_neg hfix]
    simp only [hf.version, hf.state, hf.metaLen, hf.payloadLen, hf.crc, hf.magic]
    rw [if_neg (by simp), if_neg (by simp), if_neg (by omega), if_pos hm]
    exact ⟨_, rfl⟩

/-- Whatever a reader gets of a committed header, it parses as that header or
not at all. -/
theorem parseHeader_prefix {h h' : Header} (hp : h.Packable) (hc : h.state = stateCommitted)
    {buf rest : Bytes} (hbuf : buf <+: header h ++ rest) {requireCommitted : Bool}
    (hparse : parseHeader buf requireCommitted = .ok h') : h' = h := by
  by_cases hm : buf.length < fixedSize + h.metadata.length
  · obtain ⟨e, he⟩ := parseHeader_cut hp rest hm requireCommitted
    rw [← List.prefix_iff_eq_take.mp hbuf] at he
    rw [he] at hparse
    cases hparse
  · -- the cut lies behind the header
    have hhead : header h <+: buf := by
      apply List.prefix_of_prefix_length_le (List.prefix_append _ rest) hbuf
      rw [length_header]
      omega
    obtain ⟨tail, rfl⟩ := hhead
    rw [parseHeader_header hp tail fun _ => hc] at hparse
    cases hparse
    rfl

end LmcacheDaos.Serde
