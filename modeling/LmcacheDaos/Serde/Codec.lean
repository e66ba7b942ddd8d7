import LmcacheDaos.Connector.Calls

/-!
# The header codec

Two encoders (`pack_header`, `pack_meta`), one decoder (`parse_header`) and the
repacker of the connector (`_repack_header`) over one layout. `Fields` is a page
cut at the borders of its fields; `parseHeader_page` says what the decoder makes
of any such page, and every page it accepts can be cut this way.

* The encoders and the repacker agree, and the decoder gives back what was
  packed and rejects every cut (`codec_agrees`).
* A header in which up to four consecutive bytes of one checked field changed is
  rejected (`corruption_detected`).
* What is accepted is what `pack_meta` writes, exactly when the reserved field
  is zero and the state is one of the two (`accepted_packed_iff`): the checksum
  is recomputed with a zero in place of the reserved field that was read, and
  the state is only compared when a committed header is asked for.
-/

namespace LmcacheDaos.Serde

open Lib

/-! ## Pages cut into fields -/

/-- The fields of a page that are not fixed by the format, and what follows the
header. -/
structure Fields where
  state : Bytes
  reserved : Bytes
  payloadLen : Bytes
  sum : Bytes
  metadata : Bytes
  rest : Bytes

structure Fields.Sized (f : Fields) : Prop where
  state : f.state.length = 4
  reserved : f.reserved.length = 4
  payloadLen : f.payloadLen.length = 8
  sum : f.sum.length = 4
  metadata : f.metadata.length ≤ maxMeta

/-- What comes before the state field. -/
def opening : Bytes := magic ++ leBytes 4 version

theorem length_opening : opening.length = 12 := rfl

def Fields.page (f : Fields) : Bytes :=
  opening ++ f.state ++ leBytes 4 f.metadata.length ++ f.reserved ++ f.payloadLen ++ f.sum ++
    f.metadata ++ f.rest

/-- What the decoder computes the checksum of: not the reserved field. -/
def Fields.checked (f : Fields) : Bytes :=
  opening ++ f.state ++ leBytes 4 f.metadata.length ++ leBytes 4 0 ++ f.payloadLen ++ f.metadata

def Fields.checksum (f : Fields) : ℕ := (Crc32.crc32 f.checked 0).toNat

def Fields.header (f : Fields) : Header := ⟨ofLe f.state, f.metadata, ofLe f.payloadLen⟩

/-- The header's checksum is the CRC of its first fields, a zero and the metadata. -/
theorem crc_eq (state : ℕ) (metadata : Bytes) (payloadLen : ℕ) : crc state metadata payloadLen =
    (Crc32.crc32 (fixedFields state metadata.length payloadLen ++ metadata) 0).toNat := by
  rw [crc, Crc32.crc32_append]

section Fields

variable {f : Fields}

/-- What the checksum covers, field by field. -/
theorem Fields.Sized.checked_eq (h : f.Sized) :
    f.checked = fixedFields (ofLe f.state) f.metadata.length (ofLe f.payloadLen) ++ f.metadata := by
  rw [fixedFields, ← eq_leBytes h.state rfl, ← eq_leBytes h.payloadLen rfl]
  rfl

/-- It is the checksum of the values in the fields. -/
theorem Fields.Sized.checksum_eq (h : f.Sized) :
    f.checksum = crc (ofLe f.state) f.metadata (ofLe f.payloadLen) := by
  rw [Fields.checksum, h.checked_eq, crc_eq]

/-- A page with its metadata and what follows. -/
theorem Fields.Sized.length_page (h : f.Sized) :
    f.page.length = fixedSize + f.metadata.length + f.rest.length := by
  simp only [Fields.page, opening, List.length_append, length_leBytes, h.state, h.reserved,
    h.payloadLen, h.sum]
  rfl

/-- A field of a page, between what comes before it and what comes after. -/
theorem readAt_field (before : Bytes) {page field after : Bytes} {off w : ℕ}
    (hpage : page = before ++ field ++ after) (hoff : before.length = off)
    (hw : field.length = w) : SparseFile.readAt page off w = field := by
  subst hpage hoff hw
  exact SparseFile.readAt_append_mid before field after

/-- The decoder on a page cut into its fields. -/
theorem parseHeader_page (h : f.Sized) (requireCommitted : Bool) :
    parseHeader f.page requireCommitted =
      if f.checksum ≠ ofLe f.sum then .error ⟨"header CRC mismatch"⟩
      else if requireCommitted ∧ ofLe f.state ≠ stateCommitted then
        .error ⟨"object not committed"⟩
      else .ok f.header := by
  have hlen := h.length_page
  -- each field is read back from its place, in the order of the page
  have hmagic : SparseFile.readAt f.page 0 8 = magic := by
    apply readAt_field []
    · simp only [Fields.page, opening, List.append_assoc, List.nil_append]
      rfl
    · rfl
    · rfl
  have hversion : ofLe (SparseFile.readAt f.page 8 4) = version := by
    apply field_eq (a := magic)
    · simp only [Fields.page, opening, List.append_assoc]
      rfl
    · rfl
    · decide
  have hstate : SparseFile.readAt f.page 12 4 = f.state := by
    apply readAt_field opening
    · simp only [Fields.page, List.append_assoc]
      rfl
    · rfl
    · exact h.state
  have hmetaLen : ofLe (SparseFile.readAt f.page 16 4) = f.metadata.length := by
    apply field_eq (a := opening ++ f.state)
    · simp only [Fields.page, List.append_assoc]
      rfl
    · simp [h.state, opening, magic]
    · exact Nat.lt_of_le_of_lt h.metadata (by decide)
  have hpayload : SparseFile.readAt f.page 24 8 = f.payloadLen := by
    apply readAt_field (opening ++ f.state ++ leBytes 4 f.metadata.length ++ f.reserved)
    · simp only [Fields.page, List.append_assoc]
      rfl
    · simp [h.state, h.reserved, opening, magic]
    · exact h.payloadLen
  -- the sum lies behind all the fields it is over
  have hsum : SparseFile.readAt f.page 32 4 = f.sum := by
    apply readAt_field
      (opening ++ f.state ++ leBytes 4 f.metadata.length ++ f.reserved ++ f.payloadLen)
    · simp only [Fields.page, List.append_assoc]
      rfl
    · simp [h.state, h.reserved, h.payloadLen, opening, magic]
    · exact h.sum
  have hmeta : SparseFile.readAt f.page fixedSize f.metadata.length = f.metadata := by
    apply readAt_field (opening ++ f.state ++ leBytes 4 f.metadata.length ++
      f.reserved ++ f.payloadLen ++ f.sum)
    · rfl
    · simp [h.state, h.reserved, h.payloadLen, h.sum, opening, magic, fixedSize]
    · rfl
  have hmax := h.metadata
  -- of the six tests only the sum and the committed state are open
  unfold parseHeader
  simp only [hlen, hmagic, hversion, hstate, hmetaLen, hpayload, hsum, hmeta, h.checksum_eq]
  rw [if_neg (by omega), if_neg (by simp), if_neg (by simp), if_neg (by omega),
    if_neg (by omega)]
  rfl

end Fields

/-- Every page that the decoder accepts can be cut into fields. -/
theorem exists_fields {page : Bytes} {requireCommitted : Bool} {h : Header}
    (hparse : parseHeader page requireCommitted = .ok h) :
    ∃ f : Fields, f.Sized ∧ page = f.page := by
  unfold parseHeader at hparse
  simp only at hparse
  -- the checks of the decoder, in its order
  split at hparse
  · cases hparse
  rename_i hfix
  split at hparse
  · cases hparse
  rename_i hmagic
  split at hparse
  · cases hparse
  rename_i hversion
  split at hparse
  · cases hparse
  rename_i hmax
  split at hparse
  · cases hparse
  rename_i hlen
  have hfix : 36 ≤ page.length := Nat.le_of_not_lt hfix
  have hmagic : SparseFile.readAt page 0 8 = magic := not_not.mp hmagic
  have hversion : ofLe (SparseFile.readAt page 8 4) = version := not_not.mp hversion
  have hlen : 36 + ofLe (SparseFile.readAt page 16 4) ≤ page.length := Nat.le_of_not_lt hlen
  have hfield : ∀ {o w}, o + w ≤ page.length → (SparseFile.readAt page o w).length = w := by
    intro o w hle
    rw [SparseFile.length_readAt]
    omega
  have hmeta := hfield hlen
  refine ⟨⟨SparseFile.readAt page 12 4, SparseFile.readAt page 20 4, SparseFile.readAt page 24 8,
    SparseFile.readAt page 32 4,
    SparseFile.readAt page 36 (ofLe (SparseFile.readAt page 16 4)),
    page.drop (36 + ofLe (SparseFile.readAt page 16 4))⟩, ⟨hfield (by omega), hfield (by omega),
    hfield (by omega), hfield (by omega), ?_⟩, ?_⟩
  · show (SparseFile.readAt page 36 _).length ≤ maxMeta
    rw [hmeta]
    omega
  · -- the page, one field after the other
    have hver := eq_leBytes (hfield (o := 8) (w := 4) (by omega)) hversion
    have hmlen := eq_leBytes (hfield (o := 16) (w := 4) (by omega)) rfl
    calc page = page.drop 0 := rfl
      _ = _ := by
          rw [SparseFile.drop_eq_readAt_append page 0 8, SparseFile.drop_eq_readAt_append page 8 4,
            SparseFile.drop_eq_readAt_append page 12 4, SparseFile.drop_eq_readAt_append page 16 4,
            SparseFile.drop_eq_readAt_append page 20 4, SparseFile.drop_eq_readAt_append page 24 8,
            SparseFile.drop_eq_readAt_append page 32 4, SparseFile.drop_eq_readAt_append page 36
              (ofLe (SparseFile.readAt page 16 4)), hmagic, hver]
          simp only [Fields.page, opening, hmeta, ← hmlen, List.append_assoc]

/-! ## What was packed -/

/-- A packed header, followed by anything, cut into its fields. -/
def packedFields (h : Header) (rest : Bytes) : Fields :=
  ⟨leBytes 4 h.state, leBytes 4 0, leBytes 8 h.payloadLen,
    leBytes 4 (crc h.state h.metadata h.payloadLen), h.metadata, rest⟩

/-- A packed header laid out in fields. -/
theorem packedFields_page (h : Header) (rest : Bytes) :
    (packedFields h rest).page = header h ++ rest := by
  simp only [Fields.page, packedFields, opening, header, fixedFields, List.append_assoc]

/-- Its fields have their sizes. -/
theorem sized_packedFields {h : Header} (hp : h.Packable) (rest : Bytes) :
    (packedFields h rest).Sized :=
  ⟨length_leBytes .., length_leBytes .., length_leBytes .., length_leBytes .., hp.metaLen⟩

/-- The checksum of a packed header is the one in it. -/
theorem checksum_packedFields {h : Header} (hp : h.Packable) (rest : Bytes) :
    (packedFields h rest).checksum = ofLe (packedFields h rest).sum := by
  rw [(sized_packedFields hp rest).checksum_eq]
  show crc (ofLe (leBytes 4 h.state)) h.metadata (ofLe (leBytes 8 h.payloadLen)) =
    ofLe (leBytes 4 (crc h.state h.metadata h.payloadLen))
  rw [ofLe_leBytes hp.state_lt, ofLe_leBytes hp.payloadLen, ofLe_leBytes (crc_lt ..)]

/-- Whatever packs a header writes it and something behind it. -/
theorem exists_rest {metadata page : Bytes} {payloadLen state : ℕ}
    (h : packMeta metadata payloadLen state = .ok page ∨
      packHeader metadata payloadLen state = .ok page) :
    Header.Packable ⟨state, metadata, payloadLen⟩ ∧
      ∃ rest, page = header ⟨state, metadata, payloadLen⟩ ++ rest := by
  rcases h with h | h
  · rcases packMeta_eq_ok.mp h with ⟨hp, rfl⟩
    exact ⟨hp, [], (List.append_nil _).symm⟩
  · rcases packHeader_eq_ok.mp h with ⟨hp, rfl⟩
    exact ⟨hp, _, rfl⟩

/-- The encoders and the repacker write the same header, and the decoder gives
it back, whatever follows it, and rejects every cut. -/
theorem codec_agrees {metadata : Bytes} {payloadLen state : ℕ} (hm : metadata.length ≤ maxMeta)
    (hp : payloadLen < 2 ^ 64) (hs : state = stateWriting ∨ state = stateCommitted) :
    ∃ buf, packMeta metadata payloadLen state = .ok buf ∧
      packHeader metadata payloadLen state =
        .ok (buf ++ List.replicate (headerSize - buf.length) 0) ∧
      (∀ t, parseHeader (buf ++ t) false = .ok ⟨state, metadata, payloadLen⟩ ∧
        (parseHeader (buf ++ t) true = .ok ⟨state, metadata, payloadLen⟩ ↔
          state = stateCommitted)) ∧
      (∀ cut, cut <+: buf → cut ≠ buf → ∀ requireCommitted,
        ∃ e, parseHeader cut requireCommitted = .error e) ∧
      (payloadLen < 2 ^ 32 → ∃ framing, prefixPack metadata.length payloadLen = .ok framing ∧
        Connector.repackHeader (framing ++ metadata) =
          packMeta metadata payloadLen stateCommitted) := by
  have hpack : Header.Packable ⟨state, metadata, payloadLen⟩ := ⟨hm, hs, hp⟩
  refine ⟨header ⟨state, metadata, payloadLen⟩, packMeta_eq_ok.mpr ⟨hpack, rfl⟩, ?_, ?_, ?_, ?_⟩
  · rw [packHeader_eq_ok, length_header]
    refine ⟨hpack, ?_⟩
    show _ ++ List.replicate (4096 - (36 + metadata.length)) 0 =
      _ ++ List.replicate (4060 - metadata.length) 0
    congr 2
    omega
  · -- what follows the header does not matter
    intro t
    refine ⟨parseHeader_header hpack t (by simp), ?_, ?_⟩
    · -- a state other than committed is refused if committed is required
      intro hparse
      by_contra hne
      rw [← packedFields_page, parseHeader_page (sized_packedFields hpack t),
        if_neg (not_not.mpr (checksum_packedFields hpack t)), if_pos] at hparse
      · cases hparse
      · have hstate : ofLe (packedFields ⟨state, metadata, payloadLen⟩ t).state = state :=
          ofLe_leBytes hpack.state_lt
        rw [hstate]
        exact ⟨rfl, hne⟩
    · intro hc
      exact parseHeader_header hpack t fun _ => hc
  · -- a proper prefix misses a byte of what the header announces
    intro cut hcut hne requireCommitted
    have hlt : cut.length < fixedSize + metadata.length := by
      rw [← length_header ⟨state, metadata, payloadLen⟩]
      refine Nat.lt_of_le_of_ne hcut.length_le fun heq => hne (hcut.eq_of_length heq)
    have hrej := parseHeader_cut hpack [] hlt requireCommitted
    rwa [List.append_nil, ← List.prefix_iff_eq_take.mp hcut] at hrej
  · -- the framing announces the same lengths, so it is packed to the same header
    intro hp32
    have hm32 : metadata.length < 2 ^ 32 := Nat.lt_of_le_of_lt hm (by decide)
    exact ⟨_, prefixPack_eq_ok hm32 hp32, Connector.repackHeader_framing hm32 hp32⟩

/-- A header in writing, followed by other bytes. -/
theorem small_header_agrees : ∃ buf, packMeta [7] 3 stateWriting = .ok buf ∧
    parseHeader (buf ++ [1, 2]) false = .ok ⟨stateWriting, [7], 3⟩ ∧
    parseHeader (buf ++ [1, 2]) true ≠ .ok ⟨stateWriting, [7], 3⟩ := by
  obtain ⟨buf, hbuf, -, hparse, -⟩ :=
    @codec_agrees [7] 3 stateWriting (by decide) (by decide) (.inl rfl)
  refine ⟨buf, hbuf, (hparse [1, 2]).1, fun h => ?_⟩
  exact absurd ((hparse [1, 2]).2.mp h) (by decide)

/-! ## Corruption -/

/-- Offset and length of the state, the payload length, the checksum and the
metadata. -/
def checkedFields (metaLen : ℕ) : List (ℕ × ℕ) :=
  [(12, 4), (24, 8), (32, 4), (fixedSize, metaLen)]

/-- A page whose checksum does not fit is refused. -/
theorem parseHeader_of_mismatch {f : Fields} (h : f.Sized) (hne : f.checksum ≠ ofLe f.sum)
    (requireCommitted : Bool) : ∃ e, parseHeader f.page requireCommitted = .error e := by
  rw [parseHeader_page h, if_pos hne]
  exact ⟨_, rfl⟩

/-- The checksum notices a change of up to four bytes in the middle. -/
theorem crc32_writeAt {before field after new : Bytes} {off : ℕ} (h4 : new.length ≤ 4)
    (hoff : off + new.length ≤ field.length) (hne : SparseFile.writeAt 0 field off new ≠ field)
    (v : BitVec 32) : Crc32.crc32 (before ++ SparseFile.writeAt 0 field off new ++ after) v ≠
      Crc32.crc32 (before ++ field ++ after) v := by
  have hsplit : field =
      field.take off ++ SparseFile.readAt field off new.length ++
        field.drop (off + new.length) := by
    rw [List.append_assoc, ← SparseFile.drop_eq_readAt_append, List.take_append_drop]
  have hlen : new.length = (SparseFile.readAt field off new.length).length := by
    rw [SparseFile.length_readAt]
    omega
  rw [SparseFile.writeAt_of_le (by omega)] at hne ⊢
  have hdiff : new ≠ SparseFile.readAt field off new.length := by
    intro heq
    apply hne
    conv => right; rw [hsplit, ← heq]
  conv => right; rw [hsplit]
  have hburst := Crc32.crc32_burst hlen h4 hdiff (before ++ field.take off)
    (field.drop (off + new.length) ++ after) v
  simpa only [List.append_assoc] using hburst

/-- One field of a packed page was overwritten; `f` is the page before, with
the field in `field`, and `f'` the page after. -/
theorem rejected_of_overwrite (before after : Bytes) {f f' : Fields} (hs : f'.Sized)
    (hsum : f.checksum = ofLe f.sum) (hsame : f'.sum = f.sum) {field new : Bytes} {off : ℕ}
    (h4 : new.length ≤ 4)
    (hoff : off + new.length ≤ field.length) (hne : SparseFile.writeAt 0 field off new ≠ field)
    (hf : f.checked = before ++ field ++ after)
    (hf' : f'.checked = before ++ SparseFile.writeAt 0 field off new ++ after)
    (requireCommitted : Bool) : ∃ e, parseHeader f'.page requireCommitted = .error e := by
  apply parseHeader_of_mismatch hs
  rw [hsame, ← hsum, Fields.checksum, Fields.checksum, hf, hf']
  intro heq
  exact crc32_writeAt h4 hoff hne 0 (BitVec.eq_of_toNat_eq heq)

section Changed

variable {f : Fields} {new : Bytes} {off : ℕ}

/-- A change of the page within a field is a change of the field, and the rest of the
page stays. -/
theorem writeAt_in_field {before field after : Bytes} (hpage : f.page = before ++ field ++ after)
    (hle : before.length ≤ off) (hin : off - before.length + new.length ≤ field.length)
    (hchange : SparseFile.writeAt 0 f.page off new ≠ f.page) :
    SparseFile.writeAt 0 f.page off new =
        before ++ SparseFile.writeAt 0 field (off - before.length) new ++ after ∧
      SparseFile.writeAt 0 field (off - before.length) new ≠ field := by
  have hwrite := SparseFile.writeAt_append_mid (z := 0) before field after hin
  rw [← hpage, Nat.add_sub_cancel' hle] at hwrite
  refine ⟨hwrite, fun heq => hchange ?_⟩
  rw [hwrite, heq, hpage]

variable (hs : f.Sized) (hsum : f.checksum = ofLe f.sum) (h4 : new.length ≤ 4)
variable (hchange : SparseFile.writeAt 0 f.page off new ≠ f.page) (requireCommitted : Bool)

include hs hsum hchange

include h4 in
/-- A burst inside the state field is detected. -/
theorem rejected_of_state (hlo : 12 ≤ off) (hhi : off + new.length ≤ 12 + 4) :
    ∃ e, parseHeader (SparseFile.writeAt 0 f.page off new) requireCommitted = .error e := by
  have hpage : f.page = opening ++ f.state ++ (leBytes 4 f.metadata.length ++ f.reserved ++
      f.payloadLen ++ f.sum ++ f.metadata ++ f.rest) := by
    simp only [Fields.page, List.append_assoc]
  have hin : off - opening.length + new.length ≤ f.state.length := by
    rw [hs.state, length_opening]
    omega
  rcases writeAt_in_field hpage (by rwa [length_opening]) hin hchange with ⟨hwrite, hne⟩
  have hs' : Fields.Sized { f with state := SparseFile.writeAt 0 f.state _ new } :=
    { hs with state := by rw [SparseFile.length_writeAt_of_le hin, hs.state] }
  have hrej := rejected_of_overwrite opening
    (leBytes 4 f.metadata.length ++ leBytes 4 0 ++ f.payloadLen ++ f.metadata)
    hs' hsum rfl h4 hin hne
    (by simp only [Fields.checked, List.append_assoc])
    (by simp only [Fields.checked, List.append_assoc]) requireCommitted
  rw [hwrite]
  simpa only [Fields.page, List.append_assoc] using hrej

include h4 in
/-- So is one inside the payload length. -/
theorem rejected_of_payloadLen (hlo : 24 ≤ off) (hhi : off + new.length ≤ 24 + 8) :
    ∃ e, parseHeader (SparseFile.writeAt 0 f.page off new) requireCommitted = .error e := by
  have hpage : f.page = opening ++ f.state ++ leBytes 4 f.metadata.length ++ f.reserved ++
      f.payloadLen ++ (f.sum ++ f.metadata ++ f.rest) := by
    simp only [Fields.page, List.append_assoc]
  have hlen : (opening ++ f.state ++ leBytes 4 f.metadata.length ++ f.reserved).length = 24 := by
    simp [length_opening, hs.state, hs.reserved]
  have hin : off - 24 + new.length ≤ f.payloadLen.length := by
    rw [hs.payloadLen]
    omega
  rcases writeAt_in_field hpage (by rwa [hlen]) (by rwa [hlen]) hchange with ⟨hwrite, hne⟩
  rw [hlen] at hwrite hne
  have hs' : Fields.Sized { f with payloadLen := SparseFile.writeAt 0 f.payloadLen _ new } :=
    { hs with payloadLen := by rw [SparseFile.length_writeAt_of_le hin, hs.payloadLen] }
  have hrej := rejected_of_overwrite
    (opening ++ f.state ++ leBytes 4 f.metadata.length ++ leBytes 4 0) f.metadata
    hs' hsum rfl h4 hin hne rfl rfl requireCommitted
  rw [hwrite]
  simpa only [Fields.page, List.append_assoc] using hrej

/-- The checksum is that of the other fields, and was another number. -/
theorem rejected_of_sum (hlo : 32 ≤ off) (hhi : off + new.length ≤ 32 + 4) :
    ∃ e, parseHeader (SparseFile.writeAt 0 f.page off new) requireCommitted = .error e := by
  have hpage : f.page = opening ++ f.state ++ leBytes 4 f.metadata.length ++ f.reserved ++
      f.payloadLen ++ f.sum ++ (f.metadata ++ f.rest) := by
    simp only [Fields.page, List.append_assoc]
  have hlen : (opening ++ f.state ++ leBytes 4 f.metadata.length ++ f.reserved ++
      f.payloadLen).length = 32 := by
    simp [length_opening, hs.state, hs.reserved, hs.payloadLen]
  have hin : off - 32 + new.length ≤ f.sum.length := by
    rw [hs.sum]
    omega
  rcases writeAt_in_field hpage (by rwa [hlen]) (by rwa [hlen]) hchange with ⟨hwrite, hne⟩
  rw [hlen] at hwrite hne
  have hlen' := SparseFile.length_writeAt_of_le (z := 0) hin
  have hs' : Fields.Sized { f with sum := SparseFile.writeAt 0 f.sum _ new } :=
    { hs with sum := by rw [hlen', hs.sum] }
  have hrej : ∃ e, parseHeader (Fields.page { f with
      sum := SparseFile.writeAt 0 f.sum (off - 32) new }) requireCommitted = .error e := by
    refine parseHeader_of_mismatch hs' (fun heq => hne ?_) requireCommitted
    have hnum : ofLe (SparseFile.writeAt 0 f.sum (off - 32) new) = ofLe f.sum :=
      heq.symm.trans hsum
    rw [eq_leBytes hlen' hnum, leBytes_ofLe]
  rw [hwrite]
  simpa only [Fields.page, List.append_assoc] using hrej

include h4 in
/-- So is one inside the metadata. -/
theorem rejected_of_metadata (hlo : fixedSize ≤ off)
    (hhi : off + new.length ≤ fixedSize + f.metadata.length) :
    ∃ e, parseHeader (SparseFile.writeAt 0 f.page off new) requireCommitted = .error e := by
  have hpage : f.page = opening ++ f.state ++ leBytes 4 f.metadata.length ++ f.reserved ++
      f.payloadLen ++ f.sum ++ f.metadata ++ f.rest := rfl
  have hlen : (opening ++ f.state ++ leBytes 4 f.metadata.length ++ f.reserved ++
      f.payloadLen ++ f.sum).length = fixedSize := by
    simp [length_opening, hs.state, hs.reserved, hs.payloadLen, hs.sum, fixedSize]
  have hin : off - fixedSize + new.length ≤ f.metadata.length := by
    omega
  rcases writeAt_in_field hpage (by rwa [hlen]) (by rwa [hlen]) hchange with ⟨hwrite, hne⟩
  rw [hlen] at hwrite hne
  have hlen' := SparseFile.length_writeAt_of_le (z := 0) hin
  have hs' : Fields.Sized { f with metadata := SparseFile.writeAt 0 f.metadata _ new } :=
    { hs with metadata := by rw [hlen']; exact hs.metadata }
  have hrej := rejected_of_overwrite
    (opening ++ f.state ++ leBytes 4 f.metadata.length ++ leBytes 4 0 ++ f.payloadLen) []
    hs' hsum rfl h4 hin hne (by rw [List.append_nil]; rfl)
    (by rw [List.append_nil, Fields.checked, hlen']) requireCommitted
  rw [hwrite]
  simpa only [Fields.page, hlen'] using hrej

end Changed

/-- A packed header in which up to four consecutive bytes of one checked field
were changed is rejected. -/
theorem corruption_detected {metadata page new : Bytes} {payloadLen state off : ℕ}
    (hpack : packMeta metadata payloadLen state = .ok page ∨
      packHeader metadata payloadLen state = .ok page)
    (hfield : ∃ field ∈ checkedFields metadata.length,
      field.1 ≤ off ∧ off + new.length ≤ field.1 + field.2)
    (h4 : new.length ≤ 4) (hchange : SparseFile.writeAt 0 page off new ≠ page)
    (requireCommitted : Bool) :
    ∃ e, parseHeader (SparseFile.writeAt 0 page off new) requireCommitted = .error e := by
  rcases exists_rest hpack with ⟨hp, rest, rfl⟩
  rcases hfield with ⟨⟨start, width⟩, hmem, hlo, hhi⟩
  have hs := sized_packedFields hp rest
  have hsum := checksum_packedFields hp rest
  rw [← packedFields_page] at hchange ⊢
  generalize hf : packedFields ⟨state, metadata, payloadLen⟩ rest = f at hs hsum hchange ⊢
  have hmeta : f.metadata = metadata := by rw [← hf]; rfl
  simp only [checkedFields, List.mem_cons, List.not_mem_nil, or_false, Prod.mk.injEq] at hmem
  rcases hmem with ⟨rfl, rfl⟩ | ⟨rfl, rfl⟩ | ⟨rfl, rfl⟩ | ⟨rfl, rfl⟩
  · exact rejected_of_state hs hsum h4 hchange requireCommitted hlo hhi
  · exact rejected_of_payloadLen hs hsum h4 hchange requireCommitted hlo hhi
  · exact rejected_of_sum hs hsum hchange requireCommitted hlo hhi
  · rw [← hmeta] at hhi
    exact rejected_of_metadata hs hsum h4 hchange requireCommitted hlo hhi

/-- The page of a small object with the low byte of its state changed. -/
theorem small_state_corrupted : ∃ page, packMeta [7] 3 stateWriting = .ok page ∧
    ∃ e, parseHeader (SparseFile.writeAt 0 page 12 [1]) true = .error e := by
  have hpack : packMeta [7] 3 stateWriting = .ok (header ⟨stateWriting, [7], 3⟩) :=
    packMeta_eq_ok.mpr ⟨⟨by decide, .inl rfl, by decide⟩, rfl⟩
  refine ⟨header ⟨stateWriting, [7], 3⟩, hpack, ?_⟩
  refine corruption_detected (.inl hpack) ?_ (by decide) ?_ true
  · exact ⟨(12, 4), by decide, by decide, by decide⟩
  · decide +kernel

/-! ## What is accepted -/

/-- The reserved field is zero and the state is one that is written. -/
def Plain (page : Bytes) : Prop :=
  SparseFile.readAt page 20 4 = leBytes 4 0 ∧
    (ofLe (SparseFile.readAt page 12 4) = stateWriting ∨
      ofLe (SparseFile.readAt page 12 4) = stateCommitted)

instance (page : Bytes) : Decidable (Plain page) := inferInstanceAs (Decidable (_ ∧ _))

/-- The header bytes of an accepted page are what `pack_meta` writes for the
header it decodes to. -/
def IsPacked (page : Bytes) (h : Header) : Prop :=
  packMeta h.metadata h.payloadLen h.state = .ok (page.take (fixedSize + h.metadata.length))

/-- Of the pages with a good checksum, the packed ones have nothing in the reserved field
and a known state. -/
theorem isPacked_page_iff {f : Fields} (hs : f.Sized) (hsum : f.checksum = ofLe f.sum) :
    IsPacked f.page f.header ↔ Plain f.page := by
  -- the two fields that `parseHeader` reads without looking at what they are
  have hstate : SparseFile.readAt f.page 12 4 = f.state := by
    apply readAt_field opening
    · simp only [Fields.page, List.append_assoc]
      rfl
    · rfl
    · exact hs.state
  have hres : SparseFile.readAt f.page 20 4 = f.reserved := by
    apply readAt_field (opening ++ f.state ++ leBytes 4 f.metadata.length)
    · simp only [Fields.page, List.append_assoc]
      rfl
    · simp [hs.state, length_opening]
    · exact hs.reserved
  -- the page up to its metadata, field by field
  have htake : f.page.take (fixedSize + f.metadata.length) =
      opening ++ f.state ++ leBytes 4 f.metadata.length ++ f.reserved ++ f.payloadLen ++ f.sum ++
        f.metadata := by
    refine List.take_left' ?_
    simp [length_opening, hs.state, hs.reserved, hs.payloadLen, hs.sum, fixedSize]
    omega
  -- and what `packMeta` writes for the parsed header: the same, but zero for the reserved field
  have hheader : header f.header =
      opening ++ f.state ++ leBytes 4 f.metadata.length ++ leBytes 4 0 ++ f.payloadLen ++ f.sum ++
        f.metadata := by
    have hcrc : leBytes 4 (crc (ofLe f.state) f.metadata (ofLe f.payloadLen)) = f.sum :=
      (eq_leBytes hs.sum (hsum.symm.trans hs.checksum_eq)).symm
    rw [header]
    show fixedFields (ofLe f.state) f.metadata.length (ofLe f.payloadLen) ++
      leBytes 4 (crc (ofLe f.state) f.metadata (ofLe f.payloadLen)) ++ f.metadata = _
    rw [hcrc, fixedFields, ← eq_leBytes hs.state rfl, ← eq_leBytes hs.payloadLen rfl]
    rfl
  unfold IsPacked Plain
  rw [packMeta_eq_ok, hstate, hres]
  show _ ∧ f.page.take (fixedSize + f.metadata.length) = header f.header ↔ _
  rw [htake, hheader]
  constructor
  · -- all other fields cancel, so the reserved one is zero
    rintro ⟨hp, heq⟩
    refine ⟨?_, hp.state⟩
    simpa only [List.append_assoc, List.append_cancel_left_eq, List.append_left_inj] using heq
  · rintro ⟨hzero, hst⟩
    have hpay := ofLe_lt f.payloadLen
    rw [hs.payloadLen] at hpay
    exact ⟨⟨hs.metadata, hst, hpay⟩, by rw [hzero]⟩

/-- The same of the pages that are accepted. -/
theorem isPacked_iff {page : Bytes} {requireCommitted : Bool} {h : Header}
    (hparse : parseHeader page requireCommitted = .ok h) : IsPacked page h ↔ Plain page := by
  rcases exists_fields hparse with ⟨f, hs, rfl⟩
  rw [parseHeader_page hs] at hparse
  split at hparse
  · cases hparse
  rename_i hsum
  split at hparse
  · cases hparse
  cases hparse
  exact isPacked_page_iff hs (not_not.mp hsum)

/-- The header of an accepted page is what `pack_meta` writes exactly when the
page is plain, and two plain pages that decode to one header have the same
header bytes. -/
theorem accepted_packed_iff {page : Bytes} {requireCommitted : Bool} {h : Header}
    (hparse : parseHeader page requireCommitted = .ok h) :
    (IsPacked page h ↔ Plain page) ∧
      ∀ page' requireCommitted', parseHeader page' requireCommitted' = .ok h →
        Plain page → Plain page' →
        page.take (fixedSize + h.metadata.length) =
          page'.take (fixedSize + h.metadata.length) := by
  refine ⟨isPacked_iff hparse, ?_⟩
  intro page' requireCommitted' hparse' hplain hplain'
  have hp : packMeta _ _ _ = _ := (isPacked_iff hparse).mpr hplain
  have hp' : packMeta _ _ _ = _ := (isPacked_iff hparse').mpr hplain'
  rw [hp] at hp'
  exact Except.ok.inj hp'

/-- A committed header without metadata and payload. -/
def emptyHeader : Bytes := header ⟨stateCommitted, [], 0⟩

theorem empty_header_packed :
    parseHeader emptyHeader true = .ok ⟨stateCommitted, [], 0⟩ ∧
      IsPacked emptyHeader ⟨stateCommitted, [], 0⟩ := by
  have hparse : parseHeader emptyHeader true = .ok ⟨stateCommitted, [], 0⟩ := by decide +kernel
  exact ⟨hparse, (accepted_packed_iff hparse).1.mpr (by decide +kernel)⟩

/-- A page with a bit in the reserved field decodes to the same header, and
`pack_meta` writes another one. -/
theorem reserved_bit_accepted :
    parseHeader (SparseFile.writeAt 0 emptyHeader 20 [1]) true =
        .ok ⟨stateCommitted, [], 0⟩ ∧
      parseHeader emptyHeader true = .ok ⟨stateCommitted, [], 0⟩ ∧
      (SparseFile.writeAt 0 emptyHeader 20 [1]).take fixedSize ≠ emptyHeader.take fixedSize ∧
      ¬ IsPacked (SparseFile.writeAt 0 emptyHeader 20 [1]) ⟨stateCommitted, [], 0⟩ := by
  refine ⟨by decide +kernel, by decide +kernel, by decide +kernel, ?_⟩
  intro h
  have hne := (packMeta_eq_ok.mp h).2
  revert hne
  decide +kernel

end LmcacheDaos.Serde
