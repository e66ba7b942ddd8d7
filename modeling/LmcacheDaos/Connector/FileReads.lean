import LmcacheDaos.Connector.RoundTrip
import LmcacheDaos.Lib.Trace

/-!
# What a DFS read makes of the bytes of a file

`_get_sync` reads the prefix and the metadata, in one read or in two, and from
there on depends on the file only through its header (`fileHeader`). Of the two
lengths in it the prefix says how much is read and the metadata how much room
there is for it; only one of the two orders between them is checked.

* the read stays inside its destination unless the file has a header whose
  prefix promises more than its metadata, and a buffer for it;
* a file cut short anywhere is a miss, and a whole object is read back whatever
  comes behind it.
-/

namespace LmcacheDaos.Connector

open Lib Serde

variable {τ : Type} {C : Codec τ} {alloc : Allocator τ}

/-! ## The header -/

structure FileHeader (τ : Type) where
  metaLen : ℕ
  payloadLen : ℕ
  metadata : RemoteMetadata τ
deriving DecidableEq, Repr

/-- What `_get_sync` accepts of a prefix and the metadata behind it. -/
def headerFrom (C : Codec τ) (metaLen payloadLen : ℕ) (metaBytes : Bytes) :
    Option (FileHeader τ) :=
  if metaBytes.length ≠ metaLen then none
  else match C.deserialize metaBytes with
    | none => none
    | some m => if payloadLen < m.length then none else some ⟨metaLen, payloadLen, m⟩

def fileHeader (C : Codec τ) (f : Bytes) : Option (FileHeader τ) :=
  match parsePrefix (f.take prefixSize) with
  | .error _ => none
  | .ok (metaLen, payloadLen) =>
      headerFrom C metaLen payloadLen (SparseFile.readAt f prefixSize metaLen)

/-- `_get_sync` with the header accepted. -/
def readBody (h : Handle) (fh : FileHeader τ) : Io τ (Option (MemoryObj τ)) :=
  .call (.allocate fh.metadata.layout) fun
    | none => .ret (.ok none)
    | some mo =>
        if mo.byteArray.length < fh.metadata.length then
          .ret (.error (bufferTooSmall mo.byteArray.length fh.metadata.length))
        else .call (.readObjInto h (prefixSize + fh.metaLen) fh.payloadLen fh.metadata.length) fun
          | .error e => .ret (.error (.daos e))
          | .ok got =>
              if got.length ≠ fh.payloadLen then .call (.release mo) fun _ => .ret (.ok none)
              else .ret (.ok (some (mo.fill got)))

/-- The rest of `_get_sync` for what was made of the header. -/
def afterHeader (h : Handle) (fh : Option (FileHeader τ)) : Io τ (Option (MemoryObj τ)) :=
  fh.elim (.ret (.ok none)) (readBody h)

theorem readPayload_eq (C : Codec τ) (h : Handle) (metaLen payloadLen : ℕ) (metaBytes : Bytes) :
    readPayload C h metaLen payloadLen metaBytes =
      afterHeader h (headerFrom C metaLen payloadLen metaBytes) := by
  unfold readPayload headerFrom
  split
  · rfl
  · cases C.deserialize metaBytes with
    | none => rfl
    | some m =>
        simp only
        split
        · rfl
        · show _ = readBody h ⟨metaLen, payloadLen, m⟩
          rw [readBody]
          congr 1
          funext ans
          cases ans with
          | none => rfl
          | some mo =>
            simp only
            split
            · rfl
            · congr 1
              funext ans
              cases ans <;> rfl

theorem parsePrefix_of_length {framing : Bytes} (h : framing.length = prefixSize) :
    parsePrefix framing =
      .ok (ofLe (SparseFile.readAt framing 0 4), ofLe (SparseFile.readAt framing 4 4)) := by
  rw [parsePrefix]
  exact if_neg (by simp [h])

theorem fileHeader_of_short {f : Bytes} (h : f.length < prefixSize) : fileHeader C f = none := by
  rw [fileHeader, parsePrefix, if_pos (by rw [List.length_take]; omega)]

/-- What follows the first read of the header, which gave `hdr`. -/
def afterFirstRead (C : Codec τ) (h : Handle) (hdr : Bytes) : Io τ (Option (MemoryObj τ)) :=
  if hdr.length < prefixSize then .ret (.ok none)
  else Io.ofExcept (parsePrefix (hdr.take prefixSize)) fun (metaLen, payloadLen) =>
    if metaLen ≤ hdr.length - prefixSize then
      readPayload C h metaLen payloadLen (SparseFile.readAt hdr prefixSize metaLen)
    else .call (.readObj h prefixSize metaLen) fun
      | .error e => .ret (.error (.daos e))
      | .ok metaBytes => readPayload C h metaLen payloadLen metaBytes

/-- One read is enough, or the metadata is read again and in full. -/
theorem afterFirstRead_eq (C : Codec τ) (h : Handle) (f : Bytes) :
    afterFirstRead C h (f.take (prefixSize + hdrCap)) = afterHeader h (fileHeader C f) ∨
      ∃ metaLen payloadLen,
        fileHeader C f =
          headerFrom C metaLen payloadLen (SparseFile.readAt f prefixSize metaLen) ∧
        afterFirstRead C h (f.take (prefixSize + hdrCap)) =
          .call (.readObj h prefixSize metaLen) fun
            | .error e => .ret (.error (.daos e))
            | .ok metaBytes => afterHeader h (headerFrom C metaLen payloadLen metaBytes) := by
  by_cases hshort : f.length < prefixSize
  · left
    rw [fileHeader_of_short hshort, afterFirstRead, if_pos (by rw [List.length_take]; omega)]
    rfl
  · have hlen : (f.take prefixSize).length = prefixSize := by rw [List.length_take]; omega
    have hpre : (f.take (prefixSize + hdrCap)).take prefixSize = f.take prefixSize := by
      rw [List.take_take, Nat.min_eq_left (Nat.le_add_right _ _)]
    rw [afterFirstRead, if_neg (by rw [List.length_take]; omega), hpre,
      parsePrefix_of_length hlen, fileHeader, parsePrefix_of_length hlen]
    simp only [Io.ofExcept, readPayload_eq]
    split
    · -- the metadata is within what the first read gave
      rename_i hfits
      left
      have hcut : prefixSize + ofLe (SparseFile.readAt (f.take prefixSize) 0 4) ≤
          prefixSize + hdrCap := by
        rw [List.length_take] at hfits
        omega
      rw [SparseFile.readAt_take hcut]
    · right
      exact ⟨_, _, rfl, rfl⟩

/-! ## Reads stay inside the destination -/

/-- What the calls of a read answer on a file with the bytes `f`: storage may
fail at any call, and what it reads is in the file. -/
def FileAnswers (f : Bytes) (give : τ → Option (MemoryObj τ)) : (o : Op τ) → Ans o → Prop
  | .readObj _ offset length, ans => ∀ bs, ans = .ok bs → bs = SparseFile.readAt f offset length
  | .readObjInto _ offset length _, ans =>
      ∀ bs, ans = .ok bs → bs = SparseFile.readAt f offset length
  | .allocate layout, ans => ans = give layout
  | _, _ => True

/-- The call asks for no more bytes than its destination holds. -/
def InBounds : Op τ → Prop
  | .readObjInto _ _ length cap => length ≤ cap
  | _ => True

/-- The prefix promises more than the metadata, and there is a buffer for the
metadata. -/
def Overlong (C : Codec τ) (f : Bytes) (give : τ → Option (MemoryObj τ)) : Prop :=
  ∃ fh mo, fileHeader C f = some fh ∧ give fh.metadata.layout = some mo ∧
    fh.metadata.length ≤ mo.byteArray.length ∧ fh.metadata.length < fh.payloadLen

section Bounds

variable {f : Bytes} {give : τ → Option (MemoryObj τ)}

theorem asks_readBody {h : Handle} {fh : FileHeader τ} :
    (readBody h fh).Asks (FileAnswers f give) InBounds ↔
      ∀ mo, give fh.metadata.layout = some mo → fh.metadata.length ≤ mo.byteArray.length →
        fh.payloadLen ≤ fh.metadata.length := by
  constructor
  · intro hasks mo hgive hfits
    have hcall := hasks.2 (some mo) hgive.symm
    simp only at hcall
    rw [if_neg (by omega)] at hcall
    exact hcall.1
  · intro hbound
    refine ⟨trivial, ?_⟩
    intro ans hans
    rcases ans with - | mo
    · trivial
    · show Program.Asks _ _ (if mo.byteArray.length < fh.metadata.length then _ else _)
      split
      · trivial
      · -- the destination is as long as the metadata says, whatever the buffer
        rename_i hfits
        refine ⟨hbound mo hans.symm (by omega), ?_⟩
        intro ans hans
        rcases ans with e | got
        · trivial
        · show Program.Asks _ _ (if got.length ≠ fh.payloadLen then _ else _)
          split
          · exact ⟨trivial, fun _ _ => trivial⟩
          · trivial

theorem asks_afterFirstRead {h : Handle} :
    (afterFirstRead C h (f.take (prefixSize + hdrCap))).Asks (FileAnswers f give) InBounds ↔
      (afterHeader h (fileHeader C f)).Asks (FileAnswers f give) InBounds := by
  rcases afterFirstRead_eq C h f with heq | ⟨metaLen, payloadLen, hfh, heq⟩
  · rw [heq]
  · rw [heq, hfh]
    constructor
    · intro hasks
      exact hasks.2 (.ok _) fun bs hbs => (Except.ok.inj hbs).symm
    · intro hasks
      refine ⟨trivial, ?_⟩
      intro ans hans
      rcases ans with e | metaBytes
      · trivial
      · rw [hans metaBytes rfl]
        exact hasks

theorem asks_readOpen {h : Handle} :
    (readOpen C h).Asks (FileAnswers f give) InBounds ↔
      (afterHeader h (fileHeader C f)).Asks (FileAnswers f give) InBounds := by
  have hread : SparseFile.readAt f 0 (prefixSize + hdrCap) = f.take (prefixSize + hdrCap) := by
    rw [SparseFile.readAt, List.drop_zero]
  rw [← asks_afterFirstRead, ← hread]
  constructor
  · intro hasks
    exact hasks.2 (.ok _) fun bs hbs => (Except.ok.inj hbs).symm
  · intro hasks
    refine ⟨trivial, ?_⟩
    intro ans hans
    rcases ans with e | hdr
    · trivial
    · rw [hans hdr rfl]
      exact hasks

theorem asks_getDfs {path : String} :
    (getDfs C path).Asks (FileAnswers f give) InBounds ↔
      ∀ h, (readOpen C h).Asks (FileAnswers f give) InBounds := by
  constructor
  · intro hasks h
    exact (hasks.2 (.ok h) trivial).of_bind
  · intro hasks
    refine ⟨trivial, ?_⟩
    intro ans _
    rcases ans with e | h
    · -- a miss or an error, with nothing read
      show Program.Asks _ _ (if e = enoent then _ else _)
      split <;> trivial
    · exact Program.asks_bind (hasks h) fun _ => ⟨trivial, fun _ _ => trivial⟩

/-- A read stays within its buffer exactly if the file's payload length does. -/
theorem asks_afterHeader {h : Handle} :
    (afterHeader h (fileHeader C f)).Asks (FileAnswers f give) InBounds ↔ ¬ Overlong C f give := by
  constructor
  · rintro hasks ⟨fh, mo, hfh, hgive, hfits, hover⟩
    rw [hfh] at hasks
    have := asks_readBody.mp hasks mo hgive hfits
    omega
  · intro hno
    cases hfh : fileHeader C f with
    | none => trivial
    | some fh =>
        apply asks_readBody.mpr
        intro mo hgive hfits
        by_contra hover
        exact hno ⟨fh, mo, hfh, hgive, hfits, by omega⟩

/-- Every read of a file, whatever its bytes, under every allocator and with
storage failing wherever it may, stays inside its destination if and only if the
file does not promise more than there is room for. -/
theorem reads_within_destination_iff (C : Codec τ) (path : String) (f : Bytes)
    (give : τ → Option (MemoryObj τ)) :
    (getSync C (.path path)).Asks (FileAnswers f give) InBounds ↔ ¬ Overlong C f give := by
  rw [getSync, asks_getDfs]
  simp only [asks_readOpen, asks_afterHeader]
  exact ⟨fun h => h ⟨path, 0⟩, fun h _ => h⟩

end Bounds

/-- Three bytes promised by the prefix, two by the metadata. -/
def overlongFile : Bytes := [4, 0, 0, 0, 3, 0, 0, 0] ++ fieldCodec.serialize ⟨2, []⟩ ++ [7, 8, 9]

/-- A buffer of two bytes. -/
def twoBytes : List ℕ → Option (MemoryObj (List ℕ)) := fun layout => some ⟨0, [0, 0], layout⟩

/-- Three bytes are read into a destination of two. -/
theorem overlong_read_leaves_destination :
    ¬ (getSync fieldCodec (.path "/o")).Asks (FileAnswers overlongFile twoBytes) InBounds := by
  intro hasks
  have hopen := asks_afterHeader.mp (asks_readOpen.mp (asks_getDfs.mp hasks ⟨"/o", 0⟩))
  exact hopen ⟨⟨4, 3, ⟨2, []⟩⟩, ⟨0, [0, 0], []⟩, by decide +kernel, rfl, by decide, by decide⟩

/-! ## Cut short, and overgrown -/

theorem exec_readOpen (alloc : Allocator τ) (C : Codec τ) (w : World τ) (h : Handle) :
    exec alloc (readOpen C h) w =
      exec alloc (afterHeader h (fileHeader C (w.dfs.files h))) w := by
  have hread : w.dfs.readObj h 0 (prefixSize + hdrCap) =
      (w.dfs.files h).take (prefixSize + hdrCap) := by
    rw [Dfs.readObj, SparseFile.readAt, List.drop_zero]
  have hfirst : exec alloc (readOpen C h) w =
      exec alloc (afterFirstRead C h ((w.dfs.files h).take (prefixSize + hdrCap))) w := by
    rw [← hread]
    rfl
  rw [hfirst]
  rcases afterFirstRead_eq C h (w.dfs.files h) with heq | ⟨metaLen, payloadLen, hfh, heq⟩
  · rw [heq]
  · rw [heq, hfh]
    rfl

/-- A get is a function of what the file holds. -/
theorem exec_getSync_path (alloc : Allocator τ) (C : Codec τ) {w : World τ} {path : String}
    {h : Handle} (hname : w.dfs.names path = some h) :
    exec alloc (getSync C (.path path)) w =
      exec alloc (afterHeader h (fileHeader C (w.dfs.files h))) w := by
  have hopen : w.dfs.openRdonly path = .ok h := by rw [Dfs.openRdonly, hname]
  rw [getSync, getDfs, exec_call]
  simp only [handler, hopen]
  rw [exec_withClose, exec_readOpen]

/-- With room for what the metadata says. -/
theorem exec_readBody {h : Handle} {fh : FileHeader τ} {w : World τ} {mem : Bytes}
    (halloc : alloc w.allocs fh.metadata.layout = some mem)
    (hroom : fh.metadata.length ≤ mem.length) :
    (exec alloc (readBody h fh) w).1 =
      let got := w.dfs.readObj h (prefixSize + fh.metaLen) fh.payloadLen
      if got.length ≠ fh.payloadLen then .ok none
      else .ok (some (MemoryObj.fill ⟨w.allocs, mem, fh.metadata.layout⟩ got)) := by
  rw [readBody, exec_call]
  simp only [handler, halloc, Option.map_some]
  rw [if_neg (by omega), exec_call]
  simp only [handler]
  split <;> rfl

section Framed

variable {metadata payload : Bytes} {m : RemoteMetadata τ}

theorem fileHeader_framed (hm : metadata.length < 2 ^ 32) (hp : payload.length < 2 ^ 32)
    (hdes : C.deserialize metadata = some m) (hlen : m.length = payload.length) (rest : Bytes) :
    fileHeader C (framed metadata payload ++ rest) =
      some ⟨metadata.length, payload.length, m⟩ := by
  rw [fileHeader, parsePrefix_framed hm hp]
  show headerFrom C metadata.length payload.length _ = _
  rw [readAt_framed_metadata, headerFrom, if_neg (by simp), hdes]
  exact if_neg (by omega)

/-- The header of a file cut short: none, or that of the whole. -/
theorem fileHeader_take (hm : metadata.length < 2 ^ 32) (hp : payload.length < 2 ^ 32)
    (hdes : C.deserialize metadata = some m) (hlen : m.length = payload.length) (k : ℕ) :
    fileHeader C ((framed metadata payload).take k) = none ∨
      fileHeader C ((framed metadata payload).take k) =
        some ⟨metadata.length, payload.length, m⟩ := by
  have hwhole := length_framed metadata payload
  by_cases hk : k < prefixSize
  · exact .inl (fileHeader_of_short (by rw [List.length_take]; omega))
  · have hpre : parsePrefix (((framed metadata payload).take k).take prefixSize) =
        .ok (metadata.length, payload.length) := by
      have hfr := parsePrefix_framed hm hp []
      rw [List.append_nil] at hfr
      rw [List.take_take, Nat.min_eq_left (by omega), hfr]
    rw [fileHeader, hpre]
    simp only
    by_cases hfull : prefixSize + metadata.length ≤ k
    · -- the cut is behind the metadata
      right
      have hmeta := readAt_framed_metadata metadata payload []
      rw [List.append_nil] at hmeta
      rw [SparseFile.readAt_take hfull, hmeta, headerFrom, if_neg (by simp), hdes]
      exact if_neg (by omega)
    · left
      have hcut : (SparseFile.readAt ((framed metadata payload).take k) prefixSize
          metadata.length).length ≠ metadata.length := by
        rw [SparseFile.length_readAt, List.length_take]
        omega
      rw [headerFrom, if_pos hcut]

end Framed

/-- An object that was packed and cut short anywhere is read as a miss, and one
that was packed is read back as its payload, with anything behind it. -/
theorem cut_is_miss_and_whole_is_payload (C : Codec τ) (alloc : Allocator τ)
    (metadata payload : Bytes) {m : RemoteMetadata τ} (hm : metadata.length < 2 ^ 32)
    (hp : payload.length < 2 ^ 32) (hpos : 0 < payload.length)
    (hdes : C.deserialize metadata = some m) (hlen : m.length = payload.length)
    (halloc : ∀ c, ∃ mem, alloc c m.layout = some mem ∧ m.length ≤ mem.length) :
    ∃ blob, pack metadata payload = .ok blob ∧ ∀ (path : String) (w : World τ),
      (∀ k < blob.length, w.dfs.content path = some (blob.take k) →
        (exec alloc (getSync C (.path path)) w).1 = .ok none) ∧
      ∀ rest, w.dfs.content path = some (blob ++ rest) →
        ∃ mo, (exec alloc (getSync C (.path path)) w).1 = .ok (some mo) ∧
          mo.byteArray.take m.length = payload ∧
          unpack (blob ++ rest) = .ok (metadata, mo.byteArray.take m.length) := by
  refine ⟨framed metadata payload, pack_eq_ok hm hp, ?_⟩
  intro path w
  rcases halloc w.allocs with ⟨mem, hmem, hroom⟩
  have hbody : ∀ h, (exec alloc (readBody h ⟨metadata.length, payload.length, m⟩) w).1 = _ :=
    fun h => exec_readBody hmem hroom
  constructor
  · intro k hk hcontent
    rcases Option.map_eq_some_iff.mp hcontent with ⟨h, hname, hfile⟩
    rw [exec_getSync_path alloc C hname, hfile]
    rcases fileHeader_take hm hp hdes hlen k with hnone | hsome
    · rw [hnone]
      rfl
    · -- the cut is in the payload
      rw [hsome]
      show (exec alloc (readBody h _) w).1 = _
      rw [hbody h]
      have hshort : (w.dfs.readObj h (prefixSize + metadata.length) payload.length).length ≠
          payload.length := by
        rw [length_framed] at hk
        rw [Dfs.readObj, hfile, SparseFile.length_readAt, List.length_take, length_framed]
        omega
      exact if_pos hshort
  · -- the prefix says how much to read, so `rest` is never looked at
    intro rest hcontent
    rcases Option.map_eq_some_iff.mp hcontent with ⟨h, hname, hfile⟩
    have hread : w.dfs.readObj h (prefixSize + metadata.length) payload.length = payload := by
      rw [Dfs.readObj, hfile, readAt_framed_payload]
    have hfill : (MemoryObj.fill ⟨w.allocs, mem, m.layout⟩ payload).byteArray.take m.length =
        payload := by
      show ((payload ++ mem.drop payload.length).take mem.length).take m.length = payload
      rw [List.take_take, Nat.min_eq_left hroom]
      exact List.take_left' hlen.symm
    refine ⟨MemoryObj.fill ⟨w.allocs, mem, m.layout⟩ payload, ?_, hfill, ?_⟩
    · rw [exec_getSync_path alloc C hname, hfile, fileHeader_framed hm hp hdes hlen]
      show (exec alloc (readBody h _) w).1 = _
      rw [hbody h]
      simp only [hread]
      exact if_neg (by simp)
    · rw [hfill, unpack_framed hm hp]

/-- Metadata of four bytes, two bytes of payload. -/
def smallBlob : Bytes := [4, 0, 0, 0, 2, 0, 0, 0, 2, 0, 0, 0, 7, 8]

def worldWith (f : Bytes) : World (List ℕ) :=
  let created := emptyWorld.dfs.openRdwrCreate "/o"
  { emptyWorld with dfs := created.1.writeObjFrom created.2 0 f }

theorem small_object_cut_and_overgrown :
    (exec fourBytes (getSync fieldCodec (.path "/o")) (worldWith (smallBlob.take 13))).1 =
        .ok none ∧
      ∃ mo, (exec fourBytes (getSync fieldCodec (.path "/o")) (worldWith (smallBlob ++ [9]))).1 =
          .ok (some mo) ∧ mo.byteArray.take 2 = [7, 8] := by
  have hdes : fieldCodec.deserialize [2, 0, 0, 0] = some ⟨2, []⟩ := by decide +kernel
  rcases cut_is_miss_and_whole_is_payload fieldCodec fourBytes [2, 0, 0, 0] [7, 8] (by decide)
    (by decide) (by decide) hdes rfl (fun _ => ⟨[0, 0, 0, 0], rfl, by decide⟩) with
    ⟨blob, hpack, hread⟩
  have hblob : blob = smallBlob := by
    have hsmall : pack [2, 0, 0, 0] [7, 8] = .ok smallBlob := by decide +kernel
    rw [hsmall] at hpack
    exact (Except.ok.inj hpack).symm
  subst hblob
  constructor
  · exact (hread "/o" _).1 13 (by decide) rfl
  · rcases (hread "/o" (worldWith (smallBlob ++ [9]))).2 [9] rfl with ⟨mo, hget, hbytes, -⟩
    exact ⟨mo, hget, hbytes⟩

end LmcacheDaos.Connector
