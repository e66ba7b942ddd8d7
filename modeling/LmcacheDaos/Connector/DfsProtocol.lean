import LmcacheDaos.Connector.Calls

/-!
# Concurrent writers of one file

`_put_sync` and `_get_sync` on DFS, any number of them on one key and side by
side. A write becomes visible one DFS chunk at a time and in any order; a write
that returned is visible as a whole, and a writer that dies stops where it is.
All puts carry the same metadata and payload length, so they write the same
header, but their payloads may differ.

A read is one step whatever its length: it sees all its chunks at one moment, an
assumption about the storage. A reader whose chunks are fetched at different
moments could mix two states of the file. The two reads of a get, of the header
and of the payload, are two steps.

A put writes in place: header first, payload behind it. A get trusts lengths.
So what a get returns is one put's payload as long as no chunk becomes visible
that leaves a file of full length with anything else in it (`LandsInOrder`);
the second of two overlapping writers, or a last chunk that overtakes an
earlier one, does just that.
-/

namespace LmcacheDaos.Connector.DfsProtocol

open Lib Serde

variable {τ : Type}

/-! ## Calls chunk by chunk -/

/-- How far a call has come: the chunks that a write has left. -/
abbrev Progress : Op τ → Type
  | .writeObjFrom .. => List ℕ
  | _ => Unit

def start (chunkSize : ℕ) : (o : Op τ) → Progress o
  | .writeObjFrom _ offset src => SparseFile.chunksOf chunkSize offset src.length
  | .openRdonly _ | .openRdwrCreate _ | .readObj .. | .readObjInto .. | .closeObj _ => ()
  | .pathExists _ | .remove _ | .fetch .. | .update .. | .punch _ | .punchAkeys .. => ()
  | .allocate _ | .release _ => ()

/-- What a call in flight does next. -/
inductive Move where
  /-- one chunk of a write becomes visible -/
  | land (k : ℕ)
  /-- the call returns -/
  | complete
  /-- the allocator answers: nothing, or a buffer with what is in it -/
  | allocated (buf : Option (ℕ × Bytes))
deriving DecidableEq, Repr

section Steps

variable (chunkSize : ℕ) (fs : Dfs)

def stepWrite (h : Handle) (offset : ℕ) (src : Bytes) (pending : List ℕ) :
    Move → Option (Dfs × (List ℕ ⊕ Except DaosError Unit))
  | .land k =>
      if k ∈ pending then some (fs.landChunk chunkSize h offset src k, .inl (pending.erase k))
      else none
  | .complete => if pending = [] then some (fs, .inr (.ok ())) else none
  | .allocated _ => none

def stepAllocate (objSize : τ → ℕ) (layout : τ) :
    Move → Option (Dfs × (Unit ⊕ Option (MemoryObj τ)))
  | .allocated none => some (fs, .inr none)
  | .allocated (some (id, mem)) =>
      if mem.length = objSize layout then some (fs, .inr (some ⟨id, mem, layout⟩)) else none
  | _ => none

/-- A call that is over in one step. -/
def stepOnce {α β : Type} (r : Dfs × α) : Move → Option (Dfs × (β ⊕ α))
  | .complete => some (r.1, .inr r.2)
  | _ => none

/-- One step of a call. `objSize` is the size of a buffer for a layout. Every call
but a write takes effect at once, a read of several chunks too. The calls of the
object API are not made here. -/
def step (objSize : τ → ℕ) :
    (o : Op τ) → Progress o → Move → Option (Dfs × (Progress o ⊕ Ans o))
  | .writeObjFrom h offset src, pending, m => stepWrite chunkSize fs h offset src pending m
  | .openRdonly path, _, m => stepOnce (fs, fs.openRdonly path) m
  | .openRdwrCreate path, _, m =>
      stepOnce ((fs.openRdwrCreate path).1, .ok (fs.openRdwrCreate path).2) m
  | .readObj h offset length, _, m => stepOnce (fs, .ok (fs.readObj h offset length)) m
  | .readObjInto h offset length _, _, m => stepOnce (fs, .ok (fs.readObj h offset length)) m
  | .closeObj _, _, m => stepOnce (fs, ()) m
  | .pathExists path, _, m => stepOnce (fs, .ok (fs.pathExists path)) m
  | .remove path, _, m => stepOnce ((fs.remove path).1, .ok (fs.remove path).2) m
  | .allocate layout, _, m => stepAllocate fs objSize layout m
  | .release _, _, m => stepOnce (fs, ()) m
  | .fetch .., _, _ | .update .., _, _ | .punch _, _, _ | .punchAkeys .., _, _ => none

end Steps

def callSteps (chunkSize : ℕ) (objSize : τ → ℕ) : CallSteps Dfs (Op τ) Ans Move where
  Progress := Progress
  start := start chunkSize
  step fs := step chunkSize fs objSize

/-! ## One key -/

/-- What the puts of one key have in common, and the payloads they carry. -/
structure OneKey (τ : Type) where
  codec : Codec τ
  /-- size of the buffer that the allocator hands out for a layout -/
  objSize : τ → ℕ
  chunkSize : ℕ
  chunk_pos : 0 < chunkSize
  key : Key
  layout : τ
  length : ℕ
  payloads : Set Bytes
  lossless : codec.deserialize (codec.serialize ⟨length, layout⟩) = some ⟨length, layout⟩
  size_eq : objSize layout = length

inductive Job (τ : Type) where
  | put (mo : MemoryObj τ)
  | get

inductive Outcome (τ : Type) where
  | wrote (r : Except Err Unit)
  | got (r : Except Err (Option (MemoryObj τ)))

variable (W : OneKey τ)

def path : String := keyToPath W.key

def body : Job τ → Program (Op τ) Ans (Outcome τ)
  | .put mo => (put W.codec false W.key mo).map .wrote
  | .get => (get W.codec false W.key).map .got

/-- Any number of jobs on the key, of which the container holds nothing yet. -/
def system := Program.threads (callSteps W.chunkSize W.objSize) (fun fs => fs.names (path W) = none)
  (body W)

abbrev St := ThreadState Dfs (Job τ × Program.Thread (callSteps W.chunkSize W.objSize) (Outcome τ))

abbrev Lbl (τ : Type) := ThreadLbl (Job τ) Move Empty

/-- The puts of the key carry its metadata and its length. -/
def SameMetadata : Lbl τ → Prop
  | .spawn (.put mo) =>
      mo.layout = W.layout ∧ mo.byteArray.length = W.length ∧ mo.byteArray ∈ W.payloads
  | _ => True

/-- The header that every put writes. -/
def headerBytes : Bytes :=
  leBytes 4 (W.codec.serialize ⟨W.length, W.layout⟩).length ++ leBytes 4 W.length ++
    W.codec.serialize ⟨W.length, W.layout⟩

/-- A chunk of the header becomes visible with no hole below it; a chunk after
which the file has its full length, with the rest of the payload in place. -/
def LandsInOrder (f : Bytes) (offset : ℕ) (src : Bytes) (k : ℕ) : Prop :=
  if offset = 0 then k * W.chunkSize ≤ f.length
  else offset + src.length ≤ (SparseFile.landChunk 0 W.chunkSize f offset src k).length →
    ∀ x < src.length, (offset + x) / W.chunkSize ≠ k → f.getD (offset + x) 0 = src.getD x 0

/-- Thread and chunk of a step that makes a chunk visible. -/
def landing : Lbl τ → Option (ℕ × ℕ)
  | .act i (.land k) => some (i, k)
  | _ => none

variable {W} in
/-- The write that thread `i` is inside of. -/
def writing (s : St W) (i : ℕ) : Option (Handle × ℕ × Bytes) :=
  match s.threads[i]? with
  | some (_, .inside (.writeObjFrom h offset src) _ _) => some (h, offset, src)
  | _ => none

/-- Every chunk that becomes visible does so in order. -/
def InOrder (s : St W) (a : Lbl τ) : Prop :=
  ∀ l ∈ landing a, ∀ w ∈ writing s l.1,
    LandsInOrder W (s.shared.files w.1) w.2.1 w.2.2 l.2

instance (f : Bytes) (offset : ℕ) (src : Bytes) (k : ℕ) :
    Decidable (LandsInOrder W f offset src k) :=
  inferInstanceAs (Decidable (if offset = 0 then _ else _ → ∀ x < src.length, _ → _))

instance (s : St W) (a : Lbl τ) : Decidable (InOrder W s a) :=
  inferInstanceAs (Decidable (∀ l ∈ landing a, ∀ w ∈ writing s l.1, _))

/-! ## The file -/

/-- The lengths fit the prefix. -/
def Framed : Prop := (W.codec.serialize ⟨W.length, W.layout⟩).length < 2 ^ 32 ∧ W.length < 2 ^ 32

/-- The file of the key: the header as far as it goes, and one put's payload
once it has its full length. -/
structure FileOk (f : Bytes) : Prop where
  le : f.length ≤ (headerBytes W).length + W.length
  header : ∀ x < f.length, x < (headerBytes W).length → f.getD x 0 = (headerBytes W).getD x 0
  payload : f.length = (headerBytes W).length + W.length →
    f.drop (headerBytes W).length ∈ W.payloads
  framed : f ≠ [] → Framed W

variable {W}

/-- Prefix and metadata. -/
theorem length_headerBytes :
    (headerBytes W).length = prefixSize + (W.codec.serialize ⟨W.length, W.layout⟩).length := by
  simp [headerBytes, prefixSize]
  omega

/-- There is always a prefix. -/
theorem headerBytes_pos : 0 < (headerBytes W).length := by
  rw [length_headerBytes]
  exact Nat.lt_of_lt_of_le (by decide : 0 < prefixSize) (Nat.le_add_right _ _)

/-- An empty file is in order. -/
theorem fileOk_nil : FileOk W [] := by
  have hpos := headerBytes_pos (W := W)
  refine ⟨Nat.zero_le _, ?_, ?_, fun h => absurd rfl h⟩
  · intro x hx
    exact absurd hx (Nat.not_lt_zero x)
  · intro h
    rw [List.length_nil] at h
    omega

/-- A chunk of the header may land where the file has no hole below it. -/
theorem fileOk_landHeader {f : Bytes} (hf : FileOk W f) (hfr : Framed W)
    (hex : ∃ b ∈ W.payloads, b.length = W.length) {k : ℕ} (hk : k * W.chunkSize ≤ f.length) :
    FileOk W (SparseFile.landChunk 0 W.chunkSize f 0 (headerBytes W) k) := by
  have hle := hf.le
  have hgrown := SparseFile.length_landChunk_le (z := 0) W.chunkSize f 0 (headerBytes W) k
  refine ⟨by omega, ?_, ?_, fun _ => hfr⟩
  · intro x hx hxH
    rw [SparseFile.getD_landChunk W.chunk_pos]
    by_cases hxk : x / W.chunkSize = k
    · rw [if_pos ⟨by omega, hxk⟩, Nat.sub_zero]
    · rw [if_neg fun hin => hxk hin.2]
      -- nothing but the chunk was added
      rw [SparseFile.mem_chunk_iff W.chunk_pos] at hxk
      exact hf.header x (by omega) hxH
  · intro hfull
    rcases Nat.lt_or_eq_of_le hle with hlt | heq
    · -- the header completes the file, so there is no payload
      obtain ⟨b, hb, hlen⟩ := hex
      have hnil : b = [] := by
        rw [← List.length_eq_zero_iff]
        omega
      rw [List.drop_of_length_le (by omega), ← hnil]
      exact hb
    · have hsame : (SparseFile.landChunk 0 W.chunkSize f 0 (headerBytes W) k).drop
          (headerBytes W).length = f.drop (headerBytes W).length := by
        refine SparseFile.ext_getD (z := 0) (by simp only [List.length_drop]; omega) ?_
        intro i _
        rw [SparseFile.getD_drop, SparseFile.getD_drop, SparseFile.getD_landChunk W.chunk_pos,
          if_neg (by omega)]
      rw [hsame]
      exact hf.payload heq

/-- A chunk of the payload may land when all of the file's payload is then one put's. -/
theorem fileOk_landPayload {f : Bytes} (hf : FileOk W f) {src : Bytes} (hsrc : src ∈ W.payloads)
    (hlen : src.length = W.length) (hH : (headerBytes W).length ≤ f.length) {k : ℕ}
    (hk : LandsInOrder W f (headerBytes W).length src k) :
    FileOk W (SparseFile.landChunk 0 W.chunkSize f (headerBytes W).length src k) := by
  have hle := hf.le
  have hpos := headerBytes_pos (W := W)
  have hgrown := SparseFile.length_landChunk_le (z := 0) W.chunkSize f (headerBytes W).length src k
  refine ⟨by omega, ?_, ?_, fun _ => hf.framed ?_⟩
  · -- the chunk lies behind the header, which stays
    intro x _ hxH
    rw [SparseFile.getD_landChunk W.chunk_pos, if_neg (by omega)]
    exact hf.header x (by omega) hxH
  · -- full length: only then has anything to be shown of the payload
    intro hfull
    rw [LandsInOrder, if_neg (by omega)] at hk
    -- outside this chunk the bytes are the source's already, as it lands last
    have hdrop : (SparseFile.landChunk 0 W.chunkSize f (headerBytes W).length src k).drop
        (headerBytes W).length = src := by
      refine SparseFile.ext_getD (z := 0) (by rw [List.length_drop]; omega) ?_
      intro i hi
      rw [List.length_drop] at hi
      rw [SparseFile.getD_drop, SparseFile.getD_landChunk W.chunk_pos]
      -- in the chunk they are the source's now
      by_cases hik : ((headerBytes W).length + i) / W.chunkSize = k
      · rw [if_pos ⟨by omega, hik⟩, Nat.add_sub_cancel_left]
      · rw [if_neg fun hin => hik hin.2]
        exact hk (by omega) i (by omega) hik
    rw [hdrop]
    exact hsrc
  · -- the file is not empty before the chunk either, as the header is there
    intro hnil
    rw [hnil, List.length_nil] at hH
    omega

variable (W) in
/-- The metadata that every put writes. -/
def metaBytes : Bytes := W.codec.serialize ⟨W.length, W.layout⟩

/-- As far as the file goes, it begins as the header does. -/
theorem FileOk.take_header {f : Bytes} (hf : FileOk W f) {j : ℕ} (hj : j ≤ f.length)
    (hjH : j ≤ (headerBytes W).length) : f.take j = (headerBytes W).take j := by
  refine SparseFile.ext_getD (z := 0) (by simp only [List.length_take]; omega) ?_
  intro i hi
  rw [List.length_take] at hi
  rw [SparseFile.getD_take, SparseFile.getD_take, if_pos (by omega), if_pos (by omega)]
  exact hf.header i (by omega) (by omega)

/-- Whoever reads a prefix reads the lengths that all puts wrote. -/
theorem FileOk.parsePrefix {f : Bytes} (hf : FileOk W f) (h8 : prefixSize ≤ f.length) :
    Serde.parsePrefix (f.take prefixSize) = .ok ((metaBytes W).length, W.length) := by
  have hne : f ≠ [] := by
    intro hnil
    rw [hnil] at h8
    exact absurd h8 (by decide)
  have hfr := hf.framed hne
  have hpre : (headerBytes W).take prefixSize =
      leBytes 4 (metaBytes W).length ++ leBytes 4 W.length := by
    rw [headerBytes, List.take_append_of_le_length (by simp [prefixSize]), List.take_of_length_le]
    · rfl
    · simp [prefixSize]
  rw [hf.take_header h8 (by rw [length_headerBytes]; omega), hpre]
  exact parsePrefix_prefixPack hfr.1 hfr.2

/-- A read of the metadata that is not short. -/
theorem FileOk.metadata {f : Bytes} (hf : FileOk W f)
    (hfull : (SparseFile.readAt f prefixSize (metaBytes W).length).length = (metaBytes W).length) :
    SparseFile.readAt f prefixSize (metaBytes W).length = metaBytes W := by
  by_cases hzero : (metaBytes W).length = 0
  · rw [List.length_eq_zero_iff.mp hzero]
    simp [SparseFile.readAt]
  · rw [SparseFile.length_readAt] at hfull
    have hH : (headerBytes W).length = prefixSize + (metaBytes W).length := length_headerBytes
    have hcut : SparseFile.readAt (f.take (headerBytes W).length) prefixSize (metaBytes W).length =
        SparseFile.readAt f prefixSize (metaBytes W).length := SparseFile.readAt_take (by omega)
    rw [← hcut, hf.take_header (by omega) (Nat.le_refl _), List.take_length]
    have hmid := SparseFile.readAt_append_mid
      (leBytes 4 (metaBytes W).length ++ leBytes 4 W.length) (metaBytes W) []
    rw [List.append_nil, List.length_append, length_leBytes, length_leBytes] at hmid
    exact hmid

/-- A read of the payload that is not short. -/
theorem FileOk.readAt_payload {f : Bytes} (hf : FileOk W f)
    (hfull : (SparseFile.readAt f (prefixSize + (metaBytes W).length) W.length).length = W.length)
    (hpos : prefixSize + (metaBytes W).length ≤ f.length) :
    SparseFile.readAt f (prefixSize + (metaBytes W).length) W.length ∈ W.payloads := by
  rw [SparseFile.length_readAt] at hfull
  have hH : (headerBytes W).length = prefixSize + (metaBytes W).length := length_headerBytes
  have hle := hf.le
  rw [SparseFile.readAt, ← hH, List.take_of_length_le (by rw [List.length_drop]; omega)]
  exact hf.payload (by omega)

/-! ## What calls in flight know -/

variable (W)

def Inv (fs : Dfs) : Prop := ∀ h, fs.names (path W) = some h → FileOk W (fs.files h)

/-- The name stays and its file only grows. -/
def Grows (fs fs' : Dfs) : Prop := ∀ h, fs.names (path W) = some h →
  fs'.names (path W) = some h ∧ (fs.files h).length ≤ (fs'.files h).length

/-- What a write is: a header of which everything but the pending chunks is in
the file, or a payload behind a whole header. -/
def Writes (f : Bytes) (offset : ℕ) (src : Bytes) (pending : List ℕ) : Prop :=
  (offset = 0 ∧ src = headerBytes W ∧ (∃ b ∈ W.payloads, b.length = W.length) ∧
      ∀ x < (headerBytes W).length, x / W.chunkSize ∉ pending → x < f.length) ∨
    (offset = (headerBytes W).length ∧ src ∈ W.payloads ∧ src.length = W.length ∧
      (headerBytes W).length ≤ f.length)

def Knows (fs : Dfs) : (o : Op τ) → Progress o → Prop
  | .writeObjFrom h offset src, pending => fs.names (path W) = some h ∧ Framed W ∧
      Writes W (fs.files h) offset src pending
  | .readObj h _ _, _ => fs.names (path W) = some h
  | .readObjInto h _ _ _, _ => fs.names (path W) = some h
  | .openRdonly q, _ => q = path W
  | .openRdwrCreate q, _ => q = path W
  | .remove _, _ => False
  | _, _ => True

/-- What a call answers in the state it returns in. -/
def Answers (fs : Dfs) : (o : Op τ) → Ans o → Prop
  | .writeObjFrom h offset src, ans => ans = .ok () ∧
      (offset = 0 → src.length ≤ (fs.files h).length)
  | .openRdonly _, ans => ans = .error enoent ∨ ∃ h, ans = .ok h ∧ fs.names (path W) = some h
  | .openRdwrCreate _, ans => ∃ h, ans = .ok h ∧ fs.names (path W) = some h
  | .readObj h offset length, ans => ans = .ok (fs.readObj h offset length)
  | .readObjInto h offset length _, ans => ans = .ok (fs.readObj h offset length)
  | .allocate layout, ans => ∀ mo, ans = some mo →
      mo.layout = layout ∧ mo.byteArray.length = W.objSize layout
  | _, _ => True

/-- What a step of a call leads to. -/
def Next (fs : Dfs) (o : Op τ) : Progress o ⊕ Ans o → Prop
  | .inl f => Knows W fs o f
  | .inr ans => Answers W fs o ans

variable {W}

/-- No step at all. -/
theorem Grows.refl (fs : Dfs) : Grows W fs fs := fun _ h => ⟨h, Nat.le_refl _⟩

/-- One step after another. -/
theorem Grows.trans {fs fs' fs'' : Dfs} (h : Grows W fs fs') (h' : Grows W fs' fs'') :
    Grows W fs fs'' := by
  intro i hi
  obtain ⟨hi', hle⟩ := h i hi
  obtain ⟨hi'', hle'⟩ := h' i hi'
  exact ⟨hi'', Nat.le_trans hle hle'⟩

/-- A longer file has the written part, too. -/
theorem Writes.mono {f f' : Bytes} {offset : ℕ} {src : Bytes} {pending : List ℕ}
    (h : Writes W f offset src pending) (hle : f.length ≤ f'.length) :
    Writes W f' offset src pending := by
  rcases h with ⟨hoff, hsrc, hex, hlanded⟩ | ⟨hoff, hsrc, hlen, hH⟩
  · refine .inl ⟨hoff, hsrc, hex, ?_⟩
    intro x hx hnot
    exact Nat.lt_of_lt_of_le (hlanded x hx hnot) hle
  · exact .inr ⟨hoff, hsrc, hlen, Nat.le_trans hH hle⟩

/-- What a call knows is not disturbed by the others: files only grow. -/
theorem knows_stable {fs fs' : Dfs} (hR : Grows W fs fs') {o : Op τ} {f : Progress o}
    (hK : Knows W fs o f) : Knows W fs' o f := by
  cases o with
  | writeObjFrom h offset src =>
      obtain ⟨hname, hfr, hw⟩ := hK
      exact ⟨(hR h hname).1, hfr, hw.mono (hR h hname).2⟩
  | readObj h offset length => exact (hR h hK).1
  | readObjInto h offset length cap => exact (hR h hK).1
  | openRdonly q | openRdwrCreate q | remove q | closeObj h | pathExists q | fetch _ _ _
  | update _ _ _ | punch _ | punchAkeys _ _ | allocate _ | release _ => exact hK

/-- A chunk of a write to the file of the key. -/
theorem landChunk_grows {fs : Dfs} {h : Handle} (hname : fs.names (path W) = some h) (cs offset : ℕ)
    (src : Bytes) (k : ℕ) : Grows W fs (fs.landChunk cs h offset src k) ∧
      (fs.landChunk cs h offset src k).files h =
        SparseFile.landChunk 0 cs (fs.files h) offset src k := by
  have hfile : (fs.landChunk cs h offset src k).files h =
      SparseFile.landChunk 0 cs (fs.files h) offset src k :=
    FileStore.setFile_files_self (fs.names_lt _ _ hname) _
  refine ⟨?_, hfile⟩
  intro i hi
  cases hname.symm.trans hi
  refine ⟨?_, ?_⟩
  · rw [Dfs.landChunk, FileStore.setFile_names]
    exact hname
  · rw [hfile]
    exact SparseFile.length_le_length_landChunk ..

/-- Another chunk of a write has become visible. -/
theorem Writes.land {f : Bytes} {offset : ℕ} {src : Bytes} {pending : List ℕ}
    (h : Writes W f offset src pending) (k : ℕ) :
    Writes W (SparseFile.landChunk 0 W.chunkSize f offset src k) offset src (pending.erase k) := by
  have hle := SparseFile.length_le_length_landChunk (z := 0) W.chunkSize f offset src k
  rcases h with ⟨rfl, rfl, hex, hlanded⟩ | ⟨hoff, hsrc, hlen, hH⟩
  · refine .inl ⟨rfl, rfl, hex, ?_⟩
    intro x hx hnot
    by_cases hxk : x / W.chunkSize = k
    · exact SparseFile.lt_length_landChunk W.chunk_pos (by omega) hxk
    · have hnot' : x / W.chunkSize ∉ pending := fun hmem =>
        hnot ((List.mem_erase_of_ne hxk).mpr hmem)
      exact Nat.lt_of_lt_of_le (hlanded x hx hnot') hle
  · exact .inr ⟨hoff, hsrc, hlen, Nat.le_trans hH hle⟩

/-- A chunk that lands in order, or the end of the write. -/
theorem stepWrite_safe {fs fs' : Dfs} (hI : Inv W fs) {h : Handle} {offset : ℕ} {src : Bytes}
    {pending : List ℕ} (hK : Knows W fs (.writeObjFrom h offset src) pending) {m : Move}
    (hok : ∀ k, m = .land k → LandsInOrder W (fs.files h) offset src k)
    {r : List ℕ ⊕ Except DaosError Unit}
    (hst : stepWrite W.chunkSize fs h offset src pending m = some (fs', r)) :
    Inv W fs' ∧ Grows W fs fs' ∧ Next W fs' (.writeObjFrom h offset src) r := by
  obtain ⟨hname, hfr, hw⟩ := hK
  cases m with
  | land k =>
      simp only [stepWrite] at hst
      split at hst
      · cases hst
        obtain ⟨hgrows, hfile⟩ := landChunk_grows hname W.chunkSize offset src k
        have hin := hok k rfl
        refine ⟨?_, hgrows, (hgrows h hname).1, hfr, ?_⟩
        · intro i hi
          cases (hgrows h hname).1.symm.trans hi
          rw [hfile]
          rcases hw with ⟨rfl, rfl, hex, -⟩ | ⟨rfl, hsrc, hlen, hH⟩
          · exact fileOk_landHeader (hI h hname) hfr hex (by simpa [LandsInOrder] using hin)
          · exact fileOk_landPayload (hI h hname) hsrc hlen hH hin
        · rw [hfile]
          exact hw.land k
      · cases hst
  | complete =>
      simp only [stepWrite] at hst
      split at hst
      · rename_i hnil
        cases hst
        refine ⟨hI, .refl _, rfl, ?_⟩
        intro hoff
        rcases hw with ⟨-, rfl, -, hlanded⟩ | ⟨hoff', -⟩
        · -- every chunk is visible, the one with the last byte too
          by_contra hlt
          have := hlanded _ (Nat.lt_of_not_le hlt) (by simp [hnil])
          omega
        · have := headerBytes_pos (W := W)
          omega
      · cases hst
  | allocated buf => cases hst

/-- A call in one step has its answer then. -/
theorem stepOnce_eq_some {α β : Type} {r : Dfs × α} {m : Move} {fs' : Dfs} {r' : β ⊕ α}
    (h : stepOnce r m = some (fs', r')) : fs' = r.1 ∧ r' = .inr r.2 := by
  cases m with
  | complete =>
      cases h
      exact ⟨rfl, rfl⟩
  | land k => cases h
  | allocated buf => cases h

/-- An allocation touches no file. -/
theorem stepAllocate_safe {fs fs' : Dfs} {layout : τ} {m : Move}
    {r : Unit ⊕ Option (MemoryObj τ)} (h : stepAllocate fs W.objSize layout m = some (fs', r)) :
    fs' = fs ∧ Next W fs (.allocate layout) r := by
  cases m with
  | land k => cases h
  | complete => cases h
  | allocated buf =>
      cases buf with
      | none =>
          cases h
          exact ⟨rfl, fun mo hmo => nomatch hmo⟩
      | some mem =>
          simp only [stepAllocate] at h
          split at h
          · rename_i hlen
            cases h
            refine ⟨rfl, ?_⟩
            intro mo hmo
            cases hmo
            exact ⟨rfl, hlen⟩
          · cases h

/-- Opening the file for writing keeps what is in it, or makes an empty one. -/
theorem openRdwrCreate_safe {fs : Dfs} (hI : Inv W fs) :
    Inv W (fs.openRdwrCreate (path W)).1 ∧ Grows W fs (fs.openRdwrCreate (path W)).1 ∧
      (fs.openRdwrCreate (path W)).1.names (path W) = some (fs.openRdwrCreate (path W)).2 := by
  have hname := FileStore.openCreate_names_self fs (path W)
  have hfiles := FileStore.openCreate_files fs (path W)
  refine ⟨?_, ?_, hname⟩
  · intro h hh
    rw [Dfs.openRdwrCreate, hfiles]
    cases hold : fs.names (path W) with
    | some i =>
        rw [Dfs.openRdwrCreate, FileStore.openCreate_of_some hold] at hh
        exact hI h hh
    | none =>
        -- a file that did not exist is empty
        cases hname.symm.trans hh
        rw [FileStore.openCreate_files_of_none hold]
        exact fileOk_nil
  · intro h hh
    rw [Dfs.openRdwrCreate, hfiles]
    refine ⟨?_, Nat.le_refl _⟩
    rw [FileStore.openCreate_of_some hh]
    exact hh

/-- One step of any call, in order. -/
theorem step_safe {fs fs' : Dfs} (hI : Inv W fs) {o : Op τ} {f : Progress o} (hK : Knows W fs o f)
    {m : Move} (hok : ∀ h offset src k, o = .writeObjFrom h offset src → m = .land k →
      LandsInOrder W (fs.files h) offset src k) {r : Progress o ⊕ Ans o}
    (hst : step W.chunkSize fs W.objSize o f m = some (fs', r)) :
    Inv W fs' ∧ Grows W fs fs' ∧ Next W fs' o r := by
  cases o with
  -- the write is where other threads can get in between two chunks
  | writeObjFrom h offset src => exact stepWrite_safe hI hK (fun k => hok h offset src k rfl) hst
  | openRdonly q =>
      obtain ⟨rfl, rfl⟩ := stepOnce_eq_some hst
      refine ⟨hI, .refl _, ?_⟩
      show _ = _ ∨ _
      -- only this key's path is opened
      cases (hK : q = path W)
      -- the name is there or not; no other name is looked at
      cases hname : fs'.names (path W) with
      | none => exact .inl (by rw [Dfs.openRdonly, hname])
      | some h => exact .inr ⟨h, by rw [Dfs.openRdonly, hname], rfl⟩
  | openRdwrCreate q =>
      obtain ⟨rfl, rfl⟩ := stepOnce_eq_some hst
      cases (hK : q = path W)
      obtain ⟨hI', hgrows, hname⟩ := openRdwrCreate_safe hI
      exact ⟨hI', hgrows, _, rfl, hname⟩
  -- `allocate` and the reads change no file
  | allocate layout =>
      obtain ⟨rfl, hnext⟩ := stepAllocate_safe hst
      exact ⟨hI, .refl _, hnext⟩
  | readObj h offset length =>
      obtain ⟨rfl, rfl⟩ := stepOnce_eq_some hst
      exact ⟨hI, .refl _, rfl⟩
  | readObjInto h offset length cap =>
      obtain ⟨rfl, rfl⟩ := stepOnce_eq_some hst
      exact ⟨hI, .refl _, rfl⟩
  | closeObj _ | pathExists _ | release _ =>
      obtain ⟨rfl, rfl⟩ := stepOnce_eq_some hst
      exact ⟨hI, .refl _, trivial⟩
  -- no job removes a key in this system
  | remove q => exact absurd hK id
  | fetch _ _ _ | update _ _ _ | punch _ | punchAkeys _ _ => cases hst

/-! ## The programs -/

variable {α : Type}

variable (W) in
/-- Against every answer that the other jobs can bring about. -/
abbrev Safe (Q : α → Prop) (fs : Dfs) (p : Program (Op τ) Ans α) : Prop :=
  Program.Valid (C := callSteps W.chunkSize W.objSize) (Inv W) (Grows W) (Knows W) (Answers W)
    Q fs p

/-- The `close` at the end needs nothing. -/
theorem safe_withClose {Q : Except Err α → Prop} {fs : Dfs} (hI : Inv W fs) {h : Handle}
    {p : Io τ α} (hp : Safe W Q fs p) : Safe W Q fs (withClose h p) := by
  refine hp.bind ?_ hI
  intro fs' r _ hr
  refine ⟨trivial, ?_⟩
  intro _ _ _ _ _
  exact hr

/-- A put writes the common header, and then a payload behind it. -/
theorem safe_putDfs {fs : Dfs} {b : Bytes} (hb : b ∈ W.payloads) (hlen : b.length = W.length)
    (hfr : Framed W) :
    Safe W (fun _ => True) fs (putDfs (τ := τ) (path W) ⟨headerBytes W, b⟩) := by
  refine ⟨rfl, ?_⟩
  intro fs₁ ans _ hI₁ hans
  obtain ⟨h, rfl, hname⟩ := hans
  apply safe_withClose hI₁
  refine ⟨⟨hname, hfr, .inl ⟨rfl, rfl, ⟨b, hb, hlen⟩, ?_⟩⟩, ?_⟩
  · -- nothing has landed yet
    intro x hx hnot
    have hnot : x / W.chunkSize ∉ SparseFile.chunksOf W.chunkSize 0 (headerBytes W).length := hnot
    exact absurd ((SparseFile.mem_chunksOf W.chunk_pos).mpr ⟨x, by omega, rfl⟩) hnot
  intro fs₂ ans hR₂ _ hans
  obtain ⟨rfl, hH⟩ := hans
  have hname₂ := (hR₂ h hname).1
  refine ⟨⟨hname₂, hfr, .inr ⟨rfl, hb, hlen, hH rfl⟩⟩, ?_⟩
  intro _ _ _ _ _
  trivial

/-- So does `put` of an object with the common metadata. -/
theorem safe_put {fs : Dfs} {mo : MemoryObj τ} (hlayout : mo.layout = W.layout)
    (hlen : mo.byteArray.length = W.length) (hmem : mo.byteArray ∈ W.payloads) :
    Safe W (fun _ => True) fs (put W.codec false W.key mo) := by
  have hmeta : mo.metadata = ⟨W.length, W.layout⟩ := by rw [MemoryObj.metadata, hlayout, hlen]
  unfold put Io.ofExcept
  cases hw : prepWrite W.codec mo with
  | error e => trivial
  | ok w =>
      obtain ⟨hfr, rfl⟩ := prepWrite_eq_ok.mp hw
      rw [Framable, hmeta, hlen] at hfr
      have hheader : framedHeader W.codec mo = headerBytes W := by
        rw [framedHeader, headerBytes, hmeta, hlen]
      rw [hheader]
      exact safe_putDfs hmem hlen hfr

variable (W) in
/-- What a get may end with. -/
def GetOk : Except Err (Option (MemoryObj τ)) → Prop
  | .ok none => True
  | .ok (some mo) => mo.layout = W.layout ∧ mo.byteArray ∈ W.payloads
  | .error _ => False

/-- A get of a file with a whole header ends with a miss or one put's payload. -/
theorem safe_readPayload {fs : Dfs} {h : Handle} (hname : fs.names (path W) = some h)
    (hpos : prefixSize + (metaBytes W).length ≤ (fs.files h).length) {buf : Bytes}
    (hbuf : buf = metaBytes W) :
    Safe W (GetOk W) fs (readPayload W.codec h (metaBytes W).length W.length buf) := by
  subst hbuf
  unfold readPayload
  -- the metadata parses to what was put, so the guards pass
  rw [if_neg (by simp), show W.codec.deserialize (metaBytes W) = _ from W.lossless]
  show Safe W _ fs (if W.length < W.length then _ else _)
  rw [if_neg (Nat.lt_irrefl _)]
  refine ⟨trivial, ?_⟩
  intro fs₁ mo? hR₁ hI₁ hmo
  -- no buffer: the get is a miss
  cases mo? with
  | none => trivial
  | some mo =>
      obtain ⟨hlayout, hlen⟩ := hmo mo rfl
      have hlen : mo.byteArray.length = W.length := hlen.trans W.size_eq
      show Safe W _ fs₁ (if mo.byteArray.length < W.length then _ else _)
      rw [if_neg (by omega)]
      -- the file keeps its name and does not shrink while `allocate` runs
      obtain ⟨hname₁, hle₁⟩ := hR₁ h hname
      refine ⟨hname₁, ?_⟩
      intro fs₂ ans hR₂ hI₂ hans
      cases hans
      obtain ⟨hname₂, hle₂⟩ := hR₂ h hname₁
      show Safe W _ fs₂ (if List.length _ ≠ W.length then _ else _)
      -- short: released, a miss
      split
      · refine ⟨trivial, ?_⟩
        intro _ _ _ _ _
        trivial
      · -- whole: in full length the file holds one payload, whichever put it
        rename_i hfull
        rw [not_not] at hfull
        show GetOk W (.ok (some (mo.fill _)))
        rw [MemoryObj.fill_of_length (hfull.trans hlen.symm)]
        exact ⟨hlayout, (hI₂ h hname₂).readAt_payload hfull (by omega)⟩

/-- So does a get of a file that was found. -/
theorem safe_readOpen {fs : Dfs} {h : Handle} (hname : fs.names (path W) = some h) :
    Safe W (GetOk W) fs (readOpen W.codec h) := by
  refine ⟨hname, ?_⟩
  intro fs₁ ans hR₁ hI₁ hans
  cases hans
  obtain ⟨hname₁, -⟩ := hR₁ h hname
  have hf₁ := hI₁ h hname₁
  have hhdr : fs₁.readObj h 0 (prefixSize + hdrCap) = (fs₁.files h).take (prefixSize + hdrCap) := by
    rw [Dfs.readObj, SparseFile.readAt, List.drop_zero]
  show Safe W _ fs₁ (if (fs₁.readObj h 0 (prefixSize + hdrCap)).length < prefixSize then _ else _)
  rw [hhdr]
  split
  · trivial
  · rename_i hlong
    have hlen : ((fs₁.files h).take (prefixSize + hdrCap)).length =
        min (prefixSize + hdrCap) (fs₁.files h).length := List.length_take
    have h8 : prefixSize ≤ (fs₁.files h).length := by omega
    have hpre : ((fs₁.files h).take (prefixSize + hdrCap)).take prefixSize =
        (fs₁.files h).take prefixSize := by
      rw [List.take_take, Nat.min_eq_left (Nat.le_add_right _ _)]
    rw [hpre, hf₁.parsePrefix h8]
    show Safe W _ fs₁ (if (metaBytes W).length ≤ _ then _ else _)
    split
    · -- the metadata came with the prefix
      rename_i hfits
      apply safe_readPayload hname₁ (by omega)
      rw [SparseFile.readAt_take (by omega)]
      apply hf₁.metadata
      rw [SparseFile.length_readAt]
      omega
    · refine ⟨hname₁, ?_⟩
      intro fs₂ ans hR₂ hI₂ hans
      cases hans
      obtain ⟨hname₂, -⟩ := hR₂ h hname₁
      show Safe W _ fs₂ (readPayload W.codec h _ _ (SparseFile.readAt (fs₂.files h) _ _))
      by_cases hfull : (SparseFile.readAt (fs₂.files h) prefixSize (metaBytes W).length).length =
          (metaBytes W).length
      · apply safe_readPayload hname₂ _ ((hI₂ h hname₂).metadata hfull)
        rw [SparseFile.length_readAt] at hfull
        omega
      · unfold readPayload
        rw [if_pos hfull]
        trivial

/-- And so does every get of the key. -/
theorem safe_get {fs : Dfs} : Safe W (GetOk W) fs (get W.codec false W.key) := by
  refine ⟨rfl, ?_⟩
  intro fs₁ ans _ hI₁ hans
  rcases hans with rfl | ⟨h, rfl, hname⟩
  · trivial
  · exact safe_withClose hI₁ (safe_readOpen hname)

/-! ## Every run in order -/

variable (W) in
/-- What a job may end with. -/
def JobOk : Job τ → Outcome τ → Prop
  | .get, .got r => GetOk W r
  | _, _ => True

/-- Every job is safe from the invariant on. -/
theorem safe_body {fs : Dfs} (hI : Inv W fs) {job : Job τ} (hjob : SameMetadata W (.spawn job)) :
    Safe W (JobOk W job) fs (body W job) := by
  cases job with
  | put mo => exact (safe_put hjob.1 hjob.2.1 hjob.2.2).map hI
  | get => exact safe_get.map hI

/-- In every run whose chunks become visible in order, a get ends with nothing
or with an object whose bytes are one put's payload. -/
theorem get_returns_one_payload (W : OneKey τ) {s : St W}
    (h : (system W).machine.ReachableVia (fun s a => SameMetadata W a ∧ InOrder W s a) s) :
    ∀ r, (Job.get, .done (.got r)) ∈ s.threads → r = .ok none ∨
      ∃ mo, r = .ok (some mo) ∧ mo.layout = W.layout ∧ mo.byteArray ∈ W.payloads := by
  have hsafe := Program.threads_safe (Inv W) (Grows W) (Knows W) (Answers W) (JobOk W)
    (fun _ _ _ => Grows.trans) (fun _ _ _ _ hR _ hK => knows_stable hR hK) ?_ ?_ ?_ h
  · intro r hmem
    have hr : GetOk W r := hsafe.2 _ _ hmem
    match r with
    | .ok none => exact .inl rfl
    | .ok (some mo) => exact .inr ⟨mo, rfl, hr⟩
    | .error _ => exact absurd hr id
  · -- at the start there is no file
    intro fs hfs i hi
    rw [hfs] at hi
    cases hi
  · -- a job enters with the invariant it is safe from
    intro t job hI hok
    exact safe_body hI hok.1
  · intro t i m job o f k fs' r hI hok hget hK hst
    -- the discipline of the run is about the thread that this step moves
    have hin : ∀ h offset src j, o = .writeObjFrom h offset src → m = .land j →
        LandsInOrder W (t.shared.files h) offset src j := by
      rintro h offset src j rfl rfl
      apply hok.2 (i, j) rfl (h, offset, src)
      rw [writing, hget]
      rfl
    obtain ⟨hI', hgrows, hnext⟩ := step_safe hI hK hin hst
    refine ⟨hI', hgrows, ?_⟩
    cases r <;> exact hnext

/-! ### Two writers -/

/-- What gets have returned so far. -/
def returned (s : St W) : List (MemoryObj τ) :=
  s.threads.filterMap fun
    | (.get, .done (.got (.ok (some mo)))) => some mo
    | _ => none

/-- What was returned was returned by a get. -/
theorem mem_of_returned {s : St W} {mo : MemoryObj τ} (h : mo ∈ returned s) :
    (Job.get, .done (.got (.ok (some mo)))) ∈ s.threads := by
  obtain ⟨t, hmem, ht⟩ := List.mem_filterMap.mp h
  split at ht
  · cases ht
    exact hmem
  · cases ht

def aLayout : KvLayout := ⟨1, 2, 40, 1, 1, 1⟩

/-- Two payloads of forty bytes behind a header of 36, in chunks of 64. -/
def twoWriters : OneKey KvLayout where
  codec := kvCodec
  objSize _ := 40
  chunkSize := 64
  chunk_pos := Nat.zero_lt_succ 63
  key := ⟨"m@1@0@ff", "m@1@0@ff", none⟩
  layout := aLayout
  length := 40
  payloads b := b = List.replicate 40 1 ∨ b = List.replicate 40 2
  lossless := rfl
  size_eq := rfl

instance (b : Bytes) : Decidable (b ∈ twoWriters.payloads) :=
  inferInstanceAs (Decidable (_ ∨ _))

instance (a : Lbl KvLayout) : Decidable (SameMetadata twoWriters a) :=
  match a with
  | .spawn (.put _) => inferInstanceAs (Decidable (_ ∧ _ ∧ _))
  | .spawn .get | .act _ _ => isTrue trivial

/-- All of a put of `b`, by thread `i`. -/
def wholePut (i : ℕ) : List (Lbl KvLayout) := [
  .act i .complete, .act i (.land 0), .act i .complete,
  .act i (.land 0), .act i (.land 1), .act i .complete, .act i .complete]

/-- All of a get, by thread `i`, into buffer `i`. -/
def wholeGet (i : ℕ) : List (Lbl KvLayout) := [
  .act i .complete, .act i .complete, .act i (.allocated (some (i, List.replicate 40 0))),
  .act i .complete, .act i .complete]

/-- A get after a put. -/
def putThenGet : List (Lbl KvLayout) :=
  .spawn (.put ⟨0, List.replicate 40 1, aLayout⟩) :: .spawn .get :: wholePut 0 ++ wholeGet 1

/-- Two writers, one after the other, and a get. -/
theorem put_payload_returned :
    ∃ s, (system twoWriters).machine.ReachableVia
        (fun s a => SameMetadata twoWriters a ∧ InOrder twoWriters s a) s ∧
      ∃ mo, (Job.get, .done (.got (.ok (some mo)))) ∈ s.threads ∧
        mo.byteArray ∈ twoWriters.payloads := by
  have hok : (system twoWriters).machine.alongB
      (fun s a => SameMetadata twoWriters a ∧ InOrder twoWriters s a)
      ⟨FileStore.empty, []⟩ putThenGet = true := by decide +kernel
  have hinit : (system twoWriters).machine.Init ⟨FileStore.empty, []⟩ := ⟨rfl, rfl⟩
  obtain ⟨s, hs, hmem⟩ := Machine.ReachableVia.of_run hinit putThenGet hok
    (fun s => ⟨1, List.replicate 40 1, aLayout⟩ ∈ returned s) (by decide +kernel)
  have hthread := mem_of_returned hmem
  rcases get_returns_one_payload twoWriters hs _ hthread with hnone | ⟨mo, hmo, -, hpay⟩
  · cases hnone
  · cases hmo
    exact ⟨s, hs, _, hthread, hpay⟩

/-- A second writer has overwritten the first chunk of a finished put. -/
def secondWriterHalfway : List (Lbl KvLayout) :=
  [.spawn (.put ⟨0, List.replicate 40 1, aLayout⟩), .spawn (.put ⟨1, List.replicate 40 2, aLayout⟩),
    .spawn .get] ++ wholePut 0 ++
  [.act 1 .complete, .act 1 (.land 0), .act 1 .complete, .act 1 (.land 0)] ++ wholeGet 2

/-- The get in between returns bytes of both. -/
theorem blend_returned :
    ∃ s, (system twoWriters).machine.ReachableVia (fun _ a => SameMetadata twoWriters a) s ∧
      ∃ mo, (Job.get, .done (.got (.ok (some mo)))) ∈ s.threads ∧
        mo.byteArray ∉ twoWriters.payloads := by
  have hok : (system twoWriters).machine.alongB (fun _ a => SameMetadata twoWriters a)
      ⟨FileStore.empty, []⟩ secondWriterHalfway = true := by decide +kernel
  have hinit : (system twoWriters).machine.Init ⟨FileStore.empty, []⟩ := ⟨rfl, rfl⟩
  obtain ⟨s, hs, hmem⟩ := Machine.ReachableVia.of_run hinit secondWriterHalfway hok
    (fun s => ⟨2, List.replicate 28 2 ++ List.replicate 12 1, aLayout⟩ ∈ returned s)
    (by decide +kernel)
  exact ⟨s, hs, _, mem_of_returned hmem, by decide⟩

end LmcacheDaos.Connector.DfsProtocol
