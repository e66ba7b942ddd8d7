import LmcacheDaos.Lib.Groups
import LmcacheDaos.Lib.Program
import LmcacheDaos.Mp.Keys
import LmcacheDaos.Serde.V1
import LmcacheDaos.Serde.V3

/-!
# The connector's storage calls

The part of `DaosConnector` (`connector.py`) that runs inside the thread pool:
`_put_sync`, `_get_sync`, `_exists_sync`, `_remove_one` with their object-API
counterparts, and `batched_get`/`batched_put` over them. Each is a program over
the calls it makes (`Op`), so that the same text can be run alone, interleaved
with others, or against answers of any kind.

Not here: the pool that runs the calls (`Connector.IoPool`), logging and the
two diagnostic switches `DAOS_UNSAFE_ALIAS_STORE` and `DAOS_READ_VIA_BYTEARRAY`,
which are off.
-/

namespace LmcacheDaos.Connector

open Lib Serde

/-! ## Keys and addresses -/

/-- A `CacheEngineKey`, or a `LayerCacheEngineKey` when it has a layer. -/
structure Key where
  /-- `to_string()` -/
  str : String
  /-- `to_string()` of the parent class, without the layer field -/
  parentStr : String
  /-- `layer_id` -/
  layer : Option ℕ
deriving DecidableEq, Repr

/-- `_chunk_str` -/
def chunkStr (key : Key) : String := if key.layer.isSome then key.parentStr else key.str

@[ext] structure RawAddr where
  dkey : Dkey
  layer : Option ℕ
deriving DecidableEq, Repr

/-- `_raw_addr` -/
def rawAddr (key : Key) : RawAddr := ⟨dkeyForStr (chunkStr key), key.layer⟩

/-- `_key_to_path` -/
def keyToPath (key : Key) : String :=
  "/" ++ String.ofList (Mp.hexBytes (Sha256.digest (encode key.str)))

/-- What `_addr` gives: a path on DFS, a dkey and a layer on the object API. -/
inductive Addr where
  | path (p : String)
  | raw (a : RawAddr)
deriving DecidableEq, Repr

/-- `_addr` -/
def addr (raw : Bool) (key : Key) : Addr :=
  if raw then .raw (rawAddr key) else .path (keyToPath key)

/-- `_akeys_for`: payload and metadata akey. -/
def akeysFor : Option ℕ → Except PackError (Akey × Akey)
  | none => .ok (akeyPayload, akeyMeta)
  | some layer => match akeyLayer layer with
    | .error e => .error e
    | .ok pak => match akeyMetaLayer layer with
      | .error e => .error e
      | .ok mak => .ok (pak, mak)

/-! ## Objects and metadata -/

/-- A memory object; `layout` stands for its shapes, dtypes and format. -/
structure MemoryObj (τ : Type) where
  id : ℕ
  byteArray : Bytes
  layout : τ
deriving DecidableEq, Repr

structure RemoteMetadata (τ : Type) where
  length : ℕ
  layout : τ
deriving DecidableEq, Repr

/-- LMCache's `RemoteMetadata.serialize` and `deserialize`, the latter giving
nothing when it raises. -/
structure Codec (τ : Type) where
  serialize : RemoteMetadata τ → Bytes
  deserialize : Bytes → Option (RemoteMetadata τ)

/-- Format, dtype and shape of one KV tensor. -/
structure KvLayout where
  fmt : ℕ
  dtype : ℕ
  d0 : ℕ
  d1 : ℕ
  d2 : ℕ
  d3 : ℕ
deriving DecidableEq, Repr

/-- The codec for one KV tensor: seven 32-bit fields. -/
def kvCodec : Codec KvLayout where
  serialize m := [m.length, m.layout.fmt, m.layout.dtype, m.layout.d0, m.layout.d1, m.layout.d2,
    m.layout.d3].flatMap (leBytes 4)
  deserialize b :=
    if b.length = 28 then
      let field i := ofLe (SparseFile.readAt b (4 * i) 4)
      some ⟨field 0, ⟨field 1, field 2, field 3, field 4, field 5, field 6⟩⟩
    else none

/-- 32-bit fields one after the other. -/
def fieldsOf : Bytes → List ℕ
  | a :: b :: c :: d :: rest => ofLe [a, b, c, d] :: fieldsOf rest
  | _ => []

/-- The codec for any number of KV groups: a length, and as many 32-bit fields
as the formats, dtypes and shapes take. -/
def fieldCodec : Codec (List ℕ) where
  serialize m := (m.length :: m.layout).flatMap (leBytes 4)
  deserialize b := match fieldsOf b with
    | [] => none
    | n :: fields => if 4 * (n :: fields).length = b.length then some ⟨n, fields⟩ else none

/-- `RemoteMetadata` of an object. -/
def MemoryObj.metadata {τ : Type} (mo : MemoryObj τ) : RemoteMetadata τ :=
  ⟨mo.byteArray.length, mo.layout⟩

/-- The buffer after a read into it from its first byte on. -/
def MemoryObj.fill {τ : Type} (mo : MemoryObj τ) (got : Bytes) : MemoryObj τ :=
  { mo with byteArray := (got ++ mo.byteArray.drop got.length).take mo.byteArray.length }

theorem MemoryObj.fill_of_length {τ : Type} {mo : MemoryObj τ} {got : Bytes}
    (h : got.length = mo.byteArray.length) : mo.fill got = { mo with byteArray := got } := by
  rw [fill, h, List.drop_length, List.append_nil, ← h, List.take_length]

/-- The same bytes and metadata, in whatever buffer. -/
def MemoryObj.Same {τ : Type} (mo obj : MemoryObj τ) : Prop :=
  mo.byteArray = obj.byteArray ∧ mo.layout = obj.layout

/-! ## Calls -/

inductive Op (τ : Type) where
  | openRdonly (path : String)
  | openRdwrCreate (path : String)
  | readObj (h : Handle) (offset length : ℕ)
  /-- `length` bytes into a destination of `cap` bytes -/
  | readObjInto (h : Handle) (offset length cap : ℕ)
  | writeObjFrom (h : Handle) (offset : ℕ) (src : Bytes)
  | closeObj (h : Handle)
  | pathExists (path : String)
  | remove (path : String)
  | fetch (dkey : Dkey) (items : List (Akey × ℕ)) (single : Bool)
  | update (dkey : Dkey) (items : List (Akey × Bytes)) (single : Bool)
  | punch (dkey : Dkey)
  | punchAkeys (dkey : Dkey) (akeys : List Akey)
  /-- `local_cpu_backend.allocate` -/
  | allocate (layout : τ)
  /-- `_release` -/
  | release (mo : MemoryObj τ)

/-- What a call answers; a read answers the bytes that are now in its buffer. -/
abbrev Ans {τ : Type} : Op τ → Type
  | .openRdonly _ => Except DaosError Handle
  | .openRdwrCreate _ => Except DaosError Handle
  | .readObj .. => Except DaosError Bytes
  | .readObjInto .. => Except DaosError Bytes
  | .writeObjFrom .. => Except DaosError Unit
  | .closeObj _ => Unit
  | .pathExists _ => Except DaosError Bool
  | .remove _ => Except DaosError Bool
  | .fetch .. => Except DaosError (List Bytes)
  | .update .. => Except DaosError Unit
  | .punch _ => Except DaosError Unit
  | .punchAkeys .. => Except DaosError Unit
  | .allocate _ => Option (MemoryObj τ)
  | .release _ => Unit

/-- What a call of the connector can raise. -/
inductive Err where
  | daos (e : DaosError)
  | python (e : PackError)
deriving DecidableEq, Repr

/-- A program that returns a value or raises. -/
abbrev Io (τ α : Type) := Program (Op τ) Ans (Except Err α)

variable {τ α β : Type}

/-- `p`, then `f` of its value unless it raised. -/
def Io.andThen (p : Io τ α) (f : α → Io τ β) : Io τ β :=
  p.bind fun
    | .error e => .ret (.error e)
    | .ok a => f a

/-- The rest of a function after something that may raise. -/
def Io.ofExcept (x : Except PackError α) (f : α → Io τ β) : Io τ β :=
  match x with
  | .error e => .ret (.error (.python e))
  | .ok a => f a

/-- `(ctypes.c_char * n).from_buffer(view)` raises on a buffer that is too small. -/
def bufferTooSmall (size n : ℕ) : Err :=
  .python (.valueError s!"Buffer size too small ({size} instead of at least {n} bytes)")

/-! ## Writing -/

/-- `(header, src, n)` of `_prep_write`, with `n` the length of `src`. -/
structure Prepped where
  header : Bytes
  src : Bytes
deriving DecidableEq, Repr

/-- `_prep_write` -/
def prepWrite (C : Codec τ) (mo : MemoryObj τ) : Except PackError Prepped :=
  let metaBytes := C.serialize mo.metadata
  (prefixPack metaBytes.length mo.byteArray.length).map fun framing =>
    ⟨framing ++ metaBytes, mo.byteArray⟩

/-- `_repack_header`: from the v1 header to the v3 one. -/
def repackHeader (header : Bytes) : Except PackError Bytes :=
  match parsePrefix (header.take prefixSize) with
  | .error e => .error e
  | .ok (metaLen, payloadLen) =>
      packMeta (SparseFile.readAt header prefixSize metaLen) payloadLen stateCommitted

/-- Payload and metadata item of one layer, or of the whole chunk. -/
def writeItems (layer : Option ℕ) (w : Prepped) :
    Except PackError ((Akey × Bytes) × Akey × Bytes) :=
  match akeysFor layer with
  | .error e => .error e
  | .ok (pak, mak) => match repackHeader w.header with
    | .error e => .error e
    | .ok hdr => .ok ((pak, w.src), mak, hdr)

/-- Payload akeys first, metadata akeys last. -/
def commit (dkey : Dkey) (payloads metas : List (Akey × Bytes)) : Io τ Unit :=
  .call (.update dkey payloads false) fun
    | .error e => .ret (.error (.daos e))
    | .ok _ => .call (.update dkey metas true) fun ans => .ret (ans.mapError .daos)

/-- `_put_raw` -/
def putRaw (a : RawAddr) (w : Prepped) : Io τ Unit :=
  Io.ofExcept (writeItems a.layer w) fun (payload, metadata) => commit a.dkey [payload] [metadata]

/-- `_put_raw_folded` -/
def putRawFolded (dkey : Dkey) (entries : List (ℕ × Prepped)) : Io τ Unit :=
  Io.ofExcept (entries.mapM fun (layer, w) => writeItems (some layer) w) fun items =>
    commit dkey (items.map Prod.fst) (items.map Prod.snd)

/-- `try: … finally: close_obj(obj)` -/
def withClose (h : Handle) (p : Io τ α) : Io τ α :=
  p.bind fun r => .call (.closeObj h) fun _ => .ret r

/-- `_put_sync` on DFS: the header, then the payload behind it, in place. -/
def putDfs (path : String) (w : Prepped) : Io τ Unit :=
  .call (.openRdwrCreate path) fun
    | .error e => .ret (.error (.daos e))
    | .ok h => withClose h <|
        .call (.writeObjFrom h 0 w.header) fun
          | .error e => .ret (.error (.daos e))
          | .ok _ => .call (.writeObjFrom h w.header.length w.src) fun ans =>
              .ret (ans.mapError .daos)

/-- `_put_sync` -/
def putSync : Addr → Prepped → Io τ Unit
  | .raw a, w => putRaw a w
  | .path p, w => putDfs p w

/-! ## Reading -/

/-- `_HDR_CAP` -/
def hdrCap : ℕ := 512

/-- `_META_CAP` -/
def metaCap : ℕ := fixedSize + hdrCap

/-- What a fetched metadata akey says, if it is there, intact, committed and
consistent with itself. -/
def parseAkey (C : Codec τ) (buf : Bytes) : Option (RemoteMetadata τ) :=
  if buf.length = 0 then none
  else match parseMeta buf true with
    | .error _ => none
    | .ok hdr => match C.deserialize hdr.metadata with
      | none => none
      | some m => if hdr.payloadLen < m.length then none else some m

/-- `_get_raw` -/
def getRaw (C : Codec τ) (a : RawAddr) : Io τ (Option (MemoryObj τ)) :=
  Io.ofExcept (akeysFor a.layer) fun (pak, mak) =>
    .call (.fetch a.dkey [(mak, metaCap)] true) fun
      | .error e => .ret (.error (.daos e))
      | .ok got => match parseAkey C (got.headD []) with
        | none => .ret (.ok none)
        | some m => .call (.allocate m.layout) fun
          | none => .ret (.ok none)
          | some mo =>
              if mo.byteArray.length < m.length then
                .ret (.error (bufferTooSmall mo.byteArray.length m.length))
              else .call (.fetch a.dkey [(pak, m.length)] false) fun
                | .error e => .call (.release mo) fun _ => .ret (.error (.daos e))
                | .ok readn =>
                    if (readn.headD []).length ≠ m.length then
                      .call (.release mo) fun _ => .ret (.ok none)
                    else .ret (.ok (some (mo.fill (readn.headD []))))

/-- A layer whose metadata was accepted and whose buffer is allocated. -/
structure Staged (τ : Type) where
  pos : ℕ
  obj : MemoryObj τ
  n : ℕ
  pak : Akey

/-- The first loop of `_get_raw_folded`, over position, layer and fetched
metadata. -/
def stage (C : Codec τ) : List (ℕ × ℕ × Bytes) → Io τ (List (Staged τ))
  | [] => .ret (.ok [])
  | (i, layer, buf) :: rest => match parseAkey C buf with
    | none => stage C rest
    | some m => .call (.allocate m.layout) fun
      | none => stage C rest
      | some mo =>
          if mo.byteArray.length < m.length then
            .ret (.error (bufferTooSmall mo.byteArray.length m.length))
          else Io.ofExcept (akeyLayer layer) fun pak =>
            (stage C rest).andThen fun staged => .ret (.ok (⟨i, mo, m.length, pak⟩ :: staged))

/-- Hand back every buffer. -/
def releaseAll : List (MemoryObj τ) → Io τ α → Io τ α
  | [], p => p
  | mo :: rest, p => .call (.release mo) fun _ => releaseAll rest p

/-- The last loop of `_get_raw_folded`, over the staged layers and the bytes
read for them. -/
def collect : List (Staged τ × Bytes) → List (Option (MemoryObj τ)) →
    Io τ (List (Option (MemoryObj τ)))
  | [], out => .ret (.ok out)
  | (st, got) :: rest, out =>
      if got.length ≠ st.n then .call (.release st.obj) fun _ => collect rest out
      else collect rest (out.set st.pos (some (st.obj.fill got)))

/-- `_get_raw_folded` -/
def getRawFolded (C : Codec τ) (dkey : Dkey) (layers : List ℕ) :
    Io τ (List (Option (MemoryObj τ))) :=
  Io.ofExcept (layers.mapM akeyMetaLayer) fun maks =>
    .call (.fetch dkey (maks.map fun mak => (mak, metaCap)) true) fun
      | .error e => .ret (.error (.daos e))
      | .ok got =>
          let out := layers.map fun _ => none
          (stage C ((List.range layers.length).zip (layers.zip got))).andThen fun staged =>
            if staged.isEmpty then .ret (.ok out)
            else .call (.fetch dkey (staged.map fun st => (st.pak, st.n)) false) fun
              | .error e => releaseAll (staged.map Staged.obj) (.ret (.error (.daos e)))
              | .ok readn => collect (staged.zip readn) out

/-- `_get_sync` on DFS from the metadata on. -/
def readPayload (C : Codec τ) (h : Handle) (metaLen payloadLen : ℕ) (metaBytes : Bytes) :
    Io τ (Option (MemoryObj τ)) :=
  if metaBytes.length ≠ metaLen then .ret (.ok none)
  else match C.deserialize metaBytes with
    | none => .ret (.ok none)
    | some m =>
        if payloadLen < m.length then .ret (.ok none)
        else .call (.allocate m.layout) fun
          | none => .ret (.ok none)
          | some mo =>
              if mo.byteArray.length < m.length then
                .ret (.error (bufferTooSmall mo.byteArray.length m.length))
              else .call (.readObjInto h (prefixSize + metaLen) payloadLen m.length) fun
                | .error e => .ret (.error (.daos e))
                | .ok got =>
                    if got.length ≠ payloadLen then .call (.release mo) fun _ => .ret (.ok none)
                    else .ret (.ok (some (mo.fill got)))

/-- `_get_sync` on DFS with the file open. -/
def readOpen (C : Codec τ) (h : Handle) : Io τ (Option (MemoryObj τ)) :=
  .call (.readObj h 0 (prefixSize + hdrCap)) fun
    | .error e => .ret (.error (.daos e))
    | .ok hdr =>
        if hdr.length < prefixSize then .ret (.ok none)
        else Io.ofExcept (parsePrefix (hdr.take prefixSize)) fun (metaLen, payloadLen) =>
          if metaLen ≤ hdr.length - prefixSize then
            readPayload C h metaLen payloadLen (SparseFile.readAt hdr prefixSize metaLen)
          else .call (.readObj h prefixSize metaLen) fun
            | .error e => .ret (.error (.daos e))
            | .ok metaBytes => readPayload C h metaLen payloadLen metaBytes

/-- `_get_sync` on DFS -/
def getDfs (C : Codec τ) (path : String) : Io τ (Option (MemoryObj τ)) :=
  .call (.openRdonly path) fun
    | .error e => if e = enoent then .ret (.ok none) else .ret (.error (.daos e))
    | .ok h => withClose h (readOpen C h)

/-- `_get_sync` -/
def getSync (C : Codec τ) : Addr → Io τ (Option (MemoryObj τ))
  | .raw a => getRaw C a
  | .path p => getDfs C p

/-- `_exists_sync` -/
def existsSync : Addr → Io τ Bool
  | .raw a => Io.ofExcept (akeysFor a.layer) fun (_, mak) =>
      .call (.fetch a.dkey [(mak, metaCap)] true) fun
        | .error e => .ret (.error (.daos e))
        | .ok got => .ret (.ok (decide (0 < (got.headD []).length)))
  | .path p => .call (.pathExists p) fun ans => .ret (ans.mapError .daos)

/-- `_remove_one` -/
def removeOne : Addr → Io τ Bool
  | .raw ⟨dkey, some layer⟩ => Io.ofExcept (akeysFor (some layer)) fun (pak, mak) =>
      .call (.punchAkeys dkey [pak, mak]) fun ans => .ret ((ans.map fun _ => true).mapError .daos)
  | .raw ⟨dkey, none⟩ =>
      .call (.punch dkey) fun ans => .ret ((ans.map fun _ => true).mapError .daos)
  | .path p => .call (.remove p) fun ans => .ret (ans.mapError .daos)

/-! ## Batches -/

/-- The loop of `_group_layers` from position `i` on. -/
def groupFrom : ℕ → List RawAddr → List (Dkey × List (ℕ × ℕ)) →
    Option (List (Dkey × List (ℕ × ℕ)))
  | _, [], groups => some groups
  | i, a :: rest, groups => match a.layer with
    | none => none
    | some layer => groupFrom (i + 1) rest (Groups.append a.dkey (i, layer) groups)

/-- `_group_layers`: positions and layers per dkey, nothing when a key of the
batch has no layer. -/
def groupLayers (addrs : List RawAddr) : Option (List (Dkey × List (ℕ × ℕ))) :=
  groupFrom 0 addrs []

/-- `groups` of a batch, if the batch is folded: an empty dict is not true. -/
def foldedGroups (raw : Bool) (keys : List Key) : Option (List (Dkey × List (ℕ × ℕ))) :=
  if raw then (groupLayers (keys.map rawAddr)).filter (· ≠ []) else none

/-- The results of every call of a batch, in the order they were submitted.
The calls of one batch address different keys. -/
def gather : List (Io τ α) → Program (Op τ) Ans (List (Except Err α))
  | [] => .ret []
  | p :: ps => p.bind fun r => (gather ps).map fun rs => r :: rs

/-- `batched_get` -/
def batchedGet (C : Codec τ) (raw : Bool) (keys : List Key) :
    Program (Op τ) Ans (List (Option (MemoryObj τ))) :=
  match foldedGroups raw keys with
  | some groups =>
      (gather (groups.map fun g => getRawFolded C g.1 (g.2.map Prod.snd))).map fun gathered =>
        (groups.zip gathered).foldl (fun res g => match g.2 with
          | .error _ => res
          | .ok got => Groups.scatter res ((g.1.2.map Prod.fst).zip got)) (keys.map fun _ => none)
  | none =>
      (gather (keys.map fun k => getSync C (addr raw k))).map fun gathered =>
        gathered.map fun
          | .error _ => none
          | .ok r => r

/-- The calls of `batched_put`, each with the positions it writes. -/
def putCalls (raw : Bool) (keys : List Key) (prepped : List Prepped) : List (List ℕ × Io τ Unit) :=
  match foldedGroups raw keys with
  | some groups => groups.map fun g => (g.2.map Prod.fst,
      putRawFolded g.1 (g.2.map fun m => (m.2, prepped.getD m.1 ⟨[], []⟩)))
  | none => ((keys.zip prepped).zip (List.range keys.length)).map fun kw =>
      ([kw.2], putSync (addr raw kw.1.1) kw.1.2)

/-- The first of the exceptions. -/
def firstError : List (Except Err Unit) → Except Err Unit
  | [] => .ok ()
  | .error e :: _ => .error e
  | .ok _ :: rest => firstError rest

/-- `batched_put`: every call runs, and the first exception is raised. -/
def batchedPut (C : Codec τ) (raw : Bool) (keys : List Key) (objs : List (MemoryObj τ)) :
    Io τ Unit :=
  Io.ofExcept (objs.mapM (prepWrite C)) fun prepped =>
    (gather ((putCalls raw keys prepped).map Prod.snd)).map firstError

/-- `put` -/
def put (C : Codec τ) (raw : Bool) (key : Key) (mo : MemoryObj τ) : Io τ Unit :=
  Io.ofExcept (prepWrite C mo) fun w => putSync (addr raw key) w

/-- `get` -/
def get (C : Codec τ) (raw : Bool) (key : Key) : Io τ (Option (MemoryObj τ)) :=
  getSync C (addr raw key)

/-! ## What a write stores -/

/-- Layers that have akeys. -/
def LayerOk (layer : Option ℕ) : Prop := ∀ i, layer = some i → i ≤ maxLayer

instance (layer : Option ℕ) : Decidable (LayerOk layer) :=
  match layer with
  | none => isTrue fun _ h => nomatch h
  | some i => decidable_of_iff (i ≤ maxLayer)
      ⟨fun h _ hj => Option.some.inj hj ▸ h, fun h => h i rfl⟩

def payloadAkey : Option ℕ → Akey
  | none => akeyPayload
  | some i => layerName 0x4C i

def metaAkey : Option ℕ → Akey
  | none => akeyMeta
  | some i => layerName 0x4D i

theorem akeyOfLayer_eq_ok {letter : UInt8} {i : ℕ} {a : Akey} :
    akeyOfLayer letter i = .ok a ↔ i ≤ maxLayer ∧ a = layerName letter i := by
  unfold akeyOfLayer
  split
  · rename_i h
    simp [Nat.not_le.mpr h]
  · rename_i h
    simp [Nat.le_of_not_lt h, eq_comm]

/-- Layers 0..999 and the whole chunk have akeys. -/
theorem akeysFor_eq_ok {layer : Option ℕ} {aks : Akey × Akey} :
    akeysFor layer = .ok aks ↔ LayerOk layer ∧ aks = (payloadAkey layer, metaAkey layer) := by
  cases layer with
  | none => simp [akeysFor, LayerOk, payloadAkey, metaAkey, eq_comm]
  | some i =>
      by_cases hi : i ≤ maxLayer
      · have hp : akeyLayer i = .ok (layerName 0x4C i) := akeyOfLayer_eq_ok.mpr ⟨hi, rfl⟩
        have hm : akeyMetaLayer i = .ok (layerName 0x4D i) := akeyOfLayer_eq_ok.mpr ⟨hi, rfl⟩
        simp [akeysFor, hp, hm, LayerOk, hi, payloadAkey, metaAkey, eq_comm]
      · cases hp : akeyLayer i with
        | error e => simp [akeysFor, hp, LayerOk, hi]
        | ok a => exact absurd (akeyOfLayer_eq_ok.mp hp).1 hi

theorem mapM_akeyMetaLayer_eq_ok {layers : List ℕ} {maks : List Akey} :
    layers.mapM akeyMetaLayer = .ok maks ↔
      (∀ l ∈ layers, LayerOk (some l)) ∧ maks = layers.map fun l => metaAkey (some l) := by
  have hone : ∀ l a, akeyMetaLayer l = .ok a ↔ LayerOk (some l) ∧ metaAkey (some l) = a := by
    intro l a
    rw [akeyMetaLayer, akeyOfLayer_eq_ok]
    simp [LayerOk, metaAkey, eq_comm]
  simp only [mapM_eq_ok, hone, List.forall₂_and_left]
  rw [← List.forall₂_map_left_iff (R := Eq), List.forall₂_eq_eq_eq, eq_comm (a := maks)]

theorem payloadAkey_inj {l l' : Option ℕ} (h : LayerOk l) (h' : LayerOk l')
    (heq : payloadAkey l = payloadAkey l') : l = l' := by
  cases l with
  | none =>
      cases l' with
      | none => rfl
      | some j => simp [payloadAkey, akeyPayload, layerName] at heq
  | some i =>
      cases l' with
      | none => simp [payloadAkey, akeyPayload, layerName] at heq
      | some j => rw [(layerName_inj (h i rfl) (h' j rfl) heq).2]

theorem metaAkey_inj {l l' : Option ℕ} (h : LayerOk l) (h' : LayerOk l')
    (heq : metaAkey l = metaAkey l') : l = l' := by
  cases l with
  | none =>
      cases l' with
      | none => rfl
      | some j => simp [metaAkey, akeyMeta, layerName] at heq
  | some i =>
      cases l' with
      | none => simp [metaAkey, akeyMeta, layerName] at heq
      | some j => rw [(layerName_inj (h i rfl) (h' j rfl) heq).2]

theorem payloadAkey_ne_metaAkey (l l' : Option ℕ) : payloadAkey l ≠ metaAkey l' := by
  cases l <;> cases l' <;>
    simp [payloadAkey, metaAkey, akeyPayload, akeyMeta, layerName]

/-- The header that a write of an object commits. -/
def headerOf (C : Codec τ) (mo : MemoryObj τ) : Header :=
  ⟨stateCommitted, C.serialize mo.metadata, mo.byteArray.length⟩

/-- The v1 header of an object. -/
def framedHeader (C : Codec τ) (mo : MemoryObj τ) : Bytes :=
  leBytes 4 (C.serialize mo.metadata).length ++ leBytes 4 mo.byteArray.length ++
    C.serialize mo.metadata

/-- Lengths that the 32-bit fields of the v1 prefix hold. -/
def Framable (C : Codec τ) (mo : MemoryObj τ) : Prop :=
  (C.serialize mo.metadata).length < 2 ^ 32 ∧ mo.byteArray.length < 2 ^ 32

/-- What can be framed is framed. -/
theorem prepWrite_eq_ok {C : Codec τ} {mo : MemoryObj τ} {w : Prepped} :
    prepWrite C mo = .ok w ↔ Framable C mo ∧ w = ⟨framedHeader C mo, mo.byteArray⟩ := by
  by_cases h : Framable C mo
  · have hok : prepWrite C mo = .ok ⟨framedHeader C mo, mo.byteArray⟩ := by
      simp only [prepWrite, prefixPack_eq_ok h.1 h.2]
      rfl
    rw [hok, Except.ok.injEq]
    exact ⟨fun heq => ⟨h, heq.symm⟩, fun heq => heq.2.symm⟩
  · have herr : prepWrite C mo = .error .structError := by
      unfold Framable at h
      simp only [prepWrite, prefixPack]
      rw [if_pos (by omega)]
      rfl
    rw [herr]
    constructor
    · intro heq
      cases heq
    · intro heq
      exact absurd heq.1 h

theorem repackHeader_framing {metadata : Bytes} {payloadLen : ℕ} (hm : metadata.length < 2 ^ 32)
    (hp : payloadLen < 2 ^ 32) :
    repackHeader (leBytes 4 metadata.length ++ leBytes 4 payloadLen ++ metadata) =
      packMeta metadata payloadLen stateCommitted := by
  have hpre : (leBytes 4 metadata.length ++ leBytes 4 payloadLen ++ metadata).take prefixSize =
      leBytes 4 metadata.length ++ leBytes 4 payloadLen := by
    rw [List.take_append_of_le_length (by simp [prefixSize]), List.take_of_length_le]
    simp [prefixSize]
  have hmeta : SparseFile.readAt (leBytes 4 metadata.length ++ leBytes 4 payloadLen ++ metadata)
      prefixSize metadata.length = metadata := by
    have hmid := SparseFile.readAt_append_mid
      (leBytes 4 metadata.length ++ leBytes 4 payloadLen) metadata []
    rw [List.append_nil] at hmid
    simpa [prefixSize] using hmid
  unfold repackHeader
  rw [hpre, parsePrefix_prefixPack hm hp]
  show packMeta (SparseFile.readAt _ prefixSize _) _ _ = _
  rw [hmeta]

theorem repackHeader_framedHeader {C : Codec τ} {mo : MemoryObj τ} (h : Framable C mo) :
    repackHeader (framedHeader C mo) =
      packMeta (C.serialize mo.metadata) mo.byteArray.length stateCommitted :=
  repackHeader_framing h.1 h.2

/-- What `_put_raw` and `_put_raw_folded` write for an object, if they accept it. -/
theorem writeItems_eq_ok {C : Codec τ} {mo : MemoryObj τ} (h : Framable C mo) {layer : Option ℕ}
    {items : (Akey × Bytes) × Akey × Bytes} :
    writeItems layer ⟨framedHeader C mo, mo.byteArray⟩ = .ok items ↔
      (LayerOk layer ∧ (headerOf C mo).Packable) ∧
        items = ((payloadAkey layer, mo.byteArray), metaAkey layer, header (headerOf C mo)) := by
  unfold writeItems
  cases hak : akeysFor layer with
  | error e =>
      have hno : ¬ LayerOk layer := by
        intro hl
        rw [akeysFor_eq_ok.mpr ⟨hl, rfl⟩] at hak
        cases hak
      simp [hno]
  | ok aks =>
      obtain ⟨hl, rfl⟩ := akeysFor_eq_ok.mp hak
      rw [repackHeader_framedHeader h]
      cases hp : packMeta (C.serialize mo.metadata) mo.byteArray.length stateCommitted with
      | error e =>
          have hno : ¬ (headerOf C mo).Packable := by
            intro hpk
            rw [packMeta_eq_ok.mpr ⟨hpk, rfl⟩] at hp
            cases hp
          simp [hno]
      | ok hdr =>
          obtain ⟨hpk, rfl⟩ := packMeta_eq_ok.mp hp
          rw [Except.ok.injEq]
          exact ⟨fun heq => ⟨⟨hl, hpk⟩, heq.symm⟩, fun heq => heq.2.symm⟩

/-- A whole header reads back as the metadata of its object. -/
theorem parseAkey_header {C : Codec τ} {mo : MemoryObj τ} (hpk : (headerOf C mo).Packable)
    (hcodec : C.deserialize (C.serialize mo.metadata) = some mo.metadata) :
    parseAkey C (header (headerOf C mo)) = some mo.metadata := by
  have hparse : parseHeader (header (headerOf C mo) ++ []) true = .ok (headerOf C mo) :=
    parseHeader_header hpk [] fun _ => rfl
  rw [List.append_nil] at hparse
  have hlen : (header (headerOf C mo)).length ≠ 0 := by
    rw [length_header]
    show 36 + _ ≠ 0
    omega
  have hmeta : C.deserialize (headerOf C mo).metadata = some mo.metadata := hcodec
  simp only [parseAkey, if_neg hlen, parseMeta, hparse, hmeta]
  rw [if_neg]
  exact Nat.lt_irrefl _

end LmcacheDaos.Connector
