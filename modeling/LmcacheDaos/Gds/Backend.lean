import LmcacheDaos.Lib.Machine
import LmcacheDaos.Serde.V2

/-!
# The GDS backend on one key

`DaosGdsBackend` (`gds_backend.py`): `_put_one`, `get_blocking`, `remove` and
`contains` of one key, from any number of threads in any number of processes
that share the container. A thread's step is one storage call, one critical
section of `_known_lock`, or one DFS chunk of a write becoming visible. Chunks
of the header page may still be on their way when its write returns; what was
written is visible once `close_obj` has returned.

`_put_one` writes a committed header and the payload to a temporary name and
then moves that name onto the final one. A writer that dies stops where it is;
one that fails returns, and its temporary file stays.
-/

namespace LmcacheDaos.Gds

open Lib

/-- What a memory object carries besides its bytes. -/
structure ObjMeta where
  shapes : List (List ℕ)
  /-- names of the torch dtypes, without the `torch.` prefix -/
  dtypes : List String
  fmt : ℕ
deriving DecidableEq, Repr

/-- `json.dumps` of a list, with the separators `_meta_pack` asks for. -/
def jsonList (items : List (List Char)) : List Char :=
  '[' :: (List.intercalate [','] items) ++ [']']

/-- `json.dumps` of a string without characters that need escaping. -/
def jsonString (s : String) : List Char := '"' :: s.toList ++ ['"']

/-- `_meta_pack`, encoded. -/
def metaPack (length : ℕ) (m : ObjMeta) : Bytes :=
  let shape := fun s : List ℕ => jsonList (s.map (Nat.toDigits 10))
  let fields := [
    jsonString "length" ++ ':' :: Nat.toDigits 10 length,
    jsonString "shapes" ++ ':' :: jsonList (m.shapes.map shape),
    jsonString "dtypes" ++ ':' :: jsonList (m.dtypes.map jsonString),
    jsonString "fmt" ++ ':' :: Nat.toDigits 10 m.fmt]
  ('\x7b' :: (List.intercalate [','] fields) ++ ['\x7d']).map fun c => UInt8.ofNat c.toNat

/-- A backend on a container, seen at one key. `_meta_unpack` (`json.loads` and
the torch names) and the size of an object of given shapes and dtypes come from
outside. -/
structure Backend where
  /-- `_path(key)` -/
  final : String
  chunkSize : ℕ
  chunk_pos : 0 < chunkSize
  /-- `_meta_unpack`; nothing when it raises. It goes through `json.loads`, the
  dtype names of torch and `MemoryFormat`; what it gives for the pages of the
  backend's own writers is assumed where it matters (`Lossless`) -/
  metaUnpack : Bytes → Option (ℕ × ObjMeta)
  /-- `get_size()` of an object allocated for this metadata -/
  objSize : ObjMeta → ℕ

/-- The arguments of one `_put_one`, with its process and the nonce it draws. -/
structure Put where
  proc : ℕ
  payload : Bytes
  metadata : ObjMeta
  nonce : String
deriving DecidableEq, Repr

/-- The temporary name of a writer. -/
def tmp (B : Backend) (w : Put) : String := Serde.tempPath B.final w.nonce

/-- The header page of a writer. -/
def page (w : Put) : Except Serde.PackError Bytes :=
  Serde.packHeader (metaPack w.payload.length w.metadata) w.payload.length Serde.stateCommitted

structure Shared where
  fs : Dfs
  /-- the processes whose `_known` has the key -/
  known : List ℕ
  /-- writers that opened their temporary file (not kept by the code) -/
  writers : List Put

/-! ## Local states -/

inductive ContainsPc where
  /-- about to look into `_known` -/
  | check
  | stat
  /-- the object is there: about to note it in `_known` -/
  | note
  | answer (present : Bool)
deriving DecidableEq, Repr

inductive PutPc where
  | contains (pc : ContainsPc)
  | openTmp
  /-- inside `write_obj_from` of the page -/
  | header (h : Handle) (page : Bytes) (pending : List ℕ)
  /-- inside `write_gpu_from`; chunks of the page may still be on their way -/
  | payload (h : Handle) (page : Bytes) (pagePending pending : List ℕ)
  /-- closed and complete, about to look up the root and move -/
  | publish (h : Handle)
  /-- moved, about to note it in `_known` -/
  | note
  | done
  | dead
deriving DecidableEq, Repr

/-- What `get_blocking` ends with. -/
inductive GetResult where
  | none
  | raised
  | obj (bytes : Bytes) (metadata : ObjMeta)
deriving DecidableEq, Repr

inductive GetPc where
  | openRdonly
  | header (h : Handle)
  /-- about to unpack the metadata and allocate -/
  | alloc (h : Handle) (hdr : Serde.Header)
  | payload (h : Handle) (hdr : Serde.Header) (m : ObjMeta)
  | note (bytes : Bytes) (m : ObjMeta)
  | got (r : GetResult)
deriving DecidableEq, Repr

inductive RemovePc where
  | discard
  | remove
  | removed
deriving DecidableEq, Repr

inductive Proc where
  | put (w : Put) (pc : PutPc)
  | get (proc : ℕ) (pc : GetPc)
  | remove (proc : ℕ) (pc : RemovePc)
  | contains (proc : ℕ) (pc : ContainsPc)
deriving DecidableEq, Repr

inductive Call where
  | put (w : Put)
  | get (proc : ℕ)
  | remove (proc : ℕ)
  | contains (proc : ℕ)
deriving DecidableEq, Repr

def entry : Call → Proc
  | .put w => .put w (.contains .check)
  | .get proc => .get proc .openRdonly
  | .remove proc => .remove proc .discard
  | .contains proc => .contains proc .check

inductive Act where
  /-- the next call or critical section, with its normal outcome -/
  | next
  /-- chunk `k` of the page, or of the payload, becomes visible -/
  | landPage (k : ℕ)
  | landPayload (k : ℕ)
  /-- the payload write returns `m` bytes, fewer than asked -/
  | short (m : ℕ)
  /-- the allocator has no room -/
  | allocFail
  /-- the current call raises -/
  | fail
  | die
deriving DecidableEq, Repr

/-! ## Steps -/

/-- `contains`: `_known`, then `stat_size`, then `_known` again. A `stat` that
raises counts as absent. -/
def containsStep (B : Backend) (s : Shared) (proc : ℕ) : ContainsPc → Act →
    Option (Shared × ContainsPc)
  | .check, .next => some (s, if proc ∈ s.known then .answer true else .stat)
  | .stat, .next =>
      some (s, if (Dfs.statSize s.fs B.final).isSome then .note else .answer false)
  | .stat, .fail => some (s, .answer false)
  | .note, .next => some ({ s with known := proc :: s.known }, .answer true)
  | _, _ => none

/-- `_put_one` -/
def putStep (B : Backend) (s : Shared) (w : Put) : PutPc → Act → Option (Shared × PutPc)
  | .done, _ | .dead, _ => none
  | _, .die => some (s, .dead)
  | .contains (.answer true), .next => some (s, .done)
  | .contains (.answer false), .next => some (s, .openTmp)
  | .contains pc, a => (containsStep B s w.proc pc a).map fun r => (r.1, .contains r.2)
  | .openTmp, .next =>
      let r := Dfs.openRdwrCreate s.fs (tmp B w)
      let s' := { s with fs := r.1, writers := w :: s.writers }
      match page w with
      | .ok pg => some (s', .header r.2 pg (SparseFile.chunksOf B.chunkSize 0 pg.length))
      | .error _ => some (s', .done)
  | .header h pg pending, .landPage k =>
      if k ∈ pending then
        some ({ s with fs := Dfs.landChunk s.fs B.chunkSize h 0 pg k },
          .header h pg (pending.erase k))
      else none
  | .header h pg pending, .next => some (s, .payload h pg pending
      (SparseFile.chunksOf B.chunkSize Serde.payloadOffset w.payload.length))
  | .payload h pg pagePending pending, .landPage k =>
      if k ∈ pagePending then
        some ({ s with fs := Dfs.landChunk s.fs B.chunkSize h 0 pg k },
          .payload h pg (pagePending.erase k) pending)
      else none
  | .payload h pg pagePending pending, .landPayload k =>
      if k ∈ pending then
        some ({ s with fs := Dfs.landChunk s.fs B.chunkSize h Serde.payloadOffset w.payload k },
          .payload h pg pagePending (pending.erase k))
      else none
  | .payload h _ pagePending pending, .next =>
      if pagePending = [] ∧ pending = [] then some (s, .publish h) else none
  | .payload _ _ _ _, .short m => if m < w.payload.length then some (s, .done) else none
  | .publish _, .next => match s.fs.names (tmp B w) with
      | some _ => some ({ s with fs := s.fs.rename (tmp B w) B.final }, .note)
      | none => some (s, .done)
  | .note, .next => some ({ s with known := w.proc :: s.known }, .done)
  | _, .fail => some (s, .done)
  | _, _ => none

/-- `get_blocking`. Only the open lets an error out; later ones are misses. -/
def getStep (B : Backend) (s : Shared) (proc : ℕ) : GetPc → Act → Option (Shared × GetPc)
  | .openRdonly, .next => match Dfs.openRdonly s.fs B.final with
      | .ok h => some (s, .header h)
      | .error _ => some (s, .got .none)
  | .openRdonly, .fail => some (s, .got .raised)
  | .header h, .next =>
      match Serde.parseHeader (Dfs.readObj s.fs h 0 Serde.headerSize) true with
      | .ok hdr => some (s, .alloc h hdr)
      | .error _ => some (s, .got .none)
  | .alloc h hdr, .next => match B.metaUnpack hdr.metadata with
      | some (_, m) =>
          if hdr.payloadLen = B.objSize m then some (s, .payload h hdr m)
          else some (s, .got .none)
      | none => some (s, .got .none)
  | .payload h hdr m, .next =>
      let got := Dfs.readObj s.fs h Serde.payloadOffset hdr.payloadLen
      some (s, if got.length = hdr.payloadLen then .note got m else .got .none)
  | .note bytes m, .next => some ({ s with known := proc :: s.known }, .got (.obj bytes m))
  | .alloc _ _, .allocFail => some (s, .got .none)
  | .header _, .fail | .alloc _ _, .fail | .payload _ _ _, .fail => some (s, .got .none)
  | _, _ => none

/-- `remove`: forget the key, then remove the file. -/
def removeStep (B : Backend) (s : Shared) (proc : ℕ) : RemovePc → Act → Option (Shared × RemovePc)
  | .discard, .next => some ({ s with known := s.known.filter (· ≠ proc) }, .remove)
  | .remove, .next => some ({ s with fs := (Dfs.remove s.fs B.final).1 }, .removed)
  | .remove, .fail => some (s, .removed)
  | _, _ => none

def step (B : Backend) (s : Shared) : Proc → Act → Option (Shared × Proc)
  | .put w pc, a => (putStep B s w pc a).map fun r => (r.1, .put w r.2)
  | .get proc pc, a => (getStep B s proc pc a).map fun r => (r.1, .get proc r.2)
  | .remove proc pc, a => (removeStep B s proc pc a).map fun r => (r.1, .remove proc r.2)
  | .contains proc pc, a => (containsStep B s proc pc a).map fun r => (r.1, .contains proc r.2)

/-- The storage gives up an object that has no name any more. -/
inductive Env where
  | reclaim (h : Handle) (size : ℕ)
deriving DecidableEq, Repr

def envStep (s : Shared) : Env → Option Shared
  | .reclaim h m => (Dfs.reclaim s.fs h m).map fun fs => { s with fs := fs }

def initialShared : Shared := ⟨FileStore.empty, [], []⟩

def threads (B : Backend) : Threads Shared Proc Call Act Env where
  Init s := s = initialShared
  entry := entry
  step := step B
  envStep := envStep

abbrev St := ThreadState Shared Proc

abbrev Lbl := ThreadLbl Call Act Env

def machine (B : Backend) : Machine St Lbl := (threads B).machine

def initial : St := ⟨initialShared, []⟩

theorem init_initial (B : Backend) : (machine B).Init initial := ⟨rfl, rfl⟩

/-! ## The steps of `_put_one`, by what they do to the files -/

/-- The call has not returned and its writer is alive. -/
def live : PutPc → Bool
  | .done | .dead => false
  | _ => true

/-- The call holds its temporary file. -/
def holds : PutPc → Bool
  | .header _ _ _ | .payload _ _ _ _ | .publish _ => true
  | _ => false

/-- `putStep` read as a relation; a `quiet` step does not touch the files and
holds none afterwards. -/
inductive PutMove (B : Backend) (s : Shared) (w : Put) : PutPc → Shared → PutPc → Prop where
  | quiet {pc s' pc'} (hfs : s'.fs = s.fs) (hw : s'.writers = s.writers)
      (hidle : holds pc' = false) : PutMove B s w pc s' pc'
  | openTmp {pg} (hpage : page w = .ok pg) : PutMove B s w .openTmp
      { s with fs := (s.fs.openCreate (tmp B w)).1, writers := w :: s.writers }
      (.header (s.fs.openCreate (tmp B w)).2 pg (SparseFile.chunksOf B.chunkSize 0 pg.length))
  | openBad : PutMove B s w .openTmp
      { s with fs := (s.fs.openCreate (tmp B w)).1, writers := w :: s.writers } .done
  | landPage {h pg pending k} : PutMove B s w (.header h pg pending)
      { s with fs := Dfs.landChunk s.fs B.chunkSize h 0 pg k } (.header h pg (pending.erase k))
  | pageWritten {h pg pending} : PutMove B s w (.header h pg pending) s (.payload h pg pending
      (SparseFile.chunksOf B.chunkSize Serde.payloadOffset w.payload.length))
  | landPageLate {h pg pagePending pending k} : PutMove B s w (.payload h pg pagePending pending)
      { s with fs := Dfs.landChunk s.fs B.chunkSize h 0 pg k }
      (.payload h pg (pagePending.erase k) pending)
  | landPayload {h pg pagePending pending k} : PutMove B s w (.payload h pg pagePending pending)
      { s with fs := Dfs.landChunk s.fs B.chunkSize h Serde.payloadOffset w.payload k }
      (.payload h pg pagePending (pending.erase k))
  | close {h pg} : PutMove B s w (.payload h pg [] []) s (.publish h)
  | publish {h i} (hn : s.fs.names (tmp B w) = some i) : PutMove B s w (.publish h)
      { s with fs := s.fs.rename (tmp B w) B.final } .note

theorem containsStep_frame {B : Backend} {s s' : Shared} {proc : ℕ} {pc pc' : ContainsPc} {a : Act}
    (h : containsStep B s proc pc a = some (s', pc')) :
    s'.fs = s.fs ∧ s'.writers = s.writers := by
  unfold containsStep at h
  split at h <;> cases h <;> exact ⟨rfl, rfl⟩

theorem putStep_cases {B : Backend} {s s' : Shared} {w : Put} {pc pc' : PutPc} {a : Act}
    (h : putStep B s w pc a = some (s', pc')) : PutMove B s w pc s' pc' := by
  unfold putStep at h
  split at h
  · cases h
  · cases h
  · cases h
    exact .quiet rfl rfl rfl
  · -- `contains` has answered: the put ends here, or goes on
    cases h
    exact .quiet rfl rfl rfl
  · cases h
    exact .quiet rfl rfl rfl
  · -- `contains`, which touches `_known` alone
    obtain ⟨⟨t, c⟩, hc, h⟩ := Option.map_eq_some_iff.mp h
    cases h
    obtain ⟨hfs, hw⟩ := containsStep_frame hc
    exact .quiet hfs hw rfl
  · -- the page packs or the put raises; the file is open either way
    simp only at h
    split at h
    · cases h
      exact .openTmp ‹_›
    · cases h
      exact .openBad
  · -- chunks of the page may land until the file is closed
    split at h
    · cases h
      exact .landPage
    · cases h
  · cases h
    exact .pageWritten
  · split at h
    · cases h
      exact .landPageLate
    · cases h
  · -- a chunk of the payload
    split at h
    · cases h
      exact .landPayload
    · cases h
  · -- nothing is pending any more, so the file is closed
    split at h
    · rename_i hdone
      obtain ⟨rfl, rfl⟩ := hdone
      cases h
      exact .close
    · cases h
  · split at h
    · cases h
      exact .quiet rfl rfl rfl
    · cases h
  · -- the rename; without a temporary file it raises and nothing changes
    split at h
    · cases h
      exact .publish ‹_›
    · cases h
      exact .quiet rfl rfl rfl
  · cases h
    exact .quiet rfl rfl rfl
  · cases h
    exact .quiet rfl rfl rfl
  · cases h

/-- A call that has returned, or whose writer died, takes no further step. -/
theorem live_of_putStep {B : Backend} {s s' : Shared} {w : Put} {pc pc' : PutPc} {a : Act}
    (h : putStep B s w pc a = some (s', pc')) : live pc = true := by
  cases pc with
  | done => cases h
  | dead => cases h
  | _ => rfl

end LmcacheDaos.Gds
