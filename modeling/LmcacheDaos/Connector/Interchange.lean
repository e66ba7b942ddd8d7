import LmcacheDaos.Connector.Isolation

/-!
# The two backends under whole-chunk keys

A history of `put`, `batched_put`, `get`, `batched_get`, `exists` and
`remove_sync` over one connector. `Contents` is what such a store is for: the
object last put under each key. Files and akeys both keep it (`Stored`), and
every call answers from it (`Call.run_stored`), down to the buffer a read is
given, so the answers of DFS and of the object API are the same.

One is not: `_remove_one` on the object API punches and returns True without
looking, where `DfsSys.remove` reports whether there was a file. The backends
are interchangeable over exactly the histories that remove only what is there.
-/

namespace LmcacheDaos.Connector

open Lib Serde

variable {τ : Type} {alloc : Allocator τ} {C : Codec τ}

/-! ## Histories -/

inductive Call (τ : Type) where
  /-- `put` and `batched_put` -/
  | write (r : Request τ)
  | get (key : Key)
  | batchedGet (keys : List Key)
  /-- `exists` -/
  | existsKey (key : Key)
  | removeSync (key : Key)

inductive Answer (τ : Type) where
  | done (r : Except Err Unit)
  | object (r : Except Err (Option (MemoryObj τ)))
  | objects (rs : List (Option (MemoryObj τ)))
  | flag (r : Except Err Bool)
deriving DecidableEq

/-- A call by itself, on fault-free storage. -/
def Call.run (alloc : Allocator τ) (C : Codec τ) (raw : Bool) (w : World τ) :
    Call τ → Answer τ × World τ
  | .write r => (exec alloc (r.run C raw) w).map .done id
  | .get key => (exec alloc (Connector.get C raw key) w).map .object id
  | .batchedGet keys => (exec alloc (Connector.batchedGet C raw keys) w).map .objects id
  | .existsKey key => (exec alloc (existsSync (addr raw key)) w).map .flag id
  | .removeSync key => (exec alloc (removeOne (addr raw key)) w).map .flag id

/-- What the calls return, one after the other. -/
def trace (alloc : Allocator τ) (C : Codec τ) (raw : Bool) : World τ → List (Call τ) → List
    (Answer τ)
  | _, [] => []
  | w, c :: cs => (c.run alloc C raw w).1 :: trace alloc C raw (c.run alloc C raw w).2 cs

/-- An empty container. -/
def freshWorld : World τ := ⟨FileStore.empty, fun _ _ => [], 0, []⟩

/-- The object last put under each key. -/
abbrev Contents (τ : Type) := Key → Option (MemoryObj τ)

def Contents.put (S : Contents τ) (e : Key × MemoryObj τ) : Contents τ :=
  Function.update S e.1 (some e.2)

def Call.effect (S : Contents τ) : Call τ → Contents τ
  | .write r => r.entries.foldl Contents.put S
  | .removeSync key => Function.update S key none
  | _ => S

/-- What a history leaves, from an empty container on. -/
def contents (cs : List (Call τ)) : Contents τ := cs.foldl Call.effect fun _ => none

/-- Every `remove_sync` of the history is of a key that is there. -/
def RemovesPresent (cs : List (Call τ)) : Prop :=
  ∀ bs key rest, cs = bs ++ .removeSync key :: rest → (contents bs key).isSome = true

def Call.keys : Call τ → List Key
  | .write r => r.entries.map Prod.fst
  | .batchedGet keys => keys
  | .get key | .existsKey key | .removeSync key => [key]

def Call.objects : Call τ → List (MemoryObj τ)
  | .write r => r.entries.map Prod.snd
  | _ => []

/-- Objects that both backends take and give back. -/
structure Storable (C : Codec τ) (mo : MemoryObj τ) : Prop where
  metadata : metaLen C mo ≤ hdrCap
  nonempty : mo.byteArray ≠ []
  payload : mo.byteArray.length < 2 ^ 32
  lossless : Lossless C mo

/-- Whole-chunk keys with distinct hashes. -/
structure Chunks (K : Key → Prop) : Prop where
  whole : ∀ k, K k → k.layer = none
  hashes : ∀ k k', K k → K k' → dkeyForStr k.str = dkeyForStr k'.str → k = k'

/-- The histories the two backends are meant for. -/
structure Admissible (C : Codec τ) (cs : List (Call τ)) : Prop where
  chunks : Chunks fun k => ∃ c ∈ cs, k ∈ c.keys
  objects : ∀ c ∈ cs, ∀ mo ∈ c.objects, Storable C mo

/-- The key whose presence a call reports. -/
def Call.reports : Call τ → Option Key
  | .existsKey key | .removeSync key => some key
  | _ => none

/-- Both backends return the same at every step, and `exists` and `remove_sync`
return whether the key is there. -/
structure Interchangeable (alloc : Allocator τ) (C : Codec τ) (cs : List (Call τ)) : Prop where
  same : trace alloc C false freshWorld cs = trace alloc C true freshWorld cs
  flags : ∀ raw bs c rest key, cs = bs ++ c :: rest → c.reports = some key →
    (trace alloc C raw freshWorld cs)[bs.length]? = some (.flag (.ok (contents bs key).isSome))

/-! ## What is under the keys -/

def Absent (w : World τ) : Addr → Prop
  | .raw a => metaAt w.obj a = []
  | .path p => w.dfs.content p = none

def Under (C : Codec τ) (w : World τ) (a : Addr) : Option (MemoryObj τ) → Prop
  | none => Absent w a
  | some mo => Holds C w mo a ∧ Storable C mo

/-- The container has the contents, as far as the keys in `K` go. -/
def Stored (C : Codec τ) (raw : Bool) (K : Key → Prop) (S : Contents τ) (w : World τ) : Prop :=
  ∀ k, K k → Under C w (addr raw k) (S k)

/-- A fresh world holds nothing. -/
theorem stored_fresh (C : Codec τ) (raw : Bool) (K : Key → Prop) :
    Stored C raw K (fun _ => none) (freshWorld (τ := τ)) := by
  intro k _
  cases raw <;> rfl

/-- Absence depends on what is stored at the address only. -/
theorem Absent.congr {w w' : World τ} {a : Addr} (h : Absent w a)
    (hsame : Connector.stored w' a = Connector.stored w a) : Absent w' a := by
  cases a with
  | raw a => exact (Option.some.inj (List.cons.inj hsame).1).trans h
  | path p => exact (List.cons.inj hsame).1.trans h

/-- So does what an address holds. -/
theorem Under.congr {w w' : World τ} {a : Addr} {v : Option (MemoryObj τ)} (h : Under C w a v)
    (hsame : Connector.stored w' a = Connector.stored w a) : Under C w' a v := by
  cases v with
  | none => exact Absent.congr h hsame
  | some mo => exact ⟨h.1.congr hsame, h.2⟩

/-- A call that leaves the other keys alone. -/
def Elsewhere (raw : Bool) (K : Key → Prop) (key : Key) (w w' : World τ) : Prop :=
  w'.allocs = w.allocs ∧
    ∀ k, K k → k ≠ key → Connector.stored w' (addr raw k) = Connector.stored w (addr raw k)

/-- One key gets a new value, the others keep theirs. -/
theorem Stored.update {raw : Bool} {K : Key → Prop} {S : Contents τ} {w w' : World τ} {key : Key}
    {v : Option (MemoryObj τ)} (h : Stored C raw K S w) (hnew : Under C w' (addr raw key) v)
    (hother : Elsewhere raw K key w w') : Stored C raw K (Function.update S key v) w' := by
  intro k hk
  by_cases hkey : k = key
  · subst hkey
    rw [Function.update_self]
    exact hnew
  · rw [Function.update_of_ne hkey]
    exact (h k hk).congr (hother.2 k hk hkey)

/-! ## Each call against the contents -/

/-- A storable object has a frame. -/
theorem Storable.framable {mo : MemoryObj τ} (h : Storable C mo) : Framable C mo :=
  ⟨Nat.lt_of_le_of_lt h.metadata (by decide), h.payload⟩

/-- Its header fits a page. -/
theorem Storable.packable {mo : MemoryObj τ} (h : Storable C mo) : (headerOf C mo).Packable :=
  (packable_iff h.payload).mpr (Nat.le_trans h.metadata (by decide))

/-- A program that spares the akeys of the other chunks. -/
theorem elsewhere_of_spares {α : Type} {K : Key → Prop} {p : Program (Op τ) Ans α} {key : Key}
    (hp : ∀ k, K k → k ≠ key → p.OnlyCalls (Op.Spares (rawAddr k))) {w w' : World τ}
    {r : α} (hexec : exec alloc p w = (r, w')) (hallocs : w'.allocs = w.allocs) :
    Elsewhere true K key w w' := by
  refine ⟨hallocs, fun k hk hne => ?_⟩
  have hsame := looksSame_of_spares alloc (hp k hk hne) w
  rw [hexec] at hsame
  exact stored_raw_eq hsame.metadata hsame.payload

/-- A file that is not there. -/
theorem exec_getDfs_of_absent {path : String} {w : World τ} (h : Absent w (.path path)) :
    exec alloc (getDfs C path) w = (.ok none, w) := by
  have hname : w.dfs.names path = none := Option.map_eq_none_iff.mp h
  have hopen : w.dfs.openRdonly path = .error enoent := by rw [Dfs.openRdonly, hname]
  rw [getDfs, exec_call]
  simp only [handler, hopen, if_true, exec_ret]

/-- An akey that is not there. -/
theorem exec_getRaw_of_absent {a : RawAddr} (hl : LayerOk a.layer) {w : World τ}
    (h : Absent w (.raw a)) : exec alloc (getRaw C a) w = (.ok none, w) := by
  have hmeta : metaAt w.obj a = [] := h
  have hparse : parseAkey C (metaAt w.obj a) = none := by
    rw [hmeta]
    rfl
  have hfits : Fits (metaAt w.obj a) := by
    rw [hmeta]
    exact Nat.zero_le _
  have had : Adequate alloc C (metaAt w.obj a) := by
    intro m hm
    rw [hparse] at hm
    cases hm
  rw [exec_getRaw hl hfits had]
  simp [readLayer, hparse, World.read]

/-- What a read of a key returns after `c` requests for buffers, and their
number after it. -/
def readBack (alloc : Allocator τ) (S : Contents τ) (c : ℕ) (key : Key) :
    Except Err (Option (MemoryObj τ)) × ℕ :=
  match S key with
  | none => (.ok none, c)
  | some mo => (fetched alloc c mo, c + 1)

def readBackAll (alloc : Allocator τ) (S : Contents τ) : ℕ → List Key →
    List (Except Err (Option (MemoryObj τ))) × ℕ
  | c, [] => ([], c)
  | c, k :: ks =>
      let r := readBack alloc S c k
      let rs := readBackAll alloc S r.2 ks
      (r.1 :: rs.1, rs.2)

/-- What a call answers by the contents, and the number of buffers asked for so
far; the object API removes without looking. -/
def Call.answer (alloc : Allocator τ) (raw : Bool) (S : Contents τ) (c : ℕ) : Call τ → Answer τ × ℕ
  | .write _ => (.done (.ok ()), c)
  | .get key => (readBack alloc S c key).map .object id
  | .batchedGet keys => (readBackAll alloc S c keys).map (fun rs => .objects (rs.map resultOf)) id
  | .existsKey key => (.flag (.ok (S key).isSome), c)
  | .removeSync key => (.flag (.ok (raw || (S key).isSome)), c)

def answers (alloc : Allocator τ) (raw : Bool) : Contents τ → ℕ → List (Call τ) → List (Answer τ)
  | _, _, [] => []
  | S, c, call :: cs => (call.answer alloc raw S c).1 ::
      answers alloc raw (call.effect S) (call.answer alloc raw S c).2 cs

section Chunks

variable {K : Key → Prop} (hK : Chunks K)

include hK

/-- Whole chunks have an address without a layer. -/
theorem Chunks.rawAddr_eq {k : Key} (hk : K k) : rawAddr k = ⟨dkeyForStr k.str, none⟩ := by
  have hlayer := hK.whole k hk
  rw [rawAddr, chunkStr, hlayer]
  rfl

/-- Different chunks have different dkeys. -/
theorem Chunks.dkey_ne {k k' : Key} (hk : K k) (hk' : K k') (hne : k ≠ k') :
    (rawAddr k).dkey ≠ (rawAddr k').dkey := by
  rw [hK.rawAddr_eq hk, hK.rawAddr_eq hk']
  exact fun heq => hne (hK.hashes k k' hk hk' heq)

/-- So they have different addresses. -/
theorem Chunks.rawAddr_ne {k k' : Key} (hk : K k) (hk' : K k') (hne : k ≠ k') :
    rawAddr k ≠ rawAddr k' :=
  fun heq => hK.dkey_ne hk hk' hne (congrArg RawAddr.dkey heq)

/-- Different chunks have different paths. -/
theorem Chunks.path_ne {k k' : Key} (hk : K k) (hk' : K k') (hne : k ≠ k') :
    keyToPath k ≠ keyToPath k' := by
  intro heq
  have hlist := congrArg String.toList heq
  rw [keyToPath, keyToPath, String.toList_append, String.toList_append,
    List.append_cancel_left_eq, String.toList_ofList, String.toList_ofList] at hlist
  exact hne (hK.hashes k k' hk hk' (Mp.hexBytes_injective hlist))

/-- Addresses without a layer have akeys. -/
theorem Chunks.layerOk {k : Key} (hk : K k) : LayerOk (rawAddr k).layer := by
  rw [hK.rawAddr_eq hk]
  intro i hi
  cases hi

/-- Whole chunks are never folded. -/
theorem Chunks.unfolded {keys : List Key} (hkeys : ∀ k ∈ keys, K k) (raw : Bool) :
    foldedGroups raw keys = none := by
  cases raw with
  | false => rfl
  | true =>
      cases keys with
      | nil => rfl
      | cons k ks =>
          have hlayer : (rawAddr k).layer = none := hK.whole k (hkeys k List.mem_cons_self)
          simp only [foldedGroups, groupLayers, List.map_cons, groupFrom, hlayer]
          rfl

/-- `_put_sync` -/
theorem exec_putSync_chunk (alloc : Allocator τ) {key : Key} (hkey : K key) {mo : MemoryObj τ}
    (hmo : Storable C mo)
    (raw : Bool) (w : World τ) : ∃ w', exec alloc (putSync (addr raw key) (preppedOf C mo)) w =
      (.ok (), w') ∧ Holds C w' mo (addr raw key) ∧ Elsewhere raw K key w w' := by
  cases raw with
  | true =>
      -- payload akey, then metadata akey
      have hl := hK.layerOk hkey
      have hexec := (commits_putRaw alloc (a := rawAddr key) hmo.framable hl).accepts
        (fun e he => by rw [List.mem_singleton.mp he]; exact hmo.packable) w
      refine ⟨_, hexec, holds_of_storeAll (distinct_singleton hl mo) (.head _) w, ?_⟩
      refine elsewhere_of_spares (fun k hk hne => ?_) hexec rfl
      exact spares_putRaw (hK.layerOk hk) (hK.rawAddr_ne hkey hk (Ne.symm hne)) _
  | false =>
      -- in place: what an earlier, longer object left behind stays past the end
      refine ⟨_, exec_putDfs (keyToPath key) (preppedOf C mo) w,
        putFile_self C w.dfs (keyToPath key, mo), rfl, fun k hk hne => ?_⟩
      have hother := putFile_other C w.dfs (keyToPath key, mo) (hK.path_ne hk hkey hne)
      exact congrArg (fun f => [f]) hother

/-- `_remove_one`: the object API does not look. -/
theorem exec_removeOne_chunk (alloc : Allocator τ) {key : Key} (hkey : K key) {raw : Bool}
    {S : Contents τ} {w : World τ}
    (h : Stored C raw K S w) : ∃ w', exec alloc (removeOne (addr raw key)) w =
      (.ok (raw || (S key).isSome), w') ∧ Absent w' (addr raw key) ∧ Elsewhere raw K key w w' := by
  cases raw with
  | true =>
      have haddr : addr true key = .raw ⟨dkeyForStr key.str, none⟩ :=
        congrArg Addr.raw (hK.rawAddr_eq hkey)
      have hexec : exec alloc (removeOne (addr true key)) w =
          (.ok true, { w with obj := w.obj.punch (dkeyForStr key.str) }) := by
        rw [haddr]
        rfl
      refine ⟨_, hexec, ?_, ?_⟩
      · -- a punched akey holds nothing
        rw [haddr]
        show w.obj.punch (dkeyForStr key.str) (dkeyForStr key.str) _ = []
        rw [ObjStore.punch, Function.update_self]
      · refine elsewhere_of_spares (fun k hk hne => ?_) hexec rfl
        exact spares_removeOne (hK.layerOk hk) (hK.rawAddr_ne hkey hk (Ne.symm hne))
          fun _ => hK.dkey_ne hkey hk (Ne.symm hne)
  | false =>
      have hunder : Under C w (.path (keyToPath key)) (S key) := h key hkey
      cases hS : S key with
      | none =>
          rw [hS] at hunder
          have hname : w.dfs.names (keyToPath key) = none := Option.map_eq_none_iff.mp hunder
          have hremove : w.dfs.remove (keyToPath key) = (w.dfs, false) := by
            rw [Dfs.remove, hname]
          refine ⟨w, ?_, hunder, rfl, fun _ _ _ => rfl⟩
          show (Except.mapError Err.daos (.ok (w.dfs.remove (keyToPath key)).2),
            { w with dfs := (w.dfs.remove (keyToPath key)).1 }) = _
          rw [hremove]
          rfl
      | some mo =>
          rw [hS] at hunder
          obtain ⟨f, hcontent, -⟩ := hunder.1
          obtain ⟨i, hname, -⟩ := Option.map_eq_some_iff.mp hcontent
          have hremove : w.dfs.remove (keyToPath key) = (w.dfs.unlink (keyToPath key), true) := by
            rw [Dfs.remove, hname]
          refine ⟨{ w with dfs := w.dfs.unlink (keyToPath key) }, ?_, ?_, rfl, fun k hk hne => ?_⟩
          · show (Except.mapError Err.daos (.ok (w.dfs.remove (keyToPath key)).2),
              { w with dfs := (w.dfs.remove (keyToPath key)).1 }) = _
            rw [hremove]
            rfl
          · show Option.map _ ((w.dfs.unlink (keyToPath key)).names (keyToPath key)) = none
            rw [FileStore.unlink_names_self]
            rfl
          · have hother := (FileStore.sameAt_unlink w.dfs (hK.path_ne hk hkey hne)).content
            exact congrArg (fun f => [f]) hother

/-- `_get_sync` -/
theorem exec_getSync_chunk (alloc : Allocator τ) {key : Key} (hkey : K key) {raw : Bool}
    {S : Contents τ} {w : World τ}
    (h : Stored C raw K S w) : exec alloc (getSync C (addr raw key)) w =
      ((readBack alloc S w.allocs key).1,
        { w with allocs := (readBack alloc S w.allocs key).2 }) := by
  have hunder := h key hkey
  cases hS : S key with
  | none =>
      rw [hS] at hunder
      simp only [readBack, hS]
      cases raw with
      | true => exact exec_getRaw_of_absent (hK.layerOk hkey) hunder
      | false => exact exec_getDfs_of_absent hunder
  | some mo =>
      rw [hS] at hunder
      obtain ⟨hholds, hmo⟩ := hunder
      simp only [readBack, hS]
      cases raw with
      | true =>
          exact exec_getRaw_of_holds hmo.packable hmo.lossless (hK.layerOk hkey) hholds
            ((fits_of_holds hholds).mpr hmo.metadata)
      | false => exact exec_getDfs alloc hmo.framable hmo.lossless hholds

/-- `_exists_sync` -/
theorem exec_existsSync_chunk (alloc : Allocator τ) {key : Key} (hkey : K key) {raw : Bool}
    {S : Contents τ} {w : World τ}
    (h : Stored C raw K S w) :
    exec alloc (existsSync (addr raw key)) w = (.ok (S key).isSome, w) := by
  have hunder := h key hkey
  cases raw with
  -- the metadata akey answers; with this object in it the fetch fits
  | true =>
      have hl := hK.layerOk hkey
      have hunder : Under C w (.raw (rawAddr key)) (S key) := hunder
      have hexec := exec_existsRaw alloc hl w
      cases hS : S key with
      | none =>
          rw [hS] at hunder
          have hmeta : metaAt w.obj (rawAddr key) = [] := hunder
          rw [hmeta] at hexec
          exact hexec
      | some mo =>
          rw [hS] at hunder
          have hfits := (fits_of_holds hunder.1).mpr hunder.2.metadata
          have hsame : (exec alloc (existsSync (.raw (rawAddr key))) w).2 = w := by rw [hexec]
          exact Prod.ext (existsRaw_of_holds hl hunder.1 hfits) hsame
  -- the path's entry in the namespace answers
  | false =>
      have hunder : Under C w (.path (keyToPath key)) (S key) := hunder
      cases hS : S key with
      | none =>
          rw [hS] at hunder
          have hname : w.dfs.names (keyToPath key) = none := Option.map_eq_none_iff.mp hunder
          show (Except.mapError Err.daos (.ok (w.dfs.names (keyToPath key)).isSome), w) = _
          rw [hname]
          rfl
      | some mo =>
          rw [hS] at hunder
          exact Prod.ext (existsDfs_of_holds hunder.1) rfl

/-- The reads of a batch, one after the other. -/
theorem exec_gather_gets (alloc : Allocator τ) {keys : List Key} (hkeys : ∀ k ∈ keys, K k)
    {raw : Bool} {S : Contents τ}
    {w : World τ} (h : Stored C raw K S w) :
    exec alloc (gather (keys.map fun k => getSync C (addr raw k))) w =
      ((readBackAll alloc S w.allocs keys).1,
        { w with allocs := (readBackAll alloc S w.allocs keys).2 }) := by
  induction keys generalizing w with
  | nil => rfl
  | cons k ks ih =>
      have hget := exec_getSync_chunk hK alloc (hkeys k List.mem_cons_self) h
      -- a read changes nothing that the next one looks at
      have hnext : Stored C raw K S { w with allocs := (readBack alloc S w.allocs k).2 } :=
        fun k' hk' => (h k' hk').congr (by cases raw <;> rfl)
      rw [List.map_cons, exec_gather_cons hget
        (ih (fun k' hk' => hkeys k' (List.mem_cons_of_mem _ hk')) hnext)]
      rfl

/-- A batched get answers from the contents, on both backends. -/
theorem exec_batchedGet_chunks (alloc : Allocator τ) {keys : List Key} (hkeys : ∀ k ∈ keys, K k)
    {raw : Bool}
    {S : Contents τ} {w : World τ} (h : Stored C raw K S w) :
    exec alloc (batchedGet C raw keys) w = ((readBackAll alloc S w.allocs keys).1.map resultOf,
      { w with allocs := (readBackAll alloc S w.allocs keys).2 }) := by
  rw [batchedGet, hK.unfolded hkeys raw]
  simp only [exec_map, exec_gather_gets hK alloc hkeys h]
  refine Prod.ext (List.map_congr_left fun r _ => ?_) rfl
  cases r <;> rfl

/-- The writes of a batch, one after the other. -/
theorem exec_gather_puts (alloc : Allocator τ) {es : List (Key × MemoryObj τ)}
    (hes : ∀ e ∈ es, K e.1 ∧ Storable C e.2) {raw : Bool} {S : Contents τ} {w : World τ}
    (h : Stored C raw K S w) : ∃ w',
      exec alloc (gather (es.map fun e => putSync (addr raw e.1) (preppedOf C e.2))) w =
        (es.map fun _ => .ok (), w') ∧
      w'.allocs = w.allocs ∧ Stored C raw K (es.foldl Contents.put S) w' := by
  induction es generalizing w S with
  | nil => exact ⟨w, rfl, rfl, h⟩
  | cons e es ih =>
      obtain ⟨hkey, hmo⟩ := hes e List.mem_cons_self
      obtain ⟨w₁, hput, hholds, hother⟩ := exec_putSync_chunk hK alloc hkey hmo raw w
      -- a key that comes twice holds what was put last
      have hstored : Stored C raw K (S.put e) w₁ := h.update ⟨hholds, hmo⟩ hother
      obtain ⟨w₂, hrest, hallocs, hfinal⟩ :=
        ih (fun e' he' => hes e' (List.mem_cons_of_mem _ he')) hstored
      refine ⟨w₂, ?_, hallocs.trans hother.1, hfinal⟩
      rw [List.map_cons, exec_gather_cons hput hrest]
      rfl

/-- The keys of the call are in `K`, and its objects can be stored. -/
structure Call.Over (C : Codec τ) (K : Key → Prop) (c : Call τ) : Prop where
  keys : ∀ k ∈ c.keys, K k
  objects : ∀ mo ∈ c.objects, Storable C mo

/-- `put` and `batched_put` store their objects. -/
theorem Request.run_stored (alloc : Allocator τ) {r : Request τ} (hr : (Call.write r).Over C K)
    {raw : Bool}
    {S : Contents τ} {w : World τ} (h : Stored C raw K S w) : ∃ w',
      exec alloc (r.run C raw) w = (.ok (), w') ∧ w'.allocs = w.allocs ∧
        Stored C raw K (r.entries.foldl Contents.put S) w' := by
  have hes : ∀ e ∈ r.entries, K e.1 ∧ Storable C e.2 := fun e he =>
    ⟨hr.keys e.1 (List.mem_map_of_mem he), hr.objects e.2 (List.mem_map_of_mem he)⟩
  cases r with
  -- one put is one write at the key's address
  | put key mo =>
      obtain ⟨hkey, hmo⟩ := hes (key, mo) List.mem_cons_self
      obtain ⟨w', hput, hholds, hother⟩ := exec_putSync_chunk hK alloc hkey hmo raw w
      refine ⟨w', ?_, hother.1, h.update ⟨hholds, hmo⟩ hother⟩
      rw [Request.run, Connector.put, prepWrite_eq_ok.mpr ⟨hmo.framable, rfl⟩]
      exact hput
  -- the writes are gathered, one call for each key, as no two keys share a chunk
  | batchedPut es =>
      have hes : ∀ e ∈ es, K e.1 ∧ Storable C e.2 := hes
      have hkeys : ∀ k ∈ es.map Prod.fst, K k := hr.keys
      obtain ⟨w', hputs, hallocs, hstored⟩ := exec_gather_puts hK alloc hes h
      refine ⟨w', ?_, hallocs, hstored⟩
      have hfr : ∀ mo ∈ es.map Prod.snd, Framable C mo := by
        intro mo hmo
        obtain ⟨e, he, rfl⟩ := List.mem_map.mp hmo
        exact (hes e he).2.framable
      have hcalls : (putCalls raw (es.map Prod.fst) ((es.map Prod.snd).map (preppedOf C))).map
          Prod.snd = es.map fun e => putSync (τ := τ) (addr raw e.1) (preppedOf C e.2) := by
        rw [putCalls_of_unfolded (hK.unfolded hkeys raw), List.zip_map', List.map_map]
        rfl
      rw [Request.run, Connector.batchedPut, mapM_prepWrite hfr]
      show exec alloc ((gather _).map _) w = _
      rw [exec_map, hcalls, hputs, firstError_map_ok]

/-- Every call answers from the contents and leaves what it does to them. -/
theorem Call.run_stored (alloc : Allocator τ) {c : Call τ} (hc : c.Over C K) {raw : Bool}
    {S : Contents τ} {w : World τ}
    (h : Stored C raw K S w) :
    (c.run alloc C raw w).1 = (c.answer alloc raw S w.allocs).1 ∧
      (c.run alloc C raw w).2.allocs = (c.answer alloc raw S w.allocs).2 ∧
      Stored C raw K (c.effect S) (c.run alloc C raw w).2 := by
  cases c with
  | write r =>
      obtain ⟨w', hexec, hallocs, hstored⟩ := Request.run_stored hK alloc hc h
      rw [Call.run, hexec]
      exact ⟨rfl, hallocs, hstored⟩
  | get key =>
      have hexec : exec alloc (Connector.get C raw key) w = _ :=
        exec_getSync_chunk hK alloc (hc.keys key List.mem_cons_self) h
      -- reads change no file and no akey, so what is stored stays
      rw [Call.run, hexec]
      exact ⟨rfl, rfl, fun k hk => (h k hk).congr (by cases raw <;> rfl)⟩
  | batchedGet keys =>
      have hkeys : ∀ k ∈ keys, K k := hc.keys
      rw [Call.run, exec_batchedGet_chunks hK alloc hkeys h]
      exact ⟨rfl, rfl, fun k hk => (h k hk).congr (by cases raw <;> rfl)⟩
  | existsKey key =>
      rw [Call.run, exec_existsSync_chunk hK alloc (hc.keys key List.mem_cons_self) h]
      exact ⟨rfl, rfl, h⟩
  | removeSync key =>
      obtain ⟨w', hexec, habsent, hother⟩ :=
        exec_removeOne_chunk hK alloc (hc.keys key List.mem_cons_self) h
      rw [Call.run, hexec]
      exact ⟨rfl, hother.1, h.update habsent hother⟩

/-- A whole history answers from the contents. -/
theorem trace_eq_answers (alloc : Allocator τ) {cs : List (Call τ)} (hcs : ∀ c ∈ cs, c.Over C K)
    {raw : Bool}
    {S : Contents τ} {w : World τ} (h : Stored C raw K S w) :
    trace alloc C raw w cs = answers alloc raw S w.allocs cs := by
  induction cs generalizing S w with
  | nil => rfl
  | cons c cs ih =>
      obtain ⟨hans, hallocs, hstored⟩ :=
        Call.run_stored hK alloc (hcs c List.mem_cons_self) h
      rw [trace, answers, hans, ih (fun c' hc' => hcs c' (List.mem_cons_of_mem _ hc')) hstored,
        hallocs]

end Chunks

/-! ## Interchangeability -/

/-- The answer of one call of a history. -/
theorem getElem?_answers (alloc : Allocator τ) (raw : Bool) (bs : List (Call τ)) (call : Call τ)
    (rest : List (Call τ)) (S : Contents τ) (c : ℕ) :
    ∃ c', (answers alloc raw S c (bs ++ call :: rest))[bs.length]? =
      some (call.answer alloc raw (bs.foldl Call.effect S) c').1 := by
  induction bs generalizing S c with
  | nil => exact ⟨c, rfl⟩
  | cons b bs ih => exact ih (b.effect S) (b.answer alloc raw S c).2

/-- The backends answer alike while they remove what is there. -/
theorem answers_eq {cs : List (Call τ)} {S : Contents τ}
    (h : ∀ bs key rest, cs = bs ++ .removeSync key :: rest →
      (bs.foldl Call.effect S key).isSome = true) (c : ℕ) :
    answers alloc false S c cs = answers alloc true S c cs := by
  induction cs generalizing S c with
  | nil => rfl
  | cons call cs ih =>
      -- only a removal looks at the backend
      have hcall : call.answer alloc false S c = call.answer alloc true S c := by
        cases call with
        | removeSync key =>
            have hpresent : (S key).isSome = true := h [] key cs rfl
            simp only [Call.answer, hpresent, Bool.or_true]
        | write r => rfl
        | get key => rfl
        | batchedGet keys => rfl
        | existsKey key => rfl
      have hrest : ∀ bs key rest, cs = bs ++ .removeSync key :: rest →
          (bs.foldl Call.effect (call.effect S) key).isSome = true := by
        intro bs key rest heq
        exact h (call :: bs) key rest (congrArg (call :: ·) heq)
      rw [answers, answers, hcall, ih hrest]

/-- The answers of a history are those of the abstract store. -/
theorem Admissible.trace_eq {cs : List (Call τ)} (h : Admissible C cs) (alloc : Allocator τ)
    (raw : Bool) :
    trace alloc C raw freshWorld cs = answers alloc raw (fun _ => none) 0 cs := by
  refine trace_eq_answers h.chunks alloc (fun c hc => ⟨fun k hk => ⟨c, hc, hk⟩, h.objects c hc⟩) ?_
  exact stored_fresh C raw _

/-- Over every history from an empty container: the backends return the same at
every step, and `exists` and `remove_sync` report what is there, if and only if
the history removes only what is there. -/
theorem interchangeable_iff_removes_present {cs : List (Call τ)} (h : Admissible C cs) :
    Interchangeable alloc C cs ↔ RemovesPresent cs := by
  constructor
  · intro hsame bs key rest heq
    -- the object API answers True here
    have hflag := hsame.flags true bs _ rest key heq rfl
    obtain ⟨c, hans⟩ := getElem?_answers alloc true bs (.removeSync key) rest (fun _ => none) 0
    rw [h.trace_eq, heq, hans] at hflag
    have hanswer := Option.some.inj hflag
    simp only [Call.answer, Bool.true_or, Answer.flag.injEq, Except.ok.injEq] at hanswer
    exact hanswer.symm
  · intro hremoves
    refine ⟨?_, ?_⟩
    · rw [h.trace_eq, h.trace_eq]
      exact answers_eq hremoves 0
    · intro raw bs call rest key heq hreports
      obtain ⟨c, hans⟩ := getElem?_answers alloc raw bs call rest (fun _ => none) 0
      rw [h.trace_eq, heq, hans]
      cases call with
      | existsKey k =>
          cases hreports
          rfl
      | removeSync k =>
          cases hreports
          have hpresent : (bs.foldl Call.effect (fun _ => none) key).isSome = true :=
            hremoves bs key rest heq
          simp only [Call.answer, contents, hpresent, Bool.or_true]
      | write r => cases hreports
      | get k => cases hreports
      | batchedGet ks => cases hreports

section Examples

def otherChunk : Key := ⟨"m@1@0@ee", "m@1@0@ee", none⟩

/-- An object of two bytes. -/
theorem storable_smallObj : Storable fieldCodec smallObj :=
  ⟨by decide +kernel, by decide, by decide, by decide +kernel⟩

/-- Two chunks are stored, one of them is removed. -/
def storeThenRemove : List (Call (List ℕ)) :=
  [.write (.batchedPut [(chunkKey, smallObj), (otherChunk, smallObj)]), .removeSync chunkKey,
    .batchedGet [chunkKey, otherChunk]]

/-- A put, a get, a removal and another get. -/
theorem storeThenRemove_interchangeable :
    Interchangeable fourBytes fieldCodec storeThenRemove := by
  have hkeys : ∀ k, (∃ c ∈ storeThenRemove, k ∈ c.keys) → k = chunkKey ∨ k = otherChunk := by
    simp [storeThenRemove, Call.keys, Request.entries]
  have hhash : dkeyForStr "m@1@0@ff" ≠ dkeyForStr "m@1@0@ee" := by decide +kernel
  have hadm : Admissible fieldCodec storeThenRemove := by
    refine ⟨⟨?_, ?_⟩, ?_⟩
    · intro k hk
      rcases hkeys k hk with rfl | rfl <;> rfl
    · intro k k' hk hk' heq
      rcases hkeys k hk with rfl | rfl <;> rcases hkeys k' hk' with rfl | rfl
      · rfl
      · exact absurd heq hhash
      · exact absurd heq.symm hhash
      · rfl
    · intro c hc mo hmo
      have hsmall : mo = smallObj := by
        simp only [storeThenRemove, List.mem_cons, List.not_mem_nil, or_false] at hc
        rcases hc with rfl | rfl | rfl
        · simpa [Call.objects, Request.entries] using hmo
        · simp [Call.objects] at hmo
        · simp [Call.objects] at hmo
      exact hsmall ▸ storable_smallObj
  refine (interchangeable_iff_removes_present hadm).mpr ?_
  intro bs key rest heq
  rcases bs with _ | ⟨b₀, _ | ⟨b₁, _ | ⟨b₂, bs⟩⟩⟩
  · cases heq
  · -- the removal comes after the batch that stored the chunk
    cases heq
    decide
  · cases heq
  · cases bs <;> cases heq

/-- A chunk is removed twice. -/
def removeTwice : List (Call (List ℕ)) :=
  [.write (.put chunkKey smallObj), .removeSync chunkKey, .removeSync chunkKey]

/-- The second time DFS says False, the object API True. -/
theorem second_removal_differs :
    Admissible fieldCodec removeTwice ∧ ¬ Interchangeable fourBytes fieldCodec removeTwice ∧
    trace fourBytes fieldCodec false freshWorld removeTwice =
      [.done (.ok ()), .flag (.ok true), .flag (.ok false)] ∧
    trace fourBytes fieldCodec true freshWorld removeTwice =
      [.done (.ok ()), .flag (.ok true), .flag (.ok true)] := by
  -- the two backends' answers, computed
  have hfile : trace fourBytes fieldCodec false freshWorld removeTwice =
      [.done (.ok ()), .flag (.ok true), .flag (.ok false)] := by decide +kernel
  have hobject : trace fourBytes fieldCodec true freshWorld removeTwice =
      [.done (.ok ()), .flag (.ok true), .flag (.ok true)] := by decide +kernel
  have hkeys : ∀ k, (∃ c ∈ removeTwice, k ∈ c.keys) → k = chunkKey := by
    simp [removeTwice, Call.keys, Request.entries]
  -- the list is admissible: its keys are one, and its object is small
  refine ⟨⟨⟨?_, ?_⟩, ?_⟩, ?_, hfile, hobject⟩
  · intro k hk
    rw [hkeys k hk]
    rfl
  · intro k k' hk hk' _
    rw [hkeys k hk, hkeys k' hk']
  · intro c hc mo hmo
    have hsmall : mo = smallObj := by
      simp only [removeTwice, List.mem_cons, List.not_mem_nil, or_false] at hc
      rcases hc with rfl | rfl | rfl
      · simpa [Call.objects, Request.entries] using hmo
      · simp [Call.objects] at hmo
      · simp [Call.objects] at hmo
    exact hsmall ▸ storable_smallObj
  · -- the third answer differs
    intro h
    have hsame := h.same
    rw [hfile, hobject] at hsame
    revert hsame
    decide

end Examples

end LmcacheDaos.Connector
