import LmcacheDaos.Connector.Folding

/-!
# What put accepts, get returns

A write that does not raise leaves its object under the address (`Holds`), over
whatever was there; a read that finds it so returns it. On DFS that is all. On
the object API every reader fetches the metadata akey into `_META_CAP` bytes,
512 of them for metadata, while `pack_meta` accepts up to 4060: an object in
between is stored and then makes every read of it raise, and every folded read
of its chunk return nothing.
-/

namespace LmcacheDaos.Connector

open Lib Serde

variable {τ : Type} {alloc : Allocator τ} {C : Codec τ}

/-! ## What is stored under an address -/

/-- Metadata and payload akey, or the bytes of the file if there is one. -/
def stored (w : World τ) : Addr → List (Option Bytes)
  | .raw a => [some (metaAt w.obj a), some (payloadAt w.obj a)]
  | .path p => [w.dfs.content p]

/-- An object as a write leaves it. -/
def Holds (C : Codec τ) (w : World τ) (mo : MemoryObj τ) : Addr → Prop
  | .raw a => metaAt w.obj a = header (headerOf C mo) ∧ mo.byteArray <+: payloadAt w.obj a
  | .path p => ∃ f, w.dfs.content p = some f ∧ framedHeader C mo ++ mo.byteArray <+: f

/-- What an address holds depends on what is stored there only. -/
theorem Holds.congr {w w' : World τ} {mo : MemoryObj τ} {a : Addr} (h : Holds C w mo a)
    (hsame : stored w' a = stored w a) : Holds C w' mo a := by
  cases a with
  | raw a =>
      obtain ⟨hmeta, htail⟩ := List.cons.inj hsame
      rw [Holds, Option.some.inj hmeta, Option.some.inj (List.cons.inj htail).1]
      exact h
  | path p =>
      have hcontent : w'.dfs.content p = w.dfs.content p := (List.cons.inj hsame).1
      rw [Holds, hcontent]
      exact h

/-! ## Reading a file -/

/-- Objects that come back from their serialized metadata. -/
def Lossless (C : Codec τ) (mo : MemoryObj τ) : Prop :=
  C.deserialize (C.serialize mo.metadata) = some mo.metadata

instance [DecidableEq τ] (C : Codec τ) (mo : MemoryObj τ) : Decidable (Lossless C mo) :=
  inferInstanceAs (Decidable (_ = _))

/-- The allocator gives buffers of the object's length. -/
def Exact (alloc : Allocator τ) (mo : MemoryObj τ) : Prop :=
  ∀ c, ∃ mem, alloc c mo.layout = some mem ∧ mem.length = mo.byteArray.length

/-- A header in a file: the prefix, then the metadata. -/
theorem length_framedHeader (C : Codec τ) (mo : MemoryObj τ) :
    (framedHeader C mo).length = prefixSize + (C.serialize mo.metadata).length := by
  simp [framedHeader, prefixSize]
  omega

/-- Without faults the `close` around a call does not show. -/
theorem exec_withClose {α : Type} (h : Handle) (p : Io τ α) (w : World τ) :
    exec alloc (withClose h p) w = exec alloc p w := by
  rw [withClose, exec_bind]
  rfl

/-- What a read of a stored object returns, after `c` requests for buffers. -/
def fetched (alloc : Allocator τ) (c : ℕ) (mo : MemoryObj τ) : Except Err (Option (MemoryObj τ)) :=
  match alloc c mo.layout with
  | none => .ok none
  | some mem =>
      if mem.length < mo.byteArray.length then
        .error (bufferTooSmall mem.length mo.byteArray.length)
      else .ok (some (MemoryObj.fill ⟨c, mem, mo.layout⟩ mo.byteArray))

/-- With an allocator that is exact for the object, what is fetched is the object. -/
theorem fetched_of_exact {mo : MemoryObj τ} (hexact : Exact alloc mo) (c : ℕ) :
    ∃ got, fetched alloc c mo = .ok (some got) ∧ got.Same mo := by
  obtain ⟨mem, halloc, hmem⟩ := hexact c
  refine ⟨⟨c, mo.byteArray, mo.layout⟩, ?_, rfl, rfl⟩
  simp only [fetched, halloc]
  rw [if_neg (by omega), MemoryObj.fill_of_length hmem.symm]

/-- From the metadata on. -/
theorem exec_readPayload (alloc : Allocator τ) {mo : MemoryObj τ} (hcodec : Lossless C mo)
    {w : World τ} {h : Handle}
    {rest : Bytes} (hfile : w.dfs.files h = framedHeader C mo ++ mo.byteArray ++ rest) :
    exec alloc (readPayload C h (C.serialize mo.metadata).length mo.byteArray.length
      (C.serialize mo.metadata)) w =
        (fetched alloc w.allocs mo, { w with allocs := w.allocs + 1 }) := by
  -- the payload lies right behind the header
  have hread : w.dfs.readObj h (prefixSize + (C.serialize mo.metadata).length)
      mo.byteArray.length = mo.byteArray := by
    rw [Dfs.readObj, hfile, ← length_framedHeader]
    exact SparseFile.readAt_append_mid ..
  rw [readPayload, if_neg (by simp), hcodec]
  -- the buffer has the length that the metadata gives, so the first guard passes
  show exec alloc (if mo.byteArray.length < mo.byteArray.length then _ else _) w = _
  rw [if_neg (Nat.lt_irrefl _), exec_call]
  cases halloc : alloc w.allocs mo.layout with
  | none =>
      have hlayout : alloc w.allocs mo.metadata.layout = none := halloc
      simp only [handler, hlayout, fetched, halloc]
      rfl
  | some mem =>
      have hlayout : alloc w.allocs mo.metadata.layout = some mem := halloc
      simp only [handler, hlayout, fetched, halloc, Option.map_some]
      show exec alloc (if mem.length < mo.byteArray.length then _ else _) _ = _
      split
      · rfl
      · -- and the read is not short
        rw [exec_call]
        simp only [handler, hread]
        rw [if_neg (by simp), exec_ret]
        rfl

/-- A get of a file that holds the object fetches it. -/
theorem exec_getDfs (alloc : Allocator τ) {mo : MemoryObj τ} (hfr : Framable C mo)
    (hcodec : Lossless C mo) {w : World τ}
    {path : String} (hholds : Holds C w mo (.path path)) :
    exec alloc (getDfs C path) w =
      (fetched alloc w.allocs mo, { w with allocs := w.allocs + 1 }) := by
  obtain ⟨f, hcontent, rest, hf⟩ := hholds
  obtain ⟨h, hname, rfl⟩ := Option.map_eq_some_iff.mp hcontent
  have hmeta : SparseFile.readAt (w.dfs.files h) prefixSize (C.serialize mo.metadata).length =
      C.serialize mo.metadata := by
    have hmid := SparseFile.readAt_append_mid
      (leBytes 4 (C.serialize mo.metadata).length ++ leBytes 4 mo.byteArray.length)
      (C.serialize mo.metadata) (mo.byteArray ++ rest)
    rw [← hf, framedHeader]
    simpa [prefixSize] using hmid
  have hpre : (w.dfs.files h).take prefixSize =
      leBytes 4 (C.serialize mo.metadata).length ++ leBytes 4 mo.byteArray.length := by
    rw [← hf, framedHeader, List.append_assoc, List.append_assoc, List.take_append_of_le_length]
    · exact List.take_of_length_le (by simp [prefixSize])
    · simp [prefixSize]
  have hlen : prefixSize + (C.serialize mo.metadata).length ≤ (w.dfs.files h).length := by
    rw [← hf, List.length_append, List.length_append, length_framedHeader]
    omega
  have hhdr : w.dfs.readObj h 0 (prefixSize + hdrCap) =
      (w.dfs.files h).take (prefixSize + hdrCap) := by
    rw [Dfs.readObj, SparseFile.readAt, List.drop_zero]
  have hpayload := exec_readPayload alloc hcodec hf.symm
  have hopen : w.dfs.openRdonly path = .ok h := by rw [Dfs.openRdonly, hname]
  rw [getDfs, exec_call]
  simp only [handler, hopen]
  rw [exec_withClose, readOpen, exec_call]
  simp only [handler, hhdr, List.length_take]
  rw [if_neg (by omega), List.take_take, Nat.min_eq_left (Nat.le_add_right _ _), hpre,
    parsePrefix_prefixPack hfr.1 hfr.2]
  show exec alloc (if (C.serialize mo.metadata).length ≤ _ then _ else _) w = _
  split
  · -- the metadata came with the prefix
    rename_i hfits
    rw [SparseFile.readAt_take (by omega), hmeta]
    exact hpayload
  · rw [exec_call]
    simp only [handler]
    rw [Dfs.readObj, hmeta]
    exact hpayload

/-! ## Reading akeys -/

/-- A metadata akey fits the reader's buffer up to `_HDR_CAP` bytes of metadata. -/
theorem fits_header (mo : MemoryObj τ) :
    Fits (header (headerOf C mo)) ↔ (C.serialize mo.metadata).length ≤ hdrCap := by
  rw [Fits, length_header]
  show fixedSize + (C.serialize mo.metadata).length ≤ fixedSize + hdrCap ↔ _
  omega

/-- A layer is read back from its header and a payload that begins with its bytes. -/
theorem readLayer_of_holds {mo : MemoryObj τ} (hpk : (headerOf C mo).Packable)
    (hcodec : Lossless C mo) (hexact : Exact alloc mo) {payload : Bytes}
    (hpay : mo.byteArray <+: payload) (c : ℕ) :
    ∃ got, (readLayer alloc C c (header (headerOf C mo)) payload).1 = some got ∧ got.Same mo := by
  obtain ⟨mem, halloc, hmem⟩ := hexact c
  have halloc : alloc c mo.metadata.layout = some mem := halloc
  have htake : payload.take mo.metadata.length = mo.byteArray :=
    (List.prefix_iff_eq_take.mp hpay).symm
  refine ⟨⟨c, mo.byteArray, mo.layout⟩, ?_, rfl, rfl⟩
  simp only [readLayer, parseAkey_header hpk hcodec, halloc, htake]
  rw [if_neg (fun hne => hne rfl)]
  rw [MemoryObj.fill_of_length hmem.symm]
  rfl

section Holds

variable {mo : MemoryObj τ} (hpk : (headerOf C mo).Packable) (hcodec : Lossless C mo)
  (hexact : Exact alloc mo) {w : World τ} {a : RawAddr} (hl : LayerOk a.layer)
  (hholds : Holds C w mo (.raw a))

include hholds

/-- The same of an address that holds the object. -/
theorem fits_of_holds : Fits (metaAt w.obj a) ↔ (C.serialize mo.metadata).length ≤ hdrCap := by
  rw [hholds.1, fits_header]

include hpk hcodec hexact in
/-- Reading an address that holds an object gives that object. -/
theorem readAt_of_holds (c : ℕ) :
    ∃ got, (readAt alloc C w.obj c a).1 = some got ∧ got.Same mo := by
  rw [readAt, hholds.1]
  exact readLayer_of_holds hpk hcodec hexact hholds.2 c

include hpk hcodec hl in
/-- `_get_raw` of an object whose header fits. -/
theorem exec_getRaw_of_holds (hfits : Fits (metaAt w.obj a)) :
    exec alloc (getRaw C a) w =
      (fetched alloc w.allocs mo, { w with allocs := w.allocs + 1 }) := by
  -- the metadata akey is the header that the put packed
  have hmeta : parseAkey C (metaAt w.obj a) = some mo.metadata := by
    rw [hholds.1]
    exact parseAkey_header hpk hcodec
  -- the payload akey begins with the object's bytes
  have hpay : (payloadAt w.obj a).take mo.byteArray.length = mo.byteArray :=
    (List.prefix_iff_eq_take.mp hholds.2).symm
  rw [getRaw, akeysFor_eq_ok.mpr ⟨hl, rfl⟩]
  show exec alloc (.call (.fetch _ _ _) _) w = _
  rw [exec_call]
  simp only [handler, fetch_meta_of_fit hfits, List.headD_cons, hmeta]
  -- from here on as on DFS: allocate, fetch, compare lengths
  show exec alloc (.call (.allocate mo.layout) _) w = _
  rw [exec_call]
  cases halloc : alloc w.allocs mo.layout with
  | none =>
      simp only [handler, fetched, halloc]
      rfl
  | some mem =>
      simp only [handler, fetched, halloc, Option.map_some]
      show exec alloc (if mem.length < mo.byteArray.length then _ else _) _ = _
      split
      · rfl
      · have hfetch : w.obj.fetch a.dkey [(payloadAkey a.layer, mo.metadata.length)] false =
            .ok [mo.byteArray] := by
          rw [ObjStore.fetch_array]
          exact congrArg (fun b => Except.ok [b]) hpay
        rw [exec_call]
        simp only [handler, hfetch]
        show exec alloc (if mo.byteArray.length ≠ mo.byteArray.length then _ else _) _ = _
        -- the fetch is as long as the header says
        rw [if_neg (by simp), exec_ret]
        rfl

include hpk hcodec hexact hl in
/-- A get of such an address returns the object, unless its metadata is too long for the
buffer. -/
theorem getRaw_of_holds (hfits : Fits (metaAt w.obj a)) :
    ∃ got, (exec alloc (getRaw C a) w).1 = .ok (some got) ∧ got.Same mo := by
  rw [exec_getRaw_of_holds hpk hcodec hl hholds hfits]
  exact fetched_of_exact hexact w.allocs

include hl in
/-- `_exists_sync` of an object whose header fits. -/
theorem existsRaw_of_holds (hfits : Fits (metaAt w.obj a)) :
    (exec alloc (existsSync (.raw a)) w).1 = .ok true := by
  rw [exec_existsRaw alloc hl, if_pos hfits, hholds.1, length_header]
  have hpos : 0 < 36 + (headerOf C mo).metadata.length := by omega
  exact congrArg Except.ok (decide_eq_true hpos)

end Holds

/-- A file that holds an object exists. -/
theorem existsDfs_of_holds {mo : MemoryObj τ} {w : World τ} {path : String}
    (hholds : Holds C w mo (.path path)) :
    (exec alloc (existsSync (.path path)) w).1 = .ok true := by
  obtain ⟨f, hcontent, -⟩ := hholds
  obtain ⟨h, hname, -⟩ := Option.map_eq_some_iff.mp hcontent
  show Except.mapError Err.daos (.ok (w.dfs.pathExists path)) = _
  rw [Dfs.pathExists, hname]
  rfl

/-! ## Reading in a batch -/

/-- What a batch returns for a result of one of its calls. -/
def resultOf {α : Type} : Except Err (Option α) → Option α
  | .error _ => none
  | .ok r => r

/-- One call per key. -/
theorem batchedGet_of_unfolded (alloc : Allocator τ) (C : Codec τ) {raw : Bool} {ks : List Key}
    (hg : foldedGroups raw ks = none)
    {i : ℕ} {k : Key} (hi : ks[i]? = some k) (w : World τ) :
    ∃ w' : World τ, (w'.dfs = w.dfs ∧ w'.obj = w.obj) ∧
      (exec alloc (batchedGet C raw ks) w).1[i]? =
        some (resultOf (exec alloc (getSync C (addr raw k)) w').1) := by
  have hreads : ∀ p ∈ ks.map fun k => getSync C (addr raw k), p.OnlyCalls Op.Reads := by
    intro p hp
    obtain ⟨k, -, rfl⟩ := List.mem_map.mp hp
    exact onlyReads_getSync C _
  have hcall : (ks.map fun k => getSync C (addr raw k))[i]? = some (getSync C (addr raw k)) := by
    rw [List.getElem?_map, hi]
    rfl
  obtain ⟨w', hw', hr⟩ := exec_gather_onlyReads alloc hreads hcall w
  refine ⟨w', hw', ?_⟩
  rw [batchedGet, hg, exec_map, List.getElem?_map, hr, Option.map_some]
  cases (exec alloc (getSync C (addr raw k)) w').1 <;> rfl

/-- Groups that do not have a position leave it alone. -/
theorem getElem?_scatterGroup_of_not_mem {i : ℕ}
    {x : (Dkey × List (ℕ × ℕ)) × Except Err (List (Option (MemoryObj τ)))}
    (hi : i ∉ x.1.2.map Prod.fst) (res : List (Option (MemoryObj τ))) :
    (scatterGroup res x)[i]? = res[i]? := by
  rcases x with ⟨g, r⟩
  cases r with
  | error e => rfl
  | ok got =>
      apply Groups.getElem?_scatter_of_not_mem
      intro hmem
      obtain ⟨p, hp, rfl⟩ := List.mem_map.mp hmem
      exact hi (List.of_mem_zip hp).1

/-- Scattering one group changes a position in a way that does not depend on the others. -/
theorem getElem?_scatterGroup_congr {i : ℕ} {res res' : List (Option (MemoryObj τ))}
    (h : res[i]? = res'[i]?)
    (x : (Dkey × List (ℕ × ℕ)) × Except Err (List (Option (MemoryObj τ)))) :
    (scatterGroup res x)[i]? = (scatterGroup res' x)[i]? := by
  rcases x with ⟨g, r⟩
  cases r with
  | error e => exact h
  | ok got => exact Groups.getElem?_scatter_congr h _

/-- A position has the result of the group it is in. -/
theorem getElem?_scatterGroups {xs : List ((Dkey × List (ℕ × ℕ)) ×
      Except Err (List (Option (MemoryObj τ))))}
    (hnodup : (xs.flatMap fun x => x.1.2.map Prod.fst).Nodup)
    {x : (Dkey × List (ℕ × ℕ)) × Except Err (List (Option (MemoryObj τ)))} (hx : x ∈ xs) {i : ℕ}
    (hi : i ∈ x.1.2.map Prod.fst) (res : List (Option (MemoryObj τ))) :
    (xs.foldl scatterGroup res)[i]? = (scatterGroup res x)[i]? := by
  -- groups that do not have the position leave it alone
  have hother : ∀ ys : List ((Dkey × List (ℕ × ℕ)) × Except Err (List (Option (MemoryObj τ)))),
      i ∉ (ys.flatMap fun x => x.1.2.map Prod.fst) → ∀ res,
      (ys.foldl scatterGroup res)[i]? = res[i]? := by
    intro ys
    induction ys with
    | nil =>
        intro _ res
        rfl
    | cons y ys ih =>
        intro hnot res
        rw [List.flatMap_cons, List.mem_append, not_or] at hnot
        rw [List.foldl_cons, ih hnot.2, getElem?_scatterGroup_of_not_mem hnot.1]
  induction xs generalizing res with
  | nil => cases hx
  | cons y xs ih =>
      rw [List.flatMap_cons, List.nodup_append'] at hnodup
      obtain ⟨-, hrest, hdisj⟩ := hnodup
      rw [List.foldl_cons]
      rcases List.mem_cons.mp hx with rfl | hx
      · -- the group itself: nothing behind it touches the position
        exact hother xs (fun hmem => hdisj hi hmem) _
      · -- an earlier group: it leaves the position as it was
        have hy : i ∉ y.1.2.map Prod.fst := fun hmem =>
          hdisj hmem (List.mem_flatMap.mpr ⟨x, hx, hi⟩)
        rw [ih hrest hx]
        exact getElem?_scatterGroup_congr (getElem?_scatterGroup_of_not_mem hy res) x

/-- Where a key of a folded batch is read. -/
theorem Grouping.exists_group {ks : List Key} {groups : List (Dkey × List (ℕ × ℕ))}
    (hg : Grouping ks groups) {i : ℕ} {k : Key} (hi : ks[i]? = some k) :
    ∃ g ∈ groups, ∃ l, rawAddr k = ⟨g.1, some l⟩ ∧ (i, l) ∈ g.2 := by
  have hmem : (rawAddr k, i) ∈ (Groups.flat groups).map member := by
    rw [hg.reordered.perm.mem_iff, List.mem_zipIdx_iff_getElem?, List.getElem?_map, hi]
    rfl
  obtain ⟨⟨d, p, l⟩, hm, heq⟩ := List.mem_map.mp hmem
  obtain ⟨haddr, rfl⟩ := Prod.mk.inj heq
  obtain ⟨g, hgm, rfl, hin⟩ := Groups.mem_flat.mp hm
  exact ⟨g, hgm, l, haddr.symm, hin⟩

/-- Each member of a group is for a key of the batch. -/
theorem Grouping.exists_key {ks : List Key} {groups : List (Dkey × List (ℕ × ℕ))}
    (hg : Grouping ks groups) {g : Dkey × List (ℕ × ℕ)} (hgm : g ∈ groups) {l : ℕ}
    (hl : l ∈ g.2.map Prod.snd) : ∃ k ∈ ks, rawAddr k = ⟨g.1, some l⟩ := by
  obtain ⟨⟨p, l⟩, hm, rfl⟩ := List.mem_map.mp hl
  have hflat : (g.1, p, l) ∈ Groups.flat groups := Groups.mem_flat.mpr ⟨g, hgm, rfl, hm⟩
  have hmem := hg.reordered.perm.mem_iff.mp (List.mem_map_of_mem (f := member) hflat)
  exact List.mem_map.mp (List.fst_mem_of_mem_zipIdx hmem)

/-- The groups together have every position once. -/
theorem Grouping.positions {ks : List Key} {groups : List (Dkey × List (ℕ × ℕ))}
    (hg : Grouping ks groups) :
    (groups.flatMap fun g => g.2.map Prod.fst).Perm (List.range ks.length) := by
  have hsnd := hg.reordered.perm.map Prod.snd
  rw [List.zipIdx_map_snd, List.length_map, ← List.range_eq_range'] at hsnd
  have heq : ((Groups.flat groups).map member).map Prod.snd =
      groups.flatMap fun g => g.2.map Prod.fst := by
    simp [Groups.flat, member, List.map_flatMap, Function.comp_def]
  rwa [heq] at hsnd

/-- No position is in two groups. -/
theorem Grouping.nodup_positions {ks : List Key} {groups : List (Dkey × List (ℕ × ℕ))}
    (hg : Grouping ks groups) : (groups.flatMap fun g => g.2.map Prod.fst).Nodup :=
  hg.positions.nodup_iff.mpr List.nodup_range

/-- A group has positions of the batch only. -/
theorem Grouping.position_lt {ks : List Key} {groups : List (Dkey × List (ℕ × ℕ))}
    (hg : Grouping ks groups) {g : Dkey × List (ℕ × ℕ)} (hgm : g ∈ groups) {i : ℕ}
    (hi : i ∈ g.2.map Prod.fst) : i < ks.length :=
  List.mem_range.mp (hg.positions.mem_iff.mp (List.mem_flatMap.mpr ⟨g, hgm, hi⟩))

/-- One call per chunk: a position gets what the call for its chunk returns
there, nothing if it raises. -/
theorem batchedGet_of_folded (alloc : Allocator τ) (C : Codec τ) {ks : List Key}
    {groups : List (Dkey × List (ℕ × ℕ))}
    (hg : foldedGroups true ks = some groups) {g : Dkey × List (ℕ × ℕ)} (hgm : g ∈ groups)
    {i j l : ℕ} (hj : g.2[j]? = some (i, l)) (w : World τ) :
    ∃ w' : World τ, (w'.dfs = w.dfs ∧ w'.obj = w.obj) ∧
      (∀ e, (exec alloc (getRawFolded C g.1 (g.2.map Prod.snd)) w').1 = .error e →
        (exec alloc (batchedGet C true ks) w).1[i]? = some none) ∧
      ∀ got v, (exec alloc (getRawFolded C g.1 (g.2.map Prod.snd)) w').1 = .ok got →
        got[j]? = some v → (exec alloc (batchedGet C true ks) w).1[i]? = some v := by
  have hgrouping := foldedGroups_grouping hg
  -- a folded get writes nothing, so each group finds the world as it is now
  have hreads : ∀ p ∈ groups.map fun g => getRawFolded C g.1 (g.2.map Prod.snd),
      p.OnlyCalls Op.Reads := by
    intro p hp
    obtain ⟨g, -, rfl⟩ := List.mem_map.mp hp
    exact onlyReads_getRawFolded C _ _
  obtain ⟨n, hn⟩ := List.getElem?_of_mem hgm
  have hcall : (groups.map fun g => getRawFolded C g.1 (g.2.map Prod.snd))[n]? =
      some (getRawFolded C g.1 (g.2.map Prod.snd)) := by
    rw [List.getElem?_map, hn]
    rfl
  obtain ⟨w', hw', hr⟩ := exec_gather_onlyReads alloc hreads hcall w
  let rs := (exec alloc (gather (groups.map fun g => getRawFolded C g.1 (g.2.map Prod.snd))) w).1
  -- one result for each group
  have hfst : (groups.zip rs).map Prod.fst = groups := by
    apply List.map_fst_zip
    rw [length_exec_gather, List.length_map]
  -- positions of different groups are different, so the groups do not overwrite each other
  have hnodup : ((groups.zip rs).flatMap fun x => x.1.2.map Prod.fst).Nodup := by
    have hpos := hgrouping.nodup_positions
    rwa [← hfst, List.flatMap_map] at hpos
  have hx : (g, (exec alloc (getRawFolded C g.1 (g.2.map Prod.snd)) w').1) ∈ groups.zip rs :=
    List.mem_of_getElem? (List.getElem?_zip_eq_some.mpr ⟨hn, hr⟩)
  have hi : i ∈ g.2.map Prod.fst :=
    List.mem_map_of_mem (f := Prod.fst) (List.mem_of_getElem? hj)
  -- the batch has at this position what its own group put there
  have hbatch : (exec alloc (batchedGet C true ks) w).1[i]? =
      (scatterGroup (ks.map fun _ => none)
        (g, (exec alloc (getRawFolded C g.1 (g.2.map Prod.snd)) w').1))[i]? := by
    rw [batchedGet, hg, exec_map]
    exact getElem?_scatterGroups hnodup hx hi _
  have hlt : i < ks.length := hgrouping.position_lt hgm hi
  refine ⟨w', hw', ?_, ?_⟩
  · -- a group that raised leaves its positions empty
    intro e he
    rw [hbatch, he]
    show (ks.map fun _ => (none : Option (MemoryObj τ)))[i]? = some none
    rw [List.getElem?_map, List.getElem?_eq_getElem hlt]
    rfl
  · intro got v hgot hv
    rw [hbatch, hgot]
    apply Groups.getElem?_scatter_of_mem
    · apply (Groups.sublist_fst_zip _ got).nodup
      exact (List.nodup_flatMap.mp hgrouping.nodup_positions).1 g hgm
    · -- the entry of the group at `j` goes to position `i`
      apply List.mem_of_getElem? (i := j)
      rw [List.getElem?_zip_eq_some, List.getElem?_map, hj]
      exact ⟨rfl, hv⟩
    · simpa using hlt

/-- Each entry of a batch is what reading its address alone would give, up to the buffer's
id. -/
theorem getElem?_readAll (alloc : Allocator τ) (C : Codec τ) {as : List RawAddr} {j : ℕ}
    {a : RawAddr} (hj : as[j]? = some a)
    (st : ObjStore) (c : ℕ) :
    ∃ c', (readAll alloc C st c as).1[j]? = some (readAt alloc C st c' a).1 := by
  induction as generalizing j c with
  | nil => cases hj
  | cons b as ih =>
      cases j with
      | zero =>
          cases hj
          exact ⟨c, rfl⟩
      | succ j => exact ih hj _

/-- A key in a folded batch all of whose layers of the chunk fit. -/
theorem batchedGet_of_fits {ks : List Key} {groups : List (Dkey × List (ℕ × ℕ))}
    (hg : foldedGroups true ks = some groups) (hl : ∀ k ∈ ks, LayerOk k.layer) {w : World τ}
    (had : ∀ k ∈ ks, Adequate alloc C (metaAt w.obj (rawAddr k))) {i : ℕ} {k : Key}
    (hi : ks[i]? = some k)
    (hfits : ∀ k' ∈ ks, (rawAddr k').dkey = (rawAddr k).dkey → Fits (metaAt w.obj (rawAddr k'))) :
    ∃ c, (exec alloc (batchedGet C true ks) w).1[i]? =
      some (readAt alloc C w.obj c (rawAddr k)).1 := by
  obtain ⟨g, hgm, l, haddr, hin⟩ := (foldedGroups_grouping hg).exists_group hi
  obtain ⟨j, hj⟩ := List.getElem?_of_mem hin
  obtain ⟨w', ⟨-, hobj⟩, -, hok⟩ := batchedGet_of_folded alloc C hg hgm hj w
  -- what holds of every key holds of every layer of the group
  have hlayers : ∀ l ∈ g.2.map Prod.snd, LayerOk (some l) ∧
      Fits (metaAt w'.obj ⟨g.1, some l⟩) ∧ Adequate alloc C (metaAt w'.obj ⟨g.1, some l⟩) := by
    intro l hlm
    obtain ⟨k', hk', haddr'⟩ := (foldedGroups_grouping hg).exists_key hgm hlm
    have hdkey : (rawAddr k').dkey = (rawAddr k).dkey := by rw [haddr, haddr']
    have hlayer : k'.layer = some l := congrArg RawAddr.layer haddr'
    rw [hobj, ← haddr', ← hlayer]
    exact ⟨hl k' hk', hfits k' hk' hdkey, had k' hk'⟩
  have hexec := exec_getRawFolded (fun l h => (hlayers l h).1) (fun l h => (hlayers l h).2.1)
    (fun l h => (hlayers l h).2.2)
  have hjaddr : (layerAddrs g.1 (g.2.map Prod.snd))[j]? = some (rawAddr k) := by
    rw [layerAddrs, List.getElem?_map, List.getElem?_map, hj, haddr]
    rfl
  obtain ⟨c, hc⟩ := getElem?_readAll alloc C hjaddr w'.obj w'.allocs
  rw [← hobj]
  exact ⟨c, hok _ _ (congrArg Prod.fst hexec) hc⟩

/-- A key in a folded batch one of whose layers of the chunk does not fit. -/
theorem batchedGet_of_not_fits {ks : List Key} {groups : List (Dkey × List (ℕ × ℕ))}
    (hg : foldedGroups true ks = some groups) (hl : ∀ k ∈ ks, LayerOk k.layer) {w : World τ} {i : ℕ}
    {k : Key} (hi : ks[i]? = some k)
    (hbig : ∃ k' ∈ ks, (rawAddr k').dkey = (rawAddr k).dkey ∧ ¬ Fits (metaAt w.obj (rawAddr k'))) :
    (exec alloc (batchedGet C true ks) w).1[i]? = some none := by
  have hgrouping := foldedGroups_grouping hg
  obtain ⟨g, hgm, l, haddr, hin⟩ := hgrouping.exists_group hi
  obtain ⟨j, hj⟩ := List.getElem?_of_mem hin
  obtain ⟨w', ⟨-, hobj⟩, herr, -⟩ := batchedGet_of_folded alloc C hg hgm hj w
  obtain ⟨k', hk', hdkey, hno⟩ := hbig
  obtain ⟨i', hi'⟩ := List.getElem?_of_mem hk'
  obtain ⟨g', hgm', l', haddr', hin'⟩ := hgrouping.exists_group hi'
  -- keys of one chunk are in one group
  have hsame : g'.1 = g.1 := by rw [haddr, haddr'] at hdkey; exact hdkey
  obtain rfl := List.inj_on_of_nodup_map hgrouping.nodup hgm' hgm hsame
  have hlayers : ∀ l ∈ g'.2.map Prod.snd, LayerOk (some l) := by
    intro l hlm
    obtain ⟨k, hk, haddr⟩ := hgrouping.exists_key hgm hlm
    have hlayer : k.layer = some l := congrArg RawAddr.layer haddr
    exact hlayer ▸ hl k hk
  have hexec := exec_getRawFolded_of_not_fit alloc C (w := w') hlayers
    ⟨l', List.mem_map_of_mem hin', by rw [hobj, ← haddr']; exact hno⟩
  exact herr _ (congrArg Prod.fst hexec)

/-! ## Writing files -/

/-- A file after `_put_sync`. -/
def putFile (C : Codec τ) (fs : Dfs) (e : String × MemoryObj τ) : Dfs :=
  let h := (fs.openRdwrCreate e.1).2
  ((fs.openRdwrCreate e.1).1.writeObjFrom h 0 (framedHeader C e.2)).writeObjFrom h
    (framedHeader C e.2).length e.2.byteArray

/-- After a put the file begins with header and payload. -/
theorem putFile_self (C : Codec τ) (fs : Dfs) (e : String × MemoryObj τ) :
    ∃ f, (putFile C fs e).content e.1 = some f ∧ framedHeader C e.2 ++ e.2.byteArray <+: f := by
  have hname := FileStore.openCreate_names_self fs e.1
  have hlt := FileStore.openCreate_lt fs e.1
  refine ⟨_, ?_, SparseFile.append_prefix_writeAt 0 (fs.files (fs.openCreate e.1).2) _ _⟩
  simp only [putFile, Dfs.openRdwrCreate, Dfs.writeObjFrom, FileStore.content,
    FileStore.setFile_names, hname, Option.map_some]
  rw [FileStore.setFile_files_self (by rwa [FileStore.setFile_next]),
    FileStore.setFile_files_self hlt, FileStore.openCreate_files]

/-- Other files are as they were. -/
theorem putFile_other (C : Codec τ) (fs : Dfs) (e : String × MemoryObj τ) {q : String}
    (hq : q ≠ e.1) : (putFile C fs e).content q = fs.content q := by
  have hname := FileStore.openCreate_names_self fs e.1
  have hone := FileStore.sameAt_setFile hname hq
    (SparseFile.writeAt 0 ((fs.openCreate e.1).1.files (fs.openCreate e.1).2) 0
      (framedHeader C e.2))
  rw [← FileStore.setFile_names (fs.openCreate e.1).1] at hname
  have htwo := FileStore.sameAt_setFile hname hq
  exact (htwo _).content.trans (hone.content.trans (FileStore.sameAt_openCreate fs hq).content)

/-- A batch of puts leaves files alone that it does not name. -/
theorem foldl_putFile_other {es : List (String × MemoryObj τ)} {q : String}
    (hq : q ∉ es.map Prod.fst)
    (fs : Dfs) : (es.foldl (putFile C) fs).content q = fs.content q := by
  induction es generalizing fs with
  | nil => rfl
  | cons e es ih =>
      rw [List.map_cons, List.mem_cons, not_or] at hq
      rw [List.foldl_cons, ih hq.2, putFile_other C fs e hq.1]

/-- Each file that a batch names once holds its object in the end. -/
theorem foldl_putFile_mem {es : List (String × MemoryObj τ)} (hnodup : (es.map Prod.fst).Nodup)
    {e : String × MemoryObj τ} (he : e ∈ es) (fs : Dfs) :
    ∃ f, (es.foldl (putFile C) fs).content e.1 = some f ∧
      framedHeader C e.2 ++ e.2.byteArray <+: f := by
  induction es generalizing fs with
  | nil => cases he
  | cons e' es ih =>
      rw [List.map_cons, List.nodup_cons] at hnodup
      rcases List.mem_cons.mp he with rfl | he
      · rw [List.foldl_cons, foldl_putFile_other hnodup.1]
        exact putFile_self C fs e
      · exact ih hnodup.2 he _

/-- Without faults a batch of framed puts on DFS stores them all, one after the other. -/
theorem exec_gather_putDfs (es : List (String × MemoryObj τ)) (w : World τ) :
    exec alloc (gather (es.map fun e => putDfs e.1 (preppedOf C e.2))) w =
      (es.map fun _ => .ok (), { w with dfs := es.foldl (putFile C) w.dfs }) := by
  induction es generalizing w with
  | nil => rfl
  | cons e es ih =>
      rw [List.map_cons, exec_gather_cons (exec_putDfs e.1 _ w) (ih _)]
      rfl

/-! ## Requests that write -/

inductive Request (τ : Type) where
  | put (key : Key) (mo : MemoryObj τ)
  | batchedPut (entries : List (Key × MemoryObj τ))

namespace Request

def entries : Request τ → List (Key × MemoryObj τ)
  | put key mo => [(key, mo)]
  | batchedPut es => es

def run (C : Codec τ) (raw : Bool) : Request τ → Io τ Unit
  | put key mo => Connector.put C raw key mo
  | batchedPut es => Connector.batchedPut C raw (es.map Prod.fst) (es.map Prod.snd)

end Request

/-- The length of an object's serialized metadata. -/
def metaLen (C : Codec τ) (mo : MemoryObj τ) : ℕ := (C.serialize mo.metadata).length

/-- What a request may carry: layers with akeys, payloads with a 32-bit length,
and no address twice. -/
structure WellFormed (raw : Bool) (es : List (Key × MemoryObj τ)) : Prop where
  layer : ∀ e ∈ es, LayerOk e.1.layer
  payload : ∀ e ∈ es, e.2.byteArray.length < 2 ^ 32
  nodup : (es.map fun e => addr raw e.1).Nodup

/-- An object that every write of the backend takes. -/
def Accepted (C : Codec τ) (raw : Bool) (mo : MemoryObj τ) : Prop :=
  if raw then metaLen C mo ≤ maxMeta else metaLen C mo < 2 ^ 32

instance (C : Codec τ) (raw : Bool) (mo : MemoryObj τ) : Decidable (Accepted C raw mo) :=
  inferInstanceAs (Decidable (if raw = true then _ else _))

/-- A length below 2^32 is all that acceptance does not say. -/
theorem framable_of_accepted {raw : Bool} {mo : MemoryObj τ} (h : Accepted C raw mo)
    (hsize : mo.byteArray.length < 2 ^ 32) : Framable C mo := by
  refine ⟨?_, hsize⟩
  cases raw with
  | false => exact h
  | true =>
      have h : metaLen C mo ≤ 4060 := h
      exact Nat.lt_of_le_of_lt h (by decide)

/-- A header is packable just if the metadata fits the page. -/
theorem packable_iff {mo : MemoryObj τ} (hsize : mo.byteArray.length < 2 ^ 32) :
    (headerOf C mo).Packable ↔ metaLen C mo ≤ maxMeta := by
  constructor
  · intro h
    exact h.metaLen
  · intro h
    exact ⟨h, .inr rfl, Nat.lt_trans hsize (by decide)⟩

/-- What a request leaves under each of its addresses: the object if it returns,
and if it raises what was there or, in a batch, what a put of the key by itself
leaves. -/
structure Wrote (alloc : Allocator τ) (C : Codec τ) (raw : Bool) (w : World τ) (r : Request τ) :
    Prop where
  returns : (∀ e ∈ r.entries, Accepted C raw e.2) → (exec alloc (r.run C raw) w).1 = .ok () ∧
    ∀ e ∈ r.entries, Holds C (exec alloc (r.run C raw) w).2 e.2 (addr raw e.1)
  raises : (∃ e ∈ r.entries, ¬ Accepted C raw e.2) →
    (∃ err, (exec alloc (r.run C raw) w).1 = .error err) ∧
    ∀ e ∈ r.entries,
      stored (exec alloc (r.run C raw) w).2 (addr raw e.1) = stored w (addr raw e.1) ∨
      (∃ es, r = .batchedPut es) ∧ stored (exec alloc (r.run C raw) w).2 (addr raw e.1) =
        stored (exec alloc (put C raw e.1 e.2) w).2 (addr raw e.1)

/-- A put that cannot be framed raises and changes nothing. -/
theorem put_refused (alloc : Allocator τ) (raw : Bool) {mo : MemoryObj τ} (h : ¬ Framable C mo)
    (key : Key) (w : World τ) :
    ∃ err, exec alloc (put C raw key mo) w = (.error err, w) := by
  rw [put]
  cases hp : prepWrite C mo with
  | error e => exact ⟨.python e, rfl⟩
  | ok p => exact absurd (prepWrite_eq_ok.mp hp).1 h

/-- One object that cannot be framed makes the whole batch raise and change nothing. -/
theorem batchedPut_refused (alloc : Allocator τ) (raw : Bool) {objs : List (MemoryObj τ)}
    (h : ∃ mo ∈ objs, ¬ Framable C mo) (keys : List Key) (w : World τ) :
    ∃ err, exec alloc (batchedPut C raw keys objs) w = (.error err, w) := by
  rw [batchedPut]
  cases hp : objs.mapM (prepWrite C) with
  | error e => exact ⟨.python e, rfl⟩
  | ok ps =>
      obtain ⟨mo, hmo, hno⟩ := h
      obtain ⟨p, hp⟩ := forall_ok_of_mapM_eq_ok hp mo hmo
      exact absurd (prepWrite_eq_ok.mp hp).1 hno

/-- A folded batch with distinct addresses leaves each object at its own. -/
theorem holds_of_storeAll {es : List (RawAddr × MemoryObj τ)} (hd : Distinct es)
    {e : RawAddr × MemoryObj τ} (he : e ∈ es) (w : World τ) :
    Holds C { w with obj := storeAll C w.obj es } e.2 (.raw e.1) := by
  obtain ⟨hmeta, hpay⟩ := storeAll_mem (C := C) hd he w.obj
  exact ⟨hmeta, hpay ▸ List.prefix_append _ _⟩

/-- What is stored at an address is its two akeys. -/
theorem stored_raw_eq {w w' : World τ} {a : RawAddr} (hmeta : metaAt w.obj a = metaAt w'.obj a)
    (hpay : payloadAt w.obj a = payloadAt w'.obj a) : stored w (.raw a) = stored w' (.raw a) := by
  rw [stored, stored, hmeta, hpay]

/-- One address is distinct from no other. -/
theorem distinct_singleton {a : RawAddr} (hl : LayerOk a.layer) (mo : MemoryObj τ) :
    Distinct [(a, mo)] :=
  ⟨List.nodup_singleton _, fun e he => by rwa [List.mem_singleton.mp he]⟩

/-- On the object backend a single put writes its two akeys. -/
theorem wrote_put_raw {key : Key} {mo : MemoryObj τ} (hwf : WellFormed true [(key, mo)])
    (w : World τ) : Wrote alloc C true w (.put key mo) := by
  have hl : LayerOk key.layer := hwf.layer _ (.head _)
  have hsize := hwf.payload _ (.head _)
  constructor
  · intro hacc
    have hacc : Accepted C true mo := hacc _ (.head _)
    have hfr := framable_of_accepted hacc hsize
    have hexec := (commits_putRaw alloc (a := rawAddr key) hfr hl).accepts
      (fun e he => by rw [List.mem_singleton.mp he]; exact (packable_iff hsize).mpr hacc) w
    rw [Request.run, put_raw_eq hfr, hexec]
    refine ⟨rfl, ?_⟩
    intro e he
    rw [List.mem_singleton.mp he]
    exact holds_of_storeAll (distinct_singleton (a := rawAddr key) hl mo) (.head _) w
  · rintro ⟨e, he, hno⟩
    rw [List.mem_singleton.mp he] at hno
    have hexec : ∃ err, exec alloc (put C true key mo) w = (.error err, w) := by
      by_cases hfr : Framable C mo
      · rw [put_raw_eq hfr]
        exact exec_putRaw_of_not_packable hfr _ (fun hpk => hno ((packable_iff hsize).mp hpk)) w
      · exact put_refused alloc true hfr key w
    obtain ⟨err, hexec⟩ := hexec
    rw [Request.run, hexec]
    exact ⟨⟨err, rfl⟩, fun _ _ => .inl rfl⟩

/-- On DFS a single put writes its file. -/
theorem wrote_put_dfs {key : Key} {mo : MemoryObj τ} (hwf : WellFormed false [(key, mo)])
    (w : World τ) : Wrote alloc C false w (.put key mo) := by
  have hsize := hwf.payload _ (.head _)
  constructor
  · intro hacc
    have hfr := framable_of_accepted (hacc _ (.head _)) hsize
    have hput : put C false key mo = putDfs (keyToPath key) (preppedOf C mo) := by
      rw [put, prepWrite_eq_ok.mpr ⟨hfr, rfl⟩]
      rfl
    rw [Request.run, hput, exec_putDfs]
    refine ⟨rfl, ?_⟩
    intro e he
    rw [List.mem_singleton.mp he]
    exact putFile_self C w.dfs (keyToPath key, mo)
  · rintro ⟨e, he, hno⟩
    rw [List.mem_singleton.mp he] at hno
    obtain ⟨err, hexec⟩ := put_refused alloc false (C := C)
      (fun hfr => hno hfr.1) key w
    rw [Request.run, hexec]
    exact ⟨⟨err, rfl⟩, fun _ _ => .inl rfl⟩

/-- The entries of a batch by their addresses. -/
def rawEntries (es : List (Key × MemoryObj τ)) : List (RawAddr × MemoryObj τ) :=
  es.map fun e => (rawAddr e.1, e.2)

/-- Addresses and objects of a batch, entry by entry. -/
theorem zip_rawAddr (es : List (Key × MemoryObj τ)) :
    ((es.map Prod.fst).map rawAddr).zip (es.map Prod.snd) = rawEntries es := by
  rw [List.map_map, List.zip_map']
  rfl

/-- Distinct legal keys have distinct addresses. -/
theorem WellFormed.distinct {es : List (Key × MemoryObj τ)} (h : WellFormed true es) :
    Distinct (rawEntries es) := by
  constructor
  · have hnodup := h.nodup
    have heq : (es.map fun e => addr true e.1) = ((rawEntries es).map Prod.fst).map Addr.raw := by
      simp [rawEntries, addr]
    rw [heq] at hnodup
    exact hnodup.of_map _
  · intro e he
    obtain ⟨e', he', rfl⟩ := List.mem_map.mp he
    exact h.layer e' he'

/-- A part of a distinct batch is distinct. -/
theorem Distinct.of_subperm {es es' : List (RawAddr × MemoryObj τ)} (h : Distinct es)
    (hsub : es'.Subperm es) : Distinct es' := by
  obtain ⟨l, hperm, hl⟩ := hsub
  exact (h.of_sublist hl).of_perm hperm

/-- On the object backend a batch writes what single puts would: folded by chunk, or one by
one. -/
theorem wrote_batch_raw {es : List (Key × MemoryObj τ)} (hwf : WellFormed true es) (w : World τ) :
    Wrote alloc C true w (.batchedPut es) := by
  have hl : ∀ k ∈ es.map Prod.fst, LayerOk k.layer := by
    intro k hk
    obtain ⟨e, he, rfl⟩ := List.mem_map.mp hk
    exact hwf.layer e he
  have hlen : (es.map Prod.fst).length = (es.map Prod.snd).length := by simp
  have hmem : ∀ e ∈ es, (rawAddr e.1, e.2) ∈ rawEntries es := fun e he => List.mem_map_of_mem he
  by_cases hfr : ∀ mo ∈ es.map Prod.snd, Framable C mo
  · obtain ⟨r, done, hexec, hsub, hdone, hall, hsome⟩ :=
      exec_batchedPut alloc hlen hl hfr w
    rw [zip_rawAddr] at hsub hall
    have hd := hwf.distinct.of_subperm hsub
    constructor
    · intro hacc
      have hpk : ∀ mo ∈ es.map Prod.snd, (headerOf C mo).Packable := by
        intro mo hmo
        obtain ⟨e, he, rfl⟩ := List.mem_map.mp hmo
        exact (packable_iff (hwf.payload e he)).mpr (hacc e he)
      obtain ⟨hok, hre⟩ := hall hpk
      rw [Request.run, hexec]
      refine ⟨hok, ?_⟩
      intro e he
      exact holds_of_storeAll (e := (rawAddr e.1, e.2)) hd (hre.perm.mem_iff.mpr (hmem e he)) w
    · rintro ⟨e', he', hno⟩
      obtain ⟨err, hr⟩ := hsome ⟨e'.2, List.mem_map_of_mem he',
        fun hpk => hno ((packable_iff (hwf.payload e' he')).mp hpk)⟩
      rw [Request.run, hexec]
      refine ⟨⟨err, hr⟩, ?_⟩
      intro e he
      have hle : LayerOk (rawAddr e.1).layer := hwf.layer e he
      by_cases hin : (rawAddr e.1, e.2) ∈ done
      · -- its chunk was written
        right
        have hfre := hfr e.2 (List.mem_map_of_mem he)
        have hput := (commits_putRaw alloc (a := rawAddr e.1) hfre hle).accepts
          (fun e' he' => by rw [List.mem_singleton.mp he']; exact hdone _ hin) w
        obtain ⟨hm, hp⟩ := storeAll_mem (C := C) hd hin w.obj
        obtain ⟨hm', hp'⟩ := storeAll_mem (C := C) (distinct_singleton hle e.2) (.head _) w.obj
        rw [put_raw_eq hfre, hput]
        exact ⟨⟨es, rfl⟩, stored_raw_eq (hm.trans hm'.symm) (hp.trans hp'.symm)⟩
      · left
        have hnot : rawAddr e.1 ∉ done.map Prod.fst := by
          intro hmap
          obtain ⟨e', he', heq⟩ := List.mem_map.mp hmap
          have hsame :=
            List.inj_on_of_nodup_map hwf.distinct.nodup (hsub.subset he') (hmem e he) heq
          exact hin (hsame ▸ he')
        obtain ⟨hm, hp⟩ := storeAll_other (C := C) hd hle hnot w.obj
        exact stored_raw_eq hm hp
  · push Not at hfr
    obtain ⟨err, hexec⟩ := batchedPut_refused alloc true hfr (es.map Prod.fst) w
    constructor
    · intro hacc
      obtain ⟨mo, hmo, hno⟩ := hfr
      obtain ⟨e, he, rfl⟩ := List.mem_map.mp hmo
      exact absurd (framable_of_accepted (hacc e he) (hwf.payload e he)) hno
    · intro _
      rw [Request.run, hexec]
      exact ⟨⟨err, rfl⟩, fun _ _ => .inl rfl⟩

/-- Calls that all succeed have no first error. -/
theorem firstError_map_ok {ι : Type} (xs : List ι) :
    firstError (xs.map fun _ => .ok ()) = .ok () := by
  induction xs with
  | nil => rfl
  | cons x xs ih => exact ih

/-- On DFS a batch writes one file after the other. -/
theorem wrote_batch_dfs {es : List (Key × MemoryObj τ)} (hwf : WellFormed false es) (w : World τ) :
    Wrote alloc C false w (.batchedPut es) := by
  -- distinct keys have distinct paths, so no put overwrites another
  have hpaths : ((es.map fun e => (keyToPath e.1, e.2)).map Prod.fst).Nodup := by
    have hnodup := hwf.nodup
    have heq : (es.map fun e => addr false e.1) =
        ((es.map fun e => (keyToPath e.1, e.2)).map Prod.fst).map Addr.path := by
      simp [addr]
    rw [heq] at hnodup
    exact hnodup.of_map _
  constructor
  · intro hacc
    -- all are accepted: each put is framed and written
    have hfr : ∀ mo ∈ es.map Prod.snd, Framable C mo := by
      intro mo hmo
      obtain ⟨e, he, rfl⟩ := List.mem_map.mp hmo
      exact framable_of_accepted (hacc e he) (hwf.payload e he)
    have hcalls : (putCalls false (es.map Prod.fst) ((es.map Prod.snd).map (preppedOf C))).map
        Prod.snd = (es.map fun e => (keyToPath e.1, e.2)).map
          fun e => putDfs (τ := τ) e.1 (preppedOf C e.2) := by
      rw [putCalls_of_unfolded rfl, List.zip_map', List.map_map, List.map_map]
      rfl
    -- without faults the batch is a sequence of files written
    have hexec : exec alloc (batchedPut C false (es.map Prod.fst) (es.map Prod.snd)) w =
        (.ok (), { w with
          dfs := (es.map fun e => (keyToPath e.1, e.2)).foldl (putFile C) w.dfs }) := by
      rw [batchedPut, mapM_prepWrite hfr]
      show exec alloc ((gather _).map _) w = _
      rw [exec_map, hcalls, exec_gather_putDfs, firstError_map_ok]
    rw [Request.run, hexec]
    refine ⟨rfl, ?_⟩
    intro e he
    exact foldl_putFile_mem (e := (keyToPath e.1, e.2)) hpaths (List.mem_map_of_mem he) w.dfs
  · rintro ⟨e, he, hno⟩
    have he : e ∈ es := he
    -- one is refused: `_prep_write` raises before anything is written
    obtain ⟨err, hexec⟩ := batchedPut_refused alloc false (C := C)
      ⟨e.2, List.mem_map_of_mem he, fun hfr => hno hfr.1⟩ (es.map Prod.fst) w
    rw [Request.run, hexec]
    exact ⟨⟨err, rfl⟩, fun _ _ => .inl rfl⟩

/-- Every request writes what it should. -/
theorem wrote (alloc : Allocator τ) (C : Codec τ) {raw : Bool} {r : Request τ}
    (hwf : WellFormed raw r.entries) (w : World τ) :
    Wrote alloc C raw w r := by
  cases raw with
  | true =>
      cases r with
      | put key mo => exact wrote_put_raw hwf w
      | batchedPut es => exact wrote_batch_raw hwf w
  | false =>
      cases r with
      | put key mo => exact wrote_put_dfs hwf w
      | batchedPut es => exact wrote_batch_dfs hwf w

/-! ## The round trip -/

/-- Every way to read a key finds the object. -/
structure ReadsBack (alloc : Allocator τ) (C : Codec τ) (raw : Bool) (w : World τ) (ks : List Key)
    (e : Key × MemoryObj τ) : Prop where
  present : (exec alloc (existsSync (addr raw e.1)) w).1 = .ok true
  one : ∃ got : MemoryObj τ, (exec alloc (get C raw e.1) w).1 = .ok (some got) ∧ got.Same e.2
  batch : ∀ i : ℕ, ks[i]? = some e.1 →
    ∃ got : MemoryObj τ, (exec alloc (batchedGet C raw ks) w).1[i]? = some (some got) ∧ got.Same e.2

/-- A request that returns is followed by reads that find its objects, in any
world `w'` in which what is under the key has not changed since and any batch
`ks`; one that raises leaves what was there, except that a batch may have
written the key as a put of it by itself does. -/
structure RoundTrips (alloc : Allocator τ) (C : Codec τ) (raw : Bool) (w : World τ) (r : Request τ)
    (e : Key × MemoryObj τ) (w' : World τ) (ks : List Key) : Prop where
  returns : (exec alloc (r.run C raw) w).1 = .ok () → ReadsBack alloc C raw w' ks e
  raises : ∀ err, (exec alloc (r.run C raw) w).1 = .error err →
    stored (exec alloc (r.run C raw) w).2 (addr raw e.1) = stored w (addr raw e.1) ∨
    (∃ es, r = .batchedPut es) ∧ stored (exec alloc (r.run C raw) w).2 (addr raw e.1) =
      stored (exec alloc (put C raw e.1 e.2) w).2 (addr raw e.1)

/-- On the object API: some object is refused, or the metadata fits the readers'
buffer, and in a folded batch that of every layer of the chunk. -/
def Readable (C : Codec τ) (raw : Bool) (r : Request τ) (e : Key × MemoryObj τ) (w' : World τ)
    (ks : List Key) : Prop :=
  raw = false ∨ (∃ e' ∈ r.entries, maxMeta < metaLen C e'.2) ∨
    (metaLen C e.2 ≤ hdrCap ∧ ((∀ k ∈ ks, k.layer.isSome) →
      ∀ k ∈ ks, (rawAddr k).dkey = (rawAddr e.1).dkey → Fits (metaAt w'.obj (rawAddr k))))

/-- Layer addresses can always be grouped. -/
theorem groupFrom_isSome {addrs : List RawAddr} (h : ∀ a ∈ addrs, a.layer.isSome) (i : ℕ)
    (groups : List (Dkey × List (ℕ × ℕ))) : (groupFrom i addrs groups).isSome := by
  induction addrs generalizing i groups with
  | nil => rfl
  | cons a as ih =>
      obtain ⟨l, hl⟩ := Option.isSome_iff_exists.mp (h a List.mem_cons_self)
      rw [groupFrom, hl]
      exact ih (fun b hb => h b (List.mem_cons_of_mem _ hb)) _ _

/-- A batch is folded when all its keys have a layer. -/
theorem exists_foldedGroups {ks : List Key} {k : Key} (hk : k ∈ ks)
    (h : ∀ k ∈ ks, k.layer.isSome) : ∃ groups, foldedGroups true ks = some groups := by
  have hsome : (groupLayers (ks.map rawAddr)).isSome := by
    apply groupFrom_isSome
    intro a ha
    obtain ⟨k, hk, rfl⟩ := List.mem_map.mp ha
    exact h k hk
  obtain ⟨groups, hgroups⟩ := Option.isSome_iff_exists.mp hsome
  refine ⟨groups, Option.filter_eq_some_iff.mpr ⟨hgroups, ?_⟩⟩
  apply decide_eq_true
  rintro rfl
  have hnil : (([] : List (Dkey × List (ℕ × ℕ))).map Prod.fst).Nodup := List.nodup_nil
  have hlen := (groupFrom_reordered hnil hgroups).perm.length_eq
  have hpos := List.length_pos_of_mem hk
  rw [List.length_append, List.length_zipIdx, List.length_map, List.length_map] at hlen
  have hzero : (Groups.flat ([] : List (Dkey × List (ℕ × ℕ)))).length = 0 := rfl
  omega

/-- In a folded batch all keys have a layer. -/
theorem isSome_of_foldedGroups {ks : List Key} {groups : List (Dkey × List (ℕ × ℕ))}
    (hg : foldedGroups true ks = some groups) : ∀ k ∈ ks, k.layer.isSome := by
  intro k hk
  obtain ⟨i, hi⟩ := List.getElem?_of_mem hk
  obtain ⟨g, -, l, haddr, -⟩ := (foldedGroups_grouping hg).exists_group hi
  have hlayer : k.layer = some l := congrArg RawAddr.layer haddr
  rw [hlayer]
  rfl

/-- What a DFS file holds is read back by single and by batched gets. -/
theorem readsBack_dfs {e : Key × MemoryObj τ} (hfr : Framable C e.2) (hcodec : Lossless C e.2)
    (hexact : Exact alloc e.2) {w : World τ} (hholds : Holds C w e.2 (addr false e.1))
    (ks : List Key) : ReadsBack alloc C false w ks e where
  present := existsDfs_of_holds hholds
  one := by
    have hget := exec_getDfs alloc hfr hcodec hholds
    obtain ⟨got, hgot, hsame⟩ := fetched_of_exact hexact w.allocs
    exact ⟨got, (congrArg Prod.fst hget).trans hgot, hsame⟩
  batch i hi := by
    obtain ⟨w', ⟨hdfs, -⟩, hbatch⟩ := batchedGet_of_unfolded alloc C
      (show foldedGroups false ks = none from rfl) hi w
    have hholds' : Holds C w' e.2 (.path (keyToPath e.1)) := by
      rw [Holds, hdfs]
      exact hholds
    have hget : exec alloc (getSync C (addr false e.1)) w' = _ :=
      exec_getDfs alloc hfr hcodec hholds'
    obtain ⟨got, hgot, hsame⟩ := fetched_of_exact hexact w'.allocs
    refine ⟨got, ?_, hsame⟩
    rw [hbatch, hget, hgot]
    rfl

/-- What is stored at a raw address is read back by single and batched gets exactly if the
metadata fits the reader's buffer. -/
theorem readsBack_raw_iff {e : Key × MemoryObj τ} (hpk : (headerOf C e.2).Packable)
    (hcodec : Lossless C e.2) (hexact : Exact alloc e.2) {w : World τ}
    (hholds : Holds C w e.2 (addr true e.1)) {ks : List Key} (hks : e.1 ∈ ks)
    (hl : ∀ k ∈ ks, LayerOk k.layer)
    (had : ∀ k ∈ ks, Adequate alloc C (metaAt w.obj (rawAddr k))) :
    ReadsBack alloc C true w ks e ↔ metaLen C e.2 ≤ hdrCap ∧ ((∀ k ∈ ks, k.layer.isSome) →
      ∀ k ∈ ks, (rawAddr k).dkey = (rawAddr e.1).dkey → Fits (metaAt w.obj (rawAddr k))) := by
  have hle : LayerOk (rawAddr e.1).layer := hl e.1 hks
  have hholds : Holds C w e.2 (.raw (rawAddr e.1)) := hholds
  have hfits_iff : Fits (metaAt w.obj (rawAddr e.1)) ↔ metaLen C e.2 ≤ hdrCap :=
    fits_of_holds hholds
  constructor
  · -- the metadata of the key itself fits, or else `exists` raised
    intro h
    have hfits : Fits (metaAt w.obj (rawAddr e.1)) := by
      by_contra hno
      have hpresent := h.present
      rw [show addr true e.1 = .raw (rawAddr e.1) from rfl, exec_existsRaw alloc hle, if_neg hno]
        at hpresent
      cases hpresent
    refine ⟨hfits_iff.mp hfits, ?_⟩
    intro hlayers k hk hdkey
    -- one that does not fit in the same chunk makes the folded fetch raise for all its layers
    by_contra hno
    obtain ⟨groups, hg⟩ := exists_foldedGroups hks hlayers
    obtain ⟨i, hi⟩ := List.getElem?_of_mem hks
    obtain ⟨got, hgot, -⟩ := h.batch i hi
    rw [batchedGet_of_not_fits hg hl hi ⟨k, hk, hdkey, hno⟩] at hgot
    cases hgot
  · rintro ⟨hsmall, hchunk⟩
    -- single calls see only the key's own akeys
    have hfits := hfits_iff.mpr hsmall
    refine ⟨existsRaw_of_holds hle hholds hfits,
      getRaw_of_holds hpk hcodec hexact hle hholds hfits, ?_⟩
    intro i hi
    cases hg : foldedGroups true ks with
    | none =>
        -- not folded: the batch makes the same `_get_raw`
        obtain ⟨w', ⟨-, hobj⟩, hbatch⟩ := batchedGet_of_unfolded alloc C hg hi w
        have hholds' : Holds C w' e.2 (.raw (rawAddr e.1)) := by
          rw [Holds, hobj]
          exact hholds
        obtain ⟨got, hgot, hsame⟩ := getRaw_of_holds hpk hcodec hexact hle hholds'
          (by rw [hobj]; exact hfits)
        refine ⟨got, ?_, hsame⟩
        rw [hbatch]
        exact congrArg some (congrArg resultOf hgot)
    | some groups =>
        -- folded: all metadata of the chunk fits, so the group is read
        obtain ⟨c, hc⟩ := batchedGet_of_fits hg hl had hi
          (hchunk (isSome_of_foldedGroups hg))
        obtain ⟨got, hgot, hsame⟩ := readAt_of_holds hpk hcodec hexact hholds c
        exact ⟨got, by rw [hc, hgot], hsame⟩

/-- Only metadata longer than the page is refused there. -/
theorem exists_not_accepted_raw {es : List (Key × MemoryObj τ)} :
    (∃ e ∈ es, ¬ Accepted C true e.2) ↔ ∃ e ∈ es, maxMeta < metaLen C e.2 := by
  have hone : ∀ e : Key × MemoryObj τ, ¬ Accepted C true e.2 ↔ maxMeta < metaLen C e.2 :=
    fun e => Nat.not_le
  simp only [hone]

/-- What put accepts, get returns, exactly when the readers' buffer holds it. -/
theorem roundTrips_iff_readable {raw : Bool} {w w' : World τ} {r : Request τ}
    {e : Key × MemoryObj τ} {ks : List Key} (hwf : WellFormed raw r.entries) (he : e ∈ r.entries)
    (hcodec : Lossless C e.2) (hexact : Exact alloc e.2)
    (hsame : stored w' (addr raw e.1) = stored (exec alloc (r.run C raw) w).2 (addr raw e.1))
    (hks : e.1 ∈ ks) (hl : ∀ k ∈ ks, LayerOk k.layer)
    (had : raw = true → ∀ k ∈ ks, Adequate alloc C (metaAt w'.obj (rawAddr k))) :
    RoundTrips alloc C raw w r e w' ks ↔ Readable C raw r e w' ks := by
  have hwrote := wrote alloc C hwf w
  have hsize := hwf.payload e he
  by_cases hacc : ∀ e ∈ r.entries, Accepted C raw e.2
  · -- the put returns: what it stored has to be read back
    obtain ⟨hok, hholds⟩ := hwrote.returns hacc
    have hholds := (hholds e he).congr hsame
    have hreads : RoundTrips alloc C raw w r e w' ks ↔ ReadsBack alloc C raw w' ks e := by
      constructor
      · intro h
        exact h.returns hok
      · intro h
        refine ⟨fun _ => h, ?_⟩
        intro err herr
        rw [hok] at herr
        cases herr
    rw [hreads]
    cases raw with
    | false =>
        have hback := readsBack_dfs (framable_of_accepted (hacc e he) hsize) hcodec hexact hholds ks
        exact ⟨fun _ => .inl rfl, fun _ => hback⟩
    | true =>
        have hpk := (packable_iff hsize).mpr (hacc e he)
        rw [readsBack_raw_iff hpk hcodec hexact hholds hks hl (had rfl)]
        constructor
        · intro h
          exact .inr (.inr h)
        · intro h
          rcases h with h | h | h
          · cases h
          · obtain ⟨e', he', hno⟩ := exists_not_accepted_raw.mpr h
            exact absurd (hacc e' he') hno
          · exact h
  · -- the put raises and stores nothing, so nothing has to be read back
    push Not at hacc
    obtain ⟨⟨err, herr⟩, hstored⟩ := hwrote.raises hacc
    have hraises : RoundTrips alloc C raw w r e w' ks := by
      refine ⟨?_, fun _ _ => hstored e he⟩
      intro hok
      rw [herr] at hok
      cases hok
    have hreadable : Readable C raw r e w' ks := by
      cases raw with
      | false => exact .inl rfl
      | true => exact .inr (.inl (exists_not_accepted_raw.mp hacc))
    exact ⟨fun _ => hreadable, fun _ => hraises⟩

section Examples

/-- Two layers of one chunk, written together. -/
def twoLayers : List (Key × MemoryObj (List ℕ)) :=
  [(layerKey "m@1@0@ff" 0, smallObj), (layerKey "m@1@0@ff" 1, smallObj)]

def afterTwoLayers : World (List ℕ) :=
  (exec fourBytes ((Request.batchedPut twoLayers).run fieldCodec true) emptyWorld).2

/-- Two layers of one chunk, put and got in one batch. -/
theorem twoLayers_roundTrip :
    RoundTrips fourBytes fieldCodec true emptyWorld (.batchedPut twoLayers)
      (layerKey "m@1@0@ff" 0, smallObj) afterTwoLayers
      [layerKey "m@1@0@ff" 1, layerKey "m@1@0@ff" 0] := by
  have hwf : WellFormed true twoLayers := ⟨by decide, by decide, by decide +kernel⟩
  have hmetas : ∀ k ∈ [layerKey "m@1@0@ff" 1, layerKey "m@1@0@ff" 0],
      Fits (metaAt afterTwoLayers.obj (rawAddr k)) ∧
        parseAkey fieldCodec (metaAt afterTwoLayers.obj (rawAddr k)) = some ⟨4, [1, 2]⟩ := by
    decide +kernel
  have hcodec : Lossless fieldCodec smallObj := by decide +kernel
  have hsmall : metaLen fieldCodec smallObj ≤ hdrCap := by decide +kernel
  have hreadable : Readable fieldCodec true (.batchedPut twoLayers)
      (layerKey "m@1@0@ff" 0, smallObj) afterTwoLayers
      [layerKey "m@1@0@ff" 1, layerKey "m@1@0@ff" 0] :=
    .inr (.inr ⟨hsmall, fun _ k hk _ => (hmetas k hk).1⟩)
  have hl : ∀ k ∈ [layerKey "m@1@0@ff" 1, layerKey "m@1@0@ff" 0], LayerOk k.layer := by decide
  have had : ∀ k ∈ [layerKey "m@1@0@ff" 1, layerKey "m@1@0@ff" 0],
      Adequate fourBytes fieldCodec (metaAt afterTwoLayers.obj (rawAddr k)) := by
    intro k hk m hm c mem hmem
    rw [(hmetas k hk).2] at hm
    cases hm
    cases hmem
    exact Nat.le_refl _
  refine Iff.mpr ?_ hreadable
  apply roundTrips_iff_readable hwf
  · exact List.mem_cons_self
  · exact hcodec
  · exact fun _ => ⟨_, rfl, rfl⟩
  · rfl
  · exact List.mem_cons_of_mem _ List.mem_cons_self
  · exact hl
  · exact fun _ => had

def chunkKey : Key := ⟨"m@1@0@ff", "m@1@0@ff", none⟩

/-- 26 KV groups: 528 bytes of metadata. -/
def wideObj : MemoryObj (List ℕ) := ⟨0, [1, 2, 3, 4], List.replicate 131 1⟩

/-- A put of it succeeds, and nothing can read it. -/
theorem stored_object_unreadable :
    Lossless fieldCodec wideObj ∧ Exact fourBytes wideObj ∧
    (exec fourBytes (put fieldCodec true chunkKey wideObj) emptyWorld).1 = .ok () ∧
    (exec fourBytes (existsSync (addr true chunkKey))
      (exec fourBytes (put fieldCodec true chunkKey wideObj) emptyWorld).2).1 =
        .error (.daos derRec2big) ∧
    (exec fourBytes (get fieldCodec true chunkKey)
      (exec fourBytes (put fieldCodec true chunkKey wideObj) emptyWorld).2).1 =
        .error (.daos derRec2big) := by
  have hwf : WellFormed true [(chunkKey, wideObj)] := ⟨by decide, by decide, List.nodup_singleton _⟩
  have hacc : ∀ e ∈ (Request.put chunkKey wideObj).entries, Accepted fieldCodec true e.2 := by
    decide +kernel
  have hwide : ¬ (fieldCodec.serialize wideObj.metadata).length ≤ hdrCap := by decide +kernel
  obtain ⟨hok, hholds⟩ := (wrote_put_raw hwf emptyWorld).returns hacc
  have hl : LayerOk (rawAddr chunkKey).layer := by decide
  have hholds : Holds fieldCodec (exec fourBytes (put fieldCodec true chunkKey wideObj)
      emptyWorld).2 wideObj (.raw (rawAddr chunkKey)) := hholds (chunkKey, wideObj) (.head _)
  have hbig : ¬ Fits (metaAt (exec fourBytes (put fieldCodec true chunkKey wideObj)
      emptyWorld).2.obj (rawAddr chunkKey)) := by
    rw [fits_of_holds hholds]
    exact hwide
  refine ⟨by decide +kernel, fun _ => ⟨_, rfl, rfl⟩, hok, ?_, ?_⟩
  · have hexec := exec_existsRaw fourBytes hl
      (exec fourBytes (put fieldCodec true chunkKey wideObj) emptyWorld).2
    rw [if_neg hbig] at hexec
    exact congrArg Prod.fst hexec
  · exact congrArg Prod.fst (exec_getRaw_of_not_fit hl hbig)

end Examples

end LmcacheDaos.Connector
