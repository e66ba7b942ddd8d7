import LmcacheDaos.Nixl.Containers

/-!
# Folding descriptors into groups

`prepXfer` (`daos_backend.cpp`): a list of local buffers and a list of places in
registered objects, walked together, become groups, each of which is one
`daos_obj_fetch` or `daos_obj_update`. A first pass puts the pairs into buckets;
the second lays each bucket out in the parallel vectors that the call reads.
Pointers into these vectors are indices.

The comment over the first pass says that it buckets by object handle and dkey.
The map's key is the `devId` of the registration and the dkey, and a bucket has
the handle of the last descriptor that came into it: descriptors of two objects
registered under one `devId` go to one object.

Result: the groups are what the lists say, for every list of local buffers,
exactly when remote descriptors with one `devId` and dkey have one handle.
-/

namespace LmcacheDaos.Nixl.Transfer

open Lib Std
open Containers (ObjMd BackendMd Mem Status)

/-! ## Descriptors -/

/-- `dkeySpan_` -/
def dkeySpan : ℕ := 64 <<< 20

/-- A descriptor of the local list: a buffer. -/
structure LocalDesc where
  addr : ℕ
  len : ℕ
  devId : ℕ
deriving DecidableEq, Repr

/-- A descriptor of the remote list: a place in a registered object. -/
structure RemoteDesc where
  addr : ℕ
  len : ℕ
  metadataP : BackendMd
deriving DecidableEq, Repr

/-- `nixl_xfer_op_t` -/
inductive XferOp where
  | read
  | write
deriving DecidableEq, Repr

/-! ## The first pass -/

/-- `entry` -/
structure Entry where
  akey : ℕ
  len : ℕ
  buf : ℕ
  localDev : ℕ
deriving DecidableEq, Repr

structure Slot where
  oh : Containers.Handle
  entries : List Entry
deriving DecidableEq, Repr

/-- `buckets`, by `devId` and dkey -/
abbrev Buckets := ExtTreeMap (ℕ × ℕ) Slot (@compare _ lexOrd)

/-- `slot.first = oh; slot.second.push_back(e)` -/
def Slot.push (slot : Option Slot) (oh : Containers.Handle) (e : Entry) : Slot :=
  ⟨oh, (slot.elim [] Slot.entries) ++ [e]⟩

/-- The loop of the first pass. -/
def fillBuckets : List (LocalDesc × RemoteDesc) → Buckets → Except Status Buckets
  | [], buckets => .ok buckets
  | (l, r) :: rest, buckets => match r.metadataP with
    | .null | .foreign => .error .errInvalidParam
    | .daos md =>
        if l.len ≠ r.len then .error .errInvalidParam
        else
          -- `buckets[{md->devId_, dkey}]`: the handle is not in the key
          let key := (md.devId, r.addr / dkeySpan)
          fillBuckets rest <| buckets.insert key <|
            Slot.push buckets[key]? md.oh ⟨r.addr % dkeySpan, r.len, l.addr, l.devId⟩

/-! ## The second pass -/

/-- `daos_iod_t`, the name and the extents by their index -/
structure Iod where
  name : ℕ
  size : ℕ
  nr : ℕ
  recxs : ℕ
deriving DecidableEq, Repr

/-- `daos_recx_t` -/
structure Recx where
  idx : ℕ
  nr : ℕ
deriving DecidableEq, Repr

/-- `d_sg_list_t`, the buffers by their index -/
structure Sgl where
  nr : ℕ
  nrOut : ℕ
  iovs : ℕ
deriving DecidableEq, Repr

/-- `d_iov_t` -/
structure Iov where
  buf : ℕ
  len : ℕ
deriving DecidableEq, Repr

/-- `nixlDaosIoGroup`; of `memAttrs` the CUDA ordinals -/
structure IoGroup where
  oh : Containers.Handle
  dkeyVal : ℕ
  akeyVals : List ℕ
  iods : List Iod
  recxs : List Recx
  sgls : List Sgl
  iovs : List Iov
  memAttrs : List ℕ
deriving DecidableEq, Repr

/-- One round of the second pass. -/
def layOut (localIsGpu : Bool) (bucket : (ℕ × ℕ) × Slot) : IoGroup :=
  let ents := bucket.2.entries
  { oh := bucket.2.oh
    dkeyVal := bucket.1.2
    akeyVals := ents.map Entry.akey
    iods := (List.range ents.length).map fun i => ⟨i, 1, 1, i⟩
    recxs := ents.map fun e => ⟨0, e.len⟩
    sgls := (List.range ents.length).map fun i => ⟨1, 0, i⟩
    iovs := ents.map fun e => ⟨e.buf, e.len⟩
    memAttrs := if localIsGpu then ents.map Entry.localDev else [] }

/-- `nixlDaosBackendReqH` as `prepXfer` makes it -/
structure ReqH where
  op : XferOp
  groups : List IoGroup
deriving DecidableEq, Repr

/-- `prepXfer`, built with `NIXL_DAOS_HAVE_GPU` or without; `localType` is the
segment type of the local list. -/
def prepXfer (haveGpu : Bool) (op : XferOp) (localType : Mem) (locals : List LocalDesc)
    (remotes : List RemoteDesc) : Except Status ReqH :=
  if locals.length ≠ remotes.length then .error .errInvalidParam
  else if locals.length = 0 then .error .errInvalidParam
  else match fillBuckets (locals.zip remotes) ∅ with
    | .error st => .error st
    | .ok buckets =>
        .ok ⟨op, buckets.toList.map (layOut (haveGpu && decide (localType = .vram)))⟩

/-- The groups of a request, none when it was refused. -/
def groupsOf : Except Status ReqH → List IoGroup
  | .error _ => []
  | .ok req => req.groups

/-! ## What the groups say -/

/-- One extent of one akey, and the buffer for it. -/
structure Item where
  oh : Containers.Handle
  dkey : ℕ
  akey : ℕ
  len : ℕ
  buf : ℕ
deriving DecidableEq, Repr

/-- What the `i`-th iod and sgl of a group come to, pointers followed. -/
def IoGroup.item (g : IoGroup) (i : ℕ) : Option Item :=
  match g.iods[i]?, g.sgls[i]? with
  | some iod, some sgl => match g.akeyVals[iod.name]?, g.recxs[iod.recxs]?, g.iovs[sgl.iovs]? with
    | some akey, some recx, some iov => some ⟨g.oh, g.dkeyVal, akey, recx.nr, iov.buf⟩
    | _, _, _ => none
  | _, _ => none

def IoGroup.items (g : IoGroup) : List Item := (List.range g.iods.length).filterMap g.item

/-- The vectors of a group are laid out for `ents`: the `i`-th iod, extent, sgl
and buffer are for the `i`-th of them. -/
structure IoGroup.Aligned (g : IoGroup) (ents : List Entry) : Prop where
  iods : g.iods.length = ents.length
  sgls : g.sgls.length = ents.length
  vectors : g.akeyVals.length = ents.length ∧ g.recxs.length = ents.length ∧
    g.iovs.length = ents.length
  each : ∀ (i : ℕ) (e : Entry), ents[i]? = some e →
    (∃ iod, g.iods[i]? = some iod ∧ iod.name = i ∧ iod.recxs = i ∧ iod.nr = 1 ∧ iod.size = 1) ∧
      (∃ sgl, g.sgls[i]? = some sgl ∧ sgl.iovs = i ∧ sgl.nr = 1) ∧
      g.akeyVals[i]? = some e.akey ∧ g.recxs[i]? = some ⟨0, e.len⟩ ∧
      g.iovs[i]? = some ⟨e.buf, e.len⟩

/-- What a pair of descriptors asks for: its own object, whatever the others'. -/
def own (p : LocalDesc × RemoteDesc) : Option Item :=
  match p.2.metadataP with
  | .daos md => some ⟨md.oh, p.2.addr / dkeySpan, p.2.addr % dkeySpan, p.2.len, p.1.addr⟩
  | _ => none

/-- The entry of a pair of descriptors. -/
def entryOf (p : LocalDesc × RemoteDesc) : Entry :=
  ⟨p.2.addr % dkeySpan, p.2.len, p.1.addr, p.1.devId⟩

/-- The groups are for the descriptors of the lists, each for its own object. -/
structure Directed (locals : List LocalDesc) (remotes : List RemoteDesc)
    (groups : List IoGroup) : Prop where
  items : (groups.flatMap IoGroup.items).Perm ((locals.zip remotes).filterMap own)
  /-- a group is for pairs of one handle and one dkey, its vectors in their order -/
  aligned : ∀ g ∈ groups, ∃ pairs : List (LocalDesc × RemoteDesc),
    pairs.Sublist (locals.zip remotes) ∧ g.Aligned (pairs.map entryOf) ∧
      ∀ p ∈ pairs, ∃ md, p.2.metadataP = .daos md ∧ md.oh = g.oh ∧
        p.2.addr / dkeySpan = g.dkeyVal

/-- Lists that `prepXfer` is given: equally long, pair by pair, with DAOS
metadata on the remote side. -/
def Paired (locals : List LocalDesc) (remotes : List RemoteDesc) : Prop :=
  List.Forall₂ (fun l r => l.len = r.len ∧ ∃ md, r.metadataP = .daos md) locals remotes

/-- Descriptors with one `devId` and dkey have one handle. -/
def OneHandle (remotes : List RemoteDesc) : Prop :=
  ∀ r ∈ remotes, ∀ r' ∈ remotes, ∀ md md', r.metadataP = .daos md → r'.metadataP = .daos md' →
    md.devId = md'.devId → r.addr / dkeySpan = r'.addr / dkeySpan → md.oh = md'.oh

/-! ## Buckets -/

/-- A pair of descriptors as the first pass sees it. -/
structure Desc where
  devId : ℕ
  oh : Containers.Handle
  dkey : ℕ
  entry : Entry
deriving DecidableEq, Repr

def Desc.key (d : Desc) : ℕ × ℕ := (d.devId, d.dkey)

/-- The entry in a group for the object `oh`. -/
def Desc.itemAt (d : Desc) (oh : Containers.Handle) : Item :=
  ⟨oh, d.dkey, d.entry.akey, d.entry.len, d.entry.buf⟩

def descOf (p : LocalDesc × RemoteDesc) : Option Desc :=
  match p.2.metadataP with
  | .daos md => some ⟨md.devId, md.oh, p.2.addr / dkeySpan, entryOf p⟩
  | _ => none

def descs (locals : List LocalDesc) (remotes : List RemoteDesc) : List Desc :=
  (locals.zip remotes).filterMap descOf

def bucketsOf (buckets : Buckets) (ds : List Desc) : Buckets :=
  OrderedMap.collect Desc.key (fun slot d => Slot.push slot d.oh d.entry) buckets ds

/-- The item of a pair is that of its descriptor. -/
theorem own_eq (p : LocalDesc × RemoteDesc) : own p = (descOf p).map fun d => d.itemAt d.oh := by
  unfold own descOf
  cases p.2.metadataP <;> rfl

/-- Pairs of equal lengths on DAOS objects fill the buckets; no error path is taken. -/
theorem fillBuckets_eq {pairs : List (LocalDesc × RemoteDesc)}
    (h : ∀ p ∈ pairs, p.1.len = p.2.len ∧ ∃ md, p.2.metadataP = .daos md) (buckets : Buckets) :
    fillBuckets pairs buckets = .ok (bucketsOf buckets (pairs.filterMap descOf)) := by
  induction pairs generalizing buckets with
  | nil => rfl
  | cons p pairs ih =>
      rcases p with ⟨l, r⟩
      rcases h (l, r) List.mem_cons_self with ⟨hlen, md, hmd⟩
      have hmd : r.metadataP = .daos md := hmd
      have hdesc : descOf (l, r) =
          some ⟨md.devId, md.oh, r.addr / dkeySpan, entryOf (l, r)⟩ := by
        simp only [descOf, hmd]
      rw [fillBuckets, hmd, List.filterMap_cons_some hdesc]
      simp only
      rw [if_neg (fun hne => hne hlen), ih fun p hp => h p (List.mem_cons_of_mem _ hp)]
      rfl

/-- What the first pass leaves of the descriptors of one key: the handle of the
last, the entries of all. -/
theorem foldl_push (ds : List Desc) :
    ds.foldl (fun slot d => some (Slot.push slot d.oh d.entry)) none =
      ds.getLast?.map fun d => ⟨d.oh, ds.map Desc.entry⟩ := by
  induction ds using List.reverseRecOn with
  | nil => rfl
  | append_singleton ds d ih =>
      rw [List.foldl_append, ih, List.getLast?_concat]
      cases ds using List.reverseRecOn with
      | nil => rfl
      | append_singleton ds d' =>
          -- the handle of `d'` is overwritten
          rw [List.getLast?_concat]
          simp [Slot.push]

/-- A bucket has the entries with its key, and the handle of the last of them. -/
theorem getElem?_bucketsOf (ds : List Desc) (k : ℕ × ℕ) :
    (bucketsOf ∅ ds)[k]? = (ds.filter (Desc.key · = k)).getLast?.map fun d =>
      ⟨d.oh, (ds.filter (Desc.key · = k)).map Desc.entry⟩ := by
  rw [bucketsOf, OrderedMap.getElem?_collect, ← foldl_push]
  rw [ExtTreeMap.getElem?_empty]

/-- The hypothesis on lists, pair by pair. -/
theorem forall_of_paired {locals : List LocalDesc} {remotes : List RemoteDesc}
    (h : Paired locals remotes) :
    ∀ p ∈ locals.zip remotes, p.1.len = p.2.len ∧ ∃ md, p.2.metadataP = .daos md :=
  fun _ hp => (List.forall₂_iff_zip.mp h).2 hp

/-- `prepXfer` makes one group for each bucket. -/
theorem groupsOf_prepXfer {locals : List LocalDesc} {remotes : List RemoteDesc}
    (h : Paired locals remotes) (haveGpu : Bool) (op : XferOp) (localType : Mem) :
    groupsOf (prepXfer haveGpu op localType locals remotes) =
      (bucketsOf ∅ (descs locals remotes)).toList.map
        (layOut (haveGpu && decide (localType = .vram))) := by
  rw [prepXfer, if_neg (fun hne => hne h.length_eq)]
  split
  · -- refused, but there is nothing to group
    rename_i hempty
    rw [List.length_eq_zero_iff] at hempty
    subst hempty
    rfl
  · rw [fillBuckets_eq (forall_of_paired h)]
    rfl

/-- Laying a bucket out loses and changes no entry. -/
theorem items_layOut (localIsGpu : Bool) (bucket : (ℕ × ℕ) × Slot) :
    (layOut localIsGpu bucket).items = bucket.2.entries.map fun e =>
      ⟨bucket.2.oh, bucket.1.2, e.akey, e.len, e.buf⟩ := by
  rcases bucket with ⟨key, oh, ents⟩
  have hlen : (layOut localIsGpu (key, ⟨oh, ents⟩)).iods.length =
      (ents.map fun e => (⟨oh, key.2, e.akey, e.len, e.buf⟩ : Item)).length := by
    simp [layOut]
  have hone : ∀ i ∈ List.range (ents.map fun e =>
        (⟨oh, key.2, e.akey, e.len, e.buf⟩ : Item)).length,
      (layOut localIsGpu (key, ⟨oh, ents⟩)).item i =
        (ents.map fun e => (⟨oh, key.2, e.akey, e.len, e.buf⟩ : Item))[i]? := by
    intro i hi
    rw [List.length_map, List.mem_range] at hi
    simp [IoGroup.item, layOut, hi]
  rw [IoGroup.items, hlen, List.filterMap_congr hone, Groups.filterMap_getElem?_range]

/-- Its vectors have the entries in the same order. -/
theorem aligned_layOut (localIsGpu : Bool) (bucket : (ℕ × ℕ) × Slot) :
    (layOut localIsGpu bucket).Aligned bucket.2.entries := by
  rcases bucket with ⟨key, oh, ents⟩
  refine ⟨?_, ?_, ?_, ?_⟩
  · simp [layOut]
  · simp [layOut]
  · simp [layOut]
  · intro i e he
    have hi : i < ents.length := (List.getElem?_eq_some_iff.mp he).1
    have he : ents[i]? = some e := he
    refine ⟨⟨⟨i, 1, 1, i⟩, ?_, rfl, rfl, rfl, rfl⟩, ⟨⟨1, 0, i⟩, ?_, rfl, rfl⟩, ?_, ?_, ?_⟩
    · simp [layOut, hi]
    · simp [layOut, hi]
    · simp [layOut, he]
    · simp [layOut, he]
    · simp [layOut, he]

/-! ## Which object a descriptor goes to -/

/-- The handle of the last descriptor with the key. -/
def handleFor (ds : List Desc) (k : ℕ × ℕ) : Containers.Handle :=
  ((ds.filter (Desc.key · = k)).getLast?.map Desc.oh).getD 0

/-- A bucket of the map, spelled out. -/
theorem bucket_eq {ds : List Desc} {b : (ℕ × ℕ) × Slot} (hb : b ∈ (bucketsOf ∅ ds).toList) :
    b.2 = ⟨handleFor ds b.1, (ds.filter (Desc.key · = b.1)).map Desc.entry⟩ := by
  have hget := ExtTreeMap.mem_toList_iff_getElem?_eq_some.mp hb
  rw [getElem?_bucketsOf] at hget
  rcases Option.map_eq_some_iff.mp hget with ⟨d, hlast, hslot⟩
  rw [← hslot, handleFor, hlast]
  rfl

/-- Every descriptor is in one group, with the handle of the last descriptor
that shares its `devId` and dkey. -/
theorem items_perm (localIsGpu : Bool) (ds : List Desc) :
    (((bucketsOf ∅ ds).toList.map (layOut localIsGpu)).flatMap IoGroup.items).Perm
      (ds.map fun d => d.itemAt (handleFor ds d.key)) := by
  rw [List.flatMap_map]
  apply OrderedMap.perm_flatMap_collect
  -- one bucket holds the descriptors of its key, in their order
  intro b hb
  rw [items_layOut, bucket_eq hb, List.map_map]
  apply List.map_congr_left
  intro d hd
  have hkey : d.key = b.1 := of_decide_eq_true (List.mem_filter.mp hd).2
  rw [← hkey]
  rfl

/-- The handle of a bucket is that of one of its descriptors. -/
theorem exists_handleFor {ds : List Desc} {d : Desc} (hd : d ∈ ds) :
    ∃ d' ∈ ds, d'.key = d.key ∧ handleFor ds d.key = d'.oh := by
  have hne : ds.filter (Desc.key · = d.key) ≠ [] :=
    List.ne_nil_of_mem (List.mem_filter.mpr ⟨hd, by simp⟩)
  have hlast := List.mem_filter.mp (List.getLast_mem hne)
  refine ⟨_, hlast.1, of_decide_eq_true hlast.2, ?_⟩
  rw [handleFor, List.getLast?_eq_some_getLast hne]
  rfl

/-- Every descriptor goes to its own object if there is one handle for a key. -/
theorem handleFor_eq_iff {ds : List Desc} :
    (∀ d ∈ ds, handleFor ds d.key = d.oh) ↔ ∀ d ∈ ds, ∀ d' ∈ ds, d.key = d'.key → d.oh = d'.oh := by
  constructor
  · intro h d hd d' hd' hkey
    rw [← h d hd, ← h d' hd', hkey]
  · intro h d hd
    rcases exists_handleFor hd with ⟨d', hd', hkey, heq⟩
    rw [heq, h d' hd' d hd hkey]

/-- With a buffer of its own a descriptor is recognized in the groups. -/
theorem handleFor_of_perm {ds : List Desc} (hbuf : (ds.map fun d => d.entry.buf).Nodup)
    (hperm : (ds.map fun d => d.itemAt (handleFor ds d.key)).Perm (ds.map fun d => d.itemAt d.oh)) :
    ∀ d ∈ ds, handleFor ds d.key = d.oh := by
  intro d hd
  have hmem := hperm.mem_iff.mp (List.mem_map_of_mem
    (f := fun d : Desc => d.itemAt (handleFor ds d.key)) hd)
  rcases List.mem_map.mp hmem with ⟨d', hd', heq⟩
  -- the item of `d` can only be the one asked for by `d`
  have hsame : d' = d := List.inj_on_of_nodup_map hbuf hd' hd (congrArg Item.buf heq)
  rw [hsame] at heq
  exact (congrArg Item.oh heq).symm

section Lists

variable {locals : List LocalDesc} {remotes : List RemoteDesc}

/-- The items of all pairs. -/
theorem filterMap_own (locals : List LocalDesc) (remotes : List RemoteDesc) :
    (locals.zip remotes).filterMap own = (descs locals remotes).map fun d => d.itemAt d.oh := by
  rw [descs, List.map_filterMap]
  exact List.filterMap_congr fun p _ => own_eq p

/-- Which pairs give which descriptors. -/
theorem descOf_eq_some {p : LocalDesc × RemoteDesc} {d : Desc} : descOf p = some d ↔
    ∃ md, p.2.metadataP = .daos md ∧
      d = ⟨md.devId, md.oh, p.2.addr / dkeySpan, entryOf p⟩ := by
  unfold descOf
  cases p.2.metadataP with
  | null => simp
  | daos md => simp [eq_comm]
  | foreign => simp

/-- All groups together have each descriptor once, with the handle of its bucket. -/
theorem groups_perm (h : Paired locals remotes) (haveGpu : Bool) (op : XferOp)
    (localType : Mem) :
    ((groupsOf (prepXfer haveGpu op localType locals remotes)).flatMap IoGroup.items).Perm
      ((descs locals remotes).map fun d =>
        d.itemAt (handleFor (descs locals remotes) d.key)) := by
  rw [groupsOf_prepXfer h haveGpu op localType]
  exact items_perm _ _

/-- The pairs of a bucket. -/
def pairsOf (pairs : List (LocalDesc × RemoteDesc)) (k : ℕ × ℕ) :
    List (LocalDesc × RemoteDesc) :=
  pairs.filter fun p => (descOf p).any (Desc.key · = k)

/-- The entries of a bucket are those of its pairs. -/
theorem map_entryOf (pairs : List (LocalDesc × RemoteDesc)) (k : ℕ × ℕ) :
    (pairsOf pairs k).map entryOf =
      ((pairs.filterMap descOf).filter (Desc.key · = k)).map Desc.entry := by
  induction pairs with
  | nil => rfl
  | cons p pairs ih =>
      rw [pairsOf] at ih ⊢
      cases hdesc : descOf p with
      | none =>
          rw [List.filter_cons_of_neg (by simp [hdesc]), List.filterMap_cons_none hdesc, ih]
      | some d =>
          rcases descOf_eq_some.mp hdesc with ⟨md, -, hd⟩
          rw [List.filterMap_cons_some hdesc]
          by_cases hk : d.key = k
          · rw [List.filter_cons_of_pos (by simp [hdesc, hk]),
              List.filter_cons_of_pos (by simp [hk]), List.map_cons, List.map_cons, ih, hd]
          · rw [List.filter_cons_of_neg (by simp [hdesc, hk]),
              List.filter_cons_of_neg (by simp [hk]), ih]

/-- A pair of a bucket has the bucket's key. -/
theorem mem_pairsOf {pairs : List (LocalDesc × RemoteDesc)} {k : ℕ × ℕ}
    {p : LocalDesc × RemoteDesc} (hp : p ∈ pairsOf pairs k) :
    ∃ d ∈ pairs.filterMap descOf, descOf p = some d ∧ d.key = k := by
  rcases List.mem_filter.mp hp with ⟨hmem, hany⟩
  rcases (Option.any_eq_true ..).mp hany with ⟨d, hdesc, hkey⟩
  exact ⟨d, List.mem_filterMap.mpr ⟨p, hmem, hdesc⟩, hdesc, of_decide_eq_true hkey⟩

/-- A descriptor comes from a pair. -/
theorem mem_descs {d : Desc} : d ∈ descs locals remotes ↔ ∃ p ∈ locals.zip remotes,
    ∃ md, p.2.metadataP = .daos md ∧
      d = ⟨md.devId, md.oh, p.2.addr / dkeySpan, entryOf p⟩ := by
  simp only [descs, List.mem_filterMap, descOf_eq_some]

/-- Every remote descriptor has its local one. -/
theorem exists_pair (h : Paired locals remotes) {r : RemoteDesc} (hr : r ∈ remotes) :
    ∃ l, (l, r) ∈ locals.zip remotes := by
  rw [← List.map_snd_zip (Nat.le_of_eq h.length_eq.symm)] at hr
  rcases List.mem_map.mp hr with ⟨p, hp, rfl⟩
  exact ⟨p.1, hp⟩

/-- The condition, seen from the remote side. -/
theorem oneHandle_iff (h : Paired locals remotes) :
    OneHandle remotes ↔ ∀ d ∈ descs locals remotes, ∀ d' ∈ descs locals remotes,
      d.key = d'.key → d.oh = d'.oh := by
  constructor
  · intro hone d hd d' hd' hkey
    rcases mem_descs.mp hd with ⟨p, hp, md, hmd, rfl⟩
    rcases mem_descs.mp hd' with ⟨p', hp', md', hmd', rfl⟩
    have hkey := Prod.mk.inj hkey
    exact hone p.2 (List.of_mem_zip hp).2 p'.2 (List.of_mem_zip hp').2 md md' hmd hmd'
      hkey.1 hkey.2
  · intro hone r hr r' hr' md md' hmd hmd' hdev hdkey
    rcases exists_pair h hr with ⟨l, hl⟩
    rcases exists_pair h hr' with ⟨l', hl'⟩
    exact hone _ (mem_descs.mpr ⟨_, hl, md, hmd, rfl⟩) _ (mem_descs.mpr ⟨_, hl', md', hmd', rfl⟩)
      (Prod.ext hdev hdkey)

/-- The buffers are those of the local list, in order. -/
theorem bufs_sublist (locals : List LocalDesc) (remotes : List RemoteDesc) :
    ((descs locals remotes).map fun d => d.entry.buf).Sublist (locals.map LocalDesc.addr) := by
  induction locals generalizing remotes with
  | nil => exact List.Sublist.refl _
  | cons l locals ih => cases remotes with
    | nil => exact List.nil_sublist _
    | cons r remotes =>
        have hrest := ih remotes
        rw [descs] at hrest ⊢
        rw [List.zip_cons_cons, List.map_cons]
        cases hdesc : descOf (l, r) with
        | none =>
            rw [List.filterMap_cons_none hdesc]
            exact hrest.cons _
        | some d =>
            rcases descOf_eq_some.mp hdesc with ⟨md, -, rfl⟩
            rw [List.filterMap_cons_some hdesc, List.map_cons]
            exact hrest.cons_cons _

/-- With distinct buffers the condition is needed for these lists alone. -/
theorem oneHandle_of_directed (h : Paired locals remotes)
    (hbuf : (locals.map LocalDesc.addr).Nodup) {haveGpu : Bool} {op : XferOp} {localType : Mem}
    (hdir : Directed locals remotes (groupsOf (prepXfer haveGpu op localType locals remotes))) :
    OneHandle remotes := by
  have hperm := (groups_perm h haveGpu op localType).symm.trans hdir.items
  rw [filterMap_own] at hperm
  rw [oneHandle_iff h, ← handleFor_eq_iff]
  exact handleFor_of_perm (hbuf.sublist (bufs_sublist locals remotes)) hperm

/-- If descriptors with one key have one handle, everything is directed right. -/
theorem directed_of_oneHandle (h : Paired locals remotes) (hone : OneHandle remotes)
    (haveGpu : Bool) (op : XferOp) (localType : Mem) :
    Directed locals remotes (groupsOf (prepXfer haveGpu op localType locals remotes)) := by
  -- one handle for each bucket: grouping changes no descriptor's
  have heach := handleFor_eq_iff.mpr ((oneHandle_iff h).mp hone)
  refine ⟨?_, ?_⟩
  · apply (groups_perm h haveGpu op localType).trans
    rw [filterMap_own]
    refine List.Perm.of_eq (List.map_congr_left fun d hd => ?_)
    rw [heach d hd]
  · -- the group of a bucket takes its pairs, in their order
    intro g hg
    rw [groupsOf_prepXfer h] at hg
    rcases List.mem_map.mp hg with ⟨b, hb, rfl⟩
    refine ⟨pairsOf (locals.zip remotes) b.1, List.filter_sublist, ?_, ?_⟩
    · have hents : (pairsOf (locals.zip remotes) b.1).map entryOf = b.2.entries := by
        rw [map_entryOf, bucket_eq hb]
        rfl
      rw [hents]
      exact aligned_layOut _ _
    · -- each of them has the handle and the dkey of the bucket
      intro p hp
      rcases mem_pairsOf hp with ⟨d, hd, hdesc, hkey⟩
      rcases descOf_eq_some.mp hdesc with ⟨md, hmd, hfields⟩
      refine ⟨md, hmd, ?_, ?_⟩
      · calc md.oh = d.oh := by rw [hfields]
          _ = handleFor (descs locals remotes) b.1 := by rw [← heach d hd, hkey]
          _ = b.2.oh := by rw [bucket_eq hb]
      · calc p.2.addr / dkeySpan = d.key.2 := by rw [hfields]; rfl
          _ = b.1.2 := by rw [hkey]

end Lists

/-- Buffers at the addresses 0, 1, 2, … -/
def numbered (remotes : List RemoteDesc) : List LocalDesc :=
  remotes.zipIdx.map fun p => ⟨p.2, p.1.len, 0⟩

/-- Numbered buffers are different. -/
theorem nodup_numbered (remotes : List RemoteDesc) :
    ((numbered remotes).map LocalDesc.addr).Nodup := by
  have heq : (numbered remotes).map LocalDesc.addr = remotes.zipIdx.map Prod.snd := by
    rw [numbered, List.map_map]
    rfl
  rw [heq, List.zipIdx_map_snd]
  exact List.nodup_range'

/-- Every list of remotes has a local list to go with it. -/
theorem paired_numbered {remotes : List RemoteDesc}
    (h : ∀ r ∈ remotes, ∃ md, r.metadataP = .daos md) : Paired (numbered remotes) remotes := by
  rw [Paired, numbered, List.forall₂_map_left_iff]
  have hpairs : remotes = remotes.zipIdx.map Prod.fst := (List.zipIdx_map_fst ..).symm
  conv => right; rw [hpairs]
  rw [List.forall₂_map_right_iff, List.forall₂_same]
  intro p hp
  refine ⟨rfl, h p.1 ?_⟩
  rw [hpairs]
  exact List.mem_map_of_mem hp

/-- The groups of a request are for its descriptors, each for its own object,
whatever the local buffers, exactly when no two remote descriptors have one
`devId` and dkey and different handles. -/
theorem groups_directed_iff {remotes : List RemoteDesc}
    (h : ∀ r ∈ remotes, ∃ md, r.metadataP = .daos md) (haveGpu : Bool) (op : XferOp)
    (localType : Mem) :
    (∀ locals, Paired locals remotes →
      Directed locals remotes (groupsOf (prepXfer haveGpu op localType locals remotes))) ↔
    OneHandle remotes := by
  constructor
  · -- any local list will do whose buffers are distinct
    intro hall
    have hpaired := paired_numbered h
    exact oneHandle_of_directed hpaired (nodup_numbered remotes) (hall _ hpaired)
  · intro hone locals hpaired
    exact directed_of_oneHandle hpaired hone haveGpu op localType

/-- Objects of two containers, registered under one `devId`. -/
def objA : ObjMd := ⟨['p'], ['a'], 0, ⟨0, 7⟩, 7⟩

def objB : ObjMd := ⟨['p'], ['b'], 1, ⟨0, 7⟩, 7⟩

def remoteAt (addr : ℕ) (md : ObjMd) : RemoteDesc := ⟨addr, 4, .daos md⟩

/-- The two objects, each at a dkey of its own. -/
theorem distinct_dkeys_directed :
    Directed [⟨0, 4, 0⟩, ⟨8, 4, 0⟩] [remoteAt 0 objA, remoteAt dkeySpan objB]
      (groupsOf (prepXfer false .read .dram [⟨0, 4, 0⟩, ⟨8, 4, 0⟩]
        [remoteAt 0 objA, remoteAt dkeySpan objB])) := by
  refine (groups_directed_iff ?_ false .read .dram).mpr ?_ _ ?_
  · simp [remoteAt]
  · intro r hr r' hr' md md' hmd hmd' _ hdkey
    simp only [List.mem_cons, List.not_mem_nil, or_false] at hr hr'
    rcases hr with rfl | rfl <;> rcases hr' with rfl | rfl
    · exact congrArg ObjMd.oh (BackendMd.daos.inj (hmd.symm.trans hmd'))
    · exact absurd hdkey (by decide)
    · exact absurd hdkey (by decide)
    · exact congrArg ObjMd.oh (BackendMd.daos.inj (hmd.symm.trans hmd'))
  · simp [Paired, remoteAt]

/-- Both at one dkey: the engine registers them so, and both buffers go to the
second object. -/
theorem shared_devId_misdirects :
    (∃ s, (Containers.machine Containers.plainBuild).Reachable s ∧ s.live = [objA, objB]) ∧
      Paired [⟨0, 4, 0⟩, ⟨8, 4, 0⟩] [remoteAt 0 objA, remoteAt 0 objB] ∧
      ¬ Directed [⟨0, 4, 0⟩, ⟨8, 4, 0⟩] [remoteAt 0 objA, remoteAt 0 objB]
        (groupsOf (prepXfer false .read .dram [⟨0, 4, 0⟩, ⟨8, 4, 0⟩]
          [remoteAt 0 objA, remoteAt 0 objB])) := by
  refine ⟨?_, ?_, ?_⟩
  · exact Machine.Reachable.of_run (M := Containers.machine Containers.plainBuild) rfl
      [.register (Containers.blob 7 "p/a") .file [], .register (Containers.blob 7 "p/b") .file []]
      _ (by decide +kernel)
  · simp [Paired, remoteAt]
  · intro hdir
    have hitems : (groupsOf (prepXfer false .read .dram [⟨0, 4, 0⟩, ⟨8, 4, 0⟩]
        [remoteAt 0 objA, remoteAt 0 objB])).flatMap IoGroup.items =
          [⟨1, 0, 0, 4, 0⟩, ⟨1, 0, 0, 4, 8⟩] := by decide +kernel
    have hperm := hdir.items
    rw [hitems] at hperm
    exact absurd hperm (by decide +kernel)

end LmcacheDaos.Nixl.Transfer
