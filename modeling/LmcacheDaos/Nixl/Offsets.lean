import Mathlib.Data.List.Perm.Basic
import Mathlib.Tactic.IntervalCases
import LmcacheDaos.Nixl.Fetch

/-!
# Offsets

`daos_backend.h` says of a descriptor: `addr` is the offset within the object. An
object is read and written through the dkey and the akey that `prepXfer` cuts
`addr` into, and what a descriptor stands for is the array value under that akey,
from its first byte on, so that bytes written through one descriptor are not what
another reads that starts inside it.

A WRITE transfer is a list of descriptors for one registered object. Its groups
are updates that the pool's threads make in any order; each puts a buffer over
the beginning of a value. The reference is a byte-addressed object to which the
same writes are applied in the same order.

Result: whatever the buffers hold, a READ of bytes that were written fails or
returns the latest byte at every offset, exactly when it never succeeds, because
no write of any bytes began at the offset of one of its descriptors, or the latest
write over each of its bytes began at the offset where the read begins.
-/

namespace LmcacheDaos.Nixl.Transfer

open Lib
open Containers (ObjMd Mem)
open Request (Follows poll recorded)

/-! ## A byte-addressed object -/

/-- The byte at each offset, none where nothing was written. -/
abbrev ByteObject := ℕ → Option UInt8

def ByteObject.write (o : ByteObject) (addr : ℕ) (bytes : Bytes) : ByteObject :=
  fun x => if addr ≤ x ∧ x < addr + bytes.length then bytes[x - addr]? else o x

/-- A range of offsets. -/
structure Extent where
  addr : ℕ
  len : ℕ
deriving DecidableEq, Repr

def Extent.Covers (e : Extent) (x : ℕ) : Prop := e.addr ≤ x ∧ x < e.addr + e.len

instance (e : Extent) (x : ℕ) : Decidable (e.Covers x) :=
  inferInstanceAs (Decidable (e.addr ≤ x ∧ x < e.addr + e.len))

/-! ## WRITE transfers -/

def Extent.remote (md : ObjMd) (e : Extent) : RemoteDesc := ⟨e.addr, e.len, .daos md⟩

/-- The range that an item stands for. -/
def Item.extent (it : Item) : Extent := ⟨it.dkey * dkeySpan + it.akey, it.len⟩

/-- The remote side of a WRITE: the ranges in the order of the descriptors, and in
the order in which they are applied. -/
structure WriteShape where
  extents : List Extent
  applied : List Extent
  perm : applied.Perm extents

def WriteShape.remotes (md : ObjMd) (w : WriteShape) : List RemoteDesc :=
  w.extents.map (Extent.remote md)

/-- A WRITE that succeeded. -/
structure WriteXfer (md : ObjMd) where
  shape : WriteShape
  haveGpu : Bool
  localType : Mem
  locals : List LocalDesc
  /-- the bytes at the local addresses -/
  memory : ℕ → UInt8
  /-- what the groups come to, in the order in which it is applied -/
  items : List Item
  paired : Paired locals (shape.remotes md)
  perm : items.Perm
    ((groupsOf (prepXfer haveGpu .write localType locals (shape.remotes md))).flatMap IoGroup.items)
  order : items.map Item.extent = shape.applied

/-- One extent of an update, with the bytes of its buffer. -/
structure Update where
  item : Item
  bytes : Bytes
  length_eq : bytes.length = item.len

def Update.extent (u : Update) : Extent := u.item.extent

/-- The buffer of an item. -/
def payload (memory : ℕ → UInt8) (it : Item) : Bytes :=
  (List.range it.len).map fun k => memory (it.buf + k)

theorem length_payload (memory : ℕ → UInt8) (it : Item) : (payload memory it).length = it.len := by
  simp [payload]

def WriteXfer.updates {md : ObjMd} (t : WriteXfer md) : List Update :=
  t.items.map fun it => ⟨it, payload t.memory it, length_payload t.memory it⟩

/-- `daos_obj_update` of one iod: `rx_idx` is 0, so the bytes go over the
beginning of the value. -/
def update (store : Store) (u : Update) : Store := fun oh dkey akey =>
  if oh = u.item.oh ∧ dkey = u.item.dkey ∧ akey = u.item.akey then
    SparseFile.writeAt 0 (store oh dkey akey) 0 u.bytes
  else store oh dkey akey

def stored (us : List Update) : Store := us.foldl update fun _ _ _ => []

/-- The same writes to a byte-addressed object. -/
def byteObject (us : List Update) : ByteObject :=
  us.foldl (fun o u => o.write u.extent.addr u.bytes) fun _ => none

/-- All updates of a sequence of transfers. -/
def updatesOf {md : ObjMd} (ts : List (WriteXfer md)) : List Update :=
  ts.flatMap WriteXfer.updates

/-! ## READ transfers -/

/-- In every run of the READ, a poll that answers success finds every buffer filled
with the latest bytes of its range. -/
def ReturnsLatest (us : List Update) (locals : List LocalDesc) (reads : List Extent)
    (groups : List IoGroup) : Prop :=
  ∀ rc as s bs s', Follows .read (jobOutcome (stored us) groups rc) (as ++ bs) →
    (Request.machine groups.length).run Request.initial as = some s → .post ∉ bs →
    (Request.machine groups.length).run s bs = some s' → poll s s' = .success →
    ∀ p ∈ locals.zip reads, ∃ bytes,
      (p.1.addr, bytes) ∈ fills (stored us) groups rc (recorded groups.length as) ∧
        bytes.map some = (List.range p.2.len).map fun k => byteObject us (p.2.addr + k)

/-- All ranges written, in the order in which they were applied. -/
def history (shapes : List WriteShape) : List Extent := shapes.flatMap WriteShape.applied

/-- The range of the latest write over `x`. -/
def latestOver (hist : List Extent) (x : ℕ) : Option Extent :=
  (hist.filter (·.Covers x)).getLast?

/-- No write of any bytes began at the offset of one of the descriptors, so that its akey
is absent and the READ never succeeds. Writes that began elsewhere may have covered it. -/
def NeverSucceeds (hist reads : List Extent) : Prop :=
  ∃ r ∈ reads, ∀ e ∈ hist, e.addr = r.addr → e.len = 0

/-- The latest write over each byte began where the read begins. -/
def SameStart (hist reads : List Extent) : Prop :=
  ∀ r ∈ reads, ∀ x, r.Covers x → ∃ e, latestOver hist x = some e ∧ e.addr = r.addr

/-! ## What a byte-addressed object holds -/

/-- The last update over an offset decides. -/
theorem byteObject_append (us : List Update) (u : Update) (x : ℕ) :
    byteObject (us ++ [u]) x =
      if u.extent.Covers x then u.bytes[x - u.extent.addr]? else byteObject us x := by
  have hlen : u.bytes.length = u.extent.len := u.length_eq
  rw [byteObject, List.foldl_append, List.foldl_cons, List.foldl_nil, ByteObject.write, hlen]
  exact if_congr Iff.rfl rfl rfl

/-- The byte at an offset is that of the latest write over it. -/
theorem byteObject_eq (us : List Update) (x : ℕ) : byteObject us x =
    (us.filter (·.extent.Covers x)).getLast?.bind fun u => u.bytes[x - u.extent.addr]? := by
  induction us using List.reverseRecOn with
  | nil => rfl
  | append_singleton us u ih =>
      rw [byteObject_append, List.filter_append]
      split
      · rename_i hcov
        rw [List.filter_cons_of_pos (by simpa using hcov), List.filter_nil, List.getLast?_concat]
        rfl
      · rename_i hcov
        rw [List.filter_cons_of_neg (by simpa using hcov), List.filter_nil, List.append_nil, ih]

/-- An offset that no update covers was never written. -/
theorem byteObject_eq_none_iff {us : List Update} {x : ℕ} :
    byteObject us x = none ↔ ∀ u ∈ us, ¬ u.extent.Covers x := by
  induction us using List.reverseRecOn with
  | nil => exact iff_of_true rfl fun _ hu => absurd hu List.not_mem_nil
  | append_singleton us u ih =>
      have hlen : u.bytes.length = u.extent.len := u.length_eq
      rw [byteObject_append, List.forall_mem_append, List.forall_mem_singleton]
      split
      · rename_i hcov
        have hin : x - u.extent.addr < u.bytes.length := by
          rw [hlen]
          rw [Extent.Covers] at hcov
          omega
        rw [List.getElem?_eq_getElem hin]
        exact iff_of_false (Option.some_ne_none _) fun hboth => hboth.2 hcov
      · rename_i hcov
        rw [ih]
        exact (and_iff_left hcov).symm

/-- A byte that is there belongs to the latest write over its offset. -/
theorem mem_bytes_of_byteObject {us : List Update} {x : ℕ} {b : UInt8}
    (h : byteObject us x = some b) :
    ∃ u ∈ us, (us.filter (·.extent.Covers x)).getLast? = some u ∧ b ∈ u.bytes := by
  rw [byteObject_eq, Option.bind_eq_some_iff] at h
  rcases h with ⟨u, hlast, hget⟩
  exact ⟨u, (List.mem_filter.mp (List.mem_of_getLast? hlast)).1, hlast, List.mem_of_getElem? hget⟩

/-- The last extent over an offset is that of the last update over it. -/
theorem latestOver_map (us : List Update) (x : ℕ) : latestOver (us.map Update.extent) x =
    (us.filter (·.extent.Covers x)).getLast?.map Update.extent := by
  rw [latestOver, List.filter_map, List.getLast?_map]
  rfl

/-- The write that is the latest over an offset is the latest of those that began
where it did. -/
theorem byteObject_filter {us : List Update} {a x : ℕ} {e : Extent}
    (hlatest : latestOver (us.map Update.extent) x = some e) (haddr : e.addr = a) :
    byteObject (us.filter (·.extent.addr = a)) x = byteObject us x := by
  rw [latestOver_map, Option.map_eq_some_iff] at hlatest
  rcases hlatest with ⟨u, hlast, rfl⟩
  have hpart : ((us.filter (·.extent.Covers x)).filter (·.extent.addr = a)).getLast? = some u := by
    rcases List.getLast?_eq_some_iff.mp hlast with ⟨front, heq⟩
    rw [heq, List.filter_append, List.filter_cons_of_pos (by simpa using haddr), List.filter_nil,
      List.getLast?_concat]
  rw [byteObject_eq, byteObject_eq, List.filter_comm, hpart, hlast]

/-! ## What the store holds -/

/-- A dkey and an akey are an offset. -/
theorem split_eq_iff {a dkey akey : ℕ} (h : akey < dkeySpan) :
    (a / dkeySpan = dkey ∧ a % dkeySpan = akey) ↔ dkey * dkeySpan + akey = a := by
  constructor
  · rintro ⟨rfl, rfl⟩
    exact Nat.div_add_mod' a dkeySpan
  · rintro rfl
    refine ⟨?_, Nat.mul_add_mod_of_lt h⟩
    rw [Nat.mul_comm, Nat.mul_add_div (by omega), Nat.div_eq_of_lt h, Nat.add_zero]

/-- What a value holds: the latest bytes among the writes that began at its
offset. -/
theorem getElem?_stored {md : ObjMd} {us : List Update}
    (hus : ∀ u ∈ us, u.item.oh = md.oh ∧ u.item.akey < dkeySpan) (a k : ℕ) :
    (stored us md.oh (a / dkeySpan) (a % dkeySpan))[k]? =
      byteObject (us.filter (·.extent.addr = a)) (a + k) := by
  -- on the updates, the last one first
  induction us using List.reverseRecOn with
  | nil => rfl
  | append_singleton us u ih =>
      have hu := hus u (by simp)
      have hrest := ih fun u' hu' => hus u' (List.mem_append_left _ hu')
      rw [stored, List.foldl_append, List.foldl_cons, List.foldl_nil, List.filter_append, update]
      -- the last update is at this address: it overwrites the front of the akey
      by_cases haddr : u.extent.addr = a
      · have hsplit := (split_eq_iff hu.2).mpr haddr
        rw [if_pos ⟨hu.1.symm, hsplit⟩, List.filter_cons_of_pos (by simpa using haddr),
          List.filter_nil, byteObject_append, SparseFile.writeAt_of_le (Nat.zero_le _),
          List.take_zero, List.nil_append, Nat.zero_add]
        have hlen : u.bytes.length = u.extent.len := u.length_eq
        -- a byte it covers is its own
        by_cases hk : k < u.extent.len
        · have hcov : u.extent.Covers (a + k) := by
            rw [Extent.Covers, haddr]
            omega
          rw [if_pos hcov, haddr, Nat.add_sub_cancel_left,
            List.getElem?_append_left (by omega)]
        · -- behind it the akey keeps what it had, as the object does
          have hcov : ¬ u.extent.Covers (a + k) := by
            rw [Extent.Covers, haddr]
            omega
          rw [if_neg hcov, List.getElem?_append_right (by omega), List.getElem?_drop,
            Nat.add_sub_cancel' (by omega)]
          exact hrest
      · -- at another address it names another entry, and the akey keeps its bytes
        rw [if_neg fun hkey => haddr ((split_eq_iff hu.2).mp hkey.2),
          List.filter_cons_of_neg (by simpa using haddr), List.filter_nil, List.append_nil]
        exact hrest

/-- The akey of an offset is absent just if no write of any bytes began there. -/
theorem stored_eq_nil_iff {md : ObjMd} {us : List Update}
    (hus : ∀ u ∈ us, u.item.oh = md.oh ∧ u.item.akey < dkeySpan) (a : ℕ) :
    stored us md.oh (a / dkeySpan) (a % dkeySpan) = [] ↔
      ∀ u ∈ us, u.extent.addr = a → u.extent.len = 0 := by
  rw [← List.getElem?_eq_none_iff.trans (Nat.le_zero.trans List.length_eq_zero_iff),
    getElem?_stored hus, byteObject_eq_none_iff]
  constructor
  · intro hnone u hu haddr
    have hcov := hnone u (List.mem_filter.mpr ⟨hu, decide_eq_true haddr⟩)
    rw [Extent.Covers, haddr] at hcov
    omega
  · intro hall u hu hcov
    rcases List.mem_filter.mp hu with ⟨hmem, haddr⟩
    have haddr := of_decide_eq_true haddr
    have hlen := hall u hmem haddr
    rw [Extent.Covers, haddr] at hcov
    omega

/-! ## Groups for one object -/

section Lists

variable {md : ObjMd} {es : List Extent} {locals : List LocalDesc}

theorem exists_md (md : ObjMd) (es : List Extent) :
    ∀ r ∈ es.map (Extent.remote md), ∃ md', r.metadataP = .daos md' := by
  intro r hr
  rcases List.mem_map.mp hr with ⟨e, _, rfl⟩
  exact ⟨md, rfl⟩

/-- The descriptor of a buffer and a range. -/
def descFor (md : ObjMd) (p : LocalDesc × Extent) : Desc :=
  ⟨md.devId, md.oh, p.2.addr / dkeySpan, ⟨p.2.addr % dkeySpan, p.2.len, p.1.addr, p.1.devId⟩⟩

/-- With one object every pair gives its own descriptor. -/
theorem mem_descs_remote {d : Desc} : d ∈ descs locals (es.map (Extent.remote md)) ↔
    ∃ p ∈ locals.zip es, d = descFor md p := by
  rw [mem_descs, List.zip_map_right]
  simp only [List.mem_map, Prod.exists]
  constructor
  · rintro ⟨l, r, ⟨l', e, hmem, heq⟩, md', hmd, rfl⟩
    cases heq
    cases hmd
    exact ⟨l', e, hmem, rfl⟩
  · rintro ⟨l, e, hmem, rfl⟩
    exact ⟨l, e.remote md, ⟨l, e, hmem, rfl⟩, md, rfl, rfl⟩

/-- With one object there is one handle. -/
theorem handleFor_remote {d : Desc} (hd : d ∈ descs locals (es.map (Extent.remote md))) :
    handleFor (descs locals (es.map (Extent.remote md))) d.key = md.oh := by
  rcases exists_handleFor hd with ⟨d', hd', -, heq⟩
  rcases mem_descs_remote.mp hd' with ⟨p, -, rfl⟩
  exact heq

/-- The item of a buffer and a range. -/
def itemOf (md : ObjMd) (p : LocalDesc × Extent) : Item :=
  ⟨md.oh, p.2.addr / dkeySpan, p.2.addr % dkeySpan, p.2.len, p.1.addr⟩

theorem extent_itemOf (p : LocalDesc × Extent) : (itemOf md p).extent = p.2 := by
  rw [itemOf, Item.extent]
  exact congrArg (Extent.mk · p.2.len) (Nat.div_add_mod' p.2.addr dkeySpan)

/-- With one object the groups have one item for each pair. -/
theorem items_perm_remote (h : Paired locals (es.map (Extent.remote md))) (haveGpu : Bool)
    (op : XferOp) (localType : Mem) :
    ((groupsOf (prepXfer haveGpu op localType locals (es.map (Extent.remote md)))).flatMap
      IoGroup.items).Perm ((locals.zip es).map (itemOf md)) := by
  refine (groups_perm h haveGpu op localType).trans (List.Perm.of_eq ?_)
  have hown : (descs locals (es.map (Extent.remote md))).map (fun d => d.itemAt md.oh) =
      (locals.zip es).map (itemOf md) := by
    rw [descs, List.zip_map_right, List.filterMap_map, List.map_filterMap, ← List.filterMap_eq_map]
    rfl
  rw [← hown]
  exact List.map_congr_left fun d hd => congrArg d.itemAt (handleFor_remote hd)

/-- Every range read has a local buffer. -/
theorem exists_zip (h : Paired locals (es.map (Extent.remote md))) {e : Extent} (he : e ∈ es) :
    ∃ l, (l, e) ∈ locals.zip es := by
  have hlen : es.length ≤ locals.length := by
    rw [h.length_eq, List.length_map]
  rw [← List.map_snd_zip hlen] at he
  rcases List.mem_map.mp he with ⟨p, hp, rfl⟩
  exact ⟨p.1, hp⟩

end Lists

/-- Updates of a WRITE go to the object and to an akey within the span. -/
theorem WriteXfer.mem_updates {md : ObjMd} {t : WriteXfer md} {u : Update} (hu : u ∈ t.updates) :
    u.item.oh = md.oh ∧ u.item.akey < dkeySpan := by
  rcases List.mem_map.mp hu with ⟨it, hit, rfl⟩
  have hperm := t.perm.trans (items_perm_remote t.paired t.haveGpu .write t.localType)
  rcases List.mem_map.mp (hperm.mem_iff.mp hit) with ⟨p, -, rfl⟩
  exact ⟨rfl, Nat.mod_lt _ (by decide)⟩

/-- The same of all WRITEs. -/
theorem mem_updatesOf {md : ObjMd} (ts : List (WriteXfer md)) :
    ∀ u ∈ updatesOf ts, u.item.oh = md.oh ∧ u.item.akey < dkeySpan := by
  intro u hu
  rcases List.mem_flatMap.mp hu with ⟨t, -, hmem⟩
  exact t.mem_updates hmem

/-- The history of extents is that of the updates. -/
theorem map_extent_updatesOf {md : ObjMd} (ts : List (WriteXfer md)) :
    (updatesOf ts).map Update.extent = history (ts.map WriteXfer.shape) := by
  rw [updatesOf, history, List.map_flatMap, List.flatMap_map]
  apply List.flatMap_congr
  intro t _
  rw [← t.order, WriteXfer.updates, List.map_map]
  rfl

/-! ## The READ -/

section Reads

variable {md : ObjMd} {us : List Update} {locals : List LocalDesc} {reads : List Extent}

/-- Bytes that agree with a byte-addressed object offset by offset. -/
theorem map_some_take {v : Bytes} {n : ℕ} {f : ℕ → Option UInt8} (h : ∀ k, k < n → v[k]? = f k)
    (hsome : ∀ k, k < n → f k ≠ none) : (v.take n).map some = (List.range n).map f := by
  have hlen : n ≤ v.length := by
    by_contra hlt
    exact hsome v.length (by omega) (by rw [← h v.length (by omega), List.getElem?_eq_none le_rfl])
  apply List.ext_getElem
  · rw [List.length_map, List.length_map, List.length_take, List.length_range]
    omega
  · intro k hk hk'
    rw [List.length_map, List.length_range] at hk'
    rw [List.getElem_map, List.getElem_map, List.getElem_range, List.getElem_take, ← h k hk',
      List.getElem?_eq_getElem]

/-- The READ returns the last bytes wherever the last write began at the range's own offset.
-/
theorem returnsLatest_of (hus : ∀ u ∈ us, u.item.oh = md.oh ∧ u.item.akey < dkeySpan)
    (h : Paired locals (reads.map (Extent.remote md)))
    (hwritten : ∀ r ∈ reads, ∀ x, r.Covers x → ∃ e ∈ us.map Update.extent, e.Covers x)
    (hcond : NeverSucceeds (us.map Update.extent) reads ∨ SameStart (us.map Update.extent) reads)
    {groups : List IoGroup}
    (hgroups : ∀ p ∈ locals.zip reads, itemOf md p ∈ groups.flatMap IoGroup.items) :
    ReturnsLatest us locals reads groups := by
  intro rc as s bs s' hf hrun hpost hlater hpoll p hp
  have hfetched : ∀ p ∈ locals.zip reads, (itemOf md p).value (stored us) ≠ [] ∧
      (p.1.addr, ((itemOf md p).value (stored us)).take p.2.len) ∈
        fills (stored us) groups rc (recorded groups.length as) := by
    intro p hp
    exact fetched_of_success hf hrun hpost hlater hpoll (hgroups p hp)
  rcases hcond with ⟨r, hr, hnever⟩ | hsame
  · -- the READ has not succeeded: an akey is absent
    rcases exists_zip h hr with ⟨l, hl⟩
    apply absurd ((stored_eq_nil_iff hus r.addr).mpr _) (hfetched _ hl).1
    intro u hu haddr
    exact hnever u.extent (List.mem_map_of_mem hu) haddr
  · refine ⟨_, (hfetched p hp).2, map_some_take ?_ ?_⟩
    · intro k hk
      rcases hsame p.2 (List.of_mem_zip hp).2 (p.2.addr + k) ⟨Nat.le_add_right _ _, by omega⟩ with
        ⟨e, hlatest, haddr⟩
      exact (getElem?_stored hus p.2.addr k).trans (byteObject_filter hlatest haddr)
    · intro k hk hnone
      rcases hwritten p.2 (List.of_mem_zip hp).2 (p.2.addr + k)
        ⟨Nat.le_add_right _ _, by omega⟩ with ⟨e, he, hcov⟩
      rcases List.mem_map.mp he with ⟨u, hu, rfl⟩
      exact byteObject_eq_none_iff.mp hnone u hu hcov

end Reads

/-! ## Marked buffers -/

/-- A buffer for a range: those that begin at `a` are at the bottom of the memory,
the others from `bound` on. -/
def markedBuffer (a bound : ℕ) (e : Extent) : LocalDesc :=
  ⟨if e.addr = a then 0 else bound, e.len, 0⟩

/-- 1 below `bound`, 0 from there on -/
def markedMemory (bound : ℕ) (x : ℕ) : UInt8 := if x < bound then 1 else 0

/-- Every extent with the buffer marked for it. -/
theorem zip_markedBuffer (a bound : ℕ) (es : List Extent) :
    (es.map (markedBuffer a bound)).zip es = es.map fun e => (markedBuffer a bound e, e) := by
  conv => left; right; rw [← List.map_id es]
  rw [List.zip_map']
  rfl

/-- Marked buffers go with their extents. -/
theorem paired_marked (md : ObjMd) (a bound : ℕ) (es : List Extent) :
    Paired (es.map (markedBuffer a bound)) (es.map (Extent.remote md)) := by
  rw [Paired, List.forall₂_map_left_iff, List.forall₂_map_right_iff, List.forall₂_same]
  intro e _
  exact ⟨rfl, md, rfl⟩

/-- A WRITE in which the ranges that begin at `a` get ones and the others get
zeros. -/
def WriteShape.marked (md : ObjMd) (a : ℕ) (w : WriteShape) : WriteXfer md :=
  let bound := (w.extents.map Extent.len).sum
  { shape := w
    haveGpu := false
    localType := .dram
    locals := w.extents.map (markedBuffer a bound)
    memory := markedMemory bound
    items := w.applied.map fun e => itemOf md (markedBuffer a bound e, e)
    paired := paired_marked md a bound w.extents
    perm := by
      refine List.Perm.trans ?_ (items_perm_remote (paired_marked md a bound w.extents)
        false .write .dram).symm
      rw [zip_markedBuffer, List.map_map]
      exact w.perm.map _
    order := by
      rw [List.map_map]
      exact (List.map_congr_left fun e _ => extent_itemOf _).trans (List.map_id _) }

/-- A marked write carries ones exactly if it begins at the offset. -/
theorem WriteShape.bytes_marked {md : ObjMd} {a : ℕ} {w : WriteShape} {u : Update}
    (hu : u ∈ (w.marked md a).updates) : ∀ b ∈ u.bytes, b = if u.extent.addr = a then 1 else 0 := by
  rcases List.mem_map.mp hu with ⟨it, hit, rfl⟩
  rcases List.mem_map.mp hit with ⟨e, he, rfl⟩
  intro b hb
  rcases List.mem_map.mp hb with ⟨k, hk, rfl⟩
  have hk : k < e.len := List.mem_range.mp hk
  have hle : e.len ≤ (w.extents.map Extent.len).sum :=
    List.le_sum_of_mem (List.mem_map_of_mem (w.perm.mem_iff.mp he))
  have haddr : (itemOf md (markedBuffer a (w.extents.map Extent.len).sum e, e)).extent.addr =
      e.addr := congrArg Extent.addr (extent_itemOf _)
  rw [Update.extent, haddr]
  show markedMemory _ ((if e.addr = a then 0 else _) + k) = _
  split
  · exact if_pos (by omega)
  · exact if_neg (by omega)

/-- The same of all marked writes. -/
theorem bytes_updatesOf_marked {md : ObjMd} {a : ℕ} {shapes : List WriteShape} {u : Update}
    (hu : u ∈ updatesOf (shapes.map (WriteShape.marked md a))) :
    ∀ b ∈ u.bytes, b = if u.extent.addr = a then 1 else 0 := by
  rcases List.mem_flatMap.mp hu with ⟨t, ht, hmem⟩
  rcases List.mem_map.mp ht with ⟨w, -, rfl⟩
  exact WriteShape.bytes_marked hmem

/-- Marking changes the bytes only. -/
theorem map_shape_marked (md : ObjMd) (a : ℕ) (shapes : List WriteShape) :
    (shapes.map (WriteShape.marked md a)).map WriteXfer.shape = shapes := by
  rw [List.map_map]
  exact List.map_id _

/-- What a READ with something under every offset returns, if it is right. -/
theorem take_of_returnsLatest {md : ObjMd} {us : List Update} {reads : List Extent}
    {haveGpu : Bool} {localType : Mem}
    (hreturns : ReturnsLatest us (numbered (reads.map (Extent.remote md))) reads
      (readGroups haveGpu localType (numbered (reads.map (Extent.remote md)))
        (reads.map (Extent.remote md))))
    (hvalue : ∀ r ∈ reads, stored us md.oh (r.addr / dkeySpan) (r.addr % dkeySpan) ≠ [])
    {r : Extent} (hr : r ∈ reads) :
    ((stored us md.oh (r.addr / dkeySpan) (r.addr % dkeySpan)).take r.len).map some =
      (List.range r.len).map fun k => byteObject us (r.addr + k) := by
  have hpaired := paired_numbered (exists_md md reads)
  have hnodup := nodup_numbered (reads.map (Extent.remote md))
  generalize numbered (reads.map (Extent.remote md)) = locals at *
  -- every descriptor names this object, so its handle finds the object's entries
  have hfound : ∀ d ∈ descs locals (reads.map (Extent.remote md)),
      d.found (stored us) (descs locals (reads.map (Extent.remote md))) =
        stored us md.oh d.dkey d.entry.akey := by
    intro d hd
    rw [Desc.found, handleFor_remote hd]
    rfl
  have hpresent : ∀ d ∈ descs locals (reads.map (Extent.remote md)),
      d.found (stored us) (descs locals (reads.map (Extent.remote md))) ≠ [] := by
    intro d hd
    rw [hfound d hd]
    rcases mem_descs_remote.mp hd with ⟨p, hp, rfl⟩
    exact hvalue p.2 (List.of_mem_zip hp).2
  rcases exists_zip hpaired hr with ⟨l, hl⟩
  have hd : descFor md (l, r) ∈ descs locals (reads.map (Extent.remote md)) :=
    mem_descs_remote.mpr ⟨(l, r), hl, rfl⟩
  -- so the read of all of them can succeed
  rcases exists_success hpaired haveGpu localType (List.ne_nil_of_mem hd) hpresent with
    ⟨rc, as, s, hf, hrun, hpoll⟩
  rcases hreturns rc as s [] s (by rwa [List.append_nil]) hrun (by simp) rfl hpoll (l, r) hl with
    ⟨bytes, hfill, hbytes⟩
  have hread := found_of_fill hpaired hnodup hd hfill
  rw [hfound _ hd] at hread
  rw [← hbytes, hread]
  rfl

/-- With marked buffers a READ that starts inside the latest write is wrong. -/
theorem sameStart_of_marked {us : List Update} {r : Extent} {x : ℕ} (hx : r.Covers x)
    {md : ObjMd} (hus : ∀ u ∈ us, u.item.oh = md.oh ∧ u.item.akey < dkeySpan)
    (hmark : ∀ u ∈ us, ∀ b ∈ u.bytes, b = if u.extent.addr = r.addr then 1 else 0)
    (hcov : ∃ e ∈ us.map Update.extent, e.Covers x)
    (hread : ((stored us md.oh (r.addr / dkeySpan) (r.addr % dkeySpan)).take r.len).map some =
      (List.range r.len).map fun k => byteObject us (r.addr + k)) :
    ∃ e, latestOver (us.map Update.extent) x = some e ∧ e.addr = r.addr := by
  rw [Extent.Covers] at hx
  have hk : x - r.addr < r.len := by omega
  have hat := congrArg (·[x - r.addr]?) hread
  simp only [List.getElem?_map, List.getElem?_range hk, Option.map_some,
    Nat.add_sub_cancel' hx.1, List.getElem?_take_of_lt hk, getElem?_stored hus] at hat
  cases hobj : byteObject us x with
  | none =>
      rcases hcov with ⟨e, he, hcov⟩
      rcases List.mem_map.mp he with ⟨u, hu, rfl⟩
      exact absurd hcov (byteObject_eq_none_iff.mp hobj u hu)
  | some b =>
      rcases mem_bytes_of_byteObject hobj with ⟨u, hu, hlast, hb⟩
      refine ⟨u.extent, by rw [latestOver_map, hlast]; rfl, ?_⟩
      rw [hobj] at hat
      rcases Option.map_eq_some_iff.mp hat with ⟨b', hget, heq⟩
      cases heq
      -- the byte that is read comes from a write that began at `r.addr`: it is a one
      rcases mem_bytes_of_byteObject hget with ⟨u', hu', -, hb'⟩
      rcases List.mem_filter.mp hu' with ⟨hmem, haddr⟩
      have hone := hmark u' hmem b hb'
      rw [if_pos (of_decide_eq_true haddr)] at hone
      by_contra hne
      have hzero := hmark u hu b hb
      rw [if_neg hne, hone] at hzero
      exact absurd hzero (by decide)

/-- Whatever the buffers hold, a READ of bytes that were written fails or returns the
latest ones, exactly when no write of any bytes began at the offset of one of its
descriptors, or the latest write over each of its bytes began where it begins. -/
theorem offset_addresses_bytes_iff (md : ObjMd) (shapes : List WriteShape) (reads : List Extent)
    (hwritten : ∀ r ∈ reads, ∀ x, r.Covers x → ∃ e ∈ history shapes, e.Covers x)
    (haveGpu : Bool) (localType : Mem) :
    (∀ ts : List (WriteXfer md), ts.map WriteXfer.shape = shapes →
      ∀ locals, Paired locals (reads.map (Extent.remote md)) →
        ReturnsLatest (updatesOf ts) locals reads
          (groupsOf (prepXfer haveGpu .read localType locals (reads.map (Extent.remote md))))) ↔
    NeverSucceeds (history shapes) reads ∨ SameStart (history shapes) reads := by
  constructor
  · intro hall
    by_cases hnever : NeverSucceeds (history shapes) reads
    · exact .inl hnever
    · refine .inr fun r hr x hx => ?_
      have hus := mem_updatesOf (shapes.map (WriteShape.marked md r.addr))
      have hmark := fun u hu => @bytes_updatesOf_marked md r.addr shapes u hu
      have hhist := map_extent_updatesOf (shapes.map (WriteShape.marked md r.addr))
      rw [map_shape_marked] at hhist
      have hreturns := hall _ (map_shape_marked md r.addr shapes) _
        (paired_numbered (exists_md md reads))
      rw [← hhist] at hwritten hnever ⊢
      refine sameStart_of_marked hx hus hmark (hwritten r hr x hx)
        (take_of_returnsLatest hreturns ?_ hr)
      -- something is under every offset
      intro r' hr' hnil
      refine hnever ⟨r', hr', ?_⟩
      intro e he
      rcases List.mem_map.mp he with ⟨u, hu, rfl⟩
      exact (stored_eq_nil_iff hus r'.addr).mp hnil u hu
  · intro hcond ts hts locals hpaired
    rw [← hts, ← map_extent_updatesOf] at hcond hwritten
    apply returnsLatest_of (mem_updatesOf ts) hpaired hwritten hcond
    intro p hp
    exact (items_perm_remote hpaired haveGpu .read localType).mem_iff.mpr
      (List.mem_map_of_mem hp)

/-- A WRITE of one range. -/
def WriteShape.single (e : Extent) : WriteShape := ⟨[e], [e], List.Perm.refl _⟩

/-- Eight bytes, then the first four of them again. -/
def headRewritten : List (WriteXfer objA) :=
  [(WriteShape.single ⟨0, 8⟩).marked objA 0, (WriteShape.single ⟨0, 4⟩).marked objA 0]

/-- A rewrite of the first bytes is read back together with the rest. -/
theorem head_rewritten_returned :
    ReturnsLatest (updatesOf headRewritten) [⟨0, 8, 0⟩] [⟨0, 8⟩]
      (groupsOf (prepXfer false .read .dram [⟨0, 8, 0⟩] [⟨0, 8, .daos objA⟩])) := by
  refine (offset_addresses_bytes_iff objA [WriteShape.single ⟨0, 8⟩, WriteShape.single ⟨0, 4⟩]
    [⟨0, 8⟩] ?_ false .dram).mpr (.inr ?_) headRewritten rfl [⟨0, 8, 0⟩] ?_
  · intro r hr x hx
    exact ⟨⟨0, 8⟩, by simp [history, WriteShape.single], List.mem_singleton.mp hr ▸ hx⟩
  · intro r hr x hx
    rw [List.mem_singleton.mp hr] at hx ⊢
    rcases hx with ⟨-, hlt⟩
    have hlt : x < 8 := hlt
    interval_cases x <;> exact ⟨_, rfl, rfl⟩
  · simp [Paired, Extent.remote]

/-- Eight zeros, then ones over the last four of them. -/
def tailRewritten : List (WriteXfer objA) :=
  [(WriteShape.single ⟨0, 8⟩).marked objA 4, (WriteShape.single ⟨4, 4⟩).marked objA 4]

/-- The READ of all eight succeeds and returns what was there before. -/
theorem tail_rewritten_lost :
    ∃ s, (Request.machine 1).run Request.initial (Request.straight 1) = some s ∧
      Follows .read (jobOutcome (stored (updatesOf tailRewritten)) (groupsOf (prepXfer false .read
        .dram [⟨0, 8, 0⟩] [⟨0, 8, .daos objA⟩])) fun _ => 0) (Request.straight 1) ∧
      Request.checkXfer s = .success ∧
      fills (stored (updatesOf tailRewritten)) (groupsOf (prepXfer false .read .dram [⟨0, 8, 0⟩]
        [⟨0, 8, .daos objA⟩])) (fun _ => 0) (recorded 1 (Request.straight 1)) =
          [(0, [0, 0, 0, 0, 0, 0, 0, 0])] ∧
      (List.range 8).map (byteObject (updatesOf tailRewritten)) =
        [0, 0, 0, 0, 1, 1, 1, 1].map some ∧
      ¬ ReturnsLatest (updatesOf tailRewritten) [⟨0, 8, 0⟩] [⟨0, 8⟩]
        (groupsOf (prepXfer false .read .dram [⟨0, 8, 0⟩] [⟨0, 8, .daos objA⟩])) := by
  -- one group reads both bytes, and what it fills is the akey at 0
  have hgroups : (groupsOf (prepXfer false .read .dram [⟨0, 8, 0⟩]
      [⟨0, 8, .daos objA⟩])).length = 1 := by decide +kernel
  have hfills : fills (stored (updatesOf tailRewritten)) (groupsOf (prepXfer false .read .dram
      [⟨0, 8, 0⟩] [⟨0, 8, .daos objA⟩])) (fun _ => 0) (recorded 1 (Request.straight 1)) =
        [(0, [0, 0, 0, 0, 0, 0, 0, 0])] := by decide +kernel
  -- no item fails: the akey is there
  have hf : Follows .read (jobOutcome (stored (updatesOf tailRewritten)) (groupsOf (prepXfer false
      .read .dram [⟨0, 8, 0⟩] [⟨0, 8, .daos objA⟩])) fun _ => 0) (Request.straight 1) := by
    refine Request.follows_straight fun i => error_eq_none.mpr ⟨rfl, fun it hit => ?_⟩
    have hitems : (groupsOf (prepXfer false .read .dram [⟨0, 8, 0⟩]
        [⟨0, 8, .daos objA⟩])).flatMap IoGroup.items = [⟨0, 0, 0, 8, 0⟩] := by decide +kernel
    have hmem := mem_jobItems hit
    rw [hitems] at hmem
    rw [List.mem_singleton.mp hmem]
    decide +kernel
  refine ⟨_, rfl, hf, rfl, hfills, by decide +kernel, ?_⟩
  intro hall
  -- in this run the read would have to give the bytes of the second write too
  rcases hall (fun _ => 0) (Request.straight 1) _ [] _ (by rwa [List.append_nil])
    (by rw [hgroups]; rfl) (by simp) rfl rfl (⟨0, 8, 0⟩, ⟨0, 8⟩) (by simp) with
    ⟨bytes, hfill, hbytes⟩
  rw [hgroups, hfills] at hfill
  cases List.mem_singleton.mp hfill
  exact absurd hbytes (by decide +kernel)

end LmcacheDaos.Nixl.Transfer
