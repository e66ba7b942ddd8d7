import LmcacheDaos.DfsBinding
import LmcacheDaos.Nixl.Status

/-!
# Reads that report success

A READ request from `prepXfer` to `checkXfer` (`daos_backend.cpp`): each group is
one `daos_obj_fetch`, and the job that made it records an error if the call
failed or an `iod_size` came back 0. What a fetch does is taken from the table in
`ObjSys.fetch` (`obj_binding.py`): an absent akey has `iod_size` 0; a value
shorter than asked for has `iod_size` 1 like a whole one, and its length stands in
`iov_len`, which the job does not read.

Result: a request that reports success has filled every buffer with the bytes
stored for its descriptor, whatever the local buffers and the run, exactly when
an akey that it reads is absent, so that it never reports success, or every
value is as long as its descriptor and the object that the group is for holds the
same bytes.
-/

namespace LmcacheDaos.Nixl.Transfer

open Lib
open Containers (ObjMd Mem)
open Request (Lbl Outcome Follows poll recorded)

/-! ## The fetch -/

/-- What is stored under an object's handle, a dkey and an akey. An akey without
bytes is absent. -/
abbrev Store := Containers.Handle → ℕ → ℕ → Bytes

/-- What a fetch leaves of one iod and its sgl, and puts into the buffer. -/
structure Fetched where
  iodSize : ℕ
  iovLen : ℕ
  bytes : Bytes
deriving DecidableEq, Repr

/-- A fetch of `len` bytes of an array value. -/
def fetchArray (value : Bytes) (len : ℕ) : Fetched :=
  if value = [] then ⟨0, len, []⟩ else ⟨1, min len value.length, value.take len⟩

def Item.value (store : Store) (it : Item) : Bytes := store it.oh it.dkey it.akey

def Item.fetched (store : Store) (it : Item) : Fetched := fetchArray (it.value store) it.len

/-! ## The jobs -/

/-- What the `i`-th job fetches: every `postXfer` submits a job for each group, in
their order. -/
def jobItems (groups : List IoGroup) (i : ℕ) : List Item :=
  (groups[i % groups.length]?).elim [] IoGroup.items

/-- What the call of the `i`-th job leaves; `rc` are the return codes. -/
def jobOutcome (store : Store) (groups : List IoGroup) (rc : ℕ → ℤ) (i : ℕ) : Outcome :=
  ⟨rc i, (jobItems groups i).map fun it => (it.fetched store).iodSize⟩

/-- The buffers that the jobs fill, with what. -/
def fills (store : Store) (groups : List IoGroup) (rc : ℕ → ℤ) (jobs : List ℕ) :
    List (ℕ × Bytes) :=
  jobs.flatMap fun i =>
    if rc i = 0 then (jobItems groups i).map fun it => (it.buf, (it.fetched store).bytes) else []

/-- Every buffer was filled with `len` bytes, those that are stored under the
descriptor's own object, dkey and akey. -/
def Complete (store : Store) (locals : List LocalDesc) (remotes : List RemoteDesc)
    (filled : List (ℕ × Bytes)) : Prop :=
  ∀ it ∈ (locals.zip remotes).filterMap own,
    it.len ≤ (it.value store).length ∧ (it.buf, (it.value store).take it.len) ∈ filled

/-- In every run of the request, every poll that answers success finds the read
complete. -/
def SuccessIsComplete (store : Store) (locals : List LocalDesc) (remotes : List RemoteDesc)
    (groups : List IoGroup) : Prop :=
  ∀ rc as s bs s', Follows .read (jobOutcome store groups rc) (as ++ bs) →
    (Request.machine groups.length).run Request.initial as = some s → .post ∉ bs →
    (Request.machine groups.length).run s bs = some s' → poll s s' = .success →
    Complete store locals remotes (fills store groups rc (recorded groups.length as))

/-! ## The condition -/

/-- The bucket of a descriptor, and its handle. -/
def place (r : RemoteDesc) : Option ((ℕ × ℕ) × Containers.Handle) :=
  match r.metadataP with
  | .daos md => some ((md.devId, r.addr / dkeySpan), md.oh)
  | _ => none

/-- The handle of the last descriptor with this `devId` and dkey. -/
def lastHandle (remotes : List RemoteDesc) (k : ℕ × ℕ) : Containers.Handle :=
  (((remotes.filterMap place).filter (Prod.fst · = k)).getLast?.map Prod.snd).getD 0

/-- What the object `oh` holds at the place of a descriptor. -/
def RemoteDesc.valueIn (store : Store) (r : RemoteDesc) (oh : Containers.Handle) : Bytes :=
  store oh (r.addr / dkeySpan) (r.addr % dkeySpan)

/-- If nothing is absent from the objects that the groups are for, then every
value is long enough and these objects hold the same bytes. -/
def Readable (store : Store) (remotes : List RemoteDesc) : Prop :=
  (∀ r ∈ remotes, ∀ md, r.metadataP = .daos md →
    r.valueIn store (lastHandle remotes (md.devId, r.addr / dkeySpan)) ≠ []) →
  ∀ r ∈ remotes, ∀ md, r.metadataP = .daos md →
    r.len ≤ (r.valueIn store md.oh).length ∧
      (r.valueIn store (lastHandle remotes (md.devId, r.addr / dkeySpan))).take r.len =
        (r.valueIn store md.oh).take r.len

/-! ## Descriptors and remote places -/

def Desc.valueIn (store : Store) (d : Desc) (oh : Containers.Handle) : Bytes :=
  store oh d.dkey d.entry.akey

section Lists

variable {locals : List LocalDesc} {remotes : List RemoteDesc}

theorem map_place (h : Paired locals remotes) :
    (descs locals remotes).map (fun d => (d.key, d.oh)) = remotes.filterMap place := by
  have hplace : ∀ p : LocalDesc × RemoteDesc,
      (descOf p).map (fun d => (d.key, d.oh)) = place p.2 := by
    intro p
    unfold descOf place
    cases p.2.metadataP <;> rfl
  rw [descs, List.map_filterMap]
  simp only [hplace]
  conv => right; rw [← List.map_snd_zip (Nat.le_of_eq h.length_eq.symm)]
  rw [List.filterMap_map]
  rfl

theorem handleFor_eq (h : Paired locals remotes) (k : ℕ × ℕ) :
    handleFor (descs locals remotes) k = lastHandle remotes k := by
  rw [lastHandle, ← map_place h, List.filter_map, List.getLast?_map, Option.map_map]
  rfl

theorem forall_descs (h : Paired locals remotes) {P : RemoteDesc → ObjMd → Prop}
    {Q : Desc → Prop}
    (hPQ : ∀ p md, P p.2 md ↔ Q ⟨md.devId, md.oh, p.2.addr / dkeySpan, entryOf p⟩) :
    (∀ r ∈ remotes, ∀ md, r.metadataP = .daos md → P r md) ↔
      ∀ d ∈ descs locals remotes, Q d := by
  constructor
  · intro hall d hd
    rcases mem_descs.mp hd with ⟨p, hp, md, hmd, rfl⟩
    exact (hPQ p md).mp (hall p.2 (List.of_mem_zip hp).2 md hmd)
  · intro hall r hr md hmd
    rcases exists_pair h hr with ⟨l, hl⟩
    exact (hPQ (l, r) md).mpr (hall _ (mem_descs.mpr ⟨_, hl, md, hmd, rfl⟩))

/-- What the group of a descriptor reads for it. -/
def Desc.found (store : Store) (ds : List Desc) (d : Desc) : Bytes :=
  d.valueIn store (handleFor ds d.key)

/-- The condition, seen from the descriptors. -/
theorem readable_iff (store : Store) (h : Paired locals remotes) :
    Readable store remotes ↔
      ((∀ d ∈ descs locals remotes, d.found store (descs locals remotes) ≠ []) →
        ∀ d ∈ descs locals remotes, d.entry.len ≤ (d.valueIn store d.oh).length ∧
          (d.found store (descs locals remotes)).take d.entry.len =
            (d.valueIn store d.oh).take d.entry.len) := by
  refine imp_congr (forall_descs h fun p md => ?_) (forall_descs h fun p md => ?_)
  · rw [Desc.found, handleFor_eq h]
    rfl
  · rw [Desc.found, handleFor_eq h]
    rfl

/-! ## What the jobs of a request find -/

/-- The groups of a READ request. -/
def readGroups (haveGpu : Bool) (localType : Mem) (locals : List LocalDesc)
    (remotes : List RemoteDesc) : List IoGroup :=
  groupsOf (prepXfer haveGpu .read localType locals remotes)

theorem mem_jobItems {groups : List IoGroup} {i : ℕ} {it : Item} (h : it ∈ jobItems groups i) :
    it ∈ groups.flatMap IoGroup.items := by
  rw [jobItems] at h
  cases hg : groups[i % groups.length]? with
  | none =>
      rw [hg] at h
      cases h
  | some g =>
      rw [hg] at h
      exact List.mem_flatMap.mpr ⟨g, List.mem_of_getElem? hg, h⟩

theorem mem_groups_iff (h : Paired locals remotes) (haveGpu : Bool) (localType : Mem) {it : Item} :
    it ∈ (readGroups haveGpu localType locals remotes).flatMap IoGroup.items ↔
      ∃ d ∈ descs locals remotes, d.itemAt (handleFor (descs locals remotes) d.key) = it := by
  rw [readGroups, (groups_perm h haveGpu .read localType).mem_iff, List.mem_map]

theorem iodSize_eq_zero {store : Store} {it : Item} :
    (it.fetched store).iodSize = 0 ↔ it.value store = [] := by
  rw [Item.fetched, fetchArray]
  split
  · rename_i h
    simp [h]
  · rename_i h
    simp [h]

theorem bytes_fetched (store : Store) (it : Item) :
    (it.fetched store).bytes = (it.value store).take it.len := by
  rw [Item.fetched, fetchArray]
  split
  · rename_i h
    simp [h]
  · rfl

/-- A job succeeds exactly if the call does and every akey has a value. -/
theorem error_eq_none {store : Store} {groups : List IoGroup} {rc : ℕ → ℤ} {i : ℕ} :
    (jobOutcome store groups rc i).error .read = none ↔
      rc i = 0 ∧ ∀ it ∈ jobItems groups i, it.value store ≠ [] := by
  have hzero : 0 ∈ (jobOutcome store groups rc i).iodSizes ↔
      ∃ it ∈ jobItems groups i, it.value store = [] := by
    simp [jobOutcome, iodSize_eq_zero]
  rw [Outcome.error]
  split
  · -- the call failed
    rename_i hrc
    exact iff_of_false (by simp) fun h => hrc h.1
  · rename_i hrc
    split
    · -- an `iod_size` is 0
      rename_i habsent
      rcases hzero.mp habsent.2 with ⟨it, hit, hvalue⟩
      exact iff_of_false (by simp) fun h => h.2 it hit hvalue
    · rename_i hpresent
      refine iff_of_true rfl ⟨not_not.mp hrc, fun it hit hvalue => ?_⟩
      exact hpresent ⟨rfl, hzero.mpr ⟨it, hit, hvalue⟩⟩

/-- A poll that answers success comes after a job for every group, whose call
succeeded and found every akey. -/
theorem fetched_of_success {store : Store} {groups : List IoGroup} {rc : ℕ → ℤ} {as bs : List Lbl}
    {s s' : Request.St} (hf : Follows .read (jobOutcome store groups rc) (as ++ bs))
    (hrun : (Request.machine groups.length).run Request.initial as = some s) (hpost : .post ∉ bs)
    (hlater : (Request.machine groups.length).run s bs = some s') (hpoll : poll s s' = .success)
    {it : Item} (hit : it ∈ groups.flatMap IoGroup.items) :
    it.value store ≠ [] ∧
      (it.buf, (it.value store).take it.len) ∈
        fills store groups rc (recorded groups.length as) := by
  rcases Request.succeeded hf hrun hpost hlater hpoll with ⟨hposted, hpend, hnone⟩
  rcases List.mem_flatMap.mp hit with ⟨g, hg, hitem⟩
  rcases List.mem_iff_getElem?.mp hg with ⟨k, hk⟩
  -- all groups have recorded, so this one has
  have hlt : k < groups.length := (List.getElem?_eq_some_iff.mp hk).1
  rcases Request.exists_recorded hf.of_append.1 hrun hposted hpend hlt with ⟨i, hi, hmod⟩
  have hjob : it ∈ jobItems groups i := by
    rw [jobItems, hmod, hk]
    exact hitem
  rcases error_eq_none.mp (hnone i hi) with ⟨hrc, hpresent⟩
  refine ⟨hpresent it hjob, List.mem_flatMap.mpr ⟨i, hi, ?_⟩⟩
  rw [if_pos hrc, ← bytes_fetched]
  exact List.mem_map_of_mem hjob

theorem complete_of_readable {store : Store} (h : Paired locals remotes)
    (hread : Readable store remotes) (haveGpu : Bool) (localType : Mem) :
    SuccessIsComplete store locals remotes (readGroups haveGpu localType locals remotes) := by
  intro rc as s bs s' hf hrun hpost hlater hpoll
  have hfetched : ∀ d ∈ descs locals remotes, d.found store (descs locals remotes) ≠ [] ∧
      (d.entry.buf, (d.found store (descs locals remotes)).take d.entry.len) ∈
        fills store (readGroups haveGpu localType locals remotes) rc
          (recorded (readGroups haveGpu localType locals remotes).length as) := by
    intro d hd
    have hitem := (mem_groups_iff h haveGpu localType).mpr ⟨d, hd, rfl⟩
    exact fetched_of_success hf hrun hpost hlater hpoll hitem
  have hall := (readable_iff store h).mp hread fun d hd => (hfetched d hd).1
  intro it hit
  rw [filterMap_own] at hit
  rcases List.mem_map.mp hit with ⟨d, hd, rfl⟩
  have hfill := (hfetched d hd).2
  rw [(hall d hd).2] at hfill
  exact ⟨(hall d hd).1, hfill⟩

/-- With distinct buffers, what fills the buffer of a descriptor is what its own
group reads for it. -/
theorem found_of_fill {store : Store} (h : Paired locals remotes)
    (hbuf : (locals.map LocalDesc.addr).Nodup) {haveGpu : Bool} {localType : Mem} {rc : ℕ → ℤ}
    {jobs : List ℕ} {d : Desc} (hd : d ∈ descs locals remotes) {bytes : Bytes}
    (hfill : (d.entry.buf, bytes) ∈
      fills store (readGroups haveGpu localType locals remotes) rc jobs) :
    bytes = (d.found store (descs locals remotes)).take d.entry.len := by
  rcases List.mem_flatMap.mp hfill with ⟨i, -, hmem⟩
  split at hmem
  · rcases List.mem_map.mp hmem with ⟨it, hit, heq⟩
    rcases (mem_groups_iff h haveGpu localType).mp (mem_jobItems hit) with ⟨d', hd', rfl⟩
    have hsame : d' = d := List.inj_on_of_nodup_map (hbuf.sublist (bufs_sublist locals remotes))
      hd' hd (congrArg Prod.fst heq)
    calc bytes = _ := (congrArg Prod.snd heq).symm
      _ = (d.found store (descs locals remotes)).take d.entry.len := by
          rw [bytes_fetched, hsame]
          rfl
  · cases hmem

/-- When nothing is absent, a run in which every call returns 0 ends with success. -/
theorem exists_success {store : Store} (h : Paired locals remotes) (haveGpu : Bool)
    (localType : Mem) (hne : descs locals remotes ≠ [])
    (hpresent : ∀ d ∈ descs locals remotes, d.found store (descs locals remotes) ≠ []) :
    ∃ rc as s, Follows .read
        (jobOutcome store (readGroups haveGpu localType locals remotes) rc) as ∧
      (Request.machine (readGroups haveGpu localType locals remotes).length).run
        Request.initial as = some s ∧ poll s s = .success := by
  -- every item finds a value, so no group fails
  have hnone : ∀ i, (jobOutcome store (readGroups haveGpu localType locals remotes)
      (fun _ => 0) i).error .read = none := by
    intro i
    refine error_eq_none.mpr ⟨rfl, fun it hit => ?_⟩
    rcases (mem_groups_iff h haveGpu localType).mp (mem_jobItems hit) with ⟨d', hd', rfl⟩
    exact hpresent d' hd'
  -- there is a descriptor, hence a group
  have hn : 0 < (readGroups haveGpu localType locals remotes).length := by
    rcases List.exists_mem_of_ne_nil _ hne with ⟨d, hd⟩
    have hitem := (mem_groups_iff h haveGpu localType).mpr ⟨d, hd, rfl⟩
    rcases List.mem_flatMap.mp hitem with ⟨g, hg, -⟩
    exact List.length_pos_of_mem hg
  have hf := Request.follows_straight (n := (readGroups haveGpu localType locals remotes).length)
    hnone
  -- the groups run one after another
  rcases Request.run_straight hn with ⟨s, hrun, hposted, hpend⟩
  refine ⟨_, _, s, hf, hrun, ?_⟩
  have hnil : Follows .read (jobOutcome store (readGroups haveGpu localType locals remotes)
    fun _ => 0) [] := by simp [Follows]
  rw [Request.poll_eq hf hrun hposted hpend hnil (by simp) rfl]
  exact Request.getD_firstError.mpr fun i _ => hnone i

theorem readable_of_complete {store : Store} (h : Paired locals remotes)
    (hbuf : (locals.map LocalDesc.addr).Nodup) {haveGpu : Bool} {localType : Mem}
    (hall : SuccessIsComplete store locals remotes
      (readGroups haveGpu localType locals remotes)) : Readable store remotes := by
  rw [readable_iff store h]
  intro hpresent d hd
  rcases exists_success h haveGpu localType (List.ne_nil_of_mem hd) hpresent with
    ⟨rc, as, s, hf, hrun, hpoll⟩
  have hcomplete := hall rc as s [] s (by rwa [List.append_nil]) hrun (by simp) rfl hpoll
  have hitem := hcomplete (d.itemAt d.oh) (by
    rw [filterMap_own]
    exact List.mem_map_of_mem (f := fun d : Desc => d.itemAt d.oh) hd)
  exact ⟨hitem.1, (found_of_fill h hbuf hd hitem.2).symm⟩

end Lists

/-- A READ request that reports success is complete, whatever the local buffers
and the run, exactly when an akey is absent where it reads, or every value is
long enough and the groups read the bytes of the descriptors' own objects. -/
theorem success_complete_iff (store : Store) {remotes : List RemoteDesc}
    (h : ∀ r ∈ remotes, ∃ md, r.metadataP = .daos md) (haveGpu : Bool) (localType : Mem) :
    (∀ locals, Paired locals remotes → SuccessIsComplete store locals remotes
      (groupsOf (prepXfer haveGpu .read localType locals remotes))) ↔
    Readable store remotes := by
  constructor
  · intro hall
    have hpaired := paired_numbered h
    exact readable_of_complete hpaired (nodup_numbered remotes) (hall _ hpaired)
  · intro hread locals hpaired
    exact complete_of_readable hpaired hread haveGpu localType

/-- One byte under every akey. -/
def oneByte : Store := fun _ _ _ => [7]

theorem whole_value_complete :
    (∃ s, (Request.machine 1).run Request.initial (Request.straight 1) = some s ∧
      Request.checkXfer s = .success) ∧
    SuccessIsComplete oneByte [⟨0, 1, 0⟩] [⟨0, 1, .daos objA⟩]
      (groupsOf (prepXfer false .read .dram [⟨0, 1, 0⟩] [⟨0, 1, .daos objA⟩])) := by
  refine ⟨⟨_, rfl, rfl⟩, ?_⟩
  refine (success_complete_iff oneByte ?_ false .dram).mpr ?_ _ ?_
  · simp
  · intro _
    simp [RemoteDesc.valueIn, oneByte]
  · simp [Paired]

/-- Two bytes are asked for and one is stored: the request reports success, and
one byte is in the buffer. -/
theorem short_value_reported_as_success :
    ∃ s, (Request.machine 1).run Request.initial (Request.straight 1) = some s ∧
      Follows .read (jobOutcome oneByte (groupsOf (prepXfer false .read .dram [⟨0, 2, 0⟩]
        [⟨0, 2, .daos objA⟩])) fun _ => 0) (Request.straight 1) ∧
      Request.checkXfer s = .success ∧
      fills oneByte (groupsOf (prepXfer false .read .dram [⟨0, 2, 0⟩] [⟨0, 2, .daos objA⟩]))
        (fun _ => 0) (recorded 1 (Request.straight 1)) = [(0, [7])] ∧
      ¬ SuccessIsComplete oneByte [⟨0, 2, 0⟩] [⟨0, 2, .daos objA⟩]
        (groupsOf (prepXfer false .read .dram [⟨0, 2, 0⟩] [⟨0, 2, .daos objA⟩])) := by
  have hgroups : (groupsOf (prepXfer false .read .dram [⟨0, 2, 0⟩]
      [⟨0, 2, .daos objA⟩])).length = 1 := by decide +kernel
  have hf : Follows .read (jobOutcome oneByte (groupsOf (prepXfer false .read .dram [⟨0, 2, 0⟩]
      [⟨0, 2, .daos objA⟩])) fun _ => 0) (Request.straight 1) :=
    Request.follows_straight fun i => error_eq_none.mpr ⟨rfl, fun it _ => List.cons_ne_nil 7 []⟩
  refine ⟨_, rfl, hf, rfl, by decide +kernel, ?_⟩
  intro hall
  have hcomplete := hall (fun _ => 0) (Request.straight 1) _ [] _ (by rwa [List.append_nil])
    (by rw [hgroups]; rfl) (by simp) rfl rfl
  exact absurd (hcomplete ⟨0, 0, 0, 2, 0⟩ (by decide +kernel)).1 (by decide)

end LmcacheDaos.Nixl.Transfer
