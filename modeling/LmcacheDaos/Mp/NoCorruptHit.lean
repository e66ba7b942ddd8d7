import LmcacheDaos.Mp.Adapter

/-!
# A load that reports success

`_store_one` writes an object in place under its final name, and the length is
the only thing `_lookup_one` and `_load_one` check. So a loaded buffer is the
stored object exactly when the storage chunk that gives the file its full
length becomes visible last (`TailLast`). When an earlier chunk is still
missing at that point, the hole reads as zeros and the load succeeds.

The buffer has to have the length of the object: `_load_one` asks for as many bytes
as the buffer has, so a shorter one is filled with a part of the object and its bit
is set. A read takes place at one moment (`Mp.Adapter`).
-/

namespace LmcacheDaos.Mp.NoCorruptHit

open Lib

variable {A : Adapter} {key : ObjectKey} {data : Bytes}

/-- What a call stores. -/
def storedItems : Lbl → List (ObjectKey × Bytes)
  | .spawn (.store items) => items
  | _ => []

/-- Every store on the path of `key` carries `data`. -/
def SameBytes (A : Adapter) (key : ObjectKey) (data : Bytes) (a : Lbl) : Prop :=
  ∀ it ∈ storedItems a, path A.root it.1 = path A.root key → it.2 = data

/-- The file a `_store_one` is writing. -/
def writing (c : StoreOne) : Option Handle :=
  match c.pc with
  | .write h _ => some h
  | _ => none

/-- If chunk `k` of the object of `key` reaches the end of `data`, every byte
below it is already there. -/
def LandsInOrder (A : Adapter) (key : ObjectKey) (data : Bytes) (fs : Dfs) (c : StoreOne)
    (k : ℕ) : Prop :=
  ∀ h ∈ writing c, path A.root c.key = path A.root key → data.length ≤ (k + 1) * A.chunkSize →
    ∀ x < k * A.chunkSize, (fs.files h).getD x 0 = data.getD x 0

/-- Thread, call and chunk of a step that makes a chunk visible. -/
def landing : Lbl → Option (ℕ × ℕ × ℕ)
  | .act i (.store j (.land k)) => some (i, j, k)
  | _ => none

/-- The chunk that gives the object of `key` its length becomes visible last. -/
def TailLast (A : Adapter) (key : ObjectKey) (data : Bytes) (s : St) (a : Lbl) : Prop :=
  ∀ l ∈ landing a, ∀ c ∈ callAt s l.1 l.2.1, LandsInOrder A key data s.shared.fs c l.2.2

/-- The same bytes for the key, and its last chunk last. -/
def InOrder (A : Adapter) (key : ObjectKey) (data : Bytes) (s : St) (a : Lbl) : Prop :=
  SameBytes A key data a ∧ TailLast A key data s a

instance (fs : Dfs) (c : StoreOne) (k : ℕ) : Decidable (LandsInOrder A key data fs c k) :=
  inferInstanceAs (Decidable (∀ h ∈ writing c, _ → _ → ∀ x < _, _))

instance (a : Lbl) : Decidable (SameBytes A key data a) :=
  inferInstanceAs (Decidable (∀ it ∈ storedItems a, _))

instance (s : St) (a : Lbl) : Decidable (InOrder A key data s a) :=
  inferInstanceAs (Decidable (_ ∧ ∀ l ∈ landing a, ∀ c ∈ callAt s _ _, _))

/-! ## The invariant -/

/-- Files carry the name they were created under, and a file created under the
path of `key` is `data` as soon as it has its length. -/
structure FilesOk (A : Adapter) (key : ObjectKey) (data : Bytes) (fs : Dfs) : Prop where
  birth : fs.NamesAtBirth
  le : ∀ h, h.birth = path A.root key → (fs.files h).length ≤ data.length
  full : ∀ h, h.birth = path A.root key → (fs.files h).length = data.length → fs.files h = data

/-- A `_store_one` on the path of `key` carries `data`, and it writes to a file
of its own path. -/
def CallOk (A : Adapter) (key : ObjectKey) (data : Bytes) (c : StoreOne) : Prop :=
  (path A.root c.key = path A.root key → c.data = data) ∧
  ∀ h pending, c.pc = .write h pending → h.birth = path A.root c.key

/-- A load of `key` reads a file of its path. What it reports fills the buffer, and if
the buffer is not shorter than `data` it is `data`. -/
def ProcOk (A : Adapter) (key : ObjectKey) (data : Bytes) : Proc → Prop
  | .store calls => ∀ c ∈ calls, CallOk A key data c
  | .loadRead key' _ h => h.birth = path A.root key'
  | .loaded key' n (some buf) =>
      buf.length = n ∧ (path A.root key' = path A.root key → data.length ≤ n → buf = data)
  | _ => True

/-! ## Storage operations keep the files in order -/

theorem filesOk_empty : FilesOk A key data FileStore.empty where
  birth := by simp [FileStore.NamesAtBirth, FileStore.empty]
  le := by simp [FileStore.empty]
  full := by
    intro h _ hlen
    exact (List.length_eq_zero_iff.mp hlen.symm).symm

theorem FilesOk.openCreate {fs : Dfs} (hfs : FilesOk A key data fs) (p : String) :
    FilesOk A key data (fs.openCreate p).1 where
  birth := hfs.birth.openCreate p
  le := by
    rw [FileStore.openCreate_files]
    exact hfs.le
  full := by
    rw [FileStore.openCreate_files]
    exact hfs.full

theorem FilesOk.unlink {fs : Dfs} (hfs : FilesOk A key data fs) (p : String) :
    FilesOk A key data (fs.unlink p) where
  birth := hfs.birth.unlink p
  le := hfs.le
  full := hfs.full

/-- Replacing a file by one that is in order too. -/
theorem FilesOk.setFile {fs : Dfs} (hfs : FilesOk A key data fs) {h : Handle} {f : Bytes}
    (hf : h.birth = path A.root key →
      f.length ≤ data.length ∧ (f.length = data.length → f = data)) :
    FilesOk A key data (fs.setFile h f) := by
  have hcases : ∀ i, i.birth = path A.root key →
      ((fs.setFile h f).files i).length ≤ data.length ∧
      (((fs.setFile h f).files i).length = data.length → (fs.setFile h f).files i = data) := by
    intro i hi
    by_cases hlt : h.gen < fs.next
    · by_cases hih : i = h
      · subst hih
        rw [FileStore.setFile_files_self hlt]
        exact hf hi
      · rw [FileStore.setFile_files_ne fs hih]
        exact ⟨hfs.le i hi, hfs.full i hi⟩
    · rw [FileStore.setFile, dif_neg hlt]
      exact ⟨hfs.le i hi, hfs.full i hi⟩
  exact ⟨hfs.birth.congr (by simp), fun i hi => (hcases i hi).1, fun i hi => (hcases i hi).2⟩

/-- The storage giving up the tail of a nameless object. -/
theorem FilesOk.reclaim {fs fs' : Dfs} (hfs : FilesOk A key data fs) {h : Handle} {m : ℕ}
    (hst : Dfs.reclaim fs h m = some fs') : FilesOk A key data fs' := by
  obtain ⟨-, rfl⟩ := Dfs.reclaim_eq_some.mp hst
  refine hfs.setFile fun hb => ?_
  have hle := hfs.le h hb
  rw [List.length_take]
  refine ⟨by omega, fun hlen => ?_⟩
  rw [List.take_of_length_le (by omega)]
  exact hfs.full h hb (by omega)

/-! ## Steps of the threads -/

theorem storeMove_ok {fs fs' : Dfs} {c c' : StoreOne} {a : StoreAct} (hfs : FilesOk A key data fs)
    (hc : CallOk A key data c) (hst : StoreMove A fs c a fs' c')
    (htail : ∀ k, a = .land k → LandsInOrder A key data fs c k) :
    FilesOk A key data fs' ∧ CallOk A key data c' := by
  cases hst with
  -- the open creates the file or finds it, with the bytes of this key in it or none
  | openRdwr =>
      rename_i key' bs
      have hopen := hfs.openCreate (path A.root key')
      refine ⟨hopen, hc.1, fun h pending hpc => ?_⟩
      cases hpc
      exact hopen.birth _ _ (FileStore.openCreate_names_self ..)
  -- a chunk lands: on this key it is the key's data, in order
  | land hk =>
      rename_i key' bs h pending k
      have hbirth := hc.2 h pending rfl
      refine ⟨hfs.setFile fun hb => ?_, hc.1, fun h' p' hpc => ?_⟩
      · have hkey : path A.root key' = path A.root key := hbirth.symm.trans hb
        obtain rfl : bs = data := hc.1 hkey
        have hgrown := SparseFile.length_landChunk_le (z := 0) A.chunkSize
          (fs.files h) 0 bs k
        have hle := hfs.le h hb
        exact ⟨by omega, SparseFile.landChunk_eq_of_length A.chunk_pos hle (hfs.full h hb)
          (htail k rfl h rfl hkey)⟩
      · cases hpc
        exact hbirth
  -- a failed store removes the name; what is open keeps its bytes
  | cleanup =>
      refine ⟨?_, hc.1, by simp⟩
      unfold Dfs.remove
      split
      · exact hfs.unlink _
      · exact hfs
  -- the other steps change no file
  | skip | stat | wrote | short | fail => exact ⟨hfs, hc.1, by simp⟩

/-- A buffer that a read filled and that is at least as long as the object. -/
theorem read_eq_of_filled {fs : Dfs} {h : Handle} {n : ℕ} (hfs : FilesOk A key data fs)
    (hb : h.birth = path A.root key) (hn : data.length ≤ n)
    (hgot : (Dfs.readObj fs h 0 n).length = n) : Dfs.readObj fs h 0 n = data := by
  have hle := hfs.le h hb
  unfold Dfs.readObj at *
  rw [SparseFile.length_readAt] at hgot
  rw [SparseFile.readAt, List.drop_zero, List.take_of_length_le (by omega)]
  exact hfs.full h hb (by omega)

theorem own_step {s : St} {i : ℕ} {a : Act} {p p' : Proc} {sh : Shared}
    (hfs : FilesOk A key data s.shared.fs) (hp : ProcOk A key data p)
    (hok : InOrder A key data s (.act i a)) (hthr : s.threads[i]? = some p)
    (hst : step A s.shared p a = some (sh, p')) :
    FilesOk A key data sh.fs ∧ ProcOk A key data p' := by
  cases step_cases hst with
  | store hj hc =>
      rename_i calls j a c fs' c'
      obtain ⟨hfs', hc'⟩ := storeMove_ok hfs (hp c (List.mem_of_getElem? hj)) hc <| by
        rintro k rfl
        exact hok.2 (i, j, k) rfl c (by simp [callAt, hthr, hj])
      refine ⟨hfs', fun d hd => ?_⟩
      rcases List.mem_or_eq_of_mem_set hd with hd | rfl
      · exact hp d hd
      · exact hc'
  | openHit hn => exact ⟨hfs, hfs.birth _ _ hn⟩
  | read =>
      rename_i key' n h
      refine ⟨hfs, ?_⟩
      split
      · rename_i hgot
        exact ⟨hgot, fun hkey hn => read_eq_of_filled hfs (hp.trans hkey) hn hgot⟩
      · trivial
  | removeNext => exact ⟨hfs.unlink _, trivial⟩
  | _ => exact ⟨hfs, trivial⟩

/-- In every run in which the stores of a key carry the same bytes and its
last chunk becomes visible last, a load of the key whose bit is set has filled
its buffer with exactly these bytes, if and only if the buffer is not shorter
than the object. -/
theorem load_filled_with_stored_bytes (A : Adapter) (key : ObjectKey) (data : Bytes) {s : St}
    (h : (machine A).ReachableVia (InOrder A key data) s) {key' : ObjectKey} {n : ℕ} {buf : Bytes}
    (hkey : path A.root key' = path A.root key)
    (hload : .loaded key' n (some buf) ∈ s.threads) : buf = data ↔ data.length ≤ n := by
  -- the invariant: files of this path are no longer than the data, and the data when as long
  have hsafe := Threads.safety (T := threads A) (I := fun sh => FilesOk A key data sh.fs)
    (J := fun _ p => ProcOk A key data p) (E := fun _ _ => True) (fun _ _ _ => trivial)
    (fun s hs => hs ▸ filesOk_empty)
    (fun s c _ _ hok => by
      refine ⟨?_, fun _ _ => trivial⟩
      -- a store enters with the data of its key, or with other keys
      cases c with
      | store items =>
          intro c hc
          obtain ⟨it, hit, rfl⟩ := List.mem_map.mp hc
          exact ⟨hok.1 it hit, by simp⟩
      | lookup | load | delete => trivial)
    (fun s i a p sh p' hI hJ hok hthr hst => own_step hI hJ hok hthr hst)
    (fun _ _ _ _ _ _ _ _ _ _ _ _ _ hq _ => ⟨hq, trivial⟩)
    -- `unlock` changes no file, and `reclaim` frees what no name has
    (fun s e sh hI _ hst => by
      refine ⟨?_, fun _ hq => hq⟩
      cases e with
      | unlock keys =>
          cases hst
          exact hI
      | reclaim i m =>
          obtain ⟨fs', hfs, rfl⟩ := Option.map_eq_some_iff.mp hst
          exact hI.reclaim hfs) h
  obtain ⟨hlen, hfilled⟩ := hsafe.2.1 _ hload
  -- a full buffer has the length it was made with
  constructor
  · rintro rfl
    exact hlen.le
  · -- and a full read of the path gives the data
    exact hfilled hkey

/-- A store of two chunks and a load of the same key, the chunks in order. -/
def storeThenLoad : List Lbl :=
  [.spawn (.store [(aKey, [1, 2, 3])]), .act 0 (.store 0 .stat), .act 0 (.store 0 .openRdwr),
   .act 0 (.store 0 (.land 0)), .act 0 (.store 0 (.land 1)), .spawn (.load aKey 3),
   .act 1 .openRdonly, .act 1 .read]

theorem stored_bytes_loaded :
    ∃ s, (machine twoByteChunks).ReachableVia (InOrder twoByteChunks aKey [1, 2, 3]) s ∧
      .loaded aKey 3 (some [1, 2, 3]) ∈ s.threads ∧
      ∀ n buf, .loaded aKey n (some buf) ∈ s.threads → (buf = [1, 2, 3] ↔ 3 ≤ n) := by
  have hok : (machine twoByteChunks).alongB (InOrder twoByteChunks aKey [1, 2, 3]) initial
      storeThenLoad = true := by decide +kernel
  obtain ⟨s, hs, hload⟩ := Machine.ReachableVia.of_run (init_initial _) _ hok
    (fun s : St => Proc.loaded aKey 3 (some [1, 2, 3]) ∈ s.threads) (by decide +kernel)
  exact ⟨s, hs, hload, fun n buf hbuf =>
    load_filled_with_stored_bytes twoByteChunks aKey [1, 2, 3] hs rfl hbuf⟩

/-- The second chunk of a store is visible and the first is not, when a load
finds the object with its full length. -/
def loadBetweenChunks : List Lbl :=
  [.spawn (.store [(aKey, [1, 2, 3])]), .act 0 (.store 0 .stat), .act 0 (.store 0 .openRdwr),
   .act 0 (.store 0 (.land 1)), .spawn (.lookup [aKey] (some 3)), .act 1 (.probe 0), .act 1 .lock,
   .spawn (.load aKey 3), .act 2 .openRdonly, .act 2 .read]

/-- Every store of the key carries `1 2 3`, yet a load reports success with
`0 0 3`: two of its bytes were never written. -/
theorem hole_loaded :
    ∃ s, (machine twoByteChunks).ReachableVia (fun _ => SameBytes twoByteChunks aKey [1, 2, 3]) s ∧
      .loaded aKey 3 (some [0, 0, 3]) ∈ s.threads := by
  have hok : (machine twoByteChunks).alongB (fun _ => SameBytes twoByteChunks aKey [1, 2, 3])
      initial loadBetweenChunks = true := by decide +kernel
  exact Machine.ReachableVia.of_run (init_initial _) _ hok
    (fun s : St => Proc.loaded aKey 3 (some [0, 0, 3]) ∈ s.threads) (by decide +kernel)

end LmcacheDaos.Mp.NoCorruptHit
