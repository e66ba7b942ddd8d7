import LmcacheDaos.DfsBinding
import LmcacheDaos.Lib.Machine
import LmcacheDaos.Mp.Keys

/-!
# The MP L2 adapter as a machine

`DaosL2Adapter` (`mp/l2_adapter.py`): store tasks, lookup-and-lock tasks,
loads, deletes and unlocks from any number of threads, over one DFS namespace.
A thread's step is one storage call, one critical section of `self._lock` or
one listener notification; inside a `dfs_sys_write` every DFS chunk that
becomes visible is a step of its own. A `dfs_sys_read` is one step: it sees all
the chunks it covers at one moment, which is assumed of the storage. A thread
that dies is one that takes no further step, and the stores and loads of another
server process are further threads: neither reads anything process-local.

What the adapter keeps per process and its listeners see is `Shared`: the lock
table and the sums of the sizes passed to `_notify_keys_stored` and
`_notify_keys_deleted`. Counters that only feed `report_status` are left out.
-/

namespace LmcacheDaos.Mp

open Lib

/-- The adapter's root directory, and the DFS chunk size of the container. -/
structure Adapter where
  root : String
  chunkSize : ℕ
  chunk_pos : 0 < chunkSize

structure Shared where
  fs : Dfs
  /-- `self._locks.get(key, 0)` -/
  locks : ObjectKey → ℕ
  /-- sum of the sizes passed to `_notify_keys_stored` -/
  storedBytes : ℕ
  /-- sum of the sizes passed to `_notify_keys_deleted` -/
  deletedBytes : ℕ
  /-- objects that a `delete()` removed (not kept by the code) -/
  removed : List Handle

/-! ## `_store_one` -/

inductive StorePc where
  /-- about to `stat_size` -/
  | stat
  /-- about to `open_rdwr_create` -/
  | openRdwr
  /-- inside `write_obj_from`, these chunks not yet visible -/
  | write (h : Handle) (pending : List ℕ)
  /-- the write of `h` came back short, about to `remove` the path -/
  | cleanup (h : Handle)
  /-- returned: bytes written, 0 if skipped, -1 on error -/
  | done (r : ℤ)
deriving DecidableEq, Repr

/-- One `_store_one((key, obj))`. -/
structure StoreOne where
  key : ObjectKey
  data : Bytes
  pc : StorePc
deriving DecidableEq, Repr

inductive StoreAct where
  | stat
  | openRdwr
  | land (k : ℕ)
  /-- the write returns the full length -/
  | wrote
  /-- the write returns `m` bytes, fewer than asked -/
  | short (m : ℕ)
  | cleanup
  /-- the current storage call raises -/
  | fail
deriving DecidableEq, Repr

/-- `_store_one`, one storage call at a time. -/
def storeStep (A : Adapter) (fs : Dfs) (c : StoreOne) (a : StoreAct) : Option (Dfs × StoreOne) :=
  let p := path A.root c.key
  match c.pc, a with
  | .stat, .stat =>
      if Dfs.statSize fs p = some c.data.length then some (fs, { c with pc := .done 0 })
      else some (fs, { c with pc := .openRdwr })
  | .openRdwr, .openRdwr =>
      let r := Dfs.openRdwrCreate fs p
      some (r.1, { c with
        pc := .write r.2 (SparseFile.chunksOf A.chunkSize 0 c.data.length) })
  | .write h pending, .land k =>
      if k ∈ pending then
        some (Dfs.landChunk fs A.chunkSize h 0 c.data k,
          { c with pc := .write h (pending.erase k) })
      else none
  | .write _ pending, .wrote =>
      if pending = [] then some (fs, { c with pc := .done c.data.length }) else none
  | .write h _, .short m =>
      if m < c.data.length then some (fs, { c with pc := .cleanup h }) else none
  | .cleanup _, .cleanup => some ((Dfs.remove fs p).1, { c with pc := .done (-1) })
  | .done _, _ => none
  | _, .fail => some (fs, { c with pc := .done (-1) })
  | _, _ => none

/-! ## Threads -/

/-- What `_lookup_one` made of its `stat`; a hit remembers which object it saw
(the code only keeps the bit). -/
inductive Probe where
  | miss
  | hit (h : Handle)
deriving DecidableEq, Repr

inductive Proc where
  /-- `_execute_store` with its `_store_one` calls -/
  | store (calls : List StoreOne)
  | stored
  /-- `_execute_lookup` before the locks are taken -/
  | lookup (expected : Option ℕ) (probes : List (ObjectKey × Option Probe))
  /-- the bitmap of a lookup whose locks are taken -/
  | looked (hits : List (ObjectKey × Probe))
  /-- `_load_one` of a buffer of `n` bytes, about to open -/
  | load (key : ObjectKey) (n : ℕ)
  | loadRead (key : ObjectKey) (n : ℕ) (h : Handle)
  /-- the bit of a load, with the buffer when it is set -/
  | loaded (key : ObjectKey) (n : ℕ) (buf : Option Bytes)
  /-- `delete(keys)`, about to choose the unlocked ones -/
  | delete (keys : List ObjectKey)
  /-- keys still to do, the key whose `stat` answered, sizes removed so far -/
  | deleting (todo : List ObjectKey) (cur : Option (ObjectKey × ℕ)) (sizes : List ℕ)
  | deleted
deriving DecidableEq, Repr

inductive Call where
  | store (items : List (ObjectKey × Bytes))
  | lookup (keys : List ObjectKey) (expected : Option ℕ)
  | load (key : ObjectKey) (n : ℕ)
  | delete (keys : List ObjectKey)
deriving DecidableEq, Repr

def entry : Call → Proc
  | .store items => .store (items.map fun it => ⟨it.1, it.2, .stat⟩)
  | .lookup keys expected => .lookup expected (keys.map fun k => (k, none))
  | .load key n => .load key n
  | .delete keys => .delete keys

inductive Act where
  /-- the `j`-th `_store_one` of the task steps -/
  | store (j : ℕ) (a : StoreAct)
  /-- all `_store_one` returned: `_notify_keys_stored` -/
  | notifyStored
  /-- the `j`-th `_lookup_one` stats its key -/
  | probe (j : ℕ)
  /-- that `stat` raises -/
  | probeFail (j : ℕ)
  /-- under the mutex: lock the hits, set the bits -/
  | lock
  | openRdonly
  | read
  /-- the load's current storage call raises -/
  | loadFail
  /-- under the mutex: keep the unlocked keys -/
  | choose
  | statNext
  | removeNext
  /-- the delete's current storage call raises: go on with the next key -/
  | deleteFail
  | notifyDeleted
deriving DecidableEq, Repr

/-- `_lookup_one` on the answer of `stat_size`. -/
def lookupOne (A : Adapter) (fs : Dfs) (key : ObjectKey) (expected : Option ℕ) : Probe :=
  match fs.names (path A.root key) with
  | none => .miss
  | some h =>
      match expected with
      | none => .hit h
      | some n => if (fs.files h).length = n then .hit h else .miss

/-- `self._locks[key] = self._locks.get(key, 0) + 1` for each hit. -/
def lockHits (locks : ObjectKey → ℕ) (probes : List (ObjectKey × Probe)) : ObjectKey → ℕ :=
  fun key => locks key + probes.countP fun p => p.1 = key ∧ p.2 ≠ .miss

/-- The results of the lookup's `stat`s, once all of them are there. -/
def allProbed : List (ObjectKey × Option Probe) → Option (List (ObjectKey × Probe))
  | [] => some []
  | (key, some r) :: rest => (allProbed rest).map ((key, r) :: ·)
  | (_, none) :: _ => none

/-- The size a finished `_store_one` reports to `_notify_keys_stored`. -/
def storedSize (c : StoreOne) : ℕ :=
  match c.pc with
  | .done r => r.toNat
  | _ => 0

def isDone (c : StoreOne) : Bool :=
  match c.pc with
  | .done _ => true
  | _ => false

/-- A thread's step. Only a write is split into chunks; a load's read of several
chunks takes place at one moment. -/
def step (A : Adapter) (s : Shared) : Proc → Act → Option (Shared × Proc)
  | .store calls, .store j a => (calls[j]?).bind fun c =>
      (storeStep A s.fs c a).map fun r => ({ s with fs := r.1 }, .store (calls.set j r.2))
  | .store calls, .notifyStored =>
      if calls.all isDone then
        some ({ s with storedBytes := s.storedBytes + (calls.map storedSize).sum }, .stored)
      else none
  | .lookup expected probes, .probe j => match probes[j]? with
      | some (key, none) =>
          some (s, .lookup expected (probes.set j (key, some (lookupOne A s.fs key expected))))
      | _ => none
  | .lookup expected probes, .probeFail j => match probes[j]? with
      | some (key, none) => some (s, .lookup expected (probes.set j (key, some .miss)))
      | _ => none
  | .lookup _ probes, .lock => (allProbed probes).map fun hits =>
      ({ s with locks := lockHits s.locks hits }, .looked hits)
  | .load key n, .openRdonly => match Dfs.openRdonly s.fs (path A.root key) with
      | .ok h => some (s, .loadRead key n h)
      | .error _ => some (s, .loaded key n none)
  | .loadRead key n h, .read =>
      let got := Dfs.readObj s.fs h 0 n
      some (s, .loaded key n (if got.length = n then some got else none))
  | .load key n, .loadFail | .loadRead key n _, .loadFail => some (s, .loaded key n none)
  | .delete keys, .choose =>
      some (s, .deleting (keys.filter fun k => s.locks k = 0) none [])
  | .deleting (key :: rest) none sizes, .statNext =>
      match Dfs.statSize s.fs (path A.root key) with
      | none => some (s, .deleting rest none sizes)
      | some size => some (s, .deleting rest (some (key, size)) sizes)
  | .deleting todo (some (key, size)) sizes, .removeNext =>
      match s.fs.names (path A.root key) with
      | some h => some ({ s with fs := s.fs.unlink (path A.root key), removed := h :: s.removed },
          .deleting todo none (sizes ++ [size]))
      | none => some (s, .deleting todo none sizes)
  | .deleting (_ :: rest) none sizes, .deleteFail => some (s, .deleting rest none sizes)
  | .deleting todo (some _) sizes, .deleteFail => some (s, .deleting todo none sizes)
  | .deleting [] none sizes, .notifyDeleted =>
      some ({ s with deletedBytes := s.deletedBytes + sizes.sum }, .deleted)
  | _, _ => none

/-- Steps outside the threads: `submit_unlock`, and the storage giving up an
object that has no name any more. -/
inductive Env where
  | unlock (keys : List ObjectKey)
  | reclaim (h : Handle) (size : ℕ)
deriving DecidableEq, Repr

/-- `submit_unlock`: one count less per key, never below none. -/
def submitUnlock (locks : ObjectKey → ℕ) (keys : List ObjectKey) : ObjectKey → ℕ :=
  fun key => locks key - keys.count key

def envStep (s : Shared) : Env → Option Shared
  | .unlock keys => some { s with locks := submitUnlock s.locks keys }
  | .reclaim h m => (Dfs.reclaim s.fs h m).map fun fs => { s with fs := fs }

/-- An empty root, no locks, nothing reported. -/
def initialShared : Shared := ⟨FileStore.empty, fun _ => 0, 0, 0, []⟩

def threads (A : Adapter) : Threads Shared Proc Call Act Env where
  Init s := s = initialShared
  entry := entry
  step := step A
  envStep := envStep

abbrev St := ThreadState Shared Proc

abbrev Lbl := ThreadLbl Call Act Env

def machine (A : Adapter) : Machine St Lbl := (threads A).machine

def initial : St := ⟨initialShared, []⟩

theorem init_initial (A : Adapter) : (machine A).Init initial := ⟨rfl, rfl⟩

/-- A container with chunks of two bytes. -/
def twoByteChunks : Adapter := ⟨"/mp", 2, Nat.zero_lt_two⟩

def aKey : ObjectKey := ⟨[1], "m", 0, 0, ""⟩

/-- The `j`-th `_store_one` of thread `i`. -/
def callAt (s : St) (i j : ℕ) : Option StoreOne :=
  match s.threads[i]? with
  | some (.store calls) => calls[j]?
  | _ => none

/-! ## The steps, one constructor each -/

/-- `storeStep` read as a relation. -/
inductive StoreMove (A : Adapter) (fs : Dfs) : StoreOne → StoreAct → Dfs → StoreOne → Prop where
  | skip {key data} (h : Dfs.statSize fs (path A.root key) = some data.length) :
      StoreMove A fs ⟨key, data, .stat⟩ .stat fs ⟨key, data, .done 0⟩
  | stat {key data} (h : Dfs.statSize fs (path A.root key) ≠ some data.length) :
      StoreMove A fs ⟨key, data, .stat⟩ .stat fs ⟨key, data, .openRdwr⟩
  | openRdwr {key data} :
      StoreMove A fs ⟨key, data, .openRdwr⟩ .openRdwr (fs.openCreate (path A.root key)).1
        ⟨key, data, .write (fs.openCreate (path A.root key)).2
          (SparseFile.chunksOf A.chunkSize 0 data.length)⟩
  | land {key data h pending k} (hk : k ∈ pending) :
      StoreMove A fs ⟨key, data, .write h pending⟩ (.land k)
        (Dfs.landChunk fs A.chunkSize h 0 data k) ⟨key, data, .write h (pending.erase k)⟩
  | wrote {key data h} :
      StoreMove A fs ⟨key, data, .write h []⟩ .wrote fs ⟨key, data, .done data.length⟩
  | short {key data h pending m} (hm : m < data.length) :
      StoreMove A fs ⟨key, data, .write h pending⟩ (.short m) fs ⟨key, data, .cleanup h⟩
  | cleanup {key data h} :
      StoreMove A fs ⟨key, data, .cleanup h⟩ .cleanup (Dfs.remove fs (path A.root key)).1
        ⟨key, data, .done (-1)⟩
  | fail {key data pc} (hpc : ∀ r, pc ≠ .done r) :
      StoreMove A fs ⟨key, data, pc⟩ .fail fs ⟨key, data, .done (-1)⟩

theorem storeStep_cases {A : Adapter} {fs fs' : Dfs} {c c' : StoreOne} {a : StoreAct}
    (h : storeStep A fs c a = some (fs', c')) : StoreMove A fs c a fs' c' := by
  obtain ⟨key, data, pc⟩ := c
  cases pc <;> cases a <;> simp only [storeStep, reduceCtorEq] at h
  -- the file has its full length already: the store is skipped
  case stat.stat =>
      split at h
      · cases h
        exact .skip ‹_›
      · cases h
        exact .stat ‹_›
  case openRdwr.openRdwr =>
      cases h
      exact .openRdwr
  -- only a chunk still pending can land
  case write.land =>
      split at h
      · cases h
        exact .land ‹_›
      · cases h
  case write.wrote =>
      -- every chunk has landed
      split at h
      · rename_i hp
        subst hp
        cases h
        exact .wrote
      · cases h
  case write.short =>
      -- a failed write may leave chunks that never landed
      split at h
      · cases h
        exact .short ‹_›
      · cases h
  case cleanup.cleanup =>
      cases h
      exact .cleanup
  all_goals
    cases h
    exact .fail (by simp)

/-- A thread's `step` read as a relation. -/
inductive Move (A : Adapter) (s : Shared) : Proc → Act → Shared → Proc → Prop where
  | store {calls j a c fs' c'} (hj : calls[j]? = some c) (hc : StoreMove A s.fs c a fs' c') :
      Move A s (.store calls) (.store j a) { s with fs := fs' } (.store (calls.set j c'))
  | notifyStored {calls} (h : ∀ c ∈ calls, isDone c) :
      Move A s (.store calls) .notifyStored
        { s with storedBytes := s.storedBytes + (calls.map storedSize).sum } .stored
  | probe {expected probes j key} (hj : probes[j]? = some (key, none)) :
      Move A s (.lookup expected probes) (.probe j) s
        (.lookup expected (probes.set j (key, some (lookupOne A s.fs key expected))))
  | probeFail {expected probes j key} (hj : probes[j]? = some (key, none)) :
      Move A s (.lookup expected probes) (.probeFail j) s
        (.lookup expected (probes.set j (key, some .miss)))
  | lock {expected probes hits} (h : allProbed probes = some hits) :
      Move A s (.lookup expected probes) .lock { s with locks := lockHits s.locks hits }
        (.looked hits)
  | openHit {key n h} (hn : s.fs.names (path A.root key) = some h) :
      Move A s (.load key n) .openRdonly s (.loadRead key n h)
  | openMiss {key n} (hn : s.fs.names (path A.root key) = none) :
      Move A s (.load key n) .openRdonly s (.loaded key n none)
  | read {key n h} : Move A s (.loadRead key n h) .read s (.loaded key n
      (if (Dfs.readObj s.fs h 0 n).length = n then some (Dfs.readObj s.fs h 0 n) else none))
  | openFail {key n} : Move A s (.load key n) .loadFail s (.loaded key n none)
  | readFail {key n h} : Move A s (.loadRead key n h) .loadFail s (.loaded key n none)
  | choose {keys} : Move A s (.delete keys) .choose s
      (.deleting (keys.filter fun k => s.locks k = 0) none [])
  | statGone {key rest sizes} (h : s.fs.names (path A.root key) = none) :
      Move A s (.deleting (key :: rest) none sizes) .statNext s (.deleting rest none sizes)
  | statFound {key rest sizes h} (hn : s.fs.names (path A.root key) = some h) :
      Move A s (.deleting (key :: rest) none sizes) .statNext s
        (.deleting rest (some (key, (s.fs.files h).length)) sizes)
  | removeNext {todo key size sizes h} (hn : s.fs.names (path A.root key) = some h) :
      Move A s (.deleting todo (some (key, size)) sizes) .removeNext
        { s with fs := s.fs.unlink (path A.root key), removed := h :: s.removed }
        (.deleting todo none (sizes ++ [size]))
  | removeGone {todo key size sizes} (hn : s.fs.names (path A.root key) = none) :
      Move A s (.deleting todo (some (key, size)) sizes) .removeNext s
        (.deleting todo none sizes)
  | statFail {key rest sizes} :
      Move A s (.deleting (key :: rest) none sizes) .deleteFail s (.deleting rest none sizes)
  | removeFail {todo cur sizes} :
      Move A s (.deleting todo (some cur) sizes) .deleteFail s (.deleting todo none sizes)
  | notifyDeleted {sizes} : Move A s (.deleting [] none sizes) .notifyDeleted
      { s with deletedBytes := s.deletedBytes + sizes.sum } .deleted

theorem step_cases {A : Adapter} {s s' : Shared} {p p' : Proc} {a : Act}
    (h : step A s p a = some (s', p')) : Move A s p a s' p' := by
  unfold step at h
  split at h
  · -- `_store_one`, for the key the worker is at
    obtain ⟨c, hj, h⟩ := Option.bind_eq_some_iff.mp h
    obtain ⟨⟨fs', c'⟩, hc, h⟩ := Option.map_eq_some_iff.mp h
    cases h
    exact .store hj (storeStep_cases hc)
  · -- all keys are through: `notify_l2_keys_stored`
    split at h
    · rename_i hall
      cases h
      exact .notifyStored (by simpa using hall)
    · cases h
  · -- the lookup's probes, then its locks in one step
    split at h
    · cases h
      exact .probe ‹_›
    · cases h
  · split at h
    · cases h
      exact .probeFail ‹_›
    · cases h
  · obtain ⟨hits, hh, h⟩ := Option.map_eq_some_iff.mp h
    cases h
    exact .lock hh
  · -- the load's open: a hit has a handle, a miss ends it
    rename_i key n
    unfold Dfs.openRdonly at h
    cases hn : s.fs.names (path A.root key) with
    | some i =>
        simp only [hn] at h
        cases h
        exact .openHit hn
    | none =>
        simp only [hn] at h
        cases h
        exact .openMiss hn
  · cases h
    exact .read
  · cases h
    exact .openFail
  · cases h
    exact .readFail
  · cases h
    exact .choose
  · -- the delete's stat, then its removal
    rename_i key rest sizes
    unfold Dfs.statSize FileStore.size at h
    cases hn : s.fs.names (path A.root key) with
    | some i =>
        simp only [hn] at h
        cases h
        exact .statFound hn
    | none =>
        simp only [hn] at h
        cases h
        exact .statGone hn
  · split at h
    · cases h
      exact .removeNext ‹_›
    · cases h
      exact .removeGone ‹_›
  · cases h
    exact .statFail
  · cases h
    exact .removeFail
  · cases h
    exact .notifyDeleted
  · cases h

end LmcacheDaos.Mp
