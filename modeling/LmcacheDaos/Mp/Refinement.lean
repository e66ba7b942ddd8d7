import LmcacheDaos.Lib.OverlayStore
import LmcacheDaos.Mp.Adapter

/-!
# The adapter as a store that is used one call at a time

What `_store_one`, `_lookup_one`, `_load_one` and `delete` of any number of threads
mean as long as no two calls get in each other's way on one path: the run is one of
`Lib.OverlayStore`, with every answer it gives. A call takes effect at one step: a
write when `dfs_sys_write` returns, a load when its read returns, the others when
they look.

`Exclusive` says when calls do not get in each other's way. While a `_store_one` is
between its open and its end, nobody else looks at the path; and nobody opens the
path to write or removes it while a load is between its open and its read. Calls on
other paths, and loads and lookups of one path, are free. A thread that dies in a
write is one whose call fails there.

The paths are those the keys have: `Mp.Names` says when two keys share one.
-/

namespace LmcacheDaos.Mp.Refinement

open Lib OverlayStore

/-! ## Calls in progress -/

/-- A `_store_one` between its open and its end. -/
structure Writing where
  path : String
  handle : Handle
  data : Bytes
  /-- the chunks not yet visible; nothing when the write came back short -/
  pending : Option (List ℕ)
deriving DecidableEq, Repr

section Calls

variable (A : Adapter)

def writing (c : StoreOne) : Option Writing :=
  match c.pc with
  | .write h pending => some ⟨path A.root c.key, h, c.data, some pending⟩
  | .cleanup h => some ⟨path A.root c.key, h, c.data, none⟩
  | _ => none

def writersOf : Proc → List Writing
  | .store calls => calls.filterMap (writing A)
  | _ => []

/-- A load between its open and its read. -/
def readerOf : Proc → Option (String × Handle)
  | .loadRead key _ h => some (path A.root key, h)
  | _ => none

def writers (s : St) : List Writing := s.threads.flatMap (writersOf A)

def readers (s : St) : List (String × Handle) := s.threads.filterMap (readerOf A)

/-- The path a step looks at from outside a write, and whether it is about to change
it. -/
def touch : Proc → Act → Option (String × Bool)
  | .store calls, .store j a => (calls[j]?).bind fun c => match c.pc, a with
      | .stat, .stat => some (path A.root c.key, false)
      | .openRdwr, .openRdwr => some (path A.root c.key, true)
      | _, _ => none
  | .lookup _ probes, .probe j => (probes[j]?).map fun it => (path A.root it.1, false)
  | .load key _, .openRdonly => some (path A.root key, false)
  | .deleting _ (some (key, _)) _, .removeNext => some (path A.root key, true)
  | _, _ => none

/-- No call gets in another one's way. -/
def Exclusive (s : St) : Lbl → Prop
  | .act i a => ∀ proc ∈ s.threads[i]?, ∀ t ∈ touch A proc a,
      t.1 ∉ (writers A s).map Writing.path ∧
        (t.2 = true → t.1 ∉ (readers A s).map Prod.fst)
  | _ => True

instance (s : St) (a : Lbl) : Decidable (Exclusive A s a) :=
  match a with
  | .act i a => inferInstanceAs (Decidable (∀ proc ∈ s.threads[i]?, ∀ t ∈ touch A proc a,
      t.1 ∉ (writers A s).map Writing.path ∧ (t.2 = true → t.1 ∉ (readers A s).map Prod.fst)))
  | .spawn _ | .env _ => inferInstanceAs (Decidable True)

/-! ## What a step does as an operation of the store -/

def storeOps (fs : Dfs) (c : StoreOne) (a : StoreAct) : List (Op String UInt8) :=
  match c.pc, a with
  | .stat, .stat =>
      if Dfs.statSize fs (path A.root c.key) = some c.data.length then
        [.skip (path A.root c.key) c.data.length]
      else []
  | .write _ _, .wrote => [.write (path A.root c.key) c.data]
  | .cleanup _, .cleanup => [.drop (path A.root c.key)]
  | .write _ _, .fail | .cleanup _, .fail => [.torn (path A.root c.key) c.data]
  | _, _ => []

def opsOf (sh : Shared) : Proc → Act → List (Op String UInt8)
  | .store calls, .store j a => match calls[j]? with
      | some c => storeOps A sh.fs c a
      | none => []
  | .lookup expected probes, .probe j => match probes[j]? with
      | some (key, none) => [.probe (path A.root key) expected
          (decide (lookupOne A sh.fs key expected ≠ .miss))]
      | _ => []
  | .load key n, .openRdonly => match sh.fs.names (path A.root key) with
      | some _ => []
      | none => [.load (path A.root key) n none]
  | .loadRead key n h, .read =>
      [.load (path A.root key) n
        (if (Dfs.readObj sh.fs h 0 n).length = n then some (Dfs.readObj sh.fs h 0 n) else none)]
  | .deleting _ (some (key, _)) _, .removeNext => [.drop (path A.root key)]
  | _, _ => []

def opsAt (s : St) : Lbl → List (Op String UInt8)
  | .act i a => match s.threads[i]? with
      | some proc => opsOf A s.shared proc a
      | none => []
  | _ => []

/-- A run, as operations of the store. -/
def trace (as : List Lbl) : List (Op String UInt8) := (machine A).seen (opsAt A) initial as

/-! ## The refinement relation -/

/-- What the file of a write in progress holds. -/
def Partway (old : Option Bytes) (w : Writing) (f : Bytes) : Prop :=
  Torn 0 (old.getD []) w.data f ∧
    ∀ pending ∈ w.pending, SparseFile.Landed 0 A.chunkSize f 0 w.data pending

/-- `H` is what the paths hold, apart from the writes in progress. -/
structure Refines (fs : Dfs) (ws : List Writing) (rs : List (String × Handle))
    (H : Held String UInt8) : Prop where
  apart : (ws.map Writing.path).Nodup
  unread : ∀ r ∈ rs, r.1 ∉ ws.map Writing.path
  quiet : ∀ p, p ∉ ws.map Writing.path → fs.content p = H p
  writing : ∀ w ∈ ws, fs.names w.path = some w.handle ∧
    Partway A (H w.path) w (fs.files w.handle)
  reading : ∀ r ∈ rs, fs.names r.1 = some r.2

end Calls

section Calls

variable {A : Adapter} {fs fs' : Dfs} {ws ws' : List Writing} {rs rs' : List (String × Handle)}
  {H : Held String UInt8}

theorem Refines.perm (h : Refines A fs ws rs H) (hws : ws'.Perm ws) (hrs : rs'.Perm rs) :
    Refines A fs ws' rs' H where
  apart := (hws.map _).nodup_iff.mpr h.apart
  unread r hr hmem := h.unread r (hrs.mem_iff.mp hr) ((hws.map _).mem_iff.mp hmem)
  quiet p hp := h.quiet p fun hmem => hp ((hws.map _).mem_iff.mpr hmem)
  writing w hw := h.writing w (hws.mem_iff.mp hw)
  reading r hr := h.reading r (hrs.mem_iff.mp hr)

/-- The named objects stay as they are. -/
theorem Refines.same (h : Refines A fs ws rs H) (hsame : ∀ p, fs.SameAt fs' p) :
    Refines A fs' ws rs H where
  apart := h.apart
  unread := h.unread
  quiet p hp := (hsame p).content.trans (h.quiet p hp)
  writing w hw := by
    obtain ⟨hname, hpart⟩ := h.writing w hw
    refine ⟨(hsame w.path).1.trans hname, ?_⟩
    rw [(hsame w.path).2 _ hname]
    exact hpart
  reading r hr := (hsame r.1).1.trans (h.reading r hr)

/-- A path that nobody writes or reads changes. -/
theorem Refines.change (h : Refines A fs ws rs H) {p : String} {f : Option Bytes}
    (hw : p ∉ ws.map Writing.path) (hr : p ∉ rs.map Prod.fst)
    (hsame : ∀ q, q ≠ p → fs.SameAt fs' q) (hp : fs'.content p = f) :
    Refines A fs' ws rs (Function.update H p f) where
  apart := h.apart
  unread := h.unread
  quiet q hq := by
    by_cases hqp : q = p
    · subst hqp
      rw [Function.update_self, hp]
    · rw [Function.update_of_ne hqp, (hsame q hqp).content, h.quiet q hq]
  writing w hmem := by
    have hne : w.path ≠ p := by
      rintro rfl
      exact hw (List.mem_map_of_mem hmem)
    obtain ⟨hname, hpart⟩ := h.writing w hmem
    rw [Function.update_of_ne hne]
    refine ⟨(hsame _ hne).1.trans hname, ?_⟩
    rw [(hsame _ hne).2 _ hname]
    exact hpart
  reading r hmem := by
    have hne : r.1 ≠ p := by
      rintro rfl
      exact hr (List.mem_map_of_mem hmem)
    exact (hsame _ hne).1.trans (h.reading r hmem)

theorem not_mem_paths {w : Writing} (h : Refines A fs (w :: ws) rs H) :
    w.path ∉ ws.map Writing.path ∧ w.path ∉ rs.map Prod.fst := by
  refine ⟨(List.nodup_cons.mp h.apart).1, fun hmem => ?_⟩
  obtain ⟨r, hr, heq⟩ := List.mem_map.mp hmem
  exact h.unread r hr (heq ▸ List.mem_cons_self)

/-- A write ends, with its path as the storage has it. -/
theorem Refines.endWrite {w : Writing} (h : Refines A fs (w :: ws) rs H)
    (hsame : ∀ q, q ≠ w.path → fs.SameAt fs' q) :
    Refines A fs' ws rs (Function.update H w.path (fs'.content w.path)) := by
  obtain ⟨hws, hrs⟩ := not_mem_paths h
  -- the write gone, its path is whatever it holds
  have hgone : Refines A fs ws rs (Function.update H w.path (fs.content w.path)) := by
    refine ⟨(List.nodup_cons.mp h.apart).2, fun r hr hmem => h.unread r hr (.tail _ hmem), ?_, ?_,
      h.reading⟩
    · intro q hq
      by_cases hqw : q = w.path
      · rw [hqw, Function.update_self]
      · rw [Function.update_of_ne hqw]
        refine h.quiet q fun hmem => ?_
        rcases List.mem_cons.mp hmem with heq | hmem
        · exact hqw heq
        · exact hq hmem
    · intro w' hw'
      have hne : w'.path ≠ w.path := by
        intro heq
        exact hws (heq ▸ List.mem_map_of_mem hw')
      rw [Function.update_of_ne hne]
      exact h.writing w' (.tail _ hw')
  have hchange := hgone.change hws hrs hsame rfl
  rwa [Function.update_idem] at hchange

/-- A write in progress goes on. -/
theorem Refines.goOn {w w' : Writing} (h : Refines A fs (w :: ws) rs H) (hpath : w'.path = w.path)
    (hhandle : w'.handle = w.handle) (hname : fs'.names w.path = some w.handle)
    (hsame : ∀ q, q ≠ w.path → fs.SameAt fs' q)
    (hpart : Partway A (H w.path) w' (fs'.files w.handle)) :
    Refines A fs' (w' :: ws) rs H := by
  -- no other write is on this path, and no read
  obtain ⟨hws, hrs⟩ := not_mem_paths h
  constructor
  · rw [List.map_cons, hpath]
    exact h.apart
  · intro r hr
    rw [List.map_cons, hpath]
    exact h.unread r hr
  · -- the content of paths not being written is untouched
    intro q hq
    rw [List.map_cons, hpath, ← List.map_cons] at hq
    have hne : q ≠ w.path := fun heq => hq (heq ▸ List.mem_cons_self)
    exact (hsame q hne).content.trans (h.quiet q hq)
  · -- the write itself is as far as `w'` says; the others did not move
    intro x hx
    rcases List.mem_cons.mp hx with rfl | hx
    · rw [hpath, hhandle]
      exact ⟨hname, hpart⟩
    · have hne : x.path ≠ w.path := fun heq => hws (heq ▸ List.mem_map_of_mem hx)
      obtain ⟨hxname, hxpart⟩ := h.writing x (.tail _ hx)
      refine ⟨(hsame _ hne).1.trans hxname, ?_⟩
      rw [(hsame _ hne).2 _ hxname]
      exact hxpart
  · -- reads look at other paths
    intro r hr
    have hne : r.1 ≠ w.path := fun heq => hrs (heq ▸ List.mem_map_of_mem hr)
    exact (hsame _ hne).1.trans (h.reading r hr)

/-- `open_rdwr_create` on a path nobody uses. -/
theorem Refines.openWrite (h : Refines A fs ws rs H) {p : String} (data : Bytes)
    (hw : p ∉ ws.map Writing.path) (hr : p ∉ rs.map Prod.fst) :
    Refines A (fs.openCreate p).1
      (⟨p, (fs.openCreate p).2, data,
        some (SparseFile.chunksOf A.chunkSize 0 data.length)⟩ :: ws) rs H := by
  have hsame : ∀ q, q ≠ p → fs.SameAt (fs.openCreate p).1 q := fun q hq =>
    FileStore.sameAt_openCreate fs hq
  -- the file that is opened has what the path had: opening does not truncate
  have hfile : (fs.openCreate p).1.files (fs.openCreate p).2 = (H p).getD [] := by
    rw [FileStore.openCreate_files, ← h.quiet p hw]
    cases hn : fs.names p with
    | some i => simp [FileStore.openCreate_of_some hn, FileStore.content, hn]
    | none => simp [FileStore.openCreate_files_of_none hn, FileStore.content, hn]
  constructor
  · exact List.nodup_cons.mpr ⟨hw, h.apart⟩
  · intro r hmem hpath
    rcases List.mem_cons.mp hpath with heq | hpath
    · exact hr (List.mem_map.mpr ⟨r, hmem, heq⟩)
    · exact h.unread r hmem hpath
  · intro q hq
    have hne : q ≠ p := fun heq => hq (heq ▸ List.mem_cons_self)
    exact (hsame q hne).content.trans (h.quiet q fun hmem => hq (.tail _ hmem))
  · intro x hx
    rcases List.mem_cons.mp hx with rfl | hx
    · -- nothing has landed yet, so the content is the old one
      refine ⟨FileStore.openCreate_names_self fs p, ?_, fun pending hpend => ?_⟩
      · simp only [hfile]
        exact torn_refl _ _
      · cases hpend
        exact SparseFile.landed_chunksOf A.chunk_pos _ 0 data
    · -- the other writes are on other paths
      have hne : x.path ≠ p := fun heq => hw (heq ▸ List.mem_map_of_mem hx)
      obtain ⟨hxname, hxpart⟩ := h.writing x hx
      refine ⟨(hsame _ hne).1.trans hxname, ?_⟩
      rw [(hsame _ hne).2 _ hxname]
      exact hxpart
  · intro r hmem
    have hne : r.1 ≠ p := fun heq => hr (heq ▸ List.mem_map_of_mem hmem)
    exact (hsame _ hne).1.trans (h.reading r hmem)

/-- `remove` of a path nobody uses. -/
theorem Refines.remove (h : Refines A fs ws rs H) {p : String} (hw : p ∉ ws.map Writing.path)
    (hr : p ∉ rs.map Prod.fst) : Refines A (fs.unlink p) ws rs (Function.update H p none) := by
  refine h.change hw hr (fun q hq => FileStore.sameAt_unlink fs hq) ?_
  rw [FileStore.content, FileStore.unlink_names_self, Option.map_none]

/-- One entry takes the place of another. -/
theorem perm_swap {w w' : Writing} (hw : w ∈ ws) (hperm : (ws' ++ [w]).Perm (ws ++ [w'])) :
    ws'.Perm (w' :: ws.erase w) := by
  have hlast : (w :: ws.erase w).Perm (ws.erase w ++ [w]) := (List.perm_append_singleton w _).symm
  refine (List.perm_append_right_iff [w]).mp (hperm.trans ?_)
  calc (ws ++ [w']).Perm (w' :: ws) := List.perm_append_singleton w' ws
    List.Perm _ (w' :: (ws.erase w ++ [w])) := ((List.perm_cons_erase hw).trans hlast).cons w'

theorem perm_drop {w : Writing} (hw : w ∈ ws) (hperm : (ws' ++ [w]).Perm ws) :
    ws'.Perm (ws.erase w) := by
  refine (List.perm_append_right_iff [w]).mp (hperm.trans ?_)
  exact (List.perm_cons_erase hw).trans (List.perm_append_singleton w _).symm

theorem size_eq (fs : Dfs) (p : String) : fs.size p = (fs.content p).map List.length := by
  rw [FileStore.size, FileStore.content, Option.map_map]
  rfl

/-- What a step of a `_store_one` does. -/
theorem store_refines {c c' : StoreOne} {a : StoreAct} (h : Refines A fs ws rs H)
    (hst : StoreMove A fs c a fs' c') (hmem : ∀ w ∈ writing A c, w ∈ ws)
    (hperm : (ws' ++ (writing A c).toList).Perm (ws ++ (writing A c').toList))
    (hquiet : a = .stat ∨ a = .openRdwr → path A.root c.key ∉ ws.map Writing.path)
    (hunread : a = .openRdwr → path A.root c.key ∉ rs.map Prod.fst) :
    ∃ H', Run 0 H (storeOps A fs c a) H' ∧ Refines A fs' ws' rs H' := by
  cases hst with
  | @skip key data hsize =>
      simp only [writing, Option.toList_none, List.append_nil] at hperm
      refine ⟨H, ?_, h.perm hperm (.refl _)⟩
      simp only [storeOps]
      rw [if_pos hsize]
      refine .single (.skip ?_)
      rw [← h.quiet _ (hquiet (.inl rfl)), ← size_eq]
      exact hsize
  | stat hsize =>
      simp only [writing, Option.toList_none, List.append_nil] at hperm
      refine ⟨H, ?_, h.perm hperm (.refl _)⟩
      simp only [storeOps]
      rw [if_neg hsize]
      exact .nil
  | @openRdwr key data =>
      simp only [writing, Option.toList_none, List.append_nil, Option.toList_some] at hperm
      have hopen := h.openWrite data (hquiet (.inr rfl)) (hunread rfl)
      exact ⟨H, .nil, hopen.perm (hperm.trans List.perm_append_comm) (.refl _)⟩
  | @land key data i pending k hk =>
      simp only [writing, Option.toList_some] at hperm
      have hw := hmem _ rfl
      have hhead := h.perm (List.perm_cons_erase hw).symm (.refl _)
      obtain ⟨hname, htorn, hlanded⟩ := h.writing _ hw
      have hlt := fs.names_lt _ _ hname
      refine ⟨H, .nil, Refines.perm ?_ (perm_swap hw hperm) (.refl _)⟩
      refine hhead.goOn rfl rfl ?_ (fun q hq => FileStore.sameAt_setFile hname hq _) ?_
      · rw [Dfs.landChunk, FileStore.setFile_names]
        exact hname
      · simp only [Dfs.landChunk, FileStore.setFile_files_self hlt]
        refine ⟨htorn.landChunk A.chunk_pos k, fun pending' hpend => ?_⟩
        cases hpend
        exact SparseFile.landed_erase A.chunk_pos (hlanded pending rfl) k
  | @wrote key data i =>
      simp only [writing, Option.toList_some, Option.toList_none, List.append_nil] at hperm
      have hw := hmem _ rfl
      have hhead := h.perm (List.perm_cons_erase hw).symm (.refl _)
      obtain ⟨hname, htorn, hlanded⟩ := h.writing _ hw
      have hend := hhead.endWrite fun q _ => FileStore.SameAt.refl fs q
      refine ⟨_, .single .write, ?_⟩
      have hfile : fs.files i = overlay (H (path A.root key)) data :=
        htorn.eq_overlay (hlanded [] rfl)
      simp only [FileStore.content, hname, Option.map_some, hfile] at hend
      exact hend.perm (perm_drop hw hperm) (.refl _)
  | @short key data i pending m hm =>
      simp only [writing, Option.toList_some] at hperm
      have hw := hmem _ rfl
      have hhead := h.perm (List.perm_cons_erase hw).symm (.refl _)
      obtain ⟨hname, htorn, -⟩ := h.writing _ hw
      refine ⟨H, .nil, Refines.perm ?_ (perm_swap hw hperm) (.refl _)⟩
      exact hhead.goOn rfl rfl hname (fun q _ => FileStore.SameAt.refl fs q) ⟨htorn, nofun⟩
  | @cleanup key data i =>
      simp only [writing, Option.toList_some, Option.toList_none, List.append_nil] at hperm
      have hw := hmem _ rfl
      have hhead := h.perm (List.perm_cons_erase hw).symm (.refl _)
      obtain ⟨hname, -⟩ := h.writing _ hw
      have hremove : (Dfs.remove fs (path A.root key)).1 = fs.unlink (path A.root key) := by
        rw [Dfs.remove, hname]
      have hend := hhead.endWrite fun q hq => FileStore.sameAt_unlink fs hq
      refine ⟨_, .single .drop, ?_⟩
      simp only [FileStore.content, FileStore.unlink_names_self, Option.map_none] at hend
      rw [hremove]
      exact hend.perm (perm_drop hw hperm) (.refl _)
  | @fail key data pc hpc =>
      cases pc with
      | done r => exact absurd rfl (hpc r)
      | stat | openRdwr =>
          simp only [writing, Option.toList_none, List.append_nil] at hperm
          exact ⟨H, .nil, h.perm hperm (.refl _)⟩
      | write i _ | cleanup i =>
          -- the object stays as far as it was written
          simp only [writing, Option.toList_some, Option.toList_none, List.append_nil] at hperm
          have hw := hmem _ rfl
          have hhead := h.perm (List.perm_cons_erase hw).symm (.refl _)
          obtain ⟨hname, htorn, -⟩ := h.writing _ hw
          have hend := hhead.endWrite fun q _ => FileStore.SameAt.refl fs q
          refine ⟨_, .single (.torn htorn), ?_⟩
          simp only [FileStore.content, hname, Option.map_some] at hend
          exact hend.perm (perm_drop hw hperm) (.refl _)

theorem lookup_found (fs : Dfs) (key : ObjectKey) (expected : Option ℕ) :
    decide (lookupOne A fs key expected ≠ .miss) =
      found (fs.content (path A.root key)) expected := by
  rw [lookupOne, FileStore.content]
  cases hn : fs.names (path A.root key) with
  | none => rfl
  | some i =>
      cases expected with
      | none => simp [found]
      | some n =>
          by_cases hlen : (fs.files i).length = n
          · simp [found, hlen]
          · simp [found, hlen]

theorem read_loaded (fs : Dfs) (h : Handle) (n : ℕ) :
    (if (Dfs.readObj fs h 0 n).length = n then some (Dfs.readObj fs h 0 n) else none) =
      loaded (some (fs.files h)) n := by
  have hlen : (Dfs.readObj fs h 0 n).length = n ↔ n ≤ (fs.files h).length := by
    rw [Dfs.readObj, SparseFile.length_readAt, Nat.sub_zero]
    omega
  simp only [hlen]
  rfl

end Calls

/-! ## Steps of the adapter -/

section Steps

variable {A : Adapter} {s s' : St} {H : Held String UInt8} {i : ℕ} {proc proc' : Proc}
  {sh : Shared} {a : Act}

/-- The state and what it means. -/
def RefinesAt (A : Adapter) (s : St) (H : Held String UInt8) : Prop :=
  Refines A s.shared.fs (writers A s) (readers A s) H

theorem writers_set (sh : Shared) (proc' : Proc) (hthr : s.threads[i]? = some proc) :
    (writers A ⟨sh, s.threads.set i proc'⟩ ++ writersOf A proc).Perm
      (writers A s ++ writersOf A proc') :=
  perm_flatMap_set (writersOf A) proc' hthr

theorem readers_set (sh : Shared) (proc' : Proc) (hthr : s.threads[i]? = some proc) :
    (readers A ⟨sh, s.threads.set i proc'⟩ ++ (readerOf A proc).toList).Perm
      (readers A s ++ (readerOf A proc').toList) :=
  perm_filterMap_set (readerOf A) proc' hthr

/-- A step that is neither part of a write nor of a read leaves both lists alone. -/
theorem lists_same (sh : Shared) (hthr : s.threads[i]? = some proc)
    (hw : writersOf A proc = [] ∧ writersOf A proc' = [])
    (hr : readerOf A proc = none ∧ readerOf A proc' = none) :
    (writers A ⟨sh, s.threads.set i proc'⟩).Perm (writers A s) ∧
      (readers A ⟨sh, s.threads.set i proc'⟩).Perm (readers A s) := by
  have hws := writers_set (A := A) sh proc' hthr
  have hrs := readers_set (A := A) sh proc' hthr
  rw [hw.1, hw.2, List.append_nil, List.append_nil] at hws
  rw [hr.1, hr.2, Option.toList_none, List.append_nil, List.append_nil] at hrs
  exact ⟨hws, hrs⟩

/-- The steps of a `_store_one`, seen from the whole state. -/
theorem writers_store {calls : List StoreOne} {j : ℕ} {c : StoreOne} (sh : Shared) (c' : StoreOne)
    (hthr : s.threads[i]? = some (.store calls)) (hj : calls[j]? = some c) :
    (writers A ⟨sh, s.threads.set i (.store (calls.set j c'))⟩ ++ (writing A c).toList).Perm
      (writers A s ++ (writing A c').toList) := by
  have hthread := writers_set (A := A) sh (.store (calls.set j c')) hthr
  have hcall := perm_filterMap_set (writing A) c' hj
  simp only [writersOf] at hthread
  refine (List.perm_append_right_iff (calls.filterMap (writing A))).mp ?_
  calc (writers A ⟨sh, s.threads.set i (.store (calls.set j c'))⟩ ++ (writing A c).toList ++
        calls.filterMap (writing A)).Perm
        (writers A ⟨sh, s.threads.set i (.store (calls.set j c'))⟩ ++
          calls.filterMap (writing A) ++ (writing A c).toList) := by
        rw [List.append_assoc, List.append_assoc]
        exact List.perm_append_comm.append_left _
    List.Perm _ (writers A s ++ (calls.set j c').filterMap (writing A) ++
        (writing A c).toList) := hthread.append_right _
    List.Perm _ (writers A s ++ (calls.filterMap (writing A) ++ (writing A c').toList)) := by
        rw [List.append_assoc]
        exact hcall.append_left _
    List.Perm _ (writers A s ++ (writing A c').toList ++ calls.filterMap (writing A)) := by
        rw [List.append_assoc]
        exact List.perm_append_comm.append_left _

/-- A load is over. -/
theorem closed_read {key : ObjectKey} {n : ℕ} {o : Handle} (h : RefinesAt A s H)
    (hthr : s.threads[i]? = some (.loadRead key n o)) (hw : writersOf A proc' = [])
    (hr : readerOf A proc' = none) : RefinesAt A ⟨s.shared, s.threads.set i proc'⟩ H := by
  have hws := writers_set (A := A) s.shared proc' hthr
  have hrs := readers_set (A := A) s.shared proc' hthr
  rw [hw] at hws
  rw [hr] at hrs
  simp only [writersOf, readerOf, Option.toList_none, Option.toList_some,
    List.append_nil] at hws hrs
  have hsub : ∀ r ∈ readers A ⟨s.shared, s.threads.set i proc'⟩, r ∈ readers A s := fun r hmem =>
    hrs.mem_iff.mp (List.mem_append_left _ hmem)
  have hperm := h.perm hws (.refl _)
  exact ⟨hperm.apart, fun r hmem => hperm.unread r (hsub r hmem), hperm.quiet, hperm.writing,
    fun r hmem => hperm.reading r (hsub r hmem)⟩

theorem act_refines (h : RefinesAt A s H) (hex : Exclusive A s (.act i a))
    (hthr : s.threads[i]? = some proc) (hm : Move A s.shared proc a sh proc') :
    ∃ H', Run 0 H (opsOf A s.shared proc a) H' ∧
      RefinesAt A ⟨sh, s.threads.set i proc'⟩ H' := by
  have htouch : ∀ t ∈ touch A proc a, t.1 ∉ (writers A s).map Writing.path ∧
      (t.2 = true → t.1 ∉ (readers A s).map Prod.fst) := hex proc hthr
  -- most steps change neither list
  have hsame : ∀ {H' : Held String UInt8}, (writersOf A proc = [] ∧ writersOf A proc' = []) →
      (readerOf A proc = none ∧ readerOf A proc' = none) →
      Refines A sh.fs (writers A s) (readers A s) H' →
      RefinesAt A ⟨sh, s.threads.set i proc'⟩ H' := by
    intro H' hw hr hrefines
    obtain ⟨hws, hrs⟩ := lists_same sh hthr hw hr
    exact hrefines.perm hws hrs
  cases hm with
  | @store calls j b c fs' c' hj hc =>
      have hlook : opsOf A s.shared (.store calls) (.store j b) = storeOps A s.shared.fs c b := by
        simp [opsOf, hj]
      rw [hlook]
      have hreaders :=
        readers_set (A := A) { s.shared with fs := fs' } (.store (calls.set j c')) hthr
      simp only [readerOf, Option.toList_none, List.append_nil] at hreaders
      have hmem : ∀ w ∈ writing A c, w ∈ writers A s := by
        intro w hw
        refine List.mem_flatMap.mpr ⟨.store calls, List.mem_of_getElem? hthr, ?_⟩
        exact List.mem_filterMap.mpr ⟨c, List.mem_of_getElem? hj, hw⟩
      have hstat : b = .stat →
          (path A.root c.key, false) ∈ touch A (.store calls) (.store j b) := by
        rintro rfl
        cases hc <;> simp [touch, hj]
      have hopen : b = .openRdwr →
          (path A.root c.key, true) ∈ touch A (.store calls) (.store j b) := by
        rintro rfl
        cases hc
        simp [touch, hj]
      obtain ⟨H', hrun, hrefines⟩ := store_refines h hc hmem
        (writers_store { s.shared with fs := fs' } c' hthr hj)
        (fun hb => hb.elim (fun hb => (htouch _ (hstat hb)).1) fun hb => (htouch _ (hopen hb)).1)
        (fun hb => (htouch _ (hopen hb)).2 rfl)
      exact ⟨H', hrun, hrefines.perm (.refl _) hreaders⟩
  | @notifyStored calls hdone =>
      have hnone : writersOf A (.store calls) = [] := by
        refine List.filterMap_eq_nil_iff.mpr fun c hc => ?_
        have hc := hdone c hc
        obtain ⟨key, data, pc⟩ := c
        cases pc <;> first | rfl | cases hc
      exact ⟨H, .nil, hsame ⟨hnone, rfl⟩ ⟨rfl, rfl⟩ h⟩
  | @probe expected probes j key hj =>
      obtain ⟨hquiet, -⟩ := htouch (path A.root key, false) (by simp [touch, hj])
      refine ⟨H, ?_, hsame ⟨rfl, rfl⟩ ⟨rfl, rfl⟩ h⟩
      simp only [opsOf, hj]
      rw [lookup_found, h.quiet _ hquiet]
      exact .single .probe
  | probeFail | lock | openFail | choose | statGone | statFound | statFail | removeFail
  | notifyDeleted => exact ⟨H, .nil, hsame ⟨rfl, rfl⟩ ⟨rfl, rfl⟩ h⟩
  | @openHit key n o hn =>
      obtain ⟨hquiet, -⟩ := htouch (path A.root key, false) (by simp [touch])
      have hws := writers_set (A := A) s.shared (.loadRead key n o) hthr
      have hrs := readers_set (A := A) s.shared (.loadRead key n o) hthr
      simp only [writersOf, readerOf, Option.toList_none, Option.toList_some,
        List.append_nil] at hws hrs
      refine ⟨H, ?_, Refines.perm ?_ hws (hrs.trans (List.perm_append_singleton _ _))⟩
      · simp only [opsOf, hn]
        exact .nil
      · refine ⟨h.apart, ?_, h.quiet, h.writing, ?_⟩
        · exact List.forall_mem_cons.mpr ⟨hquiet, h.unread⟩
        · exact List.forall_mem_cons.mpr ⟨hn, h.reading⟩
  | @openMiss key n hn =>
      obtain ⟨hquiet, -⟩ := htouch (path A.root key, false) (by simp [touch])
      refine ⟨H, ?_, hsame ⟨rfl, rfl⟩ ⟨rfl, rfl⟩ h⟩
      simp only [opsOf, hn]
      have hnone : H (path A.root key) = none := by
        rw [← h.quiet _ hquiet, FileStore.content, hn, Option.map_none]
      have hload : Step 0 H (.load (path A.root key) n (loaded (H (path A.root key)) n)) H := .load
      rw [hnone] at hload
      exact .single hload
  | @read key n o =>
      have hmem : (path A.root key, o) ∈ readers A s :=
        List.mem_filterMap.mpr ⟨_, List.mem_of_getElem? hthr, rfl⟩
      have hheld : H (path A.root key) = some (s.shared.fs.files o) := by
        rw [← h.quiet _ (h.unread _ hmem), FileStore.content, h.reading _ hmem, Option.map_some]
      refine ⟨H, ?_, closed_read h hthr rfl rfl⟩
      simp only [opsOf]
      rw [read_loaded, ← hheld]
      exact .single .load
  | readFail => exact ⟨H, .nil, closed_read h hthr rfl rfl⟩
  | @removeNext todo key size sizes o hn =>
      obtain ⟨hquiet, hunread⟩ := htouch (path A.root key, true) (by simp [touch])
      exact ⟨_, .single .drop, hsame ⟨rfl, rfl⟩ ⟨rfl, rfl⟩ (h.remove hquiet (hunread rfl))⟩
  | @removeGone todo key size sizes hn =>
      obtain ⟨hquiet, hunread⟩ := htouch (path A.root key, true) (by simp [touch])
      refine ⟨_, .single .drop, hsame ⟨rfl, rfl⟩ ⟨rfl, rfl⟩ ?_⟩
      refine h.change hquiet (hunread rfl) (fun q _ => .refl _ q) ?_
      rw [FileStore.content, hn, Option.map_none]

theorem step_refines {l : Lbl} (h : RefinesAt A s H) (hex : Exclusive A s l)
    (hst : (machine A).step s l = some s') :
    ∃ H', Run 0 H (opsAt A s l) H' ∧ RefinesAt A s' H' := by
  cases l with
  | spawn c =>
      cases hst
      -- a call starts outside the storage
      have hentry : writersOf A (entry c) = [] ∧ readerOf A (entry c) = none := by
        cases c with
        | store items =>
            refine ⟨List.filterMap_eq_nil_iff.mpr fun x hx => ?_, rfl⟩
            obtain ⟨it, -, rfl⟩ := List.mem_map.mp hx
            rfl
        | _ => exact ⟨rfl, rfl⟩
      have hws : writers A ⟨s.shared, s.threads ++ [entry c]⟩ = writers A s := by
        simp [writers, hentry.1]
      have hrs : readers A ⟨s.shared, s.threads ++ [entry c]⟩ = readers A s := by
        simp [readers, hentry.2]
      refine ⟨H, .nil, ?_⟩
      change Refines A s.shared.fs (writers A ⟨s.shared, s.threads ++ [entry c]⟩)
        (readers A ⟨s.shared, s.threads ++ [entry c]⟩) H
      rw [hws, hrs]
      exact h
  | act i a =>
      obtain ⟨proc, sh, proc', hthr, hstep, rfl⟩ := Threads.step_act_iff.mp hst
      simp only [opsAt, hthr]
      exact act_refines h hex hthr (step_cases hstep)
  | env e =>
      obtain ⟨sh, henv, rfl⟩ := Threads.step_env_iff.mp hst
      cases e with
      | unlock keys =>
          cases henv
          exact ⟨H, .nil, h⟩
      | reclaim o m =>
          obtain ⟨fs', hfs, rfl⟩ := Option.map_eq_some_iff.mp henv
          obtain ⟨hgone, rfl⟩ := Dfs.reclaim_eq_some.mp hfs
          exact ⟨H, .nil, h.same fun p => FileStore.sameAt_setFile_unlinked hgone p _⟩

theorem initial_refines (A : Adapter) : RefinesAt A initial fun _ => none :=
  ⟨List.nodup_nil, nofun, fun _ _ => rfl, nofun, nofun⟩

end Steps

section Runs

variable {A : Adapter} {s : St} {as : List Lbl}

theorem refines_of_run (halong : (machine A).Along (Exclusive A) initial as)
    (hrun : (machine A).run initial as = some s) :
    ∃ H, Run 0 (fun _ => none) (trace A as) H ∧ RefinesAt A s H := by
  refine Machine.run_induction (M := machine A)
    (fun as s => ∃ H, Run 0 (fun _ => none) (trace A as) H ∧ RefinesAt A s H)
    ⟨_, .nil, initial_refines A⟩ ?_ halong hrun
  rintro as s a s' ⟨H, hops, hrefines⟩ hrun hex hst
  obtain ⟨H', hstep, hrefines'⟩ := step_refines hrefines hex hst
  refine ⟨H', ?_, hrefines'⟩
  rw [trace, Machine.seen_append hrun, Machine.seen_cons hst, Machine.seen, List.append_nil]
  exact hops.append hstep

end Runs

/-- Another key. -/
def bKey : ObjectKey := ⟨[2], "m", 0, 0, ""⟩

/-- A store of three bytes over an object of four, while another key is stored; then a
lookup, and a load of four bytes. -/
def shorterOver : List Lbl :=
  [.spawn (.store [(aKey, [9, 9, 9, 9])]), .act 0 (.store 0 .stat), .act 0 (.store 0 .openRdwr),
   .act 0 (.store 0 (.land 1)), .act 0 (.store 0 (.land 0)), .act 0 (.store 0 .wrote),
   .spawn (.store [(bKey, [5]), (aKey, [1, 2, 3])]), .act 1 (.store 1 .stat),
   .act 1 (.store 0 .stat), .act 1 (.store 1 .openRdwr), .act 1 (.store 0 .openRdwr),
   .act 1 (.store 1 (.land 1)), .act 1 (.store 0 (.land 0)), .act 1 (.store 1 (.land 0)),
   .act 1 (.store 1 .wrote), .spawn (.lookup [aKey] (some 3)), .act 2 (.probe 0),
   .spawn (.load aKey 3), .act 3 .openRdonly, .act 1 (.store 0 .wrote), .act 3 .read]

end LmcacheDaos.Mp.Refinement
