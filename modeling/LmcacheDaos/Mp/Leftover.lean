import LmcacheDaos.Mp.Adapter

/-!
# Storing over a leftover

What `_store_one` finds under a key's path need not be an object it would have
written: a store that was cut short, or another layout, leaves a file of any
length. `_store_one` writes over it from the first byte on and cuts nothing
off (`open_rdwr_create` passes no `O_TRUNC`), and the sizes that
`_lookup_one` and a later `_store_one` look at are those of the whole file.

So a store takes effect exactly when the leftover was not longer than the
buffer. Over a longer one `_store_one` reports every byte written, every
lookup misses, and every further store writes all of it again.
-/

namespace LmcacheDaos.Mp

open Lib

/-! ## One store, with no one else around -/

/-- `_store_one((key, obj))` by itself. -/
def storeAlone (A : Adapter) (fs : Dfs) (key : ObjectKey) (data : Bytes) :
    Machine (Dfs × StoreOne) StoreAct where
  Init s := s = (fs, ⟨key, data, .stat⟩)
  step s a := storeStep A s.1 s.2 a

/-- `_load_one` of a buffer of `n` bytes, with no one else around. -/
def loadOne (A : Adapter) (fs : Dfs) (key : ObjectKey) (n : ℕ) : Option Bytes :=
  match Dfs.openRdonly fs (path A.root key) with
  | .error _ => none
  | .ok h =>
      let got := Dfs.readObj fs h 0 n
      if got.length = n then some got else none

/-- A load thread that steps twice in a row. -/
theorem steps_load {A : Adapter} {s : Shared} {key : ObjectKey} {n : ℕ} :
    ∃ p, step A s (.load key n) .openRdonly = some (s, p) ∧
      (p = .loaded key n (loadOne A s.fs key n) ∨
        step A s p .read = some (s, .loaded key n (loadOne A s.fs key n))) := by
  unfold loadOne
  cases hopen : Dfs.openRdonly s.fs (path A.root key) with
  | error e => exact ⟨.loaded key n none, by simp [step, hopen], .inl rfl⟩
  | ok h => exact ⟨.loadRead key n h, by simp [step, hopen], .inr rfl⟩

/-- What a store is for: a lookup that expects the size hits, a load returns
the bytes, and the same store again is skipped. -/
structure TakesEffect (A : Adapter) (fs : Dfs) (key : ObjectKey) (data : Bytes) : Prop where
  lookup : lookupOne A fs key (some data.length) ≠ .miss
  load : loadOne A fs key data.length = some data
  again : storeStep A fs ⟨key, data, .stat⟩ .stat = some (fs, ⟨key, data, .done 0⟩)

/-! ## What a run leaves behind -/

/-- A file with `data` written over the first bytes of `old`, but for the chunks
still pending. -/
structure Overwritten (A : Adapter) (old data f : Bytes) (pending : List ℕ) : Prop where
  landed : SparseFile.Landed 0 A.chunkSize f 0 data pending
  le_length : old.length ≤ f.length
  length_le : f.length ≤ max old.length data.length

/-- Where `_store_one` is, and what it has made of the container `fs₀`. -/
inductive StoreInv (A : Adapter) (fs₀ : Dfs) (key : ObjectKey) (data : Bytes) :
    Dfs × StoreOne → Prop where
  | stat : StoreInv A fs₀ key data (fs₀, ⟨key, data, .stat⟩)
  | openRdwr : StoreInv A fs₀ key data (fs₀, ⟨key, data, .openRdwr⟩)
  | write {fs h pending} (hname : fs.names (path A.root key) = some h)
      (hfile : Overwritten A ((fs₀.content (path A.root key)).getD []) data (fs.files h) pending) :
      StoreInv A fs₀ key data (fs, ⟨key, data, .write h pending⟩)
  | skipped (hsize : Dfs.statSize fs₀ (path A.root key) = some data.length) :
      StoreInv A fs₀ key data (fs₀, ⟨key, data, .done 0⟩)
  | wrote {fs h} (hname : fs.names (path A.root key) = some h)
      (hfile : Overwritten A ((fs₀.content (path A.root key)).getD []) data (fs.files h) []) :
      StoreInv A fs₀ key data (fs, ⟨key, data, .done data.length⟩)
  | cleanup {fs h} : StoreInv A fs₀ key data (fs, ⟨key, data, .cleanup h⟩)
  | failed {fs} : StoreInv A fs₀ key data (fs, ⟨key, data, .done (-1)⟩)

theorem overwritten_open (A : Adapter) (fs : Dfs) (key : ObjectKey) (data : Bytes) :
    Overwritten A ((fs.content (path A.root key)).getD []) data
      ((fs.openCreate (path A.root key)).1.files (fs.openCreate (path A.root key)).2)
      (SparseFile.chunksOf A.chunkSize 0 data.length) := by
  have hfile : (fs.openCreate (path A.root key)).1.files (fs.openCreate (path A.root key)).2 =
      (fs.content (path A.root key)).getD [] := by
    rw [FileStore.openCreate_files]
    cases hn : fs.names (path A.root key) with
    | some h => rw [FileStore.openCreate_of_some hn, FileStore.content, hn]; rfl
    | none => rw [FileStore.openCreate_files_of_none hn, FileStore.content, hn]; rfl
  rw [hfile]
  exact ⟨SparseFile.landed_chunksOf A.chunk_pos _ _ _, Nat.le_refl _, Nat.le_max_left _ _⟩

theorem Overwritten.land {A : Adapter} {old data f : Bytes} {pending : List ℕ}
    (h : Overwritten A old data f pending) (k : ℕ) :
    Overwritten A old data (SparseFile.landChunk 0 A.chunkSize f 0 data k) (pending.erase k) where
  landed := SparseFile.landed_erase A.chunk_pos h.landed k
  le_length := Nat.le_trans h.le_length (SparseFile.length_le_length_landChunk ..)
  length_le := by
    have hgrown := SparseFile.length_landChunk_le (z := 0) A.chunkSize f 0 data k
    have hle := h.length_le
    omega

theorem storeStep_inv {A : Adapter} {fs₀ : Dfs} {key : ObjectKey} {data : Bytes}
    {s s' : Dfs × StoreOne} {a : StoreAct} (hinv : StoreInv A fs₀ key data s)
    (hst : storeStep A s.1 s.2 a = some s') : StoreInv A fs₀ key data s' := by
  rcases s' with ⟨fs', c'⟩
  have hmove := storeStep_cases hst
  cases hinv with
  | stat =>
      cases hmove with
      | skip h => exact .skipped h
      | stat h => exact .openRdwr
      | fail h => exact .failed
  | openRdwr =>
      cases hmove with
      | openRdwr => exact .write (FileStore.openCreate_names_self _ _) (overwritten_open A _ _ _)
      | fail h => exact .failed
  | write hname hfile =>
      cases hmove with
      | land hk =>
          -- chunks land in any order
          have hlt := FileStore.names_lt _ _ _ hname
          refine .write (by rwa [Dfs.landChunk, FileStore.setFile_names]) ?_
          rw [Dfs.landChunk, FileStore.setFile_files_self hlt]
          exact hfile.land _
      | wrote => exact .wrote hname hfile
      | short hm => exact .cleanup
      | fail h => exact .failed
  | skipped hsize =>
      cases hmove with
      | fail h => exact absurd rfl (h _)
  | wrote hname hfile =>
      cases hmove with
      | fail h => exact absurd rfl (h _)
  | cleanup =>
      cases hmove with
      | cleanup => exact .failed
      | fail h => exact .failed
  | failed =>
      cases hmove with
      | fail h => exact absurd rfl (h _)

theorem storeInv_of_reachable {A : Adapter} {fs₀ : Dfs} {key : ObjectKey} {data : Bytes}
    {s : Dfs × StoreOne} (h : (storeAlone A fs₀ key data).Reachable s) :
    StoreInv A fs₀ key data s := by
  apply h.invariant
  · intro s hs
    cases hs
    exact .stat
  · intro s a s' hinv _ hst
    exact storeStep_inv hinv hst

/-! ## What the others then see -/

/-- A file that begins with the buffer: only its length decides. -/
theorem takesEffect_iff_length {A : Adapter} {fs : Dfs} {key : ObjectKey} {data : Bytes}
    {h : Handle} (hname : fs.names (path A.root key) = some h) (hfile : data <+: fs.files h) :
    TakesEffect A fs key data ↔ (fs.files h).length = data.length := by
  have hread : Dfs.readObj fs h 0 data.length = data := by
    rw [Dfs.readObj, SparseFile.readAt, List.drop_zero]
    exact (List.prefix_iff_eq_take.mp hfile).symm
  have hsize : Dfs.statSize fs (path A.root key) = some (fs.files h).length := by
    rw [Dfs.statSize, FileStore.size, hname]
    rfl
  constructor
  · -- the lookup alone tells
    intro heff
    have hlookup := heff.lookup
    rw [lookupOne, hname] at hlookup
    by_contra hne
    exact hlookup (if_neg hne)
  · intro hlen
    refine ⟨?_, ?_, ?_⟩
    · rw [lookupOne, hname]
      show (if (fs.files h).length = data.length then _ else _) ≠ _
      rw [if_pos hlen]
      intro hmiss
      cases hmiss
    · rw [loadOne, Dfs.openRdonly, hname]
      show (if (Dfs.readObj fs h 0 data.length).length = data.length then _ else _) = _
      rw [hread, if_pos rfl]
    · simp [storeStep, hsize, hlen]

theorem Overwritten.prefix_and_length {A : Adapter} {old data f : Bytes}
    (h : Overwritten A old data f []) :
    data <+: f ∧ f.length = max old.length data.length := by
  have hnone : SparseFile.Landed 0 A.chunkSize f data.length ([] : Bytes) [] := by
    intro i hlo hhi
    simp only [List.length_nil] at hhi
    omega
  have hpre := SparseFile.append_prefix_of_landed h.landed hnone
  rw [List.append_nil] at hpre
  have hdata := hpre.length_le
  have hold := h.le_length
  have hle := h.length_le
  exact ⟨hpre, by omega⟩

/-- Over whatever the path held, unless that is as long as the buffer and
different from it: a store that reports no error takes effect exactly when what
was there is not longer than the buffer. -/
theorem store_takesEffect_iff {A : Adapter} {fs₀ : Dfs} {key : ObjectKey} {data : Bytes}
    (hleft : ∀ f, fs₀.content (path A.root key) = some f → f.length = data.length → f = data)
    {fs : Dfs} {c : StoreOne} (hrun : (storeAlone A fs₀ key data).Reachable (fs, c)) {r : ℤ}
    (hdone : c.pc = .done r) (hr : 0 ≤ r) :
    TakesEffect A fs key data ↔
      ∀ f, fs₀.content (path A.root key) = some f → f.length ≤ data.length := by
  cases storeInv_of_reachable hrun with
  | skipped hsize =>
      -- as long as the buffer, so the same bytes
      rcases Option.map_eq_some_iff.mp hsize with ⟨h, hname, hlen⟩
      have hcontent : fs₀.content (path A.root key) = some (fs₀.files h) := by
        rw [FileStore.content, hname]
        rfl
      rw [takesEffect_iff_length hname (hleft _ hcontent hlen ▸ List.prefix_refl _)]
      constructor
      · intro _ f hf
        rw [hcontent, Option.some.injEq] at hf
        rw [← hf, hlen]
      · intro _
        exact hlen
  | wrote hname hfile =>
      -- what is longer than the buffer sticks out behind it
      rcases hfile.prefix_and_length with ⟨hpre, hlen⟩
      rw [takesEffect_iff_length hname hpre, hlen]
      cases hcontent : fs₀.content (path A.root key) with
      | none => simp
      | some f => simp
  | stat => cases hdone
  | openRdwr => cases hdone
  | write _ _ => cases hdone
  | cleanup => cases hdone
  | failed =>
      cases hdone
      exact absurd hr (by decide)

/-- A container in which the path of `aKey` holds these bytes. -/
def leftover (f : Bytes) : Dfs :=
  let r := Dfs.openRdwrCreate FileStore.empty (path twoByteChunks.root aKey)
  Dfs.writeObjFrom r.1 r.2 0 f

theorem store_over_shorter_takesEffect :
    ∃ fs, (storeAlone twoByteChunks (leftover [9]) aKey [1, 2, 3]).Reachable
        (fs, ⟨aKey, [1, 2, 3], .done 3⟩) ∧ TakesEffect twoByteChunks fs aKey [1, 2, 3] := by
  have hcontent : (leftover [9]).content (path twoByteChunks.root aKey) = some [9] := by
    decide +kernel
  have hrun : ∃ s, (storeAlone twoByteChunks (leftover [9]) aKey [1, 2, 3]).Reachable s ∧
      s.2 = ⟨aKey, [1, 2, 3], .done 3⟩ :=
    Machine.Reachable.of_run (M := storeAlone twoByteChunks (leftover [9]) aKey [1, 2, 3]) rfl
      [.stat, .openRdwr, .land 1, .land 0, .wrote] _ (by decide +kernel)
  rcases hrun with ⟨⟨fs, c⟩, hreach, rfl⟩
  refine ⟨fs, hreach, (store_takesEffect_iff ?_ hreach rfl (by decide)).mpr ?_⟩
  · intro f hf hlen
    rw [hcontent, Option.some.injEq] at hf
    rw [← hf] at hlen
    exact absurd hlen (by decide)
  · intro f hf
    rw [hcontent, Option.some.injEq] at hf
    rw [← hf]
    decide

/-- Three bytes left over, two stored: `_store_one` returns 2, and the lookup
misses. -/
theorem store_over_longer_misses :
    ∃ s, (storeAlone twoByteChunks (leftover [7, 8, 9]) aKey [1, 2]).Reachable s ∧
      s.2.pc = .done 2 ∧ lookupOne twoByteChunks s.1 aKey (some 2) = .miss :=
  Machine.Reachable.of_run (M := storeAlone twoByteChunks (leftover [7, 8, 9]) aKey [1, 2]) rfl
    [.stat, .openRdwr, .land 0, .wrote] _ (by decide +kernel)

end LmcacheDaos.Mp
