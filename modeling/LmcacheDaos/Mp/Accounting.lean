import LmcacheDaos.Mp.Adapter

/-!
# Byte accounting

`_execute_store` reports the lengths its `_store_one` calls returned, `delete()`
the sizes it saw before removing; the listeners' difference is meant to be the
size of what is stored. Every path gets its object from one store call at a
time and loses it whole exactly when stores and deletes of a path are
`Undisturbed`: a store opens a path that holds nothing and that nobody else is
busy with, a storage error strikes before a byte of the object is visible, and
a delete stats no object that is being written.

Under that condition a ledger is kept by every step (`Balanced`): what is under
the root plus what was and will be reported deleted is what was and will be
reported stored.
-/

namespace LmcacheDaos.Mp.Accounting

open Lib

variable {A : Adapter}

/-- The file that a `_store_one` holds open or is about to clean up. -/
def holding (c : StoreOne) : Option Handle :=
  match c.pc with
  | .write h _ => some h
  | .cleanup h => some h
  | _ => none

/-- The path of a `_store_one` that holds its file. -/
def busyPath (A : Adapter) (c : StoreOne) : Option String :=
  (holding c).map fun _ => path A.root c.key

/-- The paths that a store task is writing. -/
def busyPaths (A : Adapter) : Proc → List String
  | .store calls => calls.filterMap (busyPath A)
  | _ => []

/-- The path that a `delete()` has statted and is about to remove. -/
def curPath (A : Adapter) : Proc → Option String
  | .deleting _ (some (key, _)) _ => some (path A.root key)
  | _ => none

/-- The thread neither writes the path nor is between stat and removal of it. -/
def Avoids (A : Adapter) (p : String) (t : Proc) : Prop :=
  p ∉ busyPaths A t ∧ curPath A t ≠ some p

/-- What makes a step of `_store_one` count right: an opened path holds
nothing and no other thread is busy with it; an error leaves nothing behind. -/
def CleanCall (A : Adapter) (s : St) (c : StoreOne) (a : StoreAct) : Prop :=
  (a = .openRdwr → (∀ h ∈ s.shared.fs.names (path A.root c.key), s.shared.fs.files h = []) ∧
    ∀ t ∈ s.threads, Avoids A (path A.root c.key) t) ∧
  (a = .fail → ∀ h ∈ holding c, s.shared.fs.files h = [])

/-- Thread, call and action of a store step. -/
def storeLbl : Lbl → Option (ℕ × ℕ × StoreAct)
  | .act i (.store j a) => some (i, j, a)
  | _ => none

/-- The key that the step stats for a `delete()`. -/
def statting (s : St) : Lbl → Option ObjectKey
  | .act i .statNext => match s.threads[i]? with
      | some (.deleting (key :: _) none _) => some key
      | _ => none
  | _ => none

/-- Stores and deletes of a path do not disturb each other. -/
def Undisturbed (A : Adapter) (s : St) (a : Lbl) : Prop :=
  (∀ l ∈ storeLbl a, ∀ c ∈ callAt s l.1 l.2.1, CleanCall A s c l.2.2) ∧
  ∀ key ∈ statting s a, ∀ t ∈ s.threads, path A.root key ∉ busyPaths A t

/-- No store task and no `delete()` is in progress. -/
def idle : Proc → Bool
  | .store _ | .delete _ | .deleting _ _ _ => false
  | _ => true

instance (p : String) (t : Proc) : Decidable (Avoids A p t) :=
  inferInstanceAs (Decidable (_ ∧ _))

instance (s : St) (c : StoreOne) (a : StoreAct) : Decidable (CleanCall A s c a) :=
  inferInstanceAs (Decidable ((_ → (∀ h ∈ s.shared.fs.names _, _) ∧ _) ∧ (_ → ∀ h ∈ holding c, _)))

instance (s : St) (a : Lbl) : Decidable (Undisturbed A s a) :=
  inferInstanceAs (Decidable ((∀ l ∈ storeLbl a, ∀ c ∈ callAt s _ _, _) ∧
    ∀ key ∈ statting s a, _))

/-! ## Who is busy with what -/

/-- A call that holds its file holds the object under its path; the chunks it
has written are inside it and it is no longer than the data. -/
structure CallOk (A : Adapter) (fs : Dfs) (c : StoreOne) : Prop where
  named : ∀ h ∈ holding c, fs.names (path A.root c.key) = some h
  written : ∀ h pending, c.pc = .write h pending → (fs.files h).length ≤ c.data.length ∧
    ∀ x < c.data.length, x / A.chunkSize ∉ pending → x < (fs.files h).length

/-- The calls of a task are in order and write different paths. -/
structure CallsOk (A : Adapter) (fs : Dfs) (calls : List StoreOne) : Prop where
  each : ∀ c ∈ calls, CallOk A fs c
  apart : ∀ (j k : ℕ) c d, j ≠ k → calls[j]? = some c → calls[k]? = some d →
    ∀ p ∈ busyPath A c, busyPath A d ≠ some p

/-- The size a `delete()` saw is the size of what it will remove. -/
def ProcOk (A : Adapter) (fs : Dfs) : Proc → Prop
  | .store calls => CallsOk A fs calls
  | .deleting _ (some (key, size)) _ =>
      ∀ h, fs.names (path A.root key) = some h → (fs.files h).length = size
  | _ => True

/-- Two threads write different paths, and neither removes what the other writes. -/
structure Apart (A : Adapter) (t u : Proc) : Prop where
  busy : ∀ p ∈ busyPaths A t, p ∉ busyPaths A u
  left : ∀ p ∈ busyPaths A t, curPath A u ≠ some p
  right : ∀ p ∈ busyPaths A u, curPath A t ≠ some p

/-- Staying apart is mutual. -/
theorem Apart.symm {t u : Proc} (h : Apart A t u) : Apart A u t :=
  ⟨fun p hp hp' => h.busy p hp' hp, h.right, h.left⟩

/-- Whoever stays apart avoids what the other one is busy on. -/
theorem Apart.avoids {t u : Proc} (h : Apart A t u) {p : String} (hp : p ∈ busyPaths A t) :
    Avoids A p u :=
  ⟨h.busy p hp, h.left p hp⟩

/-- The bytes of a call that are stored and not yet reported. -/
def callDue (fs : Dfs) (c : StoreOne) : ℕ :=
  match c.pc with
  | .write h _ => (fs.files h).length
  | .cleanup h => (fs.files h).length
  | .done r => r.toNat
  | _ => 0

/-- The bytes of a task that are stored and not yet reported. -/
def storeDue (fs : Dfs) : Proc → ℕ
  | .store calls => (calls.map (callDue fs)).sum
  | _ => 0

/-- The bytes a `delete()` has removed and not yet reported. -/
def deleteDue : Proc → ℕ
  | .deleting _ _ sizes => sizes.sum
  | _ => 0

/-- The ledger. -/
def Balanced (s : St) : Prop :=
  s.shared.fs.total + s.shared.deletedBytes + (s.threads.map deleteDue).sum =
    s.shared.storedBytes + (s.threads.map (storeDue s.shared.fs)).sum

/-! ## Steps that touch other paths -/

/-- A call is busy on its path while it has the file open. -/
theorem busyPath_eq_some {c : StoreOne} {p : String} :
    busyPath A c = some p ↔ (∃ h, holding c = some h) ∧ p = path A.root c.key := by
  unfold busyPath
  rw [Option.map_eq_some_iff]
  constructor
  · rintro ⟨h, hh, rfl⟩
    exact ⟨⟨h, hh⟩, rfl⟩
  · rintro ⟨⟨h, hh⟩, rfl⟩
    exact ⟨h, hh, rfl⟩

/-- A store is busy on the paths of its calls. -/
theorem mem_busyPaths {calls : List StoreOne} {p : String} :
    p ∈ busyPaths A (.store calls) ↔ ∃ c ∈ calls, busyPath A c = some p :=
  List.mem_filterMap

/-- A call does not notice steps on other paths. -/
theorem CallOk.same {fs fs' : Dfs} {c : StoreOne} (hc : CallOk A fs c)
    (h : ∀ p ∈ busyPath A c, FileStore.SameAt fs fs' p) : CallOk A fs' c := by
  have hsame : ∀ i ∈ holding c,
      fs'.names (path A.root c.key) = some i ∧ fs'.files i = fs.files i := by
    intro i hi
    have hat := h (path A.root c.key) (busyPath_eq_some.mpr ⟨⟨i, hi⟩, rfl⟩)
    exact ⟨hat.1.trans (hc.named i hi), hat.2 i (hc.named i hi)⟩
  refine ⟨fun i hi => (hsame i hi).1, fun i pending hpc => ?_⟩
  rw [(hsame i (by simp [holding, hpc])).2]
  exact hc.written i pending hpc

/-- What a call still owes to the totals does not depend on other paths. -/
theorem callDue_same {fs fs' : Dfs} {c : StoreOne} (hc : CallOk A fs c)
    (h : ∀ p ∈ busyPath A c, FileStore.SameAt fs fs' p) : callDue fs' c = callDue fs c := by
  have hsame : ∀ i ∈ holding c, fs'.files i = fs.files i := fun i hi =>
    (h (path A.root c.key) (busyPath_eq_some.mpr ⟨⟨i, hi⟩, rfl⟩)).2 i (hc.named i hi)
  unfold callDue
  split <;> rename_i hpc
  · rw [hsame _ (by simp [holding, hpc])]
  · rw [hsame _ (by simp [holding, hpc])]
  · rfl
  · rfl

/-- A thread is not affected by changes on paths it is not busy with. -/
theorem ProcOk.same {fs fs' : Dfs} {t : Proc} (ht : ProcOk A fs t)
    (hbusy : ∀ p ∈ busyPaths A t, FileStore.SameAt fs fs' p)
    (hcur : ∀ p ∈ curPath A t, FileStore.SameAt fs fs' p ∨ fs'.names p = none) :
    ProcOk A fs' t := by
  unfold ProcOk at *
  split
  · rename_i calls
    refine ⟨fun c hc => (ht.each c hc).same fun p hp => ?_, ht.apart⟩
    exact hbusy p (mem_busyPaths.mpr ⟨c, hc, hp⟩)
  · rename_i todo key size sizes
    intro h hn
    rcases hcur (path A.root key) rfl with hsame | hnone
    · rw [hsame.1] at hn
      rw [hsame.2 h hn]
      exact ht h hn
    · rw [hnone] at hn
      cases hn
  · trivial

/-- The same of a whole store. -/
theorem storeDue_same {fs fs' : Dfs} {t : Proc} (ht : ProcOk A fs t)
    (hbusy : ∀ p ∈ busyPaths A t, FileStore.SameAt fs fs' p) : storeDue fs' t = storeDue fs t := by
  unfold storeDue
  split
  · refine congrArg List.sum (List.map_congr_left fun c hc => ?_)
    exact callDue_same (ht.each c hc) fun p hp => hbusy p (mem_busyPaths.mpr ⟨c, hc, hp⟩)
  · rfl

/-! ## One step of `_store_one` -/

section StoreMove

variable {fs fs' : Dfs} {c c' : StoreOne} {a : StoreAct}

/-- A call changes nothing but its own path, and that only when it opens it or
holds it already. -/
theorem storeMove_frame (hc : CallOk A fs c) (hst : StoreMove A fs c a fs' c') :
    fs' = fs ∨ (∀ q, q ≠ path A.root c.key → FileStore.SameAt fs fs' q) ∧
      (a = .openRdwr ∨ busyPath A c = some (path A.root c.key)) := by
  cases hst with
  | openRdwr => exact .inr ⟨fun q hq => FileStore.sameAt_openCreate fs hq, .inl rfl⟩
  | land hk => exact .inr ⟨fun q hq => FileStore.sameAt_setFile (hc.named _ rfl) hq _, .inr rfl⟩
  | cleanup =>
      have hn := hc.named _ rfl
      simp only at hn
      refine .inr ⟨fun q hq => ?_, .inr rfl⟩
      simp only [Dfs.remove, hn]
      exact FileStore.sameAt_unlink fs hq
  | skip | stat | wrote | short | fail => exact .inl rfl

/-- A call that is busy after a step has just opened its path or was busy before. -/
theorem storeMove_busy (hst : StoreMove A fs c a fs' c') {p : String}
    (hp : busyPath A c' = some p) :
    p = path A.root c.key ∧ (a = .openRdwr ∨ busyPath A c = some p) := by
  obtain ⟨⟨h, hh⟩, rfl⟩ := busyPath_eq_some.mp hp
  cases hst with
  | openRdwr => exact ⟨rfl, .inl rfl⟩
  | land => exact ⟨rfl, .inr rfl⟩
  | short => exact ⟨rfl, .inr rfl⟩
  | skip | stat | wrote | cleanup | fail => cases hh

/-- An open of an empty or absent file finds nothing in it. -/
theorem opened_empty {p : String} (h : ∀ i ∈ fs.names p, fs.files i = []) :
    fs.files (fs.openCreate p).2 = [] := by
  cases hn : fs.names p with
  | some i =>
      rw [FileStore.openCreate_of_some hn]
      exact h i hn
  | none => exact FileStore.openCreate_files_of_none hn

/-- A call's own step. -/
theorem storeMove_callOk (hc : CallOk A fs c) (hst : StoreMove A fs c a fs' c')
    (hopen : a = .openRdwr → ∀ h ∈ fs.names (path A.root c.key), fs.files h = []) :
    CallOk A fs' c' := by
  cases hst with
  | openRdwr =>
      rename_i key data
      refine ⟨fun h hh => ?_, fun h pending hpc => ?_⟩
      · cases hh
        exact FileStore.openCreate_names_self ..
      · -- every chunk is still to come
        cases hpc
        rw [FileStore.openCreate_files, opened_empty (hopen rfl)]
        refine ⟨Nat.zero_le _, fun x hx hnot => absurd ?_ hnot⟩
        exact (SparseFile.mem_chunksOf A.chunk_pos).mpr ⟨x, ⟨Nat.zero_le x, by simpa using hx⟩, rfl⟩
  | land hk =>
      rename_i key data h pending k
      have hn := hc.named h rfl
      obtain ⟨hle, hin⟩ := hc.written h pending rfl
      refine ⟨fun i hi => ?_, fun i rest hpc => ?_⟩
      · cases hi
        simpa [Dfs.landChunk] using hn
      · cases hpc
        rw [Dfs.landChunk, FileStore.setFile_files_self (fs.names_lt _ _ hn)]
        have hgrown := SparseFile.length_landChunk_le (z := 0) A.chunkSize
          (fs.files h) 0 data k
        simp only at hle hin
        refine ⟨by simp only; omega, fun x hx hnot => ?_⟩
        by_cases hxk : x / A.chunkSize = k
        · exact SparseFile.lt_length_landChunk A.chunk_pos ⟨Nat.zero_le x, by simpa using hx⟩ hxk
        · have hx' := hin x hx fun hmem => hnot ((List.mem_erase_of_ne hxk).mpr hmem)
          exact Nat.lt_of_lt_of_le hx' (SparseFile.length_le_length_landChunk ..)
  | short =>
      refine ⟨fun i hi => ?_, by simp⟩
      cases hi
      exact hc.named _ rfl
  | skip | stat | wrote | cleanup | fail => exact ⟨by simp [holding], by simp⟩

/-- The total follows what the call will report. -/
theorem storeMove_balance (hc : CallOk A fs c) (hst : StoreMove A fs c a fs' c')
    (hopen : a = .openRdwr → ∀ h ∈ fs.names (path A.root c.key), fs.files h = [])
    (hfail : a = .fail → ∀ h ∈ holding c, fs.files h = []) :
    fs'.total + callDue fs c = fs.total + callDue fs' c' := by
  cases hst with
  | skip => simp [callDue]
  | stat => simp [callDue]
  | openRdwr =>
      rename_i key data
      simp only [callDue, FileStore.total_openCreate, FileStore.openCreate_files,
        opened_empty (hopen rfl), List.length_nil]
  | land hk =>
      rename_i key data h pending k
      have hn := hc.named h rfl
      have htotal := FileStore.total_setFile hn
        (SparseFile.landChunk 0 A.chunkSize (fs.files h) 0 data k)
      simp only [callDue, Dfs.landChunk, FileStore.setFile_files_self (fs.names_lt _ _ hn)]
      exact htotal
  | wrote =>
      -- with no chunk missing the file is as long as the data
      rename_i key data h
      obtain ⟨hle, hin⟩ := hc.written h [] rfl
      have hge : data.length ≤ (fs.files h).length := by
        by_contra hlt
        have := hin (fs.files h).length (Nat.lt_of_not_le hlt) (by simp)
        omega
      simp only at hle
      simp only [callDue, Int.toNat_natCast]
      omega
  | short => simp [callDue]
  | cleanup =>
      rename_i key data h
      have hn := hc.named h rfl
      simp only at hn
      have htotal := FileStore.total_unlink hn
      simp only [callDue, Dfs.remove, hn]
      simpa using htotal
  | fail hpc =>
      rename_i key data pc
      have hempty := hfail rfl
      cases pc with
      | stat => simp [callDue]
      | openRdwr => simp [callDue]
      | write h pending => simp [callDue, hempty h rfl]
      | cleanup h => simp [callDue, hempty h rfl]
      | done r => exact absurd rfl (hpc r)

end StoreMove

/-! ## Steps of the threads -/

section StoreStep

variable {s : St} {i j : ℕ} {calls : List StoreOne} {c c' : StoreOne} {a : StoreAct} {fs' : Dfs}

/-- The discipline, for one call. -/
theorem cleanCall_of_undisturbed (hok : Undisturbed A s (.act i (.store j a)))
    (hthr : s.threads[i]? = some (.store calls)) (hj : calls[j]? = some c) :
    CleanCall A s c a :=
  hok.1 (i, j, a) rfl c (by simp [callAt, hthr, hj])

/-- No other call of the task is busy with the path that this one takes. -/
theorem sibling_ne (hcalls : CallsOk A s.shared.fs calls) (hclean : CleanCall A s c a)
    (hthr : s.threads[i]? = some (.store calls)) (hj : calls[j]? = some c)
    (hown : a = .openRdwr ∨ busyPath A c = some (path A.root c.key)) {k : ℕ} {d : StoreOne}
    (hkj : k ≠ j) (hk : calls[k]? = some d) : busyPath A d ≠ some (path A.root c.key) := by
  rcases hown with hopen | hbusy
  · intro hd
    exact ((hclean.1 hopen).2 _ (List.mem_of_getElem? hthr)).1
      (mem_busyPaths.mpr ⟨d, List.mem_of_getElem? hk, hd⟩)
  · exact hcalls.apart j k c d (Ne.symm hkj) hj hk _ hbusy

/-- No other thread is busy with the path that this call takes. -/
theorem other_avoids {q : Proc} (hclean : CleanCall A s c a) (hj : calls[j]? = some c)
    (hown : a = .openRdwr ∨ busyPath A c = some (path A.root c.key)) (hq : q ∈ s.threads)
    (hpq : Apart A (.store calls) q) : Avoids A (path A.root c.key) q := by
  rcases hown with hopen | hbusy
  · exact (hclean.1 hopen).2 q hq
  · exact hpq.avoids (mem_busyPaths.mpr ⟨c, List.mem_of_getElem? hj, hbusy⟩)

/-- Other calls of the same store do not notice the step. -/
theorem sibling_same (hcalls : CallsOk A s.shared.fs calls) (hclean : CleanCall A s c a)
    (hthr : s.threads[i]? = some (.store calls)) (hj : calls[j]? = some c)
    (hst : StoreMove A s.shared.fs c a fs' c') {k : ℕ} {d : StoreOne} (hkj : k ≠ j)
    (hk : calls[k]? = some d) : ∀ p ∈ busyPath A d, FileStore.SameAt s.shared.fs fs' p := by
  intro p hp
  rcases storeMove_frame (hcalls.each c (List.mem_of_getElem? hj)) hst with rfl | ⟨hframe, hown⟩
  · exact .refl _ p
  · refine hframe p ?_
    rintro rfl
    exact sibling_ne hcalls hclean hthr hj hown hkj hk hp

/-- So the calls of a store stay in order. -/
theorem callsOk_step (hcalls : CallsOk A s.shared.fs calls) (hclean : CleanCall A s c a)
    (hthr : s.threads[i]? = some (.store calls)) (hj : calls[j]? = some c)
    (hst : StoreMove A s.shared.fs c a fs' c') : CallsOk A fs' (calls.set j c') := by
  have hc := hcalls.each c (List.mem_of_getElem? hj)
  refine ⟨fun d hd => ?_, fun k l d e hkl hk hl p hp => ?_⟩
  · obtain ⟨k, hk⟩ := List.mem_iff_getElem?.mp hd
    rcases Threads.getElem?_set_cases hk with ⟨-, rfl⟩ | ⟨hkj, hk⟩
    · exact storeMove_callOk hc hst fun h => (hclean.1 h).1
    · exact (hcalls.each d (List.mem_of_getElem? hk)).same
        (sibling_same hcalls hclean hthr hj hst hkj hk)
  · rcases Threads.getElem?_set_cases hk with ⟨hkj, rfl⟩ | ⟨hkj, hk'⟩
    · -- what the stepping call is busy with is on no other call
      obtain ⟨rfl, hown⟩ := storeMove_busy hst hp
      rcases Threads.getElem?_set_cases hl with ⟨hlj, -⟩ | ⟨hlj, hl'⟩
      · exact absurd (hkj.trans hlj.symm) hkl
      · exact sibling_ne hcalls hclean hthr hj hown hlj hl'
    · rcases Threads.getElem?_set_cases hl with ⟨-, rfl⟩ | ⟨-, hl'⟩
      · intro he
        obtain ⟨rfl, hown⟩ := storeMove_busy hst he
        exact sibling_ne hcalls hclean hthr hj hown hkj hk' hp
      · exact hcalls.apart k l d e hkl hk' hl' p hp

/-- Another thread sees no change on the paths it is busy with. -/
theorem other_same {q : Proc} (hcalls : CallsOk A s.shared.fs calls) (hclean : CleanCall A s c a)
    (hj : calls[j]? = some c) (hst : StoreMove A s.shared.fs c a fs' c') (hq : q ∈ s.threads)
    (hpq : Apart A (.store calls) q) {p : String}
    (hp : p ∈ busyPaths A q ∨ curPath A q = some p) : FileStore.SameAt s.shared.fs fs' p := by
  rcases storeMove_frame (hcalls.each c (List.mem_of_getElem? hj)) hst with rfl | ⟨hframe, hown⟩
  · exact .refl _ p
  · have havoid := other_avoids hclean hj hown hq hpq
    refine hframe p ?_
    rintro rfl
    exact hp.elim havoid.1 havoid.2

/-- And the store stays apart from the other threads. -/
theorem apart_step {q : Proc} (hclean : CleanCall A s c a) (hj : calls[j]? = some c)
    (hst : StoreMove A s.shared.fs c a fs' c') (hq : q ∈ s.threads)
    (hpq : Apart A (.store calls) q) : Apart A (.store (calls.set j c')) q := by
  have havoid : ∀ p ∈ busyPaths A (.store (calls.set j c')), Avoids A p q := by
    intro p hp
    obtain ⟨d, hd, hdp⟩ := mem_busyPaths.mp hp
    rcases List.mem_or_eq_of_mem_set hd with hd | rfl
    · exact hpq.avoids (mem_busyPaths.mpr ⟨d, hd, hdp⟩)
    · obtain ⟨rfl, hown⟩ := storeMove_busy hst hdp
      exact other_avoids hclean hj hown hq hpq
  exact ⟨fun p hp => (havoid p hp).1, fun p hp => (havoid p hp).2, by simp [curPath]⟩

end StoreStep

/-- A thread that writes nothing and is not about to remove anything is apart
from every other. -/
theorem apart_of_quiet {t u : Proc} (hbusy : busyPaths A t = []) (hcur : curPath A t = none) :
    Apart A t u :=
  ⟨by simp [hbusy], by simp [hbusy], by simp [hcur]⟩

/-- What a thread's own step does to it. -/
theorem own_step {s : St} {i : ℕ} {a : Act} {p p' : Proc} {sh : Shared}
    (hp : ProcOk A s.shared.fs p) (hok : Undisturbed A s (.act i a))
    (hthr : s.threads[i]? = some p) (hst : step A s.shared p a = some (sh, p')) :
    ProcOk A sh.fs p' := by
  cases step_cases hst with
  | store hj hc => exact callsOk_step hp (cleanCall_of_undisturbed hok hthr hj) hthr hj hc
  | statFound hn =>
      intro i hi
      rw [hn, Option.some.injEq] at hi
      rw [hi]
  | _ => trivial

/-- What it does to the others. -/
theorem other_step {s : St} {i : ℕ} {a : Act} {p p' q : Proc} {sh : Shared}
    (hp : ProcOk A s.shared.fs p) (hok : Undisturbed A s (.act i a))
    (hthr : s.threads[i]? = some p) (hst : step A s.shared p a = some (sh, p'))
    (hmem : q ∈ s.threads) (hq : ProcOk A s.shared.fs q) (hpq : Apart A p q) :
    (∀ r ∈ busyPaths A q, FileStore.SameAt s.shared.fs sh.fs r) ∧ ProcOk A sh.fs q ∧
      Apart A p' q := by
  cases step_cases hst with
  | store hj hc =>
      have hclean := cleanCall_of_undisturbed hok hthr hj
      have hsame := fun r hr => other_same hp hclean hj hc hmem hpq (p := r) hr
      exact ⟨fun r hr => hsame r (.inl hr), hq.same (fun r hr => hsame r (.inl hr))
        fun r hr => .inl (hsame r (.inr hr)), apart_step hclean hj hc hmem hpq⟩
  | removeNext hn =>
      rename_i todo key size sizes h
      have hsame : ∀ r ∈ busyPaths A q, FileStore.SameAt s.shared.fs
          (s.shared.fs.unlink (path A.root key)) r := by
        intro r hr
        refine FileStore.sameAt_unlink _ ?_
        rintro rfl
        exact hpq.right _ hr rfl
      refine ⟨hsame, hq.same hsame fun r hr => ?_, apart_of_quiet rfl rfl⟩
      -- a delete that saw the same path finds nothing any more
      by_cases hrk : r = path A.root key
      · subst hrk
        exact .inr (FileStore.unlink_names_self ..)
      · exact .inl (FileStore.sameAt_unlink _ hrk)
  | statFound hn =>
      rename_i key rest sizes h
      refine ⟨fun r _ => .refl _ r, hq, ⟨by simp [busyPaths], by simp [busyPaths], ?_⟩⟩
      rintro r hr hcur
      cases hcur
      exact hok.2 key (by simp [statting, hthr]) q hmem hr
  | _ => exact ⟨fun r _ => .refl _ r, hq, apart_of_quiet rfl rfl⟩

/-- The storage giving up a nameless object changes no path. -/
theorem reclaim_same {fs fs' : Dfs} {h : Handle} {m : ℕ} (hst : Dfs.reclaim fs h m = some fs')
    (p : String) : FileStore.SameAt fs fs' p := by
  obtain ⟨hun, rfl⟩ := Dfs.reclaim_eq_some.mp hst
  exact FileStore.sameAt_setFile_unlinked hun p _

/-- Unlocks and reclaimed files change no path. -/
theorem env_step {s s' : Shared} {e : Env} (hst : envStep s e = some s') (p : String) :
    FileStore.SameAt s.fs s'.fs p := by
  cases e with
  | unlock keys =>
      cases hst
      exact .refl _ p
  | reclaim h m =>
      obtain ⟨fs', hfs, rfl⟩ := Option.map_eq_some_iff.mp hst
      exact reclaim_same hfs p

/-- In an undisturbed run every thread knows the files it is busy with, and no
two threads are busy with the same path. -/
theorem procs_ok {s : St} (h : (machine A).ReachableVia (Undisturbed A) s) :
    (∀ t ∈ s.threads, ProcOk A s.shared.fs t) ∧
      ∀ (i j : ℕ) t u, i ≠ j → s.threads[i]? = some t → s.threads[j]? = some u → Apart A t u := by
  refine (Threads.safety (T := threads A) (I := fun _ => True) (J := fun sh t => ProcOk A sh.fs t)
    (E := Apart A) (fun _ _ h => h.symm) (fun _ _ => trivial) (fun s c _ _ _ => ?_)
    (fun s i a p sh p' _ hp hok hthr hst => ⟨trivial, own_step hp hok hthr hst⟩)
    (fun s i a p sh p' q _ hp hok hthr hst hmem hq hpq =>
      (other_step hp hok hthr hst hmem hq hpq).2)
    (fun s e sh _ _ hst => ⟨trivial, fun q hq => hq.same (fun r _ => env_step hst r)
      fun r _ => .inl (env_step hst r)⟩) h).2
  cases c with
  | store items =>
      -- fresh calls hold nothing
      have hnone : ∀ c ∈ items.map fun it => (⟨it.1, it.2, .stat⟩ : StoreOne),
          holding c = none := by
        intro c hc
        obtain ⟨it, -, rfl⟩ := List.mem_map.mp hc
        rfl
      have hbusy : ∀ c ∈ items.map fun it => (⟨it.1, it.2, .stat⟩ : StoreOne),
          busyPath A c = none := fun c hc => by rw [busyPath, hnone c hc, Option.map_none]
      refine ⟨⟨fun c hc => ⟨by simp [hnone c hc], fun h pending hpc => ?_⟩, ?_⟩, fun q _ =>
        apart_of_quiet (List.filterMap_eq_nil_iff.mpr hbusy) rfl⟩
      · have := hnone c hc
        simp [holding, hpc] at this
      · intro j k c d _ hj _ p hp
        rw [hbusy c (List.mem_of_getElem? hj)] at hp
        cases hp
  | lookup | load | delete => exact ⟨trivial, fun q _ => apart_of_quiet rfl rfl⟩

/-! ## The ledger -/

/-- One step of a thread keeps its own entries of the ledger. -/
theorem step_balance {s : St} {i : ℕ} {a : Act} {p p' : Proc} {sh : Shared}
    (hp : ProcOk A s.shared.fs p) (hok : Undisturbed A s (.act i a))
    (hthr : s.threads[i]? = some p) (hst : step A s.shared p a = some (sh, p')) :
    sh.fs.total + sh.deletedBytes + deleteDue p' + (s.shared.storedBytes + storeDue s.shared.fs p) =
      s.shared.fs.total + s.shared.deletedBytes + deleteDue p +
        (sh.storedBytes + storeDue sh.fs p') := by
  cases step_cases hst with
  | store hj hc =>
      rename_i calls j a c fs' c'
      have hclean := cleanCall_of_undisturbed hok hthr hj
      have hcall := storeMove_balance (hp.each c (List.mem_of_getElem? hj)) hc
        (fun h => (hclean.1 h).1) hclean.2
      have hsum : ((calls.set j c').map (callDue fs')).sum + callDue s.shared.fs c =
          (calls.map (callDue s.shared.fs)).sum + callDue fs' c' :=
        sum_map_set hj fun k d hkj hk => callDue_same (hp.each d (List.mem_of_getElem? hk))
          (sibling_same hp hclean hthr hj hc hkj hk)
      simp only [storeDue, deleteDue]
      omega
  | notifyStored hdone =>
      rename_i calls
      -- a finished call is due exactly what is reported for it
      have hdue : calls.map (callDue s.shared.fs) = calls.map storedSize :=
        List.map_congr_left fun c hc => by
          have hd := hdone c hc
          unfold isDone at hd
          unfold callDue storedSize
          split at hd
          · rename_i hpc
            rw [hpc]
          · cases hd
      simp only [storeDue, deleteDue, hdue]
      omega
  | removeNext hn =>
      rename_i todo key size sizes h
      have htotal := FileStore.total_unlink hn
      have hsize := hp h hn
      simp only [storeDue, deleteDue, List.sum_append, List.sum_cons, List.sum_nil]
      omega
  | notifyDeleted =>
      simp only [storeDue, deleteDue]
      omega
  | _ => simp only [storeDue, deleteDue, List.sum_nil]

/-- Stored is deleted, present, and due: in every reachable state. -/
theorem balanced_of_reachable {s : St} (h : (machine A).ReachableVia (Undisturbed A) s) :
    Balanced s := by
  induction h with
  | init hs =>
      obtain ⟨hsh, hnil⟩ := hs
      change _ = initialShared at hsh
      simp [Balanced, hsh, hnil, initialShared, FileStore.total, FileStore.empty]
  | @step s a s' hs hok hst ih =>
      obtain ⟨hprocs, hapart⟩ := procs_ok hs
      unfold Balanced at *
      cases a with
      | spawn c =>
          cases hst
          have hnew : storeDue s.shared.fs (entry c) = 0 ∧ deleteDue (entry c) = 0 := by
            cases c <;> simp [entry, storeDue, deleteDue, callDue, Function.comp_def]
          simp only [List.map_append, List.sum_append, List.map_cons, List.map_nil, List.sum_cons,
            List.sum_nil, threads, hnew]
          omega
      | act i a =>
          obtain ⟨p, sh, p', hp, hstep, rfl⟩ := Threads.step_act_iff.mp hst
          have hown := step_balance (hprocs p (List.mem_of_getElem? hp)) hok hp hstep
          have hdel : ((s.threads.set i p').map deleteDue).sum + deleteDue p =
              (s.threads.map deleteDue).sum + deleteDue p' := sum_map_set hp fun _ _ _ _ => rfl
          have hsto : ((s.threads.set i p').map (storeDue sh.fs)).sum + storeDue s.shared.fs p =
              (s.threads.map (storeDue s.shared.fs)).sum + storeDue sh.fs p' :=
            sum_map_set hp fun j q hji hq => by
              have hmem := List.mem_of_getElem? hq
              exact storeDue_same (hprocs q hmem) (other_step (hprocs p (List.mem_of_getElem? hp))
                hok hp hstep hmem (hprocs q hmem) (hapart i j p q (Ne.symm hji) hp hq)).1
          simp only
          omega
      | env e =>
          obtain ⟨sh, hstep, rfl⟩ := Threads.step_env_iff.mp hst
          have hsto : s.threads.map (storeDue sh.fs) = s.threads.map (storeDue s.shared.fs) :=
            List.map_congr_left fun q hq => storeDue_same (hprocs q hq) fun r _ => env_step hstep r
          cases e with
          | unlock keys =>
              cases hstep
              exact ih
          | reclaim h m =>
              obtain ⟨fs', hfs, rfl⟩ := Option.map_eq_some_iff.mp hstep
              obtain ⟨hun, hfs'⟩ := Dfs.reclaim_eq_some.mp hfs
              simp only at hsto
              simp only [hsto]
              rw [hfs', FileStore.total_setFile_unlinked hun]
              exact ih

/-- In every undisturbed run, whenever no store task and no delete is in
progress, the bytes reported stored are the bytes reported deleted plus the
sizes of the objects under the root. -/
theorem stored_eq_deleted_add_total (A : Adapter) {s : St}
    (h : (machine A).ReachableVia (Undisturbed A) s) (hidle : ∀ t ∈ s.threads, idle t = true) :
    s.shared.storedBytes = s.shared.deletedBytes + s.shared.fs.total := by
  have hbal := balanced_of_reachable h
  have hzero : ∀ t ∈ s.threads, deleteDue t = 0 ∧ storeDue s.shared.fs t = 0 := by
    intro t ht
    have := hidle t ht
    cases t <;> simp_all [idle, deleteDue, storeDue]
  have hdel : (s.threads.map deleteDue).sum = 0 :=
    List.sum_eq_zero (by simpa using fun t ht => (hzero t ht).1)
  have hsto : (s.threads.map (storeDue s.shared.fs)).sum = 0 :=
    List.sum_eq_zero (by simpa using fun t ht => (hzero t ht).2)
  unfold Balanced at hbal
  omega

def bKey : ObjectKey := ⟨[2], "m", 0, 0, ""⟩

/-- A task stores three bytes and one byte; the larger object is deleted. -/
def storeTwoDeleteOne : List Lbl :=
  [.spawn (.store [(aKey, [1, 2, 3]), (bKey, [4])]), .act 0 (.store 0 .stat),
   .act 0 (.store 1 .stat), .act 0 (.store 0 .openRdwr), .act 0 (.store 1 .openRdwr),
   .act 0 (.store 0 (.land 1)), .act 0 (.store 1 (.land 0)), .act 0 (.store 0 (.land 0)),
   .act 0 (.store 0 .wrote), .act 0 (.store 1 .wrote), .act 0 .notifyStored,
   .spawn (.delete [aKey]), .act 1 .choose, .act 1 .statNext, .act 1 .removeNext,
   .act 1 .notifyDeleted]

/-- Two stores of two bytes, a rewrite by one byte less, and a delete. -/
theorem four_stored_three_deleted :
    ∃ s, (machine twoByteChunks).ReachableVia (Undisturbed twoByteChunks) s ∧
      (∀ t ∈ s.threads, idle t = true) ∧ s.shared.storedBytes = 4 ∧ s.shared.deletedBytes = 3 ∧
      s.shared.storedBytes = s.shared.deletedBytes + s.shared.fs.total := by
  have hok : (machine twoByteChunks).alongB (Undisturbed twoByteChunks) initial
      storeTwoDeleteOne = true := by decide +kernel
  obtain ⟨s, hs, hidle, hstored, hdeleted⟩ := Machine.ReachableVia.of_run (init_initial _) _ hok
    (fun s => (∀ t ∈ s.threads, idle t = true) ∧ s.shared.storedBytes = 4 ∧
      s.shared.deletedBytes = 3) (by decide +kernel)
  exact ⟨s, hs, hidle, hstored, hdeleted, stored_eq_deleted_add_total twoByteChunks hs hidle⟩

/-- Two tasks store the same byte under the same key at once: neither finds the
object, both write it and both report it. -/
def twoStoresOfOneKey : List Lbl :=
  [.spawn (.store [(aKey, [1])]), .spawn (.store [(aKey, [1])]), .act 0 (.store 0 .stat),
   .act 1 (.store 0 .stat), .act 0 (.store 0 .openRdwr), .act 1 (.store 0 .openRdwr),
   .act 0 (.store 0 (.land 0)), .act 1 (.store 0 (.land 0)), .act 0 (.store 0 .wrote),
   .act 1 (.store 0 .wrote), .act 0 .notifyStored, .act 1 .notifyStored]

/-- Two bytes are reported stored, none deleted, and one is there. -/
theorem stored_twice :
    ∃ s, (machine twoByteChunks).Reachable s ∧ (∀ t ∈ s.threads, idle t = true) ∧
      s.shared.storedBytes = 2 ∧ s.shared.deletedBytes = 0 ∧ s.shared.fs.total = 1 :=
  Machine.Reachable.of_run (init_initial _) twoStoresOfOneKey _ (by decide +kernel)

end LmcacheDaos.Mp.Accounting
