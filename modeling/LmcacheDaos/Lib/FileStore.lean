import Mathlib.Algebra.BigOperators.Group.Finset.Basic
import Mathlib.Algebra.Order.BigOperators.Group.Finset
import Mathlib.Data.Finset.Basic
import Mathlib.Logic.Function.Basic
import Mathlib.Tactic.Common
import LmcacheDaos.Lib.SparseFile

/-!
# A flat namespace of files

Names refer to file objects (`Inode`). A handle is an inode: unlinking or
replacing a name does not touch the object, so a handle outlives its name.
`FileStore` carries its well-formedness: the directory lists exactly the names
in use, a name refers to an object that was created, no object has two names,
and an object that was never created holds nothing.
-/

namespace Lib

universe u v

/-- A file object: the name it was created under and a generation number. -/
structure Inode (ν : Type u) where
  birth : ν
  gen : ℕ
deriving DecidableEq, Repr

structure FileStore (ν : Type u) (α : Type v) where
  names : ν → Option (Inode ν)
  dir : Finset ν
  files : Inode ν → List α
  next : ℕ
  mem_dir : ∀ p, p ∈ dir ↔ (names p).isSome
  names_lt : ∀ p i, names p = some i → i.gen < next
  names_inj : ∀ p q i, names p = some i → names q = some i → p = q
  files_new : ∀ i, next ≤ i.gen → files i = []

namespace FileStore

variable {ν : Type u} {α : Type v} [DecidableEq ν]

def empty : FileStore ν α where
  names _ := none
  dir := ∅
  files _ := []
  next := 0
  mem_dir := by simp
  names_lt := by simp
  names_inj := by simp
  files_new := by simp

/-- The object under a name, created empty when there is none. -/
def openCreate (fs : FileStore ν α) (p : ν) : FileStore ν α × Inode ν :=
  match h : fs.names p with
  | some i => (fs, i)
  | none => ({
      names := Function.update fs.names p (some ⟨p, fs.next⟩)
      dir := insert p fs.dir
      files := fs.files
      next := fs.next + 1
      mem_dir := by
        intro q
        by_cases hq : q = p
        · simp [hq]
        · simp [hq, fs.mem_dir]
      names_lt := by
        intro q i hi
        by_cases hq : q = p
        · subst hq
          rw [Function.update_self, Option.some.injEq] at hi
          simp [← hi]
        · rw [Function.update_of_ne hq] at hi
          exact Nat.lt_succ_of_lt (fs.names_lt q i hi)
      names_inj := by
        -- the fresh generation number tells the new object from every old one
        intro q r i hq hr
        by_cases hqp : q = p <;> by_cases hrp : r = p
        · rw [hqp, hrp]
        · subst hqp
          rw [Function.update_self, Option.some.injEq] at hq
          rw [Function.update_of_ne hrp] at hr
          have := fs.names_lt r i hr
          simp [← hq] at this
        · subst hrp
          rw [Function.update_self, Option.some.injEq] at hr
          rw [Function.update_of_ne hqp] at hq
          have := fs.names_lt q i hq
          simp [← hr] at this
        · rw [Function.update_of_ne hqp] at hq
          rw [Function.update_of_ne hrp] at hr
          exact fs.names_inj q r i hq hr
      files_new := fun i hi => fs.files_new i (Nat.le_of_succ_le hi) }, ⟨p, fs.next⟩)

/-- Replace the contents of an object that was created. -/
def setFile (fs : FileStore ν α) (i : Inode ν) (f : List α) : FileStore ν α :=
  if h : i.gen < fs.next then { fs with
    files := Function.update fs.files i f
    files_new := by
      intro j hj
      have hne : j ≠ i := by
        rintro rfl
        omega
      rw [Function.update_of_ne hne]
      exact fs.files_new j hj }
  else fs

/-- Drop a name; the object stays for those who hold it. -/
def unlink (fs : FileStore ν α) (p : ν) : FileStore ν α where
  names := Function.update fs.names p none
  dir := fs.dir.erase p
  files := fs.files
  next := fs.next
  mem_dir := by
    intro q
    by_cases hq : q = p
    · simp [hq]
    · simp [hq, fs.mem_dir]
  names_lt := by
    intro q i hi
    by_cases hq : q = p
    · simp [hq] at hi
    · rw [Function.update_of_ne hq] at hi
      exact fs.names_lt q i hi
  names_inj := by
    intro q r i hq hr
    by_cases hqp : q = p
    · simp [hqp] at hq
    · by_cases hrp : r = p
      · simp [hrp] at hr
      · rw [Function.update_of_ne hqp] at hq
        rw [Function.update_of_ne hrp] at hr
        exact fs.names_inj q r i hq hr
  files_new := fs.files_new

/-- Move an object from one name to another, replacing what was there. -/
def rename (fs : FileStore ν α) (p q : ν) : FileStore ν α :=
  match h : fs.names p with
  | none => fs
  | some i => {
      names := Function.update (Function.update fs.names p none) q (some i)
      dir := insert q (fs.dir.erase p)
      files := fs.files
      next := fs.next
      mem_dir := by
        intro r
        by_cases hr : r = q
        · simp [hr]
        · by_cases hrp : r = p
          · simp [hrp, show p ≠ q from hrp ▸ hr]
          · simp [hr, hrp, fs.mem_dir]
      names_lt := by
        intro r j hj
        by_cases hr : r = q
        · subst hr
          rw [Function.update_self, Option.some.injEq] at hj
          exact hj ▸ fs.names_lt p i h
        · rw [Function.update_of_ne hr] at hj
          by_cases hrp : r = p
          · simp [hrp] at hj
          · rw [Function.update_of_ne hrp] at hj
            exact fs.names_lt r j hj
      names_inj := by
        -- the moved object had no name but `p`
        have key : ∀ r j, r ≠ q → Function.update (Function.update fs.names p none) q (some i) r =
            some j → fs.names r = some j ∧ j ≠ i := by
          intro r j hr hj
          rw [Function.update_of_ne hr] at hj
          by_cases hrp : r = p
          · simp [hrp] at hj
          · rw [Function.update_of_ne hrp] at hj
            refine ⟨hj, ?_⟩
            rintro rfl
            exact hrp (fs.names_inj r p j hj h)
        intro r t j hr ht
        by_cases hrq : r = q <;> by_cases htq : t = q
        · rw [hrq, htq]
        · subst hrq
          rw [Function.update_self, Option.some.injEq] at hr
          exact absurd hr.symm (key t j htq ht).2
        · subst htq
          rw [Function.update_self, Option.some.injEq] at ht
          exact absurd ht.symm (key r j hrq hr).2
        · exact fs.names_inj r t j (key r j hrq hr).1 (key t j htq ht).1
      files_new := fs.files_new }

/-- Length of the object under a name. -/
def size (fs : FileStore ν α) (p : ν) : Option ℕ := (fs.names p).map fun i => (fs.files i).length

/-- Contents of the object under a name. -/
def content (fs : FileStore ν α) (p : ν) : Option (List α) := (fs.names p).map fs.files

/-- Sum of the lengths of all named objects. -/
def total (fs : FileStore ν α) : ℕ := ∑ p ∈ fs.dir, (fs.size p).getD 0

/-! ## What each operation does -/

/-- Opening a name that exists finds its file. -/
theorem openCreate_of_some {fs : FileStore ν α} {p : ν} {i : Inode ν} (h : fs.names p = some i) :
    fs.openCreate p = (fs, i) := by
  unfold openCreate
  split
  · rename_i j hj
    rw [h, Option.some.injEq] at hj
    rw [hj]
  · rename_i hn
    rw [h] at hn
    cases hn

/-- Opening a free name gives it a new, empty file. -/
theorem openCreate_of_none {fs : FileStore ν α} {p : ν} (h : fs.names p = none) :
    (fs.openCreate p).2 = ⟨p, fs.next⟩ ∧
    (fs.openCreate p).1.names = Function.update fs.names p (some ⟨p, fs.next⟩) ∧
    (fs.openCreate p).1.dir = insert p fs.dir ∧
    (fs.openCreate p).1.files = fs.files ∧
    (fs.openCreate p).1.next = fs.next + 1 := by
  unfold openCreate
  split
  · rename_i j hj
    rw [h] at hj
    cases hj
  · exact ⟨rfl, rfl, rfl, rfl, rfl⟩

@[simp] theorem openCreate_files (fs : FileStore ν α) (p : ν) :
    (fs.openCreate p).1.files = fs.files := by
  cases h : fs.names p with
  | some i => rw [openCreate_of_some h]
  | none => exact (openCreate_of_none h).2.2.2.1

@[simp] theorem openCreate_names_self (fs : FileStore ν α) (p : ν) :
    (fs.openCreate p).1.names p = some (fs.openCreate p).2 := by
  cases h : fs.names p with
  | some i => rw [openCreate_of_some h, h]
  | none =>
      obtain ⟨hi, hn, -⟩ := openCreate_of_none h
      rw [hn, hi, Function.update_self]

/-- Other names keep their files. -/
theorem openCreate_names_ne (fs : FileStore ν α) {p q : ν} (hq : q ≠ p) :
    (fs.openCreate p).1.names q = fs.names q := by
  cases h : fs.names p with
  | some i => rw [openCreate_of_some h]
  | none => rw [(openCreate_of_none h).2.1, Function.update_of_ne hq]

/-- File numbers only grow. -/
theorem le_openCreate_next (fs : FileStore ν α) (p : ν) : fs.next ≤ (fs.openCreate p).1.next := by
  cases h : fs.names p with
  | some i => rw [openCreate_of_some h]
  | none =>
      rw [(openCreate_of_none h).2.2.2.2]
      exact Nat.le_succ _

/-- What was opened has been created. -/
theorem openCreate_lt (fs : FileStore ν α) (p : ν) :
    (fs.openCreate p).2.gen < (fs.openCreate p).1.next :=
  (fs.openCreate p).1.names_lt p _ (openCreate_names_self fs p)

@[simp] theorem setFile_names (fs : FileStore ν α) (i : Inode ν) (f : List α) :
    (fs.setFile i f).names = fs.names := by
  unfold setFile
  split <;> rfl

@[simp] theorem setFile_dir (fs : FileStore ν α) (i : Inode ν) (f : List α) :
    (fs.setFile i f).dir = fs.dir := by
  unfold setFile
  split <;> rfl

@[simp] theorem setFile_next (fs : FileStore ν α) (i : Inode ν) (f : List α) :
    (fs.setFile i f).next = fs.next := by
  unfold setFile
  split <;> rfl

/-- Only the written file changes. -/
theorem setFile_files {fs : FileStore ν α} {i : Inode ν} (h : i.gen < fs.next) (f : List α) :
    (fs.setFile i f).files = Function.update fs.files i f := by
  unfold setFile
  rw [dif_pos h]

@[simp] theorem setFile_files_self {fs : FileStore ν α} {i : Inode ν} (h : i.gen < fs.next)
    (f : List α) : (fs.setFile i f).files i = f := by
  rw [setFile_files h, Function.update_self]

/-- Other files keep their content. -/
theorem setFile_files_ne (fs : FileStore ν α) {i j : Inode ν} (hj : j ≠ i) (f : List α) :
    (fs.setFile i f).files j = fs.files j := by
  unfold setFile
  split
  · exact Function.update_of_ne hj _ _
  · rfl

@[simp] theorem unlink_names_self (fs : FileStore ν α) (p : ν) : (fs.unlink p).names p = none :=
  Function.update_self ..

/-- Other names keep their files. -/
theorem unlink_names_ne (fs : FileStore ν α) {p q : ν} (hq : q ≠ p) :
    (fs.unlink p).names q = fs.names q :=
  Function.update_of_ne hq ..

/-- A name that survives an unlink referred to the same object before. -/
theorem names_of_unlink {fs : FileStore ν α} {p q : ν} {i : Inode ν}
    (h : (fs.unlink p).names q = some i) : q ≠ p ∧ fs.names q = some i := by
  have hq : q ≠ p := by
    rintro rfl
    simp at h
  exact ⟨hq, by rwa [unlink_names_ne fs hq] at h⟩

/-- A rename moves the name and leaves the files alone. -/
theorem rename_of_some {fs : FileStore ν α} {p : ν} {i : Inode ν} (h : fs.names p = some i)
    (q : ν) :
    (fs.rename p q).names = Function.update (Function.update fs.names p none) q (some i) ∧
    (fs.rename p q).files = fs.files ∧ (fs.rename p q).next = fs.next := by
  unfold rename
  split
  · rename_i hn
    rw [h] at hn
    cases hn
  · rename_i j hj
    rw [h, Option.some.injEq] at hj
    rw [hj]
    exact ⟨rfl, rfl, rfl⟩

/-- A name other than the new one refers to what it referred to before. -/
theorem names_of_rename {fs : FileStore ν α} {p q r : ν} {i j : Inode ν} (h : fs.names p = some i)
    (hr : r ≠ q) (hj : (fs.rename p q).names r = some j) : fs.names r = some j := by
  rw [(rename_of_some h q).1, Function.update_of_ne hr] at hj
  by_cases hrp : r = p
  · simp [hrp] at hj
  · rwa [Function.update_of_ne hrp] at hj

/-! ## What an operation leaves alone -/

/-- A name refers to the same object with the same contents. -/
def SameAt (fs fs' : FileStore ν α) (p : ν) : Prop :=
  fs'.names p = fs.names p ∧ ∀ i, fs.names p = some i → fs'.files i = fs.files i

omit [DecidableEq ν] in
theorem SameAt.refl (fs : FileStore ν α) (p : ν) : SameAt fs fs p := ⟨rfl, fun _ _ => rfl⟩

omit [DecidableEq ν] in
theorem SameAt.trans {fs₁ fs₂ fs₃ : FileStore ν α} {p : ν} (h : SameAt fs₁ fs₂ p)
    (h' : SameAt fs₂ fs₃ p) : SameAt fs₁ fs₃ p := by
  refine ⟨h'.1.trans h.1, ?_⟩
  intro i hi
  rw [h'.2 i (h.1.trans hi), h.2 i hi]

/-- An open leaves other paths as they were. -/
theorem sameAt_openCreate (fs : FileStore ν α) {p q : ν} (hq : q ≠ p) :
    SameAt fs (fs.openCreate p).1 q :=
  ⟨openCreate_names_ne fs hq, fun i _ => by rw [openCreate_files]⟩

/-- An unlink leaves other paths as they were. -/
theorem sameAt_unlink (fs : FileStore ν α) {p q : ν} (hq : q ≠ p) : SameAt fs (fs.unlink p) q :=
  ⟨unlink_names_ne fs hq, fun _ _ => rfl⟩

/-- A write through one path leaves the others as they were. -/
theorem sameAt_setFile {fs : FileStore ν α} {p q : ν} {i : Inode ν} (h : fs.names p = some i)
    (hq : q ≠ p) (f : List α) : SameAt fs (fs.setFile i f) q := by
  refine ⟨by rw [setFile_names], fun j hj => setFile_files_ne fs ?_ f⟩
  rintro rfl
  exact hq (fs.names_inj q p j hj h)

/-- Contents of an object without a name. -/
theorem sameAt_setFile_unlinked {fs : FileStore ν α} {i : Inode ν}
    (h : ∀ p ∈ fs.dir, fs.names p ≠ some i) (q : ν) (f : List α) :
    SameAt fs (fs.setFile i f) q := by
  refine ⟨by rw [setFile_names], fun j hj => setFile_files_ne fs ?_ f⟩
  rintro rfl
  exact h q ((fs.mem_dir q).mpr (by simp [hj])) hj

/-- A rename leaves every third path as it was. -/
theorem sameAt_rename {fs : FileStore ν α} {p q r : ν} (hp : r ≠ p) (hq : r ≠ q) :
    SameAt fs (fs.rename p q) r := by
  cases h : fs.names p with
  | none =>
      have hfs : fs.rename p q = fs := by
        unfold rename
        split
        · rfl
        · rename_i i hi
          rw [h] at hi
          cases hi
      rw [hfs]
      exact .refl fs r
  | some i =>
      obtain ⟨hnames, hfiles, -⟩ := rename_of_some h q
      refine ⟨?_, ?_⟩
      · rw [hnames, Function.update_of_ne hq, Function.update_of_ne hp]
      · intro j _
        rw [hfiles]

/-! ## Names that never move -/

/-- Every name refers to an object created under it. -/
def NamesAtBirth (fs : FileStore ν α) : Prop := ∀ p i, fs.names p = some i → i.birth = p

omit [DecidableEq ν] in
/-- It is a property of the names. -/
theorem NamesAtBirth.congr {fs fs' : FileStore ν α} (h : fs.NamesAtBirth)
    (hn : fs'.names = fs.names) : fs'.NamesAtBirth := by
  unfold NamesAtBirth
  rw [hn]
  exact h

/-- A new file bears the name it was made under. -/
theorem NamesAtBirth.openCreate {fs : FileStore ν α} (h : fs.NamesAtBirth) (p : ν) :
    (fs.openCreate p).1.NamesAtBirth := by
  intro q i hq
  cases hn : fs.names p with
  | some j =>
      rw [openCreate_of_some hn] at hq
      exact h q i hq
  | none =>
      rw [(openCreate_of_none hn).2.1] at hq
      by_cases hqp : q = p
      · subst hqp
        rw [Function.update_self, Option.some.injEq] at hq
        rw [← hq]
      · rw [Function.update_of_ne hqp] at hq
        exact h q i hq

/-- Removing a name keeps it; only a rename does not. -/
theorem NamesAtBirth.unlink {fs : FileStore ν α} (h : fs.NamesAtBirth) (p : ν) :
    (fs.unlink p).NamesAtBirth :=
  fun q i hq => h q i (names_of_unlink hq).2

/-! ## The total size -/

omit [DecidableEq ν] in
/-- The size of a path is the length of its file. -/
theorem size_of_names {fs : FileStore ν α} {p : ν} {i : Inode ν} (h : fs.names p = some i) :
    fs.size p = some (fs.files i).length := by
  rw [size, h, Option.map_some]

omit [DecidableEq ν] in
/-- Paths with the same file have the same size. -/
theorem SameAt.size {fs fs' : FileStore ν α} {p : ν} (h : SameAt fs fs' p) :
    fs'.size p = fs.size p := by
  unfold FileStore.size
  rw [h.1]
  cases hi : fs.names p with
  | none => rfl
  | some i => rw [Option.map_some, Option.map_some, h.2 i hi]

omit [DecidableEq ν] in
/-- Paths with the same file have the same content. -/
theorem SameAt.content {fs fs' : FileStore ν α} {p : ν} (h : SameAt fs fs' p) :
    fs'.content p = fs.content p := by
  unfold FileStore.content
  rw [h.1]
  cases hi : fs.names p with
  | none => rfl
  | some i => rw [Option.map_some, Option.map_some, h.2 i hi]

/-- Changing a named object changes the total by the change of its length. -/
theorem total_setFile {fs : FileStore ν α} {p : ν} {i : Inode ν} (h : fs.names p = some i)
    (f : List α) : (fs.setFile i f).total + (fs.files i).length = fs.total + f.length := by
  have hp : p ∈ fs.dir := (fs.mem_dir p).mpr (by simp [h])
  have hnew : (fs.setFile i f).size p = some f.length := by
    rw [size_of_names (by rwa [setFile_names]), setFile_files_self (fs.names_lt p i h)]
  have hrest : ∑ q ∈ fs.dir.erase p, ((fs.setFile i f).size q).getD 0 =
      ∑ q ∈ fs.dir.erase p, (fs.size q).getD 0 :=
    Finset.sum_congr rfl fun q hq => by
      rw [(sameAt_setFile h (Finset.ne_of_mem_erase hq) f).size]
  unfold total
  rw [setFile_dir, ← Finset.add_sum_erase _ _ hp, ← Finset.add_sum_erase _ _ hp, hrest, hnew,
    size_of_names h, Option.getD_some, Option.getD_some]
  omega

/-- An object without a name does not count. -/
theorem total_setFile_unlinked {fs : FileStore ν α} {i : Inode ν}
    (h : ∀ p ∈ fs.dir, fs.names p ≠ some i) (f : List α) : (fs.setFile i f).total = fs.total := by
  unfold total
  rw [setFile_dir]
  exact Finset.sum_congr rfl fun p _ => by rw [(sameAt_setFile_unlinked h p f).size]

/-- A fresh object is empty. -/
theorem openCreate_files_of_none {fs : FileStore ν α} {p : ν} (h : fs.names p = none) :
    fs.files (fs.openCreate p).2 = [] :=
  fs.files_new _ (by rw [(openCreate_of_none h).1])

/-- A new file is empty, so the sum of all sizes stays. -/
theorem total_openCreate (fs : FileStore ν α) (p : ν) : (fs.openCreate p).1.total = fs.total := by
  cases h : fs.names p with
  | some i => rw [openCreate_of_some h]
  | none =>
      have hp : p ∉ fs.dir := by simp [fs.mem_dir, h]
      unfold total
      rw [(openCreate_of_none h).2.2.1, Finset.sum_insert hp]
      rw [size_of_names (openCreate_names_self fs p), openCreate_files, openCreate_files_of_none h]
      rw [Option.getD_some, List.length_nil, Nat.zero_add]
      refine Finset.sum_congr rfl fun q hq => ?_
      have hqp : q ≠ p := by
        rintro rfl
        exact hp hq
      rw [(sameAt_openCreate fs hqp).size]

/-- An unlink takes the length of the file off the sum. -/
theorem total_unlink {fs : FileStore ν α} {p : ν} {i : Inode ν} (h : fs.names p = some i) :
    (fs.unlink p).total + (fs.files i).length = fs.total := by
  have hp : p ∈ fs.dir := (fs.mem_dir p).mpr (by simp [h])
  have hrest : (fs.unlink p).total = ∑ q ∈ fs.dir.erase p, (fs.size q).getD 0 :=
    Finset.sum_congr rfl fun q hq => by
      rw [(sameAt_unlink fs (Finset.ne_of_mem_erase hq)).size]
  rw [hrest, total, ← Finset.add_sum_erase _ _ hp, size_of_names h, Option.getD_some]
  omega

end FileStore

end Lib
