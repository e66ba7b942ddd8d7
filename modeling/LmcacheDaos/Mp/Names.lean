import Mathlib.Data.List.Forall2
import LmcacheDaos.Lib.Separator
import LmcacheDaos.Mp.Keys

/-!
# What a file name says about its key

`_key_to_name` joins model, rank, group, chunk hash and salt with `'@'`, which
no string field of an `ObjectKey` contains, so the five parts can be read off
the name. Rank, group and hash are written injectively. Model and salt are not:
`'/'` is folded to `'_'` first, and `'_'` is a legal character of both.

So two keys have the same file exactly when they are `Alike`, and the objects
of the models `a/b` and `a_b` are one object.
-/

namespace LmcacheDaos.Mp

open Lib

/-! ## Characters -/

/-- What folding does not tell apart. -/
def AlikeChar (c d : Char) : Prop := c = d ∨ (c = '/' ∧ d = '_') ∨ (c = '_' ∧ d = '/')

instance : DecidableRel AlikeChar := fun c d =>
  inferInstanceAs (Decidable (c = d ∨ (c = '/' ∧ d = '_') ∨ (c = '_' ∧ d = '/')))

/-- Equal up to `'/'` against `'_'`, character by character. -/
def AlikeString (s t : String) : Prop := List.Forall₂ AlikeChar s.toList t.toList

/-- Folding confuses strings that differ in `/` against `_` only. -/
theorem foldSlash_eq_iff {s t : String} : foldSlash s = foldSlash t ↔ AlikeString s t := by
  have hchar : ∀ c d : Char,
      ((if c = '/' then '_' else c) = if d = '/' then '_' else d) ↔ AlikeChar c d := by
    intro c d
    unfold AlikeChar
    by_cases hc : c = '/'
    · by_cases hd : d = '/'
      · simp [hc, hd]
      · simp [hc, hd, eq_comm]
    · by_cases hd : d = '/'
      · simp [hc, hd]
      · simp [hc, hd]
  unfold foldSlash AlikeString
  rw [← List.forall₂_eq_eq_eq, List.forall₂_map_left_iff, List.forall₂_map_right_iff]
  constructor
  · intro h
    exact h.imp fun c d => (hchar c d).mp
  · intro h
    exact h.imp fun c d => (hchar c d).mpr

theorem foldSlash_eq_nil {s : String} : foldSlash s = [] ↔ s = "" := by
  simp [foldSlash]

theorem sep_not_mem_foldSlash {s : String} (h : '@' ∉ s.toList) : '@' ∉ foldSlash s := by
  intro hmem
  rcases List.mem_map.mp hmem with ⟨c, hc, heq⟩
  split at heq
  · exact absurd heq (by decide)
  · exact h (heq ▸ hc)

/-! ## Numbers -/

/-- The value of a hexadecimal digit. -/
def digitValue (c : Char) : ℕ := ((List.range 16).find? fun d => Nat.digitChar d = c).getD 0

theorem digitValue_digitChar : ∀ d < 16, digitValue (Nat.digitChar d) = d := by
  decide +kernel

def readHex (cs : List Char) : ℕ := cs.foldl (fun n c => 16 * n + digitValue c) 0

theorem readHex_toDigits (n : ℕ) : readHex (Nat.toDigits 16 n) = n := by
  induction n using Nat.strongRecOn with
  | ind n ih =>
      by_cases h : n < 16
      · rw [Nat.toDigits_of_lt_base h]
        show 16 * 0 + digitValue n.digitChar = n
        rw [digitValue_digitChar n h, Nat.zero_add]
      · have hq : readHex (Nat.toDigits 16 (n / 16)) = n / 16 := ih _ (by omega)
        rw [Nat.toDigits_of_base_le (by decide) (by omega), readHex, List.foldl_append]
        show 16 * readHex (Nat.toDigits 16 (n / 16)) + digitValue (n % 16).digitChar = n
        rw [hq, digitValue_digitChar _ (Nat.mod_lt _ (by decide))]
        omega

/-- The padding has no value. -/
theorem readHex_hexPad (w n : ℕ) : readHex (hexPad w n) = n := by
  have hzeros : ∀ k, readHex (List.replicate k '0' ++ Nat.toDigits 16 n) = n := by
    intro k
    induction k with
    | zero => exact readHex_toDigits n
    | succ k ih => exact ih
  exact hzeros _

theorem hexPad_injective (w : ℕ) : Function.Injective (hexPad w) := by
  intro n m h
  rw [← readHex_hexPad w n, h, readHex_hexPad]

theorem sep_not_mem_toDigits (n : ℕ) : '@' ∉ Nat.toDigits 16 n := by
  have hdigit : ∀ d < 16, '@' ≠ Nat.digitChar d := by decide
  induction n using Nat.strongRecOn with
  | ind n ih =>
      by_cases h : n < 16
      · rw [Nat.toDigits_of_lt_base h, List.mem_singleton]
        exact hdigit n h
      · rw [Nat.toDigits_of_base_le (by decide) (by omega), List.mem_append, List.mem_singleton]
        intro hmem
        rcases hmem with hmem | hmem
        · exact ih _ (by omega) hmem
        · exact hdigit _ (Nat.mod_lt _ (by decide)) hmem

theorem sep_not_mem_hexPad (w n : ℕ) : '@' ∉ hexPad w n := by
  intro hmem
  rcases List.mem_append.mp hmem with hmem | hmem
  · exact absurd (List.eq_of_mem_replicate hmem) (by decide)
  · exact sep_not_mem_toDigits n hmem

theorem sep_not_mem_hexBytes (bs : List UInt8) : '@' ∉ hexBytes bs := by
  intro hmem
  rcases List.mem_flatMap.mp hmem with ⟨b, -, hb⟩
  exact sep_not_mem_hexPad 2 _ hb

/-! ## Names -/

/-- What `ObjectKey` enforces. -/
def ObjectKey.Legal (key : ObjectKey) : Prop :=
  '@' ∉ key.modelName.toList ∧ '@' ∉ key.cacheSalt.toList

instance (key : ObjectKey) : Decidable key.Legal :=
  inferInstanceAs (Decidable (_ ∧ _))

/-- Keys that differ, if at all, in `'/'` against `'_'` in the model name or the
salt. -/
structure ObjectKey.Alike (k k' : ObjectKey) : Prop where
  modelName : AlikeString k.modelName k'.modelName
  kvRank : k.kvRank = k'.kvRank
  objectGroupId : k.objectGroupId = k'.objectGroupId
  chunkHash : k.chunkHash = k'.chunkHash
  cacheSalt : AlikeString k.cacheSalt k'.cacheSalt

/-- The part of a name behind the group: the hash, and the salt if there is one. -/
def hashAndSalt (key : ObjectKey) : List Char :=
  if key.cacheSalt = "" then hexBytes key.chunkHash
  else hexBytes key.chunkHash ++ '@' :: foldSlash key.cacheSalt

/-- The parts of a name, between separators that they do not have. -/
theorem keyToName_eq (key : ObjectKey) :
    keyToName key = foldSlash key.modelName ++ '@' :: (hexPad 8 key.kvRank ++
      '@' :: (hexPad 0 key.objectGroupId ++ '@' :: hashAndSalt key)) := by
  unfold keyToName hashAndSalt
  split <;> simp

/-- A name with a salt has one separator more than one without. -/
theorem hashAndSalt_inj {k k' : ObjectKey} (h : hashAndSalt k = hashAndSalt k') :
    k.chunkHash = k'.chunkHash ∧ foldSlash k.cacheSalt = foldSlash k'.cacheSalt := by
  have hno : ∀ (k k' : ObjectKey) (cs : List Char),
      hexBytes k.chunkHash ≠ hexBytes k'.chunkHash ++ '@' :: cs := by
    intro k k' cs heq
    apply sep_not_mem_hexBytes k.chunkHash
    rw [heq]
    simp
  unfold hashAndSalt at h
  split at h
  · rename_i hk
    split at h
    · rename_i hk'
      exact ⟨hexBytes_injective h, by rw [hk, hk']⟩
    · exact absurd h (hno k k' _)
  · split at h
    · exact absurd h.symm (hno k' k _)
    · rcases sep_inj (sep_not_mem_hexBytes _) (sep_not_mem_hexBytes _) h with ⟨hhash, hsalt⟩
      exact ⟨hexBytes_injective hhash, hsalt⟩

/-- Legal keys share a name exactly if they are alike. -/
theorem keyToName_eq_iff {k k' : ObjectKey} (hk : k.Legal) (hk' : k'.Legal) :
    keyToName k = keyToName k' ↔ k.Alike k' := by
  constructor
  · intro h
    rw [keyToName_eq, keyToName_eq] at h
    have hmodel := sep_inj (sep_not_mem_foldSlash hk.1) (sep_not_mem_foldSlash hk'.1) h
    have hrank := sep_inj (sep_not_mem_hexPad _ _) (sep_not_mem_hexPad _ _) hmodel.2
    have hgroup := sep_inj (sep_not_mem_hexPad _ _) (sep_not_mem_hexPad _ _) hrank.2
    have hrest := hashAndSalt_inj hgroup.2
    exact ⟨foldSlash_eq_iff.mp hmodel.1, hexPad_injective 8 hrank.1, hexPad_injective 0 hgroup.1,
      hrest.1, foldSlash_eq_iff.mp hrest.2⟩
  · intro h
    have hsalt := foldSlash_eq_iff.mpr h.cacheSalt
    have hempty : k.cacheSalt = "" ↔ k'.cacheSalt = "" := by
      rw [← foldSlash_eq_nil, ← foldSlash_eq_nil, hsalt]
    unfold keyToName
    simp only [foldSlash_eq_iff.mpr h.modelName, h.kvRank, h.objectGroupId, h.chunkHash, hsalt,
      hempty]

theorem path_eq_iff {root : String} {k k' : ObjectKey} :
    path root k = path root k' ↔ keyToName k = keyToName k' := by
  constructor
  · intro h
    have hlist := congrArg String.toList h
    simpa [path] using hlist
  · intro h
    rw [path, path, h]

/-- Two keys have different names, and different files under every root,
exactly when they differ in more than `'/'` against `'_'`. -/
theorem names_differ_iff {k k' : ObjectKey} (hk : k.Legal) (hk' : k'.Legal) :
    (keyToName k ≠ keyToName k' ∧ ∀ root, path root k ≠ path root k') ↔ ¬ k.Alike k' := by
  rw [← keyToName_eq_iff hk hk']
  constructor
  · intro h
    exact h.1
  · intro h
    refine ⟨h, ?_⟩
    intro root heq
    exact h (path_eq_iff.mp heq)

def modelKey (model : String) : ObjectKey := ⟨[1], model, 0, 0, ""⟩

theorem other_models_have_other_names :
    keyToName (modelKey "a/b") ≠ keyToName (modelKey "a-b") ∧
      ∀ root, path root (modelKey "a/b") ≠ path root (modelKey "a-b") := by
  apply (names_differ_iff (by decide) (by decide)).mpr
  intro h
  rcases h.modelName with _ | ⟨-, h⟩
  rcases h with _ | ⟨h, -⟩
  exact absurd h (by decide)

/-- The models `a/b` and `a_b` share a file. -/
theorem folded_models_share_file :
    modelKey "a/b" ≠ modelKey "a_b" ∧ (modelKey "a/b").Legal ∧ (modelKey "a_b").Legal ∧
      keyToName (modelKey "a/b") = keyToName (modelKey "a_b") := by
  decide

end LmcacheDaos.Mp
