import LmcacheDaos.Nixl.Containers

/-!
# The language of metaInfo

The comment over `parseTarget` (`daos_backend.cpp`) gives a grammar, `Grammar`
here: a pool, a container and, if there is a third field, two numbers with a dot
between them. The code reads the numbers with `std::stoull`, which skips leading
blanks, takes a sign and stops at the first character that is no digit.

Result: what `parseTarget` accepts, and with what it answers, is the grammar for
every string in which a number that `std::stoull` can read is made of digits
only (`Tidy`), and for no other.
-/

namespace LmcacheDaos.Nixl.Containers

open Lib

/-- The non-empty fields between slashes. -/
def fields (metaInfo : List Char) : List (List Char) := (metaInfo.splitOn '/').filter (· ≠ [])

/-- A number below `2^64` in decimal digits. -/
structure Numeral (n : List Char) : Prop where
  ne_nil : n ≠ []
  digits : ∀ c ∈ n, c.isDigit
  lt : Nat.ofDigitChars 10 n 0 < 2 ^ 64

inductive Grammar (metaInfo : List Char) : DaosTarget → Prop
  | short {pool cont} (h : fields metaInfo = [pool, cont]) :
      Grammar metaInfo ⟨pool, cont, false, ⟨0, 0⟩⟩
  | long {pool cont hi lo} (h : fields metaInfo = [pool, cont, hi ++ '.' :: lo]) (hhi : Numeral hi)
      (hlo : Numeral lo) : Grammar metaInfo
        ⟨pool, cont, true, ⟨Nat.ofDigitChars 10 hi 0, Nat.ofDigitChars 10 lo 0⟩⟩

/-- What stands before and after the first dot. -/
def halves (oid : List Char) : List Char × List Char :=
  (oid.takeWhile (· ≠ '.'), (oid.dropWhile (· ≠ '.')).tail)

/-- If both halves of an object id can be read as numbers, they are digits. -/
def Tidy (metaInfo : List Char) : Prop :=
  ∀ pool cont oid, fields metaInfo = [pool, cont, oid] → '.' ∈ oid →
    (stoull (halves oid).1).isSome → (stoull (halves oid).2).isSome →
    (∀ c ∈ (halves oid).1, c.isDigit) ∧ ∀ c ∈ (halves oid).2, c.isDigit

/-! ## Numbers -/

theorem isSpace_eq_false {c : Char} (h : c.isDigit) : isSpace c = false := by
  simp only [Char.isDigit, Bool.and_eq_true, decide_eq_true_eq] at h
  have hlo : 48 ≤ c.toNat := h.1
  have hne : c ≠ ' ' := by
    rintro rfl
    exact absurd hlo (by decide)
  simp only [isSpace, Bool.or_eq_false_iff, decide_eq_false_iff_not, Bool.and_eq_false_iff]
  exact ⟨hne, .inr (by omega)⟩

/-- On digits `std::stoull` gives their number, if it fits. -/
theorem stoull_digits {s : List Char} (h : ∀ c ∈ s, c.isDigit) :
    stoull s = if s = [] ∨ 2 ^ 64 ≤ Nat.ofDigitChars 10 s 0 then none
      else some (Nat.ofDigitChars 10 s 0) := by
  have hblank : s.dropWhile isSpace = s := by
    cases s with
    | nil => rfl
    | cons c cs => simp [isSpace_eq_false (h c List.mem_cons_self)]
  have hminus : s.head? ≠ some '-' := by
    intro hhead
    exact absurd (h '-' (List.mem_of_mem_head? hhead)) (by decide)
  have hplus : s.head? ≠ some '+' := by
    intro hhead
    exact absurd (h '+' (List.mem_of_mem_head? hhead)) (by decide)
  have hall : s.takeWhile Char.isDigit = s := List.takeWhile_eq_self_iff.mpr h
  unfold stoull
  simp only [hblank, hminus, hplus, or_self, if_false, hall]

theorem stoull_numeral {s : List Char} (h : Numeral s) :
    stoull s = some (Nat.ofDigitChars 10 s 0) := by
  have hlt := h.lt
  rw [stoull_digits h.digits, if_neg]
  rintro (hnil | hbig)
  · exact h.ne_nil hnil
  · omega

theorem numeral_of_stoull {s : List Char} (hd : ∀ c ∈ s, c.isDigit) (h : (stoull s).isSome) :
    Numeral s := by
  rw [stoull_digits hd] at h
  split at h
  · cases h
  · rename_i hno
    rw [not_or] at hno
    exact ⟨hno.1, hd, by omega⟩

/-! ## Object ids -/

theorem halves_eq {hi lo : List Char} (h : '.' ∉ hi) : halves (hi ++ '.' :: lo) = (hi, lo) := by
  have hmem : '.' ∈ hi ++ '.' :: lo := by simp
  have hcut := cut_of_mem hmem
  rcases sep_inj h (sep_not_mem_takeWhile '.' _) hcut with ⟨hhi, hlo⟩
  exact Prod.ext hhi.symm hlo.symm

theorem append_halves {oid : List Char} (h : '.' ∈ oid) :
    (halves oid).1 ++ '.' :: (halves oid).2 = oid :=
  (cut_of_mem h).symm

theorem Numeral.dot_not_mem {n : List Char} (h : Numeral n) : '.' ∉ n := by
  intro hmem
  exact absurd (h.digits '.' hmem) (by decide)

theorem parseTarget_three {metaInfo pool cont oid : List Char}
    (h : fields metaInfo = [pool, cont, oid]) (hdot : '.' ∈ oid) :
    parseTarget metaInfo = match stoull (halves oid).1, stoull (halves oid).2 with
      | some hi, some lo => some ⟨pool, cont, true, ⟨hi, lo⟩⟩
      | _, _ => none := by
  unfold parseTarget
  rw [show (metaInfo.splitOn '/').filter (· ≠ []) = _ from h]
  exact if_pos hdot

/-- Whatever the grammar gives is what the code reads. -/
theorem parseTarget_of_grammar {metaInfo : List Char} {t : DaosTarget} (h : Grammar metaInfo t) :
    parseTarget metaInfo = some t := by
  cases h with
  | short h =>
      unfold parseTarget
      rw [show (metaInfo.splitOn '/').filter (· ≠ []) = _ from h]
  | long h hhi hlo =>
      rw [parseTarget_three h (by simp), halves_eq hhi.dot_not_mem, stoull_numeral hhi,
        stoull_numeral hlo]

/-- What the code reads of a tidy string is in the grammar. -/
theorem grammar_of_parseTarget {metaInfo : List Char} {t : DaosTarget} (htidy : Tidy metaInfo)
    (h : parseTarget metaInfo = some t) : Grammar metaInfo t := by
  unfold parseTarget at h
  split at h
  · -- two fields: pool and container
    rename_i pool cont heq
    cases h
    exact .short heq
  · -- three: the third is `hi.lo`
    rename_i pool cont oid heq
    have heq : fields metaInfo = [pool, cont, oid] := heq
    split at h
    · rename_i hdot
      split at h
      · rename_i hi lo hhi hlo
        cases h
        have hhi' : stoull (halves oid).1 = some hi := hhi
        have hlo' : stoull (halves oid).2 = some lo := hlo
        -- the halves are digits, so the numbers parsed are those written
        rcases htidy pool cont oid heq hdot (by rw [hhi']; rfl) (by rw [hlo']; rfl) with ⟨hd, hd'⟩
        have hn := numeral_of_stoull hd (by rw [hhi']; rfl)
        have hn' := numeral_of_stoull hd' (by rw [hlo']; rfl)
        rw [stoull_numeral hn, Option.some.injEq] at hhi'
        rw [stoull_numeral hn', Option.some.injEq] at hlo'
        rw [← hhi', ← hlo']
        exact .long (heq.trans (by rw [append_halves hdot])) hn hn'
      · cases h
    · cases h
  · cases h

/-- `parseTarget` accepts the strings of the grammar, with their names and
numbers, exactly for the tidy ones. -/
theorem parse_follows_grammar_iff (metaInfo : List Char) :
    (∀ t, parseTarget metaInfo = some t ↔ Grammar metaInfo t) ↔ Tidy metaInfo := by
  constructor
  · intro hall pool cont oid hf hdot hhi hlo
    rcases Option.isSome_iff_exists.mp hhi with ⟨hi, hhi⟩
    rcases Option.isSome_iff_exists.mp hlo with ⟨lo, hlo⟩
    have hparse : parseTarget metaInfo = some ⟨pool, cont, true, ⟨hi, lo⟩⟩ := by
      rw [parseTarget_three hf hdot, hhi, hlo]
    -- the grammar has it too, so its halves are numerals
    cases (hall _).mp hparse with
    | long hf' hn hn' =>
        rw [hf] at hf'
        cases hf'
        rw [halves_eq hn.dot_not_mem]
        exact ⟨hn.digits, hn'.digits⟩
  · intro htidy t
    exact ⟨grammar_of_parseTarget htidy, parseTarget_of_grammar⟩

/-- A sign and a letter: accepted as the id of an object, though not in the grammar. -/
theorem signed_id_accepted :
    parseTarget "p/c/-1.2x".toList = some ⟨['p'], ['c'], true, ⟨2 ^ 64 - 1, 2⟩⟩ ∧
      ∀ t, ¬ Grammar "p/c/-1.2x".toList t := by
  refine ⟨by decide +kernel, ?_⟩
  intro t h
  have hf : fields "p/c/-1.2x".toList = [['p'], ['c'], ['-', '1', '.', '2', 'x']] := by
    decide +kernel
  cases h with
  | short hf' =>
      rw [hf] at hf'
      cases hf'
  | long hf' hn hn' =>
      rw [hf] at hf'
      have hoid := (List.cons.inj (List.cons.inj (List.cons.inj hf').2).2).1
      have hminus : '.' ∉ ['-', '1'] := by decide
      rcases sep_inj hminus hn.dot_not_mem hoid with ⟨rfl, -⟩
      exact absurd (hn.digits '-' List.mem_cons_self) (by decide)

end LmcacheDaos.Nixl.Containers
