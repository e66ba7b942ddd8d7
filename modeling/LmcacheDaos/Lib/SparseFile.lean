import Mathlib.Tactic.Common
import Mathlib.Data.List.GetD
import Mathlib.Order.Lattice

/-!
# Sparse byte files

A file is a list; its length is the highest offset ever written and a range
below it that nobody wrote reads as the fill value `z`. A write that spans
several storage chunks of size `cs` reaches the file one chunk at a time
(`landChunk`), in any order and possibly not all of them; `writeAt` is the
write as a whole.

Everything is reduced to two observations, the length and the value at an
offset (`getD`), which determine a file (`ext_getD`).
-/

namespace Lib.SparseFile

universe u

variable {α : Type u} (z : α)

/-- Overwrite from `off` on, filling a hole below `off`. Writing nothing does
not extend the file. -/
def writeAt (f : List α) (off : ℕ) : List α → List α
  | [] => f
  | b :: bs => f.take off ++ List.replicate (off - f.length) z ++ (b :: bs) ++
      f.drop (off + (b :: bs).length)

/-- Read at most `n` values at `off`, short at the end of the file. -/
def readAt (f : List α) (off n : ℕ) : List α := (f.drop off).take n

/-- The part of a write of `bs` at `off` that falls into storage chunk `k`. -/
def chunkPiece (cs off : ℕ) (bs : List α) (k : ℕ) : List α :=
  (bs.drop (k * cs - off)).take ((k + 1) * cs - max off (k * cs))

/-- Chunk `k` of a write of `bs` at `off` becomes visible. -/
def landChunk (cs : ℕ) (f : List α) (off : ℕ) (bs : List α) (k : ℕ) : List α :=
  writeAt z f (max off (k * cs)) (chunkPiece cs off bs k)

/-- The storage chunks a write of `n` values at `off` touches. -/
def chunksOf (cs off n : ℕ) : List ℕ :=
  if n = 0 then [] else List.range' (off / cs) ((off + n - 1) / cs - off / cs + 1)

/-! ## Observations -/

variable {z}

/-- Length and values determine a file. -/
theorem ext_getD {f g : List α} (hlen : f.length = g.length)
    (h : ∀ i < f.length, f.getD i z = g.getD i z) : f = g := by
  apply List.ext_getElem hlen
  intro i hf hg
  have hi := h i hf
  rwa [List.getD_eq_getElem _ _ hf, List.getD_eq_getElem _ _ hg] at hi

/-- Behind the end there is filling. -/
theorem getD_of_length_le {f : List α} {i : ℕ} (h : f.length ≤ i) : f.getD i z = z :=
  List.getD_eq_default _ _ h

/-- Bytes of a front part. -/
theorem getD_take (f : List α) (n i : ℕ) :
    (f.take n).getD i z = if i < n then f.getD i z else z := by
  simp only [List.getD_eq_getElem?_getD, List.getElem?_take]
  split <;> rfl

/-- Bytes of a rear part. -/
theorem getD_drop (f : List α) (n i : ℕ) : (f.drop n).getD i z = f.getD (n + i) z := by
  simp only [List.getD_eq_getElem?_getD, List.getElem?_drop]

/-- Bytes of two parts. -/
theorem getD_append (f g : List α) (i : ℕ) :
    (f ++ g).getD i z = if i < f.length then f.getD i z else g.getD (i - f.length) z := by
  split
  · exact List.getD_append _ _ _ _ ‹_›
  · exact List.getD_append_right _ _ _ _ (by omega)

/-- Filling is filling. -/
theorem getD_replicate_fill (n i : ℕ) : (List.replicate n z).getD i z = z := by
  by_cases h : i < n
  · rw [List.getD_eq_getElem _ _ (by simpa using h), List.getElem_replicate]
  · exact getD_of_length_le (by simpa using h)

@[simp] theorem writeAt_nil (f : List α) (off : ℕ) : writeAt z f off [] = f := rfl

/-- A write of something: what is before it, filled up, the bytes, what is behind. -/
theorem writeAt_eq {f : List α} {off : ℕ} {bs : List α} (h : bs ≠ []) :
    writeAt z f off bs = f.take off ++ List.replicate (off - f.length) z ++ bs ++
      f.drop (off + bs.length) := by
  cases bs with
  | nil => exact absurd rfl h
  | cons b bs => rfl

/-- A write reaches at least to its own end. -/
theorem length_writeAt {f : List α} {off : ℕ} {bs : List α} (h : bs ≠ []) :
    (writeAt z f off bs).length = max f.length (off + bs.length) := by
  rw [writeAt_eq h]
  simp only [List.length_append, List.length_take, List.length_replicate, List.length_drop]
  omega

/-- Files do not get shorter. -/
theorem length_le_length_writeAt (f : List α) (off : ℕ) (bs : List α) :
    f.length ≤ (writeAt z f off bs).length := by
  by_cases h : bs = []
  · rw [h, writeAt_nil]
  · rw [length_writeAt h]
    exact le_max_left _ _

/-- The value at an offset after a write: the written value inside its range,
the old one outside. -/
theorem getD_writeAt (f : List α) (off : ℕ) (bs : List α) (i : ℕ) :
    (writeAt z f off bs).getD i z =
      if off ≤ i ∧ i < off + bs.length then bs.getD (i - off) z else f.getD i z := by
  by_cases h : bs = []
  · subst h
    rw [writeAt_nil, if_neg (by simp)]
  · rw [writeAt_eq h]
    have hpre : (f.take off ++ List.replicate (off - f.length) z).length = off := by
      simp only [List.length_append, List.length_take, List.length_replicate]
      omega
    rw [getD_append, getD_append, List.length_append, hpre]
    by_cases hlt : i < off
    · -- below the write: the old value, or the hole that reads as the fill
      rw [if_pos (by omega), if_pos hlt, if_neg (by omega), getD_append, getD_take,
        getD_replicate_fill, List.length_take]
      by_cases hf : i < f.length
      · rw [if_pos (by omega), if_pos hlt]
      · rw [if_neg (by omega), getD_of_length_le (by omega)]
    · by_cases hin : i < off + bs.length
      · rw [if_pos hin, if_neg hlt, if_pos (by omega)]
      · rw [if_neg hin, if_neg (by omega), getD_drop]
        congr 1
        omega

/-- A write inside the file replaces what was there. -/
theorem writeAt_of_le {f : List α} {off : ℕ} {bs : List α} (h : off ≤ f.length) :
    writeAt z f off bs = f.take off ++ bs ++ f.drop (off + bs.length) := by
  by_cases hbs : bs = []
  · rw [hbs, writeAt_nil, List.append_nil, List.length_nil, Nat.add_zero, List.take_append_drop]
  · rw [writeAt_eq hbs, Nat.sub_eq_zero_of_le h, List.replicate_zero, List.append_nil]

/-- A write inside one part of a file leaves the other parts alone. -/
theorem writeAt_append_mid (a b c : List α) {off : ℕ} {bs : List α}
    (h : off + bs.length ≤ b.length) :
    writeAt z (a ++ b ++ c) (a.length + off) bs = a ++ writeAt z b off bs ++ c := by
  have hlen : a.length + off ≤ (a ++ b ++ c).length := by
    simp only [List.length_append]
    omega
  rw [writeAt_of_le hlen, writeAt_of_le (by omega), List.append_assoc a, Nat.add_assoc,
    List.take_length_add_append, List.drop_length_add_append, List.take_append_of_le_length
      (by omega), List.drop_append_of_le_length h]
  simp only [List.append_assoc]

/-- A write inside the file keeps its length. -/
theorem length_writeAt_of_le {f : List α} {off : ℕ} {bs : List α} (h : off + bs.length ≤ f.length) :
    (writeAt z f off bs).length = f.length := by
  rw [writeAt_of_le (by omega)]
  simp only [List.length_append, List.length_take, List.length_drop]
  omega

/-- A read is the front of what is left. -/
theorem drop_eq_readAt_append (f : List α) (off n : ℕ) :
    f.drop off = readAt f off n ++ f.drop (off + n) := by
  rw [readAt, ← List.drop_drop, List.take_append_drop]

/-- A read is short at the end of the file. -/
theorem length_readAt (f : List α) (off n : ℕ) :
    (readAt f off n).length = min n (f.length - off) := by
  simp [readAt]

/-! ## Landing chunk by chunk -/

/-- Two writes, the second where the first ends. -/
theorem append_prefix_writeAt (z : α) (f as bs : List α) :
    as ++ bs <+: writeAt z (writeAt z f 0 as) as.length bs := by
  have hone : writeAt z f 0 as = as ++ f.drop as.length := by
    cases as with
    | nil => rfl
    | cons a as => simp [writeAt]
  rw [hone]
  cases bs with
  | nil =>
      rw [List.append_nil]
      exact List.prefix_append _ _
  | cons b bs =>
      rw [writeAt, List.take_left, Nat.sub_eq_zero_of_le (by simp), List.replicate_zero,
        List.append_nil]
      exact List.prefix_append _ _

/-- The part of a write that lies in one chunk. -/
theorem length_chunkPiece (cs off : ℕ) (bs : List α) (k : ℕ) :
    (chunkPiece cs off bs k).length =
      min ((k + 1) * cs - max off (k * cs)) (bs.length - (k * cs - off)) := by
  simp [chunkPiece]

/-- Which offsets lie in a chunk. -/
theorem mem_chunk_iff {cs k i : ℕ} (hcs : 0 < cs) : i / cs = k ↔ k * cs ≤ i ∧ i < (k + 1) * cs := by
  constructor
  · rintro rfl
    exact ⟨Nat.div_mul_le_self i cs, Nat.lt_of_lt_of_le (Nat.lt_div_mul_add hcs) (by
      rw [Nat.add_mul, Nat.one_mul])⟩
  · rintro ⟨h1, h2⟩
    exact Nat.div_eq_of_lt_le h1 h2

/-- The value at an offset after chunk `k` of a write landed. -/
theorem getD_landChunk {cs : ℕ} (hcs : 0 < cs) (f : List α) (off : ℕ) (bs : List α) (k i : ℕ) :
    (landChunk z cs f off bs k).getD i z =
      if (off ≤ i ∧ i < off + bs.length) ∧ i / cs = k then bs.getD (i - off) z
      else f.getD i z := by
  rw [landChunk, getD_writeAt, length_chunkPiece]
  have hk := mem_chunk_iff (k := k) (i := i) hcs
  by_cases h : (off ≤ i ∧ i < off + bs.length) ∧ i / cs = k
  · have hki := hk.mp h.2
    rw [if_pos h, if_pos (by omega), chunkPiece, getD_take, getD_drop, if_pos (by omega)]
    congr 1
    omega
  · rw [if_neg h, if_neg]
    intro hin
    exact h ⟨by omega, hk.mpr (by omega)⟩

/-- A chunk that lands does not shorten the file. -/
theorem length_le_length_landChunk (cs : ℕ) (f : List α) (off : ℕ) (bs : List α) (k : ℕ) :
    f.length ≤ (landChunk z cs f off bs k).length :=
  length_le_length_writeAt f _ _

/-- A landed chunk reaches up to its own end or to the end of the write. -/
theorem length_landChunk_le (cs : ℕ) (f : List α) (off : ℕ) (bs : List α) (k : ℕ) :
    (landChunk z cs f off bs k).length ≤ max f.length (min (off + bs.length) ((k + 1) * cs)) := by
  rw [landChunk]
  by_cases h : chunkPiece cs off bs k = []
  · rw [h, writeAt_nil]
    exact le_max_left _ _
  · rw [length_writeAt h, length_chunkPiece]
    have hpos : 0 < (chunkPiece cs off bs k).length := List.length_pos_iff.mpr h
    rw [length_chunkPiece] at hpos
    omega

/-- Every offset of the landed chunk is inside the file. -/
theorem lt_length_landChunk {cs : ℕ} (hcs : 0 < cs) {f : List α} {off : ℕ} {bs : List α} {k i : ℕ}
    (hi : off ≤ i ∧ i < off + bs.length) (hk : i / cs = k) :
    i < (landChunk z cs f off bs k).length := by
  rw [mem_chunk_iff hcs] at hk
  have hlen := length_chunkPiece cs off bs k
  have hne : chunkPiece cs off bs k ≠ [] := by
    rw [← List.length_pos_iff, hlen]
    omega
  rw [landChunk, length_writeAt hne, hlen]
  omega

/-- Landing one more chunk of `bs` on a file that is `bs` as soon as it has its
length keeps that, if a chunk that reaches the end lands after everything
below it. -/
theorem landChunk_eq_of_length {cs : ℕ} (hcs : 0 < cs) {f bs : List α} {k : ℕ}
    (hlen : f.length ≤ bs.length) (hfull : f.length = bs.length → f = bs)
    (hbelow : bs.length ≤ (k + 1) * cs → ∀ i < k * cs, f.getD i z = bs.getD i z)
    (h : (landChunk z cs f 0 bs k).length = bs.length) : landChunk z cs f 0 bs k = bs := by
  refine ext_getD (z := z) h fun i hi => ?_
  rw [h] at hi
  rw [getD_landChunk hcs]
  by_cases hk : i / cs = k
  · rw [if_pos ⟨by omega, hk⟩, Nat.sub_zero]
  · rw [if_neg fun hin => hk hin.2]
    rcases Nat.lt_or_eq_of_le hlen with hlt | heq
    · -- this chunk gave the file its length, so it is the last one
      have hgrown := length_landChunk_le (z := z) cs f 0 bs k
      rw [mem_chunk_iff hcs] at hk
      exact hbelow (by omega) i (by omega)
    · rw [hfull heq]

/-- Of a write of `bs` at `off`, all but the `pending` chunks are visible. -/
def Landed (z : α) (cs : ℕ) (f : List α) (off : ℕ) (bs : List α) (pending : List ℕ) : Prop :=
  ∀ i, off ≤ i → i < off + bs.length → i / cs ∉ pending →
    i < f.length ∧ f.getD i z = bs.getD (i - off) z

/-- One chunk less is pending. -/
theorem landed_erase {cs : ℕ} (hcs : 0 < cs) {f : List α} {off : ℕ} {bs : List α}
    {pending : List ℕ} (h : Landed z cs f off bs pending) (k : ℕ) :
    Landed z cs (landChunk z cs f off bs k) off bs (pending.erase k) := by
  intro i hlo hhi hnot
  rw [getD_landChunk hcs]
  by_cases hk : i / cs = k
  · rw [if_pos ⟨⟨hlo, hhi⟩, hk⟩]
    exact ⟨lt_length_landChunk hcs ⟨hlo, hhi⟩ hk, rfl⟩
  · rw [if_neg fun hin => hk hin.2]
    obtain ⟨hlt, hval⟩ := h i hlo hhi fun hmem => hnot ((List.mem_erase_of_ne hk).mpr hmem)
    exact ⟨Nat.lt_of_lt_of_le hlt (length_le_length_landChunk ..), hval⟩

/-- A chunk of a write to another range. -/
theorem landed_of_disjoint {cs : ℕ} (hcs : 0 < cs) {f : List α} {off off' : ℕ} {bs bs' : List α}
    {pending : List ℕ} (h : Landed z cs f off bs pending)
    (hdisj : off + bs.length ≤ off' ∨ off' + bs'.length ≤ off) (k : ℕ) :
    Landed z cs (landChunk z cs f off' bs' k) off bs pending := by
  intro i hlo hhi hnot
  obtain ⟨hlt, hval⟩ := h i hlo hhi hnot
  rw [getD_landChunk hcs, if_neg (by omega)]
  exact ⟨Nat.lt_of_lt_of_le hlt (length_le_length_landChunk ..), hval⟩

/-- Two adjacent writes from the start on, all of them visible. -/
theorem append_prefix_of_landed {cs : ℕ} {f as bs : List α} (ha : Landed z cs f 0 as [])
    (hb : Landed z cs f as.length bs []) : as ++ bs <+: f := by
  have hlen : (as ++ bs).length ≤ f.length := by
    by_contra hlt
    rw [List.length_append] at hlt
    by_cases h : f.length < as.length
    · have := (ha f.length (Nat.zero_le _) (by omega) (by simp)).1
      omega
    · have := (hb f.length (by omega) (by omega) (by simp)).1
      omega
  rw [List.prefix_iff_eq_take]
  refine ext_getD (z := z) (by rw [List.length_take]; omega) ?_
  intro i hi
  have hin : i < as.length + bs.length := by rwa [List.length_append] at hi
  rw [getD_take, if_pos hi, getD_append]
  by_cases hlt : i < as.length
  · rw [if_pos hlt, (ha i (Nat.zero_le _) (by omega) (by simp)).2, Nat.sub_zero]
  · rw [if_neg hlt, (hb i (by omega) (by omega) (by simp)).2]

/-- A write that is visible as a whole. -/
theorem prefix_drop_of_landed {cs : ℕ} {f bs : List α} {off : ℕ} (h : Landed z cs f off bs []) :
    bs <+: f.drop off := by
  have hlen : bs.length ≤ (f.drop off).length := by
    rw [List.length_drop]
    by_contra hlt
    have hin := (h (max off f.length) (by omega) (by omega) (by simp)).1
    omega
  rw [List.prefix_iff_eq_take]
  refine ext_getD (z := z) (by rw [List.length_take]; omega) ?_
  intro i hi
  have hval := (h (off + i) (by omega) (by omega) (by simp)).2
  rw [Nat.add_sub_cancel_left] at hval
  rw [getD_take, if_pos hi, getD_drop, hval]

/-- The chunks of a write are those that it touches. -/
theorem mem_chunksOf {cs off n k : ℕ} (hcs : 0 < cs) :
    k ∈ chunksOf cs off n ↔ ∃ i, (off ≤ i ∧ i < off + n) ∧ i / cs = k := by
  by_cases hn : n = 0
  · subst hn
    simp only [chunksOf, if_true, List.not_mem_nil, false_iff, not_exists]
    omega
  · simp only [chunksOf, if_neg hn, List.mem_range'_1]
    have hmono : off / cs ≤ (off + n - 1) / cs := Nat.div_le_div_right (by omega)
    constructor
    · rintro ⟨h1, h2⟩
      -- the first offset of the chunk, or the start of the write
      refine ⟨max off (k * cs), ?_, ?_⟩
      · have hk : k * cs ≤ off + n - 1 := by
          have : k ≤ (off + n - 1) / cs := by omega
          exact (Nat.le_div_iff_mul_le hcs).mp this
        omega
      · have h3 : off < (k + 1) * cs := by
          have : off / cs < k + 1 := by omega
          exact (Nat.div_lt_iff_lt_mul hcs).mp this
        have h4 : k * cs < (k + 1) * cs := by
          rw [Nat.add_mul, Nat.one_mul]
          omega
        exact (mem_chunk_iff hcs).mpr (by omega)
    · rintro ⟨i, hi, rfl⟩
      have h1 : off / cs ≤ i / cs := Nat.div_le_div_right (by omega)
      have h2 : i / cs ≤ (off + n - 1) / cs := Nat.div_le_div_right (by omega)
      omega

/-- Before its first chunk is visible, every chunk of a write is pending. -/
theorem landed_chunksOf {cs : ℕ} (hcs : 0 < cs) (f : List α) (off : ℕ) (bs : List α) :
    Landed z cs f off bs (chunksOf cs off bs.length) := by
  intro i hlo hhi hnot
  exact absurd ((mem_chunksOf hcs).mpr ⟨i, ⟨hlo, hhi⟩, rfl⟩) hnot

end Lib.SparseFile
