import Mathlib.Data.List.Basic
import Mathlib.Data.List.Flatten
import Mathlib.Data.List.Nodup
import Mathlib.Data.List.Perm.Basic
import Mathlib.Tactic.Common
import LmcacheDaos.Lib.Machine
import LmcacheDaos.Mp.Streaming

/-!
# Splitting a transfer

`_transfer` and `_resolve` (`mp/streaming_patch.py`): an H2D transfer with
placeholders goes to the original `transfer_kv_per_object_group` in sub-batches,
each as soon as the keys of its placeholders are readable in L1.

The machine is one call, while the L1 entries of all keys come and go. Of the
original transfer this is used (`writes`): the tokens of the `j`-th object go to
the `j`-th of equally many blocks of each list, one after another, but for the
first `skip_first_n_tokens` of the whole call.

* Each sub-transfer is of its slice of the objects, and what stands for a
  placeholder was read under its key before (`Ordered`).
* The sub-transfers write what one transfer of all objects writes exactly if that
  skips no token behind the first sub-batch (`equal_iff`): only the first
  sub-transfer gets the count, and the others skip nothing.
* The call returns once the keys it waits for are readable (`Returns`).
-/

namespace LmcacheDaos.Mp.Transfer

open Lib Mp.Streaming

/-! ## What a transfer writes -/

/-- An entry of `memory_objs`: an object of L1, or a `_Pending`. -/
inductive MemoryObj (κ ο : Type) where
  | obj (o : ο)
  | pending (key : κ)
deriving DecidableEq, Repr

inductive Direction where
  | h2d
  | d2h
deriving DecidableEq, Repr

/-- The arguments of `transfer_kv_per_object_group`. -/
structure Call (κ ο β : Type) where
  /-- what `cache_context` says: the tokens in a block of the `g`-th list -/
  blockSize : ℕ → ℕ
  blockIdsGpu : List (List β)
  memoryObjs : List (MemoryObj κ ο)
  objectGroupId : ℤ
  batchSize : ℤ
  skipFirstNTokens : ℕ
  direction : Direction

/-- Token `token` of `object` goes to place `slot` of `block`, in the cache of the
`list`-th list. -/
structure Write (κ ο β : Type) where
  list : ℕ
  block : β
  slot : ℕ
  object : MemoryObj κ ο
  token : ℕ
deriving DecidableEq, Repr

variable {κ ο β : Type}

/-- An object's tokens over a run of blocks, `bs` in each. -/
def tokensOf (bs g : ℕ) (run : List β) (m : MemoryObj κ ο) : List (Write κ ο β) :=
  run.zipIdx.flatMap fun x => (List.range bs).map fun r => ⟨g, x.1, r, m, x.2 * bs + r⟩

/-- The writes of the `j`-th object of a call that skips `skip` tokens. -/
def objectWrites (bs g skip : ℕ) (run : List β) (j : ℕ) (m : MemoryObj κ ο) :
    List (Write κ ο β) :=
  (tokensOf bs g run m).filter fun w => skip ≤ j * (run.length * bs) + w.token

/-- The writes to the blocks of one list: object `j` has the `j`-th of its `n` equal
runs. -/
def listWrites (c : Call κ ο β) (b : List β) (g : ℕ) : List (Write κ ο β) :=
  c.memoryObjs.zipIdx.flatMap fun x =>
    objectWrites (c.blockSize g) g c.skipFirstNTokens
      (slice (b.length / c.memoryObjs.length) b x.2) x.2 x.1

/-- The writes of the original transfer. -/
def writes (c : Call κ ο β) : List (Write κ ο β) :=
  c.blockIdsGpu.zipIdx.flatMap fun x => listWrites c x.1 x.2

/-! ## The call -/

def MemoryObj.isPending : MemoryObj κ ο → Bool
  | .obj _ => false
  | .pending _ => true

def MemoryObj.key? : MemoryObj κ ο → Option κ
  | .obj _ => none
  | .pending key => some key

/-- The keys of the placeholders of `part`. -/
def pend (part : List (MemoryObj κ ο)) : List κ := part.filterMap MemoryObj.key?

/-- `sub`, from the argument of `apply` -/
def subOf (subBatch : ℤ) : ℕ := (max 1 subBatch).toNat

/-- The call does not go to the original as it is. -/
def Call.splits (c : Call κ ο β) : Bool :=
  !(c.memoryObjs.length == 0 || !c.memoryObjs.any MemoryObj.isPending || c.direction != .h2d)

/-- `b[lo:hi]` -/
def between (lo hi : ℕ) (b : List β) : List β := (b.drop lo).take (hi - lo)

/-- The call of the original for the objects `part`, which begin at `i`. -/
def subCall (c : Call κ ο β) (i : ℕ) (part : List (MemoryObj κ ο)) : Call κ ο β where
  blockSize := c.blockSize
  blockIdsGpu := c.blockIdsGpu.map fun b =>
    between (i * (b.length / c.memoryObjs.length))
      ((i + part.length) * (b.length / c.memoryObjs.length)) b
  memoryObjs := part
  objectGroupId := c.objectGroupId
  batchSize := c.batchSize
  skipFirstNTokens := if i = 0 then c.skipFirstNTokens else 0
  direction := c.direction

/-- What `got` makes of an entry. -/
def MemoryObj.resolve (l1 : κ → Option ο) : MemoryObj κ ο → MemoryObj κ ο
  | .obj o => .obj o
  | .pending key => match l1 key with
      | some o => .obj o
      | none => .pending key

inductive Pc (κ ο : Type) where
  | start
  /-- before a round of the loop, or its end -/
  | loop (i : ℕ)
  /-- in `_resolve`, for the objects from `i` on -/
  | resolving (i : ℕ)
  /-- before the original is called -/
  | copying (i : ℕ) (part : List (MemoryObj κ ο))
  | returned
  /-- the `RuntimeError` of `_resolve`, and how many keys were missing -/
  | raised (missing : ℕ)
deriving DecidableEq, Repr

structure St (κ ο β : Type) where
  /-- the objects that are readable in L1 -/
  l1 : κ → Option ο
  pc : Pc κ ο
  /-- the calls of the original so far -/
  issued : List (Call κ ο β)

inductive Lbl (κ ο : Type) where
  /-- the branch for calls that are not split, or the beginning of the loop -/
  | enter
  /-- a round begins, or the loop ends -/
  | next
  /-- `_resolve` reads the keys; `late` says whether its deadline has passed -/
  | read (late : Bool)
  /-- the original transfer -/
  | transfer
  /-- somebody changes the L1 entry of a key -/
  | l1 (key : κ) (o : Option ο)

/-- The objects from `i` on that are transferred together: `part`. -/
def partOf (c : Call κ ο β) (sub i : ℕ) : List (MemoryObj κ ο) := (c.memoryObjs.drop i).take sub

/-- The last part may be short. -/
theorem partOf_length {c : Call κ ο β} {sub i : ℕ} :
    (partOf c sub i).length = min sub (c.memoryObjs.length - i) := by
  simp [partOf]

section Machine

variable [DecidableEq κ]

def step (c : Call κ ο β) (sub : ℕ) (s : St κ ο β) : Lbl κ ο → Option (St κ ο β)
  | .enter => match s.pc with
      | .start =>
          if c.splits then some { s with pc := .loop 0 }
          else some { s with pc := .returned, issued := s.issued ++ [c] }
      | _ => none
  | .next => match s.pc with
      | .loop i =>
          if i < c.memoryObjs.length then
            let part := partOf c sub i
            some { s with pc := if pend part = [] then .copying i part else .resolving i }
          else some { s with pc := .returned }
      | _ => none
  | .read late => match s.pc with
      | .resolving i =>
          let part := partOf c sub i
          let missing := (pend part).filter fun key => (s.l1 key).isNone
          if missing = [] then
            some { s with pc := .copying i (part.map (MemoryObj.resolve s.l1)) }
          else if late then some { s with pc := .raised missing.length }
          else some s
      | _ => none
  | .transfer => match s.pc with
      | .copying i part =>
          some { s with pc := .loop (i + sub), issued := s.issued ++ [subCall c i part] }
      | _ => none
  | .l1 key o => some { s with l1 := Function.update s.l1 key o }

def initial (l1 : κ → Option ο) : St κ ο β := ⟨l1, .start, []⟩

def machine (c : Call κ ο β) (subBatch : ℤ) : Machine (St κ ο β) (Lbl κ ο) where
  Init s := ∃ l1, s = initial l1
  step := step c (subOf subBatch)

end Machine

/-! ## Sums of lists -/

/-- The order in which two loops are nested does not matter for what comes out. -/
theorem flatMap_comm_perm {α γ δ : Type} (as : List α) (cs : List γ) (f : α → γ → List δ) :
    (as.flatMap fun a => cs.flatMap (f a)).Perm
      (cs.flatMap fun c => as.flatMap fun a => f a c) := by
  induction as with
  | nil => simp
  | cons a as ih =>
      simp only [List.flatMap_cons]
      exact (ih.append_left _).trans (List.flatMap_append_perm cs (f a) _)

/-- Sublists that are as long in total are the lists themselves. -/
theorem eq_of_length_flatMap_le {α γ : Type} {l : List α} {f g : α → List γ}
    (hsub : ∀ x ∈ l, (f x).Sublist (g x)) (hlen : (l.flatMap g).length ≤ (l.flatMap f).length) :
    ∀ x ∈ l, f x = g x := by
  induction l with
  | nil => simp
  | cons y ys ih =>
      have hhead := hsub y List.mem_cons_self
      have htail := fun x hx => hsub x (List.mem_cons_of_mem y hx)
      have hle := hhead.length_le
      have hle' := (List.Sublist.flatMap_right ys htail).length_le
      rw [List.flatMap_cons, List.flatMap_cons, List.length_append, List.length_append] at hlen
      intro x hx
      rcases List.mem_cons.mp hx with rfl | hx
      · exact hhead.eq_of_length_le (by omega)
      · exact ih htail (by omega) x hx

/-- Numbered entries of a slice carry their numbers in the whole list. -/
theorem slice_zipIdx {α : Type} (sub : ℕ) (l : List α) (j : ℕ) :
    slice sub l.zipIdx j = (slice sub l j).zipIdx (j * sub) := by
  refine List.ext_getElem? fun k => ?_
  simp only [slice, List.getElem?_take, List.getElem?_drop, List.getElem?_zipIdx, Nat.zero_add]
  split
  · rfl
  · rfl

/-- A full slice does not see what is appended. -/
theorem slice_append_left {α : Type} {sub q : ℕ} {l : List α} (l' : List α)
    (h : q * sub + sub ≤ l.length) : slice sub (l ++ l') q = slice sub l q := by
  unfold slice
  rw [List.drop_append_of_le_length (by omega), List.take_append_of_le_length]
  rw [List.length_drop]
  omega

/-- What is appended at a slice boundary is the next slice. -/
theorem slice_append_right {α : Type} {sub q : ℕ} {l l' : List α} (h : l.length = q * sub)
    (h' : l'.length ≤ sub) : slice sub (l ++ l') q = l' := by
  unfold slice
  rw [List.drop_left' h, List.take_of_length_le h']

/-- Numbering from `i` on is numbering from 0 with `i` added. -/
theorem flatMap_zipIdx {α γ : Type} (l : List α) (i : ℕ) (f : α × ℕ → List γ) :
    (l.zipIdx i).flatMap f = l.zipIdx.flatMap fun x => f (x.1, i + x.2) := by
  rw [List.zipIdx_eq_map_add, List.flatMap_map]

/-! ## The writes of a split call -/

/-- The block list of a part has the blocks of its objects. -/
theorem between_length {i p n : ℕ} {b : List β} (hmul : n ∣ b.length) (hle : i + p ≤ n) :
    (between (i * (b.length / n)) ((i + p) * (b.length / n)) b).length = p * (b.length / n) := by
  have hb : n * (b.length / n) = b.length := Nat.mul_div_cancel' hmul
  have hle' := Nat.mul_le_mul_right (b.length / n) hle
  simp only [between, List.length_take, List.length_drop]
  rw [Nat.add_mul] at hle' ⊢
  omega

/-- A run in a slice of the blocks is a run in the blocks. -/
theorem slice_between {i p j : ℕ} (cc : ℕ) (b : List β) (hj : j < p) :
    slice cc (between (i * cc) ((i + p) * cc) b) j = slice cc b (i + j) := by
  have hle := Nat.mul_le_mul_right cc (Nat.succ_le_of_lt hj)
  rw [Nat.succ_mul] at hle
  simp only [slice, between, List.drop_take, List.take_take, List.drop_drop, Nat.add_mul]
  congr 1
  omega

/-- Without a skip every token of an object is written. -/
theorem objectWrites_zero (bs g : ℕ) (run : List β) (j : ℕ) (m : MemoryObj κ ο) :
    objectWrites bs g 0 run j m = tokensOf bs g run m := by
  simp [objectWrites]

section Split

variable (c : Call κ ο β) (sub : ℕ) (b : List β) (g : ℕ)

/-- What one call writes of an object. -/
def wholeObject (x : MemoryObj κ ο × ℕ) : List (Write κ ο β) :=
  objectWrites (c.blockSize g) g c.skipFirstNTokens
    (slice (b.length / c.memoryObjs.length) b x.2) x.2 x.1

/-- What the sub-transfers write of it. -/
def splitObject (x : MemoryObj κ ο × ℕ) : List (Write κ ο β) :=
  if x.2 < sub then wholeObject c b g x
  else tokensOf (c.blockSize g) g (slice (b.length / c.memoryObjs.length) b x.2) x.1

variable {c sub b g}

/-- An object that has tokens has a first one. -/
theorem exists_token {bs : ℕ} (g : ℕ) {run : List β} (m : MemoryObj κ ο)
    (hpos : 0 < run.length * bs) : ∃ w ∈ tokensOf bs g run m, w.token = 0 := by
  cases run with
  | nil => simp at hpos
  | cons first rest =>
      have hbs : 0 < bs := Nat.pos_of_mul_pos_left hpos
      refine ⟨⟨g, first, 0, m, 0⟩, List.mem_flatMap.mpr ⟨(first, 0), ?_, ?_⟩, rfl⟩
      · exact List.mk_mem_zipIdx_iff_getElem?.mpr rfl
      · exact List.mem_map.mpr ⟨0, List.mem_range.mpr hbs, by simp⟩

/-- A write needs a token. -/
theorem pos_of_mem_tokensOf {bs : ℕ} {run : List β} {m : MemoryObj κ ο} {w : Write κ ο β}
    (hw : w ∈ tokensOf bs g run m) : 0 < run.length * bs := by
  rcases List.mem_flatMap.mp hw with ⟨x, hx, hmem⟩
  rcases List.mem_map.mp hmem with ⟨k, hk, -⟩
  have hrun := List.snd_lt_of_mem_zipIdx hx
  have hbs := List.mem_range.mp hk
  exact Nat.mul_pos (by omega) (by omega)

/-- All objects have the same number of blocks. -/
theorem slice_run_length (hmul : c.memoryObjs.length ∣ b.length) {j : ℕ}
    (hj : j < c.memoryObjs.length) :
    (slice (b.length / c.memoryObjs.length) b j).length = b.length / c.memoryObjs.length := by
  have hb := Nat.mul_div_cancel' hmul
  have hle := Nat.mul_le_mul_right (b.length / c.memoryObjs.length) (Nat.succ_le_of_lt hj)
  rw [Nat.succ_mul] at hle
  rw [length_slice]
  omega

/-- A part's call writes, within one group, what it would write as part of the whole, but
for the skip. -/
theorem listWrites_subCall (hmul : c.memoryObjs.length ∣ b.length) {i : ℕ}
    {part : List (MemoryObj κ ο)} (hi : i = 0 ∨ sub ≤ i) (hpart : part.length ≤ sub)
    (hle : part.length ≤ c.memoryObjs.length - i) :
    listWrites (subCall c i part)
        (between (i * (b.length / c.memoryObjs.length))
          ((i + part.length) * (b.length / c.memoryObjs.length)) b) g =
      (part.zipIdx i).flatMap (splitObject c sub b g) := by
  rw [flatMap_zipIdx]
  refine List.flatMap_congr fun x (hx : x ∈ part.zipIdx) => ?_
  have hlt : x.2 < part.length := List.snd_lt_of_mem_zipIdx hx
  have hpos : 0 < part.length := by omega
  have hcc : (between (i * (b.length / c.memoryObjs.length))
      ((i + part.length) * (b.length / c.memoryObjs.length)) b).length / part.length =
        b.length / c.memoryObjs.length := by
    rw [between_length hmul (by omega), Nat.mul_div_cancel_left _ hpos]
  simp only [subCall]
  rw [hcc, slice_between _ _ hlt]
  rcases hi with rfl | hi
  · have hfirst : x.2 < sub := by omega
    simp only [splitObject, wholeObject, Nat.zero_add, if_pos hfirst, if_true]
  · have hlater : ¬ i + x.2 < sub := by omega
    have hne : i ≠ 0 := by omega
    simp only [splitObject, if_neg hlater, if_neg hne, objectWrites_zero]

/-- The same over all groups. -/
theorem writes_subCall (hmul : ∀ b ∈ c.blockIdsGpu, c.memoryObjs.length ∣ b.length)
    {i : ℕ} {part : List (MemoryObj κ ο)} (hi : i = 0 ∨ sub ≤ i) (hpart : part.length ≤ sub)
    (hle : part.length ≤ c.memoryObjs.length - i) :
    writes (subCall c i part) = c.blockIdsGpu.zipIdx.flatMap fun x =>
      (part.zipIdx i).flatMap (splitObject c sub x.1 x.2) := by
  have hblocks : (subCall c i part).blockIdsGpu.zipIdx = c.blockIdsGpu.zipIdx.map (Prod.map
      (fun b => between (i * (b.length / c.memoryObjs.length))
        ((i + part.length) * (b.length / c.memoryObjs.length)) b) id) := List.zipIdx_map
  rw [writes, hblocks, List.flatMap_map]
  refine List.flatMap_congr fun x hx => ?_
  exact listWrites_subCall (hmul _ (List.fst_mem_of_mem_zipIdx hx)) hi hpart hle

/-- The sub-transfers write object by object. -/
theorem writes_subCalls
    (hmul : ∀ b ∈ c.blockIdsGpu, c.memoryObjs.length ∣ b.length) {objs : List (MemoryObj κ ο)}
    (hlen : objs.length = c.memoryObjs.length) {r : ℕ} (hr : c.memoryObjs.length ≤ r * sub) :
    ((List.range r).flatMap fun q => writes (subCall c (q * sub) (slice sub objs q))).Perm
      (c.blockIdsGpu.zipIdx.flatMap fun x => objs.zipIdx.flatMap (splitObject c sub x.1 x.2)) := by
  have hround : ∀ q, writes (subCall c (q * sub) (slice sub objs q)) =
      c.blockIdsGpu.zipIdx.flatMap fun x =>
        (slice sub objs.zipIdx q).flatMap (splitObject c sub x.1 x.2) := by
    intro q
    rw [slice_zipIdx]
    refine writes_subCall hmul ?_ ?_ ?_
    · rcases Nat.eq_zero_or_pos q with rfl | hq
      · exact .inl (Nat.zero_mul sub)
      · exact .inr (Nat.le_mul_of_pos_left sub hq)
    · rw [length_slice]
      exact Nat.min_le_left _ _
    · rw [length_slice, hlen]
      exact Nat.min_le_right _ _
  simp only [hround]
  refine (flatMap_comm_perm _ _ _).trans (List.Perm.of_eq ?_)
  refine List.flatMap_congr fun x _ => ?_
  rw [← List.flatMap_assoc, flatMap_slice, List.take_of_length_le]
  rw [List.length_zipIdx, hlen]
  exact hr

/-- The writes of the whole call, object by object. -/
theorem writes_whole {objs : List (MemoryObj κ ο)} (hlen : objs.length = c.memoryObjs.length) :
    writes { c with memoryObjs := objs } = c.blockIdsGpu.zipIdx.flatMap fun x =>
      objs.zipIdx.flatMap (wholeObject c x.1 x.2) := by
  simp only [writes, listWrites, hlen]
  rfl

/-- Splitting only ever adds writes: tokens that the whole call would have skipped. -/
theorem whole_sublist_split (x : MemoryObj κ ο × ℕ) :
    (wholeObject c b g x).Sublist (splitObject c sub b g x) := by
  unfold splitObject
  split
  · exact List.Sublist.refl _
  · exact List.filter_sublist

/-- Nothing behind the first sub-batch is skipped, in a list with `t` tokens an
object. -/
def Reaches (n sub skip t : ℕ) : Prop := sub < n → 0 < t → skip ≤ sub * t

/-- It adds none within a group just if the skip ends before the second part. -/
theorem whole_eq_split_iff (hmul : c.memoryObjs.length ∣ b.length)
    {objs : List (MemoryObj κ ο)} (hlen : objs.length = c.memoryObjs.length) :
    (∀ x ∈ objs.zipIdx, wholeObject c b g x = splitObject c sub b g x) ↔
      Reaches c.memoryObjs.length sub c.skipFirstNTokens
        (b.length / c.memoryObjs.length * c.blockSize g) := by
  constructor
  · intro heq hlt hpos
    have hlt' : sub < objs.length := by omega
    have hmem : (objs[sub], sub) ∈ objs.zipIdx := by
      rw [List.mk_mem_zipIdx_iff_getElem?]
      exact List.getElem?_eq_getElem _
    have hobj := heq _ hmem
    simp only [splitObject, wholeObject, Nat.lt_irrefl, if_false, objectWrites] at hobj
    have hrun := slice_run_length hmul hlt
    rw [hrun] at hobj
    -- the first token of the first object that is not in the first sub-batch
    rcases exists_token g objs[sub] (by rw [hrun]; exact hpos) with ⟨w, hw, htoken⟩
    have hkept := List.filter_eq_self.mp hobj w hw
    rw [htoken] at hkept
    exact of_decide_eq_true hkept
  · intro hreach x hx
    unfold splitObject
    split
    · rfl
    · rename_i hge
      have hlt : x.2 < c.memoryObjs.length := by
        have h := List.snd_lt_of_mem_zipIdx hx
        omega
      have hrun := slice_run_length hmul hlt
      refine List.filter_eq_self.mpr fun w hw => decide_eq_true ?_
      have hpos := pos_of_mem_tokensOf hw
      rw [hrun] at hpos ⊢
      have hskip := hreach (by omega) hpos
      have hle := Nat.mul_le_mul_right (b.length / c.memoryObjs.length * c.blockSize g)
        (Nat.le_of_not_lt hge)
      omega

/-- The split calls make the writes of the whole one exactly if the skip stays within the
first part. -/
theorem writes_perm_iff (hmul : ∀ b ∈ c.blockIdsGpu, c.memoryObjs.length ∣ b.length)
    {objs : List (MemoryObj κ ο)} (hlen : objs.length = c.memoryObjs.length) {r : ℕ}
    (hr : c.memoryObjs.length ≤ r * sub) :
    ((List.range r).flatMap fun q => writes (subCall c (q * sub) (slice sub objs q))).Perm
        (writes { c with memoryObjs := objs }) ↔
      ∀ x ∈ c.blockIdsGpu.zipIdx, Reaches c.memoryObjs.length sub c.skipFirstNTokens
        (x.1.length / c.memoryObjs.length * c.blockSize x.2) := by
  have hsplit := writes_subCalls hmul hlen hr
  have hmul' : ∀ x ∈ c.blockIdsGpu.zipIdx, c.memoryObjs.length ∣ x.1.length :=
    fun x hx => hmul x.1 (List.fst_mem_of_mem_zipIdx hx)
  -- a split block list writes a sublist of what the whole one writes
  have hpart : ∀ x ∈ c.blockIdsGpu.zipIdx,
      (objs.zipIdx.flatMap (wholeObject c x.1 x.2)).Sublist
        (objs.zipIdx.flatMap (splitObject c sub x.1 x.2)) :=
    fun x _ => List.Sublist.flatMap_right _ fun y _ => whole_sublist_split y
  rw [writes_whole hlen]
  constructor
  · -- sublists of the same total length are equal one by one
    intro hperm x hx
    rw [← whole_eq_split_iff (hmul' x hx) hlen]
    have hlen' := Nat.le_of_eq (hsplit.symm.trans hperm).length_eq
    have hlists := eq_of_length_flatMap_le hpart hlen' x hx
    exact eq_of_length_flatMap_le (fun y _ => whole_sublist_split y)
      (Nat.le_of_eq (congrArg List.length hlists).symm)
  · -- each block list reaches its objects, so nothing is left out
    intro hreach
    refine hsplit.trans (List.Perm.of_eq ?_)
    refine List.flatMap_congr fun x hx => List.flatMap_congr fun y hy => ?_
    exact ((whole_eq_split_iff (hmul' x hx) hlen).mpr (hreach x hx) y hy).symm

end Split

/-! ## Runs of a call -/

/-- The objects of a sequence of calls. -/
def moved (calls : List (Call κ ο β)) : List (MemoryObj κ ο) := calls.flatMap Call.memoryObjs

/-- The objects that the `j`-th call of the original is for. -/
def share (c : Call κ ο β) (sub j : ℕ) : List (MemoryObj κ ο) :=
  if c.splits then slice sub c.memoryObjs j else c.memoryObjs

section Runs

variable [DecidableEq κ] (c : Call κ ο β) (subBatch : ℤ) (l1 : κ → Option ο)

/-- `m'` is what the original gets for the entry `m`: for a placeholder, an object that
was readable under its key at some moment of the run before the `j`-th call. -/
def Supplied (as : List (Lbl κ ο)) (j : ℕ) : MemoryObj κ ο → MemoryObj κ ο → Prop
  | .obj o, m' => m' = .obj o
  | .pending key, m' => ∃ o t, m' = .obj o ∧ (machine c subBatch).Visits (initial l1) as t ∧
      t.issued.length ≤ j ∧ t.l1 key = some o

/-- Each call of the original is for its share of the objects, all readable before. -/
def Ordered (as : List (Lbl κ ο)) (s : St κ ο β) : Prop :=
  ∀ j call, s.issued[j]? = some call →
    List.Forall₂ (Supplied c subBatch l1 as j) (share c (subOf subBatch) j) call.memoryObjs

/-- The calls of the original have done what one call for all objects does. -/
structure Equal (as : List (Lbl κ ο)) (s : St κ ο β) : Prop where
  objects : List.Forall₂ (Supplied c subBatch l1 as s.issued.length) c.memoryObjs (moved s.issued)
  writes : (s.issued.flatMap writes).Perm (writes { c with memoryObjs := moved s.issued })

/-- No token behind the first sub-batch is skipped, if there are any. -/
def Fits : Prop := c.splits = true → ∀ x ∈ c.blockIdsGpu.zipIdx,
  Reaches c.memoryObjs.length (subOf subBatch) c.skipFirstNTokens
    (x.1.length / c.memoryObjs.length * c.blockSize x.2)

/-- The first `r` rounds are done. -/
structure Rounds (as : List (Lbl κ ο)) (calls : List (Call κ ο β)) (r : ℕ) : Prop where
  issued : calls = (List.range r).map fun q =>
    subCall c (q * subOf subBatch) (slice (subOf subBatch) (moved calls) q)
  objects : List.Forall₂ (Supplied c subBatch l1 as r) (c.memoryObjs.take (r * subOf subBatch))
    (moved calls)

/-- Where the call is, and what is done. -/
def At (as : List (Lbl κ ο)) (s : St κ ο β) : Prop := match s.pc with
  | .start => s.issued = []
  | .loop i => c.splits = true ∧ ∃ r, i = r * subOf subBatch ∧ Rounds c subBatch l1 as s.issued r
  | .resolving i => c.splits = true ∧ i < c.memoryObjs.length ∧
      ∃ r, i = r * subOf subBatch ∧ Rounds c subBatch l1 as s.issued r
  | .copying i part => c.splits = true ∧ i < c.memoryObjs.length ∧
      ∃ r, i = r * subOf subBatch ∧ Rounds c subBatch l1 as s.issued r ∧
        List.Forall₂ (Supplied c subBatch l1 as r) (partOf c (subOf subBatch) i) part
  | .returned => (c.splits = false ∧ s.issued = [c]) ∨
      (c.splits = true ∧ ∃ r, c.memoryObjs.length ≤ r * subOf subBatch ∧
        Rounds c subBatch l1 as s.issued r)
  | .raised missing => 0 < missing

/-- What a step can do, case by case. -/
inductive Moves (sub : ℕ) (s : St κ ο β) : St κ ο β → Prop where
  | unsplit (hpc : s.pc = .start) (hsplits : c.splits = false) :
      Moves sub s { s with pc := .returned, issued := s.issued ++ [c] }
  | entered (hpc : s.pc = .start) (hsplits : c.splits = true) :
      Moves sub s { s with pc := .loop 0 }
  | ready {i : ℕ} (hpc : s.pc = .loop i) (hi : i < c.memoryObjs.length)
      (hpend : pend (partOf c sub i) = []) :
      Moves sub s { s with pc := .copying i (partOf c sub i) }
  | waits {i : ℕ} (hpc : s.pc = .loop i) (hi : i < c.memoryObjs.length) :
      Moves sub s { s with pc := .resolving i }
  | ended {i : ℕ} (hpc : s.pc = .loop i) (hi : c.memoryObjs.length ≤ i) :
      Moves sub s { s with pc := .returned }
  | resolved {i : ℕ} (hpc : s.pc = .resolving i)
      (hall : ∀ key ∈ pend (partOf c sub i), s.l1 key ≠ none) :
      Moves sub s { s with pc := .copying i ((partOf c sub i).map (MemoryObj.resolve s.l1)) }
  | expired {i missing : ℕ} (hpc : s.pc = .resolving i) (hmissing : 0 < missing) :
      Moves sub s { s with pc := .raised missing }
  | again {i : ℕ} (hpc : s.pc = .resolving i) : Moves sub s s
  | copied {i : ℕ} {part : List (MemoryObj κ ο)} (hpc : s.pc = .copying i part) :
      Moves sub s { s with pc := .loop (i + sub), issued := s.issued ++ [subCall c i part] }
  | l1 (key : κ) (o : Option ο) : Moves sub s { s with l1 := Function.update s.l1 key o }

variable {c subBatch l1} {s s' : St κ ο β} {a : Lbl κ ο} {as : List (Lbl κ ο)}

/-- What a step can do. -/
theorem step_moves {sub : ℕ} (hst : step c sub s a = some s') : Moves c sub s s' := by
  cases a with
  | enter =>
      simp only [step] at hst
      split at hst
      · rename_i hpc
        -- no split: one call with all objects
        split at hst
        · rename_i hsplits
          cases hst
          exact .entered hpc hsplits
        · rename_i hsplits
          cases hst
          exact .unsplit hpc (by simpa using hsplits)
      · cases hst
  | next =>
      simp only [step] at hst
      split at hst
      · rename_i i hpc
        -- the next sub-batch, which may have nothing to wait for
        split at hst
        · rename_i hi
          split at hst
          · rename_i hpend
            cases hst
            exact .ready hpc hi hpend
          · cases hst
            exact .waits hpc hi
        · -- past the last sub-batch
          rename_i hi
          cases hst
          exact .ended hpc (Nat.le_of_not_lt hi)
      · cases hst
  | read late =>
      simp only [step] at hst
      split at hst
      · rename_i i hpc
        -- all keys of the sub-batch are readable now
        split at hst
        · rename_i hmissing
          cases hst
          refine .resolved hpc fun key hkey => ?_
          have hread := List.filter_eq_nil_iff.mp hmissing key hkey
          simpa using hread
        · -- some are not: the deadline has passed, or sleep and ask again
          rename_i hmissing
          split at hst
          · cases hst
            exact .expired hpc (List.length_pos_of_ne_nil hmissing)
          · cases hst
            exact .again hpc
      · cases hst
  -- the sub-batch is copied
  | transfer =>
      simp only [step] at hst
      split at hst
      · rename_i i part hpc
        cases hst
        exact .copied hpc
      · cases hst
  | l1 key o =>
      cases hst
      exact .l1 key o

/-- What has been supplied stays supplied. -/
theorem Supplied.mono {j j' : ℕ} {m m' : MemoryObj κ ο} (hj : j ≤ j')
    (h : Supplied c subBatch l1 as j m m') : Supplied c subBatch l1 as j' m m' := by
  cases m with
  | obj o => exact h
  | pending key =>
      rcases h with ⟨o, t, hm, hvisit, hle, hread⟩
      exact ⟨o, t, hm, hvisit, by omega, hread⟩

/-- Later steps do not take it back. -/
theorem Supplied.concat {j : ℕ} {m m' : MemoryObj κ ο} (h : Supplied c subBatch l1 as j m m')
    (a : Lbl κ ο) : Supplied c subBatch l1 (as ++ [a]) j m m' := by
  cases m with
  | obj o => exact h
  | pending key =>
      rcases h with ⟨o, t, hm, hvisit, hle, hread⟩
      exact ⟨o, t, hm, hvisit.concat a, hle, hread⟩

/-- Rounds that were made stay made. -/
theorem Rounds.concat {calls : List (Call κ ο β)} {r : ℕ}
    (h : Rounds c subBatch l1 as calls r) (a : Lbl κ ο) :
    Rounds c subBatch l1 (as ++ [a]) calls r :=
  ⟨h.issued, h.objects.imp fun _ _ hm => hm.concat a⟩

/-- One call a round. -/
theorem Rounds.length {calls : List (Call κ ο β)} {r : ℕ}
    (h : Rounds c subBatch l1 as calls r) : calls.length = r := by
  rw [h.issued, List.length_map, List.length_range]

/-- An entry without a placeholder is its own object. -/
theorem supplied_self {m : MemoryObj κ ο} (hm : m.key? = none) (j : ℕ) :
    Supplied c subBatch l1 as j m m := by
  cases m with
  | obj o => rfl
  | pending key => cases hm

/-- A part without placeholders supplies itself. -/
theorem forall_supplied_self {part : List (MemoryObj κ ο)} (hpend : pend part = []) (j : ℕ) :
    List.Forall₂ (Supplied c subBatch l1 as j) part part := by
  refine List.forall₂_same.mpr fun m hm => supplied_self ?_ j
  exact List.filterMap_eq_nil_iff.mp hpend m hm

/-- What `_resolve` reads. -/
theorem forall_supplied_resolve {part : List (MemoryObj κ ο)}
    (hrun : (machine c subBatch).run (initial l1) as = some s)
    (hall : ∀ key ∈ pend part, s.l1 key ≠ none) :
    List.Forall₂ (Supplied c subBatch l1 as s.issued.length) part
      (part.map (MemoryObj.resolve s.l1)) := by
  rw [List.forall₂_map_right_iff]
  refine List.forall₂_same.mpr fun m hm => ?_
  cases m with
  | obj o => rfl
  | pending key =>
      have hkey : key ∈ pend part := List.mem_filterMap.mpr ⟨.pending key, hm, rfl⟩
      rcases Option.ne_none_iff_exists'.mp (hall key hkey) with ⟨o, hread⟩
      refine ⟨o, s, ?_, Machine.visits_last hrun, Nat.le_refl _, hread⟩
      simp only [MemoryObj.resolve, hread]

/-- One more round. -/
theorem Rounds.succ {calls : List (Call κ ο β)} {r : ℕ} {part : List (MemoryObj κ ο)}
    (h : Rounds c subBatch l1 as calls r) (hi : r * subOf subBatch < c.memoryObjs.length)
    (hpart : List.Forall₂ (Supplied c subBatch l1 as r)
      (partOf c (subOf subBatch) (r * subOf subBatch)) part) :
    Rounds c subBatch l1 as (calls ++ [subCall c (r * subOf subBatch) part]) (r + 1) := by
  have hmoved : moved (calls ++ [subCall c (r * subOf subBatch) part]) = moved calls ++ part := by
    simp [moved, subCall]
  have hlen : (moved calls).length = r * subOf subBatch := by
    rw [← h.objects.length_eq, List.length_take]
    omega
  have hle : part.length ≤ subOf subBatch := by
    rw [← hpart.length_eq, partOf_length]
    exact Nat.min_le_left _ _
  constructor
  case issued =>
    rw [hmoved, List.range_succ, List.map_append, List.map_singleton, slice_append_right hlen hle]
    refine congrArg (· ++ _) (h.issued.trans (List.map_congr_left fun q hq => ?_))
    have hq' := Nat.mul_le_mul_right (subOf subBatch) (Nat.succ_le_of_lt (List.mem_range.mp hq))
    rw [Nat.succ_mul] at hq'
    rw [slice_append_left part (by omega)]
  case objects =>
    rw [hmoved, Nat.succ_mul, List.take_add]
    exact List.rel_append (h.objects.imp fun _ _ hm => hm.mono (Nat.le_succ r))
      (hpart.imp fun _ _ hm => hm.mono (Nat.le_succ r))

/-- The order of publications and calls is one of the run so far. -/
theorem Ordered.concat (h : Ordered c subBatch l1 as s) (a : Lbl κ ο) :
    Ordered c subBatch l1 (as ++ [a]) s :=
  fun j call hcall => (h j call hcall).imp fun _ _ hm => hm.concat a

/-- ... which is for its share of the objects. -/
theorem Ordered.snoc {call : Call κ ο β} (h : Ordered c subBatch l1 as s)
    (hissued : s'.issued = s.issued ++ [call])
    (hcall : List.Forall₂ (Supplied c subBatch l1 as s.issued.length)
      (share c (subOf subBatch) s.issued.length) call.memoryObjs) :
    Ordered c subBatch l1 as s' := by
  intro j call' hcall'
  rw [hissued] at hcall'
  rcases Threads.getElem?_concat_cases hcall' with ⟨rfl, rfl⟩ | hold
  · exact hcall
  · exact h j call' hold

/-- A step that leaves the call alone. -/
theorem At.concat (h : At c subBatch l1 as s) (hpc : s'.pc = s.pc) (hissued : s'.issued = s.issued)
    (a : Lbl κ ο) : At c subBatch l1 (as ++ [a]) s' := by
  unfold At at h ⊢
  rw [hpc, hissued]
  split at h
  case h_1 => exact h
  case h_2 i hi =>
    rcases h with ⟨hsplits, r, hr, hrounds⟩
    exact ⟨hsplits, r, hr, hrounds.concat a⟩
  case h_3 i hi =>
    rcases h with ⟨hsplits, hlt, r, hr, hrounds⟩
    exact ⟨hsplits, hlt, r, hr, hrounds.concat a⟩
  case h_4 i part hi =>
    rcases h with ⟨hsplits, hlt, r, hr, hrounds, hpart⟩
    exact ⟨hsplits, hlt, r, hr, hrounds.concat a, hpart.imp fun _ _ hm => hm.concat a⟩
  case h_5 =>
    rcases h with h | ⟨hsplits, r, hr, hrounds⟩
    · exact .inl h
    · exact .inr ⟨hsplits, r, hr, hrounds.concat a⟩
  case h_6 missing hi => exact h

omit [DecidableEq κ] in
/-- A call of H2D that is not split has no placeholders. -/
theorem pend_of_unsplit (hdir : c.direction = .h2d) (hsplits : c.splits = false) :
    pend c.memoryObjs = [] := by
  refine List.filterMap_eq_nil_iff.mpr fun m hm => ?_
  simp only [Call.splits, hdir, Bool.not_eq_false', Bool.or_eq_true, beq_iff_eq,
    Bool.not_eq_true', bne_self_eq_false, Bool.false_eq_true, or_false,
    List.any_eq_false] at hsplits
  rcases hsplits with hnil | hnone
  · rw [List.length_eq_zero_iff.mp hnil] at hm
    cases hm
  · cases m with
    | obj o => rfl
    | pending key => exact absurd rfl (hnone _ hm)

/-- What a step preserves. -/
theorem inv_step (hdir : c.direction = .h2d)
    (hrun : (machine c subBatch).run (initial l1) as = some s)
    (hst : (machine c subBatch).step s a = some s') (hord : Ordered c subBatch l1 as s)
    (hat : At c subBatch l1 as s) :
    Ordered c subBatch l1 (as ++ [a]) s' ∧ At c subBatch l1 (as ++ [a]) s' := by
  have hord' := hord.concat a
  cases step_moves hst
  -- unsplit: the one call is made with the objects it was given, none of them pending
  case unsplit hpc hsplits =>
    rw [At, hpc] at hat
    have hnone := pend_of_unsplit hdir hsplits
    refine ⟨hord'.snoc rfl ?_, .inl ⟨hsplits, ?_⟩⟩
    · rw [share, hsplits]
      exact forall_supplied_self hnone _
    · exact congrArg (· ++ [c]) hat
  -- no round has been made
  case entered hpc hsplits =>
    rw [At, hpc] at hat
    refine ⟨hord', hsplits, 0, (Nat.zero_mul _).symm, ?_⟩
    constructor
    · exact hat
    · simp [hat, moved]
  -- nothing to resolve in this round
  case ready i hpc hi hpend =>
    rw [At, hpc] at hat
    rcases hat with ⟨hsplits, r, hr, hrounds⟩
    exact ⟨hord', hsplits, hi, r, hr, hrounds.concat a, forall_supplied_self hpend r⟩
  case waits i hpc hi =>
    rw [At, hpc] at hat
    rcases hat with ⟨hsplits, r, hr, hrounds⟩
    exact ⟨hord', hsplits, hi, r, hr, hrounds.concat a⟩
  -- the rounds made cover the whole list
  case ended i hpc hi =>
    rw [At, hpc] at hat
    rcases hat with ⟨hsplits, r, rfl, hrounds⟩
    exact ⟨hord', .inr ⟨hsplits, r, hi, hrounds.concat a⟩⟩
  -- the objects that the polling read are those that readers supply for these keys
  case resolved i hpc hall =>
    rw [At, hpc] at hat
    rcases hat with ⟨hsplits, hi, r, hr, hrounds⟩
    have hread := forall_supplied_resolve hrun hall
    rw [hrounds.length] at hread
    exact ⟨hord', hsplits, hi, r, hr, hrounds.concat a, hread.imp fun _ _ hm => hm.concat a⟩
  case expired i missing hpc hmissing => exact ⟨hord', hmissing⟩
  case again i hpc => exact ⟨hord', hat.concat rfl rfl a⟩
  -- one more round, of the sub-batch that was resolved
  case copied i part hpc =>
    rw [At, hpc] at hat
    rcases hat with ⟨hsplits, hi, r, rfl, hrounds, hpart⟩
    have hpart' := hpart.imp fun _ _ hm => hm.concat a
    refine ⟨hord'.snoc rfl ?_, hsplits, r + 1, (Nat.succ_mul _ _).symm, ?_⟩
    · rw [share, hsplits, hrounds.length]
      exact hpart'
    · exact (hrounds.concat a).succ hi hpart'
  case l1 key o => exact ⟨hord', hat.concat rfl rfl a⟩

/-- Along every run of a host-to-device transfer: calls in order, each with its objects, and
where the loop stands. -/
theorem inv_of_run (hdir : c.direction = .h2d)
    (hrun : (machine c subBatch).run (initial l1) as = some s) :
    Ordered c subBatch l1 as s ∧ At c subBatch l1 as s := by
  have hinit : Ordered c subBatch l1 [] (initial l1) := by
    rintro j call hcall
    cases hcall
  have hstart : At c subBatch l1 [] (initial l1) := rfl
  refine Machine.run_induction_all (M := machine c subBatch)
    (fun as s => Ordered c subBatch l1 as s ∧ At c subBatch l1 as s) ⟨hinit, hstart⟩ ?_ hrun
  rintro as s a s' ⟨hord, hat⟩ hrun hst
  exact inv_step hdir hrun hst hord hat

/-- What a call that has returned did. -/
theorem equal_iff (hdir : c.direction = .h2d)
    (hmul : ∀ b ∈ c.blockIdsGpu, c.memoryObjs.length ∣ b.length)
    (hrun : (machine c subBatch).run (initial l1) as = some s) (hpc : s.pc = .returned) :
    Equal c subBatch l1 as s ↔ Fits c subBatch := by
  have hat := (inv_of_run hdir hrun).2
  rw [At, hpc] at hat
  -- unsplit: the same call on both sides
  rcases hat with ⟨hsplits, hissued⟩ | ⟨hsplits, r, hr, hrounds⟩
  · have hmoved : moved s.issued = c.memoryObjs := by simp [moved, hissued]
    constructor
    · intro _ hsplits'
      rw [hsplits] at hsplits'
      cases hsplits'
    · intro _
      constructor
      · rw [hmoved]
        exact forall_supplied_self (pend_of_unsplit hdir hsplits) _
      · rw [hmoved, hissued, List.flatMap_singleton]
  · -- split: the rounds' writes are those of the sub-calls, in order
    have hobjects := hrounds.objects
    rw [List.take_of_length_le hr] at hobjects
    have hwrites : s.issued.flatMap writes = (List.range r).flatMap fun q =>
        writes (subCall c (q * subOf subBatch) (slice (subOf subBatch) (moved s.issued) q)) := by
      conv_lhs => rw [hrounds.issued]
      rw [List.flatMap_map]
    have hiff := writes_perm_iff hmul hobjects.length_eq.symm hr
    rw [← hwrites] at hiff
    constructor
    · intro hequal _
      exact hiff.mp hequal.writes
    · -- the objects are equal anyway, so only the writes were in question
      intro hfits
      refine ⟨?_, hiff.mpr (hfits hsplits)⟩
      rw [hrounds.length]
      exact hobjects

/-! ## The call returns -/

/-- A step of the call itself. -/
def Lbl.own : Lbl κ ο → Bool
  | .l1 .. => false
  | _ => true

variable (c) in
/-- Every placeholder's key is readable. -/
def Readable (s : St κ ο β) : Prop := ∀ key, .pending key ∈ c.memoryObjs → s.l1 key ≠ none

variable (c subBatch) in
/-- Steps of its own take the call to its end. -/
def Returns (s : St κ ο β) : Prop :=
  ∃ bs s', (∀ b ∈ bs, b.own = true) ∧ (machine c subBatch).run s bs = some s' ∧ s'.pc = .returned

omit [DecidableEq κ] in
/-- A part has at least one object. -/
theorem subOf_pos (subBatch : ℤ) : 0 < subOf subBatch := by
  unfold subOf
  omega

/-- Whatever leads on to a state that returns does return. -/
theorem Returns.step (hst : (machine c subBatch).step s a = some s') (hown : a.own = true)
    (h : Returns c subBatch s') : Returns c subBatch s := by
  rcases h with ⟨bs, t, hall, hrun, hpc⟩
  refine ⟨a :: bs, t, List.forall_mem_cons.mpr ⟨hown, hall⟩, ?_, hpc⟩
  rw [Machine.run, hst]
  exact hrun

omit [DecidableEq κ] in
/-- Nothing is missing for a part. -/
theorem missing_nil (hread : Readable c s) (sub i : ℕ) :
    (pend (partOf c sub i)).filter (fun key => (s.l1 key).isNone) = [] := by
  refine List.filter_eq_nil_iff.mpr fun key hkey => ?_
  rcases List.mem_filterMap.mp hkey with ⟨m, hm, hmkey⟩
  cases m with
  | obj o => cases hmkey
  | pending key' =>
      cases hmkey
      have hmem := List.mem_of_mem_drop (List.mem_of_mem_take hm)
      simpa using hread key hmem

section Round

variable {i : ℕ} (hnext : ∀ s : St κ ο β, Readable c s → s.pc = .loop (i + subOf subBatch) →
  Returns c subBatch s)

include hnext

/-- With all keys readable the loop gets from a copy to the end. -/
theorem returns_of_copying {part : List (MemoryObj κ ο)} (hread : Readable c s)
    (hpc : s.pc = .copying i part) : Returns c subBatch s := by
  have hloop : Returns c subBatch
      { s with pc := .loop (i + subOf subBatch), issued := s.issued ++ [subCall c i part] } :=
    hnext _ hread rfl
  refine hloop.step (a := .transfer) ?_ rfl
  simp only [machine, step, hpc]

/-- It gets from the wait to the end, too. -/
theorem returns_of_resolving (hread : Readable c s) (hpc : s.pc = .resolving i) :
    Returns c subBatch s := by
  have hcopying : Returns c subBatch { s with
      pc := .copying i ((partOf c (subOf subBatch) i).map (MemoryObj.resolve s.l1)) } :=
    returns_of_copying hnext hread rfl
  refine hcopying.step (a := .read false) ?_ rfl
  simp only [machine, step, hpc, missing_nil hread, if_true]

end Round

/-- The induction is on the objects left. -/
theorem returns_of_loop (k : ℕ) {i : ℕ} (hk : c.memoryObjs.length - i ≤ k) (hread : Readable c s)
    (hpc : s.pc = .loop i) : Returns c subBatch s := by
  induction k generalizing s i with
  | zero =>
      have hi : ¬ i < c.memoryObjs.length := by omega
      refine ⟨[.next], { s with pc := .returned }, by simp [Lbl.own], ?_, rfl⟩
      rw [Machine.run_singleton]
      simp only [machine, step, hpc, if_neg hi]
  | succ k ih =>
      have hsub := subOf_pos subBatch
      have hnext : ∀ s : St κ ο β, Readable c s → s.pc = .loop (i + subOf subBatch) →
          Returns c subBatch s := fun s => ih (by omega)
      by_cases hi : i < c.memoryObjs.length
      · by_cases hpend : pend (partOf c (subOf subBatch) i) = []
        · have hcopying : Returns c subBatch
              { s with pc := .copying i (partOf c (subOf subBatch) i) } :=
            returns_of_copying hnext hread rfl
          refine hcopying.step (a := .next) ?_ rfl
          simp only [machine, step, hpc, if_pos hi, if_pos hpend]
        · have hresolving : Returns c subBatch { s with pc := .resolving i } :=
            returns_of_resolving hnext hread rfl
          refine hresolving.step (a := .next) ?_ rfl
          simp only [machine, step, hpc, if_pos hi, if_neg hpend]
      · exact ih (by omega) hread hpc

/-- A call that has not raised returns once the keys are readable. -/
theorem returns_of_readable (hread : Readable c s) (hpc : ∀ missing, s.pc ≠ .raised missing) :
    Returns c subBatch s := by
  have hloop : ∀ (i : ℕ) (s : St κ ο β), Readable c s → s.pc = .loop i → Returns c subBatch s :=
    fun i s => returns_of_loop (c.memoryObjs.length - i) (Nat.le_refl _)
  cases h : s.pc with
  | start =>
      by_cases hsplits : c.splits = true
      · have hentered : Returns c subBatch { s with pc := .loop 0 } := hloop 0 _ hread rfl
        refine hentered.step (a := .enter) ?_ rfl
        simp only [machine, step, h, if_pos hsplits]
      · refine ⟨[.enter], { s with pc := .returned, issued := s.issued ++ [c] },
          by simp [Lbl.own], ?_, rfl⟩
        rw [Machine.run_singleton]
        simp only [machine, step, h, if_neg hsplits]
  | loop i => exact hloop i s hread h
  | resolving i => exact returns_of_resolving (hloop _) hread h
  | copying i part => exact returns_of_copying (hloop _) hread h
  | returned => exact ⟨[], s, by simp, rfl, h⟩
  | raised missing => exact absurd h (hpc missing)

/-- The objects are read before they are transferred; a call that has returned did
what one transfer does exactly if that skips nothing behind the first sub-batch;
and it returns once everything is readable. -/
theorem split_transfer (hdir : c.direction = .h2d)
    (hmul : ∀ b ∈ c.blockIdsGpu, c.memoryObjs.length ∣ b.length)
    (hrun : (machine c subBatch).run (initial l1) as = some s) :
    Ordered c subBatch l1 as s ∧
      (s.pc = .returned → (Equal c subBatch l1 as s ↔ Fits c subBatch)) ∧
      (Readable c s → (∀ missing, s.pc ≠ .raised missing) → Returns c subBatch s) :=
  ⟨(inv_of_run hdir hrun).1, equal_iff hdir hmul hrun, returns_of_readable⟩

end Runs

/-! ## Two objects in two sub-batches -/

/-- One token in an object. -/
def twoObjects (skip : ℕ) : Call ℕ ℕ ℕ where
  blockSize _ := 1
  blockIdsGpu := [[10, 20]]
  memoryObjs := [.pending 0, .pending 1]
  objectGroupId := 0
  batchSize := 2
  skipFirstNTokens := skip
  direction := .h2d

/-- The second key lands after the first object was transferred. -/
def inTurn : List (Lbl ℕ ℕ) :=
  [.enter, .next, .l1 0 (some 100), .read false, .transfer, .next, .read false, .l1 1 (some 101),
    .read true, .transfer, .next]

def nothing : ℕ → Option ℕ := fun _ => none

/-- Two objects in turn, copied by two calls. -/
theorem inTurn_equal : ∃ s, (machine (twoObjects 1) 1).run (initial nothing) inTurn = some s ∧
    s.pc = .returned ∧ Ordered (twoObjects 1) 1 nothing inTurn s ∧
      Equal (twoObjects 1) 1 nothing inTurn s := by
  have hrun : ((machine (twoObjects 1) 1).run (initial nothing) inTurn).map St.pc =
      some .returned := by
    decide
  rcases Option.map_eq_some_iff.mp hrun with ⟨s, hs, hpc⟩
  have hmul : ∀ b ∈ (twoObjects 1).blockIdsGpu, (twoObjects 1).memoryObjs.length ∣ b.length := by
    decide
  have hfits : Fits (twoObjects 1) 1 := by
    intro _ x hx _ _
    cases List.mem_singleton.mp hx
    exact Nat.le_refl 1
  have htransfer := split_transfer rfl hmul hs
  exact ⟨s, hs, hpc, htransfer.1, (htransfer.2.1 hpc).mpr hfits⟩

/-- One transfer skips both tokens; the second sub-transfer writes its one. -/
theorem skip_two_not_equal : ∃ s, (machine (twoObjects 2) 1).run (initial nothing) inTurn = some s ∧
    s.pc = .returned ∧ s.issued.flatMap writes = [⟨0, 20, 0, .obj 101, 0⟩] ∧
      writes { twoObjects 2 with memoryObjs := moved s.issued } = [] ∧
        ¬ Equal (twoObjects 2) 1 nothing inTurn s := by
  have hrun : ((machine (twoObjects 2) 1).run (initial nothing) inTurn).map
      (fun s => (s.pc, s.issued.flatMap writes,
        writes { twoObjects 2 with memoryObjs := moved s.issued })) =
      some (.returned, [⟨0, 20, 0, .obj 101, 0⟩], []) := by
    decide
  rcases Option.map_eq_some_iff.mp hrun with ⟨s, hs, hall⟩
  simp only [Prod.mk.injEq] at hall
  rcases hall with ⟨hpc, hsplit, hwhole⟩
  refine ⟨s, hs, hpc, hsplit, hwhole, fun hequal => ?_⟩
  have hwrites := hequal.writes
  rw [hsplit, hwhole] at hwrites
  exact List.not_perm_cons_nil hwrites

end LmcacheDaos.Mp.Transfer
