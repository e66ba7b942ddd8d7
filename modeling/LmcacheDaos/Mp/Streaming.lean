import Mathlib.Data.List.Flatten
import Mathlib.Data.List.GetD
import Mathlib.Data.List.Nodup
import Mathlib.Data.List.Perm.Basic
import LmcacheDaos.Lib.Machine

/-!
# Splitting a load

`StreamingL2Proxy` (`mp/streaming_patch.py`) hands a load to the inner adapter in
sub-batches, and a poll of the load asks for those whose result it does not have
yet, publishes the keys of each that has come, and puts the result together when
all have.

The machine is one load with one poller. Sub-tasks complete in any order, also
between two queries of one poll; a step is a sub-task's `_completed_load` entry,
the beginning of a poll, one round of its loop, or its end. `_load_one` of a key
returns its bit or raises past its `except`; `_execute_load` then leaves the whole
bitmap clear under the FIFO schedule, and `_FairDispatcher` makes it one clear bit.

Result (`split_load_faithful`): a poll returns None until one that finds all
sub-tasks completed, which returns the bitmaps of the sub-tasks put together;
polls after it return None. Each sub-task's loaded keys are published once, after
it completed, and no other key is.

The bitmap is the one of the task that was not split unless a key raises under
FIFO: that spoils the bits of its own sub-batch, and of the whole task when there
is no other. A key that is given twice is loaded, and published, twice.
-/

namespace LmcacheDaos.Mp.Streaming

open Lib

/-! ## Bitmaps and slices -/

abbrev Bitmap := List Bool

/-- `Bitmap.test` -/
def test (bm : Bitmap) (i : ℕ) : Bool := bm.getD i false

/-- What `_load_one` comes to: its bit, or an exception that it does not catch. -/
inductive LoadOne where
  | loaded
  | failed
  | raised
deriving DecidableEq, Repr

/-- The bitmap of the inner adapter's `_execute_load`: it loads the keys that have an
object. `list(pool.map(..))` raises what an item raised, before any bit is set;
`_FairDispatcher.run` has `False` for it. -/
def executeLoad (fair : Bool) (keys objects : ℕ) (outcome : ℕ → LoadOne) : Bitmap :=
  let items := (List.range (min keys objects)).map outcome
  if fair = false ∧ .raised ∈ items then List.replicate keys false
  else (List.range keys).map fun i => decide (items[i]? = some .loaded)

/-- `l[j * sub : (j + 1) * sub]` -/
def slice {α : Type} (sub : ℕ) (l : List α) (j : ℕ) : List α := (l.drop (j * sub)).take sub

/-- The rounds of `range(0, n, sub)`. -/
def rounds (sub n : ℕ) : ℕ := (n + sub - 1) / sub

/-! ## The load -/

variable {K : Type}

/-- A call of `submit_load_task`, and what the rest of the system makes of it. -/
structure Load (K : Type) where
  keys : List K
  /-- the number of objects -/
  objects : ℕ
  /-- `load_schedule` of the inner adapter is `fair` -/
  fair : Bool
  /-- what loading the `i`-th key into the `i`-th object comes to -/
  outcome : ℕ → LoadOne
  /-- the `sub` that the proxy was made with -/
  sub : ℤ
  /-- the inner adapter's ids for the sub-tasks -/
  tids : ℕ → ℕ
  tids_inj : Function.Injective tids
  /-- the proxy's id for the load -/
  taskId : ℕ
  /-- `_state["l1"]` is set -/
  l1 : Bool

/-- `self._sub` -/
def Load.size (L : Load K) : ℕ := (max 1 L.sub).toNat

def Load.count (L : Load K) : ℕ := rounds L.size L.keys.length

/-- `ks` of the `j`-th sub-task -/
def Load.keysOf (L : Load K) (j : ℕ) : List K := slice L.size L.keys j

/-- What the inner adapter records for the `j`-th sub-task: it has a slice of the
keys and one of the objects. -/
def Load.bits (L : Load K) (j : ℕ) : Bitmap :=
  executeLoad L.fair (L.keysOf j).length (min L.size (L.objects - j * L.size))
    fun i => L.outcome (j * L.size + i)

/-- What it would record for the whole load as one task. -/
def Load.unsplit (L : Load K) : Bitmap := executeLoad L.fair L.keys.length L.objects L.outcome

/-- An entry of `st["subs"]` -/
structure Sub (K : Type) where
  tid : ℕ
  keys : List K
  bm : Option Bitmap

/-- `submit_load_task` -/
def submitLoadTask (L : Load K) : List (Sub K) :=
  (List.range L.count).map fun j => ⟨L.tids j, L.keysOf j, none⟩

/-! ## Polls -/

/-- What becomes visible to others when keys are published. -/
inductive Event (K : Type) where
  /-- into `_early` -/
  | early (keys : List K)
  /-- the original `finish_write_and_reserve_read` -/
  | finishWriteAndReserveRead (keys : List K)
  /-- into `_ready`, and the waiters are notified -/
  | ready (keys : List K)

/-- `ok` -/
def okKeys (keys : List K) (bm : Bitmap) : List K :=
  (keys.zipIdx.filter fun p => test bm p.2).map Prod.fst

def publish (l1 : Bool) (ok : List K) : List (Event K) :=
  if ok ≠ [] ∧ l1 = true then [.early ok, .finishWriteAndReserveRead ok, .ready ok] else []

/-- `for i in range(n): if bm.test(i): out.set(pos + i)` -/
def setBits (pos n : ℕ) (bm : Bitmap) (out : Bitmap) : Bitmap :=
  (List.range n).foldl (fun out i => if test bm i then out.set (pos + i) true else out) out

/-- The loop that puts `out` together. -/
def assemble : ℕ → Bitmap → List (Sub K) → Bitmap
  | _, out, [] => out
  | pos, out, s :: subs =>
      assemble (pos + s.keys.length) (setBits pos s.keys.length (s.bm.getD []) out) subs

inductive Pc where
  | idle
  /-- in the loop over `st["subs"]`; `all` says whether every sub-task had
  completed when the poll began (not kept by the code) -/
  | scanning (i : ℕ) (all : Bool)
deriving DecidableEq, Repr

/-- What a poll returned, and whether all sub-tasks had completed when it began
and when it ended. -/
structure Answer where
  before : Bool
  after : Bool
  result : Option Bitmap
deriving DecidableEq, Repr

structure St (K : Type) where
  /-- the entry of the load in `_outer` -/
  subs : List (Sub K)
  /-- it is still there -/
  registered : Bool
  /-- the inner adapter's `_completed_load` -/
  results : ℕ → Option Bitmap
  /-- sub-tasks that have completed -/
  completed : ℕ → Bool
  pc : Pc
  /-- the publications so far -/
  log : List (Event K)
  /-- the sub-tasks whose result was taken, in their order (not kept by the code) -/
  order : List ℕ
  /-- the answers so far (not kept by the code) -/
  answers : List Answer

def allDone (L : Load K) (s : St K) : Bool := (List.range L.count).all s.completed

inductive Lbl where
  /-- the inner adapter records the `j`-th sub-task -/
  | complete (j : ℕ)
  /-- a `query_load_result` of the load begins -/
  | query
  /-- one round of its loop -/
  | scan
  /-- what comes after the loop -/
  | finish
deriving DecidableEq, Repr

def step (L : Load K) (s : St K) : Lbl → Option (St K)
  | .complete j =>
      if j < L.count ∧ s.completed j = false then
        some { s with
          results := Function.update s.results (L.tids j) (some (L.bits j))
          completed := Function.update s.completed j true }
      else none
  | .query => match s.pc with
      | .idle =>
          if s.registered then some { s with pc := .scanning 0 (allDone L s) }
          else
            -- `st is None`: the inner adapter is asked for the same id
            some { s with
              results := Function.update s.results L.taskId none
              answers := s.answers ++ [⟨allDone L s, allDone L s, s.results L.taskId⟩] }
      | _ => none
  | .scan => match s.pc with
      | .scanning i all => match s.subs[i]? with
          | none => none
          | some sub => match sub.bm, s.results sub.tid with
              | none, some bm => some { s with
                  subs := s.subs.set i { sub with bm := some bm }
                  results := Function.update s.results sub.tid none
                  pc := .scanning (i + 1) all
                  log := s.log ++ publish L.l1 (okKeys sub.keys bm)
                  order := s.order ++ [i] }
              | _, _ => some { s with pc := .scanning (i + 1) all }
      | _ => none
  | .finish => match s.pc with
      | .scanning i all =>
          if i < s.subs.length then none
          else if s.subs.any (·.bm.isNone) then
            some { s with pc := .idle, answers := s.answers ++ [⟨all, allDone L s, none⟩] }
          else
            let out := assemble 0 (List.replicate L.keys.length false) s.subs
            some { s with
              pc := .idle
              registered := false
              answers := s.answers ++ [⟨all, allDone L s, some out⟩] }
      | _ => none

def initial (L : Load K) : St K :=
  ⟨submitLoadTask L, true, fun _ => none, fun _ => false, .idle, [], [], []⟩

def machine (L : Load K) : Machine (St K) Lbl where
  Init s := s = initial L
  step := step L

/-! ## The law -/

/-- A poll that returned None, and had not found everything completed. -/
def Answer.IsEarly (a : Answer) : Prop := a.result = none ∧ a.before = false

/-- Polls before the result, the result, polls after it. -/
structure Delivered (bits : Bitmap) (answers : List Answer) : Prop where
  once : ∃ early late : List Answer, ∃ a, answers = early ++ a :: late ∧
    (∀ x ∈ early, x.IsEarly) ∧ a.result = some bits ∧ a.after = true ∧
    ∀ x ∈ late, x.result = none

/-- Some key that has an object raised. -/
def raises (keys objects : ℕ) (outcome : ℕ → LoadOne) : Bool :=
  (List.range (min keys objects)).any fun k => decide (outcome k = .raised)

/-- Under FIFO, a key of the `j`-th sub-task raised. -/
def Load.spoilt (L : Load K) (j : ℕ) : Bool :=
  !L.fair && raises (L.keysOf j).length (L.objects - j * L.size) fun i =>
    L.outcome (j * L.size + i)

/-- The bits of a split load: a key is loaded, and no key of its sub-task spoilt it. -/
def Load.assembled (L : Load K) : Bitmap := (List.range L.keys.length).map fun i =>
  decide (i < L.objects) && decide (L.outcome i = .loaded) && !L.spoilt (i / L.size)

/-- The publication of the `j`-th sub-task. -/
def Load.publication (L : Load K) (j : ℕ) : List (Event K) :=
  publish L.l1 (okKeys (L.keysOf j) (L.bits j))

/-- The keys added to `_early`. -/
def earlyKeys (log : List (Event K)) : List K :=
  log.flatMap fun
    | .early keys => keys
    | _ => []

/-- The keys given to `finish_write_and_reserve_read`, in order. -/
def published (log : List (Event K)) : List K :=
  log.flatMap fun
    | .finishWriteAndReserveRead keys => keys
    | _ => []

/-- The keys marked ready, in order. -/
def marked (log : List (Event K)) : List K :=
  log.flatMap fun
    | .ready keys => keys
    | _ => []

/-- `_patched_fwrr`, the `finish_write_and_reserve_read` of everybody else: what is
left of `_early`, and the keys the original is called with, if any. -/
def patchedFwrr [DecidableEq K] (early keys : List K) : List K × List K :=
  let skip := keys.filter (· ∈ early)
  (early.filter (· ∉ skip), keys.filter (· ∉ skip))

structure Faithful [DecidableEq K] (L : Load K) (s : St K) : Prop where
  answers : (∀ a ∈ s.answers, a.IsEarly) ∨ Delivered L.assembled s.answers
  /-- the bits are those of the unsplit task unless a key raises under FIFO -/
  unsplit : L.fair = true ∨ (∀ i < min L.keys.length L.objects, L.outcome i ≠ .raised) →
    L.assembled = L.unsplit
  /-- one publication for each sub-task taken, which has completed -/
  log : ∃ order : List ℕ, order.Nodup ∧ (∀ j ∈ order, j < L.count ∧ s.completed j = true) ∧
    s.log = order.flatMap L.publication
  /-- keys that are given once are published at most once -/
  once : L.keys.Nodup → (published s.log).Nodup
  /-- with the result, every loaded key is published and marked -/
  all : Delivered L.assembled s.answers → L.l1 = true →
    (published s.log).Perm (okKeys L.keys L.assembled) ∧
      (marked s.log).Perm (okKeys L.keys L.assembled)
  /-- whoever finishes the load's keys then does not publish them again -/
  again : Delivered L.assembled s.answers → L.l1 = true →
    (patchedFwrr (earlyKeys s.log) (okKeys L.keys L.assembled)).2 = []

/-! ## Slices put together -/

/-- Slices one after the other are the list as far as they go. -/
theorem flatMap_slice (sub c : ℕ) {α : Type} (l : List α) :
    (List.range c).flatMap (slice sub l) = l.take (c * sub) := by
  induction c with
  | zero => simp
  | succ c ih =>
      rw [List.range_succ, List.flatMap_append, ih, Nat.succ_mul, List.take_add,
        List.flatMap_singleton]
      rfl

/-- There are enough slices for the list. -/
theorem le_rounds_mul {sub : ℕ} (hsub : 0 < sub) (n : ℕ) : n ≤ rounds sub n * sub := by
  have h := Nat.lt_div_mul_add (a := n + sub - 1) hsub
  unfold rounds
  omega

/-- All slices together are the list. -/
theorem flatMap_slice_rounds {sub : ℕ} (hsub : 0 < sub) {α : Type} {l : List α} {n : ℕ}
    (hn : l.length = n) : (List.range (rounds sub n)).flatMap (slice sub l) = l := by
  rw [flatMap_slice, List.take_of_length_le]
  rw [hn]
  exact le_rounds_mul hsub n

/-- The last slice may be short. -/
theorem length_slice (sub : ℕ) {α : Type} (l : List α) (j : ℕ) :
    (slice sub l j).length = min sub (l.length - j * sub) := by
  simp [slice]

@[simp] theorem length_executeLoad (fair : Bool) (keys objects : ℕ) (outcome : ℕ → LoadOne) :
    (executeLoad fair keys objects outcome).length = keys := by
  unfold executeLoad
  simp only
  split <;> simp

/-- A bit of an inner task: the key has an object and is loaded, and under FIFO no key
raised. -/
theorem getElem_executeLoad {fair : Bool} {keys objects : ℕ} {outcome : ℕ → LoadOne} {i : ℕ}
    (hi : i < (executeLoad fair keys objects outcome).length) :
    (executeLoad fair keys objects outcome)[i] = (decide (i < objects) &&
      decide (outcome i = .loaded) && !(!fair && raises keys objects outcome)) := by
  have hlt : i < keys := by simpa using hi
  have hraised : .raised ∈ (List.range (min keys objects)).map outcome ↔
      raises keys objects outcome = true := by
    simp [raises, List.any_eq_true]
  -- the job of this key has loaded it
  have hitem : ((List.range (min keys objects)).map outcome)[i]? = some .loaded ↔
      i < objects ∧ outcome i = .loaded := by
    rw [List.getElem?_map, Option.map_eq_some_iff]
    constructor
    · rintro ⟨k, hk, hload⟩
      obtain ⟨hki, rfl⟩ := List.getElem?_eq_some_iff.mp hk
      rw [List.length_range] at hki
      rw [List.getElem_range] at hload
      exact ⟨by omega, hload⟩
    · rintro ⟨hobj, hload⟩
      exact ⟨i, List.getElem?_range (by omega), hload⟩
  unfold executeLoad
  simp only [hraised]
  split
  · -- FIFO, and some job raised: the bitmap is all zero
    rename_i hspoilt
    simp [hspoilt]
  · -- otherwise each bit is its own job's
    rename_i hplain
    have hclear : (!fair && raises keys objects outcome) = false := by
      cases fair <;> simp_all
    rw [List.getElem_map, List.getElem_range, hclear, Bool.not_false, Bool.and_true,
      ← Bool.decide_and]
    exact decide_eq_decide.mpr hitem

/-- A sub-batch has at least one key. -/
theorem Load.size_pos (L : Load K) : 0 < L.size := by
  unfold Load.size
  omega

@[simp] theorem Load.length_assembled (L : Load K) : L.assembled.length = L.keys.length := by
  simp [Load.assembled]

/-- A sub-task records its part of the bits. -/
theorem Load.bits_eq (L : Load K) (j : ℕ) : L.bits j = slice L.size L.assembled j := by
  -- both have one bit for each key of the sub-batch
  have hlen : (L.bits j).length = (slice L.size L.assembled j).length := by
    rw [Load.bits, length_executeLoad, Load.keysOf, length_slice, length_slice, length_assembled]
  apply List.ext_getElem hlen
  intro i hi hi'
  have hsize : i < L.size ∧ j * L.size + i < L.keys.length := by
    rw [length_slice, length_assembled] at hi'
    omega
  -- this bit's sub-batch is `j`
  have hsub : (j * L.size + i) / L.size = j := by
    rw [Nat.add_comm, Nat.add_mul_div_right _ _ L.size_pos, Nat.div_eq_of_lt hsize.1, Nat.zero_add]
  have hitems : min (L.keysOf j).length (min L.size (L.objects - j * L.size)) =
      min (L.keysOf j).length (L.objects - j * L.size) := by
    rw [Load.keysOf, length_slice]
    omega
  have hobj : i < min L.size (L.objects - j * L.size) ↔ j * L.size + i < L.objects := by omega
  have hright : (slice L.size L.assembled j)[i] =
      (decide (j * L.size + i < L.objects) && decide (L.outcome (j * L.size + i) = .loaded) &&
        !L.spoilt j) := by
    simp [slice, Load.assembled, hsub]
  have hleft : (L.bits j)[i] =
      (decide (i < min L.size (L.objects - j * L.size)) &&
        decide (L.outcome (j * L.size + i) = .loaded) &&
        !(!L.fair && raises (L.keysOf j).length (min L.size (L.objects - j * L.size)) fun k =>
          L.outcome (j * L.size + k))) := getElem_executeLoad hi
  rw [hleft, hright, Load.spoilt, raises, raises, hitems, decide_eq_decide.mpr hobj]

/-- Under the fair schedule, and when no key raises, splitting changes no bit. -/
theorem Load.assembled_eq_unsplit (L : Load K)
    (h : L.fair = true ∨ ∀ i < min L.keys.length L.objects, L.outcome i ≠ .raised) :
    L.assembled = L.unsplit := by
  have hwhole : (!L.fair && raises L.keys.length L.objects L.outcome) = false := by
    rcases h with hfair | hnone
    · simp [hfair]
    · simpa [raises] using fun _ => hnone
  have hpart : ∀ j, L.spoilt j = false := by
    intro j
    rcases h with hfair | hnone
    · simp [Load.spoilt, hfair]
    · simp only [Load.spoilt, raises, Bool.and_eq_false_imp, List.any_eq_false, List.mem_range,
        decide_eq_true_eq]
      intro _ i hi
      apply hnone
      rw [Load.keysOf, length_slice] at hi
      omega
  apply List.ext_getElem (by simp [Load.unsplit])
  intro i hi hi'
  have hunsplit : L.unsplit[i] = (decide (i < L.objects) && decide (L.outcome i = .loaded) &&
      !(!L.fair && raises L.keys.length L.objects L.outcome)) := getElem_executeLoad hi'
  rw [hunsplit, hwhole]
  simp [Load.assembled, hpart]

/-- The loaded keys are keys of the load, in order. -/
theorem okKeys_sublist (keys : List K) (bm : Bitmap) : (okKeys keys bm).Sublist keys := by
  have hkept := (List.filter_sublist (p := fun p => test bm p.2) (l := keys.zipIdx)).map Prod.fst
  rwa [List.zipIdx_map_fst] at hkept

/-- What `okKeys` keeps, as a function of key and bit. -/
def loadedKey (p : K × Bool) : Option K := if p.2 = true then some p.1 else none

/-- They are the keys whose bit is set. -/
theorem okKeys_eq {keys : List K} {bm : Bitmap} (h : bm.length = keys.length) :
    okKeys keys bm = (keys.zip bm).filterMap loadedKey := by
  have hshift : ∀ (n : ℕ) (keys : List K) (bm front : Bitmap), front.length = n →
      bm.length = keys.length →
      ((keys.zipIdx n).filter fun p => test (front ++ bm) p.2).map Prod.fst =
        (keys.zip bm).filterMap loadedKey := by
    intro n keys
    induction keys generalizing n with
    | nil => intro bm front _ _; rfl
    | cons k keys ih =>
        intro bm front hn hlen
        cases bm with
        | nil => cases hlen
        | cons b bm =>
            have htest : test (front ++ b :: bm) n = b := by
              rw [test, List.getD_append_right _ _ _ _ (Nat.le_of_eq hn), hn, Nat.sub_self]
              rfl
            have hrest := ih (n + 1) bm (front ++ [b]) (by simp [hn]) (Nat.succ.inj hlen)
            rw [List.append_assoc] at hrest
            rw [List.zipIdx_cons, List.filter_cons, List.zip_cons_cons, List.filterMap_cons]
            simp only [htest, loadedKey]
            cases b with
            | true =>
                simp only [if_true, List.map_cons]
                exact congrArg (k :: ·) hrest
            | false => exact hrest
  exact hshift 0 keys bm [] rfl h

/-- Slicing keys and bits alike. -/
theorem slice_zip (sub : ℕ) {α β : Type} (as : List α) (bs : List β) (j : ℕ) :
    (slice sub as j).zip (slice sub bs j) = slice sub (as.zip bs) j := by
  simp only [slice, List.zip, List.take_zipWith, List.drop_zipWith]

/-- The loaded keys, sub-task by sub-task. -/
theorem flatMap_okKeys (L : Load K) :
    (List.range L.count).flatMap (fun j => okKeys (L.keysOf j) (L.bits j)) =
      okKeys L.keys L.assembled := by
  have hlen : L.assembled.length = L.keys.length := L.length_assembled
  have hpart : ∀ j, okKeys (L.keysOf j) (L.bits j) =
      (slice L.size (L.keys.zip L.assembled) j).filterMap loadedKey := by
    intro j
    have hbits : (L.bits j).length = (L.keysOf j).length := length_executeLoad ..
    rw [okKeys_eq hbits, L.bits_eq, Load.keysOf, slice_zip]
  rw [okKeys_eq hlen, ← flatMap_slice_rounds (n := L.keys.length) L.size_pos
    (l := L.keys.zip L.assembled) (by simp [hlen]), List.filterMap_flatMap]
  exact List.flatMap_congr fun j _ => hpart j

/-- The inner loop of the assembly fills in one sub-task. -/
theorem setBits_eq {pos n : ℕ} {front bm : Bitmap} (hfront : front.length = pos)
    (hbm : bm.length = n) (m : ℕ) :
    setBits pos n bm (front ++ List.replicate (n + m) false) =
      front ++ bm ++ List.replicate m false := by
  have hpart : ∀ c, c ≤ n → (List.range c).foldl
      (fun out i => if test bm i then out.set (pos + i) true else out)
      (front ++ List.replicate (n + m) false) =
        front ++ bm.take c ++ List.replicate (n + m - c) false := by
    intro c
    induction c with
    | zero => intro _; simp
    | succ c ih =>
        intro hc
        have hlt : c < bm.length := by omega
        have hrep : List.replicate (n + m - c) false =
            false :: List.replicate (n + m - (c + 1)) false := by
          rw [show n + m - c = n + m - (c + 1) + 1 by omega, List.replicate_succ]
        have htest : test bm c = bm[c] := List.getD_eq_getElem _ _ hlt
        have hpos : pos + c = (front ++ bm.take c).length := by
          rw [List.length_append, List.length_take]
          omega
        rw [List.range_succ, List.foldl_append, ih (by omega), List.foldl_cons, List.foldl_nil,
          htest, hrep, List.take_succ_eq_append_getElem hlt, ← List.append_assoc front,
          List.append_assoc (front ++ bm.take c), List.singleton_append]
        -- the bit is set, or stays false as it was
        split
        · rename_i hbit
          rw [hpos, List.set_append_right _ _ (Nat.le_refl _), Nat.sub_self, hbit]
          rfl
        · rename_i hbit
          rw [Bool.not_eq_true] at hbit
          rw [hbit]
  rw [setBits, hpart n (Nat.le_refl n), List.take_of_length_le (Nat.le_of_eq hbm),
    Nat.add_sub_cancel_left]

/-- The assembly concatenates the bitmaps of the sub-tasks. -/
theorem assemble_eq {subs : List (Sub K)} {bits : ℕ → Bitmap}
    (h : ∀ j sub, subs[j]? = some sub → sub.bm = some (bits j) ∧
      (bits j).length = sub.keys.length) (front : Bitmap) :
    assemble front.length
        (front ++ List.replicate ((List.range subs.length).flatMap bits).length false) subs =
      front ++ (List.range subs.length).flatMap bits := by
  induction subs generalizing bits front with
  | nil => simp [assemble]
  | cons s subs ih =>
      rcases h 0 s rfl with ⟨hbm, hlen⟩
      have hrest := @ih (fun j => bits (j + 1)) (fun j sub hget => h (j + 1) sub hget)
        (front ++ bits 0)
      have hsplit : (List.range (s :: subs).length).flatMap bits =
          bits 0 ++ (List.range subs.length).flatMap fun j => bits (j + 1) := by
        rw [List.length_cons, List.range_succ_eq_map, List.flatMap_cons, List.flatMap_map]
      rw [assemble, hbm, hsplit, List.length_append, hlen]
      show assemble _ (setBits _ _ (bits 0) _) subs = _
      rw [setBits_eq rfl hlen, ← hlen, ← List.length_append, hrest, List.append_assoc]

/-- Once every sub-task has left its bits, the assembled bitmap has them all. -/
theorem Load.assemble_eq (L : Load K) {subs : List (Sub K)} (hlen : subs.length = L.count)
    (h : ∀ j sub, subs[j]? = some sub → sub.bm = some (L.bits j) ∧ sub.keys = L.keysOf j) :
    assemble 0 (List.replicate L.keys.length false) subs = L.assembled := by
  have hassembled : L.assembled.length = L.keys.length := L.length_assembled
  have hbits : (List.range subs.length).flatMap L.bits = L.assembled := by
    rw [hlen, List.flatMap_congr fun j _ => L.bits_eq j]
    exact flatMap_slice_rounds L.size_pos hassembled
  have hparts : ∀ j sub, subs[j]? = some sub → sub.bm = some (L.bits j) ∧
      (L.bits j).length = sub.keys.length := by
    intro j sub hget
    rcases h j sub hget with ⟨hbm, hkeys⟩
    refine ⟨hbm, ?_⟩
    rw [hkeys]
    exact length_executeLoad ..
  have hall := Streaming.assemble_eq hparts []
  rw [hbits, hassembled] at hall
  exact hall

/-! ## The invariant -/

/-- The entry of the `j`-th sub-task when those of `order` have been taken. -/
def Load.subAt (L : Load K) (order : List ℕ) (j : ℕ) : Sub K :=
  ⟨L.tids j, L.keysOf j, if j ∈ order then some (L.bits j) else none⟩

/-- What the inner adapter holds for it. -/
def Load.resultAt (L : Load K) (order : List ℕ) (completed : ℕ → Bool) (j : ℕ) : Option Bitmap :=
  if completed j = true ∧ j ∉ order then some (L.bits j) else none

structure Inv (L : Load K) (s : St K) : Prop where
  subs : s.subs = (List.range L.count).map (L.subAt s.order)
  results : ∀ j, j < L.count → s.results (L.tids j) = L.resultAt s.order s.completed j
  others : ∀ t, (∀ j, j < L.count → t ≠ L.tids j) → s.results t = none
  nodup : s.order.Nodup
  taken : ∀ j ∈ s.order, j < L.count ∧ s.completed j = true
  log : s.log = s.order.flatMap L.publication
  /-- a poll that found everything completed takes every sub-task it passes -/
  scanning : ∀ i all, s.pc = .scanning i all → s.registered = true ∧
    (all = true → ∀ j, j < L.count → s.completed j = true ∧ (j < i → j ∈ s.order))
  early : s.registered = true → ∀ a ∈ s.answers, a.IsEarly
  gone : s.registered = false → (∀ j, j < L.count → j ∈ s.order) ∧ Delivered L.assembled s.answers

/-- The sub-tasks stay as many as they were. -/
theorem Inv.length {L : Load K} {s : St K} (h : Inv L s) : s.subs.length = L.count := by
  rw [h.subs, List.length_map, List.length_range]

/-- Each sub-task has its keys, and its bits once it was taken. -/
theorem Inv.getElem {L : Load K} {s : St K} (h : Inv L s) {j : ℕ} {sub : Sub K}
    (hget : s.subs[j]? = some sub) : j < L.count ∧ sub = L.subAt s.order j := by
  rw [h.subs, List.getElem?_map, Option.map_eq_some_iff] at hget
  rcases hget with ⟨i, hi, hsub⟩
  rcases List.getElem?_eq_some_iff.mp hi with ⟨hlt, hij⟩
  rw [List.length_range] at hlt
  rw [List.getElem_range] at hij
  rw [← hij] at hsub
  exact ⟨hlt, hsub.symm⟩

/-- No sub-task has been taken at first. -/
theorem inv_initial (L : Load K) : Inv L (initial L) where
  subs := rfl
  results _ _ := rfl
  others _ _ := rfl
  nodup := List.nodup_nil
  taken _ hj := absurd hj List.not_mem_nil
  log := rfl
  scanning _ _ hpc := Pc.noConfusion hpc
  early _ _ ha := absurd ha List.not_mem_nil
  gone hreg := Bool.noConfusion hreg

/-- A sub-task completes. -/
theorem inv_complete {L : Load K} {s s' : St K} {j : ℕ} (h : Inv L s)
    (hst : step L s (.complete j) = some s') : Inv L s' := by
  simp only [step] at hst
  split at hst
  case isFalse => cases hst
  case isTrue hj =>
    cases hst
    -- what is taken was completed before
    have hfree : j ∉ s.order := by
      intro hmem
      have hdone := (h.taken j hmem).2
      rw [hj.2] at hdone
      cases hdone
    have hkeep : ∀ i, s.completed i = true → Function.update s.completed j true i = true := by
      intro i hi
      by_cases hij : i = j
      · rw [hij, Function.update_self]
      · rwa [Function.update_of_ne hij]
    refine { h with results := ?_, others := ?_, taken := ?_, scanning := ?_ }
    · intro i hi
      show Function.update s.results (L.tids j) (some (L.bits j)) (L.tids i) =
        L.resultAt s.order (Function.update s.completed j true) i
      by_cases hij : i = j
      · -- the one that completed: nobody has taken it
        have hhere : L.resultAt s.order (Function.update s.completed j true) j =
            some (L.bits j) := if_pos ⟨Function.update_self .., hfree⟩
        rw [hij, Function.update_self]
        exact hhere.symm
      · have hne : L.tids i ≠ L.tids j := fun heq => hij (L.tids_inj heq)
        rw [Function.update_of_ne hne, h.results i hi, Load.resultAt, Load.resultAt,
          Function.update_of_ne hij]
    · intro t ht
      show Function.update s.results (L.tids j) _ t = none
      rw [Function.update_of_ne (ht j hj.1)]
      exact h.others t ht
    · intro i hi
      exact ⟨(h.taken i hi).1, hkeep i (h.taken i hi).2⟩
    · intro i all hpc
      refine ⟨(h.scanning i all hpc).1, ?_⟩
      intro hall k hk
      rcases (h.scanning i all hpc).2 hall k hk with ⟨hdone, hpassed⟩
      exact ⟨hkeep k hdone, hpassed⟩

/-- Whether all sub-tasks have completed. -/
theorem allDone_iff {L : Load K} {s : St K} :
    allDone L s = true ↔ ∀ j, j < L.count → s.completed j = true := by
  simp [allDone]

/-- Once everything is taken the inner adapter holds nothing. -/
theorem Inv.results_none {L : Load K} {s : St K} (h : Inv L s)
    (hall : ∀ j, j < L.count → j ∈ s.order) (t : ℕ) : s.results t = none := by
  by_cases ht : ∃ j, j < L.count ∧ t = L.tids j
  · rcases ht with ⟨j, hj, rfl⟩
    rw [h.results j hj]
    exact if_neg fun hout => hout.2 (hall j hj)
  · exact h.others t fun j hj heq => ht ⟨j, hj, heq⟩

/-- After the result every answer is `None`. -/
theorem Delivered.append {bits : Bitmap} {answers : List Answer} (h : Delivered bits answers)
    {a : Answer} (ha : a.result = none) : Delivered bits (answers ++ [a]) := by
  rcases h.once with ⟨early, late, b, heq, hearly, hb, hafter, hlate⟩
  refine ⟨early, late ++ [a], b, ?_, hearly, hb, hafter, ?_⟩
  · rw [heq, List.append_assoc, List.cons_append]
  · intro x hx
    rcases List.mem_append.mp hx with hx | hx
    · exact hlate x hx
    · rw [List.mem_singleton.mp hx, ha]

/-- A poll begins; for a load that was delivered this is the whole poll. -/
theorem inv_query {L : Load K} {s s' : St K} (h : Inv L s)
    (hst : step L s .query = some s') : Inv L s' := by
  simp only [step] at hst
  split at hst
  case h_2 => cases hst
  case h_1 hpc =>
    split at hst
    case isTrue hreg =>
      -- what `_all_done` answered is true, and no entry has been passed
      cases hst
      refine { h with scanning := ?_ }
      intro i all heq
      cases heq
      refine ⟨hreg, ?_⟩
      intro hall j hj
      exact ⟨allDone_iff.mp hall j hj, fun hlt => absurd hlt (Nat.not_lt_zero j)⟩
    case isFalse hreg =>
      -- the inner adapter is asked for the task, and has nothing under any number
      cases hst
      rw [Bool.not_eq_true] at hreg
      rcases h.gone hreg with ⟨hall, hdel⟩
      have hnone := h.results_none hall
      have hsame : Function.update s.results L.taskId none = s.results :=
        Function.update_eq_self_iff.mpr (hnone L.taskId).symm
      rw [hsame]
      refine { h with early := ?_, gone := ?_ }
      · intro heq
        rw [hreg] at heq
        cases heq
      · intro _
        exact ⟨hall, hdel.append (hnone L.taskId)⟩

/-- Taking one sub-task leaves the others alone. -/
theorem Load.subAt_of_ne (L : Load K) {order : List ℕ} {i j : ℕ} (hne : j ≠ i) :
    L.subAt (order ++ [i]) j = L.subAt order j := by
  simp [Load.subAt, hne]

/-- Taking the `i`-th result. -/
theorem Load.set_subAt (L : Load K) {order : List ℕ} {i n : ℕ} {sub : Sub K}
    (hsub : sub = L.subAt order i) :
    ((List.range n).map (L.subAt order)).set i { sub with bm := some (L.bits i) } =
      (List.range n).map (L.subAt (order ++ [i])) := by
  apply List.ext_getElem
  · rw [List.length_set, List.length_map, List.length_map]
  · intro j hj hj'
    rw [List.getElem_set, List.getElem_map, List.getElem_map, List.getElem_range]
    split
    · rename_i hij
      rw [← hij, hsub]
      simp [Load.subAt]
    · rename_i hij
      exact (L.subAt_of_ne (Ne.symm hij)).symm

/-- One round of the loop. -/
theorem inv_scan {L : Load K} {s s' : St K} (h : Inv L s)
    (hst : step L s .scan = some s') : Inv L s' := by
  simp only [step] at hst
  split at hst
  case h_2 => cases hst
  case h_1 i all hpc =>
    rcases h.scanning i all hpc with ⟨hreg, hpassed⟩
    split at hst
    case h_1 => cases hst
    case h_2 sub hget =>
      rcases h.getElem hget with ⟨hi, hsub⟩
      have htid : sub.tid = L.tids i := by rw [hsub]; rfl
      have hkeys : sub.keys = L.keysOf i := by rw [hsub]; rfl
      have hbm : sub.bm = if i ∈ s.order then some (L.bits i) else none := by rw [hsub]; rfl
      rw [htid, h.results i hi] at hst
      split at hst
      case h_1 bm hfree hhere =>
        -- a result that has come and was not taken
        cases hst
        have hout : i ∉ s.order := by
          intro hmem
          rw [hbm, if_pos hmem] at hfree
          cases hfree
        have hdone : s.completed i = true := by
          by_contra hnot
          rw [Load.resultAt, if_neg fun hboth => hnot hboth.1] at hhere
          cases hhere
        rw [Load.resultAt, if_pos ⟨hdone, hout⟩] at hhere
        cases hhere
        constructor
        case subs =>
          rw [h.subs, ← htid]
          exact L.set_subAt hsub
        case results =>
          intro j hj
          show Function.update s.results (L.tids i) none (L.tids j) =
            L.resultAt (s.order ++ [i]) s.completed j
          by_cases hij : j = i
          · rw [hij, Function.update_self]
            exact (if_neg fun hboth => hboth.2 (by simp)).symm
          · have hne : L.tids j ≠ L.tids i := fun heq => hij (L.tids_inj heq)
            rw [Function.update_of_ne hne, h.results j hj]
            simp [Load.resultAt, hij]
        case others =>
          intro t ht
          show Function.update s.results (L.tids i) none t = none
          rw [Function.update_of_ne (ht i hi)]
          exact h.others t ht
        case nodup =>
          exact List.nodup_append.mpr ⟨h.nodup, List.nodup_singleton i, by
            intro a ha b hb heq
            rw [List.mem_singleton.mp hb] at heq
            exact hout (heq ▸ ha)⟩
        case taken =>
          intro j hj
          rcases List.mem_append.mp hj with hj | hj
          · exact h.taken j hj
          · rw [List.mem_singleton.mp hj]
            exact ⟨hi, hdone⟩
        case log =>
          show s.log ++ publish L.l1 (okKeys sub.keys (L.bits i)) = _
          rw [h.log, hkeys, List.flatMap_append, List.flatMap_singleton]
          rfl
        case scanning =>
          intro i' all' heq
          cases heq
          refine ⟨hreg, ?_⟩
          intro hall j hj
          rcases hpassed hall j hj with ⟨hdone', hin⟩
          refine ⟨hdone', ?_⟩
          intro hlt
          rcases Nat.lt_succ_iff_lt_or_eq.mp hlt with hlt | heq
          · exact List.mem_append_left _ (hin hlt)
          · rw [heq]
            exact List.mem_append_right _ (List.mem_singleton_self i)
        case early => exact h.early
        case gone =>
          intro heq
          rw [show s.registered = false from heq] at hreg
          cases hreg
      case h_2 hskip =>
        -- taken in an earlier poll, or not completed
        cases hst
        refine { h with scanning := ?_ }
        intro i' all' heq
        cases heq
        refine ⟨hreg, ?_⟩
        intro hall j hj
        rcases hpassed hall j hj with ⟨hdone, hin⟩
        refine ⟨hdone, ?_⟩
        intro hlt
        rcases Nat.lt_succ_iff_lt_or_eq.mp hlt with hlt | heq
        · exact hin hlt
        · -- skipped although completed: it had been taken before
          rw [heq] at hdone ⊢
          by_contra hout
          exact hskip (L.bits i) (by rw [hbm, if_neg hout]) (if_pos ⟨hdone, hout⟩)

/-- The end of a poll. -/
theorem inv_finish {L : Load K} {s s' : St K} (h : Inv L s)
    (hst : step L s .finish = some s') : Inv L s' := by
  simp only [step] at hst
  split at hst
  case h_2 => cases hst
  case h_1 i all hpc =>
    rcases h.scanning i all hpc with ⟨hreg, hpassed⟩
    split at hst
    case isTrue => cases hst
    case isFalse hlast =>
      rw [h.length] at hlast
      split at hst
      case isTrue hany =>
        -- one is missing: None
        cases hst
        refine { h with scanning := ?_, early := ?_, gone := ?_ }
        · intro _ _ heq
          cases heq
        · intro hr a ha
          rcases List.mem_append.mp ha with ha | ha
          · exact h.early hr a ha
          · rw [List.mem_singleton.mp ha]
            refine ⟨rfl, ?_⟩
            cases all with
            | false => rfl
            | true =>
                -- a poll that found everything completed has taken everything
                rcases List.any_eq_true.mp hany with ⟨sub, hmem, hnone⟩
                rcases List.mem_iff_getElem?.mp hmem with ⟨j, hget⟩
                rcases h.getElem hget with ⟨hj, hsub⟩
                have htaken := (hpassed rfl j hj).2 (by omega)
                rw [hsub, Load.subAt, if_pos htaken] at hnone
                cases hnone
        · intro heq
          rw [show s.registered = false from heq] at hreg
          cases hreg
      case isFalse hany =>
        -- none is missing: the bitmap is put together, and the load is forgotten
        cases hst
        have htaken : ∀ j, j < L.count → j ∈ s.order := by
          intro j hj
          by_contra hout
          apply hany
          refine List.any_eq_true.mpr ⟨L.subAt s.order j, ?_, ?_⟩
          · rw [h.subs]
            exact List.mem_map_of_mem (List.mem_range.mpr hj)
          · rw [Load.subAt, if_neg hout]
            rfl
        have hout : assemble 0 (List.replicate L.keys.length false) s.subs = L.assembled := by
          apply L.assemble_eq h.length
          intro j sub hget
          rcases h.getElem hget with ⟨hj, hsub⟩
          rw [hsub, Load.subAt, if_pos (htaken j hj)]
          exact ⟨rfl, rfl⟩
        have hdone : allDone L s = true :=
          allDone_iff.mpr fun j hj => (h.taken j (htaken j hj)).2
        refine { h with scanning := ?_, early := ?_, gone := ?_ }
        · intro _ _ heq
          cases heq
        · intro heq
          cases heq
        · intro _
          refine ⟨htaken, ⟨s.answers, [], _, rfl, h.early hreg, congrArg some hout, hdone, ?_⟩⟩
          intro _ hx
          cases hx

/-- What one step preserves. -/
theorem inv_step {L : Load K} {s s' : St K} (a : Lbl) (h : Inv L s)
    (hst : step L s a = some s') : Inv L s' := by
  cases a with
  | complete j => exact inv_complete h hst
  | query => exact inv_query h hst
  | scan => exact inv_scan h hst
  | finish => exact inv_finish h hst

/-- So the invariant holds in every reachable state. -/
theorem inv_reachable {L : Load K} {s : St K} (h : (machine L).Reachable s) : Inv L s := by
  refine h.invariant (Inv L) ?_ fun s a s' hs _ hst => inv_step a hs hst
  intro s hs
  rw [show s = initial L from hs]
  exact inv_initial L

/-! ## The result -/

/-- A way of reading keys off the log, given by what it reads off each event. -/
theorem flatMap_publication (L : Load K) {read : Event K → List K} (order : List ℕ)
    (hread : ∀ ok : List K, (publish true ok).flatMap read = ok) (hl1 : L.l1 = true) :
    (order.flatMap L.publication).flatMap read =
      order.flatMap fun j => okKeys (L.keysOf j) (L.bits j) := by
  rw [List.flatMap_assoc]
  apply List.flatMap_congr
  intro j _
  rw [Load.publication, hl1]
  exact hread _

/-- With an L1 manager a publication names its keys once, in each of its events. -/
theorem read_publish (read : Event K → List K) (ok : List K)
    (h : read (.early ok) ++ (read (.finishWriteAndReserveRead ok) ++ read (.ready ok)) = ok) :
    (publish true ok).flatMap read = ok := by
  unfold publish
  split
  · simpa using h
  · rename_i hempty
    have hnil : ok = [] := by
      by_contra hne
      exact hempty ⟨hne, rfl⟩
    rw [hnil]
    rfl

/-- When everything has been taken, each loaded key is read off the log once. -/
theorem Inv.read_perm {L : Load K} {s : St K} (h : Inv L s)
    (hall : ∀ j, j < L.count → j ∈ s.order) (hl1 : L.l1 = true) {read : Event K → List K}
    (hread : ∀ ok : List K, (publish true ok).flatMap read = ok) :
    (s.log.flatMap read).Perm (okKeys L.keys L.assembled) := by
  have horder : s.order.Perm (List.range L.count) := by
    rw [List.perm_ext_iff_of_nodup h.nodup List.nodup_range]
    intro j
    rw [List.mem_range]
    exact ⟨fun hj => (h.taken j hj).1, hall j⟩
  rw [h.log, flatMap_publication L s.order hread hl1, ← flatMap_okKeys]
  exact horder.flatMap_right _

/-- The result comes when every sub-task was taken. -/
theorem Inv.taken_of_delivered {L : Load K} {s : St K} (h : Inv L s)
    (hdel : Delivered L.assembled s.answers) : ∀ j, j < L.count → j ∈ s.order := by
  cases hreg : s.registered with
  | false => exact (h.gone hreg).1
  | true =>
      rcases hdel.once with ⟨early, late, a, heq, _, ha, _, _⟩
      have hmem : a ∈ s.answers := by
        rw [heq]
        simp
      rw [(h.early hreg a hmem).1] at ha
      cases ha

/-- Keys that were all published early leave nothing for the original. -/
theorem patchedFwrr_skips [DecidableEq K] {early keys : List K} (h : ∀ k ∈ keys, k ∈ early) :
    (patchedFwrr early keys).2 = [] := by
  simp only [patchedFwrr, List.filter_eq_nil_iff, List.mem_filter, decide_eq_true_eq]
  intro k hk hnot
  exact hnot ⟨hk, h k hk⟩

/-- Keys that are given once are published at most once, whatever has been taken. -/
theorem Inv.nodup_published {L : Load K} {s : St K} (h : Inv L s) (hkeys : L.keys.Nodup) :
    (published s.log).Nodup := by
  cases hl1 : L.l1 with
  | false =>
      have hlog : s.log = [] := by
        rw [h.log, List.flatMap_eq_nil_iff]
        intro j _
        simp [Load.publication, publish, hl1]
      rw [published, hlog]
      exact List.nodup_nil
  | true =>
      have hread := flatMap_publication L s.order (fun ok => read_publish (fun
        | .finishWriteAndReserveRead keys => keys
        | _ => []) ok (List.append_nil _)) hl1
      rw [published, h.log, hread]
      -- the sub-tasks taken are among all, whose loaded keys are those of the load
      have hsub : s.order.Subperm (List.range L.count) :=
        List.subperm_of_subset h.nodup fun j hj => List.mem_range.mpr (h.taken j hj).1
      obtain ⟨order, hperm, hsublist⟩ := hsub
      have hall : ((List.range L.count).flatMap fun j => okKeys (L.keysOf j) (L.bits j)).Nodup := by
        rw [flatMap_okKeys]
        exact hkeys.sublist (okKeys_sublist _ _)
      exact (hperm.flatMap_right _).nodup_iff.mp (hall.sublist (hsublist.flatMap _))

/-- Splitting a load does not change what it comes to: the answers of all polls, in
any order of completions, and what has been published. -/
theorem split_load_faithful [DecidableEq K] (L : Load K) (s : St K)
    (hs : (machine L).Reachable s) : Faithful L s := by
  have h := inv_reachable hs
  constructor
  case answers =>
    cases hreg : s.registered with
    | true => exact .inl (h.early hreg)
    | false => exact .inr (h.gone hreg).2
  case unsplit => exact L.assembled_eq_unsplit
  case log => exact ⟨s.order, h.nodup, h.taken, h.log⟩
  case once => exact h.nodup_published
  case all =>
    intro hdel hl1
    have hall := h.taken_of_delivered hdel
    exact ⟨h.read_perm hall hl1 fun ok => read_publish _ ok (List.append_nil _),
      h.read_perm hall hl1 fun ok => read_publish _ ok rfl⟩
  case again =>
    intro hdel hl1
    have hperm := h.read_perm (h.taken_of_delivered hdel) hl1 fun ok =>
      read_publish (fun | .early keys => keys | _ => []) ok (List.append_nil _)
    apply patchedFwrr_skips
    intro k hk
    exact hperm.mem_iff.mpr hk

/-- Three keys in sub-batches of two under FIFO; the second key is not loaded. -/
def threeKeys : Load ℕ :=
  ⟨[10, 11, 12], 3, false, fun i => if i = 1 then .failed else .loaded, 2, id,
    Function.injective_id, 100, true⟩

/-- The short last sub-task completes first, and a poll takes it. -/
def lastFirst : List Lbl :=
  [.complete 1, .query, .scan, .scan, .finish, .complete 0, .query, .scan, .scan, .finish, .query]

/-- Three keys in two sub-tasks, the last of which completes first; the middle key is not
loaded. -/
theorem last_first_faithful : ∃ s : St ℕ,
    (machine threeKeys).run (initial threeKeys) lastFirst = some s ∧
      s.answers.map Answer.result = [none, some [true, false, true], none] ∧
      published s.log = [12, 10] ∧ Faithful threeKeys s := by
  refine ⟨_, rfl, rfl, rfl, ?_⟩
  have hrun : (machine threeKeys).run (initial threeKeys) lastFirst = some _ := rfl
  exact split_load_faithful threeKeys _ (Machine.Reachable.run (.init rfl) hrun)

/-- The same keys; loading the second one raises past its `except`. -/
def raisingKey : Load ℕ :=
  ⟨[10, 11, 12], 3, false, fun i => if i = 1 then .raised else .loaded, 2, id,
    Function.injective_id, 100, true⟩

/-- One key twice, in sub-batches of one. -/
def keyTwice : Load ℕ :=
  ⟨[10, 10], 2, false, fun _ => .loaded, 1, id, Function.injective_id, 100, true⟩

/-- The split load has a bit that the unsplit task would not have set, and a key that is
given twice is published twice. -/
theorem raise_spoils_one_sub_batch :
    (∃ s : St ℕ, (machine raisingKey).run (initial raisingKey) lastFirst = some s ∧
      s.answers.map Answer.result = [none, some [false, false, true], none] ∧
      raisingKey.unsplit = [false, false, false]) ∧
    ∃ s : St ℕ, (machine keyTwice).run (initial keyTwice) lastFirst = some s ∧
      published s.log = [10, 10] :=
  ⟨⟨_, rfl, rfl, by decide⟩, _, rfl, rfl⟩

end LmcacheDaos.Mp.Streaming
