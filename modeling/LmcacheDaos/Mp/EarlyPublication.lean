import Mathlib.Algebra.Order.BigOperators.Group.List
import Mathlib.Algebra.Order.Group.Nat
import Mathlib.Data.List.Perm.Lattice
import Mathlib.Data.List.Dedup
import Mathlib.Data.Finset.Card
import Mathlib.Tactic.Common
import LmcacheDaos.Lib.Machine
import LmcacheDaos.Mp.Streaming

/-!
# Many split loads and the keys already readable

`_early`, the set that `StreamingL2Proxy` and `_patched_fwrr` share
(`mp/streaming_patch.py`), with any number of loads in progress: the proxy adds the
keys of a sub-task that has come, then gives them to the original
`finish_write_and_reserve_read`, then marks them ready; and whoever finishes a
load's keys when its result is there goes through `_patched_fwrr`, which takes
the keys out of the set and gives the original only the others.

A load is the machine of `Mp.Streaming`; what its poll publishes is performed
event by event, between the steps of the other loads. Of the rest of the system
this is used: a key being written in L1 belongs to one load, so a load is
submitted with keys that no unfinished load has, and nobody else finishes such a
key (`Apart`).

Result (`early_publication`): the original gets each loaded key of each load once,
early or with the result, and no other key of a load; only of sub-tasks that have
completed; and `_early` holds what the unfinished loads have announced, so it is
empty when all have finished.
-/

namespace LmcacheDaos.Mp.EarlyPublication

open Lib Mp.Streaming

variable {K : Type}

structure Loading (K : Type) where
  load : Load K
  st : Streaming.St K
  /-- publications of its poller that were performed (not kept by the code) -/
  performed : List (Event K)
  /-- the rest of the poller's current publication -/
  pending : List (Event K)
  /-- its result was taken and its keys finished -/
  finished : Bool

structure St (K : Type) where
  loads : List (Loading K)
  /-- `_early` -/
  early : List K
  /-- `_ready` -/
  ready : List K
  /-- the keys given to the original `finish_write_and_reserve_read` -/
  calls : List K

inductive Lbl (K : Type) where
  /-- `submit_load_task` -/
  | submit (L : Load K)
  /-- the `i`-th load steps: its inner adapter or its poller -/
  | load (i : ℕ) (a : Streaming.Lbl)
  /-- the poller of the `i`-th load performs its next publication -/
  | publish (i : ℕ)
  /-- `finish_write_and_reserve_read` for the loaded keys of its result -/
  | finish (i : ℕ)
  /-- the same for keys of nobody's load -/
  | other (keys : List K)

section Machine

variable [DecidableEq K]

/-- What a publication does. -/
def perform (s : St K) : Event K → St K
  | .early keys => { s with early := s.early ++ keys }
  | .finishWriteAndReserveRead keys => { s with calls := s.calls ++ keys }
  | .ready keys => { s with ready := s.ready ++ keys }

/-- A call of `finish_write_and_reserve_read` by anybody but the proxy. -/
def finishKeys (s : St K) (keys : List K) : St K :=
  let r := patchedFwrr s.early keys
  { s with early := r.1, calls := s.calls ++ r.2 }

/-- The result of a load, once a poll has returned it. -/
def resultOf (st : Streaming.St K) : Option Bitmap := st.answers.findSome? Answer.result

def step (s : St K) : Lbl K → Option (St K)
  | .submit L => some { s with loads := s.loads ++ [⟨L, Streaming.initial L, [], [], false⟩] }
  | .load i a => (s.loads[i]?).bind fun l =>
      -- the poller goes on when it has performed what it published
      match a, l.pending with
      | .complete _, _ | _, [] => (Streaming.step l.load l.st a).map fun st' =>
          { s with loads := s.loads.set i { l with
              st := st', pending := l.pending ++ st'.log.drop l.st.log.length } }
      | _, _ => none
  | .publish i => (s.loads[i]?).bind fun l =>
      match l.pending with
      | [] => none
      | e :: rest => some { perform s e with
          loads := s.loads.set i { l with performed := l.performed ++ [e], pending := rest } }
  | .finish i => (s.loads[i]?).bind fun l =>
      match l.pending, l.finished, resultOf l.st with
      | [], false, some bits => some { finishKeys s (okKeys l.load.keys bits) with
          loads := s.loads.set i { l with finished := true } }
      | _, _, _ => none
  | .other keys => some (finishKeys s keys)

end Machine

def initial : St K := ⟨[], [], [], []⟩

def machine (K : Type) [DecidableEq K] : Machine (St K) (Lbl K) where
  Init s := s = initial
  step := step

/-- A key belongs to one unfinished load. -/
def Apart (s : St K) : Lbl K → Prop
  | .submit L => ∀ l ∈ s.loads, l.finished = false → ∀ k ∈ L.keys, k ∉ l.load.keys
  | .other keys => ∀ l ∈ s.loads, l.finished = false → ∀ k ∈ keys, k ∉ l.load.keys
  | _ => True

instance [DecidableEq K] (s : St K) (a : Lbl K) : Decidable (Apart s a) :=
  match a with
  | .submit L => inferInstanceAs (Decidable (∀ l ∈ s.loads, l.finished = false → ∀ k ∈ L.keys,
      k ∉ l.load.keys))
  | .other keys => inferInstanceAs (Decidable (∀ l ∈ s.loads, l.finished = false → ∀ k ∈ keys,
      k ∉ l.load.keys))
  | .load _ _ | .publish _ | .finish _ => isTrue trivial

/-! ## The law -/

/-- The loaded keys of a load. -/
def Loading.loaded (l : Loading K) : List K := okKeys l.load.keys l.load.assembled

/-- Those whose sub-task has completed. -/
def Loading.landed (l : Loading K) : List K :=
  ((List.range l.load.count).filter l.st.completed).flatMap fun j =>
    okKeys (l.load.keysOf j) (l.load.bits j)

/-- The keys of a load that the original has got. -/
def Loading.passed (l : Loading K) : List K :=
  if l.finished then l.loaded else published l.performed

/-- The keys that calls outside the loads have finished. -/
def others (as : List (Lbl K)) : List K :=
  as.flatMap fun
    | .other keys => keys
    | _ => []

structure Accounts (as : List (Lbl K)) (s : St K) : Prop where
  calls : s.calls.Perm (s.loads.flatMap Loading.passed ++ others as)
  sound : ∀ l ∈ s.loads, ∀ k ∈ l.passed, k ∈ l.landed
  early : ∀ k, k ∈ s.early ↔ ∃ l ∈ s.loads, l.finished = false ∧ k ∈ earlyKeys l.performed
  /-- all loads finished: each loaded key once, and nothing is left in `_early` -/
  quiet : (∀ l ∈ s.loads, l.finished = true) →
    s.early = [] ∧ s.calls.Perm (s.loads.flatMap Loading.loaded ++ others as)

/-! ## One load -/

/-- The load is in order, and its publications are performed or pending. -/
structure Loading.Ok (l : Loading K) : Prop where
  inv : Streaming.Inv l.load l.st
  log : l.st.log = l.performed ++ l.pending
  settled : l.finished = true → l.st.registered = false ∧ l.pending = []

section Load

variable {L : Load K} {st st' : Streaming.St K} {a : Streaming.Lbl}

/-- A load's log only grows. -/
theorem step_log (hst : Streaming.step L st a = some st') :
    ∃ es, st'.log = st.log ++ es := by
  cases a <;> simp only [Streaming.step] at hst <;> (repeat' split at hst) <;> cases hst <;>
    first | exact ⟨[], (List.append_nil _).symm⟩ | exact ⟨_, rfl⟩

/-- Once its result was returned a load publishes nothing. -/
theorem step_over (hinv : Streaming.Inv L st) (hreg : st.registered = false)
    (hst : Streaming.step L st a = some st') :
    st'.log = st.log ∧ st'.registered = false := by
  have hidle : ∀ i all, st.pc ≠ .scanning i all := by
    intro i all hpc
    have hreg' := (hinv.scanning i all hpc).1
    rw [hreg] at hreg'
    cases hreg'
  cases a with
  | complete j =>
      simp only [Streaming.step] at hst
      split at hst <;> cases hst
      exact ⟨rfl, hreg⟩
  | query =>
      simp only [Streaming.step, hreg] at hst
      split at hst <;> cases hst
      exact ⟨rfl, rfl⟩
  | scan =>
      -- no poll is in its loop
      simp only [Streaming.step] at hst
      cases hst
  | finish =>
      simp only [Streaming.step] at hst
      cases hst

/-- A result that was returned is that of the load, and every sub-task was taken. -/
theorem resultOf_eq (hinv : Streaming.Inv L st) {bits : Bitmap} (h : resultOf st = some bits) :
    bits = L.assembled ∧ st.registered = false := by
  cases hreg : st.registered with
  | true =>
      obtain ⟨a, ha, hres⟩ := List.exists_of_findSome?_eq_some h
      rw [(hinv.early hreg a ha).1] at hres
      cases hres
  | false =>
      obtain ⟨early, late, a, heq, hearly, ha, -, -⟩ := (hinv.gone hreg).2.once
      refine ⟨?_, rfl⟩
      have hnone : early.findSome? Answer.result = none :=
        List.findSome?_eq_none_iff.mpr fun x hx => (hearly x hx).1
      rw [resultOf, heq, List.findSome?_append, hnone, Option.none_or, List.findSome?_cons, ha]
        at h
      exact (Option.some.inj h).symm

/-- What is read off the publications of a load belongs to a sub-task that has come. -/
theorem exists_taken (hinv : Streaming.Inv L st) {read : Event K → List K} {k : K}
    (hread : ∀ ok : List K, (publish true ok).flatMap read = ok) (hk : k ∈ st.log.flatMap read) :
    ∃ j, j < L.count ∧ st.completed j = true ∧ k ∈ okKeys (L.keysOf j) (L.bits j) := by
  rw [hinv.log, List.flatMap_assoc] at hk
  obtain ⟨j, hj, hmem⟩ := List.mem_flatMap.mp hk
  refine ⟨j, (hinv.taken j hj).1, (hinv.taken j hj).2, ?_⟩
  cases hl1 : L.l1 with
  | true =>
      rw [Load.publication, hl1, hread] at hmem
      exact hmem
  | false =>
      rw [Load.publication, hl1] at hmem
      simp [publish] at hmem

/-- A publication announces the loaded keys. -/
theorem read_early (ok : List K) :
    (publish true ok).flatMap (fun | .early keys => keys | _ => []) = ok :=
  read_publish _ ok (List.append_nil _)

/-- It gives the same keys to the original. -/
theorem read_published (ok : List K) :
    (publish true ok).flatMap (fun | .finishWriteAndReserveRead keys => keys | _ => []) = ok :=
  read_publish _ ok (List.append_nil _)

/-- What a sub-task has loaded the load has loaded. -/
theorem mem_loaded_of_bits {j : ℕ} {k : K} (hj : j < L.count)
    (hk : k ∈ okKeys (L.keysOf j) (L.bits j)) : k ∈ okKeys L.keys L.assembled := by
  rw [← flatMap_okKeys]
  exact List.mem_flatMap.mpr ⟨j, List.mem_range.mpr hj, hk⟩

/-- Loaded keys are keys. -/
theorem okKeys_subset (keys : List K) (bm : Bitmap) {k : K} (hk : k ∈ okKeys keys bm) :
    k ∈ keys := by
  obtain ⟨p, hp, rfl⟩ := List.mem_map.mp hk
  have hmem := (List.mem_filter.mp hp).1
  exact List.mem_of_getElem? (List.mk_mem_zipIdx_iff_getElem?.mp hmem)

end Load

section Ok

variable {l : Loading K} {k : K}

/-- Announced keys have been loaded. -/
theorem Loading.Ok.early_loaded (h : l.Ok) (hk : k ∈ earlyKeys l.performed) : k ∈ l.loaded := by
  have hlog : k ∈ earlyKeys l.st.log := by
    rw [h.log, earlyKeys, List.flatMap_append]
    exact List.mem_append_left _ hk
  obtain ⟨j, hj, -, hmem⟩ := exists_taken h.inv read_early hlog
  exact mem_loaded_of_bits hj hmem

/-- Loaded keys are keys of the load. -/
theorem Loading.loaded_subset (hk : k ∈ l.loaded) : k ∈ l.load.keys := okKeys_subset _ _ hk

/-- A key that reached the original is one of a sub-task that has completed. -/
theorem Loading.Ok.sound (h : l.Ok) (hk : k ∈ l.passed) : k ∈ l.landed := by
  have hland : ∀ j, j < l.load.count → l.st.completed j = true →
      k ∈ okKeys (l.load.keysOf j) (l.load.bits j) → k ∈ l.landed := by
    intro j hj hdone hmem
    exact List.mem_flatMap.mpr ⟨j, List.mem_filter.mpr ⟨List.mem_range.mpr hj, hdone⟩, hmem⟩
  rw [Loading.passed] at hk
  split at hk
  · -- finished: every sub-task was taken
    rename_i hover
    have hall := (h.inv.gone (h.settled hover).1).1
    rw [Loading.loaded, ← flatMap_okKeys] at hk
    obtain ⟨j, hj, hmem⟩ := List.mem_flatMap.mp hk
    have hlt := List.mem_range.mp hj
    exact hland j hlt (h.inv.taken j (hall j hlt)).2 hmem
  · have hlog : k ∈ published l.st.log := by
      rw [h.log, published, List.flatMap_append]
      exact List.mem_append_left _ hk
    obtain ⟨j, hj, hdone, hmem⟩ := exists_taken h.inv read_published hlog
    exact hland j hj hdone hmem

end Ok

/-! ## All loads -/

section Finish

variable [DecidableEq K] {early keys : List K} {k : K}

/-- Finishing keys takes them out of `_early`. -/
theorem mem_patchedFwrr : k ∈ (patchedFwrr early keys).1 ↔ k ∈ early ∧ k ∉ keys := by
  simp only [patchedFwrr, List.mem_filter, decide_eq_true_eq]
  constructor
  · rintro ⟨hk, hskip⟩
    exact ⟨hk, fun hmem => hskip ⟨hmem, hk⟩⟩
  · rintro ⟨hk, hnot⟩
    exact ⟨hk, fun hskip => hnot hskip.1⟩

/-- Keys that were not announced are all given to the original. -/
theorem patchedFwrr_rest (h : ∀ k ∈ keys, k ∉ early) : (patchedFwrr early keys).2 = keys := by
  simp only [patchedFwrr, List.filter_eq_self, decide_eq_true_eq, List.mem_filter]
  rintro k hk ⟨-, hearly⟩
  exact h k hk hearly

end Finish

structure Inv (as : List (Lbl K)) (s : St K) : Prop where
  each : ∀ l ∈ s.loads, l.Ok
  apart : ∀ (i j : ℕ) (l l' : Loading K), s.loads[i]? = some l → s.loads[j]? = some l' → i ≠ j →
    l.finished = false → l'.finished = false → ∀ k ∈ l.load.keys, k ∉ l'.load.keys
  calls : s.calls.Perm (s.loads.flatMap Loading.passed ++ others as)
  early : ∀ k, k ∈ s.early ↔ ∃ l ∈ s.loads, l.finished = false ∧ k ∈ earlyKeys l.performed

section Steps

variable {s : St K} {as : List (Lbl K)}

/-- Other calls are not the loads'. -/
theorem others_concat (as : List (Lbl K)) {a : Lbl K} (h : ∀ keys, a ≠ .other keys) :
    others (as ++ [a]) = others as := by
  rw [others, List.flatMap_append]
  cases a with
  | other keys => exact absurd rfl (h keys)
  | _ => exact List.append_nil _

/-- What stays when one load is replaced by itself at a later time. -/
theorem Inv.replace (h : Inv as s) {i : ℕ} {l l' : Loading K} (hl : s.loads[i]? = some l)
    (hok : l'.Ok) (hload : l'.load = l.load)
    (hfin : l'.finished = false → l.finished = false) :
    (∀ x ∈ s.loads.set i l', x.Ok) ∧
      ∀ (a b : ℕ) (x y : Loading K), (s.loads.set i l')[a]? = some x →
        (s.loads.set i l')[b]? = some y → a ≠ b → x.finished = false → y.finished = false →
        ∀ k ∈ x.load.keys, k ∉ y.load.keys := by
  constructor
  · intro x hx
    rcases List.mem_or_eq_of_mem_set hx with hx | rfl
    · exact h.each x hx
    · exact hok
  · -- the old load at `i` stands for the new one
    have hold : ∀ (a : ℕ) (x : Loading K), (s.loads.set i l')[a]? = some x →
        ∃ x₀, s.loads[a]? = some x₀ ∧ x.load = x₀.load ∧
          (x.finished = false → x₀.finished = false) := by
      intro a x hx
      rcases Threads.getElem?_set_cases hx with ⟨rfl, rfl⟩ | ⟨-, hx⟩
      · exact ⟨l, hl, hload, hfin⟩
      · exact ⟨x, hx, rfl, id⟩
    intro a b x y hx hy hab hxf hyf
    obtain ⟨x₀, hx₀, hxload, hxfin⟩ := hold a x hx
    obtain ⟨y₀, hy₀, hyload, hyfin⟩ := hold b y hy
    rw [hxload, hyload]
    exact h.apart a b x₀ y₀ hx₀ hy₀ hab (hxfin hxf) (hyfin hyf)

theorem set_same {loads : List (Loading K)} {i : ℕ} {l : Loading K} (hl : loads[i]? = some l) :
    loads.set i l = loads := by
  obtain ⟨hlt, heq⟩ := List.getElem?_eq_some_iff.mp hl
  rw [← heq, List.set_getElem_self]

/-- The keys announced by the unfinished loads, after one load was replaced. -/
theorem announced_set {loads : List (Loading K)} {i : ℕ} {l : Loading K} (l' : Loading K) {k : K}
    (hl : loads[i]? = some l) :
    (∃ x ∈ loads.set i l', x.finished = false ∧ k ∈ earlyKeys x.performed) ↔
      (l'.finished = false ∧ k ∈ earlyKeys l'.performed) ∨
        ∃ (j : ℕ) (x : Loading K), j ≠ i ∧ loads[j]? = some x ∧ x.finished = false ∧
          k ∈ earlyKeys x.performed := by
  have hlt : i < loads.length := (List.getElem?_eq_some_iff.mp hl).1
  constructor
  · rintro ⟨x, hx, hfin, hk⟩
    obtain ⟨j, hj⟩ := List.mem_iff_getElem?.mp hx
    rcases Threads.getElem?_set_cases hj with ⟨rfl, rfl⟩ | ⟨hne, hj⟩
    · exact .inl ⟨hfin, hk⟩
    · exact .inr ⟨j, x, hne, hj, hfin, hk⟩
  · rintro (⟨hfin, hk⟩ | ⟨j, x, hne, hj, hfin, hk⟩)
    · refine ⟨l', List.mem_of_getElem? (i := i) ?_, hfin, hk⟩
      rw [List.getElem?_set_self hlt]
    · refine ⟨x, List.mem_of_getElem? (i := j) ?_, hfin, hk⟩
      rw [List.getElem?_set_ne (Ne.symm hne)]
      exact hj

/-- A key is announced by one load or by another. -/
theorem announced_iff {loads : List (Loading K)} {i : ℕ} {l : Loading K} {k : K}
    (hl : loads[i]? = some l) :
    (∃ x ∈ loads, x.finished = false ∧ k ∈ earlyKeys x.performed) ↔
      (l.finished = false ∧ k ∈ earlyKeys l.performed) ∨
        ∃ (j : ℕ) (x : Loading K), j ≠ i ∧ loads[j]? = some x ∧ x.finished = false ∧
          k ∈ earlyKeys x.performed := by
  have hset := announced_set l hl (k := k)
  rwa [set_same hl] at hset

/-- A step of one load. -/
theorem Inv.stepLoad (h : Inv as s) {i : ℕ} {l : Loading K} {st' : Streaming.St K}
    {a : Streaming.Lbl} (hl : s.loads[i]? = some l)
    (hst : Streaming.step l.load l.st a = some st') :
    Inv (as ++ [.load i a]) { s with loads := s.loads.set i { l with
      st := st', pending := l.pending ++ st'.log.drop l.st.log.length } } := by
  have hok := h.each l (List.mem_of_getElem? hl)
  -- the load's step logs `es`, which its announcements still have to go through
  have hok' : Loading.Ok { l with
      st := st', pending := l.pending ++ st'.log.drop l.st.log.length } := by
    obtain ⟨es, hes⟩ := step_log hst
    have hdrop : st'.log.drop l.st.log.length = es := by rw [hes, List.drop_left]
    refine ⟨Streaming.inv_step a hok.inv hst, ?_, ?_⟩
    · show st'.log = l.performed ++ (l.pending ++ st'.log.drop l.st.log.length)
      rw [hdrop, hes, hok.log, List.append_assoc]
    · -- a load that has returned logs nothing more
      intro hfin
      obtain ⟨hreg, hpend⟩ := hok.settled hfin
      obtain ⟨hlog, hreg'⟩ := step_over hok.inv hreg hst
      refine ⟨hreg', ?_⟩
      show l.pending ++ st'.log.drop l.st.log.length = []
      rw [hpend, hlog, List.drop_length, List.append_nil]
  obtain ⟨heach, hapart⟩ := h.replace hl hok' rfl id
  refine ⟨heach, hapart, ?_, fun k => ?_⟩
  · rw [others_concat as (by simp)]
    -- what it has passed on is as before
    have hset := perm_flatMap_set Loading.passed { l with
      st := st', pending := l.pending ++ st'.log.drop l.st.log.length } hl
    exact h.calls.trans (((List.perm_append_right_iff _).mp hset).symm.append_right _)
  · rw [announced_set _ hl, h.early, announced_iff hl]

/-- The poller of a load performs a publication. -/
theorem Inv.publish [DecidableEq K] (h : Inv as s) {i : ℕ} {l : Loading K} {e : Event K}
    {rest : List (Event K)} (hl : s.loads[i]? = some l) (hpend : l.pending = e :: rest) :
    Inv (as ++ [.publish i]) { perform s e with
      loads := s.loads.set i { l with performed := l.performed ++ [e], pending := rest } } := by
  have hok := h.each l (List.mem_of_getElem? hl)
  -- an announcement is left, so the load has not returned
  have hfin : l.finished = false := by
    by_contra hfin
    rw [Bool.not_eq_false] at hfin
    rw [(hok.settled hfin).2] at hpend
    cases hpend
  -- one announcement moves from pending to performed
  have hok' : Loading.Ok { l with performed := l.performed ++ [e], pending := rest } := by
    refine ⟨hok.inv, ?_, fun hover => ?_⟩
    · show l.st.log = l.performed ++ [e] ++ rest
      rw [hok.log, hpend, List.append_assoc, List.singleton_append]
    · rw [show l.finished = true from hover] at hfin
      cases hfin
  obtain ⟨heach, hapart⟩ := h.replace hl hok' rfl id
  have hset := perm_flatMap_set Loading.passed
    { l with performed := l.performed ++ [e], pending := rest } hl
  -- the keys of the announcement join those the loads have passed on
  have hpassed : ∀ keys, published [e] = keys →
      ((s.loads.set i { l with performed := l.performed ++ [e], pending := rest }).flatMap
        Loading.passed).Perm (s.loads.flatMap Loading.passed ++ keys) := by
    rintro keys rfl
    refine (List.perm_append_right_iff l.passed).mp (hset.trans ?_)
    rw [List.append_assoc]
    refine List.Perm.append_left _ ?_
    have hnew : Loading.passed { l with performed := l.performed ++ [e], pending := rest } =
        l.passed ++ published [e] := by
      simp only [Loading.passed, hfin, Bool.false_eq_true, if_false]
      rw [published, List.flatMap_append]
      rfl
    rw [hnew]
    exact List.perm_append_comm
  -- and its early keys the early ones
  have hearly : ∀ k, k ∈ (perform s e).early ↔ k ∈ s.early ∨ k ∈ earlyKeys [e] := by
    intro k
    cases e <;> simp [perform, earlyKeys]
  refine ⟨heach, hapart, ?_, fun k => ?_⟩
  · rw [others_concat as (by simp)]
    have hcalls : (perform s e).calls.Perm (s.calls ++ published [e]) := by
      cases e <;> simp [perform, published]
    refine hcalls.trans ((h.calls.append_right _).trans ?_)
    -- both sides gain the keys of `e`, at different places of the list
    refine List.Perm.trans ?_ ((hpassed _ rfl).symm.append_right _)
    rw [List.append_assoc, List.append_assoc]
    exact List.perm_append_comm.append_left _
  · have hnew : k ∈ earlyKeys (l.performed ++ [e]) ↔
        k ∈ earlyKeys l.performed ∨ k ∈ earlyKeys [e] := by
      rw [earlyKeys, List.flatMap_append, List.mem_append]
      rfl
    rw [announced_set _ hl, hearly, h.early, announced_iff hl]
    simp only [hfin, true_and, hnew]
    exact or_right_comm

/-- Keys that no unfinished load has are not announced. -/
theorem Inv.not_early (h : Inv as s) {keys : List K}
    (hapart : ∀ l ∈ s.loads, l.finished = false → ∀ k ∈ keys, k ∉ l.load.keys) :
    ∀ k ∈ keys, k ∉ s.early := by
  intro k hk hearly
  obtain ⟨l, hl, hfin, hmem⟩ := (h.early k).mp hearly
  exact hapart l hl hfin k hk (Loading.loaded_subset ((h.each l hl).early_loaded hmem))

/-- Somebody finishes keys of no load. -/
theorem Inv.other [DecidableEq K] (h : Inv as s) {keys : List K}
    (hapart : ∀ l ∈ s.loads, l.finished = false → ∀ k ∈ keys, k ∉ l.load.keys) :
    Inv (as ++ [.other keys]) (finishKeys s keys) := by
  have hnot := h.not_early hapart
  refine ⟨h.each, h.apart, ?_, fun k => ?_⟩
  · have hothers : others (as ++ [.other keys]) = others as ++ keys := by
      simp [others]
    show (s.calls ++ (patchedFwrr s.early keys).2).Perm _
    rw [patchedFwrr_rest hnot, hothers, ← List.append_assoc]
    exact h.calls.append_right _
  · show k ∈ (patchedFwrr s.early keys).1 ↔ _
    rw [mem_patchedFwrr]
    exact ⟨fun hk => (h.early k).mp hk.1,
      fun hk => ⟨(h.early k).mpr hk, fun hmem => hnot k hmem ((h.early k).mpr hk)⟩⟩

/-- What the poller of a load with its result has performed. -/
theorem Loading.Ok.complete {l : Loading K} (h : l.Ok) (hpend : l.pending = [])
    (hreg : l.st.registered = false) :
    (l.load.l1 = true → (published l.performed).Perm l.loaded ∧
        ∀ k ∈ l.loaded, k ∈ earlyKeys l.performed) ∧
      (l.load.l1 = false → published l.performed = [] ∧ earlyKeys l.performed = []) := by
  have hall := (h.inv.gone hreg).1
  have hlog : l.st.log = l.performed := by rw [h.log, hpend, List.append_nil]
  constructor
  · intro hl1
    have hpub := h.inv.read_perm hall hl1 read_published
    have hearly := h.inv.read_perm hall hl1 read_early
    rw [hlog] at hpub hearly
    exact ⟨hpub, fun k hk => hearly.mem_iff.mpr hk⟩
  · intro hl1
    have hnil : l.performed = [] := by
      rw [← hlog, h.inv.log]
      refine List.flatMap_eq_nil_iff.mpr fun j _ => ?_
      rw [Load.publication, hl1, Streaming.publish, if_neg (by simp)]
    rw [hnil]
    exact ⟨rfl, rfl⟩

/-- A load's result is taken and its keys are finished: the original gets what the
proxy has not given it. -/
theorem Inv.finish [DecidableEq K] (h : Inv as s) {i : ℕ} {l : Loading K} {bits : Bitmap}
    (hl : s.loads[i]? = some l) (hpend : l.pending = []) (hfin : l.finished = false)
    (hbits : resultOf l.st = some bits) :
    Inv (as ++ [.finish i]) { finishKeys s (okKeys l.load.keys bits) with
      loads := s.loads.set i { l with finished := true } } := by
  have hok := h.each l (List.mem_of_getElem? hl)
  obtain ⟨rfl, hreg⟩ := resultOf_eq hok.inv hbits
  obtain ⟨hearly1, hearly0⟩ := hok.complete hpend hreg
  have hdone : Loading.Ok { l with finished := true } :=
    ⟨hok.inv, hok.log, fun _ => ⟨hreg, hpend⟩⟩
  obtain ⟨heach, hapart⟩ := h.replace hl hdone rfl nofun
  -- what the original gets now, and what it got before, is what was loaded
  have hrest : (l.passed ++ (patchedFwrr s.early l.loaded).2).Perm l.loaded := by
    have hpassed : l.passed = published l.performed := by
      rw [Loading.passed, hfin]
      rfl
    rw [hpassed]
    cases hl1 : l.load.l1 with
    | true =>
        obtain ⟨hpub, hmem⟩ := hearly1 hl1
        rw [patchedFwrr_skips fun k hk =>
          (h.early k).mpr ⟨l, List.mem_of_getElem? hl, hfin, hmem k hk⟩, List.append_nil]
        exact hpub
    | false =>
        obtain ⟨hpub, hnone⟩ := hearly0 hl1
        have hnot : ∀ k ∈ l.loaded, k ∉ s.early := by
          intro k hk hmem
          rcases (announced_iff hl).mp ((h.early k).mp hmem) with
            ⟨-, hmem⟩ | ⟨j, x, hne, hx, hxf, hxk⟩
          · rw [hnone] at hmem
            cases hmem
          · have hxkeys := Loading.loaded_subset
              ((h.each x (List.mem_of_getElem? hx)).early_loaded hxk)
            exact h.apart i j l x hl hx (Ne.symm hne) hfin hxf k (Loading.loaded_subset hk) hxkeys
        rw [hpub, patchedFwrr_rest hnot, List.nil_append]
  refine ⟨heach, hapart, ?_, fun k => ?_⟩
  · rw [others_concat as (by simp)]
    have hset : ((s.loads.set i { l with finished := true }).flatMap Loading.passed ++
        l.passed).Perm (s.loads.flatMap Loading.passed ++ l.loaded) :=
      perm_flatMap_set Loading.passed { l with finished := true } hl
    have hnew : ((s.loads.set i { l with finished := true }).flatMap Loading.passed).Perm
        (s.loads.flatMap Loading.passed ++ (patchedFwrr s.early l.loaded).2) := by
      refine (List.perm_append_right_iff l.passed).mp (hset.trans ?_)
      rw [List.append_assoc]
      exact (hrest.symm.trans List.perm_append_comm).append_left _
    show (s.calls ++ (patchedFwrr s.early l.loaded).2).Perm _
    refine (h.calls.append_right _).trans (List.Perm.trans ?_ (hnew.symm.append_right _))
    rw [List.append_assoc, List.append_assoc]
    exact List.perm_append_comm.append_left _
  · show k ∈ (patchedFwrr s.early l.loaded).1 ↔ _
    rw [mem_patchedFwrr, h.early, announced_set _ hl, announced_iff hl]
    constructor
    · rintro ⟨⟨-, hmem⟩ | hrest, hnot⟩
      · exact absurd (hok.early_loaded hmem) hnot
      · exact .inr hrest
    · rintro (⟨hover, -⟩ | ⟨j, x, hne, hx, hxf, hxk⟩)
      · cases hover
      · refine ⟨.inr ⟨j, x, hne, hx, hxf, hxk⟩, fun hmem => ?_⟩
        have hxkeys := Loading.loaded_subset
          ((h.each x (List.mem_of_getElem? hx)).early_loaded hxk)
        exact h.apart i j l x hl hx (Ne.symm hne) hfin hxf k (Loading.loaded_subset hmem) hxkeys

/-- A load is submitted with keys that no unfinished load has. -/
theorem Inv.submit (h : Inv as s) {L : Load K}
    (hapart : ∀ l ∈ s.loads, l.finished = false → ∀ k ∈ L.keys, k ∉ l.load.keys) :
    Inv (as ++ [.submit L])
      { s with loads := s.loads ++ [⟨L, Streaming.initial L, [], [], false⟩] } := by
  refine ⟨?_, ?_, ?_, fun k => ?_⟩
  · intro l hl
    rcases List.mem_append.mp hl with hl | hl
    · exact h.each l hl
    · rw [List.mem_singleton.mp hl]
      exact ⟨Streaming.inv_initial L, rfl, nofun⟩
  · intro i j x y hx hy hij hxf hyf k hkx hky
    rcases Threads.getElem?_concat_cases hx with ⟨hi, rfl⟩ | hx' <;>
      rcases Threads.getElem?_concat_cases hy with ⟨hj, rfl⟩ | hy'
    · exact hij (hi.trans hj.symm)
    · exact hapart y (List.mem_of_getElem? hy') hyf k hkx hky
    · exact hapart x (List.mem_of_getElem? hx') hxf k hky hkx
    · exact h.apart i j x y hx' hy' hij hxf hyf k hkx hky
  · rw [others_concat as (by simp)]
    simpa [Loading.passed, published] using h.calls
  · rw [h.early]
    simp [earlyKeys]

end Steps

/-! ## Runs -/

section Runs

variable [DecidableEq K] {s s' : St K} {as : List (Lbl K)}

/-- What one step preserves, with keys of unfinished loads apart. -/
theorem Inv.step {a : Lbl K} (h : Inv as s) (hapart : Apart s a)
    (hst : (machine K).step s a = some s') : Inv (as ++ [a]) s' := by
  cases a with
  | submit L =>
      cases hst
      exact h.submit hapart
  | load i a =>
      obtain ⟨l, hl, hst⟩ := Option.bind_eq_some_iff.mp hst
      -- the three labels of a load that step its inner machine take one path
      have hrun : ∀ {o : Option (Streaming.St K)}, (o.map fun st' => { s with
          loads := s.loads.set i { l with
            st := st', pending := l.pending ++ st'.log.drop l.st.log.length } }) = some s' →
          o = Streaming.step l.load l.st a → Inv (as ++ [.load i a]) s' := by
        rintro o ho rfl
        obtain ⟨st', hst', rfl⟩ := Option.map_eq_some_iff.mp ho
        exact h.stepLoad hl hst'
      split at hst
      · exact hrun hst rfl
      · exact hrun hst rfl
      · cases hst
  | publish i =>
      obtain ⟨l, hl, hst⟩ := Option.bind_eq_some_iff.mp hst
      -- nothing left to announce: no step
      split at hst
      · cases hst
      · rename_i e rest hpend
        cases hst
        exact h.publish hl hpend
  | finish i =>
      obtain ⟨l, hl, hst⟩ := Option.bind_eq_some_iff.mp hst
      -- the load has returned its bitmap and nothing is pending
      split at hst
      · rename_i bits hpend hfin hbits
        cases hst
        exact h.finish hl hpend hfin hbits
      · cases hst
  | other keys =>
      cases hst
      exact h.other hapart

/-- So the invariant holds along every such run. -/
theorem inv_of_run (hapart : (machine K).Along Apart initial as)
    (hrun : (machine K).run initial as = some s) : Inv as s := by
  refine Machine.run_induction (M := machine K) Inv ?_
    (fun as s a s' h _ hok hst => h.step hok hst) hapart hrun
  exact ⟨nofun, fun i j l l' hi => by simp [initial] at hi, .refl _, fun k => by simp [initial]⟩

end Runs

/-! ## The loads can be finished -/

/-- Steps of the loads in progress, and the finishing of their keys. -/
def Lbl.Own : Lbl K → Prop
  | .load _ _ | .publish _ | .finish _ => True
  | _ => False

/-- The sub-tasks that have not completed. -/
def Loading.unfinished (l : Loading K) : Finset ℕ :=
  (Finset.range l.load.count).filter fun j => l.st.completed j = false

/-- How far the poller is from the result, once every sub-task has completed. -/
def Loading.rounds (l : Loading K) : ℕ :=
  match l.st.registered, l.st.pc with
  | false, _ => 0
  | true, .scanning i true => 1 + (l.load.count - i)
  | true, .idle => l.load.count + 2
  | true, .scanning i false => l.load.count + 3 + (l.load.count - i)

def Loading.work (l : Loading K) : ℕ :=
  4 * l.rounds + l.pending.length + l.unfinished.card + (!l.finished).toNat

/-- A publication is at most three events. -/
theorem length_publish (l1 : Bool) (ok : List K) : (Streaming.publish l1 ok).length ≤ 3 := by
  unfold Streaming.publish
  split
  · exact Nat.le_refl 3
  · exact Nat.zero_le 3

section Progress

variable {l : Loading K}

/-- A load's step that is made by the load alone: what it does to the list of loads. -/
theorem load_enabled [DecidableEq K] {s : St K} {i : ℕ} {a : Streaming.Lbl}
    {st' : Streaming.St K} (hl : s.loads[i]? = some l) (hpend : l.pending = [])
    (hst : Streaming.step l.load l.st a = some st') :
    step s (.load i a) = some { s with loads := s.loads.set i { l with
      st := st', pending := l.pending ++ st'.log.drop l.st.log.length } } := by
  simp only [step, hl, Option.bind_some, hpend]
  cases a <;> simp [hst]

/-- A poll that found every sub-task completed and is through ends with the result. -/
theorem Loading.Ok.taken_of_scanned (h : l.Ok) {i : ℕ} (hpc : l.st.pc = .scanning i true)
    (hi : l.load.count ≤ i) : l.st.subs.any (·.bm.isNone) = false := by
  refine List.any_eq_false.mpr fun sub hsub => ?_
  obtain ⟨j, hj⟩ := List.mem_iff_getElem?.mp hsub
  obtain ⟨hlt, heq⟩ := h.inv.getElem hj
  have hmem := ((h.inv.scanning i true hpc).2 rfl j hlt).2 (by omega)
  rw [heq, Load.subAt, if_pos hmem]
  simp

/-- A poll step of a load all of whose sub-tasks have completed. -/
theorem Loading.Ok.poll (h : l.Ok) (hreg : l.st.registered = true)
    (hdone : ∀ j, j < l.load.count → l.st.completed j = true) :
    ∃ a st', Streaming.step l.load l.st a = some st' ∧ st'.completed = l.st.completed ∧
      (st'.log.drop l.st.log.length).length ≤ 3 ∧
      Loading.rounds { l with st := st' } < l.rounds := by
  cases hpc : l.st.pc with
  | idle =>
      refine ⟨.query, { l.st with pc := .scanning 0 (allDone l.load l.st) }, ?_, rfl, ?_, ?_⟩
      · simp only [Streaming.step, hpc, hreg, if_true]
      · simp
      · simp only [Loading.rounds, hreg, hpc, allDone_iff.mpr hdone]
        omega
  | scanning i all =>
      by_cases hi : i < l.st.subs.length
      · -- one more round
        obtain ⟨sub, hsub⟩ : ∃ sub, l.st.subs[i]? = some sub :=
          ⟨_, List.getElem?_eq_getElem hi⟩
        have hlen := h.inv.length
        have hrounds : ∀ st' : Streaming.St K, st'.registered = true →
            st'.pc = .scanning (i + 1) all → Loading.rounds { l with st := st' } < l.rounds := by
          intro st' hreg' hpc'
          cases all <;> simp only [Loading.rounds, hreg, hpc, hreg', hpc'] <;> omega
        have hst : ∃ st', Streaming.step l.load l.st .scan = some st' ∧
            st'.completed = l.st.completed ∧ (st'.log.drop l.st.log.length).length ≤ 3 ∧
            st'.registered = true ∧ st'.pc = .scanning (i + 1) all := by
          simp only [Streaming.step, hpc, hsub]
          split
          · refine ⟨_, rfl, rfl, ?_, hreg, rfl⟩
            rw [List.drop_left]
            exact length_publish _ _
          · exact ⟨_, rfl, rfl, by simp, hreg, rfl⟩
        obtain ⟨st', hst, hcompleted, hlog, hreg', hpc'⟩ := hst
        exact ⟨.scan, st', hst, hcompleted, hlog, hrounds st' hreg' hpc'⟩
      · -- the end of the poll
        have hi' : l.load.count ≤ i := by
          rw [← h.inv.length]
          omega
        cases hany : l.st.subs.any (·.bm.isNone) with
        | true =>
            cases all with
            | true =>
                rw [h.taken_of_scanned hpc hi'] at hany
                cases hany
            | false =>
                have hst : Streaming.step l.load l.st .finish = some { l.st with
                    pc := .idle
                    answers := l.st.answers ++ [⟨false, allDone l.load l.st, none⟩] } := by
                  simp only [Streaming.step, hpc, if_neg hi, hany, if_true]
                refine ⟨.finish, _, hst, rfl, by simp, ?_⟩
                simp only [Loading.rounds, hreg, hpc]
                omega
        | false =>
            have hst : Streaming.step l.load l.st .finish = some { l.st with
                pc := .idle
                registered := false
                answers := l.st.answers ++ [⟨all, allDone l.load l.st,
                  some (assemble 0 (List.replicate l.load.keys.length false) l.st.subs)⟩] } := by
              simp only [Streaming.step, hpc, if_neg hi, hany, Bool.false_eq_true, if_false]
            refine ⟨.finish, _, hst, rfl, by simp, ?_⟩
            cases all <;> simp only [Loading.rounds, hreg, hpc] <;> omega

/-- An unfinished load can always step on. -/
theorem progress [DecidableEq K] {s : St K} {i : ℕ} (h : l.Ok) (hl : s.loads[i]? = some l)
    (hfin : l.finished = false) :
    ∃ a s' l', Lbl.Own a ∧ step s a = some s' ∧ s'.loads = s.loads.set i l' ∧
      l'.load = l.load ∧ l'.work < l.work := by
  cases hpend : l.pending with
  | cons e rest =>
      refine ⟨.publish i, { perform s e with
        loads := s.loads.set i { l with performed := l.performed ++ [e], pending := rest } },
        { l with performed := l.performed ++ [e], pending := rest }, trivial, ?_, rfl, rfl, ?_⟩
      · simp only [step, hl, Option.bind_some, hpend]
      · simp [Loading.work, Loading.rounds, Loading.unfinished, hpend]
  | nil =>
      by_cases hdone : ∀ j, j < l.load.count → l.st.completed j = true
      · cases hreg : l.st.registered with
        | true =>
            obtain ⟨a, st', hst, hcompleted, hlog, hrounds⟩ := h.poll hreg hdone
            refine ⟨.load i a, _, _, trivial, load_enabled hl hpend hst, rfl, rfl, ?_⟩
            have hnew : Loading.work { l with
                st := st', pending := l.pending ++ st'.log.drop l.st.log.length } =
                4 * Loading.rounds { l with st := st' } + (st'.log.drop l.st.log.length).length +
                  l.unfinished.card + (!l.finished).toNat := by
              simp only [Loading.work, Loading.unfinished, hcompleted, hpend, List.nil_append]
              rfl
            have hold : l.work = 4 * l.rounds + l.unfinished.card + (!l.finished).toNat := by
              simp only [Loading.work, hpend, List.length_nil, Nat.add_zero]
            omega
        | false =>
            -- the result is there
            have hres : ∃ bits, resultOf l.st = some bits := by
              obtain ⟨early, late, a, heq, -, ha, -, -⟩ := (h.inv.gone hreg).2.once
              have hmem : a ∈ l.st.answers := by
                rw [heq]
                simp
              have hne : resultOf l.st ≠ none := by
                intro hnone
                have hnot := List.findSome?_eq_none_iff.mp hnone a hmem
                rw [ha] at hnot
                cases hnot
              exact Option.ne_none_iff_exists'.mp hne
            obtain ⟨bits, hbits⟩ := hres
            refine ⟨.finish i, { finishKeys s (okKeys l.load.keys bits) with
              loads := s.loads.set i { l with finished := true } }, { l with finished := true },
              trivial, ?_, rfl, rfl, ?_⟩
            · simp only [step, hl, Option.bind_some, hpend, hfin, hbits]
            · simp [Loading.work, Loading.rounds, Loading.unfinished, hfin]
      · -- the inner adapter completes a sub-task
        push Not at hdone
        obtain ⟨j, hj, hnot⟩ := hdone
        rw [ne_eq, Bool.not_eq_true] at hnot
        have hst : Streaming.step l.load l.st (.complete j) = some { l.st with
            results := Function.update l.st.results (l.load.tids j) (some (l.load.bits j))
            completed := Function.update l.st.completed j true } := by
          simp only [Streaming.step, hj, hnot, and_self, if_true]
        refine ⟨.load i (.complete j), _, _, trivial, load_enabled hl hpend hst, rfl, rfl, ?_⟩
        have hlt : (Finset.filter (fun k => Function.update l.st.completed j true k = false)
            (Finset.range l.load.count)).card < l.unfinished.card := by
          refine Finset.card_lt_card ⟨fun k hk => ?_, fun hsub => ?_⟩
          · obtain ⟨hk, hkf⟩ := Finset.mem_filter.mp hk
            have hkj : k ≠ j := by
              rintro rfl
              simp at hkf
            rw [Function.update_of_ne hkj] at hkf
            exact Finset.mem_filter.mpr ⟨hk, hkf⟩
          · have hmem := hsub (Finset.mem_filter.mpr ⟨Finset.mem_range.mpr hj, hnot⟩)
            have hkf := (Finset.mem_filter.mp hmem).2
            simp at hkf
        simp only [Loading.work, Loading.rounds, Loading.unfinished, List.drop_length,
          List.append_nil] at hlt ⊢
        omega

end Progress

/-- The loads' own steps are always apart. -/
theorem apart_of_own {s : St K} {a : Lbl K} (h : a.Own) : Apart s a := by
  cases a with
  | submit L => exact h.elim
  | other keys => exact h.elim
  | _ => trivial

/-- Steps of the loads alone finish all of them; the induction is on what is left to
do. -/
theorem finish_all [DecidableEq K] (n : ℕ) {as : List (Lbl K)} {s : St K} (h : Inv as s)
    (hn : (s.loads.map Loading.work).sum ≤ n) :
    ∃ bs s', (∀ b ∈ bs, Lbl.Own b) ∧ (machine K).run s bs = some s' ∧
      s'.loads.map Loading.load = s.loads.map Loading.load ∧
      ∀ l ∈ s'.loads, l.finished = true := by
  -- on the work the loads have left
  induction n generalizing as s with
  | zero =>
      refine ⟨[], s, nofun, rfl, rfl, fun l hl => ?_⟩
      have hzero : l.work = 0 := by
        have hle := List.le_sum_of_mem (List.mem_map_of_mem (f := Loading.work) hl)
        omega
      -- without work all loads have finished
      unfold Loading.work at hzero
      cases hfin : l.finished with
      | true => rfl
      | false => simp [hfin] at hzero
  | succ n ih =>
      by_cases hall : ∀ l ∈ s.loads, l.finished = true
      · exact ⟨[], s, nofun, rfl, rfl, hall⟩
      · push Not at hall
        obtain ⟨l, hmem, hfin⟩ := hall
        rw [ne_eq, Bool.not_eq_true] at hfin
        obtain ⟨i, hl⟩ := List.mem_iff_getElem?.mp hmem
        -- some load has not finished, so it can take a step of its own
        obtain ⟨a, s₁, l', hown, hst, hloads, hload, hlt⟩ := progress (h.each l hmem) hl hfin
        have hinv := h.step (apart_of_own hown) hst
        have hsum := sum_map_set (f := Loading.work) (g := Loading.work) (b := l') hl
          fun _ _ _ _ => rfl
        obtain ⟨bs, s', hbs, hrun, hkeep, hdone⟩ := ih hinv (by rw [hloads]; omega)
        refine ⟨a :: bs, s', List.forall_mem_cons.mpr ⟨hown, hbs⟩, ?_, ?_, hdone⟩
        · -- the first step, then the run that finishes the others
          rw [Machine.run]
          show (step s a).bind _ = _
          rw [hst]
          exact hrun
        · rw [hkeep, hloads, List.map_set, hload, ← List.map_set, set_same hl]

/-- A second load, of one key in one sub-task, without L1. -/
def oneKey : Load ℕ :=
  ⟨[20], 1, false, fun _ => .loaded, 2, id, Function.injective_id, 101, false⟩

/-- The loads of three keys and of one run side by side; the third key of the first
is published while its other sub-task is still reading. -/
def sideBySide : List (Lbl ℕ) :=
  [.submit threeKeys, .submit oneKey, .load 0 (.complete 1), .load 0 .query, .load 0 .scan,
    .load 0 .scan, .publish 0, .load 1 (.complete 0), .publish 0, .load 1 .query, .load 1 .scan,
    .load 0 (.complete 0), .load 1 .finish, .finish 1, .publish 0, .load 0 .finish, .load 0 .query,
    .load 0 .scan, .publish 0, .publish 0, .publish 0, .load 0 .scan, .load 0 .finish, .finish 0]

end LmcacheDaos.Mp.EarlyPublication
