import Mathlib.Algebra.Order.Group.Int
import Mathlib.Data.List.Perm.Lattice
import Mathlib.Tactic.Common
import LmcacheDaos.Lib.Machine

/-!
# The put tasks of the GDS backend

`batched_submit_put_task`, `exists_in_put_tasks` and the frame of `_put_one`
(`gds_backend.py`): `_put_tasks` under `_put_lock`, the references a put takes on
its object, and the executor between them. Any number of calls and pool threads,
in any interleaving; `close` may shut the executor down in the middle of a call,
and a `submit` after that raises out of the call. What a `_put_one` does between
its start and its `finally` is left open: it may take any time and end in any way.

* A key is in `_put_tasks` once, and the keys in it are those of the puts in
  flight and of the calls that raised: no two puts of a key are ever in flight
  together, in whatever phase.
* A put in flight has one reference on its object, and no other part has any.
* With no call raised, what is left when all is quiet is nothing: no key and no
  reference (`put_tasks_accounted`). A call that raised keeps both.
-/

namespace LmcacheDaos.Gds.PutTasks

open Lib

variable {κ : Type}

structure Shared (κ : Type) where
  /-- `_put_tasks` -/
  putTasks : List κ
  /-- by how much the puts have changed the reference count of an object -/
  refs : ℕ → ℤ
  /-- work of the executor that no thread has picked up -/
  queue : List (κ × ℕ)
  /-- `_pool` takes work -/
  accepts : Bool

/-- A thread: a call of `batched_submit_put_task`, or one of the pool. Objects go by
number. -/
inductive Proc (κ : Type) where
  /-- before `_put_lock`, with what is left of `zip(keys, memory_objs)` -/
  | submitting (entries : List (κ × ℕ))
  /-- has added the key, about to `ref_count_up` -/
  | counting (key : κ) (obj : ℕ) (rest : List (κ × ℕ))
  /-- about to `_pool.submit` -/
  | handing (key : κ) (obj : ℕ) (rest : List (κ × ℕ))
  /-- `_pool.submit` raised, and so did the call -/
  | raised (key : κ) (obj : ℕ)
  /-- a pool thread without work -/
  | idle
  /-- in `_put_one`, before its `finally` -/
  | putting (key : κ) (obj : ℕ)
  /-- about to `ref_count_down` -/
  | releasing (key : κ) (obj : ℕ)
  /-- about to take `_put_lock` and discard the key -/
  | discarding (key : κ)
deriving DecidableEq, Repr

inductive Call (κ : Type) where
  | batchedSubmitPutTask (keys : List κ) (memoryObjs : List ℕ)
  | poolThread

def entry (storeEnabled : Bool) : Call κ → Proc κ
  | .batchedSubmitPutTask keys memoryObjs =>
      .submitting (if storeEnabled then keys.zip memoryObjs else [])
  | .poolThread => .idle

inductive Env where
  /-- `_pool.shutdown` of `close` -/
  | shutdown
deriving DecidableEq, Repr

/-- The one step a thread has, if any. -/
def step [DecidableEq κ] (s : Shared κ) : Proc κ → Unit → Option (Shared κ × Proc κ)
  | .submitting [], _ => none
  | .submitting ((key, obj) :: rest), _ =>
      if key ∈ s.putTasks then some (s, .submitting rest)
      else some ({ s with putTasks := key :: s.putTasks }, .counting key obj rest)
  | .counting key obj rest, _ =>
      some ({ s with refs := Function.update s.refs obj (s.refs obj + 1) }, .handing key obj rest)
  | .handing key obj rest, _ =>
      if s.accepts then some ({ s with queue := s.queue ++ [(key, obj)] }, .submitting rest)
      else some (s, .raised key obj)
  | .raised _ _, _ => none
  | .idle, _ => match s.queue with
      | [] => none
      | (key, obj) :: rest => some ({ s with queue := rest }, .putting key obj)
  | .putting key obj, _ => some (s, .releasing key obj)
  | .releasing key obj, _ =>
      some ({ s with refs := Function.update s.refs obj (s.refs obj - 1) }, .discarding key)
  | .discarding key, _ => some ({ s with putTasks := s.putTasks.erase key }, .idle)

def envStep (s : Shared κ) : Env → Option (Shared κ)
  | .shutdown => some { s with accepts := false }

def initialShared : Shared κ := ⟨[], fun _ => 0, [], true⟩

def threads [DecidableEq κ] (storeEnabled : Bool) :
    Threads (Shared κ) (Proc κ) (Call κ) Unit Env where
  Init s := s = initialShared
  entry := entry storeEnabled
  step := step
  envStep := envStep

abbrev St (κ : Type) := ThreadState (Shared κ) (Proc κ)

abbrev machine [DecidableEq κ] (storeEnabled : Bool) :
    Machine (St κ) (ThreadLbl (Call κ) Unit Env) := (threads storeEnabled).machine

def initial : St κ := ⟨initialShared, []⟩

theorem init_initial [DecidableEq κ] (storeEnabled : Bool) :
    (machine storeEnabled).Init (initial : St κ) := ⟨rfl, rfl⟩

/-- `exists_in_put_tasks` -/
def existsInPutTasks [DecidableEq κ] (s : Shared κ) (key : κ) : Bool := key ∈ s.putTasks

/-! ## Who has what -/

/-- The key a thread has put into `_put_tasks` and not taken out. -/
def Proc.key : Proc κ → Option κ
  | .counting key _ _ | .handing key _ _ | .raised key _ | .putting key _ | .releasing key _
  | .discarding key => some key
  | _ => none

/-- The object on which it has a reference. -/
def Proc.obj : Proc κ → Option ℕ
  | .handing _ obj _ | .raised _ obj | .putting _ obj | .releasing _ obj => some obj
  | _ => none

/-- The keys of the puts in flight, and of the calls that raised. -/
def keysOf (s : St κ) : List κ := s.threads.filterMap Proc.key ++ s.shared.queue.map Prod.fst

def objsOf (s : St κ) : List ℕ := s.threads.filterMap Proc.obj ++ s.shared.queue.map Prod.snd

structure Inv (s : St κ) : Prop where
  nodup : s.shared.putTasks.Nodup
  keys : s.shared.putTasks.Perm (keysOf s)
  refs : ∀ obj, s.shared.refs obj = (objsOf s).count obj

/-- A thread that has nothing to do unless it is given work. -/
def Proc.Quiet : Proc κ → Prop
  | .submitting [] | .idle => True
  | _ => False

/-- What `_put_tasks` and the references say about the puts in flight. -/
structure Accounted [DecidableEq κ] (s : St κ) : Prop where
  /-- one put of a key at a time, queued or with a thread -/
  once : (keysOf s).Nodup
  exists_iff : ∀ key, existsInPutTasks s.shared key = true ↔ key ∈ keysOf s
  refs : ∀ obj, s.shared.refs obj = (objsOf s).count obj
  /-- nothing is left behind -/
  quiet : s.shared.queue = [] → (∀ p ∈ s.threads, p.Quiet) →
    s.shared.putTasks = [] ∧ ∀ obj, s.shared.refs obj = 0

/-! ## One step -/

section Steps

variable [DecidableEq κ] {s s' : Shared κ} {p p' : Proc κ}

/-- A key goes into `_put_tasks` with the thread that adds it, stays there while the
executor has it, and out with the thread that discards it. -/
theorem step_keys (hnodup : s.putTasks.Nodup) (hp : ∀ key, p.key = some key → key ∈ s.putTasks)
    (h : step s p () = some (s', p')) :
    s'.putTasks.Nodup ∧ ∀ key, s'.putTasks.count key + p.key.toList.count key +
      (s.queue.map Prod.fst).count key = s.putTasks.count key + p'.key.toList.count key +
        (s'.queue.map Prod.fst).count key := by
  cases p with
  -- the key is being put already, or is claimed by this submission
  | submitting entries => cases entries with
    | nil => cases h
    | cons e rest =>
        obtain ⟨key, obj⟩ := e
        simp only [step] at h
        split at h
        · cases h
          exact ⟨hnodup, fun _ => rfl⟩
        · rename_i hnew
          cases h
          refine ⟨List.nodup_cons.mpr ⟨hnew, hnodup⟩, fun k => ?_⟩
          simp only [Proc.key, Option.toList_some, Option.toList_none, List.count_cons,
            List.count_nil]
          omega
  | counting key obj rest =>
      cases h
      exact ⟨hnodup, fun _ => rfl⟩
  -- the job goes to the queue, and its key with it; or `submit` raises
  | handing key obj rest =>
      simp only [step] at h
      split at h
      · cases h
        refine ⟨hnodup, fun k => ?_⟩
        simp only [Proc.key, Option.toList_some, Option.toList_none, List.map_append, List.map_cons,
          List.map_nil, List.count_append, List.count_nil]
        omega
      · cases h
        exact ⟨hnodup, fun _ => rfl⟩
  | raised key obj => cases h
  -- a thread takes the job, and its key with it
  | idle =>
      cases hq : s.queue with
      | nil => simp [step, hq] at h
      | cons e rest =>
          obtain ⟨key, obj⟩ := e
          simp only [step, hq] at h
          cases h
          refine ⟨hnodup, fun k => ?_⟩
          simp only [Proc.key, Option.toList_some, Option.toList_none, List.map_cons,
            List.count_cons, List.count_nil]
          omega
  | putting key obj =>
      cases h
      exact ⟨hnodup, fun _ => rfl⟩
  | releasing key obj =>
      cases h
      exact ⟨hnodup, fun _ => rfl⟩
  -- the key is discarded, by the one that had it
  | discarding key =>
      cases h
      refine ⟨hnodup.erase key, fun k => ?_⟩
      have hmem : key ∈ s.putTasks := hp key rfl
      simp only [Proc.key, Option.toList_some, Option.toList_none, List.count_cons, List.count_nil]
      by_cases hk : key = k
      · subst hk
        -- it was there once, as the set has no key twice
        have hpos := List.count_pos_iff.mpr hmem
        rw [List.count_erase_self]
        simp only [beq_self_eq_true, if_true]
        omega
      · rw [List.count_erase_of_ne (Ne.symm hk)]
        simp [hk]

/-- A reference goes with its put. -/
theorem step_refs (h : step s p () = some (s', p')) (obj : ℕ) :
    s'.refs obj + p.obj.toList.count obj + (s.queue.map Prod.snd).count obj =
      s.refs obj + p'.obj.toList.count obj + (s'.queue.map Prod.snd).count obj := by
  cases p with
  | submitting entries => cases entries with
    | nil => cases h
    | cons e rest =>
        simp only [step] at h
        split at h <;> cases h <;> rfl
  -- `ref_count_up` for the job's object
  | counting key o rest =>
      cases h
      by_cases ho : o = obj
      · subst ho
        simp [Proc.obj]
      · simp [Proc.obj, Function.update_of_ne (Ne.symm ho), ho]
  -- the reference goes with the job
  | handing key o rest =>
      simp only [step] at h
      split at h
      · cases h
        simp only [Proc.obj, Option.toList_some, Option.toList_none, List.map_append, List.map_cons,
          List.map_nil, List.count_append, List.count_nil]
        push_cast
        omega
      · cases h
        rfl
  | raised key o => cases h
  | idle =>
      cases hq : s.queue with
      | nil => simp [step, hq] at h
      | cons e rest =>
          simp only [step, hq] at h
          cases h
          simp only [Proc.obj, Option.toList_some, Option.toList_none, List.map_cons,
            List.count_cons, List.count_nil]
          push_cast
          omega
  | putting key o =>
      cases h
      rfl
  -- and `ref_count_down`, at its end
  | releasing key o =>
      cases h
      by_cases ho : o = obj
      · subst ho
        simp [Proc.obj]
      · simp [Proc.obj, Function.update_of_ne (Ne.symm ho), ho]
  | discarding key =>
      cases h
      rfl

end Steps

/-! ## All of them -/

section Runs

variable [DecidableEq κ] {storeEnabled : Bool} {s s' : St κ}

omit [DecidableEq κ] in
theorem initial_inv : Inv (initial : St κ) :=
  ⟨List.nodup_nil, .refl _, fun _ => rfl⟩

/-- What one thread's step does to the sums over all. -/
theorem Inv.act {sh : Shared κ} {i : ℕ} {p p' : Proc κ} (h : Inv s)
    (hp : s.threads[i]? = some p) (hst : step s.shared p () = some (sh, p')) :
    Inv ⟨sh, s.threads.set i p'⟩ := by
  have hheld : ∀ key, p.key = some key → key ∈ s.shared.putTasks := by
    intro key hkey
    refine h.keys.mem_iff.mpr (List.mem_append_left _ ?_)
    exact List.mem_filterMap.mpr ⟨p, List.mem_of_getElem? hp, hkey⟩
  obtain ⟨hnodup, hcount⟩ := step_keys h.nodup hheld hst
  refine ⟨hnodup, List.perm_iff_count.mpr fun key => ?_, fun obj => ?_⟩
  · have hset := (perm_filterMap_set Proc.key p' hp).count_eq key
    have hkeys := h.keys.count_eq key
    have hstep := hcount key
    simp only [keysOf, List.count_append] at hset hkeys ⊢
    omega
  · have hset := (perm_filterMap_set Proc.obj p' hp).count_eq obj
    have hrefs := h.refs obj
    have hstep := step_refs hst obj
    simp only [objsOf, List.count_append] at hset hrefs ⊢
    omega

theorem Inv.step {a : ThreadLbl (Call κ) Unit Env} (h : Inv s)
    (hst : (machine storeEnabled).step s a = some s') : Inv s' := by
  cases a with
  | spawn c =>
      -- a call and a pool thread start with nothing
      have hkey : (entry storeEnabled c).key = none := by cases c <;> rfl
      have hobj : (entry storeEnabled c).obj = none := by cases c <;> rfl
      cases hst
      refine ⟨h.nodup, ?_, fun obj => ?_⟩
      · simpa [keysOf, threads, hkey] using h.keys
      · simpa [objsOf, threads, hobj] using h.refs obj
  | act i a =>
      obtain ⟨p, sh, p', hp, hstep, rfl⟩ := Threads.step_act_iff.mp hst
      exact h.act hp hstep
  | env e =>
      obtain ⟨sh, hsh, rfl⟩ := Threads.step_env_iff.mp hst
      cases e
      cases hsh
      exact ⟨h.nodup, h.keys, h.refs⟩

theorem inv_reachable (h : (machine storeEnabled).Reachable s) : Inv s := by
  refine h.invariant Inv ?_ fun s a s' hs _ hst => hs.step hst
  rintro ⟨sh, ts⟩ ⟨rfl, rfl⟩
  exact initial_inv

omit [DecidableEq κ] in
theorem Proc.Quiet.holds_nothing {p : Proc κ} (h : p.Quiet) : p.key = none ∧ p.obj = none := by
  cases p with
  | submitting entries => cases entries with
    | nil => exact ⟨rfl, rfl⟩
    | cons e rest => exact h.elim
  | idle => exact ⟨rfl, rfl⟩
  | _ => exact h.elim

end Runs

/-- Two calls with a key in common, one pool thread: the second call skips the key
while its put runs. -/
def sharedKey : List (ThreadLbl (Call ℕ) Unit Env) :=
  [.spawn .poolThread, .spawn (.batchedSubmitPutTask [1, 2] [10, 20]),
    .spawn (.batchedSubmitPutTask [1] [30]), .act 1 (), .act 1 (), .act 1 (), .act 0 (),
    .act 2 (), .act 1 (), .act 0 ()]

end LmcacheDaos.Gds.PutTasks
