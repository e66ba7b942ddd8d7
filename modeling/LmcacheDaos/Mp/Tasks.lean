import Mathlib.Data.List.Nodup
import Mathlib.Data.List.Perm.Basic
import Mathlib.Tactic.Common
import LmcacheDaos.Lib.Machine

/-!
# Task delivery of the MP L2 adapter

`submit_store_task`, `submit_lookup_and_lock_task` and `submit_load_task` with
their executors, and `pop_completed_store_tasks`,
`query_lookup_and_lock_result` and `query_load_result` (`mp/l2_adapter.py`).
One thread stands for a task from the call that submits it to its signal; a
step is one critical section of `self._lock`, the job of one key, the end of
the fan-out, the listener callbacks or the `notify()`. The consumers are one
critical section each and come in between anywhere.

A key's job returns anything or raises anything: the executors catch every
`Exception` around the fan-out and go on to record a result. Jobs that outlive
a fan-out that raised touch nothing of this.

Result (`Delivery`): in every reachable state the task ids are different, each
result is recorded once, before the task's signal, each recorded result is in
its table or has been handed out once, and `_inflight` counts the tasks that
have an id and have not finished.
-/

namespace LmcacheDaos.Mp.Tasks

open Lib

inductive Kind where
  | store
  | lookup
  | load
deriving DecidableEq, Repr

/-- `L2StoreResult`, or a `Bitmap`. -/
inductive TaskResult where
  | stored (success : Bool) (bytes : ℕ)
  | bitmap (bits : List Bool)
deriving DecidableEq, Repr

/-- What a key's function comes to: a number (`_store_one`: bytes, 0 if
skipped, -1 on error; `_lookup_one` and `_load_one`: 1 or 0), or an exception
it does not catch. -/
abbrev KeyEnd := Option ℤ

/-- `list(pool.map(..))`: the results in order, up to the first exception; it
waits for those before it. -/
def mapResults : List (Option KeyEnd) → Option (Option (List ℤ))
  | [] => some (some [])
  | none :: _ => none
  | some none :: _ => some none
  | some (some r) :: rest => (mapResults rest).map fun rs => rs.map (r :: ·)

/-- `_FairDispatcher.run`: waits for all; an item that raised is `False`. -/
def fairResults (slots : List (Option KeyEnd)) : Option (Option (List ℤ)) :=
  (slots.mapM id).map fun rs => some (rs.map fun r => r.getD 0)

/-- What the executor makes of its fan-out; nothing in `rs` when it raised. -/
def taskResult (n : ℕ) (rs : Option (List ℤ)) : Kind → TaskResult
  | .store => match rs with
      | some rs => .stored (rs.all (0 ≤ ·)) (rs.map Int.toNat).sum
      | none => .stored false 0
  | _ => match rs with
      | some rs => .bitmap (rs.map (· ≠ 0))
      | none => .bitmap (List.replicate n false)

/-- Where a task is. -/
inductive Task where
  /-- in its `submit_.._task`, before `_new_task_id` -/
  | new (kind : Kind) (keys : ℕ)
  /-- has its id, not yet handed to the task pool -/
  | assigned (kind : Kind) (keys : ℕ) (tid : ℕ)
  /-- its keys are out, one slot each -/
  | mapping (kind : Kind) (tid : ℕ) (slots : List (Option KeyEnd))
  /-- about to record this result -/
  | recording (kind : Kind) (tid : ℕ) (r : TaskResult)
  /-- recorded, about to note and call the listeners -/
  | recorded (kind : Kind) (tid : ℕ) (r : TaskResult)
  /-- at `_finish` -/
  | told (kind : Kind) (tid : ℕ) (r : TaskResult)
  /-- finished, about to notify -/
  | finished (kind : Kind) (tid : ℕ) (r : TaskResult)
  | done (kind : Kind) (tid : ℕ) (r : TaskResult)
deriving DecidableEq, Repr

structure Shared where
  nextTaskId : ℕ
  inflight : ℤ
  /-- `_completed_store`, `_completed_lookup` and `_completed_load` -/
  completed : Kind → List (ℕ × TaskResult)
  /-- every entry made in each table (not kept by the code) -/
  records : Kind → List (ℕ × TaskResult)
  /-- everything handed out from each table (not kept by the code) -/
  handed : Kind → List (ℕ × TaskResult)
  /-- the task of every `notify()` (not kept by the code) -/
  signals : List ℕ

/-- `d[tid] = r` -/
def dictSet (d : List (ℕ × TaskResult)) (tid : ℕ) (r : TaskResult) : List (ℕ × TaskResult) :=
  d.filter (·.1 ≠ tid) ++ [(tid, r)]

/-- `d.pop(tid, None)`: what it returns, and what is left. -/
def dictPop (d : List (ℕ × TaskResult)) (tid : ℕ) :
    List (ℕ × TaskResult) × List (ℕ × TaskResult) :=
  (d.filter (·.1 = tid), d.filter (·.1 ≠ tid))

inductive Act where
  /-- `_new_task_id` -/
  | newTaskId
  /-- `self._tasks.submit` -/
  | submit
  /-- the job of key `j` ends -/
  | job (j : ℕ) (e : KeyEnd)
  /-- the fan-out ends or raises -/
  | collect
  | record
  /-- `_note_ok` and the listener callbacks -/
  | listeners
  /-- `_finish` -/
  | finish
  /-- the event notifier -/
  | notify
deriving DecidableEq, Repr

def step (fair : Bool) (s : Shared) : Task → Act → Option (Shared × Task)
  | .new kind n, .newTaskId =>
      some ({ s with nextTaskId := s.nextTaskId + 1, inflight := s.inflight + 1 },
        .assigned kind n s.nextTaskId)
  | .assigned kind n tid, .submit => some (s, .mapping kind tid (List.replicate n none))
  | .mapping kind tid slots, .job j e =>
      if slots[j]? = some none then some (s, .mapping kind tid (slots.set j (some e))) else none
  | .mapping kind tid slots, .collect =>
      -- `_FairDispatcher` turns an exception into `False`, `pool.map` raises it
      (if fair ∧ kind = .load then fairResults slots else mapResults slots).map fun rs =>
        (s, .recording kind tid (taskResult slots.length rs kind))
  | .recording kind tid r, .record =>
      -- after the `except`, so also for a fan-out that raised
      some ({ s with
        completed := Function.update s.completed kind (dictSet (s.completed kind) tid r)
        records := Function.update s.records kind (s.records kind ++ [(tid, r)]) },
        .recorded kind tid r)
  | .recorded kind tid r, .listeners => some (s, .told kind tid r)
  | .told kind tid r, .finish =>
      some ({ s with inflight := s.inflight - 1 }, .finished kind tid r)
  | .finished kind tid r, .notify =>
      some ({ s with signals := s.signals ++ [tid] }, .done kind tid r)
  | _, _ => none

/-- The consumers. -/
inductive Env where
  /-- `pop_completed_store_tasks` -/
  | popCompletedStoreTasks
  /-- `query_lookup_and_lock_result` -/
  | queryLookupAndLockResult (tid : ℕ)
  /-- `query_load_result` -/
  | queryLoadResult (tid : ℕ)
deriving DecidableEq, Repr

/-- A consumer takes `out` from the table of this kind and leaves `rest`. -/
def handOut (s : Shared) (kind : Kind) (out rest : List (ℕ × TaskResult)) : Shared :=
  { s with
    completed := Function.update s.completed kind rest
    handed := Function.update s.handed kind (s.handed kind ++ out) }

def envStep (s : Shared) : Env → Option Shared
  | .popCompletedStoreTasks => some (handOut s .store (s.completed .store) [])
  | .queryLookupAndLockResult tid =>
      let r := dictPop (s.completed .lookup) tid
      some (handOut s .lookup r.1 r.2)
  | .queryLoadResult tid =>
      let r := dictPop (s.completed .load) tid
      some (handOut s .load r.1 r.2)

def initialShared : Shared := ⟨0, 0, fun _ => [], fun _ => [], fun _ => [], []⟩

/-- Tasks of any kind and any number of keys, from any threads. -/
def threads (fair : Bool) : Threads Shared Task (Kind × ℕ) Act Env where
  Init s := s = initialShared
  entry c := .new c.1 c.2
  step := step fair
  envStep := envStep

abbrev St := ThreadState Shared Task

abbrev Lbl := ThreadLbl (Kind × ℕ) Act Env

def machine (fair : Bool) : Machine St Lbl := (threads fair).machine

def initial : St := ⟨initialShared, []⟩

/-! ## What a task has done -/

def Task.tid : Task → Option ℕ
  | .new _ _ => none
  | .assigned _ _ tid | .mapping _ tid _ | .recording _ tid _ | .recorded _ tid _
  | .told _ tid _ | .finished _ tid _ | .done _ tid _ => some tid

/-- The entry a task has made in the table of this kind. -/
def Task.entry (kind : Kind) : Task → Option (ℕ × TaskResult)
  | .recorded k tid r | .told k tid r | .finished k tid r | .done k tid r =>
      if k = kind then some (tid, r) else none
  | _ => none

/-- The task has signalled. -/
def Task.signal : Task → Option ℕ
  | .done _ tid _ => some tid
  | _ => none

/-- The task has an id and has not finished. -/
def Task.open : Task → Option ℕ
  | .assigned _ _ tid | .mapping _ tid _ | .recording _ tid _ | .recorded _ tid _
  | .told _ tid _ => some tid
  | _ => none

/-- The books: ids, open tasks, entries and signals are those of the tasks,
and what was entered in a table is still there or was handed out. -/
structure Inv (s : St) : Prop where
  ids : (s.threads.filterMap Task.tid).Perm (List.range s.shared.nextTaskId)
  inflight : s.shared.inflight = (s.threads.filterMap Task.open).length
  records : ∀ k, (s.threads.filterMap (Task.entry k)).Perm (s.shared.records k)
  signals : (s.threads.filterMap Task.signal).Perm s.shared.signals
  kept : ∀ k, (s.shared.records k).Perm (s.shared.completed k ++ s.shared.handed k)

theorem Inv.nodup_ids {s : St} (h : Inv s) : (s.threads.filterMap Task.tid).Nodup :=
  h.ids.nodup_iff.mpr List.nodup_range

/-- A task's entry carries its id. -/
theorem tid_of_entry {p : Task} {k : Kind} {e : ℕ × TaskResult} (h : p.entry k = some e) :
    p.tid = some e.1 := by
  cases p <;> simp only [Task.entry, reduceCtorEq] at h
  all_goals
    split at h
    · cases h
      rfl
    · cases h

/-- A task that is about to record has no entry in its table. -/
theorem not_completed_of_recording {s : St} (h : Inv s) {i : ℕ} {k : Kind} {tid : ℕ}
    {r : TaskResult} (hi : s.threads[i]? = some (.recording k tid r)) :
    ∀ e ∈ s.shared.completed k, e.1 ≠ tid := by
  intro e he heq
  have hrec : e ∈ s.shared.records k := (h.kept k).mem_iff.mpr (List.mem_append_left _ he)
  obtain ⟨q, hq, hent⟩ := List.mem_filterMap.mp ((h.records k).mem_iff.mpr hrec)
  obtain ⟨j, hj⟩ := List.mem_iff_getElem?.mp hq
  -- the task of that entry has the same id, so it is the same task
  have hij : i = j := index_unique h.nodup_ids hi hj rfl (heq ▸ tid_of_entry hent)
  subst hij
  rw [hi] at hj
  cases hj
  cases hent

/-- A step that touches neither the books nor what the task contributes. -/
theorem Inv.quiet {s : St} (h : Inv s) {i : ℕ} {p p' : Task} (hi : s.threads[i]? = some p)
    (htid : p'.tid = p.tid) (hopen : p'.open = p.open) (hentry : ∀ k, p'.entry k = p.entry k)
    (hsignal : p'.signal = p.signal) : Inv ⟨s.shared, s.threads.set i p'⟩ where
  ids := .trans (perm_filterMap_set_same hi htid) h.ids
  inflight := h.inflight.trans (congrArg _ (perm_filterMap_set_same hi hopen).symm.length_eq)
  records k := .trans (perm_filterMap_set_same hi (hentry k)) (h.records k)
  signals := .trans (perm_filterMap_set_same hi hsignal) h.signals
  kept := h.kept

/-- A task gets an id that no other has. -/
theorem inv_newTaskId {s : St} (h : Inv s) {i n : ℕ} {kind : Kind}
    (hi : s.threads[i]? = some (.new kind n)) :
    Inv ⟨{ s.shared with
      nextTaskId := s.shared.nextTaskId + 1, inflight := s.shared.inflight + 1 },
      s.threads.set i (.assigned kind n s.shared.nextTaskId)⟩ where
  ids := by
    rw [List.range_succ]
    exact .trans (perm_filterMap_set_new hi rfl rfl) (h.ids.append_right _)
  inflight := by
    have hlen := (perm_filterMap_set Task.open (.assigned kind n s.shared.nextTaskId) hi).length_eq
    simp only [Task.open, Option.toList_some, Option.toList_none, List.append_nil,
      List.length_append, List.length_singleton] at hlen
    have := h.inflight
    simp only
    omega
  records k := .trans (perm_filterMap_set_same hi rfl) (h.records k)
  signals := .trans (perm_filterMap_set_same hi rfl) h.signals
  kept := h.kept

/-- The executor records the result of its own task. -/
theorem inv_record {s : St} (h : Inv s) {i tid : ℕ} {kind : Kind} {r : TaskResult}
    (hi : s.threads[i]? = some (.recording kind tid r)) :
    Inv ⟨{ s.shared with
      completed := Function.update s.shared.completed kind
        (dictSet (s.shared.completed kind) tid r)
      records := Function.update s.shared.records kind (s.shared.records kind ++ [(tid, r)]) },
      s.threads.set i (.recorded kind tid r)⟩ where
  ids := .trans (perm_filterMap_set_same hi rfl) h.ids
  inflight := by
    have hlen :=
      (perm_filterMap_set_same (f := Task.open) (b := .recorded kind tid r) hi rfl).length_eq
    exact h.inflight.trans (congrArg _ hlen.symm)
  records k := by
    by_cases hk : k = kind
    · subst hk
      simp only [Function.update_self]
      exact .trans (perm_filterMap_set_new hi rfl (by simp [Task.entry]))
        ((h.records k).append_right _)
    · simp only [Function.update_of_ne hk]
      refine .trans (perm_filterMap_set_same hi ?_) (h.records k)
      simp [Task.entry, Ne.symm hk]
  signals := .trans (perm_filterMap_set_same hi rfl) h.signals
  kept k := by
    by_cases hk : k = kind
    · subst hk
      simp only [Function.update_self, dictSet]
      -- the table has no older entry to replace
      have hfresh : (s.shared.completed k).filter (fun e => e.1 ≠ tid) = s.shared.completed k := by
        refine List.filter_eq_self.mpr fun e he => ?_
        exact decide_eq_true (not_completed_of_recording h hi e he)
      rw [hfresh, List.append_assoc]
      refine ((h.kept k).append_right _).trans ?_
      rw [List.append_assoc]
      exact List.perm_append_comm.append_left _
    · simp only [Function.update_of_ne hk]
      exact h.kept k

/-- A task that has recorded its result leaves `_inflight`. -/
theorem inv_finish {s : St} (h : Inv s) {i tid : ℕ} {kind : Kind} {r : TaskResult}
    (hi : s.threads[i]? = some (.told kind tid r)) :
    Inv ⟨{ s.shared with inflight := s.shared.inflight - 1 },
      s.threads.set i (.finished kind tid r)⟩ where
  ids := .trans (perm_filterMap_set_same hi rfl) h.ids
  inflight := by
    have hlen := (perm_filterMap_set Task.open (.finished kind tid r) hi).length_eq
    simp only [Task.open, Option.toList_some, Option.toList_none, List.append_nil,
      List.length_append, List.length_singleton] at hlen
    have := h.inflight
    simp only
    omega
  records k := .trans (perm_filterMap_set_same hi rfl) (h.records k)
  signals := .trans (perm_filterMap_set_same hi rfl) h.signals
  kept := h.kept

/-- The signal comes last. -/
theorem inv_notify {s : St} (h : Inv s) {i tid : ℕ} {kind : Kind} {r : TaskResult}
    (hi : s.threads[i]? = some (.finished kind tid r)) :
    Inv ⟨{ s.shared with signals := s.shared.signals ++ [tid] },
      s.threads.set i (.done kind tid r)⟩ where
  ids := .trans (perm_filterMap_set_same hi rfl) h.ids
  inflight := by
    have hlen := (perm_filterMap_set_same (f := Task.open) (b := .done kind tid r) hi rfl).length_eq
    exact h.inflight.trans (congrArg _ hlen.symm)
  records k := .trans (perm_filterMap_set_same hi rfl) (h.records k)
  signals := .trans (perm_filterMap_set_new hi rfl rfl) (h.signals.append_right _)
  kept := h.kept

/-- A consumer moves entries from a table to what was handed out. -/
theorem inv_handOut {s : St} (h : Inv s) {kind : Kind} {out rest : List (ℕ × TaskResult)}
    (hperm : (s.shared.completed kind).Perm (out ++ rest)) :
    Inv { s with shared := handOut s.shared kind out rest } where
  ids := h.ids
  inflight := h.inflight
  records := h.records
  signals := h.signals
  kept k := by
    by_cases hk : k = kind
    · subst hk
      simp only [handOut, Function.update_self]
      refine (h.kept k).trans ((hperm.append_right _).trans ?_)
      rw [List.append_assoc]
      exact List.perm_append_comm.trans (by simp)
    · simp only [handOut, Function.update_of_ne hk]
      exact h.kept k

theorem dictPop_perm (d : List (ℕ × TaskResult)) (tid : ℕ) :
    d.Perm ((dictPop d tid).1 ++ (dictPop d tid).2) := by
  have h := List.filter_append_perm (fun e : ℕ × TaskResult => decide (e.1 = tid)) d
  simpa [dictPop] using h.symm

/-- What one step preserves. -/
theorem step_inv {fair : Bool} {s s' : St} {a : Lbl} (h : Inv s)
    (hst : (machine fair).step s a = some s') : Inv s' := by
  cases a with
  | spawn c =>
      cases hst
      -- a new task has contributed nothing yet
      have hnew : ∀ {β : Type} (f : Task → Option β), f (.new c.1 c.2) = none →
          (s.threads ++ [Task.new c.1 c.2]).filterMap f = s.threads.filterMap f := by
        intro β f hf
        simp [List.filterMap_append, hf]
      refine ⟨?_, ?_, fun k => ?_, ?_, h.kept⟩
      · exact (hnew Task.tid rfl) ▸ h.ids
      · exact (hnew Task.open rfl) ▸ h.inflight
      · exact (hnew (Task.entry k) rfl) ▸ h.records k
      · exact (hnew Task.signal rfl) ▸ h.signals
  | act i a =>
      obtain ⟨p, sh, p', hi, hstep, rfl⟩ := Threads.step_act_iff.mp hst
      have hstep : step fair s.shared p a = some (sh, p') := hstep
      unfold step at hstep
      split at hstep
      · cases hstep
        exact inv_newTaskId h hi
      · cases hstep
        exact h.quiet hi rfl rfl (fun _ => rfl) rfl
      · split at hstep <;> cases hstep
        exact h.quiet hi rfl rfl (fun _ => rfl) rfl
      · obtain ⟨rs, -, heq⟩ := Option.map_eq_some_iff.mp hstep
        cases heq
        exact h.quiet hi rfl rfl (fun _ => rfl) rfl
      · cases hstep
        exact inv_record h hi
      · cases hstep
        exact h.quiet hi rfl rfl (fun _ => rfl) rfl
      · cases hstep
        exact inv_finish h hi
      · cases hstep
        exact inv_notify h hi
      · cases hstep
  | env e =>
      obtain ⟨sh, hstep, rfl⟩ := Threads.step_env_iff.mp hst
      have hstep : envStep s.shared e = some sh := hstep
      cases e with
      | popCompletedStoreTasks =>
          cases hstep
          exact inv_handOut h (by simp)
      | queryLookupAndLockResult tid =>
          cases hstep
          exact inv_handOut h (dictPop_perm _ _)
      | queryLoadResult tid =>
          cases hstep
          exact inv_handOut h (dictPop_perm _ _)

/-- So the invariant holds in every reachable state. -/
theorem inv_of_reachable {fair : Bool} {s : St} (h : (machine fair).Reachable s) : Inv s := by
  refine h.invariant Inv ?_ fun s a s' hs _ hst => step_inv hs hst
  rintro ⟨sh, ts⟩ ⟨hs, hnil⟩
  cases hs
  cases hnil
  exact ⟨.refl _, rfl, fun _ => .refl _, .refl _, fun _ => .refl _⟩

/-! ## Delivery -/

/-- The task has recorded its result. -/
def Task.hasRecorded : Task → Bool
  | .recorded _ _ _ | .told _ _ _ | .finished _ _ _ | .done _ _ _ => true
  | _ => false

def Task.kind : Task → Kind
  | .new k _ | .assigned k _ _ | .mapping k _ _ | .recording k _ _ | .recorded k _ _
  | .told k _ _ | .finished k _ _ | .done k _ _ => k

/-- Exactly-once delivery, read off one state. -/
structure Delivery (s : St) : Prop where
  /-- no two tasks have one id -/
  distinct : ∀ (i j : ℕ) p q n, s.threads[i]? = some p → s.threads[j]? = some q →
    p.tid = some n → q.tid = some n → i = j
  /-- a task's table has exactly one entry under its id ever made, from the
  moment the task recorded it on, and no other table has any -/
  recorded_once : ∀ p ∈ s.threads, ∀ n, p.tid = some n → ∀ k,
    ((s.shared.records k).map Prod.fst).count n =
      if p.hasRecorded ∧ k = p.kind then 1 else 0
  /-- the notifier was signalled once for a task at its end, and not before;
  the result was recorded by then -/
  signalled_once : ∀ p ∈ s.threads, ∀ n, p.tid = some n →
    s.shared.signals.count n = (if p.signal.isSome then 1 else 0) ∧
      (n ∈ s.shared.signals → p.hasRecorded = true)
  /-- a recorded result is in its table and not handed out, or out of it and
  handed out by exactly one call -/
  handed_once : ∀ p ∈ s.threads, ∀ k e, p.entry k = some e →
    (s.shared.completed k).count e + (s.shared.handed k).count e = 1
  /-- nothing else is in a table or was handed out -/
  handed_own : ∀ k, ∀ e ∈ s.shared.completed k ++ s.shared.handed k,
    ∃ p ∈ s.threads, p.entry k = some e
  /-- `_inflight` counts the submitted tasks that have not finished -/
  inflight : s.shared.inflight = s.threads.countP fun p => p.open.isSome

theorem entry_eq_some {p : Task} {k : Kind} {n : ℕ} (hp : p.tid = some n) :
    (∃ e, p.entry k = some e) ↔ p.hasRecorded = true ∧ k = p.kind := by
  cases p <;> simp [Task.entry, Task.hasRecorded, Task.kind, eq_comm]

/-- How often a task's id occurs among contributions that carry ids. -/
theorem count_contributed {s : St} (h : Inv s) {g : Task → Option ℕ}
    (hg : ∀ p n, g p = some n → p.tid = some n) {p : Task} (hp : p ∈ s.threads) {n : ℕ}
    (hn : p.tid = some n) : (s.threads.filterMap g).count n = if (g p).isSome then 1 else 0 := by
  have hnd : (s.threads.filterMap g).Nodup :=
    (filterMap_sublist_filterMap hg s.threads).nodup h.nodup_ids
  obtain ⟨i, hi⟩ := List.mem_iff_getElem?.mp hp
  have hmem : n ∈ s.threads.filterMap g ↔ (g p).isSome = true := by
    constructor
    · intro hin
      obtain ⟨q, hq, hgq⟩ := List.mem_filterMap.mp hin
      obtain ⟨j, hj⟩ := List.mem_iff_getElem?.mp hq
      -- the task it comes from has the same id
      have hij : i = j := index_unique h.nodup_ids hi hj hn (hg q n hgq)
      subst hij
      rw [hi] at hj
      cases hj
      rw [hgq]
      rfl
    · intro hsome
      obtain ⟨m, hm⟩ := Option.isSome_iff_exists.mp hsome
      have hmn := hg p m hm
      rw [hn] at hmn
      cases hmn
      exact List.mem_filterMap.mpr ⟨p, hp, hm⟩
  rw [List.Nodup.count hnd]
  exact if_congr hmem rfl rfl

/-- What the invariant says about ids, results and signals. -/
theorem Inv.delivery {s : St} (h : Inv s) : Delivery s where
  distinct i j p q n hi hj hp hq := index_unique h.nodup_ids hi hj hp hq
  -- the records' ids are those of the tasks that have recorded, and ids are unique
  recorded_once p hp n hn k := by
    have hperm := ((h.records k).map Prod.fst).count_eq n
    rw [List.map_filterMap] at hperm
    rw [← hperm, count_contributed h ?_ hp hn]
    · refine if_congr ?_ rfl rfl
      rw [Option.isSome_map, Option.isSome_iff_exists]
      exact entry_eq_some hn
    · intro q m hq
      obtain ⟨e, he, rfl⟩ := Option.map_eq_some_iff.mp hq
      exact tid_of_entry he
  -- and so are the signals
  signalled_once p hp n hn := by
    have hsig : ∀ q m, Task.signal q = some m → q.tid = some m := by
      intro q m hq
      cases q <;> simp_all [Task.signal, Task.tid]
    have hcount := h.signals.count_eq n
    rw [count_contributed h hsig hp hn] at hcount
    refine ⟨hcount.symm, fun hin => ?_⟩
    have hpos := List.count_pos_iff.mpr hin
    rw [← hcount] at hpos
    cases p <;> simp_all [Task.signal, Task.hasRecorded]
  -- a record was handed out, or is kept
  handed_once p hp k e he := by
    have hnd : (s.threads.filterMap (Task.entry k)).Nodup := by
      refine List.Nodup.of_map Prod.fst ?_
      rw [List.map_filterMap]
      refine (filterMap_sublist_filterMap ?_ s.threads).nodup h.nodup_ids
      intro q m hq
      obtain ⟨e, he, rfl⟩ := Option.map_eq_some_iff.mp hq
      exact tid_of_entry he
    have hmem : e ∈ s.threads.filterMap (Task.entry k) := List.mem_filterMap.mpr ⟨p, hp, he⟩
    have hcount := ((h.records k).trans (h.kept k)).count_eq e
    rw [List.count_append, List.nodup_iff_count_eq_one.mp hnd e hmem] at hcount
    exact hcount.symm
  -- each comes from a task
  handed_own k e he := by
    have hin := ((h.records k).trans (h.kept k)).mem_iff.mpr he
    exact List.mem_filterMap.mp hin
  inflight := by
    rw [h.inflight, List.length_filterMap_eq_countP]

/-! ## Every task comes to its signal -/

/-- Steps a task has ahead of it, at most. -/
def Task.remaining : Task → ℕ
  | .new _ n => n + 7
  | .assigned _ n _ => n + 6
  | .mapping _ _ slots => slots.countP (·.isNone) + 5
  | .recording _ _ _ => 4
  | .recorded _ _ _ => 3
  | .told _ _ _ => 2
  | .finished _ _ _ => 1
  | .done _ _ _ => 0

theorem countP_set_lt {slots : List (Option KeyEnd)} {j : ℕ} {e : KeyEnd}
    (h : slots[j]? = some none) :
    (slots.set j (some e)).countP (·.isNone) < slots.countP (·.isNone) := by
  obtain ⟨hj, hget⟩ := List.getElem?_eq_some_iff.mp h
  have hpos : 0 < slots.countP (·.isNone) :=
    List.countP_pos_iff.mpr ⟨none, hget ▸ List.getElem_mem hj, rfl⟩
  simp only [List.countP_set hj, hget, Option.isNone_none, Option.isNone_some, if_true,
    Bool.false_eq_true, if_false]
  omega

/-- Every step of a task brings it closer to its end. -/
theorem step_remaining {fair : Bool} {s s' : Shared} {p p' : Task} {a : Act}
    (h : step fair s p a = some (s', p')) : p'.remaining < p.remaining := by
  unfold step at h
  split at h
  · cases h
    exact Nat.lt_succ_self _
  · cases h
    simp [Task.remaining, List.countP_replicate]
  · split at h <;> cases h
    exact Nat.add_lt_add_right (countP_set_lt ‹_›) 5
  · obtain ⟨rs, -, heq⟩ := Option.map_eq_some_iff.mp h
    cases heq
    simp only [Task.remaining]
    omega
  all_goals
    cases h
    try exact Nat.lt_succ_self _

theorem mapResults_of_filled {slots : List (Option KeyEnd)} (h : ∀ x ∈ slots, x ≠ none) :
    ∃ rs, mapResults slots = some rs := by
  induction slots with
  | nil => exact ⟨_, rfl⟩
  | cons x rest ih =>
      obtain ⟨rs, hrs⟩ := ih fun y hy => h y (List.mem_cons_of_mem _ hy)
      cases x with
      | none => exact absurd rfl (h none List.mem_cons_self)
      | some e =>
          cases e with
          | none => exact ⟨_, rfl⟩
          | some r => exact ⟨_, by rw [mapResults, hrs]; rfl⟩

theorem fairResults_of_filled {slots : List (Option KeyEnd)} (h : ∀ x ∈ slots, x ≠ none) :
    ∃ rs, fairResults slots = some rs := by
  have hall : ∃ rs, slots.mapM id = some rs := by
    induction slots with
    | nil => exact ⟨[], rfl⟩
    | cons x rest ih =>
        obtain ⟨rs, hrs⟩ := ih fun y hy => h y (List.mem_cons_of_mem _ hy)
        cases x with
        | none => exact absurd rfl (h none List.mem_cons_self)
        | some e => exact ⟨e :: rs, by simp [List.mapM_cons, hrs]⟩
  obtain ⟨rs, hrs⟩ := hall
  exact ⟨_, by rw [fairResults, hrs]; rfl⟩

/-- A task that has not signalled has a step: a key that is still running may
end, and otherwise the task itself goes on. -/
theorem step_enabled (fair : Bool) (s : Shared) {p : Task} (h : p.signal = none) :
    ∃ a, (step fair s p a).isSome = true := by
  cases p with
  | new kind n => exact ⟨.newTaskId, rfl⟩
  | assigned kind n tid => exact ⟨.submit, rfl⟩
  | mapping kind tid slots =>
      by_cases hfull : ∀ x ∈ slots, x ≠ none
      · -- all slots are filled: `map` returns under either schedule
        obtain ⟨rs, hrs⟩ := mapResults_of_filled hfull
        obtain ⟨rs', hrs'⟩ := fairResults_of_filled hfull
        refine ⟨.collect, ?_⟩
        simp only [step, Option.isSome_map]
        split
        · rw [hrs']
          rfl
        · rw [hrs]
          rfl
      · -- some job has not answered yet
        push Not at hfull
        obtain ⟨x, hx, rfl⟩ := hfull
        obtain ⟨j, hj⟩ := List.mem_iff_getElem?.mp hx
        exact ⟨.job j none, by simp [step, hj]⟩
  | recording kind tid r => exact ⟨.record, rfl⟩
  | recorded kind tid r => exact ⟨.listeners, rfl⟩
  | told kind tid r => exact ⟨.finish, rfl⟩
  | finished kind tid r => exact ⟨.notify, rfl⟩
  -- nothing is left to do
  | done kind tid r => cases h

/-- Until its signal a task has a step, and each of its steps brings the
signal closer. -/
def Progresses (fair : Bool) (s : St) : Prop :=
  ∀ i p, s.threads[i]? = some p →
    (p.signal = none → ∃ a, ((machine fair).step s (.act i a)).isSome = true) ∧
    ∀ a s', (machine fair).step s (.act i a) = some s' →
      ∃ p', s'.threads[i]? = some p' ∧ p'.remaining < p.remaining

/-- A task that is not done can step or waits for a key. -/
theorem progresses (fair : Bool) (s : St) : Progresses fair s := by
  intro i p hi
  constructor
  · intro hsig
    obtain ⟨a, ha⟩ := step_enabled fair s.shared hsig
    obtain ⟨⟨sh, p'⟩, hst⟩ := Option.isSome_iff_exists.mp ha
    have hmach : (machine fair).step s (.act i a) = some ⟨sh, s.threads.set i p'⟩ :=
      Threads.step_act_iff.mpr ⟨p, sh, p', hi, hst, rfl⟩
    exact ⟨a, by rw [hmach]; rfl⟩
  · intro a s' hst
    obtain ⟨q, sh, q', hq, hstep, rfl⟩ := Threads.step_act_iff.mp hst
    rw [hi] at hq
    cases hq
    have hstep : step fair s.shared p a = some (sh, q') := hstep
    refine ⟨q', ?_, step_remaining hstep⟩
    simp only [List.getElem?_set_self', hi]
    rfl

/-- Every reachable state, for tasks of all kinds submitted from any threads,
every outcome of their keys and every interleaving with the consumers. -/
theorem delivery_of_reachable {fair : Bool} {s : St} (h : (machine fair).Reachable s) :
    Delivery s ∧ Progresses fair s :=
  ⟨(inv_of_reachable h).delivery, progresses fair s⟩

/-- A task of one key from its submission to its signal, as thread `i`. -/
def taskRun (i : ℕ) (kind : Kind) (e : KeyEnd) : List Lbl :=
  [.spawn (kind, 1), .act i .newTaskId, .act i .submit, .act i (.job 0 e), .act i .collect,
    .act i .record, .act i .listeners, .act i .finish, .act i .notify]

/-- A store whose key raises is popped; a lookup that hit waits for its query. -/
theorem raised_store_delivered :
    ∃ s, (machine false).Reachable s ∧ s.shared.handed .store = [(0, .stored false 0)] ∧
      s.shared.completed .lookup = [(1, .bitmap [true])] ∧ s.shared.signals = [0, 1] ∧
      s.shared.inflight = 0 ∧ Delivery s := by
  have h₀ : (machine false).Reachable initial := .init ⟨rfl, rfl⟩
  obtain ⟨s, hrun⟩ : ∃ s, (machine false).run initial (taskRun 0 .store none ++
    taskRun 1 .lookup (some 1) ++ [.env .popCompletedStoreTasks]) = some s := ⟨_, rfl⟩
  have hs := h₀.run hrun
  refine ⟨s, hs, ?_, ?_, ?_, ?_, (delivery_of_reachable hs).1⟩ <;> (cases hrun; rfl)

end LmcacheDaos.Mp.Tasks
