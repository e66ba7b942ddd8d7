import Mathlib.Tactic.Common
import LmcacheDaos.Lib.Machine

/-!
# The connector's IO pool and its wedge detector

`DaosConnector._run`, `_tracked`, `_wedged_for` and the consultation of the
detector at the head of `ping()` (`connector.py`). The detector keeps two
numbers under `_io_lock`: `_inflight`, counted at *submission*, and
`_last_done`, the time of the last completion (of construction before the
first one). `_run` raises `DaosPoolWedged` when `_inflight >= _workers` and
nothing has completed for more than `STALL_SECS`.

The machine keeps beside these what the detector cannot see: which thread is
executing which call since when, and the times of all completions. A report is
`Genuine` when every thread has been inside one call for longer than the stall
window and nothing completed in it.

Results:

* the detector's clock runs through idle stretches: `D` ticks of an idle thread
  after the last completion make every verdict false that falls in the `D` ticks
  from `STALL_SECS` after that completion on (`Timeline.InShadow`), and no other
  verdict is; calls that were cancelled in the queue count as saturation for good;
* `_inflight` counts the calls that are queued or running exactly as long as
  no queued call is cancelled: what `_run` adds is taken back by `_tracked`
  only, and a cancelled call never gets there.
-/

namespace LmcacheDaos.Connector.IoPool

open Lib

/-- `_workers` and `STALL_SECS`, in clock ticks. `ThreadPoolExecutor` refuses
a pool of no threads. -/
structure PoolConfig where
  workers : ℕ
  stallSecs : ℕ
  workers_pos : 0 < workers

/-- `DAOS_WORKERS` and `DAOS_STALL_SECS` unset. -/
def defaultConfig : PoolConfig := ⟨16, 60, by decide⟩

/-- A submitted call, by an identifier. -/
abbrev Call := ℕ

structure St where
  /-- `time.monotonic()` -/
  now : ℤ
  /-- `_inflight` -/
  inflight : ℤ
  /-- `_last_done` -/
  lastDone : ℤ
  /-- work items no thread has picked up -/
  queue : List Call
  /-- per pool thread: the call it executes and when it picked it up -/
  threads : List (Option (Call × ℤ))
  /-- times at which calls completed -/
  completions : List ℤ
deriving Repr, DecidableEq

/-- `__init__` at time `t`: an idle pool. -/
def initial (cfg : PoolConfig) (t : ℤ) : St where
  now := t
  inflight := 0
  lastDone := t
  queue := []
  threads := List.replicate cfg.workers none
  completions := []

/-- `time.monotonic() - self._last_done` -/
def stalled (s : St) : ℤ := s.now - s.lastDone

/-- The test shared by `_run` and `_wedged_for`. -/
def wedged (cfg : PoolConfig) (s : St) : Bool :=
  decide ((cfg.workers : ℤ) ≤ s.inflight) && decide ((cfg.stallSecs : ℤ) < stalled s)

/-- `_wedged_for`: seconds the pool has been saturated with no completion, else 0. -/
def wedgedFor (cfg : PoolConfig) (s : St) : ℤ := if wedged cfg s then stalled s else 0

inductive Lbl where
  /-- time passes -/
  | tick (d : ℕ)
  /-- `_run`: submit a call, or raise -/
  | run (c : Call)
  /-- `ping()` consults the detector -/
  | ping
  /-- thread `w` picks up the oldest work item -/
  | start (w : ℕ)
  /-- the call on thread `w` returns or raises: the `finally` of `_tracked` -/
  | finish (w : ℕ)
  /-- the awaiting coroutine cancels the `i`-th queued call: it never executes,
  so its `_tracked` never runs -/
  | cancel (i : ℕ)
deriving DecidableEq, Repr

def step (cfg : PoolConfig) (s : St) : Lbl → Option St
  | .tick d => some { s with now := s.now + d }
  | .run c =>
      if wedged cfg s then some s
      else some { s with inflight := s.inflight + 1, queue := s.queue ++ [c] }
  | .ping => some s
  | .start w => match s.threads[w]?, s.queue with
      | some none, c :: rest =>
          some { s with queue := rest, threads := s.threads.set w (some (c, s.now)) }
      | _, _ => none
  | .finish w => match s.threads[w]? with
      | some (some _) => some { s with
          inflight := s.inflight - 1
          lastDone := s.now
          threads := s.threads.set w none
          completions := s.now :: s.completions }
      | _ => none
  | .cancel i => if i < s.queue.length then some { s with queue := s.queue.eraseIdx i } else none

def machine (cfg : PoolConfig) : Machine St Lbl where
  Init s := ∃ t, s = initial cfg t
  step := step cfg

/-! ## What a report says, and what it should say -/

/-- The step asks the detector. -/
def Consults : Lbl → Prop
  | .run _ | .ping => True
  | _ => False

/-- The step reports a wedge: `_run` raises `DaosPoolWedged`, `ping()` answers `EBUSY`. -/
def Reports (cfg : PoolConfig) (s : St) : Lbl → Prop
  | .run _ => wedged cfg s = true
  | .ping => wedgedFor cfg s ≠ 0
  | _ => False

/-- Every pool thread has been inside one call for longer than the stall
window, and nothing completed in that window. -/
def Genuine (cfg : PoolConfig) (s : St) : Prop :=
  (∀ w < cfg.workers, ∃ c since, s.threads[w]? = some (some (c, since)) ∧
    cfg.stallSecs < s.now - since) ∧
  ∀ t ∈ s.completions, cfg.stallSecs < s.now - t

/-! ## The detector's clock -/

/-- `_last_done` bounds every completion, and nothing lies in the future. -/
def Inv (s : St) : Prop := (∀ t ∈ s.completions, t ≤ s.lastDone) ∧ s.lastDone ≤ s.now

theorem step_inv {cfg : PoolConfig} {s s' : St} {a : Lbl} (hinv : Inv s)
    (hst : step cfg s a = some s') : Inv s' := by
  obtain ⟨hdone, hnow⟩ := hinv
  cases a with
  | tick d =>
      cases hst
      exact ⟨hdone, by simp only; omega⟩
  | run c =>
      simp only [step] at hst
      split at hst <;> (cases hst; exact ⟨hdone, hnow⟩)
  | ping =>
      cases hst
      exact ⟨hdone, hnow⟩
  | start w =>
      simp only [step] at hst
      split at hst <;> cases hst
      exact ⟨hdone, hnow⟩
  | finish w =>
      -- the new completion is the new `_last_done`
      simp only [step] at hst
      split at hst <;> cases hst
      refine ⟨fun t ht => ?_, Int.le_refl _⟩
      rcases List.mem_cons.mp ht with rfl | ht
      · exact Int.le_refl _
      · exact Int.le_trans (hdone t ht) hnow
  | cancel i =>
      simp only [step] at hst
      split at hst <;> cases hst
      exact ⟨hdone, hnow⟩

theorem inv_of_reachable {cfg : PoolConfig} {s : St} (h : (machine cfg).Reachable s) : Inv s := by
  refine h.invariant Inv ?_ fun s a s' hinv _ hst => step_inv hinv hst
  rintro s ⟨t, rfl⟩
  exact ⟨by simp [initial], Int.le_refl _⟩

theorem wedged_iff {cfg : PoolConfig} {s : St} :
    wedged cfg s = true ↔ (cfg.workers : ℤ) ≤ s.inflight ∧ s.lastDone + cfg.stallSecs < s.now := by
  rw [wedged, Bool.and_eq_true, decide_eq_true_eq, decide_eq_true_eq, stalled]
  omega

/-- `ping()` reports exactly when `_run` would raise. -/
theorem wedgedFor_ne_zero_iff {cfg : PoolConfig} {s : St} :
    wedgedFor cfg s ≠ 0 ↔ wedged cfg s = true := by
  unfold wedgedFor
  split
  · have := (wedged_iff.mp ‹_›).2
    simp only [stalled, ne_eq]
    constructor
    · exact fun _ => ‹_›
    · intro _ h
      omega
  · simp [*]

theorem reports_iff {cfg : PoolConfig} {s : St} {a : Lbl} :
    Reports cfg s a ↔ Consults a ∧ wedged cfg s = true := by
  cases a <;> simp [Reports, Consults, wedgedFor_ne_zero_iff]

/-! ## The counter -/

/-- Submitted calls that are still queued or running. -/
def outstanding (s : St) : ℕ := s.queue.length + s.threads.countP Option.isSome

/-- `_inflight` is that number, so it is back at 0 once nothing is left. -/
def Accounted (s : St) : Prop :=
  s.inflight = outstanding s ∧ (outstanding s = 0 → s.inflight = 0)

/-- The step takes a call out of the queue before a thread picked it up. -/
def CancelsQueued (s : St) (a : Lbl) : Prop := ∃ i < s.queue.length, a = .cancel i

theorem accounted_iff {s : St} : Accounted s ↔ s.inflight = outstanding s := by
  unfold Accounted
  constructor
  · exact And.left
  · intro h
    exact ⟨h, fun h0 => by rw [h, h0]; rfl⟩

/-- A thread that turns from idle to busy adds one to the busy threads. -/
theorem countP_set_some {ts : List (Option (Call × ℤ))} {w : ℕ} {x : Call × ℤ}
    (h : ts[w]? = some none) :
    (ts.set w (some x)).countP Option.isSome = ts.countP Option.isSome + 1 := by
  obtain ⟨hw, hget⟩ := List.getElem?_eq_some_iff.mp h
  simp [List.countP_set hw, hget]

theorem countP_set_none {ts : List (Option (Call × ℤ))} {w : ℕ} {x : Call × ℤ}
    (h : ts[w]? = some (some x)) :
    (ts.set w none).countP Option.isSome + 1 = ts.countP Option.isSome := by
  obtain ⟨hw, hget⟩ := List.getElem?_eq_some_iff.mp h
  have hpos : 0 < ts.countP Option.isSome :=
    List.countP_pos_iff.mpr ⟨some x, hget ▸ List.getElem_mem hw, rfl⟩
  simp [List.countP_set hw, hget]
  omega

/-- The drift between the counter and the calls it counts: only a cancellation
of a queued call changes it, and by one. -/
theorem step_drift {cfg : PoolConfig} {s s' : St} {a : Lbl} (hst : step cfg s a = some s') :
    (CancelsQueued s a ∧ s'.inflight - outstanding s' = s.inflight - outstanding s + 1) ∨
      (¬ CancelsQueued s a ∧ s'.inflight - outstanding s' = s.inflight - outstanding s) := by
  cases a with
  | tick d =>
      cases hst
      exact .inr ⟨by simp [CancelsQueued], rfl⟩
  | run c =>
      refine .inr ⟨by simp [CancelsQueued], ?_⟩
      simp only [step] at hst
      split at hst <;> cases hst
      · rfl
      · simp only [outstanding, List.length_append, List.length_singleton]
        omega
  | ping =>
      cases hst
      exact .inr ⟨by simp [CancelsQueued], rfl⟩
  | start w =>
      -- the call moves from the queue to a thread
      refine .inr ⟨by simp [CancelsQueued], ?_⟩
      simp only [step] at hst
      split at hst
      · rename_i c rest hthr hq
        cases hst
        simp only [outstanding, hq, countP_set_some hthr, List.length_cons]
        omega
      · cases hst
  | finish w =>
      refine .inr ⟨by simp [CancelsQueued], ?_⟩
      simp only [step] at hst
      split at hst
      · rename_i x hthr
        cases hst
        have hbusy := countP_set_none hthr
        simp only [outstanding]
        omega
      · cases hst
  | cancel i =>
      simp only [step] at hst
      split at hst
      · rename_i hi
        cases hst
        refine .inl ⟨⟨i, hi, rfl⟩, ?_⟩
        simp only [outstanding, List.length_eraseIdx_of_lt hi]
        omega
      · cases hst

/-- From an accounted state, exactly the cancellation of a queued call leads
to one that is not. -/
theorem step_accounted_iff {cfg : PoolConfig} {s s' : St} {a : Lbl} (hs : Accounted s)
    (hst : step cfg s a = some s') : Accounted s' ↔ ¬ CancelsQueued s a := by
  rw [accounted_iff] at hs ⊢
  rcases step_drift hst with ⟨hc, hdrift⟩ | ⟨hc, hdrift⟩
  · constructor
    · intro h
      omega
    · exact fun hn => absurd hc hn
  · constructor
    · exact fun _ => hc
    · intro _
      omega

/-- In every run, `_inflight` is the number of calls queued or running in
every state if and only if no queued call is ever cancelled. -/
theorem inflight_counts_outstanding_iff_no_cancel (cfg : PoolConfig) (t : ℤ) (as : List Lbl) :
    (machine cfg).Throughout Accounted (initial cfg t) as ↔
      (machine cfg).Along (fun s a => ¬ CancelsQueued s a) (initial cfg t) as := by
  have h₀ : Accounted (initial cfg t) := by
    rw [accounted_iff]
    simp [initial, outstanding, List.countP_replicate]
  have hstep : ∀ s a s', Accounted s → (machine cfg).step s a = some s' →
      (Accounted s' ↔ ¬ CancelsQueued s a) := fun s a s' hs hst => step_accounted_iff hs hst
  rw [Machine.throughout_iff hstep h₀]
  refine Machine.along_congr (fun s a _ => ?_) (.init ⟨t, rfl⟩)
  constructor
  · intro h hc
    refine h ?_ hc
    -- such a cancellation is always possible
    obtain ⟨i, hi, rfl⟩ := hc
    simp [machine, step, hi]
  · exact fun h _ => h

/-- One call submitted and cancelled while it is queued: nothing is left, and
`_inflight` stays at 1. -/
theorem cancelled_call_stays_counted :
    ∃ s, (machine defaultConfig).run (initial defaultConfig 0) [.run 0, .cancel 0] = some s ∧
      outstanding s = 0 ∧ s.inflight = 1 ∧ ¬ Accounted s := by
  refine ⟨_, rfl, rfl, rfl, ?_⟩
  rw [accounted_iff]
  decide

/-! ## The shadow of an idle stretch -/

/-- What a run tells about the time since its last completion, and of its cancelled
calls. Nothing here is kept by the code. -/
structure Timeline where
  /-- ticks since the last completion (since construction before the first one) -/
  elapsed : ℕ
  /-- those of them that passed with a thread idle: the idle stretch -/
  idle : ℕ
  /-- calls cancelled before a thread picked them up -/
  cancelled : ℕ
deriving Repr, DecidableEq

def Timeline.observe (s : St) (h : Timeline) : Lbl → Timeline
  | .tick d => { h with
      elapsed := h.elapsed + d
      idle := if none ∈ s.threads then h.idle + d else h.idle }
  | .finish _ => { h with elapsed := 0, idle := 0 }
  | .cancel _ => { h with cancelled := h.cancelled + 1 }
  | .run _ | .ping | .start _ => h

/-- The pool and the history of its run. -/
def watched (cfg : PoolConfig) : Machine (St × Timeline) Lbl :=
  (machine cfg).recording ⟨0, 0, 0⟩ Timeline.observe

/-- An idle stretch of `D` ticks casts a shadow: the `D` ticks from `STALL_SECS` after
the last completion on. A pool with a thread still idle stays in it. -/
def Timeline.InShadow (cfg : PoolConfig) (h : Timeline) : Prop :=
  cfg.stallSecs < h.elapsed ∧ h.elapsed ≤ cfg.stallSecs + h.idle

/-- What the threads and the detector's two numbers have to do with the history. -/
structure Timed (cfg : PoolConfig) (s : St) (h : Timeline) : Prop where
  threads : s.threads.length = cfg.workers
  idle_le : h.idle ≤ h.elapsed
  clock : s.now - s.lastDone = h.elapsed
  count : s.inflight = outstanding s + h.cancelled
  past : ∀ c since, some (c, since) ∈ s.threads → since ≤ s.now
  /-- since the end of the idle stretch all threads have been in the calls they are in -/
  full : h.idle < h.elapsed → ∀ x ∈ s.threads, ∃ c since, x = some (c, since) ∧
    since ≤ s.now - (h.elapsed - h.idle)
  /-- and the call that ended it began just then -/
  last : 0 < h.idle → none ∈ s.threads ∨ ∃ c since, some (c, since) ∈ s.threads ∧
    s.now - (h.elapsed - h.idle) ≤ since

section Timed

variable {cfg : PoolConfig} {s s' : St} {h : Timeline} {a : Lbl}

/-- While a thread is idle, the stretch is all the time since the last completion. -/
theorem Timed.idle_eq (ht : Timed cfg s h) (hidle : none ∈ s.threads) : h.idle = h.elapsed := by
  refine Nat.le_antisymm ht.idle_le (Nat.le_of_not_lt fun hlt => ?_)
  obtain ⟨c, since, hbusy, -⟩ := ht.full hlt none hidle
  cases hbusy

/-- The counter and the history of cancellations move together. -/
theorem step_count (hcount : s.inflight = outstanding s + h.cancelled)
    (hst : step cfg s a = some s') : s'.inflight = outstanding s' + (h.observe s a).cancelled := by
  have hcancelled : (h.observe s a).cancelled = h.cancelled + 1 ∧ CancelsQueued s a ∨
      (h.observe s a).cancelled = h.cancelled ∧ ¬ CancelsQueued s a := by
    cases a with
    | cancel i =>
        have hi : i < s.queue.length := by
          simp only [step] at hst
          split at hst
          · assumption
          · cases hst
        exact .inl ⟨rfl, i, hi, rfl⟩
    | _ => exact .inr ⟨rfl, by simp [CancelsQueued]⟩
  rcases step_drift hst with ⟨hc, hdrift⟩ | ⟨hc, hdrift⟩
  · have := (hcancelled.resolve_right fun hn => hn.2 hc).1
    omega
  · have := (hcancelled.resolve_left fun hn => hc hn.2).1
    omega

/-- Time passes: the idle stretch grows with the time as long as a thread is idle, and
not at all once none is. -/
theorem Timed.tick (ht : Timed cfg s h) (d : ℕ) :
    Timed cfg { s with now := s.now + d } (h.observe s (.tick d)) := by
  have hclock := ht.clock
  by_cases hidle : none ∈ s.threads
  · have hobs : h.observe s (.tick d) =
        { h with elapsed := h.elapsed + d, idle := h.idle + d } := by
      simp [Timeline.observe, hidle]
    rw [hobs]
    have heq := ht.idle_eq hidle
    exact {
      threads := ht.threads
      idle_le := by simp only; omega
      clock := by simp only; omega
      count := ht.count
      past := fun c since hmem => by have := ht.past c since hmem; simp only; omega
      full := fun hlt => by simp only at hlt; omega
      last := fun _ => .inl hidle }
  · have hobs : h.observe s (.tick d) = { h with elapsed := h.elapsed + d } := by
      simp [Timeline.observe, hidle]
    rw [hobs]
    have hle := ht.idle_le
    refine { threads := ht.threads, idle_le := by simp only; omega, clock := by simp only; omega,
             count := ht.count, past := ?_, full := ?_, last := ?_ }
    · intro c since hmem
      have := ht.past c since hmem
      simp only
      omega
    · -- before the tick the pool had just become full, or it had been so for a while
      intro _ x hx
      obtain ⟨⟨c, since⟩, rfl⟩ : ∃ y, x = some y := by
        cases x with
        | none => exact absurd hx hidle
        | some y => exact ⟨y, rfl⟩
      refine ⟨c, since, rfl, ?_⟩
      rcases Nat.lt_or_eq_of_le hle with hlt | heq
      · obtain ⟨_, _, hc, hsince⟩ := ht.full hlt _ hx
        cases hc
        simp only
        omega
      · have := ht.past c since hx
        simp only
        omega
    · intro hpos
      obtain hnone | ⟨c, since, hmem, hsince⟩ := ht.last hpos
      · exact absurd hnone hidle
      · refine .inr ⟨c, since, hmem, ?_⟩
        simp only
        omega

/-- An idle thread picks up a call: it is the end of the idle stretch if no other
thread is idle. -/
theorem Timed.start (ht : Timed cfg s h) {w : ℕ} {c : Call} {rest : List Call}
    (hthr : s.threads[w]? = some none)
    (hcount : s.inflight = outstanding { s with
      queue := rest, threads := s.threads.set w (some (c, s.now)) } + h.cancelled) :
    Timed cfg { s with queue := rest, threads := s.threads.set w (some (c, s.now)) } h := by
  obtain ⟨hw, -⟩ := List.getElem?_eq_some_iff.mp hthr
  have heq := ht.idle_eq (List.mem_of_getElem? hthr)
  refine { threads := by simp [ht.threads], idle_le := ht.idle_le, clock := ht.clock,
           count := hcount, past := ?_, full := fun hlt => by omega, last := fun _ => ?_ }
  · intro c' since hmem
    rcases List.mem_or_eq_of_mem_set hmem with hmem | hnew
    · exact ht.past c' since hmem
    · cases hnew
      exact Int.le_refl _
  · refine .inr ⟨c, s.now, List.mem_set hw _, ?_⟩
    simp only
    omega

/-- A completion: a thread is idle again, and the history of times begins anew. -/
theorem Timed.finish (ht : Timed cfg s h) {w : ℕ} {x : Call × ℤ}
    (hthr : s.threads[w]? = some (some x))
    (hcount : s.inflight - 1 = outstanding { s with
      inflight := s.inflight - 1, lastDone := s.now, threads := s.threads.set w none,
      completions := s.now :: s.completions } + h.cancelled) :
    Timed cfg { s with
      inflight := s.inflight - 1, lastDone := s.now, threads := s.threads.set w none,
      completions := s.now :: s.completions } { h with elapsed := 0, idle := 0 } := by
  obtain ⟨hw, -⟩ := List.getElem?_eq_some_iff.mp hthr
  refine { threads := by simp [ht.threads], idle_le := Nat.le_refl _, clock := by simp,
           count := hcount, past := ?_, full := fun hlt => by simp at hlt,
           last := fun _ => .inl (List.mem_set hw _) }
  intro c since hmem
  rcases List.mem_or_eq_of_mem_set hmem with hmem | hnew
  · exact ht.past c since hmem
  · cases hnew

theorem step_timed (ht : Timed cfg s h) (hst : step cfg s a = some s') :
    Timed cfg s' (h.observe s a) := by
  have hcount := step_count (h := h) ht.count hst
  cases a with
  | tick d =>
      cases hst
      exact ht.tick d
  | run c =>
      simp only [step] at hst
      split at hst <;> cases hst
      · exact ht
      · exact { ht with count := hcount }
  | ping =>
      cases hst
      exact ht
  | start w =>
      simp only [step] at hst
      split at hst
      · cases hst
        exact ht.start ‹_› hcount
      · cases hst
  | finish w =>
      simp only [step] at hst
      split at hst
      · cases hst
        exact ht.finish ‹_› hcount
      · cases hst
  | cancel i =>
      simp only [step] at hst
      split at hst <;> cases hst
      exact { ht with count := hcount }

theorem initial_timed (t : ℤ) : Timed cfg (initial cfg t) ⟨0, 0, 0⟩ where
  threads := by simp [initial]
  idle_le := Nat.le_refl _
  clock := by simp [initial]
  count := by simp [initial, outstanding, List.countP_replicate]
  past := by simp [initial]
  full := by simp
  last := by simp

theorem watched_timed {x : St × Timeline} (hx : (watched cfg).Reachable x) :
    Timed cfg x.1 x.2 ∧ Inv x.1 := by
  refine hx.invariant (fun x => Timed cfg x.1 x.2 ∧ Inv x.1) ?_ ?_
  · rintro ⟨s, h⟩ ⟨⟨t, rfl⟩, rfl⟩
    exact ⟨initial_timed t, inv_of_reachable (.init ⟨t, rfl⟩)⟩
  · rintro ⟨s, h⟩ a x' ⟨ht, hinv⟩ _ hst
    obtain ⟨s', hstep, rfl⟩ := Option.map_eq_some_iff.mp hst
    exact ⟨step_timed ht hstep, step_inv hinv hstep⟩

/-- Once the detector finds the pool saturated and stale, the verdict is right just if the
shadow of the idle stretch is over: as long ago as it is, all threads were full. -/
theorem Timed.genuine_iff (ht : Timed cfg s h) (hinv : Inv s) (hstale : cfg.stallSecs < h.elapsed) :
    Genuine cfg s ↔ ¬ h.InShadow cfg := by
  have hclock := ht.clock
  have hle := ht.idle_le
  constructor
  · rintro ⟨hbusy, -⟩ ⟨-, hshadow⟩
    -- the thread that ended the idle stretch has been in its call for too short a time
    obtain hnone | ⟨c, since, hmem, hsince⟩ := ht.last (by omega)
    · obtain ⟨w, hw, hget⟩ := List.mem_iff_getElem.mp hnone
      obtain ⟨c, since, hthr, -⟩ := hbusy w (ht.threads ▸ hw)
      rw [List.getElem?_eq_getElem hw, hget] at hthr
      cases hthr
    · obtain ⟨w, hw, hget⟩ := List.mem_iff_getElem.mp hmem
      obtain ⟨c', since', hthr, hlong⟩ := hbusy w (ht.threads ▸ hw)
      rw [List.getElem?_eq_getElem hw, hget] at hthr
      cases hthr
      omega
  · intro hnot
    have hover : cfg.stallSecs + h.idle < h.elapsed :=
      Nat.lt_of_not_le fun hshadow => hnot ⟨hstale, hshadow⟩
    refine ⟨fun w hw => ?_, fun t htm => ?_⟩
    · have hw' : w < s.threads.length := ht.threads ▸ hw
      obtain ⟨c, since, hthr, hsince⟩ := ht.full (by omega) _ (List.getElem_mem hw')
      refine ⟨c, since, by rw [List.getElem?_eq_getElem hw', hthr], ?_⟩
      omega
    · have := hinv.1 t htm
      omega

end Timed

/-- The history is beside the run, not in it. -/
theorem along_watched {P : St → Lbl → Prop} {s : St} {h : Timeline} {as : List Lbl} :
    (watched cfg).Along (fun x a => P x.1 a) (s, h) as ↔ (machine cfg).Along P s as :=
  Machine.along_recording

/-- In every run, all reports are genuine if and only if the detector is never asked in
the shadow of an idle stretch while the calls that are queued, running or were cancelled
in the queue are as many as the threads. -/
theorem reports_genuine_iff_never_in_shadow (cfg : PoolConfig) (t : ℤ) (as : List Lbl) :
    (machine cfg).Along (fun s a => Reports cfg s a → Genuine cfg s) (initial cfg t) as ↔
      (watched cfg).Along (fun x a => Consults a →
          cfg.workers ≤ outstanding x.1 + x.2.cancelled → ¬ x.2.InShadow cfg)
        (initial cfg t, ⟨0, 0, 0⟩) as := by
  rw [← along_watched (h := ⟨0, 0, 0⟩)]
  refine Machine.along_congr (fun x a hx => ?_) (.init ⟨⟨t, rfl⟩, rfl⟩)
  obtain ⟨ht, hinv⟩ := watched_timed hx
  have hwedged : wedged cfg x.1 = true ↔
      cfg.workers ≤ outstanding x.1 + x.2.cancelled ∧ cfg.stallSecs < x.2.elapsed := by
    rw [wedged_iff]
    have hcount := ht.count
    have hclock := ht.clock
    omega
  rw [reports_iff, hwedged]
  constructor
  · intro hrep hask hcount hshadow
    exact (ht.genuine_iff hinv hshadow.1).mp (hrep ⟨hask, hcount, hshadow.1⟩) hshadow
  · rintro hnever ⟨hask, hcount, hstale⟩
    exact (ht.genuine_iff hinv hstale).mpr (hnever hask hcount)

/-- An idle minute, then as many calls as there are workers. -/
def idleBurst : List Lbl := .tick 61 :: (List.range 16).map .run

/-- The pool of 16 threads has been idle for 61 s; the seventeenth call of one
burst is refused as wedged although no thread has begun a call. -/
theorem idle_burst_reported :
    ∃ s, (machine defaultConfig).run (initial defaultConfig 0) idleBurst = some s ∧
      Reports defaultConfig s (.run 16) ∧ ¬ Genuine defaultConfig s := by
  refine ⟨_, rfl, rfl, ?_⟩
  rintro ⟨hbusy, -⟩
  obtain ⟨c, since, hthr, -⟩ := hbusy 0 (by decide)
  simp [initial, defaultConfig] at hthr

end LmcacheDaos.Connector.IoPool
