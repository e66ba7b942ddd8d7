import Mathlib.Tactic.Common
import LmcacheDaos.Lib.Machine

/-!
# The health probe

`DaosConnector.ping` and `_ping_sync` (`connector.py`). A `ping()` that passes
the wedge test and finds `_ping_inflight` clear sets it, hands a probe to the
one thread of `_ping_pool` and awaits it under `wait_for`; every other `ping()`
answers at once. The flag is cleared by the probe's own `finally`, on the ping
thread, and by the two handlers of a probe that raised, on the event loop.

A step of the event loop runs a coroutine from one `await` to the next. A
probe counts as running until its `finally` has cleared the flag. When the
awaiting coroutine times out or is cancelled, the executor drops a probe that
is still queued; one that is running goes on.

Result: the flag says whether a probe is queued or running, and there is at
most one, exactly as long as no ping gives up on a probe that is still queued
(`GivesUpQueued`: the flag then stays set for good) and no handler of a failed
probe runs while a later probe is out (`LateFailure`: it clears the flag of
the other).
-/

namespace LmcacheDaos.Connector.Ping

open Lib

/-- `PING_UNKNOWN_ERROR` -/
def pingUnknownError : ℤ := 1

/-- `PING_TIMEOUT_ERROR` -/
def pingTimeoutError : ℤ := -1

/-- `errno.EBUSY` -/
def ebusy : ℤ := 16

/-- How `_ping_sync` ends: it returns, raises `DaosError` with an `rc`, or
raises another `Exception`. -/
inductive Outcome where
  | returned
  | daosError (rc : ℤ)
  | otherError
deriving DecidableEq, Repr

/-- How a `ping()` ends: with a code, or with `CancelledError`. -/
inductive Answer where
  | code (rc : ℤ)
  | cancelled
deriving DecidableEq, Repr

/-- A `ping()` call: inside `wait_for`, about to resume there with the probe's
outcome, or over. -/
inductive Call where
  | waiting
  | answered (o : Outcome)
  | over (r : Answer)
deriving DecidableEq, Repr

/-- The call has not got past its `await`. -/
def Call.awaits : Call → Bool
  | .waiting | .answered _ => true
  | .over _ => false

/-- A probe goes by the number of the `ping()` that submitted it. -/
structure St where
  /-- `_ping_inflight` -/
  inflight : Bool
  /-- work items of `_ping_pool` -/
  queue : List ℕ
  /-- the probe on the ping thread -/
  running : Option ℕ
  /-- every `ping()` so far -/
  pings : List Call
deriving DecidableEq, Repr

def initial : St := ⟨false, [], none, []⟩

inductive Lbl where
  /-- `ping()` up to its first `await`; `wedged` is what `_wedged_for` said -/
  | ping (wedged : Bool)
  /-- the ping thread picks up the oldest work item -/
  | start
  /-- the probe ends: the `finally` of `_ping_sync` -/
  | finish (o : Outcome)
  /-- `ping()` number `i` resumes with its probe's outcome -/
  | resume (i : ℕ)
  /-- the `wait_for` of `ping()` number `i` times out -/
  | timeout (i : ℕ)
  /-- `ping()` number `i` is cancelled -/
  | cancel (i : ℕ)
deriving DecidableEq, Repr

/-- The `except` clauses after a probe that ended: what `ping()` returns, and
whether the clause clears the flag. -/
def handle : Outcome → ℤ × Bool
  | .returned => (0, false)
  | .daosError rc => (if rc ≠ 0 then rc else pingUnknownError, true)
  | .otherError => (pingUnknownError, true)

/-- `wait_for` gives up: its future is cancelled, and with it the work item,
unless the thread has picked it up. -/
def giveUp (s : St) (i : ℕ) (r : Answer) : St :=
  { s with queue := s.queue.erase i, pings := s.pings.set i (.over r) }

def step (s : St) : Lbl → Option St
  | .ping wedged =>
      if wedged then some { s with pings := s.pings ++ [.over (.code ebusy)] }
      -- refused while the flag is set, whatever became of the probe behind it
      else if s.inflight then
        some { s with pings := s.pings ++ [.over (.code pingTimeoutError)] }
      else some { s with
        inflight := true
        queue := s.queue ++ [s.pings.length]
        pings := s.pings ++ [.waiting] }
  | .start => match s.running, s.queue with
      | none, i :: rest => some { s with queue := rest, running := some i }
      | _, _ => none
  | .finish o => match s.running with
      | some i => some { s with
          inflight := false
          running := none
          -- nobody is told when the ping has given up
          pings := if s.pings[i]? = some .waiting then s.pings.set i (.answered o) else s.pings }
      | none => none
  | .resume i => match s.pings[i]? with
      | some (.answered o) => some { s with
          inflight := s.inflight && !(handle o).2
          pings := s.pings.set i (.over (.code (handle o).1)) }
      | _ => none
  | .timeout i =>
      if (s.pings[i]?).any Call.awaits then some (giveUp s i (.code pingTimeoutError)) else none
  | .cancel i => if (s.pings[i]?).any Call.awaits then some (giveUp s i .cancelled) else none

def machine : Machine St Lbl where
  Init s := s = initial
  step := step

/-! ## What the flag should say -/

/-- Probes queued or running. -/
def probes (s : St) : ℕ := s.queue.length + s.running.toList.length

/-- The flag is set exactly when one probe is queued or running, there is
never a second one, and with none the next `ping()` submits one. -/
structure FlagLaw (s : St) : Prop where
  flag_iff : s.inflight = true ↔ probes s = 1
  at_most_one : probes s ≤ 1
  probed_again : probes s = 0 → (step s (.ping false)).any (fun s' => probes s' == 1) = true

/-- A ping times out or is cancelled before the ping thread picked up its probe. -/
def GivesUpQueued (s : St) (a : Lbl) : Prop :=
  ∃ i ∈ s.queue, (s.pings[i]?).any Call.awaits = true ∧ (a = .timeout i ∨ a = .cancel i)

/-- A ping whose probe raised resumes while another probe is queued or running. -/
def LateFailure (s : St) (a : Lbl) : Prop :=
  ∃ i o, a = .resume i ∧ s.pings[i]? = some (.answered o) ∧ o ≠ .returned ∧ probes s ≠ 0

theorem flagLaw_iff {s : St} :
    FlagLaw s ↔ (s.inflight = true ↔ probes s = 1) ∧ probes s ≤ 1 := by
  constructor
  · intro h
    exact ⟨h.flag_iff, h.at_most_one⟩
  · rintro ⟨hflag, hone⟩
    refine ⟨hflag, hone, fun h0 => ?_⟩
    have hclear : s.inflight = false := by
      rw [← Bool.not_eq_true, hflag]
      omega
    simp only [probes] at h0
    simp [step, hclear, probes]
    omega

theorem handle_clears_iff {o : Outcome} : (handle o).2 = true ↔ o ≠ .returned := by
  cases o <;> simp [handle]

theorem lateFailure_resume_iff {s : St} {i : ℕ} {o : Outcome}
    (hi : s.pings[i]? = some (.answered o)) :
    LateFailure s (.resume i) ↔ (handle o).2 = true ∧ probes s ≠ 0 := by
  rw [handle_clears_iff]
  constructor
  · rintro ⟨j, o', hj, ho', hne, hp⟩
    cases hj
    rw [hi] at ho'
    cases ho'
    exact ⟨hne, hp⟩
  · rintro ⟨hne, hp⟩
    exact ⟨i, o, rfl, hi, hne, hp⟩

/-- Giving up loses exactly a probe that is still queued. -/
theorem probes_giveUp (s : St) (i : ℕ) (r : Answer) :
    (i ∈ s.queue ∧ probes (giveUp s i r) + 1 = probes s) ∨
      (i ∉ s.queue ∧ probes (giveUp s i r) = probes s) := by
  by_cases hi : i ∈ s.queue
  · have hpos := List.length_pos_of_mem hi
    refine .inl ⟨hi, ?_⟩
    simp only [probes, giveUp, List.length_erase_of_mem hi]
    omega
  · refine .inr ⟨hi, ?_⟩
    simp only [probes, giveUp, List.erase_of_not_mem hi]

theorem giveUp_flagLaw_iff {s : St} {i : ℕ} {r : Answer} (hs : FlagLaw s) :
    FlagLaw (giveUp s i r) ↔ i ∉ s.queue := by
  rw [flagLaw_iff] at hs ⊢
  have hflag : (giveUp s i r).inflight = s.inflight := rfl
  rw [hflag, hs.1]
  rcases probes_giveUp s i r with ⟨hi, hp⟩ | ⟨hi, hp⟩
  · -- the flag stays set with nothing left to clear it
    have := hs.2
    constructor
    · intro h
      omega
    · exact fun hn => absurd hi hn
  · rw [hp]
    exact ⟨fun _ => hi, fun _ => ⟨Iff.rfl, hs.2⟩⟩

/-- From a state that meets the law, exactly the two steps above lead to one
that does not. -/
theorem step_flagLaw_iff {s s' : St} {a : Lbl} (hs : FlagLaw s) (hst : step s a = some s') :
    FlagLaw s' ↔ ¬ GivesUpQueued s a ∧ ¬ LateFailure s a := by
  have hlaw := flagLaw_iff.mp hs
  cases a with
  | ping wedged =>
      refine iff_of_true (flagLaw_iff.mpr ?_) (by simp [GivesUpQueued, LateFailure])
      simp only [step] at hst
      split at hst
      · cases hst
        exact hlaw
      · split at hst
        · cases hst
          exact hlaw
        · -- the flag is clear, so nothing is queued or running
          rename_i hclear
          cases hst
          have h0 : probes s ≠ 1 := fun h1 => hclear (hlaw.1.mpr h1)
          have hle := hlaw.2
          simp only [probes, List.length_append, List.length_singleton] at h0 hle ⊢
          refine ⟨⟨fun _ => ?_, fun _ => trivial⟩, ?_⟩ <;> omega
  | start =>
      refine iff_of_true (flagLaw_iff.mpr ?_) (by simp [GivesUpQueued, LateFailure])
      simp only [step] at hst
      split at hst
      · -- from the queue onto the thread
        rename_i i rest hrun hq
        cases hst
        simpa [probes, hrun, hq] using hlaw
      · cases hst
  | finish o =>
      refine iff_of_true (flagLaw_iff.mpr ?_) (by simp [GivesUpQueued, LateFailure])
      simp only [step] at hst
      split at hst
      · -- the one probe leaves the thread, and its `finally` clears the flag
        rename_i i hrun
        cases hst
        have hle := hlaw.2
        simp only [probes, hrun, Option.toList_some, List.length_singleton] at hle
        simp only [probes, Option.toList_none, List.length_nil]
        constructor
        · constructor
          · intro h
            cases h
          · intro h
            omega
        · omega
      · cases hst
  | resume i =>
      simp only [step] at hst
      split at hst
      · rename_i o hi
        cases hst
        have hprobes : ∀ b cs, probes { s with inflight := b, pings := cs } = probes s :=
          fun _ _ => rfl
        have hnot : ¬ GivesUpQueued s (.resume i) := by simp [GivesUpQueued]
        rw [flagLaw_iff, hprobes, lateFailure_resume_iff hi]
        cases hc : (handle o).2 with
        -- a probe that returned leaves the flag alone
        | false => simpa [hnot] using hlaw
        | true =>
            -- the handler clears the flag, whoever set it
            have hle := hlaw.2
            simp only [Bool.not_true, Bool.and_false, Bool.false_eq_true, false_iff, hnot,
              not_false_eq_true, true_and, ne_eq, not_not]
            omega
      · cases hst
  | timeout i =>
      simp only [step] at hst
      split at hst
      · rename_i hw
        cases hst
        rw [giveUp_flagLaw_iff hs]
        simp [GivesUpQueued, LateFailure, hw]
      · cases hst
  | cancel i =>
      simp only [step] at hst
      split at hst
      · rename_i hw
        cases hst
        rw [giveUp_flagLaw_iff hs]
        simp [GivesUpQueued, LateFailure, hw]
      · cases hst

/-- In every run, the flag law holds in every state if and only if no ping
gives up on a queued probe and no handler of a failed probe runs while a later
probe is out. -/
theorem flagLaw_throughout_iff (as : List Lbl) :
    machine.Throughout FlagLaw initial as ↔
      machine.Along (fun s a => ¬ GivesUpQueued s a ∧ ¬ LateFailure s a) initial as := by
  have h₀ : FlagLaw initial := by
    rw [flagLaw_iff]
    decide
  have hstep : ∀ s a s', FlagLaw s → machine.step s a = some s' →
      (FlagLaw s' ↔ ¬ GivesUpQueued s a ∧ ¬ LateFailure s a) :=
    fun s a s' hs hst => step_flagLaw_iff hs hst
  rw [Machine.throughout_iff hstep h₀]
  refine Machine.along_congr (fun s a _ => ?_) (.init rfl)
  -- the steps that break the law are always possible where they are described
  constructor
  · intro h
    refine ⟨fun hg => ?_, fun hl => ?_⟩
    · refine (h ?_).1 hg
      rcases hg with ⟨i, -, hw, rfl | rfl⟩ <;> simp [machine, step, hw]
    · refine (h ?_).2 hl
      rcases hl with ⟨i, o, rfl, hi, -⟩
      simp [machine, step, hi]
  · exact fun h _ => h

/-- A ping cancelled before its probe starts: the flag stays set with no probe
left to clear it, and the next ping is refused. -/
def cancelledEarly : List Lbl := [.ping false, .cancel 0, .ping false]

/-- The first probe fails, a second ping sets the flag again before the first
one's handler runs, and a third one submits a second probe. -/
def lateHandler : List Lbl :=
  [.ping false, .start, .finish (.daosError (-1020)), .ping false, .resume 0, .ping false]

theorem flagLaw_fails :
    (∃ s, machine.run initial cancelledEarly = some s ∧ s.inflight = true ∧ probes s = 0 ∧
      s.pings = [.over .cancelled, .over (.code pingTimeoutError)] ∧ ¬ FlagLaw s) ∧
    ∃ s, machine.run initial lateHandler = some s ∧ probes s = 2 ∧ ¬ FlagLaw s := by
  constructor
  · refine ⟨_, rfl, rfl, rfl, rfl, ?_⟩
    rw [flagLaw_iff]
    decide
  · refine ⟨_, rfl, rfl, ?_⟩
    rw [flagLaw_iff]
    decide

end LmcacheDaos.Connector.Ping
