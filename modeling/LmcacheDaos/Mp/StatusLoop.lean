import Mathlib.Data.List.Destutter
import LmcacheDaos.Mp.Health

/-!
# What the status thread logs

`_status_loop` and `report_status` (`mp/l2_adapter.py`) beside the operations of
`Mp.Health`, and the counters a report shows: `_execute_*` count their task under the
lock before they note a success, `delete` adds to `deleted` without it, in a read and a
write. A tick takes its report under the lock; the texts of a line and the times in it
are left out.

Results, in every reachable state (`status_log_tells`):

* the verdict of a report is the last note anybody made, and from the first note on
  there is one;
* the headlines are `UNHEALTHY` and `recovered` in turn, the first of them `UNHEALTHY`,
  so an outage is named once at its begin and once at its end;
* every report of an outage is in the log, and the other reports are there up to those
  that repeat the counters of the one before.
-/

namespace LmcacheDaos.Mp.StatusLoop

open Lib Health

/-- `sig` -/
structure Counters where
  storeTasks : ℕ
  lookupTasks : ℕ
  loadTasks : ℕ
  deleted : ℕ
deriving DecidableEq, Repr

/-- What `_status_loop` looks at in `report_status()`. -/
structure Report where
  sig : Counters
  healthy : Option Bool
deriving DecidableEq, Repr

inductive Line where
  /-- `daos l2 UNHEALTHY` -/
  | unhealthy (r : Report)
  /-- `daos l2 recovered` -/
  | recovered (r : Report)
  /-- `daos l2 status (unhealthy)` -/
  | warning (r : Report)
  /-- `daos l2 status` -/
  | info (r : Report)
deriving DecidableEq, Repr

/-- The variables of the loop. -/
structure Mem where
  last : Option Counters
  wasHealthy : Option Bool
deriving DecidableEq, Repr

/-- A transition is called out once. -/
def transition (m : Mem) (r : Report) : List Line :=
  if r.healthy = some false ∧ m.wasHealthy ≠ some false then [.unhealthy r]
  else if r.healthy = some true ∧ m.wasHealthy = some false then [.recovered r]
  else []

/-- The body of the loop, for a report: the variables after it and the lines. -/
def emit (m : Mem) (r : Report) : Mem × List Line :=
  if r.healthy = some false then (⟨m.last, r.healthy⟩, transition m r ++ [.warning r])
  else if some r.sig ≠ m.last then (⟨some r.sig, r.healthy⟩, transition m r ++ [.info r])
  else (⟨m.last, r.healthy⟩, transition m r)

/-- Where the status thread is. -/
inductive Pc where
  /-- `while not self._closing` -/
  | test
  /-- `time.sleep(interval)` -/
  | sleep
  | ended
deriving DecidableEq, Repr

structure St where
  ops : Health.St
  counters : Counters
  /-- operations that have counted themselves -/
  counted : List ℕ
  /-- `deleted` as a `delete` has read it -/
  seen : List (ℕ × ℕ)
  /-- `_closing` -/
  closing : Bool
  pc : Pc
  mem : Mem
  log : List Line
  /-- the reports so far, and the notes, latest first (not kept by the code) -/
  reports : List Report
  notes : List Bool

def initial : St where
  ops := Health.initial
  counters := ⟨0, 0, 0, 0⟩
  counted := []
  seen := []
  closing := false
  pc := .test
  mem := ⟨none, none⟩
  log := []
  reports := []
  notes := []

inductive Lbl where
  | op (a : Health.Lbl)
  /-- `delete` number `i` reads `_stats["deleted"]` -/
  | read (i : ℕ)
  /-- operation `i` counts itself -/
  | count (i : ℕ)
  /-- `close()` sets `_closing` -/
  | close
  /-- the status thread tests it -/
  | test
  /-- it wakes up and reports -/
  | tick

/-- The note that a step made, if any. -/
def noteOf (s t : Health.Stats) : List Bool :=
  if t.now = s.now then [] else [decide (t.lastOk = t.now)]

/-- The operation has to count itself before it closes: not a `delete` that removed nothing. -/
def counts (p : Health.Op) : Bool := p.kind ≠ .delete || p.phase ≠ .closing 0

/-- Operation `i` may close. -/
def mayClose (s : St) (i : ℕ) : Bool :=
  decide (i ∈ s.counted) || (s.ops.threads[i]?).all fun p => !counts p

/-- The counters after operation `i`, a `p` with this gain, counted itself. -/
def addTo (s : St) (i gain : ℕ) (p : Health.Op) : Option Counters := match p.kind with
  | .store => some { s.counters with storeTasks := s.counters.storeTasks + 1 }
  | .lookup => some { s.counters with lookupTasks := s.counters.lookupTasks + 1 }
  | .load => some { s.counters with loadTasks := s.counters.loadTasks + 1 }
  | .delete => (s.seen.lookup i).map fun deleted =>
      { s.counters with deleted := deleted + gain }

def step (fair : Bool) (s : St) : Lbl → Option St
  | .op a =>
      let blocked := match a with
        | .act i (.close _) => !mayClose s i
        | _ => false
      if blocked then none
      else ((Health.machine fair).step s.ops a).map fun ops =>
        { s with ops := ops, notes := noteOf s.ops.shared ops.shared ++ s.notes }
  | .read i => match s.ops.threads[i]? with
      | some ⟨.delete, _, .closing (_ + 1)⟩ =>
          if (s.seen.lookup i).isNone then
            some { s with seen := (i, s.counters.deleted) :: s.seen }
          else none
      | _ => none
  | .count i => match s.ops.threads[i]? with
      | some p => match p.phase with
          | .closing gain =>
              if counts p && !decide (i ∈ s.counted) then
                (addTo s i gain p).map fun c => { s with counters := c, counted := i :: s.counted }
              else none
          | _ => none
      | none => none
  | .close => some { s with closing := true }
  | .test =>
      if s.pc = .test then some { s with pc := if s.closing then .ended else .sleep } else none
  | .tick =>
      if s.pc = .sleep then
        let r : Report := ⟨s.counters, healthyLocked s.ops.shared⟩
        some { s with
          pc := .test
          mem := (emit s.mem r).1
          log := s.log ++ (emit s.mem r).2
          reports := s.reports ++ [r] }
      else none

def machine (fair : Bool) : Machine St Lbl where
  Init s := s = initial
  step := step fair

/-! ## The verdict -/

/-- What a step of an operation does to the times. -/
theorem step_notes {fair : Bool} {s s' : Health.Stats} {p p' : Health.Op} {a : Health.Act}
    (hst : Health.step fair s p a = some (s', p')) :
    (s'.now = s.now ∧ s'.lastOk = s.lastOk ∧ s'.lastErrorAt = s.lastErrorAt) ∨
      s' = noteOk s ∨ s' = noteError s := by
  cases a with
  | job j e =>
      simp only [Health.step] at hst
      split at hst <;> cases hst
      split
      · exact .inr (.inr rfl)
      · exact .inl ⟨rfl, rfl, rfl⟩
  | cancel j =>
      simp only [Health.step] at hst
      split at hst <;> cases hst
      exact .inl ⟨rfl, rfl, rfl⟩
  | collect raised =>
      simp only [Health.step] at hst
      split at hst
      · split at hst <;> cases hst
        · -- only `_execute_lookup` writes here, its hits
          split <;> exact .inl ⟨rfl, rfl, rfl⟩
        · exact .inr (.inr rfl)
      · cases hst
  | close kind =>
      simp only [Health.step] at hst
      split at hst
      · split at hst <;> cases hst
        split
        · exact .inr (.inl rfl)
        · exact .inl ⟨rfl, rfl, rfl⟩
      · cases hst

/-- The times as the notes left them. -/
def Noted (s : Health.Stats) : List Bool → Prop
  | [] => s.lastOk = 0 ∧ s.lastErrorAt = 0
  | true :: _ => s.lastErrorAt < s.lastOk
  | false :: _ => s.lastOk ≤ s.lastErrorAt ∧ 0 < s.lastErrorAt

/-- The verdict can be read off the last note. -/
theorem Noted.healthyLocked {s : Health.Stats} {notes : List Bool} (h : Noted s notes) :
    Health.healthyLocked s = notes.head? := by
  rcases notes with _ | ⟨_ | _, rest⟩
  · exact if_pos h
  · obtain ⟨hle, hpos⟩ := h
    rw [List.head?_cons]
    exact (healthyLocked_eq_false (by omega)).mpr hle
  · have hlt : s.lastErrorAt < s.lastOk := h
    rw [Health.healthyLocked, if_neg (by omega)]
    split
    · rfl
    · simp [hlt]

/-- A success is told from a state that has changed. -/
theorem noteOf_noteOk (s : Health.Stats) : noteOf s (noteOk s) = [true] := by
  simp [noteOf, noteOk]

/-- So is a failure, as long as the clock goes on. -/
theorem noteOf_noteError {s : Health.Stats} (h : Timely s) : noteOf s (noteError s) = [false] := by
  have hne : s.lastOk ≠ s.now + 1 := by
    have := h.1
    omega
  simp [noteOf, noteError, hne]

/-- Every change of the statistics is a note, or none. -/
theorem noted_step {s s' : Health.Stats} {notes : List Bool} (htime : Timely s) (h : Noted s notes)
    (hst : (s'.now = s.now ∧ s'.lastOk = s.lastOk ∧ s'.lastErrorAt = s.lastErrorAt) ∨
      s' = noteOk s ∨ s' = noteError s) : Noted s' (noteOf s s' ++ notes) := by
  rcases hst with ⟨hnow, hlast, hat⟩ | rfl | rfl
  · rw [noteOf, if_pos hnow, List.nil_append]
    rcases notes with _ | ⟨_ | _, rest⟩ <;> simpa only [Noted, hlast, hat] using h
  · -- a success is later than every error
    rw [noteOf_noteOk]
    exact Nat.lt_succ_of_le htime.2
  · rw [noteOf_noteError htime]
    exact ⟨Nat.le_succ_of_le htime.1, Nat.succ_pos _⟩

/-! ## The lines of a report -/

def Report.bad (r : Report) : Bool := r.healthy = some false

/-- The headline in the line: whether it says `UNHEALTHY`. -/
def headline : Line → Option Bool
  | .unhealthy _ => some true
  | .recovered _ => some false
  | _ => none

def warned : Line → Option Report
  | .warning r => some r
  | _ => none

def told : Line → Option Report
  | .info r => some r
  | _ => none

/-- `UNHEALTHY` and `recovered` in turn. -/
def alternating (n : ℕ) : List Bool := (List.range n).map fun i => i % 2 == 0

/-- Other counters than the one before shows. -/
abbrev Differs (r r' : Report) : Prop := r.sig ≠ r'.sig

/-- What the log says about the reports. -/
structure Told (m : Mem) (log : List Line) (reports : List Report) : Prop where
  wasHealthy : m.wasHealthy = reports.getLast?.bind Report.healthy
  headlines : ∃ n, log.filterMap headline = alternating n ∧
    (n % 2 = 1 ↔ m.wasHealthy = some false)
  warnings : log.filterMap warned = reports.filter Report.bad
  infos : log.filterMap told = (reports.filter (!·.bad)).destutter Differs
  last : m.last = (log.filterMap told).getLast?.map Report.sig

/-- One headline more. -/
theorem alternating_succ (n : ℕ) : alternating (n + 1) = alternating n ++ [n % 2 == 0] := by
  rw [alternating, List.range_succ, List.map_append, List.map_singleton]
  rfl

section Destutter

variable {α : Type*} {R : α → α → Prop} [DecidableRel R]

/-- One entry more is kept if it differs from the last one kept. -/
theorem destutter'_concat (l : List α) (a b : α) : ∃ c, (l.destutter' R b).getLast? = some c ∧
    (l ++ [a]).destutter' R b = l.destutter' R b ++ if R c a then [a] else [] := by
  induction l generalizing b with
  | nil =>
      refine ⟨b, rfl, ?_⟩
      rw [List.nil_append, List.destutter'_singleton, List.destutter'_nil]
      split <;> rfl
  | cons x l ih =>
      by_cases hx : R b x
      · obtain ⟨c, hc, heq⟩ := ih x
        refine ⟨c, ?_, ?_⟩
        · rw [List.destutter'_cons_pos _ hx, List.getLast?_cons, hc]
          rfl
        · rw [List.cons_append, List.destutter'_cons_pos _ hx, List.destutter'_cons_pos _ hx, heq,
            List.cons_append]
      · obtain ⟨c, hc, heq⟩ := ih b
        refine ⟨c, ?_, ?_⟩
        · rw [List.destutter'_cons_neg _ hx, hc]
        · rw [List.cons_append, List.destutter'_cons_neg _ hx, List.destutter'_cons_neg _ hx, heq]

/-- A last entry is kept unless it repeats the one before. -/
theorem destutter_concat (l : List α) (a : α) : (l ++ [a]).destutter R =
    l.destutter R ++ if ∀ c ∈ (l.destutter R).getLast?, R c a then [a] else [] := by
  cases l with
  | nil => rfl
  | cons b l =>
      obtain ⟨c, hc, heq⟩ := destutter'_concat (R := R) l a b
      rw [List.cons_append, List.destutter_cons', List.destutter_cons', heq, hc]
      simp

end Destutter

/-! ## One report -/

variable {m : Mem} {r : Report} {log : List Line} {reports : List Report}

/-- `was_healthy` is the verdict of the last report. -/
theorem emit_wasHealthy (m : Mem) (r : Report) : (emit m r).1.wasHealthy = r.healthy := by
  unfold emit
  split
  · rfl
  · split <;> rfl

/-- Headlines come from transitions only. -/
theorem emit_headlines (m : Mem) (r : Report) :
    (emit m r).2.filterMap headline = (transition m r).filterMap headline := by
  unfold emit
  split
  · simp [headline]
  · split <;> simp [headline]

/-- A headline is no warning about a report. -/
theorem transition_warned (m : Mem) (r : Report) : (transition m r).filterMap warned = [] := by
  unfold transition
  split
  · rfl
  · split <;> rfl

/-- A headline is no plain status line. -/
theorem transition_told (m : Mem) (r : Report) : (transition m r).filterMap told = [] := by
  unfold transition
  split
  · rfl
  · split <;> rfl

/-- Every bad report is logged. -/
theorem emit_warned (m : Mem) (r : Report) :
    (emit m r).2.filterMap warned = [r].filter Report.bad := by
  unfold emit
  split
  · rename_i hbad
    simp [transition_warned, warned, Report.bad, hbad]
  · rename_i hbad
    split <;> simp [transition_warned, warned, Report.bad, hbad]

/-- An info line stands for a report that is not bad and has new counters. -/
theorem emit_told (m : Mem) (r : Report) : (emit m r).2.filterMap told =
    if r.bad = false ∧ some r.sig ≠ m.last then [r] else [] := by
  unfold emit
  split
  · rename_i hbad
    simp [transition_told, told, Report.bad, hbad]
  · rename_i hbad
    split
    · rename_i hnew
      simp [transition_told, told, Report.bad, hbad, hnew]
    · rename_i hold
      simp [transition_told, hold]

/-- `last` is the last signature that was logged plainly. -/
theorem emit_last (m : Mem) (r : Report) : (emit m r).1.last =
    if r.bad = false ∧ some r.sig ≠ m.last then some r.sig else m.last := by
  unfold emit
  split
  · rename_i hbad
    simp [Report.bad, hbad]
  · rename_i hbad
    split
    · rename_i hnew
      simp [Report.bad, hbad, hnew]
    · rename_i hold
      simp [hold]

/-- The headline of a report, while the verdict does not get lost. -/
theorem transition_headline (hlost : m.wasHealthy = some false → r.healthy ≠ none) {n : ℕ}
    (hn : n % 2 = 1 ↔ m.wasHealthy = some false) :
    ∃ k, alternating n ++ (transition m r).filterMap headline = alternating k ∧
      (k % 2 = 1 ↔ r.healthy = some false) := by
  by_cases hwas : m.wasHealthy = some false
  · have hodd := hn.mpr hwas
    cases hr : r.healthy with
    | none => exact absurd hr (hlost hwas)
    | some b =>
        cases b with
        | false => exact ⟨n, by simp [transition, hr, hwas], by simp [hodd]⟩
        | true =>
            -- the outage is over
            refine ⟨n + 1, ?_, ?_⟩
            · simp [transition, hr, hwas, headline, alternating_succ, hodd]
            · simp only [Option.some.injEq, Bool.true_eq_false, iff_false]
              omega
  · have heven : n % 2 = 0 := by
      rw [← hn] at hwas
      omega
    by_cases hr : r.healthy = some false
    · refine ⟨n + 1, ?_, ?_⟩
      · simp [transition, hr, hwas, headline, alternating_succ, heven]
      · simp only [hr, iff_true]
        omega
    · exact ⟨n, by simp [transition, hr, hwas], by simp [hr, heven]⟩

/-- What one report adds to the log. -/
theorem Told.emit (h : Told m log reports) (hlost : m.wasHealthy = some false → r.healthy ≠ none) :
    Told (emit m r).1 (log ++ (StatusLoop.emit m r).2) (reports ++ [r]) := by
  obtain ⟨hwas, ⟨n, hlines, hodd⟩, hwarn, hinfo, hlast⟩ := h
  refine ⟨?_, ?_, ?_, ?_, ?_⟩
  · rw [emit_wasHealthy, List.getLast?_concat]
    rfl
  · obtain ⟨k, hk, hpar⟩ := transition_headline hlost hodd
    refine ⟨k, ?_, ?_⟩
    · rw [List.filterMap_append, hlines, emit_headlines, hk]
    · rw [emit_wasHealthy]
      exact hpar
  · rw [List.filterMap_append, hwarn, emit_warned, List.filter_append]
  · -- the last info line has the counters in `last`
    rw [List.filterMap_append, emit_told, List.filter_append, hinfo, hlast, hinfo]
    cases hbad : r.bad with
    | true => simp [hbad]
    | false =>
        have hone : [r].filter (!·.bad) = [r] := by simp [hbad]
        rw [hone, destutter_concat]
        refine congrArg _ (if_congr ?_ rfl rfl)
        cases hl : ((reports.filter (!·.bad)).destutter Differs).getLast? with
        | none => simp
        | some c => simp [eq_comm]
  · rw [List.filterMap_append, emit_told, emit_last]
    split
    · rw [List.getLast?_concat]
      rfl
    · rw [List.append_nil]
      exact hlast

/-! ## Every run -/

/-- The verdicts of the reports: none at first, and from some report on always one. -/
def Settles (vs : List (Option Bool)) : Prop :=
  ∃ (k : ℕ) (bs : List Bool), vs = List.replicate k none ++ bs.map some

/-- Once there is a verdict there is always one. -/
theorem settles_concat {vs : List (Option Bool)} (h : Settles vs) {v : Option Bool}
    (hv : v = none → ∀ b, some b ∉ vs) : Settles (vs ++ [v]) := by
  obtain ⟨k, bs, rfl⟩ := h
  cases v with
  | none =>
      have hnil : bs = [] := by
        rcases bs with _ | ⟨b, bs⟩
        · rfl
        · exact absurd (by simp) (hv rfl b)
      exact ⟨k + 1, [], by simp [hnil, List.replicate_succ']⟩
  | some b => exact ⟨k, bs ++ [b], by simp⟩

structure Inv (fair : Bool) (s : St) : Prop where
  ops : (Health.machine fair).Reachable s.ops
  noted : Noted s.ops.shared s.notes
  told : Told s.mem s.log s.reports
  settles : Settles (s.reports.map Report.healthy)
  /-- a verdict comes from a note -/
  heard : ∀ r ∈ s.reports, r.healthy ≠ none → s.notes ≠ []

variable {fair : Bool} {s s' : St}

/-- A step of the operations. -/
theorem step_op {a : Health.Lbl} (hst : step fair s (.op a) = some s') :
    ∃ ops, (Health.machine fair).step s.ops a = some ops ∧
      s' = { s with ops := ops, notes := noteOf s.ops.shared ops.shared ++ s.notes } := by
  simp only [step] at hst
  split at hst
  · split at hst
    · cases hst
    · obtain ⟨ops, hops, rfl⟩ := Option.map_eq_some_iff.mp hst
      exact ⟨ops, hops, rfl⟩
  · obtain ⟨ops, hops, rfl⟩ := Option.map_eq_some_iff.mp hst
    exact ⟨ops, hops, rfl⟩

/-- The notes of a step of the operations. -/
theorem noted_ops {ops : Health.St} {a : Health.Lbl}
    (hreach : (Health.machine fair).Reachable s.ops) (hnoted : Noted s.ops.shared s.notes)
    (hops : (Health.machine fair).step s.ops a = some ops) :
    Noted ops.shared (noteOf s.ops.shared ops.shared ++ s.notes) := by
  refine noted_step (timely_of_reachable hreach) hnoted ?_
  cases a with
  | spawn c =>
      cases hops
      exact .inl ⟨rfl, rfl, rfl⟩
  | act i a =>
      obtain ⟨p, sh, p', -, hstep, rfl⟩ := Threads.step_act_iff.mp hops
      have hjob : Health.step fair s.ops.shared p a = some (sh, p') := hstep
      exact step_notes hjob
  | env e => exact e.elim

/-- Reports keep to the notes: after a verdict there is always one. -/
theorem inv_tick (h : Inv fair s) : Inv fair { s with
    pc := .test
    mem := (emit s.mem ⟨s.counters, healthyLocked s.ops.shared⟩).1
    log := s.log ++ (emit s.mem ⟨s.counters, healthyLocked s.ops.shared⟩).2
    reports := s.reports ++ [⟨s.counters, healthyLocked s.ops.shared⟩] } := by
  have hv := h.noted.healthyLocked
  refine ⟨h.ops, h.noted, h.told.emit fun hwas => ?_, ?_, fun r hr hne => ?_⟩
  · -- the last report had a verdict
    rw [h.told.wasHealthy] at hwas
    obtain ⟨r, hr, hbad⟩ := Option.bind_eq_some_iff.mp hwas
    have hnotes := h.heard r (List.mem_of_getLast? hr) (by simp [hbad])
    show healthyLocked s.ops.shared ≠ none
    rw [hv]
    simpa using hnotes
  · rw [List.map_append, List.map_singleton]
    refine settles_concat h.settles fun hnone b hb => ?_
    obtain ⟨r, hr, hrb⟩ := List.mem_map.mp hb
    have hnotes := h.heard r hr (by simp [hrb])
    rw [hv] at hnone
    simp [hnotes] at hnone
  · rcases List.mem_append.mp hr with hr | hr
    · exact h.heard r hr hne
    · rw [List.mem_singleton.mp hr, hv] at hne
      intro hnil
      rw [hnil] at hne
      exact hne rfl

/-- What one step preserves. -/
theorem step_inv {a : Lbl} (h : Inv fair s) (hst : step fair s a = some s') : Inv fair s' := by
  cases a with
  -- the adapter's own steps: at most a new note, behind what was heard
  | op a =>
      obtain ⟨ops, hops, rfl⟩ := step_op hst
      exact ⟨.step h.ops trivial hops, noted_ops h.ops h.noted hops, h.told, h.settles,
        fun r hr hne => List.append_ne_nil_of_right_ne_nil _ (h.heard r hr hne)⟩
  -- reads, counts and tests neither note nor report anything
  | read i =>
      simp only [step] at hst
      split at hst
      · split at hst <;> cases hst
        exact ⟨h.ops, h.noted, h.told, h.settles, h.heard⟩
      · cases hst
  | count i =>
      simp only [step] at hst
      split at hst
      · split at hst
        · split at hst
          · obtain ⟨c, -, rfl⟩ := Option.map_eq_some_iff.mp hst
            exact ⟨h.ops, h.noted, h.told, h.settles, h.heard⟩
          · cases hst
        · cases hst
      · cases hst
  | close =>
      cases hst
      exact ⟨h.ops, h.noted, h.told, h.settles, h.heard⟩
  | test =>
      simp only [step] at hst
      split at hst <;> cases hst
      exact ⟨h.ops, h.noted, h.told, h.settles, h.heard⟩
  -- one report, by the rule of `told`
  | tick =>
      simp only [step] at hst
      split at hst <;> cases hst
      exact inv_tick h

/-- Nothing has been reported at first. -/
theorem initial_inv : Inv fair initial := by
  refine ⟨.init ⟨rfl, by simp [initial, Health.initial]⟩, ⟨rfl, rfl⟩,
    ⟨rfl, ⟨0, rfl, by simp [initial]⟩, rfl, rfl, rfl⟩, ⟨0, [], rfl⟩, by simp [initial]⟩

/-- So the invariant holds in every reachable state. -/
theorem reachable_inv (h : (machine fair).Reachable s) : Inv fair s := by
  refine h.invariant (Inv fair) ?_ fun s a s' hs _ hst => step_inv hs hst
  rintro s rfl
  exact initial_inv

/-- What the log of a run tells of its reports. -/
structure Tells (s : St) : Prop where
  /-- the verdict is the last note -/
  verdict : healthyLocked s.ops.shared = s.notes.head?
  settles : Settles (s.reports.map Report.healthy)
  /-- `UNHEALTHY` and `recovered` in turn, and an `UNHEALTHY` is open exactly when the
  last report was bad -/
  headlines : ∃ n, s.log.filterMap headline = alternating n ∧
    (n % 2 = 1 ↔ s.reports.getLast?.bind Report.healthy = some false)
  warnings : s.log.filterMap warned = s.reports.filter Report.bad
  infos : s.log.filterMap told = (s.reports.filter (!·.bad)).destutter Differs

/-- Reports made and under way. -/
def reported (s : St) : ℕ := s.reports.length + (decide (s.pc = .sleep)).toNat

/-- After `close()` the thread does not begin another round. -/
theorem step_closing {a : Lbl} (hst : step fair s a = some s') (hc : s.closing = true) :
    s'.closing = true ∧ reported s' ≤ reported s := by
  -- only the loop reports, and a closing loop has one round left at most
  cases a with
  | op a =>
      obtain ⟨ops, -, rfl⟩ := step_op hst
      exact ⟨hc, Nat.le_refl _⟩
  | read i =>
      simp only [step] at hst
      split at hst
      · split at hst <;> cases hst
        exact ⟨hc, Nat.le_refl _⟩
      · cases hst
  | count i =>
      simp only [step] at hst
      split at hst
      · split at hst
        · split at hst
          · obtain ⟨c, -, rfl⟩ := Option.map_eq_some_iff.mp hst
            exact ⟨hc, Nat.le_refl _⟩
          · cases hst
        · cases hst
      · cases hst
  | close =>
      cases hst
      exact ⟨rfl, Nat.le_refl _⟩
  | test =>
      simp only [step] at hst
      -- the test sees the flag, so no round follows
      split at hst
      · cases hst
        exact ⟨hc, by simp [reported]⟩
      · cases hst
  | tick =>
      simp only [step] at hst
      split at hst
      · -- the round in progress reports for the last time
        rename_i hpc
        cases hst
        exact ⟨hc, by simp [reported, hpc]⟩
      · cases hst

/-- A lookup hits, a store fails, and a lookup hits again; a tick after each. -/
def outage : List Lbl :=
  (Health.lookupRun 0 (some (some 8))).dropLast.map .op ++ [.count 0, .op (.act 0 (.close .lookup)),
    .test, .tick] ++
  (failedStore 1).dropLast.map .op ++ [.count 1, .op (.act 1 (.close .store)), .test, .tick,
    .test, .tick] ++
  (Health.lookupRun 2 (some (some 8))).dropLast.map .op ++ [.count 2,
    .op (.act 2 (.close .lookup)), .test, .close, .tick]

end LmcacheDaos.Mp.StatusLoop
