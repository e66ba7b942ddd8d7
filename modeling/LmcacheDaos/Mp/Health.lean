import Mathlib.Tactic.Common
import LmcacheDaos.Lib.Machine

/-!
# The health verdict of the MP L2 adapter

`_note_ok`, `_note_error` and `_healthy_locked` (`mp/l2_adapter.py`), and who
calls the first two: `_store_one`, `_lookup_one`, `_load_one` and `delete` note
an error for each key, `_execute_store`, `_execute_lookup`, `_execute_load` and
`delete` note a success once at their end. The storage answers every call as it
likes; a call that fails raises `DaosError`, an `OSError`. The job of one key
is a step, and so are the end of a task's fan-out and its closing; tasks
overlap in any way. Every note has a later time than the one before it.

Result: after a stretch in which every storage call failed, the adapter
reports unhealthy exactly when no lookup had ever hit before that stretch, or
no lookup task ends after the last error was noted (`LookupEndsLast`).
`_execute_lookup` decides by the cumulative `lookup_hits`, so any lookup that
ends counts as a success from the first hit on.
-/

namespace LmcacheDaos.Mp.Health

open Lib

/-! ## One key -/

/-- The exception classes the handlers tell apart. -/
inductive Exc where
  | osError
  | valueError
  | other
deriving DecidableEq, Repr

/-- A piece of code that ran: the storage calls it made, by whether each
succeeded, and what it came to. -/
structure Ran (α : Type) where
  calls : List Bool
  result : Except Exc α
deriving Repr

namespace Ran

variable {α β : Type}

/-- A storage call with the storage's answer; nothing when it fails. -/
def storage (answer : Option α) : Ran α where
  calls := [answer.isSome]
  result := match answer with
    | some a => .ok a
    | none => .error .osError

/-- Code without a storage call. -/
def plain (r : Except Exc α) : Ran α := ⟨[], r⟩

def andThen (x : Ran α) (f : α → Ran β) : Ran β :=
  match x.result with
  | .ok a => ⟨x.calls ++ (f a).calls, (f a).result⟩
  | .error e => ⟨x.calls, .error e⟩

end Ran

instance : Monad Ran where
  pure a := .plain (.ok a)
  bind := Ran.andThen

/-- What `_cbuf` and the storage answer to one `_store_one`. `close_obj` drops
its return code, so it cannot fail. -/
structure StoreEnv where
  cbuf : Except Exc ℕ
  stat : Option (Option ℕ)
  opened : Option Unit
  wrote : Option ℕ
  removed : Option Bool

/-- The `try` block of `_store_one`: bytes written, 0 if skipped, -1 on a short write. -/
def storeBody (e : StoreEnv) : Ran ℤ := do
  let n ← Ran.plain e.cbuf
  let have_ ← Ran.storage e.stat
  if have_ = some n then return 0
  Ran.storage e.opened
  let wrote ← Ran.storage e.wrote
  if wrote ≠ n then
    let _ ← Ran.storage e.removed
    return -1
  return n

/-- What `_lookup_one` gets: the size it expects, and the `stat`. -/
structure LookupEnv where
  expected : Option ℕ
  stat : Option (Option ℕ)

def lookupBody (e : LookupEnv) : Ran ℤ := do
  let size ← Ran.storage e.stat
  match size with
  | none => return 0
  | some n => if e.expected.any (· ≠ n) then return 0 else return 1

structure LoadEnv where
  cbuf : Except Exc ℕ
  opened : Option Unit
  got : Option ℕ

/-- The `try` block of `_load_one`, with the bytes it adds to `nbytes`. -/
def loadBody (e : LoadEnv) : Ran ℤ := do
  let n ← Ran.plain e.cbuf
  Ran.storage e.opened
  let got ← Ran.storage e.got
  if got ≠ n then return -1 else return n

structure DeleteEnv where
  stat : Option (Option ℕ)
  removed : Option Bool

/-- The `try` block of `delete`, for one key: whether it counts as deleted. -/
def deleteBody (e : DeleteEnv) : Ran ℤ := do
  let size ← Ran.storage e.stat
  match size with
  | none => return 0
  | some _ =>
      let removed ← Ran.storage e.removed
      if removed then return 1 else return 0

inductive Kind where
  | store
  | lookup
  | load
  | delete
deriving DecidableEq, Repr

/-- What the surroundings answer to the job of one key. -/
inductive KeyEnv where
  | store (e : StoreEnv)
  | lookup (e : LookupEnv)
  | load (e : LoadEnv)
  | delete (e : DeleteEnv)

def KeyEnv.kind : KeyEnv → Kind
  | .store _ => .store
  | .lookup _ => .lookup
  | .load _ => .load
  | .delete _ => .delete

def KeyEnv.body : KeyEnv → Ran ℤ
  | .store e => storeBody e
  | .lookup e => lookupBody e
  | .load e => loadBody e
  | .delete e => deleteBody e

/-- The exceptions that the key's own handler catches and notes. -/
def Kind.catches : Kind → Exc → Bool
  | _, .osError => true
  | .store, .valueError | .load, .valueError => true
  | _, _ => false

/-- The storage calls a key's job makes, by whether each succeeded. -/
def KeyEnv.calls (e : KeyEnv) : List Bool := e.body.calls

/-- The key's handler notes an error. -/
def KeyEnv.notes (e : KeyEnv) : Bool := match e.body.result with
  | .ok _ => false
  | .error x => e.kind.catches x

/-- What the key's job hands to its task: a gain, or an exception its handler
does not catch. -/
def KeyEnv.outcome (e : KeyEnv) : Except Exc ℕ := match e.body.result with
  | .ok r => .ok r.toNat
  | .error x => if e.kind.catches x then .ok 0 else .error x

/-! ## Tasks -/

/-- The part of `_stats` the verdict rests on, and the clock. -/
structure Stats where
  /-- time of the last note -/
  now : ℕ
  lookupHits : ℕ
  lastOk : ℕ
  lastErrorAt : ℕ
deriving DecidableEq, Repr

/-- `_note_ok` -/
def noteOk (s : Stats) : Stats := { s with now := s.now + 1, lastOk := s.now + 1 }

/-- `_note_error` -/
def noteError (s : Stats) : Stats := { s with now := s.now + 1, lastErrorAt := s.now + 1 }

/-- `_healthy_locked` -/
def healthyLocked (s : Stats) : Option Bool :=
  if s.lastOk = 0 ∧ s.lastErrorAt = 0 then none
  else if s.lastErrorAt = 0 then some true
  else some (decide (s.lastErrorAt < s.lastOk))

inductive Phase where
  /-- the jobs are out -/
  | mapping
  /-- their results are in, with this gain -/
  | closing (gain : ℕ)
  | over
deriving DecidableEq, Repr

/-- A task, or a call of `delete`: one slot a key, empty while its job runs. -/
structure Op where
  kind : Kind
  slots : List (Option (Except Exc ℕ))
  phase : Phase

/-- Nothing of the operation is left to run; after an exception, jobs of its
other keys that have begun outlive the task. -/
def Op.finished (p : Op) : Bool := decide (p.phase = .over) && p.slots.all Option.isSome

/-- `list(pool.map(..))`: waits for the results in order, up to the first
exception. -/
def collect : List (Option (Except Exc ℕ)) → Option (Except Exc ℕ)
  | [] => some (.ok 0)
  | none :: _ => none
  | some (.error x) :: _ => some (.error x)
  | some (.ok v) :: rest => (collect rest).map fun r => r.map (v + ·)

inductive Act where
  /-- the job of key `j` -/
  | job (j : ℕ) (e : KeyEnv)
  /-- the key `j` of a fan-out that raised is cancelled before its job began -/
  | cancel (j : ℕ)
  /-- the fan-out ends, or raises -/
  | collect (raised : Bool)
  /-- the rest of the task of this kind -/
  | close (kind : Kind)

/-- `delete` works key by key; the pools take the keys in any order. -/
def mayRun (p : Op) (j : ℕ) : Bool :=
  p.kind ≠ .delete || (p.slots.take j).all Option.isSome

/-- What the fair dispatcher makes of an item that raises: `False`. -/
def fairOutcome (fair : Bool) (e : KeyEnv) : Except Exc ℕ :=
  if fair && e.kind = .load then .ok (match e.outcome with | .ok v => v | .error _ => 0)
  else e.outcome

/-- The task's own test before `_note_ok`: `stored_keys`, `nbytes` and
`deleted` are of this task, `lookup_hits` is the adapter's. -/
def closesOk (s : Stats) (kind : Kind) (gain : ℕ) : Bool := match kind with
  | .lookup => s.lookupHits ≠ 0
  | _ => gain ≠ 0

def step (fair : Bool) (s : Stats) (p : Op) : Act → Option (Stats × Op)
  | .job j e =>
      if p.slots[j]? = some none ∧ e.kind = p.kind ∧ mayRun p j = true then
        some (if e.notes then noteError s else s,
          { p with slots := p.slots.set j (some (fairOutcome fair e)) })
      else none
  | .cancel j =>
      if p.phase ≠ .mapping ∧ p.slots[j]? = some none then
        some (s, { p with slots := p.slots.set j (some (.ok 0)) })
      else none
  | .collect raised =>
      if p.phase = .mapping then match collect p.slots, raised with
        -- `_execute_lookup` counts its hits, the others report their gain later
        | some (.ok v), false =>
            some (if p.kind = .lookup then { s with lookupHits := s.lookupHits + v } else s,
              { p with phase := .closing v })
        | some (.error _), true => some (noteError s, { p with phase := .closing 0 })
        | _, _ => none
      else none
  | .close kind => match p.phase with
      | .closing gain =>
          -- `_note_ok`, or nothing
          if kind = p.kind then
            some (if closesOk s kind gain then noteOk s else s, { p with phase := .over })
          else none
      | _ => none

/-- Operations of any kind and any number of keys; `fair` is the load schedule. -/
def threads (fair : Bool) : Threads Stats Op (Kind × ℕ) Act Empty where
  Init s := s = ⟨0, 0, 0, 0⟩
  entry c := ⟨c.1, List.replicate c.2 none, .mapping⟩
  step := step fair
  envStep _ e := e.elim

abbrev St := ThreadState Stats Op

abbrev Lbl := ThreadLbl (Kind × ℕ) Act Empty

def machine (fair : Bool) : Machine St Lbl := (threads fair).machine

def initial : St := ⟨⟨0, 0, 0, 0⟩, []⟩

/-- No operation is in progress. -/
def Quiet (s : St) : Prop := ∀ p ∈ s.threads, p.finished = true

/-! ## Stretches of a run -/

/-- The storage calls of a step. -/
def callsOf : Lbl → List Bool
  | .act _ (.job _ e) => e.calls
  | _ => []

/-- At least one storage call is made, and every one fails. -/
def Outage (as : List Lbl) : Prop :=
  (∃ a ∈ as, callsOf a ≠ []) ∧ ∀ a ∈ as, ∀ b ∈ callsOf a, b = false

/-- The step notes an error. -/
def notesError : Lbl → Bool
  | .act _ (.job _ e) => e.notes
  | .act _ (.collect raised) => raised
  | _ => false

/-- The step ends a lookup task. -/
def endsLookup : Lbl → Bool
  | .act _ (.close .lookup) => true
  | _ => false

/-- A lookup task ends, and no error is noted after it. -/
def LookupEndsLast (as : List Lbl) : Prop :=
  ∃ bs a cs, as = bs ++ a :: cs ∧ endsLookup a = true ∧ ∀ c ∈ cs, notesError c = false

/-! ## An outage, key by key and task by task -/

theorem Ran.plain_bind {α β : Type} (a : α) (f : α → Ran β) : (Ran.plain (.ok a) >>= f) = f a := rfl

/-- Code that begins with a storage call ends with it when every call fails. -/
theorem Ran.storage_bind_outage {α β : Type} {answer : Option α} {f : α → Ran β}
    (h : ∀ b ∈ (Ran.storage answer >>= f).calls, b = false) :
    (Ran.storage answer >>= f) = ⟨[false], .error .osError⟩ := by
  cases answer with
  | none => rfl
  | some a =>
      have hmem : true ∈ (Ran.storage (some a) >>= f).calls := List.mem_cons_self
      cases h true hmem

/-- In an outage a key's job gets no further than its first storage call. -/
theorem KeyEnv.body_outage {e : KeyEnv} (h : ∀ b ∈ e.calls, b = false) :
    e.body = ⟨[false], .error .osError⟩ ∨ ∃ x, e.body = ⟨[], .error x⟩ := by
  cases e with
  | store e =>
      cases hbuf : e.cbuf with
      | error x =>
          refine .inr ⟨x, ?_⟩
          rw [KeyEnv.body, storeBody, hbuf]
          rfl
      | ok n =>
          rw [KeyEnv.calls, KeyEnv.body, storeBody, hbuf, Ran.plain_bind] at h
          refine .inl ?_
          rw [KeyEnv.body, storeBody, hbuf, Ran.plain_bind]
          exact Ran.storage_bind_outage h
  | lookup e => exact .inl (Ran.storage_bind_outage h)
  | load e =>
      cases hbuf : e.cbuf with
      | error x =>
          refine .inr ⟨x, ?_⟩
          rw [KeyEnv.body, loadBody, hbuf]
          rfl
      | ok n =>
          rw [KeyEnv.calls, KeyEnv.body, loadBody, hbuf, Ran.plain_bind] at h
          refine .inl ?_
          rw [KeyEnv.body, loadBody, hbuf, Ran.plain_bind]
          exact Ran.storage_bind_outage h
  | delete e => exact .inl (Ran.storage_bind_outage h)

theorem catches_osError (k : Kind) : k.catches .osError = true := by
  cases k <;> rfl

/-- A key whose storage calls all fail notes the failure. -/
theorem KeyEnv.notes_of_outage {e : KeyEnv} (h : ∀ b ∈ e.calls, b = false) (hne : e.calls ≠ []) :
    e.notes = true := by
  rcases KeyEnv.body_outage h with hb | ⟨x, hb⟩
  · simp [KeyEnv.notes, hb, catches_osError]
  · rw [KeyEnv.calls, hb] at hne
    exact absurd rfl hne

/-- It also gains nothing. -/
theorem KeyEnv.outcome_of_outage {e : KeyEnv} (h : ∀ b ∈ e.calls, b = false) {v : ℕ}
    (hv : e.outcome = .ok v) : v = 0 := by
  have hzero : ∀ x, e.body.result = .error x → v = 0 := by
    intro x hx
    rw [KeyEnv.outcome, hx] at hv
    simp only at hv
    split at hv <;> cases hv
    rfl
  rcases KeyEnv.body_outage h with hb | ⟨x, hb⟩
  · exact hzero .osError (by rw [hb])
  · exact hzero x (by rw [hb])

/-- An operation of an outage: it is over, or nothing it got so far is a gain. -/
def Fruitless (p : Op) : Prop :=
  p.finished = true ∨
    ((∀ v, some (Except.ok v) ∈ p.slots → v = 0) ∧ ∀ g, p.phase = .closing g → g = 0)

theorem collect_fruitless {slots : List (Option (Except Exc ℕ))}
    (h : ∀ v, some (Except.ok v) ∈ slots → v = 0) {v : ℕ} (hv : collect slots = some (.ok v)) :
    v = 0 := by
  induction slots generalizing v with
  | nil =>
      cases hv
      rfl
  | cons x rest ih =>
      cases x with
      | none => cases hv
      | some r =>
          cases r with
          | error e => cases hv
          | ok u =>
              simp only [collect, Option.map_eq_some_iff] at hv
              obtain ⟨r, hr, hv⟩ := hv
              cases r with
              | error e => cases hv
              | ok w =>
                  cases hv
                  have hw := ih (fun v hv => h v (List.mem_cons_of_mem _ hv)) hr
                  have hu := h u List.mem_cons_self
                  show u + w = 0
                  omega

/-- What a step does to the notes. -/
def noted (a : Lbl) (s : Stats) : Stats :=
  if notesError a then noteError s
  else if endsLookup a && s.lookupHits ≠ 0 then noteOk s
  else s

/-- A step in an outage: errors are noted, and no success but that of a lookup
after the first hit. -/
theorem step_outage {fair : Bool} {s s' : Stats} {p p' : Op} {i : ℕ} {a : Act}
    (hst : step fair s p a = some (s', p')) (hp : Fruitless p)
    (hcalls : ∀ b ∈ callsOf (.act i a), b = false) :
    s' = noted (.act i a) s ∧ Fruitless p' := by
  cases a with
  | job j e =>
      simp only [step] at hst
      split at hst
      · rename_i hguard
        cases hst
        refine ⟨?_, ?_⟩
        · simp [noted, notesError, endsLookup]
        · rcases hp with hfin | ⟨hslots, hphase⟩
          · -- a finished operation has no job left
            simp only [Op.finished, Bool.and_eq_true, List.all_eq_true] at hfin
            have := hfin.2 none (List.mem_of_getElem? hguard.1)
            cases this
          · refine .inr ⟨fun v hv => ?_, hphase⟩
            rcases List.mem_or_eq_of_mem_set hv with hv | hv
            · exact hslots v hv
            · have hout : fairOutcome fair e = .ok v := (Option.some.inj hv).symm
              unfold fairOutcome at hout
              split at hout
              · split at hout
                · cases hout
                  exact KeyEnv.outcome_of_outage hcalls ‹_›
                · cases hout
                  rfl
              · exact KeyEnv.outcome_of_outage hcalls hout
      · cases hst
  | cancel j =>
      simp only [step] at hst
      split at hst
      · rename_i hguard
        cases hst
        refine ⟨rfl, ?_⟩
        -- a cancelled key is no gain
        rcases hp with hfin | ⟨hslots, hphase⟩
        · simp only [Op.finished, Bool.and_eq_true, List.all_eq_true] at hfin
          have := hfin.2 none (List.mem_of_getElem? hguard.2)
          cases this
        · refine .inr ⟨fun v hv => ?_, hphase⟩
          rcases List.mem_or_eq_of_mem_set hv with hv | hv
          · exact hslots v hv
          · cases hv
            rfl
      · cases hst
  | collect raised =>
      simp only [step] at hst
      split at hst
      · rename_i hmap
        have hslots : ∀ v, some (Except.ok v) ∈ p.slots → v = 0 := by
          rcases hp with hfin | ⟨hslots, -⟩
          · simp [Op.finished, hmap] at hfin
          · exact hslots
        split at hst
        · -- the results are in: they add up to nothing
          rename_i v hv
          cases hst
          have hv0 := collect_fruitless hslots hv
          subst hv0
          refine ⟨?_, .inr ⟨hslots, ?_⟩⟩
          · simp [noted, notesError, endsLookup]
          · intro g hg
            cases hg
            rfl
        · -- the fan-out raised, which is noted
          cases hst
          refine ⟨by simp [noted, notesError], .inr ⟨hslots, ?_⟩⟩
          intro g hg
          cases hg
          rfl
        · cases hst
      · cases hst
  | close kind =>
      simp only [step] at hst
      split at hst
      · rename_i gain hphase
        split at hst
        · rename_i hkind
          cases hst
          -- only a lookup can end with a success
          rcases hp with hfin | ⟨hslots, hgain⟩
          · simp [Op.finished, hphase] at hfin
          · have hg0 := hgain gain hphase
            subst hg0
            refine ⟨?_, .inr ⟨hslots, by simp⟩⟩
            cases kind <;> simp [noted, notesError, endsLookup, closesOk]
        · cases hst
      · cases hst

/-! ## The verdict -/

theorem lookupEndsLast_concat {as : List Lbl} {a : Lbl} :
    LookupEndsLast (as ++ [a]) ↔
      endsLookup a = true ∨ (LookupEndsLast as ∧ notesError a = false) := by
  constructor
  · rintro ⟨bs, x, cs, heq, hx, hcs⟩
    rcases List.eq_nil_or_concat cs with rfl | ⟨cs', y, rfl⟩
    · obtain ⟨-, hlast⟩ := List.append_inj' heq rfl
      cases hlast
      exact .inl hx
    · have heq' : as ++ [a] = (bs ++ x :: cs') ++ [y] := by simpa using heq
      obtain ⟨rfl, hlast⟩ := List.append_inj' heq' rfl
      cases hlast
      refine .inr ⟨⟨bs, x, cs', rfl, hx, fun c hc => hcs c (by simp [hc])⟩, hcs a (by simp)⟩
  · rintro (ha | ⟨⟨bs, x, cs, rfl, hx, hcs⟩, ha⟩)
    · exact ⟨as, a, [], rfl, ha, by simp⟩
    · refine ⟨bs, x, cs ++ [a], by simp, hx, fun c hc => ?_⟩
      rcases List.mem_append.mp hc with hc | hc
      · exact hcs c hc
      · rw [List.mem_singleton.mp hc]
        exact ha

/-- No note is later than the clock. -/
def Timely (s : Stats) : Prop := s.lastOk ≤ s.now ∧ s.lastErrorAt ≤ s.now

theorem timely_noteOk {s : Stats} (h : Timely s) : Timely (noteOk s) :=
  ⟨Nat.le_refl _, Nat.le_succ_of_le h.2⟩

theorem timely_noteError {s : Stats} (h : Timely s) : Timely (noteError s) :=
  ⟨Nat.le_succ_of_le h.1, Nat.le_refl _⟩

theorem step_timely {fair : Bool} {s s' : Stats} {p p' : Op} {a : Act} (h : Timely s)
    (hst : step fair s p a = some (s', p')) : Timely s' := by
  cases a with
  | job j e =>
      simp only [step] at hst
      split at hst <;> cases hst
      split
      · exact timely_noteError h
      · exact h
  | cancel j =>
      simp only [step] at hst
      split at hst <;> cases hst
      exact h
  | collect raised =>
      simp only [step] at hst
      split at hst
      · split at hst <;> cases hst
        · split <;> exact h
        · exact timely_noteError h
      · cases hst
  | close kind =>
      simp only [step] at hst
      split at hst
      · split at hst <;> cases hst
        split
        · exact timely_noteOk h
        · exact h
      · cases hst

theorem timely_of_reachable {fair : Bool} {s : St} (h : (machine fair).Reachable s) :
    Timely s.shared := by
  refine h.invariant (fun s => Timely s.shared) ?_ ?_
  · rintro s ⟨hs, -⟩
    rw [hs]
    exact ⟨Nat.le_refl _, Nat.le_refl _⟩
  · intro s a s' hs _ hst
    cases a with
    | spawn c =>
        cases hst
        exact hs
    | act i a =>
        obtain ⟨p, sh, p', -, hstep, rfl⟩ := Threads.step_act_iff.mp hst
        have hstep' : step fair s.shared p a = some (sh, p') := hstep
        exact step_timely hs hstep'
    | env e => exact e.elim

theorem healthyLocked_eq_false {s : Stats} (h : s.lastErrorAt ≠ 0) :
    healthyLocked s = some false ↔ s.lastOk ≤ s.lastErrorAt := by
  rw [healthyLocked, if_neg (fun hz => h hz.2), if_neg h]
  simp

/-- The last note of an outage that has noted an error so far. -/
structure Verdict (hits : ℕ) (as : List Lbl) (s : Stats) : Prop where
  lookupHits : s.lookupHits = hits
  timely : Timely s
  verdict : (∃ a ∈ as, notesError a = true) → s.lastErrorAt ≠ 0 ∧
    (s.lastOk ≤ s.lastErrorAt ↔ hits = 0 ∨ ¬ LookupEndsLast as)

theorem Verdict.concat {hits : ℕ} {as : List Lbl} {s : Stats} (h : Verdict hits as s) (a : Lbl) :
    Verdict hits (as ++ [a]) (noted a s) := by
  have hhits := h.lookupHits
  have htime := h.timely
  unfold noted
  split
  · -- the error is later than everything noted before
    rename_i herr
    have hnot : ¬ LookupEndsLast (as ++ [a]) := by
      rw [lookupEndsLast_concat]
      rintro (hend | ⟨-, hno⟩)
      · cases a <;> simp_all [endsLookup, notesError]
        rename_i i act
        cases act <;> simp_all
      · rw [herr] at hno
        cases hno
    refine ⟨hhits, timely_noteError htime, fun _ => ⟨Nat.succ_ne_zero _, ?_⟩⟩
    refine iff_of_true ?_ (.inr hnot)
    exact Nat.le_succ_of_le htime.1
  · rename_i herr
    have herr' : notesError a = false := by simpa using herr
    have hold : (∃ x ∈ as ++ [a], notesError x = true) → ∃ x ∈ as, notesError x = true := by
      rintro ⟨x, hx, hxe⟩
      rcases List.mem_append.mp hx with hx | hx
      · exact ⟨x, hx, hxe⟩
      · rw [List.mem_singleton.mp hx, herr'] at hxe
        cases hxe
    split
    · -- a lookup ends, and lookups have hit before
      rename_i hend
      rw [Bool.and_eq_true, decide_eq_true_eq] at hend
      refine ⟨hhits, timely_noteOk htime, fun hx => ⟨(h.verdict (hold hx)).1, ?_⟩⟩
      refine iff_of_false ?_ ?_
      · show ¬ s.now + 1 ≤ s.lastErrorAt
        have := htime.2
        omega
      · rintro (h0 | hno)
        · exact hend.2 (hhits.trans h0)
        · exact hno (lookupEndsLast_concat.mpr (.inl hend.1))
    · rename_i hend
      refine ⟨hhits, htime, fun hx => ⟨(h.verdict (hold hx)).1, ?_⟩⟩
      rw [(h.verdict (hold hx)).2, lookupEndsLast_concat, herr']
      cases hl : endsLookup a with
      | false => simp
      | true =>
          -- it ends without a note: no lookup has hit yet
          have h0 : hits = 0 := by
            by_contra hne
            rw [hl, hhits] at hend
            simp [hne] at hend
          simp [h0]

/-- From any quiet moment of any run on: once a storage call was made and all
that were made failed, the adapter reports unhealthy if and only if no lookup
had hit before that moment, or no lookup task ended after the last error. -/
theorem unhealthy_after_outage_iff {fair : Bool} {s t : St} {as : List Lbl}
    (hs : (machine fair).Reachable s) (hquiet : Quiet s)
    (hrun : (machine fair).run s as = some t) (hout : Outage as) :
    healthyLocked t.shared = some false ↔
      s.shared.lookupHits = 0 ∨ ¬ LookupEndsLast as := by
  have hall : (∀ p ∈ t.threads, Fruitless p) ∧ Verdict s.shared.lookupHits as t.shared := by
    refine Machine.run_induction (M := machine fair) (fun as t => (∀ p ∈ t.threads, Fruitless p) ∧
      Verdict s.shared.lookupHits as t.shared) ?_ ?_
      (Machine.along_of_forall (P := fun a => ∀ b ∈ callsOf a, b = false) hout.2) hrun
    · refine ⟨fun p hp => .inl (hquiet p hp), rfl, timely_of_reachable hs, ?_⟩
      rintro ⟨a, ha, -⟩
      cases ha
    · -- one step of the outage
      rintro as t a t' ⟨hops, hverdict⟩ - hcalls hst
      cases a with
      | spawn c =>
          -- a new operation has gained nothing
          cases hst
          refine ⟨fun p hp => ?_, hverdict.concat (.spawn c)⟩
          rcases List.mem_append.mp hp with hp | hp
          · exact hops p hp
          · rw [List.mem_singleton.mp hp]
            refine .inr ⟨fun v hv => ?_, fun g hg => by cases hg⟩
            cases List.eq_of_mem_replicate hv
      | act i a =>
          obtain ⟨p, sh, p', hi, hstep, rfl⟩ := Threads.step_act_iff.mp hst
          have hjob : step fair t.shared p a = some (sh, p') := hstep
          obtain ⟨rfl, hp'⟩ :=
            step_outage (i := i) hjob (hops p (List.mem_of_getElem? hi)) hcalls
          refine ⟨fun q hq => ?_, hverdict.concat _⟩
          rcases List.mem_or_eq_of_mem_set hq with hq | rfl
          · exact hops q hq
          · exact hp'
      | env e => exact e.elim
  -- the failed call was noted
  have hnoted : ∃ a ∈ as, notesError a = true := by
    rcases hout.1 with ⟨a, ha, hne⟩
    refine ⟨a, ha, ?_⟩
    rcases a with c | ⟨i, act⟩ | e
    · exact absurd rfl hne
    · cases act with
      | job j e => exact KeyEnv.notes_of_outage (hout.2 _ ha) hne
      | cancel j => exact absurd rfl hne
      | collect raised => exact absurd rfl hne
      | close kind => exact absurd rfl hne
    · exact e.elim
  obtain ⟨herr, hiff⟩ := hall.2.verdict hnoted
  rw [healthyLocked_eq_false herr, hiff]

/-- A lookup task of one key, as operation `i`. -/
def lookupRun (i : ℕ) (stat : Option (Option ℕ)) : List Lbl :=
  [.spawn (.lookup, 1), .act i (.job 0 (.lookup ⟨none, stat⟩)), .act i (.collect false),
    .act i (.close .lookup)]

/-- A store task of one key whose first storage call fails. -/
def failedStore (i : ℕ) : List Lbl :=
  [.spawn (.store, 1), .act i (.job 0 (.store ⟨.ok 8, none, none, none, none⟩)),
    .act i (.collect false), .act i (.close .store)]

/-- After one lookup that hit. -/
def afterHit : St := ⟨⟨1, 1, 1, 0⟩, [⟨.lookup, [some (.ok 1)], .over⟩]⟩

theorem afterHit_reachable : (machine false).Reachable afterHit ∧ Quiet afterHit := by
  constructor
  · have h₀ : (machine false).Reachable initial := .init ⟨rfl, rfl⟩
    have hrun : (machine false).run initial (lookupRun 0 (some (some 8))) = some afterHit := rfl
    exact h₀.run hrun
  · intro p hp
    cases List.mem_singleton.mp hp
    rfl

/-- The storage is gone: a lookup fails, and then a store. -/
theorem failed_store_reports_unhealthy :
    ∃ t, (machine false).run afterHit (lookupRun 1 none ++ failedStore 2) = some t ∧
      healthyLocked t.shared = some false := by
  obtain ⟨t, hrun⟩ : ∃ t, (machine false).run afterHit (lookupRun 1 none ++ failedStore 2) =
    some t := ⟨_, rfl⟩
  refine ⟨t, hrun, ?_⟩
  have hout : Outage (lookupRun 1 none ++ failedStore 2) := by
    constructor
    · exact ⟨_, List.mem_of_getElem? (i := 1) rfl, by decide⟩
    · decide
  have hlast : ¬ LookupEndsLast (lookupRun 1 none ++ failedStore 2) := by
    -- the error of the store comes after the end of the lookup
    have hsplit : lookupRun 1 none ++ failedStore 2 = lookupRun 1 none ++ [.spawn (.store, 1)] ++
      [.act 2 (.job 0 (.store ⟨.ok 8, none, none, none, none⟩))] ++ [.act 2 (.collect false)] ++
      [.act 2 (.close .store)] := rfl
    rw [hsplit, lookupEndsLast_concat, lookupEndsLast_concat, lookupEndsLast_concat]
    rintro (h | ⟨h | ⟨h | ⟨-, h⟩, -⟩, -⟩) <;> cases h
  exact (unhealthy_after_outage_iff afterHit_reachable.1 afterHit_reachable.2 hrun hout).mpr
    (.inr hlast)

/-- The storage is gone: a lookup fails, its only storage call after the hit.
Its task notes the error and then a success. -/
theorem failed_lookup_reports_healthy :
    ∃ s t, (machine false).Reachable s ∧ Quiet s ∧ Outage (lookupRun 1 none) ∧
      (machine false).run s (lookupRun 1 none) = some t ∧ Quiet t ∧
      healthyLocked t.shared = some true := by
  refine ⟨afterHit, _, afterHit_reachable.1, afterHit_reachable.2, ?_, rfl, ?_, rfl⟩
  · constructor
    · exact ⟨_, List.mem_of_getElem? (i := 1) rfl, by decide⟩
    · decide
  · intro p hp
    rcases List.mem_cons.mp hp with rfl | hp
    · rfl
    · cases List.mem_singleton.mp hp
      rfl

end LmcacheDaos.Mp.Health
