import LmcacheDaos.Lib.PoolMap

/-!
# The warm-up of all targets

`warm_up_all_targets` of `dfs_binding.py`: a probe file with one shard on every target
gets one small write per chunk, one after the other; then a full chunk write each, in
parallel on the executor; its handle is closed; every chunk is read back, in parallel
and through a handle of its own; the file is removed. Any of these calls may raise. The
object class is the container's default where the container refuses `SX`.

The two lists of calls are `Lib.PoolMap`, so a write that raises leaves others running
while the handle is closed, and a raise anywhere leaves the file behind.

Result (`warm_up_steps`): in every state of every run the targets were all contacted,
one at a time, before the first full write is started, the handle is open under every
write in progress unless a write has raised, and nothing is read before everything is
written and the handle is closed.
-/

namespace LmcacheDaos.WarmUp

open Lib

/-- What a call raises: an `OSError`, or anything else. -/
inductive Raised where
  | os (errno : ℕ)
  | other
deriving DecidableEq, Repr

def einval : ℕ := 22

/-- `OC_SX`, or 0. -/
inductive Oclass where
  | sx
  | containerDefault
deriving DecidableEq, Repr

def Oclass.text : Oclass → String
  | .sx => "SX"
  | .containerDefault => "container default"

/-- The dict that is returned, without its times. -/
structure Info where
  ok : ℕ
  n : ℕ
  oclass : String
deriving DecidableEq, Repr

/-- `nchunks` and `chunk`. -/
structure Probe where
  nchunks : ℕ
  chunk : ℕ

inductive Pc where
  | create (oclass : Oclass)
  /-- before the small write of chunk `i` -/
  | connect (oclass : Oclass) (i : ℕ)
  /-- a small write has raised -/
  | failed (e : Raised)
  /-- the full writes are submitted -/
  | write (oclass : Oclass)
  /-- the reads are submitted -/
  | read (oclass : Oclass)
  | ended (r : Except Raised Info)
deriving DecidableEq, Repr

structure St where
  pc : Pc
  /-- whether the probe file is in the container -/
  file : Bool
  /-- whether the handle of the writes is open -/
  handle : Bool
  /-- the chunks whose small write has returned (not in the source) -/
  contacted : List ℕ
  /-- `_map(_write, ...)`; a call returns the size -/
  writes : PoolMap.St ℕ Raised
  /-- `_map(_read, ...)` -/
  reads : PoolMap.St ℕ Raised
deriving DecidableEq, Repr

def initial : St where
  pc := .create .sx
  file := false
  handle := false
  contacted := []
  writes := PoolMap.submitted 0
  reads := PoolMap.submitted 0

inductive Lbl where
  /-- `open_rdwr_create` -/
  | opened (r : Except Raised Unit)
  /-- a small write -/
  | small (r : Except Raised Unit)
  | submitWrites
  /-- a step of the full writes -/
  | writes (a : PoolMap.Lbl ℕ Raised)
  /-- `dfs.close_obj(h)` -/
  | close
  /-- a step of the reads -/
  | reads (a : PoolMap.Lbl ℕ Raised)
  /-- `dfs.remove(probe_path)`; what it raises is ignored -/
  | remove (ok : Bool)
  /-- a read has raised -/
  | leave
deriving DecidableEq, Repr

/-- The threads of the executor step at any time, the caller in its turn. -/
def poolTurn (turn : Bool) : PoolMap.Lbl ℕ Raised → Bool
  | .collect => turn
  | _ => true

def Pc.writing : Pc → Bool
  | .write _ => true
  | _ => false

def Pc.reading : Pc → Bool
  | .read _ => true
  | _ => false

/-- `"ok"`, `"n"` and `"oclass"`. -/
def info (p : Probe) (oclass : Oclass) (got : List ℕ) : Info :=
  ⟨got.countP (· = p.chunk), p.nchunks, oclass.text⟩

def step (p : Probe) (s : St) : Lbl → Option St
  | .opened r => match s.pc, r with
    | .create oclass, .ok _ => some { s with pc := .connect oclass 0, file := true, handle := true }
    | .create .sx, .error e =>
        if e = .os einval then some { s with pc := .create .containerDefault }
        else some { s with pc := .ended (.error e) }
    | .create .containerDefault, .error e => some { s with pc := .ended (.error e) }
    | _, _ => none
  | .small r => match s.pc, r with
    | .connect oclass i, r =>
        if i < p.nchunks then match r with
          | .ok _ => some { s with pc := .connect oclass (i + 1), contacted := s.contacted ++ [i] }
          | .error e => some { s with pc := .failed e }
        else none
    | _, _ => none
  | .submitWrites => match s.pc with
    | .connect oclass i =>
        if i < p.nchunks then none
        else some { s with pc := .write oclass, writes := PoolMap.submitted p.nchunks }
    | _ => none
  | .writes a =>
      if poolTurn s.pc.writing a then
        (PoolMap.step s.writes a).map fun writes => { s with writes := writes }
      else none
  | .close => match s.pc, s.writes.pc with
    | .failed e, _ => some { s with pc := .ended (.error e), handle := false }
    | .write oclass, .returned => some { s with
        pc := .read oclass
        handle := false
        reads := PoolMap.submitted p.nchunks }
    | .write _, .raised e => some { s with pc := .ended (.error e), handle := false }
    | _, _ => none
  | .reads a =>
      if poolTurn s.pc.reading a then
        (PoolMap.step s.reads a).map fun reads => { s with reads := reads }
      else none
  | .remove ok => match s.pc, s.reads.pc with
    | .read oclass, .returned => some { s with
        pc := .ended (.ok (info p oclass s.reads.got))
        file := !ok }
    | _, _ => none
  | .leave => match s.pc, s.reads.pc with
    | .read _, .raised e => some { s with pc := .ended (.error e) }
    | _, _ => none

def machine (p : Probe) : Machine St Lbl where
  Init s := s = initial
  step := step p

/-! ## What is known at each place -/

/-- All targets contacted, and the full writes submitted. -/
structure Written (p : Probe) (s : St) : Prop where
  file : s.file = true
  contacted : s.contacted = List.range p.nchunks
  length : s.writes.jobs.length = p.nchunks

/-- The full writes have all returned. -/
structure ReadBack (p : Probe) (s : St) : Prop where
  contacted : s.contacted = List.range p.nchunks
  length : s.writes.jobs.length = p.nchunks
  returned : s.writes.pc = .returned
  reads : s.reads.jobs.length = p.nchunks

/-- The chunks are contacted one after the other. -/
def Contacting (p : Probe) (s : St) : Prop := ∃ i ≤ p.nchunks, s.contacted = List.range i

def Idle (s : St) : Prop := s.writes.jobs = [] ∧ s.reads.jobs = []

def AtPc (p : Probe) (s : St) : Pc → Prop
  | .create _ => s.file = false ∧ s.handle = false ∧ s.contacted = [] ∧ Idle s
  | .connect _ i => s.file = true ∧ s.handle = true ∧ i ≤ p.nchunks ∧ s.contacted = List.range i ∧
      Idle s
  | .failed _ => s.file = true ∧ s.handle = true ∧ Contacting p s ∧ Idle s
  | .write _ => s.handle = true ∧ Written p s ∧ s.reads.jobs = []
  | .read _ => s.handle = false ∧ s.file = true ∧ ReadBack p s
  | .ended (.ok x) => s.handle = false ∧ ReadBack p s ∧ s.reads.pc = .returned ∧
      ∃ oclass, x = info p oclass s.reads.got
  | .ended (.error e) => s.handle = false ∧
      ((s.file = false ∧ s.contacted = [] ∧ Idle s) ∨ (s.file = true ∧ Contacting p s ∧ Idle s) ∨
        (Written p s ∧ s.writes.pc = .raised e ∧ s.reads.jobs = []) ∨
        (s.file = true ∧ ReadBack p s ∧ s.reads.pc = .raised e))

structure Inv (p : Probe) (s : St) : Prop where
  writes : PoolMap.Inv s.writes
  reads : PoolMap.Inv s.reads
  atPc : AtPc p s s.pc

theorem inv_initial (p : Probe) : Inv p initial where
  writes := PoolMap.inv_submitted 0
  reads := PoolMap.inv_submitted 0
  atPc := ⟨rfl, rfl, rfl, rfl, rfl⟩

section Step

variable {p : Probe} {s s' : St} {w : PoolMap.St ℕ Raised} {a : PoolMap.Lbl ℕ Raised}

theorem ne_collect (h : poolTurn false a = true) : a ≠ .collect := by
  rintro rfl
  cases h

theorem eq_nil_of_step {w' : PoolMap.St ℕ Raised} (hst : PoolMap.step w a = some w')
    (h : w.jobs = []) : w'.jobs = [] := by
  have hlen := (PoolMap.step_frame hst).1
  rw [h] at hlen
  exact List.eq_nil_of_length_eq_zero hlen

theorem writes_atPc (hst : PoolMap.step s.writes a = some w) {pc : Pc}
    (hturn : poolTurn pc.writing a = true) (h : AtPc p s pc) :
    AtPc p { s with writes := w } pc := by
  have hlen := (PoolMap.step_frame hst).1
  have hidle : Idle s → Idle { s with writes := w } := fun hi =>
    ⟨eq_nil_of_step hst hi.1, hi.2⟩
  have hback : poolTurn false a = true → ReadBack p s → ReadBack p { s with writes := w } :=
    fun hf hb => ⟨hb.contacted, hlen.trans hb.length,
      ((PoolMap.step_frame hst).2 (ne_collect hf)).1.trans hb.returned, hb.reads⟩
  have hwritten : Written p s → Written p { s with writes := w } := fun hw =>
    ⟨hw.file, hw.contacted, hlen.trans hw.length⟩
  rcases pc with oclass | ⟨oclass, i⟩ | e | oclass | oclass | (e | x)
  · exact ⟨h.1, h.2.1, h.2.2.1, hidle h.2.2.2⟩
  · exact ⟨h.1, h.2.1, h.2.2.1, h.2.2.2.1, hidle h.2.2.2.2⟩
  · exact ⟨h.1, h.2.1, h.2.2.1, hidle h.2.2.2⟩
  · exact ⟨h.1, hwritten h.2.1, h.2.2⟩
  · exact ⟨h.1, h.2.1, hback hturn h.2.2⟩
  · refine ⟨h.1, ?_⟩
    rcases h.2 with ⟨hf, hc, hi⟩ | ⟨hf, hc, hi⟩ | ⟨hw, hr, hn⟩ | ⟨hf, hb, hr⟩
    · exact .inl ⟨hf, hc, hidle hi⟩
    · exact .inr (.inl ⟨hf, hc, hidle hi⟩)
    · have hpc' := ((PoolMap.step_frame hst).2 (ne_collect hturn)).1
      exact .inr (.inr (.inl ⟨hwritten hw, hpc'.trans hr, hn⟩))
    · exact .inr (.inr (.inr ⟨hf, hback hturn hb, hr⟩))
  · exact ⟨h.1, hback hturn h.2.1, h.2.2⟩

theorem reads_atPc (hst : PoolMap.step s.reads a = some w) {pc : Pc}
    (hturn : poolTurn pc.reading a = true) (h : AtPc p s pc) :
    AtPc p { s with reads := w } pc := by
  -- the pool's step keeps the length of its list, and nothing else of the run moves
  have hlen := (PoolMap.step_frame hst).1
  have hidle : Idle s → Idle { s with reads := w } := fun hi =>
    ⟨hi.1, eq_nil_of_step hst hi.2⟩
  have hback : ReadBack p s → ReadBack p { s with reads := w } := fun hb =>
    ⟨hb.contacted, hb.length, hb.returned, hlen.trans hb.reads⟩
  have hwritten : Written p s → Written p { s with reads := w } := fun hw =>
    ⟨hw.file, hw.contacted, hw.length⟩
  -- on the program counter: in each state it is `reads` that has to be carried over
  rcases pc with oclass | ⟨oclass, i⟩ | e | oclass | oclass | (e | x)
  · exact ⟨h.1, h.2.1, h.2.2.1, hidle h.2.2.2⟩
  · exact ⟨h.1, h.2.1, h.2.2.1, h.2.2.2.1, hidle h.2.2.2.2⟩
  · exact ⟨h.1, h.2.1, h.2.2.1, hidle h.2.2.2⟩
  · exact ⟨h.1, hwritten h.2.1, eq_nil_of_step hst h.2.2⟩
  · exact ⟨h.1, h.2.1, hback h.2.2⟩
  · refine ⟨h.1, ?_⟩
    -- a raise after the open, in the writes, or in the reads
    rcases h.2 with ⟨hf, hc, hi⟩ | ⟨hf, hc, hi⟩ | ⟨hw, hr, hn⟩ | ⟨hf, hb, hr⟩
    · exact .inl ⟨hf, hc, hidle hi⟩
    · exact .inr (.inl ⟨hf, hc, hidle hi⟩)
    · exact .inr (.inr (.inl ⟨hwritten hw, hr, eq_nil_of_step hst hn⟩))
    · have hpc' := ((PoolMap.step_frame hst).2 (ne_collect hturn)).1
      exact .inr (.inr (.inr ⟨hf, hback hb, hpc'.trans hr⟩))
  · have hframe := (PoolMap.step_frame hst).2 (ne_collect hturn)
    obtain ⟨oclass, hx⟩ := h.2.2.2
    exact ⟨h.1, hback h.2.1, hframe.1.trans h.2.2.1, oclass, hx.trans (hframe.2 ▸ rfl)⟩

/-- What one step preserves. -/
theorem step_inv (h : Inv p s) {a : Lbl} (hst : step p s a = some s') : Inv p s' := by
  obtain ⟨hwrites, hreads, hat⟩ := h
  cases a with
  | opened r =>
      simp only [step] at hst
      split at hst
      · -- the file was opened, with the class asked for or without
        rename_i oclass _ hpc
        cases hst
        rw [hpc] at hat
        exact ⟨hwrites, hreads, rfl, rfl, Nat.zero_le _, hat.2.2.1, hat.2.2.2⟩
      · -- a refusal: once more without a class, or raise
        rename_i e hpc
        rw [hpc] at hat
        split at hst
        · cases hst
          exact ⟨hwrites, hreads, hat⟩
        · cases hst
          exact ⟨hwrites, hreads, hat.2.1, .inl ⟨hat.1, hat.2.2⟩⟩
      · rename_i e hpc
        cases hst
        rw [hpc] at hat
        exact ⟨hwrites, hreads, hat.2.1, .inl ⟨hat.1, hat.2.2⟩⟩
      · cases hst
  | small r =>
      simp only [step] at hst
      split at hst
      · -- one contact chunk more, or a raise after `close`
        rename_i r' oclass i hpc
        rw [hpc] at hat
        obtain ⟨hfile, hhandle, -, hcontacted, hidle⟩ := hat
        split at hst
        · rename_i hlt
          split at hst
          · cases hst
            refine ⟨hwrites, hreads, hfile, hhandle, hlt, ?_, hidle⟩
            simp only [hcontacted, List.range_succ]
          · cases hst
            exact ⟨hwrites, hreads, hfile, hhandle, ⟨i, Nat.le_of_lt hlt, hcontacted⟩, hidle⟩
        · cases hst
      · cases hst
  -- all contact chunks are out: the batch is queued
  | submitWrites =>
      simp only [step] at hst
      split at hst
      · rename_i oclass i hpc
        rw [hpc] at hat
        obtain ⟨hfile, hhandle, hle, hcontacted, hidle⟩ := hat
        split at hst
        · cases hst
        · rename_i hge
          cases hst
          obtain rfl : i = p.nchunks := by omega
          exact ⟨PoolMap.inv_submitted _, hreads, hhandle,
            ⟨hfile, hcontacted, List.length_replicate⟩, hidle.2⟩
      · cases hst
  -- a thread of the write pool takes its step
  | writes a =>
      simp only [step] at hst
      split at hst
      · rename_i hturn
        obtain ⟨w, hw, rfl⟩ := Option.map_eq_some_iff.mp hst
        exact ⟨PoolMap.step_inv hwrites hw, hreads, writes_atPc hw hturn hat⟩
      · cases hst
  | close =>
      simp only [step] at hst
      -- after a raise: the file is closed and nothing else follows
      split at hst
      · rename_i e hpc
        cases hst
        rw [hpc] at hat
        exact ⟨hwrites, hreads, rfl, .inr (.inl ⟨hat.1, hat.2.2⟩)⟩
      · -- all writes returned: the reads are queued
        rename_i oclass hpc hret
        cases hst
        rw [hpc] at hat
        obtain ⟨-, hw, -⟩ := hat
        exact ⟨hwrites, PoolMap.inv_submitted _, rfl, hw.file,
          ⟨hw.contacted, hw.length, hret, List.length_replicate⟩⟩
      · -- some write raised
        rename_i oclass e hpc hraised
        cases hst
        rw [hpc] at hat
        obtain ⟨-, hw, hnil⟩ := hat
        exact ⟨hwrites, hreads, rfl, .inr (.inr (.inl ⟨⟨hw.file, hw.contacted, hw.length⟩,
          hraised, hnil⟩))⟩
      · cases hst
  -- a thread of the read pool takes its step
  | reads a =>
      simp only [step] at hst
      split at hst
      · rename_i hturn
        obtain ⟨w, hw, rfl⟩ := Option.map_eq_some_iff.mp hst
        exact ⟨hwrites, PoolMap.step_inv hreads hw, reads_atPc hw hturn hat⟩
      · cases hst
  | remove ok =>
      simp only [step] at hst
      split at hst
      · -- all reads returned: the file is removed
        rename_i oclass hpc hret
        cases hst
        rw [hpc] at hat
        obtain ⟨hhandle, -, hb⟩ := hat
        exact ⟨hwrites, hreads, hhandle, ⟨hb.contacted, hb.length, hb.returned, hb.reads⟩, hret,
          oclass, rfl⟩
      · cases hst
  | leave =>
      simp only [step] at hst
      split at hst
      · rename_i oclass e hpc hraised
        cases hst
        rw [hpc] at hat
        obtain ⟨hhandle, hfile, hb⟩ := hat
        exact ⟨hwrites, hreads, hhandle, .inr (.inr (.inr ⟨hfile,
          ⟨hb.contacted, hb.length, hb.returned, hb.reads⟩, hraised⟩))⟩
      · cases hst

end Step

/-! ## Runs -/

section Runs

variable {p : Probe} {s : St} {as : List Lbl}

/-- So the invariant holds along every run. -/
theorem inv_of_run (h : (machine p).run initial as = some s) : Inv p s :=
  ((Machine.ReachableVia.init rfl).run (Machine.along_of_forall fun _ _ => trivial) h).invariant
    (Inv p) (fun s (hs : s = initial) => hs ▸ inv_initial p) fun _ _ _ hi _ hst => step_inv hi hst

/-- The object class of the probe, once it is known. -/
def Pc.oclass : Pc → Option String
  | .create oclass | .connect oclass _ | .write oclass | .read oclass => some oclass.text
  | .ended (.ok x) => some x.oclass
  | .failed _ | .ended (.error _) => none

/-- The container refuses `SX`. -/
def refusal : Lbl := .opened (.error (.os einval))

theorem step_oclass {s' : St} {a : Lbl} {text : String} (hst : step p s a = some s')
    (h : s'.pc.oclass = some text) :
    (a = refusal ∧ text = "container default") ∨ (a ≠ refusal ∧ s.pc.oclass = some text) := by
  -- only the second open changes the class; the others carry it along
  cases a with
  | opened r =>
      simp only [step] at hst
      split at hst
      · rename_i oclass _ hpc
        cases hst
        exact .inr ⟨by simp [refusal], hpc ▸ h⟩
      · rename_i e hpc
        split at hst
        · -- the refusal is what the fallback answers
          rename_i he
          cases hst
          exact .inl ⟨by rw [he, refusal], (Option.some.inj h).symm⟩
        · cases hst
          cases h
      · cases hst
        cases h
      · cases hst
  | writes a | reads a =>
      simp only [step] at hst
      split at hst
      · obtain ⟨w, -, rfl⟩ := Option.map_eq_some_iff.mp hst
        exact .inr ⟨by simp [refusal], h⟩
      · cases hst
  | small r =>
      simp only [step] at hst
      split at hst
      · rename_i hpc
        split at hst
        · split at hst <;> cases hst
          · exact .inr ⟨by simp [refusal], hpc ▸ h⟩
          · cases h
        · cases hst
      · cases hst
  | submitWrites =>
      simp only [step] at hst
      split at hst
      · rename_i hpc
        split at hst <;> cases hst
        exact .inr ⟨by simp [refusal], hpc ▸ h⟩
      · cases hst
  | close =>
      simp only [step] at hst
      split at hst
      · cases hst
        cases h
      · rename_i hpc _
        cases hst
        exact .inr ⟨by simp [refusal], hpc ▸ h⟩
      · cases hst
        cases h
      · cases hst
  | remove ok =>
      simp only [step] at hst
      split at hst
      · rename_i hpc _
        cases hst
        exact .inr ⟨by simp [refusal], hpc ▸ h⟩
      · cases hst
  | leave =>
      simp only [step] at hst
      split at hst <;> cases hst
      cases h

/-- The default class is used exactly where `SX` was refused. -/
theorem oclass_of_run (h : (machine p).run initial as = some s) {text : String}
    (htext : s.pc.oclass = some text) : text = "container default" ↔ refusal ∈ as := by
  have hall := (machine p).run_induction_all
    (fun as s => ∀ text, s.pc.oclass = some text → (text = "container default" ↔ refusal ∈ as))
    ?_ ?_ h text htext
  · exact hall
  · rintro text ⟨⟩
    simp [Oclass.text]
  · intro as s a s' ih _ hst text htext
    rcases step_oclass hst htext with ⟨rfl, rfl⟩ | ⟨hne, hbefore⟩
    · simp
    · rw [ih text hbefore, List.mem_append, List.mem_singleton, or_iff_left (Ne.symm hne)]

/-- What holds after a run. -/
structure Steps (p : Probe) (as : List Lbl) (s : St) : Prop where
  /-- one small write after the other, all of them before the first full write -/
  contacted : Contacting p s ∧ (s.writes.jobs ≠ [] → s.contacted = List.range p.nchunks)
  /-- under a closed handle a write runs only if one has raised -/
  underWrites : .running ∈ s.writes.jobs →
    s.handle = true ∨ ∃ e, .done (.error e) ∈ s.writes.jobs
  /-- nothing is read before all is written and the handle is closed -/
  beforeReads : s.reads.jobs ≠ [] → s.handle = false ∧ s.writes.jobs.length = p.nchunks ∧
    ∀ j ∈ s.writes.jobs, ∃ b, j = .done (.ok b)
  /-- `ok` counts the chunks that came back whole, of all that were read -/
  returned : ∀ x, s.pc = .ended (.ok x) → ∃ got : List ℕ, got.length = p.nchunks ∧
    s.reads.jobs = got.map (fun b => .done (.ok b)) ∧ x.ok = got.countP (· = p.chunk) ∧
    x.n = p.nchunks ∧ (x.oclass = "container default" ↔ refusal ∈ as)
  /-- no raise takes the file away again -/
  raised : ∀ e, s.pc = .ended (.error e) → s.file = true ∨ (s.contacted = [] ∧ Idle s)
  /-- while calls return, it goes on -/
  progress : (∀ r, s.pc ≠ .ended r) → ∃ a, (step p s a).isSome

/-- Small writes first, one chunk after the other. -/
theorem Inv.contacted (h : Inv p s) :
    Contacting p s ∧ (s.writes.jobs ≠ [] → s.contacted = List.range p.nchunks) := by
  have hall : s.contacted = List.range p.nchunks →
      Contacting p s ∧ (s.writes.jobs ≠ [] → s.contacted = List.range p.nchunks) :=
    fun hc => ⟨⟨p.nchunks, Nat.le_refl _, hc⟩, fun _ => hc⟩
  have hat := h.atPc
  rcases hpc : s.pc with oclass | ⟨oclass, i⟩ | e | oclass | oclass | (e | x)
  all_goals rw [hpc] at hat
  · obtain ⟨-, -, hc, hi⟩ := hat
    exact ⟨⟨0, Nat.zero_le _, hc⟩, fun hne => absurd hi.1 hne⟩
  · obtain ⟨-, -, hle, hc, hi⟩ := hat
    exact ⟨⟨i, hle, hc⟩, fun hne => absurd hi.1 hne⟩
  · exact ⟨hat.2.2.1, fun hne => absurd hat.2.2.2.1 hne⟩
  · exact hall hat.2.1.contacted
  · exact hall hat.2.2.contacted
  · rcases hat.2 with ⟨-, hc, hi⟩ | ⟨-, hc, hi⟩ | ⟨hw, -, -⟩ | ⟨-, hb, -⟩
    · exact ⟨⟨0, Nat.zero_le _, hc⟩, fun hne => absurd hi.1 hne⟩
    · exact ⟨hc, fun hne => absurd hi.1 hne⟩
    · exact hall hw.contacted
    · exact hall hb.contacted
  · exact hall hat.2.1.contacted

theorem ReadBack.no_running (h : Inv p s) (hb : ReadBack p s) : .running ∉ s.writes.jobs := by
  rw [h.writes.returned hb.returned]
  simp

/-- A write in progress has its handle, unless another one has raised. -/
theorem Inv.underWrites (h : Inv p s) (hrun : .running ∈ s.writes.jobs) :
    s.handle = true ∨ ∃ e, .done (.error e) ∈ s.writes.jobs := by
  have hidle : ¬ Idle s := fun hi => by simp [hi.1] at hrun
  have hat := h.atPc
  rcases hpc : s.pc with oclass | ⟨oclass, i⟩ | e | oclass | oclass | (e | x)
  all_goals rw [hpc] at hat
  · exact absurd hat.2.2.2 hidle
  · exact .inl hat.2.1
  · exact .inl hat.2.1
  · exact .inl hat.1
  · exact absurd hrun (hat.2.2.no_running h)
  · rcases hat.2 with ⟨-, -, hi⟩ | ⟨-, -, hi⟩ | ⟨-, hr, -⟩ | ⟨-, hb, -⟩
    · exact absurd hi hidle
    · exact absurd hi hidle
    · exact .inr (h.writes.running_behind hrun (by simp [hr]))
    · exact absurd hrun (hb.no_running h)
  · exact absurd hrun (hat.2.1.no_running h)

/-- Reads come after all writes and the close. -/
theorem Inv.beforeReads (h : Inv p s) (hne : s.reads.jobs ≠ []) : s.handle = false ∧
    s.writes.jobs.length = p.nchunks ∧ ∀ j ∈ s.writes.jobs, ∃ b, j = .done (.ok b) := by
  have hback : ReadBack p s → s.handle = false → s.handle = false ∧
      s.writes.jobs.length = p.nchunks ∧ ∀ j ∈ s.writes.jobs, ∃ b, j = .done (.ok b) := by
    intro hb hhandle
    refine ⟨hhandle, hb.length, ?_⟩
    intro j hj
    rw [h.writes.returned hb.returned] at hj
    obtain ⟨b, -, rfl⟩ := List.mem_map.mp hj
    exact ⟨b, rfl⟩
  have hat := h.atPc
  rcases hpc : s.pc with oclass | ⟨oclass, i⟩ | e | oclass | oclass | (e | x)
  all_goals rw [hpc] at hat
  · exact absurd hat.2.2.2.2 hne
  · exact absurd hat.2.2.2.2.2 hne
  · exact absurd hat.2.2.2.2 hne
  · exact absurd hat.2.2 hne
  · exact hback hat.2.2 hat.1
  · rcases hat.2 with ⟨-, -, hi⟩ | ⟨-, -, hi⟩ | ⟨-, -, hnil⟩ | ⟨-, hb, -⟩
    · exact absurd hi.2 hne
    · exact absurd hi.2 hne
    · exact absurd hnil hne
    · exact hback hb hat.1
  · exact hback hat.2.1 hat.1

/-- A raise leaves the file, unless it came before the file was made. -/
theorem Inv.raised (h : Inv p s) {e : Raised} (hpc : s.pc = .ended (.error e)) :
    s.file = true ∨ (s.contacted = [] ∧ Idle s) := by
  have hat := h.atPc
  rw [hpc] at hat
  rcases hat.2 with ⟨-, hc, hi⟩ | ⟨hf, -, -⟩ | ⟨hw, -, -⟩ | ⟨hf, -, -⟩
  · exact .inr ⟨hc, hi⟩
  · exact .inl hf
  · exact .inl hw.file
  · exact .inl hf

/-- A list of calls that is under way can go on in its turn. -/
theorem progress_of_pool {w : PoolMap.St ℕ Raised} (h : PoolMap.Inv w)
    (hret : w.pc ≠ .returned) (hraised : ∀ e, w.pc ≠ .raised e) :
    ∃ a, poolTurn true a = true ∧ (PoolMap.step w a).isSome := by
  obtain ⟨a, ha⟩ := PoolMap.progress h hret hraised (.ok 0)
  exact ⟨a, by cases a <;> rfl, ha⟩

/-- While calls return, there is a next step. -/
theorem Inv.progress (h : Inv p s) (hend : ∀ r, s.pc ≠ .ended r) :
    ∃ a, (step p s a).isSome := by
  rcases hpc : s.pc with oclass | ⟨oclass, i⟩ | e | oclass | oclass | r
  · exact ⟨.opened (.ok ()), by simp [step, hpc]⟩
  · by_cases hlt : i < p.nchunks
    · exact ⟨.small (.ok ()), by simp [step, hpc, hlt]⟩
    · exact ⟨.submitWrites, by simp [step, hpc, hlt]⟩
  · exact ⟨.close, by simp [step, hpc]⟩
  · by_cases hret : s.writes.pc = .returned
    · exact ⟨.close, by simp [step, hpc, hret]⟩
    by_cases hraised : ∃ e, s.writes.pc = .raised e
    · obtain ⟨e, he⟩ := hraised
      exact ⟨.close, by simp [step, hpc, he]⟩
    · obtain ⟨a, hturn, ha⟩ := progress_of_pool h.writes hret (not_exists.mp hraised)
      exact ⟨.writes a, by simp [step, hpc, Pc.writing, hturn, ha]⟩
  · by_cases hret : s.reads.pc = .returned
    · exact ⟨.remove true, by simp [step, hpc, hret]⟩
    by_cases hraised : ∃ e, s.reads.pc = .raised e
    · obtain ⟨e, he⟩ := hraised
      exact ⟨.leave, by simp [step, hpc, he]⟩
    · obtain ⟨a, hturn, ha⟩ := progress_of_pool h.reads hret (not_exists.mp hraised)
      exact ⟨.reads a, by simp [step, hpc, Pc.reading, hturn, ha]⟩
  · exact absurd hpc (hend r)

/-- Three chunks on two threads, where the container refuses `SX` and the first full
write raises while the second is in progress. -/
def brokenOff : List Lbl :=
  [refusal, .opened (.ok ()), .small (.ok ()), .small (.ok ()), .small (.ok ()), .submitWrites,
    .writes .start, .writes .start, .writes (.finish 0 (.error .other)), .writes .collect,
    .writes .collect, .writes .collect, .writes .collect, .close]

end Runs

end LmcacheDaos.WarmUp
