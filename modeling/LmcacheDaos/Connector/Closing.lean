import LmcacheDaos.Connector.IoPool
import LmcacheDaos.Connector.Ping

/-!
# Closing the connector

`DaosConnector.close` (`connector.py`) over the IO pool of `Connector.IoPool` and the
probe of `Connector.Ping`. A DAOS call whose engine has died does not return, so `close`
joins no thread: it shuts the IO pool, cancelling what no thread has picked up, shuts
the ping pool and closes the handle, under the calls that are still in libdaos.

`_run` and `ping` may come at any time, also during and after `close`, and so may another
`close`. `_run` counts a call into `_inflight` before the executor refuses it; `ping`
catches the refusal and answers `PING_UNKNOWN_ERROR`.

Results, over every run:

* `close` never waits: from its first step on it is over after as many steps of its own
  as `remaining` says, whatever the calls do, and the handle is closed once
  (`close_returns`);
* nothing begins behind it: a call that is out on a closed handle was on the same thread
  when the pools were shut, a call is queued, running, done, cancelled or refused, and no
  later `ping` answers 0 (`close_strands_only_running_calls`).
-/

namespace LmcacheDaos.Connector.Closing

open Lib IoPool

/-- The pool, and whether `ThreadPoolExecutor.shutdown` knows `cancel_futures`: from
Python 3.9 on. -/
structure Config extends PoolConfig where
  cancelFutures : Bool

/-- Where `close()` is: about to do this. -/
inductive Phase where
  /-- not under way -/
  | idle
  /-- in `_pool.shutdown`, with the queue to empty -/
  | draining
  /-- `_ping_pool.shutdown` -/
  | shutPing
  /-- `(self._obj or self._dfs).close()` -/
  | disconnect
deriving DecidableEq, Repr

structure St where
  io : IoPool.St
  ping : Ping.St
  closing : Phase
  /-- `_pool` refuses work -/
  shut : Bool
  /-- `_ping_pool` refuses work -/
  pingShut : Bool
  /-- the handle of the mount or of the object container is valid -/
  mounted : Bool
  /-- how often it was disconnected (not kept by the code, nor are the lists of calls) -/
  disconnects : ℕ
  /-- calls counted into `_inflight` -/
  submitted : List Call
  done : List Call
  cancelled : List Call
  refused : List Call
deriving DecidableEq, Repr

/-- `__init__` at time `t`. -/
def initial (cfg : Config) (t : ℤ) : St where
  io := IoPool.initial cfg.toPoolConfig t
  ping := Ping.initial
  closing := .idle
  shut := false
  pingShut := false
  mounted := true
  disconnects := 0
  submitted := []
  done := []
  cancelled := []
  refused := []

inductive Lbl where
  /-- `_run` -/
  | run (c : Call)
  /-- time, a thread of the IO pool, or a coroutine that is cancelled -/
  | io (a : IoPool.Lbl)
  /-- `ping()` up to its first `await` -/
  | ping
  /-- the ping thread, or a `ping()` behind its `await` -/
  | probe (a : Ping.Lbl)
  /-- `close()` is called: `_pool` refuses work from here on -/
  | close
  /-- `_pool.shutdown` cancels the oldest work item left -/
  | drain
  /-- it finds none -/
  | drained
  | shutPing
  | disconnect
deriving DecidableEq, Repr

/-- All steps of the pool but those of `_run` and `ping`. -/
def ofPool : IoPool.Lbl → Bool
  | .run _ | .ping => false
  | _ => true

/-- All steps of the probe but those of a new `ping()`. -/
def ofProbe : Ping.Lbl → Bool
  | .ping _ => false
  | _ => true

/-- The call that the step ends. -/
def ended (s : IoPool.St) : IoPool.Lbl → List Call
  | .finish w => match s.threads[w]? with
      | some (some x) => [x.1]
      | _ => []
  | _ => []

/-- The call that the step cancels. -/
def dropped (s : IoPool.St) : IoPool.Lbl → List Call
  | .cancel i => s.queue[i]?.toList
  | _ => []

/-- `_run` -/
def run (cfg : Config) (s : St) (c : Call) : Option St :=
  if wedged cfg.toPoolConfig s.io then some s
  -- `run_in_executor` raises, and `_tracked` never runs
  else if s.shut then some { s with
    io := { s.io with inflight := s.io.inflight + 1 }
    submitted := c :: s.submitted
    refused := c :: s.refused }
  else (IoPool.step cfg.toPoolConfig s.io (.run c)).map fun io =>
    { s with io := io, submitted := c :: s.submitted }

/-- `ping()` up to its first `await`. -/
def ping (cfg : Config) (s : St) : Option St :=
  let wedged := decide (wedgedFor cfg.toPoolConfig s.io ≠ 0)
  -- `run_in_executor` raises, and the handler clears the flag again
  if !wedged && !s.ping.inflight && s.pingShut then
    some { s with ping := { s.ping with
      pings := s.ping.pings ++ [.over (.code Ping.pingUnknownError)] } }
  else (Ping.step s.ping (.ping wedged)).map fun p => { s with ping := p }

def step (cfg : Config) (s : St) : Lbl → Option St
  | .run c => run cfg s c
  | .io a =>
      if ofPool a then (IoPool.step cfg.toPoolConfig s.io a).map fun io => { s with
        io := io
        done := ended s.io a ++ s.done
        cancelled := dropped s.io a ++ s.cancelled }
      else none
  | .ping => ping cfg s
  | .probe a =>
      if ofProbe a then (Ping.step s.ping a).map fun p => { s with ping := p } else none
  | .close =>
      if s.closing = .idle then some { s with
        shut := true
        closing := if cfg.cancelFutures then .draining else .shutPing }
      else none
  | .drain => match s.closing, s.io.queue with
      | .draining, c :: rest =>
          some { s with io := { s.io with queue := rest }, cancelled := c :: s.cancelled }
      | _, _ => none
  | .drained =>
      if s.closing = .draining ∧ s.io.queue = [] then some { s with closing := .shutPing }
      else none
  | .shutPing =>
      if s.closing = .shutPing then some { s with pingShut := true, closing := .disconnect }
      else none
  | .disconnect =>
      if s.closing = .disconnect then some { s with
        mounted := false
        -- a handle that is gone is not disconnected again
        disconnects := s.disconnects + s.mounted.toNat
        closing := .idle }
      else none

def machine (cfg : Config) : Machine St Lbl where
  Init s := ∃ t, s = initial cfg t
  step := step cfg

/-! ## Where the calls are -/

/-- The calls on the threads. -/
def running (s : IoPool.St) : List Call := s.threads.filterMap (Option.map Prod.fst)

/-- The calls queued or running. -/
def out (s : IoPool.St) : List Call := s.queue ++ running s

/-- No thread has begun a call from the one state to the other. -/
def NoneBegun (s s' : IoPool.St) : Prop :=
  ∀ (w : ℕ) (x : Call × ℤ), s'.threads[w]? = some (some x) → s.threads[w]? = some (some x)

/-- What a step of the pool does when it takes no new call. -/
structure Worked (s : IoPool.St) (a : IoPool.Lbl) (s' : IoPool.St) : Prop where
  queue : s'.queue.Sublist s.queue
  calls : (out s' ++ (ended s a ++ dropped s a)).Perm (out s)
  inflight : s'.inflight + (ended s a).length = s.inflight
  /-- with nothing queued no thread begins a call -/
  threads : s.queue = [] → NoneBegun s s'

variable {cfg : Config} {s s' : St}

/-- What a step of the pool does to queue and threads. -/
theorem worked {pcfg : PoolConfig} {s s' : IoPool.St} {a : IoPool.Lbl}
    (hrun : ∀ c, a ≠ .run c) (hst : IoPool.step pcfg s a = some s') : Worked s a s' := by
  cases a with
  | run c => exact absurd rfl (hrun c)
  | tick d =>
      cases hst
      exact ⟨.refl _, by simp [ended, dropped, out, running], by simp [ended], fun _ _ _ h => h⟩
  | ping =>
      cases hst
      exact ⟨.refl _, by simp [ended, dropped], by simp [ended], fun _ _ _ h => h⟩
  | start w =>
      simp only [IoPool.step] at hst
      split at hst
      · rename_i c rest hthr hq
        cases hst
        refine ⟨by simp [hq], ?_, by simp [ended], fun h0 => ?_⟩
        · -- the call goes from the queue onto the thread
          have hset := perm_filterMap_set_new (f := Option.map Prod.fst) (b := some (c, s.now))
            hthr rfl rfl
          simp only [ended, dropped, List.append_nil, out, running, hq]
          refine (hset.append_left rest).trans ?_
          rw [← List.append_assoc]
          exact List.perm_append_comm
        · rw [hq] at h0
          cases h0
      · cases hst
  | finish w =>
      simp only [IoPool.step] at hst
      split at hst
      · rename_i x hthr
        cases hst
        refine ⟨.refl _, ?_, by simp [ended, hthr], fun _ v y hv => ?_⟩
        · have hset := perm_filterMap_set (Option.map Prod.fst) none hthr
          simp only [ended, hthr, dropped, List.append_nil, out, running, List.append_assoc]
          refine List.Perm.append_left _ ?_
          simpa using hset
        · rcases Threads.getElem?_set_cases hv with ⟨-, hy⟩ | ⟨-, hy⟩
          · cases hy
          · exact hy
      · cases hst
  | cancel i =>
      simp only [IoPool.step] at hst
      split at hst
      · rename_i hi
        cases hst
        refine ⟨List.eraseIdx_sublist _ _, ?_, by simp [ended], fun h0 => ?_⟩
        · simp only [ended, dropped, List.nil_append, out, running, List.getElem?_eq_getElem hi,
            Option.toList_some, List.append_assoc]
          refine (List.Perm.append_left _ List.perm_append_comm).trans ?_
          rw [← List.append_assoc]
          refine List.Perm.append_right _ ?_
          exact List.perm_append_comm.trans (List.getElem_cons_eraseIdx_perm hi)
        · rw [h0] at hi
          cases hi
      · cases hst

/-! ## What the pings answer -/

/-- Every ping from number `n` on has an answer, and not 0. -/
def Refused (pings : List Ping.Call) (n : ℕ) : Prop :=
  ∀ (i : ℕ) (p : Ping.Call), n ≤ i → pings[i]? = some p → ∃ c : ℤ, c ≠ 0 ∧ p = .over (.code c)

theorem refused_length (pings : List Ping.Call) : Refused pings pings.length := by
  intro i p hi hp
  rw [List.getElem?_eq_none hi] at hp
  cases hp

/-- A probe that ends with another code than 0 changes nothing. -/
theorem refused_concat {pings : List Ping.Call} {n : ℕ} (h : Refused pings n) {c : ℤ}
    (hc : c ≠ 0) : Refused (pings ++ [.over (.code c)]) n := by
  intro i p hi hp
  rcases Nat.lt_trichotomy i pings.length with hlt | rfl | hgt
  · rw [List.getElem?_append_left hlt] at hp
    exact h i p hi hp
  · rw [List.getElem?_concat_length] at hp
    cases hp
    exact ⟨c, hc, rfl⟩
  · rw [List.getElem?_eq_none (by simp; omega)] at hp
    cases hp

/-- A ping that has no answer yet is an earlier one. -/
theorem refused_set {pings : List Ping.Call} {n i : ℕ} {p : Ping.Call} (h : Refused pings n)
    (hi : pings[i]? = some p) (hp : ∀ c, p ≠ .over (.code c)) (q : Ping.Call) :
    Refused (pings.set i q) n := by
  intro j r hj hr
  rcases Threads.getElem?_set_cases hr with ⟨rfl, -⟩ | ⟨-, hr⟩
  · obtain ⟨c, -, hc⟩ := h _ _ hj hi
    exact absurd hc (hp c)
  · exact h j r hj hr

/-- The ping thread and the pings behind their `await` change no answer from `n` on. -/
theorem refused_probe {s s' : Ping.St} {a : Ping.Lbl} (ha : ∀ b, a ≠ .ping b)
    (hst : Ping.step s a = some s') {n : ℕ} (hn : Refused s.pings n) : Refused s'.pings n := by
  -- a ping that gives up was waiting for its answer, hence not a refused one
  have hgive : ∀ i r, (s.pings[i]?).any Ping.Call.awaits = true →
      Refused (Ping.giveUp s i r).pings n := by
    intro i r hi
    cases hp : s.pings[i]? with
    | none =>
        rw [hp] at hi
        cases hi
    | some p =>
        rw [hp] at hi
        refine refused_set hn hp (fun c hc => ?_) _
        rw [hc] at hi
        cases hi
  cases a with
  | ping b => exact absurd rfl (ha b)
  | start =>
      simp only [Ping.step] at hst
      split at hst <;> cases hst
      exact hn
  -- the future's ping, if it still waits, is answered; a refused one never had a future
  | finish o =>
      simp only [Ping.step] at hst
      split at hst <;> cases hst
      split
      · exact refused_set hn ‹_› (fun c hc => by cases hc) _
      · exact hn
  | resume i =>
      simp only [Ping.step] at hst
      split at hst <;> cases hst
      exact refused_set hn ‹_› (fun c hc => by cases hc) _
  | timeout i =>
      simp only [Ping.step] at hst
      split at hst <;> cases hst
      exact hgive i _ ‹_›
  | cancel i =>
      simp only [Ping.step] at hst
      split at hst <;> cases hst
      exact hgive i _ ‹_›

/-- Once the ping pool is shut no `ping()` gets further than its first `await`. -/
theorem refused_ping (hst : ping cfg s = some s') (hshut : s.pingShut = true) {n : ℕ}
    (hn : Refused s.ping.pings n) : Refused s'.ping.pings n := by
  simp only [ping, hshut, Bool.and_true] at hst
  split at hst
  · cases hst
    exact refused_concat hn (by decide)
  · rename_i hclear
    obtain ⟨p, hp, rfl⟩ := Option.map_eq_some_iff.mp hst
    simp only [Ping.step] at hp
    split at hp
    · cases hp
      exact refused_concat hn (by decide)
    · split at hp
      · cases hp
        exact refused_concat hn (by decide)
      · -- not wedged and the flag clear: that case is refused above
        simp_all

/-! ## One step -/

/-- What is left of the pool's calls once it is shut. -/
structure Shrunk (s s' : IoPool.St) : Prop where
  queue : s'.queue.Sublist s.queue
  out : (out s').Subperm (out s)
  begun : s.queue = [] → NoneBegun s s'

/-- No step at all. -/
theorem Shrunk.refl (s : IoPool.St) : Shrunk s s :=
  ⟨.refl _, .refl _, fun _ _ _ h => h⟩

/-- One stretch after another. -/
theorem Shrunk.trans {s t u : IoPool.St} (h : Shrunk s t) (h' : Shrunk t u) : Shrunk s u := by
  refine ⟨h'.queue.trans h.queue, h'.out.trans h.out, fun h0 w x hx => ?_⟩
  have ht : t.queue = [] := List.sublist_nil.mp (h0 ▸ h.queue)
  exact h.begun h0 w x (h'.begun ht w x hx)

/-- A pool that gets no call more only has fewer. -/
theorem Worked.shrunk {s s' : IoPool.St} {a : IoPool.Lbl} (h : Worked s a s') : Shrunk s s' :=
  ⟨h.queue, (List.sublist_append_left _ _).subperm.trans h.calls.subperm, h.threads⟩

/-- A step of the pool within the closing connector. -/
theorem step_io {a : IoPool.Lbl} (hst : step cfg s (.io a) = some s') :
    ∃ io, Worked s.io a io ∧ s' = { s with
      io := io
      done := ended s.io a ++ s.done
      cancelled := dropped s.io a ++ s.cancelled } := by
  simp only [step] at hst
  split at hst
  · rename_i ha
    obtain ⟨io, hio, rfl⟩ := Option.map_eq_some_iff.mp hst
    have hrun : ∀ c, a ≠ .run c := by
      rintro c rfl
      cases ha
    exact ⟨io, worked hrun hio, rfl⟩
  · cases hst

/-- A `ping` touches the probe's part only. -/
theorem step_ping (hst : step cfg s .ping = some s') : ∃ p, s' = { s with ping := p } := by
  simp only [step, ping] at hst
  split at hst
  · cases hst
    exact ⟨_, rfl⟩
  · obtain ⟨p, -, rfl⟩ := Option.map_eq_some_iff.mp hst
    exact ⟨p, rfl⟩

/-- So does a step of a probe. -/
theorem step_probe {a : Ping.Lbl} (hst : step cfg s (.probe a) = some s') :
    ∃ p, (∀ b, a ≠ .ping b) ∧ Ping.step s.ping a = some p ∧ s' = { s with ping := p } := by
  simp only [step] at hst
  split at hst
  · rename_i ha
    obtain ⟨p, hp, rfl⟩ := Option.map_eq_some_iff.mp hst
    refine ⟨p, ?_, hp, rfl⟩
    rintro b rfl
    cases ha
  · cases hst

/-- The three ways of `_run`: it reports a wedge, is refused, or queues the call. -/
theorem run_cases {c : Call} (hst : run cfg s c = some s') :
    s' = s ∨
    (s.shut = true ∧ s' = { s with
      io := { s.io with inflight := s.io.inflight + 1 }
      submitted := c :: s.submitted
      refused := c :: s.refused }) ∨
    (s.shut = false ∧ s' = { s with
      io := { s.io with inflight := s.io.inflight + 1, queue := s.io.queue ++ [c] }
      submitted := c :: s.submitted }) := by
  simp only [run] at hst
  split at hst
  · cases hst
    exact .inl rfl
  · rename_i hw
    split at hst
    · rename_i hshut
      cases hst
      exact .inr (.inl ⟨hshut, rfl⟩)
    · rename_i hshut
      rw [IoPool.step, if_neg hw, Option.map_some] at hst
      cases hst
      exact .inr (.inr ⟨by simpa using hshut, rfl⟩)

/-- Once the pool is shut its calls only get fewer. -/
theorem step_shrinks {a : Lbl} (hst : step cfg s a = some s') (hshut : s.shut = true) :
    Shrunk s.io s'.io := by
  cases a with
  | run c =>
      rcases run_cases hst with rfl | ⟨-, rfl⟩ | ⟨hopen, -⟩
      · exact .refl _
      · exact ⟨.refl _, .refl _, fun _ _ _ h => h⟩
      · rw [hshut] at hopen
        cases hopen
  | io a =>
      obtain ⟨io, hio, rfl⟩ := step_io hst
      exact hio.shrunk
  | ping =>
      obtain ⟨p, rfl⟩ := step_ping hst
      exact .refl _
  | probe a =>
      obtain ⟨p, -, -, rfl⟩ := step_probe hst
      exact .refl _
  | close =>
      simp only [step] at hst
      split at hst <;> cases hst
      exact .refl _
  | drain =>
      -- the oldest call is gone
      simp only [step] at hst
      split at hst
      · rename_i c rest hc hq
        cases hst
        refine ⟨by simp [hq], ?_, fun h0 => ?_⟩
        · simp only [out, hq]
          exact (List.sublist_cons_self _ _).subperm
        · rw [hq] at h0
          cases h0
      · cases hst
  | drained =>
      simp only [step] at hst
      split at hst <;> cases hst
      exact .refl _
  | shutPing =>
      simp only [step] at hst
      split at hst <;> cases hst
      exact .refl _
  | disconnect =>
      simp only [step] at hst
      split at hst <;> cases hst
      exact .refl _

/-- A step of the thread in `close`. -/
def ofClose : Lbl → Bool
  | .close | .drain | .drained | .shutPing | .disconnect => true
  | _ => false

/-- Nobody else touches what `close` works on. -/
theorem control_kept {a : Lbl} (hst : step cfg s a = some s') (ha : ofClose a = false) :
    s'.closing = s.closing ∧ s'.shut = s.shut ∧ s'.pingShut = s.pingShut ∧
      s'.mounted = s.mounted ∧ s'.disconnects = s.disconnects := by
  cases a with
  | run c =>
      rcases run_cases hst with rfl | ⟨-, rfl⟩ | ⟨-, rfl⟩ <;> exact ⟨rfl, rfl, rfl, rfl, rfl⟩
  | io a =>
      obtain ⟨io, -, rfl⟩ := step_io hst
      exact ⟨rfl, rfl, rfl, rfl, rfl⟩
  | ping =>
      obtain ⟨p, rfl⟩ := step_ping hst
      exact ⟨rfl, rfl, rfl, rfl, rfl⟩
  | probe a =>
      obtain ⟨p, -, -, rfl⟩ := step_probe hst
      exact ⟨rfl, rfl, rfl, rfl, rfl⟩
  | close | drain | drained | shutPing | disconnect => cases ha

/-- A shut ping pool answers no new `ping()` with 0, whatever step is taken. -/
theorem step_refused {a : Lbl} (hst : step cfg s a = some s') (hshut : s.pingShut = true) {n : ℕ}
    (hn : Refused s.ping.pings n) : Refused s'.ping.pings n := by
  cases a with
  | run c => rcases run_cases hst with rfl | ⟨-, rfl⟩ | ⟨-, rfl⟩ <;> exact hn
  | io a =>
      obtain ⟨io, -, rfl⟩ := step_io hst
      exact hn
  | ping => exact refused_ping hst hshut hn
  | probe a =>
      obtain ⟨p, hne, hp, rfl⟩ := step_probe hst
      exact refused_probe hne hp hn
  | close | drain | drained | shutPing | disconnect =>
      simp only [step] at hst
      split at hst <;> cases hst
      exact hn

/-- What is shut stays shut. -/
theorem flags_kept {a : Lbl} (hst : step cfg s a = some s') :
    (s.shut = true → s'.shut = true) ∧ (s.pingShut = true → s'.pingShut = true) := by
  have hother : ofClose a = false →
      (s.shut = true → s'.shut = true) ∧ (s.pingShut = true → s'.pingShut = true) := by
    intro ha
    obtain ⟨-, hs, hp, -⟩ := control_kept hst ha
    rw [hs, hp]
    exact ⟨id, id⟩
  cases a with
  | run c | io a | ping | probe a => exact hother rfl
  | close =>
      simp only [step] at hst
      split at hst <;> cases hst
      exact ⟨fun _ => rfl, id⟩
  | shutPing =>
      simp only [step] at hst
      split at hst <;> cases hst
      exact ⟨id, fun _ => rfl⟩
  | drain | drained | disconnect =>
      simp only [step] at hst
      split at hst <;> cases hst
      exact ⟨id, id⟩

/-! ## Invariants -/

/-- Every call counted by `_run` is in one place, and those that never get to `_tracked`
stay counted. -/
structure Account (s : St) : Prop where
  calls : s.submitted.Perm (out s.io ++ s.done ++ s.cancelled ++ s.refused)
  inflight : s.io.inflight = (out s.io).length + s.cancelled.length + s.refused.length

/-- What one step preserves of the accounts. -/
theorem step_account {a : Lbl} (hs : Account s) (hst : step cfg s a = some s') :
    Account s' := by
  -- each call is queued, with the I/O threads or ended, and the counter counts the first two
  obtain ⟨hperm, hinfl⟩ := hs
  have hcalls := List.perm_iff_count.mp hperm
  simp only [List.count_append] at hcalls
  cases a with
  | run c =>
      -- `_run` raises at once, or hands the call over, or queues it
      rcases run_cases hst with rfl | ⟨-, rfl⟩ | ⟨-, rfl⟩
      · exact ⟨hperm, hinfl⟩
      · refine ⟨List.perm_iff_count.mpr fun d => ?_, ?_⟩
        · have hd := hcalls d
          simp only [out, running, List.count_append, List.count_cons] at hd ⊢
          omega
        · simp only [out, running, List.length_cons] at hinfl ⊢
          omega
      · refine ⟨List.perm_iff_count.mpr fun d => ?_, ?_⟩
        · have hd := hcalls d
          simp only [out, running, List.count_append, List.count_cons, List.count_nil] at hd ⊢
          omega
        · simp only [out, running, List.length_append, List.length_singleton] at hinfl ⊢
          omega
  -- a step of the executor moves calls between its own three places
  | io a =>
      obtain ⟨io, hio, rfl⟩ := step_io hst
      have hlen := hio.calls.length_eq
      have hended := hio.inflight
      simp only [List.length_append] at hlen
      refine ⟨List.perm_iff_count.mpr fun d => ?_, ?_⟩
      · have hd := hcalls d
        have hout := hio.calls.count_eq d
        simp only [List.count_append] at hout ⊢
        omega
      · simp only [List.length_append]
        omega
  | ping =>
      obtain ⟨p, rfl⟩ := step_ping hst
      exact ⟨hperm, hinfl⟩
  | probe a =>
      obtain ⟨p, -, -, rfl⟩ := step_probe hst
      exact ⟨hperm, hinfl⟩
  -- the drain takes the front of the queue over to the executor
  | drain =>
      simp only [step] at hst
      split at hst
      · rename_i c rest hc hq
        cases hst
        refine ⟨List.perm_iff_count.mpr fun d => ?_, ?_⟩
        · have hd := hcalls d
          simp only [out, running, hq, List.count_append, List.count_cons] at hd ⊢
          omega
        · simp only [out, running, hq, List.length_append, List.length_cons] at hinfl ⊢
          omega
      · cases hst
  -- the other steps of `close` move no call
  | close | drained | shutPing | disconnect =>
      simp only [step] at hst
      split at hst <;> cases hst
      exact ⟨hperm, hinfl⟩

/-- How far `close` has got. -/
structure Order (cfg : Config) (s : St) : Prop where
  shut : s.closing ≠ .idle → s.shut = true
  pinged : s.closing = .disconnect ∨ s.mounted = false → s.pingShut = true
  pool_first : s.pingShut = true → s.shut = true
  drained : cfg.cancelFutures = true → s.closing = .shutPing ∨ s.pingShut = true → s.io.queue = []
  closed : s.closing = .idle → s.shut = true → s.mounted = false
  once : s.disconnects + s.mounted.toNat = 1

/-- What one step preserves of the order in which `close` proceeds. -/
theorem step_order {a : Lbl} (hs : Order cfg s) (hst : step cfg s a = some s') :
    Order cfg s' := by
  obtain ⟨hshut, hping, hfirst, hdrain, hover, honce⟩ := hs
  have hother : ofClose a = false → Order cfg s' := by
    intro ha
    obtain ⟨hc, hs, hp, hm, hd⟩ := control_kept hst ha
    refine ⟨by rwa [hc, hs], by rwa [hc, hm, hp], by rwa [hp, hs], fun hcf h => ?_,
      by rwa [hc, hs, hm], by rwa [hd, hm]⟩
    rw [hc, hp] at h
    -- the pool is shut, so an empty queue stays empty
    have hsh : s.shut = true := by
      rcases h with h | h
      · exact hshut (by simp [h])
      · exact hfirst h
    have hsub := (step_shrinks hst hsh).queue
    rw [hdrain hcf h] at hsub
    exact List.sublist_nil.mp hsub
  cases a with
  | run c | io a | ping | probe a => exact hother rfl
  | close =>
      simp only [step] at hst
      split at hst <;> cases hst
      refine ⟨fun _ => rfl, fun h => hping ?_, fun _ => rfl, fun hcf h => hdrain hcf ?_,
        fun h => ?_, honce⟩
      · rcases h with h | h
        · split at h <;> cases h
        · exact .inr h
      · rcases h with h | h
        · simp [hcf] at h
        · exact .inr h
      · split at h <;> cases h
  | drain =>
      simp only [step] at hst
      split at hst
      · rename_i c rest hc hq
        cases hst
        refine ⟨hshut, hping, hfirst, fun hcf h => ?_, hover, honce⟩
        have h0 := hdrain hcf h
        rw [hq] at h0
        cases h0
      · cases hst
  | drained =>
      simp only [step] at hst
      split at hst
      · rename_i h0
        cases hst
        refine ⟨fun _ => hshut (by simp [h0.1]), fun h => hping ?_, hfirst, fun _ _ => h0.2,
          (fun h => by cases h), honce⟩
        rcases h with h | h
        · cases h
        · exact .inr h
      · cases hst
  | shutPing =>
      simp only [step] at hst
      split at hst
      · rename_i h0
        cases hst
        have hsh := hshut (by simp [h0])
        exact ⟨fun _ => hsh, fun _ => rfl, fun _ => hsh, fun hcf _ => hdrain hcf (.inl h0),
          (fun h => by cases h), honce⟩
      · cases hst
  | disconnect =>
      simp only [step] at hst
      split at hst
      · rename_i h0
        cases hst
        have hps := hping (.inl h0)
        exact ⟨fun h => absurd rfl h, fun _ => hps, hfirst, fun hcf _ => hdrain hcf (.inr hps),
          fun _ _ => rfl, by simpa using honce⟩
      · cases hst

/-- No call has been made at first. -/
theorem initial_account (t : ℤ) : Account (initial cfg t) := by
  have hrun : out (initial cfg t).io = [] := by
    simp [initial, IoPool.initial, out, running]
  refine ⟨?_, ?_⟩
  · rw [hrun]
    exact .refl _
  · rw [hrun]
    rfl

/-- Nothing has been shut. -/
theorem initial_order (t : ℤ) : Order cfg (initial cfg t) := by
  refine ⟨?_, ?_, ?_, ?_, ?_, rfl⟩ <;> simp [initial]

/-- Both hold in every reachable state. -/
theorem reachable_inv (h : (machine cfg).Reachable s) : Account s ∧ Order cfg s := by
  refine h.invariant (fun s => Account s ∧ Order cfg s) ?_ ?_
  · rintro s ⟨t, rfl⟩
    exact ⟨initial_account t, initial_order t⟩
  · rintro s a s' ⟨hacc, hord⟩ - hst
    exact ⟨step_account hacc hst, step_order hord hst⟩

/-! ## `close` comes to its end -/

/-- Steps that `close` has before it. -/
def remaining (s : St) : ℕ := match s.closing with
  | .idle => 0
  | .draining => s.io.queue.length + 3
  | .shutPing => 2
  | .disconnect => 1

/-- What a step takes off `remaining`: at least one if it is of `close`. -/
theorem step_remaining {a : Lbl} (hs : Order cfg s) (hst : step cfg s a = some s')
    (hac : a ≠ .close) : (ofClose a).toNat + remaining s' ≤ remaining s := by
  have hother : ofClose a = false → remaining s' ≤ remaining s := by
    intro ha
    have hc := (control_kept hst ha).1
    unfold remaining
    rw [hc]
    split
    · exact Nat.le_refl _
    · -- the queue of a pool that is shut does not grow
      rename_i h0
      have := (step_shrinks hst (hs.shut (by simp [h0]))).queue.length_le
      omega
    · exact Nat.le_refl _
    · exact Nat.le_refl _
  cases a with
  | run c | io a | ping | probe a => simpa [ofClose] using hother rfl
  | close => exact absurd rfl hac
  | drain =>
      simp only [step] at hst
      split at hst
      · rename_i c rest hc hq
        cases hst
        simp only [ofClose, remaining, hc, hq, Bool.toNat_true, List.length_cons]
        omega
      · cases hst
  | drained =>
      simp only [step] at hst
      split at hst
      · rename_i h0
        cases hst
        simp [ofClose, remaining, h0.1]
      · cases hst
  | shutPing =>
      simp only [step] at hst
      split at hst
      · rename_i h0
        cases hst
        simp [ofClose, remaining, h0]
      · cases hst
  | disconnect =>
      simp only [step] at hst
      split at hst
      · rename_i h0
        cases hst
        simp [ofClose, remaining, h0]
      · cases hst

/-- Its next step needs nobody else. -/
theorem close_enabled (hs : s.closing ≠ .idle) :
    ∃ a, ofClose a = true ∧ a ≠ .close ∧ (step cfg s a).isSome = true := by
  cases hc : s.closing with
  | idle => exact absurd hc hs
  | draining =>
      cases hq : s.io.queue with
      | nil => exact ⟨.drained, rfl, by simp, by simp [step, hc, hq]⟩
      | cons c rest => exact ⟨.drain, rfl, by simp, by simp [step, hc, hq]⟩
  | shutPing => exact ⟨.shutPing, rfl, by simp, by simp [step, hc]⟩
  | disconnect => exact ⟨.disconnect, rfl, by simp, by simp [step, hc]⟩

/-- From any state in which a `close()` is under way, along any run in which no other
begins: `close` takes no more steps than `remaining` said, one of them can always be
taken next, whatever the pool's calls do, and when it is over both pools refuse work
and the handle is closed, for the first and only time. -/
theorem close_returns (cfg : Config) {s t : St} {as : List Lbl}
    (hs : (machine cfg).Reachable s) (hclose : s.closing ≠ .idle) (honce : Lbl.close ∉ as)
    (hrun : (machine cfg).run s as = some t) :
    as.countP ofClose + remaining t ≤ remaining s ∧ remaining s ≤ s.io.queue.length + 3 ∧
      (t.closing ≠ .idle → ∃ a, ofClose a = true ∧ a ≠ .close ∧
        ((machine cfg).step t a).isSome = true) ∧
      (t.closing = .idle → t.shut = true ∧ t.pingShut = true ∧ t.mounted = false ∧
        t.disconnects = 1) := by
  have hord := (reachable_inv hs).2
  -- the shutdown stays in order, and each step of `close` leaves fewer to make
  have hall : (Order cfg t ∧ t.shut = true) ∧ as.countP ofClose + remaining t ≤ remaining s := by
    refine Machine.run_induction (M := machine cfg) (fun as t => (Order cfg t ∧ t.shut = true) ∧
      as.countP ofClose + remaining t ≤ remaining s) ⟨⟨hord, hord.shut hclose⟩, by simp⟩ ?_
      (Machine.along_of_forall (P := fun a => a ≠ Lbl.close) ?_) hrun
    · rintro as u a u' ⟨⟨hu, hshut⟩, hcount⟩ - hac hst
      refine ⟨⟨step_order hu hst, (flags_kept hst).1 hshut⟩, ?_⟩
      have hstep := step_remaining hu hst hac
      -- one step more counts once if it belongs to `close`
      have hone : [a].countP ofClose = (ofClose a).toNat := by
        cases h : ofClose a <;> simp [h]
      rw [List.countP_append, hone]
      omega
    · intro a ha h
      exact honce (h ▸ ha)
  obtain ⟨⟨hordt, hshut⟩, hcount⟩ := hall
  refine ⟨hcount, ?_, fun h => close_enabled h, fun hidle => ?_⟩
  · unfold remaining
    split <;> omega
  · -- at the end of the shutdown the disconnect has been made, and once
    have hm := hordt.closed hidle hshut
    have honce := hordt.once
    rw [hm] at honce
    exact ⟨hshut, hordt.pinged (.inr hm), hm, by simpa using honce⟩

/-- One thread, on a Python with `cancel_futures`. -/
def oneThread : Config := ⟨⟨1, 60, Nat.one_pos⟩, true⟩

/-- The thread is in a call, another call is queued, and `close()` begins. -/
def closeUnderCalls : List Lbl := [.run 0, .run 1, .io (.start 0), .close]

/-- The call never returns; a third one comes too late, and so does a ping. -/
def restOfClose : List Lbl := [.drain, .run 2, .drained, .shutPing, .ping, .disconnect]

/-- One call never returns; `close` does. -/
theorem close_returns_under_stuck_call :
    ∃ s t, (machine oneThread).run (initial oneThread 0) closeUnderCalls = some s ∧
      (machine oneThread).run s restOfClose = some t ∧ running t.io = [0] ∧
      restOfClose.countP ofClose + remaining t ≤ remaining s ∧ t.closing = .idle ∧
      t.disconnects = 1 := by
  obtain ⟨s, t, hs, ht, hstuck, hclose, hidle⟩ : ∃ s t,
      (machine oneThread).run (initial oneThread 0) closeUnderCalls = some s ∧
      (machine oneThread).run s restOfClose = some t ∧ running t.io = [0] ∧
      s.closing = .draining ∧ t.closing = .idle := ⟨_, _, rfl, rfl, rfl, rfl, rfl⟩
  have hends := close_returns oneThread (Machine.Reachable.run (.init ⟨0, rfl⟩) hs)
    (by simp [hclose]) (by decide) ht
  exact ⟨s, t, hs, ht, hstuck, hends.1, hidle, (hends.2.2.2 hidle).2.2.2⟩

/-! ## What is left behind -/

/-- What a run from `s` to `t` leaves. -/
structure Leaves (cfg : Config) (s t : St) : Prop where
  /-- each call counted by `_run` is queued, running, done, cancelled or refused -/
  calls : t.submitted.Perm (out t.io ++ t.done ++ t.cancelled ++ t.refused)
  /-- and `_inflight` still counts those that never get to `_tracked` -/
  inflight : t.io.inflight = (out t.io).length + t.cancelled.length + t.refused.length
  /-- a pool that is shut gets no call more -/
  shut : s.shut = true → t.io.queue.Sublist s.io.queue ∧ (out t.io).Subperm (out s.io)
  /-- the call on a thread under a closed handle was there before -/
  stranded : cfg.cancelFutures = true → s.pingShut = true ∨ s.mounted = false →
    t.io.queue = [] ∧ NoneBegun s.io t.io
  /-- a `ping()` that comes to the shut pool does not answer 0 -/
  pings : s.pingShut = true → Refused t.ping.pings s.ping.pings.length

/-- In every run from every reachable state. -/
theorem close_strands_only_running_calls (cfg : Config) {s t : St} {as : List Lbl}
    (hs : (machine cfg).Reachable s) (hrun : (machine cfg).run s as = some t) :
    Leaves cfg s t := by
  obtain ⟨-, hord⟩ := reachable_inv hs
  obtain ⟨hacc, -⟩ := reachable_inv (hs.run hrun)
  -- along the run, as far as the pools were shut at its beginning
  have hall : (s.shut = true → t.shut = true ∧ Shrunk s.io t.io) ∧
      (s.pingShut = true → t.pingShut = true ∧ Refused t.ping.pings s.ping.pings.length) := by
    refine Machine.run_induction_all (M := machine cfg) (fun _ t =>
      (s.shut = true → t.shut = true ∧ Shrunk s.io t.io) ∧
      (s.pingShut = true → t.pingShut = true ∧ Refused t.ping.pings s.ping.pings.length))
      ⟨fun h => ⟨h, .refl _⟩, fun h => ⟨h, refused_length _⟩⟩ ?_ hrun
    rintro as u a u' ⟨hio, hping⟩ - hst
    refine ⟨fun h => ?_, fun h => ?_⟩
    · obtain ⟨hsh, hshr⟩ := hio h
      exact ⟨(flags_kept hst).1 hsh, hshr.trans (step_shrinks hst hsh)⟩
    · obtain ⟨hps, href⟩ := hping h
      exact ⟨(flags_kept hst).2 hps, step_refused hst hps href⟩
  refine ⟨hacc.calls, hacc.inflight, fun h => ⟨(hall.1 h).2.queue, (hall.1 h).2.out⟩,
    fun hcf h => ?_, fun h => (hall.2 h).2⟩
  have hps : s.pingShut = true := by
    rcases h with h | h
    · exact h
    · exact hord.pinged (.inr h)
  have hq := hord.drained hcf (.inr hps)
  have hshr := (hall.1 (hord.pool_first hps)).2
  refine ⟨List.sublist_nil.mp ?_, hshr.begun hq⟩
  rw [← hq]
  exact hshr.queue

/-- After that `close()`: the stuck call is out under a closed handle, the second one is
cancelled and two are refused; `_inflight` counts all four. -/
theorem stuck_call_outlives_handle :
    ∃ s t, (machine oneThread).run (initial oneThread 0) (closeUnderCalls ++ restOfClose) = some s ∧
      (machine oneThread).run s [.run 3, .ping] = some t ∧ s.mounted = false ∧
      running t.io = [0] ∧ t.cancelled = [1] ∧ t.refused = [3, 2] ∧ t.io.inflight = 4 ∧
      t.ping.pings = [.over (.code 1), .over (.code 1)] ∧ Leaves oneThread s t := by
  obtain ⟨s, t, hs, ht, hall⟩ : ∃ s t,
      (machine oneThread).run (initial oneThread 0) (closeUnderCalls ++ restOfClose) = some s ∧
      (machine oneThread).run s [.run 3, .ping] = some t ∧ s.mounted = false ∧
      running t.io = [0] ∧ t.cancelled = [1] ∧ t.refused = [3, 2] ∧ t.io.inflight = 4 ∧
      t.ping.pings = [.over (.code 1), .over (.code 1)] :=
    ⟨_, _, rfl, rfl, rfl, rfl, rfl, rfl, rfl, rfl⟩
  obtain ⟨hgone, hstuck, hcan, href, hinfl, hpings⟩ := hall
  exact ⟨s, t, hs, ht, hgone, hstuck, hcan, href, hinfl, hpings,
    close_strands_only_running_calls oneThread (Machine.Reachable.run (.init ⟨0, rfl⟩) hs) ht⟩

end LmcacheDaos.Connector.Closing
