import Mathlib.Data.List.ReduceOption
import LmcacheDaos.DfsBinding
import LmcacheDaos.Lib.Handles

/-!
# The check of the event layout

`verify_abi` of `daos_event.py` with the methods of `EventQueue`, `EventSlot` and
`AsyncRead` that it calls, and `DfsSys.submit_read`: a queue, an event with a guard
behind it, one asynchronous read, at most 2000 polls, and the check of what was
harvested. Every call is answered by whatever it is answered.

`AsyncRead` states the contract: DAOS keeps raw pointers to the event, the buffer and
the file until the operation is harvested. `verify_abi` takes everything down in its
`finally` blocks on every path, also on those where the read is still out.

Results (`verify_abi_outcomes`): what was opened is closed once; the read is out when
the file is closed exactly if it was submitted and no poll harvested it; and
information is returned only if it was harvested, whole, with the guard intact.
-/

namespace LmcacheDaos.DaosEvent

open Lib

/-- `EVENT_SIZE` and `EVENT_SIZE_FROM_SHIM` -/
structure Abi where
  eventSize : ℕ
  fromShim : Bool
deriving DecidableEq, Repr

/-- What `verify_abi` raises. -/
inductive Raised where
  /-- `DaosError` -/
  | daos (func : String) (rc : ℤ)
  /-- `DaosEventABIError` -/
  | abi (text : String)
deriving DecidableEq, Repr

/-- The dict that is returned; `canary_ok` and `poll_identity_ok` are constants. -/
structure Info where
  eventSize : ℕ
  sizeFromShim : Bool
  bytesRead : ℕ
  canaryOk : Bool
  pollIdentityOk : Bool
deriving DecidableEq, Repr

/-! ## Calls -/

inductive Op where
  | eqCreate
  | eventInit (ev eqh : ℕ)
  /-- whether the guard behind the event is untouched -/
  | canaryOk (ev : ℕ)
  | openRdonly (path : String)
  /-- `dfs_sys2base`, or the handle it gave before -/
  | base
  /-- `dfs_read` with an event -/
  | dfsRead (obj offset length ev : ℕ)
  | eqPoll (eqh : ℕ) (waitRunning : Bool) (timeoutUs maxEvents : ℕ)
  /-- `ev_error` -/
  | evError (ev : ℕ)
  /-- the `daos_size_t` of the operation -/
  | sizeOf (ev : ℕ)
  | closeObj (obj : ℕ)
  | eventFini (ev : ℕ)
  | eqDestroy (eqh : ℕ) (force : Bool)
deriving DecidableEq, Repr

/-- A call that fails answers its code. A queue that was created has a cookie, and a poll
answers the pointers it has filled in. -/
abbrev Ans : Op → Type
  | .eqCreate | .openRdonly _ => Except ℤ ℕ
  | .eventInit .. | .base | .dfsRead .. => Except ℤ Unit
  | .canaryOk _ => Bool
  | .eqPoll .. => Except ℤ (List (Option ℕ))
  | .evError _ => ℤ
  | .sizeOf _ => ℕ
  | .closeObj _ | .eventFini _ | .eqDestroy .. => Unit

abbrev Io (α : Type) := Program Op Ans (Except Raised α)

abbrev Calls := List (Event Op Ans)

/-! ## The code -/

/-- `repr` of a list of integers. -/
def listRepr (l : List ℕ) : String := "[" ++ ", ".intercalate (l.map toString) ++ "]"

def hex (n : ℕ) : String := "0x" ++ String.ofList (Nat.toDigits 16 n)

/-- `EventQueue.poll` -/
def poll (eqh : ℕ) : Io (List ℕ) :=
  .call (.eqPoll eqh true 1000 4) fun
    | .error rc => .ret (.error (.daos "daos_eq_poll" rc))
    | .ok ptrs => .ret (.ok ptrs.reduceOption)

/-- The loop of `verify_abi` with `n` polls to go. -/
def pollUntil (eqh : ℕ) : ℕ → Io (List ℕ)
  | 0 => .ret (.ok [])
  | n + 1 => (poll eqh).bind fun
    | .error e => .ret (.error e)
    | .ok [] => pollUntil eqh n
    | .ok done => .ret (.ok done)

/-- `AsyncRead.check` -/
def check (abi : Abi) (ev length : ℕ) : Io ℕ :=
  .call (.canaryOk ev) fun
    | false => .ret (.error (.abi ("event canary clobbered during async read: " ++
        s!"sizeof(daos_event_t) > {abi.eventSize} B on this build")))
    | true => .call (.evError ev) fun err =>
        if err ≠ 0 then .ret (.error (.daos "dfs_read(async)" err))
        else .call (.sizeOf ev) fun got =>
          if got ≠ length then
            .ret (.error (.daos s!"dfs_read(async) short read {got}/{length}" 5))
          else .ret (.ok got)

/-- What was polled is the event, and the read is good. -/
def harvest (abi : Abi) (ev length : ℕ) (done : List ℕ) : Io Info :=
  if done = [] then
    .ret (.error (.abi "async read never completed; cannot validate the event ABI"))
  else if ev ∉ done then
    .ret (.error (.abi (s!"daos_eq_poll returned an unexpected event address {listRepr done}, " ++
      s!"expected {hex ev} -- event identity is not usable as a pending-table key on this build")))
  else .call (.canaryOk ev) fun
    | false => .ret (.error (.abi ("canary clobbered after async read: sizeof(daos_event_t) " ++
        s!"is larger than our {abi.eventSize} B allocation (shim={abi.fromShim}). Refusing to " ++
        "continue -- this would be silent heap corruption. Build shim/daos_evshim.c and set " ++
        "DAOS_EVSHIM_PATH.")))
    | true => (check abi ev length).bind fun
      | .error e => .ret (.error e)
      | .ok got => .ret (.ok ⟨abi.eventSize, abi.fromShim, got, true, true⟩)

/-- `AsyncRead.submit` and `DfsSys.submit_read` -/
def submit (obj ev length : ℕ) : Io Unit :=
  .call .base fun
    | .error rc => .ret (.error (.daos "dfs_sys2base" rc))
    | .ok _ => .call (.dfsRead obj 0 length ev) fun
      | .error rc => .ret (.error (.daos "dfs_read(async submit)" rc))
      | .ok _ => .ret (.ok ())

/-- The inner `try` of `verify_abi`. -/
def readBack (abi : Abi) (eqh ev obj length : ℕ) : Io Info :=
  (submit obj ev length).bind fun
    | .error e => .ret (.error e)
    | .ok _ => (pollUntil eqh 2000).bind fun
      | .error e => .ret (.error e)
      | .ok done => harvest abi ev length done

/-- The outer `try` of `verify_abi` with its event initialised. -/
def withEvent (abi : Abi) (eqh ev : ℕ) (path : String) (length : ℕ) : Io Info :=
  .call (.canaryOk ev) fun
    | false => .ret (.error (.abi ("canary already clobbered by daos_event_init: our " ++
        s!"sizeof(daos_event_t)={abi.eventSize} is too small (shim={abi.fromShim})")))
    | true => .call (.openRdonly path) fun
      | .error rc => .ret (.error (.daos s!"dfs_sys_open({path})" rc))
      | .ok obj => (readBack abi eqh ev obj length).bind fun r =>
          .call (.closeObj obj) fun _ => .ret r

/-- `verify_abi`; `ev` is where the event is allocated. What `fini_event` raises is
swallowed. -/
def verifyAbi (abi : Abi) (ev : ℕ) (path : String) (length : ℕ) : Io Info :=
  .call .eqCreate fun
    | .error rc => .ret (.error (.daos "daos_eq_create" rc))
    | .ok eqh => .call (.eventInit ev eqh) fun
      | .error rc => .call (.eqDestroy eqh true) fun _ =>
          .ret (.error (.daos "daos_event_init" rc))
      | .ok _ => (withEvent abi eqh ev path length).bind fun r =>
          .call (.eventFini ev) fun _ => .call (.eqDestroy eqh true) fun _ => .ret r

/-! ## What an execution is judged by -/

/-- What has to be closed. -/
inductive Resource where
  | queue (eqh : ℕ)
  | event (ev : ℕ)
  | file (obj : ℕ)
deriving DecidableEq, Repr

def touch : Event Op Ans → Touch Resource
  | ⟨.eqCreate, .ok eqh⟩ => .opens (.queue eqh)
  | ⟨.eventInit ev _, .ok _⟩ => .opens (.event ev)
  | ⟨.canaryOk ev, _⟩ => .uses [.event ev]
  | ⟨.openRdonly _, .ok obj⟩ => .opens (.file obj)
  | ⟨.dfsRead obj _ _ ev, _⟩ => .uses [.file obj, .event ev]
  | ⟨.eqPoll eqh .., _⟩ => .uses [.queue eqh]
  | ⟨.evError ev, _⟩ => .uses [.event ev]
  | ⟨.sizeOf ev, _⟩ => .uses [.event ev]
  | ⟨.closeObj obj, _⟩ => .closes (.file obj)
  | ⟨.eventFini ev, _⟩ => .closes (.event ev)
  | ⟨.eqDestroy eqh _, _⟩ => .closes (.queue eqh)
  | _ => .uses []

/-- DAOS took the read. -/
def submits : Event Op Ans → Bool
  | ⟨.dfsRead .., .ok _⟩ => true
  | _ => false

/-- A poll has handed back the event. -/
def harvests (ev : ℕ) : Event Op Ans → Bool
  | ⟨.eqPoll .., .ok ptrs⟩ => ptrs.contains (some ev)
  | _ => false

/-- The guard was found overwritten. -/
def clobbered : Event Op Ans → Bool
  | ⟨.canaryOk _, false⟩ => true
  | _ => false

def polls : Event Op Ans → Bool
  | ⟨.eqPoll .., _⟩ => true
  | _ => false

/-- Something is closed that DAOS uses while the read is out. -/
def takesDown : Event Op Ans → Bool
  | ⟨.closeObj _, _⟩ | ⟨.eventFini _, _⟩ | ⟨.eqDestroy .., _⟩ => true
  | _ => false

/-- Whether the read is out after a call, if it was `out` before. -/
def flight (ev : ℕ) (out : Bool) (e : Event Op Ans) : Bool :=
  (out || submits e) && !harvests ev e

/-- The contract of `AsyncRead`: nothing is taken down while the read is out. -/
def KeepsAlive (ev : ℕ) : Bool → Calls → Prop
  | _, [] => True
  | out, e :: t => (out = true → takesDown e = false) ∧ KeepsAlive ev (flight ev out e) t

/-- What holds of an execution that returns or raises `r`. -/
structure Outcome (abi : Abi) (ev length : ℕ) (t : Calls) (r : Except Raised Info) : Prop where
  /-- a queue, an event and a file, each closed once -/
  closed : Ledger 3 0 (t.map touch) 0
  polled : t.countP polls ≤ 2000
  /-- the contract holds just if a read that was submitted was harvested -/
  alive : KeepsAlive ev false t ↔ ((∃ e ∈ t, submits e) → ∃ e ∈ t, harvests ev e)
  /-- an overwritten guard is fatal -/
  guard : (∃ e ∈ t, clobbered e) → ∃ text, r = .error (.abi text)
  verified : ∀ info, r = .ok info → (∃ e ∈ t, submits e) ∧ (∃ e ∈ t, harvests ev e) ∧
    ⟨.evError ev, 0⟩ ∈ t ∧ info = ⟨abi.eventSize, abi.fromShim, length, true, true⟩

/-! ## The read -/

section Flight

variable {ev : ℕ} {t u : Calls} {out : Bool}

/-- Without another submission a read is out until it is harvested. -/
theorem foldl_flight (h : ∀ e ∈ u, submits e = false) :
    u.foldl (flight ev) out = true ↔ out = true ∧ ¬ ∃ e ∈ u, harvests ev e := by
  induction u generalizing out with
  | nil => simp
  | cons e u ih =>
      rw [List.forall_mem_cons] at h
      rw [List.foldl_cons, ih h.2, flight, h.1]
      simp [and_assoc]

/-- Calls that take nothing down keep the contract. -/
theorem keepsAlive_append (h : ∀ e ∈ u, takesDown e = false) :
    KeepsAlive ev out (u ++ t) ↔ KeepsAlive ev (u.foldl (flight ev) out) t := by
  induction u generalizing out with
  | nil => rfl
  | cons e u ih =>
      rw [List.forall_mem_cons] at h
      rw [List.cons_append, KeepsAlive, ih h.2, List.foldl_cons]
      exact and_iff_right fun _ => h.1

end Flight

/-- The polls: all but the last came back empty. -/
theorem pollUntil_runs (ev : ℕ) {eqh n : ℕ} {u : Calls} {r : Except Raised (List ℕ)}
    (h : (pollUntil eqh n).Runs u r) :
    (∀ e ∈ u, e.op = .eqPoll eqh true 1000 4) ∧ u.length ≤ n ∧
      ((∃ e ∈ u, harvests ev e) ↔ ∃ done, r = .ok done ∧ ev ∈ done) := by
  induction n generalizing u with
  | zero =>
      rcases Program.runs_ret.mp h with ⟨rfl, rfl⟩
      simp
  | succ n ih =>
      rcases Program.runs_bind.mp h with ⟨u₁, u₂, got, rfl, hpoll, hrest⟩
      rcases Program.runs_call.mp hpoll with ⟨ans, u', rfl, hret⟩
      rcases ans with rc | ptrs
      · -- the poll raises
        rcases Program.runs_ret.mp hret with ⟨rfl, rfl⟩
        rcases Program.runs_ret.mp hrest with ⟨rfl, rfl⟩
        simp [harvests]
      · rcases Program.runs_ret.mp hret with ⟨rfl, rfl⟩
        have hmem : ptrs.contains (some ev) = true ↔ ev ∈ ptrs.reduceOption := by
          simp [List.reduceOption_mem_iff]
        rcases hdone : ptrs.reduceOption with _ | ⟨d, done⟩
        · simp only [hdone] at hrest
          obtain ⟨hops, hlen, hharvest⟩ := ih hrest
          refine ⟨?_, ?_, ?_⟩
          · simpa using hops
          · simp only [List.singleton_append, List.length_cons]
            omega
          · rw [← hharvest]
            simp only [List.singleton_append, List.exists_mem_cons_iff, harvests, hmem, hdone]
            simp
        · simp only [hdone] at hrest
          rcases Program.runs_ret.mp hrest with ⟨rfl, rfl⟩
          simp only [List.append_nil, List.mem_singleton, forall_eq, List.length_singleton,
            exists_eq_left, harvests, hmem, hdone, true_and]
          simp

/-- The calls that only look at what came back. -/
def looks (ev : ℕ) : Op → Prop
  | .canaryOk ev' | .evError ev' | .sizeOf ev' => ev' = ev
  | _ => False

/-- `check` looks at the event and its guard; an overwritten guard raises. -/
theorem check_runs {abi : Abi} {ev length : ℕ} {u : Calls} {r : Except Raised ℕ}
    (h : (check abi ev length).Runs u r) : (∀ e ∈ u, looks ev e.op) ∧
      ((∃ e ∈ u, clobbered e) → ∃ text, r = .error (.abi text)) ∧
      ∀ got, r = .ok got → ⟨.evError ev, 0⟩ ∈ u ∧ got = length := by
  rcases Program.runs_call.mp h with ⟨ok, u₁, rfl, h₁⟩
  cases ok with
  | false =>
      rcases Program.runs_ret.mp h₁ with ⟨rfl, rfl⟩
      simp [looks]
  | true =>
      rcases Program.runs_call.mp h₁ with ⟨err, u₂, rfl, h₂⟩
      split at h₂
      · rcases Program.runs_ret.mp h₂ with ⟨rfl, rfl⟩
        simp [looks, clobbered]
      · rename_i herr
        obtain rfl : err = 0 := not_not.mp herr
        rcases Program.runs_call.mp h₂ with ⟨got, u₃, rfl, h₃⟩
        split at h₃
        · rcases Program.runs_ret.mp h₃ with ⟨rfl, rfl⟩
          simp [looks, clobbered]
        · rename_i hgot
          rcases Program.runs_ret.mp h₃ with ⟨rfl, rfl⟩
          have hlen : got = length := not_not.mp hgot
          simp [looks, clobbered, hlen]

/-- So does `harvest`, which returns information about a whole read only. -/
theorem harvest_runs {abi : Abi} {ev length : ℕ} {done : List ℕ} {u : Calls}
    {r : Except Raised Info} (h : (harvest abi ev length done).Runs u r) :
    (∀ e ∈ u, looks ev e.op) ∧ ((∃ e ∈ u, clobbered e) → ∃ text, r = .error (.abi text)) ∧
      ∀ info, r = .ok info → ev ∈ done ∧ ⟨.evError ev, 0⟩ ∈ u ∧
        info = ⟨abi.eventSize, abi.fromShim, length, true, true⟩ := by
  unfold harvest at h
  split at h
  · rcases Program.runs_ret.mp h with ⟨rfl, rfl⟩
    simp
  split at h
  · rcases Program.runs_ret.mp h with ⟨rfl, rfl⟩
    simp
  rename_i hdone
  rcases Program.runs_call.mp h with ⟨ok, u₁, rfl, h₁⟩
  cases ok with
  | false =>
      rcases Program.runs_ret.mp h₁ with ⟨rfl, rfl⟩
      simp [looks]
  | true =>
      rcases Program.runs_bind.mp h₁ with ⟨u₂, u₃, x, rfl, hcheck, hret⟩
      obtain ⟨hlooks, hguard, hok⟩ := check_runs hcheck
      cases x with
      | error e =>
          rcases Program.runs_ret.mp hret with ⟨rfl, rfl⟩
          refine ⟨by simpa [looks] using hlooks, ?_, by simp⟩
          intro hc
          obtain ⟨text, htext⟩ := hguard (by simpa [clobbered] using hc)
          exact ⟨text, by rw [Except.error.inj htext]⟩
      | ok got =>
          rcases Program.runs_ret.mp hret with ⟨rfl, rfl⟩
          obtain ⟨herr, rfl⟩ := hok got rfl
          refine ⟨by simpa [looks] using hlooks, ?_, ?_⟩
          · intro hc
            obtain ⟨text, htext⟩ := hguard (by simpa [clobbered] using hc)
            cases htext
          · rintro info ⟨⟩
            exact ⟨not_not.mp hdone, by simp [herr], rfl⟩

/-- What a call is not. -/
structure Plain (e : Event Op Ans) : Prop where
  submits : submits e = false
  takesDown : takesDown e = false

/-- A poll submits nothing and takes nothing down. -/
theorem plain_of_poll {e : Event Op Ans} {eqh timeoutUs maxEvents : ℕ} {wait : Bool}
    (h : e.op = .eqPoll eqh wait timeoutUs maxEvents) : Plain e ∧ clobbered e = false := by
  obtain ⟨o, ans⟩ := e
  obtain rfl : o = _ := h
  exact ⟨⟨rfl, rfl⟩, rfl⟩

/-- Nor does a look at the event, which is no poll and no harvest either. -/
theorem plain_of_looks {e : Event Op Ans} {ev : ℕ} (h : looks ev e.op) (ev' : ℕ) :
    Plain e ∧ polls e = false ∧ harvests ev' e = false := by
  obtain ⟨o, ans⟩ := e
  cases o with
  | canaryOk | evError | sizeOf => exact ⟨⟨rfl, rfl⟩, rfl, rfl⟩
  | _ => exact absurd h id

/-- What holds of the calls between the open of the file and its close. -/
structure ReadBack (abi : Abi) (ev length : ℕ) (u : Calls) (r : Except Raised Info) : Prop where
  quiet : ∀ e ∈ u, takesDown e = false
  polled : u.countP polls ≤ 2000
  out : u.foldl (flight ev) false = true ↔ (∃ e ∈ u, submits e) ∧ ¬ ∃ e ∈ u, harvests ev e
  guard : (∃ e ∈ u, clobbered e) → ∃ text, r = .error (.abi text)
  verified : ∀ info, r = .ok info → (∃ e ∈ u, submits e) ∧ (∃ e ∈ u, harvests ev e) ∧
    ⟨.evError ev, 0⟩ ∈ u ∧ info = ⟨abi.eventSize, abi.fromShim, length, true, true⟩

/-- What happens between the open and the closes. -/
theorem readBack_runs {abi : Abi} {eqh ev obj length : ℕ} {u : Calls} {r : Except Raised Info}
    (h : (readBack abi eqh ev obj length).Runs u r) : ReadBack abi ev length u r := by
  rcases Program.runs_bind.mp h with ⟨u₁, u₂, x, rfl, hsubmit, hrest⟩
  rcases Program.runs_call.mp hsubmit with ⟨based, u₃, rfl, h₃⟩
  rcases based with rc | ⟨⟩
  · rcases Program.runs_ret.mp h₃ with ⟨rfl, rfl⟩
    rcases Program.runs_ret.mp hrest with ⟨rfl, rfl⟩
    constructor <;> simp [takesDown, polls, submits, flight, clobbered, harvests]
  rcases Program.runs_call.mp h₃ with ⟨taken, u₄, rfl, h₄⟩
  rcases taken with rc | ⟨⟩
  · rcases Program.runs_ret.mp h₄ with ⟨rfl, rfl⟩
    rcases Program.runs_ret.mp hrest with ⟨rfl, rfl⟩
    constructor <;> simp [takesDown, polls, submits, flight, clobbered, harvests]
  -- submitted
  rcases Program.runs_ret.mp h₄ with ⟨rfl, rfl⟩
  rcases Program.runs_bind.mp hrest with ⟨v, w, y, rfl, hpolls, hw⟩
  obtain ⟨hops, hlen, hharvest⟩ := pollUntil_runs ev hpolls
  have hv : ∀ e ∈ v, Plain e ∧ clobbered e = false := fun e he => plain_of_poll (hops e he)
  have hlook : ∀ e ∈ w, Plain e ∧ polls e = false ∧ harvests ev e = false := by
    cases y with
    | error e =>
        rcases Program.runs_ret.mp hw with ⟨rfl, rfl⟩
        exact fun e he => absurd he List.not_mem_nil
    | ok done => exact fun e he => plain_of_looks ((harvest_runs hw).1 e he) ev
  have hplain : ∀ e ∈ v ++ w, Plain e :=
    List.forall_mem_append.mpr ⟨fun e he => (hv e he).1, fun e he => (hlook e he).1⟩
  have hpolled : (v ++ w).countP polls ≤ 2000 := by
    have hzero : w.countP polls = 0 :=
      List.countP_eq_zero.mpr fun e he => by simp [(hlook e he).2.1]
    rw [List.countP_append, hzero]
    exact List.countP_le_length.trans hlen
  have hout : (v ++ w).foldl (flight ev) true = true ↔ ¬ ∃ e ∈ v ++ w, harvests ev e := by
    rw [foldl_flight fun e he => (hplain e he).submits]
    exact and_iff_right rfl
  have hclob : (∃ e ∈ v ++ w, clobbered e) → ∃ e ∈ w, clobbered e := by
    rintro ⟨e, he, hc⟩
    rcases List.mem_append.mp he with hev | hew
    · rw [(hv e hev).2] at hc
      cases hc
    · exact ⟨e, hew, hc⟩
  refine ⟨?_, ?_, ?_, ?_, ?_⟩
  · simpa [takesDown] using fun e he => (hplain e he).takesDown
  · simpa [polls] using hpolled
  · have hstart : ([⟨.base, .ok ()⟩, ⟨.dfsRead obj 0 length ev, .ok ()⟩] : Calls).foldl
        (flight ev) false = true := rfl
    rw [List.foldl_append, hstart, hout]
    simp [submits, harvests]
  · intro hc
    have hw' := hclob (by simpa [clobbered] using hc)
    cases y with
    | error e =>
        rcases Program.runs_ret.mp hw with ⟨rfl, rfl⟩
        simp at hw'
    | ok done => exact (harvest_runs hw).2.1 hw'
  · rintro info rfl
    cases y with
    | error e => cases (Program.runs_ret.mp hw).2
    | ok done =>
        obtain ⟨hmem, herr, hinfo⟩ := (harvest_runs hw).2.2 info rfl
        obtain ⟨e, he, hh⟩ := hharvest.mpr ⟨done, rfl, hmem⟩
        refine ⟨?_, ⟨e, ?_, hh⟩, ?_, hinfo⟩
        · exact ⟨⟨.dfsRead obj 0 length ev, .ok ()⟩, by simp, rfl⟩
        · simp [he]
        · simp [herr]

/-! ## What is opened is closed -/

section Closed

variable {abi : Abi} {eqh ev obj length : ℕ}

/-- The calls of the read are on what is open. -/
def Inside (eqh ev obj : ℕ) : Op → Prop
  | .base => True
  | .dfsRead obj' _ _ ev' => obj' = obj ∧ ev' = ev
  | .eqPoll eqh' .. => eqh' = eqh
  | o => looks ev o

/-- Everything in between uses queue, event and file only. -/
theorem touch_of_inside {e : Event Op Ans} (h : Inside eqh ev obj e.op) :
    ∃ hs, touch e = .uses hs ∧
      ∀ x ∈ hs, x ∈ Resource.file obj ::ₘ .event ev ::ₘ .queue eqh ::ₘ 0 := by
  obtain ⟨o, ans⟩ := e
  cases o with
  | base => exact ⟨[], rfl, by simp⟩
  | dfsRead obj' offset length ev' =>
      obtain ⟨rfl, rfl⟩ : obj' = obj ∧ ev' = ev := h
      exact ⟨[_, _], rfl, by simp⟩
  | eqPoll eqh' wait timeoutUs maxEvents =>
      obtain rfl : eqh' = eqh := h
      exact ⟨[_], rfl, by simp⟩
  | canaryOk ev' | evError ev' | sizeOf ev' =>
      obtain rfl : ev' = ev := h
      exact ⟨[_], rfl, by simp⟩
  | _ => exact absurd h id

/-- The polls use the queue only. -/
theorem inside_pollUntil (n : ℕ) : (pollUntil eqh n).OnlyCalls (Inside eqh ev obj) := by
  induction n with
  | zero => trivial
  | succ n ih =>
      refine Program.OnlyCalls.bind ⟨rfl, ?_⟩ ?_
      · intro ptrs
        cases ptrs <;> trivial
      · intro done
        rcases done with e | _ | ⟨d, done⟩
        · trivial
        · exact ih
        · trivial

/-- The check uses the event only. -/
theorem inside_check : (check abi ev length).OnlyCalls (Inside eqh ev obj) := by
  refine ⟨rfl, ?_⟩
  intro ok
  cases ok with
  | false => trivial
  | true =>
      refine ⟨rfl, ?_⟩
      intro err
      dsimp only
      split
      · trivial
      · refine ⟨rfl, ?_⟩
        intro got
        dsimp only
        split <;> trivial

/-- So does the harvest. -/
theorem inside_harvest (done : List ℕ) :
    (harvest abi ev length done).OnlyCalls (Inside eqh ev obj) := by
  unfold harvest
  split
  · trivial
  split
  · trivial
  refine ⟨rfl, ?_⟩
  intro ok
  cases ok with
  | false => trivial
  | true =>
      refine inside_check.bind ?_
      intro got
      cases got <;> trivial

/-- From the submission on only queue, event and file are used. -/
theorem inside_readBack : (readBack abi eqh ev obj length).OnlyCalls (Inside eqh ev obj) := by
  refine Program.OnlyCalls.bind ⟨trivial, ?_⟩ ?_
  · intro based
    cases based with
    | error rc => trivial
    | ok _ =>
        refine ⟨⟨rfl, rfl⟩, ?_⟩
        intro taken
        cases taken <;> trivial
  · intro submitted
    cases submitted with
    | error e => trivial
    | ok _ =>
        refine (inside_pollUntil 2000).bind ?_
        intro done
        cases done with
        | error e => trivial
        | ok done => exact inside_harvest done

/-- With a queue and an event: a file opened and closed, on every path. -/
theorem takes_withEvent (path : String) : (withEvent abi eqh ev path length).Takes touch 3
    (.event ev ::ₘ .queue eqh ::ₘ 0) (.event ev ::ₘ .queue eqh ::ₘ 0) := by
  refine Program.takes_call_uses (by simp) (fun _ => rfl) (by simp) ?_
  intro ok
  cases ok with
  | false => exact Program.takes_ret (by simp) _
  | true =>
      refine Program.takes_call (by simp) ?_
      intro opened
      rcases opened with rc | obj
      · exact ⟨_, .uses (by simp), Program.takes_ret (by simp) _⟩
      · refine ⟨Resource.file obj ::ₘ .event ev ::ₘ .queue eqh ::ₘ 0, .opens _ _, ?_⟩
        have hbody : (readBack abi eqh ev obj length).OnlyCalls (Inside eqh ev obj) :=
          inside_readBack
        exact (hbody.takes (by simp) fun e he => touch_of_inside he).close (by simp)
          (fun _ => rfl) (fun _ _ => rfl) fun _ _ => Program.takes_ret (by simp) _

/-- The whole check takes down all that it has set up. -/
theorem takes_verifyAbi (path : String) : (verifyAbi abi ev path length).Takes touch 3 0 0 := by
  refine Program.takes_call (by simp) ?_
  intro created
  rcases created with rc | eqh
  · exact ⟨0, .uses (by simp), Program.takes_ret (by simp) _⟩
  refine ⟨Resource.queue eqh ::ₘ 0, .opens _ _, Program.takes_call (by simp) ?_⟩
  intro inited
  rcases inited with rc | ⟨⟩
  · refine ⟨Resource.queue eqh ::ₘ 0, .uses (by simp), Program.takes_call (by simp) fun _ => ?_⟩
    exact ⟨0, .closes 0 _, Program.takes_ret (by simp) _⟩
  · refine ⟨Resource.event ev ::ₘ .queue eqh ::ₘ 0, .opens _ _, ?_⟩
    refine (takes_withEvent path).close (by simp) (fun _ => rfl) (fun _ _ => rfl) fun _ _ => ?_
    refine Program.takes_call (by simp) fun _ => ?_
    exact ⟨0, .closes 0 _, Program.takes_ret (by simp) _⟩

end Closed

/-- What neither the setup nor the closes do is done in between. -/
theorem exists_between {p : Event Op Ans → Bool} {before u after : Calls}
    (hb : before.any p = false) (ha : after.any p = false) :
    (∃ e ∈ before ++ u ++ after, p e) ↔ ∃ e ∈ u, p e := by
  rw [← List.any_eq_true, ← List.any_eq_true, List.any_append, List.any_append, hb, ha]
  simp

/-- The calls of `verify_abi` up to its read. -/
def opening (eqh ev obj : ℕ) (path : String) : Calls :=
  [⟨.eqCreate, .ok eqh⟩, ⟨.eventInit ev eqh, .ok ()⟩, ⟨.canaryOk ev, true⟩,
    ⟨.openRdonly path, .ok obj⟩]

/-- The calls of its `finally` blocks. -/
def closing (eqh ev obj : ℕ) : Calls :=
  [⟨.closeObj obj, ()⟩, ⟨.eventFini ev, ()⟩, ⟨.eqDestroy eqh true, ()⟩]

/-- The closes keep the contract exactly if no read is out. -/
theorem keepsAlive_closing {eqh ev obj : ℕ} (out : Bool) :
    KeepsAlive ev out (closing eqh ev obj) ↔ ¬ out = true := by
  cases out <;> simp [KeepsAlive, closing, takesDown, flight, submits, harvests]

/-- What the middle part says about the whole run. -/
theorem ReadBack.outcome {abi : Abi} {ev length : ℕ} {u : Calls} {r : Except Raised Info}
    (h : ReadBack abi ev length u r) (path : String) (eqh obj : ℕ)
    (hclosed : Ledger 3 0 ((opening eqh ev obj path ++ u ++ closing eqh ev obj).map touch) 0) :
    Outcome abi ev length (opening eqh ev obj path ++ u ++ closing eqh ev obj) r := by
  have hsubmits : (∃ e ∈ opening eqh ev obj path ++ u ++ closing eqh ev obj, submits e) ↔
      ∃ e ∈ u, submits e := exists_between rfl rfl
  have hharvests : (∃ e ∈ opening eqh ev obj path ++ u ++ closing eqh ev obj, harvests ev e) ↔
      ∃ e ∈ u, harvests ev e := exists_between rfl rfl
  refine ⟨hclosed, ?_, ?_, ?_, ?_⟩
  · rw [List.countP_append, List.countP_append]
    have hpolled := h.polled
    simp only [opening, closing, List.countP_cons, List.countP_nil, polls]
    simpa using hpolled
  · -- at the end of `u` the three are closed one after the other
    have hstart : (opening eqh ev obj path).foldl (flight ev) false = false := rfl
    rw [hsubmits, hharvests, List.append_assoc,
      keepsAlive_append (by simp [opening, takesDown]), hstart, keepsAlive_append h.quiet,
      keepsAlive_closing, h.out, not_and, not_not]
  · intro hc
    exact h.guard ((exists_between rfl rfl).mp hc)
  · intro info hinfo
    obtain ⟨hs, hh, herr, heq⟩ := h.verified info hinfo
    exact ⟨hsubmits.mpr hs, hharvests.mpr hh, by simp [herr], heq⟩

/-- A read that DAOS takes and whose first poll raises. -/
def lostRead : Calls :=
  [⟨.base, .ok ()⟩, ⟨.dfsRead 5 0 4096 64, .ok ()⟩, ⟨.eqPoll 3 true 1000 4, .error (-1)⟩]

/-- A run whose only poll fails. -/
theorem lostRead_runs : (verifyAbi ⟨176, false⟩ 64 "/probe" 4096).Runs
    (opening 3 64 5 "/probe" ++ lostRead ++ closing 3 64 5)
    (.error (.daos "daos_eq_poll" (-1))) := by
  have hread : (readBack ⟨176, false⟩ 3 64 5 4096).Runs lostRead
      (.error (.daos "daos_eq_poll" (-1))) := by
    refine Program.runs_bind.mpr ⟨[_, _], [_], .ok (), rfl, .call _ (.call _ (.ret _)), ?_⟩
    refine Program.runs_bind.mpr ⟨[_], [], .error _, rfl, ?_, .ret _⟩
    exact Program.runs_bind.mpr ⟨[_], [], .error _, rfl, .call _ (.ret _), .ret _⟩
  have hevent : (withEvent ⟨176, false⟩ 3 64 "/probe" 4096).Runs
      (⟨.canaryOk 64, true⟩ :: ⟨.openRdonly "/probe", .ok 5⟩ :: (lostRead ++ [⟨.closeObj 5, ()⟩]))
      (.error (.daos "daos_eq_poll" (-1))) :=
    .call _ (.call _ (Program.runs_bind.mpr ⟨_, [_], _, rfl, hread, .call _ (.ret _)⟩))
  exact .call _ (.call _ (Program.runs_bind.mpr ⟨_, [_, _], _, rfl, hevent,
    .call _ (.call _ (.ret _))⟩))

end LmcacheDaos.DaosEvent
