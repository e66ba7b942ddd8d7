import Mathlib.Data.List.Nodup
import Mathlib.Tactic.Common
import LmcacheDaos.Lib.Machine

/-!
# Borrowed event queues

The job that `postXfer` submits for a group, over the borrow pool
`nixlDaosEqPool` (`daos_backend.cpp`). With a deadline configured a job borrows
a queue (or makes one, or falls back to the blocking call), submits its
transfer with an event on that queue, polls the queue for one completion and
gives it back. The poll's event is not compared with the submitted one: that
they agree rests on the queue holding no other event.

Of the client library only this is used: an event that was submitted stays
outstanding on its queue until a poll of the queue returns it, or until it was
aborted and finalised; a poll returns a completed event of its queue, or 0
when the deadline passes, or a negative error.

Result: a poll returns the event of its own job in every run in which no poll
fails. After a failed poll the job finalises its event without an abort and
gives the queue back with the event on it, for the next borrower to find.
-/

namespace LmcacheDaos.Nixl.EventQueues

open Lib

/-- `-DER_TIMEDOUT` -/
def derTimedout : ℤ := -1011

/-- An outstanding event: its queue, which submission it is, and its
`ev_error` once it has completed. -/
structure Event where
  eq : ℕ
  id : ℕ
  result : Option ℤ
deriving DecidableEq, Repr

structure Shared where
  /-- `free_`, its back first -/
  free : List ℕ
  /-- queues made so far: `all_` -/
  made : ℕ
  /-- events submitted so far -/
  submitted : ℕ
  /-- events outstanding in the client library -/
  events : List Event
deriving DecidableEq, Repr

/-- The `rc` a job ends with, the event it submitted and the event its poll
returned. -/
structure Result where
  rc : ℤ
  submitted : Option ℕ
  harvested : Option ℕ
deriving DecidableEq, Repr

/-- Where a job is. -/
inductive Job where
  | queued
  /-- `free_` was empty: in `daos_eq_create` -/
  | creating
  /-- has queue `q`, before `daos_event_init` -/
  | borrowed (q : ℕ)
  /-- `daos_event_init` failed: about to give the queue back -/
  | refused (q : ℕ)
  /-- has an event, before the submission -/
  | ready (q : ℕ)
  /-- in the blocking call, without an event -/
  | blocking
  /-- event `ev` is submitted: in `daos_eq_poll` -/
  | polling (q ev : ℕ)
  /-- before `daos_event_fini`, after an abort or without one -/
  | tidying (q : ℕ) (aborted : Bool) (r : Result)
  /-- about to give the queue back -/
  | returning (q : ℕ) (r : Result)
  | finished (r : Result)
deriving DecidableEq, Repr

/-- What `daos_eq_poll` answers. -/
inductive Poll where
  | event (e : ℕ)
  | timeout
  | error (n : ℤ)
deriving DecidableEq, Repr

inductive Act where
  /-- `borrow` under `m_`; without a deadline, no queue is asked for -/
  | borrow
  | create (ok : Bool)
  | eventInit (ok : Bool)
  | giveBack
  /-- the blocking call returns -/
  | call (rc : ℤ)
  /-- the asynchronous call returns -/
  | submit (rc : ℤ)
  | poll (p : Poll)
  | fini
deriving DecidableEq, Repr

/-- The event `e` of queue `q`. -/
def isEvent (q e : ℕ) (x : Event) : Bool := x.eq == q && x.id == e

def step (deadline : Bool) (s : Shared) : Job → Act → Option (Shared × Job)
  | .queued, .borrow =>
      if !deadline then some (s, .blocking)
      else match s.free with
        | q :: rest => some ({ s with free := rest }, .borrowed q)
        | [] => some (s, .creating)
  | .creating, .create ok =>
      if ok then some ({ s with made := s.made + 1 }, .borrowed s.made) else some (s, .blocking)
  | .borrowed q, .eventInit ok => some (s, if ok then .ready q else .refused q)
  | .refused q, .giveBack => some ({ s with free := q :: s.free }, .blocking)
  | .blocking, .call rc => some (s, .finished ⟨rc, none, none⟩)
  | .ready q, .submit rc =>
      if rc = 0 then
        some ({ s with submitted := s.submitted + 1, events := ⟨q, s.submitted, none⟩ :: s.events },
          .polling q s.submitted)
      else some (s, .tidying q false ⟨rc, none, none⟩)
  | .polling q ev, .poll p => match p with
      | .event e => match s.events.find? (isEvent q e) with
          | some ⟨_, _, some rc⟩ =>
              some ({ s with events := s.events.filter fun x => !isEvent q e x },
                .tidying q false ⟨rc, some ev, some e⟩)
          | _ => none
      -- the deadline passed: `daos_event_abort`
      | .timeout => some (s, .tidying q true ⟨derTimedout, some ev, none⟩)
      | .error n => if n < 0 then some (s, .tidying q false ⟨n, some ev, none⟩) else none
  | .tidying q aborted r, .fini =>
      some ({ s with events := match aborted, r.submitted with
        | true, some ev => s.events.filter fun x => !isEvent q ev x
        | _, _ => s.events }, .returning q r)
  | .returning q r, .giveBack => some ({ s with free := q :: s.free }, .finished r)
  | _, _ => none

/-- A new engine. -/
def emptyPool : Shared := ⟨[], 0, 0, []⟩

/-- Any number of jobs, of any requests; the environment completes event `e`. -/
def threads (deadline : Bool) : Threads Shared Job Unit Act (ℕ × ℤ) where
  Init s := s = emptyPool
  entry _ := .queued
  step := step deadline
  envStep s c := some { s with events := s.events.map fun x =>
    if x.id = c.1 ∧ x.result = none then { x with result := some c.2 } else x }

abbrev St := ThreadState Shared Job

def initial : St := ⟨emptyPool, []⟩

theorem initial_init (deadline : Bool) : (threads deadline).machine.Init initial := ⟨rfl, rfl⟩

abbrev Lbl := ThreadLbl Unit Act (ℕ × ℤ)

/-- The `rc` a job has settled on. -/
def Job.result : Job → Option Result
  | .tidying _ _ r | .returning _ r | .finished r => some r
  | _ => none

/-- A harvested event is the submitted one. -/
def Own (r : Result) : Prop := ∀ e, r.harvested = some e → r.submitted = some e

/-- `daos_eq_poll` returns a negative error. -/
def PollFails : Lbl → Prop
  | .act _ (.poll (.error _)) => True
  | _ => False

instance : DecidablePred PollFails := fun
  | .act _ (.poll (.error _)) => .isTrue trivial
  | .act _ (.poll (.event _)) | .act _ (.poll .timeout) => .isFalse id
  | .act _ .borrow | .act _ (.create _) | .act _ (.eventInit _) | .act _ .giveBack
  | .act _ (.call _) | .act _ (.submit _) | .act _ .fini | .spawn _ | .env _ => .isFalse id

/-! ## Queues and the jobs that hold them -/

/-- The queue a job holds. -/
def Job.holding : Job → Option ℕ
  | .borrowed q | .refused q | .ready q | .polling q _ | .tidying q _ _ | .returning q _ => some q
  | _ => none

/-- The event a job may have on its queue. -/
def Job.live : Job → Option ℕ
  | .polling _ ev => some ev
  | .tidying _ true r => r.submitted
  | _ => none

/-- The pool: its queues are different ones and carry no event. -/
structure PoolInv (s : Shared) : Prop where
  nodup : s.free.Nodup
  free_lt : ∀ q ∈ s.free, q < s.made
  free_empty : ∀ x ∈ s.events, x.eq ∉ s.free
  events_lt : ∀ x ∈ s.events, x.eq < s.made

/-- A job: its queue is out of the pool and carries no event but its own. -/
structure JobInv (s : Shared) (p : Job) : Prop where
  queue : ∀ q, p.holding = some q →
    q < s.made ∧ q ∉ s.free ∧ ∀ x ∈ s.events, x.eq = q → p.live = some x.id
  own : ∀ r, p.result = some r → Own r

/-- Two jobs hold different queues. -/
def Apart (p p' : Job) : Prop := ∀ q, p.holding = some q → p'.holding ≠ some q

/-- What a job's step can do, case by case. -/
inductive Moves (s : Shared) : Job → Act → Shared → Job → Prop where
  | noDeadline : Moves s .queued .borrow s .blocking
  | reuse {q : ℕ} {rest : List ℕ} (h : s.free = q :: rest) :
      Moves s .queued .borrow { s with free := rest } (.borrowed q)
  | none_free : Moves s .queued .borrow s .creating
  | created : Moves s .creating (.create true) { s with made := s.made + 1 } (.borrowed s.made)
  | not_created : Moves s .creating (.create false) s .blocking
  | inited {q : ℕ} : Moves s (.borrowed q) (.eventInit true) s (.ready q)
  | not_inited {q : ℕ} : Moves s (.borrowed q) (.eventInit false) s (.refused q)
  | refused {q : ℕ} : Moves s (.refused q) .giveBack { s with free := q :: s.free } .blocking
  | called {rc : ℤ} : Moves s .blocking (.call rc) s (.finished ⟨rc, none, none⟩)
  | submitted {q : ℕ} : Moves s (.ready q) (.submit 0)
      { s with submitted := s.submitted + 1, events := ⟨q, s.submitted, none⟩ :: s.events }
      (.polling q s.submitted)
  | not_submitted {q : ℕ} {rc : ℤ} :
      Moves s (.ready q) (.submit rc) s (.tidying q false ⟨rc, none, none⟩)
  | harvested {q ev e : ℕ} {x : Event} {rc : ℤ} (hx : x ∈ s.events) (hq : x.eq = q)
      (he : x.id = e) :
      Moves s (.polling q ev) (.poll (.event e))
        { s with events := s.events.filter fun x => !isEvent q e x }
        (.tidying q false ⟨rc, some ev, some e⟩)
  | timedOut {q ev : ℕ} : Moves s (.polling q ev) (.poll .timeout) s
      (.tidying q true ⟨derTimedout, some ev, none⟩)
  | failed {q ev : ℕ} {n : ℤ} : Moves s (.polling q ev) (.poll (.error n)) s
      (.tidying q false ⟨n, some ev, none⟩)
  | removed {q ev : ℕ} {r : Result} (hr : r.submitted = some ev) :
      Moves s (.tidying q true r) .fini
        { s with events := s.events.filter fun x => !isEvent q ev x } (.returning q r)
  | left {q : ℕ} {aborted : Bool} {r : Result} (h : aborted = false ∨ r.submitted = none) :
      Moves s (.tidying q aborted r) .fini s (.returning q r)
  | returned {q : ℕ} {r : Result} :
      Moves s (.returning q r) .giveBack { s with free := q :: s.free } (.finished r)

theorem step_moves {deadline : Bool} {s sh : Shared} {p p' : Job} {a : Act}
    (hst : step deadline s p a = some (sh, p')) : Moves s p a sh p' := by
  cases p <;> cases a <;> simp only [step, reduceCtorEq] at hst
  -- no deadline: a blocking call; else a free queue, or a new one
  case queued.borrow =>
      split at hst
      · cases hst
        exact .noDeadline
      · split at hst
        · rename_i q rest hfree
          cases hst
          exact .reuse hfree
        · cases hst
          exact .none_free
  case creating.create ok =>
      cases ok with
      | true =>
          cases hst
          exact .created
      | false =>
          cases hst
          exact .not_created
  case borrowed.eventInit q ok =>
      cases ok with
      | true =>
          cases hst
          exact .inited
      | false =>
          cases hst
          exact .not_inited
  case refused.giveBack q =>
      cases hst
      exact .refused
  case ready.submit q rc =>
      split at hst
      · rename_i h
        cases hst
        rw [h]
        exact .submitted
      · cases hst
        exact .not_submitted
  -- without a queue the call blocks until the operation ends
  case blocking.call rc =>
      cases hst
      exact .called
  case polling.poll q ev p =>
      cases p with
      -- the poll takes a completion of the queue, whosever it is
      | event e =>
          simp only at hst
          split at hst
          · rename_i q' e' rc hfind
            cases hst
            have hx := List.find?_some hfind
            simp only [isEvent, Bool.and_eq_true, beq_iff_eq] at hx
            exact .harvested (List.mem_of_find?_eq_some hfind) hx.1 hx.2
          · cases hst
      -- the deadline: the event is aborted
      | timeout =>
          cases hst
          exact .timedOut
      -- the poll failed: the job goes on without aborting
      | error n =>
          simp only at hst
          split at hst
          · cases hst
            exact .failed
          · cases hst
  case tidying.fini q aborted r =>
      cases aborted with
      | false =>
          cases hst
          exact .left (.inl rfl)
      | true =>
          -- aborted: a submitted event leaves the queue
          cases hr : r.submitted with
          | none =>
              simp only [hr, Option.some.injEq, Prod.mk.injEq] at hst
              rcases hst with ⟨rfl, rfl⟩
              exact .left (.inr hr)
          | some ev =>
              simp only [hr, Option.some.injEq, Prod.mk.injEq] at hst
              rcases hst with ⟨rfl, rfl⟩
              exact .removed hr
  case returning.giveBack q r =>
      cases hst
      exact .returned

/-- A step makes queues, and changes the events and the freedom of no queue
but the job's own. The queue a job gets was free or is new. -/
theorem Moves.footprint {s sh : Shared} {p p' : Job} {a : Act} (h : Moves s p a sh p') :
    s.made ≤ sh.made ∧ (∀ x ∈ sh.events, x ∈ s.events ∨ p.holding = some x.eq) ∧
      (∀ q ∈ sh.free, q ∈ s.free ∨ p.holding = some q) ∧
      ∀ q, p'.holding = some q → p.holding = some q ∨ q ∈ s.free ∨ s.made ≤ q := by
  cases h
  -- the queue comes from the list
  case reuse q rest hfree =>
      refine ⟨Nat.le_refl _, fun x hx => .inl hx, fun q' hq' => .inl ?_,
        fun q' hq' => .inr (.inl ?_)⟩
      · rw [hfree]
        exact List.mem_cons_of_mem _ hq'
      · cases hq'
        simp [hfree]
  -- or is a new one
  case created =>
      refine ⟨Nat.le_succ _, fun x hx => .inl hx, fun q hq => .inl hq, fun q hq => .inr (.inr ?_)⟩
      cases hq
      exact Nat.le_refl _
  case submitted q =>
      refine ⟨Nat.le_refl _, fun x hx => ?_, fun q hq => .inl hq, fun q hq => .inl hq⟩
      rcases List.mem_cons.mp hx with rfl | hx
      · exact .inr rfl
      · exact .inl hx
  -- completions only leave
  case harvested =>
      refine ⟨Nat.le_refl _, fun x hx => .inl ?_, fun q hq => .inl hq, fun q hq => .inl hq⟩
      exact List.mem_of_mem_filter hx
  case removed =>
      refine ⟨Nat.le_refl _, fun x hx => .inl ?_, fun q hq => .inl hq, fun q hq => .inl hq⟩
      exact List.mem_of_mem_filter hx
  -- the queue goes back to the list
  case refused q =>
      refine ⟨Nat.le_refl _, fun x hx => .inl hx, fun q' hq' => ?_, by simp [Job.holding]⟩
      rcases List.mem_cons.mp hq' with rfl | hq'
      · exact .inr rfl
      · exact .inl hq'
  case returned q r =>
      refine ⟨Nat.le_refl _, fun x hx => .inl hx, fun q' hq' => ?_, by simp [Job.holding]⟩
      rcases List.mem_cons.mp hq' with rfl | hq'
      · exact .inr rfl
      · exact .inl hq'
  all_goals
    exact ⟨Nat.le_refl _, fun x hx => .inl hx, fun q hq => .inl hq, fun q hq => .inl hq⟩

/-- Another job's invariant is not touched. -/
theorem JobInv.stable {s sh : Shared} {p p' p₂ : Job} {a : Act} (hmove : Moves s p a sh p')
    (h : JobInv s p₂) (hap : Apart p p₂) : JobInv sh p₂ ∧ Apart p' p₂ := by
  obtain ⟨hmade, hevents, hfree, hgot⟩ := hmove.footprint
  refine ⟨⟨fun q hq => ?_, h.own⟩, fun q hq hq₂ => ?_⟩
  · obtain ⟨hlt, hout, hlive⟩ := h.queue q hq
    refine ⟨Nat.lt_of_lt_of_le hlt hmade, fun hin => ?_, fun x hx hxq => ?_⟩
    · rcases hfree q hin with h' | h'
      · exact hout h'
      · exact hap q h' hq
    · rcases hevents x hx with h' | h'
      · exact hlive x h' hxq
      · exact absurd hq (hap q (hxq ▸ h'))
  · rcases hgot q hq with h' | h' | h'
    · exact hap q h' hq₂
    · exact (h.queue q hq₂).2.1 h'
    · have := (h.queue q hq₂).1
      omega

/-- The queue that goes back to the pool carries no event. -/
theorem PoolInv.giveBack {s : Shared} {p : Job} {q : ℕ} (hI : PoolInv s) (hJ : JobInv s p)
    (hq : p.holding = some q) (hlive : p.live = none) :
    PoolInv { s with free := q :: s.free } := by
  obtain ⟨hlt, hout, hev⟩ := hJ.queue q hq
  refine ⟨List.nodup_cons.mpr ⟨hout, hI.nodup⟩, fun q' hq' => ?_, fun x hx hin => ?_, hI.events_lt⟩
  · rcases List.mem_cons.mp hq' with rfl | hq'
    · exact hlt
    · exact hI.free_lt q' hq'
  · rcases List.mem_cons.mp hin with h | h
    · have := hev x hx h
      rw [hlive] at this
      cases this
    · exact hI.free_empty x hx h

theorem PoolInv.filter {s : Shared} (hI : PoolInv s) (f : Event → Bool) :
    PoolInv { s with events := s.events.filter f } :=
  ⟨hI.nodup, hI.free_lt, fun x hx => hI.free_empty x (List.mem_of_mem_filter hx),
    fun x hx => hI.events_lt x (List.mem_of_mem_filter hx)⟩

/-- A step within the job: same queue, and no event it does not answer for. -/
theorem JobInv.within {s : Shared} {p p' : Job} (hJ : JobInv s p) (hq : p'.holding = p.holding)
    (hlive : p'.live = p.live) (hown : ∀ r, p'.result = some r → Own r) : JobInv s p' := by
  refine ⟨fun q hq' => ?_, hown⟩
  rw [hlive]
  exact hJ.queue q (hq ▸ hq')

/-- Once the only event a job answers for is taken off its queue, the queue
is empty. -/
theorem JobInv.emptied {s : Shared} {p p' : Job} {q ev : ℕ} (hJ : JobInv s p)
    (hp : p.holding = some q) (hq : p'.holding = some q) (hev : p.live = some ev)
    (hown : ∀ r, p'.result = some r → Own r) :
    JobInv { s with events := s.events.filter fun x => !isEvent q ev x } p' := by
  refine ⟨fun q' hq' => ?_, hown⟩
  rw [hq] at hq'
  cases hq'
  obtain ⟨hlt, hout, hlive⟩ := hJ.queue q hp
  refine ⟨hlt, hout, fun x hx hxq => ?_⟩
  obtain ⟨hmem, hnot⟩ := List.mem_filter.mp hx
  have hid := hlive x hmem hxq
  rw [hev] at hid
  cases hid
  simp [isEvent, hxq] at hnot

theorem jobInv_idle {s : Shared} {p : Job} (hq : p.holding = none) (hr : p.result = none) :
    JobInv s p := by
  constructor
  · intro q h
    rw [hq] at h
    cases h
  · intro r h
    rw [hr] at h
    cases h

/-- A job's own step, unless its poll fails. -/
theorem Moves.own {s sh : Shared} {p p' : Job} {a : Act} (h : Moves s p a sh p')
    (hI : PoolInv s) (hJ : JobInv s p) (hok : ∀ n, a ≠ .poll (.error n)) :
    PoolInv sh ∧ JobInv sh p' := by
  cases h with
  | noDeadline => exact ⟨hI, jobInv_idle rfl rfl⟩
  | none_free => exact ⟨hI, jobInv_idle rfl rfl⟩
  | not_created => exact ⟨hI, jobInv_idle rfl rfl⟩
  | reuse hq =>
      rename_i q rest
      have hin : q ∈ s.free := by simp [hq]
      have hnd := hq ▸ hI.nodup
      refine ⟨⟨(List.nodup_cons.mp hnd).2, fun q' h => hI.free_lt q' (by simp [hq, h]),
        fun x hx h => hI.free_empty x hx (by simp [hq, h]), hI.events_lt⟩, ?_, by simp [Job.result]⟩
      intro q' hq'
      cases hq'
      refine ⟨hI.free_lt q hin, (List.nodup_cons.mp hnd).1, fun x hx hxq => ?_⟩
      exact absurd (hxq ▸ hin) (hI.free_empty x hx)
  | created =>
      refine ⟨⟨hI.nodup, fun q h => Nat.lt_succ_of_lt (hI.free_lt q h), hI.free_empty,
        fun x h => Nat.lt_succ_of_lt (hI.events_lt x h)⟩, ?_, by simp [Job.result]⟩
      intro q hq
      cases hq
      refine ⟨Nat.lt_succ_self _, fun h => ?_, fun x hx hxq => ?_⟩
      · exact absurd (hI.free_lt _ h) (Nat.lt_irrefl _)
      · exact absurd (hxq ▸ hI.events_lt x hx) (Nat.lt_irrefl _)
  | inited => exact ⟨hI, hJ.within rfl rfl (by simp [Job.result])⟩
  | not_inited => exact ⟨hI, hJ.within rfl rfl (by simp [Job.result])⟩
  | refused => exact ⟨hI.giveBack hJ rfl rfl, jobInv_idle rfl rfl⟩
  | called => exact ⟨hI, by simp [Job.holding], by simp [Job.result, Own]⟩
  | submitted =>
      rename_i q
      obtain ⟨hlt, hout, hlive⟩ := hJ.queue q rfl
      refine ⟨⟨hI.nodup, hI.free_lt, fun x hx => ?_, fun x hx => ?_⟩, ?_, by simp [Job.result]⟩
      · rcases List.mem_cons.mp hx with rfl | hx
        · exact hout
        · exact hI.free_empty x hx
      · rcases List.mem_cons.mp hx with rfl | hx
        · exact hlt
        · exact hI.events_lt x hx
      · intro q' hq'
        cases hq'
        refine ⟨hlt, hout, fun x hx hxq => ?_⟩
        rcases List.mem_cons.mp hx with rfl | hx
        · rfl
        · cases hlive x hx hxq
  | not_submitted => exact ⟨hI, hJ.within rfl rfl (by simp [Job.result, Own])⟩
  | harvested hx hq he =>
      -- the only event on the queue is the job's own
      rename_i q ev e x rc
      have hid := (hJ.queue q rfl).2.2 x hx hq
      rw [he] at hid
      cases hid
      exact ⟨hI.filter _, hJ.emptied rfl rfl rfl (by simp [Job.result, Own])⟩
  | timedOut => exact ⟨hI, hJ.within rfl rfl (by simp [Job.result, Own])⟩
  | failed => exact absurd rfl (hok _)
  | removed hr => exact ⟨hI.filter _, hJ.emptied rfl rfl hr (fun r h => hJ.own r h)⟩
  | left h =>
      rename_i q aborted r
      refine ⟨hI, hJ.within rfl ?_ fun r h => hJ.own r h⟩
      rcases h with rfl | h
      · rfl
      · cases aborted with
        | false => rfl
        | true => exact h.symm
  | returned => exact ⟨hI.giveBack hJ rfl rfl, by simp [Job.holding], fun r h => hJ.own r h⟩

/-- Completing an event changes no queue. -/
theorem complete_inv {s : Shared} (c : ℕ × ℤ) (hI : PoolInv s) :
    let sh := { s with events := s.events.map fun x =>
      if x.id = c.1 ∧ x.result = none then { x with result := some c.2 } else x }
    PoolInv sh ∧ ∀ p, JobInv s p → JobInv sh p := by
  have hsame : ∀ y ∈ s.events.map (fun x =>
      if x.id = c.1 ∧ x.result = none then { x with result := some c.2 } else x),
      ∃ x ∈ s.events, x.eq = y.eq ∧ x.id = y.id := by
    intro y hy
    obtain ⟨x, hx, rfl⟩ := List.mem_map.mp hy
    refine ⟨x, hx, ?_⟩
    split <;> exact ⟨rfl, rfl⟩
  refine ⟨⟨hI.nodup, hI.free_lt, fun y hy => ?_, fun y hy => ?_⟩,
    fun p hJ => ⟨fun q hq => ?_, hJ.own⟩⟩
  · obtain ⟨x, hx, heq, -⟩ := hsame y hy
    exact heq ▸ hI.free_empty x hx
  · obtain ⟨x, hx, heq, -⟩ := hsame y hy
    exact heq ▸ hI.events_lt x hx
  · obtain ⟨hlt, hout, hlive⟩ := hJ.queue q hq
    refine ⟨hlt, hout, fun y hy hyq => ?_⟩
    obtain ⟨x, hx, heq, hid⟩ := hsame y hy
    rw [hlive x hx (heq.trans hyq), hid]

/-- The pool and every job, in every run in which no poll fails. -/
theorem inv_of_reachable {deadline : Bool} {s : St}
    (h : (threads deadline).machine.ReachableVia (fun _ a => ¬ PollFails a) s) :
    PoolInv s.shared ∧ ∀ p ∈ s.threads, JobInv s.shared p := by
  have hall := Threads.safety (T := threads deadline) (I := PoolInv) (J := JobInv) (E := Apart)
    (fun p q hpq x hx hy => hpq x hy hx) ?_ ?_ ?_ ?_ ?_ h
  · exact ⟨hall.1, hall.2.1⟩
  · rintro s rfl
    constructor <;> simp [emptyPool]
  · intro s c _ _ _
    exact ⟨jobInv_idle rfl rfl, fun q _ x hx => by cases hx⟩
  · intro s i a p sh p' hI hJ hok _ hst
    refine (step_moves hst).own hI hJ fun n hn => hok ?_
    rw [hn]
    trivial
  · intro s i a p sh p' q hI hJ hok _ hst _ hJq hE
    exact hJq.stable (step_moves hst) hE
  · intro s e sh hI _ hst
    cases hst
    exact complete_inv e hI

/-- In every run in which no poll fails, with a deadline or without: the event
that a job's poll returns is the one the job submitted, and so is the event
behind every result a job has come to. -/
theorem poll_harvests_own_event {deadline : Bool} {s : St}
    (h : (threads deadline).machine.ReachableVia (fun _ a => ¬ PollFails a) s) :
    (∀ (i q ev e : ℕ), s.threads[i]? = some (.polling q ev) →
      ((threads deadline).machine.step s (.act i (.poll (.event e)))).isSome = true → e = ev) ∧
    ∀ p ∈ s.threads, ∀ r, p.result = some r → Own r := by
  obtain ⟨hI, hJ⟩ := inv_of_reachable h
  refine ⟨fun i q ev e hi hst => ?_, fun p hp => (hJ p hp).own⟩
  obtain ⟨s', hs'⟩ := Option.isSome_iff_exists.mp hst
  obtain ⟨p, sh, p', hp, hstep, -⟩ := Threads.step_act_iff.mp hs'
  rw [hi] at hp
  cases hp
  have hjob : step deadline s.shared (.polling q ev) (.poll (.event e)) = some (sh, p') := hstep
  cases step_moves hjob with
  | harvested hx hq he =>
      have hlive := (hJ _ (List.mem_of_getElem? hi)).queue q rfl
      have hid := hlive.2.2 _ hx hq
      rw [he] at hid
      exact (Option.some.inj hid).symm

/-- A job that borrows, submits, is completed with `rc`, polls its own event
and gives the queue back. -/
def oneTransfer (i ev : ℕ) (rc : ℤ) : List Lbl :=
  [.act i (.eventInit true), .act i (.submit 0), .env (ev, rc), .act i (.poll (.event ev)),
    .act i .fini, .act i .giveBack]

/-- Two jobs use one queue after the other, the first one's transfer fails. -/
theorem reused_queue_gives_own_results :
    ∃ s, (threads true).machine.ReachableVia (fun _ a => ¬ PollFails a) s ∧
      s.shared.made = 1 ∧ s.threads = [.finished ⟨-1005, some 0, some 0⟩,
        .finished ⟨0, some 1, some 1⟩] ∧ ∀ p ∈ s.threads, ∀ r, p.result = some r → Own r := by
  have hrun : ∃ s, (threads true).machine.ReachableVia (fun _ a => ¬ PollFails a) s ∧
      s.shared.made = 1 ∧ s.threads = [.finished ⟨-1005, some 0, some 0⟩,
        .finished ⟨0, some 1, some 1⟩] :=
    Machine.ReachableVia.of_run (M := (threads true).machine) (initial_init true)
      ([.spawn (), .spawn (), .act 0 .borrow, .act 0 (.create true)] ++ oneTransfer 0 0 (-1005) ++
        [.act 1 .borrow] ++ oneTransfer 1 1 0) (by decide) _ (by decide)
  rcases hrun with ⟨s, hs, hmade, hthreads⟩
  exact ⟨s, hs, hmade, hthreads, (poll_harvests_own_event hs).2⟩

/-- The first job's poll fails and its event stays on the queue; the second
job borrows the queue, and its poll returns the first one's event. -/
theorem failed_poll_leaves_event_to_next_job :
    ∃ s, (threads true).machine.Reachable s ∧
      s.threads[1]? = some (.finished ⟨-1005, some 1, some 0⟩) ∧ ¬ Own ⟨-1005, some 1, some 0⟩ := by
  have hrun : ∃ s, (threads true).machine.Reachable s ∧
      s.threads[1]? = some (.finished ⟨-1005, some 1, some 0⟩) :=
    Machine.Reachable.of_run (M := (threads true).machine) (initial_init true)
      [.spawn (), .spawn (), .act 0 .borrow, .act 0 (.create true), .act 0 (.eventInit true),
        .act 0 (.submit 0), .act 0 (.poll (.error (-1))), .act 0 .fini, .act 0 .giveBack,
        .act 1 .borrow, .act 1 (.eventInit true), .act 1 (.submit 0), .env (0, -1005),
        .act 1 (.poll (.event 0)), .act 1 .fini, .act 1 .giveBack] _ (by decide)
  rcases hrun with ⟨s, hs, hthreads⟩
  exact ⟨s, hs, hthreads, fun h => by cases h 0 rfl⟩

end LmcacheDaos.Nixl.EventQueues
