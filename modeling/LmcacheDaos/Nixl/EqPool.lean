import Mathlib.Algebra.Order.BigOperators.Group.List
import Mathlib.Algebra.Order.Group.Nat
import Mathlib.Data.List.Nodup
import Mathlib.Data.List.Perm.Lattice
import Mathlib.Tactic.Common
import LmcacheDaos.Lib.Machine
import LmcacheDaos.Nixl.EventQueues

/-!
# The borrow pool of event queues

`nixlDaosEqPool` (`daos_backend.cpp`), step by step: `borrow` looks into `free_`
under the mutex, creates a queue outside it when there was none, and records
what it created in `all_` under the mutex again; `giveBack` puts a queue into
`free_`. Any number of workers borrow, give back what they have and borrow again,
with any steps of the others in between.

Of `daos_eq_create` only this is used: it fails, or returns the handle of a queue
that is none of those made before, as long as none is destroyed.

* A queue is held by one worker at most, and a recorded one is with one worker or
  in `free_`, once (`Sound`).
* As many queues as were ever made, as many workers were at some moment between
  entering `borrow` and leaving `giveBack`: a worker creates only after it saw
  `free_` empty, when every queue was with a worker, and so was every other
  creation (`pool_sound`).
* The jobs of `postXfer` are such workers (`jobs_borrow`).
-/

namespace LmcacheDaos.Nixl.EqPool

open Lib

variable {η : Type} [DecidableEq η]

structure Pool (η : Type) where
  /-- `free_`, its back first -/
  free : List η
  /-- `all_` -/
  all : List η
  /-- what `daos_eq_create` has made, the last first -/
  made : List η
deriving DecidableEq, Repr

/-- Where a worker is. -/
inductive Worker (η : Type) where
  | outside
  /-- in `borrow`, before the mutex -/
  | entered
  /-- `free_` was empty: in `daos_eq_create` -/
  | creating
  /-- has a queue that is not in `all_` yet -/
  | created (h : η)
  /-- `borrow` has returned a queue -/
  | holding (h : η)
  /-- in `giveBack`, before the mutex -/
  | returning (h : η)
deriving DecidableEq, Repr

inductive Act (η : Type) where
  /-- `borrow` is called -/
  | enter
  /-- the first critical section of `borrow` -/
  | look
  /-- `daos_eq_create` returns, with a queue or an error -/
  | create (r : Option η)
  /-- the second critical section of `borrow` -/
  | record
  /-- `giveBack` is called -/
  | giveBack
  /-- the critical section of `giveBack` -/
  | push
deriving DecidableEq, Repr

def step (s : Pool η) : Worker η → Act η → Option (Pool η × Worker η)
  | .outside, .enter => some (s, .entered)
  | .entered, .look => match s.free with
      | h :: rest => some ({ s with free := rest }, .holding h)
      | [] => some (s, .creating)
  | .creating, .create none => some (s, .outside)
  | .creating, .create (some h) =>
      if h ∈ s.made then none else some ({ s with made := h :: s.made }, .created h)
  | .created h, .record => some ({ s with all := s.all ++ [h] }, .holding h)
  | .holding h, .giveBack => some (s, .returning h)
  | .returning h, .push => some ({ s with free := h :: s.free }, .outside)
  | _, _ => none

/-- Any number of workers. -/
def threads (η : Type) [DecidableEq η] : Threads (Pool η) (Worker η) Unit (Act η) Empty where
  Init s := s = ⟨[], [], []⟩
  entry _ := .outside
  step := step
  envStep _ e := nomatch e

abbrev St (η : Type) := ThreadState (Pool η) (Worker η)

abbrev Lbl (η : Type) := ThreadLbl Unit (Act η) Empty

abbrev machine (η : Type) [DecidableEq η] : Machine (St η) (Lbl η) := (threads η).machine

def initial : St η := ⟨⟨[], [], []⟩, []⟩

/-- The queue in a worker's hands. -/
def Worker.held : Worker η → Option η
  | .created h | .holding h | .returning h => some h
  | _ => none

/-- ... when it is recorded. -/
def Worker.recorded : Worker η → Option η
  | .holding h | .returning h => some h
  | _ => none

/-- ... when it is not. -/
def Worker.unrecorded : Worker η → Option η
  | .created h => some h
  | _ => none

/-- Between entering `borrow` and leaving `giveBack`, or a `borrow` that failed. -/
def Worker.inFlight : Worker η → ℕ
  | .outside => 0
  | _ => 1

def Worker.creator : Worker η → ℕ
  | .creating => 1
  | _ => 0

def inFlight (s : St η) : ℕ := (s.threads.map Worker.inFlight).sum

def creators (s : St η) : ℕ := (s.threads.map Worker.creator).sum

/-! ## Where the queues are -/

/-- A queue that was made is free or with a worker, and recorded unless its maker
still has to. -/
structure Inv (s : St η) : Prop where
  nodup : s.shared.made.Nodup
  made : s.shared.made.Perm (s.shared.free ++ s.threads.filterMap Worker.held)
  all : s.shared.made.Perm (s.shared.all ++ s.threads.filterMap Worker.unrecorded)

section Steps

variable {s s' : St η} {a : Lbl η}

/-- What a step does to a worker and the pool, case by case. -/
inductive Moves (s : Pool η) : Worker η → Act η → Pool η → Worker η → Prop where
  | entered : Moves s .outside .enter s .entered
  | found {h : η} {rest : List η} (hfree : s.free = h :: rest) :
      Moves s .entered .look { s with free := rest } (.holding h)
  | missed (hfree : s.free = []) : Moves s .entered .look s .creating
  | failed : Moves s .creating (.create none) s .outside
  | created {h : η} (hnew : h ∉ s.made) :
      Moves s .creating (.create (some h)) { s with made := h :: s.made } (.created h)
  | recorded {h : η} : Moves s (.created h) .record { s with all := s.all ++ [h] } (.holding h)
  | leaving {h : η} : Moves s (.holding h) .giveBack s (.returning h)
  | pushed {h : η} : Moves s (.returning h) .push { s with free := h :: s.free } .outside

theorem step_moves {s sh : Pool η} {p p' : Worker η} {a : Act η}
    (hst : step s p a = some (sh, p')) : Moves s p a sh p' := by
  -- the worker's state allows one kind of step each
  cases p <;> cases a <;> simp only [step, reduceCtorEq] at hst
  case outside.enter =>
      cases hst
      exact .entered
  -- a free handle, or none: then the worker creates one
  case entered.look =>
      split at hst
      · rename_i h rest hfree
        cases hst
        exact .found hfree
      · rename_i hfree
        cases hst
        exact .missed hfree
  -- the creation may fail; else its handle is a new one
  case creating.create r =>
      cases r with
      | none =>
          cases hst
          exact .failed
      | some h =>
          simp only at hst
          split at hst
          · cases hst
          · rename_i hnew
            cases hst
            exact .created hnew
  case created.record h =>
      cases hst
      exact .recorded
  case holding.giveBack h =>
      cases hst
      exact .leaving
  case returning.push h =>
      cases hst
      exact .pushed

/-- A step of the machine is a new worker or a move of one. -/
theorem machine_step (hst : (machine η).step s a = some s') :
    (s'.shared = s.shared ∧ s'.threads = s.threads ++ [.outside]) ∨
      ∃ i act p p', s.threads[i]? = some p ∧ Moves s.shared p act s'.shared p' ∧
        s'.threads = s.threads.set i p' := by
  cases a with
  | spawn c =>
      cases hst
      exact .inl ⟨rfl, rfl⟩
  | act i act =>
      rcases Threads.step_act_iff.mp hst with ⟨p, sh, p', hp, hstep, rfl⟩
      exact .inr ⟨i, act, p, p', hp, step_moves hstep, rfl⟩
  | env e => exact e.elim

section Moves

variable {p₀ p₁ : Pool η} {w w' : Worker η} {act : Act η}

omit [DecidableEq η] in
theorem Moves.nodup (hm : Moves p₀ w act p₁ w') (h : p₀.made.Nodup) : p₁.made.Nodup := by
  cases hm
  case created hnew => exact List.nodup_cons.mpr ⟨hnew, h⟩
  all_goals exact h

/-- What comes out of `free_` or is made goes to the worker. -/
theorem Moves.held (hm : Moves p₀ w act p₁ w') (y : η) :
    p₁.made.count y + p₀.free.count y + w.held.toList.count y =
      p₀.made.count y + p₁.free.count y + w'.held.toList.count y := by
  cases hm <;> simp only [Worker.held, Option.toList_none, Option.toList_some, List.count_cons,
    List.count_nil, *] <;> omega

/-- What is made is recorded by its maker. -/
theorem Moves.unrecorded (hm : Moves p₀ w act p₁ w') (y : η) :
    p₁.made.count y + p₀.all.count y + w.unrecorded.toList.count y =
      p₀.made.count y + p₁.all.count y + w'.unrecorded.toList.count y := by
  cases hm <;> simp only [Worker.unrecorded, Option.toList_none, Option.toList_some,
    List.count_append, List.count_cons, List.count_nil] <;> omega

end Moves

theorem Inv.step (h : Inv s) (hst : (machine η).step s a = some s') : Inv s' := by
  -- a new worker, which holds nothing
  rcases machine_step hst with ⟨hsh, hth⟩ | ⟨i, act, w, w', hw, hm, hth⟩
  · have hnil : ∀ f : Worker η → Option η, f .outside = none →
        s'.threads.filterMap f = s.threads.filterMap f := by
      intro f hf
      rw [hth, List.filterMap_append, filterMap_cons_eq, hf]
      simp
    refine ⟨?_, ?_, ?_⟩
    · rw [hsh]
      exact h.nodup
    · rw [hsh, hnil Worker.held rfl]
      exact h.made
    · rw [hsh, hnil Worker.unrecorded rfl]
      exact h.all
  · -- or a step of one worker: handles move between the list and that worker
    refine ⟨hm.nodup h.nodup, List.perm_iff_count.mpr fun y => ?_,
      List.perm_iff_count.mpr fun y => ?_⟩
    · -- free and held together are those made
      have hset := (perm_filterMap_set Worker.held w' hw).count_eq y
      have hmade := h.made.count_eq y
      have hmove := hm.held y
      rw [hth]
      simp only [List.count_append] at hset hmade ⊢
      omega
    · -- and with those not yet recorded, those in `all`
      have hset := (perm_filterMap_set Worker.unrecorded w' hw).count_eq y
      have hall := h.all.count_eq y
      have hmove := hm.unrecorded y
      rw [hth]
      simp only [List.count_append] at hset hall ⊢
      omega

end Steps

/-! ## Runs -/

/-- Worker `i` has the queue. -/
def Holds (s : St η) (i : ℕ) (h : η) : Prop := ∃ w, s.threads[i]? = some w ∧ w.held = some h

/-- No queue is lent twice, and a recorded one is free once or lent. -/
structure Sound (s : St η) : Prop where
  apart : ∀ i j h, Holds s i h → Holds s j h → i = j
  nodup : s.shared.all.Nodup
  placed : ∀ h ∈ s.shared.all,
    (s.shared.free.count h = 1 ∧ ∀ i, ¬ Holds s i h) ∨ (h ∉ s.shared.free ∧ ∃! i, Holds s i h)

section Runs

variable {s s' : St η} {as : List (Lbl η)}

omit [DecidableEq η] in
theorem exists_holds_iff {h : η} : (∃ i, Holds s i h) ↔ h ∈ s.threads.filterMap Worker.held := by
  rw [List.mem_filterMap]
  constructor
  · rintro ⟨i, w, hw, hheld⟩
    exact ⟨w, List.mem_of_getElem? hw, hheld⟩
  · rintro ⟨w, hw, hheld⟩
    rcases List.mem_iff_getElem?.mp hw with ⟨i, hi⟩
    exact ⟨i, w, hi, hheld⟩

theorem Inv.sound (h : Inv s) : Sound s := by
  have hplaced : (s.shared.free ++ s.threads.filterMap Worker.held).Nodup :=
    h.made.nodup_iff.mp h.nodup
  -- what is lent out is lent once
  have hlent : (s.threads.filterMap Worker.held).Nodup := (List.nodup_append.mp hplaced).2.1
  have hapart : ∀ i j y, Holds s i y → Holds s j y → i = j := by
    rintro i j y ⟨w, hw, hheld⟩ ⟨w', hw', hheld'⟩
    exact index_unique hlent hw hw' hheld hheld'
  constructor
  case apart => exact hapart
  case nodup => exact (List.nodup_append.mp (h.all.nodup_iff.mp h.nodup)).1
  case placed =>
    intro y hy
    -- a handle of the pool was made once
    have hmade : s.shared.made.count y = 1 := by
      refine List.count_eq_one_of_mem h.nodup ?_
      exact h.all.mem_iff.mpr (List.mem_append_left _ hy)
    have hcount := h.made.count_eq y
    rw [hmade, List.count_append] at hcount
    -- either somebody holds it, and then it is not free
    by_cases hmem : y ∈ s.threads.filterMap Worker.held
    · right
      have hpos := List.count_pos_iff.mpr hmem
      rcases exists_holds_iff.mpr hmem with ⟨i, hi⟩
      refine ⟨?_, i, hi, fun j hj => hapart j i y hj hi⟩
      rw [← List.count_eq_zero]
      omega
    · -- or nobody does, and then it is free once
      left
      rw [List.count_eq_zero.mpr hmem] at hcount
      exact ⟨by omega, fun i hi => hmem (exists_holds_iff.mp ⟨i, hi⟩)⟩

omit [DecidableEq η] in
/-- A worker with a queue, or creating one, is in flight. -/
theorem held_add_creators_le (s : St η) :
    (s.threads.filterMap Worker.held).length + creators s ≤ inFlight s := by
  unfold creators inFlight
  induction s.threads with
  | nil => exact Nat.le_refl 0
  | cons w ws ih =>
      rw [filterMap_cons_eq, List.length_append, List.map_cons, List.map_cons, List.sum_cons,
        List.sum_cons]
      cases w <;> simp only [Worker.held, Worker.creator, Worker.inFlight, Option.toList_none,
        Option.toList_some, List.length_nil, List.length_singleton] <;> omega

omit [DecidableEq η] in
/-- Only a worker that sees `free_` empty adds to the queues that are made or will
be. -/
theorem Moves.creator {p₀ p₁ : Pool η} {w w' : Worker η} {act : Act η}
    (hm : Moves p₀ w act p₁ w') :
    p₁.made.length + w'.creator ≤ p₀.made.length + w.creator ∨ (p₁ = p₀ ∧ p₀.free = []) := by
  cases hm
  case missed hfree => exact .inr ⟨rfl, hfree⟩
  case created hnew => exact .inl (by simp [Worker.creator])
  all_goals exact .inl (by simp [Worker.creator])

/-- At the time some worker was last to see `free_` empty, there were as many in
flight as there are queues and creations. -/
theorem made_le (hrun : (machine η).run initial as = some s) :
    Inv s ∧ ∃ t, (machine η).Visits initial as t ∧
      s.shared.made.length + creators s ≤ inFlight t := by
  have hinit : Inv (initial : St η) := by
    constructor <;> simp [initial]
  refine Machine.run_induction_all (M := machine η)
    (fun as s => Inv s ∧ ∃ t, (machine η).Visits initial as t ∧
      s.shared.made.length + creators s ≤ inFlight t)
    ⟨hinit, initial, Machine.visits_last rfl, by simp [initial, creators]⟩ ?_ hrun
  rintro as s a s' ⟨hinv, t, hvisit, hle⟩ hrun hst
  have hinv' := hinv.step hst
  refine ⟨hinv', ?_⟩
  rcases machine_step hst with ⟨hsh, hth⟩ | ⟨i, act, w, w', hw, hm, hth⟩
  · refine ⟨t, hvisit.concat a, ?_⟩
    have hsame : creators s' = creators s := by
      simp [creators, hth, Worker.creator]
    rw [hsh, hsame]
    exact hle
  · have hset := sum_map_set (f := Worker.creator) (g := Worker.creator) (b := w') hw
      fun _ _ _ _ => rfl
    rw [← hth] at hset
    change creators s' + _ = creators s + _ at hset
    rcases hm.creator with hle' | ⟨hsame, hfree⟩
    · exact ⟨t, hvisit.concat a, by omega⟩
    · -- every queue is with a worker now
      have hlen := hinv'.made.length_eq
      rw [hsame, hfree, List.nil_append] at hlen
      have hflight := held_add_creators_le s'
      refine ⟨s', Machine.visits_last ?_, ?_⟩
      · rw [Machine.run_concat, hrun]
        exact hst
      · rw [hsame, hlen]
        exact hflight

/-- Queues are lent once, and there are no more of them than there were workers in
flight at some moment of the run. -/
theorem pool_sound (hrun : (machine η).run initial as = some s) :
    Sound s ∧ ∃ t, (machine η).Visits initial as t ∧ s.shared.made.length ≤ inFlight t := by
  rcases made_le hrun with ⟨hinv, t, hvisit, hle⟩
  exact ⟨hinv.sound, t, hvisit, by omega⟩

end Runs

/-- The second worker creates although the first gives its queue back meanwhile. -/
def lateCreation : List (Lbl ℕ) :=
  [.spawn (), .spawn (), .act 0 .enter, .act 0 .look, .act 0 (.create (some 5)), .act 0 .record,
    .act 1 .enter, .act 1 .look, .act 0 .giveBack, .act 0 .push, .act 1 (.create (some 6)),
    .act 1 .record]

theorem lateCreation_sound : ∃ s, (machine ℕ).run initial lateCreation = some s ∧
    s.shared.made = [6, 5] ∧ Sound s ∧
      ∃ t, (machine ℕ).Visits initial lateCreation t ∧ s.shared.made.length ≤ inFlight t := by
  have hrun : ((machine ℕ).run initial lateCreation).map (fun s => s.shared.made) =
      some [6, 5] := by
    decide
  rcases Option.map_eq_some_iff.mp hrun with ⟨s, hs, hmade⟩
  exact ⟨s, hs, hmade, pool_sound hs⟩

/-! ## The jobs of `postXfer` -/

section Jobs

/-- What a job is to the pool. -/
def worker : EventQueues.Job → Worker ℕ
  | .queued | .blocking | .finished _ => .outside
  | .creating => .creating
  | .borrowed q | .refused q | .ready q | .polling q _ | .tidying q _ _ | .returning q _ =>
      .holding q

/-- The pool under the jobs, whose queues are numbered as they are made. -/
def pool (s : EventQueues.St) : St ℕ where
  shared := ⟨s.shared.free, List.range s.shared.made, (List.range s.shared.made).reverse⟩
  threads := s.threads.map worker

/-- A step of a job, as steps of the pool. -/
def borrowing (deadline : Bool) (s : EventQueues.St) : EventQueues.Lbl → List (Lbl ℕ)
  | .spawn _ => [.spawn ()]
  | .act i .borrow => if deadline then [.act i .enter, .act i .look] else []
  | .act i (.create true) => [.act i (.create (some s.shared.made)), .act i .record]
  | .act i (.create false) => [.act i (.create none)]
  | .act i .giveBack => [.act i .giveBack, .act i .push]
  | _ => []

/-- A worker's step. -/
theorem run_one {ts : List (Worker ℕ)} {sh sh₁ : Pool ℕ} {i : ℕ} {w w₁ : Worker ℕ} {a : Act ℕ}
    (hw : ts[i]? = some w) (h₁ : step sh w a = some (sh₁, w₁)) :
    (machine ℕ).run ⟨sh, ts⟩ [.act i a] = some ⟨sh₁, ts.set i w₁⟩ := by
  rw [Machine.run_singleton]
  exact Threads.step_act_iff.mpr ⟨w, sh₁, w₁, hw, h₁, rfl⟩

/-- Two in a row. -/
theorem run_two {ts : List (Worker ℕ)} {sh sh₁ sh₂ : Pool ℕ} {i : ℕ} {w w₁ w₂ : Worker ℕ}
    {a b : Act ℕ} (hw : ts[i]? = some w) (h₁ : step sh w a = some (sh₁, w₁))
    (h₂ : step sh₁ w₁ b = some (sh₂, w₂)) :
    (machine ℕ).run ⟨sh, ts⟩ [.act i a, .act i b] = some ⟨sh₂, ts.set i w₂⟩ := by
  have hlt := (List.getElem?_eq_some_iff.mp hw).1
  have hw₁ : (ts.set i w₁)[i]? = some w₁ := List.getElem?_set_self hlt
  have hsecond := run_one hw₁ h₂
  rw [List.set_set] at hsecond
  rw [show [ThreadLbl.act i a, .act i b] = [.act i a] ++ [.act i b] from rfl, Machine.run_append,
    run_one hw h₁]
  exact hsecond

theorem worker_get {s : EventQueues.St} {i : ℕ} {p : EventQueues.Job}
    (hp : s.threads[i]? = some p) : (s.threads.map worker)[i]? = some (worker p) := by
  rw [List.getElem?_map, hp]
  rfl

/-- A step that is none of the pool's. -/
theorem pool_same {s : EventQueues.St} {sh : EventQueues.Shared} {i : ℕ} {p p' : EventQueues.Job}
    (hp : s.threads[i]? = some p) (hfree : sh.free = s.shared.free)
    (hmade : sh.made = s.shared.made) (hw : worker p' = worker p) :
    pool ⟨sh, s.threads.set i p'⟩ = pool s := by
  have hself : (s.threads.map worker).set i (worker p) = s.threads.map worker := by
    refine List.ext_getElem? fun j => ?_
    by_cases hij : i = j
    · rw [← hij, List.getElem?_set_self', worker_get hp]
      rfl
    · rw [List.getElem?_set_ne hij]
  simp only [pool, hfree, hmade, List.map_set, hw, hself]

theorem range_reverse_succ (n : ℕ) :
    (List.range (n + 1)).reverse = n :: (List.range n).reverse := by
  rw [List.range_succ, List.reverse_append]
  rfl

/-- `daos_eq_create` returns a new queue, which the job records. -/
theorem create_record (sh : EventQueues.Shared) {ts : List (Worker ℕ)} {i : ℕ}
    (hw : ts[i]? = some .creating) :
    (machine ℕ).run ⟨⟨sh.free, List.range sh.made, (List.range sh.made).reverse⟩, ts⟩
        [.act i (.create (some sh.made)), .act i .record] =
      some ⟨⟨sh.free, List.range (sh.made + 1), (List.range (sh.made + 1)).reverse⟩,
        ts.set i (.holding sh.made)⟩ := by
  rw [range_reverse_succ, List.range_succ]
  exact run_two hw (if_neg (by simp)) rfl

/-- The pool's part of a job's step. -/
theorem job_borrowing {deadline : Bool} {s : EventQueues.St} {sh : EventQueues.Shared} {i : ℕ}
    {p p' : EventQueues.Job} {a : EventQueues.Act} (hp : s.threads[i]? = some p)
    (hstep : EventQueues.step deadline s.shared p a = some (sh, p')) :
    (machine ℕ).run (pool s) (borrowing deadline s (.act i a)) =
      some (pool ⟨sh, s.threads.set i p'⟩) := by
  have hw := worker_get hp
  -- steps of the job that touch no queue are no step of the pool
  have hsame : ∀ {sh₁ : EventQueues.Shared} {p₁ : EventQueues.Job},
      sh₁.free = s.shared.free → sh₁.made = s.shared.made → worker p₁ = worker p →
        (machine ℕ).run (pool s) [] = some (pool ⟨sh₁, s.threads.set i p₁⟩) :=
    fun hfree hmade hwork => congrArg some (pool_same hp hfree hmade hwork).symm
  cases p <;> cases a <;> simp only [EventQueues.step, reduceCtorEq] at hstep
  case queued.borrow =>
      -- without a deadline the job borrows no queue
      cases deadline with
      | false =>
          cases hstep
          exact hsame rfl rfl rfl
      | true =>
          simp only [Bool.not_true, Bool.false_eq_true, if_false] at hstep
          -- `borrow`: entering and looking are one step of the job
          split at hstep
          · rename_i q rest hfree
            cases hstep
            simp only [borrowing, if_true, pool, hfree, List.map_set]
            exact run_two hw rfl rfl
          · rename_i hfree
            cases hstep
            simp only [borrowing, if_true, pool, hfree, List.map_set]
            exact run_two hw rfl rfl
  case creating.create ok =>
      -- the creation fails, or creates and records in one step
      cases ok with
      | false =>
          cases hstep
          simp only [borrowing, pool, List.map_set]
          exact run_one hw rfl
      | true =>
          cases hstep
          simp only [borrowing, pool, List.map_set]
          exact create_record s.shared hw
  case borrowed.eventInit q ok =>
      cases hstep
      cases ok <;> exact hsame rfl rfl rfl
  -- giving back: leaving and pushing are one step of the job
  case refused.giveBack q =>
      cases hstep
      simp only [borrowing, pool, List.map_set]
      exact run_two hw rfl rfl
  case blocking.call rc =>
      cases hstep
      exact hsame rfl rfl rfl
  case ready.submit q rc =>
      split at hstep <;> cases hstep <;> exact hsame rfl rfl rfl
  case polling.poll q ev answer =>
      cases answer with
      | event e =>
          simp only at hstep
          split at hstep
          · cases hstep
            exact hsame rfl rfl rfl
          · cases hstep
      | timeout =>
          cases hstep
          exact hsame rfl rfl rfl
      | error n =>
          simp only at hstep
          split at hstep
          · cases hstep
            exact hsame rfl rfl rfl
          · cases hstep
  case tidying.fini q aborted r =>
      cases hstep
      exact hsame rfl rfl rfl
  case returning.giveBack q r =>
      cases hstep
      simp only [borrowing, pool, List.map_set]
      exact run_two hw rfl rfl

theorem step_borrowing {deadline : Bool} (s : EventQueues.St) (a : EventQueues.Lbl)
    (s' : EventQueues.St) (hst : (EventQueues.threads deadline).machine.step s a = some s') :
    (machine ℕ).run (pool s) (borrowing deadline s a) = some (pool s') := by
  cases a with
  | spawn c =>
      cases hst
      simp [borrowing, Machine.run, pool, Threads.machine, threads, EventQueues.threads, worker]
  | env e =>
      rcases Threads.step_env_iff.mp hst with ⟨sh, hstep, rfl⟩
      cases hstep
      rfl
  | act i a =>
      rcases Threads.step_act_iff.mp hst with ⟨p, sh, p', hp, hstep, rfl⟩
      exact job_borrowing hp hstep

/-- A run of the jobs is a run of the pool, so their queues are lent once as well. -/
theorem jobs_borrow {deadline : Bool} {s : EventQueues.St} {as : List EventQueues.Lbl}
    (hrun : (EventQueues.threads deadline).machine.run EventQueues.initial as = some s) :
    (machine ℕ).run initial
        (Machine.seen (EventQueues.threads deadline).machine (borrowing deadline)
          EventQueues.initial as) = some (pool s) ∧ Sound (pool s) := by
  have hseen := Machine.run_seen (fun _ _ _ h _ => h)
    (fun s a s' (_ : True) hst => step_borrowing s a s' hst) trivial hrun
  exact ⟨hseen, (pool_sound hseen).1⟩

end Jobs

end LmcacheDaos.Nixl.EqPool
