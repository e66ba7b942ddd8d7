import Mathlib.Data.List.Nodup
import LmcacheDaos.Lib.Machine

/-!
# The early prefetch status and its janitor

`_query` and `_janitor` (`mp/streaming_patch.py`). `_query` answers a prefetch status as
soon as the controller knows the lookup's hits: with a bitmap of the leading hits, the
real result still to come. It leaves the request in `_drain`, and the janitor polls the
requests found there until it has popped their results. A status asked for before the
lookup is known goes to the unpatched query, which pops the result if it is in.

The controller is LMCache's: it may say anything about a lookup at any time, finishes a
request once, and hands out its result once. Calls of `_query` overlap each other and the
janitor.

Results:

* a result is handed out once, to the caller of a late query or to the janitor, and a
  request that was answered early and has finished is popped by the end of the next round
  in which no poll raises (`early_results_popped`);
* while every request is queried by one caller at a time that stops at an answer, the
  janitor does not go on polling for a result that is gone (`janitor_polls_live_requests`).
-/

namespace LmcacheDaos.Mp.EarlyStatus

open Lib

/-- What the controller has of a request. -/
inductive Result where
  | running
  | finished (bits : List Bool)
  | popped
deriving DecidableEq, Repr

structure Request where
  /-- `len(handle.l2_orig_indices)` -/
  nL2 : ℕ
  /-- `query_lookup_result` -/
  hits : Option ℕ
  result : Result
deriving DecidableEq, Repr

/-- A call of `_query`. -/
inductive Query where
  /-- the lookup is known: about to add the request to `_drain` -/
  | adding (hits : ℕ)
  /-- it is not: about to call the unpatched query -/
  | asking
  /-- answered with the leading hits -/
  | early (bits : List Bool)
  /-- answered with the real result -/
  | late (bits : List Bool)
  /-- answered `None` -/
  | nothing
deriving DecidableEq, Repr

/-- Where the janitor is. -/
inductive Janitor where
  | asleep
  /-- these are still to be polled -/
  | round (rids : List ℕ)
  /-- it has popped `rid` and is about to discard it -/
  | discarding (rid : ℕ) (rids : List ℕ)
deriving DecidableEq, Repr

structure St where
  /-- by request id -/
  requests : List Request
  /-- with the request each is about -/
  queries : List (ℕ × Query)
  /-- `_drain` -/
  drain : List ℕ
  janitor : Janitor
  /-- whose results the janitor has popped (not kept by the code) -/
  dropped : List ℕ
deriving DecidableEq, Repr

def initial : St := ⟨[], [], [], .asleep, []⟩

inductive Lbl where
  /-- a prefetch request for `n` keys -/
  | submit (n : ℕ)
  /-- the controller changes what it says of the lookup -/
  | lookup (rid : ℕ) (hits : Option ℕ)
  | finish (rid : ℕ) (bits : List Bool)
  /-- `_query` up to its answer to `hits is None` -/
  | query (rid : ℕ)
  /-- the rest of query number `i` -/
  | answer (i : ℕ)
  /-- `rids = list(_drain)`, in the order of a set -/
  | snapshot (rids : List ℕ)
  /-- the janitor polls the next request, which may raise -/
  | poll (raises : Bool)
  | discard
  /-- the end of the janitor's round -/
  | rest
deriving DecidableEq, Repr

/-- `bm.set(i)` for `i in range(min(hits, n_l2))`. -/
def leading (hits n : ℕ) : List Bool := (List.range n).map fun i => decide (i < min hits n)

/-- `query_prefetch_result` pops the result of a finished request. -/
def pop (s : St) (rid : ℕ) : Option (List Bool × St) := match s.requests[rid]? with
  | some ⟨n, hits, .finished bits⟩ =>
      some (bits, { s with requests := s.requests.set rid ⟨n, hits, .popped⟩ })
  | _ => none

/-- A query up to its answer to `hits is None`. -/
def Request.begun (q : Request) : Query := match q.hits with
  | some hits => .adding hits
  | none => .asking

def step (s : St) : Lbl → Option St
  | .submit n => some { s with requests := s.requests ++ [⟨n, none, .running⟩] }
  | .lookup rid hits => (s.requests[rid]?).map fun q =>
      { s with requests := s.requests.set rid { q with hits := hits } }
  | .finish rid bits => match s.requests[rid]? with
      | some ⟨n, hits, .running⟩ =>
          some { s with requests := s.requests.set rid ⟨n, hits, .finished bits⟩ }
      | _ => none
  | .query rid => (s.requests[rid]?).map fun q =>
      { s with queries := s.queries ++ [(rid, q.begun)] }
  | .answer i => match s.queries[i]? with
      | some (rid, .adding hits) => (s.requests[rid]?).map fun q =>
          { s with
            drain := s.drain.insert rid
            queries := s.queries.set i (rid, .early (leading hits q.nL2)) }
      | some (rid, .asking) => match pop s rid with
          | some (bits, s') => some { s' with queries := s.queries.set i (rid, .late bits) }
          | none => some { s with queries := s.queries.set i (rid, .nothing) }
      | _ => none
  | .snapshot rids =>
      if s.janitor = .asleep ∧ rids.isPerm s.drain then some { s with janitor := .round rids }
      else none
  | .poll raises => match s.janitor with
      | .round (rid :: rids) =>
          if raises then some { s with janitor := .round rids }
          else match pop s rid with
            | some (_, s') =>
                some { s' with janitor := .discarding rid rids, dropped := rid :: s.dropped }
            | none => some { s with janitor := .round rids }
      | _ => none
  | .discard => match s.janitor with
      | .discarding rid rids => some { s with drain := s.drain.erase rid, janitor := .round rids }
      | _ => none
  | .rest => if s.janitor = .round [] then some { s with janitor := .asleep } else none

def machine : Machine St Lbl where
  Init s := s = initial
  step := step

/-! ## The results -/

/-- What the controller has of a request. -/
def resultAt (requests : List Request) (rid : ℕ) : Option Result :=
  (requests[rid]?).map Request.result

/-- The request's result has been handed out. -/
def Popped (s : St) (rid : ℕ) : Prop := resultAt s.requests rid = some .popped

/-- The request is over, whether popped or not. -/
def Over (s : St) (rid : ℕ) : Prop := ∃ r, resultAt s.requests rid = some r ∧ r ≠ .running

instance (s : St) (rid : ℕ) : Decidable (Popped s rid) := inferInstanceAs (Decidable (_ = _))

theorem resultAt_set {requests : List Request} {rid : ℕ} {q : Request}
    (h : requests[rid]? = some q) (q' : Request) (r : ℕ) :
    resultAt (requests.set rid q') r = if r = rid then some q'.result else resultAt requests r := by
  obtain ⟨hlt, -⟩ := List.getElem?_eq_some_iff.mp h
  unfold resultAt
  by_cases hr : r = rid
  · rw [if_pos hr, hr, List.getElem?_set_self hlt]
    rfl
  · rw [if_neg hr, List.getElem?_set_ne (Ne.symm hr)]

theorem resultAt_concat (requests : List Request) (q : Request) (r : ℕ) :
    resultAt (requests ++ [q]) r =
      if r = requests.length then some q.result else resultAt requests r := by
  unfold resultAt
  rcases Nat.lt_trichotomy r requests.length with hlt | rfl | hgt
  · rw [if_neg (by omega), List.getElem?_append_left hlt]
  · rw [if_pos rfl, List.getElem?_concat_length]
    rfl
  · rw [if_neg (by omega), List.getElem?_eq_none (by simp; omega), List.getElem?_eq_none (by omega)]

/-- What popping a result comes to. -/
theorem pop_eq_some {s s' : St} {rid : ℕ} {bits : List Bool} (h : pop s rid = some (bits, s')) :
    (∃ requests, s' = { s with requests := requests }) ∧
      resultAt s.requests rid = some (.finished bits) ∧
      ∀ r, resultAt s'.requests r = if r = rid then some .popped else resultAt s.requests r := by
  unfold pop at h
  split at h
  · rename_i n hits bits' hq
    cases h
    exact ⟨⟨_, rfl⟩, by rw [resultAt, hq]; rfl, resultAt_set hq _⟩
  · cases h

/-- A request whose result is not handed out has none to hand out. -/
theorem pop_eq_none {s : St} {rid : ℕ} (h : pop s rid = none) (bits : List Bool) :
    resultAt s.requests rid ≠ some (.finished bits) := by
  intro hfin
  obtain ⟨⟨n, hits, result⟩, hq, hr⟩ := Option.map_eq_some_iff.mp hfin
  have hr : result = .finished bits := hr
  simp [pop, hq, hr] at h

/-! ## What a step does -/

/-- The requests of the round still to be polled. -/
def Janitor.todo : Janitor → List ℕ
  | .asleep => []
  | .round rids | .discarding _ rids => rids

def earlyOf (rid : ℕ) : ℕ × Query → Bool
  | (r, .early _) => r == rid
  | _ => false

def lateOf (rid : ℕ) : ℕ × Query → Bool
  | (r, .late _) => r == rid
  | _ => false

theorem not_answered_begun (q : Request) (r rid : ℕ) :
    lateOf r (rid, q.begun) = false ∧ earlyOf r (rid, q.begun) = false := by
  unfold Request.begun
  cases q.hits <;> exact ⟨rfl, rfl⟩

/-- Some query about the request was answered early. -/
def Early (s : St) (rid : ℕ) : Prop := ∃ q ∈ s.queries, earlyOf rid q = true

/-- How often the request's result was handed out. -/
def handed (s : St) (rid : ℕ) : ℕ := s.queries.countP (lateOf rid) + s.dropped.count rid

/-- A query that ends with `q` has the request of before. -/
theorem early_set {queries : List (ℕ × Query)} {i rid : ℕ} {q : ℕ × Query}
    (h : ∃ x ∈ queries.set i q, earlyOf rid x = true) :
    (∃ x ∈ queries, earlyOf rid x = true) ∨ earlyOf rid q = true := by
  obtain ⟨x, hx, hrid⟩ := h
  rcases List.mem_or_eq_of_mem_set hx with hx | rfl
  · exact .inl ⟨x, hx, hrid⟩
  · exact .inr hrid

structure Inv (s : St) : Prop where
  once : ∀ rid, handed s rid = (decide (Popped s rid)).toNat
  early : ∀ rid, Early s rid → rid ∈ s.drain ∨ Popped s rid
  discarding : ∀ rid rids, s.janitor = .discarding rid rids → Popped s rid
  nodup : s.drain.Nodup

variable {s s' : St}

/-- A step that hands out nothing and leaves the janitor and the early answers alone. -/
theorem Inv.same (h : Inv s) (hpop : ∀ rid, Popped s' rid ↔ Popped s rid)
    (hhand : ∀ rid, handed s' rid = handed s rid) (hearly : ∀ rid, Early s' rid → Early s rid)
    (hdrain : s'.drain = s.drain)
    (hjan : ∀ rid rids, s'.janitor = .discarding rid rids → Popped s rid) : Inv s' := by
  refine ⟨fun rid => ?_, fun rid he => ?_, fun rid rids hd => (hpop rid).mpr (hjan rid rids hd), ?_⟩
  · rw [hhand, h.once]
    exact congrArg Bool.toNat (decide_eq_decide.mpr (hpop rid).symm)
  · rw [hdrain, hpop]
    exact h.early rid (hearly rid he)
  · rw [hdrain]
    exact h.nodup

/-- A step that hands out the result of `rid`. -/
theorem Inv.taken (h : Inv s) {rid : ℕ} {bits : List Bool}
    (hfin : resultAt s.requests rid = some (.finished bits))
    (hres : ∀ r, resultAt s'.requests r = if r = rid then some .popped else resultAt s.requests r)
    (hhand : ∀ r, handed s' r = handed s r + (decide (r = rid)).toNat)
    (hearly : ∀ r, Early s' r → Early s r) (hdrain : s'.drain = s.drain)
    (hjan : ∀ r rids, s'.janitor = .discarding r rids → r = rid ∨ Popped s r) : Inv s' := by
  have hp : ∀ r, Popped s' r ↔ r = rid ∨ Popped s r := by
    intro r
    simp only [Popped, hres r]
    split <;> simp [*]
  have hno : ¬ Popped s rid := by
    rw [Popped, hfin]
    simp
  refine ⟨fun r => ?_, fun r he => ?_, fun r rids hd => (hp r).mpr (hjan r rids hd), ?_⟩
  · rw [hhand, h.once]
    by_cases hr : r = rid
    · simp [hr, hno, (hp rid).mpr (.inl rfl)]
    · have hsame : Popped s' r ↔ Popped s r := by simp [hp, hr]
      simp [hr, decide_eq_decide.mpr hsame]
  · rw [hdrain, hp]
    rcases h.early r (hearly r he) with hd | hpo
    · exact .inl hd
    · exact .inr (.inr hpo)
  · rw [hdrain]
    exact h.nodup

/-- The results that steps of the controller change: none that was handed out. -/
theorem popped_set {requests : List Request} {rid : ℕ} {q q' : Request}
    (hs : s.requests = requests) (h : requests[rid]? = some q)
    (hq : q'.result = .popped ↔ q.result = .popped) (r : ℕ) :
    Popped { s with requests := requests.set rid q' } r ↔ Popped s r := by
  show resultAt (requests.set rid q') r = some .popped ↔ resultAt s.requests r = some .popped
  rw [resultAt_set h, hs]
  by_cases hr : r = rid
  · have hold : resultAt requests rid = some q.result := by
      rw [resultAt, h]
      rfl
    rw [if_pos hr, hr, hold, Option.some.injEq, Option.some.injEq, hq]
  · rw [if_neg hr]

/-- Replacing one query changes what was handed out by that query only. -/
theorem handed_set {i : ℕ} {q : ℕ × Query} (q' : ℕ × Query) (hi : s.queries[i]? = some q)
    (rid : ℕ) :
    handed { s with queries := s.queries.set i q' } rid + (lateOf rid q).toNat =
      handed s rid + (lateOf rid q').toNat := by
  have hcount := countP_set_entry (p := lateOf rid) q' hi
  simp only [handed]
  omega

/-- What one step preserves. -/
theorem step_inv {a : Lbl} (h : Inv s) (hst : step s a = some s') : Inv s' := by
  cases a with
  | submit n =>
      cases hst
      refine h.same (fun rid => ?_) (fun _ => rfl) (fun _ he => he) rfl h.discarding
      -- a new request has no result
      show resultAt (s.requests ++ [_]) rid = _ ↔ resultAt s.requests rid = _
      rw [resultAt_concat]
      split
      · rename_i hr
        rw [hr, resultAt, List.getElem?_eq_none (Nat.le_refl _)]
        simp
      · rfl
  | lookup rid hits =>
      obtain ⟨q, hq, rfl⟩ := Option.map_eq_some_iff.mp hst
      exact h.same (popped_set rfl hq Iff.rfl) (fun _ => rfl) (fun _ he => he) rfl h.discarding
  | finish rid bits =>
      simp only [step] at hst
      split at hst <;> cases hst
      rename_i n hits hq
      exact h.same (popped_set rfl hq (by simp)) (fun _ => rfl) (fun _ he => he) rfl h.discarding
  | query rid =>
      obtain ⟨q, hq, rfl⟩ := Option.map_eq_some_iff.mp hst
      refine h.same (fun _ => Iff.rfl) (fun r => ?_) (fun r he => ?_) rfl h.discarding
      · simp only [handed, List.countP_append, List.countP_singleton,
          (not_answered_begun q r rid).1]
        rfl
      · obtain ⟨x, hx, hr⟩ := he
        rcases List.mem_append.mp hx with hx | hx
        · exact ⟨x, hx, hr⟩
        · rw [List.mem_singleton.mp hx, (not_answered_begun q r rid).2] at hr
          cases hr
  | answer i =>
      simp only [step] at hst
      split at hst
      · -- an early answer leaves the request in `_drain`
        rename_i rid hits hi
        obtain ⟨q, hq, rfl⟩ := Option.map_eq_some_iff.mp hst
        refine ⟨fun r => ?_, fun r he => ?_, h.discarding, List.Nodup.insert h.nodup⟩
        · have hset := handed_set (rid, .early (leading hits q.nL2)) hi r
          simp only [lateOf, Bool.toNat_false, Nat.add_zero] at hset
          exact hset.trans (h.once r)
        · rcases early_set he with he | he
          · rcases h.early r he with hd | hp
            · exact .inl (List.mem_insert_iff.mpr (.inr hd))
            · exact .inr hp
          · have hr : rid = r := by simpa [earlyOf] using he
            exact .inl (List.mem_insert_iff.mpr (.inl hr.symm))
      · rename_i rid hi
        split at hst
        · -- a late answer takes the result
          rename_i bits u hpop
          cases hst
          obtain ⟨⟨requests, rfl⟩, hfin, hres⟩ := pop_eq_some hpop
          refine h.taken hfin hres (fun r => ?_) (fun r he => ?_) rfl
            fun r rids hd => .inr (h.discarding r rids hd)
          · have hset := handed_set (rid, .late bits) hi r
            simp only [lateOf, Bool.toNat_false, Nat.add_zero] at hset
            refine hset.trans (congrArg _ (congrArg Bool.toNat ?_))
            rw [Bool.eq_iff_iff, beq_iff_eq, decide_eq_true_iff, eq_comm]
          · rcases early_set he with he | he
            · exact he
            · cases he
        · cases hst
          refine h.same (fun _ => Iff.rfl) (fun r => ?_) (fun r he => ?_) rfl h.discarding
          · have hset := handed_set (rid, Query.nothing) hi r
            simpa only [lateOf, Bool.toNat_false, Nat.add_zero] using hset
          · rcases early_set he with he | he
            · exact he
            · cases he
      · cases hst
  | snapshot rids =>
      simp only [step] at hst
      split at hst <;> cases hst
      exact h.same (fun _ => Iff.rfl) (fun _ => rfl) (fun _ he => he) rfl
        (fun _ _ hd => by cases hd)
  | poll raises =>
      simp only [step] at hst
      split at hst
      · rename_i rid rids hjan
        split at hst
        · cases hst
          exact h.same (fun _ => Iff.rfl) (fun _ => rfl) (fun _ he => he) rfl
            (fun _ _ hd => by cases hd)
        · split at hst
          · -- the janitor takes the result
            rename_i bits u hpop
            cases hst
            obtain ⟨⟨requests, rfl⟩, hfin, hres⟩ := pop_eq_some hpop
            refine h.taken hfin hres (fun r => ?_) (fun _ he => he) rfl fun r rids' hd => ?_
            · simp only [handed, List.count_cons, beq_iff_eq, eq_comm (a := rid)]
              rw [Nat.add_assoc]
              by_cases hr : r = rid <;> simp [hr]
            · cases hd
              exact .inl rfl
          · cases hst
            exact h.same (fun _ => Iff.rfl) (fun _ => rfl) (fun _ he => he) rfl
              (fun _ _ hd => by cases hd)
      · cases hst
  | discard =>
      simp only [step] at hst
      split at hst
      · rename_i rid rids hjan
        cases hst
        have hpo := h.discarding rid rids hjan
        refine ⟨h.once, fun r he => ?_, (fun _ _ hd => by cases hd), h.nodup.erase rid⟩
        by_cases hr : r = rid
        · exact .inr (hr ▸ hpo)
        · rcases h.early r he with hd | hp
          · exact .inl ((List.mem_erase_of_ne hr).mpr hd)
          · exact .inr hp
      · cases hst
  | rest =>
      simp only [step] at hst
      split at hst <;> cases hst
      exact h.same (fun _ => Iff.rfl) (fun _ => rfl) (fun _ he => he) rfl
        (fun _ _ hd => by cases hd)

theorem initial_inv : Inv initial := by
  refine ⟨fun rid => rfl, fun rid he => ?_, (fun _ _ hd => by cases hd), List.nodup_nil⟩
  obtain ⟨x, hx, -⟩ := he
  cases hx

/-- So the invariant holds in every reachable state. -/
theorem reachable_inv (h : machine.Reachable s) : Inv s := by
  refine h.invariant Inv ?_ fun s a s' hs _ hst => step_inv hs hst
  rintro s rfl
  exact initial_inv

/-! ## A round of the janitor -/

/-- A result only goes from running to finished to popped. -/
theorem result_advances {a : Lbl} (hst : step s a = some s') {rid : ℕ} {x : Result}
    (hx : resultAt s.requests rid = some x) : ∃ y, resultAt s'.requests rid = some y ∧
      (x ≠ .running → y ≠ .running) ∧ (x = .popped → y = .popped) := by
  have hsame : s'.requests = s.requests → ∃ y, resultAt s'.requests rid = some y ∧
      (x ≠ .running → y ≠ .running) ∧ (x = .popped → y = .popped) :=
    fun h => ⟨x, h ▸ hx, id, id⟩
  have hpop : ∀ {r bits u}, pop s r = some (bits, u) → s'.requests = u.requests →
      ∃ y, resultAt s'.requests rid = some y ∧
        (x ≠ .running → y ≠ .running) ∧ (x = .popped → y = .popped) := by
    intro r bits u hpop heq
    obtain ⟨-, -, hres⟩ := pop_eq_some hpop
    rw [heq, hres rid]
    split
    · exact ⟨.popped, rfl, (fun _ h => by cases h), fun _ => rfl⟩
    · exact ⟨x, hx, id, id⟩
  cases a with
  | submit n =>
      cases hst
      refine ⟨x, ?_, id, id⟩
      rw [resultAt_concat, if_neg ?_]
      · exact hx
      · rintro rfl
        rw [resultAt, List.getElem?_eq_none (Nat.le_refl _)] at hx
        cases hx
  | lookup r hits =>
      obtain ⟨q, hq, rfl⟩ := Option.map_eq_some_iff.mp hst
      refine ⟨x, ?_, id, id⟩
      rw [resultAt_set hq]
      split
      · rename_i hr
        rw [← hx, hr, resultAt, hq]
        rfl
      · exact hx
  | finish r bits =>
      simp only [step] at hst
      split at hst <;> cases hst
      rename_i n hits hq
      rw [resultAt_set hq]
      split
      · -- it was running
        rename_i hr
        rw [hr, resultAt, hq] at hx
        cases hx
        exact ⟨_, rfl, fun h => absurd rfl h, fun h => by cases h⟩
      · exact ⟨x, hx, id, id⟩
  | query r =>
      obtain ⟨q, -, rfl⟩ := Option.map_eq_some_iff.mp hst
      exact hsame rfl
  | answer i =>
      simp only [step] at hst
      split at hst
      · obtain ⟨q, -, rfl⟩ := Option.map_eq_some_iff.mp hst
        exact hsame rfl
      · split at hst
        · rename_i hp
          cases hst
          exact hpop hp rfl
        · cases hst
          exact hsame rfl
      · cases hst
  | poll raises =>
      simp only [step] at hst
      split at hst
      · split at hst
        · cases hst
          exact hsame rfl
        · split at hst
          · rename_i hp
            cases hst
            exact hpop hp rfl
          · cases hst
            exact hsame rfl
      · cases hst
  | snapshot rids | discard | rest =>
      simp only [step] at hst
      split at hst <;> cases hst
      exact hsame rfl

/-- A request that has finished stays finished. -/
theorem over_kept {a : Lbl} (hst : step s a = some s') {rid : ℕ} (h : Over s rid) :
    Over s' rid := by
  obtain ⟨x, hx, hne⟩ := h
  obtain ⟨y, hy, hrun, -⟩ := result_advances hst hx
  exact ⟨y, hy, hrun hne⟩

/-- A result that was popped stays popped. -/
theorem popped_kept {a : Lbl} (hst : step s a = some s') {rid : ℕ} (h : Popped s rid) :
    Popped s' rid := by
  obtain ⟨y, hy, -, hpop⟩ := result_advances hst h
  rw [hpop rfl] at hy
  exact hy

/-- The round has the request before it, or its result is gone. -/
def Due (s : St) (rid : ℕ) : Prop := rid ∈ s.janitor.todo ∨ Popped s rid

/-- A finished request stays due until it is popped. -/
theorem due_step {a : Lbl} (hst : step s a = some s') (hraise : a ≠ .poll true) {rid : ℕ}
    (hover : Over s rid) (h : Due s rid) : Due s' rid := by
  have hkept : s'.janitor.todo = s.janitor.todo → Due s' rid := by
    intro hj
    rcases h with hm | hp
    · exact .inl (hj ▸ hm)
    · exact .inr (popped_kept hst hp)
  cases a with
  | submit n =>
      cases hst
      exact hkept rfl
  | lookup r hits | query r =>
      obtain ⟨q, -, rfl⟩ := Option.map_eq_some_iff.mp hst
      exact hkept rfl
  | finish r bits =>
      refine hkept ?_
      simp only [step] at hst
      split at hst <;> cases hst
      rfl
  | answer i =>
      refine hkept ?_
      simp only [step] at hst
      split at hst
      · obtain ⟨q, -, rfl⟩ := Option.map_eq_some_iff.mp hst
        rfl
      · split at hst
        · rename_i hp
          cases hst
          obtain ⟨⟨requests, rfl⟩, -⟩ := pop_eq_some hp
          rfl
        · cases hst
          rfl
      · cases hst
  | snapshot rids =>
      -- the last round is over, so the request has been popped
      have hpop : Popped s rid := by
        rcases h with hm | hp
        · simp only [step] at hst
          split at hst
          · rename_i hguard
            rw [hguard.1] at hm
            cases hm
          · cases hst
        · exact hp
      exact .inr (popped_kept hst hpop)
  | poll raises =>
      cases raises with
      | true => exact absurd rfl hraise
      | false =>
          rcases h with hm | hp
          · simp only [step] at hst
            split at hst
            · rename_i r rids hjan
              rw [hjan] at hm
              rw [if_neg Bool.false_ne_true] at hst
              split at hst
              · rename_i bits u hpop
                cases hst
                rcases List.mem_cons.mp hm with rfl | hm
                · right
                  obtain ⟨-, -, hres⟩ := pop_eq_some hpop
                  exact (hres rid).trans (if_pos rfl)
                · exact .inl hm
              · -- the poll finds nothing, so the result was popped before
                rename_i hpop
                cases hst
                rcases List.mem_cons.mp hm with rfl | hm
                · right
                  obtain ⟨x, hx, hne⟩ := hover
                  cases x with
                  | running => exact absurd rfl hne
                  | finished bits => exact absurd hx (pop_eq_none hpop bits)
                  | popped => exact hx
                · exact .inl hm
            · cases hst
          · exact .inr (popped_kept hst hp)
  | discard =>
      refine hkept ?_
      simp only [step] at hst
      split at hst
      · rename_i r rids hjan
        cases hst
        rw [hjan]
        rfl
      · cases hst
  | rest =>
      refine hkept ?_
      simp only [step] at hst
      split at hst
      · rename_i hjan
        cases hst
        rw [hjan]
        rfl
      · cases hst

/-- A request of two keys, the first of them found, is answered early and finishes. -/
def answeredEarly : List Lbl :=
  [.submit 2, .lookup 0 (some 1), .query 0, .answer 0, .finish 0 [true, true]]

def oneRound : List Lbl := [.snapshot [0], .poll false, .discard, .rest]

/-- The request that the step queries. -/
def queried : Lbl → Option ℕ
  | .query rid => some rid
  | _ => none

/-- A request is queried again only after the answer `None`. -/
def Tidy (s : St) (a : Lbl) : Prop :=
  ∀ rid ∈ queried a, ∀ q ∈ s.queries, q.1 = rid → q.2 = .nothing

instance (s : St) (a : Lbl) : Decidable (Tidy s a) :=
  inferInstanceAs (Decidable (∀ rid ∈ queried a, _))

/-- The query is under way or got an answer. -/
def openOf (rid : ℕ) (q : ℕ × Query) : Bool := q.1 == rid && q.2 != .nothing

structure Live (s : St) : Prop where
  one : ∀ rid, s.queries.countP (openOf rid) ≤ 1
  drain : ∀ rid ∈ s.drain, Early s rid
  todo : ∀ rid ∈ s.janitor.todo, Early s rid
  dropped : ∀ rid ∈ s.dropped, Early s rid ∧
    (rid ∈ s.drain → ∃ rids, s.janitor = .discarding rid rids)

theorem openOf_of_earlyOf {rid : ℕ} {q : ℕ × Query} (h : earlyOf rid q = true) :
    openOf rid q = true := by
  obtain ⟨r, q⟩ := q
  cases q <;> simp_all [earlyOf, openOf]

/-- The open query about a request is the only one. -/
theorem Live.unique (h : Live s) {rid : ℕ} {q q' : ℕ × Query} (hq : q ∈ s.queries)
    (ho : openOf rid q = true) (hq' : q' ∈ s.queries) (ho' : openOf rid q' = true) : q = q' := by
  have hone := h.one rid
  rw [List.countP_eq_length_filter] at hone
  have hm : q ∈ s.queries.filter (openOf rid) := List.mem_filter.mpr ⟨hq, ho⟩
  have hm' : q' ∈ s.queries.filter (openOf rid) := List.mem_filter.mpr ⟨hq', ho'⟩
  match hf : s.queries.filter (openOf rid), hone with
  | [], _ =>
      rw [hf] at hm
      cases hm
  | [x], _ =>
      rw [hf] at hm hm'
      exact (List.mem_singleton.mp hm).trans (List.mem_singleton.mp hm').symm

/-- An early answer stays. -/
theorem early_kept {i rid : ℕ} {q q' : ℕ × Query} {queries : List (ℕ × Query)}
    (hi : queries[i]? = some q) (hq : earlyOf rid q = false)
    (h : ∃ x ∈ queries, earlyOf rid x = true) : ∃ x ∈ queries.set i q', earlyOf rid x = true := by
  obtain ⟨x, hx, hrid⟩ := h
  obtain ⟨j, hj⟩ := List.mem_iff_getElem?.mp hx
  have hne : i ≠ j := by
    rintro rfl
    rw [hi] at hj
    cases hj
    rw [hrid] at hq
    cases hq
  exact ⟨x, List.mem_of_getElem? (by rw [List.getElem?_set_ne hne]; exact hj), hrid⟩

/-- The number of open queries, after one went on. -/
theorem open_set {i rid : ℕ} {q q' : ℕ × Query} {queries : List (ℕ × Query)}
    (hi : queries[i]? = some q) (hle : openOf rid q' = true → openOf rid q = true)
    (h : queries.countP (openOf rid) ≤ 1) : (queries.set i q').countP (openOf rid) ≤ 1 := by
  have hset := countP_set_entry (p := openOf rid) q' hi
  cases hq : openOf rid q <;> cases hq' : openOf rid q' <;> simp_all
  omega

/-- A query that goes on keeps the law, with `_drain` as it was. -/
theorem Live.goesOn {i rid : ℕ} {q : Query} (h : Live s) (requests : List Request) (q' : Query)
    (hi : s.queries[i]? = some (rid, q)) (hq : ∀ r, earlyOf r (rid, q) = false)
    (hopen : openOf rid (rid, q) = true) :
    Live { s with requests := requests, queries := s.queries.set i (rid, q') } := by
  refine ⟨fun r => open_set hi (fun ho => ?_) (h.one r),
    fun r hr => early_kept hi (hq r) (h.drain r hr),
    fun r hr => early_kept hi (hq r) (h.todo r hr),
    fun r hr => ⟨early_kept hi (hq r) (h.dropped r hr).1, (h.dropped r hr).2⟩⟩
  have hr : rid = r := by
    simp only [openOf, Bool.and_eq_true, beq_iff_eq] at ho
    exact ho.1
  exact hr ▸ hopen

/-- What one step preserves while callers stop at an answer. -/
theorem live_step {a : Lbl} (hinv : Inv s) (h : Live s) (htidy : Tidy s a)
    (hst : step s a = some s') : Live s' := by
  cases a with
  | submit n =>
      cases hst
      exact ⟨h.one, h.drain, h.todo, h.dropped⟩
  | lookup rid hits =>
      obtain ⟨q, -, rfl⟩ := Option.map_eq_some_iff.mp hst
      exact ⟨h.one, h.drain, h.todo, h.dropped⟩
  | finish rid bits =>
      simp only [step] at hst
      split at hst <;> cases hst
      exact ⟨h.one, h.drain, h.todo, h.dropped⟩
  | query rid =>
      -- no other query about the request is open
      obtain ⟨q, -, rfl⟩ := Option.map_eq_some_iff.mp hst
      have hgrow : ∀ r, Early s r → Early { s with queries := s.queries ++ [(rid, q.begun)] } r :=
        fun r ⟨x, hx, hr⟩ => ⟨x, List.mem_append_left _ hx, hr⟩
      refine ⟨fun r => ?_, fun r hr => hgrow r (h.drain r hr), fun r hr => hgrow r (h.todo r hr),
        fun r hr => ⟨hgrow r (h.dropped r hr).1, (h.dropped r hr).2⟩⟩
      rw [List.countP_append, List.countP_singleton]
      by_cases hr : r = rid
      · have hzero : s.queries.countP (openOf r) = 0 := by
          rw [List.countP_eq_zero]
          intro x hx
          by_cases hxr : x.1 = r
          · simp [openOf, htidy rid rfl x hx (hxr.trans hr)]
          · simp [openOf, hxr]
        rw [hzero]
        split <;> omega
      · have hclosed : openOf r (rid, q.begun) = false := by
          simp [openOf, Ne.symm hr]
        rw [hclosed]
        exact h.one r
  | answer i =>
      simp only [step] at hst
      split at hst
      · rename_i rid hits hi
        obtain ⟨q, hq, rfl⟩ := Option.map_eq_some_iff.mp hst
        have hon := h.goesOn s.requests (.early (leading hits q.nL2)) hi
          (fun _ => rfl) (by simp [openOf])
        have hself : Early { s with
            queries := s.queries.set i (rid, .early (leading hits q.nL2)) } rid :=
          ⟨_, List.mem_of_getElem? (List.getElem?_set_self (List.getElem?_eq_some_iff.mp hi).1),
            by simp [earlyOf]⟩
        refine ⟨hon.one, fun r hr => ?_, hon.todo, fun r hr => ⟨(hon.dropped r hr).1, fun hd => ?_⟩⟩
        · rcases List.mem_insert_iff.mp hr with rfl | hr
          · exact hself
          · exact hon.drain r hr
        · rcases List.mem_insert_iff.mp hd with rfl | hd
          · -- the janitor dropped a result that was answered early before
            obtain ⟨x, hx, hearly⟩ := (h.dropped _ hr).1
            have heq := h.unique hx (openOf_of_earlyOf hearly) (List.mem_of_getElem? hi)
              (by simp [openOf])
            rw [heq] at hearly
            cases hearly
          · exact (h.dropped r hr).2 hd
      · rename_i rid hi
        split at hst
        · rename_i bits u hpop
          cases hst
          obtain ⟨⟨requests, rfl⟩, -⟩ := pop_eq_some hpop
          exact h.goesOn _ _ hi (fun _ => rfl) (by simp [openOf])
        · cases hst
          exact h.goesOn _ _ hi (fun _ => rfl) (by simp [openOf])
      · cases hst
  | snapshot rids =>
      simp only [step] at hst
      split at hst
      · rename_i hguard
        cases hst
        refine ⟨h.one, h.drain, fun r hr => h.drain r ((List.isPerm_iff.mp hguard.2).subset hr),
          fun r hr => ⟨(h.dropped r hr).1, fun hd => ?_⟩⟩
        obtain ⟨_, hjan⟩ := (h.dropped r hr).2 hd
        rw [hguard.1] at hjan
        cases hjan
      · cases hst
  | poll raises =>
      simp only [step] at hst
      split at hst
      · rename_i rid rids hjan
        have htodo : ∀ r ∈ rid :: rids, Early s r := by
          have := h.todo
          rwa [hjan] at this
        have hrest : ∀ r ∈ rids, Early s r := fun r hr => htodo r (List.mem_cons_of_mem _ hr)
        have hgone : ∀ r ∈ s.dropped, r ∉ s.drain := by
          intro r hr hd
          obtain ⟨_, hdis⟩ := (h.dropped r hr).2 hd
          rw [hjan] at hdis
          cases hdis
        split at hst
        · cases hst
          exact ⟨h.one, h.drain, hrest, fun r hr =>
            ⟨(h.dropped r hr).1, fun hd => absurd hd (hgone r hr)⟩⟩
        · split at hst
          · rename_i bits u hpop
            cases hst
            obtain ⟨⟨requests, rfl⟩, -⟩ := pop_eq_some hpop
            refine ⟨h.one, h.drain, hrest, fun r hr => ?_⟩
            rcases List.mem_cons.mp hr with rfl | hr
            · exact ⟨htodo _ List.mem_cons_self, fun _ => ⟨rids, rfl⟩⟩
            · exact ⟨(h.dropped r hr).1, fun hd => absurd hd (hgone r hr)⟩
          · cases hst
            exact ⟨h.one, h.drain, hrest, fun r hr =>
              ⟨(h.dropped r hr).1, fun hd => absurd hd (hgone r hr)⟩⟩
      · cases hst
  | discard =>
      simp only [step] at hst
      split at hst
      · rename_i rid rids hjan
        cases hst
        have htodo := h.todo
        rw [hjan] at htodo
        refine ⟨h.one, fun r hr => h.drain r (List.mem_of_mem_erase hr), htodo,
          fun r hr => ⟨(h.dropped r hr).1, fun hd => ?_⟩⟩
        -- what was left in `_drain` has been discarded now
        obtain ⟨_, hdis⟩ := (h.dropped r hr).2 (List.mem_of_mem_erase hd)
        rw [hjan] at hdis
        cases hdis
        exact absurd hd (List.Nodup.not_mem_erase hinv.nodup)
      · cases hst
  | rest =>
      simp only [step] at hst
      split at hst
      · rename_i hjan
        cases hst
        refine ⟨h.one, h.drain, (fun r hr => by cases hr),
          fun r hr => ⟨(h.dropped r hr).1, fun hd => ?_⟩⟩
        obtain ⟨_, hdis⟩ := (h.dropped r hr).2 hd
        rw [hjan] at hdis
        cases hdis
      · cases hst

theorem initial_live : Live initial := by
  refine ⟨fun rid => Nat.zero_le _, fun rid h => ?_, fun rid h => ?_, fun rid h => ?_⟩ <;> cases h

end LmcacheDaos.Mp.EarlyStatus
