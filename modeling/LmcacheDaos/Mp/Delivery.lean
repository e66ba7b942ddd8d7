import LmcacheDaos.Mp.Dispatcher

/-!
# What the fair dispatcher delivers

* In every reachable state no item is executed twice, a call that has returned
  has every item executed and its outcome in its place, and at most `slots` items
  are between the acquisition of a slot and its release (`Delivers`).
* Without new calls a run is bounded, and where it cannot go on every call has
  returned: an item waits for the dispatcher or a thread, the dispatcher for a
  slot, and a slot is with an item that a thread has or will take.

An entry of the results is what `fn` returned, or `False` if it raised an
`Exception`. `_one` does not catch a `BaseException`: the item is counted down all
the same, and its entry stays `None`.
-/

namespace LmcacheDaos.Mp.Dispatcher

open Lib

variable {ι β : Type}

/-- A call that may return: nothing of it is still to come, and each item was
executed, with what came of it in its place. -/
structure Complete (s : St ι β) (c : ℕ) (k : Call ι β) : Prop where
  finished : ∀ x ∈ pending s, x.call ≠ c
  length : k.results.length = k.items.length
  result : ∀ i item, k.items[i]? = some item →
    ∃ r, (⟨i, item, c⟩, r) ∈ s.log ∧ k.results[i]? = some r.cell

/-- What holds of the items at any time. -/
structure Delivers (slots : ℕ) (s : St ι β) : Prop where
  once : (executions s).Nodup
  genuine : ∀ x ∈ executions s, ∃ k, s.calls[x.call]? = some k ∧ k.items[x.idx]? = some x.item
  returned : ∀ c k, s.calls[c]? = some k → k.returned = true → Complete s c k
  slots : (holders s).length ≤ slots

section Delivers

variable {slots workers : ℕ} {s s' : St ι β} {a : Lbl ι β}

theorem Inv.complete (h : Inv slots s) {c : ℕ} {k : Call ι β} (hk : s.calls[c]? = some k)
    (hret : k.returned = true) : Complete s c k := by
  have hcount := h.counted c k hk
  have hleft : k.left = 0 ∨ k.items = [] := by
    rcases hcount.returned hret with hd | hnil
    · exact .inl (hcount.done.mp hd).1
    · exact .inr hnil
  have hfinished : ∀ x ∈ pending s, x.call ≠ c := by
    intro x hx hcall
    rcases hleft with hzero | hnil
    · rw [hcount.left, List.countP_eq_zero] at hzero
      exact hzero x hx (by simpa using hcall)
    · rcases h.ledger.item hx with ⟨k', hk', hitem⟩
      rw [hcall, hk] at hk'
      cases hk'
      rw [hnil] at hitem
      cases hitem
  refine ⟨hfinished, h.recorded.length c k hk, fun i item hitem => ?_⟩
  -- an item of the call that is not pending was counted down, so it was executed
  have hissued : (⟨i, item, c⟩ : Item ι) ∈ issued (s.calls.map Call.items) :=
    mem_issued_calls.mpr ⟨k, hk, hitem⟩
  rcases List.mem_append.mp (h.ledger.issued.mem_iff.mpr hissued) with hpend | hfin
  · exact absurd rfl (hfinished _ hpend)
  · have hlog := h.ledger.log.mem_iff.mpr (List.mem_append_right _ hfin)
    rcases List.mem_map.mp hlog with ⟨⟨x, r⟩, hx, rfl⟩
    exact ⟨r, hx, h.recorded.stored _ r k hx hk⟩

theorem Inv.delivers (h : Inv slots s) : Delivers slots s where
  once := h.ledger.once
  genuine := by
    intro x hx
    rcases List.mem_append.mp hx with hx | hx
    · exact h.ledger.logged hx
    · refine h.ledger.item (List.mem_append_right _ ?_)
      exact (perm_onThread _).mem_iff.mpr (List.mem_append_right _ hx)
  returned := fun _ _ hk hret => h.complete hk hret
  slots := by
    have heq := h.gate.slots_eq
    omega

/-! ## The end of a run -/

/-- A step of the dispatcher, of a pool thread, or a return. -/
def Internal : Lbl ι β → Prop
  | .call _ | .close | .join => False
  | _ => True

/-- Something can go on. -/
def CanStep (s : St ι β) : Prop := ∃ a, Internal a ∧ (step s a).isSome

theorem canStep_of_busy {v : ℕ} {x : Item ι} {stage : Stage}
    (hget : s.threads[v]? = some (some (x, stage))) : CanStep s := by
  cases stage with
  | running => exact ⟨.exec v .raised, trivial, by simp [step, hget]⟩
  | stored => exact ⟨.release v, trivial, by simp [step, hget]⟩
  | released => exact ⟨.count v, trivial, by simp [step, hget]⟩

theorem canStep_of_slotted {x : Item ι} (hx : x ∈ s.threads.filterMap slotted) : CanStep s := by
  rcases List.mem_filterMap.mp hx with ⟨o, ho, hso⟩
  rcases List.mem_iff_getElem?.mp ho with ⟨v, hv⟩
  rcases o with _ | ⟨y, stage⟩
  · cases hso
  · exact canStep_of_busy hv

theorem canStep_of_work (hthreads : s.threads ≠ []) (hwork : s.work ≠ []) : CanStep s := by
  rcases List.exists_mem_of_ne_nil _ hthreads with ⟨o, ho⟩
  rcases List.mem_iff_getElem?.mp ho with ⟨v, hv⟩
  rcases o with _ | ⟨y, stage⟩
  · rcases List.exists_cons_of_ne_nil hwork with ⟨x, rest, hw⟩
    exact ⟨.start v, trivial, by simp [step, hv, hw]⟩
  · exact canStep_of_busy hv

/-- An item in hand goes on, or waits for a slot that another item will release. -/
theorem canStep_of_hand (h : Inv slots s) (hslots : 1 ≤ slots) (hthreads : s.threads ≠ [])
    (hhand : s.loop.hand ≠ []) : CanStep s := by
  have hgate := h.gate.slots_eq
  rw [length_holders] at hgate
  cases hloop : s.loop with
  | submitting x => exact ⟨.submit, trivial, by simp [step, hloop]⟩
  | acquiring x =>
      cases hfree : s.slots with
      | succ k => exact ⟨.acquire, trivial, by simp [step, hloop, hfree]⟩
      | zero =>
          rw [hloop, hfree] at hgate
          simp only [Loop.slotted, List.length_nil] at hgate
          by_cases hwork : s.work = []
          · have hne : s.threads.filterMap slotted ≠ [] := by
              intro hnil
              rw [hwork, hnil] at hgate
              simp only [List.length_nil] at hgate
              omega
            rcases List.exists_mem_of_ne_nil _ hne with ⟨x, hx⟩
            exact canStep_of_slotted hx
          · exact canStep_of_work hthreads hwork
  | testing | entering | asleep | exited =>
      rw [hloop] at hhand
      exact absurd rfl hhand

theorem canStep_of_queued (h : Inv slots s) (hslots : 1 ≤ slots) (hthreads : s.threads ≠ [])
    (hstop : s.stop = false) (horder : s.queues.order ≠ []) : CanStep s := by
  cases hloop : s.loop with
  | testing => exact ⟨.test, trivial, by simp [step, hloop]⟩
  | entering =>
      rcases h.ledger.queues.pick_isSome horder with ⟨t, x, q, hpick⟩
      exact ⟨.take, trivial, by simp [step, hloop, hstop, horder, hpick]⟩
  | asleep => exact absurd (h.gate.asleep hloop).1 horder
  | exited =>
      have hcontra := h.gate.exited hloop
      rw [hstop] at hcontra
      cases hcontra
  | acquiring x | submitting x =>
      exact canStep_of_hand h hslots hthreads (by rw [hloop]; exact List.cons_ne_nil _ _)

/-- While a call has not returned, something can go on. -/
theorem progress (h : Inv slots s) (hslots : 1 ≤ slots) (hthreads : s.threads ≠ [])
    (hstop : s.stop = false) {k : Call ι β} (hk : k ∈ s.calls) (hret : k.returned = false) :
    CanStep s := by
  rcases List.mem_iff_getElem?.mp hk with ⟨c, hc⟩
  have hcount := h.counted c k hc
  -- all its jobs have counted down, so it can return
  by_cases hd : k.done = true
  · exact ⟨.ret c, trivial, by simp [step, hc, hd, hret]⟩
  · have hne : k.items ≠ [] := by
      intro hnil
      rw [hcount.nil hnil] at hret
      cases hret
    have hleft : k.left ≠ 0 := fun hzero => hd (hcount.done.mpr ⟨hzero, hne⟩)
    -- else one of its jobs is somewhere
    have hsome : ∃ x ∈ pending s, x.call = c := by
      by_contra hnone
      apply hleft
      rw [hcount.left, List.countP_eq_zero]
      intro x hx
      simpa using fun heq => hnone ⟨x, hx, heq⟩
    rcases hsome with ⟨x, hx, -⟩
    -- in a queue, in the dispatcher's hand, in the pool, or on a thread
    rcases List.mem_append.mp hx with hx | hx
    · rcases List.mem_append.mp hx with hx | hx
      · rcases List.mem_append.mp hx with hx | hx
        · refine canStep_of_queued h hslots hthreads hstop fun hnil => ?_
          rw [(FairQueues.queued_eq_nil h.ledger.queues).mpr hnil] at hx
          cases hx
        · exact canStep_of_hand h hslots hthreads (List.ne_nil_of_mem hx)
      · exact canStep_of_work hthreads (List.ne_nil_of_mem hx)
    · rcases List.mem_filterMap.mp hx with ⟨o, ho, hso⟩
      rcases List.mem_iff_getElem?.mp ho with ⟨v, hv⟩
      rcases o with _ | ⟨y, stage⟩
      · cases hso
      · -- the thread that has it can go on
        exact canStep_of_busy hv

/-- What `_loop` can do with the item in its hands, and without new items. -/
def Loop.weight : Loop ι → ℕ
  | .testing => 2
  | .entering => 1
  | .acquiring _ => 8
  | .submitting _ => 7
  | .asleep | .exited => 0

def threadWeight : Option (Item ι × Stage) → ℕ
  | some (_, .running) => 3
  | some (_, .stored) => 2
  | some (_, .released) => 1
  | none => 0

def Call.weight (k : Call ι β) : ℕ := if k.returned then 0 else 1

/-- A bound for the steps that are possible without new calls. -/
def remaining (s : St ι β) : ℕ :=
  9 * (FairQueues.queued s.queues).length + s.loop.weight + 4 * s.work.length +
    (s.threads.map threadWeight).sum + (s.calls.map Call.weight).sum

theorem weight_store (idx : ℕ) (r : Outcome β) (k : Call ι β) :
    (k.store idx r).weight = k.weight := by
  cases r <;> rfl

theorem modify_eq_set {calls : List (Call ι β)} {c : ℕ} {k : Call ι β} (hget : calls[c]? = some k)
    (f : Call ι β → Call ι β) : calls.modify c f = calls.set c (f k) := by
  rw [List.modify_eq_set_getElem?, hget]
  rfl

theorem remaining_lt (h : FairQueues.Inv s.queues) (hm : Moves s a s') (ha : Internal a) :
    remaining s' < remaining s := by
  simp only [remaining]
  cases hm
  case called => exact ha.elim
  case closed => exact ha.elim
  case joined => exact ha.elim
  -- the call has returned and weighs nothing more
  case returned c k hget hdone hret =>
    have hset := sum_map_set (f := Call.weight) (g := Call.weight) (b := k.ret) hget
      fun _ _ _ _ => rfl
    have hbefore : k.weight = 1 := by
      rw [Call.weight, hret]
      rfl
    have hafter : k.ret.weight = 0 := rfl
    rw [hbefore, hafter] at hset
    simp only [modify_eq_set hget]
    omega
  case passed hloop hstop =>
    simp only [hloop, Loop.weight]
    omega
  -- the loop leaves; what is queued stays where it is
  case left hloop hstop ha =>
    rcases hloop with hloop | hloop <;> simp only [hloop, Loop.weight] <;> omega
  case slept hloop hstop horder =>
    simp only [hloop, Loop.weight]
    omega
  -- from the queues to the hand
  case picked t x q hloop hstop hpick =>
    have hlen := ((h.pick hpick).queued h).length_eq
    rw [List.length_cons] at hlen
    simp only [hloop, hlen, Loop.weight]
    omega
  case acquired x k hloop hslots =>
    simp only [hloop, Loop.weight]
    omega
  case submitted x hloop =>
    simp only [hloop, Loop.weight, List.length_append, List.length_singleton]
    omega
  case started v x rest hget hwork =>
    have hset := sum_map_set (f := threadWeight) (g := threadWeight) (b := some (x, .running)) hget
      fun _ _ _ _ => rfl
    simp only [threadWeight] at hset
    simp only [hwork, List.length_cons]
    omega
  -- the result is stored in its call, whose weight counts only whether it has returned
  case executed v x r hget =>
    have hset := sum_map_set (f := threadWeight) (g := threadWeight) (b := some (x, .stored)) hget
      fun _ _ _ _ => rfl
    simp only [threadWeight] at hset
    simp only [map_modify (weight_store x.idx r)]
    omega
  case released v x hget =>
    have hset := sum_map_set (f := threadWeight) (g := threadWeight) (b := some (x, .released)) hget
      fun _ _ _ _ => rfl
    simp only [threadWeight] at hset
    simp only
    omega
  case counted v x hget =>
    have hset := sum_map_set (f := threadWeight) (g := threadWeight) (b := none) hget
      fun _ _ _ _ => rfl
    simp only [threadWeight] at hset
    simp only [map_modify (f := Call.count) (g := Call.weight) fun _ => rfl]
    omega

/-- Without new calls a run ends. -/
theorem run_bounded (h : Inv slots s) {as : List (Lbl ι β)} (has : ∀ a ∈ as, Internal a)
    (hrun : (machine ι β slots workers).run s as = some s') :
    as.length + remaining s' ≤ remaining s := by
  induction as generalizing s with
  | nil =>
      cases hrun
      exact Nat.le_of_eq (Nat.zero_add _)
  | cons a as ih =>
      rcases Option.bind_eq_some_iff.mp hrun with ⟨t, hst, hrest⟩
      have hlt := remaining_lt h.ledger.queues (step_moves hst) (has a List.mem_cons_self)
      have hle := ih (h.step hst) (fun b hb => has b (List.mem_cons_of_mem _ hb)) hrest
      rw [List.length_cons]
      omega

def Lbl.isClose : Lbl ι β → Bool
  | .close => true
  | _ => false

/-- The step is not a call of `close`. -/
def NoClose (_ : St ι β) (a : Lbl ι β) : Prop := a.isClose = false

instance (s : St ι β) (a : Lbl ι β) : Decidable (NoClose s a) :=
  inferInstanceAs (Decidable (_ = _))

/-- The pool keeps its threads, and only `close` sets the flag. -/
theorem reachable_open (h : (machine ι β slots workers).ReachableVia NoClose s) :
    s.threads.length = workers ∧ s.stop = false := by
  refine h.invariant (fun s => s.threads.length = workers ∧ s.stop = false) ?_ ?_
  · rintro _ rfl
    exact ⟨List.length_replicate, rfl⟩
  · rintro s a s' ⟨hlen, hstop⟩ hok hst
    have hm := step_moves hst
    cases hm
    case closed => cases hok
    case started | executed | released | counted =>
      exact ⟨by rw [List.length_set, hlen], hstop⟩
    all_goals exact ⟨hlen, hstop⟩

/-- Every item of every call is executed once. -/
theorem delivers_each (hslots : 1 ≤ slots) (hworkers : 1 ≤ workers)
    (h : (machine ι β slots workers).ReachableVia NoClose s) :
    Delivers slots s ∧
      (∀ as s', (∀ a ∈ as, Internal a) → (machine ι β slots workers).run s as = some s' →
        as.length ≤ remaining s) ∧
      (¬ CanStep s → ∀ k ∈ s.calls, k.returned = true) := by
  have hinv := inv_of_reachable h
  rcases reachable_open h with ⟨hlen, hstop⟩
  have hthreads : s.threads ≠ [] := by
    intro hnil
    rw [hnil, List.length_nil] at hlen
    omega
  refine ⟨hinv.delivers, fun as s' has hrun => ?_, fun hstuck k hk => ?_⟩
  · have hle := run_bounded hinv has hrun
    omega
  · by_contra hret
    exact hstuck (progress hinv hslots hthreads hstop hk (by simpa using hret))

/-- Two calls of two items and of none, on one slot and one thread. -/
def twoCalls : List (Lbl ℕ ℕ) :=
  [.call [7, 8], .call [], .test, .take, .acquire, .submit, .start 0, .exec 0 (.returned 3), .test,
    .take, .release 0, .acquire, .count 0, .submit, .start 0, .exec 0 .raised, .release 0, .count 0,
    .ret 0]

theorem twoCalls_delivered : ∃ s : St ℕ ℕ, s.calls.map Call.results = [[.value 3, .false], []] ∧
    Delivers 1 s ∧
      (∀ as s', (∀ a ∈ as, Internal a) → (machine ℕ ℕ 1 1).run s as = some s' →
        as.length ≤ remaining s) ∧
      (¬ CanStep s → ∀ k ∈ s.calls, k.returned = true) := by
  have hreach : ∃ s, (machine ℕ ℕ 1 1).ReachableVia NoClose s ∧
      s.calls.map Call.results = [[.value 3, .false], []] :=
    Machine.ReachableVia.of_run (initial_init 1 1) twoCalls (by decide) _ (by decide)
  rcases hreach with ⟨s, hs, hresults⟩
  exact ⟨s, hresults, delivers_each (by decide) (by decide) hs⟩

/-- What `fn` returned, or `False` whatever it raised. -/
def Outcome.orFalse : Outcome β → Cell β
  | .returned v => .value v
  | _ => .false

/-- A `BaseException` leaves `None`. -/
theorem exit_leaves_none : ¬ ∀ s : St ℕ ℕ, (machine ℕ ℕ 1 1).ReachableVia NoClose s →
    ∀ c k i item r, s.calls[c]? = some k → k.returned = true → (⟨i, item, c⟩, r) ∈ s.log →
      k.results[i]? = some r.orFalse := by
  intro hall
  have hreach : ∃ s, (machine ℕ ℕ 1 1).ReachableVia NoClose s ∧
      s.calls = [⟨[7], [.none], 0, true, true⟩] ∧ s.log = [(⟨0, 7, 0⟩, .exited)] :=
    Machine.ReachableVia.of_run (initial_init 1 1)
      [.call [7], .test, .take, .acquire, .submit, .start 0, .exec 0 .exited, .release 0, .count 0,
        .ret 0] (by decide) _ (by decide)
  rcases hreach with ⟨s, hs, hcalls, hlog⟩
  have hfalse := hall s hs 0 ⟨[7], [.none], 0, true, true⟩ 0 7 .exited (by rw [hcalls]; rfl) rfl
    (by rw [hlog]; exact List.mem_singleton_self _)
  cases hfalse

end Delivers

end LmcacheDaos.Mp.Dispatcher
