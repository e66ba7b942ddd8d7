import LmcacheDaos.Mp.Delivery

/-!
# Closing the fair dispatcher

`DaosL2Adapter.close` waits up to 30 s for the tasks in flight, calls
`_FairDispatcher.close` whether they have ended or not, and joins the task
threads, which wait in `run`. `_loop` tests `_stop` before it takes an item and
then returns, with whatever is in the queues. The task threads of the items left
there wait for an event that nobody sets, and the join waits for them. Under the
FIFO schedule the same join waits for `pool.map`, whose items all run.

An item that `_loop` has taken is handed to the pool even so. What is stranded is
what is queued when the flag is set, and what a call brings after that.
-/

namespace LmcacheDaos.Mp.Dispatcher

open Lib

variable {ι β : Type}

/-- The dispatcher thread has left, and a caller waits for an item that was never
handed to the pool. -/
def Stranded (s : St ι β) : Prop :=
  s.loop = .exited ∧ ∃ c k, s.calls[c]? = some k ∧ k.returned = false ∧
    ∃ x ∈ entries c k.items, x ∉ handed s

/-- `close` finds nothing queued, and no call brings items after it. -/
def InTime (s : St ι β) : Lbl ι β → Prop
  | .close => s.queues.order = []
  | .call items => items = [] ∨ s.stop = false
  | _ => True

instance [DecidableEq ι] (s : St ι β) : DecidablePred (InTime s) := fun
  | .close => inferInstanceAs (Decidable (s.queues.order = []))
  | .call items => inferInstanceAs (Decidable (items = [] ∨ s.stop = false))
  | .ret _ | .test | .take | .acquire | .submit | .start _ | .exec _ _ | .release _ | .count _
  | .join => .isTrue trivial

/-- The dispatcher thread has left items behind. -/
def Left (s : St ι β) : Prop := s.loop = .exited ∧ s.queues.order ≠ []

section Closing

variable {slots workers : ℕ} {s s' : St ι β} {a : Lbl ι β} {as : List (Lbl ι β)}

/-- A queued item is not handed to the pool, and its call waits. -/
theorem waits_of_queued (h : Inv slots s) {x : Item ι} (hx : x ∈ FairQueues.queued s.queues) :
    x ∉ handed s ∧ ∃ k, s.calls[x.call]? = some k ∧ k.returned = false ∧
      x ∈ entries x.call k.items := by
  have hpend : x ∈ pending s := by
    simp only [pending, List.mem_append]
    exact .inl (.inl (.inl hx))
  constructor
  · -- every item is in one place
    have hnd : (pending s ++ s.finished).Nodup :=
      h.ledger.issued.nodup_iff.mpr (nodup_issued _)
    simp only [pending, List.append_assoc] at hnd
    have hapart := (List.nodup_append.mp hnd).2.2 x hx x
    intro hmem
    refine hapart (List.mem_append_right _ ?_) rfl
    rwa [handed, List.append_assoc] at hmem
  · rcases h.ledger.item hpend with ⟨k, hk, hitem⟩
    refine ⟨k, hk, ?_, mem_entries.mpr ⟨rfl, hitem⟩⟩
    by_contra hret
    exact (h.complete hk (by simpa using hret)).finished x hpend rfl

theorem stranded_iff (h : Inv slots s) : Stranded s ↔ Left s := by
  refine and_congr_right fun hloop => ?_
  constructor
  · rintro ⟨c, k, hk, -, x, hx, hnot⟩ horder
    -- nothing is queued or in hand, so the pool has had it
    have hissued : x ∈ issued (s.calls.map Call.items) := by
      rcases mem_entries.mp hx with ⟨rfl, hitem⟩
      exact mem_issued_calls.mpr ⟨k, hk, hitem⟩
    have hmem := h.ledger.issued.mem_iff.mpr hissued
    rw [pending, (FairQueues.queued_eq_nil h.ledger.queues).mpr horder, hloop] at hmem
    exact hnot hmem
  · intro horder
    have hne : FairQueues.queued s.queues ≠ [] :=
      fun hnil => horder ((FairQueues.queued_eq_nil h.ledger.queues).mp hnil)
    rcases List.exists_mem_of_ne_nil _ hne with ⟨x, hx⟩
    rcases waits_of_queued h hx with ⟨hnot, k, hk, hret, hmem⟩
    exact ⟨x.call, k, hk, hret, x, hmem, hnot⟩

theorem order_called {q : FairQueues.Queues (Item ι)} (items : List (Item ι))
    (hne : q.order ≠ []) : (FairQueues.arrive q items).order ≠ [] := by
  cases items with
  | nil => exact hne
  | cons x xs => exact List.append_ne_nil_of_left_ne_nil hne _

/-- What is left behind stays. -/
theorem left_moves (hm : Moves s a s') (h : Left s) : Left s' := by
  rcases h with ⟨hloop, hne⟩
  cases hm
  case called items hjoined =>
    refine ⟨?_, order_called _ hne⟩
    simp [hloop, Loop.notify]
  case closed => exact ⟨by simp [hloop, Loop.notify], hne⟩
  case left => exact ⟨rfl, hne⟩
  case passed hl hstop | slept hl hstop horder | picked hl hstop hpick | acquired hl hslots |
    submitted hl =>
    rw [hloop] at hl
    cases hl
  all_goals exact ⟨hloop, hne⟩

/-- Once the flag is set, only a call changes the queues. -/
theorem empty_moves (hm : Moves s a s') : (s'.stop = true → s'.queues.order = []) ↔
    (s.stop = true → s.queues.order = []) ∧ InTime s a := by
  cases hm
  case called items hjoined =>
    simp only [InTime]
    cases items with
    | nil => simp [FairQueues.arrive, entries]
    | cons x xs =>
        have hne : (FairQueues.arrive s.queues (entries s.calls.length (x :: xs))).order ≠ [] := by
          simp [FairQueues.arrive, entries, FairQueues.enqueue]
        cases s.stop <;> simp [hne]
  case closed =>
    simp only [InTime]
    exact ⟨fun h => ⟨fun _ => h trivial, h trivial⟩, fun h _ => h.2⟩
  case picked hl hstop hpick => simp [InTime, hstop]
  case left ha =>
    rcases ha with rfl | rfl
    · exact (and_iff_left trivial).symm
    · exact (and_iff_left trivial).symm
  all_goals exact (and_iff_left trivial).symm

/-- The flag was set in time if nothing is queued after it. -/
theorem along_inTime_iff
    (hrun : (machine ι β slots workers).run (initial slots workers) as = some s) :
    (machine ι β slots workers).Along InTime (initial slots workers) as ↔
      (s.stop = true → s.queues.order = []) := by
  refine Machine.run_induction_all (M := machine ι β slots workers)
    (fun as s => (machine ι β slots workers).Along InTime (initial slots workers) as ↔
      (s.stop = true → s.queues.order = []))
    ⟨fun _ _ => rfl, fun _ => trivial⟩ ?_ hrun
  intro as s a s' ih hrun hst
  rw [Machine.along_concat_iff hrun, ih, empty_moves (step_moves hst)]

/-- A run strands nobody, in any of its states, exactly if the dispatcher thread
has not left or the flag was set in time. -/
theorem never_stranded_iff
    (hrun : (machine ι β slots workers).run (initial slots workers) as = some s) :
    (machine ι β slots workers).Throughout (fun s => ¬ Stranded s) (initial slots workers) as ↔
      (s.loop = .exited →
        (machine ι β slots workers).Along InTime (initial slots workers) as) := by
  have hreach : (machine ι β slots workers).Reachable s :=
    .run (.init (initial_init slots workers)) hrun
  have hinv := inv_of_reachable hreach
  rw [Machine.throughout_congr (Q := fun s => ¬ Left s)
    (fun s hs => not_congr (stranded_iff (inv_of_reachable hs))) (.init (initial_init _ _))]
  rw [Machine.throughout_iff_last
    (fun s a s' hst hnot hleft => hnot (left_moves (step_moves hst) hleft)) hrun]
  rw [along_inTime_iff hrun]
  constructor
  · intro hnot hloop _
    by_contra hne
    exact hnot ⟨hloop, hne⟩
  · rintro htime ⟨hloop, hne⟩
    exact hne (htime hloop (hinv.gate.exited hloop))

/-- Who is stranded waits for good, and `DaosL2Adapter.close` with it. -/
theorem stranded_stays (h : Inv slots s) (hs : Stranded s) :
    (∀ as s', (machine ι β slots workers).run s as = some s' → Stranded s') ∧
      step s .join = none := by
  refine ⟨fun as => ?_, ?_⟩
  · induction as generalizing s with
    | nil =>
        intro s' hrun
        cases hrun
        exact hs
    | cons a as ih =>
        intro s' hrun
        rcases Option.bind_eq_some_iff.mp hrun with ⟨t, hst, hrest⟩
        have hinv := h.step hst
        have hleft := left_moves (step_moves hst) ((stranded_iff h).mp hs)
        exact ih hinv ((stranded_iff hinv).mpr hleft) s' hrest
  · rcases hs with ⟨-, c, k, hk, hret, -⟩
    refine if_neg fun hcond => ?_
    have hall := hcond.2 k (List.mem_of_getElem? hk)
    rw [hret] at hall
    cases hall

end Closing

/-- Two items on one slot; `close` comes when the dispatcher has the first. -/
def closedEarly : List (Lbl ℕ ℕ) :=
  [.call [7, 8], .test, .take, .acquire, .close, .submit, .test]

/-- The second item is never handed to the pool. -/
theorem close_strands : ∃ s, (machine ℕ ℕ 1 1).Reachable s ∧ Stranded s := by
  have hreach : ∃ s : St ℕ ℕ, (machine ℕ ℕ 1 1).Reachable s ∧
      s.loop = .exited ∧ s.queues.order = [0] :=
    Machine.Reachable.of_run (initial_init 1 1) closedEarly _ (by decide)
  rcases hreach with ⟨s, hs, hloop, horder⟩
  have hleft : Left s := ⟨hloop, by rw [horder]; exact List.cons_ne_nil _ _⟩
  exact ⟨s, hs, (stranded_iff (inv_of_reachable hs)).mpr hleft⟩

/-- `close` comes when the only item is with the dispatcher. -/
def closedInTime : List (Lbl ℕ ℕ) :=
  [.call [7], .test, .take, .close, .acquire, .submit, .test, .start 0, .exec 0 (.returned 3),
    .release 0, .count 0, .ret 0, .join]

theorem closedInTime_strands_nobody :
    (machine ℕ ℕ 1 1).Throughout (fun s => ¬ Stranded s) (initial 1 1) closedInTime := by
  have hrun : ((machine ℕ ℕ 1 1).run (initial 1 1) closedInTime).isSome = true := by
    decide
  rcases Option.isSome_iff_exists.mp hrun with ⟨s, hs⟩
  exact (never_stranded_iff hs).mpr fun _ => Machine.along_of_alongB (by decide)

end LmcacheDaos.Mp.Dispatcher
