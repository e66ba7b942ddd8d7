import LmcacheDaos.Mp.EarlyPublication
import LmcacheDaos.Mp.Transfer

/-!
# Loads and the transfer that waits for them

The pieces of `mp/streaming_patch.py` put together: any number of split loads
(`Mp.EarlyPublication`) make keys readable in L1, while a split H2D transfer
(`Mp.Transfer`) waits for the keys of its placeholders and copies what L1 has for
them.

Of L1 this is used: a key given to the original `finish_write_and_reserve_read` is
readable from then on, as the object that was allocated for it (`objOf`), until it
is given up.

* What the transfer copies in place of a placeholder is the object of its key, and
  that key's sub-task has loaded it (or somebody finished the key outside the
  loads): no placeholder is ever replaced by an object that is still being
  written, or whose load failed.
* A transfer that has not raised, and whose keys are loaded by the loads in
  progress and were not given up, returns once the inner adapter completes the
  sub-tasks: steps of the loads and of the transfer alone take it to its end.
-/

namespace LmcacheDaos.Mp.Overlap

open Lib Mp.Streaming

variable {κ ο β : Type}

structure St (κ ο β : Type) where
  loads : EarlyPublication.St κ
  transfer : Transfer.St κ ο β

inductive Lbl (κ ο : Type) where
  /-- a step of the loads, or of whoever finishes other keys -/
  | loads (a : EarlyPublication.Lbl κ)
  /-- a step of the call itself -/
  | transfer (a : Transfer.Lbl κ ο)
  /-- L1 gives up a key -/
  | release (key : κ)

/-- L1 after these keys became readable. -/
def readable [DecidableEq κ] (objOf : κ → ο) (keys : List κ) (l1 : κ → Option ο) :
    κ → Option ο :=
  fun key => if key ∈ keys then some (objOf key) else l1 key

section Machine

variable [DecidableEq κ] (objOf : κ → ο) (c : Transfer.Call κ ο β) (subBatch : ℤ)

def step (s : St κ ο β) : Lbl κ ο → Option (St κ ο β)
  | .loads a => (EarlyPublication.step s.loads a).map fun loads =>
      { s with
        loads := loads
        transfer := { s.transfer with
          l1 := readable objOf (loads.calls.drop s.loads.calls.length) s.transfer.l1 } }
  | .transfer a =>
      if a.own then
        (Transfer.step c (Transfer.subOf subBatch) s.transfer a).map fun t =>
          { s with transfer := t }
      else none
  | .release key => some { s with
      transfer := { s.transfer with l1 := Function.update s.transfer.l1 key none } }

/-- No load yet, and nothing readable. -/
def initial : St κ ο β := ⟨EarlyPublication.initial, Transfer.initial fun _ => none⟩

def machine : Machine (St κ ο β) (Lbl κ ο) where
  Init s := s = initial
  step := step objOf c subBatch

end Machine

/-- The loads are submitted with keys of their own. -/
def Apart (s : St κ ο β) : Lbl κ ο → Prop
  | .loads a => EarlyPublication.Apart s.loads a
  | _ => True

instance [DecidableEq κ] (s : St κ ο β) (a : Lbl κ ο) : Decidable (Apart s a) :=
  match a with
  | .loads a => inferInstanceAs (Decidable (EarlyPublication.Apart s.loads a))
  | .transfer _ | .release _ => inferInstanceAs (Decidable True)

/-- The loads' part of a run. -/
def Lbl.ofLoads : Lbl κ ο → List (EarlyPublication.Lbl κ)
  | .loads a => [a]
  | _ => []

def loadsOf (as : List (Lbl κ ο)) : List (EarlyPublication.Lbl κ) := as.flatMap Lbl.ofLoads

/-- What the transfer sees of a step. -/
def seenBy [DecidableEq κ] (objOf : κ → ο) (s : St κ ο β) : Lbl κ ο → List (Transfer.Lbl κ ο)
  | .loads a => match EarlyPublication.step s.loads a with
      | some loads => (loads.calls.drop s.loads.calls.length).map fun key =>
          .l1 key (some (objOf key))
      | none => []
  | .transfer a => [a]
  | .release key => [.l1 key none]

/-- What the original gets for an entry: for a placeholder the object of its key, which
has been loaded. -/
def Landed (objOf : κ → ο) (as : List (Lbl κ ο)) (s : St κ ο β) :
    Transfer.MemoryObj κ ο → Transfer.MemoryObj κ ο → Prop
  | .obj o, m => m = .obj o
  | .pending key, m => m = .obj (objOf key) ∧
      ((∃ l ∈ s.loads.loads, key ∈ l.landed) ∨ key ∈ EarlyPublication.others (loadsOf as))

/-- Steps of the loads in progress and of the transfer. -/
def Lbl.Own : Lbl κ ο → Prop
  | .loads a => a.Own
  | .transfer _ => True
  | .release _ => False

/-! ## The two parts -/

section Parts

variable [DecidableEq κ] {objOf : κ → ο} {c : Transfer.Call κ ο β} {subBatch : ℤ}

theorem readable_cons (keys : List κ) (key : κ) (l1 : κ → Option ο) :
    readable objOf (key :: keys) l1 =
      readable objOf keys (Function.update l1 key (some (objOf key))) := by
  funext k
  by_cases hmem : k ∈ keys
  · simp [readable, hmem]
  · by_cases hk : k = key
    · simp [readable, hk]
    · simp [readable, hmem, hk]

/-- Keys becoming readable, as steps of the transfer's machine. -/
theorem run_readable (keys : List κ) (t : Transfer.St κ ο β) :
    (Transfer.machine c subBatch).run t (keys.map fun key => .l1 key (some (objOf key))) =
      some { t with l1 := readable objOf keys t.l1 } := by
  induction keys generalizing t with
  | nil => rfl
  | cons key keys ih =>
      rw [List.map_cons, Machine.run, readable_cons]
      exact ih { t with l1 := Function.update t.l1 key (some (objOf key)) }

/-- What the original was called with stays, and more follows. -/
theorem step_calls {s s' : EarlyPublication.St κ} {a : EarlyPublication.Lbl κ}
    (hst : EarlyPublication.step s a = some s') : ∃ keys, s'.calls = s.calls ++ keys := by
  -- only `publish`, `finish` and `other` add to the calls
  cases a with
  | submit L =>
      cases hst
      exact ⟨[], (List.append_nil _).symm⟩
  | load i a =>
      obtain ⟨l, -, hst⟩ := Option.bind_eq_some_iff.mp hst
      -- a load's own step calls nobody
      have hsame : s'.calls = s.calls := by
        split at hst
        · obtain ⟨st', -, rfl⟩ := Option.map_eq_some_iff.mp hst
          rfl
        · obtain ⟨st', -, rfl⟩ := Option.map_eq_some_iff.mp hst
          rfl
        · cases hst
      exact ⟨[], hsame.trans (List.append_nil _).symm⟩
  | publish i =>
      obtain ⟨l, -, hst⟩ := Option.bind_eq_some_iff.mp hst
      split at hst
      · cases hst
      · rename_i e rest hpend
        cases hst
        -- an early notice is no call
        cases e with
        | finishWriteAndReserveRead keys => exact ⟨keys, rfl⟩
        | _ => exact ⟨[], (List.append_nil _).symm⟩
  | finish i =>
      obtain ⟨l, -, hst⟩ := Option.bind_eq_some_iff.mp hst
      split at hst
      · cases hst
        exact ⟨_, rfl⟩
      · cases hst
  | other keys =>
      cases hst
      exact ⟨_, rfl⟩

theorem run_calls {s p : EarlyPublication.St κ} {ls : List (EarlyPublication.Lbl κ)}
    (hrun : (EarlyPublication.machine κ).run s ls = some p) : ∀ key ∈ s.calls, key ∈ p.calls := by
  induction ls generalizing s with
  | nil =>
      cases hrun
      exact fun _ => id
  | cons a ls ih =>
      obtain ⟨q, hq, hrest⟩ := Option.bind_eq_some_iff.mp hrun
      obtain ⟨keys, hkeys⟩ := step_calls hq
      intro key hkey
      refine ih hrest key ?_
      rw [hkeys]
      exact List.mem_append_left _ hkey

theorem transfer_sim (s : St κ ο β) (a : Lbl κ ο) (s' : St κ ο β)
    (hst : (machine objOf c subBatch).step s a = some s') :
    (Transfer.machine c subBatch).run s.transfer (seenBy objOf s a) = some s'.transfer := by
  cases a with
  | loads a =>
      obtain ⟨loads, hloads, rfl⟩ := Option.map_eq_some_iff.mp hst
      simp only [seenBy, hloads]
      exact run_readable _ _
  | transfer a =>
      simp only [machine, step] at hst
      split at hst
      · obtain ⟨t, ht, rfl⟩ := Option.map_eq_some_iff.mp hst
        rw [seenBy, Machine.run_singleton]
        exact ht
      · cases hst
  | release key =>
      cases hst
      rfl

/-- The loads' part of a step. -/
theorem loads_sim {s s' : St κ ο β} {a : Lbl κ ο}
    (hst : (machine objOf c subBatch).step s a = some s') :
    (∃ b, a = .loads b ∧ EarlyPublication.step s.loads b = some s'.loads) ∨
      ((∀ b, a ≠ .loads b) ∧ s'.loads = s.loads) := by
  cases a with
  | loads b =>
      obtain ⟨loads, hloads, rfl⟩ := Option.map_eq_some_iff.mp hst
      exact .inl ⟨b, rfl, hloads⟩
  | transfer b =>
      simp only [machine, step] at hst
      split at hst
      · obtain ⟨t, -, rfl⟩ := Option.map_eq_some_iff.mp hst
        exact .inr ⟨nofun, rfl⟩
      · cases hst
  | release key =>
      cases hst
      exact .inr ⟨nofun, rfl⟩

/-- The transfer itself does not change L1. -/
theorem own_keeps_l1 {t t' : Transfer.St κ ο β} {a : Transfer.Lbl κ ο} {sub : ℕ}
    (hown : a.own = true) (hst : Transfer.step c sub t a = some t') : t'.l1 = t.l1 := by
  cases a <;> simp only [Transfer.step] at hst <;> (repeat' split at hst) <;> cases hst <;>
    first | rfl | cases hown

/-- A key that is readable in a run of the transfer's machine became so in it. -/
theorem mem_of_readable {bs : List (Transfer.Lbl κ ο)} {t : Transfer.St κ ο β} {key : κ} {o : ο}
    (hrun : (Transfer.machine c subBatch).run (Transfer.initial fun _ => none) bs = some t)
    (ho : t.l1 key = some o) : .l1 key (some o) ∈ bs := by
  revert ho
  refine Machine.run_induction_all (M := Transfer.machine c subBatch)
    (fun bs t => t.l1 key = some o → .l1 key (some o) ∈ bs) (by simp [Transfer.initial]) ?_ hrun
  intro bs t a t' ih _ hst ho
  cases hown : a.own with
  | true =>
      rw [own_keeps_l1 hown hst] at ho
      exact List.mem_append_left _ (ih ho)
  | false =>
      cases a with
      | l1 key' o' =>
          cases hst
          by_cases hk : key = key'
          · subst hk
            simp only [Function.update_self] at ho
            subst ho
            exact List.mem_append_right _ (List.mem_singleton_self _)
          · simp only [Function.update_of_ne hk] at ho
            exact List.mem_append_left _ (ih ho)
      | _ => cases hown

end Parts

/-! ## Runs -/

section Runs

variable [DecidableEq κ] {objOf : κ → ο} {c : Transfer.Call κ ο β} {subBatch : ℤ}
  {s t : St κ ο β} {as bs : List (Lbl κ ο)}

omit [DecidableEq κ] in
theorem loadsOf_concat (as : List (Lbl κ ο)) (a : Lbl κ ο) :
    loadsOf (as ++ [a]) = loadsOf as ++ a.ofLoads := by
  rw [loadsOf, List.flatMap_append, List.flatMap_singleton]
  rfl

omit [DecidableEq κ] in
theorem ofLoads_nil {a : Lbl κ ο} (h : ∀ b, a ≠ .loads b) : a.ofLoads = [] := by
  cases a with
  | loads b => exact absurd rfl (h b)
  | _ => rfl

/-- What the run is for the loads; what is readable has been finished, and stays so
unless it is given up. -/
structure Inv (objOf : κ → ο) (as : List (Lbl κ ο)) (s : St κ ο β) : Prop where
  loads : EarlyPublication.Inv (loadsOf as) s.loads
  kept : ∀ key ∈ s.loads.calls, .release key ∉ as → s.transfer.l1 key ≠ none

theorem Inv.step {a : Lbl κ ο} {s' : St κ ο β} (h : Inv objOf as s) (hapart : Apart s a)
    (hst : (machine objOf c subBatch).step s a = some s') : Inv objOf (as ++ [a]) s' := by
  constructor
  · -- the invariant of the loads, by the step they take here, if any
    rw [loadsOf_concat]
    rcases loads_sim hst with ⟨b, rfl, hloads⟩ | ⟨hne, hsame⟩
    · exact h.loads.step hapart hloads
    · rw [ofLoads_nil hne, List.append_nil, hsame]
      exact h.loads
  · -- what is published stays readable until it is released
    intro key hkey hrel
    have hrel' : .release key ∉ as := fun hmem => hrel (List.mem_append_left _ hmem)
    cases a with
    | loads b =>
        obtain ⟨loads, hloads, rfl⟩ := Option.map_eq_some_iff.mp hst
        obtain ⟨keys, hkeys⟩ := step_calls hloads
        have hdrop : loads.calls.drop s.loads.calls.length = keys := by rw [hkeys, List.drop_left]
        simp only [readable, hdrop]
        -- newly published by this step, or already readable
        split
        · exact nofun
        · rename_i hnew
          rw [hkeys] at hkey
          exact h.kept key ((List.mem_append.mp hkey).resolve_right hnew) hrel'
    | transfer b =>
        simp only [machine, Overlap.step] at hst
        split at hst
        · rename_i hown
          obtain ⟨t, ht, rfl⟩ := Option.map_eq_some_iff.mp hst
          show t.l1 key ≠ none
          -- the transfer's own steps read L1 and do not write it
          rw [own_keeps_l1 hown ht]
          exact h.kept key hkey hrel'
        · cases hst
    | release key' =>
        cases hst
        -- another key is released
        have hne : key ≠ key' := by
          rintro rfl
          exact hrel (List.mem_append_right _ (List.mem_singleton_self _))
        simp only [Function.update_of_ne hne]
        exact h.kept key hkey hrel'

theorem inv_of_run (hapart : (machine objOf c subBatch).Along Apart initial as)
    (hrun : (machine objOf c subBatch).run initial as = some s) : Inv objOf as s := by
  refine Machine.run_induction (M := machine objOf c subBatch) (Inv objOf) ?_
    (fun as s a s' h _ hok hst => h.step hok hst) hapart hrun
  refine ⟨?_, nofun⟩
  exact @EarlyPublication.inv_of_run _ _ _ [] trivial rfl

/-- What becomes readable in a run is the object of a key that was finished. -/
theorem seen_readable (hrun : (machine objOf c subBatch).run initial as = some s) :
    ∀ key o, .l1 key (some o) ∈ (machine objOf c subBatch).seen (seenBy objOf) initial as →
      o = objOf key ∧ key ∈ s.loads.calls := by
  refine Machine.run_induction_all (M := machine objOf c subBatch)
    (fun as s => ∀ key o,
      .l1 key (some o) ∈ (machine objOf c subBatch).seen (seenBy objOf) initial as →
        o = objOf key ∧ key ∈ s.loads.calls) (fun key o hmem => nomatch hmem) ?_ hrun
  intro as s a s' ih hrun hst key o hmem
  -- calls are never taken back
  have hgrows : ∀ k ∈ s.loads.calls, k ∈ s'.loads.calls := by
    rcases loads_sim hst with ⟨b, -, hloads⟩ | ⟨-, hsame⟩
    · obtain ⟨keys, hkeys⟩ := step_calls hloads
      intro k hk
      rw [hkeys]
      exact List.mem_append_left _ hk
    · rw [hsame]
      exact fun _ => id
  rw [Machine.seen_append hrun, Machine.seen_cons hst] at hmem
  rcases List.mem_append.mp hmem with hold | hnew
  · -- what was seen before was readable then, and published
    obtain ⟨ho, hk⟩ := ih key o hold
    exact ⟨ho, hgrows key hk⟩
  · rw [Machine.seen, List.append_nil] at hnew
    clear hmem
    -- seen in this step: the only step that makes something visible is a load's
    cases a with
    | loads b =>
        obtain ⟨loads, hloads, rfl⟩ := Option.map_eq_some_iff.mp hst
        simp only [seenBy, hloads] at hnew
        obtain ⟨k, hk, heq⟩ := List.mem_map.mp hnew
        cases heq
        exact ⟨rfl, List.mem_of_mem_drop hk⟩
    | transfer b =>
        rw [seenBy, List.mem_singleton] at hnew
        subst hnew
        simp [machine, Overlap.step, Transfer.Lbl.own] at hst
    | release key' =>
        rw [seenBy, List.mem_singleton] at hnew
        cases hnew

/-- The transfer's part of a run. -/
theorem run_seenBy (hrun : (machine objOf c subBatch).run s as = some t) :
    (Transfer.machine c subBatch).run s.transfer
      ((machine objOf c subBatch).seen (seenBy objOf) s as) = some t.transfer := by
  have hinv : ∀ s a s', (fun _ : St κ ο β => True) s →
      (machine objOf c subBatch).step s a = some s' → (fun _ : St κ ο β => True) s' :=
    fun _ _ _ _ _ => trivial
  exact Machine.run_seen hinv (fun s a s' _ hst => transfer_sim s a s' hst) trivial hrun

/-- What the transfer copies has been loaded. -/
theorem issued_landed (hdir : c.direction = .h2d)
    (hapart : (machine objOf c subBatch).Along Apart initial as)
    (hrun : (machine objOf c subBatch).run initial as = some s) (j : ℕ)
    {call : Transfer.Call κ ο β} (hcall : s.transfer.issued[j]? = some call) :
    List.Forall₂ (Landed objOf as s) (Transfer.share c (Transfer.subOf subBatch) j)
      call.memoryObjs := by
  have hseen := run_seenBy hrun
  have hinv := inv_of_run hapart hrun
  refine ((Transfer.inv_of_run hdir hseen).1 j call hcall).imp ?_
  intro m m' hsupplied
  cases m with
  | obj o => exact hsupplied
  | pending key =>
      obtain ⟨o, t, rfl, ⟨n, -, ht⟩, -, hl1⟩ := hsupplied
      have hmem := List.mem_of_mem_take (mem_of_readable ht hl1)
      obtain ⟨rfl, hkey⟩ := seen_readable hrun key o hmem
      refine ⟨rfl, ?_⟩
      rcases List.mem_append.mp (hinv.loads.calls.mem_iff.mp hkey) with hpassed | hother
      · obtain ⟨l, hl, hk⟩ := List.mem_flatMap.mp hpassed
        exact .inl ⟨l, hl, (hinv.loads.each l hl).sound hk⟩
      · exact .inr hother

/-- Steps of the loads, made in the whole. -/
theorem run_loads (objOf : κ → ο) (c : Transfer.Call κ ο β) (subBatch : ℤ)
    {p : EarlyPublication.St κ} {ls : List (EarlyPublication.Lbl κ)} (s : St κ ο β)
    (hrun : (EarlyPublication.machine κ).run s.loads ls = some p) :
    ∃ l1, (machine objOf c subBatch).run s (ls.map .loads) =
      some ⟨p, { s.transfer with l1 := l1 }⟩ := by
  induction ls generalizing s with
  | nil =>
      cases hrun
      exact ⟨s.transfer.l1, rfl⟩
  | cons a ls ih =>
      obtain ⟨q, hq, hrest⟩ := Option.bind_eq_some_iff.mp hrun
      have hq' : EarlyPublication.step s.loads a = some q := hq
      obtain ⟨l1, hl1⟩ := ih ⟨q, { s.transfer with
        l1 := readable objOf (q.calls.drop s.loads.calls.length) s.transfer.l1 }⟩ hrest
      refine ⟨l1, ?_⟩
      rw [List.map_cons, Machine.run]
      simp only [machine, Overlap.step, hq', Option.map_some, Option.bind_some]
      exact hl1

/-- Steps of the transfer, made in the whole. -/
theorem run_transfer (objOf : κ → ο) {u : Transfer.St κ ο β} {ls : List (Transfer.Lbl κ ο)}
    (s : St κ ο β)
    (hown : ∀ a ∈ ls, a.own = true)
    (hrun : (Transfer.machine c subBatch).run s.transfer ls = some u) :
    (machine objOf c subBatch).run s (ls.map .transfer) = some { s with transfer := u } := by
  induction ls generalizing s with
  | nil =>
      cases hrun
      rfl
  | cons a ls ih =>
      obtain ⟨v, hv, hrest⟩ := Option.bind_eq_some_iff.mp hrun
      have hv' : Transfer.step c (Transfer.subOf subBatch) s.transfer a = some v := hv
      rw [List.map_cons, Machine.run]
      simp only [machine, Overlap.step, hown a (.head _), if_true, hv', Option.map_some,
        Option.bind_some]
      exact ih { s with transfer := v } (fun b hb => hown b (.tail _ hb)) hrest

/-- Once the sub-tasks complete, the transfer returns. -/
theorem returns (hapart : (machine objOf c subBatch).Along Apart initial as)
    (hrun : (machine objOf c subBatch).run initial as = some s)
    (hpc : ∀ missing, s.transfer.pc ≠ .raised missing)
    (hkeys : ∀ key, .pending key ∈ c.memoryObjs → .release key ∉ as ∧
      (key ∈ s.loads.calls ∨ ∃ l ∈ s.loads.loads, key ∈ l.loaded)) :
    ∃ bs t, (∀ b ∈ bs, b.Own) ∧ (machine objOf c subBatch).run s bs = some t ∧
      t.transfer.pc = .returned := by
  have hinv := inv_of_run hapart hrun
  obtain ⟨ls, p, hown, hls, hsame, hdone⟩ :=
    EarlyPublication.finish_all _ hinv.loads (Nat.le_refl _)
  obtain ⟨l1, hl1⟩ := run_loads objOf c subBatch s hls
  -- the run up to here, for what L1 keeps
  have hall : (machine objOf c subBatch).run initial (as ++ ls.map .loads) =
      some ⟨p, { s.transfer with l1 := l1 }⟩ := by
    rw [Machine.run_append, hrun]
    exact hl1
  have hapart' : (machine objOf c subBatch).Along Apart initial (as ++ ls.map .loads) := by
    refine Machine.along_append hapart fun s' hs' => ?_
    rw [hrun] at hs'
    cases hs'
    refine Machine.along_of_forall_states fun a ha t => ?_
    obtain ⟨b, hb, rfl⟩ := List.mem_map.mp ha
    exact EarlyPublication.apart_of_own (hown b hb)
  have hinv' := inv_of_run hapart' hall
  have hread : Transfer.Readable c { s.transfer with l1 := l1 } := by
    intro key hkey
    obtain ⟨hrel, hwhere⟩ := hkeys key hkey
    refine hinv'.kept key ?_ ?_
    · rcases hwhere with hcalls | ⟨l, hl, hk⟩
      · exact run_calls hls key hcalls
      · -- its load is finished now
        have hload : l.load ∈ p.loads.map EarlyPublication.Loading.load := by
          rw [hsame]
          exact List.mem_map_of_mem hl
        obtain ⟨l', hl', heq⟩ := List.mem_map.mp hload
        have hpassed : key ∈ l'.passed := by
          rw [EarlyPublication.Loading.passed, hdone l' hl', if_pos rfl,
            EarlyPublication.Loading.loaded, heq]
          exact hk
        refine hinv'.loads.calls.mem_iff.mpr (List.mem_append_left _ ?_)
        exact List.mem_flatMap.mpr ⟨l', hl', hpassed⟩
    · intro hmem
      rcases List.mem_append.mp hmem with hmem | hmem
      · exact hrel hmem
      · obtain ⟨b, -, heq⟩ := List.mem_map.mp hmem
        cases heq
  have hreturns : Transfer.Returns c subBatch { s.transfer with l1 := l1 } :=
    Transfer.returns_of_readable hread hpc
  obtain ⟨ts, u, htown, hts, hu⟩ := hreturns
  have htrans := run_transfer objOf ⟨p, { s.transfer with l1 := l1 }⟩ htown hts
  refine ⟨ls.map .loads ++ ts.map .transfer, ⟨p, u⟩, ?_, ?_, hu⟩
  · intro b hb
    rcases List.mem_append.mp hb with hb | hb
    · obtain ⟨a, ha, rfl⟩ := List.mem_map.mp hb
      exact hown a ha
    · obtain ⟨a, -, rfl⟩ := List.mem_map.mp hb
      trivial
  · rw [Machine.run_append, hl1]
    exact htrans

end Runs

/-! ## Two placeholders, one of them loaded so far -/

/-- Keys 10 and 11 in two sub-tasks of one key. -/
def twoKeys : Load ℕ :=
  ⟨[10, 11], 2, false, fun _ => .loaded, 1, id, Function.injective_id, 100, true⟩

def twoPending : Transfer.Call ℕ ℕ ℕ where
  blockSize _ := 1
  blockIdsGpu := [[0, 1]]
  memoryObjs := [.pending 10, .pending 11]
  objectGroupId := 0
  batchSize := 2
  skipFirstNTokens := 0
  direction := .h2d

/-- The first sub-transfer is done while the second sub-task is still reading. -/
def halfWay : List (Lbl ℕ ℕ) :=
  [.loads (.submit twoKeys), .transfer .enter, .transfer .next, .transfer (.read false),
    .loads (.load 0 (.complete 0)), .loads (.load 0 .query), .loads (.load 0 .scan),
    .loads (.publish 0), .loads (.publish 0), .transfer (.read false), .transfer .transfer,
    .transfer .next, .transfer (.read false)]

end LmcacheDaos.Mp.Overlap
