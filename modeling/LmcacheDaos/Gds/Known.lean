import LmcacheDaos.Gds.Publish

/-!
# The keys a process counts as present

`_known` spares `contains`, and through it `_put_one`, the `stat` of a key the
process has seen in the container. It is filled after a `stat` that found the
object, after a store and after a read, each time in a step of its own, and
`remove` empties it before it removes the file.

Result: a `_put_one` that returns without writing because the key counted as
present has overlapped with a moment at which the object was there, in every
run in which the object is never removed under a process that counts on it
(`Undercuts`): one that has the key in `_known`, or a thread of which has seen
the object and is about to note it there. After such a removal the entry is
stale and nothing takes it out again.
-/

namespace LmcacheDaos.Gds

open Lib

variable {B : Backend}

/-- The object is in the container. -/
def Present (B : Backend) (s : Shared) : Prop := (s.fs.names B.final).isSome = true

instance (s : Shared) : Decidable (Present B s) := inferInstanceAs (Decidable (_ = _))

/-- A `_put_one` that has seen the object and not noted it in `_known`. -/
def PutPc.saw : PutPc → Bool
  | .contains .note | .note => true
  | _ => false

/-- The same of a `get_blocking`: from its open to its note. -/
def GetPc.saw : GetPc → Bool
  | .header _ | .alloc _ _ | .payload _ _ _ | .note _ _ => true
  | _ => false

/-- The process of a thread that has seen the object and not noted it. -/
def saw : Proc → Option ℕ
  | .put w pc => if pc.saw then some w.proc else none
  | .get proc pc => if pc.saw then some proc else none
  | .contains proc .note => some proc
  | _ => none

/-- The process has the key in `_known`, or is about to. -/
def Counts (p : ℕ) (s : St) : Prop := p ∈ s.shared.known ∨ ∃ t ∈ s.threads, saw t = some p

/-- The step is the `self._dfs.remove` of some process. -/
def removesFile (s : St) : Lbl → Bool
  | .act i .next => match s.threads[i]? with
      | some (.remove _ .remove) => true
      | _ => false
  | _ => false

/-- The step removes the object while the process counts on it. -/
def Undercuts (B : Backend) (p : ℕ) (s : St) (a : Lbl) : Prop :=
  removesFile s a = true ∧ Present B s.shared ∧ Counts p s

instance (p : ℕ) (s : St) : Decidable (Counts p s) := inferInstanceAs (Decidable (_ ∨ _))

instance (p : ℕ) (s : St) (a : Lbl) : Decidable (Undercuts B p s a) :=
  inferInstanceAs (Decidable (_ ∧ _))

/-- `_put_one` is about to return because the key counted as present, or has
just found it so. -/
def PutPc.skips : PutPc → Bool
  | .contains .note | .contains (.answer true) => true
  | _ => false

/-! ## What a step does to the object and to `_known` -/

/-- What a thread's step does: only `remove` takes the object away; `_known`
gets what the thread has seen; and what it sees is there. -/
structure StepView (B : Backend) (s s' : Shared) (t t' : Proc) (a : Act) : Prop where
  present : Present B s → Present B s' ∨ ∃ proc, t = .remove proc .remove ∧ a = .next
  known : ∀ p ∈ s'.known, p ∈ s.known ∨ saw t = some p
  saw : ∀ p, saw t' = some p → saw t = some p ∨ Present B s'

theorem containsStep_known {s s' : Shared} {proc : ℕ} {pc pc' : ContainsPc} {a : Act}
    (h : containsStep B s proc pc a = some (s', pc')) :
    (∀ p ∈ s'.known, p ∈ s.known ∨ (pc = .note ∧ p = proc)) ∧
      (pc' = .note → Present B s') ∧
      (pc' = .answer true → pc = .note ∨ (pc = .check ∧ proc ∈ s.known)) := by
  unfold containsStep at h
  split at h
  · -- the look at `_known`
    cases h
    refine ⟨fun p hp => .inl hp, ?_, ?_⟩
    · split <;> simp
    · split
      · exact fun _ => .inr ⟨rfl, ‹_›⟩
      · simp
  · -- the stat: only a file that is there leads to `note`
    cases h
    refine ⟨fun p hp => .inl hp, ?_, ?_⟩
    · split
      · rename_i hsome
        simpa [Dfs.statSize, FileStore.size, Present] using hsome
      · simp
    · split <;> simp
  · -- the stat raised, so the answer is no
    cases h
    exact ⟨fun p hp => .inl hp, by simp, by simp⟩
  · -- `note` adds this process, and nobody else
    cases h
    refine ⟨fun p hp => ?_, by simp, fun _ => .inl rfl⟩
    rcases List.mem_cons.mp hp with rfl | hp
    · exact .inr ⟨rfl, rfl⟩
    · exact .inl hp
  · cases h

theorem putStep_known {s s' : Shared} {w : Put} {pc pc' : PutPc} {a : Act}
    (h : putStep B s w pc a = some (s', pc')) :
    (∀ p ∈ s'.known, p ∈ s.known ∨ (pc.saw = true ∧ p = w.proc)) ∧
      (pc'.saw = true → Present B s') ∧
      (pc'.skips = true → pc.skips = true ∨ pc'.saw = true ∨
        (pc = .contains .check ∧ w.proc ∈ s.known)) := by
  have hkeep : ∀ {s' : Shared} {pc' : PutPc}, s'.known = s.known → pc'.saw = false →
      pc'.skips = false → (∀ p ∈ s'.known, p ∈ s.known ∨ (pc.saw = true ∧ p = w.proc)) ∧
      (pc'.saw = true → Present B s') ∧
      (pc'.skips = true → pc.skips = true ∨ pc'.saw = true ∨
        (pc = .contains .check ∧ w.proc ∈ s.known)) := by
    intro s' pc' hk hsaw hskips
    exact ⟨fun p hp => .inl (hk ▸ hp), by simp [hsaw], by simp [hskips]⟩
  unfold putStep at h
  split at h
  · cases h
  · cases h
  · cases h
    exact hkeep rfl rfl rfl
  · cases h
    exact hkeep rfl rfl rfl
  · cases h
    exact hkeep rfl rfl rfl
  · -- inside `contains`
    obtain ⟨⟨s₁, c⟩, hc, heq⟩ := Option.map_eq_some_iff.mp h
    cases heq
    obtain ⟨hknown, hnote, hyes⟩ := containsStep_known hc
    refine ⟨fun p hp => ?_, fun hsaw => hnote ?_, fun hskips => ?_⟩
    · rcases hknown p hp with h' | ⟨rfl, rfl⟩
      · exact .inl h'
      · exact .inr ⟨rfl, rfl⟩
    · cases c <;> simp_all [PutPc.saw]
    · cases c with
      | check => cases hskips
      | stat => cases hskips
      | note => exact .inr (.inl rfl)
      | answer b =>
          cases b with
          | false => cases hskips
          | true =>
              rcases hyes rfl with rfl | ⟨rfl, hin⟩
              · exact .inl rfl
              · exact .inr (.inr ⟨rfl, hin⟩)
  · simp only at h
    split at h <;> cases h <;> exact hkeep rfl rfl rfl
  · split at h <;> cases h
    exact hkeep rfl rfl rfl
  · cases h
    exact hkeep rfl rfl rfl
  · split at h <;> cases h
    exact hkeep rfl rfl rfl
  · split at h <;> cases h
    exact hkeep rfl rfl rfl
  · split at h <;> cases h
    exact hkeep rfl rfl rfl
  · split at h <;> cases h
    exact hkeep rfl rfl rfl
  · split at h
    · -- moved onto the final name
      rename_i i hi
      cases h
      refine ⟨fun p hp => .inl hp, fun _ => ?_, by simp [PutPc.skips]⟩
      simp [Present, (FileStore.rename_of_some hi B.final).1]
    · cases h
      exact hkeep rfl rfl rfl
  · cases h
    refine ⟨fun p hp => ?_, by simp [PutPc.saw], by simp [PutPc.skips]⟩
    rcases List.mem_cons.mp hp with rfl | hp
    · exact .inr ⟨rfl, rfl⟩
    · exact .inl hp
  · cases h
    exact hkeep rfl rfl rfl
  · cases h

/-- A writer never takes the final name away. -/
theorem putMove_present {s s' : Shared} {w : Put} {pc pc' : PutPc}
    (h : PutMove B s w pc s' pc') (hp : Present B s) : Present B s' := by
  unfold Present at *
  cases h with
  | quiet hfs => rwa [hfs]
  | openTmp | openBad =>
      simp only
      rwa [FileStore.openCreate_names_ne _ (tmp_ne_final w).symm]
  | landPage | landPageLate | landPayload =>
      simpa [Dfs.landChunk] using hp
  | pageWritten | close => exact hp
  | publish hn => simp [(FileStore.rename_of_some hn B.final).1]

theorem getStep_known {s s' : Shared} {proc : ℕ} {pc pc' : GetPc} {a : Act}
    (h : getStep B s proc pc a = some (s', pc')) :
    s'.fs = s.fs ∧ (∀ p ∈ s'.known, p ∈ s.known ∨ (pc.saw = true ∧ p = proc)) ∧
      (pc'.saw = true → pc.saw = true ∨ Present B s') := by
  unfold getStep at h
  split at h
  · -- the open finds the object
    simp only [Dfs.openRdonly] at h
    split at h
    · rename_i h₀ heq
      cases h
      split at heq
      · rename_i hn
        exact ⟨rfl, fun p hp => .inl hp, fun _ => .inr (by simp [Present, hn])⟩
      · cases heq
    · cases h
      exact ⟨rfl, fun p hp => .inl hp, by simp [GetPc.saw]⟩
  · cases h
    exact ⟨rfl, fun p hp => .inl hp, by simp [GetPc.saw]⟩
  · split at h <;> cases h <;> exact ⟨rfl, fun p hp => .inl hp, fun _ => .inl rfl⟩
  · split at h
    · split at h <;> cases h <;> exact ⟨rfl, fun p hp => .inl hp, fun _ => .inl rfl⟩
    · cases h
      exact ⟨rfl, fun p hp => .inl hp, fun _ => .inl rfl⟩
  · cases h
    exact ⟨rfl, fun p hp => .inl hp, fun _ => .inl rfl⟩
  · cases h
    refine ⟨rfl, fun p hp => ?_, fun _ => .inl rfl⟩
    rcases List.mem_cons.mp hp with rfl | hp
    · exact .inr ⟨rfl, rfl⟩
    · exact .inl hp
  all_goals
    cases h
    try exact ⟨rfl, fun p hp => .inl hp, fun _ => .inl rfl⟩

theorem step_view {s s' : Shared} {t t' : Proc} {a : Act} (h : step B s t a = some (s', t')) :
    StepView B s s' t t' a := by
  cases t with
  -- a put takes nothing away, and notes what it saw or published
  | put w pc =>
      obtain ⟨⟨s₁, pc'⟩, hst, heq⟩ := Option.map_eq_some_iff.mp h
      cases heq
      obtain ⟨hknown, hsaw, -⟩ := putStep_known hst
      refine ⟨fun hp => .inl (putMove_present (putStep_cases hst) hp), fun p hp => ?_,
        fun p hp => ?_⟩
      · rcases hknown p hp with h' | ⟨h', rfl⟩
        · exact .inl h'
        · exact .inr (by simp [saw, h'])
      · refine .inr (hsaw ?_)
        by_contra hno
        simp [saw, hno] at hp
  -- a get reads; what it notes it saw before, or sees now
  | get proc pc =>
      obtain ⟨⟨s₁, pc'⟩, hst, heq⟩ := Option.map_eq_some_iff.mp h
      cases heq
      obtain ⟨hfs, hknown, hsaw⟩ := getStep_known hst
      refine ⟨fun hp => .inl (by rwa [Present, hfs]), fun p hp => ?_, fun p hp => ?_⟩
      · rcases hknown p hp with h' | ⟨h', rfl⟩
        · exact .inl h'
        · exact .inr (by simp [saw, h'])
      · have hp' : pc'.saw = true ∧ proc = p := by simpa [saw] using hp
        rcases hsaw hp'.1 with h' | h'
        · exact .inl (by simp [saw, h', hp'.2])
        · exact .inr h'
  -- the unlink takes the file away, then the process forgets the key
  | remove proc pc =>
      obtain ⟨⟨s₁, pc'⟩, hst, heq⟩ := Option.map_eq_some_iff.mp h
      cases heq
      refine ⟨?_, ?_, by simp [saw]⟩
      · intro hp
        unfold removeStep at hst
        split at hst
        · cases hst
          exact .inl hp
        · cases hst
          exact .inr ⟨proc, rfl, rfl⟩
        · cases hst
          exact .inl hp
        · cases hst
      · intro p hp
        unfold removeStep at hst
        split at hst
        · cases hst
          exact .inl (List.mem_of_mem_filter hp)
        · cases hst
          exact .inl hp
        · cases hst
          exact .inl hp
        · cases hst
  -- `contains` notes what its stat has seen
  | contains proc pc =>
      obtain ⟨⟨s₁, pc'⟩, hst, heq⟩ := Option.map_eq_some_iff.mp h
      cases heq
      obtain ⟨hknown, hnote, -⟩ := containsStep_known hst
      refine ⟨fun hp => .inl (by rwa [Present, (containsStep_frame hst).1]), fun p hp => ?_,
        fun p hp => .inr (hnote ?_)⟩
      · rcases hknown p hp with h' | ⟨rfl, rfl⟩
        · exact .inl h'
        · exact .inr rfl
      · cases pc' <;> simp_all [saw]

/-! ## Runs -/

/-- Who counts on the object is right, as long as it is not removed under them. -/
theorem step_counted {p : ℕ} {s s' : St} {a : Lbl}
    (hinv : Counts p s → Present B s.shared) (hok : ¬ Undercuts B p s a)
    (hst : (machine B).step s a = some s') : Counts p s' → Present B s'.shared := by
  cases a with
  | spawn c =>
      cases hst
      intro hc
      refine hinv ?_
      rcases hc with hk | ⟨t, ht, hsaw⟩
      · exact .inl hk
      · rcases List.mem_append.mp ht with ht | ht
        · exact .inr ⟨t, ht, hsaw⟩
        · rw [List.mem_singleton.mp ht] at hsaw
          cases c <;> cases hsaw
  | act i a =>
      obtain ⟨t, sh, t', hi, hstep, rfl⟩ := Threads.step_act_iff.mp hst
      have hview : StepView B s.shared sh t t' a := step_view hstep
      have hmem := List.mem_of_getElem? hi
      -- whoever counted before is not let down
      have hkeep : Counts p s → Present B sh := by
        intro hc
        rcases hview.present (hinv hc) with h | ⟨proc, rfl, rfl⟩
        · exact h
        · exact absurd ⟨by simp [removesFile, hi], hinv hc, hc⟩ hok
      rintro (hk | ⟨u, hu, hsaw⟩)
      · rcases hview.known p hk with h | h
        · exact hkeep (.inl h)
        · exact hkeep (.inr ⟨t, hmem, h⟩)
      · obtain ⟨j, hj⟩ := List.mem_iff_getElem?.mp hu
        rcases Threads.getElem?_set_cases hj with ⟨-, rfl⟩ | ⟨-, hj⟩
        · rcases hview.saw p hsaw with h | h
          · exact hkeep (.inr ⟨t, hmem, h⟩)
          · exact h
        · exact hkeep (.inr ⟨u, List.mem_of_getElem? hj, hsaw⟩)
  | env e =>
      obtain ⟨sh, hstep, rfl⟩ := Threads.step_env_iff.mp hst
      obtain ⟨h, m⟩ := e
      obtain ⟨fs, hfs, rfl⟩ := Option.map_eq_some_iff.mp hstep
      obtain ⟨-, rfl⟩ := Dfs.reclaim_eq_some.mp hfs
      intro hc
      have := hinv hc
      simpa [Present] using this

/-- The arguments of a `_put_one`. -/
def putArgs : Proc → Option Put
  | .put w _ => some w
  | _ => none

/-- At the state `t`, thread `i` is the call `_put_one` with arguments `w`. -/
def Calling (w : Put) (i : ℕ) (t : St) : Prop := (t.threads[i]?).bind putArgs = some w

theorem calling_of_put {w : Put} {i : ℕ} {t : St} {pc : PutPc}
    (h : t.threads[i]? = some (.put w pc)) : Calling w i t := by
  rw [Calling, h]
  rfl

/-- The object was there at some moment of the call so far. -/
def SawObject (B : Backend) (as : List Lbl) (i : ℕ) (w : Put) : Prop :=
  ∃ t, (machine B).Visits initial as t ∧ Calling w i t ∧ Present B t.shared

theorem SawObject.concat {as : List Lbl} {i : ℕ} {w : Put} (h : SawObject B as i w) (a : Lbl) :
    SawObject B (as ++ [a]) i w := by
  rcases h with ⟨t, hvis, hrest⟩
  exact ⟨t, hvis.concat a, hrest⟩

/-- A call that comes to skip its store in this step has just seen the object,
or found its key in `_known` while the object was there. -/
theorem step_skips {p : ℕ} {as : List Lbl} {s s' : St} {a : Lbl}
    (hcounts : Counts p s → Present B s.shared) (hrun : (machine B).run initial as = some s)
    (hst : (machine B).step s a = some s')
    (hold : ∀ i w pc, s.threads[i]? = some (.put w pc) → w.proc = p → pc.skips = true →
      SawObject B as i w)
    {i : ℕ} {w : Put} {pc : PutPc} (hi : s'.threads[i]? = some (.put w pc)) (hw : w.proc = p)
    (hskips : pc.skips = true) : SawObject B (as ++ [a]) i w := by
  have hrun' : (machine B).run initial (as ++ [a]) = some s' := by
    rw [Machine.run_concat, hrun]
    exact hst
  cases a with
  | spawn c =>
      cases hst
      rcases Threads.getElem?_concat_cases hi with ⟨-, heq⟩ | hi
      · cases c <;> cases heq
        cases hskips
      · exact (hold i w pc hi hw hskips).concat _
  | act j a =>
      obtain ⟨t, sh, t', hj, hstep, rfl⟩ := Threads.step_act_iff.mp hst
      rcases Threads.getElem?_set_cases hi with ⟨rfl, rfl⟩ | ⟨-, hi'⟩
      · -- the call's own step: it was this call before
        cases t with
        | put w₀ pc₀ =>
            obtain ⟨⟨s₁, pc₁⟩, hput, heq⟩ := Option.map_eq_some_iff.mp hstep
            cases heq
            obtain ⟨-, hsaw, hsk⟩ := putStep_known hput
            rcases hsk hskips with h | h | ⟨rfl, hin⟩
            · exact (hold i w pc₀ hj hw h).concat _
            · exact ⟨_, Machine.visits_last hrun', calling_of_put hi, hsaw h⟩
            · refine ⟨s, (Machine.visits_last hrun).concat _, calling_of_put hj, hcounts (.inl ?_)⟩
              rwa [← hw]
        | get proc pc₀ =>
            obtain ⟨_, -, heq⟩ := Option.map_eq_some_iff.mp hstep
            cases heq
        | remove proc pc₀ =>
            obtain ⟨_, -, heq⟩ := Option.map_eq_some_iff.mp hstep
            cases heq
        | contains proc pc₀ =>
            obtain ⟨_, -, heq⟩ := Option.map_eq_some_iff.mp hstep
            cases heq
      · exact (hold i w pc hi' hw hskips).concat _
  | env e =>
      obtain ⟨sh, -, rfl⟩ := Threads.step_env_iff.mp hst
      exact (hold i w pc hi hw hskips).concat _

/-- In every run in which the object is never removed under a process `p` that
counts on it: whenever a `_put_one` of `p` is about to return without writing
because the key counted as present, the object was in the container at some
moment of that call. -/
theorem skipped_put_saw_object {p : ℕ} {as : List Lbl} {s : St}
    (hok : (machine B).Along (fun s a => ¬ Undercuts B p s a) initial as)
    (hrun : (machine B).run initial as = some s) {i : ℕ} {w : Put} (hw : w.proc = p)
    (hskip : s.threads[i]? = some (.put w (.contains (.answer true)))) : SawObject B as i w := by
  refine (Machine.run_induction (M := machine B) (fun as s => (Counts p s → Present B s.shared) ∧
    ∀ i w pc, s.threads[i]? = some (.put w pc) → w.proc = p → pc.skips = true →
      SawObject B as i w) ?_ ?_ hok hrun).2 i w _ hskip hw rfl
  · constructor
    · rintro (h | ⟨t, ht, -⟩)
      · cases h
      · cases ht
    · intro i w pc hi
      cases hi
  · rintro as s a s' ⟨hcounts, hold⟩ hrun hok hst
    refine ⟨step_counted hcounts hok hst, fun i w pc hi hw hskips => ?_⟩
    exact step_skips hcounts hrun hst hold hi hw hskips

/-- `_put_one` as thread `i`, from its `contains` to the note in `_known`. -/
def storeRun (i : ℕ) : List Lbl :=
  [.act i .next, .act i .next, .act i .next, .act i .next, .act i (.landPage 0), .act i .next,
    .act i (.landPayload 0), .act i .next, .act i .next, .act i .next]

/-- A later store of the same key by the same process. -/
def laterPut : Put := ⟨1, [9], aMeta, "5e6f7a8b"⟩

/-- Process 1 stores the object and removes it, and a `contains` of the same
process has its `stat` before the removal and its note after it. -/
def racedRemove : List Lbl :=
  .spawn (.put aPut) :: storeRun 0 ++
    [.spawn (.remove 1), .act 1 .next, .spawn (.contains 1), .act 2 .next, .act 2 .next,
      .act 1 .next, .act 2 .next, .spawn (.put laterPut), .act 3 .next]

/-- Process 1 stores the object and process 2 removes it. -/
def foreignRemove : List Lbl :=
  .spawn (.put aPut) :: storeRun 0 ++
    [.spawn (.remove 2), .act 1 .next, .act 1 .next, .spawn (.put laterPut), .act 2 .next]

/-- Process 1 stores the object, removes it, stores it again and then tries to
once more. It discards the key before it removes the file, so the removal finds
nobody who counts on the object. -/
def secondStore : List Lbl :=
  .spawn (.put aPut) :: storeRun 0 ++
    [.spawn (.remove 1), .act 1 .next, .act 1 .next, .spawn (.put laterPut)] ++ storeRun 2 ++
    [.spawn (.put laterPut), .act 3 .next]

def SkipsLater (i : ℕ) (s : St) : Prop :=
  s.threads[i]? = some (.put laterPut (.contains (.answer true)))

instance (i : ℕ) : DecidablePred (SkipsLater i) := fun _ => inferInstanceAs (Decidable (_ = _))

instance (w : Put) (i : ℕ) (s : St) : Decidable (Calling w i s) :=
  inferInstanceAs (Decidable (_ = _))

theorem second_store_skipped : ∃ s, (machine aBackend).run initial secondStore = some s ∧
    SkipsLater 3 s ∧ SawObject aBackend secondStore 3 laterPut := by
  have hrun : ((machine aBackend).run initial secondStore).any
      (fun s => decide (SkipsLater 3 s)) = true := by decide +kernel
  obtain ⟨s, hs, hskip⟩ := (Option.any_eq_true _ _).mp hrun
  have hok : (machine aBackend).alongB (fun s a => ¬ Undercuts aBackend 1 s a) initial
      secondStore = true := by decide +kernel
  have hskip : SkipsLater 3 s := of_decide_eq_true hskip
  exact ⟨s, hs, hskip, skipped_put_saw_object (Machine.along_of_alongB hok) hs rfl hskip⟩

/-- In both runs the last store is skipped although the object is absent from
its first step to its last. -/
theorem stale_entry_skips_store :
    (∃ s, (machine aBackend).run initial racedRemove = some s ∧ SkipsLater 3 s ∧
      ¬ SawObject aBackend racedRemove 3 laterPut) ∧
    ∃ s, (machine aBackend).run initial foreignRemove = some s ∧ SkipsLater 2 s ∧
      ¬ SawObject aBackend foreignRemove 2 laterPut := by
  have habsent : ∀ (as : List Lbl) (i : ℕ), (∀ t, (machine aBackend).Visits initial as t →
      ¬ (Calling laterPut i t ∧ Present aBackend t.shared)) →
      ¬ SawObject aBackend as i laterPut := by
    rintro as i h ⟨t, hvis, hcall, hpres⟩
    exact h t hvis ⟨hcall, hpres⟩
  constructor
  · have hrun : ((machine aBackend).run initial racedRemove).any
        (fun s => decide (SkipsLater 3 s)) = true := by decide +kernel
    obtain ⟨s, hs, hskip⟩ := (Option.any_eq_true _ _).mp hrun
    refine ⟨s, hs, of_decide_eq_true hskip, habsent _ _ (Machine.forall_visits _ ?_)⟩
    decide +kernel
  · have hrun : ((machine aBackend).run initial foreignRemove).any
        (fun s => decide (SkipsLater 2 s)) = true := by decide +kernel
    obtain ⟨s, hs, hskip⟩ := (Option.any_eq_true _ _).mp hrun
    refine ⟨s, hs, of_decide_eq_true hskip, habsent _ _ (Machine.forall_visits _ ?_)⟩
    decide +kernel

end LmcacheDaos.Gds
