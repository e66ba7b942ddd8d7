import LmcacheDaos.Mp.Adapter

/-!
# Locks and deletes

A lookup stats its keys and takes the locks of the hits afterwards; `delete()`
reads the lock table once and then stats and removes key by key. Neither holds
the mutex in between, so each can run between the check and the act of the
other. Locks protect what they should as long as the two sequences do not
overlap on a path (`NoOverlap`): a delete chooses a path on which nothing is
locked or about to be, and no lookup hits a path that a delete has already
chosen.
-/

namespace LmcacheDaos.Mp.Locks

open Lib

variable {A : Adapter}

/-- Hits of a lookup that are not locked yet, with the objects they saw. -/
def hits : Proc → List (ObjectKey × Handle)
  | .lookup _ probes => probes.filterMap fun
      | (key, some (.hit h)) => some (key, h)
      | _ => none
  | _ => []

/-- Keys that a `delete()` has chosen and not finished with. -/
def chosen : Proc → List ObjectKey
  | .deleting todo cur _ => cur.toList.map Prod.fst ++ todo
  | _ => []

/-- Keys that the step chooses for deletion. -/
def choosing (s : St) : Lbl → List ObjectKey
  | .act i .choose => match s.threads[i]? with
      | some (.delete keys) => keys.filter fun k => s.shared.locks k = 0
      | _ => []
  | _ => []

/-- The key that the step finds present for a lookup. -/
def probing (A : Adapter) (s : St) : Lbl → Option ObjectKey
  | .act i (.probe j) => match s.threads[i]? with
      | some (.lookup expected probes) => (probes[j]?).bind fun p =>
          if lookupOne A s.shared.fs p.1 expected = .miss then none else some p.1
      | _ => none
  | _ => none

/-- The key whose object the step removes for a `delete()`. -/
def removing (A : Adapter) (s : St) : Lbl → Option ObjectKey
  | .act i .removeNext => match s.threads[i]? with
      | some (.deleting _ (some (key, _)) _) =>
          if Dfs.pathExists s.shared.fs (path A.root key) then some key else none
      | _ => none
  | _ => none

/-- The objects whose hits the step reports and locks. -/
def locking (s : St) : Lbl → List Handle
  | .act i .lock => match s.threads[i]? with
      | some p => (hits p).map Prod.snd
      | none => []
  | _ => []

/-- The step removes no object of a locked key, and locks no object that a
`delete()` has removed. -/
def Protects (A : Adapter) (s : St) (a : Lbl) : Prop :=
  (∀ key ∈ removing A s a, ∀ key', path A.root key' = path A.root key → s.shared.locks key' = 0) ∧
  ∀ h ∈ locking s a, h ∉ s.shared.removed

/-- Lookups and deletes of one path do not overlap. -/
def NoOverlap (A : Adapter) (s : St) (a : Lbl) : Prop :=
  (∀ key ∈ choosing s a,
    (∀ key', path A.root key' = path A.root key → s.shared.locks key' = 0) ∧
    ∀ p ∈ s.threads, ∀ hit ∈ hits p, path A.root key ≠ path A.root hit.1) ∧
  ∀ key ∈ probing A s a, ∀ p ∈ s.threads, ∀ key' ∈ chosen p, path A.root key' ≠ path A.root key

/-! ## The invariant -/

/-- Names sit at their birth place, and what a `delete()` removed has no name. -/
structure SharedOk (s : Shared) : Prop where
  birth : s.fs.NamesAtBirth
  created : ∀ h ∈ s.removed, h.gen < s.fs.next
  gone : ∀ h ∈ s.removed, ∀ p, s.fs.names p ≠ some h

/-- Nothing on a chosen path is locked, and an unlocked hit is an object of its
path that was not removed. -/
def ProcOk (A : Adapter) (s : Shared) (p : Proc) : Prop :=
  (∀ key ∈ chosen p, ∀ key', path A.root key' = path A.root key → s.locks key' = 0) ∧
  ∀ hit ∈ hits p, hit.2 ∉ s.removed ∧ hit.2.birth = path A.root hit.1

/-- The hits of one thread are on other paths than the choices of the other. -/
def Apart (A : Adapter) (p q : Proc) : Prop :=
  (∀ key ∈ chosen p, ∀ hit ∈ hits q, path A.root key ≠ path A.root hit.1) ∧
  ∀ key ∈ chosen q, ∀ hit ∈ hits p, path A.root key ≠ path A.root hit.1

theorem Apart.symm {p q : Proc} (h : Apart A p q) : Apart A q p := ⟨h.2, h.1⟩

/-! ## Lookup results -/

theorem mem_hits {expected : Option ℕ} {probes : List (ObjectKey × Option Probe)}
    {hit : ObjectKey × Handle} :
    hit ∈ hits (.lookup expected probes) ↔ (hit.1, some (.hit hit.2)) ∈ probes := by
  obtain ⟨key, h⟩ := hit
  simp only [hits, List.mem_filterMap, Prod.exists]
  constructor
  · rintro ⟨k, r, hmem, hr⟩
    split at hr
    · cases hr
      rename_i heq
      cases heq
      exact hmem
    · cases hr
  · intro hmem
    exact ⟨key, _, hmem, rfl⟩

theorem mem_of_allProbed {probes : List (ObjectKey × Option Probe)}
    {results : List (ObjectKey × Probe)} (h : allProbed probes = some results)
    {r : ObjectKey × Probe} (hr : r ∈ results) : (r.1, some r.2) ∈ probes := by
  induction probes generalizing results with
  | nil =>
      cases h
      cases hr
  | cons p rest ih =>
      obtain ⟨key, _ | res⟩ := p
      · cases h
      · obtain ⟨tail, htail, rfl⟩ := Option.map_eq_some_iff.mp h
        rcases List.mem_cons.mp hr with rfl | hr
        · exact List.mem_cons_self
        · exact List.mem_cons_of_mem _ (ih htail hr)

/-- Locking the hits of a lookup leaves keys on other paths alone. -/
theorem lockHits_eq (expected : Option ℕ) {probes : List (ObjectKey × Option Probe)}
    {results : List (ObjectKey × Probe)} (h : allProbed probes = some results)
    {locks : ObjectKey → ℕ} {key : ObjectKey}
    (hkey : ∀ hit ∈ hits (.lookup expected probes), hit.1 ≠ key) :
    lockHits locks results key = locks key := by
  unfold lockHits
  rw [Nat.add_eq_left, List.countP_eq_zero]
  rintro ⟨k, r⟩ hr hlocked
  obtain ⟨rfl, hmiss⟩ := of_decide_eq_true hlocked
  cases r with
  | miss => exact hmiss rfl
  | hit obj => exact hkey (k, obj) (mem_hits.mpr (mem_of_allProbed h hr)) rfl

/-! ## Steps -/

/-- A store step keeps names at their birth place and revives nothing. -/
theorem storeMove_ok {s : Shared} {fs' : Dfs} {c c' : StoreOne} {a : StoreAct}
    (hs : SharedOk s) (hst : StoreMove A s.fs c a fs' c') : SharedOk { s with fs := fs' } := by
  cases hst with
  | openRdwr =>
      rename_i key data
      refine ⟨hs.birth.openCreate _, fun h hh => ?_, fun h hh p hp => ?_⟩
      · exact Nat.lt_of_lt_of_le (hs.created h hh) (FileStore.le_openCreate_next ..)
      · -- a removed object is older than any new one
        simp only at hp
        cases hn : s.fs.names (path A.root key) with
        | some i =>
            rw [FileStore.openCreate_of_some hn] at hp
            exact hs.gone h hh p hp
        | none =>
            obtain ⟨-, hnames, -⟩ := FileStore.openCreate_of_none hn
            rw [hnames] at hp
            by_cases hpk : p = path A.root key
            · subst hpk
              rw [Function.update_self, Option.some.injEq] at hp
              have := hs.created h hh
              rw [← hp] at this
              exact absurd this (Nat.lt_irrefl _)
            · rw [Function.update_of_ne hpk] at hp
              exact hs.gone h hh p hp
  | land =>
      refine ⟨hs.birth.congr (by simp [Dfs.landChunk]), ?_, ?_⟩
      · simpa [Dfs.landChunk] using hs.created
      · simpa [Dfs.landChunk] using hs.gone
  | cleanup =>
      unfold Dfs.remove
      split
      · exact ⟨hs.birth.unlink _, hs.created, fun h hh p hp =>
          hs.gone h hh p (FileStore.names_of_unlink hp).2⟩
      · exact hs
  | skip | stat | wrote | short | fail => exact hs

theorem own_step {s : St} {i : ℕ} {a : Act} {p p' : Proc} {sh : Shared}
    (hs : SharedOk s.shared) (hp : ProcOk A s.shared p) (hok : NoOverlap A s (.act i a))
    (hthr : s.threads[i]? = some p) (hst : step A s.shared p a = some (sh, p')) :
    SharedOk sh ∧ ProcOk A sh p' := by
  cases step_cases hst with
  | store hj hc => exact ⟨storeMove_ok hs hc, by simp [ProcOk, chosen, hits]⟩
  | probe hj =>
      rename_i expected probes j key
      refine ⟨hs, by simp [chosen], fun hit hhit => ?_⟩
      rcases List.mem_or_eq_of_mem_set (mem_hits.mp hhit) with hold | hnew
      · exact hp.2 hit (mem_hits.mpr hold)
      · -- a new hit is the object now under its name
        obtain ⟨hkey, hh⟩ := Prod.mk.inj hnew
        rw [Option.some.injEq] at hh
        have hname : s.shared.fs.names (path A.root key) = some hit.2 := by
          unfold lookupOne at hh
          split at hh
          · cases hh
          · split at hh
            · cases hh
              assumption
            · split at hh
              · cases hh
                assumption
              · cases hh
        rw [hkey]
        exact ⟨fun hmem => hs.gone _ hmem _ hname, hs.birth _ _ hname⟩
  | probeFail hj =>
      refine ⟨hs, by simp [chosen], fun hit hhit => ?_⟩
      rcases List.mem_or_eq_of_mem_set (mem_hits.mp hhit) with hold | hnew
      · exact hp.2 hit (mem_hits.mpr hold)
      · cases (Prod.mk.inj hnew).2
  | choose =>
      rename_i keys
      refine ⟨hs, fun key hkey => ?_, by simp [hits]⟩
      exact (hok.1 key (by simpa [choosing, hthr, chosen] using hkey)).1
  | statGone | statFound | statFail =>
      exact ⟨hs, fun key hkey => hp.1 key (by simp_all [chosen]), by simp [hits]⟩
  | removeGone | removeFail =>
      exact ⟨hs, fun key hkey => hp.1 key (by simp_all [chosen]), by simp [hits]⟩
  | removeNext hn =>
      rename_i todo key size sizes h
      refine ⟨⟨hs.birth.unlink _, fun h' hh' => ?_, fun h' hh' q hq => ?_⟩,
        fun key hkey => hp.1 key (by simp_all [chosen]), by simp [hits]⟩
      · rcases List.mem_cons.mp hh' with rfl | hh'
        · exact s.shared.fs.names_lt _ _ hn
        · exact hs.created h' hh'
      · obtain ⟨hne, hold⟩ := FileStore.names_of_unlink hq
        rcases List.mem_cons.mp hh' with rfl | hh'
        · exact hne (s.shared.fs.names_inj _ _ _ hold hn)
        · exact hs.gone h' hh' q hold
  | lock h => exact ⟨⟨hs.birth, hs.created, hs.gone⟩, by simp [ProcOk, chosen, hits]⟩
  | notifyStored | notifyDeleted =>
      exact ⟨⟨hs.birth, hs.created, hs.gone⟩, by simp [ProcOk, chosen, hits]⟩
  | _ => exact ⟨hs, by simp [ProcOk, chosen, hits]⟩

theorem other_step {s : St} {i : ℕ} {a : Act} {p p' q : Proc} {sh : Shared}
    (hs : SharedOk s.shared) (hok : NoOverlap A s (.act i a)) (hthr : s.threads[i]? = some p)
    (hst : step A s.shared p a = some (sh, p')) (hmem : q ∈ s.threads)
    (hq : ProcOk A s.shared q) (hpq : Apart A p q) : ProcOk A sh q ∧ Apart A p' q := by
  cases step_cases hst with
  | store hj hc => exact ⟨hq, by simp [Apart, chosen, hits]⟩
  | probe hj =>
      rename_i expected probes j key
      refine ⟨hq, by simp [chosen], fun k hk hit hhit => ?_⟩
      rcases List.mem_or_eq_of_mem_set (mem_hits.mp hhit) with hold | hnew
      · exact hpq.2 k hk hit (mem_hits.mpr hold)
      · obtain ⟨hkey, hh⟩ := Prod.mk.inj hnew
        rw [hkey]
        refine hok.2 key ?_ q hmem k hk
        rw [Option.some.injEq] at hh
        simp [probing, hthr, hj, ← hh]
  | probeFail hj =>
      refine ⟨hq, by simp [chosen], fun k hk hit hhit => ?_⟩
      rcases List.mem_or_eq_of_mem_set (mem_hits.mp hhit) with hold | hnew
      · exact hpq.2 k hk hit (mem_hits.mpr hold)
      · cases (Prod.mk.inj hnew).2
  | choose =>
      rename_i keys
      refine ⟨hq, fun k hk hit hhit => ?_, by simp [hits]⟩
      exact (hok.1 k (by simpa [choosing, hthr, chosen] using hk)).2 q hmem hit hhit
  | statGone | statFound | statFail =>
      exact ⟨hq, fun k hk => hpq.1 k (by simp_all [chosen]), by simp [hits]⟩
  | removeGone | removeFail =>
      exact ⟨hq, fun k hk => hpq.1 k (by simp_all [chosen]), by simp [hits]⟩
  | removeNext hn =>
      rename_i todo key size sizes h
      refine ⟨⟨hq.1, fun hit hhit => ?_⟩, fun k hk => hpq.1 k (by simp_all [chosen]),
    by simp [hits]⟩
      -- the removed object was born on another path than any hit of `q`
      refine ⟨fun hin => ?_, (hq.2 hit hhit).2⟩
      rcases List.mem_cons.mp hin with heq | hin
      · refine hpq.1 key (by simp [chosen]) hit hhit ?_
        rw [← (hq.2 hit hhit).2, heq, hs.birth _ _ hn]
      · exact (hq.2 hit hhit).1 hin
  | lock h =>
      rename_i expected probes results
      refine ⟨⟨fun k hk k' hk' => ?_, hq.2⟩, by simp [Apart, chosen, hits]⟩
      -- the locks taken are on other paths than the choices of `q`
      refine (lockHits_eq expected h ?_).trans (hq.1 k hk k' hk')
      rintro hit hhit rfl
      exact hpq.2 k hk hit hhit hk'.symm
  | _ => exact ⟨hq, by simp [Apart, chosen, hits]⟩

theorem env_step {s s' : Shared} {e : Env} (hs : SharedOk s) (hst : envStep s e = some s') :
    SharedOk s' ∧ ∀ q, ProcOk A s q → ProcOk A s' q := by
  cases e with
  | unlock keys =>
      cases hst
      refine ⟨⟨hs.birth, hs.created, hs.gone⟩, fun q hq => ⟨fun k hk k' hk' => ?_, hq.2⟩⟩
      simp only [submitUnlock, hq.1 k hk k' hk', Nat.zero_sub]
  | reclaim h m =>
      obtain ⟨fs', hfs, rfl⟩ := Option.map_eq_some_iff.mp hst
      obtain ⟨-, rfl⟩ := Dfs.reclaim_eq_some.mp hfs
      refine ⟨⟨hs.birth.congr (by simp), ?_, ?_⟩, fun _ hq => hq⟩
      · simpa using hs.created
      · simpa using hs.gone

/-- In every run in which lookups and deletes of one path do not overlap, no
step removes the object of a locked key or locks an object that a `delete()`
removed. -/
theorem locks_protect_objects (A : Adapter) {s : St}
    (h : (machine A).ReachableVia (NoOverlap A) s) (a : Lbl) : Protects A s a := by
  obtain ⟨-, hprocs, -⟩ := Threads.safety (T := threads A) (I := SharedOk) (J := ProcOk A)
    (E := Apart A) (fun _ _ h => h.symm)
    (fun s hs => hs ▸ ⟨by simp [initialShared, FileStore.NamesAtBirth, FileStore.empty],
      by simp [initialShared], by simp [initialShared]⟩)
    (fun s c _ _ _ => by
      cases c <;> simp [threads, entry, ProcOk, Apart, chosen, hits])
    (fun s i a p sh p' hs hp hok hthr hst => own_step hs hp hok hthr hst)
    (fun s i a p sh p' q hs _ hok hthr hst hmem hq hpq => other_step hs hok hthr hst hmem hq hpq)
    (fun s e sh hs _ hst => env_step hs hst) h
  refine ⟨fun key hkey => ?_, fun obj hobj => ?_⟩
  · unfold removing at hkey
    split at hkey
    · split at hkey
      · rename_i i _ todo k size sizes hthr
        have hproc := hprocs _ (List.mem_of_getElem? hthr)
        simp only [Option.mem_def, Option.ite_none_right_eq_some, Option.some.injEq] at hkey
        exact hproc.1 key (by simp [chosen, hkey.2])
      · cases hkey
    · cases hkey
  · unfold locking at hobj
    split at hobj
    · split at hobj
      · rename_i p hthr
        obtain ⟨hit, hhit, rfl⟩ := List.mem_map.mp hobj
        exact ((hprocs p (List.mem_of_getElem? hthr)).2 hit hhit).1
      · cases hobj
    · cases hobj

/-- One byte stored under `aKey`, by thread 0. -/
def storeByte : List Lbl :=
  [.spawn (.store [(aKey, [1])]), .act 0 (.store 0 .stat), .act 0 (.store 0 .openRdwr),
   .act 0 (.store 0 (.land 0)), .act 0 (.store 0 .wrote), .act 0 .notifyStored]

/-- What a lookup of one key locks, its unlock gives back. -/
theorem submitUnlock_lockHits (locks : ObjectKey → ℕ) (key : ObjectKey) (h : Handle) :
    submitUnlock (lockHits locks [(key, .hit h)]) [key] = locks := by
  funext k
  by_cases hk : key = k
  · simp [submitUnlock, lockHits, hk]
  · simp [submitUnlock, lockHits, hk]

/-- A lookup finds and locks the object, a delete skips it, the unlock follows, and a
second delete is about to remove it. -/
theorem unlocked_object_removed : ∃ s, (machine twoByteChunks).ReachableVia
    (NoOverlap twoByteChunks) s ∧
    removing twoByteChunks s (.act 3 .removeNext) = some aKey ∧
    Protects twoByteChunks s (.act 3 .removeNext) := by
  have hquiet : ∀ s a, choosing s a = [] ∧
      (probing twoByteChunks s a = none ∨ ∀ p ∈ s.threads, chosen p = []) →
      NoOverlap twoByteChunks s a := by
    rintro s a ⟨hchoosing, hprobing | hchosen⟩
    · simp [NoOverlap, hchoosing, hprobing]
    · refine ⟨by simp [hchoosing], fun key _ p hp key' hkey' => ?_⟩
      rw [hchosen p hp] at hkey'
      cases hkey'
  have hfree : ∀ s : St, (∀ p ∈ s.threads, hits p = []) → (∀ key, s.shared.locks key = 0) →
      NoOverlap twoByteChunks s (.act 3 .choose) := by
    intro s hhits hlocks
    refine ⟨fun key _ => ⟨fun key' _ => hlocks key', fun p hp hit hhit => ?_⟩, by simp [probing]⟩
    rw [hhits p hp] at hhit
    cases hhit
  have hlocked : (machine twoByteChunks).alongB (fun s a => choosing s a = [] ∧
      (probing twoByteChunks s a = none ∨ ∀ p ∈ s.threads, chosen p = [])) initial
      (storeByte ++ [.spawn (.lookup [aKey] (some 1)), .act 1 (.probe 0), .act 1 .lock,
        .spawn (.delete [aKey]), .act 2 .choose, .act 2 .notifyDeleted, .env (.unlock [aKey]),
        .spawn (.delete [aKey])]) = true := by decide +kernel
  have hunlocked : (machine twoByteChunks).ReachableVia (NoOverlap twoByteChunks) _ :=
    (Machine.ReachableVia.run (.init (init_initial twoByteChunks)) (Machine.along_of_alongB hlocked)
      rfl).mono hquiet
  -- nothing is locked any more, and no lookup holds a hit
  have hchosen := Machine.ReachableVia.step (a := .act 3 .choose) hunlocked
    (hfree _ (by decide +kernel) (congrFun (submitUnlock_lockHits _ aKey _))) rfl
  have hfound := Machine.ReachableVia.step (a := .act 3 .statNext) hchosen
    (hquiet _ _ (by decide +kernel)) rfl
  exact ⟨_, hfound, by decide +kernel, locks_protect_objects twoByteChunks hfound _⟩

/-- A delete chooses the key, a lookup then finds and locks it, and the delete
goes on. -/
def lockAfterChoice : List Lbl := storeByte ++
  [.spawn (.delete [aKey]), .act 1 .choose, .spawn (.lookup [aKey] (some 1)), .act 2 (.probe 0),
   .act 2 .lock, .act 1 .statNext]

/-- A lookup finds the key, a delete removes it, and the lookup goes on. -/
def removeAfterProbe : List Lbl := storeByte ++
  [.spawn (.lookup [aKey] (some 1)), .act 1 (.probe 0), .spawn (.delete [aKey]), .act 2 .choose,
   .act 2 .statNext, .act 2 .removeNext]

/-- Both halves fail: a delete is about to remove an object whose lock count is
one, and a lookup is about to report and lock an object that is gone. -/
theorem check_then_act_overlaps :
    (∃ s, (machine twoByteChunks).Reachable s ∧
      ∃ key ∈ removing twoByteChunks s (.act 1 .removeNext), 0 < s.shared.locks key) ∧
    ∃ s, (machine twoByteChunks).Reachable s ∧
      ∃ h ∈ locking s (.act 1 .lock), h ∈ s.shared.removed := by
  constructor
  · exact Machine.Reachable.of_run (init_initial _) lockAfterChoice
      (fun s => ∃ key ∈ removing twoByteChunks s (.act 1 .removeNext), 0 < s.shared.locks key)
      (by decide +kernel)
  · exact Machine.Reachable.of_run (init_initial _) removeAfterProbe
      (fun s => ∃ h ∈ locking s (.act 1 .lock), h ∈ s.shared.removed) (by decide +kernel)

end LmcacheDaos.Mp.Locks
