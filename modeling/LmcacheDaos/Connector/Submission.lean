import Mathlib.Data.List.ReduceOption
import LmcacheDaos.Connector.IoPool
import LmcacheDaos.Connector.Staging

/-!
# The submissions of a batched read

`batched_get` awaits `asyncio.gather` of one `_run` per key, or per chunk when
the batch is folded, with `return_exceptions=True`. The arguments of `gather` are
evaluated before it is called: a read that fails comes back as an exception among
the results, but a `_run` that refuses (`DaosPoolWedged`) raises out of
`batched_get` itself, and what was submitted before it runs on with no one to
take its objects.

So the batch is served (`Serves`) exactly when no submission is refused.
-/

namespace LmcacheDaos.Connector

open Lib Serde

variable {τ : Type}

/-! ## Reads and what they are for -/

def Read.ofAddr : Addr → Read
  | .path p => .dfs p
  | .raw a => .raw a

/-- The reads of `batched_get` in the order it submits them. -/
def batchReads (raw : Bool) (keys : List Key) : List Read :=
  match foldedGroups raw keys with
  | some groups => groups.map fun g => .folded g.1 (g.2.map Prod.snd)
  | none => keys.map fun k => .ofAddr (addr raw k)

/-- The addresses that the entries of a read's result are for. -/
def Read.targets : Read → List Addr
  | .dfs path => [.path path]
  | .raw a => [.raw a]
  | .folded dkey layers => layers.map fun l => .raw ⟨dkey, some l⟩

/-- The result of a read, or the exception it raised. -/
abbrev Outcome (τ : Type) := Except Err (List (Option (MemoryObj τ)))

/-- What a read came to for its `p`-th target. -/
def outcomeAt (r : Outcome τ) (p : ℕ) : Option (MemoryObj τ) :=
  match r with
  | .error _ => none
  | .ok got => got.getD p none

/-- The objects a read produced. -/
def produced : Outcome τ → List (MemoryObj τ)
  | .error _ => []
  | .ok got => got.reduceOption

/-! ## `batched_get` -/

/-- `DaosPoolWedged` -/
structure PoolWedged where
  workers : ℕ
  stalled : ℤ
deriving DecidableEq, Repr

/-- The detector when `_run` is called, and what the read comes to if it runs. -/
structure Submission (τ : Type) where
  pool : IoPool.St
  result : Outcome τ

/-- `_run` -/
def submit (cfg : IoPool.PoolConfig) (sub : Submission τ) : Except PoolWedged (Outcome τ) :=
  if IoPool.wedged cfg sub.pool then .error ⟨cfg.workers, IoPool.stalled sub.pool⟩
  else .ok sub.result

/-- `batched_get` behind its `gather`. -/
def assemble (raw : Bool) (keys : List Key) (gathered : List (Outcome τ)) :
    List (Option (MemoryObj τ)) :=
  match foldedGroups raw keys with
  | some groups => (groups.zip gathered).foldl scatterGroup (keys.map fun _ => none)
  | none => gathered.map fun r => outcomeAt r 0

/-- `batched_get` on a pool. -/
def batchedGetOn (cfg : IoPool.PoolConfig) (raw : Bool) (keys : List Key)
    (subs : List (Submission τ)) : Except PoolWedged (List (Option (MemoryObj τ))) :=
  (subs.mapM (submit cfg)).map (assemble raw keys)

/-- The submissions are those of the batch, and each comes to what its read can
come to. -/
def Executes (C : Codec τ) (raw : Bool) (keys : List Key) (subs : List (Submission τ)) : Prop :=
  List.Forall₂ (fun rd sub => ∃ t, (rd.body C).Runs t sub.result) (batchReads raw keys) subs

/-- A list for the keys of a batch, from what its reads came to. -/
structure Serves (raw : Bool) (keys : List Key) (results : List (Outcome τ))
    (res : List (Option (MemoryObj τ))) : Prop where
  length : res.length = keys.length
  /-- the object read for the key, or nothing if it missed or the read failed -/
  entry : ∀ (i : ℕ) (key : Key), keys[i]? = some key → ∃ (rd : Read) (r : Outcome τ) (p : ℕ),
    (rd, r) ∈ (batchReads raw keys).zip results ∧ rd.targets[p]? = some (addr raw key) ∧
      res[i]? = some (outcomeAt r p)
  /-- every object is in it, once -/
  objects : res.reduceOption.Perm (results.flatMap produced)

/-- The result of a submitted read is one of its runs. -/
theorem Executes.of_mem_zip {C : Codec τ} {raw : Bool} {keys : List Key}
    {subs : List (Submission τ)} (h : Executes C raw keys subs) {rd : Read} {sub : Submission τ}
    (hmem : (rd, sub) ∈ (batchReads raw keys).zip subs) : ∃ t, (rd.body C).Runs t sub.result :=
  (List.forall₂_iff_zip.mp h).2 hmem

/-- The same, by position. -/
theorem Executes.of_getElem? {C : Codec τ} {raw : Bool} {keys : List Key}
    {subs : List (Submission τ)} (h : Executes C raw keys subs) {n : ℕ} {rd : Read}
    {sub : Submission τ} (hrd : (batchReads raw keys)[n]? = some rd) (hsub : subs[n]? = some sub) :
    ∃ t, (rd.body C).Runs t sub.result :=
  h.of_mem_zip (List.mem_of_getElem? (List.getElem?_zip_eq_some.mpr ⟨hrd, hsub⟩))

/-- Every result is that of some read of the batch. -/
theorem Executes.exists_read {C : Codec τ} {raw : Bool} {keys : List Key}
    {subs : List (Submission τ)} (h : Executes C raw keys subs) {sub : Submission τ}
    (hsub : sub ∈ subs) :
    ∃ rd ∈ batchReads raw keys, ∃ t, (rd.body C).Runs t sub.result := by
  have hsnd : ((batchReads raw keys).zip subs).map Prod.snd = subs :=
    List.map_snd_zip h.length_eq.ge
  rw [← hsnd] at hsub
  rcases List.mem_map.mp hsub with ⟨⟨rd, sub⟩, hmem, rfl⟩
  exact ⟨rd, (List.of_mem_zip hmem).1, h.of_mem_zip hmem⟩

/-- A single read is for one address. -/
theorem targets_ofAddr (a : Addr) : (Read.ofAddr a).targets = [a] := by
  cases a <;> rfl

/-- It does what `_get_sync` does. -/
theorem body_ofAddr (C : Codec τ) (a : Addr) : (Read.ofAddr a).body C = single (getSync C a) := by
  cases a <;> rfl

/-- One call after the other, with the reads as lists of one. -/
theorem run_gather_single {σ : Type} (h : σ → (o : Op τ) → Ans o × σ)
    (ps : List (Io τ (Option (MemoryObj τ)))) (w : σ) :
    (gather (ps.map single)).run h w =
      (((gather ps).run h w).1.map (Except.map fun mo => [mo]), ((gather ps).run h w).2) := by
  induction ps generalizing w with
  | nil => rfl
  | cons p ps ih =>
      simp only [List.map_cons, gather, Program.run_bind, Program.run_map, single, ih]

/-- `batched_get` run by itself submits every read and assembles what they come
to. -/
theorem run_batchedGet {σ : Type} (h : σ → (o : Op τ) → Ans o × σ) (C : Codec τ) (raw : Bool)
    (keys : List Key) (w : σ) :
    (batchedGet C raw keys).run h w =
      ((gather ((batchReads raw keys).map (Read.body C))).map (assemble raw keys)).run h w := by
  unfold batchedGet batchReads assemble
  cases foldedGroups raw keys with
  | some groups =>
      simp only [Program.run_map, List.map_map]
      rfl
  | none =>
      have hbodies : (keys.map fun k => Read.ofAddr (addr raw k)).map (Read.body C) =
          (keys.map fun k => getSync C (addr raw k)).map single := by
        rw [List.map_map, List.map_map]
        exact List.map_congr_left fun k _ => body_ofAddr C _
      simp only [Program.run_map, hbodies, run_gather_single]
      rw [List.map_map]
      congr 1
      apply List.map_congr_left
      intro r _
      cases r <;> rfl

/-- A submission succeeds if the pool is not wedged, and then its result is the call's. -/
theorem submit_eq_ok {cfg : IoPool.PoolConfig} {sub : Submission τ} {r : Outcome τ} :
    submit cfg sub = .ok r ↔ IoPool.wedged cfg sub.pool = false ∧ sub.result = r := by
  unfold submit
  split
  · rename_i h
    simp [h]
  · rename_i h
    simp [h]

/-- The submissions of a batch succeed if the pool is wedged at none of them. -/
theorem mapM_submit_eq_ok {cfg : IoPool.PoolConfig} {subs : List (Submission τ)}
    {results : List (Outcome τ)} :
    subs.mapM (submit cfg) = .ok results ↔
      (∀ sub ∈ subs, IoPool.wedged cfg sub.pool = false) ∧
        results = subs.map Submission.result := by
  simp only [mapM_eq_ok, submit_eq_ok, List.forall₂_and_left]
  rw [← List.forall₂_map_left_iff (R := Eq), List.forall₂_eq_eq_eq, eq_comm (a := results)]

/-! ## The length of a folded result -/

/-- `collect` keeps the length of the batch. -/
theorem ends_collect (pairs : List (Staged τ × Bytes)) (out : List (Option (MemoryObj τ))) :
    (collect pairs out).Ends fun r => ∀ out', r = .ok out' → out'.length = out.length := by
  induction pairs generalizing out with
  | nil =>
      rintro out' ⟨⟩
      rfl
  | cons p pairs ih =>
      rw [collect]
      split
      · exact fun _ => ih out
      · have hset := ih (out.set p.1.pos (some (p.1.obj.fill p.2)))
        rwa [List.length_set] at hset

/-- Releasing buffers does not change how a program ends. -/
theorem ends_releaseAll {mos : List (MemoryObj τ)} {p : Io τ (List (Option (MemoryObj τ)))}
    {Q : Outcome τ → Prop} (hp : p.Ends Q) : (releaseAll mos p).Ends Q := by
  induction mos with
  | nil => exact hp
  | cons mo mos ih => exact fun _ => ih

/-- A folded read answers each of its layers. -/
theorem ends_getRawFolded (C : Codec τ) (dkey : Dkey) (layers : List ℕ) :
    (getRawFolded C dkey layers).Ends fun r => ∀ out, r = .ok out → out.length = layers.length := by
  rw [getRawFolded]
  cases layers.mapM akeyMetaLayer with
  | error e => rintro out ⟨⟩
  | ok maks =>
      intro ans
      rcases ans with e | got
      · rintro out ⟨⟩
      · refine Program.Ends.bind (Program.ends_trivial _) ?_
        intro r _
        rcases r with e | staged
        · rintro out ⟨⟩
        · simp only
          split
          · rintro out ⟨⟩
            exact List.length_map ..
          · intro ans
            rcases ans with e | readn
            · apply ends_releaseAll
              rintro out ⟨⟩
            · have h := ends_collect (staged.zip readn) (layers.map fun _ => none)
              rwa [List.length_map] at h

/-! ## One read per key -/

/-- A read of one address returns a list of one, unless it raises. -/
theorem produced_ofAddr {C : Codec τ} {a : Addr} {t : Calls τ} {r : Outcome τ}
    (hr : ((Read.ofAddr a).body C).Runs t r) : [outcomeAt r 0].reduceOption = produced r := by
  rw [body_ofAddr] at hr
  rcases runs_single.mp hr with ⟨r', -, rfl⟩
  cases r' <;> rfl

/-- The objects in the slots are those that the reads produced. -/
theorem reduceOption_map_outcomeAt {subs : List (Submission τ)}
    (h : ∀ sub ∈ subs, [outcomeAt sub.result 0].reduceOption = produced sub.result) :
    (subs.map fun sub => outcomeAt sub.result 0).reduceOption =
      (subs.map Submission.result).flatMap produced := by
  induction subs with
  | nil => rfl
  | cons sub subs ih =>
      have hrest := ih fun sub hsub => h sub (List.mem_cons_of_mem _ hsub)
      rw [List.map_cons, List.map_cons, List.flatMap_cons, ← hrest, ← h sub List.mem_cons_self,
        ← List.singleton_append, List.reduceOption_append]

/-- Reads that are not folded serve each key in its slot. -/
theorem serves_each {C : Codec τ} {raw : Bool} {keys : List Key}
    (hg : foldedGroups raw keys = none) {subs : List (Submission τ)}
    (hruns : Executes C raw keys subs) :
    Serves raw keys (subs.map Submission.result)
      (assemble raw keys (subs.map Submission.result)) := by
  have hreads : batchReads raw keys = keys.map fun k => .ofAddr (addr raw k) := by
    rw [batchReads, hg]
  have hlen : keys.length = subs.length := by
    have := hruns.length_eq
    rwa [hreads, List.length_map] at this
  have hres : assemble raw keys (subs.map Submission.result) =
      subs.map fun sub => outcomeAt sub.result 0 := by
    rw [assemble, hg]
    simp
  rw [hres]
  constructor
  · rw [List.length_map, hlen]
  · intro i key hkey
    rcases List.getElem?_eq_some_iff.mp hkey with ⟨hi, -⟩
    have hsub : subs[i]? = some subs[i] := List.getElem?_eq_getElem (by omega)
    refine ⟨.ofAddr (addr raw key), (subs[i]).result, 0, ?_, ?_, ?_⟩
    · apply List.mem_of_getElem? (i := i)
      rw [List.getElem?_zip_eq_some, hreads, List.getElem?_map, List.getElem?_map, hkey, hsub]
      exact ⟨rfl, rfl⟩
    · rw [targets_ofAddr]
      rfl
    · rw [List.getElem?_map, hsub]
      rfl
  · rw [reduceOption_map_outcomeAt]
    intro sub hsub
    rcases hruns.exists_read hsub with ⟨rd, hrd, t, hr⟩
    rw [hreads] at hrd
    rcases List.mem_map.mp hrd with ⟨k, -, rfl⟩
    exact produced_ofAddr hr

/-! ## One read per chunk -/

/-- The positions a group's read is for, each with what it came to. -/
def placed (x : (Dkey × List (ℕ × ℕ)) × Outcome τ) : List (ℕ × Option (MemoryObj τ)) :=
  x.1.2.zipIdx.map fun m => (m.1.1, outcomeAt x.2 m.2)

section Placed

variable {x : (Dkey × List (ℕ × ℕ)) × Outcome τ}

/-- A group's objects go to the group's positions. -/
theorem map_fst_placed (x : (Dkey × List (ℕ × ℕ)) × Outcome τ) :
    (placed x).map Prod.fst = x.1.2.map Prod.fst := by
  rw [placed, List.map_map]
  have hfst : (Prod.fst ∘ fun m : (ℕ × ℕ) × ℕ => (m.1.1, outcomeAt x.2 m.2)) =
      Prod.fst ∘ Prod.fst := rfl
  rw [hfst, ← List.map_map, List.zipIdx_map_fst]

/-- Nothing of a group is lost when it is placed. -/
theorem reduceOption_placed (hlen : ∀ out, x.2 = .ok out → out.length = x.1.2.length) :
    ((placed x).map Prod.snd).reduceOption = produced x.2 := by
  rcases x with ⟨⟨dkey, members⟩, r⟩
  have hsnd : (placed ((dkey, members), r)).map Prod.snd =
      (List.range members.length).map (outcomeAt r) := by
    rw [placed, List.map_map, List.range_eq_range', ← List.zipIdx_map_snd 0 members, List.map_map]
    rfl
  rw [hsnd]
  cases r with
  | error e =>
      have hnone : (List.range members.length).map (outcomeAt (.error e : Outcome τ)) =
          List.replicate members.length none := by
        show (List.range members.length).map (fun _ => none) = _
        rw [List.map_const', List.length_range]
      rw [hnone, List.reduceOption_replicate_none]
      rfl
  | ok got =>
      have hgot : (List.range members.length).map (outcomeAt (.ok got)) = got := by
        rw [← hlen got rfl]
        apply List.ext_getElem
        · simp
        · intro i _ hi
          simp [outcomeAt, hi]
      rw [hgot]
      rfl

/-- Each position of a group gets its own object. -/
theorem getElem?_scatterGroup (hnodup : (x.1.2.map Prod.fst).Nodup)
    (hlen : ∀ out, x.2 = .ok out → out.length = x.1.2.length)
    {res : List (Option (MemoryObj τ))} (hres : ∀ i ∈ x.1.2.map Prod.fst, res[i]? = some none)
    {q : ℕ × Option (MemoryObj τ)} (hq : q ∈ placed x) :
    (scatterGroup res x)[q.1]? = some q.2 := by
  rcases x with ⟨⟨dkey, members⟩, r⟩
  rcases List.mem_map.mp hq with ⟨⟨⟨i, l⟩, p⟩, hmem, rfl⟩
  have hp : members[p]? = some (i, l) := List.mem_zipIdx_iff_getElem?.mp hmem
  have hi := hres i (List.mem_map_of_mem (f := Prod.fst) (List.mem_of_getElem? hp))
  cases r with
  -- a read that failed leaves the `None`s
  | error e => exact hi
  | ok got =>
      have hlt : p < got.length := by
        rw [hlen got rfl]
        exact (List.getElem?_eq_some_iff.mp hp).1
      apply Groups.getElem?_scatter_of_mem
      · exact (Groups.sublist_fst_zip _ got).nodup hnodup
      · apply List.mem_of_getElem? (i := p)
        rw [List.getElem?_zip_eq_some, List.getElem?_map, hp]
        simp [outcomeAt, hlt]
      · exact (List.getElem?_eq_some_iff.mp hi).1

end Placed

/-- Nothing of any group is lost. -/
theorem reduceOption_flatMap_placed {xs : List ((Dkey × List (ℕ × ℕ)) × Outcome τ)}
    (hlen : ∀ x ∈ xs, ∀ out, x.2 = .ok out → out.length = x.1.2.length) :
    ((xs.flatMap placed).map Prod.snd).reduceOption = xs.flatMap fun x => produced x.2 := by
  induction xs with
  | nil => rfl
  | cons x xs ih =>
      rw [List.flatMap_cons, List.flatMap_cons, List.map_append, List.reduceOption_append,
        reduceOption_placed (hlen x List.mem_cons_self),
        ih fun x hx => hlen x (List.mem_cons_of_mem _ hx)]

/-- Scattering keeps the length of the batch. -/
theorem length_scatterGroups (xs : List ((Dkey × List (ℕ × ℕ)) × Outcome τ))
    (res : List (Option (MemoryObj τ))) : (xs.foldl scatterGroup res).length = res.length := by
  induction xs generalizing res with
  | nil => rfl
  | cons x xs ih =>
      rw [List.foldl_cons, ih]
      rcases x with ⟨g, r⟩
      cases r with
      | error e => rfl
      | ok got => exact Groups.length_scatter ..

/-- The groups of a batch, each with what its read came to. -/
def answered (groups : List (Dkey × List (ℕ × ℕ))) (subs : List (Submission τ)) :
    List ((Dkey × List (ℕ × ℕ)) × Outcome τ) :=
  groups.zip (subs.map Submission.result)

section Folded

variable {C : Codec τ} {keys : List Key} {groups : List (Dkey × List (ℕ × ℕ))}
variable {subs : List (Submission τ)}

/-- Folded, a batch is one read for each group. -/
theorem batchReads_folded (hg : foldedGroups true keys = some groups) :
    batchReads true keys = groups.map fun g => .folded g.1 (g.2.map Prod.snd) := by
  rw [batchReads, hg]

/-- So there are as many groups as results. -/
theorem length_groups (hg : foldedGroups true keys = some groups)
    (hruns : Executes C true keys subs) : groups.length = (subs.map Submission.result).length := by
  have hlen := hruns.length_eq
  rw [batchReads_folded hg, List.length_map] at hlen
  rw [List.length_map, hlen]

/-- And a result has one entry for each key of its group. -/
theorem length_of_answered (hg : foldedGroups true keys = some groups)
    (hruns : Executes C true keys subs) {x : (Dkey × List (ℕ × ℕ)) × Outcome τ}
    (hx : x ∈ answered groups subs) (out : List (Option (MemoryObj τ))) (hout : x.2 = .ok out) :
    out.length = x.1.2.length := by
  rcases List.getElem?_of_mem hx with ⟨n, hn⟩
  rcases List.getElem?_zip_eq_some.mp hn with ⟨hgn, hrn⟩
  rw [List.getElem?_map] at hrn
  rcases Option.map_eq_some_iff.mp hrn with ⟨sub, hsub, hr⟩
  have hread : (batchReads true keys)[n]? = some (.folded x.1.1 (x.1.2.map Prod.snd)) := by
    rw [batchReads_folded hg, List.getElem?_map, hgn]
    rfl
  rcases hruns.of_getElem? hread hsub with ⟨t, hrun⟩
  have hend := (ends_getRawFolded C _ _).of_runs hrun out (by rw [hr, hout])
  rw [hend, List.length_map]

/-- The positions answered are those of the groups. -/
theorem positions_answered (hlen : groups.length = (subs.map Submission.result).length) :
    ((answered groups subs).flatMap fun x => x.1.2.map Prod.fst) =
      groups.flatMap fun g => g.2.map Prod.fst := by
  have hfst : (answered groups subs).map Prod.fst = groups :=
    List.map_fst_zip (Nat.le_of_eq hlen)
  conv => rhs; rw [← hfst, List.flatMap_map]

/-- What a read came to stands where the batch wants it: no two groups share a
position, so no later group overwrites it. -/
theorem getElem?_answered (hg : foldedGroups true keys = some groups)
    (hruns : Executes C true keys subs) {q : ℕ × Option (MemoryObj τ)}
    (hq : q ∈ (answered groups subs).flatMap placed) :
    ((answered groups subs).foldl scatterGroup (keys.map fun _ => none))[q.1]? = some q.2 := by
  have hgrouping := foldedGroups_grouping hg
  have hnodup := hgrouping.nodup_positions
  rcases List.mem_flatMap.mp hq with ⟨x, hx, hqx⟩
  have hi : q.1 ∈ x.1.2.map Prod.fst := by
    rw [← map_fst_placed]
    exact List.mem_map_of_mem hqx
  have hxg : x.1 ∈ groups := (List.of_mem_zip hx).1
  rw [getElem?_scatterGroups (positions_answered (length_groups hg hruns) ▸ hnodup) hx hi]
  apply getElem?_scatterGroup ((List.nodup_flatMap.mp hnodup).1 _ hxg)
    (length_of_answered hg hruns hx) _ hqx
  -- the list starts out with `None` everywhere
  intro i hi
  rw [List.getElem?_map, List.getElem?_eq_getElem (hgrouping.position_lt hxg hi)]
  rfl

/-- Folded reads serve each key in its slot. -/
theorem serves_folded (hg : foldedGroups true keys = some groups)
    (hruns : Executes C true keys subs) :
    Serves true keys (subs.map Submission.result)
      (assemble true keys (subs.map Submission.result)) := by
  have hgrouping := foldedGroups_grouping hg
  have hlen := length_groups hg hruns
  have hres : assemble true keys (subs.map Submission.result) =
      (answered groups subs).foldl scatterGroup (keys.map fun _ => none) := by
    rw [assemble, hg]
    rfl
  rw [hres]
  constructor
  · rw [length_scatterGroups, List.length_map]
  · -- a key is a member of one group, at the place its layer has in it
    intro i key hkey
    rcases hgrouping.exists_group hkey with ⟨g, hgm, l, haddr, hin⟩
    rcases List.getElem?_of_mem hgm with ⟨n, hn⟩
    rcases List.getElem?_of_mem hin with ⟨p, hp⟩
    have hlt : n < (subs.map Submission.result).length := by
      rw [← hlen]
      exact (List.getElem?_eq_some_iff.mp hn).1
    have hrn := List.getElem?_eq_getElem hlt
    refine ⟨.folded g.1 (g.2.map Prod.snd), (subs.map Submission.result)[n], p, ?_, ?_, ?_⟩
    · apply List.mem_of_getElem? (i := n)
      rw [List.getElem?_zip_eq_some, batchReads_folded hg, List.getElem?_map, hn]
      exact ⟨rfl, hrn⟩
    · show ((g.2.map Prod.snd).map _)[p]? = some (Addr.raw (rawAddr key))
      rw [List.getElem?_map, List.getElem?_map, hp, haddr]
      rfl
    · have hx : (g, (subs.map Submission.result)[n]) ∈ answered groups subs :=
        List.mem_of_getElem? (List.getElem?_zip_eq_some.mpr ⟨hn, hrn⟩)
      apply getElem?_answered (q := (i, _)) hg hruns
      refine List.mem_flatMap.mpr ⟨_, hx, List.mem_map.mpr ⟨((i, l), p), ?_, rfl⟩⟩
      exact List.mem_zipIdx_iff_getElem?.mpr hp
  · -- the positions of the groups are all positions, so the values are all there are
    have hplaces : (((answered groups subs).flatMap placed).map Prod.fst).Perm (List.range
        ((answered groups subs).foldl scatterGroup (keys.map fun _ => none)).length) := by
      rw [length_scatterGroups, List.length_map, List.map_flatMap]
      simp only [map_fst_placed]
      rw [positions_answered hlen]
      exact hgrouping.positions
    have hperm := (Groups.perm_of_getElem? hplaces
      fun q hq => getElem?_answered hg hruns hq).symm.filterMap id
    have hsnd : (answered groups subs).map Prod.snd = subs.map Submission.result :=
      List.map_snd_zip (Nat.le_of_eq hlen.symm)
    have hproduced : (((answered groups subs).flatMap placed).map Prod.snd).reduceOption =
        (subs.map Submission.result).flatMap produced := by
      rw [← hsnd, List.flatMap_map]
      exact reduceOption_flatMap_placed fun x hx => length_of_answered hg hruns hx
    rw [← hproduced]
    exact hperm

end Folded

/-! ## Every batch -/

/-- Folded or not, each key is served in its slot. -/
theorem serves_assemble {C : Codec τ} {raw : Bool} {keys : List Key} {subs : List (Submission τ)}
    (hruns : Executes C raw keys subs) :
    Serves raw keys (subs.map Submission.result)
      (assemble raw keys (subs.map Submission.result)) := by
  cases hg : foldedGroups raw keys with
  | none => exact serves_each hg hruns
  | some groups =>
      cases raw with
      | false => cases hg
      | true => exact serves_folded hg hruns

/-- For every batch, whatever its reads come to and whatever state the detector
is in at each submission, `batched_get` returns a list that serves the keys if
and only if it submits every read. -/
theorem batch_served_iff (cfg : IoPool.PoolConfig) (C : Codec τ) (raw : Bool) (keys : List Key)
    {subs : List (Submission τ)} (hruns : Executes C raw keys subs) :
    (∃ res, batchedGetOn cfg raw keys subs = .ok res ∧
        Serves raw keys (subs.map Submission.result) res) ↔
      ∀ sub ∈ subs, IoPool.wedged cfg sub.pool = false := by
  constructor
  · rintro ⟨res, hres, -⟩
    cases hgather : subs.mapM (submit cfg) with
    -- a submission was refused: `_run` raises before there is a gather
    | error e =>
        rw [batchedGetOn, hgather] at hres
        cases hres
    | ok results => exact (mapM_submit_eq_ok.mp hgather).1
  · intro hfree
    refine ⟨_, ?_, serves_assemble hruns⟩
    rw [batchedGetOn, mapM_submit_eq_ok.mpr ⟨hfree, rfl⟩]
    rfl

/-- One worker, idle for a minute: the second of two reads finds it saturated. -/
def oneWorker : IoPool.PoolConfig := ⟨1, 60, Nat.one_pos⟩

def idlePool : IoPool.St := { IoPool.initial oneWorker 0 with now := 61 }

def onePending : IoPool.St := { idlePool with inflight := 1, queue := [0] }

def twoKeys : List Key := [⟨"m@1@0@ff", "m@1@0@ff", none⟩, ⟨"m@1@0@ee", "m@1@0@ee", none⟩]

/-- Every path has `smallBlob` under it. -/
def blobAnywhere (w : World (List ℕ)) : (o : Op (List ℕ)) → Ans o × World (List ℕ)
  | .openRdonly _ => handler fourBytes w (.openRdonly "/o")
  | o => handler fourBytes w o

/-- The object in `smallBlob`, in the buffer of four bytes it is read into. -/
def smallRead : MemoryObj (List ℕ) := ⟨0, [7, 8, 0, 0], []⟩

/-- A run of the read that finds the small object. -/
theorem runs_smallRead (path : String) :
    ∃ t, ((Read.dfs path).body fieldCodec).Runs t (.ok [some smallRead]) := by
  have hrun := Program.runs_trace blobAnywhere ((Read.dfs path).body fieldCodec)
    (worldWith smallBlob)
  have hres : (((Read.dfs path).body fieldCodec).run blobAnywhere (worldWith smallBlob)).1 =
      .ok [some smallRead] := by
    rfl
  rw [hres] at hrun
  exact ⟨_, hrun⟩

/-- Two such reads, whatever the pool is like. -/
theorem executes_twoKeys (first second : IoPool.St) :
    Executes fieldCodec false twoKeys [⟨first, .ok [some smallRead]⟩,
      ⟨second, .ok [some smallRead]⟩] := by
  exact .cons (runs_smallRead _) (.cons (runs_smallRead _) .nil)

/-- Two keys on an idle pool. -/
theorem two_reads_served :
    ∃ res, batchedGetOn oneWorker false twoKeys [⟨idlePool, .ok [some smallRead]⟩,
        ⟨idlePool, .ok [some smallRead]⟩] = .ok res ∧
      Serves false twoKeys [.ok [some smallRead], .ok [some smallRead]] res :=
  (batch_served_iff oneWorker fieldCodec false twoKeys (executes_twoKeys idlePool idlePool)).mpr
    (by decide)

/-- The second submission is refused: `batched_get` raises, and the object of
the first read is in no list. -/
theorem refused_submission_raises :
    Executes fieldCodec false twoKeys [⟨idlePool, .ok [some smallRead]⟩,
        ⟨onePending, .ok [some smallRead]⟩] ∧
      ¬ ∃ res, batchedGetOn oneWorker false twoKeys [⟨idlePool, .ok [some smallRead]⟩,
          ⟨onePending, .ok [some smallRead]⟩] = .ok res ∧
        Serves false twoKeys [.ok [some smallRead], .ok [some smallRead]] res := by
  refine ⟨executes_twoKeys idlePool onePending, ?_⟩
  rintro ⟨res, hres, -⟩
  have hraised : batchedGetOn oneWorker false twoKeys [⟨idlePool, .ok [some smallRead]⟩,
      ⟨onePending, .ok [some smallRead]⟩] = .error ⟨1, 61⟩ := by decide +kernel
  rw [hraised] at hres
  cases hres

end LmcacheDaos.Connector
