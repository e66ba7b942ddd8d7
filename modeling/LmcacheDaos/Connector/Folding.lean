import LmcacheDaos.Connector.Sequential

/-!
# Folding the layers of a chunk

`batched_get` and `batched_put` send the layers of one chunk in one call. On
storage that does not fail this changes nothing: a batch returns, position by
position, what a read of each key returns, and hands the same buffers back
(`exec_batchedGet`); a batch of writes leaves the store that one write per key
leaves (`exec_batchedPut`). `_group_layers` reorders the keys of a batch, so the
first is about scattering to positions and the second about writes that commute.
-/

namespace LmcacheDaos.Connector

open Lib Serde

variable {τ α : Type} {alloc : Allocator τ}

/-! ## Grouping -/

/-- A member of a group: the address and the position it stands for. -/
def member (m : Dkey × ℕ × ℕ) : RawAddr × ℕ := (⟨m.1, some m.2.2⟩, m.2.1)

/-- The groups hold the addresses of the batch with their positions, those of
one dkey in the batch's order. -/
theorem groupFrom_reordered {addrs : List RawAddr} {i : ℕ} {groups out : List (Dkey × List (ℕ × ℕ))}
    (hnodup : (groups.map Prod.fst).Nodup) (h : groupFrom i addrs groups = some out) :
    Groups.Reordered (·.1.dkey) ((Groups.flat out).map member)
      ((Groups.flat groups).map member ++ addrs.zipIdx i) := by
  induction addrs generalizing i groups with
  | nil =>
      cases h
      rw [List.zipIdx_nil, List.append_nil]
      exact .refl _ _
  | cons a as ih =>
      rcases a with ⟨dkey, layer⟩
      cases layer with
      | none => cases h
      | some l =>
          have happend : Groups.Reordered (·.1.dkey)
              ((Groups.flat (Groups.append dkey (i, l) groups)).map member)
              ((Groups.flat groups).map member ++ [(⟨dkey, some l⟩, i)]) := by
            have h := (Groups.reordered_flat_append hnodup dkey (i, l)).map member
              (·.1.dkey) fun _ => rfl
            rwa [List.map_append] at h
          have hrest := (ih (Groups.nodup_keys_append hnodup) h).trans (happend.append_right _)
          rwa [List.append_assoc] at hrest

/-- Each dkey has one group. -/
theorem groupFrom_nodup {addrs : List RawAddr} {i : ℕ} {groups out : List (Dkey × List (ℕ × ℕ))}
    (hnodup : (groups.map Prod.fst).Nodup) (h : groupFrom i addrs groups = some out) :
    (out.map Prod.fst).Nodup := by
  induction addrs generalizing i groups with
  | nil =>
      cases h
      exact hnodup
  | cons a as ih =>
      rcases a with ⟨dkey, layer⟩
      cases layer with
      | none => cases h
      | some l => exact ih (Groups.nodup_keys_append hnodup) h

/-- What `_group_layers` gives when the batch is folded. -/
structure Grouping (keys : List Key) (groups : List (Dkey × List (ℕ × ℕ))) : Prop where
  nodup : (groups.map Prod.fst).Nodup
  reordered : Groups.Reordered (·.1.dkey) ((Groups.flat groups).map member)
    (keys.map rawAddr).zipIdx

/-- The groups of a batch have its positions and layers. -/
theorem foldedGroups_grouping {keys : List Key} {groups : List (Dkey × List (ℕ × ℕ))}
    (h : foldedGroups true keys = some groups) : Grouping keys groups := by
  have hgroups : groupLayers (keys.map rawAddr) = some groups :=
    (Option.filter_eq_some_iff.mp h).1
  have hnil : (([] : List (Dkey × List (ℕ × ℕ))).map Prod.fst).Nodup := List.nodup_nil
  exact ⟨groupFrom_nodup hnil hgroups, groupFrom_reordered hnil hgroups⟩

/-! ## Reading -/

/-- What a fault-free read of an address needs to return, not raise. -/
structure Fetchable (alloc : Allocator τ) (C : Codec τ) (st : ObjStore) (a : RawAddr) : Prop where
  layer : LayerOk a.layer
  fits : Fits (metaAt st a)
  adequate : Adequate alloc C (metaAt st a)

/-- A read of an address after `c` allocations. -/
def readAt (alloc : Allocator τ) (C : Codec τ) (st : ObjStore) (c : ℕ) (a : RawAddr) :
    Option (MemoryObj τ) × List (MemoryObj τ) × ℕ :=
  readLayer alloc C c (metaAt st a) (payloadAt st a)

/-- Two reads in a row. -/
theorem World.read_read (w : World τ) (r r' : List (MemoryObj τ) × ℕ) :
    (w.read r).read r' = w.read (r.1 ++ r'.1, r'.2) := by
  simp [World.read]

/-- A batch read in two parts. -/
theorem readAll_append (C : Codec τ) (st : ObjStore) (as bs : List RawAddr) (c : ℕ) :
    readAll alloc C st c (as ++ bs) =
      let r := readAll alloc C st c as
      let rs := readAll alloc C st r.2.2 bs
      (r.1 ++ rs.1, r.2.1 ++ rs.2.1, rs.2.2) := by
  induction as generalizing c with
  | nil => rfl
  | cons a as ih => simp [readAll, ih]

/-- One entry for each address. -/
theorem length_readAll (C : Codec τ) (st : ObjStore) (as : List RawAddr) (c : ℕ) :
    (readAll alloc C st c as).1.length = as.length := by
  induction as generalizing c with
  | nil => rfl
  | cons a as ih => simp [readAll, ih]

/-- The calls of a batch run one after the other. -/
theorem exec_gather_cons {p : Io τ α} {ps : List (Io τ α)} {w w' w'' : World τ} {r : Except Err α}
    {rs : List (Except Err α)} (h : exec alloc p w = (r, w'))
    (hs : exec alloc (gather ps) w' = (rs, w'')) :
    exec alloc (gather (p :: ps)) w = (r :: rs, w'') := by
  rw [gather, exec_bind, h, exec_map, hs]

/-- Unfolded reads are reads one after the other. -/
theorem exec_gather_getRaw {C : Codec τ} {as : List RawAddr} {w : World τ}
    (h : ∀ a ∈ as, Fetchable alloc C w.obj a) :
    exec alloc (gather (as.map fun a => getRaw C a)) w =
      let r := readAll alloc C w.obj w.allocs as
      (r.1.map .ok, w.read r.2) := by
  induction as generalizing w with
  | nil => simp [gather, exec_ret, readAll, World.read]
  | cons a as ih =>
      have ha := h a List.mem_cons_self
      have hrest := ih (w := w.read (readAt alloc C w.obj w.allocs a).2)
        fun b hb => h b (List.mem_cons_of_mem _ hb)
      rw [List.map_cons,
        exec_gather_cons (exec_getRaw ha.layer ha.fits ha.adequate) hrest, World.read_read]
      rfl

/-- One group's results into their positions. -/
def scatterGroup (res : List (Option (MemoryObj τ)))
    (g : (Dkey × List (ℕ × ℕ)) × Except Err (List (Option (MemoryObj τ)))) :
    List (Option (MemoryObj τ)) :=
  match g.2 with
  | .error _ => res
  | .ok got => Groups.scatter res ((g.1.2.map Prod.fst).zip got)

/-- Folded reads are reads one after the other as well, in the groups' order. -/
theorem exec_gather_folded {C : Codec τ} {groups : List (Dkey × List (ℕ × ℕ))} {w : World τ}
    (h : ∀ m ∈ (Groups.flat groups).map member, Fetchable alloc C w.obj m.1)
    (res : List (Option (MemoryObj τ))) :
    let r := exec alloc (gather (groups.map fun g => getRawFolded C g.1 (g.2.map Prod.snd))) w
    let all := readAll alloc C w.obj w.allocs (((Groups.flat groups).map member).map Prod.fst)
    (groups.zip r.1).foldl scatterGroup res =
        Groups.scatter res ((((Groups.flat groups).map member).map Prod.snd).zip all.1) ∧
      r.2 = w.read all.2 := by
  induction groups generalizing w res with
  | nil =>
      constructor
      · rfl
      · simp [gather, exec_ret, Groups.flat, readAll, World.read]
  | cons g groups ih =>
      -- the group's own part of the addresses and positions
      have haddrs : ((g.2.map fun v => (g.1, v)).map member).map Prod.fst =
          layerAddrs g.1 (g.2.map Prod.snd) := by
        simp [layerAddrs, member]
      have hpos : ((g.2.map fun v => (g.1, v)).map member).map Prod.snd = g.2.map Prod.fst := by
        simp [member]
      rw [Groups.flat_cons, List.map_append] at h ⊢
      have hone : ∀ l ∈ g.2.map Prod.snd, Fetchable alloc C w.obj ⟨g.1, some l⟩ := by
        intro l hl
        obtain ⟨m, hm, rfl⟩ := List.mem_map.mp hl
        exact h _ (List.mem_append_left _ (List.mem_map_of_mem (List.mem_map_of_mem hm)))
      -- the first group is read in one call
      have hexec := exec_getRawFolded (fun l hl => (hone l hl).layer)
        (fun l hl => (hone l hl).fits) (fun l hl => (hone l hl).adequate)
      -- and the others from the world after it
      have hrest := ih (w := w.read (readAll alloc C w.obj w.allocs
          (layerAddrs g.1 (g.2.map Prod.snd))).2)
        (fun m hm => h m (List.mem_append_right _ hm))
        (Groups.scatter res ((g.2.map Prod.fst).zip (readAll alloc C w.obj w.allocs
          (layerAddrs g.1 (g.2.map Prod.snd))).1))
      rw [List.map_cons, exec_gather_cons hexec rfl, List.map_append, List.map_append, haddrs, hpos,
        readAll_append]
      dsimp only
      -- one part scattered, then the rest
      rw [List.zip_append (by simp [length_readAll, layerAddrs]), Groups.scatter_append]
      constructor
      · exact hrest.1
      · exact hrest.2.trans (World.read_read ..)

/-- Reads one after the other are reads of each address by itself, after some
number of allocations. -/
theorem exists_allocs (alloc : Allocator τ) (C : Codec τ) (st : ObjStore)
    {placed : List (RawAddr × ℕ)}
    (hnodup : (placed.map Prod.snd).Nodup) (c₀ : ℕ) : ∃ c : ℕ → ℕ,
      (readAll alloc C st c₀ (placed.map Prod.fst)).1 =
        placed.map (fun p => (readAt alloc C st (c p.2) p.1).1) ∧
      (readAll alloc C st c₀ (placed.map Prod.fst)).2.1 =
        placed.flatMap fun p => (readAt alloc C st (c p.2) p.1).2.1 := by
  induction placed generalizing c₀ with
  | nil => exact ⟨fun _ => 0, rfl, rfl⟩
  | cons p ps ih =>
      rw [List.map_cons, List.nodup_cons] at hnodup
      obtain ⟨c, hres, hrel⟩ := ih hnodup.2 (readAt alloc C st c₀ p.1).2.2
      have hother : ∀ q ∈ ps, readAt alloc C st (Function.update c p.2 c₀ q.2) q.1 =
          readAt alloc C st (c q.2) q.1 := by
        intro q hq
        rw [Function.update_of_ne]
        intro heq
        exact hnodup.1 (heq ▸ List.mem_map_of_mem hq)
      refine ⟨Function.update c p.2 c₀, ?_, ?_⟩
      · rw [← List.map_congr_left fun q hq => congrArg Prod.fst (hother q hq)] at hres
        rw [List.map_cons, List.map_cons, Function.update_self, ← hres]
        rfl
      · rw [← List.flatMap_congr fun q hq => congrArg (·.2.1) (hother q hq)] at hrel
        rw [List.map_cons, List.flatMap_cons, Function.update_self, ← hrel]
        rfl

/-- `batched_get` on the object API, folded or not. -/
theorem exec_batchedGet {C : Codec τ} {keys : List Key} {w : World τ}
    (h : ∀ k ∈ keys, Fetchable alloc C w.obj (rawAddr k)) : ∃ c : ℕ → ℕ,
      let r := exec alloc (batchedGet C true keys) w
      r.1 = (keys.map rawAddr).zipIdx.map (fun p => (readAt alloc C w.obj (c p.2) p.1).1) ∧
      r.2.released.Perm (w.released ++
        (keys.map rawAddr).zipIdx.flatMap fun p => (readAt alloc C w.obj (c p.2) p.1).2.1) ∧
      r.2.obj = w.obj := by
  have hpos : ((keys.map rawAddr).zipIdx.map Prod.snd).Nodup := by
    rw [List.zipIdx_map_snd]
    exact List.nodup_range'
  have haddr : ∀ a ∈ keys.map rawAddr, Fetchable alloc C w.obj a := by
    intro a ha
    obtain ⟨k, hk, rfl⟩ := List.mem_map.mp ha
    exact h k hk
  unfold batchedGet
  cases hg : foldedGroups true keys with
  | none =>
      -- every address is read with a buffer of its own
      obtain ⟨c, hres, hrel⟩ := exists_allocs alloc C w.obj hpos w.allocs
      rw [List.zipIdx_map_fst] at hres hrel
      have hcalls : (keys.map fun k => getSync C (addr true k)) =
          (keys.map rawAddr).map fun a => getRaw C a := by
        rw [List.map_map]
        rfl
      refine ⟨c, ?_⟩
      dsimp only
      rw [exec_map, hcalls, exec_gather_getRaw haddr]
      dsimp only
      rw [← hres, ← hrel]
      refine ⟨?_, .refl _, rfl⟩
      rw [List.map_map]
      exact List.map_id _
  | some groups =>
      -- grouping permutes the addresses; the positions put the results back
      have hperm := (foldedGroups_grouping hg).reordered.perm
      obtain ⟨c, hres, hrel⟩ := exists_allocs alloc C w.obj
        ((hperm.map Prod.snd).nodup_iff.mpr hpos) w.allocs
      obtain ⟨hscatter, hworld⟩ := exec_gather_folded
        (fun m hm => haddr _ (List.fst_mem_of_mem_zipIdx (hperm.mem_iff.mp hm)))
        (keys.map fun _ => none)
      refine ⟨c, ?_⟩
      dsimp only
      rw [exec_map]
      constructor
      · refine hscatter.trans ?_
        rw [hres, List.zip_map']
        -- scattering undoes the permutation
        exact Groups.scatter_of_perm hperm _ (by simp)
      · dsimp only
        rw [hworld]
        refine ⟨?_, rfl⟩
        show (w.released ++ _).Perm _
        rw [hrel]
        exact (hperm.flatMap_right _).append_left _

/-! ## Writing -/

/-- The writes for one object. -/
def writesOf (C : Codec τ) (e : RawAddr × MemoryObj τ) : List ObjStore.Write :=
  [⟨e.1.dkey, false, payloadItem e.1.layer e.2⟩, ⟨e.1.dkey, true, metaItem C e.1.layer e.2⟩]

/-- Objects written one after the other. -/
def storeAll (C : Codec τ) (st : ObjStore) (es : List (RawAddr × MemoryObj τ)) : ObjStore :=
  st.apply (es.flatMap (writesOf C))

/-- A batch stored in two parts. -/
theorem storeAll_append (C : Codec τ) (st : ObjStore) (es es' : List (RawAddr × MemoryObj τ)) :
    storeAll C st (es ++ es') = storeAll C (storeAll C st es) es' := by
  rw [storeAll, List.flatMap_append, ObjStore.apply_append]
  rfl

/-- Addresses that differ and have akeys. -/
structure Distinct (es : List (RawAddr × MemoryObj τ)) : Prop where
  nodup : (es.map Prod.fst).Nodup
  layer : ∀ e ∈ es, LayerOk e.1.layer

/-- A part of a distinct batch is distinct. -/
theorem Distinct.of_sublist {es es' : List (RawAddr × MemoryObj τ)} (h : Distinct es)
    (hsub : es'.Sublist es) : Distinct es' :=
  ⟨h.nodup.sublist (hsub.map _), fun e he => h.layer e (hsub.subset he)⟩

/-- So is any other order of it. -/
theorem Distinct.of_perm {es es' : List (RawAddr × MemoryObj τ)} (h : Distinct es)
    (hperm : es.Perm es') : Distinct es' :=
  ⟨(hperm.map _).nodup_iff.mp h.nodup, fun e he => h.layer e (hperm.mem_iff.mpr he)⟩

/-- The akeys of an address. -/
def places (a : RawAddr) : List (Dkey × Akey) :=
  [(a.dkey, payloadAkey a.layer), (a.dkey, metaAkey a.layer)]

/-- A place belongs to one address. -/
theorem eq_of_place {a b : RawAddr} (hl : LayerOk a.layer) (hl' : LayerOk b.layer) {p : Dkey × Akey}
    (h : p ∈ places a) (h' : p ∈ places b) : a = b := by
  simp only [places, List.mem_cons, List.not_mem_nil, or_false] at h h'
  rcases h with rfl | rfl
  · rcases h' with h' | h'
    · obtain ⟨hd, ha⟩ := Prod.mk.inj h'
      exact RawAddr.ext hd (payloadAkey_inj hl hl' ha)
    · exact absurd (Prod.mk.inj h').2 (payloadAkey_ne_metaAkey _ _)
  · rcases h' with h' | h'
    · exact absurd (Prod.mk.inj h').2.symm (payloadAkey_ne_metaAkey _ _)
    · obtain ⟨hd, ha⟩ := Prod.mk.inj h'
      exact RawAddr.ext hd (metaAkey_inj hl hl' ha)

/-- Each address has its two places. -/
theorem map_place_writes (C : Codec τ) (es : List (RawAddr × MemoryObj τ)) :
    (es.flatMap (writesOf C)).map ObjStore.Write.place = (es.map Prod.fst).flatMap places := by
  rw [List.map_flatMap, List.flatMap_map]
  rfl

/-- Distinct addresses share no place. -/
theorem Distinct.nodup_places {es : List (RawAddr × MemoryObj τ)} (h : Distinct es) (C : Codec τ) :
    ((es.flatMap (writesOf C)).map ObjStore.Write.place).Nodup := by
  rw [map_place_writes]
  induction es with
  | nil => exact List.nodup_nil
  | cons e es ih =>
      have hnodup := h.nodup
      rw [List.map_cons, List.nodup_cons] at hnodup
      rw [List.map_cons, List.flatMap_cons, List.nodup_append']
      refine ⟨?_, ih (h.of_sublist (List.sublist_cons_self e es)), ?_⟩
      · have hne := payloadAkey_ne_metaAkey e.1.layer e.1.layer
        simp [places, hne]
      · intro p hp hrest
        obtain ⟨a, ha, hpa⟩ := List.mem_flatMap.mp hrest
        obtain ⟨e', he', rfl⟩ := List.mem_map.mp ha
        have heq := eq_of_place (h.layer e List.mem_cons_self)
          (h.layer e' (List.mem_cons_of_mem _ he')) hp hpa
        exact hnodup.1 (heq ▸ ha)

/-- The order among different dkeys does not matter. -/
theorem storeAll_congr {C : Codec τ} {es es' : List (RawAddr × MemoryObj τ)}
    (h : Groups.Reordered (·.1.dkey) es es') (st : ObjStore) :
    storeAll C st es = storeAll C st es' := by
  apply ObjStore.apply_congr
  intro p
  rw [List.filter_flatMap, List.filter_flatMap]
  apply h.flatMap_eq (k := p.1)
  intro e hne
  rw [List.filter_eq_nil_iff]
  intro w hw hplace
  have hdkey : w.dkey = e.1.dkey := by
    simp only [writesOf, List.mem_cons, List.not_mem_nil, or_false] at hw
    rcases hw with rfl | rfl <;> rfl
  exact hne (hdkey.symm.trans (congrArg Prod.fst (of_decide_eq_true hplace)))

/-- What an address holds after its object was written. -/
theorem storeAll_mem {C : Codec τ} {es : List (RawAddr × MemoryObj τ)} (h : Distinct es)
    {e : RawAddr × MemoryObj τ} (he : e ∈ es) (st : ObjStore) :
    metaAt (storeAll C st es) e.1 = header (headerOf C e.2) ∧
      payloadAt (storeAll C st es) e.1 =
        e.2.byteArray ++ (payloadAt st e.1).drop e.2.byteArray.length := by
  have hmem : ∀ w ∈ writesOf C e, w ∈ es.flatMap (writesOf C) := fun w hw =>
    List.mem_flatMap.mpr ⟨e, he, hw⟩
  constructor
  · exact ObjStore.apply_mem (h.nodup_places C) (hmem _ (.tail _ (.head _))) st
  · rw [← ObjStore.writeValue_array]
    exact ObjStore.apply_mem (h.nodup_places C) (hmem _ (.head _)) st

/-- Every other address is as before. -/
theorem storeAll_other {C : Codec τ} {es : List (RawAddr × MemoryObj τ)} (h : Distinct es)
    {a : RawAddr} (hl : LayerOk a.layer) (ha : a ∉ es.map Prod.fst) (st : ObjStore) :
    metaAt (storeAll C st es) a = metaAt st a ∧
      payloadAt (storeAll C st es) a = payloadAt st a := by
  have hplace : ∀ p ∈ places a, p ∉ (es.flatMap (writesOf C)).map ObjStore.Write.place := by
    intro p hp hmem
    rw [map_place_writes] at hmem
    obtain ⟨b, hb, hpb⟩ := List.mem_flatMap.mp hmem
    obtain ⟨e, he, rfl⟩ := List.mem_map.mp hb
    exact ha (eq_of_place hl (h.layer e he) hp hpb ▸ hb)
  constructor
  · exact ObjStore.apply_other (hplace _ (.tail _ (.head _))) st
  · exact ObjStore.apply_other (hplace _ (.head _)) st

/-- Two kinds of which only one is looked for may be mixed. -/
theorem filter_mixed {ι β : Type} {f g : ι → β} {q : β → Bool}
    (h : (∀ x, q (f x) = false) ∨ ∀ x, q (g x) = false) (xs : List ι) :
    (xs.map f).filter q ++ (xs.map g).filter q = xs.flatMap fun x => [f x, g x].filter q := by
  induction xs with
  | nil => rfl
  | cons x xs ih =>
      rw [List.flatMap_cons, ← ih]
      rcases h with h | h
      · have hnone : (xs.map f).filter q = [] := by simp [List.filter_eq_nil_iff, h]
        cases hg : q (g x) <;> simp [h, hnone, hg]
      · cases hf : q (f x) <;> simp [h, hf]

/-- The writes of a chunk's layers are those of each layer. -/
theorem writeLayers_eq_storeAll (C : Codec τ) (st : ObjStore) (dkey : Dkey)
    (entries : List (Option ℕ × MemoryObj τ)) :
    writeLayers C st dkey entries = storeAll C st (entries.map fun e => (⟨dkey, e.1⟩, e.2)) := by
  rw [writeLayers, ObjStore.update_eq_apply, ObjStore.update_eq_apply, ← ObjStore.apply_append]
  apply ObjStore.apply_congr
  intro p
  rw [List.filter_append, List.flatMap_map, List.filter_flatMap, List.map_map, List.map_map]
  apply filter_mixed
  -- no akey is both a payload and a metadata akey
  by_cases hp : ∃ l, p.2 = metaAkey l
  · left
    intro e
    obtain ⟨l, hl⟩ := hp
    apply decide_eq_false
    intro heq
    exact payloadAkey_ne_metaAkey e.1 l ((congrArg Prod.snd heq).trans hl)
  · right
    intro e
    apply decide_eq_false
    intro heq
    exact hp ⟨e.1, (congrArg Prod.snd heq).symm⟩

/-- A call that writes its objects, or raises and writes none when the metadata
of one is too long. -/
structure Commits (alloc : Allocator τ) (C : Codec τ) (p : Io τ Unit)
    (es : List (RawAddr × MemoryObj τ)) : Prop where
  accepts : (∀ e ∈ es, (headerOf C e.2).Packable) → ∀ w,
    exec alloc p w = (.ok (), { w with obj := storeAll C w.obj es })
  refuses : (∃ e ∈ es, ¬ (headerOf C e.2).Packable) → ∀ w, ∃ err,
    exec alloc p w = (.error err, w)

/-- A put commits its entry, or refuses and changes nothing. -/
theorem commits_putRaw (alloc : Allocator τ) {C : Codec τ} {a : RawAddr} {mo : MemoryObj τ}
    (hfr : Framable C mo) (hl : LayerOk a.layer) :
    Commits alloc C (putRaw a (preppedOf C mo)) [(a, mo)] := by
  constructor
  · intro hpk w
    rw [exec_putRaw hfr hl (hpk _ (.head _))]
    rfl
  · rintro ⟨e, he, hno⟩ w
    rw [List.mem_singleton.mp he] at hno
    exact exec_putRaw_of_not_packable hfr a hno w

/-- A folded put commits all its entries, or none. -/
theorem commits_putRawFolded {C : Codec τ} {dkey : Dkey} {entries : List (ℕ × MemoryObj τ)}
    (hfr : ∀ e ∈ entries, Framable C e.2) (hl : ∀ e ∈ entries, LayerOk (some e.1)) :
    Commits alloc C (putRawFolded dkey (entries.map fun e => (e.1, preppedOf C e.2)))
      (entries.map fun e => (⟨dkey, some e.1⟩, e.2)) := by
  have hentries : (entries.map fun e => ((⟨dkey, some e.1⟩ : RawAddr), e.2)) =
      (entries.map fun e => (some e.1, e.2)).map fun e => (⟨dkey, e.1⟩, e.2) := by
    rw [List.map_map]
    rfl
  constructor
  · intro hpk w
    have hpk : ∀ e ∈ entries, (headerOf C e.2).Packable :=
      fun e he => hpk _ (List.mem_map_of_mem he)
    rw [exec_putRawFolded hfr hl hpk, writeLayers_eq_storeAll, hentries]
  · rintro ⟨e, he, hno⟩ w
    obtain ⟨e', he', rfl⟩ := List.mem_map.mp he
    exact exec_putRawFolded_of_not_packable dkey hfr ⟨e', he', hno⟩ w

/-- Every call of a batch runs: those that raise write nothing, the others all
of their objects. -/
theorem exec_gather_commits {C : Codec τ} {ps : List (Io τ Unit)}
    {ess : List (List (RawAddr × MemoryObj τ))} (h : List.Forall₂ (Commits alloc C) ps ess)
    (w : World τ) : ∃ rs done,
      exec alloc (gather ps) w = (rs, { w with obj := storeAll C w.obj done.flatten }) ∧
      done.Sublist ess ∧ (∀ e ∈ done.flatten, (headerOf C e.2).Packable) ∧
      ((∀ e ∈ ess.flatten, (headerOf C e.2).Packable) → firstError rs = .ok () ∧ done = ess) ∧
      ((∃ e ∈ ess.flatten, ¬ (headerOf C e.2).Packable) → ∃ err, firstError rs = .error err) := by
  -- on the calls; one that refuses does not stop those behind it
  induction h generalizing w with
  | nil =>
      refine ⟨[], [], rfl, .refl _, ?_, fun _ => ⟨rfl, rfl⟩, ?_⟩
      · intro e he
        cases he
      · rintro ⟨e, he, -⟩
        cases he
  | cons hp _ ih =>
      rename_i p es ps ess _
      by_cases hes : ∀ e ∈ es, (headerOf C e.2).Packable
      · -- the group is packable, so its call commits it
        obtain ⟨rs, done, hexec, hsub, hdone, hall, hsome⟩ :=
          ih { w with obj := storeAll C w.obj es }
        refine ⟨.ok () :: rs, es :: done, ?_, hsub.cons_cons es, ?_, ?_, ?_⟩
        · rw [exec_gather_cons (hp.accepts hes w) hexec, List.flatten_cons, storeAll_append]
        · intro e he
          rcases List.mem_append.mp he with he | he
          · exact hes e he
          · exact hdone e he
        · intro hpk
          obtain ⟨hok, rfl⟩ := hall fun e he => hpk e (List.mem_append_right _ he)
          exact ⟨hok, rfl⟩
        · rintro ⟨e, he, hno⟩
          rcases List.mem_append.mp he with he | he
          · exact absurd (hes e he) hno
          · exact hsome ⟨e, he, hno⟩
      · push Not at hes
        -- some header of the group does not fit its page, so the call refuses all of it
        obtain ⟨err, herr⟩ := hp.refuses hes w
        obtain ⟨rs, done, hexec, hsub, hdone, -, -⟩ := ih w
        refine ⟨.error err :: rs, done, exec_gather_cons herr hexec, hsub.cons es, hdone, ?_, ?_⟩
        · intro hpk
          obtain ⟨e, he, hno⟩ := hes
          exact absurd (hpk e (List.mem_append_left _ he)) hno
        · intro _
          exact ⟨err, rfl⟩

/-- One call per object. -/
theorem commits_each (alloc : Allocator τ) {C : Codec τ} {es : List (RawAddr × MemoryObj τ)}
    (h : ∀ e ∈ es, LayerOk e.1.layer ∧ Framable C e.2) :
    List.Forall₂ (Commits alloc C) (es.map fun e => putRaw e.1 (preppedOf C e.2))
      (es.map fun e => [e]) := by
  rw [List.forall₂_map_left_iff, List.forall₂_map_right_iff, List.forall₂_same]
  intro e he
  exact commits_putRaw alloc (h e he).2 (h e he).1

/-- One call per chunk. -/
theorem commits_groups (alloc : Allocator τ) (C : Codec τ) (groups : List (Dkey × List (ℕ × ℕ)))
    (objAt : ℕ → MemoryObj τ) (prepped : ℕ → Prepped)
    (h : ∀ m ∈ Groups.flat groups, (LayerOk (some m.2.2) ∧ Framable C (objAt m.2.1)) ∧
      prepped m.2.1 = preppedOf C (objAt m.2.1)) :
    List.Forall₂ (Commits alloc C)
      (groups.map fun g => putRawFolded g.1 (g.2.map fun m => (m.2, prepped m.1)))
      (groups.map fun g => g.2.map fun m => (⟨g.1, some m.2⟩, objAt m.1)) := by
  rw [List.forall₂_map_left_iff, List.forall₂_map_right_iff, List.forall₂_same]
  intro g hg
  have h : ∀ m ∈ g.2, (LayerOk (some m.2) ∧ Framable C (objAt m.1)) ∧
      prepped m.1 = preppedOf C (objAt m.1) :=
    fun m hm => h (g.1, m) (Groups.mem_flat.mpr ⟨g, hg, rfl, hm⟩)
  -- the entries of a group under its dkey
  have hentries : (g.2.map fun m => (m.2, objAt m.1)).map
      (fun e => ((⟨g.1, some e.1⟩ : RawAddr), e.2)) =
      g.2.map fun m => (⟨g.1, some m.2⟩, objAt m.1) := by
    rw [List.map_map]
    rfl
  -- what was prepared for a position is the position's object
  have hcall : (g.2.map fun m => (m.2, prepped m.1)) =
      (g.2.map fun m => (m.2, objAt m.1)).map fun e => (e.1, preppedOf C e.2) := by
    rw [List.map_map]
    exact List.map_congr_left fun m hm => congrArg (Prod.mk m.2) (h m hm).2
  rw [hcall, ← hentries]
  apply commits_putRawFolded
  · intro e he
    obtain ⟨m, hm, rfl⟩ := List.mem_map.mp he
    exact (h m hm).1.2
  · intro e he
    obtain ⟨m, hm, rfl⟩ := List.mem_map.mp he
    exact (h m hm).1.1

/-- Without folding a batch is one put for each key. -/
theorem putCalls_of_unfolded {C : Codec τ} {raw : Bool} {keys : List Key}
    {objs : List (MemoryObj τ)} (hg : foldedGroups raw keys = none) :
    (putCalls raw keys (objs.map (preppedOf C))).map Prod.snd =
      (keys.zip objs).map fun e => putSync (τ := τ) (addr raw e.1) (preppedOf C e.2) := by
  simp only [putCalls, hg]
  apply List.ext_getElem
  · simp
  · intro i _ _
    simp

/-- The calls of a batch write the objects of the batch. -/
theorem commits_putCalls (alloc : Allocator τ) {C : Codec τ} {keys : List Key}
    {objs : List (MemoryObj τ)} (hlen : keys.length = objs.length)
    (h : ∀ e ∈ (keys.map rawAddr).zip objs, LayerOk e.1.layer ∧ Framable C e.2) : ∃ ess,
      Groups.Reordered (·.1.dkey) ess.flatten ((keys.map rawAddr).zip objs) ∧
      List.Forall₂ (Commits alloc C)
        ((putCalls true keys (objs.map (preppedOf C))).map Prod.snd) ess := by
  cases hg : foldedGroups true keys with
  | none =>
      refine ⟨((keys.map rawAddr).zip objs).map fun e => [e], ?_, ?_⟩
      · rw [← List.flatMap_def, List.flatMap_singleton']
        exact .refl _ _
      · rw [putCalls_of_unfolded hg]
        have heach := commits_each alloc h
        rw [List.zip_map_left, List.map_map] at heach
        rw [List.zip_map_left]
        exact heach
  | some groups =>
      cases objs with
      | nil =>
          rw [List.length_nil, List.length_eq_zero_iff] at hlen
          subst hlen
          cases hg
      | cons o os =>
          -- `prepped[pos]` is for the object at the position
          have hzip : (keys.map rawAddr).zipIdx.map (fun p => (p.1, (o :: os).getD p.2 o)) =
              (keys.map rawAddr).zip (o :: os) := by
            apply List.ext_getElem
            · simp [hlen]
            · intro i hi _
              have hi : i < (o :: os).length := by simpa [hlen] using hi
              simp only [List.getElem_map, List.getElem_zipIdx, List.getElem_zip, Nat.zero_add,
                List.getD_eq_getElem _ _ hi]
          have hmembers := (foldedGroups_grouping hg).reordered
          have hall := hmembers.map (fun p => (p.1, (o :: os).getD p.2 o)) (·.1.dkey)
            fun _ => rfl
          rw [List.map_map, hzip] at hall
          refine ⟨groups.map fun g => g.2.map fun m => (⟨g.1, some m.2⟩, (o :: os).getD m.1 o),
            ?_, ?_⟩
          · rw [← List.flatMap_def]
            simp only [Groups.flat, List.map_flatMap, List.map_map] at hall
            exact hall
          · have hcommits := commits_groups alloc C groups (fun i => (o :: os).getD i o)
              (fun i => ((o :: os).map (preppedOf C)).getD i ⟨[], []⟩) ?_
            · simpa [putCalls, hg] using hcommits
            · intro m hm
              constructor
              · exact h _ (hall.perm.mem_iff.mp (List.mem_map_of_mem hm))
              · have hlt := List.snd_lt_of_mem_zipIdx
                  (hmembers.perm.mem_iff.mp (List.mem_map_of_mem hm))
                have hlt : m.2.1 < (o :: os).length := by simpa [hlen, member] using hlt
                rw [List.getD_eq_getElem _ _ hlt, List.getD_eq_getElem _ _ (by simpa using hlt)]
                exact List.getElem_map ..

/-- Legal keys and framable objects, entry by entry. -/
theorem writable_zip {C : Codec τ} {keys : List Key} {objs : List (MemoryObj τ)}
    (hl : ∀ k ∈ keys, LayerOk k.layer) (hfr : ∀ mo ∈ objs, Framable C mo) :
    ∀ e ∈ (keys.map rawAddr).zip objs, LayerOk e.1.layer ∧ Framable C e.2 := by
  intro e he
  obtain ⟨ha, hmo⟩ := List.of_mem_zip he
  obtain ⟨k, hk, hka⟩ := List.mem_map.mp ha
  exact ⟨hka ▸ hl k hk, hfr e.2 hmo⟩

/-- Framable objects are all prepared. -/
theorem mapM_prepWrite {C : Codec τ} {objs : List (MemoryObj τ)}
    (hfr : ∀ mo ∈ objs, Framable C mo) :
    objs.mapM (prepWrite C) = .ok (objs.map (preppedOf C)) := by
  apply mapM_of_ok
  intro mo hmo
  exact prepWrite_eq_ok.mpr ⟨hfr mo hmo, rfl⟩

/-- `batched_put` on the object API: every chunk is written or left alone, and
all are written unless it raises. -/
theorem exec_batchedPut (alloc : Allocator τ) {C : Codec τ} {keys : List Key}
    {objs : List (MemoryObj τ)}
    (hlen : keys.length = objs.length) (hl : ∀ k ∈ keys, LayerOk k.layer)
    (hfr : ∀ mo ∈ objs, Framable C mo) (w : World τ) : ∃ r done,
      exec alloc (batchedPut C true keys objs) w =
        (r, { w with obj := storeAll C w.obj done }) ∧
      done.Subperm ((keys.map rawAddr).zip objs) ∧ (∀ e ∈ done, (headerOf C e.2).Packable) ∧
      ((∀ mo ∈ objs, (headerOf C mo).Packable) → r = .ok () ∧
        Groups.Reordered (·.1.dkey) done ((keys.map rawAddr).zip objs)) ∧
      ((∃ mo ∈ objs, ¬ (headerOf C mo).Packable) → ∃ err, r = .error err) := by
  obtain ⟨ess, hre, hcalls⟩ := commits_putCalls alloc hlen (writable_zip hl hfr)
  obtain ⟨rs, done, hexec, hsub, hdone, hall, hsome⟩ := exec_gather_commits hcalls w
  refine ⟨firstError rs, done.flatten, ?_, ?_, hdone, ?_, ?_⟩
  · -- every object can be framed, so the batch gets as far as its calls
    rw [batchedPut, mapM_prepWrite hfr]
    show exec alloc ((gather _).map _) w = _
    rw [exec_map, hexec]
  · exact hsub.flatten.subperm.trans hre.perm.subperm
  · intro hpk
    obtain ⟨hok, rfl⟩ := hall fun e he =>
      hpk e.2 (List.of_mem_zip (hre.perm.mem_iff.mp he)).2
    exact ⟨hok, hre⟩
  · rintro ⟨mo, hmo, hno⟩
    -- the refused object is in some group
    apply hsome
    have hsnd : ((keys.map rawAddr).zip objs).map Prod.snd = objs :=
      List.map_snd_zip (by simp [hlen])
    rw [← hsnd] at hmo
    obtain ⟨e, he, rfl⟩ := List.mem_map.mp hmo
    exact ⟨e, hre.perm.mem_iff.mpr he, hno⟩

/-- A put of a framable object is its `_put_raw`. -/
theorem put_raw_eq {C : Codec τ} {mo : MemoryObj τ} (hfr : Framable C mo) (key : Key) :
    put C true key mo = putRaw (rawAddr key) (preppedOf C mo) := by
  rw [put, prepWrite_eq_ok.mpr ⟨hfr, rfl⟩]
  rfl

/-- One `put` after the other. -/
theorem exec_gather_put {C : Codec τ} {keys : List Key} {objs : List (MemoryObj τ)}
    (hl : ∀ k ∈ keys, LayerOk k.layer) (hfr : ∀ mo ∈ objs, Framable C mo)
    (hpk : ∀ mo ∈ objs, (headerOf C mo).Packable) (w : World τ) :
    (exec alloc (gather (List.zipWith (put C true) keys objs)) w).2 =
      { w with obj := storeAll C w.obj ((keys.map rawAddr).zip objs) } := by
  have hput : List.zipWith (put C true) keys objs =
      ((keys.map rawAddr).zip objs).map fun e => putRaw e.1 (preppedOf C e.2) := by
    apply List.ext_getElem
    · simp
    · intro i _ _
      simp [put_raw_eq (hfr _ (List.getElem_mem _))]
  obtain ⟨rs, done, hexec, -, -, hall, -⟩ :=
    exec_gather_commits (commits_each alloc (writable_zip hl hfr)) w
  have hflat : (((keys.map rawAddr).zip objs).map fun e => [e]).flatten =
      (keys.map rawAddr).zip objs := by
    rw [← List.flatMap_def, List.flatMap_singleton']
  rw [hflat] at hall
  obtain ⟨-, rfl⟩ := hall fun e he => hpk e.2 (List.of_mem_zip he).2
  rw [hput, hexec, hflat]

/-! ## Folding keeps the meaning -/

/-- `_get_raw` of one key by itself, after `c` allocations. -/
def getAlone (alloc : Allocator τ) (C : Codec τ) (w : World τ) (c : ℕ) (key : Key) :
    Except Err (Option (MemoryObj τ)) × World τ :=
  exec alloc (getRaw C (rawAddr key)) { w with allocs := c, released := [] }

/-- A get of one key reads its address. -/
theorem getAlone_eq {C : Codec τ} {w : World τ} {key : Key}
    (h : Fetchable alloc C w.obj (rawAddr key)) (c : ℕ) :
    (getAlone alloc C w c key).1 = .ok (readAt alloc C w.obj c (rawAddr key)).1 ∧
      (getAlone alloc C w c key).2.released = (readAt alloc C w.obj c (rawAddr key)).2.1 := by
  have hexec := exec_getRaw (w := { w with allocs := c, released := [] }) h.layer h.fits h.adequate
  rw [getAlone, hexec]
  exact ⟨rfl, List.nil_append _⟩

/-- The keys of a batch have akeys. Then a batch of reads, folded or not, gives
each position what a read of its key gives, with the buffers that each of these
reads hands back; and a batch of writes, none of whose objects has too much
metadata, leaves what one write per key leaves. -/
theorem folding_keeps_meaning (alloc : Allocator τ) (C : Codec τ) {keys : List Key}
    (hl : ∀ k ∈ keys, LayerOk k.layer) (w : World τ) :
    ((∀ k ∈ keys, Fits (metaAt w.obj (rawAddr k)) ∧ Adequate alloc C (metaAt w.obj (rawAddr k))) →
      ∃ c : ℕ → ℕ,
        let r := exec alloc (batchedGet C true keys) w
        r.1.map .ok = keys.mapIdx (fun i k => (getAlone alloc C w (c i) k).1) ∧
        r.2.released.Perm (w.released ++
          (keys.mapIdx fun i k => (getAlone alloc C w (c i) k).2.released).flatten) ∧
        r.2.obj = w.obj) ∧
    (∀ objs : List (MemoryObj τ), keys.length = objs.length →
      (∀ mo ∈ objs, (C.serialize mo.metadata).length ≤ maxMeta ∧ mo.byteArray.length < 2 ^ 32) →
      exec alloc (batchedPut C true keys objs) w =
        (.ok (), (exec alloc (gather (List.zipWith (put C true) keys objs)) w).2)) := by
  constructor
  · intro h
    have hfetch : ∀ k ∈ keys, Fetchable alloc C w.obj (rawAddr k) :=
      fun k hk => ⟨hl k hk, (h k hk).1, (h k hk).2⟩
    -- a folded group reads what its keys read alone, with other buffers
    obtain ⟨c, hres, hrel, hobj⟩ := exec_batchedGet hfetch
    rw [List.zipIdx_map] at hres hrel
    have hkey : ∀ p ∈ keys.zipIdx, Fetchable alloc C w.obj (rawAddr p.1) :=
      fun p hp => hfetch p.1 (List.fst_mem_of_mem_zipIdx hp)
    refine ⟨c, ?_, ?_, hobj⟩
    · rw [hres, List.map_map, List.map_map, List.mapIdx_eq_zipIdx_map]
      apply List.map_congr_left
      intro p hp
      exact (getAlone_eq (hkey p hp) (c p.2)).1.symm
    · refine hrel.trans (.append_left _ ?_)
      rw [List.flatMap_map, List.mapIdx_eq_zipIdx_map, ← List.flatMap_def]
      apply List.Perm.flatMap_left
      intro p hp
      exact .of_eq (getAlone_eq (hkey p hp) (c p.2)).2.symm
  · intro objs hlen hobjs
    -- the bound on the metadata is the one of the page, so every object is framed and packed
    have hfr : ∀ mo ∈ objs, Framable C mo := by
      intro mo hmo
      have hmeta : (C.serialize mo.metadata).length ≤ 4060 := (hobjs mo hmo).1
      exact ⟨by omega, (hobjs mo hmo).2⟩
    have hpk : ∀ mo ∈ objs, (headerOf C mo).Packable := by
      intro mo hmo
      have hsize := (hobjs mo hmo).2
      refine ⟨(hobjs mo hmo).1, .inr rfl, ?_⟩
      show mo.byteArray.length < 2 ^ 64
      omega
    obtain ⟨r, done, hexec, -, -, hall, -⟩ := exec_batchedPut alloc hlen hl hfr w
    obtain ⟨rfl, hre⟩ := hall hpk
    -- grouping reorders the writes; all addresses are different, so the result is the same
    rw [hexec, exec_gather_put hl hfr hpk, storeAll_congr hre]

section Examples

/-- Layer `l` of a chunk. -/
def layerKey (chunk : String) (l : ℕ) : Key := ⟨s!"{chunk}@{l}", chunk, some l⟩

/-- An allocator of four-byte buffers. -/
def fourBytes : Allocator (List ℕ) := fun _ _ => some [0, 0, 0, 0]

def emptyWorld : World (List ℕ) := ⟨FileStore.empty, fun _ _ => [], 0, []⟩

def smallObj : MemoryObj (List ℕ) := ⟨0, [1, 2, 3, 4], [1, 2]⟩

/-- 203 KV groups: 4068 bytes of metadata. -/
def largeObj : MemoryObj (List ℕ) := ⟨1, [5, 6, 7, 8], List.replicate 1016 1⟩

/-- A container with one layer in it. -/
def oneLayer : World (List ℕ) :=
  (exec fourBytes (put fieldCodec true (layerKey "m@1@0@ff" 0) smallObj) emptyWorld).2

/-- The layer that is there is read back. -/
theorem readAt_oneLayer (c : ℕ) :
    readAt fourBytes fieldCodec oneLayer.obj c (rawAddr (layerKey "m@1@0@ff" 0)) =
      (some ⟨c, [1, 2, 3, 4], [1, 2]⟩, [], c + 1) := by
  have hmeta : parseAkey fieldCodec (metaAt oneLayer.obj (rawAddr (layerKey "m@1@0@ff" 0))) =
      some ⟨4, [1, 2]⟩ := by decide +kernel
  have hpayload : payloadAt oneLayer.obj (rawAddr (layerKey "m@1@0@ff" 0)) = [1, 2, 3, 4] := by
    decide +kernel
  rw [readAt, readLayer, hmeta, hpayload]
  rfl

/-- The batch below has a hit, a chunk that is not there and a layer that is not
there. -/
def someKeys : List Key := [layerKey "m@1@0@ff" 0, layerKey "m@1@0@ee" 0, layerKey "m@1@0@ff" 1]

/-- Keys whose metadata fits and parses, or is absent. -/
theorem fetchable_someKeys :
    ∀ k ∈ someKeys, Fetchable fourBytes fieldCodec oneLayer.obj (rawAddr k) := by
  have hl : ∀ k ∈ someKeys, LayerOk k.layer := by decide
  have hfit : ∀ k ∈ someKeys, Fits (metaAt oneLayer.obj (rawAddr k)) := by decide +kernel
  have hmetas : ∀ k ∈ someKeys, parseAkey fieldCodec (metaAt oneLayer.obj (rawAddr k)) = none ∨
      parseAkey fieldCodec (metaAt oneLayer.obj (rawAddr k)) = some ⟨4, [1, 2]⟩ := by decide +kernel
  intro k hk
  refine ⟨hl k hk, hfit k hk, ?_⟩
  intro m hm c mem hmem
  cases hmem
  rcases hmetas k hk with hnone | hsome
  · rw [hnone] at hm
    cases hm
  · rw [hsome] at hm
    cases hm
    exact Nat.le_refl _

/-- One layer that is stored and one that is not. -/
theorem folding_keeps_meaning_on_someKeys :
    (∃ c : ℕ → ℕ, (exec fourBytes (batchedGet fieldCodec true someKeys) oneLayer).1.map .ok =
      someKeys.mapIdx fun i k => (getAlone fourBytes fieldCodec oneLayer (c i) k).1) ∧
    exec fourBytes (batchedPut fieldCodec true someKeys [smallObj, smallObj, smallObj]) oneLayer =
      (.ok (), (exec fourBytes (gather (List.zipWith (put fieldCodec true) someKeys
        [smallObj, smallObj, smallObj])) oneLayer).2) := by
  have hkeys := fetchable_someKeys
  obtain ⟨hget, hput⟩ := folding_keeps_meaning fourBytes fieldCodec
    (fun k hk => (hkeys k hk).layer) oneLayer
  obtain ⟨c, hres, -⟩ := hget fun k hk => ⟨(hkeys k hk).fits, (hkeys k hk).adequate⟩
  exact ⟨⟨c, hres⟩, hput _ rfl (by decide)⟩

/-- A layer without akeys makes the whole chunk a miss, and one with too much
metadata keeps the others of its chunk from being written. -/
theorem refused_layer_refuses_chunk :
    (¬ ∃ c : ℕ → ℕ,
      (exec fourBytes (batchedGet fieldCodec true
        [layerKey "m@1@0@ff" 0, layerKey "m@1@0@ff" 1000]) oneLayer).1.map .ok =
      [layerKey "m@1@0@ff" 0, layerKey "m@1@0@ff" 1000].mapIdx fun i k =>
        (getAlone fourBytes fieldCodec oneLayer (c i) k).1) ∧
    (exec fourBytes (batchedPut fieldCodec true
        [layerKey "m@1@0@ff" 0, layerKey "m@1@0@ff" 1] [smallObj, largeObj]) emptyWorld).2.obj ≠
      (exec fourBytes (gather (List.zipWith (put fieldCodec true)
        [layerKey "m@1@0@ff" 0, layerKey "m@1@0@ff" 1] [smallObj, largeObj]))
          emptyWorld).2.obj := by
  constructor
  · rintro ⟨c, h⟩
    have hbatch : (exec fourBytes (batchedGet fieldCodec true
        [layerKey "m@1@0@ff" 0, layerKey "m@1@0@ff" 1000]) oneLayer).1 = [none, none] := by
      decide +kernel
    have hfetch := fetchable_someKeys (layerKey "m@1@0@ff" 0) List.mem_cons_self
    rw [hbatch, List.mapIdx_cons] at h
    have hhead := (List.cons.inj h).1
    rw [(getAlone_eq hfetch _).1, readAt_oneLayer] at hhead
    cases hhead
  · intro h
    have hmeta := congrArg (fun st => metaAt st (rawAddr (layerKey "m@1@0@ff" 0))) h
    revert hmeta
    decide +kernel

end Examples

end LmcacheDaos.Connector
