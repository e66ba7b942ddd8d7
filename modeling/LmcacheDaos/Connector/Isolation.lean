import LmcacheDaos.Connector.RoundTrip

/-!
# Keys of the object backend do not disturb each other

The layers of a chunk and the chunk as a whole share a dkey and are told apart
by their akeys only. A reader of a key looks at two akeys under one dkey
(`Op.Within`); what a program that spares these does (`Op.Spares`) is nothing
to that reader.

`put`, `batched_put` and the removal of a layer spare the akeys of every other
key. `_remove_one` of a whole-chunk key punches the dkey, so with the chunk go
its layers: there the other key has to be of another chunk.
-/

namespace LmcacheDaos.Connector

open Lib Serde

variable {τ α β : Type} {alloc : Allocator τ} {C : Codec τ}

/-! ## What a reader sees -/

/-- Two worlds a reader of `a` cannot tell apart. -/
structure LooksSame (a : RawAddr) (w w' : World τ) : Prop where
  metadata : metaAt w.obj a = metaAt w'.obj a
  payload : payloadAt w.obj a = payloadAt w'.obj a
  allocs : w.allocs = w'.allocs

/-- A call at an address sees what is there. -/
theorem handler_within {a : RawAddr} {w w' : World τ} {o : Op τ} (h : LooksSame a w w')
    (ho : o.Within a) : (handler alloc w o).1 = (handler alloc w' o).1 ∧
      LooksSame a (handler alloc w o).2 (handler alloc w' o).2 := by
  cases o with
  | fetch dkey items single =>
      refine ⟨?_, h⟩
      obtain ⟨rfl, hitems⟩ := ho
      have hvalue : ∀ item ∈ items, w.obj a.dkey item.1 = w'.obj a.dkey item.1 := by
        intro item hmem
        rcases hitems item hmem with hak | hak
        · rw [hak]
          exact h.payload
        · rw [hak]
          exact h.metadata
      exact mapM_congr fun item hmem => by rw [hvalue item hmem]
  | allocate layout =>
      -- the buffer depends on how many were asked for before
      refine ⟨?_, h.metadata, h.payload, congrArg (· + 1) h.allocs⟩
      simp only [handler, h.allocs]
  | release mo => exact ⟨rfl, h.metadata, h.payload, h.allocs⟩
  | _ => exact ho.elim

theorem within_existsRaw (a : RawAddr) :
    (existsSync (τ := τ) (.raw a)).OnlyCalls (Op.Within a) := by
  rw [existsSync]
  cases hak : akeysFor a.layer with
  | error e => trivial
  | ok aks =>
      obtain ⟨-, rfl⟩ := akeysFor_eq_ok.mp hak
      refine ⟨⟨rfl, by simp⟩, ?_⟩
      intro got
      cases got <;> trivial

/-- Programs that read one address return the same in both. -/
theorem LooksSame.exec_eq {a : RawAddr} {w w' : World τ} (h : LooksSame a w w')
    {p : Program (Op τ) Ans α} (hp : p.OnlyCalls (Op.Within a)) :
    (exec alloc p w).1 = (exec alloc p w').1 :=
  hp.run_congr (fun _ _ _ => handler_within) h

/-! ## What a writer spares -/

/-- Calls that leave the akeys of `a` alone and ask for no buffer. -/
def Op.Spares (a : RawAddr) : Op τ → Prop
  | .update dkey items _ => ∀ item ∈ items, (dkey, item.1) ∉ places a
  | .punch dkey => dkey ≠ a.dkey
  | .punchAkeys dkey akeys => ∀ akey ∈ akeys, (dkey, akey) ∉ places a
  | .allocate _ => False
  | _ => True

/-- An update elsewhere leaves the address alone. -/
theorem update_spares {st : ObjStore} {a : RawAddr} {dkey : Dkey} {items : List (Akey × Bytes)}
    {single : Bool} (h : ∀ item ∈ items, (dkey, item.1) ∉ places a) {ak : Akey}
    (hak : (a.dkey, ak) ∈ places a) : st.update dkey items single a.dkey ak = st a.dkey ak := by
  rw [ObjStore.update_eq_apply]
  apply ObjStore.apply_other
  rw [List.map_map]
  intro hmem
  obtain ⟨item, hitem, heq⟩ := List.mem_map.mp hmem
  have heq : (dkey, item.1) = (a.dkey, ak) := heq
  exact h item hitem (heq ▸ hak)

/-- So does a punch of other akeys. -/
theorem punchAkeys_spares {st : ObjStore} {a : RawAddr} {dkey : Dkey} {akeys : List Akey}
    (h : ∀ akey ∈ akeys, (dkey, akey) ∉ places a) {ak : Akey} (hak : (a.dkey, ak) ∈ places a) :
    st.punchAkeys dkey akeys a.dkey ak = st a.dkey ak := by
  apply ObjStore.punchAkeys_other
  intro akey hmem heq
  exact h akey hmem (heq ▸ hak)

/-- A call that spares an address does not change how it looks. -/
theorem handler_spares (alloc : Allocator τ) {a : RawAddr} (w : World τ) {o : Op τ}
    (ho : o.Spares a) :
    LooksSame a (handler alloc w o).2 w := by
  have hpay : (a.dkey, payloadAkey a.layer) ∈ places a := List.mem_cons_self
  have hmeta : (a.dkey, metaAkey a.layer) ∈ places a := List.mem_cons_of_mem _ List.mem_cons_self
  cases o with
  | update dkey items single => exact ⟨update_spares ho hmeta, update_spares ho hpay, rfl⟩
  | punch dkey =>
      have hsame := ObjStore.punch_other w.obj (Ne.symm ho)
      exact ⟨congrFun hsame _, congrFun hsame _, rfl⟩
  | punchAkeys dkey akeys => exact ⟨punchAkeys_spares ho hmeta, punchAkeys_spares ho hpay, rfl⟩
  | allocate layout => exact ho.elim
  | _ => exact ⟨rfl, rfl, rfl⟩

/-- A program that spares an address is nothing to its readers. -/
theorem looksSame_of_spares (alloc : Allocator τ) {a : RawAddr} {p : Program (Op τ) Ans α}
    (hp : p.OnlyCalls (Op.Spares a)) (w : World τ) : LooksSame a (exec alloc p w).2 w := by
  have hframe := hp.frame (h := handler alloc)
    (f := fun w => (metaAt w.obj a, payloadAt w.obj a, w.allocs)) ?_ w
  · obtain ⟨hmeta, hrest⟩ := Prod.mk.inj hframe
    obtain ⟨hpay, hallocs⟩ := Prod.mk.inj hrest
    exact ⟨hmeta, hpay, hallocs⟩
  · intro w o ho
    have hsame := handler_spares alloc w ho
    simp only [hsame.metadata, hsame.payload, hsame.allocs]

/-! ## Every writer spares the other addresses -/

/-- A commit to other places. -/
theorem spares_commit {a : RawAddr} {dkey : Dkey} {payloads metas : List (Akey × Bytes)}
    (hp : ∀ item ∈ payloads, (dkey, item.1) ∉ places a)
    (hm : ∀ item ∈ metas, (dkey, item.1) ∉ places a) :
    (commit (τ := τ) dkey payloads metas).OnlyCalls (Op.Spares a) := by
  refine ⟨hp, ?_⟩
  intro ans
  cases ans with
  | error e => trivial
  | ok _ => exact ⟨hm, fun _ => trivial⟩

/-- Items of one address are under its akeys. -/
theorem writeItems_places (dkey : Dkey) {layer : Option ℕ} {w : Prepped}
    {items : (Akey × Bytes) × Akey × Bytes} (h : writeItems layer w = .ok items) :
    LayerOk layer ∧ (dkey, items.1.1) ∈ places ⟨dkey, layer⟩ ∧
      (dkey, items.2.1) ∈ places ⟨dkey, layer⟩ := by
  unfold writeItems at h
  cases hak : akeysFor layer with
  | error e =>
      rw [hak] at h
      cases h
  | ok aks =>
      obtain ⟨hl, rfl⟩ := akeysFor_eq_ok.mp hak
      rw [hak] at h
      cases hhdr : repackHeader w.header with
      | error e =>
          rw [hhdr] at h
          cases h
      | ok hdr =>
          rw [hhdr] at h
          cases h
          exact ⟨hl, List.mem_cons_self, List.mem_cons_of_mem _ List.mem_cons_self⟩

/-- Different legal addresses share no akey. -/
theorem not_mem_places {a b : RawAddr} (hl : LayerOk a.layer) (hb : LayerOk b.layer) (hne : b ≠ a)
    {p : Dkey × Akey} (hp : p ∈ places b) : p ∉ places a :=
  fun hpa => hne (eq_of_place hb hl hp hpa)

/-- A put to another address spares this one. -/
theorem spares_putRaw {a b : RawAddr} (hl : LayerOk a.layer) (hne : b ≠ a) (w : Prepped) :
    (putRaw (τ := τ) b w).OnlyCalls (Op.Spares a) := by
  rw [putRaw]
  cases hitems : writeItems b.layer w with
  | error e => trivial
  | ok items =>
      obtain ⟨hb, hp, hm⟩ := writeItems_places b.dkey hitems
      apply spares_commit
      · intro item hitem
        rw [List.mem_singleton.mp hitem]
        exact not_mem_places hl hb hne hp
      · intro item hitem
        rw [List.mem_singleton.mp hitem]
        exact not_mem_places hl hb hne hm

/-- So does a folded put to others. -/
theorem spares_putRawFolded {a : RawAddr} (hl : LayerOk a.layer) {dkey : Dkey}
    {entries : List (ℕ × Prepped)} (hne : ∀ e ∈ entries, (⟨dkey, some e.1⟩ : RawAddr) ≠ a) :
    (putRawFolded (τ := τ) dkey entries).OnlyCalls (Op.Spares a) := by
  rw [putRawFolded]
  cases hitems : entries.mapM fun e => writeItems (some e.1) e.2 with
  | error e => trivial
  | ok items =>
      -- each item is under the akeys of the layer it was made for
      have hplace : ∀ item ∈ items, (dkey, item.1.1) ∉ places a ∧ (dkey, item.2.1) ∉ places a := by
        intro item hitem
        obtain ⟨e, he, hok⟩ := exists_of_mapM_eq_ok hitems hitem
        obtain ⟨hb, hp, hm⟩ := writeItems_places dkey hok
        exact ⟨not_mem_places hl hb (hne e he) hp, not_mem_places hl hb (hne e he) hm⟩
      apply spares_commit
      · intro p hp
        obtain ⟨item, hitem, rfl⟩ := List.mem_map.mp hp
        exact (hplace item hitem).1
      · intro m hm
        obtain ⟨item, hitem, rfl⟩ := List.mem_map.mp hm
        exact (hplace item hitem).2

/-- A batch makes the calls of its members. -/
theorem onlyCalls_gather {P : Op τ → Prop} {ps : List (Io τ α)} (h : ∀ p ∈ ps, p.OnlyCalls P) :
    (gather ps).OnlyCalls P := by
  induction ps with
  | nil => trivial
  | cons p ps ih =>
      refine (h p List.mem_cons_self).bind fun r => ?_
      exact (ih fun q hq => h q (List.mem_cons_of_mem _ hq)).bind fun _ => trivial

/-- `put` of a key with another address. -/
theorem spares_put {a : RawAddr} (hl : LayerOk a.layer) {key : Key} (hne : rawAddr key ≠ a)
    (mo : MemoryObj τ) : (put C true key mo).OnlyCalls (Op.Spares a) := by
  rw [put]
  cases prepWrite C mo with
  | error e => trivial
  | ok w => exact spares_putRaw hl hne w

/-- `batched_put` of such keys. -/
theorem spares_batchedPut {a : RawAddr} (hl : LayerOk a.layer) {keys : List Key}
    (hne : ∀ k ∈ keys, rawAddr k ≠ a) (objs : List (MemoryObj τ)) :
    (batchedPut C true keys objs).OnlyCalls (Op.Spares a) := by
  rw [batchedPut]
  cases objs.mapM (prepWrite C) with
  | error e => trivial
  | ok prepped =>
      refine (onlyCalls_gather ?_).bind fun _ => trivial
      intro p hp
      obtain ⟨c, hc, rfl⟩ := List.mem_map.mp hp
      unfold putCalls at hc
      cases hg : foldedGroups true keys with
      | none =>
          -- one call per key
          rw [hg] at hc
          obtain ⟨kw, hkw, rfl⟩ := List.mem_map.mp hc
          have hkey := (List.of_mem_zip (List.of_mem_zip hkw).1).1
          exact spares_putRaw hl (hne _ hkey) _
      | some groups =>
          -- one call per chunk: each layer it writes is a key of the batch
          rw [hg] at hc
          obtain ⟨g, hgm, rfl⟩ := List.mem_map.mp hc
          apply spares_putRawFolded hl
          intro e he
          obtain ⟨m, hm, rfl⟩ := List.mem_map.mp he
          have hlayer : m.2 ∈ g.2.map Prod.snd := List.mem_map_of_mem hm
          obtain ⟨k, hk, haddr⟩ := (foldedGroups_grouping hg).exists_key hgm hlayer
          exact haddr ▸ hne k hk

/-- A removal, unless it punches the whole dkey of the address. -/
theorem spares_removeOne {a b : RawAddr} (hl : LayerOk a.layer) (hne : b ≠ a)
    (hchunk : b.layer = none → b.dkey ≠ a.dkey) :
    (removeOne (τ := τ) (.raw b)).OnlyCalls (Op.Spares a) := by
  rcases b with ⟨dkey, _ | layer⟩
  · -- the whole dkey goes
    exact ⟨hchunk rfl, fun _ => trivial⟩
  · rw [removeOne]
    cases hak : akeysFor (some layer) with
    | error e => trivial
    | ok aks =>
        obtain ⟨hb, rfl⟩ := akeysFor_eq_ok.mp hak
        refine ⟨?_, fun _ => trivial⟩
        intro akey hmem
        apply not_mem_places hl hb hne
        simpa [places] using hmem

/-! ## Isolation -/

/-- `put`, `batched_put` or `remove_sync`. -/
inductive Mutation (τ : Type) where
  | write (r : Request τ)
  | remove (key : Key)

namespace Mutation

/-- The keys it is about. -/
def keys : Mutation τ → List Key
  | write r => r.entries.map Prod.fst
  | remove key => [key]

/-- The container after it, whether it returned or raised. -/
def after (alloc : Allocator τ) (C : Codec τ) (w : World τ) : Mutation τ → World τ
  | write r => (exec alloc (r.run C true) w).2
  | remove key => (exec alloc (removeOne (addr true key)) w).2

end Mutation

/-- What distinguishes keys: the chunk, and the layer or that there is none. -/
def ident (key : Key) : String × Option ℕ := (chunkStr key, key.layer)

/-- The chunks of these keys have different dkeys. -/
def NoCollision (keys : List Key) : Prop :=
  ∀ k ∈ keys, ∀ k' ∈ keys, dkeyForStr (chunkStr k) = dkeyForStr (chunkStr k') →
    chunkStr k = chunkStr k'

/-- The mutation is about other keys, and if it removes a whole chunk, about
another chunk. -/
def Mutation.Apart (m : Mutation τ) (key : Key) : Prop :=
  (∀ k ∈ m.keys, ident k ≠ ident key) ∧
    ∀ k, m = .remove k → k.layer = none → chunkStr k ≠ chunkStr key

/-- `exists` and `get` of the key return the same in both. -/
def ReadsSame (alloc : Allocator τ) (C : Codec τ) (key : Key) (w w' : World τ) : Prop :=
  (exec alloc (existsSync (addr true key)) w).1 = (exec alloc (existsSync (addr true key)) w').1 ∧
    (exec alloc (get C true key) w).1 = (exec alloc (get C true key) w').1

/-- Keys that differ have different addresses. -/
theorem rawAddr_ne {keys : List Key} (hhash : NoCollision keys) {k key : Key} (hk : k ∈ keys)
    (hkey : key ∈ keys) (hne : ident k ≠ ident key) : rawAddr k ≠ rawAddr key := by
  intro heq
  have hdkey : dkeyForStr (chunkStr k) = dkeyForStr (chunkStr key) := congrArg RawAddr.dkey heq
  have hlayer : k.layer = key.layer := congrArg RawAddr.layer heq
  exact hne (Prod.ext (hhash k hk key hkey hdkey) hlayer)

/-- Every mutation of other keys spares the address. -/
theorem Mutation.looksSame (alloc : Allocator τ) (C : Codec τ) {m : Mutation τ} {key : Key}
    (hhash : NoCollision (key :: m.keys))
    (hapart : m.Apart key) (hl : LayerOk key.layer) (w : World τ) :
    LooksSame (rawAddr key) (m.after alloc C w) w := by
  have haddr : ∀ k ∈ m.keys, rawAddr k ≠ rawAddr key := fun k hk =>
    rawAddr_ne hhash (List.mem_cons_of_mem _ hk) List.mem_cons_self (hapart.1 k hk)
  have hl : LayerOk (rawAddr key).layer := hl
  cases m with
  | write r =>
      cases r with
      | put k mo =>
          exact looksSame_of_spares alloc (spares_put hl (haddr k List.mem_cons_self) mo) w
      | batchedPut es => exact looksSame_of_spares alloc (spares_batchedPut hl haddr _) w
  | remove k =>
      refine looksSame_of_spares alloc (spares_removeOne hl (haddr k List.mem_cons_self) ?_) w
      intro hnone hdkey
      exact hapart.2 k rfl hnone
        (hhash k (List.mem_cons_of_mem _ List.mem_cons_self) key List.mem_cons_self hdkey)

/-- A layer without akeys is refused before anything is read. -/
theorem readsSame_of_not_layerOk {key : Key} (hl : ¬ LayerOk key.layer) (w w' : World τ) :
    ReadsSame alloc C key w w' := by
  have haddr : addr true key = .raw (rawAddr key) := rfl
  have hlayer : (rawAddr key).layer = key.layer := rfl
  cases hak : akeysFor key.layer with
  | error e =>
      simp only [ReadsSame, get, haddr, existsSync, getSync, getRaw, hlayer, hak]
      exact ⟨rfl, rfl⟩
  | ok aks => exact absurd (akeysFor_eq_ok.mp hak).1 hl

/-- In every container, a `put`, a `batched_put` or the removal of a layer of
other keys, and the removal of another chunk, leave `exists` and `get` of a key
as they were. -/
theorem other_keys_read_same {m : Mutation τ} {key : Key} (hhash : NoCollision (key :: m.keys))
    (hapart : m.Apart key) (w : World τ) : ReadsSame alloc C key (m.after alloc C w) w := by
  -- `akey_layer` refuses layers from 1000 on before anything is fetched
  by_cases hl : LayerOk key.layer
  · have hsame := Mutation.looksSame alloc C hhash hapart hl w
    exact ⟨hsame.exec_eq (within_existsRaw _), hsame.exec_eq (within_getRaw C _)⟩
  · exact readsSame_of_not_layerOk hl _ _

section Examples

/-- Layer 1 of a chunk goes, layer 0 stays. -/
theorem layer_removal_keeps_sibling :
    (Mutation.remove (τ := List ℕ) (layerKey "m@1@0@ff" 1)).Apart (layerKey "m@1@0@ff" 0) ∧
    ReadsSame fourBytes fieldCodec (layerKey "m@1@0@ff" 0)
      ((Mutation.remove (layerKey "m@1@0@ff" 1)).after fourBytes fieldCodec afterTwoLayers)
      afterTwoLayers := by
  have hapart : (Mutation.remove (τ := List ℕ) (layerKey "m@1@0@ff" 1)).Apart
      (layerKey "m@1@0@ff" 0) := by
    constructor
    · intro k hk
      rw [List.mem_singleton.mp hk]
      decide
    · intro k hk
      cases hk
      intro hnone
      cases hnone
  refine ⟨hapart, other_keys_read_same ?_ hapart _⟩
  intro k hk k' hk' _
  simp only [Mutation.keys, List.mem_cons, List.not_mem_nil, or_false] at hk hk'
  rcases hk with rfl | rfl <;> rcases hk' with rfl | rfl <;> rfl

/-- The removal of a chunk takes its layers with it. -/
theorem chunk_removal_takes_layers :
    ident chunkKey ≠ ident (layerKey "m@1@0@ff" 0) ∧
    NoCollision [layerKey "m@1@0@ff" 0, chunkKey] ∧
    ¬ ReadsSame fourBytes fieldCodec (layerKey "m@1@0@ff" 0)
      ((Mutation.remove chunkKey).after fourBytes fieldCodec oneLayer) oneLayer := by
  refine ⟨by decide, ?_, ?_⟩
  · intro k hk k' hk' _
    simp only [List.mem_cons, List.not_mem_nil, or_false] at hk hk'
    rcases hk with rfl | rfl <;> rcases hk' with rfl | rfl <;> rfl
  · rintro ⟨hexists, -⟩
    revert hexists
    decide +kernel

end Examples

end LmcacheDaos.Connector
