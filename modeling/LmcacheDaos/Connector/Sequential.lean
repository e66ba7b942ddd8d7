import LmcacheDaos.Connector.Calls

/-!
# The connector on fault-free storage

Every program of `Connector.Calls` run by itself, one call after the other,
over a container and an allocator. Each gets one lemma that says what it
returns and what it leaves behind; nothing later unfolds the programs.

`readLayer` says what a read of one pair of akeys comes to. The folded read of
a chunk is the same, layer after layer (`exec_getRawFolded`).
-/

namespace LmcacheDaos.Connector

open Lib Serde

variable {τ α β : Type}

/-- A container of either kind, the number of allocations made so far and the
buffers handed back. -/
structure World (τ : Type) where
  dfs : Dfs
  obj : ObjStore
  allocs : ℕ
  released : List (MemoryObj τ)

/-- What an allocator hands out at its `n`-th request: nothing, or a buffer with
what is in it. -/
abbrev Allocator (τ : Type) := ℕ → τ → Option Bytes

variable (alloc : Allocator τ)

/-- Fault-free answers. A buffer is identified by the request that gave it. -/
def handler (w : World τ) : (o : Op τ) → Ans o × World τ
  | .openRdonly path => (w.dfs.openRdonly path, w)
  | .openRdwrCreate path =>
      (.ok (w.dfs.openRdwrCreate path).2, { w with dfs := (w.dfs.openRdwrCreate path).1 })
  | .readObj h offset length => (.ok (w.dfs.readObj h offset length), w)
  | .readObjInto h offset length _ => (.ok (w.dfs.readObj h offset length), w)
  | .writeObjFrom h offset src => (.ok (), { w with dfs := w.dfs.writeObjFrom h offset src })
  | .closeObj _ => ((), w)
  | .pathExists path => (.ok (w.dfs.pathExists path), w)
  | .remove path => (.ok (w.dfs.remove path).2, { w with dfs := (w.dfs.remove path).1 })
  | .fetch dkey items single => (w.obj.fetch dkey items single, w)
  | .update dkey items single => (.ok (), { w with obj := w.obj.update dkey items single })
  | .punch dkey => (.ok (), { w with obj := w.obj.punch dkey })
  | .punchAkeys dkey akeys => (.ok (), { w with obj := w.obj.punchAkeys dkey akeys })
  | .allocate layout => ((alloc w.allocs layout).map fun mem => ⟨w.allocs, mem, layout⟩,
      { w with allocs := w.allocs + 1 })
  | .release mo => ((), { w with released := w.released ++ [mo] })

/-- Run a program by itself. -/
def exec (p : Program (Op τ) Ans α) (w : World τ) : α × World τ := p.run (handler alloc) w

/-- Nothing is done to return. -/
theorem exec_ret (a : α) (w : World τ) : exec alloc (.ret a) w = (a, w) := rfl

/-- A call is answered, and the rest sees the state after it. -/
theorem exec_call (o : Op τ) (k : Ans o → Program (Op τ) Ans α) (w : World τ) :
    exec alloc (.call o k) w = exec alloc (k (handler alloc w o).1) (handler alloc w o).2 := rfl

/-- One program after the other. -/
theorem exec_bind (p : Program (Op τ) Ans α) (f : α → Program (Op τ) Ans β) (w : World τ) :
    exec alloc (p.bind f) w = exec alloc (f (exec alloc p w).1) (exec alloc p w).2 :=
  Program.run_bind ..

/-- Mapping the result does not change what is done. -/
theorem exec_map (f : α → β) (p : Program (Op τ) Ans α) (w : World τ) :
    exec alloc (p.map f) w = (f (exec alloc p w).1, (exec alloc p w).2) :=
  Program.run_map ..

/-- A program that succeeds hands its result on. -/
theorem exec_andThen (p : Io τ α) (f : α → Io τ β) (w : World τ) {a : α} {w' : World τ}
    (h : exec alloc p w = (.ok a, w')) : exec alloc (p.andThen f) w = exec alloc (f a) w' := by
  rw [Io.andThen, exec_bind, h]

/-! ## Reading one pair of akeys -/

/-- What a read comes to, given the number of allocations before it and the
values of the metadata and the payload akey: the result, what it hands back, and
the number of allocations after it. -/
def readLayer (C : Codec τ) (c : ℕ) (hdr payload : Bytes) :
    Option (MemoryObj τ) × List (MemoryObj τ) × ℕ :=
  match parseAkey C hdr with
  | none => (none, [], c)
  | some m => match alloc c m.layout with
    | none => (none, [], c + 1)
    | some mem =>
        if (payload.take m.length).length ≠ m.length then (none, [⟨c, mem, m.layout⟩], c + 1)
        else (some (MemoryObj.fill ⟨c, mem, m.layout⟩ (payload.take m.length)), [], c + 1)

/-- A buffer for the metadata in `hdr` is as large as it says. -/
def Adequate (C : Codec τ) (hdr : Bytes) : Prop :=
  ∀ m, parseAkey C hdr = some m → ∀ c mem, alloc c m.layout = some mem → m.length ≤ mem.length

/-- A header that the buffer of every reader holds. -/
def Fits (hdr : Bytes) : Prop := hdr.length ≤ metaCap

instance (hdr : Bytes) : Decidable (Fits hdr) := inferInstanceAs (Decidable (_ ≤ _))

/-- The metadata and the payload akey of an address. -/
def metaAt (st : ObjStore) (a : RawAddr) : Bytes := st a.dkey (metaAkey a.layer)

def payloadAt (st : ObjStore) (a : RawAddr) : Bytes := st a.dkey (payloadAkey a.layer)

/-- The world after a read. -/
def World.read (w : World τ) (r : List (MemoryObj τ) × ℕ) : World τ :=
  { w with allocs := r.2, released := w.released ++ r.1 }

variable {alloc}

/-- A metadata akey that fits is fetched whole. -/
theorem fetch_meta_of_fit {st : ObjStore} {a : RawAddr} (h : Fits (metaAt st a)) :
    st.fetch a.dkey [(metaAkey a.layer, metaCap)] true = .ok [metaAt st a] := by
  apply ObjStore.fetch_single_of_fit
  intro item hmem
  rw [List.mem_singleton.mp hmem]
  exact h

/-- One that does not makes the fetch fail. -/
theorem fetch_meta_of_not_fit {st : ObjStore} {a : RawAddr} (h : ¬ Fits (metaAt st a)) :
    st.fetch a.dkey [(metaAkey a.layer, metaCap)] true = .error derRec2big := by
  apply ObjStore.fetch_single_of_not_fit
  exact ⟨_, List.mem_singleton_self _, Nat.lt_of_not_le h⟩

/-- A get is one read of its layer when the metadata fits. -/
theorem exec_getRaw {C : Codec τ} {a : RawAddr} (hl : LayerOk a.layer) {w : World τ}
    (hfit : Fits (metaAt w.obj a)) (had : Adequate alloc C (metaAt w.obj a)) :
    exec alloc (getRaw C a) w =
      let r := readLayer alloc C w.allocs (metaAt w.obj a) (payloadAt w.obj a)
      (.ok r.1, w.read r.2) := by
  rw [getRaw, akeysFor_eq_ok.mpr ⟨hl, rfl⟩]
  -- the metadata fetch fits its 548 bytes
  show exec alloc (.call (.fetch _ _ _) _) w = _
  rw [exec_call]
  simp only [handler, fetch_meta_of_fit hfit, List.headD_cons, readLayer]
  cases hm : parseAkey C (metaAt w.obj a) with
  -- no metadata, or one that does not parse: a miss
  | none => simp [exec_ret, World.read]
  | some m =>
      show exec alloc (.call (.allocate m.layout) _) w = _
      rw [exec_call]
      simp only [handler]
      cases halloc : alloc w.allocs m.layout with
      -- no buffer: a miss
      | none => simp [exec_ret, World.read]
      | some mem =>
          -- the buffer has the length of the metadata, so the payload is fetched
          have hlen := had m hm _ _ halloc
          simp only [Option.map_some]
          rw [if_neg (by omega), exec_call]
          simp only [handler, ObjStore.fetch_array, List.map_cons, List.map_nil, List.headD_cons]
          show exec alloc
            (if ((payloadAt w.obj a).take m.length).length ≠ m.length then _ else _) _ = _
          split
          · -- fewer bytes than the metadata says: the buffer is released, a miss
            rw [exec_call]
            rfl
          · -- all of them: filled in
            simp [exec_ret, World.read, payloadAt]

/-- A header that does not fit. -/
theorem exec_getRaw_of_not_fit {C : Codec τ} {a : RawAddr} (hl : LayerOk a.layer) {w : World τ}
    (hbig : ¬ Fits (metaAt w.obj a)) :
    exec alloc (getRaw C a) w = (.error (.daos derRec2big), w) := by
  rw [getRaw, akeysFor_eq_ok.mpr ⟨hl, rfl⟩]
  show exec alloc (.call (.fetch _ _ _) _) w = _
  rw [exec_call]
  simp only [handler, fetch_meta_of_not_fit hbig, exec_ret]

/-- An object exists if its metadata akey is not empty; a value that does not fit raises. -/
theorem exec_existsRaw (alloc : Allocator τ) {a : RawAddr} (hl : LayerOk a.layer) (w : World τ) :
    exec alloc (existsSync (.raw a)) w =
      (if Fits (metaAt w.obj a) then .ok (decide (0 < (metaAt w.obj a).length))
        else .error (.daos derRec2big), w) := by
  rw [existsSync, akeysFor_eq_ok.mpr ⟨hl, rfl⟩]
  show exec alloc (.call (.fetch _ _ _) _) w = _
  rw [exec_call]
  by_cases hfit : Fits (metaAt w.obj a)
  · simp only [handler, fetch_meta_of_fit hfit, exec_ret, List.headD_cons, if_pos hfit]
    rfl
  · simp only [handler, fetch_meta_of_not_fit hfit, exec_ret, if_neg hfit]

/-! ## Reading the layers of a chunk together -/

variable (alloc)

/-- Reads one after the other: the results, what they hand back, and the number
of allocations after them. -/
def readAll (C : Codec τ) (st : ObjStore) : ℕ → List RawAddr →
    List (Option (MemoryObj τ)) × List (MemoryObj τ) × ℕ
  | c, [] => ([], [], c)
  | c, a :: as =>
      let r := readLayer alloc C c (metaAt st a) (payloadAt st a)
      let rs := readAll C st r.2.2 as
      (r.1 :: rs.1, r.2.1 ++ rs.2.1, rs.2.2)

/-- What the first loop of `_get_raw_folded` stages for one layer. -/
def stageOne (C : Codec τ) (st : ObjStore) (c i : ℕ) (a : RawAddr) : Option (Staged τ) × ℕ :=
  match parseAkey C (metaAt st a) with
  | none => (none, c)
  | some m => match alloc c m.layout with
    | none => (none, c + 1)
    | some mem => (some ⟨i, ⟨c, mem, m.layout⟩, m.length, payloadAkey a.layer⟩, c + 1)

def stageAll (C : Codec τ) (st : ObjStore) : ℕ → ℕ → List RawAddr → List (Staged τ) × ℕ
  | c, _, [] => ([], c)
  | c, i, a :: as =>
      let r := stageOne alloc C st c i a
      let rs := stageAll C st r.2 (i + 1) as
      (r.1.toList ++ rs.1, rs.2)

/-- Layers of one chunk. -/
def layerAddrs (dkey : Dkey) (layers : List ℕ) : List RawAddr := layers.map fun l => ⟨dkey, some l⟩

/-- Position, layer and fetched metadata of layers from position `i` on. -/
def entriesFrom (st : ObjStore) (dkey : Dkey) : ℕ → List ℕ → List (ℕ × ℕ × Bytes)
  | _, [] => []
  | i, l :: ls => (i, l, metaAt st ⟨dkey, some l⟩) :: entriesFrom st dkey (i + 1) ls

variable {alloc}

/-- The entries of a folded get: position, layer, metadata. -/
theorem entriesFrom_eq (st : ObjStore) (dkey : Dkey) (layers : List ℕ) (i : ℕ) :
    entriesFrom st dkey i layers =
      (List.range' i layers.length).zip
        (layers.zip (layers.map fun l => metaAt st ⟨dkey, some l⟩)) := by
  induction layers generalizing i with
  | nil => rfl
  | cons l ls ih =>
      rw [entriesFrom, ih, List.length_cons, List.range'_succ]
      rfl

/-- The first loop. -/
theorem exec_stage {C : Codec τ} {st : ObjStore} {dkey : Dkey} {layers : List ℕ} (i : ℕ)
    (hl : ∀ l ∈ layers, LayerOk (some l))
    (had : ∀ l ∈ layers, Adequate alloc C (metaAt st ⟨dkey, some l⟩)) (w : World τ) :
    exec alloc (stage C (entriesFrom st dkey i layers)) w =
      (.ok (stageAll alloc C st w.allocs i (layerAddrs dkey layers)).1,
        { w with allocs := (stageAll alloc C st w.allocs i (layerAddrs dkey layers)).2 }) := by
  -- on the layers, with the position of the first as a parameter
  induction layers generalizing i w with
  | nil => rfl
  | cons l ls ih =>
      have ih := ih (i + 1) (fun l' h => hl l' (List.mem_cons_of_mem _ h))
        (fun l' h => had l' (List.mem_cons_of_mem _ h))
      simp only [entriesFrom, stage, layerAddrs, List.map_cons, stageAll, stageOne]
      cases hm : parseAkey C (metaAt st ⟨dkey, some l⟩) with
      | none =>
          -- this layer is a miss; the allocator was not asked
          rw [ih w]
          rfl
      | some m =>
          show exec alloc (.call (.allocate m.layout) _) w = _
          rw [exec_call]
          simp only [handler]
          cases halloc : alloc w.allocs m.layout with
          | none =>
              -- no buffer: the allocator was asked all the same
              show exec alloc (stage C _) _ = _
              rw [ih]
              rfl
          | some mem =>
              -- staged, with a buffer that is long enough
              have hlen := had l List.mem_cons_self m hm _ _ halloc
              have hpak : akeyLayer l = .ok (payloadAkey (some l)) :=
                akeyOfLayer_eq_ok.mpr ⟨hl l List.mem_cons_self l rfl, rfl⟩
              simp only [Option.map_some]
              rw [if_neg (by omega), hpak]
              show exec alloc ((stage C _).andThen _) _ = _
              rw [exec_andThen _ _ _ _ (ih _)]
              rfl

/-- What is read for a staged layer. -/
def readStaged (st : ObjStore) (dkey : Dkey) (s : Staged τ) : Bytes := (st dkey s.pak).take s.n

/-- A layer that is not staged is a miss. -/
theorem readLayer_of_not_staged {C : Codec τ} {st : ObjStore} {c i c' : ℕ} {a : RawAddr}
    (h : stageOne alloc C st c i a = (none, c')) :
    readLayer alloc C c (metaAt st a) (payloadAt st a) = (none, [], c') := by
  simp only [stageOne, readLayer] at h ⊢
  cases hm : parseAkey C (metaAt st a) with
  | none =>
      rw [hm] at h
      cases h
      rfl
  | some m =>
      simp only [hm] at h ⊢
      cases halloc : alloc c m.layout with
      | none =>
          rw [halloc] at h
          cases h
          rfl
      | some mem =>
          rw [halloc] at h
          cases h

/-- A staged layer is what is read for it, or handed back. -/
theorem readLayer_of_staged {C : Codec τ} {st : ObjStore} {c i c' : ℕ} {a : RawAddr} {s : Staged τ}
    (h : stageOne alloc C st c i a = (some s, c')) : s.pos = i ∧
      readLayer alloc C c (metaAt st a) (payloadAt st a) =
        if (readStaged st a.dkey s).length ≠ s.n then (none, [s.obj], c')
        else (some (s.obj.fill (readStaged st a.dkey s)), [], c') := by
  simp only [stageOne, readLayer] at h ⊢
  cases hm : parseAkey C (metaAt st a) with
  | none =>
      rw [hm] at h
      cases h
  | some m =>
      simp only [hm] at h ⊢
      cases halloc : alloc c m.layout with
      | none =>
          rw [halloc] at h
          cases h
      | some mem =>
          rw [halloc] at h
          cases h
          exact ⟨rfl, rfl⟩

/-- The last loop, on what the first one staged. -/
theorem exec_collect (alloc : Allocator τ) (C : Codec τ) (st : ObjStore) (dkey : Dkey)
    (layers : List ℕ) (c : ℕ) (out : List (Option (MemoryObj τ))) (w : World τ) :
    exec alloc (collect ((stageAll alloc C st c out.length (layerAddrs dkey layers)).1.map
        fun s => (s, readStaged st dkey s)) (out ++ layers.map fun _ => none)) w =
      (.ok (out ++ (readAll alloc C st c (layerAddrs dkey layers)).1),
        { w with
          released := w.released ++ (readAll alloc C st c (layerAddrs dkey layers)).2.1 }) := by
  induction layers generalizing c out w with
  | nil => simp [layerAddrs, stageAll, readAll, collect, exec_ret]
  | cons l ls ih =>
      -- the rest, once the layer has its result
      have hnext : ∀ (c : ℕ) (r : Option (MemoryObj τ)) (w : World τ),
          exec alloc (collect ((stageAll alloc C st c (out.length + 1) (layerAddrs dkey ls)).1.map
              fun s => (s, readStaged st dkey s)) (out ++ r :: ls.map fun _ => none)) w =
            (.ok (out ++ r :: (readAll alloc C st c (layerAddrs dkey ls)).1),
              { w with released := w.released ++
                (readAll alloc C st c (layerAddrs dkey ls)).2.1 }) := by
        intro c r w
        have h := ih c (out ++ [r]) w
        simpa using h
      have haddrs : layerAddrs dkey (l :: ls) = ⟨dkey, some l⟩ :: layerAddrs dkey ls := rfl
      simp only [haddrs, stageAll, readAll, List.map_cons]
      cases hone : stageOne alloc C st c out.length ⟨dkey, some l⟩ with
      | mk o c' =>
          cases o with
          | none =>
              rw [readLayer_of_not_staged hone]
              exact hnext c' none w
          | some s =>
              obtain ⟨hpos, hread⟩ := readLayer_of_staged hone
              rw [hread]
              simp only [Option.toList_some, List.singleton_append, List.map_cons, collect]
              split
              · rw [exec_call]
                show exec alloc (collect _ _) { w with released := w.released ++ [_] } = _
                rw [hnext]
                simp
              · have hset : ∀ r : Option (MemoryObj τ),
                    (out ++ none :: ls.map fun _ => none).set s.pos r =
                      out ++ r :: ls.map fun _ => none := by
                  intro r
                  simp [hpos]
                rw [hset, hnext]
                simp

/-- Staging allocates what reading one by one would. -/
theorem stageAll_allocs (C : Codec τ) (st : ObjStore) (as : List RawAddr) (c i : ℕ) :
    (stageAll alloc C st c i as).2 = (readAll alloc C st c as).2.2 := by
  induction as generalizing c i with
  | nil => rfl
  | cons a as ih =>
      simp only [stageAll, readAll]
      cases hone : stageOne alloc C st c i a with
      | mk o c' =>
          cases o with
          | none => rw [readLayer_of_not_staged hone, ih]
          | some s =>
              rw [(readLayer_of_staged hone).2, ih]
              split <;> rfl

/-- `_get_raw_folded` on headers that fit is `_get_raw`, layer after layer. -/
theorem exec_getRawFolded {C : Codec τ} {dkey : Dkey} {layers : List ℕ} {w : World τ}
    (hl : ∀ l ∈ layers, LayerOk (some l)) (hfit : ∀ l ∈ layers, Fits (metaAt w.obj ⟨dkey, some l⟩))
    (had : ∀ l ∈ layers, Adequate alloc C (metaAt w.obj ⟨dkey, some l⟩)) :
    exec alloc (getRawFolded C dkey layers) w =
      let r := readAll alloc C w.obj w.allocs (layerAddrs dkey layers)
      (.ok r.1, w.read r.2) := by
  -- all metadata akeys come in one fetch, and each fits
  have hfetch : w.obj.fetch dkey ((layers.map fun l => metaAkey (some l)).map
      fun mak => (mak, metaCap)) true = .ok (layers.map fun l => metaAt w.obj ⟨dkey, some l⟩) := by
    rw [ObjStore.fetch_single_of_fit]
    · simp [metaAt]
    · intro item hmem
      obtain ⟨mak, hmak, rfl⟩ := List.mem_map.mp hmem
      obtain ⟨l, hlmem, rfl⟩ := List.mem_map.mp hmak
      exact hfit l hlmem
  rw [getRawFolded, mapM_akeyMetaLayer_eq_ok.mpr ⟨hl, rfl⟩]
  show exec alloc (.call (.fetch _ _ _) _) w = _
  rw [exec_call]
  simp only [handler, hfetch]
  -- staging asks for one buffer for each layer that has metadata
  rw [List.range_eq_range', ← entriesFrom_eq, exec_andThen _ _ _ _ (exec_stage 0 hl had w)]
  have hcollect := exec_collect alloc C w.obj dkey layers w.allocs []
    { w with allocs := (stageAll alloc C w.obj w.allocs 0 (layerAddrs dkey layers)).2 }
  rw [stageAll_allocs, List.length_nil] at hcollect
  rw [stageAll_allocs]
  show exec alloc (if List.isEmpty _ then _ else _) _ = _
  split
  · -- nothing staged: no second fetch
    rename_i hnil
    rw [List.isEmpty_iff.mp hnil] at hcollect
    exact hcollect
  · -- one fetch for the payloads of all staged layers
    rw [exec_call]
    simp only [handler, ObjStore.fetch_array]
    show exec alloc (collect (List.zip _ _) _) _ = _
    rw [List.map_map, ← List.map_prod_left_eq_zip]
    exact hcollect

/-- A header that does not fit fails the read of the whole chunk. -/
theorem exec_getRawFolded_of_not_fit (alloc : Allocator τ) (C : Codec τ) {dkey : Dkey}
    {layers : List ℕ} {w : World τ}
    (hl : ∀ l ∈ layers, LayerOk (some l))
    (hbig : ∃ l ∈ layers, ¬ Fits (metaAt w.obj ⟨dkey, some l⟩)) :
    exec alloc (getRawFolded C dkey layers) w = (.error (.daos derRec2big), w) := by
  have hfetch : w.obj.fetch dkey ((layers.map fun l => metaAkey (some l)).map
      fun mak => (mak, metaCap)) true = .error derRec2big := by
    apply ObjStore.fetch_single_of_not_fit
    obtain ⟨l, hmem, hbig⟩ := hbig
    exact ⟨_, List.mem_map_of_mem (List.mem_map_of_mem hmem), Nat.lt_of_not_le hbig⟩
  rw [getRawFolded, mapM_akeyMetaLayer_eq_ok.mpr ⟨hl, rfl⟩]
  show exec alloc (.call (.fetch _ _ _) _) w = _
  rw [exec_call]
  simp only [handler, hfetch, exec_ret]

/-! ## Writing -/

/-- Both writes land: payloads, then metadata. -/
theorem exec_commit (dkey : Dkey) (payloads metas : List (Akey × Bytes)) (w : World τ) :
    exec alloc (commit dkey payloads metas) w = (.ok (),
      { w with obj := (w.obj.update dkey payloads false).update dkey metas true }) := rfl

/-- What a write of an object in either way puts into its akeys. -/
def payloadItem (layer : Option ℕ) (mo : MemoryObj τ) : Akey × Bytes :=
  (payloadAkey layer, mo.byteArray)

def metaItem (C : Codec τ) (layer : Option ℕ) (mo : MemoryObj τ) : Akey × Bytes :=
  (metaAkey layer, header (headerOf C mo))

/-- Payloads first, metadata after them. -/
def writeLayers (C : Codec τ) (st : ObjStore) (dkey : Dkey)
    (entries : List (Option ℕ × MemoryObj τ)) : ObjStore :=
  (st.update dkey (entries.map fun e => payloadItem e.1 e.2) false).update dkey
    (entries.map fun e => metaItem C e.1 e.2) true

/-- `_prep_write` of an object it accepts. -/
def preppedOf (C : Codec τ) (mo : MemoryObj τ) : Prepped := ⟨framedHeader C mo, mo.byteArray⟩

/-- A put of a packable object stores its two akeys. -/
theorem exec_putRaw {C : Codec τ} {mo : MemoryObj τ} (hfr : Framable C mo) {a : RawAddr}
    (hl : LayerOk a.layer) (hpk : (headerOf C mo).Packable) (w : World τ) :
    exec alloc (putRaw a (preppedOf C mo)) w =
      (.ok (), { w with obj := writeLayers C w.obj a.dkey [(a.layer, mo)] }) := by
  rw [putRaw, preppedOf, (writeItems_eq_ok hfr).mpr ⟨⟨hl, hpk⟩, rfl⟩]
  exact exec_commit ..

/-- A put of any other raises before it writes. -/
theorem exec_putRaw_of_not_packable {C : Codec τ} {mo : MemoryObj τ} (hfr : Framable C mo)
    (a : RawAddr) (hpk : ¬ (headerOf C mo).Packable) (w : World τ) :
    ∃ e, exec alloc (putRaw a (preppedOf C mo)) w = (.error e, w) := by
  rw [putRaw]
  cases hitems : writeItems a.layer (preppedOf C mo) with
  | error e => exact ⟨.python e, rfl⟩
  | ok items => exact absurd ((writeItems_eq_ok hfr).mp hitems).1.2 hpk

/-- A folded put stores the akeys of all its layers. -/
theorem exec_putRawFolded {C : Codec τ} {dkey : Dkey} {entries : List (ℕ × MemoryObj τ)}
    (hfr : ∀ e ∈ entries, Framable C e.2) (hl : ∀ e ∈ entries, LayerOk (some e.1))
    (hpk : ∀ e ∈ entries, (headerOf C e.2).Packable) (w : World τ) :
    exec alloc (putRawFolded dkey (entries.map fun e => (e.1, preppedOf C e.2))) w =
      (.ok (), { w with
        obj := writeLayers C w.obj dkey (entries.map fun e => (some e.1, e.2)) }) := by
  have hitems : (entries.map fun e => (e.1, preppedOf C e.2)).mapM
      (fun lw => writeItems (some lw.1) lw.2) =
      .ok (entries.map fun e => (payloadItem (some e.1) e.2, metaItem C (some e.1) e.2)) := by
    rw [List.mapM_map]
    apply mapM_of_ok
    intro e he
    have hitem : writeItems (some e.1) (preppedOf C e.2) =
        .ok (payloadItem (some e.1) e.2, metaItem C (some e.1) e.2) :=
      (writeItems_eq_ok (hfr e he)).mpr ⟨⟨hl e he, hpk e he⟩, rfl⟩
    simp only [Function.comp_apply]
    exact hitem
  rw [putRawFolded, hitems]
  show exec alloc (commit _ _ _) w = _
  rw [exec_commit, writeLayers]
  simp only [List.map_map]
  rfl

/-- One layer that cannot be packed stops the whole group before it writes. -/
theorem exec_putRawFolded_of_not_packable {C : Codec τ} (dkey : Dkey)
    {entries : List (ℕ × MemoryObj τ)} (hfr : ∀ e ∈ entries, Framable C e.2)
    (hpk : ∃ e ∈ entries, ¬ (headerOf C e.2).Packable) (w : World τ) :
    ∃ e, exec alloc (putRawFolded dkey (entries.map fun e => (e.1, preppedOf C e.2))) w =
      (.error e, w) := by
  rw [putRawFolded]
  cases hitems : (entries.map fun e => (e.1, preppedOf C e.2)).mapM
      fun lw => writeItems (some lw.1) lw.2 with
  | error e => exact ⟨.python e, rfl⟩
  | ok items =>
      obtain ⟨e, he, hno⟩ := hpk
      obtain ⟨item, hitem⟩ := forall_ok_of_mapM_eq_ok hitems _ (List.mem_map_of_mem he)
      exact absurd ((writeItems_eq_ok (hfr e he)).mp hitem).1.2 hno

/-- `_put_sync` on DFS. -/
theorem exec_putDfs (path : String) (p : Prepped) (w : World τ) :
    exec alloc (putDfs path p) w =
      let fs := (w.dfs.openRdwrCreate path).1
      let h := (w.dfs.openRdwrCreate path).2
      (.ok (), { w with
        dfs := (fs.writeObjFrom h 0 p.header).writeObjFrom h p.header.length p.src }) :=
  rfl

/-! ## Calls that only read -/

def Op.Reads : Op τ → Prop
  | .openRdonly _ | .readObj .. | .readObjInto .. | .closeObj _ | .pathExists _ | .fetch ..
  | .allocate _ | .release _ => True
  | .openRdwrCreate _ | .writeObjFrom .. | .remove _ | .update .. | .punch _ | .punchAkeys .. =>
      False

/-- A program that makes no others leaves the container as it is. -/
theorem exec_onlyReads {p : Program (Op τ) Ans α} (hp : p.OnlyCalls Op.Reads) (w : World τ) :
    (exec alloc p w).2.dfs = w.dfs ∧ (exec alloc p w).2.obj = w.obj := by
  have hkeeps : ∀ (w : World τ) (o : Op τ), o.Reads →
      ((handler alloc w o).2.dfs, (handler alloc w o).2.obj) = (w.dfs, w.obj) := by
    intro w o ho
    cases o <;> first | rfl | exact absurd ho id
  exact Prod.mk.inj (hp.frame (f := fun w => (w.dfs, w.obj)) hkeeps w)

/-- Computing without calls writes nothing. -/
theorem onlyReads_ofExcept {x : Except PackError α} {f : α → Io τ β}
    (h : ∀ a, (f a).OnlyCalls Op.Reads) : (Io.ofExcept x f).OnlyCalls Op.Reads := by
  cases x with
  | error e => trivial
  | ok a => exact h a

/-- Two programs that only read only read together. -/
theorem onlyReads_andThen {p : Io τ α} {f : α → Io τ β} (hp : p.OnlyCalls Op.Reads)
    (h : ∀ a, (f a).OnlyCalls Op.Reads) : (p.andThen f).OnlyCalls Op.Reads := by
  apply hp.bind
  intro r
  cases r with
  | error e => trivial
  | ok a => exact h a

/-- Calls of a reader of one pair of akeys. -/
def Op.Within (a : RawAddr) : Op τ → Prop
  | .fetch dkey items _ => dkey = a.dkey ∧
      ∀ item ∈ items, item.1 = payloadAkey a.layer ∨ item.1 = metaAkey a.layer
  | .allocate _ | .release _ => True
  | _ => False

/-- A get of a raw address stays at its dkey and akeys. -/
theorem within_getRaw (C : Codec τ) (a : RawAddr) : (getRaw C a).OnlyCalls (Op.Within a) := by
  rw [getRaw]
  cases hak : akeysFor a.layer with
  -- the layer has no akeys: no call is made
  | error e => trivial
  | ok aks =>
      obtain ⟨-, rfl⟩ := akeysFor_eq_ok.mp hak
      -- the metadata fetch is at this address
      refine ⟨⟨rfl, by simp⟩, ?_⟩
      intro got
      cases got with
      | error e => trivial
      | ok got =>
          dsimp only
          split
          · trivial
          · -- what was fetched does not parse, or does: then `allocate`
            refine ⟨trivial, ?_⟩
            intro mo
            cases mo with
            | none => trivial
            | some mo =>
                dsimp only
                split
                · trivial
                · -- and the payload fetch is at this address too
                  refine ⟨⟨rfl, by simp⟩, ?_⟩
                  intro readn
                  cases readn with
                  | error e => exact ⟨trivial, fun _ => trivial⟩
                  | ok readn =>
                      -- `release` touches no storage
                      dsimp only
                      split
                      · exact ⟨trivial, fun _ => trivial⟩
                      · trivial

/-- No path through `_get_raw` writes. -/
theorem onlyReads_getRaw (C : Codec τ) (a : RawAddr) : (getRaw C a).OnlyCalls Op.Reads := by
  refine (within_getRaw C a).mono fun o ho => ?_
  cases o <;> trivial

/-- Staging layers writes nothing. -/
theorem onlyReads_stage (C : Codec τ) (entries : List (ℕ × ℕ × Bytes)) :
    (stage C entries).OnlyCalls Op.Reads := by
  induction entries with
  | nil => trivial
  | cons e rest ih =>
      rw [stage]
      split
      · exact ih
      · refine ⟨trivial, ?_⟩
        intro mo
        cases mo with
        | none => exact ih
        | some mo =>
            dsimp only
            split
            · trivial
            · apply onlyReads_ofExcept
              intro pak
              exact onlyReads_andThen ih fun _ => trivial

/-- Collecting payloads writes nothing. -/
theorem onlyReads_collect (entries : List (Staged τ × Bytes)) (out : List (Option (MemoryObj τ))) :
    (collect entries out).OnlyCalls Op.Reads := by
  induction entries generalizing out with
  | nil => trivial
  | cons e rest ih =>
      rw [collect]
      split
      · exact ⟨trivial, fun _ => ih _⟩
      · exact ih _

/-- Giving buffers back writes nothing. -/
theorem onlyReads_releaseAll (mos : List (MemoryObj τ)) {p : Io τ α} (hp : p.OnlyCalls Op.Reads) :
    (releaseAll mos p).OnlyCalls Op.Reads := by
  induction mos with
  | nil => exact hp
  | cons mo rest ih => exact ⟨trivial, fun _ => ih⟩

/-- No path through `_get_raw_folded` writes. -/
theorem onlyReads_getRawFolded (C : Codec τ) (dkey : Dkey) (layers : List ℕ) :
    (getRawFolded C dkey layers).OnlyCalls Op.Reads := by
  apply onlyReads_ofExcept
  intro maks
  refine ⟨trivial, ?_⟩
  intro got
  cases got with
  | error e => trivial
  | ok got =>
      apply onlyReads_andThen (onlyReads_stage C _)
      intro staged
      split
      · trivial
      · refine ⟨trivial, ?_⟩
        intro readn
        cases readn with
        | error e => exact onlyReads_releaseAll _ trivial
        | ok readn => exact onlyReads_collect _ _

/-- The part of `_get_sync` behind the header writes nothing. -/
theorem onlyReads_readPayload (C : Codec τ) (h : Handle) (metaLen payloadLen : ℕ)
    (metaBytes : Bytes) : (readPayload C h metaLen payloadLen metaBytes).OnlyCalls Op.Reads := by
  unfold readPayload
  -- the three guards raise before any call
  split
  · trivial
  · split
    · trivial
    · split
      · trivial
      · -- `allocate`, then the read, then perhaps `release`
        refine ⟨trivial, ?_⟩
        intro mo
        cases mo with
        | none => trivial
        | some mo =>
            dsimp only
            split
            · trivial
            · refine ⟨trivial, ?_⟩
              intro got
              cases got with
              | error e => trivial
              | ok got =>
                  dsimp only
                  split
                  · exact ⟨trivial, fun _ => trivial⟩
                  · trivial

/-- No path through `_get_sync` on DFS writes. -/
theorem onlyReads_getDfs (C : Codec τ) (path : String) : (getDfs C path).OnlyCalls Op.Reads := by
  refine ⟨trivial, ?_⟩
  intro h
  cases h with
  -- the file is not there, or cannot be opened
  | error e =>
      dsimp only
      split <;> trivial
  | ok h =>
      -- after the open, whatever happens, the file is closed
      refine Program.OnlyCalls.bind ⟨trivial, ?_⟩ fun _ => ⟨trivial, fun _ => trivial⟩
      intro hdr
      cases hdr with
      | error e => trivial
      | ok hdr =>
          -- the prefix is short, or parses to two lengths
          dsimp only
          split
          · trivial
          · apply onlyReads_ofExcept
            rintro ⟨metaLen, payloadLen⟩
            dsimp only
            split
            · exact onlyReads_readPayload ..
            · -- a longer header needs a second read
              refine ⟨trivial, ?_⟩
              intro metaBytes
              cases metaBytes with
              | error e => trivial
              | ok metaBytes => exact onlyReads_readPayload ..

/-- Neither backend's get writes. -/
theorem onlyReads_getSync (C : Codec τ) (a : Addr) : (getSync C a).OnlyCalls Op.Reads := by
  cases a with
  | path p => exact onlyReads_getDfs C p
  | raw a => exact onlyReads_getRaw C a

/-- One result for each program. -/
theorem length_exec_gather (ps : List (Io τ α)) (w : World τ) :
    (exec alloc (gather ps) w).1.length = ps.length := by
  induction ps generalizing w with
  | nil => rfl
  | cons p ps ih =>
      rw [gather, exec_bind, exec_map, List.length_cons, ih, List.length_cons]

/-- Each of several reads sees the container as it was. -/
theorem exec_gather_onlyReads (alloc : Allocator τ) {ps : List (Io τ α)}
    (hps : ∀ p ∈ ps, p.OnlyCalls Op.Reads)
    {i : ℕ} {p : Io τ α} (hi : ps[i]? = some p) (w : World τ) :
    ∃ w' : World τ, (w'.dfs = w.dfs ∧ w'.obj = w.obj) ∧
      (exec alloc (gather ps) w).1[i]? = some (exec alloc p w').1 := by
  induction ps generalizing w i with
  | nil => cases hi
  | cons q ps ih =>
      rw [gather, exec_bind, exec_map]
      cases i with
      | zero =>
          cases hi
          exact ⟨w, ⟨rfl, rfl⟩, rfl⟩
      | succ i =>
          have hq : (exec alloc q w).2.dfs = w.dfs ∧ (exec alloc q w).2.obj = w.obj :=
            exec_onlyReads (hps q List.mem_cons_self) w
          have hrest := ih (fun r hr => hps r (List.mem_cons_of_mem _ hr)) hi (exec alloc q w).2
          rwa [hq.1, hq.2] at hrest

end LmcacheDaos.Connector
