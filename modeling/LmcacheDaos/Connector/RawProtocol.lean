import LmcacheDaos.Connector.Calls

/-!
# The commit protocol of the object API

`_put_raw`, `_put_raw_folded`, `_get_raw`, `_get_raw_folded` and `_remove_one`
side by side. An update and a punch reach their akeys one at a time and in any
order, each akey at once, and a fetch reads its akeys one at a time and in any
order; whoever dies inside a call is not stepped any more and leaves the akeys
it had reached. Keys are content-addressed: a put of a key writes `content` of
its chunk and layer.

The invariant is about single akeys: each is absent or holds the one value that
its dkey and name are for (`Item`). So nothing a reader fetches can be wrong,
only missing, and a length that agrees with the metadata rules that out.

What a reader cannot get at makes it raise (`Readable`): a layer id without akeys,
and a header longer than the buffer that readers offer, which a put commits all
the same.
-/

namespace LmcacheDaos.Connector.RawProtocol

open Lib Serde

variable {τ : Type}

/-! ## Calls akey by akey -/

/-- How far a call has come: what an update or a punch of akeys has left, what
a fetch has read per akey, what the punch of a dkey has reached. -/
abbrev Progress : Op τ → Type
  | .update .. => List (Akey × Bytes)
  | .fetch .. => List (Option Bytes)
  | .punch _ => List Akey
  | .punchAkeys .. => List Akey
  | _ => Unit

def start : (o : Op τ) → Progress o
  | .update _ items _ => items
  | .fetch _ items _ => items.map fun _ => none
  | .punch _ => []
  | .punchAkeys _ akeys => akeys
  | .openRdonly _ | .openRdwrCreate _ | .readObj .. | .readObjInto .. | .writeObjFrom .. => ()
  | .closeObj _ | .pathExists _ | .remove _ | .allocate _ | .release _ => ()

/-- What a call in flight does next. -/
inductive Move where
  /-- the `i`-th akey that an update or a punch of akeys has left, or the `i`-th
  akey of a fetch -/
  | akey (i : ℕ)
  /-- one akey of the punch of a dkey -/
  | punched (akey : Akey)
  /-- the call returns -/
  | complete
  /-- the allocator answers: nothing, or a buffer with what is in it -/
  | allocated (buf : Option (ℕ × Bytes))
deriving DecidableEq, Repr

section Steps

variable (st : ObjStore)

def stepUpdate (dkey : Dkey) (single : Bool) (pending : List (Akey × Bytes)) :
    Move → Option (ObjStore × (List (Akey × Bytes) ⊕ Except DaosError Unit))
  | .akey i => (pending[i]?).map fun item =>
      (st.writeAkey dkey single item, .inl (pending.eraseIdx i))
  | .complete => if pending = [] then some (st, .inr (.ok ())) else none
  | _ => none

def stepFetch (dkey : Dkey) (items : List (Akey × ℕ)) (single : Bool) (got : List (Option Bytes)) :
    Move → Option (ObjStore × (List (Option Bytes) ⊕ Except DaosError (List Bytes)))
  | .akey i => (items[i]?).map fun item =>
      match ObjStore.fetchValue single item.2 (st dkey item.1) with
      | .error e => (st, .inr (.error e))
      | .ok b => (st, .inl (got.set i (some b)))
  | .complete =>
      if got.all Option.isSome then some (st, .inr (.ok (got.map fun b => b.getD []))) else none
  | _ => none

def stepPunch (dkey : Dkey) (reached : List Akey) :
    Move → Option (ObjStore × (List Akey ⊕ Except DaosError Unit))
  | .punched a =>
      if a ∈ reached then none else some (st.punchAkey dkey a, .inl (a :: reached))
  | .complete =>
      some (Function.update st dkey fun a => if a ∈ reached then st dkey a else [], .inr (.ok ()))
  | _ => none

def stepPunchAkeys (dkey : Dkey) (pending : List Akey) :
    Move → Option (ObjStore × (List Akey ⊕ Except DaosError Unit))
  | .akey i => (pending[i]?).map fun a => (st.punchAkey dkey a, .inl (pending.eraseIdx i))
  | .complete => if pending = [] then some (st, .inr (.ok ())) else none
  | _ => none

def stepAllocate (objSize : τ → ℕ) (layout : τ) :
    Move → Option (ObjStore × (Unit ⊕ Option (MemoryObj τ)))
  | .allocated none => some (st, .inr none)
  | .allocated (some (id, mem)) =>
      if mem.length = objSize layout then some (st, .inr (some ⟨id, mem, layout⟩)) else none
  | _ => none

/-- One step of a call. `objSize` is the size of a buffer for a layout. The
file calls are not made here. -/
def step (objSize : τ → ℕ) :
    (o : Op τ) → Progress o → Move → Option (ObjStore × (Progress o ⊕ Ans o))
  | .update dkey _ single, pending, m => stepUpdate st dkey single pending m
  | .fetch dkey items single, got, m => stepFetch st dkey items single got m
  | .punch dkey, reached, m => stepPunch st dkey reached m
  | .punchAkeys dkey _, pending, m => stepPunchAkeys st dkey pending m
  | .allocate layout, _, m => stepAllocate st objSize layout m
  | .release _, _, m => if m = .complete then some (st, .inr ()) else none
  | .openRdonly _, _, _ | .openRdwrCreate _, _, _ | .readObj .., _, _ => none
  | .readObjInto .., _, _ | .writeObjFrom .., _, _ | .closeObj _, _, _ => none
  | .pathExists _, _, _ | .remove _, _, _ => none

end Steps

def callSteps (objSize : τ → ℕ) : CallSteps ObjStore (Op τ) Ans Move where
  Progress := Progress
  start := start
  step st := step st objSize

/-! ## Jobs -/

/-- One call inside the thread pool. The folded ones are what `batched_put` and
`batched_get` submit per chunk; a batch that is not folded submits the others. -/
inductive Job where
  | put (key : Key)
  | putFolded (chunk : String) (layers : List ℕ)
  | get (key : Key)
  | getFolded (chunk : String) (layers : List ℕ)
  | remove (key : Key)
deriving DecidableEq, Repr

def Job.chunk : Job → String
  | .put key | .get key | .remove key => chunkStr key
  | .putFolded chunk _ | .getFolded chunk _ => chunk

inductive Outcome (τ : Type) where
  | wrote (r : Except Err Unit)
  | got (r : Except Err (Option (MemoryObj τ)))
  | gotAll (r : Except Err (List (Option (MemoryObj τ))))
  | removed (r : Except Err Bool)

/-- What the keys of the chunks in use stand for. -/
structure Contents (τ : Type) where
  codec : Codec τ
  /-- size of the buffer that the allocator hands out for a layout -/
  objSize : τ → ℕ
  /-- the object of a chunk, or of one of its layers -/
  content : String → Option ℕ → MemoryObj τ
  chunks : Set String
  /-- no two chunks in use have the same digest -/
  dkey_inj : Set.InjOn dkeyForStr chunks
  lossless : ∀ chunk layer, codec.deserialize (codec.serialize (content chunk layer).metadata) =
    some (content chunk layer).metadata
  size_eq : ∀ chunk layer, objSize (content chunk layer).layout =
    (content chunk layer).byteArray.length

variable (W : Contents τ)

def body : Job → Program (Op τ) Ans (Outcome τ)
  | .put key => (put W.codec true key (W.content (chunkStr key) key.layer)).map .wrote
  | .putFolded chunk layers =>
      (Io.ofExcept (layers.mapM fun l => prepWrite W.codec (W.content chunk (some l))) fun ws =>
        putRawFolded (dkeyForStr chunk) (layers.zip ws)).map .wrote
  | .get key => (get W.codec true key).map .got
  | .getFolded chunk layers => (getRawFolded W.codec (dkeyForStr chunk) layers).map .gotAll
  | .remove key => (removeOne (addr true key)).map .removed

/-- Any number of jobs over one object, empty in the beginning. -/
def system := Program.threads (callSteps W.objSize) (fun st => st = fun _ _ => []) (body W)

/-! ## What an akey is for -/

/-- The committed header of a chunk or layer. -/
def headerAt (chunk : String) (layer : Option ℕ) : Header := headerOf W.codec
    (W.content chunk layer)

/-- A value that a put of a chunk in use writes to an akey: a header (SINGLE) or
a payload (ARRAY). -/
def Item (dkey : Dkey) (single : Bool) (item : Akey × Bytes) : Prop :=
  ∃ chunk ∈ W.chunks, ∃ layer, LayerOk layer ∧ dkeyForStr chunk = dkey ∧
    if single then
      (headerAt W chunk layer).Packable ∧ item = (metaAkey layer, header (headerAt W chunk layer))
    else item = (payloadAkey layer, (W.content chunk layer).byteArray)

/-- Every akey is absent or holds its value. -/
def Inv (st : ObjStore) : Prop := ∀ d a, st d a = [] ∨ ∃ single, Item W d single (a, st d a)

variable {W}

/-- What the metadata akey of a chunk may hold: the header of its content, if that is
packable. -/
theorem item_metaAkey {chunk : String} (hS : chunk ∈ W.chunks) {layer : Option ℕ}
    (hl : LayerOk layer) {single : Bool} {v : Bytes}
    (h : Item W (dkeyForStr chunk) single (metaAkey layer, v)) :
    single = true ∧ (headerAt W chunk layer).Packable ∧ v = header (headerAt W chunk layer) := by
  obtain ⟨chunk', hS', layer', hl', hd, h⟩ := h
  obtain rfl := W.dkey_inj hS' hS hd
  cases single with
  | true =>
      obtain ⟨hpk, heq⟩ := h
      obtain ⟨ha, hv⟩ := Prod.mk.inj heq
      obtain rfl := metaAkey_inj hl hl' ha
      exact ⟨rfl, hpk, hv⟩
  | false => exact absurd (Prod.mk.inj h).1.symm (payloadAkey_ne_metaAkey _ _)

/-- What its payload akey may hold: the bytes of its content. -/
theorem item_payloadAkey {chunk : String} (hS : chunk ∈ W.chunks) {layer : Option ℕ}
    (hl : LayerOk layer) {single : Bool} {v : Bytes}
    (h : Item W (dkeyForStr chunk) single (payloadAkey layer, v)) :
    single = false ∧ v = (W.content chunk layer).byteArray := by
  obtain ⟨chunk', hS', layer', hl', hd, h⟩ := h
  obtain rfl := W.dkey_inj hS' hS hd
  cases single with
  | true => exact absurd (Prod.mk.inj h.2).1 (payloadAkey_ne_metaAkey _ _)
  | false =>
      obtain ⟨ha, hv⟩ := Prod.mk.inj h
      obtain rfl := payloadAkey_inj hl hl' ha
      exact ⟨rfl, hv⟩

/-- An akey has one value. -/
theorem Item.unique {d : Dkey} {single single' : Bool} {a : Akey} {v v' : Bytes}
    (h : Item W d single (a, v)) (h' : Item W d single' (a, v')) : single' = single ∧ v' = v := by
  obtain ⟨chunk, hS, layer, hl, rfl, h⟩ := h
  cases single with
  | true =>
      obtain ⟨-, heq⟩ := h
      obtain ⟨rfl, rfl⟩ := Prod.mk.inj heq
      obtain ⟨hs, -, hv⟩ := item_metaAkey hS hl h'
      exact ⟨hs, hv⟩
  | false =>
      obtain ⟨rfl, rfl⟩ := Prod.mk.inj h
      exact item_payloadAkey hS hl h'

/-- An akey that gets what it is for keeps the invariant. -/
theorem inv_writeAkey {st : ObjStore} (hI : Inv W st) {d : Dkey} {single : Bool}
    {item : Akey × Bytes} (h : Item W d single item) : Inv W (st.writeAkey d single item) := by
  intro d' a'
  by_cases hsame : d' = d ∧ a' = item.1
  · obtain ⟨rfl, rfl⟩ := hsame
    -- over nothing, or over the same bytes
    have hval : ObjStore.writeValue single (st d' item.1) item.2 = item.2 := by
      cases single with
      | true => rfl
      | false =>
          rw [ObjStore.writeValue_array]
          rcases hI d' item.1 with hnil | ⟨single, hold⟩
          · rw [hnil, List.drop_nil, List.append_nil]
          · rw [(h.unique hold).2, List.drop_length, List.append_nil]
    rw [ObjStore.writeAkey_self, hval]
    exact .inr ⟨single, h⟩
  · have hne : d' ≠ d ∨ a' ≠ item.1 := by
      by_cases hd : d' = d
      · exact .inr fun ha => hsame ⟨hd, ha⟩
      · exact .inl hd
    rw [ObjStore.writeAkey_other hne]
    exact hI d' a'

/-- Removing values keeps the invariant. -/
theorem Inv.mono {st st' : ObjStore} (hI : Inv W st)
    (h : ∀ d a, st' d a = [] ∨ st' d a = st d a) : Inv W st' := by
  intro d a
  rcases h d a with hnil | hsame
  · exact .inl hnil
  · rw [hsame]
    exact hI d a

/-- So does an akey that loses what it had. -/
theorem inv_punchAkey {st : ObjStore} (hI : Inv W st) (d : Dkey) (a : Akey) :
    Inv W (st.punchAkey d a) := by
  apply hI.mono
  intro d' a'
  unfold ObjStore.punchAkey
  by_cases hd : d' = d
  · subst hd
    by_cases ha : a' = a
    · subst ha
      exact .inl (by simp)
    · exact .inr (by simp [ha])
  · exact .inr (by simp [hd])

/-! ## What calls in flight know -/

variable (W)

/-- What a fetch may find in one akey: nothing, or its value, cut to the buffer
if it is an array. -/
def Fetched (d : Dkey) (single : Bool) (item : Akey × ℕ) (b : Bytes) : Prop :=
  b = [] ∨ ∃ kind v, Item W d kind (item.1, v) ∧ b = v.take item.2 ∧
    (single = true → v.length ≤ item.2)

def Knows : (o : Op τ) → Progress o → Prop
  | .update d _ single, pending => ∀ item ∈ pending, Item W d single item
  | .fetch d items single, got => List.length got = items.length ∧
      ∀ (i : ℕ) item b, items[i]? = some item → got[i]? = some (some b) → Fetched W d single item b
  | _, _ => True

/-- What a call may answer. The only exception is that of a value which does
not fit the buffer it is fetched into. -/
def Answers : (o : Op τ) → Ans o → Prop
  | .fetch d items single, .ok got => got.length = items.length ∧
      ∀ (i : ℕ) item b, items[i]? = some item → got[i]? = some b → Fetched W d single item b
  | .fetch d items single, .error _ => single = true ∧
      ∃ item ∈ items, ∃ kind v, Item W d kind (item.1, v) ∧ item.2 < v.length
  | .update .., ans => ans = .ok ()
  | .allocate layout, ans => ∀ mo, ans = some mo →
      mo.layout = layout ∧ mo.byteArray.length = W.objSize layout
  | _, _ => True

/-- What a step of a call leads to. -/
def Next (o : Op τ) : Progress o ⊕ Ans o → Prop
  | .inl f => Knows W o f
  | .inr ans => Answers W o ans

variable {W}

/-- What a single fetch finds is nothing, or (part of) what the akey is for. -/
theorem fetched_of_fetchValue {st : ObjStore} (hI : Inv W st) {d : Dkey} {single : Bool}
    {item : Akey × ℕ} {b : Bytes}
    (h : ObjStore.fetchValue single item.2 (st d item.1) = .ok b) : Fetched W d single item b := by
  unfold ObjStore.fetchValue at h
  split at h
  · cases h
  · rename_i hfit
    cases h
    rcases hI d item.1 with hnil | ⟨kind, hitem⟩
    · rw [hnil, List.take_nil]
      exact .inl rfl
    · refine .inr ⟨kind, _, hitem, rfl, ?_⟩
      intro hs
      by_contra hlt
      exact hfit ⟨hs, by omega⟩

/-- A single fetch fails only at a metadata value longer than the buffer. -/
theorem too_big_of_fetchValue {st : ObjStore} (hI : Inv W st) {d : Dkey} {single : Bool}
    {item : Akey × ℕ} {e : DaosError}
    (h : ObjStore.fetchValue single item.2 (st d item.1) = .error e) :
    single = true ∧ ∃ kind v, Item W d kind (item.1, v) ∧ item.2 < v.length := by
  unfold ObjStore.fetchValue at h
  split at h
  · rename_i hbig
    refine ⟨hbig.1, ?_⟩
    rcases hI d item.1 with hnil | ⟨kind, hitem⟩
    · rw [hnil] at hbig
      exact absurd hbig.2 (Nat.not_lt_zero _)
    · exact ⟨kind, _, hitem, hbig.2⟩
  · cases h

/-- One akey of an update written, or its end. -/
theorem stepUpdate_safe {st st' : ObjStore} (hI : Inv W st) {d : Dkey}
    {items pending : List (Akey × Bytes)} {single : Bool}
    (hK : ∀ item ∈ pending, Item W d single item) {m : Move}
    {r : List (Akey × Bytes) ⊕ Except DaosError Unit}
    (h : stepUpdate st d single pending m = some (st', r)) :
    Inv W st' ∧ Next W (.update d items single) r := by
  cases m with
  | akey i =>
      obtain ⟨item, hitem, heq⟩ := Option.map_eq_some_iff.mp h
      cases heq
      refine ⟨inv_writeAkey hI (hK item (List.mem_of_getElem? hitem)), ?_⟩
      intro item' hmem
      exact hK item' (List.mem_of_mem_eraseIdx hmem)
  | complete =>
      simp only [stepUpdate] at h
      split at h
      · cases h
        exact ⟨hI, rfl⟩
      · cases h
  | punched a => cases h
  | allocated buf => cases h

/-- One akey of a fetch read, or its end with all that was read. -/
theorem stepFetch_safe {st st' : ObjStore} (hI : Inv W st) {d : Dkey} {items : List (Akey × ℕ)}
    {single : Bool} {got : List (Option Bytes)} (hK : Knows W (.fetch d items single) got)
    {m : Move} {r : List (Option Bytes) ⊕ Except DaosError (List Bytes)}
    (h : stepFetch st d items single got m = some (st', r)) :
    Inv W st' ∧ Next W (.fetch d items single) r := by
  cases m with
  | akey i =>
      -- one more akey read; what was read before stays
      obtain ⟨item, hitem, heq⟩ := Option.map_eq_some_iff.mp h
      cases hf : ObjStore.fetchValue single item.2 (st d item.1) with
      | error e =>
          rw [hf] at heq
          cases heq
          -- the value is longer than the buffer: a header, as payload fetches have no bound
          obtain ⟨hs, hbig⟩ := too_big_of_fetchValue hI hf
          exact ⟨hI, hs, item, List.mem_of_getElem? hitem, hbig⟩
      | ok b =>
          rw [hf] at heq
          cases heq
          refine ⟨hI, ?_, ?_⟩
          · rw [List.length_set]
            exact hK.1
          · intro j item' b' hitem' hgot
            rcases Threads.getElem?_set_cases hgot with ⟨rfl, hb⟩ | ⟨-, hgot⟩
            · cases hb
              cases hitem.symm.trans hitem'
              exact fetched_of_fetchValue hI hf
            · exact hK.2 j item' b' hitem' hgot
  | complete =>
      simp only [stepFetch] at h
      split at h
      · rename_i hall
        -- all akeys were read: the answer is what they gave, in order
        cases h
        refine ⟨hI, ?_, ?_⟩
        · rw [List.length_map]
          exact hK.1
        · intro i item b hitem hgot
          rw [List.getElem?_map] at hgot
          obtain ⟨ob, hob, hb⟩ := Option.map_eq_some_iff.mp hgot
          have hsome := List.all_eq_true.mp hall ob (List.mem_of_getElem? hob)
          obtain ⟨b', rfl⟩ := Option.isSome_iff_exists.mp hsome
          cases hb
          exact hK.2 i item b' hitem hob
      · cases h
  | punched a => cases h
  | allocated buf => cases h

/-- One akey of a whole dkey gone. -/
theorem stepPunch_safe {st st' : ObjStore} (hI : Inv W st) {d : Dkey} {reached : List Akey}
    {m : Move} {r : List Akey ⊕ Except DaosError Unit}
    (h : stepPunch st d reached m = some (st', r)) : Inv W st' := by
  cases m with
  | akey i => cases h
  | punched a =>
      simp only [stepPunch] at h
      split at h
      · cases h
      · cases h
        exact inv_punchAkey hI d a
  | complete =>
      cases h
      apply hI.mono
      intro d' a
      by_cases hd : d' = d
      · subst hd
        rw [Function.update_self]
        split
        · exact .inr rfl
        · exact .inl rfl
      · rw [Function.update_of_ne hd]
        exact .inr rfl
  | allocated buf => cases h

/-- One akey of a list gone. -/
theorem stepPunchAkeys_safe {st st' : ObjStore} (hI : Inv W st) {d : Dkey} {pending : List Akey}
    {m : Move} {r : List Akey ⊕ Except DaosError Unit}
    (h : stepPunchAkeys st d pending m = some (st', r)) : Inv W st' := by
  cases m with
  | akey i =>
      obtain ⟨a, -, heq⟩ := Option.map_eq_some_iff.mp h
      cases heq
      exact inv_punchAkey hI d a
  | complete =>
      simp only [stepPunchAkeys] at h
      split at h
      · cases h
        exact hI
      · cases h
  | punched a => cases h
  | allocated buf => cases h

/-- An allocation touches no storage. -/
theorem stepAllocate_safe {st st' : ObjStore} {layout : τ} {m : Move}
    {r : Unit ⊕ Option (MemoryObj τ)} (h : stepAllocate st W.objSize layout m = some (st', r)) :
    st' = st ∧ Next W (.allocate layout) r := by
  cases m with
  | akey i => cases h
  | punched a => cases h
  | complete => cases h
  | allocated buf =>
      cases buf with
      | none =>
          cases h
          exact ⟨rfl, fun mo hmo => nomatch hmo⟩
      | some mem =>
          simp only [stepAllocate] at h
          split at h
          · rename_i hlen
            cases h
            refine ⟨rfl, ?_⟩
            intro mo hmo
            cases hmo
            exact ⟨rfl, hlen⟩
          · cases h

/-- One step of any call. -/
theorem step_safe {st st' : ObjStore} (hI : Inv W st) {o : Op τ} {f : Progress o}
    (hK : Knows W o f) {m : Move} {r : Progress o ⊕ Ans o}
    (h : step st W.objSize o f m = some (st', r)) : Inv W st' ∧ Next W o r := by
  cases o with
  | update d items single => exact stepUpdate_safe hI hK h
  | fetch d items single => exact stepFetch_safe hI hK h
  | punch d =>
      refine ⟨stepPunch_safe hI h, ?_⟩
      cases r <;> trivial
  | punchAkeys d akeys =>
      refine ⟨stepPunchAkeys_safe hI h, ?_⟩
      cases r <;> trivial
  | allocate layout =>
      obtain ⟨rfl, hnext⟩ := stepAllocate_safe h
      exact ⟨hI, hnext⟩
  | release mo =>
      simp only [step] at h
      split at h
      · cases h
        exact ⟨hI, trivial⟩
      · cases h
  | openRdonly _ | openRdwrCreate _ | readObj _ _ _ | readObjInto _ _ _ _ | writeObjFrom _ _ _
  | closeObj _ | pathExists _ | remove _ => cases h

/-! ## The programs -/

variable {α β : Type}

variable (W) in
/-- Against every answer that the other jobs can bring about. -/
abbrev Safe (Q : α → Prop) (st : ObjStore) (p : Program (Op τ) Ans α) : Prop :=
  Program.Valid (C := callSteps W.objSize) (Inv W) (fun _ _ => True) (fun _ => Knows W)
    (fun _ => Answers W) Q st p

/-- A program that begins with a call is safe if what follows is, for every answer and every
state that others may leave. -/
theorem safe_call {Q : α → Prop} {st : ObjStore} {o : Op τ} {k : Ans o → Program (Op τ) Ans α}
    (hK : Knows W o (start o)) (h : ∀ st' ans, Inv W st' → Answers W o ans → Safe W Q st' (k ans)) :
    Safe W Q st (.call o k) :=
  ⟨hK, fun st' ans _ hI hans => h st' ans hI hans⟩

/-- A fetch begins with nothing read. -/
theorem knows_fetch (d : Dkey) (items : List (Akey × ℕ)) (single : Bool) :
    Knows W (.fetch d items single) (start (.fetch d items single)) := by
  refine ⟨List.length_map _, ?_⟩
  intro i item b _ hgot
  have hnone : ∀ ob ∈ start (τ := τ) (.fetch d items single), ob = none := by simp [start]
  exact nomatch hnone _ (List.mem_of_getElem? hgot)

/-- Payload first and metadata second: both writes put items where they belong. -/
theorem safe_commit {st : ObjStore} {d : Dkey} {payloads metas : List (Akey × Bytes)}
    (hp : ∀ item ∈ payloads, Item W d false item) (hm : ∀ item ∈ metas, Item W d true item) :
    Safe W (fun _ => True) st (commit (τ := τ) d payloads metas) := by
  refine safe_call hp ?_
  intro st' ans _ hans
  cases hans
  refine safe_call hm ?_
  intro st'' ans' _ _
  trivial

/-- The two items of a write. -/
theorem items_of_writeItems {chunk : String} (hS : chunk ∈ W.chunks) {layer : Option ℕ}
    {w : Prepped}
    (hw : prepWrite W.codec (W.content chunk layer) = .ok w) {payload metadata : Akey × Bytes}
    (h : writeItems layer w = .ok (payload, metadata)) :
    Item W (dkeyForStr chunk) false payload ∧ Item W (dkeyForStr chunk) true metadata := by
  obtain ⟨hfr, rfl⟩ := prepWrite_eq_ok.mp hw
  obtain ⟨⟨hl, hpk⟩, heq⟩ := (writeItems_eq_ok hfr).mp h
  cases heq
  exact ⟨⟨chunk, hS, layer, hl, rfl, rfl⟩, ⟨chunk, hS, layer, hl, rfl, hpk, rfl⟩⟩

/-- A put of the chunk's own content is safe. -/
theorem safe_put {st : ObjStore} {key : Key} (hS : chunkStr key ∈ W.chunks) :
    Safe W (fun _ => True) st (put W.codec true key (W.content (chunkStr key) key.layer)) := by
  unfold put Io.ofExcept
  cases hw : prepWrite W.codec (W.content (chunkStr key) key.layer) with
  | error e => trivial
  | ok w =>
      show Safe W _ st (putRaw (rawAddr key) w)
      unfold putRaw Io.ofExcept
      cases hitems : writeItems (rawAddr key).layer w with
      | error e => trivial
      | ok items =>
          obtain ⟨hp, hm⟩ := items_of_writeItems hS hw hitems
          apply safe_commit
          · intro item hmem
            rw [List.mem_singleton.mp hmem]
            exact hp
          · intro item hmem
            rw [List.mem_singleton.mp hmem]
            exact hm

/-- So is a folded put of several of its layers. -/
theorem safe_putFolded {st : ObjStore} {chunk : String} (hS : chunk ∈ W.chunks) {layers : List ℕ}
    {ws : List Prepped}
    (hws : List.Forall₂ (fun l w => prepWrite W.codec (W.content chunk (some l)) = .ok w)
      layers ws) :
    Safe W (fun _ => True) st (putRawFolded (dkeyForStr chunk) (layers.zip ws)) := by
  unfold putRawFolded Io.ofExcept
  cases hitems : (layers.zip ws).mapM fun lw => writeItems (some lw.1) lw.2 with
  | error e => trivial
  | ok items =>
      have hall : ∀ item ∈ items, Item W (dkeyForStr chunk) false item.1 ∧
          Item W (dkeyForStr chunk) true item.2 := by
        intro item hmem
        obtain ⟨lw, hlw, heq⟩ := exists_of_mapM_eq_ok hitems hmem
        exact items_of_writeItems hS (List.forall₂_zip hws hlw) heq
      apply safe_commit
      · intro item hmem
        obtain ⟨it, hit, rfl⟩ := List.mem_map.mp hmem
        exact (hall it hit).1
      · intro item hmem
        obtain ⟨it, hit, rfl⟩ := List.mem_map.mp hmem
        exact (hall it hit).2

/-- A removal needs nothing. -/
theorem safe_removeOne {st : ObjStore} (a : RawAddr) :
    Safe W (fun _ => True) st (removeOne (τ := τ) (.raw a)) := by
  obtain ⟨d, layer⟩ := a
  cases layer with
  | none =>
      refine safe_call (o := .punch d) trivial ?_
      intro _ _ _ _
      trivial
  | some layer =>
      simp only [removeOne, Io.ofExcept]
      cases akeysFor (some layer) with
      | error e => trivial
      | ok aks =>
          refine safe_call (o := .punchAkeys d [aks.1, aks.2]) trivial ?_
          intro _ _ _ _
          trivial

/-! ## Reading -/

/-- Metadata that parses is that of the content. -/
theorem metadata_of_fetched {chunk : String} (hS : chunk ∈ W.chunks) {layer : Option ℕ}
    (hl : LayerOk layer) {b : Bytes}
    (h : Fetched W (dkeyForStr chunk) true (metaAkey layer, metaCap) b) {m : RemoteMetadata τ}
    (hm : parseAkey W.codec b = some m) : m = (W.content chunk layer).metadata := by
  rcases h with rfl | ⟨kind, v, hitem, rfl, hfit⟩
  · cases hm
  · obtain ⟨-, hpk, rfl⟩ := item_metaAkey hS hl hitem
    rw [List.take_of_length_le (hfit rfl),
      headerAt, parseAkey_header hpk (W.lossless chunk layer)] at hm
    exact (Option.some.inj hm).symm

/-- A payload of the right length is the payload. -/
theorem bytes_of_fetched {chunk : String} (hS : chunk ∈ W.chunks) {layer : Option ℕ}
    (hl : LayerOk layer) {n : ℕ} (hn : n = (W.content chunk layer).byteArray.length) {b : Bytes}
    (h : Fetched W (dkeyForStr chunk) false (payloadAkey layer, n) b) (hb : b.length = n) :
    b = (W.content chunk layer).byteArray := by
  rcases h with rfl | ⟨kind, v, hitem, rfl, -⟩
  · rw [eq_comm, ← List.length_eq_zero_iff, ← hn, ← hb]
    rfl
  · obtain ⟨-, rfl⟩ := item_payloadAkey hS hl hitem
    exact List.take_of_length_le (Nat.le_of_eq hn.symm)

/-- A payload of the length that the metadata gives is the content's. -/
theorem same_of_fetched {chunk : String} (hS : chunk ∈ W.chunks) {layer : Option ℕ}
    (hl : LayerOk layer) {mo : MemoryObj τ} (hlayout : mo.layout = (W.content chunk layer).layout)
    {n : ℕ} (hn : n = (W.content chunk layer).byteArray.length) (hmo : mo.byteArray.length = n)
    {b : Bytes} (h : Fetched W (dkeyForStr chunk) false (payloadAkey layer, n) b)
    (hb : b.length = n) : (mo.fill b).Same (W.content chunk layer) := by
  rw [MemoryObj.fill_of_length (hb.trans hmo.symm)]
  exact ⟨bytes_of_fetched hS hl hn h hb, hlayout⟩

variable (W) in
/-- What readers can get at: the layer has akeys, and a header that a put commits fits
the buffer of readers, which has `hdrCap` bytes for metadata. -/
def Readable (chunk : String) (layer : Option ℕ) : Prop :=
  LayerOk layer ∧ ((headerAt W chunk layer).Packable →
    (W.codec.serialize (W.content chunk layer).metadata).length ≤ hdrCap)

variable (W) in
/-- What a get of a key may end with. -/
def GetOk (chunk : String) (layer : Option ℕ) : Except Err (Option (MemoryObj τ)) → Prop
  | .ok none => True
  | .ok (some mo) => mo.Same (W.content chunk layer)
  | .error _ => ¬ Readable W chunk layer

/-- A failed fetch of metadata akeys of one chunk: a put has committed a header that is
longer than the buffer. -/
theorem not_readable_of_error {chunk : String} (hS : chunk ∈ W.chunks) (items : List (Akey × ℕ))
    {P : Option ℕ → Prop}
    (hitems : ∀ item ∈ items, ∃ l, P l ∧ LayerOk l ∧ item = (metaAkey l, metaCap)) {e : DaosError}
    (h : Answers W (.fetch (dkeyForStr chunk) items true) (.error e)) :
    ∃ l, P l ∧ ¬ Readable W chunk l := by
  obtain ⟨-, item, hmem, kind, v, hitem, hbig⟩ := h
  obtain ⟨l, hP, hl, rfl⟩ := hitems item hmem
  obtain ⟨-, hpk, rfl⟩ := item_metaAkey hS hl hitem
  refine ⟨l, hP, fun hread => ?_⟩
  have hcap : fixedSize + hdrCap <
      fixedSize + (W.codec.serialize (W.content chunk l).metadata).length := by
    rw [length_header] at hbig
    exact hbig
  exact Nat.not_le_of_lt (Nat.lt_of_add_lt_add_left hcap) (hread.2 hpk)

/-- The only entry of a list of one. -/
theorem headD_of_length_one {α : Type} {l : List α} {d : α} (h : l.length = 1) :
    l[0]? = some (l.headD d) := by
  obtain ⟨a, rfl⟩ := List.length_eq_one_iff.mp h
  rfl

/-- A get ends with nothing, the content, or a failed fetch. -/
theorem safe_getRaw {st : ObjStore} {chunk : String} (hS : chunk ∈ W.chunks) (layer : Option ℕ) :
    Safe W (GetOk W chunk layer) st (getRaw W.codec ⟨dkeyForStr chunk, layer⟩) := by
  unfold getRaw Io.ofExcept
  -- a layer without akeys raises before any call
  cases haks : akeysFor layer with
  | error e =>
      intro hread
      rw [akeysFor_eq_ok.mpr ⟨hread.1, rfl⟩] at haks
      cases haks
  | ok aks =>
      obtain ⟨hl, rfl⟩ := akeysFor_eq_ok.mp haks
      refine safe_call (knows_fetch ..) ?_
      intro st' ans _ hans
      cases ans with
      -- the fetch of the metadata raises: the committed header was too long
      | error e =>
          have hun := not_readable_of_error hS [_] (P := (· = layer)) ?_ hans
          · obtain ⟨_, rfl, hun⟩ := hun
            exact hun
          · intro item hmem
            exact ⟨layer, rfl, hl, List.mem_singleton.mp hmem⟩
      | ok got =>
          -- the metadata comes from one akey, so what was fetched is a whole header or nothing
          have hgot := hans.2 0 _ _ rfl (headD_of_length_one (d := []) hans.1)
          dsimp only
          split
          · trivial
          · rename_i m hm
            -- it parses, so it is the content's
            obtain rfl := metadata_of_fetched hS hl hgot hm
            refine safe_call trivial ?_
            intro st'' mo? _ hmo
            cases mo? with
            | none => trivial
            | some mo =>
                obtain ⟨hlayout, hlen⟩ := hmo mo rfl
                -- a buffer of that length is granted, or nothing
                have hlen : mo.byteArray.length = (W.content chunk layer).metadata.length :=
                  hlen.trans (W.size_eq chunk layer)
                show Safe W _ st'' (if mo.byteArray.length < _ then _ else _)
                rw [if_neg (by omega)]
                refine safe_call (knows_fetch ..) ?_
                -- the payload may be gone meanwhile, then the fetch is short
                intro _ readn _ hread
                cases readn with
                | error e => exact absurd hread.1 (by simp)
                | ok readn =>
                    have hbytes := hread.2 0 _ _ rfl (headD_of_length_one (d := []) hread.1)
                    show Safe W _ _ (if (readn.headD []).length ≠ _ then _ else _)
                    split
                    · refine safe_call trivial ?_
                      intro _ _ _ _
                      -- short: the buffer is released and the get is a miss
                      trivial
                    · rename_i hfull
                      -- as long as the metadata says: the content's bytes
                      exact same_of_fetched hS hl hlayout rfl hlen hbytes (not_not.mp hfull)

/-! ## Reading the layers of a chunk together -/

section Folded

variable {chunk : String} {layers : List ℕ}

variable (W chunk layers) in
/-- A staged layer: where it belongs and what will be read for it. -/
def StagedOk (s : Staged τ) : Prop :=
  ∃ layer, layers[s.pos]? = some layer ∧ LayerOk (some layer) ∧ s.pak = payloadAkey (some layer) ∧
    s.n = (W.content chunk (some layer)).byteArray.length ∧ s.obj.byteArray.length = s.n ∧
    s.obj.layout = (W.content chunk (some layer)).layout

variable (W chunk layers) in
/-- A result, position by position. -/
def OutOk (out : List (Option (MemoryObj τ))) : Prop :=
  out.length = layers.length ∧ ∀ (i : ℕ) mo, out[i]? = some (some mo) →
    ∃ layer, layers[i]? = some layer ∧ mo.Same (W.content chunk (some layer))

variable (W chunk layers) in
/-- What a folded get may end with. -/
def GetAllOk : Except Err (List (Option (MemoryObj τ))) → Prop
  | .ok out => OutOk W chunk layers out
  | .error _ => ∃ layer ∈ layers, ¬ Readable W chunk (some layer)

variable (layers) in
/-- The layers staged by a folded get have the metadata of their contents. -/
theorem safe_stage (hS : chunk ∈ W.chunks) (entries : List (ℕ × ℕ × Bytes)) :
    ∀ {st : ObjStore}, Inv W st → (∀ e ∈ entries, layers[e.1]? = some e.2.1 ∧ LayerOk (some e.2.1) ∧
        Fetched W (dkeyForStr chunk) true (metaAkey (some e.2.1), metaCap) e.2.2) →
      Safe W (fun r => ∃ staged, r = .ok staged ∧ ∀ s ∈ staged, StagedOk W chunk layers s) st
        (stage W.codec entries) := by
  induction entries with
  | nil =>
      intro st _ _
      exact ⟨[], rfl, by simp⟩
  | cons e rest ih =>
      intro st hI hall
      obtain ⟨i, layer, buf⟩ := e
      obtain ⟨hpos, hl, hbuf⟩ : layers[i]? = some layer ∧ LayerOk (some layer) ∧
          Fetched W (dkeyForStr chunk) true (metaAkey (some layer), metaCap) buf :=
        hall _ List.mem_cons_self
      have hrest := fun e he => hall e (List.mem_cons_of_mem _ he)
      unfold stage
      cases hm : parseAkey W.codec buf with
      -- no metadata there: the layer is a miss
      | none => exact ih hI hrest
      | some m =>
          obtain rfl := metadata_of_fetched hS hl hbuf hm
          refine safe_call trivial ?_
          intro st' mo? hI' hmo
          cases mo? with
          -- no buffer: the layer is a miss, the others go on
          | none => exact ih hI' hrest
          | some mo =>
              obtain ⟨hlayout, hlen⟩ := hmo mo rfl
              have hlen : mo.byteArray.length = (W.content chunk (some layer)).metadata.length :=
                hlen.trans (W.size_eq chunk (some layer))
              have hpak : akeyLayer layer = .ok (payloadAkey (some layer)) :=
                akeyOfLayer_eq_ok.mpr ⟨hl layer rfl, rfl⟩
              show Safe W _ st' (if mo.byteArray.length < _ then _ else _)
              rw [if_neg (by omega), hpak]
              -- what is staged has the layer, the length and the layout of its content
              refine (ih hI' hrest).bind ?_ hI'
              rintro st'' r _ ⟨staged, rfl, hok⟩
              refine ⟨_, rfl, ?_⟩
              intro s hs
              rcases List.mem_cons.mp hs with rfl | hs
              · exact ⟨layer, hpos, hl, rfl, rfl, hlen, hlayout⟩
              · exact hok s hs

/-- What a folded get collects are contents, each at its own position. -/
theorem safe_collect (hS : chunk ∈ W.chunks) (pairs : List (Staged τ × Bytes)) :
    ∀ {st : ObjStore} {out : List (Option (MemoryObj τ))}, OutOk W chunk layers out →
      (∀ p ∈ pairs, StagedOk W chunk layers p.1 ∧
        Fetched W (dkeyForStr chunk) false (p.1.pak, p.1.n) p.2) →
      Safe W (GetAllOk W chunk layers) st (collect pairs out) := by
  induction pairs with
  | nil =>
      intro st out hout _
      exact hout
  | cons p rest ih =>
      intro st out hout hall
      obtain ⟨s, got⟩ := p
      obtain ⟨⟨layer, hpos, hl, hpak, hn, hlen, hlayout⟩, hgot⟩ := hall _ List.mem_cons_self
      have hrest := fun p hp => hall p (List.mem_cons_of_mem _ hp)
      unfold collect
      split
      · -- short: released, its slot stays empty
        refine safe_call trivial ?_
        intro _ _ _ _
        exact ih hout hrest
      · rename_i hfull
        -- whole: its own slot gets it, the others keep what they have
        apply ih _ hrest
        refine ⟨by rw [List.length_set]; exact hout.1, ?_⟩
        intro j mo hj
        rcases Threads.getElem?_set_cases hj with ⟨rfl, hmo⟩ | ⟨-, hj⟩
        · cases hmo
          rw [hpak] at hgot
          exact ⟨layer, hpos, same_of_fetched hS hl hlayout hn hlen hgot (not_not.mp hfull)⟩
        · exact hout.2 j mo hj

/-- A batch of misses. -/
theorem outOk_none : OutOk W chunk layers (layers.map fun _ => none) := by
  refine ⟨List.length_map _, ?_⟩
  intro i mo h
  have hnone : ∀ r ∈ layers.map fun _ => (none : Option (MemoryObj τ)), r = none := by simp
  exact nomatch hnone _ (List.mem_of_getElem? h)

/-- A folded get ends like single ones. -/
theorem safe_getRawFolded {st : ObjStore} (hS : chunk ∈ W.chunks) :
    Safe W (GetAllOk W chunk layers) st (getRawFolded W.codec (dkeyForStr chunk) layers) := by
  unfold getRawFolded Io.ofExcept
  cases hmaks : layers.mapM akeyMetaLayer with
  | error e =>
      -- a layer without akeys raises before any call
      obtain ⟨l, hmem, herr⟩ := exists_of_mapM_eq_error hmaks
      refine ⟨l, hmem, fun hread => ?_⟩
      rw [akeyMetaLayer, akeyOfLayer_eq_ok.mpr ⟨hread.1 l rfl, rfl⟩] at herr
      cases herr
  | ok maks =>
      obtain ⟨hl, rfl⟩ := mapM_akeyMetaLayer_eq_ok.mp hmaks
      refine safe_call (knows_fetch ..) ?_
      intro st' ans hI hans
      cases ans with
      | error e =>
          -- one header that is too long raises for all layers
          have hun := not_readable_of_error hS _ (P := fun l => ∃ i ∈ layers, l = some i) ?_ hans
          · obtain ⟨_, ⟨l, hmem, rfl⟩, hun⟩ := hun
            exact ⟨l, hmem, hun⟩
          · intro item hmem
            obtain ⟨mak, hmak, rfl⟩ := List.mem_map.mp hmem
            obtain ⟨l, hlmem, rfl⟩ := List.mem_map.mp hmak
            exact ⟨some l, ⟨l, hlmem, rfl⟩, hl l hlmem, rfl⟩
      | ok got =>
          -- positions, layers and fetched headers go together
          have hstage := safe_stage layers hS
            ((List.range layers.length).zip (layers.zip got)) hI ?_
          · refine hstage.bind ?_ hI
            rintro st'' r hI' ⟨staged, rfl, hok⟩
            show Safe W _ st'' (if staged.isEmpty then _ else _)
            split
            · -- nothing staged
              exact outOk_none
            · refine safe_call (knows_fetch ..) ?_
              intro _ readn _ hread
              cases readn with
              | error e => exact absurd hread.1 (by simp)
              | ok readn =>
                  -- each staged layer gets its own fetched payload
                  apply safe_collect hS _ outOk_none
                  rintro ⟨s, b⟩ hp
                  obtain ⟨i, hi⟩ := List.mem_iff_getElem?.mp hp
                  obtain ⟨hs, hb⟩ := List.getElem?_zip_eq_some.mp hi
                  refine ⟨hok s (List.mem_of_getElem? hs), hread.2 i _ b ?_ hb⟩
                  rw [List.getElem?_map, hs]
                  rfl
          · rintro ⟨i, layer, b⟩ he
            obtain ⟨j, hj⟩ := List.mem_iff_getElem?.mp he
            obtain ⟨hi, hlb⟩ := List.getElem?_zip_eq_some.mp hj
            obtain ⟨hlayer, hb⟩ := List.getElem?_zip_eq_some.mp hlb
            have hij : j = i := by
              rw [List.getElem?_range (List.getElem?_eq_some_iff.mp hlayer).1] at hi
              exact Option.some.inj hi
            subst hij
            refine ⟨hlayer, hl layer (List.mem_of_getElem? hlayer), hans.2 j _ b ?_ hb⟩
            rw [List.getElem?_map, List.getElem?_map, hlayer]
            rfl

end Folded

/-! ## Every run -/

variable (W) in
/-- What a job may end with. -/
def JobOk : Job → Outcome τ → Prop
  | .get key, .got r => GetOk W (chunkStr key) key.layer r
  | .getFolded chunk layers, .gotAll r => GetAllOk W chunk layers r
  | _, _ => True

variable (W) in
/-- Jobs are on the chunks in use. -/
def InUse (_ : ThreadState ObjStore (Job × Program.Thread (callSteps W.objSize) (Outcome τ))) :
    ThreadLbl Job Move Empty → Prop
  | .spawn job => job.chunk ∈ W.chunks
  | _ => True

/-- Every job is safe from the invariant on. -/
theorem safe_body {st : ObjStore} (hI : Inv W st) {job : Job} (hS : job.chunk ∈ W.chunks) :
    Safe W (JobOk W job) st (body W job) := by
  cases job with
  | put key => exact (safe_put hS).map hI
  | putFolded chunk layers =>
      apply Program.Valid.map hI
      unfold Io.ofExcept
      cases hws : layers.mapM fun l => prepWrite W.codec (W.content chunk (some l)) with
      | error e => trivial
      | ok ws => exact safe_putFolded hS (mapM_eq_ok.mp hws)
  | get key => exact (safe_getRaw hS key.layer).map hI
  | getFolded chunk layers => exact (safe_getRawFolded hS).map hI
  | remove key => exact (safe_removeOne (rawAddr key)).map hI

/-- In every run, a get of what readers can get at returns nothing or exactly the bytes
and the metadata of its key; position by position for the folded one. -/
theorem get_returns_none_or_content (W : Contents τ)
    {s : ThreadState ObjStore (Job × Program.Thread (callSteps W.objSize) (Outcome τ))}
    (h : (system W).machine.ReachableVia (InUse W) s) :
    (∀ key r, (Job.get key, .done (.got r)) ∈ s.threads → Readable W (chunkStr key) key.layer →
        ∃ mo?, r = .ok mo? ∧ ∀ mo ∈ mo?, mo.Same (W.content (chunkStr key) key.layer)) ∧
      ∀ chunk layers r, (Job.getFolded chunk layers, .done (.gotAll r)) ∈ s.threads →
        (∀ l ∈ layers, Readable W chunk (some l)) →
          ∃ out, r = .ok out ∧ OutOk W chunk layers out := by
  -- the invariant is about the storage alone, so nothing has to be shown of other threads
  have hsafe := Program.threads_safe (Inv W) (fun _ _ => True) (fun _ => Knows W)
    (fun _ => Answers W) (JobOk W) (fun _ _ _ _ _ => trivial) (fun _ _ _ _ _ _ hK => hK)
    ?_ ?_ ?_ h
  · refine ⟨?_, ?_⟩
    · intro key r hmem hread
      have hok : GetOk W (chunkStr key) key.layer r := hsafe.2 _ _ hmem
      match r, hok with
      | .ok none, _ => exact ⟨none, rfl, nofun⟩
      | .ok (some mo), hsame => exact ⟨some mo, rfl, fun _ hmo => Option.some.inj hmo ▸ hsame⟩
      | .error _, hun => exact absurd hread hun
    · intro chunk layers r hmem hread
      have hok : GetAllOk W chunk layers r := hsafe.2 _ _ hmem
      match r, hok with
      | .ok out, hout => exact ⟨out, rfl, hout⟩
      | .error _, ⟨l, hl, hun⟩ => exact absurd (hread l hl) hun
  · intro st hst d a
    rw [hst]
    exact .inl rfl
  · intro t job hI hok
    exact safe_body hI hok
  · intro t i m job o f k st' r hI _ _ hK hst
    obtain ⟨hI', hnext⟩ := step_safe hI hK hst
    refine ⟨hI', trivial, ?_⟩
    cases r <;> exact hnext

/-! ### A run -/

/-- What gets have returned so far. -/
def returned {objSize : τ → ℕ}
    (s : ThreadState ObjStore (Job × Program.Thread (callSteps objSize) (Outcome τ))) :
    List (Key × MemoryObj τ) :=
  s.threads.filterMap fun
    | (.get key, .done (.got (.ok (some mo)))) => some (key, mo)
    | _ => none

theorem mem_of_returned {objSize : τ → ℕ}
    {s : ThreadState ObjStore (Job × Program.Thread (callSteps objSize) (Outcome τ))} {key : Key}
    {mo : MemoryObj τ} (h : (key, mo) ∈ returned s) :
    (Job.get key, .done (.got (.ok (some mo)))) ∈ s.threads := by
  obtain ⟨t, hmem, ht⟩ := List.mem_filterMap.mp h
  split at ht
  · cases ht
    exact hmem
  · cases ht

/-- One chunk with a payload of two bytes. -/
def aChunk : Contents KvLayout where
  codec := kvCodec
  objSize _ := 2
  content _ _ := ⟨0, [7, 9], 1, 2, 2, 1, 1, 1⟩
  chunks := Set.singleton "m@1@0@ff"
  dkey_inj := Set.injOn_singleton _ _
  lossless _ _ := rfl
  size_eq _ _ := rfl

def aKey : Key := ⟨"m@1@0@ff", "m@1@0@ff", none⟩

instance (s : ThreadState ObjStore (Job × Program.Thread (callSteps aChunk.objSize)
    (Outcome KvLayout))) (a : ThreadLbl Job Move Empty) : Decidable (InUse aChunk s a) :=
  match a with
  | .spawn job => decidable_of_iff (job.chunk = "m@1@0@ff") Iff.rfl
  | .act _ _ => isTrue trivial

/-- A get whose reads come after a writer's last write, while that writer is
still inside its second call. -/
def putThenGet : List (ThreadLbl Job Move Empty) := [
  .spawn (.put aKey), .spawn (.get aKey), .act 0 (.akey 0), .act 0 .complete, .act 0 (.akey 0),
  .act 1 (.akey 0), .act 1 .complete, .act 1 (.allocated (some (1, [0, 0]))), .act 1 (.akey 0),
  .act 1 .complete]

/-- A put and then a get that returns its object. -/
theorem committed_object_returned :
    ∃ s, (system aChunk).machine.ReachableVia (InUse aChunk) s ∧
      ∃ mo, (Job.get aKey, .done (.got (.ok (some mo)))) ∈ s.threads ∧
        mo.Same (aChunk.content "m@1@0@ff" none) := by
  have hok : (system aChunk).machine.alongB (InUse aChunk) ⟨fun _ _ => [], []⟩ putThenGet =
      true := by decide +kernel
  have hinit : (system aChunk).machine.Init ⟨fun _ _ => [], []⟩ := ⟨rfl, rfl⟩
  obtain ⟨s, hs, hmem⟩ := Machine.ReachableVia.of_run hinit putThenGet hok
    (fun s => (aKey, ⟨1, [7, 9], 1, 2, 2, 1, 1, 1⟩) ∈ returned s) (by decide +kernel)
  have hthread := mem_of_returned hmem
  have hread : Readable aChunk (chunkStr aKey) aKey.layer :=
    ⟨by decide, fun _ => by decide +kernel⟩
  obtain ⟨mo?, heq, hsame⟩ :=
    (get_returns_none_or_content aChunk hs).1 aKey _ hthread hread
  exact ⟨s, hs, _, hthread, hsame _ (Except.ok.inj heq ▸ rfl)⟩

/-! ### A header that no reader has room for -/

/-- A chunk with 26 KV groups: 528 bytes of metadata. -/
def wideChunk : Contents (List ℕ) where
  codec := fieldCodec
  objSize _ := 2
  content _ _ := ⟨0, [7, 9], List.replicate 131 1⟩
  chunks := Set.singleton "m@1@0@ff"
  dkey_inj := Set.injOn_singleton _ _
  lossless _ _ := by decide +kernel
  size_eq _ _ := rfl

instance (s : ThreadState ObjStore (Job × Program.Thread (callSteps wideChunk.objSize)
    (Outcome (List ℕ)))) (a : ThreadLbl Job Move Empty) : Decidable (InUse wideChunk s a) :=
  match a with
  | .spawn job => decidable_of_iff (job.chunk = "m@1@0@ff") Iff.rfl
  | .act _ _ => isTrue trivial

/-- A put to its end, and a get of the key. -/
def putThenRead : List (ThreadLbl Job Move Empty) := [
  .spawn (.put aKey), .act 0 (.akey 0), .act 0 .complete, .act 0 (.akey 0), .act 0 .complete,
  .spawn (.get aKey), .act 1 (.akey 0)]

/-- The gets that have raised so far. -/
def raised {objSize : τ → ℕ}
    (s : ThreadState ObjStore (Job × Program.Thread (callSteps objSize) (Outcome τ))) :
    List (Key × Err) :=
  s.threads.filterMap fun
    | (.get key, .done (.got (.error e))) => some (key, e)
    | _ => none

theorem mem_of_raised {objSize : τ → ℕ}
    {s : ThreadState ObjStore (Job × Program.Thread (callSteps objSize) (Outcome τ))} {key : Key}
    {e : Err} (h : (key, e) ∈ raised s) : (Job.get key, .done (.got (.error e))) ∈ s.threads := by
  obtain ⟨t, hmem, ht⟩ := List.mem_filterMap.mp h
  split at ht
  · cases ht
    exact hmem
  · cases ht

/-- The put has committed its header, and the get raises `DER_REC2BIG`. -/
theorem committed_object_raises :
    ∃ s, (system wideChunk).machine.ReachableVia (InUse wideChunk) s ∧
      (Job.get aKey, .done (.got (.error (.daos derRec2big)))) ∈ s.threads := by
  have hok : (system wideChunk).machine.alongB (InUse wideChunk) ⟨fun _ _ => [], []⟩ putThenRead =
      true := by decide +kernel
  have hinit : (system wideChunk).machine.Init ⟨fun _ _ => [], []⟩ := ⟨rfl, rfl⟩
  obtain ⟨s, hs, hmem⟩ := Machine.ReachableVia.of_run hinit putThenRead hok
    (fun s => (aKey, Err.daos derRec2big) ∈ raised s) (by decide +kernel)
  exact ⟨s, hs, mem_of_raised hmem⟩

end LmcacheDaos.Connector.RawProtocol
