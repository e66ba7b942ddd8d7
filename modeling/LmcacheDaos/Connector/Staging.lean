import LmcacheDaos.Connector.FileReads

/-!
# What becomes of the staging buffers

A read allocates its buffer before it knows that the payload is good. An
execution is a list of calls with their answers (`Program.Runs`), the answers
being whatever storage and allocator gave; `Accounted` says that every buffer
allocated in it was handed back once or is in the result.

That fails in two places. A buffer that is shorter than the metadata says makes
`from_buffer` raise, on all three paths, before anything would hand it back (and
with it, on the folded path, the buffers staged before it). And on DFS an error
of the payload read passes through a `finally` that closes the file only.
-/

namespace LmcacheDaos.Connector

open Lib Serde

variable {τ : Type}

/-- The calls of an execution with their answers. -/
abbrev Calls (τ : Type) := List (Event (Op τ) Ans)

/-! ## The ledger of an execution -/

def bufferIds (mos : List (Option (MemoryObj τ))) : List ℕ :=
  mos.filterMap (Option.map MemoryObj.id)

/-- What the allocator answered, in order. -/
def granted (t : Calls τ) : List (Option (MemoryObj τ)) :=
  t.flatMap fun
    | ⟨.allocate _, ans⟩ => [ans]
    | _ => []

def handedBack (t : Calls τ) : List ℕ :=
  t.flatMap fun
    | ⟨.release mo, _⟩ => [mo.id]
    | _ => []

/-- The buffers in a result. -/
def kept : Except Err (List (Option (MemoryObj τ))) → List ℕ
  | .error _ => []
  | .ok out => bufferIds out

/-- Every buffer that was allocated is handed back or returned, and only once. -/
def Accounted (t : Calls τ) (r : Except Err (List (Option (MemoryObj τ)))) : Prop :=
  (bufferIds (granted t)).Perm (handedBack t ++ kept r)

instance (t : Calls τ) (r : Except Err (List (Option (MemoryObj τ)))) : Decidable (Accounted t r) :=
  inferInstanceAs (Decidable (List.Perm _ _))

/-! ## What was read before the buffers were allocated -/

/-- The metadata akeys as they were fetched. -/
def fetchedMeta (t : Calls τ) : List Bytes :=
  t.flatMap fun
    | ⟨.fetch _ _ true, .ok got⟩ => got
    | _ => []

/-- What was read of a file ahead of its payload. -/
def fileReads (t : Calls τ) : List Bytes :=
  t.flatMap fun
    | ⟨.readObj .., .ok bs⟩ => [bs]
    | _ => []

/-- The header in what was read of a file: one read, or a second one for the
metadata. -/
def headerRead (C : Codec τ) : List Bytes → Option (FileHeader τ)
  | [] => none
  | hdr :: rest => match parsePrefix (hdr.take prefixSize) with
    | .error _ => none
    | .ok (metaLen, payloadLen) => headerFrom C metaLen payloadLen <|
        if metaLen ≤ hdr.length - prefixSize then SparseFile.readAt hdr prefixSize metaLen
        else rest.headD []

/-- The reads with a staging buffer. -/
inductive Read where
  /-- `_get_sync` on DFS -/
  | dfs (path : String)
  /-- `_get_raw` -/
  | raw (a : RawAddr)
  /-- `_get_raw_folded` -/
  | folded (dkey : Dkey) (layers : List ℕ)

/-- One result as a list of one. -/
def single (p : Io τ (Option (MemoryObj τ))) : Io τ (List (Option (MemoryObj τ))) :=
  p.map fun r => r.map fun mo => [mo]

def Read.body (C : Codec τ) : Read → Io τ (List (Option (MemoryObj τ)))
  | .dfs path => single (getSync C (.path path))
  | .raw a => single (getSync C (.raw a))
  | .folded dkey layers => getRawFolded C dkey layers

/-- The metadata for which buffers were requested, in order. -/
def Read.accepted (C : Codec τ) (t : Calls τ) : Read → List (RemoteMetadata τ)
  | .dfs _ => ((headerRead C (fileReads t)).map FileHeader.metadata).toList
  | .raw _ | .folded .. => (fetchedMeta t).filterMap (parseAkey C)

/-! ## The condition -/

/-- Every buffer is at least as long as the metadata it was requested for says. -/
def RoomFor (ms : List (RemoteMetadata τ)) (answers : List (Option (MemoryObj τ))) : Prop :=
  ∀ p ∈ ms.zip answers, ∀ mo ∈ p.2, p.1.length ≤ mo.byteArray.length

instance (ms : List (RemoteMetadata τ)) (answers : List (Option (MemoryObj τ))) :
    Decidable (RoomFor ms answers) :=
  inferInstanceAs (Decidable (∀ p ∈ ms.zip answers, ∀ mo ∈ p.2, _))

/-- What the payload read of a file raised. -/
def payloadErrors (t : Calls τ) : List DaosError :=
  t.flatMap fun
    | ⟨.readObjInto .., .error e⟩ => [e]
    | _ => []

/-- A fetch answers one value per item. -/
def onePerItem : Event (Op τ) Ans → Bool
  | ⟨.fetch _ items _, .ok got⟩ => got.length == items.length
  | _ => true

section RoomFor

variable {m : RemoteMetadata τ} {ms : List (RemoteMetadata τ)} {mo : MemoryObj τ}
variable {answers : List (Option (MemoryObj τ))}

/-- Nothing to place. -/
theorem roomFor_nil : RoomFor ms [] := by simp [RoomFor]

/-- A refused buffer needs no room. -/
theorem roomFor_cons_none : RoomFor (m :: ms) (none :: answers) ↔ RoomFor ms answers := by
  simp [RoomFor]

/-- A granted buffer has to be as long as its metadata says. -/
theorem roomFor_cons_some :
    RoomFor (m :: ms) (some mo :: answers) ↔
      m.length ≤ mo.byteArray.length ∧ RoomFor ms answers := by
  simp [RoomFor]

end RoomFor

section Ledger

variable (t t' : Calls τ)

@[simp] theorem granted_append : granted (t ++ t') = granted t ++ granted t' :=
  List.flatMap_append

@[simp] theorem handedBack_append : handedBack (t ++ t') = handedBack t ++ handedBack t' :=
  List.flatMap_append

@[simp] theorem fetchedMeta_append : fetchedMeta (t ++ t') = fetchedMeta t ++ fetchedMeta t' :=
  List.flatMap_append

@[simp] theorem payloadErrors_append :
    payloadErrors (t ++ t') = payloadErrors t ++ payloadErrors t' :=
  List.flatMap_append

/-- What a metadata fetch returned counts. -/
theorem fetchedMeta_meta (dkey : Dkey) (items : List (Akey × ℕ)) (got : List Bytes) :
    fetchedMeta (⟨.fetch dkey items true, .ok got⟩ :: t) = got ++ fetchedMeta t := rfl

end Ledger

/-- A single read is a batch of one. -/
theorem runs_single {p : Io τ (Option (MemoryObj τ))} {t : Calls τ}
    {r : Except Err (List (Option (MemoryObj τ)))} :
    (single p).Runs t r ↔ ∃ r', p.Runs t r' ∧ r = r'.map fun mo => [mo] := by
  rw [single, Program.map, Program.runs_bind]
  simp only [Program.runs_ret]
  constructor
  · rintro ⟨t₁, t₂, r', rfl, hr, rfl, rfl⟩
    exact ⟨r', by rwa [List.append_nil], rfl⟩
  · rintro ⟨r', hr, rfl⟩
    exact ⟨t, [], r', (List.append_nil t).symm, hr, rfl, rfl⟩

/-! ## A file -/

/-- What a read that stages one buffer for `ms` satisfies. -/
def Balances (ms : List (RemoteMetadata τ)) (t : Calls τ)
    (r : Except Err (List (Option (MemoryObj τ)))) : Prop :=
  Accounted t r ↔ RoomFor ms (granted t) ∧ payloadErrors t = []

section Balances

variable {ms : List (RemoteMetadata τ)} {t : Calls τ} {r : Except Err (List (Option (MemoryObj τ)))}

/-- No buffer was allocated. -/
theorem balances_of_none (hg : bufferIds (granted t) = []) (hb : handedBack t ++ kept r = [])
    (hroom : RoomFor ms (granted t)) (he : payloadErrors t = []) : Balances ms t r := by
  refine iff_of_true ?_ ⟨hroom, he⟩
  rw [Accounted, hg, hb]

/-- One buffer was, and is in one place. -/
theorem balances_of_one {mo : MemoryObj τ} (hg : granted t = [some mo])
    (hb : handedBack t ++ kept r = [mo.id]) (hroom : RoomFor ms [some mo])
    (he : payloadErrors t = []) : Balances ms t r := by
  refine iff_of_true ?_ ⟨hg ▸ hroom, he⟩
  rw [Accounted, hg, hb]
  exact .refl _

/-- Buffers were, and are nowhere. -/
theorem balances_of_lost (hg : bufferIds (granted t) ≠ []) (hb : handedBack t ++ kept r = [])
    (hno : ¬ (RoomFor ms (granted t) ∧ payloadErrors t = [])) : Balances ms t r := by
  refine iff_of_false ?_ hno
  rw [Accounted, hb]
  exact fun h => hg h.eq_nil

end Balances

/-- Reads ahead of the payload and the close do not count. -/
theorem Balances.congr {ms : List (RemoteMetadata τ)} {t t' : Calls τ}
    {r : Except Err (List (Option (MemoryObj τ)))} (hg : granted t' = granted t)
    (hb : handedBack t' = handedBack t) (he : payloadErrors t' = payloadErrors t)
    (h : Balances ms t r) : Balances ms t' r := by
  rwa [Balances, Accounted, hg, hb, he]

/-- A buffer is asked for and tested, whatever `rest` does with it. -/
theorem allocate_balances {m : RemoteMetadata τ} {ms : List (RemoteMetadata τ)}
    {k : Option (MemoryObj τ) → Io τ (Option (MemoryObj τ))} {e : MemoryObj τ → Err}
    {rest : MemoryObj τ → Io τ (Option (MemoryObj τ))} (hnone : k none = .ret (.ok none))
    (hsome : ∀ mo, k (some mo) =
      if mo.byteArray.length < m.length then .ret (.error (e mo)) else rest mo)
    (hrest : ∀ {mo t r}, RoomFor (m :: ms) [some mo] → (rest mo).Runs t r →
      Balances (m :: ms) (⟨.allocate m.layout, some mo⟩ :: t) (r.map fun mo => [mo]))
    {t : Calls τ} {r : Except Err (Option (MemoryObj τ))}
    (hr : (Program.call (.allocate m.layout) k).Runs t r) :
    Balances (m :: ms) t (r.map fun mo => [mo]) := by
  rcases Program.runs_call.mp hr with ⟨ans, t₁, rfl, hr₁⟩
  rcases ans with - | mo
  · rw [hnone] at hr₁
    rcases Program.runs_ret.mp hr₁ with ⟨rfl, rfl⟩
    exact balances_of_none rfl rfl (roomFor_cons_none.mpr roomFor_nil) rfl
  · rw [hsome] at hr₁
    split at hr₁
    · -- `from_buffer` raises
      rename_i hshort
      rcases Program.runs_ret.mp hr₁ with ⟨rfl, rfl⟩
      refine balances_of_lost (List.cons_ne_nil _ _) rfl ?_
      intro hno
      have hlong := (roomFor_cons_some.mp hno.1).1
      omega
    · rename_i hlong
      exact hrest (roomFor_cons_some.mpr ⟨by omega, roomFor_nil⟩) hr₁

/-- A release is one call. -/
theorem runs_release {mo : MemoryObj τ} {x r : Except Err (Option (MemoryObj τ))} {t : Calls τ} :
    (Program.call (.release mo) fun _ => .ret x : Io τ (Option (MemoryObj τ))).Runs t r ↔
      (∃ ans, t = [⟨.release mo, ans⟩]) ∧ r = x := by
  rw [Program.runs_call]
  constructor
  · rintro ⟨ans, t₁, rfl, hret⟩
    rcases Program.runs_ret.mp hret with ⟨rfl, rfl⟩
    exact ⟨⟨ans, rfl⟩, rfl⟩
  · rintro ⟨⟨ans, rfl⟩, rfl⟩
    exact ⟨ans, [], rfl, Program.runs_ret.mpr ⟨rfl, rfl⟩⟩

/-- The read behind the header accounts for its buffer. -/
theorem readBody_balances {h : Handle} {fh : FileHeader τ} {t : Calls τ}
    {r : Except Err (Option (MemoryObj τ))} (hr : (readBody h fh).Runs t r) :
    Balances [fh.metadata] t (r.map fun mo => [mo]) := by
  refine allocate_balances rfl (fun _ => rfl) ?_ hr
  intro mo t₁ r hroom hr₁
  rcases Program.runs_call.mp hr₁ with ⟨ans, t₂, rfl, hr₂⟩
  rcases ans with err | got
  · -- the payload read raises
    rcases Program.runs_ret.mp hr₂ with ⟨rfl, rfl⟩
    refine balances_of_lost (List.cons_ne_nil _ _) rfl ?_
    intro hno
    cases hno.2
  · simp only at hr₂
    split at hr₂
    · rcases runs_release.mp hr₂ with ⟨⟨ans, rfl⟩, rfl⟩
      exact balances_of_one rfl rfl hroom rfl
    · rcases Program.runs_ret.mp hr₂ with ⟨rfl, rfl⟩
      exact balances_of_one rfl rfl hroom rfl

/-- So does the read behind the first one, for the header found there. -/
theorem afterHeader_balances {h : Handle} {fh : Option (FileHeader τ)} {t : Calls τ}
    {r : Except Err (Option (MemoryObj τ))} (hr : (afterHeader h fh).Runs t r) :
    Balances (fh.map FileHeader.metadata).toList t (r.map fun mo => [mo]) := by
  cases fh with
  | none =>
      rcases Program.runs_ret.mp hr with ⟨rfl, rfl⟩
      exact balances_of_none rfl rfl roomFor_nil rfl
  | some fh => exact readBody_balances hr

/-- And so do a second read for a long header and what follows. -/
theorem afterFirstRead_balances {h : Handle} {hdr : Bytes} {t : Calls τ} {C : Codec τ}
    {r : Except Err (Option (MemoryObj τ))} (hr : (afterFirstRead C h hdr).Runs t r) :
    Balances ((headerRead C (hdr :: fileReads t)).map FileHeader.metadata).toList t
      (r.map fun mo => [mo]) := by
  rw [afterFirstRead] at hr
  split at hr
  · -- too short for a prefix: a miss, and nothing was allocated
    rcases Program.runs_ret.mp hr with ⟨rfl, rfl⟩
    exact balances_of_none rfl rfl roomFor_nil rfl
  · cases hpre : parsePrefix (hdr.take prefixSize) with
    -- the prefix does not parse: raised before `allocate`
    | error e =>
        rw [hpre] at hr
        rcases Program.runs_ret.mp hr with ⟨rfl, rfl⟩
        exact balances_of_none rfl rfl roomFor_nil rfl
    | ok lens =>
        rcases lens with ⟨metaLen, payloadLen⟩
        rw [hpre] at hr
        simp only [Io.ofExcept, readPayload_eq] at hr
        simp only [headerRead, hpre]
        split at hr
        · -- the metadata lies in what was read
          rename_i hfits
          rw [if_pos hfits]
          exact afterHeader_balances hr
        · -- the metadata needs a second read
          rename_i hmore
          rw [if_neg hmore]
          rcases Program.runs_call.mp hr with ⟨ans, t₁, rfl, hr₁⟩
          rcases ans with e | metaBytes
          · rcases Program.runs_ret.mp hr₁ with ⟨rfl, rfl⟩
            exact balances_of_none rfl rfl roomFor_nil rfl
          · exact (afterHeader_balances hr₁).congr rfl rfl rfl

/-- A read on an open file accounts for its buffer. -/
theorem readOpen_balances {C : Codec τ} {h : Handle} {t : Calls τ}
    {r : Except Err (Option (MemoryObj τ))} (hr : (readOpen C h).Runs t r) :
    Balances ((headerRead C (fileReads t)).map FileHeader.metadata).toList t
      (r.map fun mo => [mo]) := by
  rcases Program.runs_call.mp hr with ⟨ans, t₁, rfl, hr₁⟩
  rcases ans with e | hdr
  · rcases Program.runs_ret.mp hr₁ with ⟨rfl, rfl⟩
    exact balances_of_none rfl rfl roomFor_nil rfl
  · exact (afterFirstRead_balances hr₁).congr rfl rfl rfl

/-- A call before and a call after that leave no entry. -/
theorem flatMap_between {ι β : Type*} {g : ι → List β} {a b : ι} (ha : g a = []) (hb : g b = [])
    (l : List ι) : (a :: (l ++ [b])).flatMap g = l.flatMap g := by
  simp [ha, hb]

/-- A DFS read accounts for its buffer, whatever fails. -/
theorem dfs_balances {C : Codec τ} {path : String} {t : Calls τ}
    {r : Except Err (Option (MemoryObj τ))} (hr : (getDfs C path).Runs t r) :
    Balances ((headerRead C (fileReads t)).map FileHeader.metadata).toList t
      (r.map fun mo => [mo]) := by
  rcases Program.runs_call.mp hr with ⟨ans, t₁, rfl, hr₁⟩
  rcases ans with e | h
  · simp only at hr₁
    split at hr₁
    all_goals
      rcases Program.runs_ret.mp hr₁ with ⟨rfl, rfl⟩
      exact balances_of_none rfl rfl roomFor_nil rfl
  · rcases Program.runs_bind.mp hr₁ with ⟨t₂, t₃, r', rfl, hopen, hclose⟩
    rcases Program.runs_call.mp hclose with ⟨ans, t₄, rfl, hret⟩
    rcases Program.runs_ret.mp hret with ⟨rfl, rfl⟩
    have hreads : fileReads (⟨.openRdonly path, .ok h⟩ :: (t₂ ++ [⟨.closeObj h, ans⟩])) =
        fileReads t₂ := flatMap_between rfl rfl t₂
    rw [hreads]
    exact (readOpen_balances hopen).congr (flatMap_between rfl rfl t₂)
      (flatMap_between rfl rfl t₂) (flatMap_between rfl rfl t₂)

/-! ## Akeys -/

/-- So does a read of the object backend. -/
theorem raw_balances {C : Codec τ} {a : RawAddr} {t : Calls τ}
    {r : Except Err (Option (MemoryObj τ))} (hr : (getRaw C a).Runs t r) :
    Balances ((fetchedMeta t).filterMap (parseAkey C)) t (r.map fun mo => [mo]) := by
  rw [getRaw] at hr
  cases hak : akeysFor a.layer with
  -- no akeys: nothing was fetched
  | error e =>
      rw [hak] at hr
      rcases Program.runs_ret.mp hr with ⟨rfl, rfl⟩
      exact balances_of_none rfl rfl roomFor_nil rfl
  | ok aks =>
      rw [hak] at hr
      rcases Program.runs_call.mp hr with ⟨ans, t₁, rfl, hr₁⟩
      rcases ans with e | got
      · -- the fetch of the metadata raised
        rcases Program.runs_ret.mp hr₁ with ⟨rfl, rfl⟩
        exact balances_of_none rfl rfl roomFor_nil rfl
      · simp only at hr₁
        cases hm : parseAkey C (got.headD []) with
        -- it does not parse: a miss
        | none =>
            rw [hm] at hr₁
            rcases Program.runs_ret.mp hr₁ with ⟨rfl, rfl⟩
            exact balances_of_none rfl rfl roomFor_nil rfl
        | some m =>
            rcases got with - | ⟨buf, got⟩
            · cases hm
            · have hms : ∃ ms, (fetchedMeta (⟨.fetch a.dkey [(aks.2, metaCap)] true,
                  .ok (buf :: got)⟩ :: t₁)).filterMap (parseAkey C) = m :: ms :=
                ⟨_, List.filterMap_cons_some hm⟩
              rcases hms with ⟨ms, hms⟩
              rw [hms]
              rw [hm] at hr₁
              refine Balances.congr (t := t₁) rfl rfl rfl ?_
              -- one buffer was asked for, and it is in the answer or released
              refine allocate_balances rfl (fun _ => rfl) ?_ hr₁
              intro mo t₂ r hroom hr₂
              rcases Program.runs_call.mp hr₂ with ⟨ans, t₃, rfl, hr₃⟩
              rcases ans with err | readn
              · -- the payload's fetch raises: released
                rcases runs_release.mp hr₃ with ⟨⟨ans, rfl⟩, rfl⟩
                exact balances_of_one rfl rfl hroom rfl
              · simp only at hr₃
                split at hr₃
                · -- it is short: released
                  rcases runs_release.mp hr₃ with ⟨⟨ans, rfl⟩, rfl⟩
                  exact balances_of_one rfl rfl hroom rfl
                · -- it is whole: the object is the answer
                  rcases Program.runs_ret.mp hr₃ with ⟨rfl, rfl⟩
                  exact balances_of_one rfl rfl hroom rfl

/-! ## The layers of a chunk -/

/-- How the first loop of `_get_raw_folded` ends: it raises with buffers in
hand, one of them too short, or every buffer it got is staged. -/
def StageEnds (ms : List (RemoteMetadata τ)) (positions : List ℕ) (t : Calls τ) :
    Except Err (List (Staged τ)) → Prop
  | .error _ => bufferIds (granted t) ≠ [] ∧ ¬ RoomFor ms (granted t)
  | .ok staged => RoomFor ms (granted t) ∧
      bufferIds (granted t) = staged.map (fun st => st.obj.id) ∧
      (staged.map Staged.pos).Sublist positions

/-- Nothing but allocations. -/
structure OnlyAllocates (t : Calls τ) : Prop where
  handedBack : handedBack t = []
  fetchedMeta : fetchedMeta t = []
  payloadErrors : payloadErrors t = []

/-- Nothing but buffers handed back, if that. -/
structure OnlyReleases (t : Calls τ) : Prop where
  granted : granted t = []
  fetchedMeta : fetchedMeta t = []
  payloadErrors : payloadErrors t = []

/-- One more release. -/
theorem OnlyReleases.cons {t : Calls τ} (h : OnlyReleases t) (mo : MemoryObj τ)
    (ans : Ans (.release mo)) : OnlyReleases (⟨.release mo, ans⟩ :: t) :=
  ⟨h.granted, h.fetchedMeta, h.payloadErrors⟩

/-- One more allocation. -/
theorem OnlyAllocates.cons {t : Calls τ} (h : OnlyAllocates t) (layout : τ)
    (ans : Option (MemoryObj τ)) : OnlyAllocates (⟨.allocate layout, ans⟩ :: t) :=
  ⟨h.handedBack, h.fetchedMeta, h.payloadErrors⟩

/-- Staging allocates one buffer for each header it accepts, until one is refused. -/
theorem stage_runs {C : Codec τ} {entries : List (ℕ × ℕ × Bytes)}
    (hlayers : ∀ e ∈ entries, LayerOk (some e.2.1)) {t : Calls τ}
    {r : Except Err (List (Staged τ))} (hr : (stage C entries).Runs t r) :
    OnlyAllocates t ∧
      StageEnds ((entries.map fun e => e.2.2).filterMap (parseAkey C)) (entries.map Prod.fst) t
        r := by
  induction entries generalizing t r with
  | nil =>
      rcases Program.runs_ret.mp hr with ⟨rfl, rfl⟩
      exact ⟨⟨rfl, rfl, rfl⟩, roomFor_nil, rfl, List.nil_sublist _⟩
  | cons e entries ih =>
      rcases e with ⟨i, layer, buf⟩
      have hrest : ∀ {t r}, (stage C entries).Runs t r → _ :=
        ih fun e he => hlayers e (List.mem_cons_of_mem _ he)
      rw [stage] at hr
      cases hm : parseAkey C buf with
      | none =>
          -- a miss of this layer: nothing is staged for it
          rw [hm] at hr
          rw [List.map_cons, List.filterMap_cons_none hm]
          rcases hrest hr with ⟨honly, hends⟩
          refine ⟨honly, ?_⟩
          cases r with
          | error e => exact hends
          | ok staged => exact ⟨hends.1, hends.2.1, hends.2.2.cons _⟩
      | some m =>
          rw [hm] at hr
          rw [List.map_cons, List.filterMap_cons_some hm]
          rcases Program.runs_call.mp hr with ⟨ans, t₁, rfl, hr₁⟩
          rcases ans with - | mo
          · -- no buffer: the loop goes on with the next layer
            rcases hrest hr₁ with ⟨honly, hends⟩
            refine ⟨honly.cons _ _, ?_⟩
            cases r with
            | error e => exact ⟨hends.1, fun h => hends.2 (roomFor_cons_none.mp h)⟩
            | ok staged =>
                exact ⟨roomFor_cons_none.mpr hends.1, hends.2.1, hends.2.2.cons _⟩
          · simp only at hr₁
            split at hr₁
            · -- `from_buffer` raises, out of the loop
              rename_i hshort
              rcases Program.runs_ret.mp hr₁ with ⟨rfl, rfl⟩
              refine ⟨⟨rfl, rfl, rfl⟩, List.cons_ne_nil _ _, ?_⟩
              intro hroom
              have := (roomFor_cons_some.mp hroom).1
              omega
            · rename_i hlong
              have hpak : akeyLayer layer = .ok (payloadAkey (some layer)) :=
                akeyOfLayer_eq_ok.mpr ⟨hlayers _ List.mem_cons_self layer rfl, rfl⟩
              rw [hpak] at hr₁
              rcases Program.runs_bind.mp hr₁ with ⟨t₂, t₃, r', rfl, hstage, hend⟩
              rcases hrest hstage with ⟨honly, hends⟩
              cases r' with
              | error e =>
                  -- a later layer raises: this buffer is lost with it
                  rcases Program.runs_ret.mp hend with ⟨rfl, rfl⟩
                  rw [List.append_nil]
                  refine ⟨honly.cons _ _, List.cons_ne_nil _ _, ?_⟩
                  exact fun h => hends.2 (roomFor_cons_some.mp h).2
              | ok staged =>
                  rcases Program.runs_ret.mp hend with ⟨rfl, rfl⟩
                  rw [List.append_nil]
                  refine ⟨honly.cons _ _, roomFor_cons_some.mpr ⟨by omega, hends.1⟩, ?_, ?_⟩
                  · exact congrArg (mo.id :: ·) hends.2.1
                  · exact hends.2.2.cons_cons _

/-- A batch of misses has no buffers. -/
theorem bufferIds_map_none {ι : Type*} (l : List ι) :
    bufferIds (l.map fun _ => (none : Option (MemoryObj τ))) = [] := by
  simp [bufferIds]

/-- Filling a hole adds one buffer. -/
theorem bufferIds_set {out : List (Option (MemoryObj τ))} {i : ℕ} (h : out[i]? = some none)
    (mo : MemoryObj τ) : (mo.id :: bufferIds out).Perm (bufferIds (out.set i (some mo))) := by
  induction out generalizing i with
  | nil => cases h
  | cons o out ih =>
      cases i with
      | zero =>
          cases h
          exact .refl _
      | succ i =>
          have hrest := ih h
          cases o with
          | none => exact hrest
          | some mo' => exact (List.Perm.swap _ _ _).trans (hrest.cons _)

/-- Collecting keeps a staged buffer, in its place, or gives it back. -/
theorem collect_runs {pairs : List (Staged τ × Bytes)} {out : List (Option (MemoryObj τ))}
    (hnodup : (pairs.map fun p => p.1.pos).Nodup) (hhole : ∀ p ∈ pairs, out[p.1.pos]? = some none)
    {t : Calls τ} {r : Except Err (List (Option (MemoryObj τ)))}
    (hr : (collect pairs out).Runs t r) :
    OnlyReleases t ∧
      (bufferIds out ++ pairs.map fun p => p.1.obj.id).Perm (handedBack t ++ kept r) := by
  induction pairs generalizing out t with
  | nil =>
      rcases Program.runs_ret.mp hr with ⟨rfl, rfl⟩
      refine ⟨⟨rfl, rfl, rfl⟩, ?_⟩
      rw [List.map_nil, List.append_nil]
      exact .refl _
  | cons p pairs ih =>
      rcases p with ⟨st, got⟩
      rw [List.map_cons, List.nodup_cons] at hnodup
      have hhole' : ∀ p ∈ pairs, out[p.1.pos]? = some none := fun p hp =>
        hhole p (List.mem_cons_of_mem _ hp)
      rw [collect] at hr
      split at hr
      · -- a short payload is handed back
        rcases Program.runs_call.mp hr with ⟨ans, t₁, rfl, hr₁⟩
        rcases ih hnodup.2 hhole' hr₁ with ⟨honly, hperm⟩
        exact ⟨honly.cons _ _, List.perm_middle.trans (hperm.cons _)⟩
      · -- a whole one fills the hole at its position, and no other
        have hset : ∀ p ∈ pairs,
            (out.set st.pos (some (st.obj.fill got)))[p.1.pos]? = some none := by
          intro p hp
          have hne : st.pos ≠ p.1.pos := by
            intro heq
            exact hnodup.1 (heq ▸ List.mem_map_of_mem hp)
          rw [List.getElem?_set_ne hne]
          exact hhole' p hp
        rcases ih hnodup.2 hset hr with ⟨honly, hperm⟩
        refine ⟨honly, List.perm_middle.trans (List.Perm.trans ?_ hperm)⟩
        exact (bufferIds_set (hhole _ List.mem_cons_self) (st.obj.fill got)).append_right _

/-- Releasing staged buffers gives each back once. -/
theorem releaseAll_runs {mos : List (MemoryObj τ)} {r₀ : Except Err (List (Option (MemoryObj τ)))}
    {t : Calls τ} {r : Except Err (List (Option (MemoryObj τ)))}
    (hr : (releaseAll mos (.ret r₀)).Runs t r) :
    OnlyReleases t ∧ handedBack t = mos.map MemoryObj.id ∧ r = r₀ := by
  induction mos generalizing t with
  | nil =>
      rcases Program.runs_ret.mp hr with ⟨rfl, rfl⟩
      exact ⟨⟨rfl, rfl, rfl⟩, rfl, rfl⟩
  | cons mo mos ih =>
      rcases Program.runs_call.mp hr with ⟨ans, t₁, rfl, hr₁⟩
      rcases ih hr₁ with ⟨honly, hb, hret⟩
      exact ⟨honly.cons _ _, congrArg (mo.id :: ·) hb, hret⟩

/-- The payload fetch allocates nothing. -/
theorem OnlyReleases.afterFetch {t : Calls τ} (h : OnlyReleases t) (dkey : Dkey)
    (items : List (Akey × ℕ)) (ans : Except DaosError (List Bytes)) :
    OnlyReleases (⟨.fetch dkey items false, ans⟩ :: t) := by
  cases ans <;> exact ⟨h.granted, h.fetchedMeta, h.payloadErrors⟩

/-- `_get_raw_folded` from the payload fetch on: each staged buffer is handed
back or takes its place in the result. -/
theorem payloads_settled {dkey : Dkey} {layers : List ℕ} {staged : List (Staged τ)}
    (hsub : (staged.map Staged.pos).Sublist (List.range layers.length))
    {k : Except DaosError (List Bytes) → Io τ (List (Option (MemoryObj τ)))}
    (herr : ∀ e, k (.error e) = releaseAll (staged.map Staged.obj) (.ret (.error (.daos e))))
    (hok : ∀ readn, k (.ok readn) = collect (staged.zip readn) (layers.map fun _ => none))
    {t : Calls τ} {r : Except Err (List (Option (MemoryObj τ)))}
    (hr : (Program.call (.fetch dkey (staged.map fun st => (st.pak, st.n)) false) k).Runs t r)
    (hshape : ∀ e ∈ t, onePerItem e) :
    OnlyReleases t ∧ (staged.map fun st => st.obj.id).Perm (handedBack t ++ kept r) := by
  rcases Program.runs_call.mp hr with ⟨ans, t₁, rfl, hr₁⟩
  rcases ans with e | readn
  · -- the fetch fails: all of them go back
    rw [herr] at hr₁
    rcases releaseAll_runs hr₁ with ⟨hrel, hback, rfl⟩
    refine ⟨hrel.afterFetch _ _ _, ?_⟩
    show List.Perm _ (handedBack t₁ ++ [])
    rw [hback, List.append_nil, List.map_map]
    exact .refl _
  · rw [hok] at hr₁
    have hreadn : readn.length = staged.length := by
      have := hshape _ List.mem_cons_self
      simpa [onePerItem] using this
    have hfst : (staged.zip readn).map Prod.fst = staged := List.map_fst_zip (by omega)
    have hmap : ∀ {β : Type} (g : Staged τ → β),
        ((staged.zip readn).map fun p => g p.1) = staged.map g := by
      intro β g
      conv => rhs; rw [← hfst, List.map_map]
      rfl
    have hnodup : ((staged.zip readn).map fun p => p.1.pos).Nodup := by
      rw [hmap Staged.pos]
      exact List.nodup_range.sublist hsub
    have hhole : ∀ p ∈ staged.zip readn,
        (layers.map fun _ => (none : Option (MemoryObj τ)))[p.1.pos]? = some none := by
      intro p hp
      have hlt := List.mem_range.mp (hsub.subset (List.mem_map_of_mem (List.of_mem_zip hp).1))
      rw [List.getElem?_map, List.getElem?_eq_getElem hlt]
      rfl
    rcases collect_runs hnodup hhole hr₁ with ⟨hrel, hperm⟩
    refine ⟨hrel.afterFetch _ _ _, ?_⟩
    rw [bufferIds_map_none, List.nil_append, hmap fun st => st.obj.id] at hperm
    exact hperm

/-- Metadata, allocations, then what becomes of the buffers. -/
theorem balances_folded_iff {dkey : Dkey} {items : List (Akey × ℕ)} {got : List Bytes}
    {t₁ t₂ : Calls τ} {C : Codec τ} {r : Except Err (List (Option (MemoryObj τ)))}
    (h₁ : OnlyAllocates t₁) (h₂ : OnlyReleases t₂) :
    let t := ⟨.fetch dkey items true, .ok got⟩ :: (t₁ ++ t₂)
    Balances ((fetchedMeta t).filterMap (parseAkey C)) t r ↔
      ((bufferIds (granted t₁)).Perm (handedBack t₂ ++ kept r) ↔
        RoomFor (got.filterMap (parseAkey C)) (granted t₁)) := by
  have hg : granted (⟨.fetch dkey items true, .ok got⟩ :: (t₁ ++ t₂)) = granted t₁ := by
    show granted (t₁ ++ t₂) = _
    rw [granted_append, h₂.granted, List.append_nil]
  have hb : handedBack (⟨.fetch dkey items true, .ok got⟩ :: (t₁ ++ t₂)) = handedBack t₂ := by
    show handedBack (t₁ ++ t₂) = _
    rw [handedBack_append, h₁.handedBack, List.nil_append]
  have hf : fetchedMeta (⟨.fetch dkey items true, .ok got⟩ :: (t₁ ++ t₂)) = got := by
    rw [fetchedMeta_meta, fetchedMeta_append, h₁.fetchedMeta, h₂.fetchedMeta]
    exact List.append_nil _
  have he : payloadErrors (⟨.fetch dkey items true, .ok got⟩ :: (t₁ ++ t₂)) = [] := by
    show payloadErrors (t₁ ++ t₂) = _
    rw [payloadErrors_append, h₁.payloadErrors, h₂.payloadErrors]
    rfl
  simp only [Balances, Accounted, hg, hb, hf, he, and_true]

/-- Positions and values of the entries. -/
theorem map_zip_range (layers : List ℕ) {got : List Bytes} (h : got.length = layers.length) :
    ((List.range layers.length).zip (layers.zip got)).map Prod.fst = List.range layers.length ∧
      ((List.range layers.length).zip (layers.zip got)).map (fun e => e.2.2) = got := by
  have hzip : (layers.zip got).length = layers.length := by rw [List.length_zip]; omega
  constructor
  · rw [List.map_fst_zip]
    rw [List.length_range, hzip]
  · have hsnd : ((List.range layers.length).zip (layers.zip got)).map (fun e => e.2.2) =
        (((List.range layers.length).zip (layers.zip got)).map Prod.snd).map Prod.snd := by
      rw [List.map_map]
      rfl
    rw [hsnd, List.map_snd_zip (by rw [List.length_range, hzip]), List.map_snd_zip (by omega)]

/-- A folded read accounts for the buffers of all its layers. -/
theorem folded_balances {C : Codec τ} {dkey : Dkey} {layers : List ℕ} {t : Calls τ}
    {r : Except Err (List (Option (MemoryObj τ)))} (hr : (getRawFolded C dkey layers).Runs t r)
    (hshape : ∀ e ∈ t, onePerItem e) :
    Balances ((fetchedMeta t).filterMap (parseAkey C)) t r := by
  rw [getRawFolded] at hr
  cases hmaks : layers.mapM akeyMetaLayer with
  | error e =>
      rw [hmaks] at hr
      rcases Program.runs_ret.mp hr with ⟨rfl, rfl⟩
      exact balances_of_none rfl rfl roomFor_nil rfl
  | ok maks =>
      rcases mapM_akeyMetaLayer_eq_ok.mp hmaks with ⟨hlayers, rfl⟩
      rw [hmaks] at hr
      rcases Program.runs_call.mp hr with ⟨ans, t₁, rfl, hr₁⟩
      rcases ans with e | got
      · rcases Program.runs_ret.mp hr₁ with ⟨rfl, rfl⟩
        exact balances_of_none rfl rfl roomFor_nil rfl
      · have hgot : got.length = layers.length := by
          have := hshape _ List.mem_cons_self
          simpa [onePerItem] using this
        rcases Program.runs_bind.mp hr₁ with ⟨t₂, t₃, r', rfl, hstage, hend⟩
        have hin : ∀ e ∈ (List.range layers.length).zip (layers.zip got), LayerOk (some e.2.1) := by
          intro e he
          exact hlayers _ (List.of_mem_zip (List.of_mem_zip he).2).1
        rcases stage_runs hin hstage with ⟨honly, hends⟩
        rw [(map_zip_range layers hgot).1, (map_zip_range layers hgot).2] at hends
        cases r' with
        | error e =>
            -- the first loop raised with buffers in hand
            rcases Program.runs_ret.mp hend with ⟨rfl, rfl⟩
            apply (balances_folded_iff honly ⟨rfl, rfl, rfl⟩).mpr
            exact iff_of_false (fun h => hends.1 h.eq_nil) hends.2
        | ok staged =>
            rcases hends with ⟨hroom, hids, hsub⟩
            simp only at hend
            split at hend
            · -- no layer is there: the payload fetch is not made
              rename_i hempty
              rcases Program.runs_ret.mp hend with ⟨rfl, rfl⟩
              rw [List.isEmpty_iff.mp hempty] at hids
              apply (balances_folded_iff honly ⟨rfl, rfl, rfl⟩).mpr
              refine iff_of_true ?_ hroom
              rw [hids, kept, bufferIds_map_none]
              exact .refl _
            · rcases payloads_settled hsub (fun _ => rfl) (fun _ => rfl) hend
                (fun e he => hshape e (by simp [he])) with ⟨hrel, hperm⟩
              apply (balances_folded_iff honly hrel).mpr
              refine iff_of_true ?_ hroom
              rw [hids]
              exact hperm

/-! ## All reads -/

/-- In every execution of a read, whatever storage and allocator answer, every
buffer is handed back once or returned, if and only if no buffer was shorter
than its metadata said and no payload read of a file raised. -/
theorem buffers_accounted_iff (C : Codec τ) (rd : Read) {t : Calls τ}
    {r : Except Err (List (Option (MemoryObj τ)))} (hr : (rd.body C).Runs t r)
    (hshape : ∀ e ∈ t, onePerItem e) :
    Accounted t r ↔ RoomFor (rd.accepted C t) (granted t) ∧ payloadErrors t = [] := by
  cases rd with
  | dfs path =>
      rcases runs_single.mp hr with ⟨r', hr', rfl⟩
      exact dfs_balances hr'
  | raw a =>
      rcases runs_single.mp hr with ⟨r', hr', rfl⟩
      exact raw_balances hr'
  | folded dkey layers => exact folded_balances hr hshape

/-- Fault-free answers, except that payload reads of files fail. -/
def payloadReadsFail (alloc : Allocator τ) (w : World τ) : (o : Op τ) → Ans o × World τ
  | .readObjInto .. => (.error derRec2big, w)
  | o => handler alloc w o

/-- The file of `smallBlob`, read to the end. -/
theorem small_object_accounted :
    let p := (Read.dfs "/o").body fieldCodec
    Accounted (p.trace (handler fourBytes) (worldWith smallBlob))
      (p.run (handler fourBytes) (worldWith smallBlob)).1 := by
  apply (buffers_accounted_iff fieldCodec (.dfs "/o") (Program.runs_trace ..) ?_).mpr
  · decide +kernel
  · decide +kernel

/-- The payload read fails: the buffer is neither handed back nor returned. -/
theorem failed_payload_read_loses_buffer :
    ∃ (t : Calls (List ℕ)) (r : Except Err (List (Option (MemoryObj (List ℕ))))),
      ((Read.dfs "/o").body fieldCodec).Runs t r ∧ (∀ e ∈ t, onePerItem e) ∧ ¬ Accounted t r :=
  ⟨_, _, Program.runs_trace (payloadReadsFail fourBytes) _ (worldWith smallBlob),
    by decide +kernel, by decide +kernel⟩

end LmcacheDaos.Connector
