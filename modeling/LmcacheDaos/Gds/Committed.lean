import LmcacheDaos.Gds.Publish

/-!
# Committed headers

`serde_v2.py` keeps a header at `STATE_WRITING` until the payload is fully written.
`_put_one` packs the page as committed and writes it first, so a file can say that
it is committed before its payload is there: that no reader meets such a file rests
on the move alone.

The machine is any number of `_put_one` calls for any keys under one root, each
with the steps of `Backend`, in any order, each failing or dying anywhere.

Result (`committed_is_complete`): in every run in which temporary names differ and
the beginning of a page becomes visible only when its payload is, a file whose
header page parses as committed has the payload that the header announces.
-/

namespace LmcacheDaos.Gds

open Lib

/-! ## Calls for many keys -/

/-- A backend on a container: what does not depend on the key, and `_path`. -/
structure Root (κ : Type) where
  chunkSize : ℕ
  chunk_pos : 0 < chunkSize
  metaUnpack : Bytes → Option (ℕ × ObjMeta)
  objSize : ObjMeta → ℕ
  path : κ → String
  /-- the root and a hash of 64 digits -/
  length_path : ∀ k l, (path k).toList.length = (path l).toList.length

/-- The backend, seen at one key. -/
def Root.at {κ : Type} (R : Root κ) (k : κ) : Backend :=
  ⟨R.path k, R.chunkSize, R.chunk_pos, R.metaUnpack, R.objSize⟩

/-- A `_put_one` call: its key and its arguments. -/
structure PutCall (κ : Type) where
  key : κ
  put : Put
deriving DecidableEq, Repr

structure RootShared (κ : Type) where
  fs : Dfs
  /-- the processes whose `_known` has the key -/
  known : κ → List ℕ
  /-- calls that opened their temporary file (not kept by the code) -/
  writers : List (PutCall κ)

/-- A call under way. -/
structure Putting (κ : Type) where
  call : PutCall κ
  pc : PutPc

section

variable {κ : Type} [DecidableEq κ]

/-- What a call sees of the shared state. -/
def RootShared.at (s : RootShared κ) (k : κ) : Shared := ⟨s.fs, s.known k, []⟩

def RootShared.put (s : RootShared κ) (k : κ) (t : Shared) : RootShared κ :=
  ⟨t.fs, Function.update s.known k t.known, t.writers.map (PutCall.mk k) ++ s.writers⟩

def rootStep (R : Root κ) (s : RootShared κ) (p : Putting κ) (a : Act) :
    Option (RootShared κ × Putting κ) :=
  (putStep (R.at p.call.key) (s.at p.call.key) p.call.put p.pc a).map fun r =>
    (s.put p.call.key r.1, ⟨p.call, r.2⟩)

def rootEnvStep (s : RootShared κ) : Env → Option (RootShared κ)
  | .reclaim h m => (Dfs.reclaim s.fs h m).map fun fs => { s with fs := fs }

def rootThreads (R : Root κ) : Threads (RootShared κ) (Putting κ) (PutCall κ) Act Env where
  Init s := s = ⟨FileStore.empty, fun _ => [], []⟩
  entry c := ⟨c, .contains .check⟩
  step := rootStep R
  envStep := rootEnvStep

abbrev RootSt (κ : Type) := ThreadState (RootShared κ) (Putting κ)

abbrev RootLbl (κ : Type) := ThreadLbl (PutCall κ) Act Env

def rootMachine (R : Root κ) : Machine (RootSt κ) (RootLbl κ) := (rootThreads R).machine

end

/-! ## The law and the condition -/

variable {κ : Type}

/-- What a header page that parses as committed announces is there: the payload of a
writer, up to the announced length. -/
def Complete (writers : List (PutCall κ)) (f : Bytes) : Prop :=
  ∀ hdr, Serde.parseHeader (SparseFile.readAt f 0 Serde.headerSize) true = .ok hdr →
    ∃ c ∈ writers, hdr.payloadLen ≤ c.put.payload.length ∧
      SparseFile.readAt f Serde.payloadOffset hdr.payloadLen = c.put.payload.take hdr.payloadLen

/-- Every file that has a name is complete if it says that it is committed. -/
def AllComplete (s : RootShared κ) : Prop :=
  ∀ p i, s.fs.names p = some i → Complete s.writers (s.fs.files i)

/-- The temporary name of a call. -/
def PutCall.tmp (R : Root κ) (c : PutCall κ) : String := Gds.tmp (R.at c.key) c.put

/-- Nothing of the payload is on its way or to be written. -/
def PayloadThere (w : Put) : PutPc → Prop
  | .header _ _ _ => w.payload = []
  | .payload _ _ _ pending => pending = []
  | _ => True

/-- A call draws a temporary name that no call before it had, and the first chunk of
a page becomes visible only when the payload is. -/
def PayloadFirst (R : Root κ) (s : RootSt κ) : RootLbl κ → Prop
  | .spawn c => (∀ t ∈ s.threads, t.call.tmp R ≠ c.tmp R) ∧
      ∀ v ∈ s.shared.writers, v.tmp R ≠ c.tmp R
  | .act i (.landPage 0) => ∀ t ∈ s.threads[i]?, PayloadThere t.call.put t.pc
  | _ => True

instance (w : Put) : (pc : PutPc) → Decidable (PayloadThere w pc)
  | .header _ _ _ => inferInstanceAs (Decidable (w.payload = []))
  | .payload _ _ _ pending => inferInstanceAs (Decidable (pending = []))
  | .contains _ | .openTmp | .publish _ | .note | .done | .dead => .isTrue trivial

instance (R : Root κ) (s : RootSt κ) : (a : RootLbl κ) → Decidable (PayloadFirst R s a)
  | .spawn _ => inferInstanceAs (Decidable (_ ∧ _))
  | .act i (.landPage 0) =>
      inferInstanceAs (Decidable (∀ t ∈ s.threads[i]?, PayloadThere t.call.put t.pc))
  | .act _ (.landPage (_ + 1)) | .act _ .next | .act _ (.landPayload _) | .act _ (.short _)
  | .act _ .allocFail | .act _ .fail | .act _ .die | .env _ => .isTrue trivial

/-! ## Files and their pages -/

/-- The first byte of the magic is not there. -/
def Unmarked (f : Bytes) : Prop := f.getD 0 0 = 0

/-- Every byte of the page region is that of the page, or nobody wrote it. -/
def Within (f pg : Bytes) : Prop :=
  ∀ i, i < Serde.headerSize → f.getD i 0 = 0 ∨ f.getD i 0 = pg.getD i 0

/-- A page, or parts of it, and the whole payload behind it. -/
structure Whole (w : Put) (f : Bytes) : Prop where
  page : ∃ pg, page w = .ok pg ∧ Within f pg
  payload : w.payload <+: f.drop Serde.payloadOffset

/-- A file that nobody takes for committed, or that has a whole payload. -/
def FileOk (writers : List (PutCall κ)) (f : Bytes) : Prop :=
  Unmarked f ∨ ∃ c ∈ writers, Whole c.put f

/-- A byte of a read is a byte of the file. -/
theorem getD_readAt (f : Bytes) {off n i : ℕ} (hi : i < n) :
    (SparseFile.readAt f off n).getD i 0 = f.getD (off + i) 0 := by
  rw [SparseFile.readAt, SparseFile.getD_take, if_pos hi, SparseFile.getD_drop]

/-- A field inside the page. -/
theorem readAt_page (f : Bytes) {off n : ℕ} (h : off + n ≤ Serde.headerSize) :
    SparseFile.readAt (SparseFile.readAt f 0 Serde.headerSize) off n = SparseFile.readAt f off n :=
  SparseFile.readAt_take h

/-- Without the mark in its state field a page is not accepted. -/
theorem not_committed_of_unmarked {f : Bytes} (h : Unmarked f) (hdr : Serde.Header) :
    Serde.parseHeader (SparseFile.readAt f 0 Serde.headerSize) true ≠ .ok hdr := by
  intro hparse
  rcases Serde.fields_of_parseHeader hparse with ⟨-, hmagic, -⟩
  rw [readAt_page f (by decide)] at hmagic
  have hfirst := congrArg (·.getD 0 0) hmagic
  rw [getD_readAt f (by decide), show f.getD (0 + 0) 0 = 0 from h] at hfirst
  exact absurd hfirst (by decide)

/-- A read inside the page finds zeros or the page's bytes. -/
theorem zeroed_of_within {f pg : Bytes} (h : Within f pg) {off n : ℕ} (hf : off + n ≤ f.length)
    (hpg : off + n ≤ pg.length) (hin : off + n ≤ Serde.headerSize) :
    List.Forall₂ (fun b c => b = 0 ∨ b = c) (SparseFile.readAt f off n)
      (SparseFile.readAt pg off n) := by
  have hlen : (SparseFile.readAt f off n).length = n := by
    rw [SparseFile.length_readAt]
    omega
  have hlen' : (SparseFile.readAt pg off n).length = n := by
    rw [SparseFile.length_readAt]
    omega
  refine List.forall₂_iff_get.mpr ⟨hlen.trans hlen'.symm, fun i hi hi' => ?_⟩
  have hn : i < n := by omega
  have hat := h (off + i) (by omega)
  rw [← getD_readAt f hn, ← getD_readAt pg hn, List.getD_eq_getElem _ _ hi,
    List.getD_eq_getElem _ _ hi'] at hat
  exact hat

/-- The length that a page announces, of which parts may be missing. -/
theorem Whole.payloadLen_le {w : Put} {f : Bytes} (h : Whole w f) {hdr : Serde.Header}
    (hparse : Serde.parseHeader (SparseFile.readAt f 0 Serde.headerSize) true = .ok hdr) :
    hdr.payloadLen ≤ w.payload.length := by
  rcases h.page with ⟨pg, hpage, hwithin⟩
  rcases page_eq_ok hpage with ⟨hpack, zeros, hpg⟩
  rcases Serde.fields_of_parseHeader hparse with ⟨hlen, -, hpay⟩
  have hfixed : Serde.fixedSize ≤ f.length := by
    rw [SparseFile.length_readAt] at hlen
    omega
  have hfield : ofLe (SparseFile.readAt pg 24 8) = w.payload.length := by
    rw [hpg]
    exact (Serde.fieldsOf_header hpack zeros).payloadLen
  rw [hpay, readAt_page f (by decide), ← hfield]
  apply ofLe_le_of_zeroed
  apply zeroed_of_within hwithin
  · exact Nat.le_trans (by decide) hfixed
  · rw [Serde.length_packHeader hpage]
    decide
  · decide

/-- A file that is in order is complete if it is committed. -/
theorem FileOk.complete {writers : List (PutCall κ)} {f : Bytes} (h : FileOk writers f) :
    Complete writers f := by
  intro hdr hparse
  rcases h with hun | ⟨c, hc, hwhole⟩
  · exact absurd hparse (not_committed_of_unmarked hun hdr)
  · have hle := hwhole.payloadLen_le hparse
    refine ⟨c, hc, hle, ?_⟩
    rcases hwhole.payload with ⟨rest, hrest⟩
    rw [SparseFile.readAt, ← hrest, List.take_append_of_le_length hle]

/-- More writers do no harm. -/
theorem FileOk.mono {writers writers' : List (PutCall κ)} {f : Bytes} (h : FileOk writers f)
    (hsub : ∀ c ∈ writers, c ∈ writers') : FileOk writers' f := by
  rcases h with hun | ⟨c, hc, hwhole⟩
  · exact .inl hun
  · exact .inr ⟨c, hsub c hc, hwhole⟩

/-! ## Chunks that become visible -/

section Landing

variable {cs : ℕ} (hcs : 0 < cs) {f pg bs : Bytes}

include hcs

/-- A chunk of the page stays within the page. -/
theorem Within.landPage (h : Within f pg) (k : ℕ) :
    Within (SparseFile.landChunk 0 cs f 0 pg k) pg := by
  intro i hi
  rw [SparseFile.getD_landChunk hcs]
  split
  · exact .inr rfl
  · exact h i hi

/-- A chunk of the payload lies behind it. -/
theorem Within.landPayload (h : Within f pg) (k : ℕ) :
    Within (SparseFile.landChunk 0 cs f Serde.payloadOffset bs k) pg := by
  intro i hi
  rw [SparseFile.getD_landChunk hcs, if_neg]
  · exact h i hi
  · rintro ⟨⟨hlo, -⟩, -⟩
    exact absurd hi (Nat.not_lt.mpr hlo)

/-- Chunks of the page behind the first one do not carry the mark. -/
theorem Unmarked.landPage (h : Unmarked f) {k : ℕ} (hk : k ≠ 0) :
    Unmarked (SparseFile.landChunk 0 cs f 0 pg k) := by
  rw [Unmarked, SparseFile.getD_landChunk hcs, if_neg]
  · exact h
  · rintro ⟨-, heq⟩
    rw [Nat.zero_div] at heq
    exact hk heq.symm

/-- No chunk of the payload carries it. -/
theorem Unmarked.landPayload (h : Unmarked f) (k : ℕ) :
    Unmarked (SparseFile.landChunk 0 cs f Serde.payloadOffset bs k) := by
  rw [Unmarked, SparseFile.getD_landChunk hcs, if_neg]
  · exact h
  · rintro ⟨⟨hlo, -⟩, -⟩
    exact absurd hlo (by decide)

end Landing

/-! ## The invariant -/

variable {R : Root κ}

/-- Every named file is in order, and named by a key or a call. -/
structure RootOk (R : Root κ) (s : RootShared κ) : Prop where
  files : ∀ p i, s.fs.names p = some i → FileOk s.writers (s.fs.files i)
  named : ∀ p i, s.fs.names p = some i → (∃ k, p = R.path k) ∨ ∃ c ∈ s.writers, p = c.tmp R

/-- A call has the file under its temporary name, in which there is nothing but its
page. -/
structure Owns (R : Root κ) (s : RootShared κ) (c : PutCall κ) (h : Handle) (pg : Bytes) :
    Prop where
  named : s.fs.names (c.tmp R) = some h
  writer : c ∈ s.writers
  packed : page c.put = .ok pg
  within : Within (s.fs.files h) pg

/-- What a call knows of its file. -/
def PuttingOk (R : Root κ) (s : RootShared κ) (p : Putting κ) : Prop :=
  match p.pc with
  | .contains _ | .openTmp => s.fs.names (p.call.tmp R) = none
  | .header h pg _ => Owns R s p.call h pg ∧
      (Unmarked (s.fs.files h) ∨ p.call.put.payload = [])
  | .payload h pg _ pending => Owns R s p.call h pg ∧
      SparseFile.Landed 0 R.chunkSize (s.fs.files h) Serde.payloadOffset p.call.put.payload
        pending ∧ (Unmarked (s.fs.files h) ∨ pending = [])
  | _ => True

/-- Calls with different temporary names. -/
def TmpApart (R : Root κ) (p q : Putting κ) : Prop := p.call.tmp R ≠ q.call.tmp R

/-- The temporary name of one key is not the name of another: it is longer. -/
theorem tmp_ne_path (c : PutCall κ) (k : κ) : c.tmp R ≠ R.path k := by
  intro heq
  have hlen : (Serde.tempPath (R.path c.key) c.put.nonce).toList.length =
      (R.path k).toList.length := congrArg (fun s => s.toList.length) heq
  have hsame := R.length_path c.key k
  have hlonger := Serde.length_lt_tempPath (R.path c.key) c.put.nonce
  omega

/-- What a step of a call comes to. -/
structure Moved (R : Root κ) (s s' : RootShared κ) (c : PutCall κ) (pc' : PutPc) : Prop where
  ok : RootOk R s'
  own : PuttingOk R s' ⟨c, pc'⟩
  same : ∀ q, q ≠ c.tmp R → (∀ k, q ≠ R.path k) → FileStore.SameAt s.fs s'.fs q
  writers : ∀ v ∈ s.writers, v ∈ s'.writers

/-- A step that leaves files and writers alone. -/
theorem moved_of_same {s s' : RootShared κ} {c : PutCall κ} {pc' : PutPc} (h : RootOk R s)
    (hfs : s'.fs = s.fs) (hw : s'.writers = s.writers) (hown : PuttingOk R s' ⟨c, pc'⟩) :
    Moved R s s' c pc' := by
  refine ⟨⟨?_, ?_⟩, hown, ?_, ?_⟩
  · rw [hfs, hw]
    exact h.files
  · rw [hfs, hw]
    exact h.named
  · intro q _ _
    rw [hfs]
    exact .refl _ q
  · intro v hv
    rwa [hw]

/-- A call changes its own file. -/
theorem moved_of_setFile {s : RootShared κ} {c : PutCall κ} {h : Handle} {pg f : Bytes}
    {pc' : PutPc} (hs : RootOk R s) (hown : Owns R s c h pg) (hf : FileOk s.writers f)
    (hown' : PuttingOk R { s with fs := s.fs.setFile h f } ⟨c, pc'⟩) :
    Moved R s { s with fs := s.fs.setFile h f } c pc' := by
  refine ⟨⟨?_, ?_⟩, hown', ?_, fun v hv => hv⟩
  · intro p i hp
    have hp : s.fs.names p = some i := by rwa [FileStore.setFile_names] at hp
    show FileOk s.writers ((s.fs.setFile h f).files i)
    by_cases hih : i = h
    · rw [hih, FileStore.setFile_files_self (s.fs.names_lt _ _ hown.named)]
      exact hf
    · rw [FileStore.setFile_files_ne _ hih]
      exact hs.files p i hp
  · intro p i hp
    exact hs.named p i (by rwa [FileStore.setFile_names] at hp)
  · intro q hq _
    exact FileStore.sameAt_setFile hown.named hq f

/-- Writing to the owned file keeps it owned. -/
theorem Owns.setFile {s : RootShared κ} {c : PutCall κ} {h : Handle} {pg f : Bytes}
    (hown : Owns R s c h pg) (hf : Within f pg) :
    Owns R { s with fs := s.fs.setFile h f } c h pg := by
  refine ⟨?_, hown.writer, hown.packed, ?_⟩
  · rw [FileStore.setFile_names]
    exact hown.named
  · show Within ((s.fs.setFile h f).files h) pg
    rwa [FileStore.setFile_files_self (s.fs.names_lt _ _ hown.named)]

/-! ## Steps of a call -/

section Steps

variable [DecidableEq κ] {s : RootShared κ} {c : PutCall κ} {t : Shared} {pc' : PutPc} {a : Act}

@[simp] theorem RootShared.put_at (s : RootShared κ) (k : κ) : s.put k (s.at k) = s := by
  simp [RootShared.put, RootShared.at]

@[simp] theorem RootShared.put_fs (s : RootShared κ) (k : κ) (fs : Dfs) :
    s.put k { s.at k with fs := fs } = { s with fs := fs } := by
  simp [RootShared.put, RootShared.at]

/-- The look at the final name leaves everything alone but `_known`. -/
theorem contains_cases {B : Backend} {s t : Shared} {w : Put} {pc : ContainsPc}
    (hst : putStep B s w (.contains pc) a = some (t, pc')) :
    t.fs = s.fs ∧ t.writers = s.writers ∧
      (pc' = .dead ∨ pc' = .done ∨ pc' = .openTmp ∨ ∃ q, pc' = .contains q) := by
  unfold putStep at hst
  split at hst
  case h_3 =>
    -- it dies
    cases hst
    exact ⟨rfl, rfl, .inl rfl⟩
  case h_4 =>
    -- the object is there already
    cases hst
    exact ⟨rfl, rfl, .inr (.inl rfl)⟩
  case h_5 =>
    -- it is not
    cases hst
    exact ⟨rfl, rfl, .inr (.inr (.inl rfl))⟩
  case h_6 =>
    -- still looking
    rcases Option.map_eq_some_iff.mp hst with ⟨⟨t', pc''⟩, hc, heq⟩
    cases heq
    rcases containsStep_frame hc with ⟨hfs, hw⟩
    exact ⟨hfs, hw, .inr (.inr (.inr ⟨_, rfl⟩))⟩
  -- the other equations are for calls elsewhere
  all_goals simp_all

/-- `contains` touches no file. -/
theorem moved_contains {pc : ContainsPc} (hs : RootOk R s)
    (hown : PuttingOk R s ⟨c, .contains pc⟩)
    (hst : putStep (R.at c.key) (s.at c.key) c.put (.contains pc) a = some (t, pc')) :
    Moved R s (s.put c.key t) c pc' := by
  rcases contains_cases hst with ⟨hfs, hw, hpc⟩
  have hfs : (s.put c.key t).fs = s.fs := hfs
  have hw : t.writers = [] := hw
  apply moved_of_same hs hfs
  · simp [RootShared.put, hw]
  · rcases hpc with rfl | rfl | rfl | ⟨q, rfl⟩
    · trivial
    · trivial
    · exact (congrFun (congrArg FileStore.names hfs) _).trans hown
    · exact (congrFun (congrArg FileStore.names hfs) _).trans hown

/-- A call that stops, other than while it looks at the final name. -/
theorem moved_stop {pc : PutPc} (hs : RootOk R s) (hpc : ∀ q, pc ≠ .contains q)
    (ha : a = .die ∨ a = .fail)
    (hst : putStep (R.at c.key) (s.at c.key) c.put pc a = some (t, pc')) :
    Moved R s (s.put c.key t) c pc' := by
  have hstop : t = s.at c.key ∧ (pc' = .dead ∨ pc' = .done) := by
    rcases ha with rfl | rfl
    · cases pc <;> cases hst <;> exact ⟨rfl, .inl rfl⟩
    · cases pc with
      | contains q => exact absurd rfl (hpc q)
      | _ => cases hst <;> exact ⟨rfl, .inr rfl⟩
  rcases hstop with ⟨rfl, hend⟩
  rw [RootShared.put_at]
  apply moved_of_same hs rfl rfl
  rcases hend with rfl | rfl
  · trivial
  · trivial

/-- The temporary file is opened. -/
def RootShared.opened (R : Root κ) (s : RootShared κ) (c : PutCall κ) : RootShared κ :=
  { s with fs := (s.fs.openCreate (c.tmp R)).1, writers := c :: s.writers }

/-- The open, seen from the one key and from the root. -/
theorem RootShared.put_opened (R : Root κ) (s : RootShared κ) (c : PutCall κ) :
    s.put c.key ⟨(s.fs.openCreate (c.tmp R)).1, s.known c.key, [c.put]⟩ = s.opened R c := by
  simp [RootShared.put, RootShared.opened]

omit [DecidableEq κ] in
/-- Nobody has had the name, so the file is new. -/
theorem moved_opened (hs : RootOk R s) (hfree : s.fs.names (c.tmp R) = none)
    (hown : PuttingOk R (s.opened R c) ⟨c, pc'⟩) : Moved R s (s.opened R c) c pc' := by
  refine ⟨⟨?_, ?_⟩, hown, ?_, fun v hv => List.mem_cons_of_mem _ hv⟩
  · -- the put's own file is new and empty; the others are untouched
    intro p i hp
    have hp : (s.fs.openCreate (c.tmp R)).1.names p = some i := hp
    show FileOk (c :: s.writers) ((s.fs.openCreate (c.tmp R)).1.files i)
    rw [FileStore.openCreate_files]
    by_cases hpc : p = c.tmp R
    · rw [hpc, FileStore.openCreate_names_self, Option.some.injEq] at hp
      rw [← hp, FileStore.openCreate_files_of_none hfree]
      exact .inl rfl
    · rw [FileStore.openCreate_names_ne _ hpc] at hp
      exact (hs.files p i hp).mono fun v hv => List.mem_cons_of_mem _ hv
  · -- its name joins the temporary names of calls
    intro p i hp
    have hp : (s.fs.openCreate (c.tmp R)).1.names p = some i := hp
    by_cases hpc : p = c.tmp R
    · exact .inr ⟨c, List.mem_cons_self, hpc⟩
    · rw [FileStore.openCreate_names_ne _ hpc] at hp
      rcases hs.named p i hp with hk | ⟨v, hv, heq⟩
      · exact .inl hk
      · exact .inr ⟨v, List.mem_cons_of_mem _ hv, heq⟩
  · -- creating one path changes no other
    intro q hq _
    exact FileStore.sameAt_openCreate _ hq

/-- The open gives the put a file of its own. -/
theorem moved_openTmp (hs : RootOk R s) (hown : PuttingOk R s ⟨c, .openTmp⟩)
    (hst : putStep (R.at c.key) (s.at c.key) c.put .openTmp a = some (t, pc')) :
    Moved R s (s.put c.key t) c pc' := by
  have hfree : s.fs.names (c.tmp R) = none := hown
  cases a with
  | next =>
      simp only [putStep] at hst
      split at hst
      · -- the page packs: the put opens its own temporary file and goes on to the header
        rename_i pg hpage
        cases hst
        show Moved R s
          (s.put c.key ⟨(s.fs.openCreate (c.tmp R)).1, s.known c.key, [c.put]⟩) c _
        rw [RootShared.put_opened]
        apply moved_opened hs hfree
        -- the file is new, so it holds no byte, in particular no mark
        have hempty : (s.opened R c).fs.files (s.fs.openCreate (c.tmp R)).2 = [] := by
          rw [RootShared.opened, FileStore.openCreate_files]
          exact FileStore.openCreate_files_of_none hfree
        refine ⟨⟨FileStore.openCreate_names_self .., List.mem_cons_self, hpage, ?_⟩, .inl ?_⟩
        · intro i _
          refine .inl ?_
          show ((s.opened R c).fs.files (s.fs.openCreate (c.tmp R)).2).getD i 0 = 0
          rw [hempty]
          rfl
        · show ((s.opened R c).fs.files (s.fs.openCreate (c.tmp R)).2).getD 0 0 = 0
          rw [hempty]
          rfl
      · -- the page does not pack: the file is open all the same, and the put raises
        cases hst
        show Moved R s
          (s.put c.key ⟨(s.fs.openCreate (c.tmp R)).1, s.known c.key, [c.put]⟩) c _
        rw [RootShared.put_opened]
        exact moved_opened hs hfree trivial
  | die => exact moved_stop hs (fun _ => PutPc.noConfusion) (.inl rfl) hst
  | fail => exact moved_stop hs (fun _ => PutPc.noConfusion) (.inr rfl) hst
  | _ => cases hst

omit [DecidableEq κ] in
/-- The state of the file while the page is written. -/
theorem fileOk_header {f pg : Bytes} (hc : c ∈ s.writers) (hpage : page c.put = .ok pg)
    (hwithin : Within f pg) (h : Unmarked f ∨ c.put.payload = []) : FileOk s.writers f := by
  rcases h with hun | hnil
  · exact .inl hun
  · refine .inr ⟨c, hc, ⟨pg, hpage, hwithin⟩, ?_⟩
    rw [hnil]
    exact List.nil_prefix

/-- A chunk of the page lands, none of them the first while the payload is not there. -/
theorem moved_header {h : Handle} {pg : Bytes} {pending : List ℕ} (hs : RootOk R s)
    (hown : PuttingOk R s ⟨c, .header h pg pending⟩)
    (hfirst : a = .landPage 0 → c.put.payload = [])
    (hst : putStep (R.at c.key) (s.at c.key) c.put (.header h pg pending) a = some (t, pc')) :
    Moved R s (s.put c.key t) c pc' := by
  rcases hown with ⟨howns, hmark⟩
  cases a with
  | next =>
      cases hst
      rw [RootShared.put_at]
      -- the file is as it was: none of the payload's chunks has landed
      refine moved_of_same hs rfl rfl ⟨howns, SparseFile.landed_chunksOf R.chunk_pos _ _ _, ?_⟩
      -- there is no mark, or no payload to wait for
      rcases hmark with hun | hnil
      · exact .inl hun
      · refine .inr ?_
        show SparseFile.chunksOf _ _ c.put.payload.length = []
        rw [hnil]
        rfl
  | landPage k =>
      simp only [putStep] at hst
      split at hst
      · cases hst
        have hwithin := howns.within.landPage R.chunk_pos (f := s.fs.files h) k
        have hmark' : Unmarked (SparseFile.landChunk 0 R.chunkSize (s.fs.files h) 0 pg k) ∨
            c.put.payload = [] := by
          by_cases hk : k = 0
          · -- the mark lies in the first chunk, which may land before the payload only if that is
            -- empty
            exact .inr (hfirst (by rw [hk]))
          · -- any other chunk leaves the marked byte as it was
            rcases hmark with hun | hnil
            · exact .inl (hun.landPage R.chunk_pos hk)
            · exact .inr hnil
        rw [Dfs.landChunk, RootShared.put_fs]
        apply moved_of_setFile hs howns
          (fileOk_header howns.writer howns.packed hwithin hmark')
        refine ⟨howns.setFile hwithin, ?_⟩
        show Unmarked ((s.fs.setFile h _).files h) ∨ _
        rw [FileStore.setFile_files_self (s.fs.names_lt _ _ howns.named)]
        exact hmark'
      · cases hst
  | die => exact moved_stop hs (fun _ => PutPc.noConfusion) (.inl rfl) hst
  | fail => exact moved_stop hs (fun _ => PutPc.noConfusion) (.inr rfl) hst
  | _ => cases hst

omit [DecidableEq κ] in
/-- The state of the file while the payload is written. -/
theorem fileOk_payload {f pg : Bytes} {pending : List ℕ} (hc : c ∈ s.writers)
    (hpage : page c.put = .ok pg) (hwithin : Within f pg)
    (hland : SparseFile.Landed 0 R.chunkSize f Serde.payloadOffset c.put.payload pending)
    (h : Unmarked f ∨ pending = []) : FileOk s.writers f := by
  rcases h with hun | rfl
  · exact .inl hun
  · exact .inr ⟨c, hc, ⟨pg, hpage, hwithin⟩, SparseFile.prefix_drop_of_landed hland⟩

omit [DecidableEq κ] in
/-- A chunk of the page or of the payload becomes visible. -/
theorem moved_land {h : Handle} {pg f : Bytes} {pagePending pending : List ℕ} (hs : RootOk R s)
    (howns : Owns R s c h pg) (hwithin : Within f pg)
    (hland : SparseFile.Landed 0 R.chunkSize f Serde.payloadOffset c.put.payload pending)
    (hmark : Unmarked f ∨ pending = []) :
    Moved R s { s with fs := s.fs.setFile h f } c (.payload h pg pagePending pending) := by
  apply moved_of_setFile hs howns (fileOk_payload howns.writer howns.packed hwithin hland hmark)
  have hfile : (s.fs.setFile h f).files h = f :=
    FileStore.setFile_files_self (s.fs.names_lt _ _ howns.named) f
  refine ⟨howns.setFile hwithin, ?_, ?_⟩
  · show SparseFile.Landed 0 R.chunkSize ((s.fs.setFile h f).files h) _ _ _
    rw [hfile]
    exact hland
  · show Unmarked ((s.fs.setFile h f).files h) ∨ _
    rw [hfile]
    exact hmark

/-- A chunk lands while the payload is being written; the mark comes last. -/
theorem moved_payload {h : Handle} {pg : Bytes} {pagePending pending : List ℕ} (hs : RootOk R s)
    (hown : PuttingOk R s ⟨c, .payload h pg pagePending pending⟩)
    (hfirst : a = .landPage 0 → pending = [])
    (hst : putStep (R.at c.key) (s.at c.key) c.put (.payload h pg pagePending pending) a =
      some (t, pc')) : Moved R s (s.put c.key t) c pc' := by
  rcases hown with ⟨howns, hland, hmark⟩
  have hpage : pg.length = Serde.payloadOffset := Serde.length_packHeader howns.packed
  cases a with
  | next =>
      simp only [putStep] at hst
      split at hst
      · cases hst
        rw [RootShared.put_at]
        exact moved_of_same hs rfl rfl trivial
      · cases hst
  | landPage k =>
      simp only [putStep] at hst
      split at hst
      · cases hst
        rw [Dfs.landChunk, RootShared.put_fs]
        apply moved_land hs howns (howns.within.landPage R.chunk_pos k)
        · refine SparseFile.landed_of_disjoint R.chunk_pos hland (.inr ?_) k
          rw [hpage, Nat.zero_add]
        · by_cases hk : k = 0
          · exact .inr (hfirst (by rw [hk]))
          · rcases hmark with hun | hnil
            · exact .inl (hun.landPage R.chunk_pos hk)
            · exact .inr hnil
      · cases hst
  | landPayload k =>
      simp only [putStep] at hst
      split at hst
      · rename_i hk
        cases hst
        -- something is pending, so the page is not marked
        have hun : Unmarked (s.fs.files h) :=
          hmark.resolve_right (List.ne_nil_of_mem hk)
        rw [Dfs.landChunk, RootShared.put_fs]
        exact moved_land hs howns (howns.within.landPayload R.chunk_pos k)
          (SparseFile.landed_erase R.chunk_pos hland k) (.inl (hun.landPayload R.chunk_pos k))
      · cases hst
  | short m =>
      simp only [putStep] at hst
      split at hst
      · cases hst
        rw [RootShared.put_at]
        exact moved_of_same hs rfl rfl trivial
      · cases hst
  | die => exact moved_stop hs (fun _ => PutPc.noConfusion) (.inl rfl) hst
  | fail => exact moved_stop hs (fun _ => PutPc.noConfusion) (.inr rfl) hst
  | allocFail => cases hst

/-- The move: the file stays what it is. -/
theorem moved_publish {h : Handle} (hs : RootOk R s)
    (hst : putStep (R.at c.key) (s.at c.key) c.put (.publish h) a = some (t, pc')) :
    Moved R s (s.put c.key t) c pc' := by
  cases a with
  | next =>
      simp only [putStep] at hst
      split at hst
      · rename_i i hi
        -- the temporary file is there: the rename makes it the object
        have hi : s.fs.names (c.tmp R) = some i := hi
        cases hst
        rw [RootShared.put_fs]
        rcases FileStore.rename_of_some hi (R.path c.key) with ⟨hnames, hfiles, -⟩
        refine ⟨⟨?_, ?_⟩, trivial, ?_, fun v hv => hv⟩
        · intro p j hp
          show FileOk s.writers ((s.fs.rename (c.tmp R) (R.path c.key)).files j)
          rw [hfiles]
          -- the object's own path now names the file that was written; all other paths are as they
          -- were
          by_cases hpath : p = R.path c.key
          · have hp : (s.fs.rename (c.tmp R) (R.path c.key)).names p = some j := hp
            rw [hnames, hpath, Function.update_self, Option.some.injEq] at hp
            rw [← hp]
            exact hs.files _ i hi
          · exact hs.files p j (FileStore.names_of_rename hi hpath hp)
        · intro p j hp
          by_cases hpath : p = R.path c.key
          · exact .inl ⟨c.key, hpath⟩
          · exact hs.named p j (FileStore.names_of_rename hi hpath hp)
        · -- the others look at their own temporary files, which no rename to this path touches
          intro q hq hpath
          exact FileStore.sameAt_rename hq (hpath c.key)
      · -- no temporary file: the rename raises and the namespace is untouched
        cases hst
        rw [RootShared.put_at]
        exact moved_of_same hs rfl rfl trivial
  | die => exact moved_stop hs (fun _ => PutPc.noConfusion) (.inl rfl) hst
  | fail => exact moved_stop hs (fun _ => PutPc.noConfusion) (.inr rfl) hst
  | _ => cases hst

/-- The note touches no file. -/
theorem moved_note (hs : RootOk R s)
    (hst : putStep (R.at c.key) (s.at c.key) c.put .note a = some (t, pc')) :
    Moved R s (s.put c.key t) c pc' := by
  cases a with
  | next =>
      cases hst
      exact moved_of_same hs rfl rfl trivial
  | die => exact moved_stop hs (fun _ => PutPc.noConfusion) (.inl rfl) hst
  | fail => exact moved_stop hs (fun _ => PutPc.noConfusion) (.inr rfl) hst
  | _ => cases hst

/-- A step of a call, if it does not show the page before the payload. -/
theorem moved_of_step {p p' : Putting κ} {sh : RootShared κ} (hs : RootOk R s)
    (hown : PuttingOk R s p) (hfirst : a = .landPage 0 → PayloadThere p.call.put p.pc)
    (hst : rootStep R s p a = some (sh, p')) : p'.call = p.call ∧ Moved R s sh p.call p'.pc := by
  rcases p with ⟨c, pc⟩
  rcases Option.map_eq_some_iff.mp hst with ⟨⟨t, pc'⟩, hput, heq⟩
  cases heq
  refine ⟨rfl, ?_⟩
  cases pc with
  | contains pc => exact moved_contains hs hown hput
  | openTmp => exact moved_openTmp hs hown hput
  | header h pg pending => exact moved_header hs hown hfirst hput
  | payload h pg pagePending pending => exact moved_payload hs hown hfirst hput
  | publish h => exact moved_publish hs hput
  | note => exact moved_note hs hput
  | done => cases hput
  | dead => cases hput

end Steps

/-! ## Runs -/

/-- What a call knows holds as long as its own name is left alone. -/
theorem PuttingOk.same {s s' : RootShared κ} {q : Putting κ} (h : PuttingOk R s q)
    (hsame : FileStore.SameAt s.fs s'.fs (q.call.tmp R)) (hw : ∀ v ∈ s.writers, v ∈ s'.writers) :
    PuttingOk R s' q := by
  -- what it owns it still owns: the name, the handle and the file's bytes are the same
  have howns : ∀ {h pg}, Owns R s q.call h pg →
      Owns R s' q.call h pg ∧ s'.fs.files h = s.fs.files h := by
    intro h pg hown
    have hfile := hsame.2 h hown.named
    refine ⟨⟨hsame.1.trans hown.named, hw _ hown.writer, hown.packed, ?_⟩, hfile⟩
    rw [hfile]
    exact hown.within
  -- in each state it has its path, or its file, or nothing at all
  rcases q with ⟨c, pc⟩
  cases pc with
  | contains pc => exact hsame.1.trans h
  | openTmp => exact hsame.1.trans h
  | header =>
      rcases howns h.1 with ⟨hown, hfile⟩
      refine ⟨hown, ?_⟩
      rw [hfile]
      exact h.2
  | payload =>
      rcases howns h.1 with ⟨hown, hfile⟩
      refine ⟨hown, ?_⟩
      rw [hfile]
      exact h.2
  | _ => trivial

/-- A fresh nonce names no file yet. -/
theorem tmp_free {s : RootShared κ} {c : PutCall κ} (hs : RootOk R s)
    (hfresh : ∀ v ∈ s.writers, v.tmp R ≠ c.tmp R) : s.fs.names (c.tmp R) = none := by
  cases hn : s.fs.names (c.tmp R) with
  | none => rfl
  | some i =>
      rcases hs.named _ i hn with ⟨k, hk⟩ | ⟨v, hv, heq⟩
      · exact absurd hk (tmp_ne_path c k)
      · exact absurd heq.symm (hfresh v hv)

/-- The storage only cuts files without a name. -/
theorem rootOk_reclaim {s : RootShared κ} {fs : Dfs} {h : Handle} {m : ℕ} (hs : RootOk R s)
    (hst : Dfs.reclaim s.fs h m = some fs) :
    RootOk R { s with fs := fs } ∧ ∀ p, FileStore.SameAt s.fs fs p := by
  rcases Dfs.reclaim_eq_some.mp hst with ⟨hun, rfl⟩
  have hsame := fun p => FileStore.sameAt_setFile_unlinked hun p ((s.fs.files h).take m)
  refine ⟨⟨?_, ?_⟩, hsame⟩
  · intro p i hp
    have hp : s.fs.names p = some i := (hsame p).1.symm.trans hp
    show FileOk s.writers ((s.fs.setFile h _).files i)
    rw [(hsame p).2 i hp]
    exact hs.files p i hp
  · intro p i hp
    exact hs.named p i ((hsame p).1.symm.trans hp)

/-- In every run in which no two calls have one temporary name, and no page becomes
visible from its beginning before its payload is, a named file that says it is
committed is complete. -/
theorem committed_is_complete [DecidableEq κ] (R : Root κ) {s : RootSt κ}
    (h : (rootMachine R).ReachableVia (PayloadFirst R) s) : AllComplete s.shared := by
  have hfirst : ∀ {s : RootSt κ} {i a p}, PayloadFirst R s (.act i a) → s.threads[i]? = some p →
      a = .landPage 0 → PayloadThere p.call.put p.pc := by
    rintro s i a p hok hp rfl
    exact hok p hp
  obtain ⟨hs, -, -⟩ := Threads.safety (T := rootThreads R) (I := RootOk R) (J := PuttingOk R)
    -- temporary paths of different puts differ, in both directions
    (E := TmpApart R) (fun _ _ h => Ne.symm h)
    -- the empty namespace has no file that could be incomplete
    (fun s hs => by
      rw [show s = ⟨FileStore.empty, fun _ => [], []⟩ from hs]
      constructor
      · intro _ _ hp
        cases hp
      · intro _ _ hp
        cases hp)
    -- a new put finds its temporary path free
    (fun s c hs _ hok => ⟨tmp_free hs hok.2, fun q hq => (hok.1 q hq).symm⟩)
    -- its own step keeps both invariants
    (fun s i a p sh p' hs hp hok hi hst => by
      rcases moved_of_step hs hp (hfirst hok hi) hst with ⟨hcall, hmoved⟩
      refine ⟨hmoved.ok, ?_⟩
      rw [show p' = ⟨p.call, p'.pc⟩ by rw [← hcall]]
      exact hmoved.own)
    -- another put's step leaves this one's file alone
    (fun s i a p sh p' q hs hp hok hi hst _ hq hpq => by
      rcases moved_of_step hs hp (hfirst hok hi) hst with ⟨hcall, hmoved⟩
      refine ⟨hq.same (hmoved.same _ (Ne.symm hpq) (tmp_ne_path q.call)) hmoved.writers, ?_⟩
      rw [TmpApart, hcall]
      exact hpq)
    -- `reclaim` only frees what no path names
    (fun s e sh hs _ hst => by
      cases e with
      | reclaim h m =>
          rcases Option.map_eq_some_iff.mp hst with ⟨fs, hfs, rfl⟩
          rcases rootOk_reclaim hs hfs with ⟨hok, hsame⟩
          exact ⟨hok, fun q hq => hq.same (hsame _) fun v hv => hv⟩) h
  intro p i hp
  exact (hs.files p i hp).complete

/-! ## A put by itself -/

section Alone

variable [DecidableEq κ] (R : Root κ) (c : PutCall κ) {pg : Bytes}

def rootInitial : RootSt κ := ⟨⟨FileStore.empty, fun _ => [], []⟩, []⟩

/-- The handle of the temporary file. -/
def aloneHandle : Handle := (FileStore.openCreate (α := UInt8) .empty (c.tmp R)).2

/-- A call up to where it has opened its file. -/
theorem reaches_header (hpage : page c.put = .ok pg) :
    (rootMachine R).ReachableVia (PayloadFirst R)
      ⟨(rootInitial (κ := κ)).shared.opened R c,
        [⟨c, .header (aloneHandle R c) pg (SparseFile.chunksOf R.chunkSize 0 pg.length)⟩]⟩ := by
  -- a put starts: nothing is in flight, and no call was made before
  have h₀ : (rootMachine R).ReachableVia (PayloadFirst R)
      ⟨(rootInitial (κ := κ)).shared, [⟨c, .contains .check⟩]⟩ := by
    refine .step (a := .spawn c) (.init (s := rootInitial) ⟨rfl, rfl⟩) ?_ rfl
    constructor
    · intro t ht
      cases ht
    · intro v hv
      cases hv
  -- the lookups of a fresh namespace change nothing, so only the program counter moves
  have hsame : ∀ {pc pc' : PutPc}, (rootMachine R).ReachableVia (PayloadFirst R)
      ⟨(rootInitial (κ := κ)).shared, [⟨c, pc⟩]⟩ →
      putStep (R.at c.key) ((rootInitial (κ := κ)).shared.at c.key) c.put pc .next =
        some ((rootInitial (κ := κ)).shared.at c.key, pc') →
      (rootMachine R).ReachableVia (PayloadFirst R)
        ⟨(rootInitial (κ := κ)).shared, [⟨c, pc'⟩]⟩ := by
    intro pc pc' hr hst
    refine .step (a := .act 0 .next) hr ?_ ?_
    · trivial
    refine Threads.step_act_iff.mpr ⟨_, _, ⟨c, pc'⟩, rfl, ?_, rfl⟩
    show (putStep _ _ c.put pc .next).map _ = _
    rw [hst, Option.map_some, RootShared.put_at]
  have h₁ : (rootMachine R).ReachableVia (PayloadFirst R)
      ⟨(rootInitial (κ := κ)).shared, [⟨c, .openTmp⟩]⟩ := hsame (hsame (hsame h₀ rfl) rfl) rfl
  -- the open creates the file
  refine .step (a := .act 0 .next) h₁ ?_ ?_
  · trivial
  refine Threads.step_act_iff.mpr ⟨_, _, _, rfl, ?_, rfl⟩
  show (putStep (R.at c.key) _ c.put .openTmp .next).map _ = _
  simp only [putStep, hpage, Option.map_some]
  rw [← RootShared.put_opened]
  rfl

variable {R c}

/-- A step of the only writer. -/
theorem step_alone {s : RootShared κ} {pc pc' : PutPc} {a : Act} {fs : Dfs}
    (hst : putStep (R.at c.key) (s.at c.key) c.put pc a =
      some ({ s.at c.key with fs := fs }, pc')) :
    (rootMachine R).step ⟨s, [⟨c, pc⟩]⟩ (.act 0 a) = some ⟨{ s with fs := fs }, [⟨c, pc'⟩]⟩ := by
  refine Threads.step_act_iff.mpr ⟨_, _, ⟨c, pc'⟩, rfl, ?_, rfl⟩
  show (putStep _ _ c.put pc a).map _ = _
  rw [hst, Option.map_some, RootShared.put_fs]

/-- Every put of a payload can come to a committed file without it: it is enough that
the page becomes visible, before the payload write has begun. -/
theorem exists_incomplete (hpage : page c.put = .ok pg) (hne : c.put.payload ≠ [])
    (hcs : Serde.headerSize ≤ R.chunkSize) :
    ∃ s, (rootMachine R).Reachable s ∧ ¬ AllComplete s.shared := by
  have hlen := Serde.length_packHeader hpage
  have hpending : SparseFile.chunksOf R.chunkSize 0 pg.length = [0] :=
    chunksOf_first (by rw [hlen]; decide) (by omega)
  have hopen := reaches_header R c hpage
  rw [hpending] at hopen
  obtain ⟨s, hs⟩ : ∃ s, s = (rootInitial (κ := κ)).shared.opened R c := ⟨_, rfl⟩
  have hnamed : s.fs.names (c.tmp R) = some (aloneHandle R c) := by
    rw [hs]
    exact FileStore.openCreate_names_self ..
  have hempty : s.fs.files (aloneHandle R c) = [] := by
    rw [hs, RootShared.opened, FileStore.openCreate_files]
    rfl
  have hpg : SparseFile.landChunk 0 R.chunkSize [] 0 pg 0 = pg :=
    landChunk_first (f := []) rfl (by rw [hlen]; omega)
  rw [← hs] at hopen
  have hshown : (rootMachine R).step ⟨s, [⟨c, .header (aloneHandle R c) pg [0]⟩]⟩
      (.act 0 (.landPage 0)) = some ⟨{ s with fs := s.fs.setFile (aloneHandle R c) pg },
        [⟨c, .header (aloneHandle R c) pg []⟩]⟩ := by
    apply step_alone
    show some (_, _) = some (_, _)
    rw [Dfs.landChunk]
    show some (({ s.at c.key with fs := s.fs.setFile _ (SparseFile.landChunk 0 R.chunkSize
      (s.fs.files (aloneHandle R c)) 0 pg 0) } : Shared), _) = _
    rw [hempty, hpg]
    rfl
  refine ⟨_, .step (hopen.mono fun _ _ _ => trivial) trivial hshown, ?_⟩
  intro hall
  rcases page_eq_ok hpage with ⟨hpack, zeros, hzeros⟩
  have hfile : (s.fs.setFile (aloneHandle R c) pg).files (aloneHandle R c) = pg :=
    FileStore.setFile_files_self (s.fs.names_lt _ _ hnamed) pg
  have hparse : Serde.parseHeader (SparseFile.readAt
      ((s.fs.setFile (aloneHandle R c) pg).files (aloneHandle R c)) 0 Serde.headerSize) true =
        .ok (headerOf c.put) := by
    rw [hfile, SparseFile.readAt, List.drop_zero, List.take_of_length_le (Nat.le_of_eq hlen),
      hzeros]
    exact Serde.parseHeader_header hpack zeros fun _ => rfl
  rcases hall (c.tmp R) (aloneHandle R c) (by rw [FileStore.setFile_names]; exact hnamed) _ hparse
    with ⟨c', -, hle, hpayload⟩
  -- nothing is behind the page
  have hlens := congrArg List.length hpayload
  have hpos := List.length_pos_iff.mpr hne
  have hle : c.put.payload.length ≤ c'.put.payload.length := hle
  have hzero : (SparseFile.readAt ((s.fs.setFile (aloneHandle R c) pg).files (aloneHandle R c))
      Serde.payloadOffset c.put.payload.length).length = 0 := by
    rw [hfile, SparseFile.length_readAt, hlen, Serde.payloadOffset, Nat.sub_self, Nat.min_zero]
  have htake : (c'.put.payload.take c.put.payload.length).length = c.put.payload.length := by
    rw [List.length_take]
    omega
  have hlens : (SparseFile.readAt ((s.fs.setFile (aloneHandle R c) pg).files (aloneHandle R c))
      Serde.payloadOffset c.put.payload.length).length =
        (c'.put.payload.take c.put.payload.length).length := hlens
  omega

end Alone

/-- One key, whatever it is. -/
def aRoot : Root Unit where
  chunkSize := aBackend.chunkSize
  chunk_pos := aBackend.chunk_pos
  metaUnpack := aBackend.metaUnpack
  objSize := aBackend.objSize
  path _ := aBackend.final
  length_path _ _ := rfl

def aCall : PutCall Unit := ⟨(), aPut⟩

/-- The payload first, then the page: a chunk each. -/
theorem payload_first_complete : ∃ s : RootSt Unit, s.shared.writers = [aCall] ∧
    s.shared.fs.names (aCall.tmp aRoot) = some (aloneHandle aRoot aCall) ∧
    s.threads.map Putting.pc = [.publish (aloneHandle aRoot aCall)] ∧ AllComplete s.shared := by
  -- the page of this put packs, to one chunk
  rcases (⟨_, rfl⟩ : ∃ pg, page aPut = .ok pg) with ⟨pg, hpage⟩
  have hlen := Serde.length_packHeader hpage
  have hpagePending : SparseFile.chunksOf aRoot.chunkSize 0 pg.length = [0] :=
    chunksOf_first (by rw [hlen]; decide) (by rw [hlen]; decide)
  have hopen := reaches_header aRoot aCall hpage
  rw [hpagePending] at hopen
  have hpending : SparseFile.chunksOf (aRoot.at aCall.key).chunkSize Serde.payloadOffset
      aCall.put.payload.length = [0] := chunksOf_first (by decide) (by decide)
  rcases (⟨_, rfl⟩ : ∃ s, s = (rootInitial (κ := Unit)).shared.opened aRoot aCall) with ⟨s, hs⟩
  rcases (⟨_, rfl⟩ : ∃ h, h = aloneHandle aRoot aCall) with ⟨h, hh⟩
  rw [← hs, ← hh] at hopen
  have hnamed : s.fs.names (aCall.tmp aRoot) = some h := by
    rw [hs, hh]
    exact FileStore.openCreate_names_self ..
  -- header written to its buffers, then the payload lands before the page
  have h₁ := hopen.step (a := .act 0 .next) (by trivial) (@step_alone _ _ _ _ s _ _ _ s.fs rfl)
  rw [hpending] at h₁
  have h₂ := h₁.step (a := .act 0 (.landPayload 0)) (by trivial) (step_alone rfl)
  have h₃ := h₂.step (a := .act 0 (.landPage 0)) (by
    intro t ht
    cases ht
    exact List.erase_cons_head ..) (step_alone rfl)
  have h₄ := h₃.step (a := .act 0 .next) (by trivial) (step_alone rfl)
  refine ⟨_, ?_, ?_, ?_, committed_is_complete aRoot h₄⟩
  · rw [hs]
    rfl
  · simp only [Dfs.landChunk, RootShared.at, FileStore.setFile_names]
    exact hnamed.trans (congrArg some hh)
  · rw [← hh]
    rfl

/-- The page is visible and nothing of the payload is. -/
theorem committed_without_payload :
    ∃ s, (rootMachine aRoot).Reachable s ∧ ¬ AllComplete s.shared := by
  rcases (⟨_, rfl⟩ : ∃ pg, page aPut = .ok pg) with ⟨pg, hpage⟩
  exact exists_incomplete (c := aCall) hpage (by decide) (by decide)

end LmcacheDaos.Gds
