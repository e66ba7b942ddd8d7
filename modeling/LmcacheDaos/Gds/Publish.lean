import LmcacheDaos.Gds.Backend

/-!
# What a read of the GDS backend returns

The header is marked committed before the payload is there, so nothing in a
file tells a reader whether it is complete. What protects it is which names it
can reach: a writer only touches the file under its own temporary name, the
move takes that name away, and no file gets a temporary name twice. From the
move on a file is `Sealed`: nobody writes to it, and it is a prefix of header
page, payload and leftovers of one writer.
-/

namespace LmcacheDaos.Gds

open Lib

variable {B : Backend}

/-- `_meta_unpack` undoes `_meta_pack` on the metadata of this writer: the JSON
text parses back to the same shapes, dtype names and format, and torch knows the
names. This is assumed of `json` and torch, not proved. -/
def Lossless (B : Backend) (w : Put) : Prop :=
  B.metaUnpack (metaPack w.payload.length w.metadata) = some (w.payload.length, w.metadata)

/-- The nonce of a writer at work. -/
def liveNonce : Proc → Option String
  | .put w pc => if live pc then some w.nonce else none
  | _ => none

def putOf : Lbl → Option Put
  | .spawn (.put w) => some w
  | _ => none

/-- Nonces of concurrent writers differ, and their metadata survives the codec. -/
def Admissible (B : Backend) (s : St) (a : Lbl) : Prop :=
  ∀ w ∈ putOf a, Lossless B w ∧ ∀ t ∈ s.threads, liveNonce t ≠ some w.nonce

instance (w : Put) : Decidable (Lossless B w) := inferInstanceAs (Decidable (_ = _))

instance (s : St) (a : Lbl) : Decidable (Admissible B s a) :=
  inferInstanceAs (Decidable (∀ w ∈ putOf a, _))

/-- The header that a writer packs. -/
def headerOf (w : Put) : Serde.Header :=
  ⟨Serde.stateCommitted, metaPack w.payload.length w.metadata, w.payload.length⟩

theorem page_eq_ok {w : Put} {pg : Bytes} (h : page w = .ok pg) :
    (headerOf w).Packable ∧ ∃ zeros, pg = Serde.header (headerOf w) ++ zeros :=
  ⟨(Serde.packHeader_eq_ok.mp h).1, _, (Serde.packHeader_eq_ok.mp h).2⟩

/-! ## The invariant -/

/-- The file `i` was published by `w` and nobody writes to it any more. It may
have lost its tail since. -/
structure Sealed (B : Backend) (s : Shared) (i : Handle) (w : Put) : Prop where
  created : i.gen < s.fs.next
  untemp : ∀ nonce, s.fs.names (Serde.tempPath B.final nonce) ≠ some i
  writer : w ∈ s.writers
  lossless : Lossless B w
  content : ∃ pg rest, page w = .ok pg ∧ s.fs.files i <+: pg ++ w.payload ++ rest

/-- A published name leads to a sealed file. -/
def FinalSealed (B : Backend) (s : Shared) : Prop :=
  ∀ i, s.fs.names B.final = some i → ∃ w, Sealed B s i w

/-- A writer holds the file under its temporary name. -/
structure Held (B : Backend) (s : Shared) (w : Put) (h : Handle) (pg : Bytes) : Prop where
  named : s.fs.names (tmp B w) = some h
  writer : w ∈ s.writers
  packed : page w = .ok pg

/-- What a writer knows of its file. -/
def WriterOk (B : Backend) (s : Shared) (w : Put) : PutPc → Prop
  | .header h pg pending => Held B s w h pg ∧
      SparseFile.Landed 0 B.chunkSize (s.fs.files h) 0 pg pending
  | .payload h pg pagePending pending => Held B s w h pg ∧
      SparseFile.Landed 0 B.chunkSize (s.fs.files h) 0 pg pagePending ∧
      SparseFile.Landed 0 B.chunkSize (s.fs.files h) Serde.payloadOffset w.payload pending
  | .publish h => ∃ pg, Held B s w h pg ∧ pg ++ w.payload <+: s.fs.files h
  | _ => True

/-- The bytes and the metadata of one writer. -/
def FromWriter (s : Shared) (bytes : Bytes) (m : ObjMeta) : Prop :=
  ∃ w ∈ s.writers, bytes = w.payload ∧ m = w.metadata

/-- What a reader knows of the file it opened. -/
def ReaderOk (B : Backend) (s : Shared) : GetPc → Prop
  | .header h => ∃ w, Sealed B s h w
  | .alloc h hdr => ∃ w, Sealed B s h w ∧ hdr = headerOf w
  | .payload h hdr m => ∃ w, Sealed B s h w ∧ hdr = headerOf w ∧ m = w.metadata
  | .note bytes m => FromWriter s bytes m
  | .got (.obj bytes m) => FromWriter s bytes m
  | _ => True

def ProcOk (B : Backend) (s : Shared) : Proc → Prop
  | .put w pc => Lossless B w ∧ WriterOk B s w pc
  | .get _ pc => ReaderOk B s pc
  | _ => True

/-- Writers at work have different nonces. -/
def Apart (p q : Proc) : Prop := ∀ n, liveNonce p = some n → liveNonce q ≠ some n

theorem Apart.symm {p q : Proc} (h : Apart p q) : Apart q p :=
  fun n hq hp => h n hp hq

/-! ## Files out of reach -/

theorem tmp_ne_final (w : Put) : tmp B w ≠ B.final := Serde.tempPath_ne _ _

/-- Nothing changes for a sealed file in a step that leaves files and writers alone. -/
theorem Sealed.congr {s s' : Shared} {i : Handle} {w : Put} (h : Sealed B s i w)
    (hfs : s'.fs = s.fs) (hw : s'.writers = s.writers) : Sealed B s' i w where
  created := hfs ▸ h.created
  untemp := hfs ▸ h.untemp
  writer := hw ▸ h.writer
  lossless := h.lossless
  content := hfs ▸ h.content

/-- A sealed file is not touched by the step of any writer. -/
theorem Sealed.put {s s' : Shared} {w w' : Put} {pc pc' : PutPc} {i : Handle}
    (h : Sealed B s i w') (hw : WriterOk B s w pc) (hst : PutMove B s w pc s' pc') :
    Sealed B s' i w' := by
  have hopen : Sealed B { s with fs := (s.fs.openCreate (tmp B w)).1, writers := w :: s.writers }
      i w' := by
    refine ⟨Nat.lt_of_lt_of_le h.created (FileStore.le_openCreate_next ..), ?_,
      List.mem_cons_of_mem _ h.writer, h.lossless, ?_⟩
    · intro nonce hn
      -- an opened file is the one under the name, or a new one
      simp only at hn
      cases hold : s.fs.names (tmp B w) with
      | some j =>
          rw [FileStore.openCreate_of_some hold] at hn
          exact h.untemp nonce hn
      | none =>
          rw [(FileStore.openCreate_of_none hold).2.1] at hn
          by_cases heq : Serde.tempPath B.final nonce = tmp B w
          · rw [heq, Function.update_self, Option.some.injEq] at hn
            have := h.created
            rw [← hn] at this
            exact absurd this (Nat.lt_irrefl _)
          · rw [Function.update_of_ne heq] at hn
            exact h.untemp nonce hn
    · simpa using h.content
  have hland : ∀ {j off bs k}, s.fs.names (tmp B w) = some j →
      Sealed B { s with fs := Dfs.landChunk s.fs B.chunkSize j off bs k } i w' := by
    intro j off bs k hj
    have hne : i ≠ j := by
      rintro rfl
      exact h.untemp w.nonce hj
    refine ⟨by simpa [Dfs.landChunk] using h.created, by simpa [Dfs.landChunk] using h.untemp,
      h.writer, h.lossless, ?_⟩
    rw [Dfs.landChunk, FileStore.setFile_files_ne _ hne]
    exact h.content
  cases hst with
  | quiet hfs hwr => exact h.congr hfs hwr
  | openTmp | openBad => exact hopen
  | landPage => exact hland hw.1.named
  | landPageLate => exact hland hw.1.named
  | landPayload => exact hland hw.1.named
  | pageWritten | close => exact h
  | publish hn =>
      obtain ⟨-, hfiles, hnext⟩ := FileStore.rename_of_some hn B.final
      refine ⟨by rw [hnext]; exact h.created, ?_, h.writer, h.lossless, ?_⟩
      · intro nonce hr
        exact h.untemp nonce (FileStore.names_of_rename hn (Serde.tempPath_ne _ _) hr)
      · rw [hfiles]
        exact h.content

theorem Sealed.unlink {s : Shared} {i : Handle} {w : Put} (h : Sealed B s i w) (p : String) :
    Sealed B { s with fs := s.fs.unlink p } i w :=
  ⟨h.created, fun nonce hn => h.untemp nonce (FileStore.names_of_unlink hn).2, h.writer,
    h.lossless, h.content⟩

/-- A sealed file that loses its tail stays a prefix. -/
theorem Sealed.reclaim {s : Shared} {i j : Handle} {w : Put} {fs' : Dfs} {m : ℕ}
    (h : Sealed B s i w) (hst : Dfs.reclaim s.fs j m = some fs') :
    Sealed B { s with fs := fs' } i w := by
  obtain ⟨-, rfl⟩ := Dfs.reclaim_eq_some.mp hst
  refine ⟨by simpa using h.created, by simpa using h.untemp, h.writer, h.lossless, ?_⟩
  by_cases hij : i = j
  · subst hij
    obtain ⟨pg, rest, hpg, hpre⟩ := h.content
    refine ⟨pg, rest, hpg, ?_⟩
    rw [FileStore.setFile_files_self h.created]
    exact (List.take_prefix m _).trans hpre
  · rw [FileStore.setFile_files_ne _ hij]
    exact h.content

/-! ## Steps -/

/-- A writer touches its temporary name and the final one only. -/
theorem putMove_same {s s' : Shared} {w : Put} {pc pc' : PutPc} (hw : WriterOk B s w pc)
    (hst : PutMove B s w pc s' pc') {p : String} (htmp : p ≠ tmp B w) (hfinal : p ≠ B.final) :
    FileStore.SameAt s.fs s'.fs p := by
  cases hst with
  | quiet hfs _ =>
      rw [hfs]
      exact .refl _ p
  | openTmp | openBad => exact FileStore.sameAt_openCreate _ htmp
  | landPage => exact FileStore.sameAt_setFile hw.1.named htmp _
  | landPageLate => exact FileStore.sameAt_setFile hw.1.named htmp _
  | landPayload => exact FileStore.sameAt_setFile hw.1.named htmp _
  | pageWritten | close => exact .refl _ p
  | publish hn => exact FileStore.sameAt_rename htmp hfinal

theorem putMove_writers {s s' : Shared} {w : Put} {pc pc' : PutPc}
    (hst : PutMove B s w pc s' pc') : ∀ v ∈ s.writers, v ∈ s'.writers := by
  intro v hv
  cases hst with
  | quiet _ hw =>
      rw [hw]
      exact hv
  | openTmp | openBad => exact List.mem_cons_of_mem _ hv
  | _ => exact hv

/-- What a writer knows holds as long as its own name is left alone. -/
theorem WriterOk.same {s s' : Shared} {w : Put} {pc : PutPc} (hw : WriterOk B s w pc)
    (hsame : FileStore.SameAt s.fs s'.fs (tmp B w)) (hwr : ∀ v ∈ s.writers, v ∈ s'.writers) :
    WriterOk B s' w pc := by
  have hheld : ∀ {h pg}, Held B s w h pg → Held B s' w h pg ∧ s'.fs.files h = s.fs.files h := by
    intro h pg hh
    exact ⟨⟨hsame.1.trans hh.named, hwr w hh.writer, hh.packed⟩, hsame.2 h hh.named⟩
  unfold WriterOk at *
  split at hw
  · rw [(hheld hw.1).2]
    exact ⟨(hheld hw.1).1, hw.2⟩
  · rw [(hheld hw.1).2]
    exact ⟨(hheld hw.1).1, hw.2⟩
  · obtain ⟨pg, hh, hpre⟩ := hw
    refine ⟨pg, (hheld hh).1, ?_⟩
    rw [(hheld hh).2]
    exact hpre
  · trivial

theorem FromWriter.mono {s s' : Shared} {bytes : Bytes} {m : ObjMeta} (h : FromWriter s bytes m)
    (hwr : ∀ v ∈ s.writers, v ∈ s'.writers) : FromWriter s' bytes m := by
  obtain ⟨w, hw, hb, hm⟩ := h
  exact ⟨w, hwr w hw, hb, hm⟩

/-- What a reader knows holds as long as sealed files stay sealed. -/
theorem ReaderOk.mono {s s' : Shared} {pc : GetPc} (hr : ReaderOk B s pc)
    (hsealed : ∀ i w, Sealed B s i w → Sealed B s' i w) (hwr : ∀ v ∈ s.writers, v ∈ s'.writers) :
    ReaderOk B s' pc := by
  unfold ReaderOk at *
  split at hr
  · obtain ⟨w, hw⟩ := hr
    exact ⟨w, hsealed _ w hw⟩
  · obtain ⟨w, hw, hhdr⟩ := hr
    exact ⟨w, hsealed _ w hw, hhdr⟩
  · obtain ⟨w, hw, hhdr, hm⟩ := hr
    exact ⟨w, hsealed _ w hw, hhdr, hm⟩
  · exact hr.mono hwr
  · exact hr.mono hwr
  · trivial

/-- A step of `_put_one` keeps what its writer knows, and what it publishes is
sealed. -/
theorem putMove_ok {s s' : Shared} {w : Put} {pc pc' : PutPc} (hfinal : FinalSealed B s)
    (hloss : Lossless B w) (hw : WriterOk B s w pc) (hst : PutMove B s w pc s' pc') :
    FinalSealed B s' ∧ WriterOk B s' w pc' := by
  have hkeep : ∀ i, s.fs.names B.final = some i → ∃ v, Sealed B s' i v := by
    intro i hi
    obtain ⟨v, hv⟩ := hfinal i hi
    exact ⟨v, hv.put hw hst⟩
  have hpage : ∀ {pg}, page w = .ok pg → pg.length = Serde.payloadOffset := by
    intro pg hpg
    exact Serde.length_packHeader hpg
  cases hst with
  | quiet hfs hwr hidle =>
      refine ⟨?_, ?_⟩
      · intro i hi
        exact hkeep i (hfs ▸ hi)
      · cases pc' <;> trivial
  | openTmp hpg =>
      rename_i pg
      refine ⟨?_, ⟨FileStore.openCreate_names_self .., List.mem_cons_self, hpg⟩, ?_⟩
      · intro i hi
        exact hkeep i (by rwa [FileStore.openCreate_names_ne _ (tmp_ne_final w).symm] at hi)
      · exact SparseFile.landed_chunksOf B.chunk_pos _ _ _
  | openBad =>
      refine ⟨?_, trivial⟩
      intro i hi
      exact hkeep i (by rwa [FileStore.openCreate_names_ne _ (tmp_ne_final w).symm] at hi)
  | landPage =>
      rename_i h pg pending k
      obtain ⟨hh, hland⟩ := hw
      refine ⟨fun i hi => hkeep i (by simpa [Dfs.landChunk] using hi),
        ⟨by simpa [Dfs.landChunk] using hh.named, hh.writer, hh.packed⟩, ?_⟩
      rw [Dfs.landChunk, FileStore.setFile_files_self (s.fs.names_lt _ _ hh.named)]
      exact SparseFile.landed_erase B.chunk_pos hland k
  | pageWritten =>
      exact ⟨hkeep, hw.1, hw.2, SparseFile.landed_chunksOf B.chunk_pos _ _ _⟩
  | landPageLate =>
      rename_i h pg pagePending pending k
      obtain ⟨hh, hpg, hpay⟩ := hw
      refine ⟨fun i hi => hkeep i (by simpa [Dfs.landChunk] using hi),
        ⟨by simpa [Dfs.landChunk] using hh.named, hh.writer, hh.packed⟩, ?_⟩
      rw [Dfs.landChunk, FileStore.setFile_files_self (s.fs.names_lt _ _ hh.named)]
      refine ⟨SparseFile.landed_erase B.chunk_pos hpg k, ?_⟩
      exact SparseFile.landed_of_disjoint B.chunk_pos hpay (.inr (by rw [hpage hh.packed]; omega)) k
  | landPayload =>
      rename_i h pg pagePending pending k
      obtain ⟨hh, hpg, hpay⟩ := hw
      refine ⟨fun i hi => hkeep i (by simpa [Dfs.landChunk] using hi),
        ⟨by simpa [Dfs.landChunk] using hh.named, hh.writer, hh.packed⟩, ?_⟩
      rw [Dfs.landChunk, FileStore.setFile_files_self (s.fs.names_lt _ _ hh.named)]
      refine ⟨?_, SparseFile.landed_erase B.chunk_pos hpay k⟩
      exact SparseFile.landed_of_disjoint B.chunk_pos hpg (.inl (by rw [hpage hh.packed]; omega)) k
  | close =>
      rename_i h pg
      obtain ⟨hh, hpg, hpay⟩ := hw
      rw [← hpage hh.packed] at hpay
      exact ⟨hkeep, pg, hh, SparseFile.append_prefix_of_landed hpg hpay⟩
  | publish hn =>
      rename_i h i
      obtain ⟨pg, hh, rest, hrest⟩ := hw
      obtain ⟨hnames, hfiles, hnext⟩ := FileStore.rename_of_some hn B.final
      obtain rfl : i = h := Option.some.inj (hn.symm.trans hh.named)
      refine ⟨?_, trivial⟩
      intro j hj
      -- the final name now leads to the writer's own file, which has no other name
      rw [hnames, Function.update_self, Option.some.injEq] at hj
      subst hj
      refine ⟨w, by rw [hnext]; exact s.fs.names_lt _ _ hn, ?_, hh.writer, hloss, pg, rest,
        hh.packed, ?_⟩
      · intro nonce hr
        have hold := FileStore.names_of_rename hn (Serde.tempPath_ne _ _) hr
        have heq : Serde.tempPath B.final nonce = tmp B w := s.fs.names_inj _ _ _ hold hn
        rw [heq, hnames, Function.update_of_ne (tmp_ne_final w), Function.update_self] at hr
        cases hr
      · rw [hfiles, hrest]

/-- What a reader parses out of a sealed file is the header of its writer. -/
theorem Sealed.parse {s : Shared} {i : Handle} {w : Put} {hdr : Serde.Header} (h : Sealed B s i w)
    (hparse : Serde.parseHeader (Dfs.readObj s.fs i 0 Serde.headerSize) true = .ok hdr) :
    hdr = headerOf w := by
  obtain ⟨pg, rest, hpg, hpre⟩ := h.content
  obtain ⟨hpack, zeros, rfl⟩ := page_eq_ok hpg
  have hread : Dfs.readObj s.fs i 0 Serde.headerSize <+:
      Serde.header (headerOf w) ++ (zeros ++ w.payload ++ rest) := by
    rw [← List.append_assoc, ← List.append_assoc]
    exact (List.take_prefix _ _).trans hpre
  exact Serde.parseHeader_prefix hpack rfl hread hparse

/-- A full payload read of a sealed file is the payload of its writer. -/
theorem Sealed.payload {s : Shared} {i : Handle} {w : Put} (h : Sealed B s i w)
    (hfull : (Dfs.readObj s.fs i Serde.payloadOffset w.payload.length).length = w.payload.length) :
    Dfs.readObj s.fs i Serde.payloadOffset w.payload.length = w.payload := by
  obtain ⟨pg, rest, hpg, hpre⟩ := h.content
  have hlen : Serde.payloadOffset = pg.length := (Serde.length_packHeader hpg).symm
  rw [Dfs.readObj, SparseFile.readAt_of_prefix hpre hfull, hlen]
  exact SparseFile.readAt_append_mid pg w.payload rest

theorem getStep_ok {s s' : Shared} {proc : ℕ} {pc pc' : GetPc} {a : Act}
    (hfinal : FinalSealed B s) (hr : ReaderOk B s pc)
    (hst : getStep B s proc pc a = some (s', pc')) :
    s'.fs = s.fs ∧ s'.writers = s.writers ∧ ReaderOk B s' pc' := by
  unfold getStep at hst
  split at hst
  · -- open
    unfold Dfs.openRdonly at hst
    cases hn : s.fs.names B.final with
    | some h =>
        simp only [hn] at hst
        cases hst
        exact ⟨rfl, rfl, hfinal h hn⟩
    | none =>
        simp only [hn] at hst
        cases hst
        exact ⟨rfl, rfl, trivial⟩
  · cases hst
    exact ⟨rfl, rfl, trivial⟩
  · -- header
    obtain ⟨w, hw⟩ := hr
    split at hst
    · rename_i hdr hparse
      cases hst
      exact ⟨rfl, rfl, w, hw, hw.parse hparse⟩
    · cases hst
      exact ⟨rfl, rfl, trivial⟩
  · -- metadata and allocation
    obtain ⟨w, hw, rfl⟩ := hr
    have hloss : B.metaUnpack (headerOf w).metadata = some (w.payload.length, w.metadata) :=
      hw.lossless
    simp only [hloss] at hst
    split at hst
    · cases hst
      exact ⟨rfl, rfl, w, hw, rfl, rfl⟩
    · cases hst
      exact ⟨rfl, rfl, trivial⟩
  · -- payload
    obtain ⟨w, hw, rfl, rfl⟩ := hr
    simp only at hst
    split at hst
    · rename_i hfull
      cases hst
      exact ⟨rfl, rfl, w, hw.writer, hw.payload hfull, rfl⟩
    · cases hst
      exact ⟨rfl, rfl, trivial⟩
  · cases hst
    exact ⟨rfl, rfl, hr⟩
  · cases hst
    exact ⟨rfl, rfl, trivial⟩
  · cases hst
    exact ⟨rfl, rfl, trivial⟩
  · cases hst
    exact ⟨rfl, rfl, trivial⟩
  · cases hst
    exact ⟨rfl, rfl, trivial⟩
  · cases hst

/-- `remove` at most takes the final name away. -/
theorem removeStep_cases {s s' : Shared} {proc : ℕ} {pc pc' : RemovePc} {a : Act}
    (hst : removeStep B s proc pc a = some (s', pc')) :
    s'.writers = s.writers ∧ (s'.fs = s.fs ∨ s'.fs = s.fs.unlink B.final) := by
  unfold removeStep at hst
  split at hst
  · cases hst
    exact ⟨rfl, .inl rfl⟩
  · cases hst
    refine ⟨rfl, ?_⟩
    unfold Dfs.remove
    split
    · exact .inr rfl
    · exact .inl rfl
  · cases hst
    exact ⟨rfl, .inl rfl⟩
  · cases hst

/-- What a step leaves alone: sealed files, the list of writers, and every
temporary name but the stepping writer's own. -/
structure Keeps (B : Backend) (s s' : Shared) (p : Proc) : Prop where
  isSealed : ∀ i w, Sealed B s i w → Sealed B s' i w
  writers : ∀ v ∈ s.writers, v ∈ s'.writers
  temp : ∀ v : Put, liveNonce p ≠ some v.nonce → FileStore.SameAt s.fs s'.fs (tmp B v)

theorem keeps_of_same {s s' : Shared} {p : Proc} (hfs : s'.fs = s.fs)
    (hw : s'.writers = s.writers) : Keeps B s s' p where
  isSealed := fun _ _ h => h.congr hfs hw
  writers := fun v hv => by rwa [hw]
  temp := fun v _ => by
    rw [hfs]
    exact .refl _ _

theorem step_keeps {s sh : Shared} {p p' : Proc} {a : Act} (hfinal : FinalSealed B s)
    (hp : ProcOk B s p) (hst : step B s p a = some (sh, p')) : Keeps B s sh p := by
  cases p with
  | put w pc =>
      obtain ⟨⟨t, pc'⟩, hput, h⟩ := Option.map_eq_some_iff.mp hst
      cases h
      have hmove := putStep_cases hput
      -- temporary names of live puts differ, and none is the final name
      refine ⟨fun i v hv => hv.put hp.2 hmove, putMove_writers hmove, ?_⟩
      intro v hne
      apply putMove_same hp.2 hmove
      · intro heq
        apply hne
        simp only [liveNonce, live_of_putStep hput, if_true, Option.some.injEq]
        exact (Serde.tempPath_inj heq).symm
      · -- its own file, which nobody else has
        exact tmp_ne_final v
  | get proc pc =>
      obtain ⟨⟨t, pc'⟩, hget, h⟩ := Option.map_eq_some_iff.mp hst
      cases h
      obtain ⟨hfs, hw, -⟩ := getStep_ok hfinal hp hget
      exact keeps_of_same hfs hw
  | remove proc pc =>
      obtain ⟨⟨t, pc'⟩, hrem, h⟩ := Option.map_eq_some_iff.mp hst
      cases h
      -- the unlink takes the final name, never a temporary one
      obtain ⟨hw, hfs | hfs⟩ := removeStep_cases hrem
      · exact keeps_of_same hfs hw
      · refine ⟨fun i v hv => (hv.unlink B.final).congr hfs hw, fun v hv => by rwa [hw], ?_⟩
        intro v _
        rw [hfs]
        exact FileStore.sameAt_unlink _ (tmp_ne_final v)
  | contains proc pc =>
      obtain ⟨⟨t, pc'⟩, hc, h⟩ := Option.map_eq_some_iff.mp hst
      cases h
      obtain ⟨hfs, hw⟩ := containsStep_frame hc
      exact keeps_of_same hfs hw

theorem own_step {s sh : Shared} {p p' : Proc} {a : Act} (hfinal : FinalSealed B s)
    (hp : ProcOk B s p) (hst : step B s p a = some (sh, p')) :
    FinalSealed B sh ∧ ProcOk B sh p' := by
  have hkeeps := step_keeps hfinal hp hst
  -- without a change of the final name its file stays sealed
  have hsame : sh.fs.names B.final = s.fs.names B.final → FinalSealed B sh := by
    intro hn i hi
    obtain ⟨w, hw⟩ := hfinal i (hn ▸ hi)
    exact ⟨w, hkeeps.isSealed i w hw⟩
  cases p with
  -- a put gives the final name to a sealed file
  | put w pc =>
      obtain ⟨⟨t, pc'⟩, hput, h⟩ := Option.map_eq_some_iff.mp hst
      cases h
      obtain ⟨hf, hw⟩ := putMove_ok hfinal hp.1 hp.2 (putStep_cases hput)
      exact ⟨hf, hp.1, hw⟩
  | get proc pc =>
      obtain ⟨⟨t, pc'⟩, hget, h⟩ := Option.map_eq_some_iff.mp hst
      cases h
      obtain ⟨hfs, -, hr⟩ := getStep_ok hfinal hp hget
      exact ⟨hsame (by rw [hfs]), hr⟩
  | remove proc pc =>
      obtain ⟨⟨t, pc'⟩, hrem, h⟩ := Option.map_eq_some_iff.mp hst
      cases h
      refine ⟨?_, trivial⟩
      obtain ⟨-, hfs | hfs⟩ := removeStep_cases hrem
      · exact hsame (by rw [hfs])
      · -- after the unlink there is no final file to be sealed
        intro i hi
        rw [hfs, FileStore.unlink_names_self] at hi
        cases hi
  | contains proc pc =>
      obtain ⟨⟨t, pc'⟩, hc, h⟩ := Option.map_eq_some_iff.mp hst
      cases h
      exact ⟨hsame (by rw [(containsStep_frame hc).1]), trivial⟩

/-- A thread keeps what it knows while others step. -/
theorem ProcOk.keeps {s sh : Shared} {p q : Proc} (hq : ProcOk B s q) (hkeeps : Keeps B s sh p)
    (hpq : Apart p q) : ProcOk B sh q := by
  cases q with
  | put v pc =>
      refine ⟨hq.1, ?_⟩
      by_cases hlive : live pc = true
      · refine hq.2.same (hkeeps.temp v ?_) hkeeps.writers
        intro hp
        exact hpq v.nonce hp (by simp [liveNonce, hlive])
      · cases pc with
        | done => trivial
        | dead => trivial
        | _ => exact absurd rfl hlive
  | get proc pc => exact ReaderOk.mono hq hkeeps.isSealed hkeeps.writers
  | remove | contains => trivial

/-- A step brings no new nonce into play. -/
theorem liveNonce_of_step {s sh : Shared} {p p' : Proc} {a : Act} {n : String}
    (hst : step B s p a = some (sh, p')) (hn : liveNonce p' = some n) : liveNonce p = some n := by
  cases p with
  | put w pc =>
      obtain ⟨⟨t, pc'⟩, hput, h⟩ := Option.map_eq_some_iff.mp hst
      cases h
      have hlive := live_of_putStep hput
      simp only [liveNonce] at hn ⊢
      split at hn
      · rwa [if_pos hlive]
      · cases hn
  | get | remove | contains =>
      obtain ⟨⟨t, pc'⟩, -, h⟩ := Option.map_eq_some_iff.mp hst
      cases h
      cases hn

theorem env_step {s s' : Shared} {e : Env} (hfinal : FinalSealed B s)
    (hst : envStep s e = some s') :
    FinalSealed B s' ∧ ∀ q, ProcOk B s q → ProcOk B s' q := by
  cases e with
  | reclaim h m =>
      obtain ⟨fs', hfs, rfl⟩ := Option.map_eq_some_iff.mp hst
      have hkeeps : ∀ p, Keeps B s { s with fs := fs' } p := by
        intro p
        refine ⟨fun i w hw => hw.reclaim hfs, fun _ hv => hv, ?_⟩
        intro v _
        obtain ⟨hun, rfl⟩ := Dfs.reclaim_eq_some.mp hfs
        exact FileStore.sameAt_setFile_unlinked hun _ _
      have hnames : fs'.names = s.fs.names := by
        obtain ⟨-, rfl⟩ := Dfs.reclaim_eq_some.mp hfs
        exact FileStore.setFile_names ..
      constructor
      · intro i hi
        obtain ⟨w, hw⟩ := hfinal i (hnames ▸ hi)
        exact ⟨w, hw.reclaim hfs⟩
      · intro q hq
        -- the storage is no writer, so it is apart from every thread
        exact hq.keeps (hkeeps (.contains 0 .check)) fun n hn => by cases hn

/-- In every run in which writers at work have different nonces, an object that
`get_blocking` returns has the complete payload of one writer and that writer's
metadata. That the metadata of a writer comes back through `_meta_unpack` as it
went into `_meta_pack` is assumed of every writer (`Lossless`). -/
theorem get_returns_one_writers_object (B : Backend) {s : St}
    (h : (machine B).ReachableVia (Admissible B) s) {proc : ℕ} {bytes : Bytes} {m : ObjMeta}
    (hgot : .get proc (.got (.obj bytes m)) ∈ s.threads) :
    ∃ w ∈ s.shared.writers, bytes = w.payload ∧ m = w.metadata := by
  -- sealed final files, by the discipline on temporary names
  obtain ⟨-, hprocs, -⟩ := Threads.safety (T := threads B) (I := FinalSealed B) (J := ProcOk B)
    (E := Apart) (fun _ _ h => h.symm)
    (fun s hs => by
      intro i hi
      rw [show s = initialShared from hs] at hi
      cases hi)
    -- a put enters with a fresh nonce and bytes that read back
    (fun s c _ _ hok => by
      cases c with
      | put w =>
          obtain ⟨hloss, hfresh⟩ := hok w rfl
          refine ⟨⟨hloss, trivial⟩, ?_⟩
          intro q hq n hn hqn
          cases hn
          exact hfresh q hq hqn
      | get | remove | contains =>
          refine ⟨trivial, ?_⟩
          intro q _ n hn
          cases hn)
    (fun s i a p sh p' hf hp _ _ hst => own_step hf hp hst)
    -- another process's step leaves this one's file as it is
    (fun s i a p sh p' q hf hp _ _ hst _ hq hpq =>
      ⟨hq.keeps (step_keeps hf hp hst) hpq, fun n hn => hpq n (liveNonce_of_step hst hn)⟩)
    (fun s e sh hf _ hst => env_step hf hst) h
  exact hprocs _ hgot

/-! ## A put and then a get -/

section PutGet

variable {w : Put} {pg : Bytes}

/-- A write that lies inside the first storage chunk is one chunk. -/
theorem chunksOf_first {cs off n : ℕ} (hn : 0 < n) (hcs : off + n ≤ cs) :
    SparseFile.chunksOf cs off n = [0] := by
  unfold SparseFile.chunksOf
  rw [if_neg (by omega), Nat.div_eq_of_lt (by omega), Nat.div_eq_of_lt (by omega)]
  rfl

theorem landChunk_first {cs off : ℕ} {f bs : Bytes} (hoff : off = f.length)
    (hcs : off + bs.length ≤ cs) : SparseFile.landChunk 0 cs f off bs 0 = f ++ bs := by
  subst hoff
  rw [SparseFile.landChunk, SparseFile.chunkPiece]
  simp only [Nat.zero_mul, Nat.zero_sub, List.drop_zero, Nat.zero_add, Nat.one_mul, Nat.max_zero]
  rw [List.take_of_length_le (by omega)]
  cases bs with
  | nil => simp [SparseFile.writeAt]
  | cons b bs => simp [SparseFile.writeAt]

/-- The files after a put of a fresh key: its own file, under the final name. -/
structure Stored (B : Backend) (w : Put) (pg : Bytes) (fs : Dfs) (h : Handle) : Prop where
  named : fs.names B.final = some h
  content : fs.files h = pg ++ w.payload

variable {fs : Dfs} {h : Handle} {known : List ℕ} {writers : List Put} {ps : List Proc}

/-- Nothing is asked of a step that spawns no writer. -/
theorem next_reached {sh sh' : Shared} {t t' : Proc} {a : Act}
    (hs : (machine B).ReachableVia (Admissible B) ⟨sh, ps ++ [t]⟩)
    (hst : step B sh t a = some (sh', t')) :
    (machine B).ReachableVia (Admissible B) ⟨sh', ps ++ [t']⟩ :=
  .step hs (fun _ hv => by cases hv) (Threads.step_last hst)

/-- A writer among others that finds the key nowhere opens its temporary file. -/
theorem put_opens (hs : (machine B).ReachableVia (Admissible B) ⟨⟨fs, known, writers⟩, ps⟩)
    (hknown : w.proc ∉ known) (hfinal : fs.names B.final = none)
    (hapart : ∀ t ∈ ps, liveNonce t ≠ some w.nonce) (hloss : Lossless B w)
    (hpage : page w = .ok pg) :
    (machine B).ReachableVia (Admissible B)
      ⟨⟨(fs.openCreate (tmp B w)).1, known, w :: writers⟩, ps ++ [.put w (.header
        (fs.openCreate (tmp B w)).2 pg (SparseFile.chunksOf B.chunkSize 0 pg.length))]⟩ := by
  -- the put starts: its nonce is no live put's
  have h₀ : (machine B).ReachableVia (Admissible B)
      ⟨⟨fs, known, writers⟩, ps ++ [.put w (.contains .check)]⟩ :=
    .step (a := .spawn (.put w)) hs
      (by
        intro v hv
        cases hv
        exact ⟨hloss, hapart⟩) rfl
  -- the key is not in `_known`, and the final file is not there
  have h₁ : (machine B).ReachableVia (Admissible B)
      ⟨⟨fs, known, writers⟩, ps ++ [.put w (.contains .stat)]⟩ :=
    next_reached h₀ (a := .next) (by simp [step, putStep, containsStep, hknown])
  have h₂ : (machine B).ReachableVia (Admissible B)
      ⟨⟨fs, known, writers⟩, ps ++ [.put w (.contains (.answer false))]⟩ :=
    next_reached h₁ (a := .next) (by
      simp [step, putStep, containsStep, Dfs.statSize, FileStore.size, hfinal])
  have h₃ : (machine B).ReachableVia (Admissible B)
      ⟨⟨fs, known, writers⟩, ps ++ [.put w .openTmp]⟩ := next_reached h₂ (a := .next) rfl
  -- the page packs, so the put goes on to write it
  refine next_reached h₃ (a := .next) ?_
  simp only [step, putStep, hpage, Option.map_some]
  rfl

/-- With room for the object in one storage chunk, its writer fills the empty
temporary file with it. -/
theorem put_writes (hs : (machine B).ReachableVia (Admissible B) ⟨⟨fs, known, writers⟩,
      ps ++ [.put w (.header h pg (SparseFile.chunksOf B.chunkSize 0 pg.length))]⟩)
    (hnamed : fs.names (tmp B w) = some h) (hempty : fs.files h = [])
    (hpage : page w = .ok pg) (hne : 0 < w.payload.length)
    (hcs : Serde.headerSize + w.payload.length ≤ B.chunkSize) :
    ∃ fs' : Dfs, fs'.names = fs.names ∧ fs'.files h = pg ++ w.payload ∧
      (machine B).ReachableVia (Admissible B)
        ⟨⟨fs', known, writers⟩, ps ++ [.put w (.publish h)]⟩ := by
  have hlen := Serde.length_packHeader hpage
  have hgen := fs.names_lt _ _ hnamed
  have hpending : SparseFile.chunksOf B.chunkSize Serde.payloadOffset w.payload.length = [0] :=
    chunksOf_first hne hcs
  rw [chunksOf_first (by rw [hlen]; decide) (by omega)] at hs
  -- both writes, one chunk each
  have h₁ := next_reached (next_reached hs (a := .landPage 0) rfl) (a := .next) rfl
  rw [hpending] at h₁
  have h₂ := next_reached (next_reached h₁ (a := .landPayload 0) rfl) (a := .next) rfl
  refine ⟨_, ?_, ?_, h₂⟩
  · simp [Dfs.landChunk]
  · have hpage₁ : SparseFile.landChunk 0 B.chunkSize [] 0 pg 0 = pg :=
      landChunk_first (f := []) rfl (by rw [hlen]; omega)
    rw [Dfs.landChunk, FileStore.setFile_files_self (by simpa [Dfs.landChunk] using hgen),
      Dfs.landChunk, FileStore.setFile_files_self hgen, hempty, hpage₁]
    exact landChunk_first hlen.symm hcs

/-- The rename leaves the object under the final name. -/
theorem put_publishes (hs : (machine B).ReachableVia (Admissible B)
      ⟨⟨fs, known, writers⟩, ps ++ [.put w (.publish h)]⟩)
    (hnamed : fs.names (tmp B w) = some h) (hcontent : fs.files h = pg ++ w.payload) :
    ∃ fs' : Dfs, Stored B w pg fs' h ∧ (machine B).ReachableVia (Admissible B)
      ⟨⟨fs', known, writers⟩, ps ++ [.put w .note]⟩ := by
  obtain ⟨hnames, hfiles, -⟩ := FileStore.rename_of_some hnamed B.final
  refine ⟨fs.rename (tmp B w) B.final, ⟨?_, ?_⟩, next_reached hs (a := .next) ?_⟩
  · rw [hnames, Function.update_self]
  · rw [hfiles, hcontent]
  · simp only [step, putStep, hnamed, Option.map_some]

/-- A get of a stored object returns it. -/
theorem get_of_stored (hfs : Stored B w pg fs h) (hpage : page w = .ok pg)
    (hloss : Lossless B w) (hsize : B.objSize w.metadata = w.payload.length) (proc : ℕ)
    (hs : (machine B).ReachableVia (Admissible B) ⟨⟨fs, known, writers⟩, ps⟩) :
    ∃ s, (machine B).ReachableVia (Admissible B) s ∧
      s.threads = ps ++ [.get proc (.got (.obj w.payload w.metadata))] := by
  obtain ⟨hpack, zeros, hpg⟩ := page_eq_ok hpage
  have hlen := Serde.length_packHeader hpage
  -- one step of the new thread
  have hnext : ∀ (sh : Shared) {pc : GetPc} (pc' : GetPc),
      (machine B).ReachableVia (Admissible B) ⟨⟨fs, known, writers⟩, ps ++ [.get proc pc]⟩ →
      getStep B ⟨fs, known, writers⟩ proc pc .next = some (sh, pc') →
      (machine B).ReachableVia (Admissible B) ⟨sh, ps ++ [.get proc pc']⟩ := by
    intro sh pc pc' hr hst
    refine next_reached hr (a := .next) ?_
    show (getStep B _ proc pc .next).map _ = _
    rw [hst]
    rfl
  have h₀ : (machine B).ReachableVia (Admissible B)
      ⟨⟨fs, known, writers⟩, ps ++ [.get proc .openRdonly]⟩ :=
    .step (a := .spawn (.get proc)) hs (fun _ hv => by cases hv) rfl
  have h₁ := hnext ⟨fs, known, writers⟩ (.header h) h₀ (by
    simp only [getStep, Dfs.openRdonly, hfs.named])
  have h₂ := hnext ⟨fs, known, writers⟩ (.alloc h (headerOf w)) h₁ (by
    have hread : Dfs.readObj fs h 0 Serde.headerSize = Serde.header (headerOf w) ++ zeros := by
      rw [Dfs.readObj, hfs.content, SparseFile.readAt, List.drop_zero, ← hpg, ← hlen,
        List.take_left]
    simp only [getStep, hread, Serde.parseHeader_header hpack zeros (fun _ => rfl)])
  have h₃ := hnext ⟨fs, known, writers⟩ (.payload h (headerOf w) w.metadata) h₂ (by
    have hunpack : B.metaUnpack (headerOf w).metadata = some (w.payload.length, w.metadata) := hloss
    simp only [getStep, hunpack]
    exact if_pos hsize.symm)
  have h₄ := hnext ⟨fs, known, writers⟩ (.note w.payload w.metadata) h₃ (by
    have hread : Dfs.readObj fs h Serde.payloadOffset (headerOf w).payloadLen = w.payload := by
      have hmid := SparseFile.readAt_append_mid pg w.payload []
      rw [hlen, List.append_nil] at hmid
      rw [Dfs.readObj, hfs.content]
      exact hmid
    simp only [getStep, hread]
    rw [if_pos (show w.payload.length = (headerOf w).payloadLen from rfl)])
  exact ⟨_, hnext _ (.got (.obj w.payload w.metadata)) h₄ rfl, rfl⟩

end PutGet

/-- One byte of one tensor. -/
def aMeta : ObjMeta := ⟨[[1]], ["uint8"], 1⟩

/-- A backend whose codec knows `aMeta`. -/
def aBackend : Backend where
  final := "/v2/00ff"
  chunkSize := 1048576
  chunk_pos := Nat.zero_lt_succ _
  metaUnpack bs := if bs = metaPack 1 aMeta then some (1, aMeta) else none
  objSize _ := 1

def aPut : Put := ⟨1, [9], aMeta, "1a2b3c4d"⟩

/-- Another process that stores the same key at the same time. -/
def otherPut : Put := ⟨3, [8], aMeta, "9c8d7e6f"⟩

/-- Two writers are at work; one dies with its temporary file open, after the
other has moved its own onto the final name. A reader gets the object of the
other one. -/
theorem published_object_read : ∃ s, (machine aBackend).ReachableVia (Admissible aBackend) s ∧
    .put otherPut .dead ∈ s.threads ∧ .get 2 (.got (.obj [9] aMeta)) ∈ s.threads ∧
    ∃ w ∈ s.shared.writers, [9] = w.payload ∧ aMeta = w.metadata := by
  obtain ⟨pg, hpage⟩ : ∃ pg, page aPut = .ok pg := ⟨_, rfl⟩
  obtain ⟨pg', hpage'⟩ : ∃ pg, page otherPut = .ok pg := ⟨_, rfl⟩
  -- the first writer stops in its page
  have hs₁ := put_opens (B := aBackend) (.init (init_initial aBackend)) (by simp) rfl (by simp)
    (w := otherPut) (by decide) hpage'
  obtain ⟨fs₁, hfs₁⟩ : ∃ fs : Dfs, fs = (FileStore.openCreate .empty (tmp aBackend otherPut)).1 :=
    ⟨_, rfl⟩
  rw [← hfs₁] at hs₁
  have hfresh : ∀ p, p ≠ tmp aBackend otherPut → fs₁.names p = none := by
    intro p hp
    rw [hfs₁, FileStore.openCreate_names_ne _ hp]
    rfl
  -- the second one stores the object
  have hs₂ := put_opens hs₁ (w := aPut) (by simp) (hfresh _ (tmp_ne_final otherPut).symm)
    (by simp [liveNonce, live]; decide) (by decide) hpage
  obtain ⟨fs₂, hnames, hcontent, hs₃⟩ := put_writes hs₂ (FileStore.openCreate_names_self _ _)
    (by rw [FileStore.openCreate_files, hfs₁, FileStore.openCreate_files]; rfl)
    hpage (by decide) (by decide)
  obtain ⟨fs₃, hfs₃, hs₄⟩ := put_publishes hs₃
    (by rw [hnames, FileStore.openCreate_names_self]) hcontent
  have hs₅ := Machine.ReachableVia.step (a := .act 0 .die) hs₄ (fun _ hv => by cases hv) rfl
  obtain ⟨s, hs, hthreads⟩ := get_of_stored hfs₃ hpage (by decide) rfl 2 hs₅
  have hgot : .get 2 (.got (.obj [9] aMeta)) ∈ s.threads := by
    rw [hthreads]
    exact List.mem_append_right _ (List.mem_singleton_self _)
  refine ⟨s, hs, ?_, hgot, get_returns_one_writers_object aBackend hs hgot⟩
  rw [hthreads]
  exact List.mem_append_left _ List.mem_cons_self

end LmcacheDaos.Gds
