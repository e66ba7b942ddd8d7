import LmcacheDaos.Connector.Sequential
import LmcacheDaos.Lib.Handles

/-!
# The files that the connector has open

The calls that `_run` hands to the pool (`connector.py`), any number of them at a
time, each call of theirs answered by whatever DAOS answers. A file that one of them
opens is closed by it once, on every path out of `_put_sync` and `_get_sync`: after
it raised, after a short read, when there is no buffer. So no read, write or close
is made on a handle that is closed, and no more files are open than calls are under
way (`calls_close_their_files`).
-/

namespace LmcacheDaos.Connector.Handles

open Lib

variable {τ : Type}

/-- What the coroutines of the connector give to `_run`. -/
inductive PoolCall (τ : Type) where
  /-- `_put_sync` -/
  | put (a : Addr) (w : Prepped)
  /-- `_put_raw_folded` -/
  | putFolded (dkey : Dkey) (entries : List (ℕ × Prepped))
  /-- `_get_sync` -/
  | get (a : Addr)
  /-- `_get_raw_folded` -/
  | getFolded (dkey : Dkey) (layers : List ℕ)
  /-- `_exists_sync` -/
  | exist (a : Addr)
  /-- `_remove_one` -/
  | remove (a : Addr)

/-- The calls of one of them, with the answers they had. -/
def PoolCall.Makes (C : Codec τ) (t : List (Event (Op τ) Ans)) : PoolCall τ → Prop
  | .put a w => ∃ r, (putSync a w).Runs t r
  | .putFolded dkey entries => ∃ r, (putRawFolded dkey entries).Runs t r
  | .get a => ∃ r, (getSync C a).Runs t r
  | .getFolded dkey layers => ∃ r, (getRawFolded C dkey layers).Runs t r
  | .exist a => ∃ r, (existsSync a).Runs t r
  | .remove a => ∃ r, (removeOne a).Runs t r

/-- What a call does with file handles. An open that raises opens nothing. -/
def touch : Event (Op τ) Ans → Touch Handle
  | ⟨.openRdonly _, .ok h⟩ => .opens h
  | ⟨.openRdwrCreate _, .ok h⟩ => .opens h
  | ⟨.readObj h .., _⟩ => .uses [h]
  | ⟨.readObjInto h .., _⟩ => .uses [h]
  | ⟨.writeObjFrom h .., _⟩ => .uses [h]
  | ⟨.closeObj h, _⟩ => .closes h
  | _ => .uses []

/-- A call that opens and closes no file, on no other file than `open?`. -/
def On (open? : Option Handle) : Op τ → Prop
  | .openRdonly _ | .openRdwrCreate _ | .closeObj _ => False
  | .readObj h .. | .readObjInto h .. | .writeObjFrom h .. => open? = some h
  | .pathExists _ | .remove _ | .fetch .. | .update .. | .punch _ | .punchAkeys .. | .allocate _
  | .release _ => True

/-- Calls that are made on one open file use that file only. -/
theorem touch_of_on {open? : Option Handle} {e : Event (Op τ) Ans} (h : On open? e.op) :
    ∃ hs, touch e = .uses hs ∧ ∀ x ∈ hs, open? = some x := by
  obtain ⟨o, ans⟩ := e
  cases o with
  | openRdonly path => exact absurd h id
  | openRdwrCreate path => exact absurd h id
  | closeObj x => exact absurd h id
  | readObj x offset length => exact ⟨[x], rfl, List.forall_mem_singleton.mpr h⟩
  | readObjInto x offset length cap => exact ⟨[x], rfl, List.forall_mem_singleton.mpr h⟩
  | writeObjFrom x offset src => exact ⟨[x], rfl, List.forall_mem_singleton.mpr h⟩
  | _ => exact ⟨[], rfl, by simp⟩

/-! ## The bodies between an open and a close -/

section Bodies

variable {α β : Type} {open? : Option Handle}

/-- Computing without calls uses no file. -/
theorem on_ofExcept {x : Except Serde.PackError α} {f : α → Io τ β}
    (h : ∀ a, (f a).OnlyCalls (On open?)) : (Io.ofExcept x f).OnlyCalls (On open?) := by
  cases x with
  | error e => trivial
  | ok a => exact h a

/-- Two programs on one file are one. -/
theorem on_andThen {p : Io τ α} {f : α → Io τ β} (hp : p.OnlyCalls (On open?))
    (h : ∀ a, (f a).OnlyCalls (On open?)) : (p.andThen f).OnlyCalls (On open?) := by
  apply hp.bind
  intro r
  cases r with
  | error e => trivial
  | ok a => exact h a

/-- Both writes of a commit are calls of the object API and use no file. -/
theorem on_commit (dkey : Dkey) (payloads metas : List (Akey × Bytes)) :
    (commit dkey payloads metas : Io τ Unit).OnlyCalls (On open?) := by
  refine ⟨trivial, ?_⟩
  intro ans
  cases ans with
  | error e => trivial
  | ok _ => exact ⟨trivial, fun _ => trivial⟩

/-- `_put_raw` uses no file. -/
theorem on_putRaw (a : RawAddr) (w : Prepped) :
    (putRaw a w : Io τ Unit).OnlyCalls (On open?) :=
  on_ofExcept fun _ => on_commit ..

/-- `_put_raw_folded` uses none either. -/
theorem on_putRawFolded (dkey : Dkey) (entries : List (ℕ × Prepped)) :
    (putRawFolded dkey entries : Io τ Unit).OnlyCalls (On open?) :=
  on_ofExcept fun _ => on_commit ..

/-- `_get_raw` uses no file. -/
theorem on_getRaw (C : Codec τ) (a : RawAddr) : (getRaw C a).OnlyCalls (On open?) := by
  refine (within_getRaw C a).mono fun o ho => ?_
  cases o <;> trivial

/-- Staging allocates buffers and uses no file. -/
theorem on_stage (C : Codec τ) (entries : List (ℕ × ℕ × Bytes)) :
    (stage C entries).OnlyCalls (On open?) := by
  induction entries with
  | nil => trivial
  | cons e rest ih =>
      rw [stage]
      split
      · exact ih
      · refine ⟨trivial, ?_⟩
        intro mo
        cases mo with
        | none => exact ih
        | some mo =>
            dsimp only
            split
            · trivial
            · exact on_ofExcept fun pak => on_andThen ih fun _ => trivial

/-- Collecting fills or releases buffers and uses no file. -/
theorem on_collect (entries : List (Staged τ × Bytes)) (out : List (Option (MemoryObj τ))) :
    (collect entries out).OnlyCalls (On open?) := by
  induction entries generalizing out with
  | nil => trivial
  | cons e rest ih =>
      rw [collect]
      split
      · exact ⟨trivial, fun _ => ih _⟩
      · exact ih _

/-- Releasing buffers in front of a program adds no use of a file. -/
theorem on_releaseAll (mos : List (MemoryObj τ)) {p : Io τ α} (hp : p.OnlyCalls (On open?)) :
    (releaseAll mos p).OnlyCalls (On open?) := by
  induction mos with
  | nil => exact hp
  | cons mo rest ih => exact ⟨trivial, fun _ => ih⟩

/-- `_get_raw_folded` uses no file. -/
theorem on_getRawFolded (C : Codec τ) (dkey : Dkey) (layers : List ℕ) :
    (getRawFolded C dkey layers).OnlyCalls (On open?) := by
  apply on_ofExcept
  intro maks
  refine ⟨trivial, ?_⟩
  intro got
  cases got with
  | error e => trivial
  | ok got =>
      apply on_andThen (on_stage C _)
      intro staged
      split
      · trivial
      · refine ⟨trivial, ?_⟩
        intro readn
        cases readn with
        | error e => exact on_releaseAll _ trivial
        | ok readn => exact on_collect _ _

/-- The payload is read from the file that was opened. -/
theorem on_readPayload (C : Codec τ) (h : Handle) (metaLen payloadLen : ℕ) (metaBytes : Bytes) :
    (readPayload C h metaLen payloadLen metaBytes).OnlyCalls (On (some h)) := by
  unfold readPayload
  split
  · trivial
  · split
    · trivial
    · split
      · trivial
      · refine ⟨trivial, ?_⟩
        intro mo
        cases mo with
        | none => trivial
        | some mo =>
            dsimp only
            split
            · trivial
            · refine ⟨rfl, ?_⟩
              intro got
              cases got with
              | error e => trivial
              | ok got =>
                  dsimp only
                  split
                  · exact ⟨trivial, fun _ => trivial⟩
                  · trivial

/-- Everything behind the open is done on that file. -/
theorem on_readOpen (C : Codec τ) (h : Handle) : (readOpen C h).OnlyCalls (On (some h)) := by
  refine ⟨rfl, ?_⟩
  intro hdr
  cases hdr with
  | error e => trivial
  | ok hdr =>
      dsimp only
      split
      · trivial
      · apply on_ofExcept
        rintro ⟨metaLen, payloadLen⟩
        dsimp only
        split
        · exact on_readPayload ..
        · refine ⟨rfl, ?_⟩
          intro metaBytes
          cases metaBytes with
          | error e => trivial
          | ok metaBytes => exact on_readPayload ..

/-- A lookup opens nothing that it leaves open. -/
theorem on_existsSync (a : Addr) : (existsSync a : Io τ Bool).OnlyCalls (On open?) := by
  cases a with
  | path p => exact ⟨trivial, fun _ => trivial⟩
  | raw a =>
      apply on_ofExcept
      rintro ⟨pak, mak⟩
      refine ⟨trivial, ?_⟩
      intro got
      cases got <;> trivial

/-- Nor does a removal. -/
theorem on_removeOne (a : Addr) : (removeOne a : Io τ Bool).OnlyCalls (On open?) := by
  rcases a with p | ⟨dkey, _ | layer⟩
  · exact ⟨trivial, fun _ => trivial⟩
  · exact ⟨trivial, fun _ => trivial⟩
  · apply on_ofExcept
    rintro ⟨pak, mak⟩
    exact ⟨trivial, fun _ => trivial⟩

end Bodies

/-! ## What each of them has open -/

section Takes

variable {α : Type}

/-- With the open file or none, and no other call on files. -/
theorem takes_on {open? : Option Handle} {p : Program (Op τ) Ans α} (h : p.OnlyCalls (On open?))
    {held : Multiset Handle} (hheld : ∀ x, open? = some x → x ∈ held) (hcard : held.card ≤ 1) :
    p.Takes touch 1 held held := by
  refine h.takes hcard ?_
  intro e he
  obtain ⟨hs, htouch, hmem⟩ := touch_of_on he
  exact ⟨hs, htouch, fun x hx => hheld x (hmem x hx)⟩

/-- A program that uses no file takes none. -/
theorem takes_plain {p : Program (Op τ) Ans α} (h : p.OnlyCalls (On none)) :
    p.Takes touch 1 0 0 :=
  takes_on h (by simp) (by simp)

/-- `try: ... finally: close_obj(obj)` -/
theorem takes_withClose {h : Handle} {p : Io τ α} (hp : p.OnlyCalls (On (some h))) :
    (withClose h p).Takes touch 1 (h ::ₘ 0) 0 := by
  have hbody : p.Takes touch 1 (h ::ₘ 0) (h ::ₘ 0) := takes_on hp (by simp) (by simp)
  exact hbody.close (by simp) (fun _ => rfl) (fun _ _ => rfl) fun _ _ =>
    Program.takes_ret (by simp) _

/-- A get on DFS opens one file and closes it, on every path. -/
theorem takes_getDfs (C : Codec τ) (path : String) : (getDfs C path).Takes touch 1 0 0 := by
  refine Program.takes_call (by simp) ?_
  intro ans
  cases ans with
  | error e =>
      refine ⟨0, .uses (by simp), ?_⟩
      dsimp only
      split <;> exact Program.takes_ret (by simp) _
  | ok h => exact ⟨h ::ₘ 0, .opens 0 h, takes_withClose (on_readOpen C h)⟩

/-- So does a put. -/
theorem takes_putDfs (path : String) (w : Prepped) :
    (putDfs path w : Io τ Unit).Takes touch 1 0 0 := by
  refine Program.takes_call (by simp) ?_
  intro ans
  cases ans with
  | error e => exact ⟨0, .uses (by simp), Program.takes_ret (by simp) _⟩
  | ok h =>
      refine ⟨h ::ₘ 0, .opens 0 h, takes_withClose ⟨rfl, ?_⟩⟩
      intro wrote
      cases wrote with
      | error e => trivial
      | ok _ => exact ⟨rfl, fun _ => trivial⟩

end Takes

/-- Every call on the pool keeps the books of one file. -/
theorem PoolCall.Makes.ledger {C : Codec τ} {t : List (Event (Op τ) Ans)} {c : PoolCall τ}
    (h : c.Makes C t) : Ledger 1 0 (t.map touch) 0 := by
  cases c with
  | put a w =>
      obtain ⟨r, hr⟩ := h
      cases a with
      | path p => exact takes_putDfs p w t r hr
      | raw a => exact takes_plain (on_putRaw a w) t r hr
  | putFolded dkey entries =>
      obtain ⟨r, hr⟩ := h
      exact takes_plain (on_putRawFolded dkey entries) t r hr
  | get a =>
      obtain ⟨r, hr⟩ := h
      cases a with
      | path p => exact takes_getDfs C p t r hr
      | raw a => exact takes_plain (on_getRaw C a) t r hr
  | getFolded dkey layers =>
      obtain ⟨r, hr⟩ := h
      exact takes_plain (on_getRawFolded C dkey layers) t r hr
  | exist a =>
      obtain ⟨r, hr⟩ := h
      exact takes_plain (on_existsSync a) t r hr
  | remove a =>
      obtain ⟨r, hr⟩ := h
      exact takes_plain (on_removeOne a) t r hr

/-- **Every call closes the files it opens.** Of the calls that `_run` hands to the
pool, in any interleaving and with any answers: what is read, written or closed is
open then, there are never more files open than calls under way, and when all calls
have ended there is none. -/
theorem calls_close_their_files (C : Codec τ) {calls : List (PoolCall τ)}
    {us rest : List (List (Event (Op τ) Ans))} {t : List (Event (Op τ) Ans)}
    (hmakes : List.Forall₂ (fun c u => c.Makes C u) calls us) (h : Interleaving us t rest) :
    ∃ held : Multiset Handle, Ledger calls.length 0 (t.map touch) held ∧
      held.card ≤ rest.countP (· ≠ []) := by
  obtain ⟨held, hled, hcard⟩ := h.balanced hmakes fun _ _ hc => hc.ledger
  rw [Nat.one_mul] at hled hcard
  exact ⟨held, hled, hcard⟩

/-- A read that fails with its file open. -/
def failedGet : List (Event (Op (List ℕ)) Ans) :=
  [⟨.openRdonly "/a", .ok ⟨"/a", 0⟩⟩,
   ⟨.readObj ⟨"/a", 0⟩ 0 (Serde.prefixSize + hdrCap), .error ⟨5⟩⟩, ⟨.closeObj ⟨"/a", 0⟩, ()⟩]

/-- A write of two bytes behind a header of one. -/
def onePut : List (Event (Op (List ℕ)) Ans) :=
  [⟨.openRdwrCreate "/b", .ok ⟨"/b", 0⟩⟩, ⟨.writeObjFrom ⟨"/b", 0⟩ 0 [1], .ok ()⟩,
   ⟨.writeObjFrom ⟨"/b", 0⟩ 1 [2, 3], .ok ()⟩, ⟨.closeObj ⟨"/b", 0⟩, ()⟩]

/-- A get whose read fails, and which closes its file. -/
theorem failedGet_runs :
    (getSync fieldCodec (.path "/a")).Runs failedGet (.error (.daos ⟨5⟩)) :=
  .call _ (.call _ (.call _ (.ret _)))

/-- A put that goes through. -/
theorem onePut_runs :
    (putSync (.path "/b") ⟨[1], [2, 3]⟩ : Io (List ℕ) Unit).Runs onePut (.ok ()) :=
  .call _ (.call _ (.call _ (.call _ (.ret _))))

/-- The read begins and ends while the write is at its payload. -/
theorem interleaved_calls : Interleaving [failedGet, onePut]
    (onePut.take 2 ++ failedGet) [[], onePut.drop 2] :=
  .cons [failedGet] <| .cons [failedGet] <| .cons [] <| .cons [] <| .cons [] <| .nil _

/-- A put between its writes, beside a get that has failed. -/
theorem write_under_way_holds_its_file : ∃ held : Multiset Handle,
    Ledger 2 0 ((onePut.take 2 ++ failedGet).map touch) held ∧
      held.card ≤ [[], onePut.drop 2].countP (· ≠ []) := by
  have hget : (PoolCall.get (.path "/a")).Makes fieldCodec failedGet := ⟨_, failedGet_runs⟩
  have hput : (PoolCall.put (.path "/b") ⟨[1], [2, 3]⟩).Makes fieldCodec onePut :=
    ⟨_, onePut_runs⟩
  exact calls_close_their_files fieldCodec (.cons hget (.cons hput .nil)) interleaved_calls

end LmcacheDaos.Connector.Handles
