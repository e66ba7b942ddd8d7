import LmcacheDaos.Gds.Reads
import LmcacheDaos.Gds.Store
import LmcacheDaos.Lib.Handles

/-!
# The objects that the GDS backend has open

`_put_one`, `get_blocking` and `contains` (`gds_backend.py`) on the pool of the
backend, any number of them at a time, each call of theirs answered by whatever it is
answered. A file is open from `open_rdwr_create` or `open_rdonly` to `close_obj`, the
directory of a rename from `lookup` to `release`; neither outlives the call that opened
it, and a put has closed its file before it looks up the directory
(`calls_close_their_objects`).
-/

namespace LmcacheDaos.Gds.Handles

open Lib

variable {κ : Type}

/-- An open object: `dfs_sys_close` is for files, `dfs_release` for what was looked up. -/
inductive Obj where
  | file (h : ℕ)
  | dir (d : ℕ)
deriving DecidableEq, Repr

/-- A call of a put or of a read, with its answer. -/
inductive Made (κ : Type) where
  | store (e : Event (Store.Op κ) Store.Ans)
  | read (e : Event (Reads.Op κ) Reads.Ans)

/-- What runs on the pool. -/
inductive PoolCall (κ : Type) where
  /-- `_put_one` -/
  | put (j : Store.Job κ) (nonce : Store.Nonce)
  /-- `get_blocking` -/
  | get (key : κ)
  /-- `contains` -/
  | contain (key : κ)

/-- The calls of one of them, with the answers they had. -/
def PoolCall.Makes (S : Store.Container κ) (R : Reads.Reader κ) (t : List (Made κ)) :
    PoolCall κ → Prop
  | .put j nonce => ∃ u, t = u.map .store ∧ (Store.putOne S j nonce).Runs u ()
  | .get key => ∃ u r, t = u.map .read ∧ (Reads.getBlocking R key).Runs u r
  | .contain key => ∃ u r, t = u.map .store ∧ (Store.contains S key).Runs u r

def storeTouch : Event (Store.Op κ) Store.Ans → Touch Obj
  | ⟨.openRdwrCreate _, .ok h⟩ => .opens (.file h)
  | ⟨.writeObjFrom h .., _⟩ => .uses [.file h]
  | ⟨.writeGpuFrom h .., _⟩ => .uses [.file h]
  | ⟨.closeObj h, _⟩ => .closes (.file h)
  | ⟨.lookup _, .ok d⟩ => .opens (.dir d)
  | ⟨.move parent _ newParent _, _⟩ => .uses [.dir parent, .dir newParent]
  | ⟨.release d, _⟩ => .closes (.dir d)
  | _ => .uses []

def readTouch : Event (Reads.Op κ) Reads.Ans → Touch Obj
  | ⟨.openRdonly _, .ok h⟩ => .opens (.file h)
  | ⟨.readObj h .., _⟩ => .uses [.file h]
  | ⟨.readGpuInto h .., _⟩ => .uses [.file h]
  | ⟨.closeObj h, _⟩ => .closes (.file h)
  | _ => .uses []

/-- What a call does with open objects. -/
def touch : Made κ → Touch Obj
  | .store e => storeTouch e
  | .read e => readTouch e

/-! ## A put -/

section Put

variable (S : Store.Container κ) (j : Store.Job κ) (nonce : Store.Nonce)

/-- `contains` opens nothing that stays open. -/
theorem takes_contains (key : κ) : (Store.contains S key).Takes storeTouch 1 0 0 := by
  refine Program.takes_call_uses (by simp) (fun _ => rfl) (by simp) ?_
  intro ctx
  rcases ctx with err | _
  · exact Program.takes_ret (by simp) _
  refine Program.takes_call_uses (by simp) (fun _ => rfl) (by simp) ?_
  intro known
  cases known with
  | true => exact Program.takes_ret (by simp) _
  | false =>
      refine Program.takes_call_uses (by simp) (fun _ => rfl) (by simp) ?_
      intro size
      rcases size with err | _ | n
      · cases err <;> exact Program.takes_ret (by simp) _
      · exact Program.takes_ret (by simp) _
      · exact Program.takes_call_uses (by simp) (fun _ => rfl) (by simp) fun _ =>
          Program.takes_ret (by simp) _

/-- Between the open and the close. -/
theorem takes_writeTmp (h : ℕ) :
    (Store.writeTmp j h).Takes storeTouch 1 (.file h ::ₘ 0) (.file h ::ₘ 0) := by
  unfold Store.writeTmp
  split
  · exact Program.takes_ret (by simp) _
  refine Program.takes_call_uses (by simp) (fun _ => rfl) (by simp) ?_
  intro wrote
  rcases wrote with ⟨err | n, contents⟩
  · exact Program.takes_ret (by simp) _
  refine Program.takes_call_uses (by simp) (fun _ => rfl) (by simp) ?_
  intro synced
  rcases synced with err | _
  · exact Program.takes_ret (by simp) _
  · exact Program.takes_call_uses (by simp) (fun _ => rfl) (by simp) fun _ =>
      Program.takes_ret (by simp) _

/-- The directory of the rename is released, also when the move fails. -/
theorem takes_publish : (Store.publish S j nonce).Takes storeTouch 1 0 0 := by
  refine Program.takes_call (by simp) ?_
  intro parent
  rcases parent with err | d
  · exact ⟨0, .uses (by simp), Program.takes_ret (by simp) _⟩
  refine ⟨Obj.dir d ::ₘ 0, .opens 0 (Obj.dir d), ?_⟩
  refine Program.takes_call_uses (by simp) (fun _ => rfl) (by simp) ?_
  -- released whether the rename raised or not
  intro moved
  refine Program.takes_call (by simp) fun _ => ⟨0, .closes 0 (Obj.dir d), ?_⟩
  rcases moved with err | _
  · exact Program.takes_ret (by simp) _
  refine Program.takes_call_uses (by simp) (fun _ => rfl) (by simp) ?_
  intro _
  split
  · exact Program.takes_call_uses (by simp) (fun _ => rfl) (by simp) fun _ =>
      Program.takes_ret (by simp) _
  · exact Program.takes_ret (by simp) _

/-- The temporary file is closed before the directory is looked up. -/
theorem takes_writeAndPublish : (Store.writeAndPublish S j nonce).Takes storeTouch 1 0 0 := by
  refine Program.takes_call (by simp) ?_
  intro opened
  rcases opened with err | h
  · exact ⟨0, .uses (by simp), Program.takes_ret (by simp) _⟩
  refine ⟨Obj.file h ::ₘ 0, .opens 0 (Obj.file h), ?_⟩
  refine (takes_writeTmp j h).close (by simp) (fun _ => rfl) (fun _ _ => rfl) ?_
  intro wrote _
  rcases wrote with err | n
  · exact Program.takes_ret (by simp) _
  · dsimp only
    split
    · exact Program.takes_ret (by simp) _
    · exact takes_publish S j nonce

/-- A put closes what it opens, whatever fails. -/
theorem takes_putOne : (Store.putOne S j nonce).Takes storeTouch 1 0 0 := by
  have hbody : (Store.putBody S j nonce).Takes storeTouch 1 0 0 := by
    refine Program.takes_call_uses (by simp) (fun _ => rfl) (by simp) ?_
    intro ctx
    rcases ctx with err | _
    · exact Program.takes_ret (by simp) _
    refine (takes_contains S j.key).bind ?_
    intro present
    rcases present with err | _ | _
    · exact Program.takes_ret (by simp) _
    · dsimp only
      split
      · exact takes_writeAndPublish S j nonce
      · exact Program.takes_ret (by simp) _
    · exact Program.takes_ret (by simp) _
  refine hbody.bind fun _ => ?_
  refine Program.takes_call_uses (by simp) (fun _ => rfl) (by simp) fun _ => ?_
  exact Program.takes_call_uses (by simp) (fun _ => rfl) (by simp) fun _ =>
    Program.takes_ret (by simp) _

end Put

/-! ## A read -/

section Read

variable (key : κ) (h : ℕ)

theorem takes_giveUp (obj : Store.MemObj) :
    (Reads.giveUp obj : Reads.Io κ _).Takes readTouch 1 (.file h ::ₘ 0) (.file h ::ₘ 0) :=
  Program.takes_call_uses (by simp) (fun _ => rfl) (by simp) fun _ => Program.takes_ret (by simp) _

/-- The payload is read from the file that was opened. -/
theorem takes_readPayload (hdr : Serde.Header) (obj : Store.MemObj) :
    (Reads.readPayload key h hdr obj).Takes readTouch 1 (.file h ::ₘ 0) (.file h ::ₘ 0) := by
  unfold Reads.readPayload
  split
  · exact takes_giveUp h obj
  refine Program.takes_call_uses (by simp) (fun _ => rfl) (by simp) ?_
  intro got
  rcases got with err | got
  · exact takes_giveUp h obj
  · dsimp only
    split
    · exact takes_giveUp h obj
    · exact Program.takes_call_uses (by simp) (fun _ => rfl) (by simp) fun _ =>
        Program.takes_ret (by simp) _

theorem takes_readOpen (R : Reads.Reader κ) :
    (Reads.readOpen R key h).Takes readTouch 1 (.file h ::ₘ 0) (.file h ::ₘ 0) := by
  refine Program.takes_call_uses (by simp) (fun _ => rfl) (by simp) ?_
  intro page
  rcases page with err | page
  · exact Program.takes_ret (by simp) _
  dsimp only
  split
  · exact Program.takes_ret (by simp) _
  split
  · exact Program.takes_ret (by simp) _
  refine Program.takes_call_uses (by simp) (fun _ => rfl) (by simp) ?_
  intro obj
  rcases obj with err | _ | obj
  · exact Program.takes_ret (by simp) _
  · exact Program.takes_ret (by simp) _
  · dsimp only
    split
    · exact Program.takes_ret (by simp) _
    · exact takes_readPayload key h _ obj

/-- A read closes what it opens, whatever fails. -/
theorem takes_getBlocking (R : Reads.Reader κ) :
    (Reads.getBlocking R key).Takes readTouch 1 0 0 := by
  refine Program.takes_call_uses (by simp) (fun _ => rfl) (by simp) ?_
  intro ctx
  rcases ctx with err | _
  · exact Program.takes_ret (by simp) _
  refine Program.takes_call (by simp) ?_
  intro opened
  rcases opened with err | h
  · refine ⟨0, .uses (by simp), ?_⟩
    dsimp only
    split <;> exact Program.takes_ret (by simp) _
  · refine ⟨Obj.file h ::ₘ 0, .opens 0 (Obj.file h), ?_⟩
    exact (takes_readOpen key h R).close (by simp) (fun _ => rfl) (fun _ _ => rfl) fun _ _ =>
      Program.takes_ret (by simp) _

end Read

/-! ## The pool -/

section Pool

variable {S : Store.Container κ} {R : Reads.Reader κ}

/-- Every call on the pool keeps the books of one object. -/
theorem PoolCall.Makes.ledger {t : List (Made κ)} {c : PoolCall κ} (h : c.Makes S R t) :
    Ledger 1 0 (t.map touch) 0 := by
  cases c with
  | put j nonce =>
      rcases h with ⟨u, rfl, hu⟩
      rw [List.map_map]
      exact takes_putOne S j nonce u _ hu
  | get key =>
      rcases h with ⟨u, r, rfl, hu⟩
      rw [List.map_map]
      exact takes_getBlocking key R u r hu
  | contain key =>
      rcases h with ⟨u, r, rfl, hu⟩
      rw [List.map_map]
      exact takes_contains S key u r hu

end Pool

/-- **Every call on the pool closes what it opens.** In any interleaving of puts, reads
and lookups and with any answers: what is written, read, renamed in or closed is open
then, there are never more objects open than calls under way, and when all calls have
ended there is none. -/
theorem calls_close_their_objects (S : Store.Container κ) (R : Reads.Reader κ)
    {calls : List (PoolCall κ)} {us rest : List (List (Made κ))} {t : List (Made κ)}
    (hmakes : List.Forall₂ (fun c u => c.Makes S R u) calls us) (h : Interleaving us t rest) :
    ∃ held : Multiset Obj, Ledger calls.length 0 (t.map touch) held ∧
      held.card ≤ rest.countP (· ≠ []) := by
  obtain ⟨held, hled, hcard⟩ := h.balanced hmakes fun _ _ hc => hc.ledger
  rw [Nat.one_mul] at hled hcard
  exact ⟨held, hled, hcard⟩

/-- The calls of a put whose GPU write raises. -/
def failedWrite (page : Bytes) : Store.Calls Unit :=
  [⟨.openRdwrCreate (Store.oneKey.tmp () Store.aNonce), .ok 0⟩,
    ⟨.writeObjFrom 0 0 page, ⟨.ok page.length, page⟩⟩, ⟨.synchronize, .ok ()⟩,
    ⟨.writeGpuFrom 0 Serde.payloadOffset 1 7, ⟨.error .other, page⟩⟩,
    ⟨.closeObj 0, ()⟩]

def failedPut (page : Bytes) : List (Made Unit) :=
  let calls : Store.Calls Unit := Store.absent Store.oneKey () ++ failedWrite page ++
    [⟨.refCountDown 7, ()⟩, ⟨.discard (), ()⟩]
  calls.map .store

/-- The calls of a read whose header cannot be read. -/
def failedRead : List (Made Unit) :=
  [.read ⟨.ensureCudaCtx, .ok ()⟩, .read ⟨.openRdonly (Reads.aReader.path ()), .ok 1⟩,
    .read ⟨.readObj 1 0 Serde.headerSize, .error .other⟩, .read ⟨.closeObj 1, ()⟩]

theorem failedPut_runs {page : Bytes} (hpage : Store.aJob.page = .ok page) :
    (PoolCall.put Store.aJob Store.aNonce).Makes Store.oneKey Reads.aReader (failedPut page) := by
  refine ⟨_, rfl, Store.runs_of_absent rfl (r := .error .other) ?_⟩
  refine .call _ (Program.runs_bind.mpr ⟨[_, _, _], [_], .error .other, rfl, ?_, ?_⟩)
  · rw [Store.writeTmp, hpage]
    exact .call _ (.call _ (.call _ (.ret _)))
  · exact .call _ (.ret _)

theorem failedRead_runs :
    (PoolCall.get ()).Makes Store.oneKey Reads.aReader failedRead :=
  ⟨[_, _, _, _], _, rfl, .call _ (.call _ (.call _ (.call _ (.ret _))))⟩

theorem interleaved_pool (page : Bytes) : Interleaving [failedPut page, failedRead]
    ((failedPut page).take 6 ++ failedRead) [(failedPut page).drop 6, []] :=
  .cons [] <| .cons [] <| .cons [] <| .cons [] <| .cons [] <| .cons [] <|
    .cons [_] <| .cons [_] <| .cons [_] <| .cons [_] <| .nil _

/-- A put between its open and its close, beside a read that has failed. -/
theorem put_under_way_holds_its_file : ∃ page, Store.aJob.page = .ok page ∧
    ∃ held : Multiset Obj, Ledger 2 0 (((failedPut page).take 6 ++ failedRead).map touch) held ∧
      held.card ≤ [(failedPut page).drop 6, []].countP (· ≠ []) := by
  rcases (⟨_, rfl⟩ : ∃ page, Store.aJob.page = .ok page) with ⟨page, hpage⟩
  exact ⟨page, hpage, calls_close_their_objects Store.oneKey Reads.aReader
    (.cons (failedPut_runs hpage) (.cons failedRead_runs .nil)) (interleaved_pool page)⟩

end LmcacheDaos.Gds.Handles
