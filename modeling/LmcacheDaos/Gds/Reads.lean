import Mathlib.Data.List.Perm.Basic
import LmcacheDaos.Gds.Store

/-!
# Batched reads and the references they hold

`get_blocking`, `batched_get_blocking` and `batched_get_non_blocking`
(`gds_backend.py`) with every call that they make, against whatever storage and
allocator answer. The reads of a batch run on the pool; what is done with their
outcomes comes after all of them.

Result (`batched_reads_iff`): a batch gives the hits before the first miss, and
every object it got is one of them or was given back once, if and only if no read
raises and the allocator never answers an object without a tensor. Such an object
is served as a miss and kept, and a read that raises takes the references of the
other reads with it.
-/

namespace LmcacheDaos.Gds.Reads

open Lib
open Store (MemObj Raised)

variable {κ : Type}

/-- What the reads of a backend need from outside: `_path`, and `_meta_unpack`, nothing
when it raises. -/
structure Reader (κ : Type) where
  path : κ → String
  metaUnpack : Bytes → Option (ℕ × ObjMeta)

inductive Op (κ : Type) where
  | ensureCudaCtx
  | openRdonly (path : String)
  | readObj (h offset length : ℕ)
  | allocate (m : ObjMeta)
  | readGpuInto (h offset length obj : ℕ)
  | closeObj (h : ℕ)
  | addKnown (key : κ)
  | refCountDown (obj : ℕ)

def Ans : Op κ → Type
  | .ensureCudaCtx => Except Raised Unit
  | .openRdonly _ | .readGpuInto .. => Except Raised ℕ
  | .readObj .. => Except Raised Bytes
  | .allocate _ => Except Raised (Option MemObj)
  | .closeObj _ | .addKnown _ | .refCountDown _ => Unit

abbrev Io (κ α : Type) := Program (Op κ) Ans (Except Raised α)

abbrev Calls (κ : Type) := List (Event (Op κ) Ans)

/-! ## One read -/

/-- An object goes back, and the key is a miss. -/
def giveUp (obj : MemObj) : Io κ (Option MemObj) :=
  .call (.refCountDown obj.id) fun _ => .ret (.ok none)

/-- `get_blocking` with an object in hand. -/
def readPayload (key : κ) (h : ℕ) (hdr : Serde.Header) (obj : MemObj) : Io κ (Option MemObj) :=
  if hdr.payloadLen ≠ obj.size then giveUp obj
  else .call (.readGpuInto h Serde.payloadOffset hdr.payloadLen obj.id) fun
    | .error _ => giveUp obj
    | .ok got =>
        if got ≠ hdr.payloadLen then giveUp obj
        else .call (.addKnown key) fun _ => .ret (.ok (some obj))

/-- The `try` of `get_blocking`: what is raised there is a miss. -/
def readOpen (R : Reader κ) (key : κ) (h : ℕ) : Io κ (Option MemObj) :=
  .call (.readObj h 0 Serde.headerSize) fun
    | .error _ => .ret (.ok none)
    | .ok page => match Serde.parseHeader page true with
      | .error _ => .ret (.ok none)
      | .ok hdr => match R.metaUnpack hdr.metadata with
        | none => .ret (.ok none)
        | some (_, m) => .call (.allocate m) fun
          | .error _ => .ret (.ok none)
          | .ok none => .ret (.ok none)
          | .ok (some obj) =>
              -- without a tensor: a miss, as if the buffer were full
              if obj.isCuda = none then .ret (.ok none) else readPayload key h hdr obj

/-- `get_blocking` -/
def getBlocking (R : Reader κ) (key : κ) : Io κ (Option MemObj) :=
  .call .ensureCudaCtx fun
    | .error e => .ret (.error e)
    | .ok _ => .call (.openRdonly (R.path key)) fun
      | .error e => if e = .daos enoent then .ret (.ok none) else .ret (.error e)
      | .ok h => (readOpen R key h).bind fun r => .call (.closeObj h) fun _ => .ret r

/-! ## Batches -/

abbrev Outcome := Except Raised (Option MemObj)

/-- One reference less for each of `objs`. -/
def dropAll {α : Type} (objs : List MemObj) (p : Io κ α) : Io κ α :=
  objs.foldr (fun obj p => .call (.refCountDown obj.id) fun _ => p) p

/-- `batched_get_blocking` on what `_pool.map` answers for its keys. -/
def batchedGetBlocking (outcomes : List Outcome) : Io κ (List (Option MemObj)) :=
  match outcomes.mapM id with
  | .error e => .ret (.error e)
  | .ok res => match res.findIdx? Option.isNone with
    | none => .ret (.ok res)
    | some cut => dropAll ((res.drop (cut + 1)).filterMap id)
        (.ret (.ok (res.take cut ++ List.replicate (res.length - cut) none)))

/-- The loop of `batched_get_non_blocking`. -/
def prefixOf : List (Option MemObj) → List MemObj → Bool → Io κ (List MemObj)
  | [], out, _ => .ret (.ok out)
  | none :: rest, out, _ => prefixOf rest out true
  | some o :: rest, out, true => .call (.refCountDown o.id) fun _ => prefixOf rest out true
  | some o :: rest, out, false => prefixOf rest (out ++ [o]) false

/-- `batched_get_non_blocking` on what `asyncio.gather` answers. -/
def batchedGetNonBlocking : Except Raised (List (Option MemObj)) → Io κ (List MemObj)
  | .error e => .ret (.error e)
  | .ok res => prefixOf res [] false

/-- `asyncio.gather` answers all results, or what one that raised has raised. -/
def Gathers (outcomes : List Outcome) : Except Raised (List (Option MemObj)) → Prop
  | .error e => .error e ∈ outcomes
  | .ok res => outcomes = res.map .ok

/-- A read of a batch: its calls and its outcome. -/
structure Read (κ : Type) where
  calls : Calls κ
  outcome : Outcome

/-- The read of `key` ran. One that is still queued when another raises may be
cancelled, and then makes no call. -/
def Read.Of (R : Reader κ) (key : κ) (rd : Read κ) : Prop :=
  (getBlocking R key).Runs rd.calls rd.outcome ∨ rd.calls = [] ∧ rd.outcome = .error .other

/-! ## The ledger of a batch -/

/-- The objects that the allocator gave. -/
def granted (t : Calls κ) : List MemObj :=
  t.flatMap fun
    | ⟨.allocate _, .ok (some obj)⟩ => [obj]
    | _ => []

/-- The references given back, by object. -/
def dropped (t : Calls κ) : List ℕ :=
  t.flatMap fun
    | ⟨.refCountDown obj, _⟩ => [obj]
    | _ => []

/-- The call ends its read with an exception. -/
def raises : Event (Op κ) Ans → Bool
  | ⟨.ensureCudaCtx, .error _⟩ => true
  | ⟨.openRdonly _, .error e⟩ => e != .daos enoent
  | _ => false

def hit : Outcome → List MemObj
  | .ok (some obj) => [obj]
  | _ => []

def isHit : Outcome → Bool
  | .ok (some _) => true
  | _ => false

/-- The hits before the first miss. -/
def firstHits (outcomes : List Outcome) : List MemObj := (outcomes.takeWhile isHit).flatMap hit

/-- The hits behind the first miss. -/
def laterHits (outcomes : List Outcome) : List MemObj := (outcomes.dropWhile isHit).flatMap hit

/-- The reads of a batch. A read that was not cancelled makes at least one call. -/
structure Batch (R : Reader κ) (keys : List κ) (reads : List (Read κ)) : Prop where
  each : List.Forall₂ (Read.Of R) keys reads
  cancelled : ∀ rd ∈ reads, rd.calls = [] → ∃ rd' ∈ reads, ∃ e ∈ rd'.calls, raises e

/-- Every object of the batch was given back once, in its read or in `t` after all
reads, or is kept with the reference that it came with. -/
def Balanced (reads : List (Read κ)) (t : Calls κ) (kept : List MemObj) : Prop :=
  ((reads.flatMap fun rd => granted rd.calls).map MemObj.id).Perm
    ((reads.flatMap fun rd => dropped rd.calls) ++ dropped t ++ kept.map MemObj.id)

/-- No read raises, and every object of the allocator has a tensor. -/
def Sound (reads : List (Read κ)) : Prop :=
  ∀ rd ∈ reads, (∀ e ∈ rd.calls, raises e = false) ∧ ∀ obj ∈ granted rd.calls, obj.isCuda ≠ none

/-! ## What a read settles -/

@[simp] theorem granted_append (t t' : Calls κ) : granted (t ++ t') = granted t ++ granted t' :=
  List.flatMap_append

@[simp] theorem dropped_append (t t' : Calls κ) : dropped (t ++ t') = dropped t ++ dropped t' :=
  List.flatMap_append

/-- The objects that a read got and that have no tensor. -/
def tensorless (t : Calls κ) : List MemObj := (granted t).filter fun obj => obj.isCuda.isNone

/-- What a read got is what it gave back, what it returns and what had no tensor; it
raises at a call that raises. -/
structure Settled (t : Calls κ) (r : Outcome) : Prop where
  objs : (granted t).map MemObj.id =
    dropped t ++ (hit r).map MemObj.id ++ (tensorless t).map MemObj.id
  raised : (∃ e ∈ t, raises e) ↔ ∃ err, r = .error err

/-- Giving up drops the reference of the buffer and answers a miss. -/
theorem giveUp_runs {obj : MemObj} {t : Calls κ} {r : Outcome} (hr : (giveUp obj).Runs t r) :
    (∃ u, t = [⟨.refCountDown obj.id, u⟩]) ∧ r = .ok none := by
  rcases Program.runs_call.mp hr with ⟨u, t₁, rfl, hr₁⟩
  rcases Program.runs_ret.mp hr₁ with ⟨rfl, rfl⟩
  exact ⟨⟨u, rfl⟩, rfl⟩

/-- An object with a tensor is given back or returned. -/
theorem readPayload_settled {key : κ} {h : ℕ} {hdr : Serde.Header} {obj : MemObj} {m : ObjMeta}
    {t : Calls κ} {r : Outcome} (htensor : obj.isCuda ≠ none)
    (hr : (readPayload key h hdr obj).Runs t r) :
    Settled (⟨.allocate m, .ok (some obj)⟩ :: t) r := by
  have htensor : obj.isCuda.isNone = false := by
    simpa [Option.isSome_iff_ne_none] using htensor
  rw [readPayload] at hr
  split at hr
  · rcases giveUp_runs hr with ⟨⟨u, rfl⟩, rfl⟩
    constructor <;> simp [granted, dropped, tensorless, hit, raises, htensor]
  rcases Program.runs_call.mp hr with ⟨ans, t₁, rfl, hr₁⟩
  rcases ans with err | got
  · rcases giveUp_runs hr₁ with ⟨⟨u, rfl⟩, rfl⟩
    constructor <;> simp [granted, dropped, tensorless, hit, raises, htensor]
  simp only at hr₁
  split at hr₁
  · rcases giveUp_runs hr₁ with ⟨⟨u, rfl⟩, rfl⟩
    constructor <;> simp [granted, dropped, tensorless, hit, raises, htensor]
  · rcases Program.runs_call.mp hr₁ with ⟨u, t₂, rfl, hr₂⟩
    rcases Program.runs_ret.mp hr₂ with ⟨rfl, rfl⟩
    constructor <;> simp [granted, dropped, tensorless, hit, raises, htensor]

/-- A call that neither gets nor gives back anything, and does not raise. -/
def Silent (e : Event (Op κ) Ans) : Prop :=
  granted [e] = [] ∧ dropped [e] = [] ∧ raises e = false

/-- A call that neither gets nor drops a buffer may come first. -/
theorem Settled.cons {t : Calls κ} {r : Outcome} (h : Settled t r) {e : Event (Op κ) Ans}
    (he : Silent e) : Settled (e :: t) r := by
  rcases he with ⟨hg, hd, hraise⟩
  have hgranted : granted (e :: t) = granted t := by
    show granted ([e] ++ t) = _
    rw [granted_append, hg, List.nil_append]
  have hdropped : dropped (e :: t) = dropped t := by
    show dropped ([e] ++ t) = _
    rw [dropped_append, hd, List.nil_append]
  constructor
  · rw [hdropped, tensorless, hgranted]
    exact h.objs
  · rw [← h.raised]
    simp [hraise]

/-- Such a call may come last. -/
theorem Settled.snoc {t : Calls κ} {r : Outcome} (h : Settled t r) {e : Event (Op κ) Ans}
    (he : Silent e) : Settled (t ++ [e]) r := by
  rcases he with ⟨hg, hd, hraise⟩
  constructor
  · rw [dropped_append, tensorless, granted_append, hg, hd, List.append_nil, List.append_nil]
    exact h.objs
  · rw [← h.raised]
    simp [or_and_right, exists_or, hraise]

/-- A read that makes no call, and is a miss. -/
theorem settled_nil : Settled ([] : Calls κ) (.ok none) := by
  constructor <;> simp [granted, dropped, tensorless, hit]

/-- The part of `get_blocking` behind the open accounts for its buffer. -/
theorem readOpen_settled {R : Reader κ} {key : κ} {h : ℕ} {t : Calls κ} {r : Outcome}
    (hr : (readOpen R key h).Runs t r) : Settled t r := by
  rcases Program.runs_call.mp hr with ⟨ans, t₁, rfl, hr₁⟩
  rcases ans with err | page
  · rcases Program.runs_ret.mp hr₁ with ⟨rfl, rfl⟩
    exact settled_nil.cons ⟨rfl, rfl, rfl⟩
  refine Settled.cons ?_ ⟨rfl, rfl, rfl⟩
  simp only at hr₁
  split at hr₁
  · rcases Program.runs_ret.mp hr₁ with ⟨rfl, rfl⟩
    exact settled_nil
  split at hr₁
  · rcases Program.runs_ret.mp hr₁ with ⟨rfl, rfl⟩
    exact settled_nil
  rcases Program.runs_call.mp hr₁ with ⟨ans, t₂, rfl, hr₂⟩
  rcases ans with err | _ | obj
  · rcases Program.runs_ret.mp hr₂ with ⟨rfl, rfl⟩
    exact settled_nil.cons ⟨rfl, rfl, rfl⟩
  · rcases Program.runs_ret.mp hr₂ with ⟨rfl, rfl⟩
    exact settled_nil.cons ⟨rfl, rfl, rfl⟩
  simp only at hr₂
  split at hr₂
  · -- no tensor: the reference stays with no one
    rename_i hnone
    rcases Program.runs_ret.mp hr₂ with ⟨rfl, rfl⟩
    constructor <;> simp [granted, dropped, tensorless, hit, raises, hnone]
  · rename_i htensor
    exact readPayload_settled htensor hr₂

/-- Every `get_blocking` returns its buffer, drops it, or never had one. -/
theorem getBlocking_settled {R : Reader κ} {key : κ} {t : Calls κ} {r : Outcome}
    (hr : (getBlocking R key).Runs t r) : Settled t r := by
  rcases Program.runs_call.mp hr with ⟨ans, t₁, rfl, hr₁⟩
  rcases ans with err | _
  · rcases Program.runs_ret.mp hr₁ with ⟨rfl, rfl⟩
    constructor <;> simp [granted, dropped, tensorless, hit, raises]
  refine Settled.cons ?_ ⟨rfl, rfl, rfl⟩
  rcases Program.runs_call.mp hr₁ with ⟨ans, t₂, rfl, hr₂⟩
  rcases ans with err | h
  · simp only at hr₂
    split at hr₂
    · rename_i herr
      rcases Program.runs_ret.mp hr₂ with ⟨rfl, rfl⟩
      constructor <;> simp [granted, dropped, tensorless, hit, raises, herr]
    · rename_i herr
      rcases Program.runs_ret.mp hr₂ with ⟨rfl, rfl⟩
      constructor <;> simp [granted, dropped, tensorless, hit, raises, herr]
  rcases Program.runs_bind.mp hr₂ with ⟨t₃, t₄, r', rfl, hopen, hclose⟩
  rcases Program.runs_call.mp hclose with ⟨u, t₅, rfl, hret⟩
  rcases Program.runs_ret.mp hret with ⟨rfl, rfl⟩
  exact ((readOpen_settled hopen).snoc ⟨rfl, rfl, rfl⟩).cons ⟨rfl, rfl, rfl⟩

/-! ## What a batch does with the outcomes -/

section Cut

variable (o : MemObj) (outcomes : List Outcome)

@[simp] theorem firstHits_nil : firstHits [] = [] := rfl

@[simp] theorem firstHits_hit : firstHits (.ok (some o) :: outcomes) = o :: firstHits outcomes :=
  rfl

@[simp] theorem firstHits_miss : firstHits (.ok none :: outcomes) = [] := rfl

@[simp] theorem laterHits_nil : laterHits [] = [] := rfl

@[simp] theorem laterHits_hit : laterHits (.ok (some o) :: outcomes) = laterHits outcomes := rfl

@[simp] theorem laterHits_miss : laterHits (.ok none :: outcomes) = outcomes.flatMap hit := rfl

/-- All hits are those of the prefix and those behind the first miss. -/
theorem hits_split : outcomes.flatMap hit = firstHits outcomes ++ laterHits outcomes := by
  rw [firstHits, laterHits, ← List.flatMap_append, List.takeWhile_append_dropWhile]

end Cut

/-- The hits of reads that did not raise. -/
theorem flatMap_hit_map_ok (res : List (Option MemObj)) :
    (res.map Except.ok : List Outcome).flatMap hit = res.filterMap id := by
  induction res with
  | nil => rfl
  | cons o res ih =>
      cases o with
      | none => exact ih
      | some o => exact congrArg (o :: ·) ih

/-- Without a miss all of it is the prefix. -/
theorem hits_of_findIdx?_none {res : List (Option MemObj)}
    (h : res.findIdx? Option.isNone = none) :
    (firstHits (res.map .ok)).map some = res ∧ laterHits (res.map .ok) = [] := by
  induction res with
  | nil => exact ⟨rfl, rfl⟩
  | cons o res ih =>
      rw [List.findIdx?_cons] at h
      cases o with
      | none => cases h
      | some o =>
          rcases ih (by simpa using h) with ⟨hfirst, hlater⟩
          exact ⟨congrArg (some o :: ·) hfirst, hlater⟩

/-- The cut that `batched_get_blocking` finds is the end of the prefix. -/
theorem hits_of_findIdx?_some {res : List (Option MemObj)} {cut : ℕ}
    (h : res.findIdx? Option.isNone = some cut) :
    (firstHits (res.map .ok)).map some = res.take cut ∧ (firstHits (res.map .ok)).length = cut ∧
      laterHits (res.map .ok) = (res.drop (cut + 1)).filterMap id := by
  induction res generalizing cut with
  | nil => cases h
  | cons o res ih =>
      rw [List.findIdx?_cons] at h
      cases o with
      | none =>
          cases h
          exact ⟨rfl, rfl, flatMap_hit_map_ok res⟩
      | some o =>
          rcases Option.map_eq_some_iff.mp h with ⟨cut', hcut', rfl⟩
          rcases ih hcut' with ⟨hfirst, hlen, hlater⟩
          exact ⟨congrArg (some o :: ·) hfirst, congrArg (· + 1) hlen, hlater⟩

/-- Dropping a list of objects drops each once, and goes on. -/
theorem dropAll_runs {α : Type} {objs : List MemObj} {x r : Except Raised α} {t : Calls κ}
    (hr : (dropAll objs (.ret x)).Runs t r) : dropped t = objs.map MemObj.id ∧ r = x := by
  induction objs generalizing t with
  | nil =>
      rcases Program.runs_ret.mp hr with ⟨rfl, rfl⟩
      exact ⟨rfl, rfl⟩
  | cons obj objs ih =>
      rcases Program.runs_call.mp hr with ⟨u, t₁, rfl, hr₁⟩
      rcases ih hr₁ with ⟨hdropped, rfl⟩
      exact ⟨congrArg (obj.id :: ·) hdropped, rfl⟩

/-- Reads that did not raise are collected as they are. -/
theorem mapM_id_ok (res : List (Option MemObj)) :
    (res.map Except.ok : List Outcome).mapM id = .ok res :=
  mapM_eq_ok.mpr (List.forall₂_map_left_iff.mpr (List.forall₂_same.mpr fun _ _ => rfl))

/-- What `batched_get_blocking` returns and drops when no read raised. -/
theorem blocking_runs {res : List (Option MemObj)} {t : Calls κ}
    {r : Except Raised (List (Option MemObj))}
    (hr : (batchedGetBlocking (res.map .ok)).Runs t r) :
    r = .ok ((firstHits (res.map .ok)).map some ++
        List.replicate (res.length - (firstHits (res.map .ok)).length) none) ∧
      dropped t = (laterHits (res.map .ok)).map MemObj.id := by
  simp only [batchedGetBlocking, mapM_id_ok] at hr
  split at hr
  · rename_i hnone
    rcases Program.runs_ret.mp hr with ⟨rfl, rfl⟩
    rcases hits_of_findIdx?_none hnone with ⟨hfirst, hlater⟩
    have hlen : (firstHits (res.map .ok)).length = res.length := by
      rw [← List.length_map some, hfirst]
    rw [hfirst, hlater, hlen, Nat.sub_self, List.replicate_zero, List.append_nil]
    exact ⟨rfl, rfl⟩
  · rename_i cut hsome
    rcases hits_of_findIdx?_some hsome with ⟨hfirst, hlen, hlater⟩
    rcases dropAll_runs hr with ⟨hdropped, rfl⟩
    rw [hfirst, hlater, hlen]
    exact ⟨rfl, hdropped⟩

/-- Behind the first miss every object goes back. -/
theorem prefixOf_failed {res : List (Option MemObj)} {out : List MemObj} {t : Calls κ}
    {r : Except Raised (List MemObj)} (hr : (prefixOf res out true).Runs t r) :
    r = .ok out ∧ dropped t = (res.filterMap id).map MemObj.id := by
  induction res generalizing t with
  | nil =>
      rcases Program.runs_ret.mp hr with ⟨rfl, rfl⟩
      exact ⟨rfl, rfl⟩
  | cons o res ih =>
      cases o with
      | none => exact ih hr
      | some o =>
          rcases Program.runs_call.mp hr with ⟨u, t₁, rfl, hr₁⟩
          rcases ih hr₁ with ⟨rfl, hdropped⟩
          exact ⟨rfl, congrArg (o.id :: ·) hdropped⟩

/-- What the loop of `batched_get_non_blocking` returns and drops. -/
theorem prefixOf_runs {res : List (Option MemObj)} {out : List MemObj} {t : Calls κ}
    {r : Except Raised (List MemObj)} (hr : (prefixOf res out false).Runs t r) :
    r = .ok (out ++ firstHits (res.map .ok)) ∧
      dropped t = (laterHits (res.map .ok)).map MemObj.id := by
  induction res generalizing out with
  | nil =>
      rcases Program.runs_ret.mp hr with ⟨rfl, rfl⟩
      exact ⟨by rw [List.map_nil, firstHits_nil, List.append_nil], rfl⟩
  | cons o res ih =>
      cases o with
      | none =>
          have hrest : (prefixOf res out true).Runs t r := hr
          rw [List.map_cons, firstHits_miss, laterHits_miss, flatMap_hit_map_ok, List.append_nil]
          exact prefixOf_failed hrest
      | some o =>
          have hrest : (prefixOf res (out ++ [o]) false).Runs t r := hr
          rcases ih hrest with ⟨hret, hdropped⟩
          refine ⟨?_, hdropped⟩
          rw [hret, List.map_cons, firstHits_hit, List.append_assoc, List.singleton_append]

/-! ## All reads of a batch -/

section Batch

variable {R : Reader κ} {keys : List κ} {reads : List (Read κ)} {t : Calls κ}

/-- The buffers of one read: dropped by it, returned by it, or without a tensor. -/
theorem Read.Of.objs {key : κ} {rd : Read κ} (h : rd.Of R key) :
    (granted rd.calls).map MemObj.id =
      dropped rd.calls ++ (hit rd.outcome).map MemObj.id ++
        (tensorless rd.calls).map MemObj.id := by
  rcases h with hran | ⟨hcalls, houtcome⟩
  · exact (getBlocking_settled hran).objs
  · rw [hcalls, houtcome]
    rfl

/-- Every read of a batch is one of a key. -/
theorem Batch.exists_key (h : Batch R keys reads) {rd : Read κ} (hrd : rd ∈ reads) :
    ∃ key, rd.Of R key := by
  rcases List.forall₂_iff_get.mp h.each with ⟨hlen, hget⟩
  rcases List.mem_iff_getElem.mp hrd with ⟨i, hi, rfl⟩
  exact ⟨_, hget i (hlen ▸ hi) hi⟩

/-- The same of all reads of a batch together. -/
theorem objs_perm (h : ∀ rd ∈ reads, (granted rd.calls).map MemObj.id =
      dropped rd.calls ++ (hit rd.outcome).map MemObj.id ++
        (tensorless rd.calls).map MemObj.id) :
    ((reads.flatMap fun rd => granted rd.calls).map MemObj.id).Perm
      ((reads.flatMap fun rd => dropped rd.calls) ++
        ((reads.map Read.outcome).flatMap hit).map MemObj.id ++
        (reads.flatMap fun rd => tensorless rd.calls).map MemObj.id) := by
  induction reads with
  | nil => exact .refl _
  | cons rd reads ih =>
      have hrest := ih fun rd' hrd' => h rd' (List.mem_cons_of_mem _ hrd')
      have hhead := h rd List.mem_cons_self
      rw [List.perm_iff_count] at hrest ⊢
      intro id
      have hcount := hrest id
      have hcount' := congrArg (List.count id) hhead
      simp only [List.flatMap_cons, List.map_cons, List.map_append, List.count_append] at *
      omega

/-- After all reads, the hits behind the first miss go back: only objects without a
tensor are missing. -/
theorem Batch.balanced_iff (h : Batch R keys reads)
    (ht : dropped t = (laterHits (reads.map Read.outcome)).map MemObj.id) :
    Balanced reads t (firstHits (reads.map Read.outcome)) ↔
      ∀ rd ∈ reads, ∀ obj ∈ granted rd.calls, obj.isCuda ≠ none := by
  have hperm := objs_perm fun rd hrd => (h.exists_key hrd).choose_spec.objs
  have hnone : (reads.flatMap fun rd => tensorless rd.calls) = [] ↔
      ∀ rd ∈ reads, ∀ obj ∈ granted rd.calls, obj.isCuda ≠ none := by
    simp [tensorless, List.flatMap_eq_nil_iff, List.filter_eq_nil_iff]
  rw [hits_split, List.map_append] at hperm
  rw [← hnone, Balanced, ht]
  constructor
  · -- the two accounts of what was granted differ by the objects without a tensor
    intro hbal
    have hlen := hperm.length_eq.symm.trans hbal.length_eq
    simp only [List.length_append, List.length_map] at hlen
    exact List.eq_nil_of_length_eq_zero (by omega)
  · intro hnil
    rw [hnil, List.map_nil, List.append_nil] at hperm
    refine hperm.trans ?_
    rw [List.append_assoc]
    exact List.perm_append_comm.append_left _

/-- Outcomes without an exception are results. -/
theorem exists_map_ok {outcomes : List Outcome} (h : ∀ e, .error e ∉ outcomes) :
    ∃ res : List (Option MemObj), outcomes = res.map .ok := by
  induction outcomes with
  | nil => exact ⟨[], rfl⟩
  | cons r outcomes ih =>
      rcases ih fun e he => h e (List.mem_cons_of_mem _ he) with ⟨res, rfl⟩
      cases r with
      | error e => exact absurd List.mem_cons_self (h e)
      | ok o => exact ⟨o :: res, rfl⟩

/-- A batch has a read that raised exactly if one of its calls raised something that
`get_blocking` lets out. -/
theorem Batch.error_iff (h : Batch R keys reads) :
    (∃ e, .error e ∈ reads.map Read.outcome) ↔ ∃ rd ∈ reads, ∃ e ∈ rd.calls, raises e := by
  constructor
  · -- a read that was cancelled raises too, on account of another one
    rintro ⟨e, he⟩
    rcases List.mem_map.mp he with ⟨rd, hrd, houtcome⟩
    rcases h.exists_key hrd with ⟨key, hran | ⟨hcalls, -⟩⟩
    · exact ⟨rd, hrd, (getBlocking_settled hran).raised.mpr ⟨e, houtcome⟩⟩
    · exact h.cancelled rd hrd hcalls
  · rintro ⟨rd, hrd, e, he, hraises⟩
    rcases h.exists_key hrd with ⟨key, hran | ⟨hcalls, -⟩⟩
    · rcases (getBlocking_settled hran).raised.mp ⟨e, he, hraises⟩ with ⟨err, herr⟩
      exact ⟨err, List.mem_map.mpr ⟨rd, hrd, herr⟩⟩
    · rw [hcalls] at he
      cases he

/-- A batch in which a read raises, raises; nothing of the other reads goes back. -/
theorem blocking_raises {outcomes : List Outcome} {e : Raised} (he : .error e ∈ outcomes)
    {r : Except Raised (List (Option MemObj))} (hr : (batchedGetBlocking outcomes).Runs t r) :
    (∃ e, r = .error e) ∧ dropped t = [] := by
  unfold batchedGetBlocking at hr
  split at hr
  · rename_i e' _
    rcases Program.runs_ret.mp hr with ⟨rfl, rfl⟩
    exact ⟨⟨e', rfl⟩, rfl⟩
  · rename_i res hres
    rcases forall_ok_of_mapM_eq_ok hres _ he with ⟨o, ho⟩
    cases ho

/-- With a read that raised, `gather` raises, and nothing is dropped by the loop. -/
theorem nonBlocking_raises {outcomes : List Outcome} {e : Raised} (he : .error e ∈ outcomes)
    {gathered : Except Raised (List (Option MemObj))} (hg : Gathers outcomes gathered)
    {r : Except Raised (List MemObj)} (hr : (batchedGetNonBlocking gathered).Runs t r) :
    (∃ e, r = .error e) ∧ dropped t = [] := by
  cases gathered with
  | error e' =>
      rcases Program.runs_ret.mp hr with ⟨rfl, rfl⟩
      exact ⟨⟨e', rfl⟩, rfl⟩
  | ok res =>
      have hres : outcomes = res.map .ok := hg
      rw [hres] at he
      rcases List.mem_map.mp he with ⟨o, -, ho⟩
      cases ho

/-- Whatever the keys, the allocator and storage answer: both batches give the hits
before the first miss, and every object they got is one of these or was given back
once, if and only if no read raises and every object has a tensor. -/
theorem batched_reads_iff (h : Batch R keys reads) :
    let hits := firstHits (reads.map Read.outcome)
    (∀ t r, (batchedGetBlocking (reads.map Read.outcome) : Io κ _).Runs t r →
      (r = .ok (hits.map some ++ List.replicate (keys.length - hits.length) none) ∧
        Balanced reads t hits ↔ Sound reads)) ∧
    ∀ gathered, Gathers (reads.map Read.outcome) gathered →
      ∀ t r, (batchedGetNonBlocking gathered : Io κ _).Runs t r →
        (r = .ok hits ∧ Balanced reads t hits ↔ Sound reads) := by
  intro hits
  by_cases herr : ∃ e, .error e ∈ reads.map Read.outcome
  · -- a read raises, and with it the batch
    have hunsound : ¬ Sound reads := by
      rcases h.error_iff.mp herr with ⟨rd, hrd, e, he, hraises⟩
      intro hs
      rw [(hs rd hrd).1 e he] at hraises
      cases hraises
    rcases herr with ⟨e, he⟩
    constructor
    · intro t r hr
      rcases blocking_raises he hr with ⟨⟨e', rfl⟩, -⟩
      exact iff_of_false (fun hok => by cases hok.1) hunsound
    · intro gathered hg t r hr
      rcases nonBlocking_raises he hg hr with ⟨⟨e', rfl⟩, -⟩
      exact iff_of_false (fun hok => by cases hok.1) hunsound
  · -- all outcomes are results, and the cut-off runs on them
    have hquiet : ∀ rd ∈ reads, ∀ e ∈ rd.calls, raises e = false := by
      intro rd hrd e he
      apply Bool.eq_false_iff.mpr
      intro hraises
      exact herr (h.error_iff.mpr ⟨rd, hrd, e, he, hraises⟩)
    have hsound : Sound reads ↔ ∀ rd ∈ reads, ∀ obj ∈ granted rd.calls, obj.isCuda ≠ none :=
      ⟨fun hs rd hrd => (hs rd hrd).2, fun hs rd hrd => ⟨hquiet rd hrd, hs rd hrd⟩⟩
    rcases exists_map_ok (not_exists.mp herr) with ⟨res, hres⟩
    have hlen : res.length = keys.length := by
      rw [← List.length_map (Except.ok : _ → Outcome), ← hres, List.length_map,
        h.each.length_eq]
    rw [hsound]
    constructor
    · intro t r hr
      rw [hres] at hr
      rcases blocking_runs hr with ⟨rfl, hdropped⟩
      rw [← hres] at hdropped
      rw [← h.balanced_iff hdropped]
      refine and_iff_right ?_
      rw [← hres, hlen]
    · intro gathered hg t r hr
      cases gathered with
      | error e => exact absurd ⟨e, hg⟩ herr
      | ok res' =>
          have hres' : reads.map Read.outcome = res'.map .ok := hg
          rcases prefixOf_runs hr with ⟨rfl, hdropped⟩
          rw [← hres'] at hdropped
          rw [← h.balanced_iff hdropped]
          refine and_iff_right ?_
          rw [← hres', List.nil_append]

end Batch

/-! ## Runs -/

/-- What `_put_one` wrote parses. -/
theorem parseHeader_page {j : Store.Job κ} {page : Bytes} (hpage : j.page = .ok page) :
    Serde.parseHeader page true =
      .ok ⟨Serde.stateCommitted, metaPack j.obj.size j.obj.metadata, j.obj.size⟩ := by
  rcases Serde.packHeader_eq_ok.mp hpage with ⟨hpack, rfl⟩
  exact Serde.parseHeader_header hpack _ fun _ => rfl

/-- A read of `page` up to its allocation. -/
def upToAlloc (R : Reader κ) (key : κ) (page : Bytes) (m : ObjMeta) (obj : MemObj) : Calls κ :=
  [⟨.ensureCudaCtx, .ok ()⟩, ⟨.openRdonly (R.path key), .ok 0⟩,
    ⟨.readObj 0 0 Serde.headerSize, .ok page⟩, ⟨.allocate m, .ok (some obj)⟩]

section Read

variable {R : Reader κ} (key : κ) {page : Bytes} {hdr : Serde.Header} {n : ℕ} {m : ObjMeta}
variable (hparse : Serde.parseHeader page true = .ok hdr)
variable (hmeta : R.metaUnpack hdr.metadata = some (n, m))

include hparse hmeta

/-- A run from the allocation on is one of `get_blocking` behind a good header. -/
theorem runs_of_alloc {obj : MemObj} {t : Calls κ} {r : Outcome}
    (hr : (if obj.isCuda = none then .ret (.ok none) else readPayload key 0 hdr obj :
      Io κ (Option MemObj)).Runs t r) :
    (getBlocking R key).Runs (upToAlloc R key page m obj ++ t ++ [⟨.closeObj 0, ()⟩]) r := by
  have hopen : (readOpen R key 0).Runs ((upToAlloc R key page m obj).drop 2 ++ t) r := by
    refine .call _ ?_
    simp only [hparse, hmeta]
    exact .call _ hr
  refine .call _ (.call _ (Program.runs_bind.mpr ⟨_, _, r, rfl, hopen, ?_⟩))
  exact .call _ (.ret r)

/-- The read of an object with a tensor, without a fault. -/
theorem runs_of_hit (obj : MemObj) (htensor : obj.isCuda ≠ none)
    (hsize : hdr.payloadLen = obj.size) :
    (getBlocking R key).Runs (upToAlloc R key page m obj ++
      [⟨.readGpuInto 0 Serde.payloadOffset hdr.payloadLen obj.id, .ok hdr.payloadLen⟩,
        ⟨.addKnown key, ()⟩] ++ [⟨.closeObj 0, ()⟩]) (.ok (some obj)) := by
  apply runs_of_alloc key hparse hmeta
  rw [if_neg htensor, readPayload, if_neg (not_not.mpr hsize)]
  refine .call _ ?_
  simp only [ne_eq, not_true_eq_false, if_false]
  exact .call _ (.ret _)

/-- Without a tensor: the object is in no one's hands. -/
theorem runs_of_tensorless (obj : MemObj) (hnone : obj.isCuda = none) :
    (getBlocking R key).Runs (upToAlloc R key page m obj ++ [] ++ [⟨.closeObj 0, ()⟩])
      (.ok none) := by
  apply runs_of_alloc key hparse hmeta
  rw [if_pos hnone]
  exact .ret _

end Read

/-- One key; its objects have the metadata of `aJob`. -/
def aReader : Reader Unit where
  path := Store.oneKey.path
  metaUnpack bs :=
    if bs = metaPack 1 Store.aJob.obj.metadata then some (1, Store.aJob.obj.metadata) else none

/-- There is a page that the reader accepts. -/
theorem exists_page : ∃ (page : Bytes) (hdr : Serde.Header),
    Serde.parseHeader page true = .ok hdr ∧ hdr.payloadLen = 1 ∧
      aReader.metaUnpack hdr.metadata = some (1, Store.aJob.obj.metadata) := by
  rcases (⟨_, rfl⟩ : ∃ page, Store.aJob.page = .ok page) with ⟨page, hpage⟩
  have hmeta : aReader.metaUnpack (metaPack 1 Store.aJob.obj.metadata) =
      some (1, Store.aJob.obj.metadata) := by simp [aReader]
  exact ⟨page, _, parseHeader_page hpage, rfl, hmeta⟩

/-- A hit, a key that is not there and another hit: the last object goes back. -/
theorem later_hit_given_back :
    let first : MemObj := Store.aJob.obj
    ∃ reads t r, Batch aReader [(), (), ()] reads ∧
      (batchedGetBlocking (reads.map Read.outcome) : Io Unit _).Runs t r ∧
      r = .ok [some first, none, none] ∧ Balanced reads t [first] := by
  intro first
  rcases exists_page with ⟨page, hdr, hparse, hlen, hmeta⟩
  let last : MemObj := { first with id := 8 }
  -- a hit, a miss, and a hit behind the miss
  have hfirst := runs_of_hit () hparse hmeta first (by decide) hlen
  have hlast := runs_of_hit () hparse hmeta last (by decide) hlen
  have habsent : (getBlocking aReader ()).Runs
      [⟨.ensureCudaCtx, .ok ()⟩, ⟨.openRdonly (aReader.path ()), .error (.daos enoent)⟩]
      (.ok none) := .call _ (.call _ (.ret _))
  -- each read with what it was granted
  have hb : Batch aReader [(), (), ()] [⟨_, _⟩, ⟨_, _⟩, ⟨_, _⟩] :=
    ⟨.cons (.inl hfirst) (.cons (.inl habsent) (.cons (.inl hlast) .nil)), by
      simp [upToAlloc]⟩
  -- the result stops at the miss, so the last object is given back
  have hr : (batchedGetBlocking [.ok (some first), .ok none, .ok (some last)] : Io Unit _).Runs
      [⟨.refCountDown 8, ()⟩] (.ok [some first, none, none]) := .call _ (.ret _)
  -- nothing raised and every granted object is in its result, so the books balance
  have hsound := ((batched_reads_iff hb).1 _ _ hr).mpr ?_
  · exact ⟨_, _, _, hb, hr, rfl, hsound.2⟩
  · intro rd hrd
    simp only [List.mem_cons, List.not_mem_nil, or_false] at hrd
    rcases hrd with rfl | rfl | rfl
    all_goals
      constructor
      · simp [upToAlloc, raises]
      · simp [upToAlloc, granted, first, last, Store.aJob]

/-- An object without a tensor, served as a miss; and a hit beside a read whose open
fails. Neither object is returned or given back. -/
theorem objects_lost :
    (∃ reads t r, Batch aReader [()] reads ∧
      (batchedGetBlocking (reads.map Read.outcome) : Io Unit _).Runs t r ∧
      r = .ok [none] ∧ ¬ Balanced reads t []) ∧
    ∃ reads t r, Batch aReader [(), ()] reads ∧
      (batchedGetBlocking (reads.map Read.outcome) : Io Unit _).Runs t r ∧
      r = .error (.daos ⟨1⟩) ∧ ¬ Balanced reads t [] := by
  rcases exists_page with ⟨page, hdr, hparse, hlen, hmeta⟩
  constructor
  · -- the object has no tensor: the read drops it without giving it back
    let obj : MemObj := { Store.aJob.obj with isCuda := none }
    have hread := runs_of_tensorless () hparse hmeta obj rfl
    have hb : Batch aReader [()] [⟨_, _⟩] := ⟨.cons (.inl hread) .nil, by simp [upToAlloc]⟩
    have hr : (batchedGetBlocking [.ok none] : Io Unit _).Runs [] (.ok [none]) := .ret _
    refine ⟨_, _, _, hb, hr, rfl, ?_⟩
    intro hbal
    have hlen := hbal.length_eq
    simp [upToAlloc, granted, dropped] at hlen
  · -- the second read raises, and the first one's object is lost with it
    have hhit := runs_of_hit () hparse hmeta Store.aJob.obj (by decide) hlen
    have hraise : (getBlocking aReader ()).Runs
        [⟨.ensureCudaCtx, .ok ()⟩, ⟨.openRdonly (aReader.path ()), .error (.daos ⟨1⟩)⟩]
        (.error (.daos ⟨1⟩)) := .call _ (.call _ (.ret _))
    have hb : Batch aReader [(), ()] [⟨_, _⟩, ⟨_, _⟩] :=
      ⟨.cons (.inl hhit) (.cons (.inl hraise) .nil), by simp [upToAlloc]⟩
    -- the raise ends the batch before any object is given back
    have hr : (batchedGetBlocking [.ok (some Store.aJob.obj), .error (.daos ⟨1⟩)] :
        Io Unit _).Runs [] (.error (.daos ⟨1⟩)) := .ret _
    refine ⟨_, _, _, hb, hr, rfl, ?_⟩
    intro hbal
    have hlen := hbal.length_eq
    simp [upToAlloc, granted, dropped] at hlen

end LmcacheDaos.Gds.Reads
