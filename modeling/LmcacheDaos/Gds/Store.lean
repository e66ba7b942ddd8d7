import Mathlib.Data.Finset.Basic
import LmcacheDaos.Gds.Backend
import LmcacheDaos.Lib.Separator
import LmcacheDaos.Lib.Trace

/-!
# What a put leaves behind

`batched_submit_put_task` and `_put_one` (`gds_backend.py`) with every call that
they make, against whatever the calls answer: a call may raise, a write may be
short, and a write that raises may have written something.

A run is a list of calls with their answers. `Interleaved` carries it out on the
files, `_known` and `_put_tasks`, with what others do in between (`Elsewhere`, which
the other puts of a batch satisfy).

Result (`put_leaves_nothing_iff`): a put gives its reference back once and takes
its key out of `_put_tasks`, `_known` has the key only of an object that is there,
and the final name is as it was unless the rename succeeded. Its temporary file is
gone only if nothing fails between the open and the rename: no path removes it.
-/

namespace LmcacheDaos.Gds.Store

open Lib

/-! ## Names -/

/-- The names under one root. -/
structure Container (κ : Type) where
  root : String
  /-- `sha256(...).hexdigest()` -/
  digest : κ → String
  digest_plain : ∀ k, '/' ∉ (digest k).toList
  length_digest : ∀ k l, (digest k).toList.length = (digest l).toList.length

/-- `uuid.uuid4().hex[:8]` -/
structure Nonce where
  hex : String
  plain : '/' ∉ hex.toList

variable {κ : Type}

/-- `_path` -/
def Container.path (S : Container κ) (key : κ) : String := S.root ++ "/" ++ S.digest key

def Container.tmp (S : Container κ) (key : κ) (nonce : Nonce) : String :=
  Serde.tempPath (S.path key) nonce.hex

/-- `rsplit("/", 1)[1]` -/
def leaf (path : String) : String :=
  String.ofList (path.toList.reverse.takeWhile (· ≠ '/')).reverse

/-- What stands behind the last `/`, read backwards. -/
theorem takeWhile_reverse_sep {dir name : List Char} (h : '/' ∉ name) :
    (dir ++ '/' :: name).reverse.takeWhile (· ≠ '/') = name.reverse := by
  have hname : ∀ c ∈ name.reverse, decide (c ≠ '/') = true := by
    intro c hc
    apply decide_eq_true
    rintro rfl
    exact h (List.mem_reverse.mp hc)
  rw [List.reverse_append, List.reverse_cons, List.append_assoc,
    List.takeWhile_append_of_pos hname]
  simp

/-- The leaf of a path is the name that was joined on last. -/
theorem leaf_join {dir name : String} (h : '/' ∉ name.toList) :
    leaf (dir ++ "/" ++ name) = name := by
  have hlist : (dir ++ "/" ++ name).toList = dir.toList ++ '/' :: name.toList := by simp
  rw [leaf, hlist, takeWhile_reverse_sep h, List.reverse_reverse, String.ofList_toList]

/-- A temporary name lies directly under the root, as the final one does. -/
theorem Container.tmp_eq (S : Container κ) (key : κ) (nonce : Nonce) :
    S.tmp key nonce = S.root ++ "/" ++ (".tmp-" ++ S.digest key ++ "-" ++ nonce.hex) := by
  have hlist : (S.path key).toList = S.root.toList ++ '/' :: (S.digest key).toList := by
    simp [Container.path]
  have hdir : (S.root.toList ++ '/' :: (S.digest key).toList).take
      ((S.root.toList ++ '/' :: (S.digest key).toList).length -
        (S.digest key).toList.length - 1) = S.root.toList := by
    rw [List.length_append, List.length_cons]
    exact List.take_left' (by omega)
  rw [Container.tmp, Serde.tempPath]
  simp only [hlist, takeWhile_reverse_sep (S.digest_plain key), List.reverse_reverse, hdir,
    String.ofList_toList]
  apply String.toList_inj.mp
  simp

section Apart

variable (S : Container κ) {key key' : κ} (hne : S.digest key ≠ S.digest key')

include hne

/-- Keys with different digests have different final names. -/
theorem Container.path_ne : S.path key ≠ S.path key' := by
  intro h
  have hlist := congrArg String.toList h
  simp only [Container.path, String.toList_append] at hlist
  exact hne (String.toList_inj.mp (List.append_cancel_left hlist))

/-- Keys with different digests never share a temporary name, whatever their nonces. -/
theorem Container.tmp_ne (nonce nonce' : Nonce) : S.tmp key nonce ≠ S.tmp key' nonce' := by
  intro h
  have hlist := congrArg String.toList h
  rw [S.tmp_eq, S.tmp_eq] at hlist
  simp only [String.toList_append, List.append_assoc, List.append_cancel_left_eq] at hlist
  exact hne (String.toList_inj.mp (List.append_inj hlist (S.length_digest key key')).1)

end Apart

/-- No temporary name is the final name of any key: it begins with `.tmp-`. -/
theorem Container.tmp_ne_path (S : Container κ) (key key' : κ) (nonce : Nonce) :
    S.tmp key nonce ≠ S.path key' := by
  intro h
  have hlen := Serde.length_lt_tempPath (S.path key) nonce.hex
  have hlen' := congrArg (fun s : String => s.toList.length) h
  have hdigest := S.length_digest key key'
  simp only [Container.tmp, Container.path, String.toList_append, List.length_append] at hlen hlen'
  omega

/-- The two names of a move, in the directory it is made in. -/
theorem Container.join_leaf_path (S : Container κ) (key : κ) :
    S.root ++ "/" ++ leaf (S.path key) = S.path key := by
  rw [Container.path, leaf_join (S.digest_plain key)]

/-- `dfs_move` gets root and leaf separately and moves the file that was opened. -/
theorem Container.join_leaf_tmp (S : Container κ) (key : κ) (nonce : Nonce) :
    S.root ++ "/" ++ leaf (S.tmp key nonce) = S.tmp key nonce := by
  have hplain : '/' ∉ (".tmp-" ++ S.digest key ++ "-" ++ nonce.hex).toList := by
    simp [S.digest_plain key, nonce.plain]
  rw [S.tmp_eq, leaf_join hplain]

/-! ## Calls -/

/-- What a call raises. -/
inductive Raised where
  | daos (e : DaosError)
  | pack (e : Serde.PackError)
  | assertionError (text : String)
  | ioError (text : String)
  | other
deriving DecidableEq

/-- A memory object: what `_put_one` asks of it. -/
structure MemObj where
  id : ℕ
  /-- `get_size()` -/
  size : ℕ
  metadata : ObjMeta
  /-- `is_cuda` of its tensor, when it has one -/
  isCuda : Option Bool
deriving DecidableEq, Repr

/-- The arguments of one `_put_one`. -/
structure Job (κ : Type) where
  key : κ
  obj : MemObj
  /-- whether there is a callback -/
  cb : Bool
deriving DecidableEq, Repr

def Job.page (j : Job κ) : Except Serde.PackError Bytes :=
  Serde.packHeader (metaPack j.obj.size j.obj.metadata) j.obj.size Serde.stateCommitted

/-- The outcome of a write, and what the file holds after it. -/
structure Written where
  result : Except Raised ℕ
  contents : Bytes

inductive Op (κ : Type) where
  | ensureCudaCtx
  /-- `key in self._known` -/
  | inKnown (key : κ)
  | addKnown (key : κ)
  | statSize (path : String)
  | openRdwrCreate (path : String)
  | writeObjFrom (h offset : ℕ) (src : Bytes)
  | synchronize
  | writeGpuFrom (h offset length obj : ℕ)
  | closeObj (h : ℕ)
  | lookup (path : String)
  | move (parent : ℕ) (name : String) (newParent : ℕ) (newName : String)
  | release (obj : ℕ)
  | callback (key : κ)
  | refCountUp (obj : ℕ)
  | refCountDown (obj : ℕ)
  /-- under `_put_lock`: whether the key was new, and is now in `_put_tasks` -/
  | claim (key : κ)
  | discard (key : κ)
  /-- `_pool.submit(self._put_one, ...)` -/
  | submit (j : Job κ)

def Ans : Op κ → Type
  | .inKnown _ | .claim _ => Bool
  | .statSize _ => Except Raised (Option ℕ)
  | .openRdwrCreate _ | .lookup _ => Except Raised ℕ
  | .writeObjFrom .. | .writeGpuFrom .. => Written
  | .ensureCudaCtx | .synchronize | .move .. | .callback _ | .submit _ => Except Raised Unit
  | .addKnown _ | .closeObj _ | .release _ | .refCountUp _ | .refCountDown _ | .discard _ => Unit

abbrev Io (κ α : Type) := Program (Op κ) Ans (Except Raised α)

abbrev Calls (κ : Type) := List (Event (Op κ) Ans)

/-! ## The code -/

/-- `contains`. Only what DAOS raises counts as absent. -/
def contains (S : Container κ) (key : κ) : Io κ Bool :=
  .call .ensureCudaCtx fun
    | .error e => .ret (.error e)
    | .ok _ => .call (.inKnown key) fun
      | true => .ret (.ok true)
      | false => .call (.statSize (S.path key)) fun
        | .error (.daos _) => .ret (.ok false)
        | .error e => .ret (.error e)
        | .ok none => .ret (.ok false)
        | .ok (some _) => .call (.addKnown key) fun _ => .ret (.ok true)

/-- The writes of `_put_one`, between the open and the close. What the write of the
page returns is not looked at. -/
def writeTmp (j : Job κ) (h : ℕ) : Io κ ℕ :=
  match j.page with
  | .error e => .ret (.error (.pack e))
  | .ok page => .call (.writeObjFrom h 0 page) fun r => match r.result with
    | .error e => .ret (.error e)
    | .ok _ => .call .synchronize fun
      | .error e => .ret (.error e)
      | .ok _ => .call (.writeGpuFrom h Serde.payloadOffset j.obj.size j.obj.id) fun r =>
          .ret r.result

/-- `_put_one` from the lookup of the root on. -/
def publish (S : Container κ) (j : Job κ) (nonce : Nonce) : Io κ Unit :=
  .call (.lookup S.root) fun
    | .error e => .ret (.error e)
    | .ok parent =>
        .call (.move parent (leaf (S.tmp j.key nonce)) parent (leaf (S.path j.key))) fun moved =>
          .call (.release parent) fun _ => match moved with
            | .error e => .ret (.error e)
            | .ok _ => .call (.addKnown j.key) fun _ =>
                -- what the callback raises is logged
                if j.cb then .call (.callback j.key) fun _ => .ret (.ok ()) else .ret (.ok ())

/-- `_put_one` from the open on. -/
def writeAndPublish (S : Container κ) (j : Job κ) (nonce : Nonce) : Io κ Unit :=
  .call (.openRdwrCreate (S.tmp j.key nonce)) fun
    | .error e => .ret (.error e)
    | .ok h => (writeTmp j h).bind fun r => .call (.closeObj h) fun _ => match r with
      | .error e => .ret (.error e)
      | .ok wrote =>
          if wrote ≠ j.obj.size then
            .ret (.error (.ioError s!"short GPU write {wrote}/{j.obj.size}"))
          else publish S j nonce

/-- The outer `try` of `_put_one`. -/
def putBody (S : Container κ) (j : Job κ) (nonce : Nonce) : Io κ Unit :=
  .call .ensureCudaCtx fun
    | .error e => .ret (.error e)
    | .ok _ => (contains S j.key).bind fun
      | .error e => .ret (.error e)
      | .ok true => .ret (.ok ())
      | .ok false =>
          if j.obj.isCuda = some true then writeAndPublish S j nonce
          else .ret (.error (.assertionError "put object must be a GPU MemoryObj"))

/-- `_put_one`: what the body raises is logged. -/
def putOne (S : Container κ) (j : Job κ) (nonce : Nonce) : Program (Op κ) Ans Unit :=
  (putBody S j nonce).bind fun _ => .call (.refCountDown j.obj.id) fun _ =>
    .call (.discard j.key) fun _ => .ret ()

/-- The loop of `batched_submit_put_task`; a future is known by its job. -/
def submitEach (cb : Bool) : List (κ × MemObj) → List (Job κ) → Io κ (Option (List (Job κ)))
  | [], futs => .ret (.ok (some futs))
  | (key, obj) :: rest, futs => .call (.claim key) fun
    | false => submitEach cb rest futs
    | true => .call (.refCountUp obj.id) fun _ => .call (.submit ⟨key, obj, cb⟩) fun
      | .error e => .ret (.error e)
      | .ok _ => submitEach cb rest (futs ++ [⟨key, obj, cb⟩])

/-- `batched_submit_put_task` -/
def batchedSubmitPutTask (storeEnabled : Bool) (keys : List κ) (memoryObjs : List MemObj)
    (cb : Bool) : Io κ (Option (List (Job κ))) :=
  if storeEnabled then submitEach cb (keys.zip memoryObjs) [] else .ret (.ok none)

/-! ## What the calls do -/

/-- What the calls of a put read and change. -/
structure World (κ : Type) where
  fs : Dfs
  /-- the files and directories that its handles refer to -/
  files : ℕ → Option Handle
  dirs : ℕ → Option String
  known : Finset κ
  tasks : Finset κ

section

variable [DecidableEq κ]

/-- A write through a handle, with what the file holds after it. -/
def World.write (w : World κ) (h : ℕ) (contents : Bytes) : World κ :=
  match w.files h with
  | some i => { w with fs := w.fs.setFile i contents }
  | none => w

/-- `dfs_move` between two open directories. -/
def World.move (w : World κ) (parent : ℕ) (name : String) (newParent : ℕ) (newName : String) :
    World κ :=
  match w.dirs parent, w.dirs newParent with
  | some dir, some newDir =>
      { w with fs := w.fs.rename (dir ++ "/" ++ name) (newDir ++ "/" ++ newName) }
  | _, _ => w

/-- A call that raises does nothing, a write apart. -/
def effect (w : World κ) : Event (Op κ) Ans → World κ
  | ⟨.openRdwrCreate path, .ok h⟩ =>
      let r := Dfs.openRdwrCreate w.fs path
      { w with fs := r.1, files := Function.update w.files h (some r.2) }
  | ⟨.writeObjFrom h _ _, r⟩ => w.write h r.contents
  | ⟨.writeGpuFrom h _ _ _, r⟩ => w.write h r.contents
  | ⟨.lookup path, .ok d⟩ => { w with dirs := Function.update w.dirs d (some path) }
  | ⟨.move parent name newParent newName, .ok _⟩ => w.move parent name newParent newName
  | ⟨.addKnown key, _⟩ => { w with known := insert key w.known }
  | ⟨.claim key, true⟩ => { w with tasks := insert key w.tasks }
  | ⟨.discard key, _⟩ => { w with tasks := w.tasks.erase key }
  | _ => w

end

/-! ## What a run leaves -/

/-- The call created or opened the temporary file. -/
def opens : Event (Op κ) Ans → Bool
  | ⟨.openRdwrCreate _, .ok _⟩ => true
  | _ => false

/-- The call gave the object its final name. -/
def moves : Event (Op κ) Ans → Bool
  | ⟨.move .., .ok _⟩ => true
  | _ => false

/-- The call found the object under its final name. -/
def finds : Event (Op κ) Ans → Bool
  | ⟨.statSize _, .ok (some _)⟩ => true
  | _ => false

/-- The call fails a put that has its temporary file. -/
def fails (j : Job κ) : Event (Op κ) Ans → Bool
  | ⟨.writeObjFrom .., ⟨.error _, _⟩⟩ | ⟨.synchronize, .error _⟩ => true
  | ⟨.writeGpuFrom .., ⟨.error _, _⟩⟩ => true
  | ⟨.writeGpuFrom .., ⟨.ok n, _⟩⟩ => n != j.obj.size
  | ⟨.lookup _, .error _⟩ | ⟨.move .., .error _⟩ => true
  | _ => false

/-- The references given back, by object. -/
def dropped (t : Calls κ) : List ℕ :=
  t.flatMap fun
    | ⟨.refCountDown obj, _⟩ => [obj]
    | _ => []

/-- The references taken, by object. -/
def taken (t : Calls κ) : List ℕ :=
  t.flatMap fun
    | ⟨.refCountUp obj, _⟩ => [obj]
    | _ => []

/-- The keys entered into `_put_tasks`. -/
def claimed (t : Calls κ) : List κ :=
  t.flatMap fun
    | ⟨.claim key, true⟩ => [key]
    | _ => []

/-- The puts handed to the pool. -/
def submitted (t : Calls κ) : List (Job κ) :=
  t.flatMap fun
    | ⟨.submit j, _⟩ => [j]
    | _ => []

/-- What others do while a put runs: nothing to its handles, its temporary file or its
key. Temporary names have a nonce, and a key in `_put_tasks` has one put; puts of other
keys are of this kind (`put_elsewhere`). -/
structure Elsewhere (S : Container κ) (j : Job κ) (nonce : Nonce) (w w' : World κ) : Prop where
  files : w'.files = w.files
  dirs : w'.dirs = w.dirs
  tmp : w'.fs.names (S.tmp j.key nonce) = w.fs.names (S.tmp j.key nonce)
  final : w.fs.SameAt w'.fs (S.path j.key)
  known : j.key ∈ w'.known ↔ j.key ∈ w.known
  tasks : j.key ∈ w'.tasks ↔ j.key ∈ w.tasks

theorem Elsewhere.refl (S : Container κ) (j : Job κ) (nonce : Nonce) (w : World κ) :
    Elsewhere S j nonce w w :=
  ⟨rfl, rfl, rfl, .refl _ _, Iff.rfl, Iff.rfl⟩

/-- What is to be true when `_put_one` has returned, after the calls `t` between `w`
and `w'`. -/
structure LeavesNothing (S : Container κ) (j : Job κ) (nonce : Nonce) (w : World κ) (t : Calls κ)
    (w' : World κ) : Prop where
  reference : dropped t = [j.obj.id]
  task : j.key ∉ w'.tasks
  tmp : (∃ e ∈ t, opens e) → w'.fs.names (S.tmp j.key nonce) = none
  final : (¬ ∃ e ∈ t, moves e) → w.fs.SameAt w'.fs (S.path j.key)
  known : j.key ∈ w'.known → j.key ∈ w.known ∨ (∃ e ∈ t, finds e) ∨ ∃ e ∈ t, moves e

/-- With a temporary file, nothing fails any more. -/
def Unharmed (j : Job κ) (t : Calls κ) : Prop :=
  (∃ e ∈ t, opens e) → (∃ page, j.page = .ok page) ∧ ∀ e ∈ t, fails j e = false

/-! ## What a call leaves alone -/

/-- The call changes names or files. -/
def touches : Event (Op κ) Ans → Bool
  | ⟨.openRdwrCreate _, .ok _⟩ | ⟨.writeObjFrom .., _⟩ | ⟨.writeGpuFrom .., _⟩ => true
  | ⟨.move .., .ok _⟩ => true
  | _ => false

/-- The call adds the key to `_known`. -/
def notes : Event (Op κ) Ans → Bool
  | ⟨.addKnown _, _⟩ => true
  | _ => false

/-- If the call touches a file, then by a write through `h`. -/
def within (h : ℕ) : Event (Op κ) Ans → Bool
  | ⟨.writeObjFrom h' _ _, _⟩ => h' == h
  | ⟨.writeGpuFrom h' _ _ _, _⟩ => h' == h
  | e => !touches e

section Effect

variable {w : World κ} {e : Event (Op κ) Ans}

@[simp] theorem write_known (h : ℕ) (contents : Bytes) : (w.write h contents).known = w.known := by
  unfold World.write
  split <;> rfl

@[simp] theorem write_tasks (h : ℕ) (contents : Bytes) : (w.write h contents).tasks = w.tasks := by
  unfold World.write
  split <;> rfl

@[simp] theorem move_known (d d' : ℕ) (name name' : String) :
    (w.move d name d' name').known = w.known := by
  unfold World.move
  split <;> rfl

@[simp] theorem move_tasks (d d' : ℕ) (name name' : String) :
    (w.move d name d' name').tasks = w.tasks := by
  unfold World.move
  split <;> rfl

/-- A write through a handle that is open changes the content of its file only. -/
theorem write_of_files {h : ℕ} {i : Handle} (hi : w.files h = some i) (contents : Bytes) :
    w.write h contents = { w with fs := w.fs.setFile i contents } := by
  rw [World.write, hi]

variable [DecidableEq κ]

/-- A call that touches no file leaves the files and the handles alone. -/
theorem effect_of_not_touches (h : touches e = false) :
    (effect w e).fs = w.fs ∧ (effect w e).files = w.files := by
  unfold effect
  split
  all_goals first
    | exact ⟨rfl, rfl⟩
    | cases h

/-- Only the note adds to `_known`. -/
theorem known_of_effect {key : κ} (h : key ∈ (effect w e).known) :
    key ∈ w.known ∨ notes e = true := by
  unfold effect at h
  split at h
  -- only `addKnown` changes `known`
  case h_6 => exact .inr rfl
  all_goals
    left
    simpa using h

/-- Within the temporary file `i`, nothing else changes. -/
theorem effect_of_within {h : ℕ} {i : Handle} (hi : w.files h = some i)
    (hin : within h e = true) :
    (effect w e).files = w.files ∧
      ((effect w e).fs = w.fs ∨ ∃ contents, (effect w e).fs = w.fs.setFile i contents) := by
  unfold within at hin
  split at hin
  · obtain rfl := eq_of_beq hin
    rw [effect, write_of_files hi]
    exact ⟨rfl, .inr ⟨_, rfl⟩⟩
  · obtain rfl := eq_of_beq hin
    rw [effect, write_of_files hi]
    exact ⟨rfl, .inr ⟨_, rfl⟩⟩
  · rcases effect_of_not_touches (w := w) (by simpa using hin) with ⟨hfs, hfiles⟩
    exact ⟨hfiles, .inl hfs⟩

end Effect

/-! ## The course of a put -/

/-- A lookup touches no file, and notes the key only of an object that it found. -/
theorem contains_runs {S : Container κ} {key : κ} {t : Calls κ} {r : Except Raised Bool}
    (hr : (contains S key).Runs t r) (j : Job κ) :
    (∀ e ∈ t, touches e = false ∧ fails j e = false) ∧
      ((∀ e ∈ t, notes e = false) ∨ r = .ok true ∧ ∃ e ∈ t, finds e) := by
  rcases Program.runs_call.mp hr with ⟨ans, t₁, rfl, hr₁⟩
  rcases ans with e | _
  · rcases Program.runs_ret.mp hr₁ with ⟨rfl, rfl⟩
    simp [touches, fails, notes]
  rcases Program.runs_call.mp hr₁ with ⟨ans, t₂, rfl, hr₂⟩
  rcases ans with _ | _
  · rcases Program.runs_call.mp hr₂ with ⟨ans, t₃, rfl, hr₃⟩
    rcases ans with e | _ | n
    · cases e
      all_goals
        rcases Program.runs_ret.mp hr₃ with ⟨rfl, rfl⟩
        simp [touches, fails, notes]
    · rcases Program.runs_ret.mp hr₃ with ⟨rfl, rfl⟩
      simp [touches, fails, notes]
    · -- the only answer after which the key is noted
      rcases Program.runs_call.mp hr₃ with ⟨ans, t₄, rfl, hr₄⟩
      rcases Program.runs_ret.mp hr₄ with ⟨rfl, rfl⟩
      simp [touches, fails, notes, finds]
  · rcases Program.runs_ret.mp hr₂ with ⟨rfl, rfl⟩
    simp [touches, fails, notes]

/-- The writes stay in the temporary file, and all of `size` is written exactly when
nothing fails. -/
theorem writeTmp_runs {j : Job κ} {h : ℕ} {t : Calls κ} {r : Except Raised ℕ}
    (hr : (writeTmp j h).Runs t r) :
    (∀ e ∈ t, within h e ∧ notes e = false) ∧
      ((∃ page, j.page = .ok page) ∧ (∀ e ∈ t, fails j e = false) ↔ r = .ok j.obj.size) := by
  rw [writeTmp] at hr
  split at hr
  · rename_i err hpage
    rcases Program.runs_ret.mp hr with ⟨rfl, rfl⟩
    simp [hpage]
  · rename_i page hpage
    rcases Program.runs_call.mp hr with ⟨wrote, t₁, rfl, hr₁⟩
    -- a short write of the page goes on like a full one
    rcases wrote with ⟨err | n, contents⟩
    · rcases Program.runs_ret.mp hr₁ with ⟨rfl, rfl⟩
      simp [within, notes, fails]
    rcases Program.runs_call.mp hr₁ with ⟨ans, t₂, rfl, hr₂⟩
    rcases ans with err | _
    · rcases Program.runs_ret.mp hr₂ with ⟨rfl, rfl⟩
      simp [within, touches, notes, fails]
    rcases Program.runs_call.mp hr₂ with ⟨wrote, t₃, rfl, hr₃⟩
    rcases Program.runs_ret.mp hr₃ with ⟨rfl, rfl⟩
    rcases wrote with ⟨err | m, contents'⟩
    · simp [within, touches, notes, fails]
    · simp [within, touches, notes, fails, hpage]

/-- The publication fails at the lookup or the rename, with all files as they were, or
it renames right after the lookup. -/
theorem publish_runs {S : Container κ} {j : Job κ} {nonce : Nonce} {t : Calls κ}
    {r : Except Raised Unit} (hr : (publish S j nonce).Runs t r) :
    ((∀ e ∈ t, touches e = false ∧ notes e = false) ∧ ∃ e ∈ t, fails j e) ∨
      ∃ d t', t = ⟨.lookup S.root, .ok d⟩ ::
          ⟨.move d (leaf (S.tmp j.key nonce)) d (leaf (S.path j.key)), .ok ()⟩ :: t' ∧
        ∀ e ∈ t', touches e = false ∧ fails j e = false := by
  -- the lookup of the root raises, or has the directory
  rcases Program.runs_call.mp hr with ⟨ans, t₁, rfl, hr₁⟩
  rcases ans with err | d
  · left
    rcases Program.runs_ret.mp hr₁ with ⟨rfl, rfl⟩
    simp [touches, notes, fails]
  rcases Program.runs_call.mp hr₁ with ⟨moved, t₂, rfl, hr₂⟩
  rcases Program.runs_call.mp hr₂ with ⟨ans, t₃, rfl, hr₃⟩
  -- the move raises: nothing was published
  rcases moved with err | _
  · left
    rcases Program.runs_ret.mp hr₃ with ⟨rfl, rfl⟩
    simp [touches, notes, fails]
  · -- moved: it is released and noted, and touches no file any more
    right
    refine ⟨d, _, rfl, ?_⟩
    -- the release of the directory, which may raise too
    rcases Program.runs_call.mp hr₃ with ⟨ans, t₄, rfl, hr₄⟩
    split at hr₄
    · rcases Program.runs_call.mp hr₄ with ⟨ans, t₅, rfl, hr₅⟩
      rcases Program.runs_ret.mp hr₅ with ⟨rfl, rfl⟩
      simp [touches, fails]
    · rcases Program.runs_ret.mp hr₄ with ⟨rfl, rfl⟩
      simp [touches, fails]

/-- The three courses that a put can take: what it does to files, to `_known`, and
whether it fails. -/
inductive Course (S : Container κ) (j : Job κ) (nonce : Nonce) (t : Calls κ) : Prop
  /-- it does not come to its temporary file -/
  | unopened (hquiet : ∀ e ∈ t, touches e = false)
      (hnotes : (∀ e ∈ t, notes e = false) ∨ ∃ e ∈ t, finds e)
  /-- it fails with the temporary file in place -/
  | left (h : ℕ) (t₁ t₂ : Calls κ)
      (ht : t = t₁ ++ ⟨.openRdwrCreate (S.tmp j.key nonce), .ok h⟩ :: t₂)
      (h₁ : ∀ e ∈ t₁, touches e = false ∧ notes e = false)
      (h₂ : ∀ e ∈ t₂, within h e ∧ notes e = false)
      (hbad : (∃ page, j.page = .ok page) → ∃ e ∈ t₂, fails j e)
  /-- nothing failed -/
  | published (h d : ℕ) (t₁ t₂ t₃ : Calls κ)
      (ht : t = t₁ ++ ⟨.openRdwrCreate (S.tmp j.key nonce), .ok h⟩ :: (t₂ ++
        ⟨.lookup S.root, .ok d⟩ ::
        ⟨.move d (leaf (S.tmp j.key nonce)) d (leaf (S.path j.key)), .ok ()⟩ :: t₃))
      (hpage : ∃ page, j.page = .ok page)
      (h₁ : ∀ e ∈ t₁, touches e = false ∧ fails j e = false)
      (h₂ : ∀ e ∈ t₂, within h e ∧ fails j e = false)
      (h₃ : ∀ e ∈ t₃, touches e = false ∧ fails j e = false)

/-- Calls that touch no file may come while the temporary file is open. -/
theorem within_of_not_touches {e : Event (Op κ) Ans} (h : touches e = false) (hd : ℕ) :
    within hd e = true := by
  unfold within
  split
  · cases h
  · cases h
  · rw [h]
    rfl

/-- From the open on, a `_put_one` takes one of the courses, behind whatever harmless calls
came before. -/
theorem writeAndPublish_course {S : Container κ} {j : Job κ} {nonce : Nonce} {t₀ t : Calls κ}
    (h₀ : ∀ e ∈ t₀, touches e = false ∧ fails j e = false ∧ notes e = false)
    {r : Except Raised Unit} (hr : (writeAndPublish S j nonce).Runs t r) :
    Course S j nonce (t₀ ++ t) := by
  rcases Program.runs_call.mp hr with ⟨ans, t₁, rfl, hr₁⟩
  have hquiet : ∀ e ∈ t₀, touches e = false ∧ notes e = false := fun e he =>
    ⟨(h₀ e he).1, (h₀ e he).2.2⟩
  rcases ans with err | h
  · rcases Program.runs_ret.mp hr₁ with ⟨rfl, rfl⟩
    refine .unopened ?_ (.inl ?_)
    · exact List.forall_mem_append.mpr
        ⟨fun e he => (hquiet e he).1, List.forall_mem_singleton.mpr rfl⟩
    · exact List.forall_mem_append.mpr
        ⟨fun e he => (hquiet e he).2, List.forall_mem_singleton.mpr rfl⟩
  rcases Program.runs_bind.mp hr₁ with ⟨t₂, t₃, wrote, rfl, hwrite, hrest⟩
  rcases writeTmp_runs hwrite with ⟨hin, hgood⟩
  rcases Program.runs_call.mp hrest with ⟨ans, t₄, rfl, hr₄⟩
  by_cases hfull : wrote = .ok j.obj.size
  · rw [hfull] at hr₄
    simp only [ne_eq, not_true_eq_false, if_false] at hr₄
    rcases hgood.mpr hfull with ⟨hpage, hok⟩
    rcases publish_runs hr₄ with ⟨hkept, hbad⟩ | ⟨d, t₅, rfl, h₃⟩
    · -- the lookup or the rename fails
      refine .left h t₀ _ rfl hquiet ?_ ?_
      · refine List.forall_mem_append.mpr ⟨hin, List.forall_mem_cons.mpr ⟨⟨rfl, rfl⟩, ?_⟩⟩
        intro e he
        exact ⟨within_of_not_touches (hkept e he).1 h, (hkept e he).2⟩
      · intro _
        rcases hbad with ⟨e, he, hfails⟩
        exact ⟨e, List.mem_append_right _ (List.mem_cons_of_mem _ he), hfails⟩
    · refine .published h d t₀ (t₂ ++ [⟨.closeObj h, ans⟩]) t₅ ?_ hpage ?_ ?_ h₃
      · rw [List.append_assoc]
        rfl
      · intro e he
        exact ⟨(h₀ e he).1, (h₀ e he).2.1⟩
      · refine List.forall_mem_append.mpr ⟨?_, List.forall_mem_singleton.mpr ⟨rfl, rfl⟩⟩
        intro e he
        exact ⟨(hin e he).1, hok e he⟩
  · -- the header or the payload is not written
    have hret : t₄ = [] := by
      rcases wrote with err | n
      · exact (Program.runs_ret.mp hr₄).1
      · simp only at hr₄
        rw [if_pos fun hn => hfull (congrArg _ hn)] at hr₄
        exact (Program.runs_ret.mp hr₄).1
    subst hret
    refine .left h t₀ _ rfl hquiet ?_ ?_
    · exact List.forall_mem_append.mpr ⟨hin, List.forall_mem_singleton.mpr ⟨rfl, rfl⟩⟩
    · intro hpage
      by_contra hnone
      refine hfull (hgood.mp ⟨hpage, ?_⟩)
      intro e he
      apply Bool.eq_false_iff.mpr
      intro hfails
      exact hnone ⟨e, List.mem_append_left _ he, hfails⟩

/-- And so does the whole body of a `_put_one`, from its `contains` on. -/
theorem putBody_course {S : Container κ} {j : Job κ} {nonce : Nonce} {t : Calls κ}
    {r : Except Raised Unit} (hr : (putBody S j nonce).Runs t r) : Course S j nonce t := by
  rcases Program.runs_call.mp hr with ⟨ans, t₁, rfl, hr₁⟩
  rcases ans with err | u
  · rcases Program.runs_ret.mp hr₁ with ⟨rfl, rfl⟩
    exact .unopened (List.forall_mem_singleton.mpr rfl) (.inl (List.forall_mem_singleton.mpr rfl))
  rcases Program.runs_bind.mp hr₁ with ⟨t₂, t₃, present, rfl, hcontains, hrest⟩
  rcases contains_runs hcontains j with ⟨hahead, hnotes⟩
  have hquiet : ∀ e ∈ (⟨.ensureCudaCtx, .ok u⟩ :: t₂ : Calls κ),
      touches e = false ∧ fails j e = false := List.forall_mem_cons.mpr ⟨⟨rfl, rfl⟩, hahead⟩
  have hstop : t₃ = [] → Course S j nonce (⟨.ensureCudaCtx, .ok u⟩ :: (t₂ ++ t₃)) := by
    rintro rfl
    rw [List.append_nil]
    refine .unopened (fun e he => (hquiet e he).1) ?_
    rcases hnotes with hnotes | ⟨-, e, he, hfinds⟩
    · exact .inl (List.forall_mem_cons.mpr ⟨rfl, hnotes⟩)
    · exact .inr ⟨e, List.mem_cons_of_mem _ he, hfinds⟩
  rcases present with err | _ | _
  · exact hstop (Program.runs_ret.mp hrest).1
  · simp only at hrest
    split at hrest
    · -- absent: nothing was noted yet
      have hnone : ∀ e ∈ t₂, notes e = false := by
        rcases hnotes with hnotes | ⟨hpresent, -⟩
        · exact hnotes
        · cases hpresent
      have h₀ : ∀ e ∈ (⟨.ensureCudaCtx, .ok u⟩ :: t₂ : Calls κ),
          touches e = false ∧ fails j e = false ∧ notes e = false := by
        refine List.forall_mem_cons.mpr ⟨⟨rfl, rfl, rfl⟩, ?_⟩
        intro e he
        exact ⟨(hahead e he).1, (hahead e he).2, hnone e he⟩
      exact writeAndPublish_course h₀ hrest
    · exact hstop (Program.runs_ret.mp hrest).1
  · exact hstop (Program.runs_ret.mp hrest).1

/-- Calls that concern neither files nor `_known` do not change the course. -/
theorem Course.append {S : Container κ} {j : Job κ} {nonce : Nonce} {t t' : Calls κ}
    (hc : Course S j nonce t)
    (h' : ∀ e ∈ t', touches e = false ∧ fails j e = false ∧ notes e = false) :
    Course S j nonce (t ++ t') := by
  -- what follows touches no file, so the course is the same with a longer end
  cases hc with
  | unopened hquiet hnotes =>
      refine .unopened (List.forall_mem_append.mpr ⟨hquiet, fun e he => (h' e he).1⟩) ?_
      rcases hnotes with hnotes | ⟨e, he, hfinds⟩
      · exact .inl (List.forall_mem_append.mpr ⟨hnotes, fun e he => (h' e he).2.2⟩)
      · exact .inr ⟨e, List.mem_append_left _ he, hfinds⟩
  -- the file is still there, and so is the call that failed
  | left h t₁ t₂ ht h₁ h₂ hbad =>
      refine .left h t₁ (t₂ ++ t') ?_ h₁ ?_ ?_
      · rw [ht, List.append_assoc]
        rfl
      · refine List.forall_mem_append.mpr ⟨h₂, ?_⟩
        intro e he
        exact ⟨within_of_not_touches (h' e he).1 h, (h' e he).2.2⟩
      · intro hpage
        rcases hbad hpage with ⟨e, he, hfails⟩
        exact ⟨e, List.mem_append_left _ he, hfails⟩
  | published h d t₁ t₂ t₃ ht hpage h₁ h₂ h₃ =>
      refine .published h d t₁ t₂ (t₃ ++ t') ?_ hpage h₁ h₂ ?_
      · rw [ht]
        simp
      · refine List.forall_mem_append.mpr ⟨h₃, ?_⟩
        intro e he
        exact ⟨(h' e he).1, (h' e he).2.1⟩

/-- What the body of a put of `key` may call: no reference, nothing of `_put_tasks`, and
no other key of `_known`. -/
def InBody (key : κ) : Op κ → Prop
  | .addKnown key' => key' = key
  | .refCountUp _ | .refCountDown _ | .claim _ | .discard _ | .submit _ => False
  | _ => True

/-- `contains` makes calls of the body of its own key only. -/
theorem contains_onlyCalls (S : Container κ) (key : κ) :
    (contains S key).OnlyCalls (InBody key) := by
  refine ⟨trivial, ?_⟩
  intro ctx
  rcases ctx with err | _
  · trivial
  refine ⟨trivial, ?_⟩
  intro known
  cases known with
  | true => trivial
  | false =>
      refine ⟨trivial, ?_⟩
      intro size
      rcases size with err | _ | n
      · cases err <;> trivial
      · trivial
      · exact ⟨rfl, fun _ => trivial⟩

/-- The two writes of a `_put_one` are calls of its body. -/
theorem writeTmp_onlyCalls (j : Job κ) (h : ℕ) :
    (writeTmp j h).OnlyCalls (InBody j.key) := by
  unfold writeTmp
  split
  · trivial
  refine ⟨trivial, ?_⟩
  intro wrote
  rcases wrote with ⟨err | n, contents⟩
  · trivial
  refine ⟨trivial, ?_⟩
  intro synced
  rcases synced with err | _
  · trivial
  · exact ⟨trivial, fun _ => trivial⟩

/-- So are the lookup of the root, the move and the note. -/
theorem publish_onlyCalls (S : Container κ) (j : Job κ) (nonce : Nonce) :
    (publish S j nonce).OnlyCalls (InBody j.key) := by
  refine ⟨trivial, ?_⟩
  intro parent
  rcases parent with err | d
  · trivial
  refine ⟨trivial, fun moved => ⟨trivial, fun _ => ?_⟩⟩
  rcases moved with err | _
  · trivial
  refine ⟨rfl, fun _ => ?_⟩
  split
  · exact ⟨trivial, fun _ => trivial⟩
  · trivial

/-- From the open on only calls of the body are made. -/
theorem writeAndPublish_onlyCalls (S : Container κ) (j : Job κ) (nonce : Nonce) :
    (writeAndPublish S j nonce).OnlyCalls (InBody j.key) := by
  refine ⟨trivial, ?_⟩
  intro opened
  rcases opened with err | h
  · trivial
  refine (writeTmp_onlyCalls j h).bind ?_
  intro wrote
  refine ⟨trivial, fun _ => ?_⟩
  rcases wrote with err | n
  · trivial
  · simp only
    split
    · trivial
    · exact publish_onlyCalls S j nonce

/-- The whole body of a `_put_one` neither drops a reference nor touches `_put_tasks`. -/
theorem putBody_onlyCalls (S : Container κ) (j : Job κ) (nonce : Nonce) :
    (putBody S j nonce).OnlyCalls (InBody j.key) := by
  refine ⟨trivial, ?_⟩
  intro ctx
  rcases ctx with err | _
  · trivial
  refine (contains_onlyCalls S j.key).bind ?_
  intro present
  rcases present with err | _ | _
  · trivial
  · simp only
    split
    · exact writeAndPublish_onlyCalls S j nonce
    · trivial
  · trivial

/-- The body drops no reference. -/
theorem dropped_eq_nil {key : κ} {t : Calls κ} (h : ∀ e ∈ t, InBody key e.op) :
    dropped t = [] := by
  apply List.flatMap_eq_nil_iff.mpr
  intro e he
  rcases e with ⟨o, ans⟩
  have hbody := h _ he
  cases o with
  | refCountDown obj => exact hbody.elim
  | _ => rfl

/-- Every `_put_one` takes one of the courses, drops the reference of its object once and
takes its key out of `_put_tasks` at the end. -/
theorem putOne_runs {S : Container κ} {j : Job κ} {nonce : Nonce} {t : Calls κ}
    (hr : (putOne S j nonce).Runs t ()) :
    Course S j nonce t ∧ dropped t = [j.obj.id] ∧ ∃ t', t = t' ++ [⟨.discard j.key, ()⟩] := by
  rcases Program.runs_bind.mp hr with ⟨t₁, t₂, r, rfl, hbody, hr₂⟩
  rcases Program.runs_call.mp hr₂ with ⟨u, t₃, rfl, hr₃⟩
  rcases Program.runs_call.mp hr₃ with ⟨u', t₄, rfl, hr₄⟩
  rcases Program.runs_ret.mp hr₄ with ⟨rfl, -⟩
  refine ⟨(putBody_course hbody).append ?_, ?_, t₁ ++ [⟨.refCountDown j.obj.id, u⟩], ?_⟩
  · simp [touches, fails, notes]
  · rw [dropped, List.flatMap_append]
    show dropped t₁ ++ _ = _
    rw [dropped_eq_nil ((putBody_onlyCalls S j nonce).of_runs hbody)]
    rfl
  · rw [List.append_assoc]
    rfl

/-! ## What becomes of the files -/

section World

variable [DecidableEq κ] {S : Container κ} {j : Job κ} {nonce : Nonce} {w w' : World κ}
variable {t : Calls κ}

/-- Calls that touch no file, and others: the temporary name is what it was. -/
theorem tmp_of_quiet (hw : Interleaved (Elsewhere S j nonce) effect w t w')
    (hquiet : ∀ e ∈ t, touches e = false) :
    w'.fs.names (S.tmp j.key nonce) = w.fs.names (S.tmp j.key nonce) := by
  refine hw.keeps (P := fun v => v.fs.names (S.tmp j.key nonce) = w.fs.names (S.tmp j.key nonce))
    ?_ ?_ rfl
  · intro v v' hv h
    exact hv.tmp.trans h
  · intro v e he h
    rw [(effect_of_not_touches (hquiet e he)).1]
    exact h

/-- A run that touches no file, between steps of others elsewhere, leaves the final name of
the key as it was. -/
theorem final_of_quiet (hw : Interleaved (Elsewhere S j nonce) effect w t w')
    (hquiet : ∀ e ∈ t, touches e = false) : w.fs.SameAt w'.fs (S.path j.key) := by
  refine hw.keeps (P := fun v => w.fs.SameAt v.fs (S.path j.key)) ?_ ?_ (.refl _ _)
  · intro v v' hv h
    exact h.trans hv.final
  · intro v e he h
    rw [(effect_of_not_touches (hquiet e he)).1]
    exact h

/-- The call has `h` open on its temporary file `i`, and has not published it. -/
structure Holding (S : Container κ) (j : Job κ) (nonce : Nonce) (fs : Dfs) (h : ℕ) (i : Handle)
    (v : World κ) : Prop where
  files : v.files h = some i
  tmp : v.fs.names (S.tmp j.key nonce) = some i
  final : fs.SameAt v.fs (S.path j.key)

variable {fs : Dfs} {h : ℕ} {i : Handle}

omit [DecidableEq κ] in
/-- Others do not disturb a writer that holds its temporary file. -/
theorem Holding.elsewhere (hh : Holding S j nonce fs h i w) (hv : Elsewhere S j nonce w w') :
    Holding S j nonce fs h i w' :=
  ⟨hv.files ▸ hh.files, hv.tmp.trans hh.tmp, hh.final.trans hv.final⟩

/-- The writer's own calls up to the move keep it, too. -/
theorem Holding.effect (hh : Holding S j nonce fs h i w) {e : Event (Op κ) Ans}
    (hin : within h e = true) : Holding S j nonce fs h i (effect w e) := by
  rcases effect_of_within hh.files hin with ⟨hfiles, hfs | ⟨contents, hfs⟩⟩
  · exact ⟨hfiles ▸ hh.files, hfs ▸ hh.tmp, hfs ▸ hh.final⟩
  · refine ⟨hfiles ▸ hh.files, ?_, ?_⟩
    · rw [hfs, FileStore.setFile_names]
      exact hh.tmp
    · rw [hfs]
      exact hh.final.trans
        (FileStore.sameAt_setFile hh.tmp (S.tmp_ne_path j.key j.key nonce).symm contents)

/-- Any number of both keeps it. -/
theorem Holding.run (hh : Holding S j nonce fs h i w)
    (hw : Interleaved (Elsewhere S j nonce) Store.effect w t w')
    (hin : ∀ e ∈ t, within h e = true) : Holding S j nonce fs h i w' := by
  refine hw.keeps ?_ ?_ hh
  · intro v v' hv hhv
    exact hhv.elsewhere hv
  · intro v e he hhv
    exact hhv.effect (hin e he)

/-- The open makes the writer the holder of a file of its own. -/
theorem holding_of_open (hfinal : fs.SameAt w.fs (S.path j.key)) :
    ∃ i, Holding S j nonce fs h i
      (effect w ⟨.openRdwrCreate (S.tmp j.key nonce), .ok h⟩) := by
  refine ⟨(Dfs.openRdwrCreate w.fs (S.tmp j.key nonce)).2, ?_, ?_, ?_⟩
  · exact Function.update_self ..
  · exact FileStore.openCreate_names_self ..
  · exact hfinal.trans (FileStore.sameAt_openCreate _ (S.tmp_ne_path j.key j.key nonce).symm)

/-- The rename takes the temporary name away. -/
theorem tmp_of_move {d : ℕ} (hh : Holding S j nonce fs h i w) (hd : w.dirs d = some S.root) :
    (effect w ⟨.move d (leaf (S.tmp j.key nonce)) d (leaf (S.path j.key)), .ok ()⟩).fs.names
      (S.tmp j.key nonce) = none := by
  simp only [effect, World.move, hd, S.join_leaf_tmp, S.join_leaf_path]
  rw [(FileStore.rename_of_some hh.tmp _).1,
    Function.update_of_ne (S.tmp_ne_path j.key j.key nonce), Function.update_self]

/-- A key that is in `_known` after a run was there before or was noted by it. -/
theorem known_of_run (hw : Interleaved (Elsewhere S j nonce) effect w t w')
    (hknown : j.key ∈ w'.known) : j.key ∈ w.known ∨ ∃ e ∈ t, notes e := by
  by_contra hnone
  push Not at hnone
  refine hw.keeps (P := fun v => j.key ∉ v.known) ?_ ?_ hnone.1 hknown
  · intro v v' hv h
    exact fun h' => h (hv.known.mp h')
  · intro v e he h hkey
    rcases known_of_effect hkey with hkey | hnotes
    · exact h hkey
    · exact hnone.2 e he hnotes

/-- A call that failed with its temporary file leaves it. -/
theorem names_of_left {h : ℕ} {t₁ t₂ : Calls κ}
    (hw : Interleaved (Elsewhere S j nonce) effect w
      (t₁ ++ ⟨.openRdwrCreate (S.tmp j.key nonce), .ok h⟩ :: t₂) w')
    (h₁ : ∀ e ∈ t₁, touches e = false) (h₂ : ∀ e ∈ t₂, within h e) :
    ∃ i, Holding S j nonce w.fs h i w' := by
  rcases hw.of_append (Elsewhere.refl S j nonce) with ⟨v, hw₁, v', hv, hw₂⟩
  rcases holding_of_open (h := h) ((final_of_quiet hw₁ h₁).trans hv.final) with ⟨i, hi⟩
  exact ⟨i, hi.run hw₂ h₂⟩

/-- After the move and the note the temporary name is free again. -/
theorem tmp_of_published {h d : ℕ} {t₁ t₂ t₃ : Calls κ}
    (hw : Interleaved (Elsewhere S j nonce) effect w
      (t₁ ++ ⟨.openRdwrCreate (S.tmp j.key nonce), .ok h⟩ :: (t₂ ++ ⟨.lookup S.root, .ok d⟩ ::
        ⟨.move d (leaf (S.tmp j.key nonce)) d (leaf (S.path j.key)), .ok ()⟩ :: t₃)) w')
    (h₁ : ∀ e ∈ t₁, touches e = false) (h₂ : ∀ e ∈ t₂, within h e)
    (h₃ : ∀ e ∈ t₃, touches e = false) : w'.fs.names (S.tmp j.key nonce) = none := by
  rcases hw.of_append (Elsewhere.refl S j nonce) with ⟨v₁, hw₁, v₁', hv₁, hw₂⟩
  rcases holding_of_open (h := h) ((final_of_quiet hw₁ h₁).trans hv₁.final) with ⟨i, hopen⟩
  rcases hw₂.of_append (Elsewhere.refl S j nonce) with ⟨v₂, hw₃, v₂', hv₂, v₃, hv₃, hw₄⟩
  -- the directory handle and the file are still what they were when others have stepped
  have hlooked : Holding S j nonce w.fs h i (effect v₂' ⟨.lookup S.root, .ok d⟩) :=
    ((hopen.run hw₃ h₂).elsewhere hv₂).effect rfl
  have hdir : v₃.dirs d = some S.root := by
    rw [hv₃.dirs]
    exact Function.update_self ..
  rw [tmp_of_quiet hw₄ h₃]
  exact tmp_of_move (hlooked.elsewhere hv₃) hdir

end World

/-! ## Puts among each other -/

/-- The world, seen by a put with other handles. -/
def World.withHandles (w : World κ) (files : ℕ → Option Handle) (dirs : ℕ → Option String) :
    World κ := { w with files := files, dirs := dirs }

/-- A list cut at two places. -/
theorem append_cons_cases {ι : Type*} {a b c d : List ι} {x y : ι}
    (h : a ++ x :: b = c ++ y :: d) :
    (∃ l, c = a ++ x :: l) ∨ (a = c ∧ x = y) ∨ ∃ l, a = c ++ y :: l ∧ d = l ++ x :: b := by
  rcases List.append_eq_append_iff.mp h with ⟨l, rfl, hl⟩ | ⟨l, rfl, hl⟩
  · rcases l with - | ⟨z, l⟩
    · cases hl
      exact .inr (.inl ⟨(List.append_nil _).symm, rfl⟩)
    · cases hl
      exact .inl ⟨l, rfl⟩
  · rcases l with - | ⟨z, l⟩
    · cases hl
      exact .inr (.inl ⟨List.append_nil _, rfl⟩)
    · cases hl
      exact .inr (.inr ⟨l, rfl, rfl⟩)

section Others

variable [DecidableEq κ] {S : Container κ} {j k : Job κ} {nonce nonce' : Nonce}
variable {w v : World κ} {e : Event (Op κ) Ans} {t₁ t₂ : Calls κ}

/-- A call that does not note a key leaves that key's entry in `_known` alone. -/
theorem known_effect_iff {key : κ} (h : e.op ≠ .addKnown key) :
    key ∈ (effect v e).known ↔ key ∈ v.known := by
  unfold effect
  split
  case h_6 =>
    -- a key noted
    have hne : key ≠ _ := fun heq => h (heq ▸ rfl)
    simp [hne]
  all_goals simp

/-- Only a claim and a discard of a key change its entry in `_put_tasks`. -/
theorem tasks_effect_iff {key : κ} (hclaim : e.op ≠ .claim key) (hdiscard : e.op ≠ .discard key) :
    key ∈ (effect v e).tasks ↔ key ∈ v.tasks := by
  unfold effect
  split
  case h_7 =>
    -- a key claimed
    have hne : key ≠ _ := fun heq => hclaim (heq ▸ rfl)
    simp [hne]
  case h_8 =>
    -- a key discarded
    have hne : key ≠ _ := fun heq => hdiscard (heq ▸ rfl)
    simp [hne]
  all_goals simp

/-- The call leaves the temporary name and the final file of `j` alone. -/
def Spares (S : Container κ) (j : Job κ) (nonce : Nonce) (v : World κ) (e : Event (Op κ) Ans) :
    Prop :=
  (effect v e).fs.names (S.tmp j.key nonce) = v.fs.names (S.tmp j.key nonce) ∧
    v.fs.SameAt (effect v e).fs (S.path j.key)

/-- For the put of one key, calls that touch no file spare those of another. -/
theorem spares_of_quiet (h : touches e = false) : Spares S j nonce v e := by
  rw [Spares, (effect_of_not_touches h).1]
  exact ⟨rfl, .refl _ _⟩

/-- Writes through a handle of one key spare the put of another. -/
theorem spares_of_within {fs : Dfs} {h : ℕ} {i : Handle} (hh : Holding S k nonce' fs h i v)
    (hin : within h e = true) : Spares S j nonce v e := by
  rcases (effect_of_within hh.files hin).2 with hfs | ⟨contents, hfs⟩
  · rw [Spares, hfs]
    exact ⟨rfl, .refl _ _⟩
  · rw [Spares, hfs, FileStore.setFile_names]
    exact ⟨rfl, FileStore.sameAt_setFile hh.tmp (S.tmp_ne_path k.key j.key nonce').symm _⟩

/-- An open under one digest spares the put under another. -/
theorem spares_of_open (hne : S.digest k.key ≠ S.digest j.key) (h : ℕ) :
    Spares S j nonce v ⟨.openRdwrCreate (S.tmp k.key nonce'), .ok h⟩ :=
  ⟨FileStore.openCreate_names_ne _ (S.tmp_ne hne nonce' nonce).symm,
    FileStore.sameAt_openCreate _ (S.tmp_ne_path k.key j.key nonce').symm⟩

/-- So does a move, both of whose names have the other digest. -/
theorem spares_of_move (hne : S.digest k.key ≠ S.digest j.key) {fs : Dfs} {h d : ℕ} {i : Handle}
    (hh : Holding S k nonce' fs h i v) (hd : v.dirs d = some S.root) : Spares S j nonce v
      ⟨.move d (leaf (S.tmp k.key nonce')) d (leaf (S.path k.key)), .ok ()⟩ := by
  simp only [Spares, effect, World.move, hd, S.join_leaf_tmp, S.join_leaf_path]
  refine ⟨?_, FileStore.sameAt_rename (S.tmp_ne_path k.key j.key nonce').symm
    (S.path_ne hne).symm⟩
  rw [(FileStore.rename_of_some hh.tmp _).1,
    Function.update_of_ne (S.tmp_ne_path j.key k.key nonce),
    Function.update_of_ne (S.tmp_ne hne nonce' nonce).symm]

/-- What `lookup` returned is the root directory, whatever others do meanwhile. -/
theorem dirs_of_lookup {t : Calls κ} {d : ℕ} (hw : Interleaved (Elsewhere S k nonce') effect w
    (t ++ [⟨.lookup S.root, .ok d⟩]) v) : v.dirs d = some S.root := by
  rcases hw.of_append (Elsewhere.refl S k nonce') with ⟨r, -, r', -, hv⟩
  rw [hv.dirs]
  exact Function.update_self ..

/-- Every call of a put of another key does. -/
theorem put_spares (hne : S.digest k.key ≠ S.digest j.key)
    (hc : Course S k nonce' (t₁ ++ e :: t₂))
    (hw : Interleaved (Elsewhere S k nonce') effect w t₁ v) : Spares S j nonce v e := by
  cases hc with
  | unopened hquiet _ => exact spares_of_quiet (hquiet e (by simp))
  | left h a b ht ha hb _ =>
      rcases append_cons_cases ht with ⟨l, rfl⟩ | ⟨rfl, rfl⟩ | ⟨l, rfl, rfl⟩
      · exact spares_of_quiet (ha e (by simp)).1
      · exact spares_of_open hne h
      · rcases names_of_left hw (fun e he => (ha e he).1)
          (fun e he => (hb e (List.mem_append_left _ he)).1) with ⟨i, hi⟩
        exact spares_of_within hi (hb e (by simp)).1
  | published h d a b c ht _ ha hb hc =>
      rcases append_cons_cases ht with ⟨l, rfl⟩ | ⟨rfl, rfl⟩ | ⟨l, rfl, hl⟩
      · exact spares_of_quiet (ha e (by simp)).1
      · exact spares_of_open hne h
      have ha' : ∀ e ∈ a, touches e = false := fun e he => (ha e he).1
      rcases append_cons_cases hl.symm with ⟨l', rfl⟩ | ⟨rfl, rfl⟩ | ⟨l', rfl, hl'⟩
      · rcases names_of_left hw ha' (fun e he => (hb e (List.mem_append_left _ he)).1) with ⟨i, hi⟩
        exact spares_of_within hi (hb e (by simp)).1
      · exact spares_of_quiet rfl
      rcases l' with - | ⟨e', l'⟩
      · -- the rename, with the root looked up just before
        cases hl'
        have hin : ∀ e ∈ b ++ [⟨.lookup S.root, .ok d⟩], within h e = true :=
          List.forall_mem_append.mpr ⟨fun e he => (hb e he).1, List.forall_mem_singleton.mpr rfl⟩
        rcases names_of_left hw ha' hin with ⟨i, hi⟩
        rw [← List.cons_append, ← List.append_assoc] at hw
        exact spares_of_move hne hi (dirs_of_lookup hw)
      · cases hl'
        exact spares_of_quiet (hc e (by simp)).1

omit [DecidableEq κ] in
/-- A `_put_one` of one key leaves `_known` and `_put_tasks` alone at every other key. -/
theorem putOne_onlyCalls (S : Container κ) (nonce : Nonce) {key : κ} (hne : k.key ≠ key) :
    (putOne S k nonce).OnlyCalls fun o =>
      o ≠ .addKnown key ∧ o ≠ .claim key ∧ o ≠ .discard key := by
  refine Program.OnlyCalls.bind ((putBody_onlyCalls S k nonce).mono ?_) ?_
  · intro o hbody
    cases o with
    | addKnown key' =>
        obtain rfl : key' = k.key := hbody
        simpa using hne
    | claim key' => exact hbody.elim
    | discard key' => exact hbody.elim
    | _ => simp
  · intro _
    exact ⟨by simp, fun _ => ⟨by simpa using hne, fun _ => trivial⟩⟩

/-- The puts of other keys are what `Elsewhere` allows. -/
theorem put_elsewhere (hne : S.digest k.key ≠ S.digest j.key)
    (hr : (putOne S k nonce').Runs (t₁ ++ e :: t₂) ())
    (hw : Interleaved (Elsewhere S k nonce') effect w t₁ v) (files : ℕ → Option Handle)
    (dirs : ℕ → Option String) : Elsewhere S j nonce (v.withHandles files dirs)
      ((effect v e).withHandles files dirs) := by
  have hspares : Spares S j nonce v e := put_spares hne (putOne_runs hr).1 hw
  have hkey : k.key ≠ j.key := fun heq => hne (congrArg S.digest heq)
  have hcalls := (putOne_onlyCalls S nonce' hkey).of_runs hr e (by simp)
  refine ⟨rfl, rfl, hspares.1, hspares.2, ?_, ?_⟩
  · exact known_effect_iff hcalls.1
  · exact tasks_effect_iff hcalls.2.1 hcalls.2.2

end Others

/-! ## Every put of every batch -/

/-- A run that goes through the open has opened the temporary file. -/
theorem exists_opens {h : ℕ} {path : String} (t₁ t₂ : Calls κ) :
    ∃ e ∈ t₁ ++ ⟨.openRdwrCreate path, .ok h⟩ :: t₂, opens e :=
  ⟨_, List.mem_append_right _ List.mem_cons_self, rfl⟩

/-- A run that goes through the move has moved it. -/
theorem exists_moves {d d' : ℕ} {name name' : String} (a b : Event (Op κ) Ans)
    (t₁ t₂ t₃ : Calls κ) :
    ∃ e ∈ t₁ ++ a :: (t₂ ++ b :: ⟨.move d name d' name', .ok ()⟩ :: t₃), moves e := by
  refine ⟨⟨.move d name d' name', .ok ()⟩, ?_, rfl⟩
  simp

theorem not_mem_of_false {p : Event (Op κ) Ans → Bool} {t : Calls κ} (h : ∀ e ∈ t, p e = false) :
    ¬ ∃ e ∈ t, p e := by
  rintro ⟨e, he, hp⟩
  rw [h e he] at hp
  cases hp

/-- What leaves the files alone neither opens nor moves. -/
theorem opens_of_not_touches {e : Event (Op κ) Ans} (h : touches e = false) : opens e = false := by
  unfold opens
  split
  · cases h
  · rfl

section Put

variable [DecidableEq κ] {S : Container κ} {j : Job κ} {nonce : Nonce} {w w' : World κ}
variable {t : Calls κ}

/-- If the key ends up in `_known`, then it was there, the `stat` found the object, or the
put moved its own into place. -/
theorem Course.known (hc : Course S j nonce t)
    (hw : Interleaved (Elsewhere S j nonce) effect w t w') (hknown : j.key ∈ w'.known) :
    j.key ∈ w.known ∨ (∃ e ∈ t, finds e) ∨ ∃ e ∈ t, moves e := by
  rcases known_of_run hw hknown with hkey | hnotes
  · exact .inl hkey
  cases hc with
  | unopened _ hor =>
      rcases hor with hnone | hfinds
      · exact absurd hnotes (not_mem_of_false hnone)
      · exact .inr (.inl hfinds)
  | left h t₁ t₂ ht h₁ h₂ _ =>
      refine absurd hnotes (not_mem_of_false ?_)
      rw [ht]
      exact List.forall_mem_append.mpr ⟨fun e he => (h₁ e he).2,
        List.forall_mem_cons.mpr ⟨rfl, fun e he => (h₂ e he).2⟩⟩
  | published h d t₁ t₂ t₃ ht _ _ _ _ =>
      rw [ht]
      exact .inr (.inr (exists_moves ..))

/-- Everything except the temporary file is in order on every course. -/
theorem leavesNothing_iff (hr : (putOne S j nonce).Runs t ())
    (hw : Interleaved (Elsewhere S j nonce) effect w t w') :
    LeavesNothing S j nonce w t w' ↔ Unharmed j t := by
  rcases putOne_runs hr with ⟨hc, hdropped, t', hlast⟩
  have htask : j.key ∉ w'.tasks := by
    -- the last call discards it
    rw [hlast] at hw
    rcases hw.of_append (Elsewhere.refl S j nonce) with ⟨v, -, v', -, hv⟩
    intro hin
    exact Finset.notMem_erase _ _ (hv.tasks.mp hin)
  have hknown := hc.known hw
  cases hc with
  | unopened hquiet _ =>
      have hopens : ¬ ∃ e ∈ t, opens e :=
        not_mem_of_false fun e he => opens_of_not_touches (hquiet e he)
      refine iff_of_true ⟨hdropped, htask, ?_, ?_, hknown⟩ ?_
      · exact fun h => absurd h hopens
      · exact fun _ => final_of_quiet hw hquiet
      · exact fun h => absurd h hopens
  | left h t₁ t₂ ht h₁ h₂ hbad =>
      rw [ht] at hw
      rcases names_of_left hw (fun e he => (h₁ e he).1) (fun e he => (h₂ e he).1) with ⟨i, hi⟩
      have hopens : ∃ e ∈ t, opens e := ht ▸ exists_opens t₁ t₂
      refine iff_of_false ?_ ?_
      · intro hl
        have hnone := hl.tmp hopens
        rw [hi.tmp] at hnone
        cases hnone
      · -- the course says which call failed, unless the page did not pack
        intro hun
        rcases hun hopens with ⟨hpage, hok⟩
        rcases hbad hpage with ⟨e, he, hfails⟩
        have hmem : e ∈ t := by
          rw [ht]
          exact List.mem_append_right _ (List.mem_cons_of_mem _ he)
        rw [hok e hmem] at hfails
        cases hfails
  | published h d t₁ t₂ t₃ ht hpage h₁ h₂ h₃ =>
      have hmoves : ∃ e ∈ t, moves e := ht ▸ exists_moves ..
      refine iff_of_true ⟨hdropped, htask, ?_, ?_, hknown⟩ ?_
      · intro _
        rw [ht] at hw
        exact tmp_of_published hw (fun e he => (h₁ e he).1) (fun e he => (h₂ e he).1)
          (fun e he => (h₃ e he).1)
      · exact fun h => absurd hmoves h
      · intro _
        refine ⟨hpage, ?_⟩
        rw [ht]
        refine List.forall_mem_append.mpr ⟨fun e he => (h₁ e he).2, ?_⟩
        refine List.forall_mem_cons.mpr ⟨rfl, List.forall_mem_append.mpr ⟨?_, ?_⟩⟩
        · exact fun e he => (h₂ e he).2
        · exact List.forall_mem_cons.mpr
            ⟨rfl, List.forall_mem_cons.mpr ⟨rfl, fun e he => (h₃ e he).2⟩⟩

end Put

/-- Each submission has entered its key and taken its reference. -/
theorem submitEach_runs {cb : Bool} {entries : List (κ × MemObj)} {futs : List (Job κ)}
    {t : Calls κ} {r : Except Raised (Option (List (Job κ)))}
    (hr : (submitEach cb entries futs).Runs t r) :
    claimed t = (submitted t).map Job.key ∧ taken t = (submitted t).map fun j => j.obj.id := by
  -- on the entries
  induction entries generalizing futs t with
  | nil =>
      rcases Program.runs_ret.mp hr with ⟨rfl, -⟩
      exact ⟨rfl, rfl⟩
  | cons entry entries ih =>
      rcases entry with ⟨key, obj⟩
      rcases Program.runs_call.mp hr with ⟨new, t₁, rfl, hr₁⟩
      cases new with
      -- claimed by another submission: nothing is taken
      | false =>
          have hrest := ih hr₁
          exact hrest
      | true =>
          rcases Program.runs_call.mp hr₁ with ⟨u, t₂, rfl, hr₂⟩
          rcases Program.runs_call.mp hr₂ with ⟨ans, t₃, rfl, hr₃⟩
          -- `submit` raises, and the entries behind it are not reached
          rcases ans with err | _
          · rcases Program.runs_ret.mp hr₃ with ⟨rfl, -⟩
            exact ⟨rfl, rfl⟩
          · rcases ih hr₃ with ⟨hclaimed, htaken⟩
            exact ⟨congrArg (key :: ·) hclaimed, congrArg (obj.id :: ·) htaken⟩

/-- In every batch each put that is submitted has its key in `_put_tasks` and a
reference of its own. However its run goes, and whatever others do meanwhile, it leaves
nothing behind if and only if it does not come to its temporary file, or its header can
be packed and no write, lookup or rename fails from there on. -/
theorem put_leaves_nothing_iff [DecidableEq κ] (S : Container κ) {storeEnabled cb : Bool}
    {keys : List κ} {memoryObjs : List MemObj} {u : Calls κ}
    {r : Except Raised (Option (List (Job κ)))}
    (hb : (batchedSubmitPutTask storeEnabled keys memoryObjs cb).Runs u r) :
    claimed u = (submitted u).map Job.key ∧ (taken u = (submitted u).map fun j => j.obj.id) ∧
      ∀ j ∈ submitted u, ∀ nonce t, (putOne S j nonce).Runs t () →
        ∀ w w', Interleaved (Elsewhere S j nonce) effect w t w' →
          (LeavesNothing S j nonce w t w' ↔ Unharmed j t) := by
  have hsubmitted : claimed u = (submitted u).map Job.key ∧
      taken u = (submitted u).map fun j => j.obj.id := by
    unfold batchedSubmitPutTask at hb
    split at hb
    · exact submitEach_runs hb
    · rcases Program.runs_ret.mp hb with ⟨rfl, -⟩
      exact ⟨rfl, rfl⟩
  refine ⟨hsubmitted.1, hsubmitted.2, ?_⟩
  intro j _ nonce t hr w w' hw
  exact leavesNothing_iff hr hw

/-! ## Runs -/

/-- The answers of a key that is not there. -/
def absent (S : Container κ) (key : κ) : Calls κ :=
  [⟨.ensureCudaCtx, .ok ()⟩, ⟨.ensureCudaCtx, .ok ()⟩, ⟨.inKnown key, false⟩,
    ⟨.statSize (S.path key), .ok none⟩]

/-- A `_put_one` of a GPU object whose key is absent runs as its body from the open on does.
-/
theorem runs_of_absent {S : Container κ} {j : Job κ} {nonce : Nonce} {t : Calls κ}
    {r : Except Raised Unit} (hcuda : j.obj.isCuda = some true)
    (hr : (writeAndPublish S j nonce).Runs t r) :
    (putOne S j nonce).Runs
      (absent S j.key ++ t ++ [⟨.refCountDown j.obj.id, ()⟩, ⟨.discard j.key, ()⟩]) () := by
  refine Program.runs_bind.mpr ⟨_, _, r, rfl, ?_, ?_⟩
  rotate_left
  · exact Program.runs_call.mpr
      ⟨(), _, rfl, Program.runs_call.mpr ⟨(), _, rfl, Program.runs_ret.mpr ⟨rfl, rfl⟩⟩⟩
  refine .call _ (Program.runs_bind.mpr ⟨(absent S j.key).tail, t, .ok false, rfl, ?_, ?_⟩)
  · exact .call _ (.call _ (.call _ (.ret _)))
  · simp only [hcuda, if_true]
    exact hr

/-- A GPU write that raises, as it does on replicated containers, leaves the temporary
file of every put that comes to it. -/
theorem exists_leftover [DecidableEq κ] (S : Container κ) (j : Job κ) (nonce : Nonce)
    {page : Bytes} (hpage : j.page = .ok page) (hcuda : j.obj.isCuda = some true) (e : DaosError)
    (w : World κ) :
    ∃ t w', (putOne S j nonce).Runs t () ∧ Interleaved (Elsewhere S j nonce) effect w t w' ∧
      ¬ LeavesNothing S j nonce w t w' := by
  have hrun : (writeAndPublish S j nonce).Runs [⟨.openRdwrCreate (S.tmp j.key nonce), .ok 0⟩,
      ⟨.writeObjFrom 0 0 page, ⟨.ok page.length, page⟩⟩, ⟨.synchronize, .ok ()⟩,
      ⟨.writeGpuFrom 0 Serde.payloadOffset j.obj.size j.obj.id, ⟨.error (.daos e), page⟩⟩,
      ⟨.closeObj 0, ()⟩] (.error (.daos e)) := by
    refine .call _ (Program.runs_bind.mpr ⟨[_, _, _], [_], .error (.daos e), rfl, ?_, ?_⟩)
    · rw [writeTmp, hpage]
      exact .call _ (.call _ (.call _ (.ret _)))
    · exact .call _ (.ret _)
  have hput := runs_of_absent hcuda hrun
  refine ⟨_, _, hput, interleaved_foldl (Elsewhere.refl S j nonce) w _, ?_⟩
  rw [leavesNothing_iff hput (interleaved_foldl (Elsewhere.refl S j nonce) w _)]
  intro hun
  rcases hun ⟨⟨.openRdwrCreate (S.tmp j.key nonce), .ok 0⟩, by simp, rfl⟩ with ⟨-, hok⟩
  have hgpu := hok ⟨.writeGpuFrom 0 Serde.payloadOffset j.obj.size j.obj.id,
    ⟨.error (.daos e), page⟩⟩ (by simp)
  cases hgpu

theorem digest_has_no_slash : '/' ∉ "00ff".toList := by decide

theorem nonce_has_no_slash : '/' ∉ "1a2b3c4d".toList := by decide

/-- One key. -/
def oneKey : Container Unit :=
  ⟨"/v2", fun _ => "00ff", fun _ => digest_has_no_slash, fun _ _ => rfl⟩

def aNonce : Nonce := ⟨"1a2b3c4d", nonce_has_no_slash⟩

/-- One byte on the GPU. -/
def aJob : Job Unit := ⟨(), ⟨7, 1, ⟨[[1]], ["uint8"], 1⟩, some true⟩, false⟩

/-- Nothing stored, and the put's key claimed. -/
def aWorld : World Unit := ⟨FileStore.empty, fun _ => none, fun _ => none, ∅, {()}⟩

/-- One key, one claim, one reference, one job. -/
theorem aBatch_runs : (batchedSubmitPutTask true [()] [aJob.obj] false).Runs
    [⟨.claim (), true⟩, ⟨.refCountUp 7, ()⟩, ⟨.submit aJob, .ok ()⟩] (.ok (some [aJob])) :=
  .call _ (.call _ (.call _ (.ret _)))

/-- A batch of one put that runs to its end, with nothing left behind. -/
theorem published_leaves_nothing : ∃ u t w',
    (batchedSubmitPutTask true [()] [aJob.obj] false).Runs u (.ok (some [aJob])) ∧
    aJob ∈ submitted u ∧ (putOne oneKey aJob aNonce).Runs t () ∧ (∃ e ∈ t, moves e) ∧
    LeavesNothing oneKey aJob aNonce aWorld t w' := by
  rcases (⟨_, rfl⟩ : ∃ page, aJob.page = .ok page) with ⟨page, hpage⟩
  -- the file is written, moved and noted
  have hrun : (writeAndPublish oneKey aJob aNonce).Runs
      [⟨.openRdwrCreate (oneKey.tmp () aNonce), .ok 0⟩,
        ⟨.writeObjFrom 0 0 page, ⟨.ok page.length, page⟩⟩, ⟨.synchronize, .ok ()⟩,
        ⟨.writeGpuFrom 0 Serde.payloadOffset 1 7, ⟨.ok 1, page ++ [9]⟩⟩, ⟨.closeObj 0, ()⟩,
        ⟨.lookup "/v2", .ok 1⟩,
        ⟨.move 1 (leaf (oneKey.tmp () aNonce)) 1 (leaf (oneKey.path ())), .ok ()⟩,
        ⟨.release 1, ()⟩, ⟨.addKnown (), ()⟩] (.ok ()) := by
    refine .call _ (Program.runs_bind.mpr ⟨[_, _, _], _, .ok 1, rfl, ?_, ?_⟩)
    · rw [writeTmp, hpage]
      exact .call _ (.call _ (.call _ (.ret _)))
    · exact .call _ (.call _ (.call _ (.call _ (.call _ (.ret _)))))
  -- the key was not there, so this is the whole put
  have hput := runs_of_absent rfl hrun
  have hiff := (put_leaves_nothing_iff oneKey aBatch_runs).2.2 aJob (List.mem_singleton.mpr rfl)
    aNonce _ hput aWorld _ (interleaved_foldl (Elsewhere.refl oneKey aJob aNonce) aWorld _)
  refine ⟨_, _, _, aBatch_runs, List.mem_singleton.mpr rfl, hput, ?_, hiff.mpr ?_⟩
  · refine ⟨⟨.move 1 (leaf (oneKey.tmp () aNonce)) 1 (leaf (oneKey.path ())), .ok ()⟩, ?_, rfl⟩
    simp
  · -- the page packs and no call failed
    intro _
    refine ⟨⟨page, hpage⟩, ?_⟩
    simp [absent, fails, aJob]

/-- The GPU write raises: the temporary file stays. -/
theorem failed_put_leaves_tmp : ∃ u t w',
    (batchedSubmitPutTask true [()] [aJob.obj] false).Runs u (.ok (some [aJob])) ∧
    aJob ∈ submitted u ∧ (putOne oneKey aJob aNonce).Runs t () ∧
    Interleaved (Elsewhere oneKey aJob aNonce) effect aWorld t w' ∧
    ¬ LeavesNothing oneKey aJob aNonce aWorld t w' := by
  rcases (⟨_, rfl⟩ : ∃ page, aJob.page = .ok page) with ⟨page, hpage⟩
  rcases exists_leftover oneKey aJob aNonce hpage rfl ⟨1⟩ aWorld with ⟨t, w', hput, hw, hleft⟩
  exact ⟨_, t, w', aBatch_runs, List.mem_singleton.mpr rfl, hput, hw, hleft⟩

end LmcacheDaos.Gds.Store
