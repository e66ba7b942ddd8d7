import LmcacheDaos.Lib.OrderedMap
import LmcacheDaos.Lib.Program
import LmcacheDaos.Lib.Separator

/-!
# Container handles

`registerMem` and `deregisterMem` of `nixlDaosEngine` with `parseTarget`,
`getCont` and `putCont` (`daos_backend.cpp`): every object registered against
one `pool/container` shares the pool and container handle of its entry in
`conts_`, which counts its registrations in `refs`.

The functions are programs over the calls they make of the DAOS client, each of
which may fail. A handle is its number among those of its kind that the client
has given out, and a close or a disconnect that fails leaves it open. A
`std::string` is the list of its characters, and `refs` an integer without bounds.

Result: `conts_` says at every moment how many registrations name each
container, and every handle that was given out is in one place or was passed to
its close, once (`Accounted`), whichever calls failed. The engine does not try
again: it drops the entry with the only copy of the handles whatever the two
calls of `putCont` return, so those whose close failed stay open and belong to
no entry.
-/

namespace LmcacheDaos.Nixl.Containers

open Lib Std

/-! ## What to open -/

/-- `daos_obj_id_t` -/
structure Oid where
  hi : ℕ
  lo : ℕ
deriving DecidableEq, Repr

structure DaosTarget where
  pool : List Char
  cont : List Char
  haveOid : Bool
  oid : Oid
deriving DecidableEq, Repr

/-- `std::isspace` in the C locale -/
def isSpace (c : Char) : Bool := c = ' ' || (9 ≤ c.toNat && c.toNat ≤ 13)

/-- `std::stoull`, nothing when it throws: blanks, a sign, and as many digits as
there are. A minus sign negates modulo `2^64`. -/
def stoull (s : List Char) : Option ℕ :=
  let s := s.dropWhile isSpace
  let digits := (if s.head? = some '-' ∨ s.head? = some '+' then s.tail else s).takeWhile
    Char.isDigit
  let n := Nat.ofDigitChars 10 digits 0
  if digits = [] ∨ 2 ^ 64 ≤ n then none
  else some (if s.head? = some '-' then (2 ^ 64 - n) % 2 ^ 64 else n)

/-- `parseTarget` -/
def parseTarget (metaInfo : List Char) : Option DaosTarget :=
  match (metaInfo.splitOn '/').filter (· ≠ []) with
  | [pool, cont] => some ⟨pool, cont, false, ⟨0, 0⟩⟩
  | [pool, cont, oid] =>
      if '.' ∈ oid then
        match stoull (oid.takeWhile (· ≠ '.')), stoull ((oid.dropWhile (· ≠ '.')).tail) with
        | some hi, some lo => some ⟨pool, cont, true, ⟨hi, lo⟩⟩
        | _, _ => none
      else none
  | _ => none

/-! ## Calls of the DAOS client -/

abbrev Handle := ℕ

inductive Op where
  | poolConnect (pool : List Char)
  | poolDisconnect (poh : Handle)
  | contOpen (poh : Handle) (cont : List Char)
  | contClose (coh : Handle)
  | generateOid (coh : Handle) (oid : Oid)
  | objOpen (coh : Handle) (oid : Oid)
  | objClose (oh : Handle)

/-- What a call gives, or its return code. -/
abbrev Ans : Op → Type
  | .poolConnect _ => Except ℤ Handle
  | .poolDisconnect _ => ℤ
  | .contOpen .. => Except ℤ Handle
  | .contClose _ => ℤ
  | .generateOid .. => Except ℤ Oid
  | .objOpen .. => Except ℤ Handle
  | .objClose _ => ℤ

abbrev Daos (α : Type) := Program Op Ans α

/-! ## The engine -/

/-- The part of `nixl_status_t` that registration returns. -/
inductive Status where
  | success
  | errInvalidParam
  | errBackend
  | errNotSupported
deriving DecidableEq, Repr

/-- `nixl_mem_t` -/
inductive Mem where
  | dram
  | vram
  | blk
  | obj
  | file
deriving DecidableEq, Repr

/-- `nixlBlobDesc`, as far as registration reads it. -/
structure BlobDesc where
  devId : ℕ
  metaInfo : List Char
deriving DecidableEq, Repr

/-- `contHandles` -/
structure ContHandles where
  poh : Handle
  coh : Handle
  refs : ℤ
deriving DecidableEq, Repr

/-- `nixlDaosObjMD` -/
structure ObjMd where
  pool : List Char
  cont : List Char
  oh : Handle
  oid : Oid
  devId : ℕ
deriving DecidableEq, Repr

/-- What `deregisterMem` may be given. -/
inductive BackendMd where
  | null
  | daos (md : ObjMd)
  /-- of another backend -/
  | foreign
deriving DecidableEq, Repr

/-- `conts_` -/
abbrev Conts := ExtTreeMap (List Char) ContHandles

/-- `pool + "/" + cont` -/
def contKey (pool cont : List Char) : List Char := pool ++ '/' :: cont

def ObjMd.key (md : ObjMd) : List Char := contKey md.pool md.cont

/-- `getCont` -/
def getCont (conts : Conts) (pool cont : List Char) : Daos (Except Status ContHandles × Conts) :=
  match conts[contKey pool cont]? with
  | some h =>
      let h' := { h with refs := h.refs + 1 }
      .ret (.ok h', conts.insert (contKey pool cont) h')
  | none => .call (.poolConnect pool) fun
    | .error _ => .ret (.error .errBackend, conts)
    | .ok poh => .call (.contOpen poh cont) fun
      | .error _ => .call (.poolDisconnect poh) fun _ => .ret (.error .errBackend, conts)
      | .ok coh => .ret (.ok ⟨poh, coh, 1⟩, conts.insert (contKey pool cont) ⟨poh, coh, 1⟩)

/-- `putCont` -/
def putCont (conts : Conts) (pool cont : List Char) : Daos Conts :=
  match conts[contKey pool cont]? with
  | none => .ret conts
  | some h =>
      if 0 < h.refs - 1 then
        .ret (conts.insert (contKey pool cont) { h with refs := h.refs - 1 })
      else .call (.contClose h.coh) fun _ => .call (.poolDisconnect h.poh) fun _ =>
        .ret (conts.erase (contKey pool cont))

/-- What `registerMem` returns and leaves behind. -/
structure Registered where
  status : Status
  out : Option ObjMd
  conts : Conts

/-- `registerMem` from the object id on. -/
def openObj (conts : Conts) (t : DaosTarget) (devId : ℕ) (coh : Handle) (oid : Oid) :
    Daos Registered :=
  .call (.objOpen coh oid) fun
    | .error _ => (putCont conts t.pool t.cont).map fun conts => ⟨.errBackend, none, conts⟩
    | .ok oh => .ret ⟨.success, some ⟨t.pool, t.cont, oh, oid, devId⟩, conts⟩

/-- `registerMem`, built with `NIXL_DAOS_HAVE_GPU` or without. -/
def registerMem (haveGpu : Bool) (conts : Conts) (mem : BlobDesc) : Mem → Daos Registered
  | .dram => .ret ⟨.success, none, conts⟩
  | .vram => .ret ⟨if haveGpu then .success else .errNotSupported, none, conts⟩
  | .blk | .obj => .ret ⟨.errNotSupported, none, conts⟩
  | .file => match parseTarget mem.metaInfo with
    | none => .ret ⟨.errInvalidParam, none, conts⟩
    | some t => (getCont conts t.pool t.cont).bind fun
      | (.error st, conts) => .ret ⟨st, none, conts⟩
      | (.ok ch, conts) =>
          if t.haveOid then openObj conts t mem.devId ch.coh t.oid
          else .call (.generateOid ch.coh ⟨0, mem.devId⟩) fun
            | .error _ => (putCont conts t.pool t.cont).map fun conts => ⟨.errBackend, none, conts⟩
            | .ok oid => openObj conts t mem.devId ch.coh oid

/-- `deregisterMem` -/
def deregisterMem (conts : Conts) : BackendMd → Daos (Status × Conts)
  | .null => .ret (.success, conts)
  | .foreign => .ret (.errInvalidParam, conts)
  | .daos md => .call (.objClose md.oh) fun rc =>
      (putCont conts md.pool md.cont).map fun conts =>
        (if rc = 0 then .success else .errBackend, conts)

/-! ## The client, and runs -/

/-- The handles of one kind. -/
structure Ledger where
  /-- how many were given out -/
  given : ℕ
  /-- those that a close or a disconnect has closed -/
  closed : List Handle
  /-- those that one was called with and failed: they are still open -/
  failed : List Handle
deriving DecidableEq, Repr

/-- Given out and not closed. -/
def Ledger.IsOpen (l : Ledger) (h : Handle) : Prop := h < l.given ∧ h ∉ l.closed

def Ledger.give (l : Ledger) : Ledger := { l with given := l.given + 1 }

/-- A close or a disconnect of `h` that returns `rc`. -/
def Ledger.close (l : Ledger) (h : Handle) (rc : ℤ) : Ledger :=
  if rc = 0 then { l with closed := l.closed ++ [h] } else { l with failed := l.failed ++ [h] }

structure Client where
  pools : Ledger
  conts : Ledger
  objs : Ledger
  /-- return codes of the calls to come, 0 when none is left -/
  codes : List ℤ
deriving DecidableEq, Repr

/-- What a call that gives `a` on success answers. -/
def Client.answer {α : Type} (c : Client) (a : α) : Except ℤ α :=
  if c.codes.headD 0 = 0 then .ok a else .error (c.codes.headD 0)

/-- After a call: the `given` ledgers if it succeeded. -/
def Client.after (c given : Client) : Client :=
  { (if c.codes.headD 0 = 0 then given else c) with codes := c.codes.tail }

/-- The client's answers; `completeOid` is what `daos_obj_generate_oid` makes of
an object id. -/
def handler (completeOid : Oid → Oid) (c : Client) : (o : Op) → Ans o × Client
  | .poolConnect _ => (c.answer c.pools.given, c.after { c with pools := c.pools.give })
  | .poolDisconnect poh =>
      (c.codes.headD 0, { c with
        pools := c.pools.close poh (c.codes.headD 0), codes := c.codes.tail })
  | .contOpen .. => (c.answer c.conts.given, c.after { c with conts := c.conts.give })
  | .contClose coh =>
      (c.codes.headD 0, { c with
        conts := c.conts.close coh (c.codes.headD 0), codes := c.codes.tail })
  | .generateOid _ oid => (c.answer (completeOid oid), c.after c)
  | .objOpen .. => (c.answer c.objs.given, c.after { c with objs := c.objs.give })
  | .objClose oh =>
      (c.codes.headD 0, { c with
        objs := c.objs.close oh (c.codes.headD 0), codes := c.codes.tail })

/-- How the engine was built, and the client's object ids. -/
structure Build where
  haveGpu : Bool
  completeOid : Oid → Oid

structure St where
  conts : Conts
  /-- the live registrations that have metadata -/
  live : List ObjMd
  client : Client

inductive Lbl where
  | register (mem : BlobDesc) (seg : Mem) (codes : List ℤ)
  /-- the `i`-th live registration -/
  | deregister (i : ℕ) (codes : List ℤ)
  | deregisterNull
deriving DecidableEq, Repr

/-- A call of `registerMem`, with these return codes. -/
def register (B : Build) (s : St) (mem : BlobDesc) (seg : Mem) (codes : List ℤ) :
    Status × St :=
  let r := (registerMem B.haveGpu s.conts mem seg).run (handler B.completeOid)
    { s.client with codes := codes }
  (r.1.status, ⟨r.1.conts, s.live ++ r.1.out.toList, r.2⟩)

def step (B : Build) (s : St) : Lbl → Option St
  | .register mem seg codes => some (register B s mem seg codes).2
  | .deregister i codes => (s.live[i]?).map fun md =>
      let r := (deregisterMem s.conts (.daos md)).run (handler B.completeOid)
        { s.client with codes := codes }
      ⟨r.1.2, s.live.eraseIdx i, r.2⟩
  | .deregisterNull =>
      let r := (deregisterMem s.conts .null).run (handler B.completeOid) s.client
      some ⟨r.1.2, s.live, r.2⟩

/-- A new engine. -/
def initial : St := ⟨∅, [], ⟨⟨0, [], []⟩, ⟨0, [], []⟩, ⟨0, [], []⟩, []⟩⟩

def machine (B : Build) : Machine St Lbl where
  Init s := s = initial
  step := step B

/-! ## The law -/

/-- Every handle given out is one of those held, or was passed to its close once. -/
def Ledger.Accounts (l : Ledger) (held : List Handle) : Prop :=
  (held ++ (l.closed ++ l.failed)).Perm (List.range l.given)

/-- Open are the handles held, and those whose close failed. -/
def Ledger.OpenAre (l : Ledger) (held : List Handle) : Prop :=
  ∀ n, l.IsOpen n ↔ n ∈ held ∨ n ∈ l.failed

/-- A handle of each entry. -/
def entryHandles (f : ContHandles → Handle) (conts : Conts) : List Handle :=
  conts.toList.map fun e => f e.2

structure Accounted (s : St) : Prop where
  /-- an entry exactly for the containers that a registration names -/
  entry_iff : ∀ pool cont, '/' ∉ pool → '/' ∉ cont →
    ((s.conts[contKey pool cont]?).isSome ↔ ∃ md ∈ s.live, md.pool = pool ∧ md.cont = cont)
  /-- no entries but these -/
  entry_named : ∀ key, (s.conts[key]?).isSome → ∃ md ∈ s.live, md.key = key
  refs_eq : ∀ pool cont h, '/' ∉ pool → '/' ∉ cont → s.conts[contKey pool cont]? = some h →
    h.refs = s.live.countP fun md => md.pool = pool ∧ md.cont = cont
  /-- a pool handle belongs to one entry, or was passed to a disconnect once -/
  pools : s.client.pools.Accounts (entryHandles ContHandles.poh s.conts)
  conts : s.client.conts.Accounts (entryHandles ContHandles.coh s.conts)
  /-- an object handle belongs to one registration, or was passed to a close once -/
  objs : s.client.objs.Accounts (s.live.map ObjMd.oh)
  openPools : s.client.pools.OpenAre (entryHandles ContHandles.poh s.conts)
  openConts : s.client.conts.OpenAre (entryHandles ContHandles.coh s.conts)
  openObjs : s.client.objs.OpenAre (s.live.map ObjMd.oh)

/-- Registrations of one container. -/
def St.naming (s : St) (key : List Char) : List ObjMd := s.live.filter fun md => md.key = key

structure Inv (s : St) : Prop where
  plain : ∀ md ∈ s.live, '/' ∉ md.pool ∧ '/' ∉ md.cont
  entry : ∀ key h, s.conts[key]? = some h → h.refs = ((s.naming key).length : ℤ) ∧ 0 < h.refs
  noEntry : ∀ key, s.conts[key]? = none → s.naming key = []
  pools : s.client.pools.Accounts (entryHandles ContHandles.poh s.conts)
  conts : s.client.conts.Accounts (entryHandles ContHandles.coh s.conts)
  objs : s.client.objs.Accounts (s.live.map ObjMd.oh)

namespace Ledger

variable {l l' : Ledger} {held held' : List Handle}

/-- The order of the held handles does not matter. -/
theorem Accounts.perm (h : l.Accounts held) (hperm : held'.Perm held) : l.Accounts held' :=
  (hperm.append_right _).trans h

/-- A handle more is given out, and held. -/
theorem Accounts.give (h : l.Accounts held) (hperm : held'.Perm (held ++ [l.given])) :
    l.give.Accounts held' := by
  have hlast : (held ++ [l.given] ++ (l.closed ++ l.failed)).Perm
      (held ++ (l.closed ++ l.failed) ++ [l.given]) := by
    rw [List.append_assoc, List.append_assoc]
    exact List.perm_append_comm.append_left _
  unfold Accounts Ledger.give
  rw [List.range_succ]
  exact (hperm.append_right _).trans (hlast.trans (h.append_right _))

/-- A handle that was held is passed to its close, which succeeds or fails. -/
theorem Accounts.close {x : Handle} (h : l.Accounts held) (hperm : held.Perm (x :: held'))
    (rc : ℤ) : (l.close x rc).Accounts held' := by
  have hbefore : (x :: held' ++ (l.closed ++ l.failed)).Perm (List.range l.given) :=
    (hperm.symm.append_right _).trans h
  unfold Ledger.close
  split
  · have hlast : (held' ++ (l.closed ++ [x] ++ l.failed)).Perm
        (x :: held' ++ (l.closed ++ l.failed)) := by
      rw [← List.append_assoc, ← List.append_assoc, List.append_assoc]
      exact List.perm_middle.trans (by simp)
    exact hlast.trans hbefore
  · have hlast : (held' ++ (l.closed ++ (l.failed ++ [x]))).Perm
        (x :: held' ++ (l.closed ++ l.failed)) := by
      rw [← List.append_assoc l.closed, ← List.append_assoc]
      exact List.perm_append_singleton _ _
    exact hlast.trans hbefore

/-- An open handle is one of those held, or its close failed. -/
theorem Accounts.openAre (h : l.Accounts held) : l.OpenAre held := by
  intro x
  have hmem := h.mem_iff (a := x)
  have hnodup := h.nodup_iff.mpr List.nodup_range
  rw [List.mem_append, List.mem_append, List.mem_range] at hmem
  rw [List.nodup_append', List.nodup_append'] at hnodup
  obtain ⟨-, ⟨-, -, hcf⟩, hheld⟩ := hnodup
  unfold IsOpen
  rw [← hmem]
  constructor
  · rintro ⟨hin | hin | hin, hnot⟩
    · exact .inl hin
    · exact absurd hin hnot
    · exact .inr hin
  · rintro (hin | hin)
    · exact ⟨.inl hin, fun hclosed => hheld hin (List.mem_append_left _ hclosed)⟩
    · exact ⟨.inr (.inr hin), fun hclosed => hcf hclosed hin⟩

/-- As before, or with a handle that was given out and passed to its close at once. -/
def Settled (l l' : Ledger) : Prop := l' = l ∨ ∃ rc, l' = l.give.close l.given rc

/-- Handles that were opened and settled since do not change who holds what. -/
theorem Accounts.settled (h : l.Accounts held) (hs : l.Settled l') : l'.Accounts held := by
  rcases hs with rfl | ⟨rc, rfl⟩
  · exact h
  · exact (h.give (.refl _)).close (List.perm_append_singleton _ _) rc

/-- Given out since `l` and not closed, because that failed. -/
def Leaks (l l' : Ledger) (n : Handle) : Prop := l.given ≤ n ∧ n ∈ l'.failed

/-- What fails to close is what was given out. -/
theorem Settled.failed_iff (hs : l.Settled l') (n : Handle) :
    n ∈ l'.failed ↔ n ∈ l.failed ∨ l.Leaks l' n := by
  unfold Leaks
  rcases hs with rfl | ⟨rc, rfl⟩
  · exact ⟨.inl, fun h => h.elim id And.right⟩
  · unfold Ledger.close
    split
    · exact ⟨.inl, fun h => h.elim id And.right⟩
    · simp only [Ledger.give, List.mem_append, List.mem_singleton]
      constructor
      · rintro (h | rfl)
        · exact .inl h
        · exact .inr ⟨Nat.le_refl _, .inr rfl⟩
      · rintro (h | ⟨-, h⟩)
        · exact .inl h
        · exact h

end Ledger

/-! ## Targets -/

/-- What is accepted names a pool and a container without a slash. -/
theorem plain_of_parseTarget {metaInfo : List Char} {t : DaosTarget}
    (h : parseTarget metaInfo = some t) : '/' ∉ t.pool ∧ '/' ∉ t.cont := by
  have hfield : ∀ f ∈ (metaInfo.splitOn '/').filter (· ≠ []), '/' ∉ f := by
    intro f hf
    exact sep_not_mem_splitOn (List.mem_of_mem_filter hf)
  unfold parseTarget at h
  split at h
  · rename_i pool cont heq
    cases h
    rw [heq] at hfield
    exact ⟨hfield pool (by simp), hfield cont (by simp)⟩
  · rename_i pool cont oid heq
    rw [heq] at hfield
    split at h
    · split at h
      · cases h
        exact ⟨hfield pool (by simp), hfield cont (by simp)⟩
      · cases h
    · cases h
  · cases h

/-- Pool and container can be read off the key, as long as neither has a slash. -/
theorem contKey_inj {pool pool' cont cont' : List Char} (h : '/' ∉ pool) (h' : '/' ∉ pool')
    (heq : contKey pool cont = contKey pool' cont') : pool = pool' ∧ cont = cont' :=
  sep_inj h h' heq

/-! ## What each function does -/

/-- The same handles are given out and closed. -/
def Client.Same (c c' : Client) : Prop :=
  c'.pools = c.pools ∧ c'.conts = c.conts ∧ c'.objs = c.objs

/-- As before, but for handles that were given out and passed to their close at once. -/
structure Client.Settled (c c' : Client) : Prop where
  pools : c.pools.Settled c'.pools
  conts : c.conts.Settled c'.conts
  objs : c'.objs = c.objs

/-- What has not changed is settled. -/
theorem Client.Settled.of_same {c c' : Client} (h : c.Same c') : c.Settled c' :=
  ⟨.inl h.1, .inl h.2.1, h.2.2⟩

/-- A call fails and changes nothing, or succeeds. -/
theorem answer_cases {α : Type} (c given : Client) (a : α) :
    (∃ rc, c.answer a = .error rc ∧ c.after given = { c with codes := c.codes.tail }) ∨
      (c.answer a = .ok a ∧ c.after given = { given with codes := c.codes.tail }) := by
  unfold Client.answer Client.after
  split
  · exact .inr ⟨rfl, rfl⟩
  · exact .inl ⟨_, rfl, rfl⟩

variable (completeOid : Oid → Oid)

/-- What `getCont` does to the entry of `key`. -/
inductive GetCont (conts : Conts) (key : List Char) (c : Client) :
    Except Status ContHandles × Conts → Client → Prop where
  | failed {c'} (hc : c.Settled c') : GetCont conts key c (.error .errBackend, conts) c'
  | shared {h} (hh : conts[key]? = some h) :
      GetCont conts key c
        (.ok { h with refs := h.refs + 1 }, conts.insert key { h with refs := h.refs + 1 }) c
  | opened {c'} (hn : conts[key]? = none) (hp : c'.pools = c.pools.give)
      (hc : c'.conts = c.conts.give) (ho : c'.objs = c.objs) :
      GetCont conts key c (.ok ⟨c.pools.given, c.conts.given, 1⟩,
        conts.insert key ⟨c.pools.given, c.conts.given, 1⟩) c'

/-- What `getCont` does: another reference, a new entry, or nothing but settled handles. -/
theorem getCont_run (conts : Conts) (pool cont : List Char) (c : Client) :
    GetCont conts (contKey pool cont) c
      ((getCont conts pool cont).run (handler completeOid) c).1
      ((getCont conts pool cont).run (handler completeOid) c).2 := by
  unfold getCont
  split
  · exact .shared ‹_›
  · rename_i hn
    rw [Program.run_call]
    simp only [handler]
    rcases answer_cases c { c with pools := c.pools.give } c.pools.given with
      ⟨rc, hans, hafter⟩ | ⟨hans, hafter⟩
    · rw [hans, hafter]
      exact .failed (.of_same ⟨rfl, rfl, rfl⟩)
    · -- the pool is connected
      rw [hans, hafter]
      simp only
      rw [Program.run_call]
      simp only [handler]
      generalize c.codes.tail = codes
      rcases answer_cases { c with pools := c.pools.give, codes := codes }
        { c with pools := c.pools.give, conts := c.conts.give, codes := codes } c.conts.given with
        ⟨rc, hans', hafter'⟩ | ⟨hans', hafter'⟩
      · -- the container does not open: the pool is disconnected again
        rw [hans', hafter']
        exact .failed ⟨.inr ⟨_, rfl⟩, .inl rfl, rfl⟩
      · rw [hans', hafter']
        exact .opened hn rfl rfl rfl

/-- `putCont` takes back what `getCont` did. -/
theorem putCont_run_getCont {conts conts' : Conts} {pool cont : List Char} {c c' : Client}
    {ch : ContHandles} (hpos : ∀ h, conts[contKey pool cont]? = some h → 0 < h.refs)
    (hget : GetCont conts (contKey pool cont) c (.ok ch, conts') c') (codes : List ℤ) :
    ((putCont conts' pool cont).run (handler completeOid) { c' with codes := codes }).1 = conts ∧
      c.Settled
        ((putCont conts' pool cont).run (handler completeOid) { c' with codes := codes }).2 := by
  unfold putCont
  cases hget with
  | shared hh =>
      -- counted up and down again
      have hrefs := hpos _ hh
      rw [ExtTreeMap.getElem?_insert_self]
      simp only [Int.add_sub_cancel, if_pos hrefs, OrderedMap.insert_insert]
      exact ⟨OrderedMap.insert_of_getElem? hh, .of_same ⟨rfl, rfl, rfl⟩⟩
  | opened hn hp hc ho =>
      -- the only reference: both handles are passed to their close and the entry goes
      rw [ExtTreeMap.getElem?_insert_self]
      simp only [Int.sub_self, Int.lt_irrefl, if_false, OrderedMap.erase_insert]
      refine ⟨OrderedMap.erase_of_none hn, .inr ⟨codes.tail.headD 0, ?_⟩,
        .inr ⟨codes.headD 0, ?_⟩, ho⟩
      · show c'.pools.close c.pools.given _ = _
        rw [hp]
        rfl
      · show c'.conts.close c.conts.given _ = _
        rw [hc]

/-- What `registerMem` returns and leaves behind. -/
inductive Outcome (conts : Conts) (c : Client) : Registered → Client → Prop where
  /-- nothing, a failure in most cases -/
  | kept {st c'} (hc : c.Settled c') : Outcome conts c ⟨st, none, conts⟩ c'
  | shared (md : ObjMd) {h c'} (hplain : '/' ∉ md.pool ∧ '/' ∉ md.cont)
      (hh : conts[md.key]? = some h) (hoh : md.oh = c.objs.given) (hp : c'.pools = c.pools)
      (hc : c'.conts = c.conts) (ho : c'.objs = c.objs.give) :
      Outcome conts c ⟨.success, some md, conts.insert md.key { h with refs := h.refs + 1 }⟩ c'
  | opened (md : ObjMd) {c'} (hplain : '/' ∉ md.pool ∧ '/' ∉ md.cont) (hn : conts[md.key]? = none)
      (hoh : md.oh = c.objs.given) (hp : c'.pools = c.pools.give) (hc : c'.conts = c.conts.give)
      (ho : c'.objs = c.objs.give) :
      Outcome conts c
        ⟨.success, some md, conts.insert md.key ⟨c.pools.given, c.conts.given, 1⟩⟩ c'

/-- What `registerMem` does behind `getCont`: an object, or the reference given back. -/
theorem openObj_run {conts conts' : Conts} {t : DaosTarget} {c c' : Client} {ch : ContHandles}
    (hplain : '/' ∉ t.pool ∧ '/' ∉ t.cont)
    (hpos : ∀ h, conts[contKey t.pool t.cont]? = some h → 0 < h.refs)
    (hget : GetCont conts (contKey t.pool t.cont) c (.ok ch, conts') c') (devId : ℕ) (oid : Oid)
    (codes : List ℤ) :
    Outcome conts c
      ((openObj conts' t devId ch.coh oid).run (handler completeOid) { c' with codes := codes }).1
      ((openObj conts' t devId ch.coh oid).run (handler completeOid)
        { c' with codes := codes }).2 := by
  rw [openObj, Program.run_call]
  simp only [handler]
  rcases answer_cases { c' with codes := codes }
    { c' with objs := c'.objs.give, codes := codes } c'.objs.given with
    ⟨rc, hans, hafter⟩ | ⟨hans, hafter⟩
  · -- `daos_obj_open` failed
    rw [hans, hafter]
    simp only
    rw [Program.run_map]
    have hput := putCont_run_getCont completeOid hpos hget codes.tail
    simp only [hput.1]
    exact .kept hput.2
  · rw [hans, hafter]
    cases hget with
    | shared hh =>
        exact .shared ⟨t.pool, t.cont, c.objs.given, oid, devId⟩ hplain hh rfl rfl rfl rfl
    | opened hn hp hc ho =>
        refine .opened ⟨t.pool, t.cont, c'.objs.given, oid, devId⟩ hplain hn ?_ hp hc ?_
        · show c'.objs.given = _
          rw [ho]
        · show c'.objs.give = _
          rw [ho]

/-- What `registerMem` does, for every segment type and text. -/
theorem registerMem_run (haveGpu : Bool) {conts : Conts}
    (hpos : ∀ (key : List Char) (h : ContHandles), conts[key]? = some h → 0 < h.refs)
    (mem : BlobDesc) (seg : Mem) (c : Client) :
    Outcome conts c ((registerMem haveGpu conts mem seg).run (handler completeOid) c).1
      ((registerMem haveGpu conts mem seg).run (handler completeOid) c).2 := by
  have hnothing : c.Settled c := .of_same ⟨rfl, rfl, rfl⟩
  cases seg with
  | dram => exact .kept hnothing
  | vram => exact .kept hnothing
  | blk => exact .kept hnothing
  | obj => exact .kept hnothing
  | file =>
      unfold registerMem
      cases hparse : parseTarget mem.metaInfo with
      | none => exact .kept hnothing
      | some t =>
          have hplain := plain_of_parseTarget hparse
          have hget := getCont_run completeOid conts t.pool t.cont c
          simp only
          rw [Program.run_bind]
          generalize (getCont conts t.pool t.cont).run (handler completeOid) c = r at hget
          rcases r with ⟨⟨res, conts'⟩, c'⟩
          cases res with
          | error st =>
              cases hget with
              | failed hc => exact .kept hc
          | ok ch =>
              simp only
              split
              · exact openObj_run completeOid hplain (hpos _) hget mem.devId t.oid c'.codes
              · rw [Program.run_call]
                simp only [handler]
                rcases answer_cases c' c' (completeOid ⟨0, mem.devId⟩) with
                  ⟨rc, hans, hafter⟩ | ⟨hans, hafter⟩
                · -- `daos_obj_generate_oid` failed
                  rw [hans, hafter]
                  simp only
                  rw [Program.run_map]
                  have hput := putCont_run_getCont completeOid (hpos _) hget c'.codes.tail
                  simp only [hput.1]
                  exact .kept hput.2
                · rw [hans, hafter]
                  exact openObj_run completeOid hplain (hpos _) hget mem.devId _ _

/-- What `deregisterMem` of a live registration makes of `conts_` and passes to a close. -/
def Released (conts : Conts) (c : Client) (md : ObjMd) (h : ContHandles) (conts' : Conts)
    (c' : Client) : Prop :=
  (∃ rc, c'.objs = c.objs.close md.oh rc) ∧
    ((1 < h.refs ∧ conts' = conts.insert md.key { h with refs := h.refs - 1 } ∧
        c'.pools = c.pools ∧ c'.conts = c.conts) ∨
      (h.refs ≤ 1 ∧ conts' = conts.erase md.key ∧
        (∃ rc, c'.pools = c.pools.close h.poh rc) ∧ ∃ rc, c'.conts = c.conts.close h.coh rc))

/-- What `deregisterMem` does: the object is closed and the reference given back. -/
theorem deregisterMem_run {conts : Conts} {md : ObjMd} {h : ContHandles}
    (hh : conts[md.key]? = some h) (c : Client) :
    Released conts c md h
      ((deregisterMem conts (.daos md)).run (handler completeOid) c).1.2
      ((deregisterMem conts (.daos md)).run (handler completeOid) c).2 := by
  have hh' : conts[contKey md.pool md.cont]? = some h := hh
  rw [deregisterMem, Program.run_call]
  simp only [handler]
  rw [Program.run_map, putCont, hh']
  simp only
  split
  · exact ⟨⟨_, rfl⟩, .inl ⟨by omega, rfl, rfl, rfl⟩⟩
  · exact ⟨⟨_, rfl⟩, .inr ⟨by omega, rfl, ⟨_, rfl⟩, ⟨_, rfl⟩⟩⟩

/-! ## The handles of the entries -/

section Entries

variable {conts : Conts} {key : List Char} {h : ContHandles}

/-- Erasing an entry takes its handle away. -/
theorem entryHandles_erase (f : ContHandles → Handle) (hh : conts[key]? = some h) :
    (entryHandles f conts).Perm (f h :: entryHandles f (conts.erase key)) :=
  (OrderedMap.perm_erase hh).map _

/-- Inserting an entry adds its handle. -/
theorem entryHandles_insert (f : ContHandles → Handle) (hn : conts[key]? = none) :
    (entryHandles f (conts.insert key h)).Perm (entryHandles f conts ++ [f h]) :=
  ((OrderedMap.perm_insert_of_none hn).map _).trans (List.perm_append_singleton _ _).symm

/-- Counting does not touch the handles. -/
theorem entryHandles_refs {f : ContHandles → Handle} (hh : conts[key]? = some h) {n : ℤ}
    (hf : f { h with refs := n } = f h) :
    (entryHandles f (conts.insert key { h with refs := n })).Perm (entryHandles f conts) := by
  have hnew : (entryHandles f (conts.insert key { h with refs := n })).Perm
      (f { h with refs := n } :: entryHandles f (conts.erase key)) :=
    (OrderedMap.perm_insert conts key { h with refs := n }).map _
  rw [hf] at hnew
  exact hnew.trans (entryHandles_erase f hh).symm

end Entries

/-! ## Runs -/

/-- No container is open at first. -/
theorem initial_inv : Inv initial := by
  refine ⟨?_, ?_, ?_, ?_, ?_, ?_⟩
  · simp [initial]
  · simp [initial]
  · simp [initial, St.naming]
  · simp [initial, Ledger.Accounts, entryHandles]
  · simp [initial, Ledger.Accounts, entryHandles]
  · simp [initial, Ledger.Accounts]

/-- An entry has a reference. -/
theorem Inv.positive {s : St} (hinv : Inv s) (key : List Char) (h : ContHandles)
    (hh : s.conts[key]? = some h) : 0 < h.refs :=
  (hinv.entry key h hh).2

/-- What was given out and passed to its close at once is accounted for. -/
theorem Inv.settled {s : St} (hinv : Inv s) {c' : Client} (hc : s.client.Settled c') :
    Inv { s with client := c' } :=
  ⟨hinv.plain, hinv.entry, hinv.noEntry, hinv.pools.settled hc.pools, hinv.conts.settled hc.conts,
    hc.objs ▸ hinv.objs⟩

/-- A registration more, in the entry of its container. -/
theorem Inv.registered {s : St} (hinv : Inv s) {md : ObjMd} {h : ContHandles} {c' : Client}
    (hplain : '/' ∉ md.pool ∧ '/' ∉ md.cont)
    (hrefs : h.refs = ((s.naming md.key).length : ℤ) + 1) (hoh : md.oh = s.client.objs.given)
    (ho : c'.objs = s.client.objs.give)
    (hpools : c'.pools.Accounts (entryHandles ContHandles.poh (s.conts.insert md.key h)))
    (hconts : c'.conts.Accounts (entryHandles ContHandles.coh (s.conts.insert md.key h))) :
    Inv ⟨s.conts.insert md.key h, s.live ++ [md], c'⟩ where
  plain := by
    intro md' hmem
    rcases List.mem_append.mp hmem with hmem | hmem
    · exact hinv.plain md' hmem
    · rw [List.mem_singleton.mp hmem]
      exact hplain
  entry := by
    intro key h' hh'
    by_cases hkey : key = md.key
    · -- the container registered in has one more
      subst hkey
      rw [ExtTreeMap.getElem?_insert_self, Option.some.injEq] at hh'
      subst hh'
      have hlen : (St.naming ⟨s.conts.insert md.key h, s.live ++ [md], c'⟩ md.key).length =
          (s.naming md.key).length + 1 := by
        simp [St.naming, List.filter_append]
      rw [hlen]
      exact ⟨by push_cast; exact hrefs, by omega⟩
    · rw [OrderedMap.getElem?_insert_of_ne hkey] at hh'
      have hsame : St.naming ⟨s.conts.insert md.key h, s.live ++ [md], c'⟩ key = s.naming key := by
        simp [St.naming, List.filter_append, Ne.symm hkey]
      rw [hsame]
      exact hinv.entry key h' hh'
  noEntry := by
    intro key hn
    by_cases hkey : key = md.key
    · subst hkey
      simp at hn
    · rw [OrderedMap.getElem?_insert_of_ne hkey] at hn
      have hnone := hinv.noEntry key hn
      simpa [St.naming, List.filter_append, Ne.symm hkey] using hnone
  pools := hpools
  conts := hconts
  objs := by
    simp only [ho]
    apply hinv.objs.give
    rw [List.map_append, List.map_singleton, hoh]

/-- A registration keeps the invariant, whatever DAOS answers. -/
theorem register_inv {B : Build} {s : St} (hinv : Inv s) (mem : BlobDesc) (seg : Mem)
    (codes : List ℤ) : Inv (register B s mem seg codes).2 := by
  have hout := registerMem_run B.completeOid B.haveGpu hinv.positive mem seg
    { s.client with codes := codes }
  unfold register
  simp only
  generalize (registerMem B.haveGpu s.conts mem seg).run (handler B.completeOid)
    { s.client with codes := codes } = r at hout
  rcases r with ⟨reg, c'⟩
  cases hout with
  | kept hc =>
      simp only [Option.toList_none, List.append_nil]
      exact hinv.settled ⟨hc.pools, hc.conts, hc.objs⟩
  | shared md hplain hh hoh hp hc ho =>
      -- the entry was there, and keeps its handles
      refine hinv.registered hplain ?_ hoh ho ?_ ?_
      · rw [(hinv.entry _ _ hh).1]
      · rw [hp]
        exact hinv.pools.perm (entryHandles_refs hh rfl)
      · rw [hc]
        exact hinv.conts.perm (entryHandles_refs hh rfl)
  | opened md hplain hn hoh hp hc ho =>
      -- no entry, so no registration named the container before
      refine hinv.registered hplain ?_ hoh ho ?_ ?_
      · rw [hinv.noEntry _ hn]
        rfl
      · rw [hp]
        exact hinv.pools.give (entryHandles_insert _ hn)
      · rw [hc]
        exact hinv.conts.give (entryHandles_insert _ hn)

/-- One registration and the others. -/
theorem perm_eraseIdx {s : St} {i : ℕ} {md : ObjMd} (hi : s.live[i]? = some md) :
    s.live.Perm (md :: s.live.eraseIdx i) := by
  rcases List.getElem?_eq_some_iff.mp hi with ⟨hlt, rfl⟩
  exact (List.getElem_cons_eraseIdx_perm hlt).symm

/-- A registration less, with what became of the entry of its container. -/
theorem Inv.deregistered {s s' : St} (hinv : Inv s) {i : ℕ} {md : ObjMd}
    (hi : s.live[i]? = some md) (hlive : s'.live = s.live.eraseIdx i)
    {rc : ℤ} (ho : s'.client.objs = s.client.objs.close md.oh rc)
    (hother : ∀ key, key ≠ md.key → s'.conts[key]? = s.conts[key]?)
    (hentry : ∀ h, s'.conts[md.key]? = some h → h.refs + 1 = (s.naming md.key).length ∧ 0 < h.refs)
    (hgone : s'.conts[md.key]? = none → (s.naming md.key).length ≤ 1)
    (hpools : s'.client.pools.Accounts (entryHandles ContHandles.poh s'.conts))
    (hconts : s'.client.conts.Accounts (entryHandles ContHandles.coh s'.conts)) : Inv s' := by
  have hperm := perm_eraseIdx hi
  -- the entry that went named one container, so only that count falls
  have hnaming : ∀ key, (s.naming key).length =
      (if md.key = key then 1 else 0) + (s'.naming key).length := by
    intro key
    rw [St.naming, St.naming, hlive, (hperm.filter fun md => md.key = key).length_eq,
      List.filter_cons]
    split <;> simp_all [Nat.add_comm]
  refine ⟨?_, ?_, ?_, hpools, hconts, ?_⟩
  · intro md' hmem
    rw [hlive] at hmem
    exact hinv.plain md' (hperm.symm.subset (List.mem_cons_of_mem _ hmem))
  · -- entries that are left count their objects, one less for this container
    intro key h hh
    have hlen := hnaming key
    by_cases hkey : key = md.key
    · subst hkey
      rw [if_pos rfl] at hlen
      rcases hentry h hh with ⟨hrefs, hpos⟩
      exact ⟨by omega, hpos⟩
    · rw [if_neg (Ne.symm hkey), Nat.zero_add] at hlen
      rw [hother key hkey] at hh
      rw [← hlen]
      exact hinv.entry key h hh
  · -- where no entry is left nothing names the container
    intro key hn
    have hlen := hnaming key
    rw [← List.length_eq_zero_iff]
    by_cases hkey : key = md.key
    · subst hkey
      rw [if_pos rfl] at hlen
      have hle := hgone hn
      omega
    · rw [if_neg (Ne.symm hkey), Nat.zero_add] at hlen
      rw [hother key hkey] at hn
      rw [← hlen, hinv.noEntry key hn]
      rfl
  · -- the object's handle goes with the object
    rw [ho, hlive]
    exact hinv.objs.close (hperm.map ObjMd.oh) rc

/-- So does a deregistration. -/
theorem deregister_inv {B : Build} {s s' : St} {i : ℕ} {codes : List ℤ} (hinv : Inv s)
    (hst : step B s (.deregister i codes) = some s') : Inv s' := by
  rcases Option.map_eq_some_iff.mp hst with ⟨md, hi, rfl⟩
  have hnamed : md ∈ s.naming md.key :=
    List.mem_filter.mpr ⟨List.mem_of_getElem? hi, decide_eq_true rfl⟩
  cases hh : s.conts[md.key]? with
  | none =>
      -- the registration itself names the container
      rw [hinv.noEntry _ hh] at hnamed
      cases hnamed
  | some h =>
      have hlen := (hinv.entry _ _ hh).1
      have hrun := deregisterMem_run B.completeOid hh { s.client with codes := codes }
      simp only
      generalize (deregisterMem s.conts (.daos md)).run (handler B.completeOid)
        { s.client with codes := codes } = r at hrun
      rcases hrun with ⟨⟨_, ho⟩, ⟨hrefs, hm, hp, hc⟩ | ⟨hrefs, hm, ⟨_, hp⟩, ⟨_, hc⟩⟩⟩
      · -- others are left in the container
        refine hinv.deregistered hi rfl ho ?_ ?_ ?_ ?_ ?_
        · intro key hkey
          simp only [hm]
          exact OrderedMap.getElem?_insert_of_ne hkey
        · intro h' hh'
          simp only [hm, ExtTreeMap.getElem?_insert_self, Option.some.injEq] at hh'
          subst hh'
          simp only
          exact ⟨by omega, by omega⟩
        · intro hn
          simp [hm] at hn
        · simp only [hm, hp]
          exact hinv.pools.perm (entryHandles_refs hh rfl)
        · simp only [hm, hc]
          exact hinv.conts.perm (entryHandles_refs hh rfl)
      · -- the last registration of its container
        refine hinv.deregistered hi rfl ho ?_ ?_ ?_ ?_ ?_
        · intro key hkey
          simp only [hm]
          exact OrderedMap.getElem?_erase_of_ne hkey
        · intro h' hh'
          simp [hm] at hh'
        · intro _
          omega
        · simp only [hm, hp]
          exact hinv.pools.close (entryHandles_erase _ hh) _
        · simp only [hm, hc]
          exact hinv.conts.close (entryHandles_erase _ hh) _

/-- What one step preserves. -/
theorem step_inv {B : Build} {s s' : St} {a : Lbl} (hinv : Inv s) (hst : step B s a = some s') :
    Inv s' := by
  cases a with
  | register mem seg codes =>
      cases hst
      exact register_inv hinv mem seg codes
  | deregister i codes => exact deregister_inv hinv hst
  | deregisterNull =>
      cases hst
      exact hinv

/-- So the invariant holds in every reachable state. -/
theorem inv_of_reachable {B : Build} {s : St} (h : (machine B).Reachable s) : Inv s := by
  apply h.invariant
  · rintro s rfl
    exact initial_inv
  · intro s a s' hinv _ hst
    exact step_inv hinv hst

/-! ## What the engine guarantees -/

/-- A registration names a container by its key. -/
theorem Inv.naming_iff {s : St} (hinv : Inv s) {pool cont : List Char} (hpool : '/' ∉ pool)
    {md : ObjMd} (hmem : md ∈ s.live) :
    md.key = contKey pool cont ↔ md.pool = pool ∧ md.cont = cont := by
  constructor
  · intro h
    exact contKey_inj (hinv.plain md hmem).1 hpool h
  · rintro ⟨rfl, rfl⟩
    rfl

/-- An entry exactly for the keys that registrations have. -/
theorem Inv.isSome_iff {s : St} (hinv : Inv s) (key : List Char) :
    (s.conts[key]?).isSome ↔ ∃ md ∈ s.live, md.key = key := by
  constructor
  · intro h
    rcases Option.isSome_iff_exists.mp h with ⟨h, hh⟩
    have hlen := hinv.entry key h hh
    have hne : s.naming key ≠ [] := by
      intro hnil
      rw [hnil] at hlen
      simp only [List.length_nil] at hlen
      omega
    rcases List.exists_mem_of_ne_nil _ hne with ⟨md, hmd⟩
    exact ⟨md, List.mem_of_mem_filter hmd, of_decide_eq_true (List.mem_filter.mp hmd).2⟩
  · rintro ⟨md, hmem, hkey⟩
    by_contra hno
    have hn := hinv.noEntry key (by simpa using hno)
    have hmd : md ∈ s.naming key := List.mem_filter.mpr ⟨hmem, decide_eq_true hkey⟩
    rw [hn] at hmd
    cases hmd

/-- What the invariant says about handles and references. -/
theorem Inv.accounted {s : St} (hinv : Inv s) : Accounted s := by
  refine ⟨?_, ?_, ?_, hinv.pools, hinv.conts, hinv.objs, hinv.pools.openAre, hinv.conts.openAre,
    hinv.objs.openAre⟩
  · intro pool cont hpool _
    rw [hinv.isSome_iff]
    exact exists_congr fun md => and_congr_right fun hmem => hinv.naming_iff hpool hmem
  · intro key h
    exact (hinv.isSome_iff key).mp h
  · intro pool cont h hpool _ hh
    rw [(hinv.entry _ _ hh).1, St.naming, ← List.countP_eq_length_filter]
    congr 1
    apply List.countP_congr
    intro md hmem
    simp only [decide_eq_true_eq]
    exact hinv.naming_iff hpool hmem

/-- The same object handles are open, and of pools and containers the same and those that
were opened since and whose close failed. -/
def OpenButLeaks (c c' : Client) : Prop :=
  (∀ n, c'.pools.IsOpen n ↔ c.pools.IsOpen n ∨ c.pools.Leaks c'.pools n) ∧
    (∀ n, c'.conts.IsOpen n ↔ c.conts.IsOpen n ∨ c.conts.Leaks c'.conts n) ∧
    ∀ n, c'.objs.IsOpen n ↔ c.objs.IsOpen n

/-- Handles of the same entries are open, and what leaked. -/
theorem Ledger.OpenAre.settled {l l' : Ledger} {held : List Handle} (h : l.OpenAre held)
    (h' : l'.OpenAre held) (hs : l.Settled l') (n : Handle) :
    l'.IsOpen n ↔ l.IsOpen n ∨ l.Leaks l' n := by
  rw [h n, h' n, hs.failed_iff n, or_assoc]

/-- A `registerMem` that fails leaves `conts_` and the registrations as they were, and
opens nothing for good that it could close. -/
theorem register_failed {B : Build} {s : St} (hinv : Inv s) {mem : BlobDesc} {seg : Mem}
    {codes : List ℤ} (hfail : (register B s mem seg codes).1 ≠ .success) :
    (register B s mem seg codes).2.conts = s.conts ∧
      (register B s mem seg codes).2.live = s.live ∧
      OpenButLeaks s.client (register B s mem seg codes).2.client := by
  have hinv' := register_inv (B := B) hinv mem seg codes
  have hout := registerMem_run B.completeOid B.haveGpu hinv.positive mem seg
    { s.client with codes := codes }
  have hkept : (register B s mem seg codes).2.conts = s.conts ∧
      (register B s mem seg codes).2.live = s.live ∧
      s.client.Settled (register B s mem seg codes).2.client := by
    unfold register at hfail ⊢
    simp only at hfail ⊢
    generalize (registerMem B.haveGpu s.conts mem seg).run (handler B.completeOid)
      { s.client with codes := codes } = r at hout hfail
    rcases r with ⟨reg, c'⟩
    cases hout with
    | kept hc => exact ⟨rfl, List.append_nil _, hc.pools, hc.conts, hc.objs⟩
    | shared _ _ _ _ _ _ _ => exact absurd rfl hfail
    | opened _ _ _ _ _ _ _ => exact absurd rfl hfail
  obtain ⟨hconts, hlive, hsettled⟩ := hkept
  refine ⟨hconts, hlive, ?_, ?_, fun n => by rw [hsettled.objs]⟩
  · -- the entries hold the same handles as before
    exact hinv.pools.openAre.settled (hconts ▸ hinv'.pools.openAre) hsettled.pools
  · exact hinv.conts.openAre.settled (hconts ▸ hinv'.conts.openAre) hsettled.conts

/-- Whichever calls fail: in every reachable state the entries and the handles
are accounted for, and a `registerMem` that fails there leaves no entry and no
handle behind but those whose close failed. -/
theorem registrations_accounted {B : Build} {s : St} (h : (machine B).Reachable s) :
    Accounted s ∧ ∀ mem seg codes, (register B s mem seg codes).1 ≠ .success →
      (register B s mem seg codes).2.conts = s.conts ∧
        OpenButLeaks s.client (register B s mem seg codes).2.client := by
  have hinv := inv_of_reachable h
  refine ⟨hinv.accounted, ?_⟩
  intro mem seg codes hfail
  have hkept := register_failed hinv hfail
  exact ⟨hkept.1, hkept.2.2⟩

/-- A client without GPU support that keeps object ids as they are. -/
def plainBuild : Build := ⟨false, id⟩

def blob (devId : ℕ) (metaInfo : String) : BlobDesc := ⟨devId, metaInfo.toList⟩

/-- Two objects of one container, a third whose open fails, and the first
deregistered again: the entry counts one, under the handles it was opened with. -/
theorem shared_container_accounted :
    ∃ s, (machine plainBuild).Reachable s ∧
      s.conts[contKey ['p'] ['c']]? = some ⟨0, 0, 1⟩ ∧ s.client.objs = ⟨2, [0], []⟩ ∧
      Accounted s := by
  have hrun : ∃ s, (machine plainBuild).Reachable s ∧
      s.conts[contKey ['p'] ['c']]? = some ⟨0, 0, 1⟩ ∧ s.client.objs = ⟨2, [0], []⟩ :=
    Machine.Reachable.of_run (M := machine plainBuild) rfl
      [.register (blob 1 "p/c") .file [], .register (blob 2 "p/c/7.8") .file [],
        .register (blob 3 "p/c") .file [0, -1], .deregister 0 []] _ (by decide +kernel)
  rcases hrun with ⟨s, hreach, hentry, hobjs⟩
  exact ⟨s, hreach, hentry, hobjs, (registrations_accounted hreach).1⟩

/-- The container does not open and the pool does not disconnect: the `registerMem`
fails, and the pool stays connected under a handle that no entry has. -/
theorem failed_disconnect_leaks :
    ∃ s, (machine plainBuild).Reachable s ∧ s.conts[contKey ['p'] ['c']]? = none ∧ s.live = [] ∧
      s.client.pools.IsOpen 0 ∧ 0 ∉ entryHandles ContHandles.poh s.conts := by
  have hreach : (machine plainBuild).Reachable
      (register plainBuild initial (blob 1 "p/c") .file [0, -1, -1]).2 :=
    .step (a := .register (blob 1 "p/c") .file [0, -1, -1]) (.init rfl) trivial rfl
  have hfail : (register plainBuild initial (blob 1 "p/c") .file [0, -1, -1]).1 ≠ .success := by
    decide +kernel
  obtain ⟨hconts, hlive, hpools, -⟩ := register_failed initial_inv hfail
  refine ⟨_, hreach, ?_, hlive, (hpools 0).mpr (.inr ⟨Nat.le_refl 0, by decide +kernel⟩), ?_⟩
  · rw [hconts]
    rfl
  · rw [hconts]
    simp [entryHandles, initial]

end LmcacheDaos.Nixl.Containers
