import LmcacheDaos.DfsBinding
import LmcacheDaos.Lib.Program
import Mathlib.Logic.Function.Basic

/-!
# The object binding

`ObjSys` (`obj_binding.py`): one DAOS object, addressed by dkey and akey. An
akey that is not there and one that holds nothing are the same: `fetch` reports
no bytes for both, and no writer of this repository stores an empty value.

A SINGLE value is replaced by a write and fetched whole or not at all; an ARRAY
is overwritten from its first byte on and fetched short where it ends.
-/

namespace LmcacheDaos

open Lib

abbrev Dkey := Bytes

abbrev Akey := Bytes

/-- What each akey holds under each dkey. -/
abbrev ObjStore := Dkey → Akey → Bytes

/-- `DER_REC2BIG` -/
def derRec2big : DaosError := ⟨-2013⟩

namespace ObjStore

/-- A write of one akey. -/
def writeValue (single : Bool) (old new : Bytes) : Bytes :=
  if single then new else SparseFile.writeAt 0 old 0 new

/-- A fetch of one akey into a buffer of `cap` bytes. -/
def fetchValue (single : Bool) (cap : ℕ) (value : Bytes) : Except DaosError Bytes :=
  if single ∧ cap < value.length then .error derRec2big else .ok (value.take cap)

/-- One akey of an `update`. -/
def writeAkey (st : ObjStore) (dkey : Dkey) (single : Bool) (item : Akey × Bytes) : ObjStore :=
  Function.update st dkey
    (Function.update (st dkey) item.1 (writeValue single (st dkey item.1) item.2))

/-- One akey of a `punch` or `punch_akeys`. -/
def punchAkey (st : ObjStore) (dkey : Dkey) (akey : Akey) : ObjStore :=
  Function.update st dkey (Function.update (st dkey) akey [])

/-- `update`, complete. -/
def update (st : ObjStore) (dkey : Dkey) (items : List (Akey × Bytes)) (single : Bool) : ObjStore :=
  items.foldl (fun st item => st.writeAkey dkey single item) st

/-- `fetch`: the bytes produced per akey, none for an akey that is not there. -/
def fetch (st : ObjStore) (dkey : Dkey) (items : List (Akey × ℕ)) (single : Bool) :
    Except DaosError (List Bytes) :=
  items.mapM fun item => fetchValue single item.2 (st dkey item.1)

/-- `punch`: every akey under the dkey. -/
def punch (st : ObjStore) (dkey : Dkey) : ObjStore := Function.update st dkey fun _ => []

/-- `punch_akeys` -/
def punchAkeys (st : ObjStore) (dkey : Dkey) (akeys : List Akey) : ObjStore :=
  akeys.foldl (fun st akey => st.punchAkey dkey akey) st

/-! ## Values after a write -/

/-- Writing an array overwrites a prefix. -/
theorem writeValue_array (old new : Bytes) :
    writeValue false old new = new ++ old.drop new.length := by
  cases new with
  | nil => rfl
  | cons b bs =>
      show old.take 0 ++ List.replicate (0 - old.length) 0 ++ (b :: bs) ++
        old.drop (0 + (b :: bs).length) = _
      simp

theorem writeAkey_self (st : ObjStore) (dkey : Dkey) (single : Bool) (item : Akey × Bytes) :
    st.writeAkey dkey single item dkey item.1 = writeValue single (st dkey item.1) item.2 := by
  simp [writeAkey]

theorem writeAkey_other {st : ObjStore} {dkey d : Dkey} {single : Bool} {item : Akey × Bytes}
    {a : Akey} (h : d ≠ dkey ∨ a ≠ item.1) : st.writeAkey dkey single item d a = st d a := by
  unfold writeAkey
  by_cases hd : d = dkey
  · subst hd
    rw [Function.update_self, Function.update_of_ne (h.resolve_left (by simp))]
  · rw [Function.update_of_ne hd]

/-! ## Writes to several dkeys -/

/-- A write of one akey under some dkey. -/
structure Write where
  dkey : Dkey
  single : Bool
  item : Akey × Bytes

/-- Where it goes. -/
def Write.place (w : Write) : Dkey × Akey := (w.dkey, w.item.1)

def apply (st : ObjStore) (ws : List Write) : ObjStore :=
  ws.foldl (fun st w => st.writeAkey w.dkey w.single w.item) st

theorem apply_append (st : ObjStore) (ws ws' : List Write) :
    st.apply (ws ++ ws') = (st.apply ws).apply ws' :=
  List.foldl_append

theorem update_eq_apply (st : ObjStore) (dkey : Dkey) (items : List (Akey × Bytes))
    (single : Bool) :
    st.update dkey items single = st.apply (items.map fun item => ⟨dkey, single, item⟩) := by
  rw [apply, List.foldl_map]
  rfl

/-- What a place holds depends on the writes to it, in their order. -/
theorem apply_eq_foldl (ws : List Write) (st : ObjStore) (d : Dkey) (a : Akey) :
    st.apply ws d a = (ws.filter fun w => w.place = (d, a)).foldl
      (fun v w => writeValue w.single v w.item.2) (st d a) := by
  induction ws generalizing st with
  | nil => rfl
  | cons w ws ih =>
      show (st.writeAkey w.dkey w.single w.item).apply ws d a = _
      rw [ih]
      by_cases hplace : w.place = (d, a)
      · obtain ⟨rfl, rfl⟩ := Prod.mk.inj hplace
        rw [List.filter_cons_of_pos (by simp [hplace]), List.foldl_cons, writeAkey_self]
      · have hother : d ≠ w.dkey ∨ a ≠ w.item.1 := by
          rw [← not_and_or]
          intro hboth
          exact hplace (Prod.ext hboth.1.symm hboth.2.symm)
        rw [List.filter_cons_of_neg (by simp [hplace]), writeAkey_other hother]

theorem apply_congr {ws ws' : List Write}
    (h : ∀ p, ws.filter (fun w => w.place = p) = ws'.filter fun w => w.place = p) (st : ObjStore) :
    st.apply ws = st.apply ws' := by
  funext d a
  rw [apply_eq_foldl, apply_eq_foldl, h]

/-- A place that no write goes to. -/
theorem apply_other {ws : List Write} {d : Dkey} {a : Akey} (h : (d, a) ∉ ws.map Write.place)
    (st : ObjStore) : st.apply ws d a = st d a := by
  have hnone : ws.filter (fun w => w.place = (d, a)) = [] := by
    rw [List.filter_eq_nil_iff]
    intro w hw hplace
    exact h (of_decide_eq_true hplace ▸ List.mem_map_of_mem hw)
  rw [apply_eq_foldl, hnone]
  rfl

/-- A place that one write goes to. -/
theorem apply_mem {ws : List Write} (hnodup : (ws.map Write.place).Nodup) {w : Write} (hw : w ∈ ws)
    (st : ObjStore) :
    st.apply ws w.dkey w.item.1 = writeValue w.single (st w.dkey w.item.1) w.item.2 := by
  obtain ⟨ws₁, ws₂, rfl⟩ := List.append_of_mem hw
  rw [List.map_append, List.map_cons, List.nodup_append', List.nodup_cons] at hnodup
  obtain ⟨-, ⟨hafter, -⟩, hdisj⟩ := hnodup
  have hbefore : (w.dkey, w.item.1) ∉ ws₁.map Write.place := fun h =>
    hdisj h List.mem_cons_self
  rw [apply_append]
  show ((st.apply ws₁).writeAkey w.dkey w.single w.item).apply ws₂ w.dkey w.item.1 = _
  rw [apply_other hafter, writeAkey_self, apply_other hbefore]

/-! ## Punches -/

theorem punch_other (st : ObjStore) {dkey d : Dkey} (h : d ≠ dkey) : st.punch dkey d = st d :=
  Function.update_of_ne h _ _

theorem punchAkey_other (st : ObjStore) {dkey d : Dkey} {akey a : Akey}
    (h : d ≠ dkey ∨ a ≠ akey) : st.punchAkey dkey akey d a = st d a := by
  unfold punchAkey
  by_cases hd : d = dkey
  · subst hd
    rw [Function.update_self, Function.update_of_ne (h.resolve_left (by simp))]
  · rw [Function.update_of_ne hd]

theorem punchAkeys_other {dkey d : Dkey} {akeys : List Akey} {a : Akey}
    (h : ∀ akey ∈ akeys, (dkey, akey) ≠ (d, a)) (st : ObjStore) :
    st.punchAkeys dkey akeys d a = st d a := by
  induction akeys generalizing st with
  | nil => rfl
  | cons akey akeys ih =>
      have hother : d ≠ dkey ∨ a ≠ akey := by
        rw [← not_and_or]
        rintro ⟨rfl, rfl⟩
        exact h a List.mem_cons_self rfl
      show (st.punchAkey dkey akey).punchAkeys dkey akeys d a = _
      rw [ih (fun k hk => h k (List.mem_cons_of_mem _ hk)), punchAkey_other st hother]

/-! ## What a fetch answers -/

theorem fetch_array (st : ObjStore) (dkey : Dkey) (items : List (Akey × ℕ)) :
    st.fetch dkey items false = .ok (items.map fun item => (st dkey item.1).take item.2) := by
  apply mapM_of_ok
  intro item _
  rw [fetchValue, if_neg (by simp)]

/-- Single values that fit their buffers. -/
theorem fetch_single_of_fit {st : ObjStore} {dkey : Dkey} {items : List (Akey × ℕ)}
    (h : ∀ item ∈ items, (st dkey item.1).length ≤ item.2) :
    st.fetch dkey items true = .ok (items.map fun item => st dkey item.1) := by
  apply mapM_of_ok
  intro item hmem
  have hfit := h item hmem
  rw [fetchValue, if_neg (by omega), List.take_of_length_le hfit]

/-- One that does not fails the fetch of all. -/
theorem fetch_single_of_not_fit {st : ObjStore} {dkey : Dkey} {items : List (Akey × ℕ)}
    (h : ∃ item ∈ items, item.2 < (st dkey item.1).length) :
    st.fetch dkey items true = .error derRec2big := by
  cases hf : st.fetch dkey items true with
  | error e =>
      obtain ⟨item, -, he⟩ := exists_of_mapM_eq_error hf
      rw [fetchValue] at he
      split at he
      · cases he
        rfl
      · cases he
  | ok got =>
      exfalso
      obtain ⟨item, hmem, hbig⟩ := h
      obtain ⟨b, hb⟩ := forall_ok_of_mapM_eq_ok hf item hmem
      rw [fetchValue, if_pos ⟨rfl, hbig⟩] at hb
      cases hb

end ObjStore

end LmcacheDaos
