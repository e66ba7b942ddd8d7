import Mathlib.Tactic.Common

/-!
# MP object names

`ObjectKey` and `_key_to_name` (`mp/l2_adapter.py`): the DFS file that holds
the object of a key.
-/

namespace LmcacheDaos.Mp

/-- LMCache's `ObjectKey`. -/
structure ObjectKey where
  chunkHash : List UInt8
  modelName : String
  kvRank : ℕ
  objectGroupId : ℕ
  cacheSalt : String
deriving DecidableEq, Repr

/-- `s.replace("/", "_")` -/
def foldSlash (s : String) : List Char := s.toList.map fun c => if c = '/' then '_' else c

/-- `f"{n:0wx}"` -/
def hexPad (w n : ℕ) : List Char := (Nat.toDigits 16 n).leftpad w '0'

/-- `bytes.hex()` -/
def hexBytes (bs : List UInt8) : List Char := bs.flatMap fun b => hexPad 2 b.toNat

theorem hexPad_two {n : ℕ} (h : n < 256) :
    hexPad 2 n = [Nat.digitChar (n / 16), Nat.digitChar (n % 16)] := by
  revert n
  decide +kernel

theorem digitChar_inj : ∀ i < 16, ∀ j < 16, Nat.digitChar i = Nat.digitChar j → i = j := by
  decide +kernel

/-- Two digits a byte, so the bytes can be read off. -/
theorem hexBytes_injective : Function.Injective hexBytes := by
  have hcons : ∀ b bs, hexBytes (b :: bs) =
      Nat.digitChar (b.toNat / 16) :: Nat.digitChar (b.toNat % 16) :: hexBytes bs := by
    intro b bs
    rw [hexBytes, List.flatMap_cons, hexPad_two b.toNat_lt]
    rfl
  intro bs
  induction bs with
  | nil =>
      intro cs h
      cases cs with
      | nil => rfl
      | cons c cs =>
          rw [hcons] at h
          cases h
  | cons b bs ih =>
      intro cs h
      cases cs with
      | nil =>
          rw [hcons] at h
          cases h
      | cons c cs =>
          rw [hcons, hcons, List.cons.injEq, List.cons.injEq] at h
          have hb := b.toNat_lt
          have hc := c.toNat_lt
          have hhigh := digitChar_inj _ (by omega) _ (by omega) h.1
          have hlow := digitChar_inj _ (by omega) _ (by omega) h.2.1
          have hbc : b = c := UInt8.toNat_inj.mp (by omega)
          rw [hbc, ih h.2.2]

/-- `_key_to_name` -/
def keyToName (key : ObjectKey) : List Char :=
  let base := foldSlash key.modelName ++ '@' :: hexPad 8 key.kvRank ++
    '@' :: hexPad 0 key.objectGroupId ++ '@' :: hexBytes key.chunkHash
  if key.cacheSalt = "" then base else base ++ '@' :: foldSlash key.cacheSalt

/-- `DaosL2Adapter._path` under a root. -/
def path (root : String) (key : ObjectKey) : String := root ++ "/" ++ String.ofList (keyToName key)

example : path "/mp" ⟨[1, 255], "Qwen/Qwen3-14B", 10, 0, "tenant-a"⟩ =
    "/mp/Qwen_Qwen3-14B@0000000a@0@01ff@tenant-a" := by decide

end LmcacheDaos.Mp
