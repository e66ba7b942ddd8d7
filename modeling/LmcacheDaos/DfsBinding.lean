import LmcacheDaos.Lib.FileStore

/-!
# The DFS binding

The part of `DfsSys` (`dfs_binding.py`) that the three backends use, over a
flat namespace of sparse files. A handle (`dfs_obj_t *`) is the file object it
was opened on. Nothing here truncates: `open_rdwr_create` passes
`DFS_RDWR | O_CREAT` only, so an existing file keeps its bytes.

Two readings of a write are kept: `writeObjFrom`, the call as a whole, and
`landChunk`, one DFS chunk of it becoming visible. A read has one reading only:
the bytes of one moment, however many chunks they lie in.
-/

namespace LmcacheDaos

open Lib

abbrev Bytes := List UInt8

/-- `DaosError`, by its return code. -/
structure DaosError where
  rc : ℤ
deriving DecidableEq, Repr

/-- `ENOENT` -/
def enoent : DaosError := ⟨2⟩

abbrev Dfs := FileStore String UInt8

/-- `dfs_obj_t *` -/
abbrev Handle := Inode String

namespace Dfs

/-- `stat_size`: `st_size`, or `None` if the path does not exist. -/
def statSize (fs : Dfs) (path : String) : Option ℕ := fs.size path

/-- `open_rdwr_create` -/
def openRdwrCreate (fs : Dfs) (path : String) : Dfs × Handle := fs.openCreate path

/-- `open_rdonly` -/
def openRdonly (fs : Dfs) (path : String) : Except DaosError Handle :=
  match fs.names path with
  | some h => .ok h
  | none => .error enoent

/-- `write_obj_from`, complete. -/
def writeObjFrom (fs : Dfs) (h : Handle) (offset : ℕ) (src : Bytes) : Dfs :=
  fs.setFile h (SparseFile.writeAt 0 (fs.files h) offset src)

/-- One DFS chunk of a `write_obj_from` becomes visible. -/
def landChunk (fs : Dfs) (chunkSize : ℕ) (h : Handle) (offset : ℕ) (src : Bytes) (k : ℕ) : Dfs :=
  fs.setFile h (SparseFile.landChunk 0 chunkSize (fs.files h) offset src k)

/-- `read_obj` and `read_obj_into`: the bytes actually read, all of them as they
are at one moment. -/
def readObj (fs : Dfs) (h : Handle) (offset length : ℕ) : Bytes :=
  SparseFile.readAt (fs.files h) offset length

/-- `exists`: open and close again. -/
def pathExists (fs : Dfs) (path : String) : Bool := (fs.names path).isSome

/-- `remove`: whether there was something to remove. -/
def remove (fs : Dfs) (path : String) : Dfs × Bool :=
  match fs.names path with
  | some _ => (fs.unlink path, true)
  | none => (fs, false)

/-- No name refers to the object any more. -/
def unlinked (fs : Dfs) (h : Handle) : Bool := decide (∀ p ∈ fs.dir, fs.names p ≠ some h)

/-- An object without a name loses its tail: a handle on it reads short. -/
def reclaim (fs : Dfs) (h : Handle) (size : ℕ) : Option Dfs :=
  if unlinked fs h then some (fs.setFile h ((fs.files h).take size)) else none

theorem reclaim_eq_some {fs fs' : Dfs} {h : Handle} {m : ℕ} :
    reclaim fs h m = some fs' ↔
      (∀ p ∈ fs.dir, fs.names p ≠ some h) ∧ fs' = fs.setFile h ((fs.files h).take m) := by
  unfold reclaim unlinked
  split
  · simp_all [eq_comm]
  · simp_all

end Dfs

end LmcacheDaos
