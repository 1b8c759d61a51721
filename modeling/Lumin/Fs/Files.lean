import Lumin.Fs.Vfs
import Lumin.Lib.Word

/-!
# The file table

A model of `vfs_open`, `vfs_read`, `vfs_write`, `vfs_dup`, `vfs_close`,
`vfs_alloc_file`, `vfs_free_file` and `vfs_create` of `kernel/fs/vfs.c`.  The filesystems have a
state of an arbitrary type, and `InodeOps` is what their operations do; a missing operation is
`none`. A pointer to a `struct vfs_file` is its index in `file_table`.  Reference counts
are left out.
-/

namespace Lumin.Fs

open Lumin.Lib

def VFS_FILE_MAX : Nat := 64

def VFS_O_READ : Nat := 1
def VFS_O_WRITE : Nat := 2
def VFS_O_CREAT : Nat := 4

/-- The operations of the inodes.  `read` gives the result and the bytes stored in
the buffer. -/
structure InodeOps (σ ι : Type) where
  isDir : σ → ι → Bool
  size : σ → ι → Nat
  lookup : σ → ι → CStr → Option ι
  create : ι → Option (σ → CStr → Int × σ)
  read : ι → Option (σ → Nat → Nat → Int × List UInt8 × σ)
  write : ι → Option (σ → Nat → List UInt8 → Int × σ)

/-- `struct vfs_file`. -/
structure VfsFile (ι : Type) where
  inode : Option ι
  offset : Nat
  flags : Nat

/-- The state of the VFS. -/
structure VfsState (σ ι : Type) where
  fs : σ
  mounts : List (Mount ι)
  files : Nat → VfsFile ι
  fileCount : Nat

variable {σ ι : Type}

/-- The mounted filesystems as path resolution sees them. -/
def VfsState.vfs (ops : InodeOps σ ι) (s : VfsState σ ι) : Vfs ι where
  mounts := s.mounts
  isDir := ops.isDir s.fs
  lookup := ops.lookup s.fs

/-- `file_table[idx] = f`. -/
def VfsState.setFile (s : VfsState σ ι) (idx : Nat) (f : VfsFile ι) : VfsState σ ι :=
  { s with files := fun i => if i = idx then f else s.files i }

/-- The first free slot of `file_table`. -/
def freeSlot (s : VfsState σ ι) : Option Nat :=
  (List.range VFS_FILE_MAX).find? fun i => (s.files i).inode.isNone

theorem freeSlot_some {s : VfsState σ ι} {idx : Nat} (h : freeSlot s = some idx) :
    idx < VFS_FILE_MAX ∧ (s.files idx).inode = none := by
  refine ⟨by simpa using List.mem_of_find?_eq_some h, ?_⟩
  simpa using List.find?_some h

/-- Put a file into a free slot. -/
def installFile (s : VfsState σ ι) (idx : Nat) (f : VfsFile ι) : VfsState σ ι :=
  { s.setFile idx f with fileCount := if idx ≥ s.fileCount then idx + 1 else s.fileCount }

/-- `vfs_create`: the result and the state after it. -/
def vfsCreate (ops : InodeOps σ ι) (s : VfsState σ ι) (path : CStr) : Int × VfsState σ ι :=
  match resolveParent (s.vfs ops) path with
  | none => (-1, s)
  | some (parent, child) =>
    match ops.isDir s.fs parent, ops.create parent with
    | true, some create =>
      let (r, fs) := create s.fs child
      (r, { s with fs := fs })
    | _, _ => (-1, s)

/-- The inode that `vfs_open` finds or creates. -/
def openInode (ops : InodeOps σ ι) (s : VfsState σ ι) (path : CStr) (flags : Nat) :
    Option ι × VfsState σ ι :=
  match resolveFull (s.vfs ops) path with
  | some inode => (some inode, s)
  | none =>
    if flags &&& VFS_O_CREAT ≠ 0 then
      let (r, s) := vfsCreate ops s path
      if r = 0 then (resolveFull (s.vfs ops) path, s) else (none, s)
    else (none, s)

/-- `vfs_open`: the file, `none` for `NULL`. -/
def vfsOpen (ops : InodeOps σ ι) (s : VfsState σ ι) (path : CStr) (flags : Nat) :
    Option Nat × VfsState σ ι :=
  match openInode ops s path flags with
  | (none, s) => (none, s)
  | (some inode, s) =>
    match freeSlot s with
    | none => (none, s)
    | some idx =>
      (some idx, installFile s idx { inode := some inode, offset := 0, flags := flags })

/-- `file->offset += r` when `r > 0`. -/
def advance (f : VfsFile ι) (r : Int) : VfsFile ι :=
  if r > 0 then { f with offset := u64 (f.offset + r.toNat) } else f

/-- `vfs_read` of `size` bytes into the buffer at `buf`: the result, the bytes
stored there and the state. -/
def vfsRead (ops : InodeOps σ ι) (s : VfsState σ ι) (file size buf : Nat) :
    Int × List UInt8 × VfsState σ ι :=
  match (s.files file).inode with
  | none => (-1, [], s)
  | some inode =>
    if buf = 0 ∨ (s.files file).flags &&& VFS_O_READ = 0 then (-1, [], s)
    else
      match ops.read inode with
      | none => (-1, [], s)
      | some read =>
        let (r, bytes, fs) := read s.fs (s.files file).offset size
        (r, bytes, { s with fs := fs }.setFile file (advance (s.files file) r))

/-- `vfs_write` of the bytes `data` at `buf`. -/
def vfsWrite (ops : InodeOps σ ι) (s : VfsState σ ι) (file buf : Nat) (data : List UInt8) :
    Int × VfsState σ ι :=
  match (s.files file).inode with
  | none => (-1, s)
  | some inode =>
    if buf = 0 ∨ (s.files file).flags &&& VFS_O_WRITE = 0 then (-1, s)
    else
      match ops.write inode with
      | none => (-1, s)
      | some write =>
        let (r, fs) := write s.fs (s.files file).offset data
        (r, { s with fs := fs }.setFile file (advance (s.files file) r))

/-- `vfs_dup`. -/
def vfsDup (s : VfsState σ ι) (file : Nat) : Option Nat × VfsState σ ι :=
  if (s.files file).inode.isNone then (none, s)
  else
    match freeSlot s with
    | none => (none, s)
    | some idx => (some idx, installFile s idx (s.files file))

/-- `vfs_close`. -/
def vfsClose (s : VfsState σ ι) (file : Nat) : VfsState σ ι :=
  if (s.files file).inode.isNone then s
  else s.setFile file { inode := none, offset := 0, flags := 0 }

/-- `vfs_alloc_file`.  The slot it returns still counts as free: its inode is `NULL`
until the caller fills it. -/
def vfsAllocFile (s : VfsState σ ι) : Option Nat × VfsState σ ι :=
  match freeSlot s with
  | none => (none, s)
  | some idx => (some idx, installFile s idx { inode := none, offset := 0, flags := 0 })

/-- `vfs_free_file`. -/
def vfsFreeFile (s : VfsState σ ι) (file : Option Nat) : VfsState σ ι :=
  match file with
  | none => s
  | some f => s.setFile f { inode := none, offset := 0, flags := 0 }

end Lumin.Fs
