import Mathlib.Tactic

/-!
# Path resolution of the VFS

A model of `resolve_full` and `resolve_parent` of `kernel/fs/vfs.c`.  A C string
is the list of its bytes before the terminating zero.  Inodes are of an
arbitrary type, and what a filesystem answers for them is a function, so that
two lookups of one name in one directory give the same inode.  Reference counts
are left out.
-/

namespace Lumin.Fs

/-- The bytes of a C string. -/
abbrev CStr := List UInt8

def SLASH : UInt8 := 47

def VFS_NAME_MAX : Nat := 256
def VFS_PATH_MAX : Nat := 512

/-- `enum vfs_inode_type`. -/
inductive InodeType where
  | file
  | dir
  | blkdev
  | chrdev
  deriving DecidableEq, Repr

/-- `struct vfs_dentry`. -/
structure Dentry where
  name : CStr
  ino : Nat
  type : InodeType
  size : Nat
  deriving DecidableEq

/-- `struct vfs_mount_entry`, with the root inode of its superblock. -/
structure Mount (ι : Type) where
  path : CStr
  root : ι

/-- The mount table and what the mounted filesystems answer.  `isDir` says that
the inode is a directory with a `lookup` operation. -/
structure Vfs (ι : Type) where
  mounts : List (Mount ι)
  isDir : ι → Bool
  lookup : ι → CStr → Option ι

variable {ι : Type}

/-- Append to `fullpath`, which holds at most `VFS_PATH_MAX - 1` bytes. -/
def pushFull (full s : CStr) : CStr := full ++ s.take (VFS_PATH_MAX - 1 - full.length)

/-- The mount that the walk enters at `full`: the first one after the root. -/
def mountAt (v : Vfs ι) (full : CStr) : Option ι :=
  (v.mounts.tail.find? fun m => m.path = full).map Mount.root

/-- The step to the component `name`, with `full` the path up to it. -/
def enter (v : Vfs ι) (cur : ι) (name full : CStr) : Option ι :=
  match mountAt v full with
  | some root => some root
  | none => if v.isDir cur then v.lookup cur name else none

/-- The loop of `resolve_full`: the inode and `fullpath` at the end.  Every turn
consumes at least one byte of the path. -/
def resolveWalk (v : Vfs ι) : Nat → CStr → CStr → ι → Option (ι × CStr)
  | 0, _, full, cur => some (cur, full)
  | fuel + 1, path, full, cur =>
    if path = [] then some (cur, full)
    else
      let full := pushFull full (path.takeWhile (· = SLASH))
      let path := path.dropWhile (· = SLASH)
      if path = [] then some (cur, full)
      else
        let name := (path.takeWhile (· ≠ SLASH)).take (VFS_NAME_MAX - 1)
        let full := pushFull full name
        match enter v cur name full with
        | none => none
        | some next => resolveWalk v fuel (path.drop name.length) full next

/-- `resolve_full`.  `none` is `-1`. -/
def resolveFull (v : Vfs ι) (path : CStr) : Option ι :=
  if path = [] then none
  else
    match v.mounts with
    | [] => none
    | rootMount :: _ =>
      let start := if path.head? = some SLASH then [] else [SLASH]
      match resolveWalk v path.length path start rootMount.root with
      | none => none
      | some (cur, full) =>
        -- The last mount with exactly this path is put in place of the inode.
        match v.mounts.reverse.find? fun m => m.path = full with
        | some m => some m.root
        | none => some cur

/-- The two loops of `resolve_parent` that move `slash` back: the path up to and
with the last slash before the last component. -/
def parentPath (path : CStr) : CStr :=
  let upTo := (path.reverse.dropWhile (· = SLASH)).dropWhile (· ≠ SLASH)
  if upTo = [] then path.take 1 else upTo.reverse

/-- `resolve_parent`: the directory and the name of the child. -/
def resolveParent (v : Vfs ι) (path : CStr) : Option (ι × CStr) :=
  if path.head? ≠ some SLASH then none
  else
    let parent := parentPath path
    (resolveFull v parent).map fun dir =>
      (dir, (((path.drop parent.length).dropWhile (· = SLASH)).takeWhile (· ≠ SLASH)).take
        (VFS_NAME_MAX - 1))

end Lumin.Fs
