import Lumin.Fs.Files
import Lumin.Lib.Transition
import Lumin.Proc.Path
import Lumin.Proc.Task

/-!
# File descriptors

The cases of `syscall_entry` that work on `current_task->fds`: a model of
`SYS_OPEN`, `SYS_CLOSE`, `SYS_READ`, `SYS_WRITE`, `SYS_DUP`, `SYS_DUP2`,
`SYS_LSEEK` and `SYS_PIPE`.  `SYS_WRITE` never looks at the table.  `SYS_READ` looks at it for
every descriptor but 0, which is the keyboard.
-/

namespace Lumin.Proc

open Lumin.Fs Lumin.Lib

/-- What the descriptor calls work on: the VFS, the descriptors of the current
task and the bytes that went to the console.  `pid` is `none` when there is no
current task. -/
structure FdWorld (σ ι : Type) where
  vfs : VfsState σ ι
  fds : Nat → Option Nat
  pid : Option Int
  console : List UInt8

variable {σ ι : Type}

/-- `current_task->fds[fd] = f`. -/
def FdWorld.setFd (w : FdWorld σ ι) (fd : Nat) (f : Option Nat) : FdWorld σ ι :=
  { w with fds := fun i => if i = fd then f else w.fds i }

/-- The file of a descriptor argument, when there is a current task and the
argument is in range. -/
def fileOf (w : FdWorld σ ι) (fd : Int) : Option Nat :=
  if w.pid.isNone ∨ fd < 0 ∨ fd ≥ MAX_FDS then none else w.fds fd.toNat

/-- The lowest free descriptor. -/
def freeFd (w : FdWorld σ ι) : Option Nat :=
  (List.range MAX_FDS).find? fun i => (w.fds i).isNone

/-- The flags of `SYS_OPEN` as `vfs_open` wants them. -/
def openFlags (userFlags : Nat) : Nat :=
  let access :=
    match userFlags &&& 3 with
    | 0 => VFS_O_READ
    | 1 => VFS_O_WRITE
    | 2 => VFS_O_READ ||| VFS_O_WRITE
    | _ => 0
  if userFlags &&& 0x40 ≠ 0 then access ||| VFS_O_CREAT else access

/-- `SYS_OPEN`. -/
def sysOpen (ops : InodeOps σ ι) (w : FdWorld σ ι) (path : CStr) (userFlags : Nat) :
    Int × FdWorld σ ι :=
  if w.pid.isNone ∨ w.pid = some 0 then (-1, w)
  else
    match vfsOpen ops w.vfs (rawPath path) (openFlags userFlags) with
    | (none, vfs) => (-1, { w with vfs := vfs })
    | (some f, vfs) =>
      match freeFd w with
      | none => (-1, { w with vfs := vfsClose vfs f })
      | some fd => (fd, { w with vfs := vfs }.setFd fd (some f))

/-- `SYS_CLOSE`. -/
def sysClose (w : FdWorld σ ι) (fd : Int) : Int × FdWorld σ ι :=
  match fileOf w fd with
  | none => (-1, w)
  | some f => (0, { w with vfs := vfsClose w.vfs f }.setFd fd.toNat none)

/-- `SYS_WRITE` of the bytes `data`: the standard outputs go to the console, and
every other descriptor is ignored. -/
def sysWrite (w : FdWorld σ ι) (fd : Int) (data : List UInt8) : Int × FdWorld σ ι :=
  if fd = 1 ∨ fd = 2 then (data.length, { w with console := w.console ++ data })
  else (data.length, w)

/-- The keyboard loop of `SYS_READ`: `count` characters out of what
`keyboard_dequeue` delivers, where a negative number is no character.  `none`
means that the call waits for more. -/
def readKeys : Nat → List Int → Option (List UInt8)
  | 0, _ => some []
  | _ + 1, [] => none
  | count + 1, c :: keys =>
    if c < 0 then readKeys (count + 1) keys
    else (readKeys count keys).map (UInt8.ofNat c.toNat :: ·)

/-- `SYS_READ`: the result, the bytes stored at `buf` and the state. -/
def sysRead (ops : InodeOps σ ι) (w : FdWorld σ ι) (fd : Int) (buf count : Nat)
    (keys : List Int) :
    Option (Int × List UInt8 × FdWorld σ ι) :=
  if fd = 0 then (readKeys count keys).map fun bytes => ((bytes.length : Int), bytes, w)
  else
    match fileOf w fd with
    | none => some (-1, [], w)
    | some f =>
      let (r, bytes, vfs) := vfsRead ops w.vfs f count buf
      some (r, bytes, { w with vfs := vfs })

/-- `SYS_DUP`.  A failing `vfs_dup` leaves a free descriptor behind. -/
def sysDup (w : FdWorld σ ι) (oldfd : Int) : Int × FdWorld σ ι :=
  match fileOf w oldfd with
  | none => (-1, w)
  | some f =>
    match freeFd w with
    | none => (-1, w)
    | some newfd =>
      let (g, vfs) := vfsDup w.vfs f
      (newfd, { w with vfs := vfs }.setFd newfd g)

/-- `SYS_DUP2`. -/
def sysDup2 (w : FdWorld σ ι) (oldfd newfd : Int) : Int × FdWorld σ ι :=
  if w.pid.isNone ∨ newfd < 0 ∨ newfd ≥ MAX_FDS then (-1, w)
  else
    match fileOf w oldfd with
    | none => (-1, w)
    | some _ =>
      let w :=
        match w.fds newfd.toNat with
        | none => w
        | some g => { w with vfs := vfsClose w.vfs g }.setFd newfd.toNat none
      -- `fds[oldfd]` is read again: it is `NULL` now when the two are the same.
      match w.fds oldfd.toNat with
      | none => (newfd, w.setFd newfd.toNat none)
      | some f =>
        let (g, vfs) := vfsDup w.vfs f
        (newfd, { w with vfs := vfs }.setFd newfd.toNat g)

/-- `SYS_LSEEK`.  The offset is a 64-bit word, and the result is 0 also when
`whence` is unknown. -/
def sysLseek (ops : InodeOps σ ι) (w : FdWorld σ ι) (fd : Int) (offset whence : Nat) :
    Int × FdWorld σ ι :=
  match fileOf w fd with
  | none => (-1, w)
  | some f =>
    let file := w.vfs.files f
    let moved :=
      match whence, file.inode with
      | 0, _ => { file with offset := offset }
      | 1, _ => { file with offset := u64 (file.offset + offset) }
      | 2, some inode => { file with offset := u64 (ops.size w.vfs.fs inode + offset) }
      | _, _ => file
    (0, { w with vfs := w.vfs.setFile f moved })

/-- The second half of `vfs_pipe_create`: the files get the pipe's inode, and the first
two free descriptors get the files. -/
def installPipe (w : FdWorld σ ι) (inode : ι) (f0 f1 : Nat) : Int × FdWorld σ ι :=
  let vfs := w.vfs.setFile f0 { inode := some inode, offset := 0, flags := VFS_O_READ }
  let vfs := vfs.setFile f1 { inode := some inode, offset := 0, flags := VFS_O_WRITE }
  let w := { w with vfs := vfs }
  match (List.range MAX_FDS).filter fun i => (w.fds i).isNone with
  | a :: b :: _ => (0, (w.setFd a (some f0)).setFd b (some f1))
  -- With one free descriptor the loop has set it before it fails.
  | [a] => (-1, { w with vfs := vfsClose (vfsClose vfs f0) f1 }.setFd a (some f0))
  | [] => (-1, { w with vfs := vfsClose (vfsClose vfs f0) f1 })

/-- `SYS_PIPE`, that is `vfs_pipe_create`.  `page` tells whether `pmm_alloc` gives the
page of the pipe, and `inode` is what `vfs_alloc_inode` gives. -/
def sysPipe (w : FdWorld σ ι) (page : Bool) (inode : Option ι) : Int × FdWorld σ ι :=
  match page, inode with
  | true, some inode =>
    let (f0, vfs) := vfsAllocFile w.vfs
    let (f1, vfs) := vfsAllocFile vfs
    match f0, f1 with
    | some f0, some f1 => installPipe { w with vfs := vfs } inode f0 f1
    | _, _ => (-1, { w with vfs := vfsFreeFile (vfsFreeFile vfs f0) f1 })
  | _, _ => (-1, w)

/-! ## Runs -/

inductive FdOp where
  | openPath (path : CStr) (userFlags : Nat)
  | close (fd : Int)
  | read (fd : Int) (buf count : Nat) (keys : List Int)
  | write (fd : Int) (data : List UInt8)
  | dup (oldfd : Int)
  | dup2 (oldfd newfd : Int)
  | lseek (fd : Int) (offset whence : Nat)

/-- One system call. -/
def fdStep (ops : InodeOps σ ι) (w : FdWorld σ ι) : FdOp → Option (FdWorld σ ι)
  | .openPath path userFlags => some (sysOpen ops w path userFlags).2
  | .close fd => some (sysClose w fd).2
  | .read fd buf count keys => (sysRead ops w fd buf count keys).map fun r => r.2.2
  | .write fd data => some (sysWrite w fd data).2
  | .dup oldfd => some (sysDup w oldfd).2
  | .dup2 oldfd newfd => some (sysDup2 w oldfd newfd).2
  | .lseek fd offset whence => some (sysLseek ops w fd offset whence).2

end Lumin.Proc
