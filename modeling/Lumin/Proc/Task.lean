import Mathlib.Tactic
import Lumin.Lib.Transition

/-!
# The task table

A model of `kernel/proc/task.c`: the slot table, the pid counter with its
bitmap, and the operations that create, end, signal and schedule tasks.

The calls that a task operation makes into the file system, the loader and the
page allocator are not part of this module.  `CreateEnv` and `ForkEnv` hold
their answers, and the theorems quantify over every answer.  A pointer is an
`Option Nat`, and `none` is `NULL`.  `serial_printf` has no effect on the table
and is left out.
-/

namespace Lumin.Proc

abbrev MAX_TASKS : Nat := 32
def KSTACK_SIZE : Nat := 0x4000
abbrev MAX_FDS : Nat := 16
def USER_BASE_VADDR : Nat := 0x8000000000
def USER_HEAP_START : Nat := USER_BASE_VADDR + 0x100000000

def SIGKILL : Nat := 9
def SIGTERM : Nat := 15
def SIGSTOP : Nat := 19

/-- Slot 0 is the kernel task. -/
instance : NeZero MAX_TASKS := ⟨by decide⟩

/-- `enum task_state`. -/
inductive TaskState where
  | free | ready | running | blocked | zombie
  deriving DecidableEq, Repr

/-- The values of `sa_handler`: `SIG_DFL`, `SIG_IGN` or a user address. -/
inductive SigHandler where
  | dfl | ign | user (addr : Nat)
  deriving DecidableEq, Repr

/-- `struct sigaction`. -/
structure SigAction where
  saHandler : SigHandler
  saMask : BitVec 64
  saFlags : Int
  deriving DecidableEq, Repr

/-- `struct task`.  `fds` holds the index of the `file_table` slot, and `cwd`
the bytes before the terminating NUL. -/
structure Task where
  pid : Int
  state : TaskState
  kernelRsp : Nat
  kernelCr3 : Nat
  pml4 : Option Nat
  brk : Nat
  kstackPage : Option Nat
  ustackPage : Option Nat
  exitCode : Int
  parentPid : Int
  fds : Fin MAX_FDS → Option Nat
  cwd : List UInt8
  sigPending : BitVec 64
  sigBlocked : BitVec 64
  sigActions : Fin 32 → SigAction

/-- The static variables of `task.c` and the two registers that `schedule`
writes.  `pid_bitmap` has `(MAX_TASKS + 31) / 32`, that is one, word. -/
structure Kernel where
  tasks : Fin MAX_TASKS → Task
  nextPid : Nat
  taskCount : Int
  currentIdx : Fin MAX_TASKS
  pidBitmap : BitVec 32
  currentTask : Option (Fin MAX_TASKS)
  cr3 : Nat
  kstackTop : Nat

/-- The number of words of `pid_bitmap`. -/
def PID_WORDS : Nat := (MAX_TASKS + 31) / 32

/-- Store through a `struct task *`. -/
def Kernel.setTask (k : Kernel) (i : Fin MAX_TASKS) (t : Task) : Kernel :=
  { k with tasks := Function.update k.tasks i t }

/-- `task_count += n`. -/
def Kernel.addCount (k : Kernel) (n : Int) : Kernel :=
  { k with taskCount := k.taskCount + n }

/-- Make `tasks[i]` the running task. -/
def Kernel.resume (k : Kernel) (i : Fin MAX_TASKS) : Kernel :=
  { k.setTask i { k.tasks i with state := .running } with
    currentTask := some i, currentIdx := i }

/-- `mov %0, %cr3`. -/
def Kernel.loadCr3 (k : Kernel) (cr3 : Nat) : Kernel :=
  { k with cr3 := cr3 }

/-! ## Process identifiers -/

/-- The retry loop of `alloc_pid` with `attempts` rounds to go: the pid or
`-1`, the counter and the bitmap. -/
def allocPidLoop : (attempts : Nat) → (nextPid : Nat) → BitVec 32 → Int × Nat × BitVec 32
  | 0, nextPid, bitmap => (-1, nextPid, bitmap)
  | attempts + 1, nextPid, bitmap =>
    let pid := if nextPid ≥ 1000000 then 1 else nextPid
    if pid / 32 ≥ PID_WORDS then allocPidLoop attempts (pid + 1) bitmap
    else if bitmap.getLsbD (pid % 32) then allocPidLoop attempts (pid + 1) bitmap
    else (pid, pid + 1, bitmap ||| BitVec.twoPow 32 (pid % 32))

def allocPid (k : Kernel) : Int × Kernel :=
  let r := allocPidLoop (MAX_TASKS * 2) k.nextPid k.pidBitmap
  (r.1, { k with nextPid := r.2.1, pidBitmap := r.2.2 })

/-- The bitmap after `free_pid`.  Division and remainder truncate towards zero,
and the shift takes its count modulo 32 as the processor does. -/
def clearPid (bitmap : BitVec 32) (pid : Int) : BitVec 32 :=
  if pid.tdiv 32 < PID_WORDS then
    bitmap &&& ~~~ BitVec.twoPow 32 ((pid.tmod 32) % 32).toNat
  else bitmap

def freePid (k : Kernel) (pid : Int) : Kernel :=
  { k with pidBitmap := clearPid k.pidBitmap pid }

/-! ## Slots -/

/-- The fields of the slot after `free_task_resources`.  The pages and files it
gives back belong to other modules. -/
def freeTaskResources (t : Task) : Task :=
  { t with fds := fun _ => none, ustackPage := none, pml4 := none, kstackPage := none }

/-- The first slot that is `TASK_FREE`. -/
def firstFree (k : Kernel) : Option (Fin MAX_TASKS) :=
  (List.finRange MAX_TASKS).find? fun i => (k.tasks i).state = .free

/-- `alloc_task`: the first free slot, with what it still holds given back. -/
def allocTask (k : Kernel) : Option (Fin MAX_TASKS) × Kernel :=
  match firstFree k with
  | none => (none, k)
  | some i =>
    let t := k.tasks i
    if t.kstackPage.isSome ∨ t.ustackPage.isSome ∨ t.pml4.isSome then
      (some i, k.setTask i (freeTaskResources t))
    else (some i, k)

/-- `task_init`, from the state the slots had before. -/
def taskInit (k : Kernel) (rsp cr3 : Nat) : Kernel :=
  let cleared : Kernel := { k with tasks := fun i => { k.tasks i with state := .free } }
  let t := cleared.tasks 0
  { cleared.setTask 0 { t with
      pid := 0, state := .running, pml4 := none, kstackPage := none, ustackPage := none,
      brk := 0, parentPid := -1, kernelRsp := rsp, kernelCr3 := cr3 } with
    currentTask := some 0
    currentIdx := 0
    taskCount := 1
    nextPid := 1
    pidBitmap := 1 }

/-! ## Creation -/

/-- The answers that `task_create_user` gets from the code it calls: whether
`vfs_open` finds the file, the page-table root, the entry point that `elf_load`
returns (`0` on failure), the stack pages, and whether `vmm_map_page` maps the
user stack. -/
structure CreateEnv where
  opened : Bool
  pml4 : Option Nat
  entry : Nat
  kstack : Option Nat
  ustack : Option Nat
  mapped : Bool
  deriving DecidableEq, Repr

/-- The answers that `task_fork` gets: the page-table root, the stack pages,
whether every user page could be copied, the words of the interrupt frame it
copies (15 or 20), and the files that `vfs_dup` returns. -/
structure ForkEnv where
  pml4 : Option Nat
  kstack : Option Nat
  ustack : Option Nat
  copied : Bool
  frameWords : Nat
  dup : Fin MAX_FDS → Option Nat

/-- `current_task` is read after the new slot has been written, because the two
are the same slot when the running task has been freed. -/
def currentPid (k : Kernel) : Int :=
  match k.currentTask with
  | none => 0
  | some c => (k.tasks c).pid

/-- The assignments at the end of `task_create_user`, from `alloc_pid` on. -/
def fillCreated (k : Kernel) (t : Fin MAX_TASKS) (pml4 kstack ustack : Nat) : Int × Kernel :=
  let (pid, k) := allocPid k
  let k := k.setTask t { k.tasks t with
    pid := pid, state := .ready
    kernelRsp := kstack + KSTACK_SIZE - 5 * 8 - 15 * 8
    kernelCr3 := (k.tasks 0).kernelCr3
    pml4 := some pml4, brk := USER_HEAP_START
    kstackPage := some kstack, ustackPage := some ustack, exitCode := 0 }
  let k := k.setTask t { k.tasks t with parentPid := currentPid k, fds := fun _ => none }
  let cwd :=
    match k.currentTask with
    | some c => if (k.tasks c).pid ≠ 0 then (k.tasks c).cwd.take 511 else [47]
    | none => [47]
  let k := k.setTask t { k.tasks t with cwd := cwd }
  (pid, k.addCount 1)

/-- `task_create_user`. -/
def taskCreateUser (k : Kernel) (env : CreateEnv) : Int × Kernel :=
  if !env.opened then (-1, k)
  else
    match env.pml4 with
    | none => (-1, k)
    | some pml4 =>
      if env.entry = 0 then (-1, k)
      else
        match allocTask k with
        | (none, k) => (-1, k)
        | (some t, k) =>
          match env.kstack, env.ustack with
          | some kstack, some ustack =>
            if env.mapped then fillCreated k t pml4 kstack ustack else (-1, k)
          | _, _ => (-1, k)

/-- The assignments at the end of `task_fork`, from `alloc_pid` on. -/
def fillForked (k : Kernel) (cur t : Fin MAX_TASKS) (pml4 kstack ustack : Nat) (env : ForkEnv) :
    Int × Kernel :=
  let (pid, k) := allocPid k
  let k := k.setTask t { k.tasks t with
    pid := pid, state := .ready
    kernelRsp := kstack + KSTACK_SIZE - env.frameWords * 8
    kernelCr3 := (k.tasks cur).kernelCr3
    pml4 := some pml4, brk := (k.tasks cur).brk
    kstackPage := some kstack, ustackPage := some ustack, exitCode := 0 }
  let k := k.setTask t { k.tasks t with
    parentPid := (k.tasks cur).pid
    fds := fun i => if ((k.tasks cur).fds i).isSome then env.dup i else none }
  (pid, k.addCount 1)

/-- `task_fork`. -/
def taskFork (k : Kernel) (env : ForkEnv) : Int × Kernel :=
  match k.currentTask with
  | none => (-1, k)
  | some cur =>
    match allocTask k with
    | (none, k) => (-1, k)
    | (some t, k) =>
      match env.pml4, env.kstack, env.ustack with
      | some pml4, some kstack, some ustack =>
        if env.copied then fillForked k cur t pml4 kstack ustack env else (-1, k)
      | _, _, _ => (-1, k)

/-! ## Exit and signals -/

/-- `task_exit`.  It switches to the kernel task; `none` is the halt of the
kernel task itself. -/
def taskExit (k : Kernel) (code : Int) : Option Kernel :=
  match k.currentTask with
  | none => none
  | some c =>
    if (k.tasks c).pid = 0 then none
    else
      let k := freePid k (k.tasks c).pid
      let k := k.setTask c { k.tasks c with state := .free, exitCode := code }
      let k := k.resume 0
      some (k.loadCr3 (k.tasks 0).kernelCr3)

/-- The slot that `task_kill` signals. -/
def findTaskByPid (k : Kernel) (pid : Int) : Option (Fin MAX_TASKS) :=
  (List.finRange MAX_TASKS).find? fun i => (k.tasks i).pid = pid ∧ (k.tasks i).state ≠ .free

/-- The two branches of `task_kill` that free the slot at once. -/
def killSlot (k : Kernel) (i : Fin MAX_TASKS) (pending : BitVec 64) : Kernel :=
  let t := k.tasks i
  (freePid (k.setTask i { t with sigPending := pending, state := .free }) t.pid).addCount (-1)

/-- `task_kill`. -/
def taskKill (k : Kernel) (pid : Int) (sig : Nat) : Option (Int × Kernel) :=
  if h : sig < 1 ∨ sig > 31 then some (-1, k)
  else if pid ≤ 0 then some (-1, k)
  else
    match findTaskByPid k pid with
    | none => some (-1, k)
    | some i =>
      if sig = SIGKILL then
        if k.currentTask = some i then (taskExit k 9).map fun k => (0, k)
        else some (0, killSlot k i 0)
      else
        let pending := (k.tasks i).sigPending ||| BitVec.twoPow 64 sig
        if sig = SIGTERM ∧
            ((k.tasks i).sigActions ⟨sig, by omega⟩).saHandler = .dfl then
          some (0, killSlot k i pending)
        else some (0, k.setTask i { k.tasks i with sigPending := pending })

/-- `task_sigaction` with a new action. -/
def taskSigaction (k : Kernel) (sig : Fin 32) (act : SigAction) : Int × Kernel :=
  match k.currentTask with
  | none => (-1, k)
  | some c =>
    if sig.val < 1 ∨ sig.val = SIGKILL ∨ sig.val = SIGSTOP then (-1, k)
    else
      let t := k.tasks c
      (0, k.setTask c { t with sigActions := Function.update t.sigActions sig act })

/-! ## The scheduler -/

/-- The slot that the search loop of `schedule` selects. -/
def nextReady (k : Kernel) : Option (Fin MAX_TASKS) :=
  ((List.range (MAX_TASKS - 1)).map fun i => k.currentIdx + Fin.ofNat MAX_TASKS (i + 1)).find?
    fun j => (k.tasks j).state = .ready

/-- The running task goes back to `TASK_READY` with its stack pointer saved. -/
def preempt (k : Kernel) (rsp : Nat) : Kernel :=
  match k.currentTask with
  | none => k
  | some c =>
    if (k.tasks c).state = .running then
      k.setTask c { k.tasks c with kernelRsp := rsp, state := .ready }
    else k

/-- The page-table root and the kernel stack of the task that runs next. -/
def loadContext (k : Kernel) (j : Fin MAX_TASKS) : Kernel :=
  { k with
    cr3 := (k.tasks j).pml4.getD (k.tasks 0).kernelCr3
    kstackTop :=
      match (k.tasks j).kstackPage with
      | some page => page + KSTACK_SIZE
      | none => k.kstackTop }

/-- `schedule`: the stack pointer to resume and the new state. -/
def schedule (k : Kernel) (rsp : Nat) : Nat × Kernel :=
  if k.taskCount ≤ 1 then
    match k.currentTask with
    | none => (rsp, k)
    | some c => (rsp, k.setTask c { k.tasks c with kernelRsp := rsp })
  else
    let k := preempt k rsp
    match nextReady k with
    | some j => ((k.tasks j).kernelRsp, loadContext (k.resume j) j)
    | none => ((k.tasks 0).kernelRsp, (k.resume 0).loadCr3 (k.tasks 0).kernelCr3)

/-! ## The operations as one step function -/

/-- A call into the task module, with the answers it gets from outside. -/
inductive TaskOp where
  | createUser (env : CreateEnv)
  | fork (env : ForkEnv)
  | exit (code : Int)
  | kill (pid : Int) (sig : Nat)
  | sigaction (sig : Fin 32) (act : SigAction)
  | schedule (rsp : Nat)

/-- The state after one call. -/
def taskStep (k : Kernel) : TaskOp → Option Kernel
  | .createUser env => some (taskCreateUser k env).2
  | .fork env => some (taskFork k env).2
  | .exit code => taskExit k code
  | .kill pid sig => (taskKill k pid sig).map Prod.snd
  | .sigaction sig act => some (taskSigaction k sig act).2
  | .schedule rsp => some (schedule k rsp).2

end Lumin.Proc
