import Lumin.Proc.Brk
import Lumin.Proc.ElfLoading
import Lumin.Proc.Teardown

/-!
# The memory of a user task

What `task_create_user`, `task_exec` and `free_task_resources` of `kernel/proc/task.c`
do to the machine.  The fields of `struct task` that they use here are the frames of a
task; the rest of the task is in `Proc.Task`.  The arguments of a program are the
strings that `setup_user_stack` reads, without their terminator.

`alloc_task` gives back what a former task has left in the slot it takes.
-/

namespace Lumin.Proc

open Lumin.Lib Lumin.Mm

def KSTACK_PAGES : Nat := KSTACK_SIZE / 0x1000
def GDT_UCODE : Nat := 0x18
def GDT_UDATA : Nat := 0x20

/-- `us_vaddr`: the end of the user stack. -/
def US_VADDR : Nat := USER_BASE_VADDR + 0x1000000000

/-- The page of the user stack. -/
def STACK_VADDR : Nat := US_VADDR - 0x1000

/-- The frames of `struct task`. -/
structure TaskFrames where
  pml4 : Nat
  kstackPage : Nat
  ustackPage : Nat
  deriving DecidableEq, Repr

/-- `free_task_resources` for a task without open files, with the frames that it
frees. -/
def freeTaskResourcesOn (t : TaskFrames) (m : Machine) : Machine × List Nat :=
  let s := if t.ustackPage ≠ 0 then release (m, []) t.ustackPage else (m, [])
  let s := if t.pml4 ≠ 0 then release (freeSlots 1 t.pml4 s) t.pml4 else s
  if t.kstackPage ≠ 0
    then (freeFrames s.1 t.kstackPage KSTACK_PAGES, s.2 ++ framesFrom t.kstackPage KSTACK_PAGES)
  else s

/-- `alloc_task` for a slot with these frames. -/
def allocTaskOn (slot : TaskFrames) (m : Machine) : Machine :=
  if slot.kstackPage ≠ 0 ∨ slot.ustackPage ≠ 0 ∨ slot.pml4 ≠ 0 then (freeTaskResourcesOn slot m).1
    else m

/-! ## The stacks -/

/-- The first loop of `setup_user_stack`, from the last string on: the memory, `off`
and the addresses of the strings. -/
def pushStrings (mem : Mem) (phys : Nat) (args : List (List UInt8)) : Mem × Nat × List Nat :=
  args.foldr
    (fun s r =>
      let off := sub64 r.2.1 (s.length + 1)
      (wrBytes r.1 (u64 (phys + off)) (s ++ [0]), off, u64 (US_VADDR - 0x1000 + off) :: r.2.2))
    (mem, 0x1000, [])

/-- Push a word: `off -= 8` and a store. -/
def pushWord (phys : Nat) (r : Mem × Nat) (v : Nat) : Mem × Nat :=
  let off := sub64 r.2 8
  (wrLE r.1 (u64 (phys + off)) 8 v, off)

/-- `setup_user_stack`: the memory and `*out_rsp`. -/
def setupUserStack (mem : Mem) (phys : Nat) (args : List (List UInt8)) : Mem × Nat :=
  let args := args.take 64
  let (mem, off, ptrs) := pushStrings mem phys args
  let r := pushWord phys (mem, off) 0
  let r := ptrs.foldr (fun v r => pushWord phys r v) r
  let r := pushWord phys r args.length
  (r.1, u64 (US_VADDR - 0x1000 + r.2))

/-- The frame from which a new task starts, at the top of its kernel stack. -/
def initKstack (mem : Mem) (kstack entry rsp : Nat) : Mem :=
  let top := u64 (kstack + KSTACK_SIZE)
  let words := List.replicate 15 0 ++ [entry, GDT_UCODE ||| 3, 0x202, rsp, GDT_UDATA ||| 3]
  (words.zipIdx).foldl (fun mem w => wrLE mem (sub64 top (8 * (20 - w.2))) 8 w.1) mem

/-! ## Creating and replacing a program -/

section Programs

variable {η : Type} (K : NodeHeap η)

/-- A new PML4 with a program: its entry point and the PML4. -/
def loadUser (h : η) (m : Machine) (cr3 : Nat) (file : ElfFile) :
    Option (Nat × Nat × η × Machine) :=
  let (pml4, m) := vmmCreatePml4 m cr3
  if pml4 = 0 then none
  else
    let (entry, h, m) := elfLoad K file pml4 h m
    if entry = 0 then none else some (entry, pml4, h, m)

/-- The user stack of a program: the frame and the stack pointer. -/
def mapStack (m : Machine) (pml4 : Nat) (args : List (List UInt8)) :
    Option (Nat × Nat × Machine) :=
  let (ustack, m) := allocFrame m
  if ustack = 0 then none
  else
    let (mem, rsp) := setupUserStack m.mem ustack args
    let (r, m) :=
      vmmMapPage { m with mem := mem } pml4 STACK_VADDR ustack (PAGE_USER ||| PAGE_WRITE)
    if r ≠ 0 then none else some (ustack, rsp, m)

/-- `task_create_user` where it succeeds.  `slot` is what `alloc_task` finds. -/
def taskCreateUserOn (h : η) (m : Machine) (cr3 : Nat) (slot : TaskFrames) (file : ElfFile)
    (args : List (List UInt8)) : Option (TaskFrames × η × Machine) :=
  match loadUser K h m cr3 file with
  | none => none
  | some (entry, pml4, h, m) =>
    let m := allocTaskOn slot m
    let (kstack, m) := allocFrames m KSTACK_PAGES
    if kstack = 0 then none
    else
      match mapStack m pml4 args with
      | none => none
      | some (ustack, rsp, m) =>
        let m := { m with mem := initKstack m.mem kstack entry rsp }
        some ({ pml4 := pml4, kstackPage := kstack, ustackPage := ustack }, h, m)

/-- `task_exec` where it returns `0`: the frames that it frees, and the task after it.
The current PML4 is that of the task. -/
def taskExec (h : η) (m : Machine) (t : TaskFrames) (file : ElfFile) (args : List (List UInt8)) :
    Option (List Nat × TaskFrames × η × Machine) :=
  match loadUser K h m t.pml4 file with
  | none => none
  | some (_, pml4, h, m) =>
    match mapStack m pml4 args with
    | none => none
    | some (ustack, _, m) =>
      let s := if t.pml4 ≠ 0 then freeSlots 0 t.pml4 (m, []) else (m, [])
      let s := if t.ustackPage ≠ 0 then release s t.ustackPage else s
      let s := if t.pml4 ≠ 0 then release s t.pml4 else s
      some (s.2, { t with pml4 := pml4, ustackPage := ustack }, h, s.1)

end Programs

end Lumin.Proc
