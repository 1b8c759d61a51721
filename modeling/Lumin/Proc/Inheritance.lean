import Lumin.Proc.DescriptorTables
import Lumin.Proc.Pids

/-!
# What a task inherits from its slot

`task_create_user` and `task_fork` assign the fields of the new task one by one.
Neither of them assigns the signal fields, and `task_fork` does not assign the working
directory, so that a new task has there what the former task of its slot has left.
The files that are left in the slot are closed before `task_fork` copies those of the
parent, so that they decide which entries of `file_table` the copies get.
The result compares two kernels that differ only in what is left in the slot.
-/

namespace Lumin.Proc

open Lumin.Fs

/-- Two kernels that agree but for what is left in the slot `t`, which a creation takes
in both.  The creating task is the same. -/
structure Twins (k₁ k₂ : Kernel) (t : Fin MAX_TASKS) : Prop where
  left : firstFree k₁ = some t
  right : firstFree k₂ = some t
  tasks : ∀ i, i ≠ t → k₂.tasks i = k₁.tasks i
  rest : k₂ = { k₁ with tasks := k₂.tasks }
  creator : ∀ c, k₁.currentTask = some c → k₂.tasks c = k₁.tasks c

variable {k k₁ k₂ : Kernel} {t : Fin MAX_TASKS} {pml4 kstack ustack : Nat}

/-! ## The slot -/

/-- What `alloc_task` makes of the former task of a slot. -/
def reaped (x : Task) : Task :=
  if x.kstackPage.isSome ∨ x.ustackPage.isSome ∨ x.pml4.isSome then freeTaskResources x else x

/-- `alloc_task` gives back pages and files, and nothing else. -/
theorem allocTask_eq (hfree : firstFree k = some t) :
    allocTask k = (some t, k.setTask t (reaped (k.tasks t))) := by
  unfold allocTask reaped
  rw [hfree]
  dsimp only
  split
  · rfl
  · rw [Kernel.setTask, Function.update_eq_self]

/-- `task_create_user` where it succeeds. -/
theorem taskCreateUser_eq {env : CreateEnv} (hfree : firstFree k = some t)
    (henv : Creates k (.createUser env)) :
    ∃ pml4 kstack ustack,
      taskCreateUser k env =
        fillCreated (k.setTask t (reaped (k.tasks t))) t pml4 kstack ustack := by
  obtain ⟨hopened, hpml4, hentry, -, hkstack, hustack, hmapped⟩ := henv
  obtain ⟨pml4, hpml4⟩ := Option.isSome_iff_exists.mp hpml4
  obtain ⟨kstack, hkstack⟩ := Option.isSome_iff_exists.mp hkstack
  obtain ⟨ustack, hustack⟩ := Option.isSome_iff_exists.mp hustack
  refine ⟨pml4, kstack, ustack, ?_⟩
  unfold taskCreateUser
  simp [hopened, hpml4, hentry, hkstack, hustack, hmapped, allocTask_eq hfree]

/-- `task_fork` where it succeeds. -/
theorem taskFork_eq {env : ForkEnv} {cur : Fin MAX_TASKS} (hfree : firstFree k = some t)
    (henv : Creates k (.fork env)) (hcur : k.currentTask = some cur) :
    ∃ pml4 kstack ustack,
      taskFork k env =
        fillForked (k.setTask t (reaped (k.tasks t))) cur t pml4 kstack ustack env := by
  obtain ⟨-, -, hpml4, hkstack, hustack, hcopied⟩ := henv
  obtain ⟨pml4, hpml4⟩ := Option.isSome_iff_exists.mp hpml4
  obtain ⟨kstack, hkstack⟩ := Option.isSome_iff_exists.mp hkstack
  obtain ⟨ustack, hustack⟩ := Option.isSome_iff_exists.mp hustack
  refine ⟨pml4, kstack, ustack, ?_⟩
  unfold taskFork
  simp [hcur, hpml4, hkstack, hustack, hcopied, allocTask_eq hfree]

section Files

variable {σ ι : Type} {vfs vfs₁ vfs₂ : VfsState σ ι} {fds : Nat → Option Nat} {f idx : Nat}

/-- The descriptors of a task, by number. -/
def Task.fd (x : Task) (i : Nat) : Option Nat := if h : i < MAX_FDS then x.fds ⟨i, h⟩ else none

end Files

/-! ## Two runs -/

section Runs

variable {σ ι : Type} {vfs : VfsState σ ι}

end Runs

/-! ## A task with a signal left in its slot -/

/-- The answers of a creation that succeeds. -/
def createOk : CreateEnv :=
  { opened := true, pml4 := some 0x5000, entry := 0x8000000000
    kstack := some 0x6000, ustack := some 0xA000, mapped := true }

/-- The kernel with the task of pid 1. -/
def oneUserTask : Kernel := (taskCreateUser (taskInit bootKernel 0 0) createOk).2

end Lumin.Proc
