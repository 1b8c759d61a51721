import Lumin.Proc.Task
import Lumin.Proc.Pids

/-!
# Switching between tasks

Which slot runs after `schedule` and which stack pointer it resumes, over runs of
all task operations and of the `SYS_YIELD` case of `syscall_entry`.

* `SchedInv` holds in every state of every run: `current_task` and `current_idx`
  agree, and no slot but theirs is `TASK_RUNNING`.
* `schedule` makes the slot it selects `TASK_RUNNING`.  Its shortcut for
  `task_count <= 1` selects nothing, so there the state of the current slot is what
  the caller left: `TASK_READY` after `SYS_YIELD`, `TASK_FREE` after a task has sent
  itself `SIGTERM`.
* The stack pointer is saved in the shortcut, or when the current slot is still
  `TASK_RUNNING`.  `SYS_YIELD` makes it `TASK_READY` before.
-/

namespace Lumin.Proc

open Lumin.Lib

variable {k k' : Kernel} {i j c t : Fin MAX_TASKS} {task : Task}

/-! ## The yield -/

/-- What `SYS_YIELD` does before it calls `schedule`. -/
def markReady (k : Kernel) : Kernel :=
  match k.currentTask with
  | none => k
  | some c => if (k.tasks c).pid ≠ 0 then k.setTask c { k.tasks c with state := .ready } else k

/-- The `SYS_YIELD` case of `syscall_entry`, with `rsp` the address of its frame. -/
def sysYield (k : Kernel) (rsp : Nat) : Nat × Kernel := schedule (markReady k) rsp

/-- The task operations and `SYS_YIELD`. -/
inductive SchedOp where
  | task (op : TaskOp)
  | yield (rsp : Nat)

def schedStep (k : Kernel) : SchedOp → Option Kernel
  | .task op => taskStep k op
  | .yield rsp => some (sysYield k rsp).2

/-- The state in which a call enters `schedule`, if it does. -/
def entersSchedule (k : Kernel) : SchedOp → Option Kernel
  | .task (.schedule _) => some k
  | .yield _ => some (markReady k)
  | _ => none

/-! ## The invariant -/

/-- The current slot is known, no other slot runs, and slot 0 is the kernel task. -/
structure SchedInv (k : Kernel) : Prop where
  current : k.currentTask = some k.currentIdx
  others : ∀ i, i ≠ k.currentIdx → (k.tasks i).state ≠ .running
  kernelLive : (k.tasks 0).state ≠ .free
  kernelPid : (k.tasks 0).pid = 0

theorem schedInv_taskInit (k : Kernel) (rsp cr3 : Nat) : SchedInv (taskInit k rsp cr3) := by
  refine ⟨rfl, fun i hi => ?_, ?_, ?_⟩
  · have hne : i ≠ 0 := hi
    simp [taskInit, Kernel.setTask, hne]
  · simp [taskInit, Kernel.setTask]
  · simp [taskInit, Kernel.setTask]

/-- The invariant reads the slots and the current one only. -/
theorem SchedInv.congr (h : SchedInv k) (htasks : k'.tasks = k.tasks)
    (hcur : k'.currentTask = k.currentTask) (hidx : k'.currentIdx = k.currentIdx) :
    SchedInv k' := by
  obtain ⟨current, others, kernelLive, kernelPid⟩ := h
  refine ⟨?_, ?_, ?_, ?_⟩
  · rw [hcur, hidx, current]
  · rw [htasks, hidx]
    exact others
  · rw [htasks]
    exact kernelLive
  · rw [htasks]
    exact kernelPid

theorem SchedInv.addCount (h : SchedInv k) (n : Int) : SchedInv (k.addCount n) :=
  h.congr rfl rfl rfl

theorem setTask_same (k : Kernel) (i : Fin MAX_TASKS) (task : Task) :
    (k.setTask i task).tasks i = task :=
  Function.update_self _ _ _

theorem setTask_ne (k : Kernel) (task : Task) (h : j ≠ i) :
    (k.setTask i task).tasks j = k.tasks j :=
  Function.update_of_ne h _ _

/-- A store into a slot other than 0 that does not make another slot run. -/
theorem SchedInv.setTask (h : SchedInv k) (hi : i ≠ 0) (hrun : task.state = .running →
    i = k.currentIdx) : SchedInv (k.setTask i task) := by
  refine ⟨h.current, fun j hj => ?_, ?_, ?_⟩
  · by_cases hji : j = i
    · subst hji
      rw [setTask_same]
      exact fun hr => hj (hrun hr)
    · rw [setTask_ne k task hji]
      exact h.others j hj
  · rw [setTask_ne k task (Ne.symm hi)]
    exact h.kernelLive
  · rw [setTask_ne k task (Ne.symm hi)]
    exact h.kernelPid

/-- A store that keeps pid and state. -/
theorem SchedInv.setTask_of_eq (h : SchedInv k) (hstate : task.state = (k.tasks i).state)
    (hpid : task.pid = (k.tasks i).pid) : SchedInv (k.setTask i task) := by
  have hsame : ∀ j, ((k.setTask i task).tasks j).state = (k.tasks j).state ∧
      ((k.setTask i task).tasks j).pid = (k.tasks j).pid := by
    intro j
    by_cases hji : j = i
    · subst hji
      rw [setTask_same]
      exact ⟨hstate, hpid⟩
    · rw [setTask_ne k task hji]
      exact ⟨rfl, rfl⟩
  refine ⟨h.current, fun j hj => ?_, ?_, ?_⟩
  · rw [(hsame j).1]
    exact h.others j hj
  · rw [(hsame 0).1]
    exact h.kernelLive
  · rw [(hsame 0).2]
    exact h.kernelPid

/-- The slot that goes on running is the only one. -/
theorem schedInv_resume (hothers : ∀ j, j ≠ i → (k.tasks j).state ≠ .running)
    (hlive : (k.tasks 0).state ≠ .free) (hpid : (k.tasks 0).pid = 0) : SchedInv (k.resume i) := by
  have htasks : (k.resume i).tasks = (k.setTask i { k.tasks i with state := .running }).tasks :=
    rfl
  refine ⟨rfl, fun j (hj : j ≠ i) => ?_, ?_, ?_⟩
  · rw [htasks, setTask_ne k _ hj]
    exact hothers j hj
  · rw [htasks]
    by_cases hi : (0 : Fin MAX_TASKS) = i
    · subst hi
      rw [setTask_same]
      simp
    · rw [setTask_ne k _ hi]
      exact hlive
  · rw [htasks]
    by_cases hi : (0 : Fin MAX_TASKS) = i
    · subst hi
      rw [setTask_same]
      exact hpid
    · rw [setTask_ne k _ hi]
      exact hpid

/-! ## The operations keep the invariant -/

theorem SchedInv.allocTask (h : SchedInv k) : SchedInv (allocTask k).2 := by
  unfold Proc.allocTask
  cases firstFree k with
  | none => exact h
  | some t =>
    dsimp only
    split
    · exact h.setTask_of_eq rfl rfl
    · exact h

theorem SchedInv.firstFree_ne (h : SchedInv k) (hfree : firstFree k = some t) : t ≠ 0 := by
  rintro rfl
  exact h.kernelLive (firstFree_some hfree)

theorem SchedInv.fillCreated (h : SchedInv k) (ht : t ≠ 0) (pml4 kstack ustack : Nat) :
    SchedInv (fillCreated k t pml4 kstack ustack).2 := by
  have hpid : SchedInv (allocPid k).2 := h.congr rfl rfl rfl
  unfold Proc.fillCreated
  dsimp only
  apply SchedInv.addCount
  apply SchedInv.setTask_of_eq
  · apply SchedInv.setTask_of_eq
    · exact hpid.setTask ht (by simp)
    · rfl
    · rfl
  · rfl
  · rfl

theorem SchedInv.fillForked (h : SchedInv k) (ht : t ≠ 0) (pml4 kstack ustack : Nat)
    (env : ForkEnv) : SchedInv (fillForked k c t pml4 kstack ustack env).2 := by
  have hpid : SchedInv (allocPid k).2 := h.congr rfl rfl rfl
  unfold Proc.fillForked
  dsimp only
  apply SchedInv.addCount
  apply SchedInv.setTask_of_eq
  · exact hpid.setTask ht (by simp)
  · rfl
  · rfl

theorem SchedInv.createUser (h : SchedInv k) (env : CreateEnv) :
    SchedInv (taskCreateUser k env).2 := by
  have hslot := allocTask_fst k
  have halloc := h.allocTask
  unfold taskCreateUser
  split
  · exact h
  split
  · exact h
  split
  · exact h
  split
  next heq =>
    rw [heq] at halloc
    exact halloc
  next t k₁ heq =>
    rw [heq] at halloc hslot
    have ht := h.firstFree_ne hslot.symm
    split
    · split
      · exact SchedInv.fillCreated halloc ht _ _ _
      · exact halloc
    · exact halloc

theorem SchedInv.fork (h : SchedInv k) (env : ForkEnv) : SchedInv (taskFork k env).2 := by
  have hslot := allocTask_fst k
  have halloc := h.allocTask
  unfold taskFork
  split
  · exact h
  split
  next heq =>
    rw [heq] at halloc
    exact halloc
  next t k₁ heq =>
    rw [heq] at halloc hslot
    have ht := h.firstFree_ne hslot.symm
    split
    · split
      · exact SchedInv.fillForked halloc ht _ _ _ env
      · exact halloc
    · exact halloc

theorem SchedInv.exit (h : SchedInv k) {code : Int} (hexit : taskExit k code = some k') :
    SchedInv k' := by
  unfold taskExit at hexit
  rw [h.current] at hexit
  dsimp only at hexit
  split at hexit
  · cases hexit
  next hpid =>
    cases hexit
    have hne : k.currentIdx ≠ 0 := fun h0 => hpid (by rw [h0]; exact h.kernelPid)
    refine SchedInv.congr (schedInv_resume (fun j _ => ?_) ?_ ?_) rfl rfl rfl
    · by_cases hj : j = k.currentIdx
      · subst hj
        rw [setTask_same]
        simp
      · rw [setTask_ne _ _ hj]
        exact h.others j hj
    · rw [setTask_ne _ _ (Ne.symm hne)]
      exact h.kernelLive
    · rw [setTask_ne _ _ (Ne.symm hne)]
      exact h.kernelPid

theorem SchedInv.killSlot (h : SchedInv k) (hi : i ≠ 0) (pending : BitVec 64) :
    SchedInv (killSlot k i pending) := by
  have hfreed : SchedInv (k.setTask i { k.tasks i with sigPending := pending, state := .free }) :=
    h.setTask hi (by simp)
  unfold Proc.killSlot
  exact hfreed.congr rfl rfl rfl

theorem SchedInv.kill (h : SchedInv k) {pid : Int} {sig : Nat} {r : Int × Kernel}
    (hkill : taskKill k pid sig = some r) : SchedInv r.2 := by
  unfold taskKill at hkill
  split at hkill
  · cases hkill
    exact h
  split at hkill
  · cases hkill
    exact h
  next hpos =>
    split at hkill
    · cases hkill
      exact h
    next i hfind =>
      have hi : i ≠ 0 := by
        rintro rfl
        have := (findTaskByPid_some hfind).1
        rw [h.kernelPid] at this
        omega
      split at hkill
      · split at hkill
        · obtain ⟨k₁, hexit, rfl⟩ := Option.map_eq_some_iff.mp hkill
          exact h.exit hexit
        · cases hkill
          exact h.killSlot hi 0
      · dsimp only at hkill
        split at hkill
        · cases hkill
          exact h.killSlot hi _
        · cases hkill
          exact h.setTask_of_eq rfl rfl

theorem SchedInv.sigaction (h : SchedInv k) (sig : Fin 32) (act : SigAction) :
    SchedInv (taskSigaction k sig act).2 := by
  unfold taskSigaction
  rw [h.current]
  dsimp only
  split
  · exact h
  · exact h.setTask_of_eq rfl rfl

theorem SchedInv.markReady (h : SchedInv k) : SchedInv (markReady k) := by
  unfold Proc.markReady
  rw [h.current]
  dsimp only
  split
  next hpid =>
    refine h.setTask (fun h0 => hpid ?_) (by simp)
    rw [h0]
    exact h.kernelPid
  · exact h

/-- After `preempt` nothing runs. -/
theorem SchedInv.preempt_not_running (h : SchedInv k) (rsp : Nat) (j : Fin MAX_TASKS) :
    ((preempt k rsp).tasks j).state ≠ .running := by
  unfold preempt
  rw [h.current]
  dsimp only
  split
  · by_cases hj : j = k.currentIdx
    · subst hj
      rw [setTask_same]
      simp
    · rw [setTask_ne _ _ hj]
      exact h.others j hj
  next hnot =>
    by_cases hj : j = k.currentIdx
    · subst hj
      exact hnot
    · exact h.others j hj

theorem SchedInv.preempt_kernel (h : SchedInv k) (rsp : Nat) :
    ((preempt k rsp).tasks 0).state ≠ .free ∧ ((preempt k rsp).tasks 0).pid = 0 := by
  unfold preempt
  rw [h.current]
  dsimp only
  split
  · by_cases h0 : 0 = k.currentIdx
    · rw [← h0, setTask_same]
      exact ⟨by simp, h.kernelPid⟩
    · rw [setTask_ne _ _ h0]
      exact ⟨h.kernelLive, h.kernelPid⟩
  · exact ⟨h.kernelLive, h.kernelPid⟩

/-- Past its shortcut, `schedule` makes some slot run. -/
theorem schedule_switches (k : Kernel) (rsp : Nat) (hcount : 1 < k.taskCount) :
    ∃ j, (schedule k rsp).2.tasks = ((preempt k rsp).resume j).tasks ∧
      (schedule k rsp).2.currentTask = some j ∧ (schedule k rsp).2.currentIdx = j := by
  unfold schedule
  rw [if_neg (by omega)]
  dsimp only
  split
  next j _ => exact ⟨j, rfl, rfl, rfl⟩
  · exact ⟨0, rfl, rfl, rfl⟩

/-- In its shortcut, `schedule` only saves the stack pointer. -/
theorem SchedInv.schedule_shortcut (h : SchedInv k) (rsp : Nat) (hcount : ¬ 1 < k.taskCount) :
    schedule k rsp =
      (rsp, k.setTask k.currentIdx { k.tasks k.currentIdx with kernelRsp := rsp }) := by
  unfold schedule
  rw [if_pos (by omega), h.current]

theorem SchedInv.schedule (h : SchedInv k) (rsp : Nat) : SchedInv (schedule k rsp).2 := by
  by_cases hcount : 1 < k.taskCount
  · obtain ⟨j, htasks, hcur, hidx⟩ := schedule_switches k rsp hcount
    have hkernel := h.preempt_kernel rsp
    have hresume : SchedInv ((preempt k rsp).resume j) :=
      schedInv_resume (fun i _ => h.preempt_not_running rsp i) hkernel.1 hkernel.2
    exact hresume.congr htasks hcur hidx
  · rw [h.schedule_shortcut rsp hcount]
    exact h.setTask_of_eq rfl rfl

/-- Every call keeps the invariant. -/
theorem SchedInv.step (h : SchedInv k) {o : SchedOp} (hstep : schedStep k o = some k') :
    SchedInv k' := by
  cases o with
  | yield rsp =>
    cases hstep
    exact h.markReady.schedule rsp
  | task op =>
    cases op with
    | createUser env =>
      cases hstep
      exact h.createUser env
    | fork env =>
      cases hstep
      exact h.fork env
    | exit code => exact h.exit hstep
    | kill pid sig =>
      obtain ⟨r, hkill, rfl⟩ := Option.map_eq_some_iff.mp hstep
      exact h.kill hkill
    | sigaction sig act =>
      cases hstep
      exact h.sigaction sig act
    | schedule rsp =>
      cases hstep
      exact h.schedule rsp

/-! ## One running task -/

/-- The current slot runs, and no other slot does. -/
structure OneRunning (k : Kernel) : Prop where
  current : k.currentTask = some k.currentIdx
  running : (k.tasks k.currentIdx).state = .running
  others : ∀ i, i ≠ k.currentIdx → (k.tasks i).state ≠ .running

/-- If the call goes through `schedule`, one task runs when it returns. -/
def SwitchesToOne (k : Kernel) (o : SchedOp) : Prop :=
  (entersSchedule k o).isSome → ∀ k', schedStep k o = some k' → OneRunning k'

/-- If the call enters `schedule` with `task_count <= 1`, the current task is
`TASK_RUNNING` there. -/
def ShortcutRuns (k : Kernel) (o : SchedOp) : Prop :=
  ∀ e, entersSchedule k o = some e → e.taskCount ≤ 1 → (e.tasks e.currentIdx).state = .running

/-- One task runs after `schedule` exactly if it is not left through the shortcut with
a current task that does not run. -/
theorem SchedInv.oneRunning_schedule_iff (h : SchedInv k) (rsp : Nat) :
    OneRunning (Proc.schedule k rsp).2 ↔
      (k.taskCount ≤ 1 → (k.tasks k.currentIdx).state = .running) := by
  have hinv := h.schedule rsp
  by_cases hcount : 1 < k.taskCount
  · obtain ⟨j, htasks, -, hidx⟩ := schedule_switches k rsp hcount
    refine iff_of_true ⟨hinv.current, ?_, hinv.others⟩ fun hle => absurd hle (by omega)
    rw [hidx, htasks]
    exact congrArg Task.state (setTask_same _ _ _)
  · have hstate : ((Proc.schedule k rsp).2.tasks (Proc.schedule k rsp).2.currentIdx).state =
        (k.tasks k.currentIdx).state := by
      rw [h.schedule_shortcut rsp hcount]
      show ((k.setTask k.currentIdx _).tasks k.currentIdx).state = _
      rw [setTask_same]
    constructor
    · intro hone _
      rw [← hstate]
      exact hone.running
    · intro hrun
      exact ⟨hinv.current, hstate.trans (hrun (by omega)), hinv.others⟩

theorem SchedInv.switchesToOne_iff (h : SchedInv k) (o : SchedOp) :
    SwitchesToOne k o ↔ ShortcutRuns k o := by
  unfold SwitchesToOne ShortcutRuns
  cases o with
  | yield rsp =>
    have := h.markReady.oneRunning_schedule_iff rsp
    simpa [entersSchedule, schedStep, sysYield] using this
  | task op =>
    cases op with
    | schedule rsp =>
      have := h.oneRunning_schedule_iff rsp
      simpa [entersSchedule, schedStep, taskStep] using this
    | _ => simp [entersSchedule]

/-- From `task_init` on, every switch of a run leaves exactly one task running, the
current one, exactly if no switch takes the shortcut with a current task that is not
`TASK_RUNNING`. -/
theorem switchesToOne_run_iff (k : Kernel) (rsp cr3 : Nat) (os : List SchedOp) :
    Guarded schedStep SwitchesToOne (taskInit k rsp cr3) os ↔
      Guarded schedStep ShortcutRuns (taskInit k rsp cr3) os :=
  guarded_congr SchedInv (schedInv_taskInit k rsp cr3) (fun _ _ _ h hstep => h.step hstep)
    (fun _ o h => h.switchesToOne_iff o) os

/-- A task that sends itself `SIGTERM` while only the kernel task is left. -/
def selfTerm : List SchedOp := [.task spawnOk, .task (.schedule 0x9000), .task (.kill 1 SIGTERM)]

/-- The task goes on in its freed slot: after the next timer interrupt the current
slot is `TASK_FREE`. -/
theorem selfTerm_not_one :
    ∃ s s', Reach schedStep (fun _ _ => True) (taskInit bootKernel 0 0) s ∧
      schedStep s (.task (.schedule 0x6F00)) = some s' ∧
      (s'.tasks s'.currentIdx).state = .free ∧ ¬ OneRunning s' := by
  have hrun : (run schedStep (taskInit bootKernel 0 0) selfTerm).map
      (fun s => ((schedule s 0x6F00).2.tasks (schedule s 0x6F00).2.currentIdx).state) =
        some .free := by
    decide +kernel
  obtain ⟨s, hs, hfree⟩ := Option.map_eq_some_iff.mp hrun
  refine ⟨s, (schedule s 0x6F00).2, reach_of_run hs, rfl, hfree, fun hone => ?_⟩
  rw [hone.running] at hfree
  cases hfree

/-! ## The saved context -/

/-- The calls that switch: a timer interrupt and `SYS_YIELD`, each with the address of
its frame. -/
inductive SwitchCall where
  | timer (rsp : Nat)
  | yield (rsp : Nat)

def SwitchCall.rsp : SwitchCall → Nat
  | .timer rsp => rsp
  | .yield rsp => rsp

/-- The state in which the call enters `schedule`. -/
def SwitchCall.entry (k : Kernel) : SwitchCall → Kernel
  | .timer _ => k
  | .yield _ => markReady k

/-- The value that `schedule` returns and the state after it. -/
def switch (k : Kernel) (o : SwitchCall) : Nat × Kernel := schedule (o.entry k) o.rsp

def switchStep (k : Kernel) (o : SwitchCall) : Option Kernel := some (switch k o).2

/-- The stack pointer that slot `t` is resumed with. -/
def savedRsp (k : Kernel) (t : Fin MAX_TASKS) : Nat := (k.tasks t).kernelRsp

/-- Slot `t` is selected by the last call of a run and by no call before it. -/
def SelectedNext (k : Kernel) (t : Fin MAX_TASKS) (os : List SwitchCall) (o : SwitchCall)
    (r : Nat) : Prop :=
  ∃ s, run switchStep k os = some s ∧ (∀ s' ∈ visited switchStep k os, s'.currentTask ≠ some t) ∧
    (switch s o).2.currentTask = some t ∧ r = (switch s o).1

/-- If the call enters `schedule` for a task that is not `TASK_FREE`, its frame is
saved, and the task goes on there when it is selected again. -/
def KeepsContext (k : Kernel) (o : SwitchCall) : Prop :=
  ∀ t, (o.entry k).currentTask = some t → ((o.entry k).tasks t).state ≠ .free →
    savedRsp (switch k o).2 t = o.rsp ∧
      ((switch k o).2.currentTask = some t → (switch k o).1 = o.rsp) ∧
      ∀ os o' r, SelectedNext (switch k o).2 t os o' r → r = o.rsp

/-- The call takes the shortcut, or finds its task `TASK_RUNNING`, or with this very
frame saved. -/
def SavesContext (k : Kernel) (o : SwitchCall) : Prop :=
  ∀ t, (o.entry k).currentTask = some t → ((o.entry k).tasks t).state ≠ .free →
    (o.entry k).taskCount ≤ 1 ∨ ((o.entry k).tasks t).state = .running ∨
      savedRsp (o.entry k) t = o.rsp

theorem savedRsp_setTask (hrsp : task.kernelRsp = (k.tasks i).kernelRsp) :
    savedRsp (k.setTask i task) t = savedRsp k t := by
  unfold savedRsp
  by_cases ht : t = i
  · subst ht
    rw [setTask_same, hrsp]
  · rw [setTask_ne k task ht]

theorem savedRsp_resume (k : Kernel) (i t : Fin MAX_TASKS) :
    savedRsp (k.resume i) t = savedRsp k t := by
  show savedRsp (k.setTask i _) t = savedRsp k t
  exact savedRsp_setTask rfl

theorem savedRsp_markReady (k : Kernel) (t : Fin MAX_TASKS) :
    savedRsp (markReady k) t = savedRsp k t := by
  unfold markReady
  split
  · rfl
  · split
    · exact savedRsp_setTask rfl
    · rfl

theorem savedRsp_entry (k : Kernel) (o : SwitchCall) (t : Fin MAX_TASKS) :
    savedRsp (o.entry k) t = savedRsp k t := by
  cases o with
  | timer rsp => rfl
  | yield rsp => exact savedRsp_markReady k t

theorem currentTask_entry (k : Kernel) (o : SwitchCall) :
    (o.entry k).currentTask = k.currentTask := by
  cases o with
  | timer rsp => rfl
  | yield rsp =>
    show (markReady k).currentTask = k.currentTask
    unfold markReady
    split
    · rfl
    · split <;> rfl

theorem savedRsp_preempt (k : Kernel) (rsp : Nat) (t : Fin MAX_TASKS) :
    savedRsp (preempt k rsp) t =
      if k.currentTask = some t ∧ (k.tasks t).state = .running then rsp else savedRsp k t := by
  unfold preempt
  split
  next hnone => rw [if_neg (by simp [hnone])]
  next c hcur =>
    by_cases hrun : (k.tasks c).state = .running
    · rw [if_pos hrun]
      by_cases ht : t = c
      · subst ht
        rw [if_pos ⟨hcur, hrun⟩]
        show ((k.setTask t _).tasks t).kernelRsp = rsp
        rw [setTask_same]
      · rw [if_neg fun h => ht (Option.some.inj (hcur.symm.trans h.1)).symm]
        show ((k.setTask c _).tasks t).kernelRsp = _
        rw [setTask_ne k _ ht]
        rfl
    · rw [if_neg hrun, if_neg]
      rintro ⟨heq, hstate⟩
      rw [hcur, Option.some.injEq] at heq
      exact hrun (heq ▸ hstate)

/-- What `schedule` saves, and that it returns what it finds saved. -/
theorem schedule_saved (k : Kernel) (rsp : Nat) (t : Fin MAX_TASKS) :
    savedRsp (schedule k rsp).2 t =
        (if k.currentTask = some t ∧ (k.taskCount ≤ 1 ∨ (k.tasks t).state = .running) then rsp
          else savedRsp k t) ∧
      ((schedule k rsp).2.currentTask = some t →
        (schedule k rsp).1 = savedRsp (schedule k rsp).2 t) := by
  unfold schedule
  by_cases hcount : k.taskCount ≤ 1
  · rw [if_pos hcount]
    split
    next hnone => simp [hnone]
    next c hcur =>
      by_cases ht : t = c
      · subst ht
        have hsaved : savedRsp (k.setTask t { k.tasks t with kernelRsp := rsp }) t = rsp := by
          unfold savedRsp
          rw [setTask_same]
        exact ⟨by rw [if_pos ⟨hcur, .inl hcount⟩, hsaved], fun _ => hsaved.symm⟩
      · have hne : k.currentTask ≠ some t :=
          fun h => ht (Option.some.inj (hcur.symm.trans h)).symm
        refine ⟨?_, fun h => absurd h hne⟩
        rw [if_neg fun h => hne h.1]
        unfold savedRsp
        rw [setTask_ne k _ ht]
  · rw [if_neg hcount]
    dsimp only
    have hpre := savedRsp_preempt k rsp t
    have hcond : (k.currentTask = some t ∧ (k.taskCount ≤ 1 ∨ (k.tasks t).state = .running)) ↔
        (k.currentTask = some t ∧ (k.tasks t).state = .running) :=
      and_congr_right fun _ => or_iff_right hcount
    rw [if_congr hcond rfl rfl, ← hpre]
    split
    next j _ =>
      have hsaved :
          savedRsp (loadContext ((preempt k rsp).resume j) j) t = savedRsp (preempt k rsp) t :=
        savedRsp_resume _ j t
      refine ⟨hsaved, fun hsel => ?_⟩
      obtain rfl : j = t := Option.some.inj hsel
      exact hsaved.symm
    next _ =>
      have hsaved :
          savedRsp (((preempt k rsp).resume 0).loadCr3 ((preempt k rsp).tasks 0).kernelCr3) t =
          savedRsp (preempt k rsp) t :=
        savedRsp_resume _ 0 t
      refine ⟨hsaved, fun hsel => ?_⟩
      obtain rfl : 0 = t := Option.some.inj hsel
      exact hsaved.symm

/-- A call for another task leaves the saved frame alone. -/
theorem switch_other (o : SwitchCall) (h : k.currentTask ≠ some t) :
    savedRsp (switch k o).2 t = savedRsp k t := by
  unfold switch
  rw [(schedule_saved (o.entry k) o.rsp t).1, currentTask_entry, if_neg fun hc => h hc.1,
    savedRsp_entry]

/-- The frame of a task stays saved as long as other tasks run. -/
theorem run_other {os : List SwitchCall} {s : Kernel} (hrun : run switchStep k os = some s)
    (haway : ∀ s' ∈ visited switchStep k os, s'.currentTask ≠ some t) :
    savedRsp s t = savedRsp k t ∧ s.currentTask ≠ some t := by
  induction os generalizing k with
  | nil =>
    cases hrun
    exact ⟨rfl, haway s (by simp [visited])⟩
  | cons o os ih =>
    have hvisit : visited switchStep k (o :: os) = k :: visited switchStep (switch k o).2 os :=
      rfl
    rw [hvisit] at haway
    have hrest : run switchStep (switch k o).2 os = some s := hrun
    obtain ⟨hsaved, hcur⟩ := ih hrest fun s' hs' => haway s' (List.mem_cons_of_mem k hs')
    exact ⟨hsaved.trans (switch_other o (haway k (by simp))), hcur⟩

theorem keepsContext_iff (k : Kernel) (o : SwitchCall) : KeepsContext k o ↔ SavesContext k o := by
  unfold KeepsContext SavesContext
  refine forall_congr' fun t => forall_congr' fun hcur => forall_congr' fun _ => ?_
  obtain ⟨hsaved, hsel⟩ := schedule_saved (o.entry k) o.rsp t
  constructor
  · rintro ⟨hkept, -, -⟩
    by_contra hnot
    push Not at hnot
    have hold : savedRsp (switch k o).2 t = savedRsp (o.entry k) t := by
      unfold switch
      rw [hsaved, if_neg]
      rintro ⟨-, hle | hrun⟩
      · exact absurd hle (not_le.mpr hnot.1)
      · exact hnot.2.1 hrun
    exact hnot.2.2 (hold.symm.trans hkept)
  · intro hsaves
    have hkept : savedRsp (switch k o).2 t = o.rsp := by
      unfold switch
      rw [hsaved]
      split
      · rfl
      next hnot =>
        rcases hsaves with hle | hrun | heq
        · exact absurd ⟨hcur, .inl hle⟩ hnot
        · exact absurd ⟨hcur, .inr hrun⟩ hnot
        · exact heq
    refine ⟨hkept, fun hagain => (hsel hagain).trans hkept, ?_⟩
    rintro os o' r ⟨s, hrun, haway, hnext, rfl⟩
    obtain ⟨hstay, hnot⟩ := run_other hrun haway
    have hreturn : (switch s o').1 = savedRsp (switch s o').2 t :=
      (schedule_saved (o'.entry s) o'.rsp t).2 hnext
    rw [hreturn, switch_other o' hnot, hstay, hkept]

/-- Over every run of timer interrupts and yields, no context is lost exactly if each
call that enters `schedule` past the shortcut finds its task `TASK_RUNNING`, or with
this frame already saved. -/
theorem keepsContext_run_iff (k : Kernel) (os : List SwitchCall) :
    Guarded switchStep KeepsContext k os ↔ Guarded switchStep SavesContext k os :=
  guarded_congr (fun _ => True) trivial (fun _ _ _ _ _ => trivial)
    (fun s o _ => keepsContext_iff s o) os

/-- A task that a timer interrupt stops inside a system call, with its frame at
`0x9D00`, and that yields when it runs again. -/
def staleFrame : List SwitchCall := [.timer 0x8000, .timer 0x9D00, .timer 0x8000]

/-- The frame of the yield, at `0x9F60`, is lost: the task is resumed with the frame of
the interrupt before. -/
theorem staleFrame_lost :
    ∃ s, Reach schedStep (fun _ _ => True) (taskInit bootKernel 0 0) s ∧
      ¬ Guarded switchStep KeepsContext s (staleFrame ++ [.yield 0x9F60]) := by
  have hrun : ((run schedStep (taskInit bootKernel 0 0) [.task spawnOk]).bind fun s =>
      (run switchStep s staleFrame).map fun s' =>
        (s'.currentTask, (s'.tasks 1).state, (s'.tasks 1).pid,
        savedRsp (switch s' (.yield 0x9F60)).2 1)) = some (some 1, .running, 1, 0x9D00) := by
    decide +kernel
  obtain ⟨s, hs, hrest⟩ := Option.bind_eq_some_iff.mp hrun
  obtain ⟨s', hs', hstate⟩ := Option.map_eq_some_iff.mp hrest
  obtain ⟨hcur, hrest⟩ := Prod.mk.inj hstate
  obtain ⟨-, hrest⟩ := Prod.mk.inj hrest
  obtain ⟨hpid, hsaved⟩ := Prod.mk.inj hrest
  refine ⟨s, reach_of_run hs, fun hguarded => ?_⟩
  have hready : ((SwitchCall.entry s' (.yield 0x9F60)).tasks 1).state = .ready := by
    show ((markReady s').tasks 1).state = .ready
    unfold markReady
    rw [hcur]
    dsimp only
    rw [if_pos (by rw [hpid]; decide), setTask_same]
  have hkeeps :=
    guarded_at hguarded hs' rfl 1 (by rw [currentTask_entry, hcur]) (by rw [hready]; simp)
  rw [hsaved] at hkeeps
  exact absurd hkeeps.1 (by decide)

end Lumin.Proc
