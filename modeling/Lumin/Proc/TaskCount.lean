import Lumin.Proc.Switch

/-!
# The task counter

`task_count` against the number of slots that are not `TASK_FREE`, over whole runs.
`task_create_user` and `task_fork` add one, `task_kill` takes one away, and
`task_exit` frees a slot without counting it.  From the first exit on the counter is
too large.

`schedule` takes `task_count <= 1` for "no other task can run".  That also fails
without an exit: a task that ends itself with `SIGTERM` stays the current one, and
the kernel task that could run in its place is the one that is counted.
-/

namespace Lumin.Proc

open Lumin.Lib

variable {k k' : Kernel} {i j c t : Fin MAX_TASKS} {task : Task}

/-! ## Live slots -/

/-- The slots that are not `TASK_FREE`. -/
def liveSlots (k : Kernel) : Finset (Fin MAX_TASKS) :=
  Finset.univ.filter fun i => (k.tasks i).state ≠ .free

/-- How far the counter is ahead of the live slots. -/
def drift (k : Kernel) : Int := k.taskCount - (liveSlots k).card

theorem mem_liveSlots : i ∈ liveSlots k ↔ (k.tasks i).state ≠ .free := by
  simp [liveSlots]

theorem liveSlots_congr (h : k'.tasks = k.tasks) : liveSlots k' = liveSlots k := by
  unfold liveSlots
  rw [h]

theorem drift_congr (h : k'.tasks = k.tasks) (hcount : k'.taskCount = k.taskCount) :
    drift k' = drift k := by
  rw [drift, drift, liveSlots_congr h, hcount]

/-- A store that does not free or fill the slot. -/
theorem liveSlots_setTask_of_iff (h : task.state = .free ↔ (k.tasks i).state = .free) :
    liveSlots (k.setTask i task) = liveSlots k := by
  ext j
  rw [mem_liveSlots, mem_liveSlots]
  by_cases hj : j = i
  · subst hj
    rw [setTask_same]
    exact not_congr h
  · rw [setTask_ne _ _ hj]

theorem liveSlots_setTask_free (h : task.state = .free) :
    liveSlots (k.setTask i task) = (liveSlots k).erase i := by
  ext j
  rw [Finset.mem_erase, mem_liveSlots, mem_liveSlots]
  by_cases hj : j = i
  · subst hj
    rw [setTask_same]
    simp [h]
  · rw [setTask_ne _ _ hj]
    simp [hj]

theorem drift_setTask_of_iff (h : task.state = .free ↔ (k.tasks i).state = .free) :
    drift (k.setTask i task) = drift k := by
  rw [drift, drift, liveSlots_setTask_of_iff h]
  rfl

/-! ## Creations -/

/-- A creation that fails: no state and no count has changed. -/
structure Untouched (k k' : Kernel) : Prop where
  state : ∀ j, (k'.tasks j).state = (k.tasks j).state
  count : k'.taskCount = k.taskCount
  idx : k'.currentIdx = k.currentIdx

/-- A creation that succeeds: the first free slot is ready and counted. -/
structure Filled (k k' : Kernel) (t : Fin MAX_TASKS) : Prop where
  slot : firstFree k = some t
  ready : (k'.tasks t).state = .ready
  others : ∀ j, j ≠ t → (k'.tasks j).state = (k.tasks j).state
  count : k'.taskCount = k.taskCount + 1
  idx : k'.currentIdx = k.currentIdx

theorem Untouched.refl (k : Kernel) : Untouched k k := ⟨fun _ => rfl, rfl, rfl⟩

theorem untouched_allocTask (k : Kernel) : Untouched k (allocTask k).2 := by
  unfold allocTask
  cases firstFree k with
  | none => exact .refl k
  | some t =>
    dsimp only
    split
    · refine ⟨fun j => ?_, rfl, rfl⟩
      by_cases hj : j = t
      · subst hj
        rw [setTask_same]
        rfl
      · rw [setTask_ne _ _ hj]
    · exact .refl k

theorem Untouched.fillCreated (h : Untouched k k') (hslot : firstFree k = some t)
    (pml4 kstack ustack : Nat) : Filled k (fillCreated k' t pml4 kstack ustack).2 t := by
  unfold Proc.fillCreated
  dsimp only
  refine ⟨hslot, ?_, fun j hj => ?_, ?_, h.idx⟩
  · show ((Kernel.setTask _ t _).tasks t).state = .ready
    rw [setTask_same, setTask_same, setTask_same]
  · show ((Kernel.setTask _ t _).tasks j).state = _
    rw [setTask_ne _ _ hj, setTask_ne _ _ hj, setTask_ne _ _ hj]
    exact h.state j
  · show k'.taskCount + 1 = k.taskCount + 1
    rw [h.count]

theorem Untouched.fillForked (h : Untouched k k') (hslot : firstFree k = some t)
    (pml4 kstack ustack : Nat)
    (env : ForkEnv) : Filled k (fillForked k' c t pml4 kstack ustack env).2 t := by
  unfold Proc.fillForked
  dsimp only
  refine ⟨hslot, ?_, fun j hj => ?_, ?_, h.idx⟩
  · show ((Kernel.setTask _ t _).tasks t).state = .ready
    rw [setTask_same, setTask_same]
  · show ((Kernel.setTask _ t _).tasks j).state = _
    rw [setTask_ne _ _ hj, setTask_ne _ _ hj]
    exact h.state j
  · show k'.taskCount + 1 = k.taskCount + 1
    rw [h.count]

theorem taskCreateUser_effect (k : Kernel) (env : CreateEnv) :
    Untouched k (taskCreateUser k env).2 ∨ ∃ t, Filled k (taskCreateUser k env).2 t := by
  have hslot := allocTask_fst k
  have halloc := untouched_allocTask k
  unfold taskCreateUser
  split
  · exact .inl (.refl k)
  split
  · exact .inl (.refl k)
  split
  · exact .inl (.refl k)
  split
  next heq =>
    rw [heq] at halloc
    exact .inl halloc
  next t k₁ heq =>
    rw [heq] at halloc hslot
    split
    · split
      · exact .inr ⟨t, halloc.fillCreated hslot.symm _ _ _⟩
      · exact .inl halloc
    · exact .inl halloc

theorem taskFork_effect (k : Kernel) (env : ForkEnv) :
    Untouched k (taskFork k env).2 ∨ ∃ t, Filled k (taskFork k env).2 t := by
  have hslot := allocTask_fst k
  have halloc := untouched_allocTask k
  unfold taskFork
  split
  · exact .inl (.refl k)
  split
  next heq =>
    rw [heq] at halloc
    exact .inl halloc
  next t k₁ heq =>
    rw [heq] at halloc hslot
    split
    · split
      · exact .inr ⟨t, halloc.fillForked hslot.symm _ _ _ env⟩
      · exact .inl halloc
    · exact .inl halloc

theorem Untouched.drift_eq (h : Untouched k k') : drift k' = drift k := by
  have hslots : liveSlots k' = liveSlots k := by
    ext j
    rw [mem_liveSlots, mem_liveSlots, h.state j]
  rw [drift, drift, hslots, h.count]

theorem Filled.drift_eq (h : Filled k k' t) : drift k' = drift k := by
  have hnot : t ∉ liveSlots k := fun hmem => mem_liveSlots.mp hmem (firstFree_some h.slot)
  have hslots : liveSlots k' = insert t (liveSlots k) := by
    ext j
    rw [Finset.mem_insert, mem_liveSlots, mem_liveSlots]
    by_cases hj : j = t
    · subst hj
      simp [h.ready]
    · simp [h.others j hj, hj]
  rw [drift, drift, hslots, h.count, Finset.card_insert_of_notMem hnot]
  push_cast
  omega

/-! ## How the operations move the drift -/

theorem drift_addCount (k : Kernel) (n : Int) : drift (k.addCount n) = drift k + n := by
  have hcount : (k.addCount n).taskCount = k.taskCount + n := rfl
  have hslots : liveSlots (k.addCount n) = liveSlots k := rfl
  rw [drift, drift, hslots, hcount]
  omega

/-- A live slot is freed. -/
theorem drift_setTask_free (hlive : (k.tasks t).state ≠ .free) (hfree : task.state = .free) :
    drift (k.setTask t task) = drift k + 1 := by
  have hmem : t ∈ liveSlots k := mem_liveSlots.mpr hlive
  have hcount : (k.setTask t task).taskCount = k.taskCount := rfl
  have hcard := Finset.card_erase_add_one hmem
  rw [drift, drift, liveSlots_setTask_free hfree, hcount, ← hcard]
  push_cast
  omega

theorem drift_resume (hlive : (k.tasks j).state ≠ .free) : drift (k.resume j) = drift k := by
  have hset : drift (k.setTask j { k.tasks j with state := .running }) = drift k :=
    drift_setTask_of_iff (iff_of_false (by simp) hlive)
  exact (drift_congr rfl rfl).trans hset

/-- A live task that exits is not taken off the counter. -/
theorem SchedInv.drift_exit (h : SchedInv k) {code : Int} (hexit : taskExit k code = some k') :
    drift k' = drift k + if (k.tasks k.currentIdx).state = .free then 0 else 1 := by
  unfold taskExit at hexit
  rw [h.current] at hexit
  dsimp only at hexit
  split at hexit
  · cases hexit
  next hpid =>
    cases hexit
    have hne : (0 : Fin MAX_TASKS) ≠ k.currentIdx :=
      fun h0 => hpid (by rw [← h0]; exact h.kernelPid)
    have hkernel : (((freePid k (k.tasks k.currentIdx).pid).setTask k.currentIdx
        { (freePid k (k.tasks k.currentIdx).pid).tasks k.currentIdx with
          state := .free, exitCode := code }).tasks 0).state ≠ .free := by
      rw [setTask_ne _ _ hne]
      exact h.kernelLive
    refine (drift_congr rfl rfl).trans ((drift_resume hkernel).trans ?_)
    split
    next hfree =>
      rw [add_zero]
      exact drift_setTask_of_iff (iff_of_true rfl hfree)
    next hlive => exact drift_setTask_free hlive rfl

theorem drift_killSlot (hlive : (k.tasks i).state ≠ .free) (pending : BitVec 64) :
    drift (killSlot k i pending) = drift k := by
  unfold killSlot
  rw [drift_addCount]
  have hfreed : drift (k.setTask i { k.tasks i with sigPending := pending, state := .free }) =
      drift k + 1 := drift_setTask_free hlive rfl
  have hpids :
      drift (freePid (k.setTask i { k.tasks i with sigPending := pending, state := .free })
      (k.tasks i).pid) = drift k + 1 := (drift_congr rfl rfl).trans hfreed
  rw [hpids]
  omega

theorem drift_sigaction (k : Kernel) (sig : Fin 32) (act : SigAction) :
    drift (taskSigaction k sig act).2 = drift k := by
  unfold taskSigaction
  split
  · rfl
  split
  · rfl
  · exact drift_setTask_of_iff Iff.rfl

theorem drift_preempt (k : Kernel) (rsp : Nat) : drift (preempt k rsp) = drift k := by
  unfold preempt
  split
  · rfl
  split
  next hrun => exact drift_setTask_of_iff (iff_of_false (by simp) (by simp [hrun]))
  · rfl

/-- `schedule` frees nothing and fills nothing. -/
theorem SchedInv.drift_schedule (h : SchedInv k) (rsp : Nat) :
    drift (Proc.schedule k rsp).2 = drift k := by
  by_cases hcount : 1 < k.taskCount
  · have hkernel := (h.preempt_kernel rsp).1
    have hpre := drift_preempt k rsp
    unfold Proc.schedule
    rw [if_neg (by omega)]
    dsimp only
    split
    next j hnext =>
      have hready : ((preempt k rsp).tasks j).state = .ready := by
        have := List.find?_some hnext
        simpa using this
      have hload :
          drift (loadContext ((preempt k rsp).resume j) j) = drift ((preempt k rsp).resume j) :=
          rfl
      dsimp only
      rw [hload, drift_resume (k := preempt k rsp) (by simp [hready]), hpre]
    next =>
      have hload :
          drift (((preempt k rsp).resume 0).loadCr3 ((preempt k rsp).tasks 0).kernelCr3) =
          drift ((preempt k rsp).resume 0) := rfl
      dsimp only
      rw [hload, drift_resume hkernel, hpre]
  · rw [h.schedule_shortcut rsp hcount]
    exact drift_setTask_of_iff Iff.rfl

/-! ## The kernel task -/

/-- The kernel task is ready or running. -/
def KernelRuns (k : Kernel) : Prop := (k.tasks 0).state = .ready ∨ (k.tasks 0).state = .running

theorem KernelRuns.of_eq (h : KernelRuns k) (hstate : (k'.tasks 0).state = (k.tasks 0).state) :
    KernelRuns k' := by
  unfold KernelRuns
  rw [hstate]
  exact h

theorem KernelRuns.setTask (h : KernelRuns k) (hi : i ≠ 0) : KernelRuns (k.setTask i task) :=
  h.of_eq (by rw [setTask_ne _ _ (Ne.symm hi)])

theorem resume_state (k : Kernel) (i : Fin MAX_TASKS) :
    ((k.resume i).tasks i).state = .running := by
  show ((k.setTask i { k.tasks i with state := .running }).tasks i).state = .running
  rw [setTask_same]

theorem kernelRuns_resume (h : KernelRuns k) (j : Fin MAX_TASKS) : KernelRuns (k.resume j) := by
  by_cases hj : j = 0
  · subst hj
    exact Or.inr (resume_state k 0)
  · exact (h.setTask hj).of_eq rfl

theorem KernelRuns.sigaction (h : KernelRuns k) (sig : Fin 32) (act : SigAction) :
    KernelRuns (taskSigaction k sig act).2 := by
  unfold taskSigaction
  split
  · exact h
  next c hcur =>
    split
    · exact h
    · by_cases hc : c = 0
      · subst hc
        exact h.of_eq (by rw [setTask_same])
      · exact h.setTask hc

theorem KernelRuns.preempt (h : KernelRuns k) (rsp : Nat) : KernelRuns (preempt k rsp) := by
  unfold Proc.preempt
  split
  · exact h
  next c hcur =>
    split
    · by_cases hc : c = 0
      · subst hc
        refine Or.inl ?_
        rw [setTask_same]
      · exact h.setTask hc
    · exact h

theorem KernelRuns.schedule (h : KernelRuns k) (hs : SchedInv k) (rsp : Nat) :
    KernelRuns (Proc.schedule k rsp).2 := by
  by_cases hcount : 1 < k.taskCount
  · obtain ⟨j, htasks, -, -⟩ := schedule_switches k rsp hcount
    refine (kernelRuns_resume (h.preempt rsp) j).of_eq ?_
    rw [htasks]
  · rw [hs.schedule_shortcut rsp hcount]
    by_cases hc : k.currentIdx = 0
    · refine h.of_eq ?_
      rw [hc, setTask_same]
    · exact h.setTask hc

/-! ## The counter over runs -/

/-- The counter is the number of live slots, and `schedule` is right to take its
shortcut: when it does, no task but the current one can run. -/
structure CountExact (k : Kernel) : Prop where
  count : k.taskCount = (liveSlots k).card
  shortcut : k.taskCount ≤ 1 → ∀ j, k.currentTask ≠ some j → (k.tasks j).state ≠ .ready

/-- `task_kill` frees the slot that it signals. -/
def KillFrees (k : Kernel) (i : Fin MAX_TASKS) (sig : Nat) : Prop :=
  sig = SIGKILL ∨ (sig = SIGTERM ∧ ((k.tasks i).sigActions 15).saHandler = .dfl)

/-- No live task exits, by itself or by a `SIGKILL` that it sends to itself, and the
last user task is killed only while the kernel task is the current one. -/
def CountGuard (k : Kernel) : TaskOp → Prop
  | .exit _ => ∀ c, k.currentTask = some c → (k.tasks c).state = .free
  | .kill pid sig =>
    0 < pid → ∀ i, findTaskByPid k pid = some i → KillFrees k i sig →
      (sig = SIGKILL → k.currentTask ≠ some i) ∧ (k.taskCount = 2 → k.currentTask = some 0)
  | _ => True

/-- What holds in the states of guarded runs. -/
structure CountInv (k : Kernel) : Prop extends SchedInv k where
  kernelRuns : KernelRuns k
  exact : drift k = 0
  last : k.taskCount ≤ 1 → k.currentIdx = 0

/-- What `task_kill` can do: nothing, note a signal, free the slot it signals, or exit. -/
theorem taskKill_cases {pid : Int} {sig : Nat} {r : Int × Kernel}
    (h : taskKill k pid sig = some r) :
    (r.2 = k ∧ (0 < pid → ∀ i, findTaskByPid k pid = some i → ¬ KillFrees k i sig)) ∨
      ∃ i, 0 < pid ∧ findTaskByPid k pid = some i ∧
        ((¬ KillFrees k i sig ∧
          ∃ pending, r.2 = k.setTask i { k.tasks i with sigPending := pending }) ∨
          (KillFrees k i sig ∧ (sig = SIGKILL → k.currentTask ≠ some i) ∧
            ∃ pending, r.2 = killSlot k i pending) ∨
          (sig = SIGKILL ∧ k.currentTask = some i ∧ taskExit k 9 = some r.2)) := by
  unfold taskKill at h
  split at h
  next hrange =>
    cases h
    refine Or.inl ⟨rfl, fun _ i _ hfrees => ?_⟩
    rcases hfrees with rfl | ⟨rfl, -⟩
    · exact absurd hrange (by decide)
    · exact absurd hrange (by decide)
  next hrange =>
    split at h
    next hpid =>
      cases h
      exact Or.inl ⟨rfl, fun hpos => absurd hpid (by omega)⟩
    next hpid =>
      split at h
      next hfind =>
        cases h
        refine Or.inl ⟨rfl, fun _ i hi => ?_⟩
        rw [hfind] at hi
        cases hi
      next i hfind =>
        refine Or.inr ⟨i, not_le.mp hpid, hfind, ?_⟩
        split at h
        next hkill =>
          split at h
          next hcur =>
            obtain ⟨k₁, hexit, rfl⟩ := Option.map_eq_some_iff.mp h
            exact Or.inr (Or.inr ⟨hkill, hcur, hexit⟩)
          next hcur =>
            cases h
            exact Or.inr (Or.inl ⟨Or.inl hkill, fun _ => hcur, 0, rfl⟩)
        next hkill =>
          dsimp only at h
          split at h
          next hterm =>
            cases h
            obtain ⟨rfl, hdfl⟩ := hterm
            exact Or.inr (Or.inl ⟨Or.inr ⟨rfl, hdfl⟩, fun heq => absurd heq hkill, _, rfl⟩)
          next hterm =>
            cases h
            refine Or.inl ⟨?_, _, rfl⟩
            rintro (heq | ⟨rfl, hdfl⟩)
            · exact hkill heq
            · exact hterm ⟨rfl, hdfl⟩

theorem CountInv.count_eq (h : CountInv k) : k.taskCount = (liveSlots k).card := by
  have := h.exact
  rw [drift] at this
  omega

theorem SchedInv.kernel_mem (h : SchedInv k) : 0 ∈ liveSlots k := mem_liveSlots.mpr h.kernelLive

/-- With the counter at one the kernel task is the only live one. -/
theorem CountInv.exactly (h : CountInv k) : CountExact k := by
  refine ⟨h.count_eq, fun hle j hj hready => hj ?_⟩
  have hcard : (liveSlots k).card ≤ 1 := by
    have := h.count_eq
    omega
  have hmem : j ∈ liveSlots k := mem_liveSlots.mpr (by simp [hready])
  rw [Finset.card_le_one.mp hcard j hmem 0 h.kernel_mem, h.current, h.last hle]

/-- The slot that `task_kill` finds is not the kernel task. -/
theorem SchedInv.found_ne (h : SchedInv k) {pid : Int} (hpos : 0 < pid)
    (hfind : findTaskByPid k pid = some i) :
    i ≠ 0 := by
  rintro rfl
  have := (findTaskByPid_some hfind).1
  rw [h.kernelPid] at this
  omega

/-- Two live tasks are counted when a user task is. -/
theorem CountInv.two_le (h : CountInv k) (hi : i ≠ 0) (hlive : (k.tasks i).state ≠ .free) :
    2 ≤ k.taskCount := by
  have hcard : 1 < (liveSlots k).card :=
    Finset.one_lt_card.mpr ⟨i, mem_liveSlots.mpr hlive, 0, h.kernel_mem, hi⟩
  have := h.count_eq
  omega

theorem CountInv.kill (h : CountInv k) {pid : Int} {sig : Nat} {r : Int × Kernel}
    (hguard : CountGuard k (.kill pid sig)) (hkill : taskKill k pid sig = some r) :
    CountInv r.2 := by
  have hsched := h.toSchedInv.kill hkill
  rcases taskKill_cases hkill with ⟨heq, -⟩ | ⟨i, hpos, hfind, hcase⟩
  · rw [heq]
    exact h
  have hi := h.found_ne hpos hfind
  have hlive := (findTaskByPid_some hfind).2
  rcases hcase with ⟨-, pending, heq⟩ | ⟨hfrees, -, pending, heq⟩ | ⟨hsig, hcur, -⟩
  · rw [heq] at hsched ⊢
    have hdrift : drift (k.setTask i { k.tasks i with sigPending := pending }) = drift k :=
      drift_setTask_of_iff Iff.rfl
    exact ⟨hsched, h.kernelRuns.setTask hi, hdrift.trans h.exact, h.last⟩
  · rw [heq] at hsched ⊢
    have hset : KernelRuns
        (k.setTask i { k.tasks i with sigPending := pending, state := .free }) :=
      h.kernelRuns.setTask hi
    have hkernel : KernelRuns (killSlot k i pending) := hset.of_eq rfl
    refine ⟨hsched, hkernel, (drift_killSlot hlive pending).trans h.exact, fun hle => ?_⟩
    -- One task is left, so that two were there before.
    have hcount : (killSlot k i pending).taskCount = k.taskCount + -1 := rfl
    have htwo := h.two_le hi hlive
    have hcur := (hguard hpos i hfind hfrees).2 (by omega)
    rw [h.current] at hcur
    exact Option.some.inj hcur
  · exact absurd hcur ((hguard hpos i hfind (Or.inl hsig)).1 hsig)

/-- An exit of a task that is not alive any more, back to the kernel task. -/
theorem CountInv.exit (h : CountInv k) {code : Int} (hguard : CountGuard k (.exit code))
    (hexit : taskExit k code = some k') : CountInv k' := by
  have hdrift := h.drift_exit hexit
  rw [if_pos (hguard _ h.current), add_zero, h.exact] at hdrift
  have hsched := h.toSchedInv.exit hexit
  unfold taskExit at hexit
  rw [h.current] at hexit
  dsimp only at hexit
  split at hexit
  · cases hexit
  · cases hexit
    refine ⟨hsched, Or.inr ?_, hdrift, fun _ => rfl⟩
    exact resume_state _ 0

theorem schedule_count (k : Kernel) (rsp : Nat) :
    (Proc.schedule k rsp).2.taskCount = k.taskCount := by
  have hpre : (preempt k rsp).taskCount = k.taskCount := by
    unfold preempt
    split
    · rfl
    split
    · rfl
    · rfl
  unfold Proc.schedule
  split
  · split
    · rfl
    · rfl
  · dsimp only
    split
    · exact hpre
    · exact hpre

theorem CountInv.schedule (h : CountInv k) (rsp : Nat) : CountInv (Proc.schedule k rsp).2 := by
  have hcount := schedule_count k rsp
  refine ⟨h.toSchedInv.schedule rsp, h.kernelRuns.schedule h.toSchedInv rsp,
    (h.drift_schedule rsp).trans h.exact, fun hle => ?_⟩
  rw [hcount] at hle
  rw [h.schedule_shortcut rsp (by omega)]
  exact h.last hle

/-- A creation keeps the invariant. -/
theorem CountInv.created (h : CountInv k) (hsched : SchedInv k')
    (heffect : Untouched k k' ∨ ∃ t, Filled k k' t) : CountInv k' := by
  rcases heffect with hsame | ⟨t, hfilled⟩
  · refine ⟨hsched, h.kernelRuns.of_eq (hsame.state 0), hsame.drift_eq.trans h.exact, ?_⟩
    rw [hsame.count, hsame.idx]
    exact h.last
  · have ht := h.firstFree_ne hfilled.slot
    refine ⟨hsched, h.kernelRuns.of_eq (hfilled.others 0 (Ne.symm ht)),
      hfilled.drift_eq.trans h.exact, ?_⟩
    rw [hfilled.count, hfilled.idx]
    exact fun hle => h.last (by omega)

theorem CountInv.sigaction (h : CountInv k) (sig : Fin 32) (act : SigAction) :
    CountInv (taskSigaction k sig act).2 := by
  refine ⟨h.toSchedInv.sigaction sig act, h.kernelRuns.sigaction sig act,
    (drift_sigaction k sig act).trans h.exact, ?_⟩
  unfold taskSigaction
  split
  · exact h.last
  split
  · exact h.last
  · exact h.last

theorem CountInv.step (h : CountInv k) {o : TaskOp} (hguard : CountGuard k o)
    (hstep : taskStep k o = some k') : CountInv k' := by
  cases o with
  | createUser env =>
    cases hstep
    exact h.created (h.toSchedInv.createUser env) (taskCreateUser_effect k env)
  | fork env =>
    cases hstep
    exact h.created (h.toSchedInv.fork env) (taskFork_effect k env)
  | exit code => exact h.exit hguard hstep
  | kill pid sig =>
    obtain ⟨r, hkill, rfl⟩ := Option.map_eq_some_iff.mp hstep
    exact h.kill hguard hkill
  | sigaction sig act =>
    cases hstep
    exact h.sigaction sig act
  | schedule rsp =>
    cases hstep
    exact h.schedule rsp

/-- After an exit of a live task the counter is one ahead. -/
theorem CountInv.exit_drifts (h : CountInv k) {code : Int}
    (hlive : (k.tasks k.currentIdx).state ≠ .free)
    (hexit : taskExit k code = some k') : ¬ CountExact k' := by
  intro hexact
  have hdrift := h.drift_exit hexit
  rw [if_neg hlive, h.exact, drift, hexact.count] at hdrift
  omega

/-- Every other step leaves a wrong counter or a wrong shortcut. -/
theorem CountInv.breaks (h : CountInv k) {o : TaskOp} (hguard : ¬ CountGuard k o)
    (hstep : taskStep k o = some k') : ¬ CountExact k' := by
  cases o with
  | createUser env => exact absurd trivial hguard
  | fork env => exact absurd trivial hguard
  | sigaction sig act => exact absurd trivial hguard
  | schedule rsp => exact absurd trivial hguard
  | exit code =>
    refine h.exit_drifts (fun hfree => hguard fun c hc => ?_) hstep
    rw [h.current] at hc
    rw [← Option.some.inj hc]
    exact hfree
  | kill pid sig =>
    obtain ⟨r, hkill, rfl⟩ := Option.map_eq_some_iff.mp hstep
    simp only [CountGuard, not_forall] at hguard
    obtain ⟨hpos, i, hfind, hfrees, hbad⟩ := hguard
    rcases taskKill_cases hkill with ⟨-, hnone⟩ | ⟨j, -, hfind', hcase⟩
    · exact absurd hfrees (hnone hpos i hfind)
    rw [hfind] at hfind'
    cases hfind'
    have hi := h.found_ne hpos hfind
    have hlive := (findTaskByPid_some hfind).2
    rcases hcase with ⟨hnot, -⟩ | ⟨-, hother, pending, heq⟩ | ⟨-, hcur, hexit⟩
    · exact absurd hfrees hnot
    · rw [heq]
      intro hexact
      rw [not_and, Classical.not_imp] at hbad
      obtain ⟨htwo, hcur⟩ := hbad hother
      -- Only the kernel task is left: it is ready, and it is not the current task.
      have hcount : (killSlot k i pending).taskCount = k.taskCount + -1 := rfl
      have hstate : ((killSlot k i pending).tasks 0).state = (k.tasks 0).state :=
        congrArg Task.state
          (setTask_ne k { k.tasks i with sigPending := pending, state := .free } (Ne.symm hi))
      refine hexact.shortcut (by omega) 0 hcur ?_
      rw [hstate]
      refine h.kernelRuns.resolve_right (h.others 0 fun h0 => hcur ?_)
      rw [h.current, ← h0]
    · rw [h.current] at hcur
      rw [← Option.some.inj hcur] at hlive
      exact h.exit_drifts hlive hexit

theorem countInv_taskInit (k : Kernel) (rsp cr3 : Nat) : CountInv (taskInit k rsp cr3) := by
  have hslots : liveSlots (taskInit k rsp cr3) = {0} := by
    ext j
    rw [mem_liveSlots, Finset.mem_singleton]
    by_cases hj : j = 0
    · simp [taskInit, Kernel.setTask, hj]
    · simp [taskInit, Kernel.setTask, hj]
  have hcount : (taskInit k rsp cr3).taskCount = 1 := rfl
  refine ⟨schedInv_taskInit k rsp cr3, Or.inr ?_, ?_, fun _ => rfl⟩
  · simp [taskInit, Kernel.setTask]
  · rw [drift, hslots, hcount]
    decide

/-- The counter is right and the shortcut of `schedule` is justified in every state of
a run exactly if no live task exits and the last user task is killed only while the
kernel task is the current one. -/
theorem countExact_run_iff (k : Kernel) (rsp cr3 : Nat) (os : List TaskOp) :
    (∀ s ∈ visited taskStep (taskInit k rsp cr3) os, CountExact s) ↔
      Guarded taskStep CountGuard (taskInit k rsp cr3) os :=
  visited_iff_guarded (fun _ h => h.exactly) (fun _ _ _ h hguard hstep => h.step hguard hstep)
    (fun _ _ _ h hguard hstep => h.breaks hguard hstep) (countInv_taskInit k rsp cr3) os

/-- One task is created, scheduled and exits: one slot is live and two are counted. -/
theorem oneExit_not_exact :
    ∃ s, Reach taskStep (fun _ _ => True) (taskInit bootKernel 0 0) s ∧
      s.taskCount = 2 ∧ (liveSlots s).card = 1 ∧ ¬ CountExact s := by
  have hrun : (run taskStep (taskInit bootKernel 0 0) [spawnOk, .schedule 0, .exit 5]).map
      (fun s => (s.taskCount, (liveSlots s).card)) = some (2, 1) := by
    decide +kernel
  obtain ⟨s, hs, hpair⟩ := Option.map_eq_some_iff.mp hrun
  obtain ⟨hcount, hcard⟩ := Prod.mk.inj hpair
  refine ⟨s, reach_of_run hs, hcount, hcard, fun hexact => ?_⟩
  have := hexact.count
  rw [hcount, hcard] at this
  exact absurd this (by decide)

end Lumin.Proc
