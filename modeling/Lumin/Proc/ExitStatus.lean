import Lumin.Proc.Inheritance

/-!
# Exit statuses

A model of `task_waitpid_nb`, and what becomes of the status of a child between its
exit and the wait of its parent.  The status is in a slot that is marked free, and the
search takes the first slot with the pid of the child and that of its parent on
record.  So the status is kept as long as no creation takes this slot or puts such a
pair below it.

* `SlotKept` is what a call leaves of a slot that it has nothing to do with, and
  `taskStep_slot` says once what a call can do to a slot.
* `ChildAt` is the invariant, and `status_of_guarded` the result.
-/

namespace Lumin.Proc

open Lumin.Lib

/-- The fields that a wait reads are the same. -/
structure SlotKept (x y : Task) : Prop where
  pid : y.pid = x.pid
  parentPid : y.parentPid = x.parentPid
  exitCode : y.exitCode = x.exitCode
  free : y.state = .free ↔ x.state = .free

theorem SlotKept.refl (x : Task) : SlotKept x x := ⟨rfl, rfl, rfl, Iff.rfl⟩

theorem SlotKept.trans {x y z : Task} (h : SlotKept x y) (h' : SlotKept y z) : SlotKept x z :=
  ⟨h'.pid.trans h.pid, h'.parentPid.trans h.parentPid, h'.exitCode.trans h.exitCode,
    h'.free.trans h.free⟩

variable {k k' : Kernel} {i j t c : Fin MAX_TASKS} {o : TaskOp} {p q : Int}

theorem slotKept_setTask {y : Task} (h : j = i → SlotKept (k.tasks i) y) :
    SlotKept (k.tasks i) ((k.setTask j y).tasks i) := by
  by_cases hj : j = i
  · subst hj
    simpa [Kernel.setTask] using h rfl
  · simpa [Kernel.setTask, Ne.symm hj] using SlotKept.refl _

theorem slotKept_reaped (x : Task) : SlotKept x (reaped x) := by
  unfold reaped
  split
  · exact ⟨rfl, rfl, rfl, Iff.rfl⟩
  · exact SlotKept.refl x

/-- `alloc_task` keeps every slot. -/
theorem slotKept_allocTask (k : Kernel) (i : Fin MAX_TASKS) :
    SlotKept (k.tasks i) ((allocTask k).2.tasks i) := by
  cases hfree : firstFree k with
  | none =>
    have halloc : (allocTask k).2 = k := by
      unfold allocTask
      rw [hfree]
    rw [halloc]
    exact SlotKept.refl _
  | some t =>
    rw [allocTask_eq hfree]
    refine slotKept_setTask fun heq => ?_
    rw [heq]
    exact slotKept_reaped _

/-- The parent that a creation in slot `t` puts on record. -/
def newParent (k : Kernel) (t : Fin MAX_TASKS) : Int :=
  match k.currentTask with
  | none => 0
  | some c => if c = t then (allocPid k).1 else (k.tasks c).pid

/-- A task that has just been made. -/
structure SlotMade (k : Kernel) (t : Fin MAX_TASKS) (y : Task) : Prop where
  pid : y.pid = (allocPid k).1
  parentPid : y.parentPid = newParent k t
  live : y.state ≠ .free

theorem fillCreated_slot (k : Kernel) (t i : Fin MAX_TASKS) (pml4 kstack ustack : Nat) :
    (i ≠ t → SlotKept (k.tasks i) ((fillCreated k t pml4 kstack ustack).2.tasks i)) ∧
      SlotMade k t ((fillCreated k t pml4 kstack ustack).2.tasks t) := by
  constructor
  · intro hi
    have hsame : (fillCreated k t pml4 kstack ustack).2.tasks i = k.tasks i := by
      simp [fillCreated, Kernel.setTask, Kernel.addCount, allocPid, hi]
    rw [hsame]
    exact SlotKept.refl _
  · refine ⟨by simp [fillCreated, Kernel.setTask, Kernel.addCount, allocPid], ?_,
      by simp [fillCreated, Kernel.setTask, Kernel.addCount, allocPid]⟩
    unfold newParent
    cases hcur : k.currentTask with
    | none => simp [fillCreated, Kernel.setTask, Kernel.addCount, allocPid, currentPid, hcur]
    | some c =>
      by_cases hc : c = t
      · subst hc
        simp [fillCreated, Kernel.setTask, Kernel.addCount, allocPid, currentPid, hcur]
      · simp [fillCreated, Kernel.setTask, Kernel.addCount, allocPid, currentPid, hcur, hc]

theorem fillForked_slot (k : Kernel) (t i : Fin MAX_TASKS) (pml4 kstack ustack : Nat)
    (env : ForkEnv)
    (hcur : k.currentTask = some c) :
    (i ≠ t → SlotKept (k.tasks i) ((fillForked k c t pml4 kstack ustack env).2.tasks i)) ∧
      SlotMade k t ((fillForked k c t pml4 kstack ustack env).2.tasks t) := by
  constructor
  · intro hi
    have hsame : (fillForked k c t pml4 kstack ustack env).2.tasks i = k.tasks i := by
      simp [fillForked, Kernel.setTask, Kernel.addCount, allocPid, hi]
    rw [hsame]
    exact SlotKept.refl _
  · refine ⟨by simp [fillForked, Kernel.setTask, Kernel.addCount, allocPid], ?_,
      by simp [fillForked, Kernel.setTask, Kernel.addCount, allocPid]⟩
    unfold newParent
    rw [hcur]
    by_cases hc : c = t
    · subst hc
      simp [fillForked, Kernel.setTask, Kernel.addCount, allocPid]
    · simp [fillForked, Kernel.setTask, Kernel.addCount, allocPid, hc]

/-- `alloc_task` changes neither the next pid nor the parent of a creation. -/
theorem slotMade_reaped {y : Task} (h : SlotMade (k.setTask t (reaped (k.tasks t))) t y) :
    SlotMade k t y := by
  refine ⟨h.pid, ?_, h.live⟩
  rw [h.parentPid]
  unfold newParent
  show (match k.currentTask with | none => _ | some c => _) = _
  cases k.currentTask with
  | none => rfl
  | some c =>
    by_cases hc : c = t
    · simp only [if_pos hc]
      rfl
    · simp only [if_neg hc, Kernel.setTask, Function.update_of_ne hc]

/-- A creation that fails gives back at most what the slot held. -/
theorem taskCreateUser_fails {env : CreateEnv} (henv : ¬ Creates k (.createUser env)) :
    (taskCreateUser k env).2 = k ∨ (taskCreateUser k env).2 = (allocTask k).2 := by
  have hfst := allocTask_fst k
  obtain ⟨opened, pml4, entry, kstack, ustack, mapped⟩ := env
  unfold Creates at henv
  unfold taskCreateUser
  rcases halloc : allocTask k with ⟨slot, k'⟩
  rw [halloc] at hfst
  dsimp only at henv hfst ⊢
  cases opened with
  | false => exact .inl rfl
  | true =>
    cases pml4 with
    | none => exact .inl rfl
    | some pml4 =>
      by_cases hentry : entry = 0
      · exact .inl (by simp [hentry])
      · right
        cases slot with
        | none => simp [hentry]
        | some t =>
          cases kstack with
          | none => simp [hentry]
          | some kstack =>
            cases ustack with
            | none => simp [hentry]
            | some ustack =>
              cases mapped with
              | false => simp [hentry]
              | true => exact absurd ⟨rfl, rfl, hentry, by rw [← hfst]; rfl, rfl, rfl, rfl⟩ henv

theorem taskFork_fails {env : ForkEnv} (henv : ¬ Creates k (.fork env)) :
    (taskFork k env).2 = k ∨ (taskFork k env).2 = (allocTask k).2 := by
  have hfst := allocTask_fst k
  obtain ⟨pml4, kstack, ustack, copied, words, dup⟩ := env
  unfold Creates at henv
  unfold taskFork
  rcases halloc : allocTask k with ⟨slot, k'⟩
  rw [halloc] at hfst
  dsimp only at henv hfst ⊢
  cases hcur : k.currentTask with
  | none => exact .inl rfl
  | some cur =>
    right
    cases slot with
    | none => rfl
    | some t =>
      cases pml4 with
      | none => rfl
      | some pml4 =>
        cases kstack with
        | none => rfl
        | some kstack =>
          cases ustack with
          | none => rfl
          | some ustack =>
            cases copied with
            | false => rfl
            | true =>
              exact absurd ⟨by rw [hcur]; rfl, by rw [← hfst]; rfl, rfl, rfl, rfl, rfl⟩ henv

/-- What a creation does to a slot: it makes a task there, or keeps it. -/
def CreatesOrKeeps (k : Kernel) (o : TaskOp) (i : Fin MAX_TASKS) (y : Task) : Prop :=
  SlotKept (k.tasks i) y ∨ (Creates k o ∧ firstFree k = some i ∧ SlotMade k i y)

theorem createsOrKeeps_of_fails (h : k' = k ∨ k' = (allocTask k).2) :
    CreatesOrKeeps k o i (k'.tasks i) := by
  rcases h with rfl | rfl
  · exact .inl (SlotKept.refl _)
  · exact .inl (slotKept_allocTask k i)

/-- A creation that succeeds, by what it does once the slot is taken. -/
theorem createsOrKeeps_of_fill (henv : Creates k o) (hfree : firstFree k = some t)
    (hfill : (i ≠ t → SlotKept ((k.setTask t (reaped (k.tasks t))).tasks i) (k'.tasks i)) ∧
      SlotMade (k.setTask t (reaped (k.tasks t))) t (k'.tasks t)) : CreatesOrKeeps k o i
        (k'.tasks i) := by
  by_cases hi : i = t
  · subst hi
    exact .inr ⟨henv, hfree, slotMade_reaped hfill.2⟩
  · refine .inl (SlotKept.trans ?_ (hfill.1 hi))
    exact slotKept_setTask fun heq => absurd heq.symm hi

theorem taskCreateUser_slot (k : Kernel) (env : CreateEnv) (i : Fin MAX_TASKS) :
    CreatesOrKeeps k (.createUser env) i ((taskCreateUser k env).2.tasks i) := by
  by_cases henv : Creates k (.createUser env)
  · obtain ⟨t, hfree⟩ := Option.isSome_iff_exists.mp henv.2.2.2.1
    obtain ⟨pml4, kstack, ustack, heq⟩ := taskCreateUser_eq hfree henv
    rw [heq]
    exact createsOrKeeps_of_fill henv hfree (fillCreated_slot _ t i pml4 kstack ustack)
  · exact createsOrKeeps_of_fails (taskCreateUser_fails henv)

theorem taskFork_slot (k : Kernel) (env : ForkEnv) (i : Fin MAX_TASKS) :
    CreatesOrKeeps k (.fork env) i ((taskFork k env).2.tasks i) := by
  by_cases henv : Creates k (.fork env)
  · obtain ⟨cur, hcur⟩ := Option.isSome_iff_exists.mp henv.1
    obtain ⟨t, hfree⟩ := Option.isSome_iff_exists.mp henv.2.1
    obtain ⟨pml4, kstack, ustack, heq⟩ := taskFork_eq hfree henv hcur
    rw [heq]
    exact createsOrKeeps_of_fill henv hfree (fillForked_slot _ t i pml4 kstack ustack env hcur)
  · exact createsOrKeeps_of_fails (taskFork_fails henv)

/-- `task_exit` frees the slot of the current task, with the status, and no other. -/
theorem taskExit_slot {code : Int} (h : taskExit k code = some k') (hi : i ≠ 0) :
    (k.currentTask ≠ some i → SlotKept (k.tasks i) (k'.tasks i)) ∧
      (k.currentTask = some i →
        k'.tasks i = { k.tasks i with state := .free, exitCode := code }) := by
  unfold taskExit at h
  cases hcur : k.currentTask with
  | none =>
    rw [hcur] at h
    cases h
  | some c =>
    rw [hcur] at h
    dsimp only at h
    split at h
    · cases h
    · cases h
      constructor
      · intro hne
        have hic : i ≠ c := fun heq => hne (by rw [heq])
        have hsame : (((freePid k (k.tasks c).pid).setTask c
            { (freePid k (k.tasks c).pid).tasks c with state := .free, exitCode := code }).resume
              0).tasks i =
            k.tasks i := by
          simp [Kernel.resume, Kernel.setTask, freePid, hi, hic]
        exact hsame ▸ SlotKept.refl _
      · intro heq
        obtain rfl := Option.some.inj heq
        simp [Kernel.loadCr3, Kernel.resume, Kernel.setTask, freePid, hi]

/-- `schedule` keeps every slot but that of the kernel task. -/
theorem schedule_slot (k : Kernel) (rsp : Nat) (hi : i ≠ 0) :
    SlotKept (k.tasks i) ((schedule k rsp).2.tasks i) := by
  have hpreempt : SlotKept (k.tasks i) ((preempt k rsp).tasks i) := by
    unfold preempt
    cases k.currentTask with
    | none => exact SlotKept.refl _
    | some c =>
      dsimp only
      split
      next hrun =>
        refine slotKept_setTask fun heq => ?_
        rw [heq] at hrun ⊢
        exact ⟨rfl, rfl, rfl, by simp [hrun]⟩
      · exact SlotKept.refl _
  unfold schedule
  split
  · cases k.currentTask with
    | none => exact SlotKept.refl _
    | some c =>
      refine slotKept_setTask fun heq => ?_
      rw [heq]
      exact ⟨rfl, rfl, rfl, Iff.rfl⟩
  · dsimp only
    cases hnext : nextReady (preempt k rsp) with
    | none =>
      refine hpreempt.trans ?_
      exact slotKept_setTask fun heq => absurd heq.symm hi
    | some j =>
      have hready : ((preempt k rsp).tasks j).state = .ready := by
        simpa using List.find?_some hnext
      refine hpreempt.trans ?_
      refine slotKept_setTask fun heq => ?_
      rw [heq] at hready ⊢
      exact ⟨rfl, rfl, rfl, by simp [hready]⟩

/-- The call ends the task in slot `i`. -/
def Ends (k : Kernel) (o : TaskOp) (i : Fin MAX_TASKS) : Prop :=
  match o with
  | .exit _ => k.currentTask = some i
  | .kill pid sig =>
    findTaskByPid k pid = some i ∧
      (sig = SIGKILL ∨ sig = SIGTERM ∧
        ((k.tasks i).sigActions (Fin.ofNat 32 sig)).saHandler = .dfl)
  | _ => False

theorem killSlot_slot (k : Kernel) (pending : BitVec 64) (hne : i ≠ j) :
    SlotKept (k.tasks i) ((killSlot k j pending).tasks i) := by
  have hsame : (killSlot k j pending).tasks i = k.tasks i := by
    simp [killSlot, freePid, Kernel.addCount, Kernel.setTask, hne]
  exact hsame ▸ SlotKept.refl _

theorem taskKill_slot {pid : Int} {sig : Nat} {r : Int × Kernel} (h : taskKill k pid sig = some r)
    (hi : i ≠ 0)
    (hends : ¬ Ends k (.kill pid sig) i) : SlotKept (k.tasks i) (r.2.tasks i) := by
  unfold taskKill at h
  split at h
  · cases h
    exact SlotKept.refl _
  next hsig =>
    split at h
    · cases h
      exact SlotKept.refl _
    · cases hfind : findTaskByPid k pid with
      | none =>
        rw [hfind] at h
        cases h
        exact SlotKept.refl _
      | some j =>
        rw [hfind] at h
        dsimp only at h
        have hother : sig = SIGKILL ∨
            sig = SIGTERM ∧ ((k.tasks j).sigActions (Fin.ofNat 32 sig)).saHandler = .dfl →
              i ≠ j := by
          intro hlethal heq
          subst heq
          exact hends ⟨hfind, hlethal⟩
        split at h
        next hkill =>
          split at h
          next hcur =>
            obtain ⟨k₁, hexit, rfl⟩ := Option.map_eq_some_iff.mp h
            refine (taskExit_slot hexit hi).1 fun heq => ?_
            exact hother (.inl hkill) (Option.some.inj (heq.symm.trans hcur))
          · cases h
            exact killSlot_slot k 0 (hother (.inl hkill))
        · split at h
          next hterm =>
            cases h
            refine killSlot_slot k _ (hother (.inr ⟨hterm.1, ?_⟩))
            have hfin : (⟨sig, by omega⟩ : Fin 32) = Fin.ofNat 32 sig := by
              apply Fin.ext
              simp
              omega
            rw [← hfin]
            exact hterm.2
          · cases h
            refine slotKept_setTask fun heq => ?_
            rw [heq]
            exact ⟨rfl, rfl, rfl, Iff.rfl⟩

/-- What a call does to a slot other than that of the kernel task: it ends the task
there, makes a task there, or keeps it. -/
theorem taskStep_slot (h : taskStep k o = some k') (hi : i ≠ 0) (hends : ¬ Ends k o i) :
    CreatesOrKeeps k o i (k'.tasks i) := by
  cases o with
  | createUser env =>
    cases h
    exact taskCreateUser_slot k env i
  | fork env =>
    cases h
    exact taskFork_slot k env i
  | exit code => exact .inl ((taskExit_slot h hi).1 hends)
  | kill pid sig =>
    obtain ⟨r, hkill, rfl⟩ := Option.map_eq_some_iff.mp h
    exact .inl (taskKill_slot hkill hi hends)
  | sigaction sig act =>
    cases h
    left
    unfold taskSigaction
    split
    · exact SlotKept.refl _
    · split
      · exact SlotKept.refl _
      · refine slotKept_setTask fun heq => ?_
        rw [heq]
        exact ⟨rfl, rfl, rfl, Iff.rfl⟩
  | schedule rsp =>
    cases h
    exact .inl (schedule_slot k rsp hi)

/-- The two pids on record are the same. -/
def SameIds (x y : Task) : Prop := y.pid = x.pid ∧ y.parentPid = x.parentPid

theorem sameIds_setTask {y : Task} (h : SameIds (k.tasks j) y) :
    SameIds (k.tasks i) ((k.setTask j y).tasks i) := by
  by_cases hj : i = j
  · subst hj
    simpa [Kernel.setTask] using h
  · simp [Kernel.setTask, hj, SameIds]

theorem SameIds.trans {x y z : Task} (h : SameIds x y) (h' : SameIds y z) : SameIds x z :=
  ⟨h'.1.trans h.1, h'.2.trans h.2⟩

theorem sameIds_exit {code : Int} (h : taskExit k code = some k') (i : Fin MAX_TASKS) :
    SameIds (k.tasks i) (k'.tasks i) := by
  unfold taskExit at h
  cases hcur : k.currentTask with
  | none =>
    rw [hcur] at h
    cases h
  | some c =>
    rw [hcur] at h
    dsimp only at h
    split at h
    · cases h
    · cases h
      refine SameIds.trans (y := ((freePid k (k.tasks c).pid).setTask c
        { (freePid k (k.tasks c).pid).tasks c with state := .free, exitCode := code }).tasks i) ?_
          ?_
      · exact sameIds_setTask (k := freePid k (k.tasks c).pid) ⟨rfl, rfl⟩
      · exact sameIds_setTask ⟨rfl, rfl⟩

/-- Only a creation changes the pids of a slot. -/
theorem taskStep_ids (h : taskStep k o = some k') (i : Fin MAX_TASKS) :
    SameIds (k.tasks i) (k'.tasks i) ∨
      (Creates k o ∧ firstFree k = some i ∧ SlotMade k i (k'.tasks i)) := by
  cases o with
  | createUser env =>
    cases h
    exact (taskCreateUser_slot k env i).imp_left fun hkept => ⟨hkept.pid, hkept.parentPid⟩
  | fork env =>
    cases h
    exact (taskFork_slot k env i).imp_left fun hkept => ⟨hkept.pid, hkept.parentPid⟩
  | exit code => exact .inl (sameIds_exit h i)
  | kill pid sig =>
    left
    obtain ⟨r, hkill, rfl⟩ := Option.map_eq_some_iff.mp h
    unfold taskKill at hkill
    split at hkill
    · cases hkill
      exact ⟨rfl, rfl⟩
    · split at hkill
      · cases hkill
        exact ⟨rfl, rfl⟩
      · split at hkill
        · cases hkill
          exact ⟨rfl, rfl⟩
        · split at hkill
          · split at hkill
            · obtain ⟨k₁, hexit, rfl⟩ := Option.map_eq_some_iff.mp hkill
              exact sameIds_exit hexit i
            · cases hkill
              exact sameIds_setTask ⟨rfl, rfl⟩
          · split at hkill
            · cases hkill
              exact sameIds_setTask ⟨rfl, rfl⟩
            · cases hkill
              exact sameIds_setTask ⟨rfl, rfl⟩
  | sigaction sig act =>
    cases h
    left
    unfold taskSigaction
    split
    · exact ⟨rfl, rfl⟩
    · split
      · exact ⟨rfl, rfl⟩
      · exact sameIds_setTask ⟨rfl, rfl⟩
  | schedule rsp =>
    cases h
    left
    have hpreempt : SameIds (k.tasks i) ((preempt k rsp).tasks i) := by
      unfold preempt
      split
      · exact ⟨rfl, rfl⟩
      · split
        · exact sameIds_setTask ⟨rfl, rfl⟩
        · exact ⟨rfl, rfl⟩
    unfold schedule
    split
    · split
      · exact ⟨rfl, rfl⟩
      · exact sameIds_setTask ⟨rfl, rfl⟩
    · dsimp only
      split
      · exact hpreempt.trans (sameIds_setTask ⟨rfl, rfl⟩)
      · exact hpreempt.trans (sameIds_setTask ⟨rfl, rfl⟩)

/-! ## The child -/

/-- The child in slot `c` with pid `p` and parent `q`: no slot before it has these pids on
record. -/
structure ChildAt (k : Kernel) (c : Fin MAX_TASKS) (p q : Int) : Prop where
  pid : (k.tasks c).pid = p
  parentPid : (k.tasks c).parentPid = q
  first : ∀ j < c, ¬ ((k.tasks j).parentPid = q ∧ (k.tasks j).pid = p)

/-- No creation takes the slot of the child, or makes a task with its pids before it. -/
def Spares (c : Fin MAX_TASKS) (p q : Int) (k : Kernel) (o : TaskOp) : Prop :=
  Creates k o → ∀ t, firstFree k = some t →
    t ≠ c ∧ ¬ (t < c ∧ newParent k t = q ∧ (allocPid k).1 = p)

/-- The same, while the child runs: nothing ends it. -/
def SparesAlive (c : Fin MAX_TASKS) (p q : Int) (k : Kernel) (o : TaskOp) : Prop :=
  Spares c p q k o ∧ ¬ Ends k o c

theorem ChildAt.step (h : ChildAt k c p q) (hspares : Spares c p q k o)
    (hstep : taskStep k o = some k') : ChildAt k' c p q := by
  have hchild : SameIds (k.tasks c) (k'.tasks c) := by
    rcases taskStep_ids hstep c with hsame | ⟨hcreates, hfree, -⟩
    · exact hsame
    · exact absurd rfl (hspares hcreates c hfree).1
  refine ⟨hchild.1.trans h.pid, hchild.2.trans h.parentPid, fun j hj hmatch => ?_⟩
  rcases taskStep_ids hstep j with hsame | ⟨hcreates, hfree, hmade⟩
  · exact h.first j hj ⟨hsame.2 ▸ hmatch.1, hsame.1 ▸ hmatch.2⟩
  · exact (hspares hcreates j hfree).2 ⟨hj, hmade.parentPid ▸ hmatch.1, hmade.pid ▸ hmatch.2⟩

/-- The kernel task keeps its slot. -/
def KernelSlot (k : Kernel) : Prop := k.pidView.pid 0 = 0 ∧ k.pidView.live 0 = true

theorem KernelSlot.step (h : KernelSlot k) (hstep : taskStep k o = some k') : KernelSlot k' := by
  obtain ⟨hpid, hlive⟩ := h
  unfold KernelSlot
  rcases taskStep_view hstep with ⟨-, t, hfree, hview⟩ | ⟨-, hmove⟩
  · have ht : (0 : Fin MAX_TASKS) ≠ t := by
      rintro rfl
      rw [firstFree_not_live hfree] at hlive
      cases hlive
    rw [hview]
    simp [PidView.create, ht, hpid, hlive]
  · generalize k'.pidView = v' at hmove
    cases hmove with
    | stay => exact ⟨hpid, hlive⟩
    | switch j hj => exact ⟨hpid, hlive⟩
    | idle => exact ⟨hpid, by simp⟩
    | exit c hc hne => exact ⟨hpid, by simp⟩
    | kill i hi hpos =>
      have hi0 : (0 : Fin MAX_TASKS) ≠ i := by
        rintro rfl
        omega
      exact ⟨hpid, by simp [hi0, hlive]⟩

/-- The current task changes to one that is live, or to the kernel task. -/
theorem taskStep_current (hstep : taskStep k o = some k') (hc : c ≠ 0)
    (hfree : (k.tasks c).state = .free)
    (hcur : k.currentTask ≠ some c) : k'.currentTask ≠ some c := by
  have hdead : k.pidView.live c = false := by simp [Kernel.pidView, hfree]
  change k'.pidView.current ≠ some c
  rcases taskStep_view hstep with ⟨-, t, -, hview⟩ | ⟨-, hmove⟩
  · rw [hview]
    exact hcur
  · generalize k'.pidView = v' at hmove ⊢
    cases hmove with
    | stay => exact hcur
    | switch j hj =>
      intro heq
      rw [Option.some.inj heq, hdead] at hj
      cases hj
    | idle => exact fun heq => hc (Option.some.inj heq).symm
    | exit c' hc' hne => exact fun heq => hc (Option.some.inj heq).symm
    | kill i hi hpos => exact hcur

/-- The child before its exit. -/
structure Running (c : Fin MAX_TASKS) (p q : Int) (k : Kernel) : Prop where
  child : ChildAt k c p q
  live : (k.tasks c).state ≠ .free

/-- The child after its exit with `code`. -/
structure Exited (c : Fin MAX_TASKS) (p q code : Int) (k : Kernel) : Prop where
  child : ChildAt k c p q
  free : (k.tasks c).state = .free
  exitCode : (k.tasks c).exitCode = code
  current : k.currentTask ≠ some c

/-- A call that spares the child keeps its slot. -/
theorem slotKept_of_spares (hspares : Spares c p q k o) (hends : ¬ Ends k o c) (hc : c ≠ 0)
    (hstep : taskStep k o = some k') : SlotKept (k.tasks c) (k'.tasks c) := by
  rcases taskStep_slot hstep hc hends with hkept | ⟨hcreates, hfree, -⟩
  · exact hkept
  · exact absurd rfl (hspares hcreates c hfree).1

theorem Running.step (h : Running c p q k) (hc : c ≠ 0) (hguard : SparesAlive c p q k o)
    (hstep : taskStep k o = some k') : Running c p q k' :=
  ⟨h.child.step hguard.1 hstep,
    fun hfree => h.live ((slotKept_of_spares hguard.1 hguard.2 hc hstep).free.mp hfree)⟩

theorem Running.exit {code : Int} (h : Running c p q k) (hc : c ≠ 0)
    (hcur : k.currentTask = some c)
    (hstep : taskStep k (.exit code) = some k') : Exited c p q code k' := by
  have hslot := (taskExit_slot hstep hc).2 hcur
  have hspares : Spares c p q k (.exit code) := fun hcreates => absurd hcreates id
  refine ⟨h.child.step hspares hstep, by rw [hslot], by rw [hslot], ?_⟩
  -- `task_exit` switches to the kernel task.
  unfold taskStep taskExit at hstep
  rw [hcur] at hstep
  dsimp only at hstep
  split at hstep
  · cases hstep
  · cases hstep
    exact fun heq => hc (Option.some.inj heq).symm

theorem Exited.step {code : Int} (h : Exited c p q code k) (hc : c ≠ 0)
    (hguard : Spares c p q k o)
    (hstep : taskStep k o = some k') : Exited c p q code k' := by
  have hends : ¬ Ends k o c := by
    intro hends
    cases o with
    | exit code' => exact h.current hends
    | kill pid sig => exact (findTaskByPid_some hends.1).2 h.free
    | createUser env => exact hends
    | fork env => exact hends
    | sigaction sig act => exact hends
    | schedule rsp => exact hends
  have hkept := slotKept_of_spares hguard hends hc hstep
  exact ⟨h.child.step hguard hstep, hkept.free.mpr h.free, hkept.exitCode.trans h.exitCode,
    taskStep_current hstep hc h.free h.current⟩

end Lumin.Proc
