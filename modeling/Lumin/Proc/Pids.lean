import Lumin.Proc.Task

/-!
# Process identities

Which pids the live tasks carry over a whole run.  The result concerns only the
pids, the live slots, the counter, the bitmap and the current slot.  `PidView`
is that part of the kernel state, and `taskStep_view` says once what a call can
do to it.  The invariant `PidInv` is about the view alone.

`alloc_pid` never hands out a pid of 32 or more, because the bitmap has one
word, and it does not come back to the low pids before the counter has passed a
million.  A creation therefore succeeds in getting a pid exactly while
`next_pid` is below 32, and a creation after that makes a live task with pid
`-1`.
-/

namespace Lumin.Proc

open Lumin.Lib

/-! ## The pid view -/

/-- The part of the kernel state that decides which pids are in use. -/
@[ext] structure PidView where
  pid : Fin MAX_TASKS → Int
  live : Fin MAX_TASKS → Bool
  nextPid : Nat
  bitmap : BitVec 32
  current : Option (Fin MAX_TASKS)

def Kernel.pidView (k : Kernel) : PidView where
  pid i := (k.tasks i).pid
  live i := (k.tasks i).state ≠ .free
  nextPid := k.nextPid
  bitmap := k.pidBitmap
  current := k.currentTask

/-- The view after slot `t` has been filled with what `alloc_pid` returns. -/
def PidView.create (v : PidView) (t : Fin MAX_TASKS) : PidView :=
  let r := allocPidLoop (MAX_TASKS * 2) v.nextPid v.bitmap
  { v with
    pid := Function.update v.pid t r.1
    live := Function.update v.live t true
    nextPid := r.2.1
    bitmap := r.2.2 }

/-- What a call that assigns no pid can do to the view. -/
inductive PidMove (v : PidView) : PidView → Prop where
  | stay : PidMove v v
  | switch (j : Fin MAX_TASKS) (hj : v.live j = true) : PidMove v { v with current := some j }
  | idle : PidMove v { v with live := Function.update v.live 0 true, current := some 0 }
  | exit (c : Fin MAX_TASKS) (hc : v.current = some c) (hpid : v.pid c ≠ 0) :
      PidMove v { v with
        bitmap := clearPid v.bitmap (v.pid c)
        live := Function.update (Function.update v.live c false) 0 true
        current := some 0 }
  | kill (i : Fin MAX_TASKS) (hi : v.live i = true) (hpid : 0 < v.pid i) :
      PidMove v { v with
        bitmap := clearPid v.bitmap (v.pid i)
        live := Function.update v.live i false }

/-- The call is a creation that gets as far as `alloc_pid`. -/
def Creates (k : Kernel) : TaskOp → Prop
  | .createUser env =>
    env.opened = true ∧ env.pml4.isSome ∧ env.entry ≠ 0 ∧ (firstFree k).isSome ∧
      env.kstack.isSome ∧ env.ustack.isSome ∧ env.mapped = true
  | .fork env =>
    k.currentTask.isSome ∧ (firstFree k).isSome ∧ env.pml4.isSome ∧
      env.kstack.isSome ∧ env.ustack.isSome ∧ env.copied = true
  | _ => False

/-! ## How each call acts on the view -/

/-- A store that keeps pid and liveness of the slot does not show. -/
theorem pidView_setTask (k : Kernel) (i : Fin MAX_TASKS) (t : Task)
    (hpid : t.pid = (k.tasks i).pid) (hstate : t.state = .free ↔ (k.tasks i).state = .free) :
    (k.setTask i t).pidView = k.pidView := by
  apply PidView.ext
  · funext j
    by_cases hj : j = i
    · subst hj
      simp [Kernel.pidView, Kernel.setTask, hpid]
    · simp [Kernel.pidView, Kernel.setTask, hj]
  · funext j
    by_cases hj : j = i
    · subst hj
      simp [Kernel.pidView, Kernel.setTask, hstate]
    · simp [Kernel.pidView, Kernel.setTask, hj]
  · rfl
  · rfl
  · rfl

@[simp] theorem pidView_addCount (k : Kernel) (n : Int) : (k.addCount n).pidView = k.pidView :=
  rfl

@[simp] theorem pidView_loadCr3 (k : Kernel) (cr3 : Nat) : (k.loadCr3 cr3).pidView = k.pidView :=
  rfl

theorem PidMove.of_eq {v v' : PidView} (h : v' = v) : PidMove v v' := by
  subst h
  exact .stay

theorem firstFree_some {k : Kernel} {t : Fin MAX_TASKS} (h : firstFree k = some t) :
    (k.tasks t).state = .free := by
  have := List.find?_some h
  simpa using this

theorem allocTask_fst (k : Kernel) : (allocTask k).1 = firstFree k := by
  unfold allocTask
  cases firstFree k with
  | none => rfl
  | some t =>
    dsimp only
    split <;> rfl

theorem allocTask_view (k : Kernel) : (allocTask k).2.pidView = k.pidView := by
  unfold allocTask
  cases firstFree k with
  | none => rfl
  | some t =>
    dsimp only
    split
    · exact pidView_setTask k t _ rfl Iff.rfl
    · rfl

theorem allocPid_view (k : Kernel) (t : Fin MAX_TASKS) (task : Task)
    (hpid : task.pid = (allocPid k).1) (hstate : task.state ≠ .free) :
    ((allocPid k).2.setTask t task).pidView = k.pidView.create t := by
  apply PidView.ext
  · funext j
    by_cases hj : j = t
    · subst hj
      simp [Kernel.pidView, Kernel.setTask, PidView.create, hpid, allocPid]
    · simp [Kernel.pidView, Kernel.setTask, PidView.create, allocPid, hj]
  · funext j
    by_cases hj : j = t
    · subst hj
      simp [Kernel.pidView, Kernel.setTask, PidView.create, hstate]
    · simp [Kernel.pidView, Kernel.setTask, PidView.create, allocPid, hj]
  · rfl
  · rfl
  · rfl

theorem fillCreated_view (k : Kernel) (t : Fin MAX_TASKS) (pml4 kstack ustack : Nat) :
    (fillCreated k t pml4 kstack ustack).2.pidView = k.pidView.create t := by
  unfold fillCreated
  rw [pidView_addCount, pidView_setTask, pidView_setTask, allocPid_view]
  all_goals first | rfl | simp

theorem fillForked_view (k : Kernel) (cur t : Fin MAX_TASKS) (pml4 kstack ustack : Nat)
    (env : ForkEnv) :
    (fillForked k cur t pml4 kstack ustack env).2.pidView = k.pidView.create t := by
  unfold fillForked
  rw [pidView_addCount, pidView_setTask, allocPid_view]
  all_goals first | rfl | simp

/-- A creation that reaches `alloc_pid` fills the first free slot, and any other
`task_create_user` leaves the view alone. -/
theorem taskCreateUser_view (k : Kernel) (env : CreateEnv) :
    (Creates k (.createUser env) ∧
        ∃ t, firstFree k = some t ∧ (taskCreateUser k env).2.pidView = k.pidView.create t) ∨
      (¬ Creates k (.createUser env) ∧ (taskCreateUser k env).1 = -1 ∧
        (taskCreateUser k env).2.pidView = k.pidView) := by
  have hfst := allocTask_fst k
  have hview := allocTask_view k
  obtain ⟨opened, pml4, entry, kstack, ustack, mapped⟩ := env
  unfold taskCreateUser Creates
  dsimp only
  cases opened with
  | false => simp
  | true =>
    cases pml4 with
    | none => simp
    | some pml4 =>
      by_cases hentry : entry = 0
      · simp [hentry]
      · cases halloc : allocTask k with
        | mk slot k' =>
          rw [halloc] at hfst hview
          dsimp only at hfst hview
          cases slot with
          | none => simp [hentry, ← hfst, hview]
          | some t =>
            cases kstack with
            | none => simp [hentry, hview]
            | some kstack =>
              cases ustack with
              | none => simp [hentry, hview]
              | some ustack =>
                cases mapped with
                | false => simp [hentry, hview]
                | true => simp [hentry, ← hfst, fillCreated_view, hview]

/-- The same for `task_fork`. -/
theorem taskFork_view (k : Kernel) (env : ForkEnv) :
    (Creates k (.fork env) ∧
        ∃ t, firstFree k = some t ∧ (taskFork k env).2.pidView = k.pidView.create t) ∨
      (¬ Creates k (.fork env) ∧ (taskFork k env).1 = -1 ∧
        (taskFork k env).2.pidView = k.pidView) := by
  have hfst := allocTask_fst k
  have hview := allocTask_view k
  obtain ⟨pml4, kstack, ustack, copied, words, dup⟩ := env
  unfold taskFork Creates
  dsimp only
  cases hcur : k.currentTask with
  | none => simp
  | some cur =>
    cases halloc : allocTask k with
    | mk slot k' =>
      rw [halloc] at hfst hview
      dsimp only at hfst hview
      cases slot with
      | none => simp [← hfst, hview]
      | some t =>
        cases pml4 with
        | none => simp [hview]
        | some pml4 =>
          cases kstack with
          | none => simp [hview]
          | some kstack =>
            cases ustack with
            | none => simp [hview]
            | some ustack =>
              cases copied with
              | false => simp [hview]
              | true => simp [← hfst, fillForked_view, hview]

theorem resume_view (k : Kernel) (i : Fin MAX_TASKS) :
    (k.resume i).pidView =
      { k.pidView with live := Function.update k.pidView.live i true, current := some i } := by
  apply PidView.ext
  · funext j
    by_cases hj : j = i
    · subst hj
      simp [Kernel.pidView, Kernel.resume, Kernel.setTask]
    · simp [Kernel.pidView, Kernel.resume, Kernel.setTask, hj]
  · funext j
    by_cases hj : j = i
    · subst hj
      simp [Kernel.pidView, Kernel.resume, Kernel.setTask]
    · simp [Kernel.pidView, Kernel.resume, Kernel.setTask, hj]
  · rfl
  · rfl
  · rfl

/-- A store that frees slot `i`, followed by `free_pid` of its pid. -/
theorem freed_view (k : Kernel) (i : Fin MAX_TASKS) (t : Task)
    (hpid : t.pid = (k.tasks i).pid) (hstate : t.state = .free) :
    (freePid (k.setTask i t) (k.tasks i).pid).pidView =
      { k.pidView with
        bitmap := clearPid k.pidView.bitmap (k.pidView.pid i)
        live := Function.update k.pidView.live i false } := by
  apply PidView.ext
  · funext j
    by_cases hj : j = i
    · subst hj
      simp [Kernel.pidView, Kernel.setTask, freePid, hpid]
    · simp [Kernel.pidView, Kernel.setTask, freePid, hj]
  · funext j
    by_cases hj : j = i
    · subst hj
      simp [Kernel.pidView, Kernel.setTask, freePid, hstate]
    · simp [Kernel.pidView, Kernel.setTask, freePid, hj]
  · rfl
  · rfl
  · rfl

theorem killSlot_move {k : Kernel} {i : Fin MAX_TASKS} (pending : BitVec 64)
    (hlive : (k.tasks i).state ≠ .free) (hpid : 0 < (k.tasks i).pid) :
    PidMove k.pidView (killSlot k i pending).pidView := by
  have hview : (killSlot k i pending).pidView = _ :=
    freed_view k i { k.tasks i with sigPending := pending, state := .free } rfl rfl
  rw [hview]
  exact .kill i (by simpa [Kernel.pidView] using hlive) hpid

theorem taskExit_move {k k' : Kernel} {code : Int} (h : taskExit k code = some k') :
    PidMove k.pidView k'.pidView := by
  unfold taskExit at h
  cases hcur : k.currentTask with
  | none => simp [hcur] at h
  | some c =>
    rw [hcur] at h
    dsimp only at h
    split at h
    · exact absurd h (by simp)
    · rename_i hpid
      cases h
      have hfreed := freed_view k c { k.tasks c with state := .free, exitCode := code } rfl rfl
      rw [pidView_loadCr3, resume_view]
      have hcomm : (freePid k (k.tasks c).pid).setTask c
          { (freePid k (k.tasks c).pid).tasks c with state := .free, exitCode := code } =
          freePid (k.setTask c { k.tasks c with state := .free, exitCode := code })
            (k.tasks c).pid := rfl
      rw [hcomm, hfreed]
      exact .exit c hcur hpid

theorem findTaskByPid_some {k : Kernel} {pid : Int} {i : Fin MAX_TASKS}
    (h : findTaskByPid k pid = some i) : (k.tasks i).pid = pid ∧ (k.tasks i).state ≠ .free := by
  have := List.find?_some h
  simpa using this

theorem taskKill_move {k : Kernel} {pid : Int} {sig : Nat} {r : Int × Kernel}
    (h : taskKill k pid sig = some r) : PidMove k.pidView r.2.pidView := by
  unfold taskKill at h
  split at h
  · cases h
    exact .stay
  split at h
  · cases h
    exact .stay
  rename_i hpid
  cases hfind : findTaskByPid k pid with
  | none =>
    rw [hfind] at h
    cases h
    exact .stay
  | some i =>
    obtain ⟨hi, hlive⟩ := findTaskByPid_some hfind
    have hpos : 0 < (k.tasks i).pid := by omega
    rw [hfind] at h
    dsimp only at h
    split at h
    · split at h
      · obtain ⟨k', hexit, rfl⟩ := Option.map_eq_some_iff.mp h
        exact taskExit_move hexit
      · cases h
        exact killSlot_move 0 hlive hpos
    · split at h
      · cases h
        exact killSlot_move _ hlive hpos
      · cases h
        exact .of_eq (pidView_setTask k i _ rfl Iff.rfl)

theorem taskSigaction_view (k : Kernel) (sig : Fin 32) (act : SigAction) :
    (taskSigaction k sig act).2.pidView = k.pidView := by
  unfold taskSigaction
  cases k.currentTask with
  | none => rfl
  | some c =>
    dsimp only
    split
    · rfl
    · exact pidView_setTask k c _ rfl Iff.rfl

theorem preempt_view (k : Kernel) (rsp : Nat) : (preempt k rsp).pidView = k.pidView := by
  unfold preempt
  cases k.currentTask with
  | none => rfl
  | some c =>
    dsimp only
    split
    · rename_i hrun
      exact pidView_setTask k c _ rfl (by simp [hrun])
    · rfl

theorem schedule_move (k : Kernel) (rsp : Nat) :
    PidMove k.pidView (schedule k rsp).2.pidView := by
  unfold schedule
  split
  · cases k.currentTask with
    | none => exact .stay
    | some c =>
      exact .of_eq (pidView_setTask k c _ rfl Iff.rfl)
  · dsimp only
    cases hnext : nextReady (preempt k rsp) with
    | none =>
      dsimp only
      rw [pidView_loadCr3, resume_view, preempt_view]
      exact .idle
    | some j =>
      have hready : ((preempt k rsp).tasks j).state = .ready := by
        have := List.find?_some hnext
        simpa using this
      have hlive : k.pidView.live j = true := by
        rw [← preempt_view k rsp]
        simp [Kernel.pidView, hready]
      have hview : (loadContext ((preempt k rsp).resume j) j).pidView =
          ((preempt k rsp).resume j).pidView := rfl
      dsimp only
      rw [hview, resume_view, preempt_view,
        show Function.update k.pidView.live j true = k.pidView.live from
          Function.update_eq_self_iff.mpr hlive.symm]
      exact .switch j hlive

/-- What one call does to the view: a creation that reaches `alloc_pid` fills
the first free slot, and every other call makes a `PidMove`. -/
theorem taskStep_view {k k' : Kernel} {o : TaskOp} (h : taskStep k o = some k') :
    (Creates k o ∧ ∃ t, firstFree k = some t ∧ k'.pidView = k.pidView.create t) ∨
      (¬ Creates k o ∧ PidMove k.pidView k'.pidView) := by
  cases o with
  | createUser env =>
    cases h
    rcases taskCreateUser_view k env with h | ⟨hnot, -, hview⟩
    · exact Or.inl h
    · exact Or.inr ⟨hnot, .of_eq hview⟩
  | fork env =>
    cases h
    rcases taskFork_view k env with h | ⟨hnot, -, hview⟩
    · exact Or.inl h
    · exact Or.inr ⟨hnot, .of_eq hview⟩
  | exit code => exact Or.inr ⟨id, taskExit_move h⟩
  | kill pid sig =>
    obtain ⟨r, hkill, rfl⟩ := Option.map_eq_some_iff.mp h
    exact Or.inr ⟨id, taskKill_move hkill⟩
  | sigaction sig act =>
    cases h
    exact Or.inr ⟨id, .of_eq (taskSigaction_view k sig act)⟩
  | schedule rsp =>
    cases h
    exact Or.inr ⟨id, schedule_move k rsp⟩

/-! ## The retry loop -/

theorem pidWords_eq : PID_WORDS = 1 := rfl

/-- With the counter on a free pid below 32 the loop takes it at once. -/
theorem allocPidLoop_low {n : Nat} {bitmap : BitVec 32} (attempts : Nat) (hn : n < 32)
    (hfree : bitmap.getLsbD n = false) :
    allocPidLoop (attempts + 1) n bitmap = ((n : Int), n + 1, bitmap ||| BitVec.twoPow 32 n) := by
  have hword : n / 32 = 0 := by omega
  have hbit : n % 32 = n := by omega
  have hcount : ¬ n ≥ 1000000 := by omega
  simp [allocPidLoop, PID_WORDS, hcount, hword, hbit, hfree]

/-- With the counter beyond the bitmap every round only moves the counter. -/
theorem allocPidLoop_high (bitmap : BitVec 32) (attempts : Nat) {n : Nat} (hn : 32 ≤ n)
    (hmax : n + attempts ≤ 1000000) :
    allocPidLoop attempts n bitmap = (-1, n + attempts, bitmap) := by
  induction attempts generalizing n with
  | zero => rfl
  | succ attempts ih =>
    have hcount : ¬ n ≥ 1000000 := by omega
    have hword : n / 32 ≥ PID_WORDS := by
      rw [pidWords_eq]
      omega
    rw [allocPidLoop, if_neg hcount, if_pos hword, ih (by omega) (by omega)]
    simp only [Prod.mk.injEq, true_and, and_true]
    omega

/-- `free_pid` of a pid below 32 clears its bit and no other. -/
theorem clearPid_getLsbD (bitmap : BitVec 32) {pid : Int} (hpos : 0 ≤ pid) (hlt : pid < 32)
    (b : Nat) :
    (clearPid bitmap pid).getLsbD b = (bitmap.getLsbD b && decide (b ≠ pid.toNat)) := by
  have hword : pid.tdiv 32 < (PID_WORDS : Int) := by
    rw [pidWords_eq, Int.tdiv_eq_ediv_of_nonneg hpos]
    omega
  have hbit : ((pid.tmod 32) % 32).toNat = pid.toNat := by
    rw [Int.tmod_eq_emod_of_nonneg hpos]
    omega
  rw [clearPid, if_pos hword, hbit, BitVec.getLsbD_and, BitVec.getLsbD_not,
    BitVec.getLsbD_twoPow]
  by_cases hb : b < 32
  · by_cases he : b = pid.toNat
    · simp [he]
    · simp [hb, he, Ne.symm he]
  · have hout : bitmap.getLsbD b = false := BitVec.getLsbD_of_ge _ _ (by omega)
    simp [hout]

/-! ## The invariant -/

/-- The slots whose pid a later call may still use: the live ones, and the
current one, which `SIGTERM` can free while it runs. -/
def PidView.Held (v : PidView) (i : Fin MAX_TASKS) : Prop :=
  v.live i = true ∨ v.current = some i

/-- The invariant of the runs in which every creation gets a pid.  Pids are
handed out in increasing order and never come back. -/
structure PidInv (v : PidView) : Prop where
  kernelPid : v.pid 0 = 0
  kernelLive : v.live 0 = true
  range : ∀ i, v.Held i → 0 ≤ v.pid i ∧ v.pid i < v.nextPid
  distinct : ∀ i j, v.Held i → v.Held j → v.pid i = v.pid j → i = j
  marked : ∀ i, v.live i = true → v.bitmap.getLsbD (v.pid i).toNat = true
  counter : 1 ≤ v.nextPid ∧ v.nextPid ≤ 32
  fresh : ∀ b, v.nextPid ≤ b → b < 32 → v.bitmap.getLsbD b = false

theorem pidInv_taskInit (k : Kernel) (rsp cr3 : Nat) : PidInv (taskInit k rsp cr3).pidView := by
  have hheld : ∀ i, (taskInit k rsp cr3).pidView.Held i → i = 0 := by
    intro i hi
    by_contra hne
    rcases hi with hi | hi
    · simp [Kernel.pidView, taskInit, Kernel.setTask, hne] at hi
    · simp [Kernel.pidView, taskInit] at hi
      exact hne hi.symm
  have hpid : (taskInit k rsp cr3).pidView.pid 0 = 0 := by
    simp [Kernel.pidView, taskInit, Kernel.setTask]
  refine ⟨hpid, by simp [Kernel.pidView, taskInit, Kernel.setTask], ?_, ?_, ?_, ?_, ?_⟩
  · intro i hi
    rw [hheld i hi, hpid]
    exact ⟨by omega, by simp [Kernel.pidView, taskInit]⟩
  · intro i j hi hj _
    rw [hheld i hi, hheld j hj]
  · intro i hi
    rw [hheld i (Or.inl hi), hpid]
    simp [Kernel.pidView, taskInit]
  · simp [Kernel.pidView, taskInit]
  · intro b hb _
    have h1 : 1 ≤ b := hb
    simp only [Kernel.pidView, taskInit]
    simp
    omega

/-- Moving the current slot to a live one keeps the invariant. -/
theorem PidInv.switch {v : PidView} (h : PidInv v) {j : Fin MAX_TASKS} (hj : v.live j = true) :
    PidInv { v with current := some j } := by
  have hheld : ∀ i, PidView.Held { v with current := some j } i → v.Held i := by
    rintro i (hi | hi)
    · exact Or.inl hi
    · cases hi
      exact Or.inl hj
  exact ⟨h.kernelPid, h.kernelLive, fun i hi => h.range i (hheld i hi),
    fun i k hi hk => h.distinct i k (hheld i hi) (hheld k hk), h.marked, h.counter, h.fresh⟩

/-- Freeing a held slot other than the kernel task clears a bit that no other
held slot uses. -/
theorem PidInv.release {v : PidView} (h : PidInv v) {i : Fin MAX_TASKS} (hi : v.Held i)
    (hpid : v.pid i ≠ 0) :
    PidInv { v with
      bitmap := clearPid v.bitmap (v.pid i)
      live := Function.update v.live i false } := by
  obtain ⟨hpos, hlt⟩ := h.range i hi
  have hcounter := h.counter
  have hclear := clearPid_getLsbD v.bitmap hpos (by omega)
  have hlive : ∀ j, Function.update v.live i false j = true → j ≠ i ∧ v.live j = true := by
    intro j hj
    by_cases hji : j = i
    · subst hji
      simp at hj
    · rw [Function.update_of_ne hji] at hj
      exact ⟨hji, hj⟩
  have hheld : ∀ j, PidView.Held { v with
      bitmap := clearPid v.bitmap (v.pid i)
      live := Function.update v.live i false } j → v.Held j := by
    rintro j (hj | hj)
    · exact Or.inl (hlive j hj).2
    · exact Or.inr hj
  have hkernel : (0 : Fin MAX_TASKS) ≠ i := by
    rintro rfl
    exact hpid h.kernelPid
  refine ⟨h.kernelPid, ?_, fun j hj => h.range j (hheld j hj),
    fun j l hj hl => h.distinct j l (hheld j hj) (hheld l hl), ?_, h.counter, ?_⟩
  · exact (Function.update_of_ne hkernel _ _).trans h.kernelLive
  · intro j hj
    obtain ⟨hji, hj⟩ := hlive j hj
    have hne : (v.pid j).toNat ≠ (v.pid i).toNat := by
      intro he
      have hrange := h.range j (Or.inl hj)
      exact hji (h.distinct j i (Or.inl hj) hi (by omega))
    show (clearPid v.bitmap (v.pid i)).getLsbD _ = true
    rw [hclear, h.marked j hj]
    simp [hne]
  · intro b hb hb32
    show (clearPid v.bitmap (v.pid i)).getLsbD b = false
    rw [hclear, h.fresh b hb hb32]
    rfl

theorem PidInv.move {v v' : PidView} (h : PidInv v) (hmove : PidMove v v') : PidInv v' := by
  have hupdate : ∀ f : Fin MAX_TASKS → Bool, f 0 = true → Function.update f 0 true = f :=
    fun f hf => Function.update_eq_self_iff.mpr hf.symm
  cases hmove with
  | stay => exact h
  | switch j hj => exact h.switch hj
  | idle =>
    rw [hupdate _ h.kernelLive]
    exact h.switch h.kernelLive
  | exit c hc hpid =>
    have hrel := h.release (Or.inr hc) hpid
    rw [hupdate _ hrel.kernelLive]
    exact hrel.switch hrel.kernelLive
  | kill i hi hpid => exact h.release (Or.inl hi) (by omega)

/-- A creation while the counter is below 32 gives the free slot the pid under
the counter. -/
theorem PidInv.create {v : PidView} (h : PidInv v) {t : Fin MAX_TASKS} (ht : v.live t = false)
    (hn : v.nextPid < 32) : PidInv (v.create t) := by
  have hloop := allocPidLoop_low (MAX_TASKS * 2 - 1) hn (h.fresh _ (le_refl _) hn)
  have hcreate : v.create t =
      { v with
        pid := Function.update v.pid t v.nextPid
        live := Function.update v.live t true
        nextPid := v.nextPid + 1
        bitmap := v.bitmap ||| BitVec.twoPow 32 v.nextPid } := by
    unfold PidView.create
    rw [show MAX_TASKS * 2 = MAX_TASKS * 2 - 1 + 1 from rfl, hloop]
  have hkernel : (0 : Fin MAX_TASKS) ≠ t := by
    rintro rfl
    rw [h.kernelLive] at ht
    exact absurd ht (by simp)
  have hheld : ∀ j, j ≠ t → (v.create t).Held j → v.Held j := by
    intro j hj hheld
    rw [hcreate] at hheld
    rcases hheld with hl | hc
    · exact Or.inl (by simpa [hj] using hl)
    · exact Or.inr hc
  have hself : (v.create t).pid t = v.nextPid := by simp [hcreate]
  have hother : ∀ j, j ≠ t → (v.create t).pid j = v.pid j := by
    intro j hj
    simp [hcreate, hj]
  have hnext : (v.create t).nextPid = v.nextPid + 1 := by rw [hcreate]
  have hcounter := h.counter
  have hbits : ∀ b, (v.create t).bitmap.getLsbD b =
      (v.bitmap.getLsbD b || decide (v.nextPid < 32) && decide (v.nextPid = b)) := by
    intro b
    rw [hcreate, BitVec.getLsbD_or, BitVec.getLsbD_twoPow]
  refine ⟨(hother 0 hkernel).trans h.kernelPid, ?_, ?_, ?_, ?_, ?_, ?_⟩
  · simp [hcreate, hkernel, h.kernelLive]
  · intro j hj
    by_cases hjt : j = t
    · rw [hjt, hself, hnext]
      omega
    · have := h.range j (hheld j hjt hj)
      rw [hother j hjt, hnext]
      omega
  · intro i j hi hj heq
    by_cases hit : i = t
    · by_cases hjt : j = t
      · rw [hit, hjt]
      · have := h.range j (hheld j hjt hj)
        rw [hit, hself, hother j hjt] at heq
        omega
    · have hri := h.range i (hheld i hit hi)
      by_cases hjt : j = t
      · rw [hjt, hself, hother i hit] at heq
        omega
      · rw [hother i hit, hother j hjt] at heq
        exact h.distinct i j (hheld i hit hi) (hheld j hjt hj) heq
  · intro j hj
    rw [hbits]
    by_cases hjt : j = t
    · rw [hjt, hself]
      simp [hn]
    · have hlive : v.live j = true := by simpa [hcreate, hjt] using hj
      rw [hother j hjt, h.marked j hlive]
      rfl
  · rw [hnext]
    omega
  · intro b hb hb32
    rw [hnext] at hb
    rw [hbits, h.fresh b (by omega) hb32]
    simp
    omega

/-! ## Whole runs -/

/-- The bit of `pid` is set in `pid_bitmap`. -/
def PidMarked (k : Kernel) (pid : Int) : Prop :=
  pid.toNat / 32 < PID_WORDS ∧ k.pidBitmap.getLsbD (pid.toNat % 32) = true

/-- Live tasks have distinct, non-negative and marked pids. -/
structure PidsDistinct (k : Kernel) : Prop where
  distinct : ∀ i j, (k.tasks i).state ≠ .free → (k.tasks j).state ≠ .free →
    (k.tasks i).pid = (k.tasks j).pid → i = j
  marked : ∀ i, (k.tasks i).state ≠ .free → 0 ≤ (k.tasks i).pid ∧ PidMarked k (k.tasks i).pid

/-- If this call is a creation and `alloc_pid` fails, no slot becomes live. -/
def NoTaskWithoutPid (k : Kernel) (o : TaskOp) : Prop :=
  ∀ k', taskStep k o = some k' → Creates k o → (allocPid k).1 = -1 →
    ∀ i, (k'.tasks i).state ≠ .free → (k.tasks i).state ≠ .free

/-- The identities are sound over the whole run. -/
def PidsSound (k : Kernel) (os : List TaskOp) : Prop :=
  (∀ s ∈ visited taskStep k os, PidsDistinct s) ∧ Guarded taskStep NoTaskWithoutPid k os

/-- A creation that reaches `alloc_pid` finds `next_pid` inside the bitmap. -/
def PidLeft (k : Kernel) (o : TaskOp) : Prop :=
  Creates k o → k.nextPid < 32

theorem PidInv.pidsDistinct {k : Kernel} (h : PidInv k.pidView) : PidsDistinct k := by
  have hlive : ∀ i, (k.tasks i).state ≠ .free → k.pidView.live i = true :=
    fun i hi => by simpa [Kernel.pidView] using hi
  refine ⟨fun i j hi hj => h.distinct i j (Or.inl (hlive i hi)) (Or.inl (hlive j hj)), ?_⟩
  intro i hi
  obtain ⟨hpos, hlt⟩ := h.range i (Or.inl (hlive i hi))
  have hmarked := h.marked i (hlive i hi)
  have hcounter := h.counter
  have hsmall : (k.tasks i).pid.toNat < 32 := by
    have : k.pidView.pid i = (k.tasks i).pid := rfl
    omega
  refine ⟨hpos, ?_, ?_⟩
  · rw [pidWords_eq]
    omega
  · rw [Nat.mod_eq_of_lt hsmall]
    exact hmarked

theorem firstFree_not_live {k : Kernel} {t : Fin MAX_TASKS} (h : firstFree k = some t) :
    k.pidView.live t = false := by
  simp [Kernel.pidView, firstFree_some h]

/-- One call that meets `PidLeft` keeps the invariant. -/
theorem PidInv.step {k k' : Kernel} {o : TaskOp} (h : PidInv k.pidView) (hleft : PidLeft k o)
    (hstep : taskStep k o = some k') : PidInv k'.pidView := by
  rcases taskStep_view hstep with ⟨hcreates, t, hfree, hview⟩ | ⟨-, hmove⟩
  · rw [hview]
    exact h.create (firstFree_not_live hfree) (hleft hcreates)
  · exact h.move hmove

/-- With the counter inside the bitmap `alloc_pid` does not fail. -/
theorem PidInv.allocPid_ne {k : Kernel} (h : PidInv k.pidView) (hn : k.nextPid < 32) :
    (allocPid k).1 ≠ -1 := by
  have hloop := allocPidLoop_low (MAX_TASKS * 2 - 1) hn (h.fresh _ (le_refl _) hn)
  have : (allocPid k).1 = k.nextPid := congrArg Prod.fst hloop
  omega

/-- A creation with the counter beyond the bitmap makes a live task with a
negative pid. -/
theorem PidInv.not_distinct {k k' : Kernel} {o : TaskOp} (h : PidInv k.pidView)
    (hleft : ¬ PidLeft k o) (hstep : taskStep k o = some k') : ¬ PidsDistinct k' := by
  obtain ⟨hcreates, hn⟩ := Classical.not_imp.mp hleft
  rcases taskStep_view hstep with ⟨-, t, -, hview⟩ | ⟨hnot, -⟩
  · have hcounter : k.pidView.nextPid = 32 := by
      have := h.counter
      have : k.pidView.nextPid = k.nextPid := rfl
      omega
    have hloop := allocPidLoop_high k.pidView.bitmap (MAX_TASKS * 2) (le_refl 32) (by decide)
    have hpid : k'.pidView.pid t = -1 := by
      rw [hview]
      simp [PidView.create, hcounter, hloop]
    have hlive : k'.pidView.live t = true := by
      rw [hview]
      simp [PidView.create]
    intro hd
    have hmarked := (hd.marked t (by simpa [Kernel.pidView] using hlive)).1
    have : (k'.tasks t).pid = -1 := hpid
    omega
  · exact absurd hcreates hnot

private theorem pidsSound_iff_aux (os : List TaskOp) :
    ∀ k : Kernel, PidInv k.pidView → (PidsSound k os ↔ Guarded taskStep PidLeft k os) := by
  -- The invariant holds up to the first creation that gets no pid, and that
  -- creation makes both sides false.
  induction os with
  | nil =>
    intro k h
    simp only [PidsSound, visited, Guarded, List.mem_singleton, forall_eq, and_true, iff_true]
    exact h.pidsDistinct
  | cons o os ih =>
    intro k h
    cases hstep : taskStep k o with
    | none =>
      simp only [PidsSound, visited, Guarded, hstep, List.mem_singleton, forall_eq, and_true,
        iff_true]
      exact h.pidsDistinct
    | some k' =>
      have hsplit : PidsSound k (o :: os) ↔
          PidsDistinct k ∧ NoTaskWithoutPid k o ∧ PidsSound k' os := by
        simp only [PidsSound, visited, Guarded, hstep, List.mem_cons, forall_eq_or_imp]
        tauto
      have hguard : Guarded taskStep PidLeft k (o :: os) ↔
          PidLeft k o ∧ Guarded taskStep PidLeft k' os := by
        simp only [Guarded, hstep]
      rw [hsplit, hguard]
      by_cases hleft : PidLeft k o
      · have hnext := ih k' (h.step hleft hstep)
        have hno : NoTaskWithoutPid k o := fun _ _ hcreates hfail =>
          absurd hfail (h.allocPid_ne (hleft hcreates))
        have hd := h.pidsDistinct
        tauto
      · have hbad := h.not_distinct hleft hstep
        have hvisit : k' ∈ visited taskStep k' os := by
          cases os with
          | nil => simp [visited]
          | cons o' os =>
            rw [visited]
            split <;> simp
        constructor
        · rintro ⟨-, -, hsound, -⟩
          exact absurd (hsound k' hvisit) hbad
        · rintro ⟨hl, -⟩
          exact absurd hl hleft

/-- From `task_init` on, the identities of a run are sound exactly when every
creation that reaches `alloc_pid` finds `next_pid` below 32. -/
theorem pidsSound_iff (k : Kernel) (rsp cr3 : Nat) (os : List TaskOp) :
    PidsSound (taskInit k rsp cr3) os ↔ Guarded taskStep PidLeft (taskInit k rsp cr3) os :=
  pidsSound_iff_aux os _ (pidInv_taskInit k rsp cr3)

/-- The table before `task_init`: static storage, all zero. -/
def bootKernel : Kernel where
  tasks _ :=
    { pid := 0, state := .free, kernelRsp := 0, kernelCr3 := 0, pml4 := none, brk := 0,
      kstackPage := none, ustackPage := none, exitCode := 0, parentPid := 0, fds := fun _ => none,
      cwd := [], sigPending := 0, sigBlocked := 0,
      sigActions := fun _ => { saHandler := .dfl, saMask := 0, saFlags := 0 } }
  nextPid := 1
  taskCount := 0
  currentIdx := 0
  pidBitmap := 0
  currentTask := none
  cr3 := 0
  kstackTop := 0

/-- One `task_create_user` for which every call it makes succeeds. -/
def spawnOk : TaskOp :=
  .createUser
    { opened := true, pml4 := some 0x5000, entry := 0x8000000000
      kstack := some 0x6000, ustack := some 0xA000, mapped := true }

/-- Thirty-one tasks that are created and killed one after the other, and one
more creation. -/
def pidExhaustion : List TaskOp :=
  ((List.range 31).flatMap fun n => [spawnOk, .kill (n + 1) SIGKILL]) ++ [spawnOk]

/-- After thirty-one short-lived tasks the next creation makes a live task with
pid `-1`, while all slots but two are free. -/
theorem pidExhaustion_not_sound :
    ∃ s, Reach taskStep (fun _ _ => True) (taskInit bootKernel 0 0) s ∧ ¬ PidsDistinct s := by
  have hrun : (run taskStep (taskInit bootKernel 0 0) pidExhaustion).map
      (fun k => ((k.tasks 1).state, (k.tasks 1).pid)) = some (.ready, -1) := by
    decide +kernel
  obtain ⟨s, hs, hslot⟩ := Option.map_eq_some_iff.mp hrun
  refine ⟨s, reach_of_run hs, fun hd => ?_⟩
  obtain ⟨hstate, hpid⟩ := Prod.mk.inj hslot
  have := (hd.marked 1 (by rw [hstate]; simp)).1
  omega

end Lumin.Proc
