import Lumin.Lib.RoundRobin
import Lumin.Proc.Inheritance
import Lumin.Proc.Switch

/-!
# Round-robin scheduling

`schedule` goes to the next `TASK_READY` slot behind the current one.  Repeated
calls are a rotation over the slots that are ready or running, so that every ready
task gets its turn within `MAX_TASKS - 1` calls and exactly once between two turns
of another.
-/

namespace Lumin.Proc

open Lumin.Lib.RoundRobin

variable {k : Kernel} {j : Fin MAX_TASKS} {t t' : Nat}

/-- The slots that take part: the ready ones, and the current one if it runs. -/
def Takes (k : Kernel) (j : Fin MAX_TASKS) : Prop :=
  (k.tasks j).state = .ready ∨ (j = k.currentIdx ∧ (k.tasks j).state = .running)

/-- The state after `n` calls of `schedule`; call `i` finds the stack pointer `rsp i`. -/
def afterCalls (k : Kernel) (rsp : Nat → Nat) : Nat → Kernel
  | 0 => k
  | n + 1 => (schedule (afterCalls k rsp n) (rsp n)).2

/-- What repeated calls keep. -/
structure Scheduling (k : Kernel) : Prop where
  count : 1 < k.taskCount
  current : k.currentTask = some k.currentIdx

theorem offset_eq (c : Fin MAX_TASKS) {i : Nat} (hi : i < MAX_TASKS - 1) :
    gap c (c + Fin.ofNat MAX_TASKS (i + 1)) = i + 1 := by
  unfold gap
  rw [add_sub_cancel_left]
  exact Nat.mod_eq_of_lt (by omega)

theorem eq_offset (c j : Fin MAX_TASKS) : j = c + Fin.ofNat MAX_TASKS (gap c j) := by
  have : Fin.ofNat MAX_TASKS (gap c j) = j - c := Fin.ext (Nat.mod_eq_of_lt (gap_lt c j))
  rw [this, add_sub_cancel]

/-- The search loop of `schedule` finds the next ready slot behind the current one. -/
theorem nextReady_spec (k : Kernel) :
    (∀ j, nextReady k = some j → IsNext (fun j => (k.tasks j).state = .ready) k.currentIdx j) ∧
      (nextReady k = none → ∀ j, (k.tasks j).state = .ready → j = k.currentIdx) := by
  unfold nextReady
  rw [List.find?_map]
  refine ⟨fun j hfind => ?_, fun hnone j hready => ?_⟩
  · obtain ⟨i, hi, rfl⟩ := Option.map_eq_some_iff.mp hfind
    rw [List.find?_range_eq_some] at hi
    obtain ⟨hready, hmem, hfirst⟩ := hi
    have hlt := List.mem_range.mp hmem
    have hgap := offset_eq k.currentIdx hlt
    refine ⟨of_decide_eq_true hready, fun heq => ?_, fun j hj hne => ?_⟩
    · rw [heq, gap_eq] at hgap
      simp at hgap
    · rw [hgap]
      by_contra hless
      have hpos := gap_pos hne
      have hnot := hfirst (gap k.currentIdx j - 1) (by omega)
      simp only [Function.comp_apply, show gap k.currentIdx j - 1 + 1 =
        gap k.currentIdx j by omega,
        ← eq_offset, hj] at hnot
      simp at hnot
  · by_contra hne
    have hpos := gap_pos hne
    have hlt := gap_lt k.currentIdx j
    rw [Option.map_eq_none_iff, List.find?_eq_none] at hnone
    have hnot := hnone (gap k.currentIdx j - 1) (List.mem_range.mpr (by omega))
    simp only [Function.comp_apply, show gap k.currentIdx j - 1 + 1 = gap k.currentIdx j by omega,
      ← eq_offset, hready] at hnot
    simp at hnot

/-! ## One call -/

theorem preempt_same (k : Kernel) (rsp : Nat) :
    (preempt k rsp).currentIdx = k.currentIdx ∧ (preempt k rsp).taskCount = k.taskCount := by
  unfold preempt
  split
  · exact ⟨rfl, rfl⟩
  · split <;> exact ⟨rfl, rfl⟩

/-- After `preempt` the slots that take part are the ready ones. -/
theorem preempt_ready (hcur : k.currentTask = some k.currentIdx) (rsp : Nat) (j : Fin MAX_TASKS) :
    ((preempt k rsp).tasks j).state = .ready ↔ Takes k j := by
  unfold preempt Takes
  rw [hcur]
  dsimp only
  by_cases hrun : (k.tasks k.currentIdx).state = .running
  · rw [if_pos hrun]
    by_cases hj : j = k.currentIdx
    · subst hj
      rw [setTask_same]
      exact iff_of_true rfl (.inr ⟨rfl, hrun⟩)
    · rw [setTask_ne _ _ hj]
      exact ⟨.inl, fun h => h.resolve_right fun h => hj h.1⟩
  · rw [if_neg hrun]
    exact ⟨.inl, fun h => h.resolve_right fun h => hrun (h.1 ▸ h.2)⟩

/-- The slot that a call makes run: the next one that takes part, if there is one
besides the current slot. -/
theorem schedule_selects (h : Scheduling k) (rsp : Nat) :
    (∀ j, Takes k j → j ≠ k.currentIdx →
      IsNext (Takes k) k.currentIdx (schedule k rsp).2.currentIdx) ∧
      (schedule k rsp).2.taskCount = k.taskCount ∧
      (schedule k rsp).2.currentTask = some (schedule k rsp).2.currentIdx ∧
      (schedule k rsp).2.tasks =
        ((preempt k rsp).resume (schedule k rsp).2.currentIdx).tasks := by
  obtain ⟨hidx, hcount⟩ := preempt_same k rsp
  have hready : (fun j => ((preempt k rsp).tasks j).state = .ready) = Takes k :=
    funext fun j => propext (preempt_ready h.current rsp j)
  obtain ⟨hsome, hnone⟩ := nextReady_spec (preempt k rsp)
  unfold schedule
  rw [if_neg (not_le.mpr h.count)]
  dsimp only
  split
  next i hfind =>
    have hnext := hsome i hfind
    rw [hready, hidx] at hnext
    exact ⟨fun _ _ _ => hnext, hcount, rfl, rfl⟩
  next hfind =>
    refine ⟨fun j hj hne => ?_, hcount, rfl, rfl⟩
    exact absurd ((hnone hfind j ((preempt_ready h.current rsp j).mpr hj)).trans hidx) hne

theorem Scheduling.schedule (h : Scheduling k) (rsp : Nat) : Scheduling (schedule k rsp).2 := by
  obtain ⟨-, hcount, hcur, -⟩ := schedule_selects h rsp
  exact ⟨hcount ▸ h.count, hcur⟩

/-- The slot that a call selects runs. -/
theorem schedule_runs (h : Scheduling k) (rsp : Nat) :
    ((Proc.schedule k rsp).2.tasks (Proc.schedule k rsp).2.currentIdx).state = .running := by
  obtain ⟨-, -, -, htasks⟩ := schedule_selects h rsp
  rw [htasks]
  show (((preempt k rsp).setTask _ _).tasks _).state = _
  rw [setTask_same]

/-- Every slot that takes part goes on taking part. -/
theorem takes_schedule (h : Scheduling k) (rsp : Nat) (hj : Takes k j) :
    Takes (Proc.schedule k rsp).2 j := by
  by_cases hcur : j = (Proc.schedule k rsp).2.currentIdx
  · exact .inr ⟨hcur, hcur ▸ schedule_runs h rsp⟩
  · obtain ⟨-, -, -, htasks⟩ := schedule_selects h rsp
    refine .inl ?_
    rw [htasks]
    show (((preempt k rsp).setTask _ _).tasks j).state = _
    rw [setTask_ne _ _ hcur]
    exact (preempt_ready h.current rsp j).mpr hj

/-! ## Repeated calls -/

theorem Scheduling.afterCalls (h : Scheduling k) (rsp : Nat → Nat) (n : Nat) :
    Scheduling (afterCalls k rsp n) := by
  induction n with
  | zero => exact h
  | succ n ih => exact ih.schedule (rsp n)

/-- Repeated calls are a rotation. -/
theorem rotation_afterCalls (h : Scheduling k) (rsp : Nat → Nat) :
    Rotation (fun n => (afterCalls k rsp n).currentIdx) (fun n => Takes (afterCalls k rsp n))
      where
  next n j hj hne := (schedule_selects (h.afterCalls rsp n) (rsp n)).1 j hj hne
  keeps n _ hj := takes_schedule (h.afterCalls rsp n) (rsp n) hj

theorem afterCalls_running (h : Scheduling k) (rsp : Nat → Nat) (hn : 1 ≤ t) :
    ((afterCalls k rsp t).tasks (afterCalls k rsp t).currentIdx).state = .running := by
  obtain ⟨t, rfl⟩ := Nat.exists_eq_add_one_of_ne_zero (show t ≠ 0 by omega)
  exact schedule_runs (h.afterCalls rsp t) (rsp t)

theorem current_iff (h : Scheduling k) (rsp : Nat → Nat) (n : Nat) (j : Fin MAX_TASKS) :
    (afterCalls k rsp n).currentTask = some j ↔ (afterCalls k rsp n).currentIdx = j := by
  rw [(h.afterCalls rsp n).current, Option.some.injEq]

/-- **Round robin reaches every ready task.**  With more than one task, a ready slot is
selected within `MAX_TASKS - 1` calls of `schedule`, and between two successive
selections of a slot every slot that is ready after the first of them is selected
exactly once. -/
theorem roundRobin (k : Kernel) (rsp : Nat → Nat) (hcount : 1 < k.taskCount)
    (hcur : k.currentTask = some k.currentIdx) :
    (∀ j, j ≠ k.currentIdx → (k.tasks j).state = .ready →
      ∃ n, 1 ≤ n ∧ n ≤ MAX_TASKS - 1 ∧ (afterCalls k rsp n).currentTask = some j) ∧
    ∀ s t t', 1 ≤ t → t < t' → (afterCalls k rsp t).currentTask = some s →
      (afterCalls k rsp t').currentTask = some s →
      (∀ u, t < u → u < t' → (afterCalls k rsp u).currentTask ≠ some s) →
      ∀ j, ((afterCalls k rsp t).tasks j).state = .ready →
        ∃! u, (t < u ∧ u < t') ∧ (afterCalls k rsp u).currentTask = some j := by
  have h : Scheduling k := ⟨hcount, hcur⟩
  have hrot := rotation_afterCalls h rsp
  simp only [current_iff h rsp, ne_eq]
  constructor
  · intro j hne hready
    obtain ⟨n, hn, hlt, hsel, -⟩ := hrot.reaches (t := 0) (.inl hready) hne
    rw [Nat.zero_add] at hsel
    exact ⟨n, hn, by omega, hsel⟩
  · rintro s t t' ht hlt rfl hagain haway j hready
    have hrun := afterCalls_running h rsp ht
    refine hrot.once hlt (.inr ⟨rfl, hrun⟩) hagain haway (.inl hready) ?_
    rintro rfl
    rw [hrun] at hready
    cases hready

/-- The kernel task and two user tasks that are ready. -/
def twoReady : Kernel := (taskCreateUser oneUserTask createOk).2

theorem roundRobin_twoReady :
    (∀ j, j ≠ 0 → (twoReady.tasks j).state = .ready →
      ∃ n, 1 ≤ n ∧ n ≤ MAX_TASKS - 1 ∧ (afterCalls twoReady (fun _ => 0) n).currentTask = some j)
          ∧
    ∀ s t t', 1 ≤ t → t < t' → (afterCalls twoReady (fun _ => 0) t).currentTask = some s →
      (afterCalls twoReady (fun _ => 0) t').currentTask = some s →
      (∀ u, t < u → u < t' → (afterCalls twoReady (fun _ => 0) u).currentTask ≠ some s) →
      ∀ j, ((afterCalls twoReady (fun _ => 0) t).tasks j).state = .ready →
        ∃! u, (t < u ∧ u < t') ∧ (afterCalls twoReady (fun _ => 0) u).currentTask = some j :=
  roundRobin twoReady (fun _ => 0) (by decide +kernel) (by decide +kernel)

end Lumin.Proc
