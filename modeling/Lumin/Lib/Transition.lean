/-!
# Runs of a guarded step function

A component with state is modelled by a step function `σ → ο → Option σ`.  The
second argument is the operation together with every answer the operation gets
from the code it calls, so one step is deterministic.  `none` means that the
call does not come back.

`Reach step guard s₀` holds of the states that some run from `s₀` visits when
every step of that run meets `guard`.  `Reach.invariant` is the induction that
every safety result of the project goes through.  `run` executes a list of
operations, and `reach_of_run` says that an executed run is a run, so that a
concrete trace is a member of `Reach`.
-/

namespace Lumin.Lib

variable {σ ο : Type}

/-- The states that a run from `s₀` visits when each step meets `guard`. -/
inductive Reach (step : σ → ο → Option σ) (guard : σ → ο → Prop) (s₀ : σ) : σ → Prop where
  | start : Reach step guard s₀ s₀
  | next {s s' : σ} {o : ο} (hrun : Reach step guard s₀ s) (hguard : guard s o)
      (hstep : step s o = some s') : Reach step guard s₀ s'

/-- A property of the first state that every guarded step keeps is a property
of every state that a guarded run visits. -/
theorem Reach.invariant {step : σ → ο → Option σ} {guard : σ → ο → Prop} {s₀ s : σ}
    (Inv : σ → Prop) (hstart : Inv s₀)
    (hkeep : ∀ s o s', Inv s → guard s o → step s o = some s' → Inv s')
    (h : Reach step guard s₀ s) : Inv s := by
  induction h with
  | start => exact hstart
  | next _ hguard hstep ih => exact hkeep _ _ _ ih hguard hstep

/-- Execute the operations in order. -/
def run (step : σ → ο → Option σ) : σ → List ο → Option σ
  | s, [] => some s
  | s, o :: os => (step s o).bind fun s' => run step s' os

/-- Every state that a run visits, the first one included.  The list stops at
the first call that does not come back. -/
def visited (step : σ → ο → Option σ) : σ → List ο → List σ
  | s, [] => [s]
  | s, o :: os =>
    match step s o with
    | none => [s]
    | some s' => s :: visited step s' os

/-- Every step that a run takes meets `guard`. -/
def Guarded (step : σ → ο → Option σ) (guard : σ → ο → Prop) : σ → List ο → Prop
  | _, [] => True
  | s, o :: os =>
    match step s o with
    | none => True
    | some s' => guard s o ∧ Guarded step guard s' os

/-- Two guards that agree where an invariant of the steps holds are met by the same
runs. -/
theorem guarded_congr {step : σ → ο → Option σ} {P Q : σ → ο → Prop} (Inv : σ → Prop) {s : σ}
    (hstart : Inv s) (hkeep : ∀ s o s', Inv s → step s o = some s' → Inv s')
    (hiff : ∀ s o, Inv s → (P s o ↔ Q s o)) (os : List ο) :
    Guarded step P s os ↔ Guarded step Q s os := by
  induction os generalizing s with
  | nil => exact Iff.rfl
  | cons o os ih =>
    rw [Guarded, Guarded]
    cases hstep : step s o with
    | none => exact Iff.rfl
    | some s' => exact and_congr (hiff s o hstart) (ih (hkeep s o s' hstart hstep))

/-- The guard of a step in the middle of a guarded run. -/
theorem guarded_at {step : σ → ο → Option σ} {guard : σ → ο → Prop} {s s' s'' : σ} {o : ο}
    {os os' : List ο} (h : Guarded step guard s (os ++ o :: os')) (hrun : run step s os = some s')
    (hstep : step s' o = some s'') : guard s' o := by
  induction os generalizing s with
  | nil =>
    cases hrun
    rw [List.nil_append, Guarded, hstep] at h
    exact h.1
  | cons a as ih =>
    rw [run, Option.bind_eq_some_iff] at hrun
    obtain ⟨t, ht, hrest⟩ := hrun
    rw [List.cons_append, Guarded, ht] at h
    exact ih h.2 hrest

theorem mem_visited_start (step : σ → ο → Option σ) (s : σ) (os : List ο) :
    s ∈ visited step s os := by
  cases os with
  | nil => simp [visited]
  | cons o os =>
    rw [visited]
    split <;> simp

/-- A property that guarded steps keep and every other step breaks holds along a run
exactly if the run is guarded. -/
theorem visited_iff_guarded {step : σ → ο → Option σ} {guard : σ → ο → Prop} {Inv Good : σ → Prop}
    (hgood : ∀ s, Inv s → Good s)
    (hkeep : ∀ s o s', Inv s → guard s o → step s o = some s' → Inv s')
    (hbreak : ∀ s o s', Inv s → ¬ guard s o → step s o = some s' → ¬ Good s')
    {s : σ} (hs : Inv s) (os : List ο) :
    (∀ t ∈ visited step s os, Good t) ↔ Guarded step guard s os := by
  induction os generalizing s with
  | nil => simpa [visited, Guarded] using hgood s hs
  | cons o os ih =>
    rw [visited, Guarded]
    cases hstep : step s o with
    | none => simpa using hgood s hs
    | some s' =>
      simp only [List.mem_cons, forall_eq_or_imp]
      by_cases hguard : guard s o
      · rw [ih (hkeep s o s' hs hguard hstep)]
        exact ⟨fun h => ⟨hguard, h.2⟩, fun h => ⟨hgood s hs, h.2⟩⟩
      · refine iff_of_false (fun h => ?_) fun h => hguard h.1
        exact hbreak s o s' hs hguard hstep (h.2 s' (mem_visited_start step s' os))

theorem reach_trans {step : σ → ο → Option σ} {guard : σ → ο → Prop} {s₀ s s' : σ}
    (h : Reach step guard s₀ s) (h' : Reach step guard s s') : Reach step guard s₀ s' := by
  induction h' with
  | start => exact h
  | next _ hguard hstep ih => exact ih.next hguard hstep

/-- A run that executes is a run. -/
theorem reach_of_run {step : σ → ο → Option σ} {s s' : σ} {os : List ο}
    (h : run step s os = some s') : Reach step (fun _ _ => True) s s' := by
  induction os generalizing s with
  | nil =>
    cases h
    exact .start
  | cons o os ih =>
    rw [run, Option.bind_eq_some_iff] at h
    obtain ⟨t, hstep, hrest⟩ := h
    exact reach_trans (Reach.start.next trivial hstep) (ih hrest)

/-- A guarded run that executes is a guarded run. -/
theorem reach_of_guarded {step : σ → ο → Option σ} {guard : σ → ο → Prop} {s t : σ} {os : List ο}
    (h : Guarded step guard s os) (ht : run step s os = some t) : Reach step guard s t := by
  induction os generalizing s with
  | nil =>
    cases ht
    exact .start
  | cons o os ih =>
    rw [run, Option.bind_eq_some_iff] at ht
    obtain ⟨s', hstep, hrest⟩ := ht
    rw [Guarded, hstep] at h
    exact reach_trans (Reach.start.next h.1 hstep) (ih h.2 hrest)

end Lumin.Lib
