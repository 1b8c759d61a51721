import Lumin.Lib.TwoRuns

/-!
# A run that follows a specification

A specification answers every call.  `follows_run` is the rule of forward simulation: if each
call that the guard of the specification admits is answered the same way and keeps the relation,
whole runs are.
-/

namespace Lumin.Lib

variable {σ τ ο α : Type}

/-- The answers of a specification. -/
def answers (spec : τ → ο → α × τ) : τ → List ο → List α
  | _, [] => []
  | t, o :: os => (spec t o).1 :: answers spec (spec t o).2 os

/-- The state of a specification after some calls. -/
def after (spec : τ → ο → α × τ) (t : τ) (os : List ο) : τ := os.foldl (fun t o => (spec t o).2) t

/-- Every call meets the guard in the state of the specification. -/
def Admits (spec : τ → ο → α × τ) (guard : τ → ο → Prop) : τ → List ο → Prop
  | _, [] => True
  | t, o :: os => guard t o ∧ Admits spec guard (spec t o).2 os

instance decidableAdmits (spec : τ → ο → α × τ) (guard : τ → ο → Prop)
    [∀ t, DecidablePred (guard t)] :
    ∀ t os, Decidable (Admits spec guard t os)
  | _, [] => isTrue trivial
  | t, o :: os =>
    have := decidableAdmits spec guard (spec t o).2 os
    inferInstanceAs (Decidable (guard t o ∧ Admits spec guard (spec t o).2 os))

variable {call : σ → ο → Option (α × σ)} {spec : τ → ο → α × τ} {guard : τ → ο → Prop}
  {R : τ → σ → Prop}

/-- Forward simulation: the run gives the answers of the specification and ends in a related
state. -/
theorem follows_run
    (hstep : ∀ t s o, R t s → guard t o → ∃ s', call s o = some ((spec t o).1, s') ∧
      R (spec t o).2 s')
    {t : τ} {s : σ} (h : R t s) {os : List ο} (hos : Admits spec guard t os) :
    outputs call s os = answers spec t os ∧ ∃ s', run (stateAfter call) s os = some s' ∧
      R (after spec t os) s' := by
  induction os generalizing t s with
  | nil => exact ⟨rfl, s, rfl, h⟩
  | cons o os ih =>
    obtain ⟨hguard, hrest⟩ := hos
    obtain ⟨s', hcall, hrelated⟩ := hstep t s o h hguard
    obtain ⟨hanswers, s'', hrun, hend⟩ := ih hrelated hrest
    refine ⟨?_, s'', ?_, hend⟩
    · rw [outputs, hcall, answers]
      dsimp only
      rw [hanswers]
    · rw [run, stateAfter, hcall, Option.map_some, Option.bind_some]
      exact hrun

end Lumin.Lib
