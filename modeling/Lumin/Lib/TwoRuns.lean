import Lumin.Lib.Transition

/-!
# Two runs of the same calls

A call on a state gives an answer and the next state.  `outputs_eq_of_related` is the
unwinding rule: if guarded calls give related states the same answer and leave them
related, two runs of the same calls from related states cannot be told apart.
-/

namespace Lumin.Lib

variable {σ ο α : Type} {call : σ → ο → Option (α × σ)} {guard : σ → ο → Prop} {R : σ → σ → Prop}

/-- The answers of the calls, up to the first one that does not come back. -/
def outputs (call : σ → ο → Option (α × σ)) : σ → List ο → List α
  | _, [] => []
  | s, o :: os =>
    match call s o with
    | none => []
    | some (a, s') => a :: outputs call s' os

/-- The state after a call. -/
def stateAfter (call : σ → ο → Option (α × σ)) (s : σ) (o : ο) : Option σ :=
  (call s o).map Prod.snd

theorem outputs_eq_of_related
    (hstep : ∀ s t o, R s t → guard s o →
      ∃ a s' t', call s o = some (a, s') ∧ call t o = some (a, t') ∧ R s' t')
    {s t : σ} (h : R s t) (hcomes : ∀ s t o, R s t → (call s o).isSome) {os : List ο}
    (hos : Guarded (stateAfter call) guard s os) : outputs call s os = outputs call t os := by
  induction os generalizing s t with
  | nil => rfl
  | cons o os ih =>
    obtain ⟨⟨a₀, s₀⟩, hcall₀⟩ := Option.isSome_iff_exists.mp (hcomes s t o h)
    have hstate : stateAfter call s o = some s₀ := by rw [stateAfter, hcall₀, Option.map_some]
    rw [Guarded, hstate] at hos
    obtain ⟨a, s', t', hcall, hcall', hrelated⟩ := hstep s t o h hos.1
    rw [hcall₀] at hcall
    obtain ⟨rfl, rfl⟩ := Prod.mk.inj (Option.some.inj hcall)
    rw [outputs, outputs, hcall₀, hcall']
    dsimp only
    rw [ih hrelated hos.2]

end Lumin.Lib
