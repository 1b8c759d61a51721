import Mathlib.Logic.Relation

/-!
# Walks that may run in circles

A walk follows `next` as long as it stands on an element with `live`; nothing says
that it ends.  `Meets` is what it meets.  `meets_cut` is the rule for a walk that
cuts the link behind it: cutting the link of the first element takes only this
element out of what the rest of the walk meets.
-/

namespace Lumin.Lib

variable {α : Type} {live : α → Prop} {next next' : α → α} {v c : α}

/-- One step of a walk. -/
def StepsTo (live : α → Prop) (next : α → α) (a b : α) : Prop := live a ∧ next a = b

/-- The walk from `v` meets the live element `c`. -/
def Meets (live : α → Prop) (next : α → α) (v c : α) : Prop :=
  live c ∧ Relation.ReflTransGen (StepsTo live next) v c

theorem meets_self (hv : live v) : Meets live next v v := ⟨hv, .refl⟩

theorem not_meets_of_not_live (hv : ¬ live v) : ¬ Meets live next v c := by
  intro h
  cases Relation.ReflTransGen.cases_head h.2 with
  | inl heq => exact hv (heq ▸ h.1)
  | inr hstep =>
    obtain ⟨b, hb, -⟩ := hstep
    exact hv hb.1

/-- The walk goes on behind its first element as if the link of that element were cut:
coming back to it brings nothing new. -/
theorem meets_cut (hv : live v) (hcut : ¬ live (next' v)) (hsame : ∀ a, a ≠ v → live a →
    next' a = next a) :
    Meets live next v c ↔ c = v ∨ Meets live next' (next v) c := by
  constructor
  · intro h
    obtain ⟨hc, hpath⟩ := h
    induction hpath with
    | refl => exact Or.inl rfl
    | @tail b c _ hstep ih =>
      obtain ⟨hb, rfl⟩ := hstep
      by_cases heq : b = v
      · right
        rw [heq] at hc ⊢
        exact meets_self hc
      · cases ih hb with
        | inl h => exact absurd h heq
        | inr h => exact Or.inr ⟨hc, h.2.tail ⟨hb, hsame b heq hb⟩⟩
  · intro h
    cases h with
    | inl heq =>
      rw [heq]
      exact meets_self hv
    | inr h =>
      obtain ⟨hc, hpath⟩ := h
      refine ⟨hc, ?_⟩
      induction hpath with
      | refl => exact .single ⟨hv, rfl⟩
      | @tail b c _ hstep ih =>
        obtain ⟨hb, rfl⟩ := hstep
        -- The cut link leads to nothing live, so this step is an old one.
        have hne : b ≠ v := fun heq => hcut (heq ▸ hc)
        exact (ih hb).tail ⟨hb, (hsame b hne hb).symm⟩

end Lumin.Lib
