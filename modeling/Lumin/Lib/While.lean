import Mathlib.Tactic

/-!
# While loops

`whileLoop cond body` runs `body` while `cond` holds, for at most the given number of
turns.  There are two rules.  A loop whose condition holds in every state that it can reach
never ends (`whileLoop_never`), and a loop that lowers a measure ends in a state where its
condition fails (`whileLoop_ends`).
-/

namespace Lumin.Lib

variable {σ : Type} {cond : σ → Bool} {body : σ → σ} {s : σ}

/-- `while (cond) body`, given up after as many turns as there is fuel. -/
def whileLoop (cond : σ → Bool) (body : σ → σ) : Nat → σ → Option σ
  | 0, _ => none
  | fuel + 1, s => if cond s then whileLoop cond body fuel (body s) else some s

/-- A loop that keeps an invariant under which its condition holds never ends. -/
theorem whileLoop_never (Inv : σ → Prop) (hcond : ∀ s, Inv s → cond s = true)
    (hkeep : ∀ s, Inv s → Inv (body s))
    (h : Inv s) (fuel : Nat) : whileLoop cond body fuel s = none := by
  induction fuel generalizing s with
  | zero => rfl
  | succ fuel ih =>
    rw [whileLoop, if_pos (hcond s h)]
    exact ih (hkeep s h)

/-- A loop whose turns lower a measure ends. -/
theorem whileLoop_ends (Inv : σ → Prop) (measure : σ → Nat)
    (hkeep : ∀ s, Inv s → cond s = true → Inv (body s) ∧ measure (body s) < measure s)
    (h : Inv s) :
    ∃ fuel s', whileLoop cond body fuel s = some s' ∧ Inv s' ∧ cond s' = false := by
  generalize hn : measure s = n
  induction n using Nat.strongRecOn generalizing s with
  | _ n ih =>
    cases hcond : cond s with
    | false =>
      refine ⟨1, s, ?_, h, hcond⟩
      rw [whileLoop, hcond, if_neg Bool.false_ne_true]
    | true =>
      obtain ⟨hinv, hless⟩ := hkeep s h hcond
      obtain ⟨fuel, s', hloop, hs'⟩ := ih _ (hn ▸ hless) hinv rfl
      refine ⟨fuel + 1, s', ?_, hs'⟩
      rw [whileLoop, if_pos hcond]
      exact hloop

end Lumin.Lib
