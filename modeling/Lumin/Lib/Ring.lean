import Mathlib.Tactic

/-!
# Rings with free-running counters

A queue in `n` cells.  The counters of the two ends are never reduced: the cell of
counter `k` is `k % n`.  `Holds n buf rd q` says that the cells from counter `rd` on
hold the queue `q`.  The two rules are `Holds.push` and `Holds.pop`.
-/

namespace Lumin.Lib.Ring

variable {α : Type} {n rd : Nat} {buf : Nat → α} {q : List α} {x : α}

/-- The cells from `rd` on hold `q`. -/
def Holds (n : Nat) (buf : Nat → α) (rd : Nat) (q : List α) : Prop :=
  ∀ k x, q[k]? = some x → buf ((rd + k) % n) = x

theorem holds_nil (n : Nat) (buf : Nat → α) (rd : Nat) : Holds n buf rd [] := by
  intro k x hk
  cases hk

/-- Counters less than `n` apart have cells of their own. -/
theorem cell_ne {a b : Nat} (hab : a < b) (hn : b < a + n) : a % n ≠ b % n := by
  intro heq
  have hdvd : n ∣ b - a := (Nat.modEq_iff_dvd' hab.le).mp heq
  have hle := Nat.le_of_dvd (by omega) hdvd
  omega

/-- Put an element behind a queue that leaves a cell free. -/
theorem Holds.push (h : Holds n buf rd q) (hroom : q.length < n) (x : α) :
    Holds n (fun i => if i = (rd + q.length) % n then x else buf i) rd (q ++ [x]) := by
  intro k y hk
  dsimp only
  rcases lt_trichotomy k q.length with hlt | rfl | hgt
  · rw [List.getElem?_append_left hlt] at hk
    rw [if_neg (cell_ne (by omega) (by omega))]
    exact h k y hk
  · rw [List.getElem?_concat_length] at hk
    rw [if_pos rfl]
    exact Option.some.inj hk
  · rw [List.getElem?_eq_none (by simp; omega)] at hk
    cases hk

/-- Take the first element. -/
theorem Holds.pop (h : Holds n buf rd (x :: q)) : buf (rd % n) = x ∧ Holds n buf (rd + 1) q := by
  refine ⟨h 0 x rfl, fun k y hk => ?_⟩
  have hnext := h (k + 1) y hk
  rwa [show rd + (k + 1) = rd + 1 + k by omega] at hnext

end Lumin.Lib.Ring
