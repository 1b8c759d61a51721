import Mathlib.Tactic

/-!
# Tables with a count

An array and the number of its elements.  `entries a n` is the list of the first `n`
elements.  The rules say what the loops over such a table compute: `entries_push` for a
new element at the end, `firstIndex_entries` for the search from the start, and
`entries_shiftDown` for a removal that moves the later elements down.
-/

namespace Lumin.Lib.Table

variable {α : Type} {a : Nat → α} {n i : Nat} {p : α → Bool}

/-- The first `n` elements. -/
def entries (a : Nat → α) (n : Nat) : List α := (List.range n).map a

/-- The first of the indices below `n` whose element meets `p`. -/
def firstIndex (a : Nat → α) (n : Nat) (p : α → Bool) : Option Nat :=
  (List.range n).find? fun i => p (a i)

/-- Move `turns` elements down by one, the one after `j` first. -/
def shiftDown : Nat → Nat → (Nat → α) → (Nat → α)
  | 0, _, a => a
  | turns + 1, j, a => shiftDown turns (j + 1) (Function.update a j (a (j + 1)))

@[simp] theorem length_entries (a : Nat → α) (n : Nat) : (entries a n).length = n := by
  simp [entries]

theorem getElem?_entries (a : Nat → α) (n i : Nat) :
    (entries a n)[i]? = if i < n then some (a i) else none := by
  unfold entries
  split
  next hi => rw [List.getElem?_map, List.getElem?_range hi, Option.map_some]
  next hi => exact List.getElem?_eq_none (by simpa using hi)

theorem entries_push (a : Nat → α) (n : Nat) (x : α) :
    entries (Function.update a n x) (n + 1) = entries a n ++ [x] := by
  unfold entries
  rw [List.range_succ, List.map_append, List.map_singleton, Function.update_self]
  congr 1
  apply List.map_congr_left
  intro i hi
  rw [Function.update_of_ne (by have := List.mem_range.mp hi; omega)]

/-- The search finds the first element of the list that meets `p`. -/
theorem firstIndex_entries (a : Nat → α) (n : Nat) (p : α → Bool) :
    firstIndex a n p = (entries a n).findIdx? p := by
  unfold firstIndex entries
  rcases hfound : (List.range n).find? fun i => p (a i) with _ | i
  · symm
    rw [List.findIdx?_eq_none_iff]
    intro x hx
    obtain ⟨i, hi, rfl⟩ := List.mem_map.mp hx
    have := List.find?_range_eq_none.mp hfound i (List.mem_range.mp hi)
    simpa using this
  · symm
    obtain ⟨hp, hi, hbefore⟩ := List.find?_range_eq_some.mp hfound
    rw [List.findIdx?_eq_some_iff_getElem]
    refine ⟨by simpa using hi, by simpa using hp, ?_⟩
    intro j hj
    simpa using hbefore j hj

theorem shiftDown_apply (turns j : Nat) (a : Nat → α) (i : Nat) :
    shiftDown turns j a i = if j ≤ i ∧ i < j + turns then a (i + 1) else a i := by
  induction turns generalizing j a with
  | zero => rw [shiftDown, if_neg (by omega)]
  | succ turns ih =>
    rw [shiftDown, ih]
    by_cases hij : i = j
    · rw [hij, if_neg (by omega), if_pos (by omega), Function.update_self]
    · rw [Function.update_of_ne hij]
      split
      next hin => rw [if_pos (by omega), Function.update_of_ne (by omega)]
      next hout => rw [if_neg (by omega)]

/-- Moving the elements after `i` down removes the element at `i`. -/
theorem entries_shiftDown (hi : i < n) :
    entries (shiftDown (n - 1 - i) i a) (n - 1) = (entries a n).eraseIdx i := by
  apply List.ext_getElem?
  intro k
  rw [List.getElem?_eraseIdx, getElem?_entries, getElem?_entries, getElem?_entries,
    shiftDown_apply]
  by_cases hk : k < i
  · have hbefore : ¬(i ≤ k ∧ k < i + (n - 1 - i)) := by omega
    have hin : k < n - 1 ∧ k < n := by omega
    rw [if_pos hk, if_neg hbefore, if_pos hin.1, if_pos hin.2]
  · rw [if_neg hk]
    by_cases hlast : k < n - 1
    · rw [if_pos hlast, if_pos (by omega), if_pos (by omega)]
    · rw [if_neg hlast, if_neg (by omega)]

end Lumin.Lib.Table
