import Mathlib.Tactic

/-!
# Linked lists through a successor function

`Linked succ stop v l` says that the pointers found by following `succ` from
`v` are exactly `l`, and that the walk then ends at a value of `stop`.  The
successor function is whatever the program reads at a node: a word of memory
for a free list, a table entry for a cluster chain.

A walk that ends is deterministic, so its nodes are distinct.  `Linked.relink`
is the rule for every update: keep the first nodes, redirect the last of them
to a new rest.
-/

namespace Lumin.Lib

variable {α : Type} {succ succ' : α → α} {stop stop' : α → Prop} {v w x : α} {l l' l₁ l₂ : List α}

/-- The nodes from `v` on are those of `l`, and then the walk stops. -/
def Linked (succ : α → α) (stop : α → Prop) : α → List α → Prop
  | v, [] => stop v
  | v, x :: xs => v = x ∧ ¬ stop x ∧ Linked succ stop (succ x) xs

/-- A walk has one outcome. -/
theorem Linked.unique (h : Linked succ stop v l) (h' : Linked succ stop v l') : l = l' := by
  induction l generalizing v l' with
  | nil =>
    cases l' with
    | nil => rfl
    | cons y ys =>
      obtain ⟨rfl, hstop, -⟩ := h'
      exact absurd h hstop
  | cons x xs ih =>
    obtain ⟨rfl, hstop, h⟩ := h
    cases l' with
    | nil => exact absurd h' hstop
    | cons y ys =>
      obtain ⟨rfl, -, h'⟩ := h'
      rw [ih h h']

/-- No node of a walk is a value that stops it. -/
theorem Linked.not_stop (h : Linked succ stop v l) (hx : x ∈ l) : ¬ stop x := by
  induction l generalizing v with
  | nil => cases hx
  | cons y ys ih =>
    obtain ⟨rfl, hstop, h⟩ := h
    rcases List.mem_cons.mp hx with rfl | hx
    · exact hstop
    · exact ih h hx

/-- The rest of a walk is a walk from its first node. -/
theorem Linked.drop (h : Linked succ stop v (l₁ ++ x :: l₂)) :
    Linked succ stop x (x :: l₂) := by
  induction l₁ generalizing v with
  | nil =>
    obtain ⟨rfl, h⟩ := h
    exact ⟨rfl, h⟩
  | cons y ys ih => exact ih h.2.2

/-- What leads to the node after `l₁`: the last of `l₁`, or the start. -/
theorem Linked.link (h : Linked succ stop v (l₁ ++ x :: l₂)) : l₁.getLast?.elim v succ = x := by
  induction l₁ generalizing v with
  | nil => exact h.1
  | cons y ys ih =>
    obtain ⟨rfl, -, h⟩ := h
    have := ih h
    rw [List.getLast?_cons]
    cases hlast : ys.getLast? with
    | none => rwa [hlast] at this
    | some z => rwa [hlast] at this

/-- A walk that ends meets no node twice. -/
theorem Linked.nodup (h : Linked succ stop v l) : l.Nodup := by
  induction l generalizing v with
  | nil => exact List.nodup_nil
  | cons x xs ih =>
    obtain ⟨rfl, hstop, hrest⟩ := h
    refine List.nodup_cons.mpr ⟨fun hmem => ?_, ih hrest⟩
    -- A second visit would start the same walk again, with fewer nodes left.
    obtain ⟨a, b, rfl⟩ := List.append_of_mem hmem
    have hagain : v :: b = v :: (a ++ v :: b) := hrest.drop.unique ⟨rfl, hstop, hrest⟩
    have := congrArg List.length hagain
    simp at this
    omega

/-- A walk depends only on the successors of its nodes. -/
theorem Linked.congr (h : Linked succ stop v l) (hsucc : ∀ x ∈ l, succ' x = succ x) :
    Linked succ' stop v l := by
  induction l generalizing v with
  | nil => exact h
  | cons x xs ih =>
    obtain ⟨rfl, hstop, h⟩ := h
    refine ⟨rfl, hstop, ?_⟩
    rw [hsucc v (by simp)]
    exact ih h fun y hy => hsucc y (by simp [hy])

/-- Keep the first nodes `l₁` of a walk and let the last of them point to `w`,
from where the rest is `l'`.  Without first nodes the walk itself starts at
`w`. -/
theorem Linked.relink (h : Linked succ stop v (l₁ ++ l₂))
    (hpre : ∀ x ∈ l₁.dropLast, succ' x = succ x) (hlast : ∀ x ∈ l₁.getLast?, succ' x = w)
    (hrest : Linked succ' stop w l') :
    Linked succ' stop (if l₁ = [] then w else v) (l₁ ++ l') := by
  induction l₁ generalizing v with
  | nil => exact hrest
  | cons x xs ih =>
    obtain ⟨rfl, hstop, h⟩ := h
    refine ⟨if_neg (List.cons_ne_nil _ _), hstop, ?_⟩
    cases xs with
    | nil =>
      rw [hlast v (by simp)]
      exact hrest
    | cons y ys =>
      rw [hpre v (by simp)]
      have := ih h (fun z hz => hpre z (by simp [hz])) (fun z hz => hlast z (by simpa using hz))
      rwa [if_neg (List.cons_ne_nil _ _)] at this

/-- A node whose successor becomes a value that stops the walk ends it. -/
theorem Linked.cut (h : Linked succ stop v (l₁ ++ x :: l₂))
    (hother : ∀ y, y ≠ x → succ' y = succ y)
    (hx : stop (succ' x)) : Linked succ' stop v (l₁ ++ [x]) := by
  have hnodup : (l₁ ++ [x] ++ l₂).Nodup := by
    rw [List.append_assoc]
    exact h.nodup
  have hsplit : Linked succ stop v (l₁ ++ [x] ++ l₂) := by
    rw [List.append_assoc]
    exact h
  have hpre : ∀ y ∈ (l₁ ++ [x]).dropLast, succ' y = succ y := by
    intro y hy
    rw [List.dropLast_concat] at hy
    apply hother
    rintro rfl
    exact List.disjoint_of_nodup_append (List.Nodup.of_append_left hnodup) hy
      (List.mem_singleton_self y)
  have hlast : ∀ y ∈ (l₁ ++ [x]).getLast?, succ' y = succ' x := by
    intro y hy
    rw [List.getLast?_concat, Option.mem_some_iff] at hy
    rw [hy]
  have hend : Linked succ' stop (succ' x) [] := hx
  have hcut := hsplit.relink hpre hlast hend
  rwa [if_neg (by simp), List.append_nil] at hcut

end Lumin.Lib
