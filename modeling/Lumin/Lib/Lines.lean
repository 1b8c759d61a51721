import Mathlib.Tactic

/-!
# The lines of a text

`nl` ends a line.  `splitLines` cuts a text behind each `nl`; every line has its own `nl`, only
the last one may be without.  `IsLines` are the lists of lines that a text can have:
`isLines_splitLines` and `splitLines_flatten` say that cutting and joining are inverse to each
other.

`IsLines.append` and `IsLines.take_ended` are the rules for an edit: lines can be put behind
lines that are ended, and all lines in front of another one are.
-/

namespace Lumin.Lib

variable {α : Type} {nl : α}

/-- A line with its end. -/
def Ended (nl : α) (l : List α) : Prop := ∃ b, nl ∉ b ∧ l = b ++ [nl]

/-- The lines of a text: only the last one may be without its end. -/
inductive IsLines (nl : α) : List (List α) → Prop
  | nil : IsLines nl []
  | last (l : List α) (hne : l ≠ []) (h : nl ∉ l) : IsLines nl [l]
  | line (l : List α) (ls : List (List α)) (h : Ended nl l) (hrest : IsLines nl ls) :
    IsLines nl (l :: ls)

/-- An element in front of the first line. -/
def consLine (c : α) : List (List α) → List (List α)
  | [] => [[c]]
  | l :: ls => (c :: l) :: ls

/-- The text cut behind each `nl`. -/
def splitLines [DecidableEq α] (nl : α) : List α → List (List α)
  | [] => []
  | c :: s => if c = nl then [c] :: splitLines nl s else consLine c (splitLines nl s)

variable {l : List α} {ls ls' : List (List α)} {k : Nat}

theorem flatten_consLine (c : α) (ls : List (List α)) :
    (consLine c ls).flatten = c :: ls.flatten := by
  cases ls <;> rfl

theorem Ended.cons {c : α} (h : Ended nl l) (hc : c ≠ nl) : Ended nl (c :: l) := by
  obtain ⟨b, hb, rfl⟩ := h
  refine ⟨c :: b, ?_, rfl⟩
  rw [List.mem_cons, not_or]
  exact ⟨fun heq => hc heq.symm, hb⟩

theorem IsLines.consLine {c : α} (h : IsLines nl ls) (hc : c ≠ nl) :
    IsLines nl (consLine c ls) := by
  have hmem : ∀ l : List α, nl ∉ l → nl ∉ c :: l := fun l hl => by
    rw [List.mem_cons, not_or]
    exact ⟨fun heq => hc heq.symm, hl⟩
  cases h with
  | nil => exact .last [c] (by simp) (hmem [] (by simp))
  | last l hne h => exact .last (c :: l) (by simp) (hmem l h)
  | line l ls h hrest => exact .line (c :: l) ls (h.cons hc) hrest

/-- All lines in front of another one are ended. -/
theorem IsLines.take_ended (h : IsLines nl ls) (hk : k < ls.length) :
    ∀ l ∈ ls.take k, Ended nl l := by
  induction h generalizing k with
  | nil => cases hk
  | last l hne h =>
    rw [List.length_singleton] at hk
    rw [show k = 0 by omega]
    simp
  | line l ls h hrest ih =>
    cases k with
    | zero => simp
    | succ k =>
      intro l' hl'
      rw [List.take_succ_cons, List.mem_cons] at hl'
      rcases hl' with rfl | hl'
      · exact h
      · exact ih (by simpa using hk) l' hl'

theorem IsLines.drop (h : IsLines nl ls) (k : Nat) : IsLines nl (ls.drop k) := by
  induction h generalizing k with
  | nil =>
    rw [List.drop_nil]
    exact .nil
  | last l hne h =>
    cases k with
    | zero => exact .last l hne h
    | succ k =>
      rw [List.drop_succ_cons, List.drop_nil]
      exact .nil
  | line l ls h hrest ih =>
    cases k with
    | zero => exact .line l ls h hrest
    | succ k =>
      rw [List.drop_succ_cons]
      exact ih k

/-- Lines behind lines that are ended. -/
theorem IsLines.append (h : ∀ l ∈ ls, Ended nl l) (h' : IsLines nl ls') :
    IsLines nl (ls ++ ls') := by
  induction ls with
  | nil => exact h'
  | cons l ls ih =>
    exact .line l _ (h l List.mem_cons_self) (ih fun l hl => h l (List.mem_cons_of_mem _ hl))

theorem Ended.ne_nil (h : Ended nl l) : l ≠ [] := by
  obtain ⟨b, -, rfl⟩ := h
  simp

theorem IsLines.flatten_ne_nil (h : IsLines nl ls) (hne : ls ≠ []) : ls.flatten ≠ [] := by
  cases h with
  | nil => exact absurd rfl hne
  | last l hl h => simpa using hl
  | line l ls h hrest => simp [h.ne_nil]

/-- A text that ends with `nl` has ended lines. -/
theorem IsLines.all_ended (h : IsLines nl ls) (hlast : ls.flatten.getLast? = some nl) :
    ∀ l ∈ ls, Ended nl l := by
  induction h with
  | nil => simp
  | last l hne h =>
    rw [List.flatten_singleton] at hlast
    exact absurd (List.mem_of_getLast? hlast) h
  | line l ls h hrest ih =>
    intro l' hl'
    rcases List.mem_cons.mp hl' with rfl | hl'
    · exact h
    · refine ih ?_ l' hl'
      have hne := hrest.flatten_ne_nil (List.ne_nil_of_mem hl')
      rwa [List.flatten_cons, List.getLast?_append_of_ne_nil _ hne] at hlast

variable [DecidableEq α]

theorem flatten_splitLines (nl : α) (s : List α) : (splitLines nl s).flatten = s := by
  induction s with
  | nil => rfl
  | cons c s ih =>
    rw [splitLines]
    split_ifs
    · rw [List.flatten_cons, ih]
      rfl
    · rw [flatten_consLine, ih]

theorem isLines_splitLines (nl : α) (s : List α) : IsLines nl (splitLines nl s) := by
  induction s with
  | nil => exact .nil
  | cons c s ih =>
    rw [splitLines]
    split_ifs with hc
    · exact .line [c] _ ⟨[], by simp, by simp [hc]⟩ ih
    · exact ih.consLine hc

theorem splitLines_last (hne : l ≠ []) (h : nl ∉ l) : splitLines nl l = [l] := by
  induction l with
  | nil => exact absurd rfl hne
  | cons c l ih =>
    rw [List.mem_cons, not_or] at h
    rw [splitLines, if_neg fun hc => h.1 hc.symm]
    cases l with
    | nil => rfl
    | cons d l =>
      rw [ih (by simp) h.2]
      rfl

theorem splitLines_line (h : Ended nl l) (s : List α) :
    splitLines nl (l ++ s) = l :: splitLines nl s := by
  obtain ⟨b, hb, rfl⟩ := h
  induction b with
  | nil =>
    rw [List.nil_append, List.singleton_append, splitLines, if_pos rfl]
  | cons c b ih =>
    rw [List.mem_cons, not_or] at hb
    rw [List.cons_append, List.cons_append, splitLines, if_neg fun hc => hb.1 hc.symm, ih hb.2]
    rfl

/-- Joining lines and cutting the text gives the lines. -/
theorem splitLines_flatten (h : IsLines nl ls) : splitLines nl ls.flatten = ls := by
  induction h with
  | nil => rfl
  | last l hne h => rw [List.flatten_singleton, splitLines_last hne h]
  | line l ls h hrest ih => rw [List.flatten_cons, splitLines_line h, ih]

/-- The lines of a text that ends with `nl` are ended. -/
theorem splitLines_concat_ended (s : List α) : ∀ l ∈ splitLines nl (s ++ [nl]), Ended nl l := by
  induction s with
  | nil =>
    intro l hl
    rw [List.nil_append, splitLines, if_pos rfl, splitLines, List.mem_singleton] at hl
    exact ⟨[], by simp, hl⟩
  | cons c s ih =>
    have hflat := flatten_splitLines nl (s ++ [nl])
    intro l hl
    rw [List.cons_append, splitLines] at hl
    cases hls : splitLines nl (s ++ [nl]) with
    | nil =>
      rw [hls] at hflat
      simp at hflat
    | cons l₀ ls =>
      rw [hls] at hl ih
      split_ifs at hl with hc
      · rcases List.mem_cons.mp hl with rfl | hl
        · exact ⟨[], by simp, by simp [hc]⟩
        · exact ih l hl
      · rcases List.mem_cons.mp hl with rfl | hl
        · exact (ih l₀ List.mem_cons_self).cons hc
        · exact ih l (List.mem_cons_of_mem _ hl)

end Lumin.Lib
