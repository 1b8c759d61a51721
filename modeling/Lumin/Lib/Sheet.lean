import Mathlib.Tactic

/-!
# Text on a sheet and in a window

A sheet has rows without end and is never moved.  A window has a fixed number of rows and
scrolls when the text reaches its last one.  Both take the same strokes.

* `Sheet.top` is the first row of the sheet that a window of `rows` rows still shows.
* `Window.Shows.type` is the simulation: a stroke on a window that shows the end of a sheet
  is the stroke on the sheet, also when the cells of the two are of different kinds.
* `Sheet.type_narrow` says that the width does not matter as long as no row is full.
* `Window.Agrees.type` compares two windows.
-/

namespace Lumin.Lib

/-- What a character does to a text. -/
inductive Stroke (α : Type)
  | write (v : α)
  | feed
  | carriageReturn
  | backspace

/-- A text with rows without end, and the place of the next cell. -/
structure Sheet (α : Type) where
  cell : Nat → Nat → α
  line : Nat
  col : Nat

/-- A text in a fixed number of rows, and the place of the next cell. -/
structure Window (α : Type) where
  cell : Nat → Nat → α
  row : Nat
  col : Nat

variable {α β : Type}

/-- Strokes that write related cells. -/
inductive Stroke.Agrees (R : α → β → Prop) : Stroke α → Stroke β → Prop
  | write {v : α} {v' : β} (h : R v v') : Stroke.Agrees R (.write v) (.write v')
  | feed : Stroke.Agrees R .feed .feed
  | carriageReturn : Stroke.Agrees R .carriageReturn .carriageReturn
  | backspace : Stroke.Agrees R .backspace .backspace

theorem Stroke.agrees_refl (s : Stroke α) : Stroke.Agrees Eq s s := by
  cases s with
  | write v => exact .write rfl
  | feed => exact .feed
  | carriageReturn => exact .carriageReturn
  | backspace => exact .backspace

namespace Sheet

def write (t : Sheet α) (v : α) : Sheet α :=
  { t with cell := fun r k => if r = t.line ∧ k = t.col then v else t.cell r k }

/-- The next row. -/
def feed (t : Sheet α) : Sheet α := { t with line := t.line + 1, col := 0 }

/-- The next column; behind the last one the first column of the next row. -/
def advance (cols : Nat) (t : Sheet α) : Sheet α :=
  if t.col + 1 < cols then { t with col := t.col + 1 } else t.feed

def type (cols : Nat) (t : Sheet α) : Stroke α → Sheet α
  | .write v => (t.write v).advance cols
  | .feed => t.feed
  | .carriageReturn => { t with col := 0 }
  | .backspace => { t with col := t.col - 1 }

/-- A sheet is as good as a wider one where the row is not full. -/
theorem type_narrow {n cols : Nat} (hn : n ≤ cols) {t : Sheet α} {s : Stroke α}
    (hcol : ∀ v, s = .write v → t.col + 1 < n) : t.type cols s = t.type n s := by
  cases s with
  | write v =>
    have hlt : (t.write v).col + 1 < n := hcol v rfl
    unfold type advance
    dsimp only
    rw [if_pos hlt, if_pos (Nat.lt_of_lt_of_le hlt hn)]
  | feed => rfl
  | carriageReturn => rfl
  | backspace => rfl

/-- The first row that a window of `rows` rows shows. -/
def top (rows : Nat) (t : Sheet α) : Nat := t.line + 1 - rows

/-- The rows in front of the cursor are still blank, the first window apart. -/
def Fresh (rows : Nat) (blank : α) (t : Sheet α) : Prop := ∀ r k, t.line < r → rows ≤ r →
    t.cell r k = blank

end Sheet

namespace Window

def write (w : Window α) (v : α) : Window α :=
  { w with cell := fun y x => if y = w.row ∧ x = w.col then v else w.cell y x }

/-- All rows go up by one. -/
def scroll (rows : Nat) (blank : α) (w : Window α) : Window α :=
  { w with cell := fun y x => if y + 1 < rows then w.cell (y + 1) x else blank }

/-- The next row; behind the last one the text scrolls. -/
def feed (rows : Nat) (blank : α) (w : Window α) : Window α :=
  if w.row + 1 < rows then { w with row := w.row + 1, col := 0 }
    else { w.scroll rows blank with col := 0 }

/-- The next column; behind the last one the first column of the next row. -/
def advance (rows cols : Nat) (blank : α) (w : Window α) : Window α :=
  if w.col + 1 < cols then { w with col := w.col + 1 } else w.feed rows blank

def type (rows cols : Nat) (blank : α) (w : Window α) : Stroke α → Window α
  | .write v => (w.write v).advance rows cols blank
  | .feed => w.feed rows blank
  | .carriageReturn => { w with col := 0 }
  | .backspace => { w with col := w.col - 1 }

/-- The cursor is inside of the window. -/
structure Inside (rows cols : Nat) (w : Window α) : Prop where
  row_lt : w.row < rows
  col_lt : w.col < cols

variable {rows cols : Nat} {blank : α} {blank' : β} {R : α → β → Prop} {w : Window α}
  {t : Sheet β}

theorem Inside.feed (h : w.Inside rows cols) : (w.feed rows blank).Inside rows cols := by
  have hcols : 0 < cols := Nat.zero_lt_of_lt h.col_lt
  unfold Window.feed
  split
  · exact ⟨‹_›, hcols⟩
  · exact ⟨h.row_lt, hcols⟩

theorem Inside.advance (h : w.Inside rows cols) :
    (w.advance rows cols blank).Inside rows cols := by
  unfold Window.advance
  split
  · exact ⟨h.row_lt, ‹_›⟩
  · exact h.feed

/-- A stroke keeps the cursor inside of the window. -/
theorem Inside.type (h : w.Inside rows cols) (s : Stroke α) :
    (w.type rows cols blank s).Inside rows cols := by
  cases s with
  | write v => exact Inside.advance (w := w.write v) ⟨h.row_lt, h.col_lt⟩
  | feed => exact h.feed
  | carriageReturn => exact ⟨h.row_lt, Nat.zero_lt_of_lt h.col_lt⟩
  | backspace => exact ⟨h.row_lt, Nat.lt_of_le_of_lt (Nat.sub_le _ _) h.col_lt⟩

/-! ## A window on a sheet -/

/-- The window shows the last rows of the sheet, in related cells. -/
structure Shows (rows cols : Nat) (R : α → β → Prop) (blank' : β) (w : Window α) (t : Sheet β) :
    Prop where
  inside : w.Inside rows cols
  row_eq : t.top rows + w.row = t.line
  col_eq : w.col = t.col
  shown : ∀ y < rows, ∀ x < cols, R (w.cell y x) (t.cell (t.top rows + y) x)
  fresh : t.Fresh rows blank'

theorem Shows.write (h : w.Shows rows cols R blank' t) {v : α} {v' : β} (hv : R v v') :
    (w.write v).Shows rows cols R blank' (t.write v') where
  inside := ⟨h.inside.row_lt, h.inside.col_lt⟩
  row_eq := h.row_eq
  col_eq := h.col_eq
  shown := by
    intro y hy x hx
    have hrow := h.row_eq
    change R (if y = w.row ∧ x = w.col then v else w.cell y x)
      (if t.top rows + y = t.line ∧ x = t.col then v' else t.cell (t.top rows + y) x)
    rw [← h.col_eq]
    by_cases hcell : y = w.row ∧ x = w.col
    · rw [if_pos hcell, if_pos ⟨by omega, hcell.2⟩]
      exact hv
    · rw [if_neg hcell, if_neg fun heq => hcell ⟨by omega, heq.2⟩]
      exact h.shown y hy x hx
  fresh := by
    intro r k hr hrows
    have hne : ¬ (r = t.line ∧ k = t.col) := fun h => absurd h.1 (Nat.ne_of_gt hr)
    exact (if_neg hne).trans (h.fresh r k hr hrows)

theorem Shows.feed (h : w.Shows rows cols R blank' t) (hblank : R blank blank') :
    (w.feed rows blank).Shows rows cols R blank' t.feed := by
  have hlt := h.inside.row_lt
  have hrow := h.row_eq
  have htop : t.top rows = t.line + 1 - rows := rfl
  have htop' : t.feed.top rows = t.line + 1 + 1 - rows := rfl
  have hfresh : t.feed.Fresh rows blank' :=
    fun r k hr hrows => h.fresh r k (Nat.lt_of_succ_lt hr) hrows
  unfold Window.feed
  split
  · rename_i hnext
    refine ⟨⟨hnext, Nat.zero_lt_of_lt h.inside.col_lt⟩, ?_, rfl, fun y hy x hx => ?_, hfresh⟩
    · change t.feed.top rows + (w.row + 1) = t.line + 1
      omega
    · rw [show t.feed.top rows = t.top rows by omega]
      exact h.shown y hy x hx
  · -- the window was full, and the sheet has one more row above it
    refine ⟨⟨hlt, Nat.zero_lt_of_lt h.inside.col_lt⟩, ?_, rfl, fun y hy x hx => ?_, hfresh⟩
    · change t.feed.top rows + w.row = t.line + 1
      omega
    · change R (if y + 1 < rows then w.cell (y + 1) x else blank) (t.cell (t.feed.top rows + y) x)
      split
      · rename_i hy'
        rw [show t.feed.top rows + y = t.top rows + (y + 1) by omega]
        exact h.shown (y + 1) hy' x hx
      · rwa [h.fresh _ x (by omega) (by omega)]

theorem Shows.advance (h : w.Shows rows cols R blank' t) (hblank : R blank blank') :
    (w.advance rows cols blank).Shows rows cols R blank' (t.advance cols) := by
  unfold Window.advance Sheet.advance
  rw [← h.col_eq]
  split
  · exact ⟨⟨h.inside.row_lt, ‹_›⟩, h.row_eq, rfl, h.shown, h.fresh⟩
  · exact h.feed hblank

/-- A stroke on the window is the stroke on the sheet. -/
theorem Shows.type (h : w.Shows rows cols R blank' t) (hblank : R blank blank') {s : Stroke α}
    {s' : Stroke β} (hs : Stroke.Agrees R s s') :
    (w.type rows cols blank s).Shows rows cols R blank' (t.type cols s') := by
  cases hs with
  | write hv => exact (h.write hv).advance hblank
  | feed => exact h.feed hblank
  | carriageReturn =>
    exact ⟨⟨h.inside.row_lt, Nat.zero_lt_of_lt h.inside.col_lt⟩, h.row_eq, rfl, h.shown, h.fresh⟩
  | backspace =>
    exact ⟨⟨h.inside.row_lt, Nat.lt_of_le_of_lt (Nat.sub_le _ _) h.inside.col_lt⟩, h.row_eq,
      congrArg (· - 1) h.col_eq, h.shown, h.fresh⟩

theorem Shows.typeAll {t : Sheet α} (h : w.Shows rows cols Eq blank t) (ss : List (Stroke α)) :
    (ss.foldl (Window.type rows cols blank) w).Shows rows cols Eq blank
      (ss.foldl (Sheet.type cols) t) := by
  induction ss generalizing w t with
  | nil => exact h
  | cons s ss ih => exact ih (h.type rfl s.agrees_refl)

/-! ## Two windows -/

/-- The same text in two kinds of cells. -/
structure Agrees (rows cols : Nat) (R : α → β → Prop) (w : Window α) (w' : Window β) : Prop where
  row_eq : w.row = w'.row
  col_eq : w.col = w'.col
  cells : ∀ y < rows, ∀ x < cols, R (w.cell y x) (w'.cell y x)

variable {w' : Window β}

theorem Agrees.write (h : w.Agrees rows cols R w') {v : α} {v' : β} (hv : R v v') :
    (w.write v).Agrees rows cols R (w'.write v') where
  row_eq := h.row_eq
  col_eq := h.col_eq
  cells := by
    intro y hy x hx
    change R (if y = w.row ∧ x = w.col then v else w.cell y x)
      (if y = w'.row ∧ x = w'.col then v' else w'.cell y x)
    rw [← h.row_eq, ← h.col_eq]
    split
    · exact hv
    · exact h.cells y hy x hx

theorem Agrees.feed (h : w.Agrees rows cols R w') (hblank : R blank blank') :
    (w.feed rows blank).Agrees rows cols R (w'.feed rows blank') := by
  unfold Window.feed
  rw [← h.row_eq]
  split
  · exact ⟨rfl, rfl, h.cells⟩
  · refine ⟨h.row_eq, rfl, fun y hy x hx => ?_⟩
    change R (if y + 1 < rows then w.cell (y + 1) x else blank)
      (if y + 1 < rows then w'.cell (y + 1) x else blank')
    split
    · exact h.cells (y + 1) ‹_› x hx
    · exact hblank

/-- Related strokes keep the two texts the same. -/
theorem Agrees.type (h : w.Agrees rows cols R w') (hblank : R blank blank') {s : Stroke α}
    {s' : Stroke β}
    (hs : Stroke.Agrees R s s') :
    (w.type rows cols blank s).Agrees rows cols R (w'.type rows cols blank' s') := by
  cases hs with
  | @write v v' hv =>
    have hwritten := h.write hv
    change ((w.write v).advance rows cols blank).Agrees rows cols R
      ((w'.write v').advance rows cols blank')
    unfold Window.advance
    rw [← hwritten.col_eq]
    split
    · exact ⟨hwritten.row_eq, rfl, hwritten.cells⟩
    · exact hwritten.feed hblank
  | feed => exact h.feed hblank
  | carriageReturn => exact ⟨h.row_eq, rfl, h.cells⟩
  | backspace => exact ⟨h.row_eq, congrArg (· - 1) h.col_eq, h.cells⟩

end Window

end Lumin.Lib
