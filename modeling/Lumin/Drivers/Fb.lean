import Lumin.Lib.Memory
import Lumin.Lib.While
import Lumin.Lib.Word

/-!
# The framebuffer console

A model of `fb_putchar` and `fb_scroll` of `kernel/drivers/fb/fb.c`.  The pixels are in
memory from `fb_vaddr` on, and `fb_font` is a parameter: nothing but the pixels depends on
it.  A tab is the only character with a loop, which calls `fb_putchar` for blanks.

`fb_putchar_returns_iff` is the result.  The loop ends unless the tab stop is at or behind
the last column: then the blank in the last column takes the cursor back to column 0.
-/

namespace Lumin.Drivers

open Lumin.Lib

def FB_CHAR_W : Nat := 8
def FB_CHAR_H : Nat := 16

/-- The size of the screen and the place of the next character. -/
structure Grid where
  fb_available : Bool
  fb_width : Int
  fb_height : Int
  fb_row : Int
  fb_col : Int

/-- The static variables of the driver, and memory. -/
structure Fb extends Grid where
  fb_vaddr : Nat
  fb_pitch : Int
  fb_fg : UInt32
  fb_bg : UInt32
  fb_cursor_save : Nat → Nat → UInt32
  fb_cursor_row : Int
  fb_cursor_col : Int
  fb_cursor_on : Bool
  mem : Mem

/-- `FB_COLS`. -/
def FB_COLS (fb_width : Int) : Int := fb_width.tdiv FB_CHAR_W

/-- `FB_ROWS`. -/
def FB_ROWS (fb_height : Int) : Int := fb_height.tdiv FB_CHAR_H

/-- Conversion of an `int` to `uint32_t`. -/
def unsigned (x : Int) : Nat := (x % 2 ^ 32).toNat

/-! ## Pixels -/

/-- The address of `line[x]` in the line `y`. -/
def pixel (s : Fb) (x y : Nat) : Nat :=
  u64 (s.fb_vaddr + u32 (y * unsigned s.fb_pitch) + 4 * u32 x)

/-- The loops over the columns of the lines `rs` of a character cell. -/
def setCell (s : Fb) (col row : Int) (rs : List Nat) (color : Nat → Nat → UInt32) : Fb :=
  { s with
    mem := rs.foldl (fun m r => (List.range FB_CHAR_W).foldl (fun m k =>
      wrLE m (pixel s (unsigned (col * FB_CHAR_W) + k) (unsigned (row * FB_CHAR_H) + r)) 4
        (color r k).toNat) m) s.mem }

/-- `fb_cursor_erase`. -/
def fb_cursor_erase (s : Fb) : Fb :=
  if s.fb_cursor_on then
    { setCell s s.fb_cursor_col s.fb_cursor_row (List.range
      FB_CHAR_H) s.fb_cursor_save with fb_cursor_on := false }
  else s

/-- `fb_cursor_draw`. -/
def fb_cursor_draw (s : Fb) : Fb :=
  let s := fb_cursor_erase s
  let s := { s with
    fb_cursor_row := s.fb_row
    fb_cursor_col := s.fb_col
    fb_cursor_save := fun r k => UInt32.ofNat
      (rdLE s.mem (pixel s (unsigned (s.fb_col * FB_CHAR_W) + k)
        (unsigned (s.fb_row * FB_CHAR_H) + r)) 4) }
  let s := setCell s s.fb_col s.fb_row [FB_CHAR_H - 2, FB_CHAR_H - 1] fun _ _ => 0x00C0C0C0
  { s with fb_cursor_on := true }

/-- `fb_fillrect`. -/
def fb_fillrect (s : Fb) (x y w h : Nat) (color : UInt32) : Fb :=
  if s.fb_vaddr = 0 then s
  else
    { s with
      mem := (List.range h).foldl (fun m row => (List.range w).foldl (fun m col =>
        wrLE m (pixel s (x + col) (y + row)) 4 color.toNat) m) s.mem }

/-- The loop of `fb_scroll` over the text rows. -/
def scrollRows (s : Fb) (rows : Int) : Fb :=
  let line_bytes := u32 (unsigned s.fb_pitch * FB_CHAR_H)
  { s with
    mem := (List.range' 1 (rows - 1).toNat).foldl (fun m r =>
      let src := u64 (s.fb_vaddr + u32 (r * line_bytes))
      let dst := u64 (s.fb_vaddr + u32 ((r - 1) * line_bytes))
      (List.range (line_bytes / 8)).foldl
        (fun m i => wrLE m (dst + 8 * i) 8 (rdLE m (src + 8 * i) 8)) m) s.mem }

/-- `fb_scroll`. -/
def fb_scroll (s : Fb) : Fb :=
  let s := fb_cursor_erase s
  let rows := FB_ROWS s.fb_height
  let s := scrollRows s rows
  let s := fb_fillrect s 0 (unsigned ((rows - 1) * FB_CHAR_H))
      (unsigned s.fb_width) FB_CHAR_H s.fb_bg
  { s with fb_row := rows - 1 }

/-! ## Characters -/

/-- `if (++fb_row >= FB_ROWS) fb_scroll();` -/
def nextRow (s : Fb) : Fb :=
  let s := { s with fb_row := s.fb_row + 1 }
  if s.fb_row ≥ FB_ROWS s.fb_height then fb_scroll s else s

/-- The end of `fb_putchar`: a glyph, and the cursor behind it. -/
def putGlyph (fb_font : UInt8 → Nat → UInt8) (s : Fb) (c : UInt8) : Fb :=
  let s := fb_cursor_erase s
  let s := setCell s s.fb_col s.fb_row (List.range FB_CHAR_H) fun r col =>
    if (fb_font c r).toNat.testBit (7 - col) then s.fb_fg else s.fb_bg
  let s := { s with fb_col := s.fb_col + 1 }
  let s := if s.fb_col ≥ FB_COLS s.fb_width then nextRow { s with fb_col := 0 } else s
  fb_cursor_draw s

/-- `fb_putchar` of a character other than a tab. -/
def putOther (fb_font : UInt8 → Nat → UInt8) (s : Fb) (c : UInt8) : Fb :=
  if ¬ s.fb_available then s
  else if c = 10 then fb_cursor_draw (nextRow { s with fb_col := 0 })
  else if c = 13 then fb_cursor_draw { s with fb_col := 0 }
  else if c = 8
    then fb_cursor_draw (if s.fb_col > 0 then { s with fb_col := s.fb_col - 1 } else s)
  else if c < 32 then s
  else putGlyph fb_font s c

/-- `(fb_col + 4) & ~3`. -/
def tabStop (g : Grid) : Int := (g.fb_col + 4) / 4 * 4

/-- `fb_putchar`.  The loop of a tab gets `fuel` turns. -/
def fb_putchar (fb_font : UInt8 → Nat → UInt8) (fuel : Nat) (s : Fb) (c : UInt8) : Option Fb :=
  if ¬ s.fb_available then some s
  else if c = 9 then
    whileLoop (fun t : Fb => t.fb_col < tabStop s.toGrid ∧ t.fb_col < FB_COLS t.fb_width)
      (fun t => putOther fb_font t 32) fuel s
  else some (putOther fb_font s c)

/-! ## The grid -/

/-- The cursor is inside of the grid. -/
structure InGrid (g : Grid) : Prop where
  col : 0 ≤ g.fb_col ∧ g.fb_col < FB_COLS g.fb_width
  row : 0 ≤ g.fb_row ∧ g.fb_row < FB_ROWS g.fb_height

/-- The cursor in the next row, or in the last one. -/
def Grid.nextRow (g : Grid) : Grid :=
  { g with fb_row := if g.fb_row + 1 ≥ FB_ROWS g.fb_height then FB_ROWS g.fb_height - 1
           else g.fb_row + 1 }

/-- The cursor behind a glyph. -/
def Grid.advance (g : Grid) : Grid :=
  if g.fb_col + 1 ≥ FB_COLS g.fb_width then Grid.nextRow { g with fb_col := 0 }
    else { g with fb_col := g.fb_col + 1 }

/-- What a character other than a tab does to the grid. -/
def Grid.put (g : Grid) (c : UInt8) : Grid :=
  if ¬ g.fb_available then g
  else if c = 10 then Grid.nextRow { g with fb_col := 0 }
  else if c = 13 then { g with fb_col := 0 }
  else if c = 8 then if g.fb_col > 0 then { g with fb_col := g.fb_col - 1 } else g
  else if c < 32 then g
  else g.advance

variable {fb_font : UInt8 → Nat → UInt8} {s t : Fb} {g : Grid} {c : UInt8}

@[simp] theorem fb_cursor_erase_toGrid (s : Fb) : (fb_cursor_erase s).toGrid = s.toGrid := by
  unfold fb_cursor_erase
  split_ifs
  · rfl
  · rfl

@[simp] theorem fb_cursor_draw_toGrid (s : Fb) : (fb_cursor_draw s).toGrid = s.toGrid :=
  fb_cursor_erase_toGrid s

theorem fb_fillrect_toGrid (s : Fb) (x y w h : Nat) (color : UInt32) :
    (fb_fillrect s x y w h color).toGrid = s.toGrid := by
  unfold fb_fillrect
  split_ifs
  · rfl
  · rfl

theorem fb_scroll_toGrid (s : Fb) :
    (fb_scroll s).toGrid = { s.toGrid with fb_row := FB_ROWS s.fb_height - 1 } := by
  have herase := fb_cursor_erase_toGrid s
  unfold fb_scroll
  generalize fb_cursor_erase s = s₁ at herase
  have hfill := fb_fillrect_toGrid (scrollRows s₁ (FB_ROWS s₁.fb_height)) 0
    (unsigned ((FB_ROWS s₁.fb_height - 1) * FB_CHAR_H)) (unsigned s₁.fb_width) FB_CHAR_H s₁.fb_bg
  change { (fb_fillrect (scrollRows s₁ (FB_ROWS s₁.fb_height)) 0
    (unsigned ((FB_ROWS s₁.fb_height - 1) * FB_CHAR_H))
    (unsigned s₁.fb_width) FB_CHAR_H s₁.fb_bg).toGrid with fb_row := FB_ROWS s₁.fb_height - 1 } =
      _
  rw [hfill, ← herase]
  rfl

theorem nextRow_toGrid (s : Fb) : (nextRow s).toGrid = s.toGrid.nextRow := by
  unfold nextRow Grid.nextRow
  dsimp only
  by_cases hlast : s.fb_row + 1 ≥ FB_ROWS s.fb_height
  · rw [if_pos hlast, if_pos hlast, fb_scroll_toGrid]
  · rw [if_neg hlast, if_neg hlast]

theorem putGlyph_toGrid (s : Fb) (c : UInt8) :
    (putGlyph fb_font s c).toGrid = s.toGrid.advance := by
  have herase := fb_cursor_erase_toGrid s
  unfold putGlyph Grid.advance
  generalize fb_cursor_erase s = s₁ at herase
  have hset : ∀ color, (setCell s₁ s₁.fb_col s₁.fb_row (List.range FB_CHAR_H) color).toGrid =
      s.toGrid := fun _ => herase
  dsimp only
  generalize hcell : setCell s₁ s₁.fb_col s₁.fb_row (List.range FB_CHAR_H) _ = s₂
  rw [fb_cursor_draw_toGrid, ← hset, hcell]
  by_cases hlast : s₂.fb_col + 1 ≥ FB_COLS s₂.fb_width
  · rw [if_pos hlast, if_pos hlast, nextRow_toGrid]
  · rw [if_neg hlast, if_neg hlast]

/-- The driver does to the grid what `Grid.put` says. -/
theorem putOther_toGrid (fb_font : UInt8 → Nat → UInt8) (s : Fb) (c : UInt8) :
    (putOther fb_font s c).toGrid = s.toGrid.put c := by
  unfold putOther Grid.put
  split_ifs
  · rw [fb_cursor_draw_toGrid, nextRow_toGrid]
  · rw [fb_cursor_draw_toGrid]
  · rw [fb_cursor_draw_toGrid]
  · rw [fb_cursor_draw_toGrid]
  · rfl
  · exact putGlyph_toGrid s c
  · rfl

/-! ## The cursor -/

/-- The same screen. -/
def SameScreen (g h : Grid) : Prop :=
  g.fb_available = h.fb_available ∧ g.fb_width = h.fb_width ∧ g.fb_height = h.fb_height

theorem nextRow_screen (g : Grid) : SameScreen g.nextRow g := ⟨rfl, rfl, rfl⟩

theorem advance_screen (g : Grid) : SameScreen g.advance g := by
  unfold Grid.advance
  split
  · exact nextRow_screen _
  · exact ⟨rfl, rfl, rfl⟩

theorem put_screen (g : Grid) (c : UInt8) : SameScreen (g.put c) g := by
  have hsame : SameScreen g g := ⟨rfl, rfl, rfl⟩
  unfold Grid.put
  split_ifs
  · exact nextRow_screen _
  · exact hsame
  · exact hsame
  · exact hsame
  · exact hsame
  · exact advance_screen g
  · exact hsame

theorem InGrid.nextRow (h : InGrid g) : InGrid (Grid.nextRow { g with fb_col := 0 }) := by
  obtain ⟨hcol, hrow⟩ := h
  unfold Grid.nextRow
  constructor
  · exact ⟨le_refl 0, by dsimp only; omega⟩
  · dsimp only
    split_ifs
    · omega
    · omega

theorem InGrid.advance (h : InGrid g) : InGrid g.advance := by
  have hcol := h.col
  unfold Grid.advance
  split
  · exact h.nextRow
  · exact ⟨⟨by dsimp only; omega, by dsimp only; omega⟩, h.row⟩

/-- A character other than a tab keeps the cursor inside of the grid. -/
theorem InGrid.put (h : InGrid g) (c : UInt8) : InGrid (g.put c) := by
  have hcol := h.col
  unfold Grid.put
  split_ifs
  · exact h.nextRow
  · exact ⟨⟨le_refl 0, by dsimp only; omega⟩, h.row⟩
  · exact ⟨⟨by dsimp only; omega, by dsimp only; omega⟩, h.row⟩
  · exact h
  · exact h
  · exact h.advance
  · exact h

/-- A blank in front of the last column. -/
theorem put_blank (havail : g.fb_available = true) (hcol : g.fb_col + 1 < FB_COLS g.fb_width) :
    (g.put 32).fb_col = g.fb_col + 1 := by
  unfold Grid.put Grid.advance
  rw [if_neg (by rw [havail]; decide), if_neg (by decide), if_neg (by decide), if_neg (by decide),
    if_neg (by decide),
    if_neg (by omega)]

/-! ## Tabs -/

/-- A tab is the loop. -/
theorem fb_putchar_tab (havail : s.fb_available = true) (fuel : Nat) :
    fb_putchar fb_font fuel s 9 =
      whileLoop (fun t : Fb => t.fb_col < tabStop s.toGrid ∧ t.fb_col < FB_COLS t.fb_width)
        (fun t => putOther fb_font t 32) fuel s := by
  unfold fb_putchar
  rw [if_neg (by rw [havail]; decide), if_pos rfl]

/-- With a tab stop at or behind the last column the loop never ends. -/
theorem tab_never (h : InGrid s.toGrid) (havail : s.fb_available = true)
    (hstop : FB_COLS s.fb_width ≤ tabStop s.toGrid) (fuel : Nat) :
    fb_putchar fb_font fuel s 9 = none := by
  rw [fb_putchar_tab havail]
  apply whileLoop_never fun t : Fb => InGrid t.toGrid ∧ t.fb_width = s.fb_width
  · intro t ht
    have := ht.1.col
    rw [← ht.2] at hstop
    exact decide_eq_true ⟨by omega, by omega⟩
  · intro t ht
    rw [putOther_toGrid, ← ht.2]
    exact ⟨ht.1.put 32, (put_screen t.toGrid 32).2.1⟩
  · exact ⟨h, rfl⟩

/-- Otherwise each blank takes the cursor closer to the tab stop. -/
theorem tab_ends (h : InGrid s.toGrid) (havail : s.fb_available = true)
    (hstop : tabStop s.toGrid < FB_COLS s.fb_width) :
    ∃ fuel s', fb_putchar fb_font fuel s 9 = some s' ∧ InGrid s'.toGrid := by
  have hblank : ∀ t : Fb, (InGrid t.toGrid ∧ t.fb_available = true ∧ t.fb_width = s.fb_width) →
      decide (t.fb_col < tabStop s.toGrid ∧ t.fb_col < FB_COLS t.fb_width) = true →
      (InGrid (putOther fb_font t 32).toGrid ∧ (putOther fb_font t 32).fb_available = true ∧
          (putOther fb_font t 32).fb_width = s.fb_width) ∧
        (tabStop s.toGrid - (putOther fb_font t 32).fb_col).toNat <
          (tabStop s.toGrid - t.fb_col).toNat := by
    intro t ht hcond
    obtain ⟨hgrid, havail', hwidth⟩ := ht
    obtain ⟨hbefore, -⟩ := of_decide_eq_true hcond
    obtain ⟨havail'', hwidth', -⟩ := put_screen t.toGrid 32
    have hcol := put_blank havail' (by rw [hwidth]; omega)
    rw [putOther_toGrid]
    refine ⟨⟨hgrid.put 32, havail''.trans havail', hwidth'.trans hwidth⟩, ?_⟩
    rw [hcol]
    omega
  obtain ⟨fuel, s', hloop, hinv, -⟩ :=
    whileLoop_ends _ (fun t : Fb => (tabStop s.toGrid - t.fb_col).toNat) hblank
    ⟨h, havail, rfl⟩
  refine ⟨fuel, s', ?_, hinv.1⟩
  rw [fb_putchar_tab havail]
  exact hloop

/-! ## The result -/

/-- `fb_putchar` returns and leaves the cursor inside of the grid unless the character is a
tab whose stop is at or behind the last column. -/
theorem fb_putchar_returns_iff (fb_font : UInt8 → Nat → UInt8) (s : Fb) (c : UInt8)
    (h : InGrid s.toGrid) :
    (∃ fuel s', fb_putchar fb_font fuel s c = some s' ∧ InGrid s'.toGrid) ↔
      ¬ (s.fb_available = true ∧ c = 9 ∧ FB_COLS s.fb_width ≤ tabStop s.toGrid) := by
  by_cases havail : s.fb_available = true
  · by_cases htab : c = 9
    · rw [htab]
      constructor
      · rintro ⟨fuel, s', hreturn, -⟩ ⟨-, -, hstop⟩
        rw [tab_never h havail hstop] at hreturn
        cases hreturn
      · intro hstop
        exact tab_ends h havail (lt_of_not_ge fun hle => hstop ⟨havail, rfl, hle⟩)
    · have hone : fb_putchar fb_font 0 s c = some (putOther fb_font s c) := by
        unfold fb_putchar
        rw [if_neg (not_not_intro havail), if_neg htab]
      refine iff_of_true ⟨0, _, hone, ?_⟩ fun hbad => htab hbad.2.1
      rw [putOther_toGrid]
      exact h.put c
  · have hnone : fb_putchar fb_font 0 s c = some s := by
      unfold fb_putchar
      rw [if_pos havail]
    exact iff_of_true ⟨0, s, hnone, h⟩ fun hbad => havail hbad.1

/-- The mode that the boot loader sets, 128 columns and 48 rows, with the cursor in the column
`col`. -/
def bootScreen (col : Int) : Fb where
  fb_available := true
  fb_width := 1024
  fb_height := 768
  fb_row := 0
  fb_col := col
  fb_vaddr := 0xFFFF8000FC000000
  fb_pitch := 4096
  fb_fg := 0x00C0C0C0
  fb_bg := 0
  fb_cursor_save := fun _ _ => 0
  fb_cursor_row := 0
  fb_cursor_col := 0
  fb_cursor_on := false
  mem := fun _ => 0

/-- A tab in column 5. -/
theorem fb_putchar_returns_col5 :
    InGrid (bootScreen 5).toGrid ∧ ∃ fuel s', fb_putchar (fun _ _ => 0) fuel (bootScreen 5) 9 =
      some s' ∧ InGrid s'.toGrid := by
  have hgrid : InGrid (bootScreen 5).toGrid := ⟨by decide, by decide⟩
  exact ⟨hgrid, (fb_putchar_returns_iff (fun _ _ => 0) (bootScreen 5) 9 hgrid).mpr (by decide)⟩

/-- A tab in column 125 of 128. -/
theorem tab_col125_never : ¬ ∀ s c, InGrid s.toGrid →
    ∃ fuel s', fb_putchar (fun _ _ => 0) fuel s c = some s' ∧ InGrid s'.toGrid := by
  intro hall
  have hgrid : InGrid (bootScreen 125).toGrid := ⟨by decide, by decide⟩
  obtain ⟨fuel, s', hreturn, -⟩ := hall (bootScreen 125) 9 hgrid
  rw [tab_never hgrid rfl (by decide)] at hreturn
  cases hreturn

end Lumin.Drivers
