import Lumin.Drivers.Fb
import Lumin.Lib.Raster

/-!
# The text on the framebuffer

A model of `fb_init` and `fb_clear` of `kernel/drivers/fb/fb.c`, and what their pixels and those
of `fb_putchar` stand for.  The cursor is drawn over the text; `shown` are the pixels with the
saved ones in its cell.

`TextGrid` is the text without any pixels.  One lemma for each part of the driver says what
it does to `shown`, and `Shows` is the invariant that puts them together.
-/

namespace Lumin.Drivers

open Lumin.Lib

/-! ## Clearing the screen -/

def FB_VADDR : Nat := 0xFFFF8000FC000000

/-- `fb_clear`. -/
def fb_clear (s : Fb) (color : UInt32) : Fb :=
  let s := { s with fb_cursor_on := false }
  let s := fb_fillrect s 0 0 (unsigned s.fb_width) (unsigned s.fb_height) color
  { s with fb_row := 0, fb_col := 0 }

/-- `struct fb_info`. -/
structure FbInfo where
  phys_addr : UInt64
  width : UInt32
  height : UInt32
  pitch : UInt32

/-- `fb_init`, behind the mapping of the pages. -/
def fb_init (info : FbInfo) (s : Fb) : Fb :=
  if info.phys_addr = 0 ∨ info.width = 0 then { s with fb_available := false }
  else
    let s := { s with
      fb_width := s32 info.width.toNat
      fb_height := s32 info.height.toNat
      fb_pitch := s32 info.pitch.toNat
      fb_vaddr := FB_VADDR
      fb_available := true }
    fb_clear s s.fb_bg

/-- A call of the console. -/
inductive FbCall
  | clear (color : UInt32)
  | putchar (c : UInt8)

/-- The call is made. -/
def Fb.call (fb_font : UInt8 → Nat → UInt8) (fuel : Nat) (s : Fb) : FbCall → Option Fb
  | .clear color => some (fb_clear s color)
  | .putchar c => fb_putchar fb_font fuel s c

/-- `line[x]` in the line `y`. -/
def readPixel (s : Fb) (x y : Nat) : UInt32 := UInt32.ofNat (rdLE s.mem (pixel s x y) 4)

/-- The pixels, in the cell of the cursor those that it saved. -/
def shown (s : Fb) (x y : Nat) : UInt32 :=
  if s.fb_cursor_on ∧ ((x / FB_CHAR_W : Nat) : Int) = s.fb_cursor_col ∧
      ((y / FB_CHAR_H : Nat) : Int) = s.fb_cursor_row then
    s.fb_cursor_save (y % FB_CHAR_H) (x % FB_CHAR_W)
  else readPixel s x y

/-! ## Text -/

/-- What is in a cell. -/
inductive Cell
  | blank (color : UInt32)
  | glyph (c : UInt8)

/-- A text in a grid, and the place of the next character. -/
structure TextGrid (rows cols : Nat) where
  cell : Nat → Nat → Cell
  row : Nat
  col : Nat
  row_lt : row < rows
  col_lt : col < cols

namespace TextGrid

variable {rows cols : Nat} (bg : UInt32) (t : TextGrid rows cols)

/-- All cells in one colour. -/
def blank (color : UInt32) (hrows : 0 < rows) (hcols : 0 < cols) : TextGrid rows cols where
  cell := fun _ _ => .blank color
  row := 0
  col := 0
  row_lt := hrows
  col_lt := hcols

def carriageReturn : TextGrid rows cols :=
  { t with col := 0, col_lt := Nat.zero_lt_of_lt t.col_lt }

def backspace : TextGrid rows cols :=
    { t with col := t.col - 1, col_lt := Nat.lt_of_le_of_lt (Nat.sub_le _ _) t.col_lt }

/-- All rows go up by one. -/
def scroll : TextGrid rows cols :=
  { t with cell := fun r k => if r + 1 < rows then t.cell (r + 1) k else .blank bg }

/-- The next row; behind the last one the text scrolls. -/
def nextRow : TextGrid rows cols :=
  if h : t.row + 1 < rows then { t with row := t.row + 1, row_lt := h } else t.scroll bg

/-- The next column; behind the last one the first column of the next row. -/
def advance : TextGrid rows cols :=
  if h : t.col + 1 < cols then { t with col := t.col + 1, col_lt := h }
    else t.carriageReturn.nextRow bg

def write (c : UInt8) : TextGrid rows cols :=
  { t with cell := fun r k => if r = t.row ∧ k = t.col then .glyph c else t.cell r k }

/-- A character other than a tab. -/
def put (c : UInt8) : TextGrid rows cols :=
  if c = 10 then t.carriageReturn.nextRow bg
  else if c = 13 then t.carriageReturn
  else if c = 8 then t.backspace
  else if c < 32 then t
  else (t.write c).advance bg

/-- What a call does to the text. -/
def call : FbCall → TextGrid rows cols
  | .clear color => .blank color (Nat.zero_lt_of_lt t.row_lt) (Nat.zero_lt_of_lt t.col_lt)
  | .putchar c => t.put bg c

/-- A pixel of the cell. -/
def cellPixel (fb_font : UInt8 → Nat → UInt8) (fg bg : UInt32) : Cell → Nat → Nat → UInt32
  | .blank color, _, _ => color
  | .glyph c, x, y => if (fb_font c y).toNat.testBit (7 - x) then fg else bg

/-- A pixel of the text. -/
def render (fb_font : UInt8 → Nat → UInt8) (fg bg : UInt32) (t : TextGrid rows cols) (x y : Nat) :
    UInt32 :=
  cellPixel fb_font fg bg (t.cell (y / FB_CHAR_H) (x / FB_CHAR_W)) (x % FB_CHAR_W) (y % FB_CHAR_H)

end TextGrid

/-! ## The screen -/

/-- What no call changes. -/
structure Settings where
  fb_available : Bool
  fb_width : Int
  fb_height : Int
  fb_vaddr : Nat
  fb_pitch : Int
  fb_fg : UInt32
  fb_bg : UInt32

def Fb.settings (s : Fb) : Settings where
  fb_available := s.fb_available
  fb_width := s.fb_width
  fb_height := s.fb_height
  fb_vaddr := s.fb_vaddr
  fb_pitch := s.fb_pitch
  fb_fg := s.fb_fg
  fb_bg := s.fb_bg

/-- A framebuffer with at least one text row and column, whose lines hold its pixels and whole
words. -/
structure Screen where
  width : Nat
  height : Nat
  pitch : Nat
  fg : UInt32
  bg : UInt32
  one_col : 1 ≤ width / FB_CHAR_W
  one_row : 1 ≤ height / FB_CHAR_H
  pitch_ge : 4 * width ≤ pitch
  aligned : pitch % 8 = 0
  size : pitch * height < 2 ^ 31

namespace Screen

def cols (z : Screen) : Nat := z.width / FB_CHAR_W

def rows (z : Screen) : Nat := z.height / FB_CHAR_H

/-- The driver has the screen. -/
def On (z : Screen) (s : Fb) : Prop :=
  s.settings = ⟨true, z.width, z.height, FB_VADDR, z.pitch, z.fg, z.bg⟩

/-- A cell of the text. -/
def Within (z : Screen) (col row : Int) : Prop :=
  (0 ≤ col ∧ col < z.cols) ∧ 0 ≤ row ∧ row < z.rows

/-- Its pixels in memory. -/
def raster (z : Screen) : Raster := ⟨FB_VADDR, z.width, z.pitch, z.pitch_ge⟩

variable {z : Screen} {s : Fb} {x y : Nat}

theorem On.width (h : z.On s) : s.fb_width = z.width := congrArg Settings.fb_width h

theorem On.height (h : z.On s) : s.fb_height = z.height := congrArg Settings.fb_height h

theorem On.vaddr (h : z.On s) : s.fb_vaddr = FB_VADDR := congrArg Settings.fb_vaddr h

theorem On.pitch (h : z.On s) : s.fb_pitch = z.pitch := congrArg Settings.fb_pitch h

/-- A line ends inside of the framebuffer. -/
theorem line_lt (z : Screen) (hy : y < z.height) : y * z.pitch + z.pitch < 2 ^ 31 := by
  have hsize := z.size
  have hline : (y + 1) * z.pitch ≤ z.height * z.pitch := Nat.mul_le_mul_right _ hy
  rw [Nat.succ_mul, Nat.mul_comm z.height] at hline
  omega

theorem pitch_lt (z : Screen) : z.pitch < 2 ^ 31 := by
  have hrow := z.one_row
  have hline := z.line_lt (y := 0) (by simp only [FB_CHAR_H] at hrow; omega)
  omega

theorem height_lt (z : Screen) : z.height < 2 ^ 31 := by
  have hcol := z.one_col
  have hpitch := z.pitch_ge
  have hsize := z.size
  have hpos : 1 ≤ z.pitch := by
    simp only [FB_CHAR_W] at hcol
    omega
  have := Nat.mul_le_mul_right z.height hpos
  omega

theorem width_lt (z : Screen) : z.width < 2 ^ 31 := by
  have := z.pitch_lt
  have := z.pitch_ge
  omega

theorem FB_COLS_eq (z : Screen) : FB_COLS z.width = z.cols := rfl

theorem FB_ROWS_eq (z : Screen) : FB_ROWS z.height = z.rows := rfl

theorem text_width (z : Screen) : 8 * z.cols ≤ z.width := Nat.mul_div_le z.width 8

theorem text_height (z : Screen) : 16 * z.rows ≤ z.height := Nat.mul_div_le z.height 16

end Screen

theorem unsigned_natCast {n : Nat} (h : n < 2 ^ 32) : unsigned n = n := by
  unfold unsigned
  omega

open Screen

variable {z : Screen} {s : Fb} {x y : Nat} {col row : Int}

theorem pixel_eq (h : z.On s) (hx : x < z.width) (hy : y < z.height) :
    pixel s x y = z.raster.addr x y := by
  have hline := z.line_lt hy
  have hwidth := z.width_lt
  have hpitch := z.pitch_lt
  have hfits := z.pitch_ge
  unfold pixel
  rw [h.vaddr, h.pitch, unsigned_natCast (by omega), u32_of_lt (by omega), u32_of_lt (by omega),
    u64_of_lt]
  · rfl
  · unfold FB_VADDR
    omega

theorem readPixel_eq (h : z.On s) (hx : x < z.width) (hy : y < z.height) :
    readPixel s x y = z.raster.px s.mem x y := by
  unfold readPixel
  rw [pixel_eq h hx hy]
  rfl

/-- A pixel depends on the settings and on memory. -/
theorem readPixel_congr {s' : Fb} (hsettings : s.settings = s'.settings) (hmem : s.mem = s'.mem) :
    readPixel s x y = readPixel s' x y := by
  have hvaddr : s.fb_vaddr = s'.fb_vaddr := congrArg Settings.fb_vaddr hsettings
  have hpitch : s.fb_pitch = s'.fb_pitch := congrArg Settings.fb_pitch hsettings
  unfold readPixel pixel
  rw [hvaddr, hpitch, hmem]

/-! ## Parts of the driver -/

theorem setCell_settings (s : Fb) (col row : Int) (rs : List Nat) (color : Nat → Nat → UInt32) :
    (setCell s col row rs color).settings = s.settings := rfl

@[simp] theorem fb_cursor_erase_settings (s : Fb) :
    (fb_cursor_erase s).settings = s.settings := by
  unfold fb_cursor_erase
  split_ifs
  · rfl
  · rfl

@[simp] theorem fb_cursor_draw_settings (s : Fb) : (fb_cursor_draw s).settings = s.settings :=
  fb_cursor_erase_settings s

@[simp] theorem fb_fillrect_settings (s : Fb) (x y w h : Nat) (color : UInt32) :
    (fb_fillrect s x y w h color).settings = s.settings := by
  unfold fb_fillrect
  split_ifs
  · rfl
  · rfl

theorem fb_cursor_erase_off (s : Fb) : (fb_cursor_erase s).fb_cursor_on = false := by
  unfold fb_cursor_erase
  split_ifs with hon
  · rfl
  · exact Bool.eq_false_of_not_eq_true hon

/-- Without a cursor the pixels are shown as they are. -/
theorem shown_off (h : s.fb_cursor_on = false) : shown s x y = readPixel s x y := by
  unfold shown
  rw [if_neg (by simp [h])]

/-- The first pixel of a cell. -/
theorem cell_origin (hcell : z.Within col row) :
    ∃ c r : Nat, col = c ∧ row = r ∧ c < z.cols ∧ r < z.rows ∧
      unsigned (col * FB_CHAR_W) = c * 8 ∧ unsigned (row * FB_CHAR_H) = r * 16 := by
  obtain ⟨⟨hcol, hcol'⟩, hrow, hrow'⟩ := hcell
  lift col to Nat using hcol
  lift row to Nat using hrow
  have hwidth := z.text_width
  have hheight := z.text_height
  have hwidth' := z.width_lt
  have hheight' := z.height_lt
  refine ⟨col, row, rfl, rfl, by omega, by omega, ?_, ?_⟩
  · rw [← Nat.cast_mul]
    exact unsigned_natCast (by simp only [FB_CHAR_W]; omega)
  · rw [← Nat.cast_mul]
    exact unsigned_natCast (by simp only [FB_CHAR_H]; omega)

/-- Lines `rs` of a character cell. -/
theorem setCell_readPixel (h : z.On s) (hcell : z.Within col row) {rs : List Nat}
    (hrs : ∀ r ∈ rs, r < 16)
    (color : Nat → Nat → UInt32) (hx : x < z.width) (hy : y < z.height) :
    readPixel (setCell s col row rs color) x y =
      if ((x / 8 : Nat) : Int) = col ∧ ((y / 16 : Nat) : Int) = row ∧
        y % 16 ∈ rs then color (y % 16) (x % 8)
      else readPixel s x y := by
  obtain ⟨c, r₀, rfl, rfl, hc, hr₀, hx₀, hy₀⟩ := cell_origin hcell
  have hwidth := z.text_width
  have hheight := z.text_height
  -- The addresses do not wrap.
  have hmem : (setCell s c r₀ rs color).mem =
      rs.foldl (fun m r => (List.range 8).foldl (fun m k =>
      wrLE m (z.raster.addr (c * 8 + k) (r₀ * 16 + r)) 4 (color r k).toNat) m) s.mem := by
    unfold setCell
    rw [hx₀, hy₀]
    refine List.foldl_ext _ _ _ fun m r hr => ?_
    refine List.foldl_ext _ _ _ fun m k hk => ?_
    have hr' := hrs r hr
    have hk' : k < 8 := List.mem_range.1 hk
    rw [pixel_eq h (by omega) (by omega)]
  have hon : z.On (setCell s c r₀ rs color) := h
  have hfit : c * 8 + 8 ≤ z.raster.width := by
    show c * 8 + 8 ≤ z.width
    omega
  rw [readPixel_eq hon hx hy, readPixel_eq h hx hy, hmem, Raster.px_block rs color hx hfit]
  by_cases hin : ((x / 8 : Nat) : Int) = c ∧ ((y / 16 : Nat) : Int) = r₀ ∧ y % 16 ∈ rs
  · have hyr : y - r₀ * 16 = y % 16 := by omega
    have hxk : x - c * 8 = x % 8 := by omega
    rw [if_pos hin, if_pos ⟨by omega, by omega, hyr ▸ hin.2.2⟩, hyr, hxk]
  · rw [if_neg hin, if_neg]
    rintro ⟨hxin, hyge, hmem⟩
    have hlt := hrs _ hmem
    have hyr : y - r₀ * 16 = y % 16 := by omega
    exact hin ⟨by omega, by omega, hyr ▸ hmem⟩

theorem fb_fillrect_readPixel (x₀ y₀ w h : Nat) (hon : z.On s) (hw : x₀ + w ≤ z.width)
    (hh : y₀ + h ≤ z.height)
    (color : UInt32) (hx : x < z.width) (hy : y < z.height) :
    readPixel (fb_fillrect s x₀ y₀ w h color) x y =
      if (x₀ ≤ x ∧ x < x₀ + w) ∧ y₀ ≤ y ∧ y < y₀ + h then color else readPixel s x y := by
  have hfill : z.On (fb_fillrect s x₀ y₀ w h color) :=
    (fb_fillrect_settings s x₀ y₀ w h color).trans hon
  have hmem : (fb_fillrect s x₀ y₀ w h color).mem =
      (List.range h).foldl (fun m r => (List.range w).foldl (fun m k =>
      wrLE m (z.raster.addr (x₀ + k) (y₀ + r)) 4 color.toNat) m) s.mem := by
    unfold fb_fillrect
    rw [if_neg (by rw [hon.vaddr]; decide)]
    refine List.foldl_ext _ _ _ fun m r hr => ?_
    refine List.foldl_ext _ _ _ fun m k hk => ?_
    have hr' := List.mem_range.1 hr
    have hk' := List.mem_range.1 hk
    rw [pixel_eq hon (by omega) (by omega)]
  rw [readPixel_eq hfill hx hy, readPixel_eq hon hx hy, hmem,
    Raster.px_block (List.range h) (fun _ _ => color) hx hw]
  refine if_congr (and_congr_right' (and_congr_right fun hge => ?_)) rfl rfl
  rw [List.mem_range]
  omega

/-- All text rows but the last get the pixels of the row behind them. -/
theorem scrollRows_readPixel (h : z.On s) (hx : x < z.width) (hy : y < 16 * z.rows) :
    readPixel (scrollRows s z.rows) x y =
      if y < 16 * (z.rows - 1) then readPixel s x (y + 16) else readPixel s x y := by
  have hheight := z.text_height
  have hline : ∀ r, r < z.rows → r * (z.pitch * 16) + z.pitch * 16 < 2 ^ 31 := by
    intro r hr
    have hsize := z.size
    have hrows : (r + 1) * 16 * z.pitch ≤ z.height * z.pitch := Nat.mul_le_mul_right _ (by omega)
    rw [Nat.mul_comm z.height] at hrows
    have hmul : (r + 1) * 16 * z.pitch = r * (z.pitch * 16) + z.pitch * 16 := by ring
    omega
  have hpitch : u32 (unsigned s.fb_pitch * FB_CHAR_H) = z.pitch * 16 := by
    have hfirst := hline 0 (by omega)
    rw [h.pitch, unsigned_natCast (by omega)]
    exact u32_of_lt (by simp only [FB_CHAR_H]; omega)
  have haddr :
      ∀ r, r < z.rows →
      u64 (s.fb_vaddr + u32 (r * (z.pitch * 16))) = FB_VADDR + r * (z.pitch * 16) := by
    intro r hr
    have hr' := hline r hr
    rw [h.vaddr, u32_of_lt (by omega), u64_of_lt]
    unfold FB_VADDR
    omega
  have hmem : (scrollRows s z.rows).mem = (List.range' 1 (z.rows - 1)).foldl (fun m r =>
      (List.range (z.pitch * 16 / 8)).foldl (fun m i =>
        wrLE m (FB_VADDR + (r - 1) * (z.pitch * 16) + 8 * i) 8
          (rdLE m (FB_VADDR + r * (z.pitch * 16) + 8 * i) 8)) m) s.mem := by
    unfold scrollRows
    have hcount : ((z.rows : Int) - 1).toNat = z.rows - 1 := by omega
    simp only [hpitch, hcount]
    refine List.foldl_ext _ _ _ fun m r hr => ?_
    have hr' := List.mem_range'_1.1 hr
    rw [haddr r (by omega), haddr (r - 1) (by omega)]
  have hon : z.On (scrollRows s z.rows) := h
  have hsize : z.pitch * 16 % 8 = 0 := by omega
  have hshift := @Raster.px_shift z.raster x y 16 hsize (z.rows - 1) hx s.mem
  rw [readPixel_eq hon hx (by omega), hmem]
  refine hshift.trans ?_
  rw [Nat.mul_comm (z.rows - 1) 16]
  split_ifs with hlast
  · rw [readPixel_eq h hx (by omega)]
  · rw [readPixel_eq h hx (by omega)]

/-- The erased cursor leaves what was shown. -/
theorem fb_cursor_erase_readPixel (h : z.On s) (hcursor : s.fb_cursor_on = true →
    z.Within s.fb_cursor_col s.fb_cursor_row)
    (hx : x < z.width) (hy : y < z.height) : readPixel (fb_cursor_erase s) x y = shown s x y := by
  by_cases hon : s.fb_cursor_on = true
  · have hset :=
      setCell_readPixel h (hcursor hon) (fun r hr => List.mem_range.1 hr) s.fb_cursor_save hx hy
    have herased : readPixel (fb_cursor_erase s) x y =
        readPixel (setCell s s.fb_cursor_col s.fb_cursor_row (List.range 16) s.fb_cursor_save) x
          y := by
      refine readPixel_congr
        ((fb_cursor_erase_settings s).trans (setCell_settings s _ _ _ _).symm) ?_
      unfold fb_cursor_erase
      rw [if_pos hon]
      rfl
    unfold shown
    refine herased.trans (hset.trans (if_congr ?_ rfl rfl))
    have hmem : y % 16 ∈ List.range 16 := List.mem_range.2 (Nat.mod_lt _ (by omega))
    exact ⟨fun hcell => ⟨hon, hcell.1, hcell.2.1⟩, fun hcell => ⟨hcell.2.1, hcell.2.2, hmem⟩⟩
  · rw [shown_off (Bool.eq_false_of_not_eq_true hon)]
    unfold fb_cursor_erase
    rw [if_neg hon]

theorem fb_cursor_draw_readPixel (s : Fb) (x y : Nat) :
    readPixel (fb_cursor_draw s) x y =
      readPixel (setCell (fb_cursor_erase s) (fb_cursor_erase s).fb_col (fb_cursor_erase s).fb_row
        [FB_CHAR_H - 2, FB_CHAR_H - 1] fun _ _ => 0x00C0C0C0) x y := by
  apply readPixel_congr
  · exact (fb_cursor_draw_settings s).trans (fb_cursor_erase_settings s).symm
  · unfold fb_cursor_draw
    generalize fb_cursor_erase s = e
    rfl

theorem fb_cursor_draw_save (s : Fb) (r k : Nat) :
    (fb_cursor_draw s).fb_cursor_save r k =
      readPixel (fb_cursor_erase s) (unsigned ((fb_cursor_erase s).fb_col * FB_CHAR_W) + k)
        (unsigned ((fb_cursor_erase s).fb_row * FB_CHAR_H) + r) := rfl

/-- The drawn cursor is not shown. -/
theorem fb_cursor_draw_shown (h : z.On s) (hcursor : s.fb_cursor_on = true →
    z.Within s.fb_cursor_col s.fb_cursor_row)
    (hcell : z.Within s.fb_col s.fb_row) (hx : x < z.width) (hy : y < z.height) :
    shown (fb_cursor_draw s) x y = shown s x y := by
  have herased := fb_cursor_erase_readPixel h hcursor hx hy
  have he : z.On (fb_cursor_erase s) := (fb_cursor_erase_settings s).trans h
  have hgrid := fb_cursor_erase_toGrid s
  have hrow : (fb_cursor_erase s).fb_row = s.fb_row := congrArg Grid.fb_row hgrid
  have hcol : (fb_cursor_erase s).fb_col = s.fb_col := congrArg Grid.fb_col hgrid
  have hcur_col : (fb_cursor_draw s).fb_cursor_col = s.fb_col := hcol
  have hcur_row : (fb_cursor_draw s).fb_cursor_row = s.fb_row := hrow
  unfold shown
  rw [hcur_col, hcur_row, fb_cursor_draw_save, fb_cursor_draw_readPixel, hcol, hrow]
  by_cases hin : ((x / 8 : Nat) : Int) = s.fb_col ∧ ((y / 16 : Nat) : Int) = s.fb_row
  · obtain ⟨c, r, hc, hr, -, -, hx₀, hy₀⟩ := cell_origin hcell
    have hx' : unsigned (s.fb_col * FB_CHAR_W) + x % FB_CHAR_W = x := by
      unfold FB_CHAR_W at *
      omega
    have hy' : unsigned (s.fb_row * FB_CHAR_H) + y % FB_CHAR_H = y := by
      unfold FB_CHAR_H at *
      omega
    rw [if_pos ⟨rfl, hin⟩, hx', hy']
    exact herased
  · rw [if_neg fun hcell => hin hcell.2]
    have hlines : ∀ r ∈ [FB_CHAR_H - 2, FB_CHAR_H - 1], r < 16 := by decide
    rw [setCell_readPixel he hcell hlines _ hx hy, if_neg fun hcell => hin ⟨hcell.1, hcell.2.1⟩]
    exact herased

theorem fb_scroll_settings (s : Fb) : (fb_scroll s).settings = s.settings := by
  unfold fb_scroll
  exact (fb_fillrect_settings _ _ _ _ _ _).trans (fb_cursor_erase_settings s)

theorem fb_scroll_off (s : Fb) : (fb_scroll s).fb_cursor_on = false := by
  have hoff := fb_cursor_erase_off s
  unfold fb_scroll fb_fillrect
  dsimp only
  split_ifs
  · exact hoff
  · exact hoff

/-- Scrolling takes each text row to the one in front, and leaves the last one empty. -/
theorem fb_scroll_shown (h : z.On s) (hcursor : s.fb_cursor_on = true →
    z.Within s.fb_cursor_col s.fb_cursor_row)
    (hx : x < z.width) (hy : y < 16 * z.rows) :
    shown (fb_scroll s) x y = if y < 16 * (z.rows - 1) then shown s x (y + 16) else z.bg := by
  have hheight := z.text_height
  have hheight' := z.height_lt
  have herased : ∀ y < z.height, readPixel (fb_cursor_erase s) x y = shown s x y := fun y hy =>
    fb_cursor_erase_readPixel h hcursor hx hy
  have he : z.On (fb_cursor_erase s) := (fb_cursor_erase_settings s).trans h
  rw [shown_off (fb_scroll_off s)]
  unfold fb_scroll
  generalize fb_cursor_erase s = e at herased he
  have hrows : FB_ROWS e.fb_height = (z.rows : Int) := by rw [he.height, z.FB_ROWS_eq]
  have hlast : unsigned (((z.rows : Int) - 1) * FB_CHAR_H) = 16 * (z.rows - 1) := by
    have hcast : ((z.rows : Int) - 1) * FB_CHAR_H = ((16 * (z.rows - 1) : Nat) : Int) := by
      simp only [FB_CHAR_H]
      omega
    rw [hcast, unsigned_natCast (by omega)]
  have hwidth : unsigned e.fb_width = z.width := by
    have := z.width_lt
    rw [he.width, unsigned_natCast (by omega)]
  have hmoved : z.On (scrollRows e z.rows) := he
  have hbg : (scrollRows e z.rows).fb_bg = z.bg := congrArg Settings.fb_bg hmoved
  dsimp only
  rw [hrows, hlast, show (scrollRows e z.rows).fb_width = e.fb_width from rfl, hwidth, hbg]
  have hfill := fb_fillrect_readPixel 0 (16 * (z.rows - 1)) z.width FB_CHAR_H hmoved (by omega)
    (by simp only [FB_CHAR_H]; omega) z.bg hx (show y < z.height by omega)
  refine hfill.trans ?_
  rw [scrollRows_readPixel he hx hy]
  by_cases hup : y < 16 * (z.rows - 1)
  · rw [if_neg (by omega), if_pos hup, if_pos hup, herased _ (by omega)]
  · rw [if_pos (by simp only [FB_CHAR_H]; omega), if_neg hup]

/-! ## The text that is shown -/

/-- The driver shows the text. -/
structure Shows (fb_font : UInt8 → Nat → UInt8) (z : Screen) (t : TextGrid z.rows z.cols)
    (s : Fb) : Prop where
  on : z.On s
  row : s.fb_row = t.row
  col : s.fb_col = t.col
  cursor : s.fb_cursor_on = true → z.Within s.fb_cursor_col s.fb_cursor_row
  pixels : ∀ x y, x < 8 * z.cols → y < 16 * z.rows → shown s x y = t.render fb_font z.fg z.bg x y

variable {fb_font : UInt8 → Nat → UInt8} {t : TextGrid z.rows z.cols} {c : UInt8} {color : UInt32}

theorem Shows.within (h : Shows fb_font z t s) : z.Within s.fb_col s.fb_row := by
  have hrow := t.row_lt
  have hcol := t.col_lt
  rw [h.row, h.col]
  exact ⟨⟨by omega, by omega⟩, by omega, by omega⟩

theorem Shows.erase (h : Shows fb_font z t s) : Shows fb_font z t (fb_cursor_erase s) where
  on := (fb_cursor_erase_settings s).trans h.on
  row := (congrArg Grid.fb_row (fb_cursor_erase_toGrid s)).trans h.row
  col := (congrArg Grid.fb_col (fb_cursor_erase_toGrid s)).trans h.col
  cursor := fun hon => by
    rw [fb_cursor_erase_off] at hon
    cases hon
  pixels := fun x y hx hy => by
    have hwidth := z.text_width
    have hheight := z.text_height
    rw [shown_off (fb_cursor_erase_off s),
      fb_cursor_erase_readPixel h.on h.cursor (by omega) (by omega)]
    exact h.pixels x y hx hy

theorem Shows.draw (h : Shows fb_font z t s) : Shows fb_font z t (fb_cursor_draw s) where
  on := (fb_cursor_draw_settings s).trans h.on
  row := (congrArg Grid.fb_row (fb_cursor_draw_toGrid s)).trans h.row
  col := (congrArg Grid.fb_col (fb_cursor_draw_toGrid s)).trans h.col
  cursor := fun _ => h.erase.within
  pixels := fun x y hx hy => by
    have hwidth := z.text_width
    have hheight := z.text_height
    rw [fb_cursor_draw_shown h.on h.cursor h.within (by omega) (by omega)]
    exact h.pixels x y hx hy

theorem Shows.carriageReturn (h : Shows fb_font z t s) :
    Shows fb_font z t.carriageReturn { s with fb_col := 0 } where
  on := h.on
  row := h.row
  col := rfl
  cursor := h.cursor
  pixels := h.pixels

theorem Shows.backspace (h : Shows fb_font z t s) :
    Shows fb_font z t.backspace
      (if s.fb_col > 0 then { s with fb_col := s.fb_col - 1 } else s) := by
  have hcol := h.col
  split_ifs with hpos
  · refine ⟨h.on, h.row, ?_, h.cursor, h.pixels⟩
    show s.fb_col - 1 = ((t.col - 1 : Nat) : Int)
    omega
  · refine ⟨h.on, h.row, ?_, h.cursor, h.pixels⟩
    show s.fb_col = ((t.col - 1 : Nat) : Int)
    omega

/-- A pixel behind a scroll. -/
theorem render_scroll (hy : y < 16 * z.rows) :
    (t.scroll z.bg).render fb_font z.fg z.bg x y =
      if y < 16 * (z.rows - 1) then t.render fb_font z.fg z.bg x (y + 16) else z.bg := by
  have hdiv : (y + 16) / 16 = y / 16 + 1 := by omega
  have hmod : (y + 16) % 16 = y % 16 := by omega
  unfold TextGrid.render TextGrid.scroll FB_CHAR_H
  dsimp only
  rw [hdiv, hmod]
  by_cases hup : y < 16 * (z.rows - 1)
  · rw [if_pos hup, if_pos (by omega)]
  · rw [if_neg hup, if_neg (by omega)]
    rfl

/-- Scrolling from behind the last row. -/
theorem Shows.scroll (h : Shows fb_font z t s) (hlast : t.row + 1 = z.rows) :
    Shows fb_font z (t.scroll z.bg) (fb_scroll { s with fb_row := s.fb_row + 1 }) := by
  have hgrid := fb_scroll_toGrid { s with fb_row := s.fb_row + 1 }
  refine ⟨(fb_scroll_settings _).trans h.on, ?_, (congrArg Grid.fb_col hgrid).trans h.col, ?_, ?_⟩
  · refine (congrArg Grid.fb_row hgrid).trans ?_
    show FB_ROWS s.fb_height - 1 = t.row
    rw [h.on.height, z.FB_ROWS_eq]
    omega
  · intro hon
    rw [fb_scroll_off] at hon
    cases hon
  · intro x y hx hy
    have hwidth := z.text_width
    have hscroll :=
      @fb_scroll_shown z { s with fb_row := s.fb_row + 1 } x y h.on h.cursor (by omega) hy
    rw [hscroll, render_scroll hy]
    by_cases hup : y < 16 * (z.rows - 1)
    · rw [if_pos hup, if_pos hup]
      exact h.pixels x (y + 16) hx (by omega)
    · rw [if_neg hup, if_neg hup]

/-- The next row, by scrolling when it is behind the last one. -/
theorem Shows.nextRow (h : Shows fb_font z t s) :
    Shows fb_font z (t.nextRow z.bg) (nextRow s) := by
  have hrow := h.row
  have hrow_lt := t.row_lt
  have hrows : FB_ROWS s.fb_height = (z.rows : Int) := by rw [h.on.height, z.FB_ROWS_eq]
  unfold Drivers.nextRow TextGrid.nextRow
  dsimp only
  by_cases hnext : t.row + 1 < z.rows
  · rw [if_neg (by omega), dif_pos hnext]
    refine ⟨h.on, ?_, h.col, h.cursor, h.pixels⟩
    show s.fb_row + 1 = ((t.row + 1 : Nat) : Int)
    omega
  · rw [if_pos (by omega), dif_neg hnext]
    exact h.scroll (by omega)

theorem Shows.advance (h : Shows fb_font z t s) :
    Shows fb_font z (t.advance z.bg)
      (if s.fb_col + 1 ≥ FB_COLS s.fb_width then Drivers.nextRow { s with fb_col := 0 }
        else { s with fb_col := s.fb_col + 1 }) := by
  have hcol := h.col
  have hcols : FB_COLS s.fb_width = (z.cols : Int) := by rw [h.on.width, z.FB_COLS_eq]
  unfold TextGrid.advance
  rw [hcols]
  by_cases hnext : t.col + 1 < z.cols
  · rw [if_neg (by omega), dif_pos hnext]
    refine ⟨h.on, h.row, ?_, h.cursor, h.pixels⟩
    show s.fb_col + 1 = ((t.col + 1 : Nat) : Int)
    omega
  · rw [if_pos (by omega), dif_neg hnext]
    exact h.carriageReturn.nextRow

/-- A pixel behind a character that is written. -/
theorem render_write :
    (t.write c).render fb_font z.fg z.bg x y =
      if y / 16 = t.row ∧ x / 8 = t.col then if (fb_font c (y % 16)).toNat.testBit (7 - x % 8)
        then z.fg else z.bg
      else t.render fb_font z.fg z.bg x y := by
  unfold TextGrid.render TextGrid.write FB_CHAR_H FB_CHAR_W
  dsimp only
  by_cases hin : y / 16 = t.row ∧ x / 8 = t.col
  · rw [if_pos hin, if_pos hin]
    rfl
  · rw [if_neg hin, if_neg hin]

/-- A glyph in the cell of the next character. -/
theorem Shows.write (h : Shows fb_font z t s) (hoff : s.fb_cursor_on = false) (c : UInt8) :
    Shows fb_font z (t.write c)
      (setCell s s.fb_col s.fb_row (List.range FB_CHAR_H) fun r k =>
        if (fb_font c r).toNat.testBit (7 - k) then s.fb_fg else s.fb_bg) where
  on := h.on
  row := h.row
  col := h.col
  cursor := h.cursor
  pixels := fun x y hx hy => by
    have hwidth := z.text_width
    have hheight := z.text_height
    have hfg : s.fb_fg = z.fg := congrArg Settings.fb_fg h.on
    have hbg : s.fb_bg = z.bg := congrArg Settings.fb_bg h.on
    have hset := setCell_readPixel h.on h.within (fun r hr => List.mem_range.1 hr)
      (fun r k => if (fb_font c r).toNat.testBit (7 - k) then s.fb_fg else s.fb_bg)
      (show x < z.width by omega) (show y < z.height by omega)
    have hmem : y % 16 ∈ List.range 16 := List.mem_range.2 (Nat.mod_lt _ (by omega))
    have hpixel := h.pixels x y hx hy
    have hoff' :
        ∀ color, (setCell s s.fb_col s.fb_row (List.range FB_CHAR_H) color).fb_cursor_on =
        false :=
      fun _ => hoff
    rw [shown_off hoff] at hpixel
    rw [shown_off (hoff' _), render_write, ← hpixel]
    refine hset.trans (if_congr ?_ ?_ rfl)
    · rw [h.row, h.col]
      constructor
      · exact fun hcell => ⟨by omega, by omega⟩
      · exact fun hcell => ⟨by omega, by omega, hmem⟩
    · rw [hfg, hbg]

theorem Shows.putGlyph (h : Shows fb_font z t s) (c : UInt8) :
    Shows fb_font z ((t.write c).advance z.bg) (putGlyph fb_font s c) := by
  have hwrite := h.erase.write (fb_cursor_erase_off s) c
  unfold Drivers.putGlyph
  generalize fb_cursor_erase s = e at hwrite ⊢
  dsimp only
  generalize setCell e e.fb_col e.fb_row (List.range FB_CHAR_H) _ = w at hwrite ⊢
  exact hwrite.advance.draw

/-- A character other than a tab. -/
theorem Shows.put (h : Shows fb_font z t s) (c : UInt8) :
    Shows fb_font z (t.put z.bg c) (putOther fb_font s c) := by
  have havail : s.fb_available = true := congrArg Settings.fb_available h.on
  unfold putOther TextGrid.put
  rw [if_neg (not_not_intro havail)]
  by_cases hlf : c = 10
  · rw [if_pos hlf, if_pos hlf]
    exact h.carriageReturn.nextRow.draw
  by_cases hcr : c = 13
  · rw [if_neg hlf, if_neg hlf, if_pos hcr, if_pos hcr]
    exact h.carriageReturn.draw
  by_cases hbs : c = 8
  · rw [if_neg hlf, if_neg hlf, if_neg hcr, if_neg hcr, if_pos hbs, if_pos hbs]
    exact h.backspace.draw
  rw [if_neg hlf, if_neg hlf, if_neg hcr, if_neg hcr, if_neg hbs, if_neg hbs]
  by_cases hcontrol : c < 32
  · rw [if_pos hcontrol, if_pos hcontrol]
    exact h
  · rw [if_neg hcontrol, if_neg hcontrol]
    exact h.putGlyph c

/-- The screen in one colour, whatever was on it. -/
theorem Shows.clear (hon : z.On s) (hrows : 0 < z.rows) (hcols : 0 < z.cols) (color : UInt32) :
    Shows fb_font z (.blank color hrows hcols) (fb_clear s color) := by
  have hheight : unsigned s.fb_height = z.height := by
    have := z.height_lt
    rw [hon.height, unsigned_natCast (by omega)]
  have hwidth : unsigned s.fb_width = z.width := by
    have := z.width_lt
    rw [hon.width, unsigned_natCast (by omega)]
  have hfill : ∀ x y, x < z.width → y < z.height →
      readPixel (fb_fillrect { s with fb_cursor_on := false } 0 0 z.width z.height color) x y =
        color := by
    intro x y hx hy
    have hon' : z.On { s with fb_cursor_on := false } := hon
    rw [fb_fillrect_readPixel 0 0 z.width z.height hon' (by omega) (by omega) color hx hy,
      if_pos (by omega)]
  have hsettings :=
    fb_fillrect_settings { s with fb_cursor_on := false } 0 0 z.width z.height color
  have hoff : (fb_fillrect { s with fb_cursor_on := false } 0 0 z.width z.height
      color).fb_cursor_on = false := by
    unfold fb_fillrect
    split_ifs
    · rfl
    · rfl
  unfold fb_clear
  dsimp only
  rw [hheight, hwidth]
  refine ⟨hsettings.trans hon, rfl, rfl, fun hcur => ?_, fun x y hx hy => ?_⟩
  · rw [hoff] at hcur
    cases hcur
  · have hwidth' := z.text_width
    have hheight' := z.text_height
    exact (shown_off hoff).trans (hfill x y (by omega) (by omega))

/-! ## Runs -/

@[simp] theorem fb_clear_settings (s : Fb) (color : UInt32) :
    (fb_clear s color).settings = s.settings := by
  unfold fb_clear
  exact fb_fillrect_settings _ _ _ _ _ _

theorem Shows.call (h : Shows fb_font z t s) {call : FbCall} (htab : call ≠ .putchar 9)
    (fuel : Nat) :
    ∃ s', s.call fb_font fuel call = some s' ∧ Shows fb_font z (t.call z.bg call) s' := by
  cases call with
  | clear color => exact ⟨fb_clear s color, rfl, .clear h.on _ _ color⟩
  | putchar c =>
    refine ⟨putOther fb_font s c, ?_, h.put c⟩
    have havail : s.fb_available = true := congrArg Settings.fb_available h.on
    have hc : c ≠ 9 := fun heq => htab (heq ▸ rfl)
    show fb_putchar fb_font fuel s c = some (putOther fb_font s c)
    unfold fb_putchar
    rw [if_neg (not_not_intro havail), if_neg hc]

theorem Shows.run (h : Shows fb_font z t s) (fuel : Nat) {calls : List FbCall}
    (htab : .putchar 9 ∉ calls) :
    ∃ s', calls.foldlM (Fb.call fb_font fuel) s = some s' ∧
        Shows fb_font z (calls.foldl (TextGrid.call z.bg) t) s' := by
  induction calls generalizing s t with
  | nil => exact ⟨s, rfl, h⟩
  | cons call calls ih =>
    rw [List.mem_cons, not_or] at htab
    obtain ⟨s₁, hcall, h₁⟩ := h.call (Ne.symm htab.1) fuel
    obtain ⟨s', hrun, h'⟩ := ih h₁ htab.2
    refine ⟨s', ?_, h'⟩
    rw [List.foldlM_cons, hcall]
    exact hrun

/-- Behind `fb_init` the screen is empty. -/
theorem Shows.init {info : FbInfo} (h : z.On (fb_init info s)) :
    Shows fb_font z (.blank z.bg z.one_row z.one_col) (fb_init info s) := by
  by_cases hnone : info.phys_addr = 0 ∨ info.width = 0
  · have havail : (fb_init info s).fb_available = true := congrArg Settings.fb_available h
    unfold fb_init at havail
    rw [if_pos hnone] at havail
    cases havail
  · unfold fb_init at h ⊢
    rw [if_neg hnone] at h ⊢
    have hon : z.On _ := (fb_clear_settings _ _).symm.trans h
    have hbg : s.fb_bg = z.bg := congrArg Settings.fb_bg hon
    rw [← hbg]
    exact .clear hon z.one_row z.one_col s.fb_bg

/-- **The cursor is transparent**: behind any calls of the console without tabs the pixels, with
the saved ones in the cell of the cursor, are those of the text. -/
theorem cursor_transparent (fb_font : UInt8 → Nat → UInt8) (fuel : Nat) (z : Screen)
    (info : FbInfo) (s : Fb)
    (h : z.On (fb_init info s)) (calls : List FbCall) (htab : .putchar 9 ∉ calls) :
    ∃ s', calls.foldlM (Fb.call fb_font fuel) (fb_init info s) = some s' ∧
      ∀ x y, x < FB_CHAR_W * z.cols → y < FB_CHAR_H * z.rows →
        shown s' x y =
          (calls.foldl (TextGrid.call z.bg) (.blank z.bg z.one_row z.one_col)).render fb_font z.fg
            z.bg x y := by
  obtain ⟨s', hrun, hshows⟩ := (Shows.init h).run fuel htab
  exact ⟨s', hrun, hshows.pixels⟩

/-- The screen of `bootScreen`. -/
def bootMode : Screen where
  width := 1024
  height := 768
  pitch := 4096
  fg := 0x00C0C0C0
  bg := 0
  one_col := by decide
  one_row := by decide
  pitch_ge := by decide
  aligned := by decide
  size := by decide

/-- A newline, a letter and a screen cleared in blue. -/
theorem cursor_transparent_boot :
    ∃ s', [.putchar 10, .putchar 65, .clear 0xFF].foldlM (Fb.call (fun _ _ => 0xFF) 0)
        (fb_init ⟨0xE0000000, 1024, 768, 4096⟩ (bootScreen 0)) = some s' ∧
      ∀ x y, x < FB_CHAR_W * bootMode.cols → y < FB_CHAR_H * bootMode.rows →
        shown s' x y =
          ([.putchar 10, .putchar 65, .clear 0xFF].foldl (TextGrid.call bootMode.bg)
            (.blank bootMode.bg bootMode.one_row bootMode.one_col)).render
              (fun _ _ => 0xFF) bootMode.fg bootMode.bg x y := by
  have hon : bootMode.On (fb_init ⟨0xE0000000, 1024, 768, 4096⟩ (bootScreen 0)) :=
    (fb_clear_settings _ _).trans rfl
  exact cursor_transparent (fun _ _ => 0xFF) 0 bootMode ⟨0xE0000000, 1024, 768, 4096⟩
    (bootScreen 0) hon _ (by simp)

end Lumin.Drivers
