import Lumin.Lib.Sheet

/-!
# The VGA text console

A model of `kernel/drivers/vga/vga.c`: the text buffer at `VGA_ADDRESS` as its words, the two
static variables of the driver and the registers behind the ports 0x3D4 and 0x3D5.

`paper` is what the console is for: a typewriter on a sheet whose rows never end.
`vga_shows_sheet` is the result.  From any screen on, the buffer holds the last 25 rows of the
sheet, and the driver and the location registers of the controller hold the place of the next
character.

* `window` reads the buffer as a window, and there is one lemma for each function of the driver
  on what it does to the window.
* `Synced` says that the location registers are up to date.
-/

namespace Lumin.Drivers.VgaText

open Lumin.Lib

def VGA_WIDTH : Nat := 80
def VGA_HEIGHT : Nat := 25

def VGA_BLACK : UInt8 := 0
def VGA_LIGHT_GREY : UInt8 := 7

def vga_entry_color (fg bg : UInt8) : UInt8 := fg ||| bg <<< 4

def vga_entry (c color : UInt8) : UInt16 := c.toUInt16 ||| color.toUInt16 <<< 8

/-- The registers of the controller and the one that 0x3D4 has chosen. -/
structure Crtc where
  index : UInt8
  reg : UInt8 → UInt8

/-- `outb`. -/
def Crtc.outb (d : Crtc) (port : Nat) (v : UInt8) : Crtc :=
  if port = 0x3D4 then { d with index := v }
  else if port = 0x3D5 then { d with reg := fun i => if i = d.index then v else d.reg i }
  else d

/-- The static variables of the driver, the text buffer and the controller. -/
structure Vga where
  vga_row : Nat
  vga_col : Nat
  buf : Nat → UInt16
  crtc : Crtc

/-! ## The driver -/

/-- `buf[i] = v`. -/
def store (buf : Nat → UInt16) (i : Nat) (v : UInt16) :
    Nat → UInt16 := fun j => if j = i then v else buf j

/-- The loops of `vga_scroll` that move the rows. -/
@[irreducible] def moveRows (buf : Nat → UInt16) : Nat → UInt16 :=
  (List.range' 1 (VGA_HEIGHT - 1)).foldl (fun buf y => (List.range VGA_WIDTH).foldl (fun buf x =>
    store buf ((y - 1) * VGA_WIDTH + x) (buf (y * VGA_WIDTH + x))) buf) buf

/-- The loop of `vga_scroll` over the last row. -/
@[irreducible] def blankRow (buf : Nat → UInt16) : Nat → UInt16 :=
  (List.range VGA_WIDTH).foldl (fun buf x =>
    store buf ((VGA_HEIGHT - 1) * VGA_WIDTH + x)
      (vga_entry 32 (vga_entry_color VGA_LIGHT_GREY VGA_BLACK))) buf

/-- `vga_scroll`. -/
def vga_scroll (s : Vga) : Vga :=
  { s with buf := blankRow (moveRows s.buf), vga_row := VGA_HEIGHT - 1 }

/-- `vga_sync_cursor`. -/
def vga_sync_cursor (s : Vga) : Vga :=
  let pos := UInt16.ofNat (s.vga_row * VGA_WIDTH + s.vga_col)
  { s with
    crtc := (((s.crtc.outb 0x3D4 0x0E).outb 0x3D5 (pos >>> 8).toUInt8).outb 0x3D4 0x0F).outb 0x3D5
      (pos &&& 0xFF).toUInt8 }

/-- The loop of `vga_clear`. -/
@[irreducible] def blankAll (buf : Nat → UInt16) (color : UInt8) : Nat → UInt16 :=
  (List.range (VGA_WIDTH * VGA_HEIGHT)).foldl (fun buf i => store buf i (vga_entry 32 color)) buf

/-- `vga_clear`. -/
def vga_clear (s : Vga) (color : UInt8) : Vga :=
  vga_sync_cursor { s with buf := blankAll s.buf color, vga_row := 0, vga_col := 0 }

/-- `vga_col = 0; if (++vga_row == VGA_HEIGHT) vga_scroll();` -/
def newRow (s : Vga) : Vga :=
  let s := { s with vga_col := 0, vga_row := s.vga_row + 1 }
  if s.vga_row = VGA_HEIGHT then vga_scroll s else s

/-- The loop of a tab. -/
def tabLoop (color : UInt8) (stop : Nat) (s : Vga) : Vga :=
  if s.vga_col < stop ∧ s.vga_col < VGA_WIDTH then
    tabLoop color stop
      { s with buf := store s.buf (s.vga_row * VGA_WIDTH + s.vga_col) (vga_entry 32 color),
               vga_col := s.vga_col + 1 }
  else s
termination_by stop - s.vga_col

/-- `vga_putchar`. -/
def vga_putchar (s : Vga) (c color : UInt8) : Vga :=
  if c = 13 then vga_sync_cursor { s with vga_col := 0 }
  else if c = 8
    then vga_sync_cursor (if s.vga_col > 0 then { s with vga_col := s.vga_col - 1 } else s)
  else if c = 10 then vga_sync_cursor (newRow s)
  else if c = 9 then
    let s := tabLoop color ((s.vga_col + 4) / 4 * 4) s
    vga_sync_cursor (if s.vga_col = VGA_WIDTH then newRow s else s)
  else
    let s := { s with buf := store s.buf (s.vga_row * VGA_WIDTH + s.vga_col) (vga_entry c color),
                      vga_col := s.vga_col + 1 }
    vga_sync_cursor (if s.vga_col = VGA_WIDTH then newRow s else s)

/-- `vga_write`. -/
def vga_write (s : Vga) (str : List UInt8) (color : UInt8) : Vga :=
  str.foldl (fun s c => vga_putchar s c color) s

/-! ## The window -/

/-- What the last row is filled with when the text scrolls. -/
def filler : UInt16 := vga_entry 32 (vga_entry_color VGA_LIGHT_GREY VGA_BLACK)

/-- The text buffer in rows. -/
def Vga.window (s : Vga) : Window UInt16 where
  cell := fun y x => s.buf (y * VGA_WIDTH + x)
  row := s.vga_row
  col := s.vga_col

/-- The same text in the cells that are on the screen. -/
abbrev SameText (w w' : Window UInt16) : Prop := w.Agrees VGA_HEIGHT VGA_WIDTH Eq w'

/-- The strokes of a character in the column `col`. -/
def strokes (col : Nat) (c color : UInt8) : List (Stroke UInt16) :=
  if c = 13 then [.carriageReturn]
  else if c = 8 then [.backspace]
  else if c = 10 then [.feed]
  else if c = 9 then List.replicate (4 - col % 4) (.write (vga_entry 32 color))
  else [.write (vga_entry c color)]

/-- The window is changed by a stroke. -/
abbrev onWindow (w : Window UInt16) (t : Stroke UInt16) : Window UInt16 :=
  w.type VGA_HEIGHT VGA_WIDTH filler t

variable {s : Vga} {w : Window UInt16}

theorem SameText.trans {w₁ w₂ w₃ : Window UInt16} (h : SameText w₁ w₂) (h' : SameText w₂ w₃) :
    SameText w₁ w₃ where
  row_eq := h.row_eq.trans h'.row_eq
  col_eq := h.col_eq.trans h'.col_eq
  cells := fun y hy x hx => (h.cells y hy x hx).trans (h'.cells y hy x hx)

/-- A stroke on the same text. -/
theorem SameText.type {w' : Window UInt16} (h : SameText w w') (t : Stroke UInt16) :
    SameText (onWindow w t) (onWindow w' t) :=
  Window.Agrees.type h rfl t.agrees_refl

/-! ## Loops over the buffer -/

variable (buf : Nat → UInt16) (i : Nat)

/-- A row that is copied to the row in front of it. -/
theorem copyRow_apply (y : Nat) {n : Nat} (hn : n ≤ 80) :
    (List.range n).foldl (fun buf x => store buf (y * 80 + x) (buf ((y + 1) * 80 + x))) buf i =
      if y * 80 ≤ i ∧ i < y * 80 + n then buf (i + 80) else buf i := by
  induction n generalizing i with
  | zero => rw [if_neg (by omega)]; rfl
  | succ n ih =>
    rw [List.range_succ, List.foldl_append, List.foldl_cons, List.foldl_nil, store]
    by_cases hlast : i = y * 80 + n
    · rw [if_pos hlast, ih _ (by omega), if_neg (by omega), if_pos (by omega)]
      congr 1
      omega
    · rw [if_neg hlast, ih _ (by omega)]
      exact if_congr (by omega) rfl rfl

theorem copyRows_apply (k : Nat) :
    (List.range' 1 k).foldl (fun buf y => (List.range 80).foldl (fun buf x =>
        store buf ((y - 1) * 80 + x) (buf (y * 80 + x))) buf) buf i =
      if i < k * 80 then buf (i + 80) else buf i := by
  induction k generalizing i with
  | zero => rw [if_neg (by omega)]; rfl
  | succ k ih =>
    rw [List.range'_concat, List.foldl_append, List.foldl_cons, List.foldl_nil, Nat.one_mul,
      Nat.add_sub_cancel_left,
      Nat.add_comm 1 k, copyRow_apply _ _ k (le_refl 80)]
    by_cases hlast : k * 80 ≤ i ∧ i < k * 80 + 80
    · rw [if_pos hlast, ih, if_neg (by omega), if_pos (by omega)]
    · rw [if_neg hlast, ih]
      exact if_congr (by omega) rfl rfl

/-- Stores of one value from `a` on. -/
theorem fill_apply (a n : Nat) (v : UInt16) :
    (List.range n).foldl (fun buf x => store buf (a + x) v) buf i = if a ≤ i ∧
      i < a + n then v else buf i := by
  induction n with
  | zero => rw [if_neg (by omega)]; rfl
  | succ n ih =>
    rw [List.range_succ, List.foldl_append, List.foldl_cons, List.foldl_nil, store]
    by_cases hlast : i = a + n
    · rw [if_pos hlast, if_pos (by omega)]
    · rw [if_neg hlast, ih]
      exact if_congr (by omega) rfl rfl

theorem moveRows_apply : moveRows buf i = if i < 1920 then buf (i + 80) else buf i := by
  unfold moveRows
  exact copyRows_apply buf i 24

theorem blankRow_apply : blankRow buf i = if 1920 ≤ i ∧ i < 2000 then filler else buf i := by
  unfold blankRow
  exact fill_apply buf i 1920 80 filler

theorem blankAll_apply (color : UInt8) :
    blankAll buf color i = if i < 2000 then vga_entry 32 color else buf i := by
  have hfill := fill_apply buf i 0 2000 (vga_entry 32 color)
  simp only [Nat.zero_add, Nat.zero_le, true_and] at hfill
  unfold blankAll
  exact hfill

/-! ## The window -/

/-- A character in the cell of the cursor. -/
def putCell (s : Vga) (v : UInt16) : Vga :=
  { s with buf := store s.buf (s.vga_row * VGA_WIDTH + s.vga_col) v, vga_col := s.vga_col + 1 }

/-- The end of a row. -/
def wrap (s : Vga) : Vga := if s.vga_col = VGA_WIDTH then newRow s else s

/-- The cursor is on the screen. -/
abbrev OnScreen (s : Vga) : Prop := s.window.Inside VGA_HEIGHT VGA_WIDTH

theorem SameText.inside {w' : Window UInt16} (h : SameText w w')
    (hw : w'.Inside VGA_HEIGHT VGA_WIDTH) : w.Inside VGA_HEIGHT VGA_WIDTH :=
  ⟨h.row_eq ▸ hw.row_lt, h.col_eq ▸ hw.col_lt⟩

theorem newRow_window (hrow : s.vga_row < VGA_HEIGHT) :
    SameText (newRow s).window (s.window.feed VGA_HEIGHT filler) := by
  unfold newRow Window.feed
  by_cases hlast : s.vga_row + 1 = VGA_HEIGHT
  · have hfull : ¬ s.window.row + 1 < VGA_HEIGHT := fun h => absurd hlast (Nat.ne_of_lt h)
    rw [if_pos hlast, if_neg hfull]
    refine ⟨(Nat.succ.inj hlast).symm, rfl, fun y hy x hx => ?_⟩
    unfold VGA_HEIGHT at hy
    unfold VGA_WIDTH at hx
    change blankRow (moveRows s.buf) (y * 80 + x) = if y + 1 < 25 then s.buf ((y + 1) * 80 + x)
      else filler
    rw [blankRow_apply, moveRows_apply]
    by_cases hy' : y + 1 < 25
    · rw [if_neg (by omega), if_pos (by omega), if_pos hy',
        show (y + 1) * 80 + x = y * 80 + x + 80 by omega]
    · rw [if_pos (by omega), if_neg hy']
  · have hnext : s.window.row + 1 < VGA_HEIGHT := Nat.lt_of_le_of_ne hrow hlast
    rw [if_neg hlast, if_pos hnext]
    exact ⟨rfl, rfl, fun _ _ _ _ => rfl⟩

theorem putCell_cells (hcol : s.vga_col < VGA_WIDTH) (v : UInt16) {y x : Nat}
    (hx : x < VGA_WIDTH) :
    (putCell s v).window.cell y x = (s.window.write v).cell y x := by
  unfold VGA_WIDTH at hcol hx
  change (if y * 80 + x = s.vga_row * 80 + s.vga_col then v else s.buf (y * 80 + x)) =
    if y = s.vga_row ∧ x = s.vga_col then v else s.buf (y * 80 + x)
  exact if_congr (by omega) rfl rfl

/-- A feed does not look at the column. -/
theorem feed_col (w : Window UInt16) (k : Nat) :
    Window.feed VGA_HEIGHT filler { w with col := k } = w.feed VGA_HEIGHT filler := rfl

/-- A character and the end of a row are the stroke. -/
theorem wrap_putCell_window (h : OnScreen s) (v : UInt16) :
    SameText (wrap (putCell s v)).window (onWindow s.window (.write v)) := by
  have hcol : s.vga_col < VGA_WIDTH := h.col_lt
  have hcells : SameText (putCell s v).window { s.window.write v with col := s.vga_col + 1 } :=
    ⟨rfl, rfl, fun y _ x hx => putCell_cells hcol v hx⟩
  change SameText _ ((s.window.write v).advance VGA_HEIGHT VGA_WIDTH filler)
  unfold wrap Window.advance
  by_cases hlast : (putCell s v).vga_col = VGA_WIDTH
  · have hend : ¬ (s.window.write v).col + 1 < VGA_WIDTH := fun h => absurd hlast (Nat.ne_of_lt h)
    rw [if_pos hlast, if_neg hend, ← feed_col _ (s.vga_col + 1)]
    exact (newRow_window (s := putCell s v) h.row_lt).trans (Window.Agrees.feed hcells rfl)
  · have hnext : (s.window.write v).col + 1 < VGA_WIDTH := Nat.lt_of_le_of_ne hcol hlast
    rw [if_neg hlast, if_pos hnext]
    exact hcells

theorem tabLoop_done {color : UInt8} {stop : Nat} (h : stop ≤ s.vga_col) :
    tabLoop color stop s = s := by
  rw [tabLoop, if_neg fun hc => absurd hc.1 (Nat.not_lt.2 h)]

theorem tabLoop_next {color : UInt8} {stop : Nat} (h : s.vga_col < stop)
    (hcol : s.vga_col < VGA_WIDTH) :
    tabLoop color stop s = tabLoop color stop (putCell s (vga_entry 32 color)) := by
  rw [tabLoop, if_pos ⟨h, hcol⟩]
  rfl

theorem SameText.typeAll {w' : Window UInt16} (h : SameText w w') (ts : List (Stroke UInt16)) :
    SameText (ts.foldl onWindow w) (ts.foldl onWindow w') := by
  induction ts generalizing w w' with
  | nil => exact h
  | cons t ts ih => exact ih (h.type t)

/-- The blanks of a tab that ends at or in front of the end of the row. -/
theorem wrap_tabLoop_window (h : OnScreen s) (color : UInt8) (k : Nat)
    (hk : s.vga_col + (k + 1) ≤ VGA_WIDTH) :
    SameText (wrap (tabLoop color (s.vga_col + (k + 1)) s)).window
      ((List.replicate (k + 1) (.write (vga_entry 32 color))).foldl onWindow s.window) := by
  have hfirst := wrap_putCell_window h (vga_entry 32 color)
  induction k generalizing s with
  | zero =>
    rw [tabLoop_next (by omega) h.col_lt,
      tabLoop_done (s := putCell s _) (le_refl (s.vga_col + 1))]
    exact hfirst
  | succ k ih =>
    -- the first blank is in front of the last column, so that the row does not end
    have hnext : (putCell s (vga_entry 32 color)).vga_col < VGA_WIDTH := by
      change s.vga_col + 1 < VGA_WIDTH
      omega
    have hstay : wrap (putCell s (vga_entry 32 color)) = putCell s (vga_entry 32 color) :=
      if_neg (Nat.ne_of_lt hnext)
    rw [hstay] at hfirst
    have hon : OnScreen (putCell s (vga_entry 32 color)) := ⟨h.row_lt, hnext⟩
    have hstop :
        s.vga_col + (k + 1 + 1) = (putCell s (vga_entry 32 color)).vga_col + (k + 1) := by
      change s.vga_col + (k + 1 + 1) = s.vga_col + 1 + (k + 1)
      omega
    rw [tabLoop_next (by omega) h.col_lt, hstop, List.replicate_succ, List.foldl_cons]
    exact (ih hon (hstop ▸ hk) (wrap_putCell_window hon _)).trans (hfirst.typeAll _)

/-- A character does to the window what its strokes do. -/
theorem vga_putchar_window (h : OnScreen s) (c color : UInt8) :
    SameText (vga_putchar s c color).window
      ((strokes s.vga_col c color).foldl onWindow s.window) := by
  have hcol : s.vga_col < 80 := h.col_lt
  unfold vga_putchar strokes
  by_cases hcr : c = 13
  · rw [if_pos hcr, if_pos hcr]
    exact ⟨rfl, rfl, fun _ _ _ _ => rfl⟩
  by_cases hbs : c = 8
  · rw [if_neg hcr, if_neg hcr, if_pos hbs, if_pos hbs]
    split
    · exact ⟨rfl, rfl, fun _ _ _ _ => rfl⟩
    · refine ⟨rfl, ?_, fun _ _ _ _ => rfl⟩
      change s.vga_col = s.vga_col - 1
      omega
  by_cases hlf : c = 10
  · rw [if_neg hcr, if_neg hcr, if_neg hbs, if_neg hbs, if_pos hlf, if_pos hlf]
    exact newRow_window h.row_lt
  by_cases htab : c = 9
  · have hstop : (s.vga_col + 4) / 4 * 4 = s.vga_col + (3 - s.vga_col % 4 + 1) := by omega
    rw [if_neg hcr, if_neg hcr, if_neg hbs, if_neg hbs, if_neg hlf, if_neg hlf, if_pos htab,
      if_pos htab, hstop,
      show 4 - s.vga_col % 4 = 3 - s.vga_col % 4 + 1 by omega]
    exact wrap_tabLoop_window h color _ (by unfold VGA_WIDTH; omega)
  · rw [if_neg hcr, if_neg hcr, if_neg hbs, if_neg hbs, if_neg hlf, if_neg hlf, if_neg htab,
      if_neg htab]
    exact wrap_putCell_window h (vga_entry c color)

/-! ## The location of the cursor -/

/-- The location registers of the controller. -/
def Crtc.location (d : Crtc) : Nat := (d.reg 0x0E).toNat * 256 + (d.reg 0x0F).toNat

/-- The bytes of a 16-bit number. -/
theorem bytes_of_uint16 (n : UInt16) :
    (n >>> 8).toUInt8.toNat * 256 + (n &&& 0xFF).toUInt8.toNat = n.toNat := by
  have hlt := n.toNat_lt
  have hhigh : (n >>> 8).toUInt8.toNat = n.toNat / 256 := by
    rw [UInt16.toNat_toUInt8, UInt16.toNat_shiftRight, show (8 : UInt16).toNat % 16 = 8 from rfl,
      Nat.shiftRight_eq_div_pow]
    omega
  have hlow : (n &&& 0xFF).toUInt8.toNat = n.toNat % 256 := by
    rw [UInt16.toNat_toUInt8, UInt16.toNat_and, show (0xFF : UInt16).toNat = 2 ^ 8 - 1 from rfl,
      Nat.and_two_pow_sub_one_eq_mod]
    omega
  omega

/-- The controller knows the place of the next character. -/
def Synced (s : Vga) : Prop := s.crtc.location = s.vga_row * VGA_WIDTH + s.vga_col

theorem synced_sync (h : OnScreen s) : Synced (vga_sync_cursor s) := by
  have hrow : s.vga_row < 25 := h.row_lt
  have hcol : s.vga_col < 80 := h.col_lt
  have hbytes := bytes_of_uint16 (UInt16.ofNat (s.vga_row * VGA_WIDTH + s.vga_col))
  refine hbytes.trans ?_
  change _ = s.vga_row * 80 + s.vga_col
  unfold VGA_WIDTH
  rw [UInt16.toNat_ofNat']
  omega

/-- Every character ends with the cursor that is on the screen after it. -/
theorem vga_putchar_sync (s : Vga) (c color : UInt8) :
    ∃ s', vga_putchar s c color = vga_sync_cursor s' := by
  unfold vga_putchar
  by_cases hcr : c = 13
  · exact ⟨_, if_pos hcr⟩
  rw [if_neg hcr]
  by_cases hbs : c = 8
  · exact ⟨_, if_pos hbs⟩
  rw [if_neg hbs]
  by_cases hlf : c = 10
  · exact ⟨_, if_pos hlf⟩
  rw [if_neg hlf]
  by_cases htab : c = 9
  · exact ⟨_, if_pos htab⟩
  · exact ⟨_, if_neg htab⟩

theorem vga_putchar_synced (h : OnScreen s) (c color : UInt8) :
    OnScreen (vga_putchar s c color) ∧ Synced (vga_putchar s c color) := by
  have hinside :
      ∀ (ts : List (Stroke UInt16)) (w : Window UInt16), w.Inside VGA_HEIGHT VGA_WIDTH →
      (ts.foldl onWindow w).Inside VGA_HEIGHT VGA_WIDTH := by
    intro ts
    induction ts with
    | nil => exact fun _ hw => hw
    | cons t ts ih => exact fun w hw => ih _ (hw.type t)
  have hon : OnScreen (vga_putchar s c color) :=
    (vga_putchar_window h c color).inside (hinside _ _ h)
  obtain ⟨s', hs'⟩ := vga_putchar_sync s c color
  rw [hs'] at hon ⊢
  exact ⟨hon, synced_sync (s := s') hon⟩

/-! ## The sheet -/

/-- A blank sheet.  The first screen has the colour that `vga_clear` was given. -/
def blankSheet (color : UInt8) : Sheet UInt16 where
  cell := fun r _ => if r < VGA_HEIGHT then vga_entry 32 color else filler
  line := 0
  col := 0

/-- A character typed on the sheet. -/
def onSheet (t : Sheet UInt16) (c color : UInt8) : Sheet UInt16 :=
  (strokes t.col c color).foldl (Sheet.type VGA_WIDTH) t

/-- The driver shows the end of the sheet. -/
abbrev ShowsSheet (s : Vga) (t : Sheet UInt16) : Prop :=
  s.window.Shows VGA_HEIGHT VGA_WIDTH Eq filler t

theorem SameText.shows {α : Type} {R : UInt16 → α → Prop} {blank : α} {w' : Window UInt16}
    {t : Sheet α} (h : SameText w w') (hw : w'.Shows VGA_HEIGHT VGA_WIDTH R blank t) :
    w.Shows VGA_HEIGHT VGA_WIDTH R blank t where
  inside := h.inside hw.inside
  row_eq := h.row_eq ▸ hw.row_eq
  col_eq := h.col_eq.trans hw.col_eq
  shown := fun y hy x hx => (h.cells y hy x hx).symm ▸ hw.shown y hy x hx
  fresh := hw.fresh

theorem ShowsSheet.clear (s : Vga) (color : UInt8) :
    ShowsSheet (vga_clear s color) (blankSheet color) where
  inside := ⟨Nat.zero_lt_succ 24, Nat.zero_lt_succ 79⟩
  row_eq := rfl
  col_eq := rfl
  shown := by
    intro y hy x hx
    have htop : (blankSheet color).top VGA_HEIGHT + y = y := Nat.zero_add y
    unfold VGA_WIDTH at hx
    unfold VGA_HEIGHT at hy
    have hbuf : (vga_clear s color).buf = blankAll s.buf color := rfl
    unfold Vga.window
    dsimp only
    rw [hbuf, blankAll_apply, if_pos (by unfold VGA_WIDTH; omega), htop]
    exact (if_pos hy).symm
  fresh := fun r k _ hr => if_neg (Nat.not_lt.2 hr)

/-- A character typed on the screen is the character typed on the sheet. -/
theorem ShowsSheet.putchar {t : Sheet UInt16} (h : ShowsSheet s t) (c color : UInt8) :
    ShowsSheet (vga_putchar s c color) (onSheet t c color) := by
  have hcol : s.vga_col = t.col := h.col_eq
  unfold onSheet
  rw [← hcol]
  exact (vga_putchar_window h.inside c color).shows (h.typeAll _)

/-- What is on the screen as a sheet, with blank rows behind it. -/
def Vga.sheet (s : Vga) : Sheet UInt16 where
  cell := fun r k => if r < VGA_HEIGHT then s.buf (r * VGA_WIDTH + k) else filler
  line := s.vga_row
  col := s.vga_col

theorem ShowsSheet.start (h : OnScreen s) : ShowsSheet s s.sheet := by
  have htop : s.sheet.top VGA_HEIGHT = 0 := Nat.sub_eq_zero_of_le h.row_lt
  refine ⟨h, ?_, rfl, fun y hy x _ => ?_, fun r k _ hr => if_neg (Nat.not_lt.2 hr)⟩
  · rw [htop]
    exact Nat.zero_add _
  · rw [htop, Nat.zero_add]
    exact (if_pos hy).symm

/-- A call of the driver. -/
inductive VgaCall where
  | putchar (c color : UInt8)
  | clear (color : UInt8)

def Vga.call (s : Vga) : VgaCall → Vga
  | .putchar c color => vga_putchar s c color
  | .clear color => vga_clear s color

/-- The same on a sheet: `vga_clear` takes a new one. -/
def paper (t : Sheet UInt16) : VgaCall → Sheet UInt16
  | .putchar c color => onSheet t c color
  | .clear color => blankSheet color

theorem ShowsSheet.call {t : Sheet UInt16} (h : ShowsSheet s t) (o : VgaCall) :
    ShowsSheet (s.call o) (paper t o) ∧ Synced (s.call o) := by
  cases o with
  | putchar c color => exact ⟨h.putchar c color, (vga_putchar_synced h.inside c color).2⟩
  | clear color => exact ⟨.clear s color, synced_sync ⟨Nat.zero_lt_succ 24, Nat.zero_lt_succ 79⟩⟩

/-- After the first call the location registers are right for good. -/
theorem ShowsSheet.run {t : Sheet UInt16} (h : ShowsSheet s t) (calls : List VgaCall) :
    ShowsSheet (calls.foldl Vga.call s) (calls.foldl paper t) ∧
      (Synced s ∨ calls ≠ [] → Synced (calls.foldl Vga.call s)) := by
  induction calls generalizing s t with
  | nil => exact ⟨h, fun hor => hor.resolve_right fun hne => hne rfl⟩
  | cons o calls ih =>
    obtain ⟨hshows, hsync⟩ := h.call o
    obtain ⟨hrun, hlast⟩ := ih hshows
    exact ⟨hrun, fun _ => hlast (.inl hsync)⟩

/-- **The screen shows the end of the sheet**: whatever is printed and cleared, the text buffer
holds the last rows of the sheet on which the same is typed, the driver has the place of the next
character on it, and so have the location registers after every call. -/
theorem vga_shows_sheet (s : Vga) (h : OnScreen s) (calls : List VgaCall) :
    let s' := calls.foldl Vga.call s
    let t := calls.foldl paper s.sheet
    (∀ y < VGA_HEIGHT, ∀ x < VGA_WIDTH, s'.buf (y * VGA_WIDTH + x) =
      t.cell (t.top VGA_HEIGHT + y) x) ∧
      (s'.vga_row < VGA_HEIGHT ∧ t.top VGA_HEIGHT + s'.vga_row = t.line) ∧
      (s'.vga_col < VGA_WIDTH ∧ s'.vga_col = t.col) ∧
      (calls ≠ [] → s'.crtc.location = s'.vga_row * VGA_WIDTH + s'.vga_col) := by
  obtain ⟨hshows, hsync⟩ := (ShowsSheet.start h).run calls
  exact ⟨hshows.shown, ⟨hshows.inside.row_lt, hshows.row_eq⟩,
    ⟨hshows.inside.col_lt, hshows.col_eq⟩, fun hne => hsync (.inr hne)⟩

/-- The last cell of the screen, which scrolls. -/
theorem vga_shows_sheet_last :
    let s : Vga := ⟨24, 79, fun i => UInt16.ofNat i, ⟨0, fun _ => 0⟩⟩
    let s' := s.call (.putchar 65 7)
    let t := paper s.sheet (.putchar 65 7)
    t.top VGA_HEIGHT = 1 ∧ (s'.vga_row, s'.vga_col) = (24, 0) ∧
      (∀ y < VGA_HEIGHT, ∀ x < VGA_WIDTH, s'.buf (y * VGA_WIDTH + x) = t.cell (1 + y) x) ∧
      s'.crtc.location = 1920 := by
  intro s s' t
  obtain ⟨hcells, -, -, hlocation⟩ :=
    vga_shows_sheet s ⟨Nat.lt_succ_self 24, Nat.lt_succ_self 79⟩ [.putchar 65 7]
  exact ⟨rfl, rfl, hcells, hlocation (List.cons_ne_nil _ _)⟩

end Lumin.Drivers.VgaText
