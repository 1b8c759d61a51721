import Lumin.Drivers.FbText
import Lumin.Drivers.Vga

/-!
# Both consoles at once

`SYS_WRITE` on the descriptors 1 and 2 and `SYS_CLEAR` of `kernel/proc/syscall.c`.  Each
character goes to the serial port, to the VGA text console and, where there is one, to the
framebuffer.

`InStep` says that both show the end of one sheet of text, each as many rows as it has.
`consoles_agree` is the result.  A framebuffer of any size stays in step with the VGA console, as
long as nothing but printable characters, newlines, carriage returns and backspaces is written
and no row of either is filled.  Of the other characters a tab is where the framebuffer may
hang, and the framebuffer drops the control characters that the VGA console draws; a full row
ends in different places on the two.
-/

namespace Lumin.Drivers.Consoles

open Lumin.Lib VgaText

/-- `fb_rgb`. -/
def fb_rgb (r g b : UInt8) : UInt32 :=
  (0xFF000000 : UInt32) ||| r.toUInt32 <<< 16 ||| g.toUInt32 <<< 8 ||| b.toUInt32

/-- The consoles, and what the serial port has sent. -/
structure Console where
  serial : List UInt8
  vga : Vga
  vga_default_color : UInt8
  fb : Fb

/-- The loop body of `SYS_WRITE`. -/
def putchar (fb_font : UInt8 → Nat → UInt8) (fuel : Nat) (k : Console) (c : UInt8) :
    Option Console :=
  let k := { k with serial := k.serial ++ [c], vga := vga_putchar k.vga c k.vga_default_color }
  if k.fb.fb_available then (fb_putchar fb_font fuel k.fb c).map fun fb => { k with fb := fb }
    else some k

/-- `SYS_WRITE` of a task. -/
def SYS_WRITE (fb_font : UInt8 → Nat → UInt8) (fuel : Nat) (k : Console) (fd : Int)
    (buf : List UInt8) : Option Console :=
  if fd = 1 ∨ fd = 2 then buf.foldlM (putchar fb_font fuel) k else some k

/-- `SYS_CLEAR`. -/
def SYS_CLEAR (k : Console) : Console :=
  let k := { k with vga := vga_clear k.vga k.vga_default_color }
  if k.fb.fb_available then { k with fb := fb_clear k.fb (fb_rgb 0 0 0) } else k

/-- A system call that reaches the consoles. -/
inductive Call
  | clear
  | write (fd : Int) (buf : List UInt8)

def Console.call (fb_font : UInt8 → Nat → UInt8) (fuel : Nat) (k : Console) :
    Call → Option Console
  | .clear => some (SYS_CLEAR k)
  | .write fd buf => SYS_WRITE fb_font fuel k fd buf

/-! ## The text in the cells -/

/-- Characters that both consoles take for the same. -/
def Plain (c : UInt8) : Prop := c = 8 ∨ c = 10 ∨ c = 13 ∨ 32 ≤ c

/-- Nothing but such characters is written. -/
def Call.Plain : Call → Prop
  | .clear => True
  | .write _ buf => ∀ c ∈ buf, Consoles.Plain c

/-- The character in a cell of the framebuffer. -/
def char : Cell → UInt8
  | .blank _ => 32
  | .glyph c => c

/-- The cell of the framebuffer has the character. -/
def HasChar (cell : Cell) (c : UInt8) : Prop := char cell = c

/-- The cell of the VGA text buffer has the character. -/
def HasCode (v : UInt16) (c : UInt8) : Prop := v.toUInt8 = c

theorem vga_entry_char (c color : UInt8) : (vga_entry c color).toUInt8 = c := by
  apply UInt8.eq_of_toBitVec_eq
  unfold vga_entry
  ext i
  simp

/-! ## A character -/

variable {fb_font : UInt8 → Nat → UInt8} {fuel : Nat} {z : Screen} {rows cols : Nat}
  {t : TextGrid rows cols} {c : UInt8}

/-- The text of the framebuffer as a window. -/
def window (t : TextGrid rows cols) : Window Cell := ⟨t.cell, t.row, t.col⟩

/-- The stroke of a character that both consoles take for the same. -/
def stroke (c : UInt8) : Stroke Cell :=
  if c = 13 then .carriageReturn else if c = 8 then .backspace else if c = 10 then .feed
    else .write (.glyph c)

theorem window_feed (bg : UInt32) (t : TextGrid rows cols) :
    window (t.carriageReturn.nextRow bg) = (window t).feed rows (.blank bg) := by
  unfold TextGrid.nextRow Window.feed
  by_cases hnext : t.row + 1 < rows
  · rw [dif_pos (c := t.carriageReturn.row + 1 < rows) hnext,
      if_pos (c := (window t).row + 1 < rows) hnext]
    rfl
  · rw [dif_neg (c := t.carriageReturn.row + 1 < rows) hnext,
      if_neg (c := (window t).row + 1 < rows) hnext]
    rfl

theorem window_advance (bg : UInt32) (t : TextGrid rows cols) :
    window (t.advance bg) = (window t).advance rows cols (.blank bg) := by
  unfold TextGrid.advance Window.advance
  by_cases hnext : t.col + 1 < cols
  · rw [dif_pos hnext, if_pos (c := (window t).col + 1 < cols) hnext]
    rfl
  · rw [dif_neg hnext, if_neg (c := (window t).col + 1 < cols) hnext]
    exact window_feed bg t

theorem window_put (bg : UInt32) (t : TextGrid rows cols) (hc : Plain c) :
    window (t.put bg c) = (window t).type rows cols (.blank bg) (stroke c) := by
  unfold TextGrid.put stroke
  by_cases hlf : c = 10
  · rw [if_pos hlf, hlf]
    exact window_feed bg t
  by_cases hcr : c = 13
  · rw [if_neg hlf, if_pos hcr, if_pos hcr]
    rfl
  by_cases hbs : c = 8
  · rw [if_neg hlf, if_neg hcr, if_neg hcr, if_pos hbs, if_pos hbs]
    rfl
  have hge : 32 ≤ c := hc.resolve_left hbs |>.resolve_left hlf |>.resolve_left hcr
  rw [if_neg hlf, if_neg hcr, if_neg hcr, if_neg hbs, if_neg hbs, if_neg (UInt8.not_lt.2 hge),
    if_neg hlf]
  exact window_advance bg (t.write c)

/-- The character typed on a sheet. -/
def typed (c : UInt8) : Stroke UInt8 :=
  if c = 13 then .carriageReturn else if c = 8 then .backspace else if c = 10 then .feed
    else .write c

theorem stroke_agrees (c : UInt8) : Stroke.Agrees HasChar (stroke c) (typed c) := by
  unfold stroke typed
  split_ifs
  · exact .carriageReturn
  · exact .backspace
  · exact .feed
  · exact .write rfl

/-- The VGA console gets the same stroke. -/
theorem strokes_plain (hc : Plain c) (col : Nat) (color : UInt8) :
    ∃ v, strokes col c color = [v] ∧ Stroke.Agrees HasCode v (typed c) := by
  unfold strokes typed
  by_cases hcr : c = 13
  · rw [if_pos hcr, if_pos hcr]
    exact ⟨_, rfl, .carriageReturn⟩
  by_cases hbs : c = 8
  · rw [if_neg hcr, if_neg hcr, if_pos hbs, if_pos hbs]
    exact ⟨_, rfl, .backspace⟩
  by_cases hlf : c = 10
  · rw [if_neg hcr, if_neg hcr, if_neg hbs, if_neg hbs, if_pos hlf, if_pos hlf]
    exact ⟨_, rfl, .feed⟩
  have hge : 32 ≤ c := hc.resolve_left hbs |>.resolve_left hlf |>.resolve_left hcr
  have htab : c ≠ 9 := by
    rintro rfl
    exact absurd hge (by decide)
  rw [if_neg hcr, if_neg hcr, if_neg hbs, if_neg hbs, if_neg hlf, if_neg hlf, if_neg htab]
  exact ⟨_, rfl, .write (vga_entry_char c color)⟩

theorem le_of_typed (hc : Plain c) {v : UInt8} (h : typed c = .write v) : 32 ≤ c := by
  rcases hc with rfl | rfl | rfl | hge
  · cases h
  · cases h
  · cases h
  · exact hge

/-! ## The sheet -/

/-- A character typed on the sheet, which is as wide as the VGA console. -/
def typeChar (t : Sheet UInt8) (c : UInt8) : Sheet UInt8 := t.type VGA_WIDTH (typed c)

def blankPaper : Sheet UInt8 := ⟨fun _ _ => 32, 0, 0⟩

/-- A call on the sheet. -/
def Call.onSheet (t : Sheet UInt8) : Call → Sheet UInt8
  | .clear => blankPaper
  | .write fd buf => if fd = 1 ∨ fd = 2 then buf.foldl typeChar t else t

/-- The characters fill no row of `n` columns. -/
def Narrow (n : Nat) : Sheet UInt8 → List UInt8 → Prop
  | _, [] => True
  | t, c :: buf => (32 ≤ c → t.col + 1 < n) ∧ Narrow n (typeChar t c) buf

/-- The calls fill no row of `n` columns. -/
def Fits (n : Nat) : Sheet UInt8 → List Call → Prop
  | _, [] => True
  | t, .clear :: calls => Fits n (Call.clear.onSheet t) calls
  | t, .write fd buf :: calls =>
    (fd = 1 ∨ fd = 2 → Narrow n t buf) ∧ Fits n ((Call.write fd buf).onSheet t) calls

/-- Both consoles show the end of the sheet. -/
structure InStep (fb_font : UInt8 → Nat → UInt8) (z : Screen) (k : Console) (t : Sheet UInt8) :
    Prop where
  vga : k.vga.window.Shows VGA_HEIGHT VGA_WIDTH HasCode 32 t
  fb : ∃ g : TextGrid z.rows z.cols, Shows fb_font z g k.fb ∧
    (window g).Shows z.rows z.cols HasChar 32 t

/-! ## Runs -/

variable {k : Console} {p : Sheet UInt8} {calls : List Call}

theorem SYS_CLEAR_serial (k : Console) : (SYS_CLEAR k).serial = k.serial := by
  unfold SYS_CLEAR
  dsimp only
  split
  · rfl
  · rfl

/-- A cleared screen is a blank sheet, in any state before. -/
theorem InStep.clear (fb_font : UInt8 → Nat → UInt8) (hon : z.On k.fb) :
    InStep fb_font z (SYS_CLEAR k) blankPaper := by
  have havail : k.fb.fb_available = true := congrArg Settings.fb_available hon
  have hsheet := ShowsSheet.clear k.vga k.vga_default_color
  unfold SYS_CLEAR
  rw [if_pos havail]
  have hfb : Shows fb_font z (.blank (fb_rgb 0 0 0) z.one_row z.one_col)
      (fb_clear k.fb (fb_rgb 0 0 0)) :=
    Shows.clear hon z.one_row z.one_col (fb_rgb 0 0 0)
  refine ⟨⟨hsheet.inside, rfl, rfl, fun y hy x hx => ?_, fun _ _ _ _ => rfl⟩, _, hfb,
    ⟨⟨z.one_row, z.one_col⟩, ?_, rfl, fun _ _ _ _ => rfl, fun _ _ _ _ => rfl⟩⟩
  · unfold HasCode
    rw [hsheet.shown y hy x hx]
    unfold blankSheet
    dsimp only
    split
    · exact vga_entry_char 32 _
    · exact vga_entry_char 32 _
  · exact Nat.sub_eq_zero_of_le z.one_row

/-- A character keeps the consoles in step. -/
theorem InStep.putchar (h : InStep fb_font z k p) (hc : Plain c)
    (hcol : 32 ≤ c → p.col + 1 < min VGA_WIDTH z.cols) (fuel : Nat) :
    ∃ k', putchar fb_font fuel k c = some k' ∧ k'.serial = k.serial ++ [c] ∧
      InStep fb_font z k' (typeChar p c) := by
  obtain ⟨g, hfb, hgrid⟩ := h.fb
  have havail : k.fb.fb_available = true := congrArg Settings.fb_available hfb.on
  have htab : c ≠ 9 := by
    rintro rfl
    exact absurd hc (by unfold Plain; decide)
  have hcall : FbCall.putchar c ≠ .putchar 9 := fun heq => htab (FbCall.putchar.inj heq)
  obtain ⟨fb, hput, hshows⟩ := hfb.call hcall fuel
  obtain ⟨v, hv, hagrees⟩ := strokes_plain hc k.vga.vga_col k.vga_default_color
  have hvga := vga_putchar_window h.vga.inside c k.vga_default_color
  rw [hv] at hvga
  refine ⟨{ k with serial := k.serial ++ [c], vga := vga_putchar k.vga c k.vga_default_color,
                   fb := fb }, ?_, rfl,
    hvga.shows (h.vga.type (vga_entry_char 32 _) hagrees), _, hshows, ?_⟩
  · unfold Consoles.putchar
    have hput' : fb_putchar fb_font fuel k.fb c = some fb := hput
    dsimp only
    rw [if_pos havail, hput']
    rfl
  · -- The row is full on neither, so that the sheet may have either width.
    have hwidth : p.type VGA_WIDTH (typed c) = p.type z.cols (typed c) :=
      (Sheet.type_narrow (min_le_left _ _) fun _ heq => hcol (le_of_typed hc heq)).trans
        (Sheet.type_narrow (min_le_right _ _) fun _ heq => hcol (le_of_typed hc heq)).symm
    unfold typeChar
    rw [hwidth]
    change (window (g.put z.bg c)).Shows _ _ _ _ _
    rw [window_put z.bg g hc]
    have hblank : HasChar (.blank z.bg) 32 := rfl
    exact hgrid.type hblank (stroke_agrees c)

theorem InStep.write (h : InStep fb_font z k p) {buf : List UInt8} (hbuf : ∀ c ∈ buf, Plain c)
    (hnarrow : Narrow (min VGA_WIDTH z.cols) p buf) (fuel : Nat) :
    ∃ k', buf.foldlM (Consoles.putchar fb_font fuel) k = some k' ∧
      k'.serial = k.serial ++ buf ∧ InStep fb_font z k' (buf.foldl typeChar p) := by
  induction buf generalizing k p with
  | nil => exact ⟨k, rfl, (List.append_nil _).symm, h⟩
  | cons c buf ih =>
    obtain ⟨k₁, hput, hserial, h₁⟩ := h.putchar (hbuf c List.mem_cons_self) hnarrow.1 fuel
    obtain ⟨k', hrest, hserial', h'⟩ :=
      ih h₁ (fun d hd => hbuf d (List.mem_cons_of_mem c hd)) hnarrow.2
    refine ⟨k', ?_, ?_, h'⟩
    · rw [List.foldlM_cons, hput]
      exact hrest
    · rw [hserial', hserial, List.append_assoc]
      rfl

/-- What a call sends to the serial port. -/
def Call.sent : Call → List UInt8
  | .clear => []
  | .write fd buf => if fd = 1 ∨ fd = 2 then buf else []

theorem InStep.run (h : InStep fb_font z k p) (hplain : ∀ call ∈ calls, call.Plain)
    (hfits : Fits (min VGA_WIDTH z.cols) p calls) (fuel : Nat) :
    ∃ k', calls.foldlM (Console.call fb_font fuel) k = some k' ∧
      k'.serial = k.serial ++ calls.flatMap Call.sent ∧
      InStep fb_font z k' (calls.foldl Call.onSheet p) := by
  induction calls generalizing k p with
  | nil => exact ⟨k, rfl, (List.append_nil _).symm, h⟩
  | cons call calls ih =>
    obtain ⟨k₁, hcall, hserial, h₁, hrest⟩ : ∃ k₁, k.call fb_font fuel call = some k₁ ∧
        k₁.serial = k.serial ++ call.sent ∧ InStep fb_font z k₁ (call.onSheet p) ∧
        Fits (min VGA_WIDTH z.cols) (call.onSheet p) calls := by
      cases call with
      | clear =>
        obtain ⟨g, hfb, -⟩ := h.fb
        exact ⟨_, rfl, (SYS_CLEAR_serial k).trans (List.append_nil _).symm,
          .clear fb_font hfb.on, hfits⟩
      | write fd buf =>
        obtain ⟨hnarrow, hrest⟩ := hfits
        unfold Call.onSheet at hrest ⊢
        unfold Console.call SYS_WRITE Call.sent
        by_cases hfd : fd = 1 ∨ fd = 2
        · simp only [if_pos hfd] at hrest ⊢
          obtain ⟨k₁, hrun, hserial, h₁⟩ :=
            h.write (hplain _ List.mem_cons_self) (hnarrow hfd) fuel
          exact ⟨k₁, hrun, hserial, h₁, hrest⟩
        · simp only [if_neg hfd] at hrest ⊢
          exact ⟨k, rfl, (List.append_nil _).symm, h, hrest⟩
    obtain ⟨k', hrun, hserial', h'⟩ :=
      ih h₁ (fun d hd => hplain d (List.mem_cons_of_mem call hd)) hrest
    refine ⟨k', ?_, ?_, h'⟩
    · rw [List.foldlM_cons, hcall]
      exact hrun
    · rw [hserial', hserial, List.append_assoc, List.flatMap_cons]

/-! ## The result -/

/-- The pixels of the character cell in the row `y` and the column `x`. -/
def CellShows (fb_font : UInt8 → Nat → UInt8) (z : Screen) (s : Fb) (y x : Nat) (cell : Cell) :
    Prop :=
  ∀ r < FB_CHAR_H, ∀ col < FB_CHAR_W,
    shown s (x * FB_CHAR_W + col) (y * FB_CHAR_H + r) =
        TextGrid.cellPixel fb_font z.fg z.bg cell col r

/-- The cursors are in the same column, and rows at the same distance from them show the same
characters, as far as both screens reach. -/
structure SameText (fb_font : UInt8 → Nat → UInt8) (z : Screen) (k : Console) : Prop where
  col : k.fb.fb_col = k.vga.vga_col
  cells : ∀ y < VGA_HEIGHT, ∀ y' < z.rows, (k.vga.vga_row : Int) - y = k.fb.fb_row - y' →
    ∀ x < VGA_WIDTH, x < z.cols → ∃ cell, CellShows fb_font z k.fb y' x cell ∧
      (k.vga.buf (y * VGA_WIDTH + x)).toUInt8 = char cell

theorem Shows.cell {g : TextGrid z.rows z.cols} {s : Fb} (h : Shows fb_font z g s) {y x : Nat}
    (hy : y < z.rows) (hx : x < z.cols) : CellShows fb_font z s y x (g.cell y x) := by
  intro r hr col hcol
  unfold FB_CHAR_H at hr
  unfold FB_CHAR_W at hcol
  rw [h.pixels _ _ (by unfold FB_CHAR_W; omega) (by unfold FB_CHAR_H; omega)]
  unfold TextGrid.render FB_CHAR_W FB_CHAR_H
  rw [show (y * 16 + r) / 16 = y by omega, show (x * 8 + col) / 8 = x by omega,
    show (y * 16 + r) % 16 = r by omega, show (x * 8 + col) % 8 = col by omega]

theorem InStep.sameText (h : InStep fb_font z k p) : SameText fb_font z k := by
  obtain ⟨g, hfb, hgrid⟩ := h.fb
  have hvga := h.vga
  have hrow : k.fb.fb_row = g.row := hfb.row
  have htop : p.top z.rows + g.row = p.line := hgrid.row_eq
  have htop' : p.top VGA_HEIGHT + k.vga.vga_row = p.line := hvga.row_eq
  have hcol : k.vga.vga_col = p.col := hvga.col_eq
  refine ⟨?_, fun y hy y' hy' hsame x hx hx' => ⟨g.cell y' x, Shows.cell hfb hy' hx', ?_⟩⟩
  · rw [hfb.col, hcol]
    exact congrArg Int.ofNat hgrid.col_eq
  · have hline : p.top VGA_HEIGHT + y = p.top z.rows + y' := by omega
    have hcode := hvga.shown y hy x hx
    rw [hline] at hcode
    exact hcode.trans (hgrid.shown y' hy' x hx').symm

/-- **Both consoles show the same text**: from a state in which they are in step, any calls that
write characters both consoles know and fill no row of either keep them in step, and the serial
port has sent what was written. -/
theorem consoles_agree (fb_font : UInt8 → Nat → UInt8) (fuel : Nat) (z : Screen) (k : Console)
    (p : Sheet UInt8) (h : InStep fb_font z k p) (calls : List Call)
    (hplain : ∀ call ∈ calls, call.Plain) (hfits : Fits (min VGA_WIDTH z.cols) p calls) :
    ∃ k', calls.foldlM (Console.call fb_font fuel) k = some k' ∧
      k'.serial = k.serial ++ calls.flatMap Call.sent ∧
      InStep fb_font z k' (calls.foldl Call.onSheet p) ∧ SameText fb_font z k' := by
  obtain ⟨k', hrun, hserial, h'⟩ := h.run hplain hfits fuel
  exact ⟨k', hrun, hserial, h', h'.sameText⟩

/-- The consoles at boot. -/
def bootConsole : Console where
  serial := []
  vga := { vga_row := 0, vga_col := 0, buf := fun _ => 0,
           crtc := { index := 0, reg := fun _ => 0 } }
  vga_default_color := 0x0F
  fb := bootScreen 0

/-- A line with a correction, and the start of the next one, on a cleared screen. -/
theorem consoles_agree_line :
    ∃ k', [.write 1 [104, 105, 8, 111, 10], .write 2 [33]].foldlM
        (Console.call (fun _ _ => 0xFF) 0) (SYS_CLEAR bootConsole) = some k' ∧
      k'.serial = [104, 105, 8, 111, 10, 33] ∧ SameText (fun _ _ => 0xFF) bootMode k' := by
  obtain ⟨k', hrun, hserial, -, hsame⟩ :=
    consoles_agree (fun _ _ => 0xFF) 0 bootMode (SYS_CLEAR bootConsole) blankPaper
      (.clear _ rfl) [.write 1 [104, 105, 8, 111, 10], .write 2 [33]]
      (by simp [Call.Plain, Plain])
      ⟨fun _ => ⟨fun _ => by decide, fun _ => by decide, fun h => absurd h (by decide),
          fun _ => by decide, fun h => absurd h (by decide), trivial⟩,
        fun _ => ⟨fun _ => by decide, trivial⟩, trivial⟩
  exact ⟨k', hrun, hserial.trans (congrArg (· ++ _) (SYS_CLEAR_serial _)), hsame⟩

end Lumin.Drivers.Consoles
