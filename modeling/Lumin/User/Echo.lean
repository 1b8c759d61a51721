import Lumin.User.LineEditing
import Lumin.Drivers.Consoles

/-!
# What the line editor shows

What `readline` of `user/shell.c` writes while a line is edited: `redraw_line` writes the
prompt and the line again, blanks over what the line has lost, and backspaces up to the
cursor.

`Shown` says that a row of the VGA console is the prompt and the line, and that the cursor of
the console is at the cursor of the line.  `readline_shown` is the result.  Every stroke keeps
this, as long as the line is not longer than what is left of a row behind the prompt.
-/

namespace Lumin.User

open Lib Drivers.VgaText

/-- `redraw_line`.  It leaves `idx` in `redraw_prev_len`. -/
def redraw_line (prev : Nat) (buf : Mem) (idx cursor : Nat) : List UInt8 :=
  let clear := prev - idx
  let move := idx + clear - cursor
  [13, 36, 32] ++ (List.range idx).map buf ++ List.replicate clear 32 ++ List.replicate move 8

/-- The cases in which a key ends with `redraw_line`. -/
def keyRedraws (e : Editor) : Key → Bool
  | .up => e.histCount ≠ 0 && (e.browsing = -1 || e.browsing > 0)
  | .down => e.browsing ≠ -1
  | .left => e.cursor > 0
  | .right => e.cursor < e.idx
  | .home => true
  | .end_ => true
  | .delete => e.cursor < e.idx

/-- The same for the keys from `0x80` on. -/
def byteRedraws (e : Editor) (c : UInt8) : Bool :=
  if c = 0x80 then keyRedraws e .up
  else if c = 0x81 then keyRedraws e .down
  else if c = 0x82 then keyRedraws e .left
  else if c = 0x83 then keyRedraws e .right
  else if c = 0x84 then keyRedraws e .home
  else if c = 0x85 then keyRedraws e .end_
  else if c = 0x86 then keyRedraws e .delete
  else false

/-- The same after `ESC`. -/
def escapeRedraws (e : Editor) : List UInt8 → Bool
  | 91 :: c :: rest =>
    if c = 65 then keyRedraws e .up
    else if c = 66 then keyRedraws e .down
    else if c = 67 then keyRedraws e .right
    else if c = 68 then keyRedraws e .left
    else if c = 72 then keyRedraws e .home
    else if c = 70 then keyRedraws e .end_
    else if c = 51 then
      match rest with
      | [] => false
      | tilde :: _ => tilde = 126 && keyRedraws e .delete
    else false
  | _ => false

/-- The same for a turn of the loop. -/
def redraws (max : Nat) (e : Editor) : List UInt8 → Bool
  | [] => false
  | c :: rest =>
    if c = 10 then false
    else if c ≥ 0x80 then byteRedraws e c
    else if c = 0x1B then escapeRedraws e rest
    else if c = 8 ∨ c = 127 then e.cursor > 0
    else if c < 32 then false
    else e.idx < max - 1

/-- What a call of `readline` writes, with `redraw_prev_len` so far. -/
def echoes (max : Nat) : Nat → Nat → Editor → List UInt8 → List UInt8
  | 0, _, _, _ => []
  | fuel + 1, prev, e, input =>
    match turn max e input with
    | .waits => []
    | .returned _ _ _ => [10]
    | .next e' rest =>
      if redraws max e input then redraw_line prev e'.buf e'.idx e'.cursor ++
        echoes max fuel e'.idx e' rest
      else echoes max fuel prev e' rest

/-! ## Which strokes redraw -/

/-- The same for a stroke. -/
def strokeRedraws (e : Editor) : Stroke → Bool
  | .char _ => e.idx < LINE_MAX - 1
  | .backspace _ => e.cursor > 0
  | .key k _ => keyRedraws e k
  | .newline => false

variable {e : Editor} {a : Line}

/-- A printable byte gets to the end of the cases. -/
theorem printable_cases : ∀ n < 127, 32 ≤ n →
    UInt8.ofNat n ≠ 10 ∧ ¬ UInt8.ofNat n ≥ 0x80 ∧ UInt8.ofNat n ≠ 0x1B ∧
      ¬ (UInt8.ofNat n = 8 ∨ UInt8.ofNat n = 127) ∧
      ¬ UInt8.ofNat n < 32 := by
  decide

theorem redraws_stroke (e : Editor) (s : Stroke) (rest : List UInt8) :
    redraws LINE_MAX e (s.bytes ++ rest) = strokeRedraws e s := by
  cases s with
  | char c =>
    obtain ⟨c, hlo, hhi⟩ := c
    obtain ⟨hlf, hhigh, hesc, hback, hlow⟩ := printable_cases c.toNat hhi hlo
    rw [UInt8.ofNat_toNat] at hlf hhigh hesc hback hlow
    change redraws LINE_MAX e (c :: rest) = _
    rw [redraws, if_neg hlf, if_neg hhigh, if_neg hesc, if_neg hback, if_neg hlow]
    rfl
  | backspace alt => cases alt <;> rfl
  | key k alt => cases alt <;> cases k <;> rfl
  | newline => rfl

/-- A key that does not redraw leaves the line and its cursor. -/
theorem press_quiet (h : Edits e a) {k : Key} (hquiet : keyRedraws e k = false) :
    (a.press k).line = a.line ∧ (a.press k).cursor = a.cursor := by
  have hidx := h.idx
  have hcursor := h.cursor
  have hle := h.cursor_le
  have hcount := h.history.count
  have hbrowse := h.browsing
  unfold Browses at hbrowse
  unfold keyRedraws at hquiet
  cases k with
  | up =>
    simp only [Bool.and_eq_false_iff, Bool.or_eq_false_iff, decide_eq_false_iff_not, ne_eq,
      not_not] at hquiet
    unfold Line.press
    cases hb : a.browsing with
    | none =>
      rw [hb] at hbrowse
      have hnil : a.history = [] := by
        rw [← List.length_eq_zero_iff, ← hcount]
        exact hquiet.resolve_right fun hq => hq.1 hbrowse
      dsimp only
      rw [if_pos hnil]
      exact ⟨rfl, rfl⟩
    | some n =>
      rw [hb] at hbrowse
      dsimp only at hbrowse
      cases n with
      | zero => exact ⟨rfl, rfl⟩
      | succ n => omega
  | down =>
    simp only [ne_eq, decide_eq_false_iff_not, not_not] at hquiet
    unfold Line.press
    cases hb : a.browsing with
    | none => exact ⟨rfl, rfl⟩
    | some n =>
      rw [hb] at hbrowse
      dsimp only at hbrowse
      omega
  | left =>
    simp only [decide_eq_false_iff_not] at hquiet
    refine ⟨rfl, ?_⟩
    change a.cursor - 1 = a.cursor
    omega
  | right =>
    simp only [decide_eq_false_iff_not] at hquiet
    refine ⟨rfl, ?_⟩
    change min (a.cursor + 1) a.line.length = a.cursor
    omega
  | home => cases hquiet
  | end_ => cases hquiet
  | delete =>
    simp only [decide_eq_false_iff_not] at hquiet
    refine ⟨?_, rfl⟩
    exact List.eraseIdx_of_length_le (by omega)

/-- The same for a stroke within a line. -/
theorem step_quiet (h : Edits e a) {s : Stroke} (hline : (a.step s).1 = none)
    (hquiet : strokeRedraws e s = false) :
    (a.step s).2.line = a.line ∧ (a.step s).2.cursor = a.cursor := by
  have hidx := h.idx
  have hcursor := h.cursor
  cases s with
  | char c =>
    have hfull : ¬ a.line.length < LINE_MAX - 1 := by
      rw [← hidx]
      exact of_decide_eq_false hquiet
    rw [Line.step, if_neg hfull]
    exact ⟨rfl, rfl⟩
  | backspace alt =>
    have hfirst : ¬ 0 < a.cursor := by
      rw [← hcursor]
      exact of_decide_eq_false hquiet
    rw [Line.step, if_neg hfirst]
    exact ⟨rfl, rfl⟩
  | key k alt => exact press_quiet h hquiet
  | newline => cases hline

/-! ## A row of the console -/

/-- The character in a cell of the screen. -/
def charAt (s : Vga) (y x : Nat) : UInt8 := (s.buf (y * VGA_WIDTH + x)).toUInt8

/-- The cells of the other rows are the same. -/
def SameOtherRows (row : Nat) (s s' : Vga) : Prop :=
  ∀ y x, y ≠ row → x < VGA_WIDTH → s'.buf (y * VGA_WIDTH + x) = s.buf (y * VGA_WIDTH + x)

/-- The characters of `l` have been written from the cursor on. -/
structure Wrote (s s' : Vga) (l : List UInt8) : Prop where
  row_eq : s'.vga_row = s.vga_row
  col_eq : s'.vga_col = s.vga_col + l.length
  chars : ∀ x < VGA_WIDTH, charAt s' s.vga_row x =
    if s.vga_col ≤ x ∧ x < s.vga_col + l.length then l.getD (x - s.vga_col) 0
      else charAt s s.vga_row x
  others : SameOtherRows s.vga_row s s'

variable {v : Vga} {l l' : List UInt8} {c color : UInt8} {row cursor cursor' n : Nat} {m : Mem}

theorem vga_putchar_text (hc : 32 ≤ c) (hfit : v.vga_col + 1 < VGA_WIDTH) (color : UInt8) :
    vga_putchar v c color = vga_sync_cursor (putCell v (vga_entry c color)) := by
  have hother : ∀ d : UInt8, d < 32 → c ≠ d := by
    rintro d hd rfl
    exact absurd hc (UInt8.not_le.2 hd)
  have hcol : ¬ v.vga_col + 1 = VGA_WIDTH := Nat.ne_of_lt hfit
  rw [vga_putchar, if_neg (hother 13 (by decide)), if_neg (hother 8 (by decide)),
    if_neg (hother 10 (by decide)),
    if_neg (hother 9 (by decide))]
  dsimp only
  rw [if_neg hcol]
  rfl

theorem wrote_putchar (hc : 32 ≤ c) (hfit : v.vga_col + 1 < VGA_WIDTH) (color : UInt8) :
    Wrote v (vga_putchar v c color) [c] := by
  rw [vga_putchar_text hc hfit color]
  refine ⟨rfl, rfl, fun x hx => ?_, fun y x hy hx => ?_⟩
  · change (if v.vga_row * VGA_WIDTH + x = v.vga_row * VGA_WIDTH + v.vga_col
      then vga_entry c color
      else v.buf (v.vga_row * VGA_WIDTH + x)).toUInt8 = _
    rw [List.length_singleton]
    by_cases hat : x = v.vga_col
    · rw [if_pos (by rw [hat]), if_pos (by omega), hat, Nat.sub_self,
        Drivers.Consoles.vga_entry_char]
      rfl
    · rw [if_neg (by omega), if_neg (by omega)]
      rfl
  · change (if y * VGA_WIDTH + x = v.vga_row * VGA_WIDTH + v.vga_col then vga_entry c color
      else v.buf (y * VGA_WIDTH + x)) = _
    unfold VGA_WIDTH at hx hfit ⊢
    exact if_neg (by omega)

theorem Wrote.append {v' v'' : Vga} (h : Wrote v v' l) (h' : Wrote v' v'' l') :
    Wrote v v'' (l ++ l') where
  row_eq := h'.row_eq.trans h.row_eq
  col_eq := by rw [h'.col_eq, h.col_eq, List.length_append, Nat.add_assoc]
  chars := by
    intro x hx
    have hfirst := h.chars x hx
    have hsecond := h'.chars x hx
    rw [h.row_eq, h.col_eq] at hsecond
    rw [hsecond, hfirst, List.length_append, List.getD_eq_getElem?_getD,
      List.getD_eq_getElem?_getD,
      List.getD_eq_getElem?_getD]
    by_cases hlast : v.vga_col + l.length ≤ x ∧ x < v.vga_col + l.length + l'.length
    · rw [if_pos hlast, if_pos (by omega), List.getElem?_append_right (by omega)]
      congr 2
      omega
    · rw [if_neg hlast]
      by_cases hin : v.vga_col ≤ x ∧ x < v.vga_col + l.length
      · rw [if_pos hin, if_pos (by omega), List.getElem?_append_left (by omega)]
      · rw [if_neg hin, if_neg (by omega)]
  others := fun y x hy hx => (h'.others y x (h.row_eq ▸ hy) hx).trans (h.others y x hy hx)

/-- Text that ends in front of the last column. -/
theorem wrote_text (hl : ∀ c ∈ l, 32 ≤ c) (hfit : v.vga_col + l.length < VGA_WIDTH)
    (color : UInt8) : Wrote v (vga_write v l color) l := by
  induction l generalizing v with
  | nil =>
    refine ⟨rfl, rfl, fun x hx => ?_, fun _ _ _ _ => rfl⟩
    rw [List.length_nil, if_neg (by omega)]
    rfl
  | cons c l ih =>
    rw [List.forall_mem_cons] at hl
    rw [List.length_cons] at hfit
    have hfirst := wrote_putchar hl.1 (v := v) (by omega) color
    have hcol := hfirst.col_eq
    rw [List.length_singleton] at hcol
    exact hfirst.append (ih hl.2 (by omega))

theorem vga_write_back (hn : n ≤ v.vga_col) (color : UInt8) :
    (vga_write v (List.replicate n 8) color).vga_row = v.vga_row ∧
      (vga_write v (List.replicate n 8) color).vga_col = v.vga_col - n ∧
      (vga_write v (List.replicate n 8) color).buf = v.buf := by
  induction n generalizing v with
  | zero => exact ⟨rfl, rfl, rfl⟩
  | succ n ih =>
    have hback : vga_putchar v 8 color = vga_sync_cursor { v with vga_col := v.vga_col - 1 } := by
      rw [vga_putchar, if_neg (by decide), if_pos rfl, if_pos (by omega)]
    have hlater :=
      ih (v := vga_putchar v 8 color) (by rw [hback]; change n ≤ v.vga_col - 1; omega)
    rw [hback] at hlater
    rw [List.replicate_succ, vga_write, List.foldl_cons, hback]
    refine ⟨hlater.1, hlater.2.1.trans ?_, hlater.2.2⟩
    change v.vga_col - 1 - n = v.vga_col - (n + 1)
    omega

/-- The row shows the prompt and the line, and the cursor is behind `cursor` characters of it. -/
structure Shown (v : Vga) (row : Nat) (l : List UInt8) (cursor : Nat) : Prop where
  row_eq : v.vga_row = row
  col_eq : v.vga_col = 2 + cursor
  chars : ∀ x < VGA_WIDTH, charAt v row x = ([36, 32] ++ l).getD x 32

/-- Lines that leave the last column free. -/
def Fits (l : List UInt8) : Prop := l.length + 2 < VGA_WIDTH

instance decidableFits (l : List UInt8) : Decidable (Fits l) :=
  inferInstanceAs (Decidable (_ < _))

theorem map_range_of_holds (h : Holds m l) : (List.range l.length).map m = l := by
  apply List.ext_getElem (by rw [List.length_map, List.length_range])
  intro i hi hi'
  rw [List.getElem_map, List.getElem_range]
  exact h i hi'

/-- Blanks over what a text is shorter than the one before it. -/
theorem getD_padded (p q : List UInt8) (x : Nat) :
    (if x < p.length + (q.length - p.length)
      then (p ++ List.replicate (q.length - p.length) 32).getD x 0
      else q.getD x 32) = p.getD x 32 := by
  simp only [List.getD_eq_getElem?_getD]
  rcases Nat.lt_or_ge x p.length with hp | hp
  · rw [if_pos (by omega), List.getElem?_append_left hp, List.getElem?_eq_getElem hp]
    rfl
  · rw [List.getElem?_eq_none hp]
    by_cases hx : x < p.length + (q.length - p.length)
    · rw [if_pos hx, List.getElem?_append_right hp, List.getElem?_replicate, if_pos (by omega)]
      rfl
    · rw [if_neg hx, List.getElem?_eq_none (by omega)]

/-- Redrawing puts the new line in the place of the old one. -/
theorem Shown.redraw (h : Shown v row l cursor) (hfits : Fits l) (hm : Holds m l')
    (hplain : ∀ c ∈ l', 32 ≤ c)
    (hfits' : Fits l') (hcursor : cursor' ≤ l'.length) (color : UInt8) :
    Shown (vga_write v (redraw_line l.length m l'.length cursor') color) row l' cursor' ∧
      SameOtherRows row v (vga_write v (redraw_line l.length m l'.length cursor') color) := by
  unfold Fits at hfits hfits'
  -- The text that replaces the old one, and the backspaces behind it.
  have hbytes : redraw_line l.length m l'.length cursor' =
      13 :: ([36, 32] ++ l' ++ List.replicate (l.length - l'.length) 32 ++
        List.replicate (l'.length + (l.length - l'.length) - cursor') 8) := by
    unfold redraw_line
    dsimp only
    rw [map_range_of_holds hm]
    rfl
  rw [hbytes]
  have htext : ∀ c ∈ [36, 32] ++ l' ++ List.replicate (l.length - l'.length) 32, 32 ≤ c := by
    intro c hc
    simp only [List.mem_append, List.mem_cons, List.not_mem_nil, or_false] at hc
    rcases hc with ((rfl | rfl) | hc) | hc
    · decide
    · decide
    · exact hplain c hc
    · rw [List.eq_of_mem_replicate hc]
      decide
  have hlength : ([36, 32] ++ l' ++ List.replicate (l.length - l'.length) 32).length =
      2 + l'.length + (l.length - l'.length) := by
    rw [List.length_append, List.length_append, List.length_replicate]
    rfl
  generalize ht :
    [36, 32] ++ l' ++ List.replicate (l.length - l'.length) 32 = text at htext hlength
  have hreturn : vga_putchar v 13 color = vga_sync_cursor { v with vga_col := 0 } :=
    by rw [vga_putchar, if_pos rfl]
  have hwrote := wrote_text (v := vga_putchar v 13 color) htext
    (by rw [hreturn, hlength]; change 0 + _ < _; omega) color
  have hrow' : (vga_putchar v 13 color).vga_row = row := by
    rw [hreturn]
    exact h.row_eq
  have hcol' : (vga_putchar v 13 color).vga_col = 0 := by
    rw [hreturn]
    rfl
  have hbuf' : (vga_putchar v 13 color).buf = v.buf := by
    rw [hreturn]
    rfl
  have hback := vga_write_back (v := vga_write (vga_putchar v 13 color) text color)
    (n := l'.length + (l.length - l'.length) - cursor') (by rw [hwrote.col_eq, hlength]; omega)
      color
  have hrun : vga_write v
      (13 :: (text ++ List.replicate (l'.length + (l.length - l'.length) - cursor') 8)) color =
      vga_write (vga_write (vga_putchar v 13 color) text color)
        (List.replicate (l'.length + (l.length - l'.length) - cursor') 8) color := by
    rw [vga_write, List.foldl_cons, List.foldl_append]
    rfl
  rw [hrun]
  obtain ⟨hrow, hcol, hbuf⟩ := hback
  refine ⟨⟨?_, ?_, fun x hx => ?_⟩, fun y x hy hx => ?_⟩
  · rw [hrow, hwrote.row_eq, hrow']
  · rw [hcol, hwrote.col_eq, hcol', hlength]
    omega
  · have hchar := hwrote.chars x hx
    have hold := h.chars x hx
    rw [hrow', hcol', hlength] at hchar
    unfold charAt at hchar hold ⊢
    have hpadded := getD_padded ([36, 32] ++ l') ([36, 32] ++ l) x
    rw [List.length_append, List.length_append, List.length_cons, List.length_singleton,
      Nat.add_sub_add_left] at hpadded
    rw [hbuf, hchar, hbuf', hold, ← ht, ← hpadded, Nat.zero_add, Nat.sub_zero]
    exact if_congr (by simp) rfl rfl
  · rw [hbuf, hwrote.others y x (hrow' ▸ hy) hx, hbuf']

theorem Shown.prompt (hcol : v.vga_col = 0) (hblank : ∀ x < VGA_WIDTH, charAt v v.vga_row x = 32)
    (color : UInt8) :
    Shown (vga_write v [36, 32] color) v.vga_row [] 0 ∧
      SameOtherRows v.vga_row v (vga_write v [36, 32] color) := by
  have hchars : ∀ c ∈ ([36, 32] : List UInt8), 32 ≤ c := by
    simp only [List.mem_cons, List.not_mem_nil, or_false, forall_eq_or_imp, forall_eq]
    decide
  have hwrote := wrote_text (v := v) hchars (by rw [hcol]; decide) color
  have hcol' := hwrote.col_eq
  rw [hcol] at hcol'
  refine ⟨⟨hwrote.row_eq, hcol', fun x hx => ?_⟩, hwrote.others⟩
  rw [hwrote.chars x hx, hcol, hblank x hx, Nat.sub_zero, List.append_nil]
  split
  · rename_i hlt
    rw [List.getD_eq_getElem?_getD, List.getD_eq_getElem?_getD,
      List.getElem?_eq_getElem (by simpa using hlt.2)]
    rfl
  · rename_i hge
    rw [List.getD_eq_getElem?_getD, List.getElem?_eq_none (by simp at hge ⊢; omega)]
    rfl

/-- Printing keeps the cursor on the screen and the location registers up to date. -/
theorem vga_write_synced (hon : OnScreen v) (hsync : Synced v) (l : List UInt8) (color : UInt8) :
    OnScreen (vga_write v l color) ∧ Synced (vga_write v l color) := by
  induction l generalizing v with
  | nil => exact ⟨hon, hsync⟩
  | cons c l ih =>
    obtain ⟨hon', hsync'⟩ := vga_putchar_synced hon c color
    exact ih hon' hsync'

/-! ## Lines without control characters -/

/-- Nothing is edited, saved or remembered but such lines. -/
structure Line.Plain (a : Line) : Prop where
  line : ∀ c ∈ a.line, 32 ≤ c
  saved : ∀ c ∈ a.saved, 32 ≤ c
  history : ∀ l ∈ a.history, ∀ c ∈ l, 32 ≤ c

theorem Line.Plain.recalled (h : a.Plain) (k : Nat) : ∀ c ∈ a.history.getD k [], 32 ≤ c := by
  rw [List.getD_eq_getElem?_getD]
  cases hk : a.history[k]? with
  | none => exact fun c hc => absurd hc List.not_mem_nil
  | some l => exact h.history l (List.mem_of_getElem? hk)

theorem Line.Plain.press (h : a.Plain) (k : Key) : (a.press k).Plain := by
  cases k with
  | up =>
    unfold Line.press
    dsimp only
    split
    · split
      · exact h
      · exact ⟨h.recalled _, h.line, h.history⟩
    · exact h
    · exact ⟨h.recalled _, h.saved, h.history⟩
  | down =>
    unfold Line.press
    dsimp only
    split
    · exact h
    · split
      · exact ⟨h.recalled _, h.saved, h.history⟩
      · exact ⟨h.saved, h.saved, h.history⟩
  | left => exact ⟨h.line, h.saved, h.history⟩
  | right => exact ⟨h.line, h.saved, h.history⟩
  | home => exact ⟨h.line, h.saved, h.history⟩
  | end_ => exact ⟨h.line, h.saved, h.history⟩
  | delete => exact ⟨fun c hc => h.line c (List.mem_of_mem_eraseIdx hc), h.saved, h.history⟩

theorem plain_remember {history : List (List UInt8)} (h : ∀ l ∈ history, ∀ c ∈ l, 32 ≤ c)
    (hl : ∀ c ∈ l, 32 ≤ c) :
    ∀ l' ∈ remember history l, ∀ c ∈ l', 32 ≤ c := by
  intro l' hl'
  unfold remember at hl'
  split at hl'
  · exact h l' hl'
  · rcases List.mem_append.mp hl' with hmem | hmem
    · split at hmem
      · exact h l' (List.mem_of_mem_tail hmem)
      · exact h l' hmem
    · rw [List.mem_singleton.mp hmem]
      exact hl

theorem Line.Plain.step (h : a.Plain) (s : Stroke) : (a.step s).2.Plain := by
  cases s with
  | char c =>
    rw [Line.step]
    split
    · rename_i hroom
      refine ⟨fun d hd => ?_, h.saved, h.history⟩
      rcases List.eq_or_mem_of_mem_insertIdx hd with rfl | hd
      · exact c.property.1
      · exact h.line d hd
    · exact h
  | backspace alt =>
    rw [Line.step]
    split
    · exact ⟨fun c hc => h.line c (List.mem_of_mem_eraseIdx hc), h.saved, h.history⟩
    · exact h
  | key k alt => exact h.press k
  | newline =>
    exact ⟨fun c hc => absurd hc List.not_mem_nil, fun c hc => absurd hc List.not_mem_nil,
      plain_remember h.history h.line⟩

theorem Line.Plain.run (h : a.Plain) (strokes : List Stroke) : (a.run strokes).2.Plain := by
  induction strokes generalizing a with
  | nil => exact h
  | cons s strokes ih => exact ih (h.step s)

theorem plain_start : Line.start.Plain where
  line := fun _ hc => absurd hc List.not_mem_nil
  saved := fun _ hc => absurd hc List.not_mem_nil
  history := fun _ hl => absurd hl List.not_mem_nil

/-! ## A call of `readline` -/

theorem run_append (a : Line) (p q : List Stroke) :
    (a.run (p ++ q)).2 = ((a.run p).2.run q).2 := by
  induction p generalizing a with
  | nil => rfl
  | cons s p ih => exact ih (a.step s).2

theorem SameOtherRows.trans {v' v'' : Vga} (h : SameOtherRows row v v')
    (h' : SameOtherRows row v' v'') : SameOtherRows row v v'' :=
  fun y x hy hx => (h' y x hy hx).trans (h y x hy hx)

/-- What the turn for a stroke leaves, and whether it redraws. -/
theorem turn_stroke (h : Edits e a) {s : Stroke} (hs : s ≠ .newline) (rest : List UInt8) :
    ∃ e', turn LINE_MAX e (s.bytes ++ rest) = .next e' rest ∧ Edits e' (a.step s).2 ∧
      (strokeRedraws e s = false →
        (a.step s).2.line = a.line ∧ (a.step s).2.cursor = a.cursor) := by
  have hline : (a.step s).1 = none := by
    cases s with
    | newline => exact absurd rfl hs
    | _ => rfl
  have hturn := h.turn s rest
  rw [hline] at hturn
  generalize ht : User.turn LINE_MAX e (s.bytes ++ rest) = t at hturn
  cases hturn with
  | next hedits => exact ⟨_, rfl, hedits, step_quiet h hline⟩

/-- A call keeps the row up to date as long as the lines fit. -/
theorem echoes_shown (strokes : List Stroke) (hcall : ∀ s ∈ strokes, s ≠ .newline) (h : Edits e a)
    (hplain : a.Plain)
    (hfits : ∀ p, p <+: strokes → Fits (a.run p).2.line) (hshown : Shown v row a.line a.cursor)
    (fuel : Nat)
    (hfuel : (strokeBytes strokes).length ≤ fuel) (color : UInt8) :
    Shown (vga_write v (echoes LINE_MAX fuel a.line.length e (strokeBytes strokes)) color) row
        (a.run strokes).2.line (a.run strokes).2.cursor ∧
      SameOtherRows row v
        (vga_write v (echoes LINE_MAX fuel a.line.length e (strokeBytes strokes)) color) := by
  induction strokes generalizing e a v fuel with
  | nil =>
    have hnone : echoes LINE_MAX fuel a.line.length e (strokeBytes []) = [] := by
      cases fuel with
      | zero => rfl
      | succ fuel => rfl
    rw [hnone]
    exact ⟨hshown, fun _ _ _ _ => rfl⟩
  | cons s strokes ih =>
    rw [List.forall_mem_cons] at hcall
    have hbytes : strokeBytes (s :: strokes) = s.bytes ++ strokeBytes strokes := List.flatMap_cons
    have hpos := bytes_length_pos s
    rw [hbytes, List.length_append] at hfuel
    obtain ⟨fuel, rfl⟩ := Nat.exists_eq_add_one_of_ne_zero (n := fuel) (by omega)
    obtain ⟨e', hturn, hedits, hquiet⟩ := turn_stroke h hcall.1 (strokeBytes strokes)
    have hfits' : ∀ p, p <+: strokes → Fits ((a.step s).2.run p).2.line :=
      fun p hp => hfits (s :: p) ((List.prefix_cons_inj s).mpr hp)
    have hlater := fun {v : Vga} (hv : Shown v row (a.step s).2.line (a.step s).2.cursor) =>
      ih hcall.2 hedits (hplain.step s) hfits' hv fuel (by omega)
    rw [hbytes, echoes, hturn, redraws_stroke]
    dsimp only
    cases hredraws : strokeRedraws e s with
    | false =>
      obtain ⟨hline, hcursor⟩ := hquiet hredraws
      rw [← hline, ← hcursor] at hshown
      rw [if_neg Bool.false_ne_true, ← hline]
      exact hlater hshown
    | true =>
      have hredrawn := hshown.redraw (hfits [] List.nil_prefix) hedits.line (hplain.step s).line
        (hfits' [] List.nil_prefix) hedits.cursor_le color
      obtain ⟨hafter, hsame⟩ := hlater hredrawn.1
      rw [if_pos rfl, hedits.idx, hedits.cursor, vga_write, List.foldl_append]
      exact ⟨hafter, hredrawn.2.trans hsame⟩

/-- The strokes of calls that return. -/
def session (calls : List (List Stroke)) : List Stroke :=
  calls.flatMap fun strokes => strokes ++ [.newline]

theorem session_line (calls : List (List Stroke)) (a : Line) (hline : a.line = [])
    (hcursor : a.cursor = 0) :
    (a.run (session calls)).2.line = [] ∧ (a.run (session calls)).2.cursor = 0 := by
  induction calls generalizing a with
  | nil => exact ⟨hline, hcursor⟩
  | cons strokes calls ih =>
    rw [session, List.flatMap_cons, run_append, run_append]
    exact ih _ rfl rfl

/-- **The console shows the line.**  Behind any calls before, the row that was blank shows the
prompt and the line as it is edited, and the hardware cursor is at its place in it. -/
theorem readline_shown {e₀ : Editor} (hfresh : Fresh e₀) (calls : List (List Stroke))
    (strokes : List Stroke)
    (hcall : ∀ s ∈ strokes, s ≠ .newline)
    (hfits : ∀ p, p <+: strokes → Fits (Line.start.run (session calls ++ p)).2.line)
    (v : Vga) (color : UInt8) (hon : OnScreen v) (hcol : v.vga_col = 0)
    (hblank : ∀ x < VGA_WIDTH, charAt v v.vga_row x = 32) :
    let before := strokeBytes (session calls)
    let e := (readlines LINE_MAX before.length e₀ before).2.1
    let input := strokeBytes strokes
    let v' := vga_write v ([36, 32] ++ echoes LINE_MAX input.length 0 e input) color
    let a := (Line.start.run (session calls ++ strokes)).2
    Shown v' v.vga_row a.line a.cursor ∧ SameOtherRows v.vga_row v v' ∧
      v'.crtc.location = v.vga_row * VGA_WIDTH + (2 + a.cursor) := by
  intro before e input v' a
  obtain ⟨returns, e', hrun, -, hedits⟩ := hfresh.edits.readlines (session calls) _ (le_refl _)
  obtain ⟨hline, hcursor⟩ := session_line calls Line.start rfl rfl
  have he : e = e' := by
    change (readlines LINE_MAX (strokeBytes (session calls)).length e₀
      (strokeBytes (session calls))).2.1 = e'
    rw [hrun]
  have hprompt := Shown.prompt hcol hblank color
  rw [← hcursor, ← hline] at hprompt
  have hshown := echoes_shown strokes hcall (he ▸ hedits) (plain_start.run (session calls))
    (fun p hp => by rw [← run_append]; exact hfits p hp) hprompt.1 _ (le_refl _) color
  rw [hline, List.length_nil, ← run_append] at hshown
  have hv' : v' = vga_write (vga_write v [36, 32] color) (echoes LINE_MAX input.length 0 e input)
      color := by
    change vga_write v _ color = _
    rw [vga_write, List.foldl_append]
    rfl
  have hsync : Synced v' := by
    obtain ⟨hon', hsync'⟩ := vga_putchar_synced hon 36 color
    exact (vga_write_synced hon' hsync' (32 :: echoes LINE_MAX input.length 0 e input) color).2
  rw [hline] at hprompt
  rw [← hv'] at hshown
  refine ⟨hshown.1, hprompt.2.trans hshown.2, hsync.trans ?_⟩
  rw [hshown.1.row_eq, hshown.1.col_eq]

/-- A console with blanks. -/
def blankConsole : Vga where
  vga_row := 3
  vga_col := 0
  buf := fun _ => 32
  crtc := ⟨0, fun _ => 0⟩

/-- `a`, and the cursor in front of it. -/
theorem readline_shown_left :
    ∃ v', v' = vga_write blankConsole ([36, 32] ++ echoes LINE_MAX 4 0 blank [97, 27, 91, 68]) 7 ∧
      Shown v' 3 [97] 0 ∧ SameOtherRows 3 blankConsole v' ∧
        v'.crtc.location = 3 * VGA_WIDTH + (2 + 0) := by
  have hfits : ∀ p, p <+: [Stroke.char ⟨97, by decide⟩, .key .left true] →
      Fits (Line.start.run (session [] ++ p)).2.line := by
    intro p hp
    have hmem := (List.mem_inits p _).mpr hp
    simp only [List.inits, List.map_cons, List.map_nil, List.mem_cons, List.not_mem_nil,
      or_false] at hmem
    rcases hmem with rfl | rfl | rfl
    · decide
    · decide
    · decide
  have hfresh : Fresh blank := ⟨rfl, rfl, rfl, rfl⟩
  exact ⟨_, rfl, readline_shown hfresh [] [.char ⟨97, by decide⟩, .key .left true] (by simp)
    hfits blankConsole 7 ⟨by decide, by decide⟩ rfl fun _ _ => rfl⟩

end Lumin.User
