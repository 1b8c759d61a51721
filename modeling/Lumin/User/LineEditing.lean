import Lumin.User.Readline

/-!
# The line editor refines a cursor and a history

`Line` is what `readline` is for: a line with a cursor, a history of at most 64 lines of
which no two neighbours are the same, and a saved line while the history is browsed.
`Edits` relates it to the buffers of the editor.  One turn of the loop on the bytes of a
stroke is one step of `Line`, and so the calls return the lines that the strokes make.
-/

namespace Lumin.User

open Lumin.Lib

/-! ## Lines -/

/-- What is edited.  `browsing` is the line of the history that was recalled last. -/
structure Line where
  line : List UInt8
  cursor : Nat
  saved : List UInt8
  browsing : Option Nat
  history : List (List UInt8)
  deriving DecidableEq, Repr

inductive Key where
  | up
  | down
  | left
  | right
  | home
  | end_
  | delete
  deriving DecidableEq, Repr

/-- A printable byte. -/
abbrev Printable := { c : UInt8 // 32 ≤ c ∧ c < 127 }

/-- What arrives from the terminal: `alt` chooses 127 for a backspace and the escape
sequence for a key. -/
inductive Stroke where
  | char (c : Printable)
  | backspace (alt : Bool)
  | key (k : Key) (alt : Bool)
  | newline

/-- Show a line of the history or the saved one. -/
def Line.display (a : Line) (l : List UInt8) : Line := { a with line := l, cursor := l.length }

/-- A key. -/
def Line.press (a : Line) : Key → Line
  | .up =>
    match a.browsing with
    | none =>
      if a.history = [] then a
      else
        let k := a.history.length - 1
        { a with saved := a.line, browsing := some k }.display (a.history.getD k [])
    | some 0 => a
    | some (k + 1) => { a with browsing := some k }.display (a.history.getD k [])
  | .down =>
    match a.browsing with
    | none => a
    | some k =>
      if k + 1 < a.history.length then { a with browsing := some (k + 1) }.display
        (a.history.getD (k + 1) [])
      else { a with browsing := none }.display a.saved
  | .left => { a with cursor := a.cursor - 1 }
  | .right => { a with cursor := min (a.cursor + 1) a.line.length }
  | .home => { a with cursor := 0 }
  | .end_ => { a with cursor := a.line.length }
  | .delete => { a with line := a.line.eraseIdx a.cursor }

/-- The history after a line was entered. -/
def remember (history : List (List UInt8)) (l : List UInt8) : List (List UInt8) :=
  if l = [] ∨ history.getLast? = some l then history
  else (if history.length = HISTORY_MAX then history.tail else history) ++ [l]

/-- A stroke: the line that it enters, if any, and what is edited after it. -/
def Line.step (a : Line) : Stroke → Option (List UInt8) × Line
  | .char c =>
    (none,
      if a.line.length < LINE_MAX - 1
        then { a with line := a.line.insertIdx a.cursor c, cursor := a.cursor + 1 } else a)
  | .backspace _ =>
    (none,
      if 0 < a.cursor
        then { a with line := a.line.eraseIdx (a.cursor - 1), cursor := a.cursor - 1 } else a)
  | .key k _ => (none, a.press k)
  | .newline =>
    (some a.line,
      { line := [], cursor := 0, saved := [], browsing := none,
        history := remember a.history a.line })

/-- The lines that strokes enter, and what is edited after them. -/
def Line.run : Line → List Stroke → List (List UInt8) × Line
  | a, [] => ([], a)
  | a, s :: strokes =>
    match a.step s with
    | (entered, a) => (entered.toList ++ (a.run strokes).1, (a.run strokes).2)

/-- Nothing has been entered yet. -/
def Line.start : Line := { line := [], cursor := 0, saved := [], browsing := none, history := [] }

/-! ## The bytes of a stroke -/

def Key.byte : Key → UInt8
  | .up => 0x80
  | .down => 0x81
  | .left => 0x82
  | .right => 0x83
  | .home => 0x84
  | .end_ => 0x85
  | .delete => 0x86

def Key.sequence : Key → List UInt8
  | .up => [0x1B, 91, 65]
  | .down => [0x1B, 91, 66]
  | .left => [0x1B, 91, 68]
  | .right => [0x1B, 91, 67]
  | .home => [0x1B, 91, 72]
  | .end_ => [0x1B, 91, 70]
  | .delete => [0x1B, 91, 51, 126]

def Stroke.bytes : Stroke → List UInt8
  | .char c => [c.val]
  | .backspace alt => [if alt then 127 else 8]
  | .key k alt => if alt then k.sequence else [k.byte]
  | .newline => [10]

def pressKey (max : Nat) (e : Editor) : Key → Editor
  | .up => keyUp max e
  | .down => keyDown max e
  | .left => keyLeft e
  | .right => keyRight e
  | .home => keyHome e
  | .end_ => keyEnd e
  | .delete => keyDelete e

theorem turn_byte (max : Nat) (e : Editor) (k : Key) (rest : List UInt8) :
    turn max e (k.byte :: rest) = .next (pressKey max e k) rest := by
  cases k <;> rfl

theorem turn_sequence (max : Nat) (e : Editor) (k : Key) (rest : List UInt8) :
    turn max e (k.sequence ++ rest) = .next (pressKey max e k) rest := by
  cases k <;> rfl

/-! ## Arrays -/

/-- The array starts with the bytes of `l`. -/
def Holds (m : Mem) (l : List UInt8) : Prop := ∀ i (hi : i < l.length), m i = l[i]

/-- The array holds `l` as a string. -/
def HoldsStr (m : Mem) (l : List UInt8) : Prop := Holds m l ∧ m l.length = 0

/-- A line that fits into an array and has no terminator inside. -/
structure Clean (l : List UInt8) : Prop where
  length_lt : l.length < LINE_MAX
  ne_zero : ∀ c ∈ l, c ≠ 0

variable {buf m m' h : Mem} {l l' : List UInt8} {n i x : Nat} {c : UInt8} {e e' : Editor}
  {a a' : Line}

theorem moveLeft_apply (n i : Nat) (buf : Mem) (x : Nat) (hi : 0 < i) :
    moveLeft i n buf x = if i - 1 ≤ x ∧ x < i - 1 + n then buf (x + 1) else buf x := by
  induction n generalizing i buf with
  | zero => rw [moveLeft, if_neg (by omega)]
  | succ n ih =>
    rw [moveLeft, ih (i + 1) _ (by omega)]
    unfold setByte
    by_cases hfirst : x = i - 1
    · rw [if_neg (by omega), if_pos hfirst, if_pos (by omega), hfirst, Nat.sub_add_cancel hi]
    · by_cases hrest : i ≤ x ∧ x < i + n
      · rw [if_pos (by omega), if_neg (by omega), if_pos (by omega)]
      · rw [if_neg (by omega), if_neg hfirst, if_neg (by omega)]

theorem moveRight_apply (cursor n : Nat) (buf : Mem) (x : Nat) :
    moveRight cursor n buf x = if cursor < x ∧ x ≤ cursor + n then buf (x - 1) else buf x := by
  induction n generalizing buf with
  | zero => rw [moveRight, if_neg (by omega)]
  | succ n ih =>
    rw [moveRight, ih]
    unfold setByte
    by_cases hlast : x = cursor + (n + 1)
    · rw [if_neg (by omega), if_pos hlast, if_pos (by omega), hlast]
      rfl
    · by_cases hrest : cursor < x ∧ x ≤ cursor + n
      · rw [if_pos hrest, if_neg (by omega), if_pos (by omega)]
      · rw [if_neg hrest, if_neg hlast, if_neg (by omega)]

theorem HoldsStr.ne_zero (hm : HoldsStr m l) (hl : Clean l) (hi : i < l.length) : m i ≠ 0 := by
  rw [hm.1 i hi]
  exact hl.ne_zero _ (List.getElem_mem hi)

/-- Recalling a line puts it into the buffer. -/
theorem recallLoop_spec (hm : HoldsStr h l) (hl : Clean l) (buf : Mem) (room : Nat) {idx : Nat}
    (hidx : idx ≤ l.length) (hroom : l.length ≤ idx + room)
    (hdone : ∀ i (_ : i < idx) (hi : i < l.length), buf i = l[i]) :
    (recallLoop h room idx buf).2 = l.length ∧ Holds (recallLoop h room idx buf).1 l := by
  induction room generalizing idx buf with
  | zero => exact ⟨by rw [recallLoop]; omega, fun i hi => hdone i (by omega) hi⟩
  | succ room ih =>
    rw [recallLoop]
    by_cases hend : idx = l.length
    · rw [if_neg (by rw [hend]; exact not_not.mpr hm.2)]
      exact ⟨hend, fun i hi => hdone i (by omega) hi⟩
    · have hlt : idx < l.length := by omega
      rw [if_pos (hm.ne_zero hl hlt)]
      refine ih _ (by omega) (by omega) fun i hi hi' => ?_
      by_cases hnew : i = idx
      · subst hnew
        rw [setByte, if_pos rfl]
        exact hm.1 i hi'
      · rw [setByte_of_ne _ hnew]
        exact hdone i (by omega) hi'

/-- Two strings are the same exactly if they compare as such. -/
theorem strcmpLoop_eq_zero (hm : HoldsStr m l) (hm' : HoldsStr m' l') (hl : Clean l)
    (hl' : Clean l') (fuel : Nat)
    {i : Nat} (hi : i ≤ l.length) (hi' : i ≤ l'.length) (hfuel : l.length < i + fuel)
    (hsame : l.take i = l'.take i) :
    strcmpLoop m m' fuel i = 0 ↔ l = l' := by
  induction fuel generalizing i with
  | zero => omega
  | succ fuel ih =>
    rw [strcmpLoop]
    by_cases hend : i = l.length
    · -- The first string ends here.
      have hzero : m i = 0 := by rw [hend]; exact hm.2
      rw [if_neg (fun h => h.1 hzero), hzero]
      by_cases hend' : i = l'.length
      · have hzero' : m' i = 0 := by rw [hend']; exact hm'.2
        rw [hend, List.take_length, ← hend, hend', List.take_length] at hsame
        rw [hzero']
        exact iff_of_true (by simp) hsame
      · have hne := hm'.ne_zero hl' (show i < l'.length by omega)
        refine iff_of_false (fun h => hne (UInt8.toNat_inj.mp ?_)) fun h =>
          hend' (by rw [hend, h])
        have : (0 : UInt8).toNat = 0 := rfl
        omega
    · have hlt : i < l.length := by omega
      by_cases hend' : i = l'.length
      · -- The second one does.
        have hzero' : m' i = 0 := by rw [hend']; exact hm'.2
        have hne := hm.ne_zero hl hlt
        rw [if_neg (fun h => h.2.1 hzero'), hzero']
        refine iff_of_false (fun h => hne (UInt8.toNat_inj.mp ?_)) fun h =>
          hend (by rw [hend', h])
        have : (0 : UInt8).toNat = 0 := rfl
        omega
      · have hlt' : i < l'.length := by omega
        by_cases hbyte : m i = m' i
        · rw [if_pos ⟨hm.ne_zero hl hlt, hm'.ne_zero hl' hlt', hbyte⟩]
          refine ih (by omega) (by omega) (by omega) ?_
          rw [List.take_succ_eq_append_getElem hlt, List.take_succ_eq_append_getElem hlt', hsame,
            ← hm.1 i hlt,
            ← hm'.1 i hlt', hbyte]
        · rw [if_neg (fun h => hbyte h.2.2)]
          refine iff_of_false (fun h => hbyte (UInt8.toNat_inj.mp (by omega))) fun h => hbyte ?_
          subst h
          rw [hm.1 i hlt, hm'.1 i hlt]

theorem histStrcmp_eq_zero (hm : HoldsStr m l) (hm' : HoldsStr m' l') (hl : Clean l)
    (hl' : Clean l') :
    histStrcmp m m' = 0 ↔ l = l' := by
  have hlt := hl.length_lt
  exact strcmpLoop_eq_zero hm hm' hl hl' LINE_MAX (Nat.zero_le _) (Nat.zero_le _) (by omega) rfl

/-! ## The relation -/

/-- What of the editor the history is in. -/
structure Recalls (e : Editor) (history : List (List UInt8)) : Prop where
  count : e.histCount = history.length
  count_le : history.length ≤ HISTORY_MAX
  lines : ∀ i (hi : i < history.length), HoldsStr (e.history i) history[i]
  clean : ∀ l ∈ history, Clean l
  /-- No line comes twice in a row. -/
  distinct : history.IsChain (· ≠ ·)

/-- Where the editor is in the history. -/
def Browses (e : Editor) (a : Line) : Prop :=
  match a.browsing with
  | none => e.browsing = -1
  | some k => e.browsing = k ∧ k < a.history.length ∧ HoldsStr e.saved a.saved ∧ Clean a.saved

/-- The editor holds the line. -/
structure Edits (e : Editor) (a : Line) : Prop where
  idx : e.idx = a.line.length
  cursor : e.cursor = a.cursor
  cursor_le : a.cursor ≤ a.line.length
  line : Holds e.buf a.line
  clean : Clean a.line
  history : Recalls e a.history
  browsing : Browses e a

/-- The editor before the first call. -/
structure Fresh (e : Editor) : Prop where
  idx : e.idx = 0
  cursor : e.cursor = 0
  browsing : e.browsing = -1
  histCount : e.histCount = 0

theorem holds_nil (m : Mem) : Holds m [] := fun i hi => absurd hi (Nat.not_lt_zero i)

theorem clean_nil : Clean [] where
  length_lt := by decide
  ne_zero c hc := absurd hc List.not_mem_nil

theorem Fresh.edits (h : Fresh e) : Edits e Line.start where
  idx := h.idx
  cursor := h.cursor
  cursor_le := le_refl _
  line := holds_nil _
  clean := clean_nil
  history :=
    { count := h.histCount,
      count_le := by decide, lines := fun i hi => absurd hi (Nat.not_lt_zero i),
      clean := fun l hl => absurd hl List.not_mem_nil, distinct := List.isChain_nil }
  browsing := h.browsing

/-! ## The keys -/

theorem Recalls.of_eq {history : List (List UInt8)} (h : Recalls e history)
    (hcount : e'.histCount = e.histCount)
    (hlines : e'.history = e.history) : Recalls e' history where
  count := hcount.trans h.count
  count_le := h.count_le
  lines := hlines ▸ h.lines
  clean := h.clean
  distinct := h.distinct

/-- A recalled line is in the buffer, with the cursor at its end. -/
theorem edits_recall (hm : HoldsStr m l) (hl : Clean l) (hhist : Recalls e a.history)
    (hbrowse : Browses e a) : Edits (e.recall LINE_MAX m) (a.display l) := by
  have hlt := hl.length_lt
  obtain ⟨hidx, hholds⟩ := recallLoop_spec hm hl e.buf (LINE_MAX - 1) (Nat.zero_le _) (by omega)
    fun i hi => absurd hi (Nat.not_lt_zero i)
  exact ⟨hidx, hidx, le_refl _, hholds, hl, hhist.of_eq rfl rfl, hbrowse⟩

/-- Line `k` of the history. -/
theorem Recalls.get {history : List (List UInt8)} (h : Recalls e history) {k : Nat}
    (hk : k < history.length) :
    HoldsStr (e.history k) (history.getD k []) ∧ Clean (history.getD k []) := by
  rw [List.getD_eq_getElem?_getD, List.getElem?_eq_getElem hk, Option.getD_some]
  exact ⟨h.lines k hk, h.clean _ (List.getElem_mem hk)⟩

theorem Edits.saveLine (h : Edits e a) : HoldsStr e.saveLine.saved a.line := by
  have hlt := h.clean.length_lt
  have hidx := h.idx
  refine ⟨fun i hi => ?_, ?_⟩
  · show setByte (copyFirst e.saved e.buf (min e.idx (LINE_MAX - 1))) e.idx 0 i = _
    rw [setByte_of_ne _ (by omega), copyFirst, if_pos (by omega)]
    exact h.line i hi
  · show setByte (copyFirst e.saved e.buf (min e.idx (LINE_MAX - 1))) e.idx 0 a.line.length = 0
    rw [← hidx, setByte, if_pos rfl]

theorem Edits.keyUp (h : Edits e a) : Edits (keyUp LINE_MAX e) (a.press .up) := by
  have hcount := h.history.count
  have hbrowse := h.browsing
  unfold Browses at hbrowse
  unfold User.keyUp Line.press
  cases hb : a.browsing with
  | none =>
    rw [hb] at hbrowse
    dsimp only at hbrowse ⊢
    by_cases hnil : a.history = []
    · rw [if_pos (by rw [hcount, hnil]; rfl), if_pos hnil]
      exact h
    · have hpos : 0 < a.history.length := List.length_pos_iff.mpr hnil
      rw [if_neg (by omega), if_pos hbrowse, if_neg hnil]
      have hk : ((e.histCount : Int) - 1).toNat = a.history.length - 1 := by omega
      obtain ⟨hm, hl⟩ := h.history.get (show a.history.length - 1 < a.history.length by omega)
      rw [hk]
      exact edits_recall
        (a := { a with saved := a.line, browsing := some (a.history.length - 1) }) hm hl
        (h.history.of_eq rfl rfl)
          ⟨by dsimp only; omega, by dsimp only; omega, h.saveLine, h.clean⟩
  | some k =>
    rw [hb] at hbrowse
    obtain ⟨heq, hlt, hsaved, hclean⟩ := hbrowse
    rw [if_neg (by omega), if_neg (by omega)]
    cases k with
    | zero =>
      rw [if_neg (by omega)]
      exact h
    | succ k =>
      rw [if_pos (by omega)]
      have hk : (e.browsing - 1).toNat = k := by omega
      obtain ⟨hm, hl⟩ := h.history.get (show k < a.history.length by omega)
      dsimp only
      rw [hk]
      exact edits_recall (a := { a with browsing := some k }) hm hl (h.history.of_eq rfl rfl)
        ⟨by dsimp only; omega, by dsimp only; omega, hsaved, hclean⟩

theorem Edits.keyDown (h : Edits e a) : Edits (keyDown LINE_MAX e) (a.press .down) := by
  have hcount := h.history.count
  have hbrowse := h.browsing
  unfold Browses at hbrowse
  unfold User.keyDown Line.press
  cases hb : a.browsing with
  | none =>
    rw [hb] at hbrowse
    rw [if_pos hbrowse]
    exact h
  | some k =>
    rw [hb] at hbrowse
    obtain ⟨heq, hlt, hsaved, hclean⟩ := hbrowse
    rw [if_neg (by omega)]
    dsimp only
    by_cases hlast : k + 1 < a.history.length
    · rw [if_pos (by omega), if_pos hlast]
      have hk : (e.browsing + 1).toNat = k + 1 := by omega
      obtain ⟨hm, hl⟩ := h.history.get hlast
      rw [hk]
      exact edits_recall (a := { a with browsing := some (k + 1) }) hm hl
        (h.history.of_eq rfl rfl)
        ⟨by dsimp only; omega, hlast, hsaved, hclean⟩
    · rw [if_neg (by omega), if_neg hlast]
      exact edits_recall (a := { a with browsing := none }) hsaved hclean
        (h.history.of_eq rfl rfl) rfl

/-- A new cursor. -/
theorem Edits.setCursor (h : Edits e a) (hn : n ≤ a.line.length) :
    Edits { e with cursor := n } { a with cursor := n } :=
  { h with cursor := rfl, cursor_le := hn, history := h.history.of_eq rfl rfl }

/-- A new line in the buffer. -/
theorem Edits.setLine (h : Edits e a) (hclean : Clean l) (hn : n ≤ l.length) (hm : Holds m l) :
    Edits { e with buf := m, idx := l.length, cursor := n } { a with line := l, cursor := n } :=
  { h with idx := rfl, cursor := rfl, cursor_le := hn, line := hm, clean := hclean,
           history := h.history.of_eq rfl rfl }

theorem Editor.setCursor_self (h : e.cursor = n) : { e with cursor := n } = e := by
  subst h
  rfl

theorem Edits.keyLeft (h : Edits e a) : Edits (keyLeft e) (a.press .left) := by
  have hcursor := h.cursor
  have hle := h.cursor_le
  have heq : User.keyLeft e = { e with cursor := a.cursor - 1 } := by
    unfold User.keyLeft
    split_ifs with hpos
    · rw [hcursor]
    · exact (Editor.setCursor_self (by omega)).symm
  rw [heq]
  exact h.setCursor (by omega)

theorem Edits.keyRight (h : Edits e a) : Edits (keyRight e) (a.press .right) := by
  have hcursor := h.cursor
  have hidx := h.idx
  have hle := h.cursor_le
  have heq : User.keyRight e = { e with cursor := min (a.cursor + 1) a.line.length } := by
    unfold User.keyRight
    split_ifs with hlt
    · rw [hcursor, Nat.min_eq_left (by omega)]
    · exact (Editor.setCursor_self (by omega)).symm
  rw [heq]
  exact h.setCursor (Nat.min_le_right _ _)

/-- A line with a byte less. -/
theorem Clean.eraseIdx (h : Clean l) (i : Nat) : Clean (l.eraseIdx i) where
  length_lt := lt_of_le_of_lt (List.length_eraseIdx_le l i) h.length_lt
  ne_zero c hc := h.ne_zero c (List.mem_of_mem_eraseIdx hc)

/-- Moving the bytes above `i` down by one takes byte `i` out of the line. -/
theorem holds_moveLeft (hm : Holds m l) (hi : i < l.length) (hn : l.length ≤ i + 1 + n) :
    Holds (moveLeft (i + 1) n m) (l.eraseIdx i) := by
  intro j hj
  rw [List.length_eraseIdx_of_lt hi] at hj
  rw [moveLeft_apply n (i + 1) m j (Nat.succ_pos i), List.getElem_eraseIdx]
  by_cases hlo : j < i
  · rw [if_neg (by omega), dif_pos hlo]
    exact hm j (by omega)
  · rw [if_pos (by omega), dif_neg hlo]
    exact hm (j + 1) (by omega)

theorem Edits.keyDelete (h : Edits e a) : Edits (keyDelete e) (a.press .delete) := by
  have hcursor := h.cursor
  have hidx := h.idx
  show Edits (User.keyDelete e) { a with line := a.line.eraseIdx a.cursor }
  unfold User.keyDelete
  rw [hcursor, hidx]
  by_cases hlt : a.cursor < a.line.length
  · rw [if_pos hlt]
    have hlen := List.length_eraseIdx_of_lt hlt
    have hset :=
      h.setLine (h.clean.eraseIdx a.cursor)
      (show a.cursor ≤ (a.line.eraseIdx a.cursor).length by omega)
      (holds_moveLeft (n := a.line.length - a.cursor) h.line hlt (by omega))
    rw [hlen] at hset
    exact hset
  · rw [if_neg hlt, List.eraseIdx_of_length_le (by omega)]
    exact h

theorem Edits.keyBackspace (h : Edits e a) (alt : Bool) :
    Edits (keyBackspace e) (a.step (.backspace alt)).2 := by
  have hcursor := h.cursor
  have hidx := h.idx
  have hle := h.cursor_le
  unfold User.keyBackspace Line.step
  dsimp only
  rw [hcursor, hidx]
  by_cases hpos : 0 < a.cursor
  · rw [if_pos hpos, if_pos hpos]
    have hlen := List.length_eraseIdx_of_lt (show a.cursor - 1 < a.line.length by omega)
    have hmove :
        Holds (moveLeft a.cursor (a.line.length - a.cursor) e.buf)
        (a.line.eraseIdx (a.cursor - 1)) := by
      have := holds_moveLeft (n := a.line.length - a.cursor) h.line
          (show a.cursor - 1 < a.line.length by omega)
        (by omega)
      rwa [Nat.sub_add_cancel hpos] at this
    have hset := h.setLine (h.clean.eraseIdx (a.cursor - 1))
      (show a.cursor - 1 ≤ (a.line.eraseIdx (a.cursor - 1)).length by omega) hmove
    rwa [hlen] at hset
  · rw [if_neg hpos, if_neg hpos]
    exact h

/-- A line with a byte more. -/
theorem Clean.insertIdx (h : Clean l) (hlen : l.length + 1 < LINE_MAX) (hc : c ≠ 0)
    (hi : i ≤ l.length) : Clean (l.insertIdx i c) where
  length_lt := by rwa [List.length_insertIdx_of_le_length hi]
  ne_zero d hd := by
    rcases (List.mem_insertIdx hi).mp hd with rfl | hmem
    · exact hc
    · exact h.ne_zero d hmem

/-- Moving the bytes from `i` on up by one makes room for a byte there. -/
theorem holds_moveRight (hm : Holds m l) (hi : i ≤ l.length) :
    Holds (setByte (moveRight i (l.length - i) m) i c) (l.insertIdx i c) := by
  intro j hj
  rw [List.length_insertIdx_of_le_length hi] at hj
  rw [List.getElem_insertIdx]
  unfold setByte
  by_cases hlo : j < i
  · rw [if_neg (by omega), dif_pos hlo, moveRight_apply, if_neg (by omega)]
    exact hm j (by omega)
  · rw [dif_neg hlo]
    by_cases hsame : j = i
    · rw [if_pos hsame, dif_pos hsame]
    · rw [if_neg hsame, dif_neg hsame, moveRight_apply, if_pos (by omega)]
      exact hm (j - 1) (by omega)

theorem Edits.insertByte (h : Edits e a) (c : Printable) :
    Edits (insertByte LINE_MAX c.val e) (a.step (.char c)).2 := by
  have hcursor := h.cursor
  have hidx := h.idx
  have hle := h.cursor_le
  unfold User.insertByte Line.step
  dsimp only
  rw [hcursor, hidx]
  split_ifs with hroom
  · have hne : c.val ≠ 0 := by
      intro hzero
      have := c.property.1
      rw [hzero] at this
      exact absurd this (by decide)
    have hlen := List.length_insertIdx_of_le_length (a := c.val) hle
    have hset := h.setLine (h.clean.insertIdx (by omega) hne hle)
      (show a.cursor + 1 ≤ (a.line.insertIdx a.cursor c.val).length by omega)
        (holds_moveRight h.line hle)
    rwa [hlen] at hset
  · exact h

/-! ## Entering a line -/

theorem isChain_tail {history : List (List UInt8)} (h : history.IsChain (· ≠ ·)) :
    history.tail.IsChain (· ≠ ·) := by
  cases history with
  | nil => exact h
  | cons l history => exact h.tail

/-- The history without its oldest line, where it is full. -/
theorem Recalls.shift {history : List (List UInt8)} (h : Recalls e history)
    (hfull : history.length = HISTORY_MAX) :
    Recalls { e with history := shiftHistory e.history, histCount := e.histCount - 1 }
      history.tail where
  count := by
    show e.histCount - 1 = history.tail.length
    rw [h.count, List.length_tail]
  count_le := by
    rw [List.length_tail]
    omega
  lines i hi := by
    rw [List.length_tail] at hi
    have hlt : i + 1 < history.length := by omega
    obtain ⟨hholds, hzero⟩ := h.lines (i + 1) hlt
    have hlen := (h.clean _ (List.getElem_mem hlt)).length_lt
    have hline :
        shiftHistory e.history i = copyFirst (e.history i) (e.history (i + 1)) LINE_MAX :=
      if_pos (by omega)
    rw [List.getElem_tail]
    refine ⟨fun j hj => ?_, ?_⟩
    · show shiftHistory e.history i j = _
      rw [hline, copyFirst, if_pos (by omega)]
      exact hholds j hj
    · show shiftHistory e.history i _ = 0
      rw [hline, copyFirst, if_pos hlen]
      exact hzero
  clean l hl := h.clean l (List.mem_of_mem_tail hl)
  distinct := isChain_tail h.distinct

/-- The history with the line in the buffer. -/
theorem Recalls.push {history : List (List UInt8)} (h : Recalls e history)
    (hroom : history.length < HISTORY_MAX)
    (hidx : e.idx = l.length) (hline : Holds e.buf l) (hclean : Clean l)
    (hlast : history.getLast? ≠ some l) :
    Recalls
      { e with
        history := fun r => if r = e.histCount then
          setByte (copyFirst (e.history e.histCount) e.buf (min e.idx (LINE_MAX - 1)))
              (min e.idx (LINE_MAX - 1)) 0
          else e.history r
        histCount := e.histCount + 1 } (history ++ [l]) where
  count := by
    show e.histCount + 1 = _
    rw [h.count, List.length_append, List.length_singleton]
  count_le := by
    rw [List.length_append, List.length_singleton]
    omega
  lines i hi := by
    rw [List.length_append, List.length_singleton] at hi
    have hcount := h.count
    have hlen := hclean.length_lt
    have hmin : min e.idx (LINE_MAX - 1) = l.length := by omega
    dsimp only
    rw [hmin]
    by_cases hnew : i = e.histCount
    · rw [if_pos hnew]
      have hget : (history ++ [l])[i] = l := by
        rw [List.getElem_append_right (by omega)]
        simp
      rw [hget]
      refine ⟨fun j hj => ?_, ?_⟩
      · rw [setByte_of_ne _ (by omega), copyFirst, if_pos hj]
        exact hline j hj
      · rw [setByte, if_pos rfl]
    · rw [if_neg hnew, List.getElem_append_left (by omega)]
      exact h.lines i (by omega)
  clean l' hl' := by
    rcases List.mem_append.mp hl' with hold | hnew
    · exact h.clean l' hold
    · rw [List.mem_singleton.mp hnew]
      exact hclean
  distinct := by
    refine List.isChain_append.mpr ⟨h.distinct, List.isChain_singleton _, ?_⟩
    intro x hx y hy hsame
    rw [List.head?_cons, Option.mem_some_iff] at hy
    subst hy hsame
    exact hlast hx

theorem getLast?_tail_of_full {history : List (List UInt8)}
    (hfull : history.length = HISTORY_MAX) :
    history.tail.getLast? = history.getLast? := by
  match history, hfull with
  | _ :: _ :: _, _ => rw [List.tail_cons, List.getLast?_cons_cons]

/-- `pushHistory` remembers the line. -/
theorem Recalls.pushHistory {history : List (List UInt8)} (h : Recalls e history)
    (hidx : e.idx = l.length)
    (hline : Holds e.buf l) (hclean : Clean l) (hlast : history.getLast? ≠ some l) :
    Recalls e.pushHistory
      ((if history.length = HISTORY_MAX then history.tail else history) ++ [l]) := by
  have hcount := h.count
  have hle := h.count_le
  unfold Editor.pushHistory
  by_cases hfull : history.length = HISTORY_MAX
  · rw [if_pos (by rw [hcount]; exact hfull), if_pos hfull]
    refine (h.shift hfull).push ?_ hidx hline hclean ?_
    · rw [List.length_tail, hfull]
      decide
    · rw [getLast?_tail_of_full hfull]
      exact hlast
  · rw [if_neg (by rw [hcount]; exact hfull), if_neg hfull]
    exact h.push (by omega) hidx hline hclean hlast

/-- The test of `readline` for a line that is to be remembered. -/
theorem Recalls.isLast_iff {history : List (List UInt8)} (h : Recalls e history)
    (hline : HoldsStr m l)
    (hclean : Clean l) :
    (e.histCount = 0 ∨ histStrcmp (e.history (e.histCount - 1)) m ≠ 0) ↔
      history.getLast? ≠ some l := by
  have hcount := h.count
  by_cases hnil : history = []
  · exact iff_of_true (Or.inl (by rw [hcount, hnil]; rfl)) (by rw [hnil]; simp)
  · have hpos : 0 < history.length := List.length_pos_iff.mpr hnil
    have hlt : history.length - 1 < history.length := by omega
    have hcmp :=
      histStrcmp_eq_zero (h.lines _ hlt) hline (h.clean _ (List.getElem_mem hlt)) hclean
    rw [hcount, List.getLast?_eq_getElem?, List.getElem?_eq_getElem hlt, ne_eq, ne_eq,
      Option.some_inj, hcmp]
    exact ⟨fun hor => hor.resolve_left (by omega), Or.inr⟩

/-- A newline returns the line and remembers it. -/
theorem Edits.keyNewline (h : Edits e a) :
    HoldsStr (keyNewline e).buf a.line ∧ Edits (keyNewline e).newCall (a.step .newline).2 := by
  have hidx := h.idx
  have hstr : HoldsStr (setByte e.buf e.idx 0) a.line := by
    refine ⟨fun i hi => ?_, ?_⟩
    · rw [setByte_of_ne _ (by omega)]
      exact h.line i hi
    · rw [hidx, setByte, if_pos rfl]
  have hhist : Recalls { e with buf := setByte e.buf e.idx 0 } a.history :=
    h.history.of_eq rfl rfl
  have htest := hhist.isLast_iff hstr h.clean
  have hempty : e.idx > 0 ↔ a.line ≠ [] := by
    rw [hidx, gt_iff_lt, List.length_pos_iff]
  -- Whether the line is remembered or not, the buffer holds it and the history is as it should
  -- be.
  have hboth :
      HoldsStr (User.keyNewline e).buf a.line ∧
      Recalls (User.keyNewline e) (remember a.history a.line) := by
    unfold User.keyNewline remember
    by_cases hskip : a.line = [] ∨ a.history.getLast? = some a.line
    · rw [if_pos hskip]
      dsimp only
      rw [if_neg]
      · exact ⟨hstr, hhist⟩
      · rintro ⟨hpos, hnew⟩
        rcases hskip with hnil | hlast
        · exact hempty.mp hpos hnil
        · exact htest.mp hnew hlast
    · rw [if_neg hskip]
      rw [not_or] at hskip
      dsimp only
      rw [if_pos ⟨hempty.mpr hskip.1, htest.mpr hskip.2⟩]
      refine ⟨?_, hhist.pushHistory hidx hstr.1 h.clean hskip.2⟩
      have hbuf : ({ e with buf := setByte e.buf e.idx 0 } : Editor).pushHistory.buf =
          setByte e.buf e.idx 0 := by
        unfold Editor.pushHistory
        split_ifs <;> rfl
      rw [hbuf]
      exact hstr
  refine ⟨hboth.1, ?_⟩
  exact ⟨rfl, rfl, le_refl _, holds_nil _, clean_nil, hboth.2.of_eq rfl rfl, rfl⟩

/-! ## Runs -/

theorem Edits.press (h : Edits e a) (k : Key) : Edits (pressKey LINE_MAX e k) (a.press k) := by
  cases k with
  | up => exact h.keyUp
  | down => exact h.keyDown
  | left => exact h.keyLeft
  | right => exact h.keyRight
  | home => exact h.setCursor (Nat.zero_le _)
  | end_ =>
    exact { h with cursor := h.idx, cursor_le := le_refl _, history := h.history.of_eq rfl rfl }
  | delete => exact h.keyDelete

/-- The escape sequence of a key does what its byte does, in any state. -/
theorem turn_key (e : Editor) (k : Key) (alt : Bool) (rest : List UInt8) :
    turn LINE_MAX e ((Stroke.key k alt).bytes ++ rest) = .next (pressKey LINE_MAX e k) rest := by
  cases alt with
  | false => exact turn_byte LINE_MAX e k rest
  | true => exact turn_sequence LINE_MAX e k rest

theorem turn_backspace (e : Editor) (alt : Bool) (rest : List UInt8) :
    turn LINE_MAX e ((Stroke.backspace alt).bytes ++ rest) = .next (keyBackspace e) rest := by
  cases alt <;> rfl

theorem turn_char (e : Editor) (c : Printable) (rest : List UInt8) :
    turn LINE_MAX e ((Stroke.char c).bytes ++ rest) =
      .next (insertByte LINE_MAX c.val e) rest := by
  obtain ⟨c, hlo, hhi⟩ := c
  rw [UInt8.le_iff_toNat_le] at hlo
  rw [UInt8.lt_iff_toNat_lt] at hhi
  have hother : ∀ d : UInt8, d.toNat < 32 ∨ 127 ≤ d.toNat → c ≠ d := by
    rintro d hd rfl
    exact absurd hd (by simp only [UInt8.reduceToNat] at hlo hhi; omega)
  show turn LINE_MAX e (c :: rest) = _
  have hhigh : ¬ c ≥ 0x80 := by
    rw [ge_iff_le, UInt8.le_iff_toNat_le]
    simp only [UInt8.reduceToNat] at hhi ⊢
    omega
  have hback : ¬ (c = 8 ∨ c = 127) := by
    rintro (h | h)
    · exact hother 8 (by decide) h
    · exact hother 127 (by decide) h
  have hlow : ¬ c < 32 := by
    rw [UInt8.lt_iff_toNat_lt]
    omega
  rw [turn, if_neg (hother 10 (by decide)), if_neg hhigh, if_neg (hother 0x1B (by decide)),
    if_neg hback, if_neg hlow]

/-- What a call returns is a line. -/
def Returns (r : Nat × Mem) (l : List UInt8) : Prop := r.1 = l.length ∧ HoldsStr r.2 l

/-- The bytes of the strokes. -/
def strokeBytes (strokes : List Stroke) : List UInt8 := strokes.flatMap Stroke.bytes

/-- One turn of the loop for a stroke. -/
inductive Turned (rest : List UInt8) : Turn → Option (List UInt8) → Line → Prop where
  | next {e : Editor} {a : Line} (h : Edits e a) : Turned rest (.next e rest) none a
  | returned {v : Nat} {e : Editor} {a : Line} {l : List UInt8} (hret : Returns (v, e.buf) l)
      (h : Edits e.newCall a) : Turned rest (.returned v e rest) (some l) a

theorem Edits.turn (h : Edits e a) (s : Stroke) (rest : List UInt8) :
    Turned rest (turn LINE_MAX e (s.bytes ++ rest)) (a.step s).1 (a.step s).2 := by
  cases s with
  | char c =>
    rw [turn_char]
    exact .next (h.insertByte c)
  | backspace alt =>
    rw [turn_backspace]
    exact .next (h.keyBackspace alt)
  | key k alt =>
    rw [turn_key]
    exact .next (h.press k)
  | newline =>
    obtain ⟨hstr, hedits⟩ := h.keyNewline
    exact .returned ⟨h.idx, hstr⟩ hedits

theorem bytes_length_pos (s : Stroke) : 0 < s.bytes.length := by
  cases s with
  | char c => exact Nat.one_pos
  | backspace alt => exact Nat.one_pos
  | key k alt => cases k <;> cases alt <;> decide
  | newline => exact Nat.one_pos

theorem Edits.readlines (strokes : List Stroke) (h : Edits e a) (fuel : Nat)
    (hfuel : (strokeBytes strokes).length ≤ fuel) :
    ∃ returns e', readlines LINE_MAX fuel e (strokeBytes strokes) = (returns, e', []) ∧
      List.Forall₂ Returns returns (a.run strokes).1 ∧ Edits e' (a.run strokes).2 := by
  induction strokes generalizing e a fuel with
  | nil =>
    refine ⟨[], e, ?_, List.Forall₂.nil, h⟩
    cases fuel <;> rfl
  | cons s strokes ih =>
    have hbytes : strokeBytes (s :: strokes) = s.bytes ++ strokeBytes strokes := List.flatMap_cons
    have hpos := bytes_length_pos s
    rw [hbytes, List.length_append] at hfuel
    obtain ⟨fuel, rfl⟩ : ∃ n, fuel = n + 1 := ⟨fuel - 1, by omega⟩
    rw [hbytes, User.readlines]
    have hturn := h.turn s (strokeBytes strokes)
    rw [Line.run]
    generalize User.turn LINE_MAX e (s.bytes ++ strokeBytes strokes) = t at hturn
    generalize a.step s = r at hturn
    obtain ⟨entered, a'⟩ := r
    cases hturn with
    | next hedits =>
      obtain ⟨returns, e', hrun, hreturns, hedits'⟩ := ih hedits fuel (by omega)
      exact ⟨returns, e', hrun, hreturns, hedits'⟩
    | returned hret hedits =>
      obtain ⟨returns, e', hrun, hreturns, hedits'⟩ := ih hedits fuel (by omega)
      refine ⟨_ :: returns, e', ?_, List.Forall₂.cons hret hreturns, hedits'⟩
      dsimp only
      rw [hrun]

/-- For every sequence of strokes, over any number of calls, the editor refines the line
with its cursor and its history: after all of them the buffer holds the line, the cursor
is in it, and the history is a list of at most 64 lines without repetitions; the calls
return the lines entered; and the escape sequence of a key does what its byte does. -/
theorem editor_refines (hfresh : Fresh e) (strokes : List Stroke) :
    (∃ returns e', readlines LINE_MAX (strokeBytes strokes).length e (strokeBytes strokes) =
      (returns, e', []) ∧
      List.Forall₂ Returns returns (Line.start.run strokes).1 ∧
        Edits e' (Line.start.run strokes).2 ∧
      e'.cursor ≤ e'.idx ∧ e'.idx ≤ LINE_MAX - 1) ∧
    ∀ (e' : Editor) (k : Key) (rest : List UInt8),
      turn LINE_MAX e' (k.sequence ++ rest) = turn LINE_MAX e' (k.byte :: rest) := by
  constructor
  · obtain ⟨returns, e', hrun, hreturns, hedits⟩ := hfresh.edits.readlines strokes _ (le_refl _)
    have hlen := hedits.clean.length_lt
    refine ⟨returns, e', hrun, hreturns, hedits, ?_, ?_⟩
    · rw [hedits.cursor, hedits.idx]
      exact hedits.cursor_le
    · rw [hedits.idx]
      omega
  · intro e' k rest
    rw [turn_sequence, turn_byte]

/-- An editor with nothing in it. -/
def blank : Editor where
  buf := fun _ => 0
  idx := 0
  cursor := 0
  saved := fun _ => 0
  browsing := -1
  history := fun _ _ => 0
  histCount := 0

/-- `a`, newline, the line before, and `b` in front of it. -/
theorem editor_refines_recall :
    Fresh blank ∧ ∃ returns e', readlines LINE_MAX
        (strokeBytes
          [.char ⟨97, by decide⟩, .newline, .key .up true, .key .home false, .char
          ⟨98, by decide⟩]).length blank
        (strokeBytes
          [.char ⟨97, by decide⟩, .newline, .key .up true, .key .home false, .char
          ⟨98, by decide⟩]) =
          (returns, e', []) ∧
      List.Forall₂ Returns returns [[97]] ∧ Holds e'.buf [98, 97] := by
  have hfresh : Fresh blank := ⟨rfl, rfl, rfl, rfl⟩
  obtain ⟨returns, e', hrun, hreturns, hedits, -⟩ := (editor_refines hfresh
    [.char ⟨97, by decide⟩, .newline, .key .up true, .key .home false, .char ⟨98, by decide⟩]).1
  exact ⟨hfresh, returns, e', hrun, hreturns, hedits.line⟩

end Lumin.User
