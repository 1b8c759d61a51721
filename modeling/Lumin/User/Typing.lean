import Lumin.User.Tokenize
import Lumin.User.LineEditing
import Lumin.Os.Scancodes

/-!
# From the keys to the words of a command

What the shell makes of keys.  The scancodes go through `keyboard_handler` and the key queue,
`SYS_READ` takes the bytes off it, `readline` makes lines of them and `tokenize` cuts these
into words.

* `commandLine` puts words into a line.  `typable_iff` says which arguments a line can have.
* `KeepsUp` says that the reader lets the queue never get full, and `accepted_run` what the
  queue has taken in then.
* `Keyed` reads bytes as strokes of the line editor, and as bytes that it ignores.
* `shell_gets_typed` is the result: the words are those of the lines that were edited, for every
  order of interrupts and reads.
-/

namespace Lumin.User

open Lumin.Os
open Libc.Strtok (StringAt)

variable {s w l : List UInt8} {ws : List (List UInt8)}

/-! ## A line for words -/

/-- Words that a line can have. -/
def Typable (w : List UInt8) : Prop := 34 ∈ w → 32 ∉ w ∧ w.head? ≠ some 34

instance decidableTypable (w : List UInt8) : Decidable (Typable w) :=
  inferInstanceAs (Decidable (_ → _))

/-- The word needs quotation marks. -/
def needsQuotes (w : List UInt8) : Bool := w = [] || 32 ∈ w || w.head? = some 34

/-- A word as it is typed. -/
def typedWord (w : List UInt8) : List UInt8 := if needsQuotes w then 34 :: (w ++ [34]) else w

/-- Words as they are typed, with a space behind each. -/
def commandLine (ws : List (List UInt8)) : List UInt8 := ws.flatMap fun w => typedWord w ++ [32]

theorem words_typedWord (hw : Typable w) (h : Words s ws) :
    Words (typedWord w ++ [32] ++ s) (w :: ws) := by
  unfold typedWord
  split
  · rename_i hquotes
    have hmark : 34 ∉ w := by
      intro hmem
      obtain ⟨hspace, hhead⟩ := hw hmem
      have hne : w ≠ [] := List.ne_nil_of_mem hmem
      simp [needsQuotes, hspace, hhead, hne] at hquotes
    rw [show 34 :: (w ++ [34]) ++ [32] ++ s = 34 :: (w ++ 34 :: (32 :: s)) by simp]
    exact .quoted hmark h.space
  · rename_i hquotes
    simp only [needsQuotes, Bool.or_eq_true, decide_eq_true_eq, not_or] at hquotes
    obtain ⟨⟨hne, hspace⟩, hhead⟩ := hquotes
    obtain ⟨c, w, rfl⟩ := List.exists_cons_of_ne_nil hne
    rw [List.append_assoc, List.singleton_append]
    exact .word (fun hc => hhead (congrArg some hc)) hspace h

theorem words_commandLine (h : ∀ w ∈ ws, Typable w) : Words (commandLine ws) ws := by
  induction ws with
  | nil => exact .nil
  | cons w ws ih =>
    exact words_typedWord (h w List.mem_cons_self)
      (ih fun w hw => h w (List.mem_cons_of_mem _ hw))

theorem Words.typable (h : Words s ws) : ∀ w ∈ ws, Typable w := by
  have hbare : ∀ {c : UInt8} {w : List UInt8}, c ≠ 34 → 32 ∉ c :: w → Typable (c :: w) :=
    fun hc hw _ => ⟨hw, fun h => hc (Option.some.inj h)⟩
  have hmark : ∀ {w : List UInt8}, 34 ∉ w → Typable w := fun hw hmem => absurd hmem hw
  induction h with
  | nil => exact fun w hw => absurd hw List.not_mem_nil
  | space h ih => exact ih
  | last hc hw => exact List.forall_mem_singleton.mpr (hbare hc hw)
  | word hc hw h ih => exact List.forall_mem_cons.mpr ⟨hbare hc hw, ih⟩
  | unclosed hw => exact List.forall_mem_singleton.mpr (hmark hw)
  | quoted hw h ih => exact List.forall_mem_cons.mpr ⟨hmark hw, ih⟩

theorem zero_notMem_commandLine (h : ∀ w ∈ ws, 0 ∉ w) : 0 ∉ commandLine ws := by
  intro hmem
  obtain ⟨w, hw, hmem⟩ := List.mem_flatMap.mp hmem
  have hword := h w hw
  unfold typedWord at hmem
  split at hmem
  · simp [hword] at hmem
  · simp [hword] at hmem

/-- What `tokenize` finds in a line that a string holds. -/
def FindsWords (s : List UInt8) (ws : List (List UInt8)) : Prop :=
  ∃ ptrs buf, tokenize (s ++ [0]) 0 MAX_ARGS = some ⟨ptrs, buf⟩ ∧
      List.Forall₂ (StringAt buf) ptrs ws

theorem forall₂_nonzero {buf : List UInt8} {ptrs : List Nat}
    (h : List.Forall₂ (StringAt buf) ptrs ws) : ∀ w ∈ ws, 0 ∉ w := by
  induction h with
  | nil => exact fun w hw => absurd hw List.not_mem_nil
  | cons hfirst hrest ih => exact List.forall_mem_cons.mpr ⟨hfirst.nonzero, ih⟩

/-- The arguments that a line can have. -/
theorem typable_iff (ws : List (List UInt8)) :
    (∃ s, 0 ∉ s ∧ FindsWords s ws) ↔ ws.length ≤ MAX_ARGS ∧ ∀ w ∈ ws, 0 ∉ w ∧ Typable w := by
  constructor
  · rintro ⟨s, hzero, ptrs, buf, hrun, hptrs⟩
    obtain ⟨ws', ptrs', s', hwords, hrun', hcount, hptrs', -⟩ :=
      tokenize_words MAX_ARGS [] s [] hzero
    rw [List.nil_append, List.length_nil, hrun, Option.some.injEq, Tokenized.mk.injEq] at hrun'
    rw [hrun'.1, hrun'.2] at hptrs
    have hws : ws = ws'.take MAX_ARGS := forall₂_unique hptrs hptrs'
    have hzeros := forall₂_nonzero hptrs
    refine ⟨?_, fun w hw => ⟨hzeros w hw, ?_⟩⟩
    · rw [hws]
      exact List.length_take_le _ _
    · rw [hws] at hw
      exact ((hwords ws').mpr rfl).typable w (List.mem_of_mem_take hw)
  · rintro ⟨hcount, hws⟩
    have hzero := zero_notMem_commandLine fun w hw => (hws w hw).1
    obtain ⟨ptrs, s', hrun, hptrs, -⟩ :=
      tokenizeLoop_spec MAX_ARGS ((commandLine ws ++ [0]).length + 1)
      (words_commandLine fun w hw => (hws w hw).2) hzero
        (by simp only [List.length_append]; omega) [] [] []
    rw [List.length_nil, Nat.sub_zero, List.take_of_length_le hcount] at hptrs
    exact ⟨commandLine ws, hzero, _, _, hrun, hptrs⟩

/-! ## The queue between interrupts and reads -/

/-- The characters that the handler makes of the scancodes, and the bytes of the serial port, in
the order in which they come. -/
def typed : Flags → List KeyOp → List UInt8
  | _, [] => []
  | f, .handler scancode :: os => (decode f scancode).2.toList ++ typed (decode f scancode).1 os
  | f, .serial c :: os => c :: typed f os
  | f, _ :: os => typed f os

/-- Less than 255 characters wait in the queue before every operation. -/
def KeepsUp : Keyboard → List KeyOp → Prop
  | _, [] => True
  | k, o :: os => (queued k.queue).length < 255 ∧ KeepsUp (keyStep k o) os

instance decidableKeepsUp : (k : Keyboard) → (os : List KeyOp) → Decidable (KeepsUp k os)
  | _, [] => .isTrue trivial
  | k, o :: os => haveI := decidableKeepsUp (keyStep k o) os; inferInstanceAs (Decidable (_ ∧ _))

variable {k : Keyboard} {os : List KeyOp}

theorem put_flags (k : Keyboard) (c : UInt8) : (put k c).flags = k.flags := by
  unfold put
  split
  · rfl
  · rfl

theorem handler_flags (k : Keyboard) (scancode : UInt8) :
    (keyStep k (.handler scancode)).flags = (decode k.flags scancode).1 := by
  change (keyboard_handler k scancode).flags = _
  unfold keyboard_handler
  cases (decode k.flags scancode).2 with
  | none => rfl
  | some c => exact put_flags _ c

/-- A queue that never gets full takes in every character that is typed. -/
theorem accepted_run (h : KeyInv k) (hup : KeepsUp k os) :
    (os.foldl keyStep k).accepted = k.accepted ++ typed k.flags os := by
  induction os generalizing k with
  | nil => exact (List.append_nil _).symm
  | cons o os ih =>
    obtain ⟨hroom, hrest⟩ := hup
    obtain ⟨hinv, haccepted⟩ := keyStep_spec h o
    rw [if_pos hroom] at haccepted
    have hlater := ih hinv hrest
    rw [List.foldl_cons, hlater, haccepted, List.append_assoc]
    congr 1
    cases o with
    | handler scancode =>
      rw [handler_flags]
      rfl
    | serial c =>
      rw [show (keyStep k (.serial c)).flags = k.flags from put_flags k c]
      rfl
    | dequeue => rfl
    | take => rfl
    | avail => rfl

/-- Once the queue is empty, the reads have got everything that was typed. -/
theorem dequeued_run (f : Flags) (q : KeyQueue) (hup : KeepsUp (keyStart f q) os)
    (hdone : keyboard_avail (os.foldl keyStep (keyStart f q)).queue = false) :
    (os.foldl keyStep (keyStart f q)).dequeued = typed f os := by
  obtain ⟨-, -, -, hfifo, -, havail⟩ := keyQueue_fifo f q os
  have hempty : queued (os.foldl keyStep (keyStart f q)).queue = [] := by
    by_contra hne
    rw [havail.mpr hne] at hdone
    cases hdone
  rw [hempty, List.append_nil, accepted_run (keyInv_start f q) hup] at hfifo
  exact hfifo

/-! ## Bytes for strokes -/

/-- Control characters without a meaning for `readline`, and bytes behind its keys. -/
def Ignored (c : UInt8) : Prop := (c < 32 ∧ c ≠ 8 ∧ c ≠ 10 ∧ c ≠ 27) ∨ 0x86 < c

instance decidableIgnored (c : UInt8) : Decidable (Ignored c) := inferInstanceAs (Decidable (_ ∨ _))

/-- The bytes are those of the strokes, with ignored ones between them. -/
inductive Keyed : List UInt8 → List Stroke → Prop
  | nil : Keyed [] []
  | stroke (s : Stroke) {bs : List UInt8} {ss : List Stroke} (h : Keyed bs ss) :
    Keyed (s.bytes ++ bs) (s :: ss)
  | ignored {c : UInt8} (hc : Ignored c) {bs : List UInt8} {ss : List Stroke} (h : Keyed bs ss) :
    Keyed (c :: bs) ss

/-- A byte other than `ESC` is a stroke, or ignored. -/
theorem stroke_or_ignored {c : UInt8} (hc : c ≠ 27) :
    (∃ s : Stroke, s.bytes = [c]) ∨ Ignored c := by
  have hcases : ∀ n < 256, UInt8.ofNat n = 27 ∨ (32 ≤ UInt8.ofNat n ∧ UInt8.ofNat n < 127) ∨
      Ignored (UInt8.ofNat n) ∨ UInt8.ofNat n ∈ [8, 10, 127] ∨
        UInt8.ofNat n ∈ [Key.up, .down, .left, .right, .home, .end_, .delete].map Key.byte := by
    decide +kernel
  have hbyte := hcases c.toNat c.toNat_lt
  rw [UInt8.ofNat_toNat] at hbyte
  rcases hbyte.resolve_left hc with hprintable | hignored | hother | hkey
  · exact .inl ⟨.char ⟨c, hprintable⟩, rfl⟩
  · exact .inr hignored
  · simp only [List.mem_cons, List.not_mem_nil, or_false] at hother
    rcases hother with rfl | rfl | rfl
    · exact .inl ⟨.backspace false, rfl⟩
    · exact .inl ⟨.newline, rfl⟩
    · exact .inl ⟨.backspace true, rfl⟩
  · obtain ⟨k, -, rfl⟩ := List.mem_map.mp hkey
    exact .inl ⟨.key k false, rfl⟩

/-- Bytes without `ESC` can be read. -/
theorem exists_keyed {bs : List UInt8} (h : 27 ∉ bs) : ∃ ss, Keyed bs ss := by
  induction bs with
  | nil => exact ⟨[], .nil⟩
  | cons c bs ih =>
    rw [List.mem_cons, not_or] at h
    obtain ⟨ss, hss⟩ := ih h.2
    rcases stroke_or_ignored (Ne.symm h.1) with ⟨s, hs⟩ | hignored
    · exact ⟨s :: ss, by simpa [hs] using Keyed.stroke s hss⟩
    · exact ⟨ss, .ignored hignored hss⟩

theorem turn_ignored {c : UInt8} (hc : Ignored c) (e : Editor) (rest : List UInt8) :
    turn LINE_MAX e (c :: rest) = .next e rest := by
  have hne : ∀ d : UInt8, ¬ Ignored d → c ≠ d := fun d hd heq => hd (heq ▸ hc)
  rw [turn, if_neg (hne 10 (by decide))]
  by_cases hhigh : c ≥ 0x80
  · rw [if_pos hhigh, byteKey, if_neg (hne _ (by decide)), if_neg (hne _ (by decide)),
      if_neg (hne _ (by decide)), if_neg (hne _ (by decide)), if_neg (hne _ (by decide)),
      if_neg (hne _ (by decide)), if_neg (hne _ (by decide))]
  · have hlow : c < 32 := by
      rcases hc with hlow | hkeys
      · exact hlow.1
      · exact absurd (UInt8.le_of_lt (UInt8.lt_of_le_of_lt (by decide) hkeys)) hhigh
    have hback : ¬ (c = 8 ∨ c = 127) := not_or.mpr ⟨hne 8 (by decide), hne 127 (by decide)⟩
    rw [if_neg hhigh, if_neg (hne 27 (by decide)), if_neg hback, if_pos hlow]

/-- What a call returns is a line that a string holds. -/
def ReturnsClean (r : Nat × Lib.Mem) (l : List UInt8) : Prop := Returns r l ∧ Clean l

/-- The calls of `readline` return the lines that are entered. -/
theorem Keyed.readlines {bs : List UInt8} {ss : List Stroke} (hkeyed : Keyed bs ss) {e : Editor}
    {a : Line} (h : Edits e a) (fuel : Nat) (hfuel : bs.length ≤ fuel) :
    ∃ returns e', User.readlines LINE_MAX fuel e bs = (returns, e', []) ∧
      List.Forall₂ ReturnsClean returns (a.run ss).1 := by
  induction hkeyed generalizing e a fuel with
  | nil =>
    refine ⟨[], e, ?_, List.Forall₂.nil⟩
    cases fuel <;> rfl
  | @stroke s bs ss _ ih =>
    have hpos := bytes_length_pos s
    rw [List.length_append] at hfuel
    obtain ⟨fuel, rfl⟩ : ∃ n, fuel = n + 1 := ⟨fuel - 1, by omega⟩
    have hturn := h.turn s bs
    have hclean : ∀ l, (a.step s).1 = some l → Clean l := by
      intro l hl
      cases s with
      | newline => exact Option.some.inj hl ▸ h.clean
      | _ => cases hl
    rw [User.readlines, Line.run]
    generalize User.turn LINE_MAX e (s.bytes ++ bs) = t at hturn
    generalize a.step s = r at hturn hclean
    obtain ⟨entered, a'⟩ := r
    cases hturn with
    | next hedits =>
      obtain ⟨returns, e', hrun, hreturns⟩ := ih hedits fuel (by omega)
      exact ⟨returns, e', hrun, hreturns⟩
    | returned hret hedits =>
      obtain ⟨returns, e', hrun, hreturns⟩ := ih hedits fuel (by omega)
      refine ⟨_ :: returns, e', ?_, List.Forall₂.cons ⟨hret, hclean _ rfl⟩ hreturns⟩
      dsimp only
      rw [hrun]
  | @ignored c hc bs ss _ ih =>
    rw [List.length_cons] at hfuel
    obtain ⟨fuel, rfl⟩ : ∃ n, fuel = n + 1 := ⟨fuel - 1, by omega⟩
    rw [User.readlines, turn_ignored hc]
    exact ih h fuel (by omega)

/-! ## Words of lines -/

/-- The array that `readline` fills. -/
def lineArray (m : Lib.Mem) : List UInt8 := (List.range LINE_MAX).map m

theorem lineArray_eq {m : Lib.Mem} (h : HoldsStr m l) (hlength : l.length ≤ LINE_MAX - 1) :
    lineArray m = l ++ 0 :: (lineArray m).drop (l.length + 1) := by
  apply List.ext_getElem?
  intro i
  have hat : ∀ i < LINE_MAX, (lineArray m)[i]? = some (m i) := by
    intro i hi
    rw [lineArray, List.getElem?_map, List.getElem?_range hi]
    rfl
  unfold LINE_MAX at hlength hat
  rcases Nat.lt_trichotomy i l.length with hi | rfl | hi
  · rw [List.getElem?_append_left hi, hat i (by omega), h.1 i hi, List.getElem?_eq_getElem hi]
  · rw [List.getElem?_append_right (le_refl _), Nat.sub_self, hat l.length (by omega), h.2]
    rfl
  · obtain ⟨j, rfl⟩ := Nat.exists_eq_add_of_lt hi
    rw [List.getElem?_append_right (by omega), show l.length + j + 1 - l.length =
      j + 1 by omega, List.getElem?_cons_succ,
      List.getElem?_drop]
    congr 1
    omega

/-! ## All of it -/

/-- `tokenize` makes the words of the line of what a call of `readline` has returned. -/
def GetsWords (r : Nat × Lib.Mem) (l : List UInt8) : Prop :=
  ∃ ws t, (∀ ws', Words l ws' ↔ ws' = ws) ∧
    tokenize (lineArray r.2) 0 MAX_ARGS = some t ∧
      List.Forall₂ (StringAt t.buf) t.argv (ws.take MAX_ARGS)

theorem ReturnsClean.gets {r : Nat × Lib.Mem} (h : ReturnsClean r l) : GetsWords r l := by
  obtain ⟨⟨-, hstr⟩, hclean⟩ := h
  have hlength := hclean.length_lt
  have hzero : 0 ∉ l := fun hmem => hclean.ne_zero 0 hmem rfl
  obtain ⟨ws, hws⟩ := exists_words l
  have harray := lineArray_eq hstr (by omega)
  obtain ⟨ptrs, s', hrun, hptrs, -⟩ := tokenizeLoop_spec MAX_ARGS ((lineArray r.2).length + 1)
    hws hzero (by rw [harray]; simp only [List.length_append]; omega) [] []
    ((lineArray r.2).drop (l.length + 1))
  rw [List.nil_append, ← harray] at hrun
  exact ⟨ws, _, fun ws' => ⟨fun h => h.unique hws hzero, fun h => h ▸ hws⟩, hrun, hptrs⟩

/-- **From the keys to the words.**  In every order of interrupts and reads in which the queue
never is full and is empty at the end, the shell reads what was typed, in order; bytes without
`ESC` are strokes of the editor and ignored bytes; and the calls of `readline` return, line by
line, strings of which `tokenize` makes the words of the lines that these strokes enter. -/
theorem shell_gets_typed (f : Flags) (q : KeyQueue) (os : List KeyOp)
    (hup : KeepsUp (keyStart f q) os)
    (hdone : keyboard_avail (os.foldl keyStep (keyStart f q)).queue = false) (e : Editor)
    (hfresh : Fresh e) :
    let input := (os.foldl keyStep (keyStart f q)).dequeued
    input = typed f os ∧ (27 ∉ input → ∃ strokes, Keyed input strokes) ∧
      ∀ strokes, Keyed input strokes →
        ∃ returns e', readlines LINE_MAX input.length e input = (returns, e', []) ∧
          List.Forall₂ GetsWords returns (Line.start.run strokes).1 := by
  intro input
  refine ⟨dequeued_run f q hup hdone, exists_keyed, fun strokes hkeyed => ?_⟩
  obtain ⟨returns, e', hrun, hreturns⟩ := hkeyed.readlines hfresh.edits _ (le_refl _)
  exact ⟨returns, e', hrun, hreturns.imp fun _ _ h => h.gets⟩

/-- `a`, the left key, `b` with the caps lock, and a new line, while the shell reads. -/
theorem shell_gets_typed_left :
    ∃ returns e', readlines LINE_MAX 4 blank [97, 0x82, 66, 10] = (returns, e', []) ∧
      List.Forall₂ GetsWords returns [[66, 97]] := by
  have hkeyed : Keyed [97, 0x82, 66, 10]
      [.char ⟨97, by decide⟩, .key .left false, .char ⟨66, by decide⟩, .newline] :=
    .stroke (.char ⟨97, by decide⟩) (.stroke (.key .left false)
      (.stroke (.char ⟨66, by decide⟩) (.stroke .newline .nil)))
  exact (shell_gets_typed noFlags noKeys
    [.handler 30, .dequeue, .handler 158, .handler 0xE0, .handler 0x4B, .avail, .handler 0x3A,
      .dequeue, .handler 48, .handler 28, .dequeue, .dequeue]
    (by decide) (by decide) blank ⟨rfl, rfl, rfl, rfl⟩).2.2 _ hkeyed

end Lumin.User
