import Lumin.Os.Keyboard

/-!
# The prefix of a scancode

What `keyboard_handler` keeps of the bytes that it has seen: the modifiers, and the flag
that the last byte was the prefix `0xE0`.  The handler tests the modifier codes before the
flag, so such a code after a prefix leaves the flag set.  `prefixEnds_iff` says that no
other byte does.
-/

namespace Lumin.Os

/-- The flags before the first interrupt. -/
def noFlags : Flags := ⟨false, false, false, false⟩

/-- The queue before the first interrupt. -/
def noKeys : KeyQueue := ⟨fun _ => 0, 0, 0⟩

/-- The flags after the handler has seen the bytes of `history`. -/
def flagsAfter (history : List UInt8) : Flags :=
  (history.foldl keyboard_handler (keyStart noFlags noKeys)).flags

/-- The codes of the modifier keys: those that the handler tests before the prefix. -/
def modifierCodes : List UInt8 := [0x2A, 0x36, 0xAA, 0xB6, 0x1D, 0x9D, 0x3A]

/-- Equal modifiers. -/
def SameModifiers (f g : Flags) : Prop :=
  f.shift_pressed = g.shift_pressed ∧ f.ctrl_pressed = g.ctrl_pressed ∧
    f.caps_locked = g.caps_locked

/-- With either flags the handler queues the same characters for every later byte sequence. -/
def SameLater (f g : Flags) : Prop :=
  ∀ (k : Keyboard) (later : List UInt8),
    (later.foldl keyboard_handler { k with flags := f }).accepted =
      (later.foldl keyboard_handler { k with flags := g }).accepted

/-- After `h`, the prefix and `b` the same characters are queued as after any history with
the same modifiers that does not end in a prefix. -/
def SameAfter (h : List UInt8) (b : UInt8) : Prop :=
  ∀ h', (flagsAfter h').extended = false →
      SameModifiers (flagsAfter (h ++ [0xE0, b])) (flagsAfter h') →
    SameLater (flagsAfter (h ++ [0xE0, b])) (flagsAfter h')

/-- The prefix after `h` affects the byte `b` and no byte after it. -/
structure PrefixEnds (h : List UInt8) (b : UInt8) : Prop where
  clear : (flagsAfter (h ++ [0xE0, b])).extended = false
  same : SameAfter h b

variable {f : Flags} {b : UInt8}

/-! ## One byte -/

/-- The flags do not depend on the queue. -/
theorem flags_run (k : Keyboard) (bs : List UInt8) :
    (bs.foldl keyboard_handler k).flags = bs.foldl (fun f b => (decode f b).1) k.flags := by
  have hone : ∀ (k : Keyboard) b, (keyboard_handler k b).flags = (decode k.flags b).1 := by
    intro k b
    unfold keyboard_handler
    cases (decode k.flags b).2 with
    | none => rfl
    | some c =>
      dsimp only
      unfold put
      cases enqueue k.queue c with
      | none => rfl
      | some q => rfl
  induction bs generalizing k with
  | nil => rfl
  | cons b bs ih =>
    rw [List.foldl_cons, List.foldl_cons, ih, hone]

theorem flagsAfter_prefixed (h : List UInt8) (b : UInt8) :
    flagsAfter (h ++ [0xE0, b]) = (decode { flagsAfter h with extended := true } b).1 := by
  unfold flagsAfter
  rw [List.foldl_append, flags_run]
  rfl

/-- A modifier code leaves the flag alone. -/
theorem decode_modifier (h : b ∈ modifierCodes) (f : Flags) :
    (decode f b).1.extended = f.extended := by
  simp only [modifierCodes, List.mem_cons, List.not_mem_nil, or_false] at h
  rcases h with rfl | rfl | rfl | rfl | rfl | rfl | rfl
  all_goals rfl

/-- Any other byte but the prefix clears the flag and leaves the modifiers alone. -/
theorem decode_other (hb : b ≠ 0xE0) (h : b ∉ modifierCodes) (f : Flags) :
    (decode f b).1 = { f with extended := false } := by
  simp only [modifierCodes, List.mem_cons, List.not_mem_nil, or_false, not_or] at h
  obtain ⟨h2A, h36, hAA, hB6, h1D, h9D, h3A⟩ := h
  unfold decode
  rw [if_neg (not_or.mpr ⟨h2A, h36⟩), if_neg (not_or.mpr ⟨hAA, hB6⟩), if_neg h1D, if_neg h9D,
    if_neg h3A, if_neg hb]
  cases hext : f.extended with
  | true =>
    rw [if_pos rfl]
    dsimp only
    split_ifs
    all_goals rfl
  | false =>
    have hsame : f = { f with extended := false } := by rw [← hext]
    rw [if_neg Bool.false_ne_true]
    split_ifs
    all_goals exact hsame

/-! ## The flag and the characters -/

/-- A history with the modifiers of `f` and without a prefix. -/
def modifierHistory (f : Flags) : List UInt8 :=
  (if f.shift_pressed then [0x2A] else []) ++ (if f.ctrl_pressed then [0x1D] else []) ++
    (if f.caps_locked then [0x3A] else [])

theorem flagsAfter_modifierHistory (f : Flags) :
    flagsAfter (modifierHistory f) = { f with extended := false } := by
  obtain ⟨shift, ctrl, caps, extended⟩ := f
  cases shift
  all_goals cases ctrl
  all_goals cases caps
  all_goals rfl

/-- The flag shows at the next arrow key. -/
theorem not_sameLater (hf : f.extended = true) : ¬ SameLater f { f with extended := false } := by
  intro hsame
  have hup := hsame (keyStart f noKeys) [0x48]
  obtain ⟨shift, ctrl, caps, extended⟩ := f
  cases hf
  revert hup
  cases shift
  all_goals cases ctrl
  all_goals cases caps
  all_goals decide

/-- The characters tell whether the byte after the prefix was a modifier code. -/
theorem sameAfter_iff (h : List UInt8) (hb : b ≠ 0xE0) : SameAfter h b ↔ b ∉ modifierCodes := by
  have hflags := flagsAfter_prefixed h b
  constructor
  · intro hsame hmem
    have hext : (flagsAfter (h ++ [0xE0, b])).extended = true :=
      by rw [hflags, decode_modifier hmem]
    have hother := flagsAfter_modifierHistory (flagsAfter (h ++ [0xE0, b]))
    have hlater := hsame (modifierHistory (flagsAfter (h ++ [0xE0, b])))
    rw [hother] at hlater
    exact not_sameLater hext (hlater rfl ⟨rfl, rfl, rfl⟩)
  · intro hmem h' hext hmods
    rw [decode_other hb hmem] at hflags
    have hequal : flagsAfter (h ++ [0xE0, b]) = flagsAfter h' := by
      obtain ⟨hshift, hctrl, hcaps⟩ := hmods
      rw [hflags] at hshift hctrl hcaps ⊢
      generalize flagsAfter h' = g at hext hshift hctrl hcaps ⊢
      obtain ⟨shift, ctrl, caps, extended⟩ := g
      cases hext
      cases hshift
      cases hctrl
      cases hcaps
      rfl
    rw [hequal]
    intro k later
    rfl

/-- The prefix ends with the next byte exactly when that is not a modifier code. -/
theorem prefixEnds_iff (h : List UInt8) (b : UInt8) (hb : b ≠ 0xE0) :
    PrefixEnds h b ↔ b ∉ modifierCodes := by
  constructor
  · intro hends
    exact (sameAfter_iff h hb).mp hends.same
  · intro hmem
    refine ⟨?_, (sameAfter_iff h hb).mpr hmem⟩
    rw [flagsAfter_prefixed, decode_other hb hmem]

/-- The up key after a prefix. -/
theorem prefixEnds_up : (0x48 : UInt8) ≠ 0xE0 ∧ (PrefixEnds [] 0x48 ↔ 0x48 ∉ modifierCodes) :=
  ⟨by decide, prefixEnds_iff [] 0x48 (by decide)⟩

/-- After the right control key, whose code has a prefix, `A` queues nothing; after the left
one it queues the control character. -/
theorem rightCtrl_keeps_prefix : ¬ ∀ h b, b ≠ 0xE0 → PrefixEnds h b := by
  intro hall
  have hsame := (hall [] 0x1D (by decide)).same [0x1D] rfl ⟨rfl, rfl, rfl⟩
  have hqueued := hsame (keyStart noFlags noKeys) [0x1E]
  revert hqueued
  decide

end Lumin.Os
