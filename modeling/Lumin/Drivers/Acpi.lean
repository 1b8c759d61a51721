import Lumin.Lib.Word

/-!
# The shutdown package of the DSDT

A model of `parse_s5` of `drivers/acpi/acpi.c`.  The table is the list of its `dsdt_len`
bytes, `none` is a read at an index past its end, and positions are `uint32_t`.

The layout that `parse_s5` looks for is described apart from it: a package header, a
number of elements, and two integers in one, two or three bytes.  `turn_eq` says what one
turn of the loop does with a package in terms of that layout.
-/

namespace Lumin.Drivers.Acpi

open Lumin.Lib

/-- `*slp_typa` and `*slp_typb`. -/
structure SlpTyp where
  slp_typa : UInt16
  slp_typb : UInt16
deriving DecidableEq

/-- The comparisons of the bytes from `i` on, up to the first difference. -/
def compareBytes (dsdt : List UInt8) (i : Nat) : List UInt8 → Option Bool
  | [] => some true
  | b :: bs =>
    match dsdt[i]? with
    | none => none
    | some c => if c ≠ b then some false else compareBytes dsdt (i + 1) bs

/-- The loop over the `n` bytes of the package length from number `j` on: `pos` and `pkg_len` at
its end. -/
def lengthLoop (dsdt : List UInt8) : Nat → Nat → Nat → Nat → Option (Nat × Nat)
  | 0, _, pos, pkg_len => some (pos, pkg_len)
  | n + 1, j, pos, pkg_len =>
    match dsdt[pos]? with
    | none => none
    | some b => lengthLoop dsdt n (j + 1) (u32 (pos + 1))
      (pkg_len ||| u32 (b.toNat <<< (4 + j * 8)))

/-- One element: its value and the position behind it, or `some none` for an element of another
kind. -/
def readElement (dsdt : List UInt8) (pos : Nat) : Option (Option (UInt16 × Nat)) :=
  match dsdt[pos]? with
  | none => none
  | some tag =>
    if tag = 0x0A then
      match dsdt[u32 (pos + 1)]? with
      | none => none
      | some b => some (some (b.toUInt16, u32 (pos + 2)))
    else if tag = 0x0B then
      match dsdt[u32 (pos + 1)]?, dsdt[u32 (pos + 2)]? with
      | some lo, some hi => some (some (lo.toUInt16 ||| hi.toUInt16 <<< 8, u32 (pos + 3)))
      | _, _ => none
    else if tag = 0x00 then some (some (0, u32 (pos + 1)))
    else if tag = 0x01 then some (some (1, u32 (pos + 1)))
    else some none

/-- The two elements from `pos` on: whether both are there, and what is stored. -/
def readElements (dsdt : List UInt8) (pos : Nat) (slp : SlpTyp) : Option (Bool × SlpTyp) :=
  match readElement dsdt pos with
  | none => none
  | some none => some (false, slp)
  | some (some (a, pos)) =>
    match readElement dsdt pos with
    | none => none
    | some none => some (false, { slp with slp_typa := a })
    | some (some (b, _)) => some (true, { slp_typa := a, slp_typb := b })

/-- The name `\_S5_` with the opcode in front, and the package opcode. -/
def signature : List UInt8 := [0x08, 0x5C, 0x5F, 0x53, 0x35, 0x5F, 0x12]

/-- One turn of the loop: whether it returns 0, and what is stored. -/
def turn (dsdt : List UInt8) (i : Nat) (slp : SlpTyp) : Option (Bool × SlpTyp) :=
  match compareBytes dsdt i signature with
  | none => none
  | some false => some (false, slp)
  | some true =>
    let pos := u32 (u32 (i + 6) + 1)
    match dsdt[pos]? with
    | none => none
    | some lead =>
      match lengthLoop dsdt (lead.toNat >>> 4 &&& 0x03) 0 (u32 (pos + 1))
        (lead.toNat &&& 0x0F) with
      | none => none
      | some (pos, _) =>
        match dsdt[pos]? with
        | none => none
        | some num_elem =>
          if num_elem < 2 then some (false, slp)
          else readElements dsdt (u32 (pos + 1)) slp

/-- The loop with `n` turns left from `i` on. -/
def s5Loop (dsdt : List UInt8) : Nat → Nat → SlpTyp → Option (Int × SlpTyp)
  | 0, _, slp => some (-1, slp)
  | n + 1, i, slp =>
    match turn dsdt i slp with
    | none => none
    | some (true, slp) => some (0, slp)
    | some (false, slp) => s5Loop dsdt n (i + 1) slp

/-- `parse_s5`. -/
def parse_s5 (dsdt : List UInt8) (slp : SlpTyp) : Option (Int × SlpTyp) :=
  s5Loop dsdt (u32 (dsdt.length + (2 ^ 32 - 6))) 0 slp

/-! ## The layout -/

/-- The byte at `i`. -/
def byteAt (dsdt : List UInt8) (i : Nat) : UInt8 := dsdt.getD i 0

/-- A package named `\_S5_` begins at `i`. -/
def Package (dsdt : List UInt8) (i : Nat) : Prop := (dsdt.drop i).take 7 = signature

instance (dsdt : List UInt8) (i : Nat) : Decidable (Package dsdt i) :=
  inferInstanceAs (Decidable (_ = _))

/-- The place of the number of elements, behind the length. -/
def countPos (dsdt : List UInt8) (i : Nat) : Nat :=
  i + 8 + ((byteAt dsdt (i + 7)).toNat >>> 4 &&& 0x03)

/-- The bytes of an element with this tag. -/
def elementSize (tag : UInt8) : Option Nat :=
  if tag = 0x0A then some 2 else if tag = 0x0B then some 3 else if tag = 0x00 ∨
    tag = 0x01 then some 1 else none

/-- The value of the element at `pos`. -/
def elementValue (dsdt : List UInt8) (pos : Nat) : UInt16 :=
  if byteAt dsdt pos = 0x0A then (byteAt dsdt (pos + 1)).toUInt16
  else if byteAt dsdt pos = 0x0B then (byteAt dsdt (pos + 1)).toUInt16 |||
    (byteAt dsdt (pos + 2)).toUInt16 <<< 8
  else (byteAt dsdt pos).toUInt16

/-- The two elements from `pos` on are inside the table, as far as they are read. -/
def ElementsEnd (dsdt : List UInt8) (pos : Nat) : Prop :=
  pos < dsdt.length ∧ ∀ size, elementSize (byteAt dsdt pos) = some size →
    pos + size < dsdt.length ∧ ∀ size', elementSize (byteAt dsdt (pos + size)) = some size' →
      pos + size + size' ≤ dsdt.length

/-- Both elements are integers. -/
def BothIntegers (dsdt : List UInt8) (pos : Nat) : Prop :=
  ∃ size size', elementSize (byteAt dsdt pos) = some size ∧
      elementSize (byteAt dsdt (pos + size)) = some size'

/-- The first element is an integer and the second one is not. -/
def OneInteger (dsdt : List UInt8) (pos : Nat) : Prop :=
  ∃ size, elementSize (byteAt dsdt pos) = some size ∧
      elementSize (byteAt dsdt (pos + size)) = none

/-- The package is inside the table, as far as it is read. -/
def PackageEnds (dsdt : List UInt8) (i : Nat) : Prop :=
  countPos dsdt i < dsdt.length ∧
    (2 ≤ byteAt dsdt (countPos dsdt i) → ElementsEnd dsdt (countPos dsdt i + 1))

/-- A package that begins with two integers. -/
def Complete (dsdt : List UInt8) (i : Nat) : Prop :=
  Package dsdt i ∧ 2 ≤ byteAt dsdt (countPos dsdt i) ∧ BothIntegers dsdt (countPos dsdt i + 1)

/-- A package that begins with an integer and something else. -/
def Malformed (dsdt : List UInt8) (i : Nat) : Prop :=
  Package dsdt i ∧ 2 ≤ byteAt dsdt (countPos dsdt i) ∧ OneInteger dsdt (countPos dsdt i + 1)

variable {dsdt bs : List UInt8} {i j k n pos : Nat} {slp : SlpTyp}

theorem getElem?_byteAt (h : i < dsdt.length) : dsdt[i]? = some (byteAt dsdt i) := by
  rw [byteAt, List.getD_eq_getElem?_getD, List.getElem?_eq_getElem h, Option.getD_some]

theorem getElem?_past (h : dsdt.length ≤ i) : dsdt[i]? = none := List.getElem?_eq_none h

theorem compareBytes_eq (h : i + bs.length ≤ dsdt.length) :
    compareBytes dsdt i bs = some (decide ((dsdt.drop i).take bs.length = bs)) := by
  induction bs generalizing i with
  | nil => simp [compareBytes]
  | cons b bs ih =>
    rw [List.length_cons] at h
    have hget := List.getElem?_eq_getElem (show i < dsdt.length by omega)
    rw [compareBytes, hget, List.drop_eq_getElem_cons (show i < dsdt.length by omega),
      List.length_cons,
      List.take_succ_cons]
    dsimp only
    by_cases hb : dsdt[i] = b
    · rw [if_neg (not_not.mpr hb), ih (by omega), hb]
      simp
    · rw [if_pos hb]
      simp [hb]

/-- The length is skipped if it is inside the table. -/
theorem lengthLoop_inside (hlen : dsdt.length < 2 ^ 32) (h : pos + n ≤ dsdt.length)
    (j pkg_len : Nat) :
    ∃ pkg_len', lengthLoop dsdt n j pos pkg_len = some (pos + n, pkg_len') := by
  induction n generalizing pos j pkg_len with
  | zero => exact ⟨pkg_len, rfl⟩
  | succ n ih =>
    rw [lengthLoop, getElem?_byteAt (by omega), u32_of_lt (by omega)]
    obtain ⟨pkg_len', hrest⟩ := @ih (pos + 1) (by omega) (j + 1)
      (pkg_len ||| u32 ((byteAt dsdt pos).toNat <<< (4 + j * 8)))
    refine ⟨pkg_len', hrest.trans ?_⟩
    congr 2
    omega

theorem lengthLoop_past (hlen : dsdt.length < 2 ^ 32) (hpos : pos ≤ dsdt.length)
    (h : dsdt.length < pos + n)
    (j pkg_len : Nat) : lengthLoop dsdt n j pos pkg_len = none := by
  induction n generalizing pos j pkg_len with
  | zero => omega
  | succ n ih =>
    rw [lengthLoop]
    rcases Nat.lt_or_ge pos dsdt.length with hlt | hge
    · rw [getElem?_byteAt hlt, u32_of_lt (by omega)]
      exact ih (by omega) (by omega) _ _
    · rw [getElem?_past hge]

/-- The tags of an integer. -/
theorem elementSize_cases {tag : UInt8} {size : Nat} (h : elementSize tag = some size) :
    tag = 0x0A ∧ size = 2 ∨ tag = 0x0B ∧ size = 3 ∨ (tag = 0x00 ∨ tag = 0x01) ∧ size = 1 := by
  unfold elementSize at h
  split_ifs at h with hbyte hword hconst <;> cases h
  · exact Or.inl ⟨hbyte, rfl⟩
  · exact Or.inr (Or.inl ⟨hword, rfl⟩)
  · exact Or.inr (Or.inr ⟨hconst, rfl⟩)

theorem elementSize_pos {tag : UInt8} {size : Nat} (h : elementSize tag = some size) :
    1 ≤ size := by
  rcases elementSize_cases h with ⟨-, rfl⟩ | ⟨-, rfl⟩ | ⟨-, rfl⟩ <;> decide

/-- An element inside the table. -/
theorem readElement_inside {size : Nat} (hlen : dsdt.length < 2 ^ 32)
    (hsize : elementSize (byteAt dsdt pos) = some size)
    (h : pos + size ≤ dsdt.length) :
    readElement dsdt pos = some (some (elementValue dsdt pos, pos + size)) := by
  have hpos := elementSize_pos hsize
  rw [readElement, getElem?_byteAt (by omega), elementValue]
  dsimp only
  rcases elementSize_cases hsize with ⟨htag, rfl⟩ | ⟨htag, rfl⟩ | ⟨htag | htag, rfl⟩ <;> rw [htag]
  · rw [u32_of_lt (by omega), u32_of_lt (by omega), getElem?_byteAt (by omega)]
    rfl
  · rw [u32_of_lt (by omega), u32_of_lt (by omega), u32_of_lt (by omega),
      getElem?_byteAt (by omega),
      getElem?_byteAt (by omega)]
    rfl
  · rw [u32_of_lt (by omega)]
    rfl
  · rw [u32_of_lt (by omega)]
    rfl

/-- An element that runs past the end. -/
theorem readElement_past (hlen : dsdt.length < 2 ^ 32)
    (h : dsdt.length ≤ pos ∨ ∃ size, elementSize (byteAt dsdt pos) = some size ∧
      dsdt.length < pos + size) :
    readElement dsdt pos = none := by
  rw [readElement]
  rcases Nat.lt_or_ge pos dsdt.length with hlt | hge
  case inr => rw [getElem?_past hge]
  obtain ⟨size, hsize, hpast⟩ := h.resolve_left (by omega)
  rw [getElem?_byteAt hlt]
  dsimp only
  rcases elementSize_cases hsize with ⟨htag, rfl⟩ | ⟨htag, rfl⟩ | ⟨-, rfl⟩
  · rw [htag, u32_of_lt (by omega), getElem?_past (by omega)]
    rfl
  · rw [htag, u32_of_lt (by omega)]
    rcases Nat.lt_or_ge (pos + 1) dsdt.length with hlo | hlo
    · rw [getElem?_byteAt hlo, u32_of_lt (by omega), getElem?_past (by omega)]
      rfl
    · rw [getElem?_past hlo]
      rfl
  · omega

theorem readElement_other (hpos : pos < dsdt.length) (h : elementSize (byteAt dsdt pos) = none) :
    readElement dsdt pos = some none := by
  rw [readElement, getElem?_byteAt hpos]
  dsimp only
  unfold elementSize at h
  split_ifs at h with hbyte hword hconst
  rw [not_or] at hconst
  rw [if_neg hbyte, if_neg hword, if_neg hconst.1, if_neg hconst.2]

/-! ## The two elements -/

theorem readElements_past (hlen : dsdt.length < 2 ^ 32) (h : ¬ ElementsEnd dsdt pos)
    (slp : SlpTyp) :
    readElements dsdt pos slp = none := by
  rw [readElements]
  rcases Nat.lt_or_ge pos dsdt.length with hlt | hge
  case inr => rw [readElement_past hlen (Or.inl hge)]
  cases hsize : elementSize (byteAt dsdt pos) with
  | none =>
    refine absurd ⟨hlt, fun size hs => ?_⟩ h
    rw [hsize] at hs
    cases hs
  | some size =>
    rcases Nat.lt_or_ge dsdt.length (pos + size) with hpast | hinside
    · rw [readElement_past hlen (Or.inr ⟨size, hsize, hpast⟩)]
    · rw [readElement_inside hlen hsize hinside]
      dsimp only
      rw [readElement_past hlen]
      by_contra hnot
      rw [not_or, not_exists] at hnot
      refine h ⟨hlt, fun s hs => ?_⟩
      rw [hsize] at hs
      cases hs
      refine ⟨by omega, fun size' hsize' => ?_⟩
      by_contra hpast
      exact hnot.2 size' ⟨hsize', by omega⟩

theorem readElements_both (hlen : dsdt.length < 2 ^ 32) (h : ElementsEnd dsdt pos)
    (hboth : BothIntegers dsdt pos)
    (slp : SlpTyp) : ∃ slp', readElements dsdt pos slp = some (true, slp') := by
  obtain ⟨size, size', hsize, hsize'⟩ := hboth
  obtain ⟨-, hfirst⟩ := h
  obtain ⟨hlt, hsecond⟩ := hfirst size hsize
  rw [readElements, readElement_inside hlen hsize (by omega)]
  dsimp only
  rw [readElement_inside hlen hsize' (hsecond size' hsize')]
  exact ⟨_, rfl⟩

theorem readElements_one (hlen : dsdt.length < 2 ^ 32) (h : ElementsEnd dsdt pos)
    (hone : OneInteger dsdt pos)
    (slp : SlpTyp) :
    readElements dsdt pos slp = some (false, { slp with slp_typa := elementValue dsdt pos }) := by
  obtain ⟨size, hsize, hother⟩ := hone
  obtain ⟨hlt, -⟩ := h.2 size hsize
  rw [readElements, readElement_inside hlen hsize (by omega)]
  dsimp only
  rw [readElement_other hlt hother]

theorem readElements_none (h : ElementsEnd dsdt pos) (hboth : ¬ BothIntegers dsdt pos)
    (hone : ¬ OneInteger dsdt pos)
    (slp : SlpTyp) : readElements dsdt pos slp = some (false, slp) := by
  cases hsize : elementSize (byteAt dsdt pos) with
  | none => rw [readElements, readElement_other h.1 hsize]
  | some size =>
    cases hsize' : elementSize (byteAt dsdt (pos + size)) with
    | none => exact absurd ⟨size, hsize, hsize'⟩ hone
    | some size' => exact absurd ⟨size, size', hsize, hsize'⟩ hboth

/-! ## One turn -/

theorem compare_package (hi : i + 6 < dsdt.length) :
    compareBytes dsdt i signature = some (decide (Package dsdt i)) :=
  compareBytes_eq (show i + 7 ≤ dsdt.length by omega)

/-- A turn at a package reads its length and its number of elements, and then the elements. -/
theorem turn_package (hlen : dsdt.length < 2 ^ 32) (hi : i + 6 < dsdt.length)
    (hpkg : Package dsdt i) (slp : SlpTyp) :
    turn dsdt i slp =
      if countPos dsdt i < dsdt.length then
        if byteAt dsdt (countPos dsdt i) < 2 then some (false, slp)
        else readElements dsdt (countPos dsdt i + 1) slp
      else none := by
  unfold turn
  rw [compare_package hi, decide_eq_true hpkg, u32_of_lt (show i + 6 < 2 ^ 32 by omega),
    u32_of_lt (show i + 6 + 1 < 2 ^ 32 by omega)]
  dsimp only
  rcases Nat.lt_or_ge (i + 7) dsdt.length with hlead | hlead
  case inr =>
    rw [getElem?_past hlead, if_neg]
    unfold countPos
    omega
  rw [getElem?_byteAt hlead, u32_of_lt (show i + 6 + 1 + 1 < 2 ^ 32 by omega)]
  dsimp only
  rcases Nat.lt_or_ge (countPos dsdt i) dsdt.length with hcount | hcount
  · obtain ⟨pkg_len, hskip⟩ :=
      lengthLoop_inside hlen (Nat.le_of_lt hcount) 0 ((byteAt dsdt (i + 7)).toNat &&& 0x0F)
    rw [hskip, if_pos hcount]
    dsimp only
    rw [show i + 8 + ((byteAt dsdt (i + 7)).toNat >>> 4 &&& 0x03) = countPos dsdt i from rfl,
      getElem?_byteAt hcount,
      u32_of_lt (show countPos dsdt i + 1 < 2 ^ 32 by omega)]
  · rw [if_neg (by omega)]
    rcases Nat.eq_or_lt_of_le hcount with hend | hpast
    · obtain ⟨pkg_len, hskip⟩ := lengthLoop_inside hlen (Nat.le_of_eq hend.symm) 0
        ((byteAt dsdt (i + 7)).toNat &&& 0x0F)
      rw [hskip]
      dsimp only
      rw [getElem?_past (show dsdt.length ≤ i + 8 + _ from hcount)]
    · rw [lengthLoop_past hlen (by omega) hpast]

theorem turn_past (hlen : dsdt.length < 2 ^ 32) (hi : i + 6 < dsdt.length) (hpkg : Package dsdt i)
    (h : ¬ PackageEnds dsdt i) (slp : SlpTyp) : turn dsdt i slp = none := by
  rw [turn_package hlen hi hpkg]
  split_ifs with hcount hfew
  · refine absurd ⟨hcount, fun hle => ?_⟩ h
    exact absurd hfew (UInt8.not_lt.mpr hle)
  · refine readElements_past hlen (fun hends => h ⟨hcount, fun _ => hends⟩) slp
  · rfl

theorem turn_complete (hlen : dsdt.length < 2 ^ 32) (hi : i + 6 < dsdt.length)
    (hends : PackageEnds dsdt i)
    (h : Complete dsdt i) (slp : SlpTyp) : ∃ slp', turn dsdt i slp = some (true, slp') := by
  obtain ⟨hpkg, hmany, hboth⟩ := h
  rw [turn_package hlen hi hpkg, if_pos hends.1, if_neg (UInt8.not_lt.mpr hmany)]
  exact readElements_both hlen (hends.2 hmany) hboth slp

theorem turn_malformed (hlen : dsdt.length < 2 ^ 32) (hi : i + 6 < dsdt.length)
    (hends : PackageEnds dsdt i)
    (h : Malformed dsdt i) (slp : SlpTyp) :
    turn dsdt i slp =
      some (false, { slp with slp_typa := elementValue dsdt (countPos dsdt i + 1) }) := by
  obtain ⟨hpkg, hmany, hone⟩ := h
  rw [turn_package hlen hi hpkg, if_pos hends.1, if_neg (UInt8.not_lt.mpr hmany)]
  exact readElements_one hlen (hends.2 hmany) hone slp

theorem turn_skip (hlen : dsdt.length < 2 ^ 32) (hi : i + 6 < dsdt.length)
    (hends : Package dsdt i → PackageEnds dsdt i)
    (hcomplete : ¬ Complete dsdt i) (hmalformed : ¬ Malformed dsdt i) (slp : SlpTyp) :
    turn dsdt i slp = some (false, slp) := by
  by_cases hpkg : Package dsdt i
  · rw [turn_package hlen hi hpkg, if_pos (hends hpkg).1]
    split_ifs with hfew
    · rfl
    · have hmany := UInt8.not_lt.mp hfew
      exact readElements_none ((hends hpkg).2 hmany) (fun hboth => hcomplete ⟨hpkg, hmany, hboth⟩)
        (fun hone => hmalformed ⟨hpkg, hmany, hone⟩) slp
  · unfold turn
    rw [compare_package hi, decide_eq_false hpkg]

/-! ## The loop -/

/-- The turns before a package that is complete or not inside the table. -/
def Passed (dsdt : List UInt8) (i : Nat) : Prop :=
  (Package dsdt i → PackageEnds dsdt i) ∧ ¬ Complete dsdt i

/-- The first value is stored by the malformed packages alone. -/
theorem s5Loop_passed (hlen : dsdt.length < 2 ^ 32) (hfit : i + k + 6 ≤ dsdt.length)
    (h : ∀ j, i ≤ j → j < i + k → Passed dsdt j) (n : Nat) :
    (∀ j, i ≤ j → j < i + k → ¬ Malformed dsdt j) ∧
        (∀ slp, s5Loop dsdt (k + n) i slp = s5Loop dsdt n (i + k) slp) ∨
      (∃ j, i ≤ j ∧ j < i + k ∧ Malformed dsdt j) ∧
        ∃ a, ∀ slp, s5Loop dsdt (k + n) i slp =
            s5Loop dsdt n (i + k) { slp with slp_typa := a } := by
  induction k generalizing i with
  | zero =>
    refine Or.inl ⟨fun j hlo hhi => absurd hhi (by omega), fun slp => ?_⟩
    rw [Nat.zero_add, Nat.add_zero]
  | succ k ih =>
    have hnext := @ih (i + 1) (by omega) fun j hlo hhi => h j (by omega) (by omega)
    obtain ⟨hends, hcomplete⟩ := h i (le_refl _) (by omega)
    have hstep : ∀ {slp slp'}, turn dsdt i slp = some (false, slp') →
        s5Loop dsdt (k + 1 + n) i slp = s5Loop dsdt (k + n) (i + 1) slp' := by
      intro slp slp' hturn
      rw [Nat.add_right_comm, s5Loop, hturn]
    rw [show i + 1 + k = i + (k + 1) by omega] at hnext
    by_cases hmal : Malformed dsdt i
    · refine Or.inr ⟨⟨i, le_refl _, by omega, hmal⟩, ?_⟩
      have hturn := turn_malformed hlen (by omega) (hends hmal.1) hmal
      rcases hnext with ⟨-, hrest⟩ | ⟨-, a, hrest⟩
      · exact ⟨_, fun slp => by rw [hstep (hturn slp), hrest]⟩
      · exact ⟨a, fun slp => by rw [hstep (hturn slp), hrest]⟩
    · have hturn := turn_skip hlen (by omega) hends hcomplete hmal
      rcases hnext with ⟨hnone, hrest⟩ | ⟨⟨j, hlo, hhi, hj⟩, a, hrest⟩
      · refine Or.inl ⟨fun j hlo hhi => ?_, fun slp => by rw [hstep (hturn slp), hrest]⟩
        rcases Nat.eq_or_lt_of_le hlo with rfl | hlt
        · exact hmal
        · exact hnone j hlt (by omega)
      · exact Or.inr ⟨⟨j, by omega, by omega, hj⟩, a, fun slp => by rw [hstep (hturn slp), hrest]⟩

/-- A comparison that does not fit does not succeed. -/
theorem compareBytes_short (hi : i ≤ dsdt.length) (h : dsdt.length < i + bs.length) :
    compareBytes dsdt i bs ≠ some true := by
  induction bs generalizing i with
  | nil => exact absurd h (Nat.not_lt.mpr hi)
  | cons b bs ih =>
    rw [List.length_cons] at h
    rw [compareBytes]
    rcases Nat.lt_or_ge i dsdt.length with hlt | hge
    · rw [getElem?_byteAt hlt]
      dsimp only
      split_ifs
      · simp
      · exact ih hlt (by omega)
    · rw [getElem?_past hge]
      simp

/-- Near the end of the table a turn finds nothing. -/
theorem turn_short (hle : i ≤ dsdt.length) (hi : dsdt.length ≤ i + 6) (slp : SlpTyp) :
    turn dsdt i slp = none ∨ turn dsdt i slp = some (false, slp) := by
  have hshort := @compareBytes_short dsdt signature i hle (show dsdt.length < i + 7 by omega)
  unfold turn
  cases hcmp : compareBytes dsdt i signature with
  | none => exact Or.inl rfl
  | some found =>
    cases found with
    | false => exact Or.inr rfl
    | true => exact absurd hcmp hshort

theorem turn_end (slp : SlpTyp) : turn dsdt dsdt.length slp = none := by
  rw [turn, signature, compareBytes, getElem?_past (le_refl _)]

/-- A loop that goes on up to the end of the table reads past it. -/
theorem s5Loop_past (hi : i ≤ dsdt.length) (hshort : dsdt.length ≤ i + 6)
    (hn : dsdt.length < i + n) (slp : SlpTyp) :
    s5Loop dsdt n i slp = none := by
  induction n generalizing i with
  | zero => omega
  | succ n ih =>
    rw [s5Loop]
    rcases Nat.eq_or_lt_of_le hi with rfl | hlt
    · rw [turn_end]
    · rcases turn_short hi hshort slp with hnone | hnext
      · rw [hnone]
      · rw [hnext]
        exact ih (by omega) (by omega) (by omega)

/-! ## The whole table -/

/-- Every read is inside the table, and a call that does not return 0 changes nothing. -/
def StaysInside (dsdt : List UInt8) : Prop :=
  ∀ slp, ∃ ret slp', parse_s5 dsdt slp = some (ret, slp') ∧ (ret ≠ 0 → slp' = slp)

theorem parse_s5_count (hlong : 6 ≤ dsdt.length) (hlen : dsdt.length < 2 ^ 32) (slp : SlpTyp) :
    parse_s5 dsdt slp = s5Loop dsdt (dsdt.length - 6) 0 slp := by
  have hcount : u32 (dsdt.length + (2 ^ 32 - 6)) = dsdt.length - 6 := by
    unfold u32
    omega
  rw [parse_s5, hcount]

/-- In a table of fewer than six bytes the number of turns wraps around. -/
theorem not_staysInside_short (hshort : dsdt.length < 6) : ¬ StaysInside dsdt := by
  intro h
  obtain ⟨ret, slp', hparse, -⟩ := h ⟨0, 0⟩
  have hpast : ∀ n, dsdt.length < n → s5Loop dsdt n 0 ⟨0, 0⟩ = none :=
    fun n hn => s5Loop_past (Nat.zero_le _) (by omega) (by omega) _
  have hcount : dsdt.length < u32 (dsdt.length + (2 ^ 32 - 6)) := by
    unfold u32
    omega
  rw [parse_s5, hpast _ hcount] at hparse
  cases hparse

/-- The loop comes to the first package that is complete or not inside the table. -/
theorem parse_s5_reaches (hlen : dsdt.length < 2 ^ 32) (hk : k + 6 < dsdt.length)
    (hbefore : ∀ j < k, Passed dsdt j)
    (slp : SlpTyp) : ∃ n slp', parse_s5 dsdt slp = s5Loop dsdt (n + 1) k slp' := by
  have hpass :=
    @s5Loop_passed dsdt 0 k hlen (by omega) (fun j _ hhi => hbefore j (by omega))
    (dsdt.length - 6 - k)
  rw [show k + (dsdt.length - 6 - k) = dsdt.length - 6 by omega, Nat.zero_add,
    show dsdt.length - 6 - k = dsdt.length - 6 - k - 1 + 1 by omega] at hpass
  rw [parse_s5_count (by omega) hlen]
  rcases hpass with ⟨-, hrest⟩ | ⟨-, a, hrest⟩
  · exact ⟨_, _, hrest slp⟩
  · exact ⟨_, _, hrest slp⟩

/-- A package that does not end inside the table is read past its end. -/
theorem not_staysInside_past (hlen : dsdt.length < 2 ^ 32) (hk : k + 6 < dsdt.length)
    (hbefore : ∀ j < k, Passed dsdt j)
    (hpkg : Package dsdt k) (hpast : ¬ PackageEnds dsdt k) : ¬ StaysInside dsdt := by
  intro h
  obtain ⟨ret, slp', hparse, -⟩ := h ⟨0, 0⟩
  obtain ⟨n, slp'', hrest⟩ := parse_s5_reaches hlen hk hbefore ⟨0, 0⟩
  rw [hrest, s5Loop, turn_past hlen hk hpkg hpast] at hparse
  cases hparse

/-- A complete package is found. -/
theorem staysInside_complete (hlen : dsdt.length < 2 ^ 32) (hk : k + 6 < dsdt.length)
    (hbefore : ∀ j < k, Passed dsdt j)
    (hends : PackageEnds dsdt k) (hcomplete : Complete dsdt k) : StaysInside dsdt := by
  intro slp
  obtain ⟨n, slp', hrest⟩ := parse_s5_reaches hlen hk hbefore slp
  obtain ⟨slp'', hturn⟩ := turn_complete hlen hk hends hcomplete slp'
  refine ⟨0, slp'', ?_, fun h => absurd rfl h⟩
  rw [hrest, s5Loop, hturn]

/-- Without a complete package the call fails, and a malformed one has changed the first value. -/
theorem staysInside_passed (hlong : 6 ≤ dsdt.length) (hlen : dsdt.length < 2 ^ 32)
    (hpassed : ∀ j, j + 6 < dsdt.length → Passed dsdt j) :
    StaysInside dsdt ↔ ∀ i, i + 6 < dsdt.length → ¬ Malformed dsdt i := by
  have hloop :=
    @s5Loop_passed dsdt 0 (dsdt.length - 6) hlen (by omega) (fun j _ hhi => hpassed j (by omega))
    0
  rw [Nat.add_zero, Nat.zero_add] at hloop
  rcases hloop with ⟨hnone, hrest⟩ | ⟨⟨j, -, hhi, hj⟩, a, hrest⟩
  · refine iff_of_true (fun slp => ⟨-1, slp, ?_, fun _ => rfl⟩) fun i hi =>
      hnone i (Nat.zero_le i) (by omega)
    rw [parse_s5_count hlong hlen, hrest, s5Loop]
  · refine iff_of_false (fun h => ?_) fun h => h j (by omega) hj
    obtain ⟨ret, slp', hparse, hkeep⟩ := h ⟨a + 1, 0⟩
    rw [parse_s5_count hlong hlen, hrest, s5Loop] at hparse
    cases hparse
    have := congrArg SlpTyp.slp_typa (hkeep (by decide))
    simp at this

/-- The parser stays inside exactly if the table is long enough for its loop, every package up to
the first complete one ends inside the table, and a malformed one is followed or preceded by a
complete one. -/
theorem staysInside_iff (hlen : dsdt.length < 2 ^ 32) :
    StaysInside dsdt ↔ 6 ≤ dsdt.length ∧
      (∀ i, i + 6 < dsdt.length → Package dsdt i → (∀ j < i, ¬ Complete dsdt j) →
        PackageEnds dsdt i) ∧
      ((∃ i, i + 6 < dsdt.length ∧ Complete dsdt i) ∨ ∀ i, i + 6 < dsdt.length →
        ¬ Malformed dsdt i) := by
  rcases Nat.lt_or_ge dsdt.length 6 with hshort | hlong
  · exact iff_of_false (not_staysInside_short hshort) fun h => absurd h.1 (by omega)
  by_cases hevent : ∃ i, i + 6 < dsdt.length ∧ ¬ Passed dsdt i
  · -- The first package that is complete or not inside the table decides.
    classical
    obtain ⟨hk, hnot⟩ := Nat.find_spec hevent
    have hbefore : ∀ j < Nat.find hevent, Passed dsdt j := by
      intro j hj
      by_contra hnotj
      exact Nat.find_min hevent hj ⟨by omega, hnotj⟩
    generalize Nat.find hevent = k at hk hnot hbefore
    by_cases hpast : Package dsdt k ∧ ¬ PackageEnds dsdt k
    · refine iff_of_false (not_staysInside_past hlen hk hbefore hpast.1 hpast.2) fun h => ?_
      exact hpast.2 (h.2.1 k hk hpast.1 fun j hj => (hbefore j hj).2)
    · rw [not_and, not_not] at hpast
      have hcomplete : Complete dsdt k := by
        by_contra hnotc
        exact hnot ⟨hpast, hnotc⟩
      refine iff_of_true (staysInside_complete hlen hk hbefore (hpast hcomplete.1) hcomplete)
        ⟨hlong, fun i hi hpkg hfirst => ?_, Or.inl ⟨k, hk, hcomplete⟩⟩
      rcases Nat.lt_trichotomy i k with hlt | rfl | hgt
      · exact (hbefore i hlt).1 hpkg
      · exact hpast hpkg
      · exact absurd hcomplete (hfirst k hgt)
  · have hpassed : ∀ j, j + 6 < dsdt.length → Passed dsdt j := by
      intro j hj
      by_contra hnot
      exact hevent ⟨j, hj, hnot⟩
    rw [staysInside_passed hlong hlen hpassed]
    constructor
    · exact fun h => ⟨hlong, fun i hi hpkg _ => (hpassed i hi).1 hpkg, Or.inr h⟩
    · rintro ⟨-, -, ⟨i, hi, hcomplete⟩ | hnone⟩
      · exact absurd hcomplete (hpassed i hi).2
      · exact hnone

/-- A package of two constants. -/
def softOff : List UInt8 := signature ++ [0x04, 0x02, 0x00, 0x00]

theorem staysInside_softOff : softOff.length < 2 ^ 32 ∧ StaysInside softOff := by
  refine ⟨by decide, (staysInside_iff (by decide)).mpr
    ⟨by decide, fun i _ _ hfirst => ?_, Or.inl ⟨0, by decide, ?_⟩⟩⟩
  · have hcomplete : Complete softOff 0 := ⟨by decide, by decide, 1, 1, rfl, rfl⟩
    rcases Nat.eq_zero_or_pos i with rfl | hi
    · refine ⟨by decide, fun _ => ⟨by decide, fun size hsize => ?_⟩⟩
      cases hsize
      refine ⟨by decide, fun size' hsize' => ?_⟩
      cases hsize'
      decide
    · exact absurd hcomplete (hfirst 0 hi)
  · exact ⟨by decide, by decide, 1, 1, rfl, rfl⟩

/-- A table whose package has the byte integer 5 and then something that is not an integer. -/
def oneInteger : List UInt8 :=
  [68, 83, 68, 84, 48, 0, 0, 0, 2, 175, 66, 79, 67, 72, 83, 32, 66, 88, 80, 67, 68, 83, 68, 84, 1,
    0,
    0, 0, 66, 88, 80, 67, 1, 0, 0, 0, 8, 92, 95, 83, 53, 95, 18, 10, 2, 10, 5, 255]

/-- The first value of the malformed package is left behind. -/
theorem oneInteger_modifies : ¬ ∀ dsdt : List UInt8, dsdt.length < 2 ^ 32 → StaysInside dsdt := by
  intro hall
  obtain ⟨ret, slp', hparse, hkeep⟩ := hall oneInteger (by decide) ⟨7, 7⟩
  have hrun : parse_s5 oneInteger ⟨7, 7⟩ = some (-1, ⟨5, 7⟩) := by decide
  rw [hrun] at hparse
  cases hparse
  exact absurd (hkeep (by decide)) (by decide)

end Lumin.Drivers.Acpi
