import Lumin.Libc.Printf
import Lumin.Libc.Strtol

/-!
# Printed numbers

The numerals that `%ld`, `%lu` and `%lx` of `vcb_printf` print, and `strtol` on them.
`%ld` leaves a place in front of the digits of a negative number and prints it with them.
`prints_iff` says that this is the only thing wrong.
-/

namespace Lumin.Libc.Printf

open Lumin.Lib

/-- The canonical numeral of `n`: no leading zeros, lower case letters. -/
def numeral (base n : Nat) : List UInt8 :=
  if n = 0 then [48] else ((Nat.digits base n).map (hexDigit false)).reverse

/-- The canonical decimal numeral of an integer. -/
def decimal (v : Int) : List UInt8 :=
  if v < 0 then 45 :: numeral 10 v.natAbs else numeral 10 v.natAbs

/-- A 64-bit argument. -/
def longArg (v : Int) : VaArg := { word := BitVec.ofInt 64 v, text := [] }

/-- `%ld` of `v` is the numeral of `v`, and `strtol` reads `v` back from what is printed. -/
def PrintsSigned (junk : Nat → UInt8) (v : Int) : Prop :=
  output junk [37, 108, 100] [longArg v] = some (decimal v) ∧
    ∀ l, output junk [37, 108, 100] [longArg v] = some l → (strtol l 10).val = v

/-- `%lu` and `%lx` of `w` are its numerals. -/
def PrintsUnsigned (junk : Nat → UInt8) (w : Nat) : Prop :=
  output junk [37, 108, 117] [longArg w] = some (numeral 10 w) ∧
    output junk [37, 108, 120] [longArg w] = some (numeral 16 w)

variable {digit : Nat → UInt8} {base n w : Nat} {tmp : List UInt8} {junk : Nat → UInt8} {v : Int}

/-! ## Digits -/

theorem storeDigits_eq (hbase : 2 ≤ base) :
    storeDigits digit base n tmp = tmp ++ (Nat.digits base n).map digit := by
  induction n using Nat.strongRecOn generalizing tmp with
  | _ n ih =>
    rw [storeDigits]
    by_cases hzero : n = 0
    · rw [if_pos (.inl hzero), hzero, Nat.digits_zero, List.map_nil, List.append_nil]
    · have hlt : n / base < n := Nat.div_lt_self (Nat.pos_of_ne_zero hzero) hbase
      rw [if_neg (by omega), ih _ hlt, Nat.digits_def' hbase (Nat.pos_of_ne_zero hzero),
        List.append_assoc]
      rfl

/-- What is stored, read backwards, is the numeral. -/
theorem storeNumber_reverse (hbase : 2 ≤ base) (hdigit : ∀ d < base, digit d = hexDigit false d)
    (n : Nat)
    (tmp : List UInt8) :
    (storeNumber digit base n tmp).reverse = numeral base n ++ tmp.reverse := by
  have hmap : (Nat.digits base n).map digit = (Nat.digits base n).map (hexDigit false) :=
    List.map_congr_left fun d hd => hdigit d (Nat.digits_lt_base hbase hd)
  unfold storeNumber numeral
  rw [storeDigits_eq hbase]
  by_cases hzero : n = 0
  · rw [hzero, if_pos rfl, Nat.zero_mod, Nat.zero_div, Nat.digits_zero, hdigit 0 (by omega)]
    simp [hexDigit]
  · rw [if_neg hzero, ← hmap, Nat.digits_def' hbase (Nat.pos_of_ne_zero hzero)]
    simp

theorem putBackwards_collect (tmp l : List UInt8) :
    putBackwards (fun c l => l ++ [c]) tmp l = l ++ tmp.reverse := by
  induction tmp with
  | nil => exact (List.append_nil l).symm
  | cons c tmp ih =>
    show putBackwards _ tmp l ++ [c] = _
    rw [ih, List.reverse_cons, List.append_assoc]

/-- Without a width there is no padding. -/
theorem padded_noPad {σ : Type} {out : Sink σ} {d : Conversion} (hpad : d.pad = 0)
    (padChar : UInt8) (len rest : Nat) (body : σ → σ) (ctx : σ) :
    padded out d padChar len rest body ctx = body ctx := by
  unfold padded
  dsimp only
  rw [hpad, if_neg (by omega), if_neg (by omega)]

/-! ## The conversions -/

/-- A conversion of a `long`. -/
def longConversion (conv : UInt8) : Conversion :=
  { left := false, padChar := 32, pad := 0, isLong := true, conv }

/-- A format of one conversion. -/
theorem output_long {conv : UInt8} {arg : VaArg}
    (hscan : scanConversion [108, conv] = some (longConversion conv, []))
    (hconv : conv ∈ [(115 : UInt8), 100, 105, 117, 120, 88, 112, 99]) :
    output junk [37, 108, conv] [arg] = putArg (fun c l => l ++ [c]) (junk 0)
      (longConversion conv) arg [] := by
  have hend : ∀ q :
      List VaArg × List UInt8, vcbPrintf (fun c l => l ++ [c]) junk [] q.1 q.2 = some q.2 := by
    intro q
    rw [vcbPrintf]
  have hconvert : convert (fun c l => l ++ [c]) (junk 0) (longConversion conv) [arg] [] =
      (putArg (fun c l => l ++ [c]) (junk 0) (longConversion conv) arg []).map fun l => ([], l) :=
        if_pos hconv
  unfold output
  rw [vcbPrintf_percent, hscan, Option.bind_some, List.length_nil, hconvert]
  cases putArg (fun c l => l ++ [c]) (junk 0) (longConversion conv) arg [] with
  | none => rfl
  | some l => exact hend ([], l)

/-- `%ld`: the characters, with `tmp[0]` at the end if there is a sign. -/
theorem output_signed (junk : Nat → UInt8) (hlo : -2 ^ 63 < v) (hhi : v < 2 ^ 63) :
    output junk [37, 108, 100] [longArg v] =
      some (decimal v ++ if v < 0 then [junk 0] else []) := by
  have hv : (longConversion 100).signed (longArg v) = v := by
    show (BitVec.ofInt 64 v).toInt = v
    rw [BitVec.toInt_ofInt]
    exact Int.bmod_eq_of_le (by omega) (by omega)
  rw [output_long rfl (by decide)]
  show putSigned _ _ _ _ _ = _
  unfold putSigned
  dsimp only
  rw [hv, if_neg (by omega), padded_noPad rfl, putBackwards_collect,
    storeNumber_reverse (by decide) (by decide)]
  unfold decimal
  split_ifs <;> simp

/-- `%lu` and `%lx`. -/
theorem putUnsigned_long {conv : UInt8} (hbase : 2 ≤ base)
    (hdigit : ∀ d < base, digit d = hexDigit false d)
    (hw : w < 2 ^ 64) :
    putUnsigned (fun c l => l ++ [c]) digit base (longConversion conv) (longArg w) [] =
      numeral base w := by
  have hv : (longConversion conv).unsigned (longArg w) = w := by
    show (BitVec.ofInt 64 w).toNat = w
    rw [BitVec.ofInt_natCast, BitVec.toNat_ofNat]
    exact Nat.mod_eq_of_lt hw
  unfold putUnsigned
  dsimp only
  rw [hv, padded_noPad rfl, putBackwards_collect, storeNumber_reverse hbase hdigit,
    List.reverse_nil, List.append_nil,
    List.nil_append]

theorem printsUnsigned (junk : Nat → UInt8) (hw : w < 2 ^ 64) : PrintsUnsigned junk w := by
  constructor
  · rw [output_long rfl (by decide)]
    exact congrArg some (putUnsigned_long (by decide) (by decide) hw)
  · rw [output_long rfl (by decide)]
    exact congrArg some (putUnsigned_long (by decide) (fun d _ => rfl) hw)

/-! ## Reading back -/

theorem numeral_ne_nil (base n : Nat) : numeral base n ≠ [] := by
  unfold numeral
  split_ifs with hzero
  · exact List.cons_ne_nil _ _
  · simpa using Nat.digits_ne_nil_iff_ne_zero.mpr hzero

/-- The characters of a decimal numeral are digits, and their number is `n`. -/
theorem numeral_digits (n : Nat) :
    (∀ c ∈ numeral 10 n, IsDigit 10 c = true) ∧ digitsValue 10 (numeral 10 n) = n := by
  have hdigit : ∀ d < 10, digitOf (hexDigit false d) = some d := by decide
  by_cases hzero : n = 0
  · rw [hzero, show numeral 10 0 = [48] from rfl]
    refine ⟨fun c hc => ?_, rfl⟩
    rw [List.mem_singleton.mp hc]
    rfl
  · have hnumeral : numeral 10 n = ((Nat.digits 10 n).map (hexDigit false)).reverse :=
      if_neg hzero
    rw [hnumeral]
    constructor
    · intro c hc
      obtain ⟨d, hd, rfl⟩ := List.mem_map.mp (List.mem_reverse.mp hc)
      have hlt := Nat.digits_lt_base (by decide) hd
      exact isDigit_iff.mpr ⟨d, hdigit d hlt, hlt⟩
    · have hvalues :
          ((Nat.digits 10 n).map (hexDigit false)).map (fun c => (digitOf c).getD 0) =
          Nat.digits 10 n := by
        rw [List.map_map]
        conv_rhs => rw [← List.map_id (Nat.digits 10 n)]
        refine List.map_congr_left fun d hd => ?_
        show (digitOf (hexDigit false d)).getD 0 = d
        rw [hdigit d (Nat.digits_lt_base (by decide) hd)]
        rfl
      unfold digitsValue numberOf
      rw [List.map_reverse, hvalues, List.reverse_reverse, Nat.ofDigits_digits]

/-- `strtol` of a run of decimal digits. -/
theorem strtol_numeral (hn : n < 2 ^ 63) : (strtol (numeral 10 n) 10).val = n := by
  obtain ⟨hdigits, hvalue⟩ := numeral_digits n
  obtain ⟨c, ds, hcons⟩ := List.exists_cons_of_ne_nil (numeral_ne_nil 10 n)
  obtain ⟨hspace, hminus, hplus⟩ :=
    digit_not_space (hdigits c (by rw [hcons]; exact List.mem_cons_self))
  have hscan : scanSign ((numeral 10 n).dropWhile isspace) = (1, numeral 10 n) := by
    rw [hcons, List.dropWhile_cons_of_neg (by rw [hspace]; exact Bool.false_ne_true)]
    show (if c = 45 then _ else if c = 43 then _ else _) = _
    rw [if_neg hminus, if_neg hplus]
  have hread : digitsRead 10 (numeral 10 n) = numeral 10 n := by
    show (numeral 10 n).takeWhile (IsDigit 10) = _
    exact List.takeWhile_eq_self_iff.mpr hdigits
  have hten : 10 = 0 ∨ (2 ≤ 10 ∧ 10 ≤ 36) := by decide
  have hval := (strtol_scanned hten Sign.none hscan).val
  rw [hread] at hval
  rw [hval]
  show clampLong (1 * (digitsValue 10 (numeral 10 n) : Int)) = n
  rw [hvalue]
  unfold clampLong LONG_MIN LONG_MAX
  omega

/-! ## The result -/

/-- The numbers are printed as their numerals and read back, unless `%ld` prints a sign. -/
theorem prints_iff (junk : Nat → UInt8) (v : Int) (w : Nat) (hlo : -2 ^ 63 < v) (hhi : v < 2 ^ 63)
    (hw : w < 2 ^ 64) :
    PrintsSigned junk v ∧ PrintsUnsigned junk w ↔ 0 ≤ v := by
  have hout := output_signed junk hlo hhi
  constructor
  · rintro ⟨⟨hprints, -⟩, -⟩
    by_contra hneg
    rw [hout, if_pos (not_le.mp hneg)] at hprints
    have hlen := congrArg List.length (Option.some.inj hprints)
    rw [List.length_append, List.length_singleton] at hlen
    omega
  · intro hpos
    rw [if_neg (not_lt.mpr hpos), List.append_nil] at hout
    refine ⟨⟨hout, fun l hl => ?_⟩, printsUnsigned junk hw⟩
    rw [hout] at hl
    obtain rfl := Option.some.inj hl
    have hdecimal : decimal v = numeral 10 v.natAbs := if_neg (not_lt.mpr hpos)
    rw [hdecimal, strtol_numeral (by omega)]
    exact Int.natAbs_of_nonneg hpos

/-- 10 and 255. -/
theorem prints_ten : (-2 ^ 63 < (10 : Int) ∧ (10 : Int) < 2 ^ 63 ∧ 255 < 2 ^ 64) ∧
    (PrintsSigned (fun _ => 63) 10 ∧ PrintsUnsigned (fun _ => 63) 255) := by
  refine ⟨by decide, (prints_iff _ 10 255 (by decide) (by decide) (by decide)).mpr (by decide)⟩

/-- Whatever is in `tmp[0]`, `-5` is not printed as its numeral. -/
theorem not_prints_minusFive : ¬ ∃ junk, PrintsSigned junk (-5) := by
  rintro ⟨junk, hprints, -⟩
  rw [output_signed _ (by decide) (by decide)] at hprints
  have hlen := congrArg List.length (Option.some.inj hprints)
  rw [if_pos (by decide), List.length_append, List.length_singleton] at hlen
  omega

end Lumin.Libc.Printf
