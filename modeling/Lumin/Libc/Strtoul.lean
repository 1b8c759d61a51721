import Lumin.Lib.Word
import Lumin.Libc.Strtol

/-!
# Reading an unsigned number

A model of `strtoul` of `libc/src/stdlib/strtol.c`.  The scanners for the white space, the
sign and the prefix are those of `strtol`, and so is the grammar.

The loop over the digits differs.  A digit that fits sets `any` back to 1, also behind one
that did not fit and was left out.  `strtoul_converts_iff` says for which numerals that
shows: for those in which it is the last digit that fits again.
-/

namespace Lumin.Libc

open Lumin.Lib

def ULONG_MAX : Nat := 2 ^ 64 - 1

/-! ## `strtoul` -/

/-- The loop over the digits: `val`, `any` and what is left of the string. -/
def unsignedLoop (base val : Nat) (any : Int) : List UInt8 → Nat × Int × List UInt8
  | [] => (val, any, [])
  | c :: p =>
    match digitOf c with
    | none => (val, any, c :: p)
    | some digit =>
      if digit ≥ base then (val, any, c :: p)
      else if val > (ULONG_MAX - digit) / base then unsignedLoop base val (-1) p
      else unsignedLoop base (val * base + digit) 1 p

/-- What a call returns, `*endptr` as an offset, and whether it sets `errno` to `ERANGE`. -/
structure StrtoulResult where
  val : Nat
  endptr : Nat
  erange : Bool
  deriving DecidableEq, Repr

/-- `strtoul`. -/
def strtoul (s : List UInt8) (base : Nat) : StrtoulResult :=
  let p := s.dropWhile isspace
  let (sign, p) := scanSign p
  let (base, p) := scanPrefix base p
  let (val, any, p) := unsignedLoop base 0 0 p
  let val := if any < 0 then ULONG_MAX else if any = 0 then 0 else val
  { val := if sign < 0 ∧ any > 0 then sub64 0 val else val
    endptr := if any ≠ 0 then s.length - p.length else 0
    erange := decide (any < 0) }

/-! ## The digits of the longest numeral -/

/-- The base in which the longest numeral is written. -/
def numeralBase (base : Nat) (s : List UInt8) : Nat :=
  (formAt base (scanSign (s.dropWhile isspace)).2).1

/-- The values of its digits, or none if there is no numeral. -/
def numeralDigits (base : Nat) (s : List UInt8) : List Nat :=
  digitList (digitsAt base (scanSign (s.dropWhile isspace)).2)

/-- The longest numeral has its value modulo `2 ^ 64` if its magnitude is in the range, and
else `ULONG_MAX` and `ERANGE`. -/
def Converts (s : List UInt8) (base : Nat) : Prop :=
  ∀ n v, LongestNumeral base s n v →
    (v.natAbs ≤ ULONG_MAX → ((strtoul s base).val : Int) = v % 2 ^ 64) ∧
      (ULONG_MAX < v.natAbs → (strtoul s base).val = ULONG_MAX ∧ (strtoul s base).erange = true)

variable {base val : Nat} {s p r sgn : List UInt8} {sign : Int}

/-! ## The loop over the digits -/

/-- What the flag of the scanner that leaves out digits is in `any`. -/
def anyOf (taken : Bool) : Int := if taken then 1 else -1

/-- The loop is the scanner that leaves out digits. -/
theorem unsignedLoop_spec (base val : Nat) (any : Int) (b : Bool) (p : List UInt8) :
    unsignedLoop base val any p =
      ((skipDigits ULONG_MAX base (val, b) (digitList (p.takeWhile (IsDigit base)))).1,
        if p.takeWhile (IsDigit base) = [] then any
        else anyOf (skipDigits ULONG_MAX base (val, b)
          (digitList (p.takeWhile (IsDigit base)))).2,
        p.dropWhile (IsDigit base)) := by
  induction p generalizing val any b with
  | nil => rfl
  | cons c p ih =>
    by_cases hc : IsDigit base c = true
    · obtain ⟨d, hd, hlt⟩ := isDigit_iff.mp hc
      have hstep : ∀ ds, skipDigits ULONG_MAX base (val, b) (digitList (c :: ds)) =
          skipDigits ULONG_MAX base
            (if val > (ULONG_MAX - d) / base then (val, false) else (val * base + d, true))
            (digitList ds) := by
        intro ds
        unfold digitList skipDigits
        rw [List.map_cons, List.foldl_cons, hd]
        rfl
      rw [List.takeWhile_cons_of_pos hc, List.dropWhile_cons_of_pos hc, hstep, unsignedLoop, hd]
      dsimp only
      rw [if_neg (not_le.mpr hlt), if_neg (List.cons_ne_nil _ _)]
      -- Before the first digit of the rest the flag is that of this digit.
      have hflag : ∀ v' b', (if p.takeWhile (IsDigit base) = [] then anyOf b'
          else anyOf (skipDigits ULONG_MAX base (v', b')
            (digitList (p.takeWhile (IsDigit base)))).2) =
          anyOf (skipDigits ULONG_MAX base (v', b')
            (digitList (p.takeWhile (IsDigit base)))).2 := by
        intro v' b'
        split_ifs with hempty
        · rw [hempty]
          rfl
        · rfl
      split_ifs with hover
      · rw [ih val (-1) false, show (-1 : Int) = anyOf false from rfl, hflag]
      · rw [ih (val * base + d) 1 true, show (1 : Int) = anyOf true from rfl, hflag]
    · have hstop : unsignedLoop base val any (c :: p) = (val, any, c :: p) := by
        rw [unsignedLoop]
        cases hd : digitOf c with
        | none => rfl
        | some d => exact if_pos (base_le_of_not_isDigit hc hd)
      rw [List.takeWhile_cons_of_neg hc, List.dropWhile_cons_of_neg hc, hstop]
      rfl

theorem digitList_lt (p : List UInt8) :
    ∀ d ∈ digitList (p.takeWhile (IsDigit base)), d < base := by
  intro e he
  obtain ⟨c, hc, rfl⟩ := List.mem_map.mp he
  obtain ⟨d, hd, hlt⟩ := isDigit_iff.mp (List.mem_takeWhile_imp hc)
  rw [hd]
  exact hlt

/-! ## What a call returns -/

/-- The result for the digits that the loop reads. -/
theorem strtoul_scanned (hbase : base = 0 ∨ (2 ≤ base ∧ base ≤ 36)) (hsgn : Sign sgn sign)
    (hscan : scanSign (s.dropWhile isspace) = (sign, r)) :
    (digitsValue (scanPrefix base r).1 (digitsRead base r) ≤ ULONG_MAX →
        ((strtoul s base).val : Int) =
          (sign * digitsValue (scanPrefix base r).1 (digitsRead base r)) % 2 ^ 64) ∧
      (ULONG_MAX < digitsValue (scanPrefix base r).1 (digitsRead base r) →
        ((strtoul s base).val = ULONG_MAX ∧ (strtoul s base).erange = true ↔
          ¬ Relapses ULONG_MAX (scanPrefix base r).1 (digitList (digitsRead base r)))) := by
  obtain ⟨hlo, hhi⟩ := scanPrefix_base hbase r
  have hloop := unsignedLoop_spec (scanPrefix base r).1 0 0 true (scanPrefix base r).2
  have hdigits : ∀ d ∈ digitList (digitsRead base r), d < (scanPrefix base r).1 :=
    digitList_lt (scanPrefix base r).2
  have hmax : (scanPrefix base r).1 ≤ ULONG_MAX := hhi.trans (by decide)
  rw [show (scanPrefix base r).2.takeWhile (IsDigit (scanPrefix base r).1) =
    digitsRead base r from rfl] at hloop
  have hresult :
      ∀ val any rest, unsignedLoop (scanPrefix base r).1 0 0 (scanPrefix base r).2 =
      (val, any, rest) →
      (strtoul s base).val =
          (if sign < 0 ∧
            any > 0 then sub64 0 (if any < 0 then ULONG_MAX else if any = 0 then 0 else val)
          else if any < 0 then ULONG_MAX else if any = 0 then 0 else val) ∧
        (strtoul s base).erange = decide (any < 0) := by
    intro val any rest heq
    unfold strtoul
    dsimp only
    rw [hscan]
    dsimp only
    rw [heq]
    exact ⟨rfl, rfl⟩
  obtain ⟨hval, herange⟩ := hresult _ _ _ hloop
  constructor
  · intro hle
    have hfits := skipDigits_fits (b := true) (by omega : 0 < (scanPrefix base r).1)
      (fun e he => (hdigits e he).le.trans hmax) hle
    rw [ite_self] at hfits
    rw [hfits] at hval
    show _ = sign * (numberOf (scanPrefix base r).1 (digitList (digitsRead base r)) : Int) % 2 ^
        64
    change numberOf (scanPrefix base r).1 (digitList (digitsRead base r)) ≤ ULONG_MAX at hle
    by_cases hempty : digitsRead base r = []
    · rw [hempty] at hval ⊢
      rw [hval]
      show (((if sign < 0 ∧ (0 : Int) > 0 then sub64 0 0 else 0) : Nat) : Int) =
          sign * (0 : Nat) % 2 ^ 64
      rw [if_neg fun h => absurd h.2 (lt_irrefl 0), Nat.cast_zero, mul_zero]
      rfl
    · rw [if_neg hempty] at hval
      generalize numberOf (scanPrefix base r).1 (digitList (digitsRead base r)) = m at hval hle ⊢
      rw [hval]
      unfold anyOf sub64 u64
      unfold ULONG_MAX at hle
      have hsign : sign = 1 ∨ sign = -1 := by
        cases hsgn with
        | none => exact .inl rfl
        | plus => exact .inl rfl
        | minus => exact .inr rfl
      rcases hsign with rfl | rfl
      · simp only [reduceIte]
        norm_num
        omega
      · simp only [reduceIte]
        norm_num
        omega
  · intro hover
    have hlast := skipDigits_last (b := true) hlo hmax hdigits hover
    have hne : digitsRead base r ≠ [] := by
      intro hempty
      rw [hempty] at hover
      exact absurd hover (Nat.not_lt_zero _)
    rw [← hlast, herange, hval, if_neg hne]
    generalize skipDigits ULONG_MAX (scanPrefix base r).1 (0, true)
      (digitList (digitsRead base r)) = acc
    cases acc.2 with
    | true => exact iff_of_false (fun h => absurd h.2 (by decide)) (fun h => h rfl)
    | false => exact iff_of_true ⟨by simp [anyOf], rfl⟩ Bool.false_ne_true

/-! ## The result -/

/-- The digits that are read relapse if those of the numeral do. -/
theorem relapses_read (hbase : base = 0 ∨ (2 ≤ base ∧ base ≤ 36)) (h : ReadsNumeral base r) :
    Relapses ULONG_MAX (scanPrefix base r).1 (digitList (digitsRead base r)) ↔
      Relapses ULONG_MAX (formAt base r).1 (digitList (digitsAt base r)) := by
  obtain ⟨hlo, hhi⟩ := scanPrefix_base hbase r
  rw [h.radix] at hlo hhi ⊢
  rcases h.digits with heq | heq
  · rw [heq]
  · rw [heq]
    exact (relapses_zero_cons (by omega) (hhi.trans (by decide))).symm

/-- `strtoul` converts the longest numeral, unless its last digit fits behind digits that
were left out. -/
theorem strtoul_converts_iff (s : List UInt8) (base : Nat)
    (hbase : base = 0 ∨ (2 ≤ base ∧ base ≤ 36)) :
    Converts s base ↔ ¬ Relapses ULONG_MAX (numeralBase base s) (numeralDigits base s) := by
  obtain ⟨ws, sgn, -, -, hsgn⟩ := scan_split s
  unfold numeralBase numeralDigits
  cases hscan : scanSign (s.dropWhile isspace) with
  | mk sign r =>
    rw [hscan] at hsgn
    obtain ⟨hin, hout⟩ := strtoul_scanned hbase hsgn hscan
    have hat : numeralAt base s = _ := numeralAt_eq hscan
    have hsign : sign.natAbs = 1 := by
      cases hsgn with
      | none => rfl
      | plus => rfl
      | minus => rfl
    have habs : ∀ m : Nat, (sign * m).natAbs = m := by
      intro m
      rw [Int.natAbs_mul, hsign, one_mul, Int.natAbs_natCast]
    dsimp only
    by_cases hbare : BareAt base r
    · -- The numeral is the `0`, and it is the value without digits too.
      obtain ⟨hread, hdigits, -⟩ := scanPrefix_bare hbare
      rw [hread] at hin
      rw [hdigits, if_neg (List.cons_ne_nil _ _)] at hat
      rw [hdigits]
      refine iff_of_true (fun n v hlongest => ?_) fun hrelapse =>
        absurd hrelapse.length (by decide)
      rw [longestNumeral_iff, hat] at hlongest
      cases hlongest
      have hzero : digitsValue (formAt base r).1 [48] = 0 := digitsValue_zero_cons _ []
      rw [hzero, habs]
      exact ⟨fun _ => hin (Nat.zero_le _), fun hlt => absurd hlt (Nat.not_lt_zero _)⟩
    · have hnumeral := scanPrefix_numeral hbare
      rw [hnumeral.value] at hin hout
      rw [relapses_read hbase hnumeral] at hout
      by_cases hempty : digitsAt base r = []
      · rw [if_pos hempty] at hat
        rw [hempty]
        refine iff_of_true (fun n v hlongest => ?_) fun hrelapse =>
          absurd hrelapse.length (by decide)
        rw [longestNumeral_iff, hat] at hlongest
        cases hlongest
      · rw [if_neg hempty] at hat
        have hlongest :
            ∀ n v, LongestNumeral base s n v →
            v = sign * digitsValue (formAt base r).1 (digitsAt base r) := by
          intro n v hlongest
          rw [longestNumeral_iff, hat] at hlongest
          cases hlongest
          rfl
        constructor
        · intro hconverts hrelapse
          have hover : ULONG_MAX < digitsValue (formAt base r).1 (digitsAt base r) := by
            apply hrelapse.over
            have := (scanPrefix_base hbase r).1
            rw [hnumeral.radix] at this
            omega
          have hresult := (hconverts _ _ (longestNumeral_iff.mpr hat)).2
          rw [habs] at hresult
          exact (hout hover).mp (hresult hover) hrelapse
        · intro hsticks n v hn
          rw [hlongest n v hn, habs]
          exact ⟨hin, fun hover => (hout hover).mpr hsticks⟩

/-- `"-1"` is converted. -/
theorem strtoul_converts_minusOne : (0 = 0 ∨ (2 ≤ 0 ∧ 0 ≤ 36)) ∧ Converts [45, 49] 0 := by
  refine ⟨.inl rfl, (strtoul_converts_iff [45, 49] 0 (.inl rfl)).mpr fun hrelapse => ?_⟩
  exact absurd hrelapse.length (by decide)

/-- The 6 of `"184467440737095516160"` is left out and its last digit is not. -/
theorem strtoul_relapses : ¬ ∀ s base, (base = 0 ∨ (2 ≤ base ∧ base ≤ 36)) → Converts s base := by
  intro h
  have hlongest : LongestNumeral 10
      [49, 56, 52, 52, 54, 55, 52, 52, 48, 55, 51, 55, 48, 57, 53, 53, 49, 54, 49, 54, 48] 21
        184467440737095516160 :=
    longestNumeral_iff.mpr (by decide)
  exact absurd ((h _ 10 (.inr ⟨by decide, by decide⟩) _ _ hlongest).2 (by decide)) (by decide)

end Lumin.Libc
