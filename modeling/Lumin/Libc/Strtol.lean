import Mathlib.Data.List.TakeWhile
import Lumin.Lib.Digits

/-!
# Reading a number

A model of `strtol` of `libc/src/stdlib/strtol.c`, and the grammar of the C standard that
it reads.  A string is the list of its bytes in front of the terminating zero, and a
pointer into it is an offset.

* `Numeral` is the grammar: white space, a sign, a prefix that the base allows, digits.
* `LongestNumeral` is what the standard asks `strtol` to convert.  `numeralAt` finds it,
  and `longestNumeral_iff` says that it does.
* `strtol_value` is the result for the value: it is that of the longest numeral, clamped.
* `strtol_reports_iff` is the result for the end pointer and `errno`.  They are wrong for
  a prefix without digits and for `LONG_MIN` itself.
-/

namespace Lumin.Libc

open Lumin.Lib

def LONG_MAX : Int := 2 ^ 63 - 1
def LONG_MIN : Int := -2 ^ 63

/-- `isspace`. -/
def isspace (c : UInt8) : Bool := c = 32 ∨ c = 9 ∨ c = 10 ∨ c = 13 ∨ c = 12 ∨ c = 11

/-- The digit that a character stands for: `0` to `9`, then letters in either case. -/
def digitOf (c : UInt8) : Option Nat :=
  if 48 ≤ c ∧ c ≤ 57 then some (c.toNat - 48)
  else if 97 ≤ c ∧ c ≤ 122 then some (c.toNat - 97 + 10)
  else if 65 ≤ c ∧ c ≤ 90 then some (c.toNat - 65 + 10)
  else none

/-! ## `strtol` -/

/-- The loop over the digits: `val`, `any` and what is left of the string. -/
def digitLoop (base : Nat) (val any : Int) : List UInt8 → Int × Int × List UInt8
  | [] => (val, any, [])
  | c :: p =>
    match digitOf c with
    | none => (val, any, c :: p)
    | some digit =>
      if digit ≥ base then (val, any, c :: p)
      else if any < 0 ∨ val > (LONG_MAX - digit) / base then digitLoop base val (-1) p
      else digitLoop base (val * base + digit) 1 p

/-- The sign, and what follows it. -/
def scanSign (p : List UInt8) : Int × List UInt8 :=
  match p with
  | [] => (1, [])
  | c :: r => if c = 45 then (-1, r) else if c = 43 then (1, r) else (1, c :: r)

/-- The base in use, and what follows the prefix. -/
def scanPrefix (base : Nat) (p : List UInt8) : Nat × List UInt8 :=
  if (base = 0 ∨ base = 16) ∧ p.getD 0 0 = 48 ∧ (p.getD 1 0 = 120 ∨ p.getD 1 0 = 88)
    then (16, p.drop 2)
  else if base = 0 ∧ p.getD 0 0 = 48 then (8, p.drop 1)
  else if base = 0 then (10, p)
  else (base, p)

/-- What a call returns, `*endptr` as an offset, and whether it sets `errno` to `ERANGE`. -/
structure StrtolResult where
  val : Int
  endptr : Nat
  erange : Bool
  deriving DecidableEq, Repr

/-- `strtol`. -/
def strtol (s : List UInt8) (base : Nat) : StrtolResult :=
  let p := s.dropWhile isspace
  let (sign, p) := scanSign p
  let (base, p) := scanPrefix base p
  let (val, any, p) := digitLoop base 0 0 p
  { val :=
      if any < 0 then if sign > 0 then LONG_MAX else LONG_MIN
      else if any = 0 then 0
      else val * sign
    endptr := if any ≠ 0 then s.length - p.length else 0
    erange := decide (any < 0) }

/-! ## The grammar -/

/-- The character is a digit below the base. -/
def IsDigit (base : Nat) (c : UInt8) : Bool := (digitOf c).any fun d => d < base

/-- The number that a run of digits stands for. -/
def digitsValue (base : Nat) (ds : List UInt8) : Nat :=
  numberOf base (ds.map fun c => (digitOf c).getD 0)

/-- The prefixes that a base allows, and the base of the digits behind them. -/
inductive Form (base : Nat) : List UInt8 → Nat → List UInt8 → Prop
  | plain (ds : List UInt8) : base ≠ 0 → Form base [] base ds
  | hex (x : UInt8) (ds : List UInt8) : base = 0 ∨ base = 16 → x = 120 ∨ x = 88 →
    Form base [48, x] 16 ds
  | octal (ds : List UInt8) : base = 0 → Form base [] 8 (48 :: ds)
  | decimal (c : UInt8) (ds : List UInt8) : base = 0 → c ≠ 48 → Form base [] 10 (c :: ds)

/-- The signs, and their factors. -/
inductive Sign : List UInt8 → Int → Prop
  | none : Sign [] 1
  | plus : Sign [43] 1
  | minus : Sign [45] (-1)

/-- The text is a numeral of the base with the value `v`. -/
def Numeral (base : Nat) (t : List UInt8) (v : Int) : Prop :=
  ∃ ws sgn pre radix ds, ∃ sign : Int, t = ws ++ (sgn ++ (pre ++ ds)) ∧ (∀ c ∈ ws, isspace c) ∧
      Sign sgn sign ∧
    Form base pre radix ds ∧ ds ≠ [] ∧ (∀ c ∈ ds, IsDigit radix c) ∧
      v = sign * digitsValue radix ds

/-- The first `n` bytes are the longest numeral at the start of the string. -/
def LongestNumeral (base : Nat) (s : List UInt8) (n : Nat) (v : Int) : Prop :=
  n ≤ s.length ∧ Numeral base (s.take n) v ∧ ∀ m ≤ s.length, ∀ w, Numeral base (s.take m) w →
    m ≤ n

/-- The value in the range of `long`. -/
def clampLong (v : Int) : Int := max LONG_MIN (min v LONG_MAX)

variable {base radix n m skip : Nat} {s p r t pre ds rest ws sgn : List UInt8} {c : UInt8}
  {v w sign : Int}

/-! ## Characters -/

theorem digitOf_le {d : Nat} (h : digitOf c = some d) : d ≤ 35 := by
  have hc := c.toNat_lt
  unfold digitOf at h
  split_ifs at h with h₁ h₂ h₃
  · obtain ⟨-, hhi⟩ := h₁
    have : c.toNat ≤ 57 := hhi
    cases h
    omega
  · obtain ⟨-, hhi⟩ := h₂
    have : c.toNat ≤ 122 := hhi
    cases h
    omega
  · obtain ⟨-, hhi⟩ := h₃
    have : c.toNat ≤ 90 := hhi
    cases h
    omega

theorem isDigit_iff : IsDigit base c = true ↔ ∃ d, digitOf c = some d ∧ d < base := by
  unfold IsDigit
  cases digitOf c <;> simp

/-- The digit of a character where the digits of a number end is too large for the base. -/
theorem base_le_of_not_isDigit {d : Nat} (hc : ¬ IsDigit base c = true)
    (hd : digitOf c = some d) : base ≤ d :=
  not_lt.mp fun hlt => hc (isDigit_iff.mpr ⟨d, hd, hlt⟩)

/-- A digit is neither a space nor a sign. -/
theorem digit_not_space (h : IsDigit base c = true) : isspace c = false ∧ c ≠ 45 ∧ c ≠ 43 := by
  obtain ⟨d, hd, -⟩ := isDigit_iff.mp h
  have hne : ∀ b : UInt8, digitOf b = none → c ≠ b := by
    rintro b hb rfl
    rw [hd] at hb
    cases hb
  refine ⟨?_, hne 45 (by decide), hne 43 (by decide)⟩
  unfold isspace
  have h32 := hne 32 (by decide)
  have h9 := hne 9 (by decide)
  have h10 := hne 10 (by decide)
  have h13 := hne 13 (by decide)
  have h12 := hne 12 (by decide)
  have h11 := hne 11 (by decide)
  simp only [h32, h9, h10, h13, h12, h11, or_self, decide_false]

/-- The letter of the prefix is no digit of the bases that have it. -/
theorem hexLetter_not_digit (hc : c = 120 ∨ c = 88) (hbase : base ≤ 16) :
    IsDigit base c = false := by
  rw [Bool.eq_false_iff]
  intro h
  obtain ⟨d, hd, hlt⟩ := isDigit_iff.mp h
  rcases hc with rfl | rfl
  · cases hd
    exact absurd hlt (by decide +revert)
  · cases hd
    exact absurd hlt (by decide +revert)

/-! ## Where the parts of a numeral are -/

/-- The white space and the sign in front. -/
theorem scan_split (s : List UInt8) :
    ∃ ws sgn, s = ws ++ (sgn ++ (scanSign (s.dropWhile isspace)).2) ∧ (∀ c ∈ ws, isspace c) ∧
      Sign sgn (scanSign (s.dropWhile isspace)).1 := by
  have hspaces : ∀ c ∈ s.takeWhile isspace, isspace c := fun c hc => List.mem_takeWhile_imp hc
  have hsplit : s = s.takeWhile isspace ++ s.dropWhile isspace :=
    (List.takeWhile_append_dropWhile).symm
  cases hp : s.dropWhile isspace with
  | nil =>
    refine ⟨s.takeWhile isspace, [], ?_, hspaces, .none⟩
    rw [hp] at hsplit
    exact hsplit
  | cons c r =>
    rw [hp] at hsplit
    unfold scanSign
    dsimp only
    split_ifs with hminus hplus
    · subst hminus
      exact ⟨s.takeWhile isspace, [45], hsplit, hspaces, .minus⟩
    · subst hplus
      exact ⟨s.takeWhile isspace, [43], hsplit, hspaces, .plus⟩
    · exact ⟨s.takeWhile isspace, [], hsplit, hspaces, .none⟩

/-- They are found where they are. -/
theorem scan_unique (hws : ∀ c ∈ ws, isspace c) (hsgn : Sign sgn sign)
    (hr : ∃ c r', r = c :: r' ∧ IsDigit base c) :
    scanSign ((ws ++ (sgn ++ r)).dropWhile isspace) = (sign, r) := by
  obtain ⟨c, r', rfl, hc⟩ := hr
  obtain ⟨hspace, hminus, hplus⟩ := digit_not_space hc
  have hdrop : (ws ++ (sgn ++ c :: r')).dropWhile isspace = sgn ++ c :: r' := by
    rw [List.dropWhile_append_of_pos hws]
    cases hsgn with
    | none => exact List.dropWhile_cons_of_neg (by rw [hspace]; simp)
    | plus => rfl
    | minus => rfl
  rw [hdrop]
  cases hsgn with
  | none =>
    unfold scanSign
    dsimp only [List.nil_append]
    rw [if_neg hminus, if_neg hplus]
  | plus => rfl
  | minus => rfl

/-! ## The longest numeral -/

/-- The base of the digits and the length of the prefix, for the text behind the sign. -/
def formAt (base : Nat) (r : List UInt8) : Nat × Nat :=
  if (base = 0 ∨ base = 16) ∧ r.getD 0 0 = 48 ∧ (r.getD 1 0 = 120 ∨ r.getD 1 0 = 88) ∧
    IsDigit 16 (r.getD 2 0) then
    (16, 2)
  else if base = 0 ∧ r.getD 0 0 = 48 then (8, 0)
  else if base = 0 then (10, 0)
  else (base, 0)

/-- The digits there. -/
def digitsAt (base : Nat) (r : List UInt8) : List UInt8 :=
  (r.drop (formAt base r).2).takeWhile (IsDigit (formAt base r).1)

/-- The length and the value of the longest numeral. -/
def numeralAt (base : Nat) (s : List UInt8) : Option (Nat × Int) :=
  let (sign, r) := scanSign (s.dropWhile isspace)
  if digitsAt base r = [] then none
  else
    some (s.length - r.length + (formAt base r).2 + (digitsAt base r).length,
      sign * digitsValue (formAt base r).1 (digitsAt base r))

/-- The form that `formAt` finds is one of the grammar. -/
theorem formAt_form (base : Nat) (r : List UInt8) (hne : digitsAt base r ≠ []) :
    Form base (r.take (formAt base r).2) (formAt base r).1 (digitsAt base r) := by
  unfold digitsAt formAt at *
  split_ifs at hne ⊢ with hhex hoctal hzero
  · obtain ⟨hbase, h0, h1, h2⟩ := hhex
    match r with
    | [] => exact absurd h0 (by decide)
    | [_] => exact absurd (show (0 : UInt8) = 120 ∨ (0 : UInt8) = 88 from h1) (by decide)
    | a :: x :: r =>
      have ha : a = 48 := h0
      subst ha
      exact .hex x _ hbase h1
  · obtain ⟨hbase, h0⟩ := hoctal
    match r with
    | [] => exact absurd h0 (by decide)
    | a :: r =>
      have ha : a = 48 := h0
      subst ha
      exact .octal _ hbase
  · match r with
    | [] => exact absurd rfl hne
    | a :: r =>
      have ha : a ≠ 48 := fun ha => hoctal ⟨hzero, ha⟩
      rw [List.drop_zero] at hne ⊢
      cases hdigit : IsDigit 10 a with
      | false =>
        rw [List.takeWhile_cons_of_neg (by rw [hdigit]; simp)] at hne
        exact absurd rfl hne
      | true =>
        rw [List.takeWhile_cons_of_pos hdigit]
        exact .decimal a _ hzero ha
  · exact .plain _ hzero

/-- The numeral with the given prefix and digits is not longer than the one that is found,
and if it is as long, it is the same. -/
structure NotLonger (base : Nat) (r pre : List UInt8) (radix : Nat) (ds : List UInt8) : Prop where
  found : digitsAt base r ≠ []
  le : pre.length + ds.length ≤ (formAt base r).2 + (digitsAt base r).length
  same : pre.length + ds.length = (formAt base r).2 + (digitsAt base r).length →
    radix = (formAt base r).1 ∧ ds = digitsAt base r

/-- With its form the scan finds the digits of a numeral and maybe more. -/
theorem notLonger_of_form (hne : ds ≠ []) (hds : ∀ c ∈ ds, IsDigit radix c)
    (hr : r = pre ++ (ds ++ rest))
    (hat : formAt base r = (radix, pre.length)) : NotLonger base r pre radix ds := by
  have hdigits : digitsAt base r = ds ++ rest.takeWhile (IsDigit radix) := by
    unfold digitsAt
    rw [hat]
    dsimp only
    rw [hr, List.drop_left, List.takeWhile_append_of_pos hds]
  refine ⟨?_, ?_, ?_⟩
  · rw [hdigits]
    simp [hne]
  · rw [hat, hdigits, List.length_append]
    omega
  · rw [hat, hdigits, List.length_append]
    intro hlen
    have hnone : rest.takeWhile (IsDigit radix) = [] := List.length_eq_zero_iff.mp (by omega)
    rw [hnone, List.append_nil]
    exact ⟨rfl, rfl⟩

/-- The text behind the sign begins with a hexadecimal prefix and a digit. -/
def HexAt (base : Nat) (r : List UInt8) : Prop :=
  (base = 0 ∨ base = 16) ∧ r.getD 0 0 = 48 ∧ (r.getD 1 0 = 120 ∨ r.getD 1 0 = 88) ∧
    IsDigit 16 (r.getD 2 0)

theorem formAt_of_not_hexAt (h : ¬ HexAt base r) :
    formAt base r = if base = 0 ∧ r.getD 0 0 = 48 then (8, 0) else if base = 0 then (10, 0)
      else (base, 0) :=
  if_neg h

/-- There the numeral without the prefix is the `0` alone. -/
theorem notLonger_of_hexAt (hhex : HexAt base r) (hne : ds ≠ []) (hds : ∀ c ∈ ds, IsDigit radix c)
    (hradix : radix ≤ 16) (hr : r = ds ++ rest) : NotLonger base r [] radix ds := by
  have hat : formAt base r = (16, 2) := if_pos hhex
  obtain ⟨-, h0, h1, h2⟩ := hhex
  have hlen : ds.length = 1 := by
    match ds, hne with
    | [_], _ => rfl
    | a :: x :: ds, _ =>
      rw [hr] at h1
      have hx := hds x (by simp)
      rw [hexLetter_not_digit (show x = 120 ∨ x = 88 from h1) hradix] at hx
      cases hx
  have hfound : digitsAt base r ≠ [] := by
    unfold digitsAt
    rw [hat]
    match r with
    | [] => exact absurd h0 (by decide)
    | [_] => exact absurd (show (0 : UInt8) = 120 ∨ (0 : UInt8) = 88 from h1) (by decide)
    | [_, _] => exact absurd (show IsDigit 16 0 = true from h2) (by decide)
    | a :: x :: y :: r =>
      show (y :: r).takeWhile (IsDigit 16) ≠ []
      rw [List.takeWhile_cons_of_pos (show IsDigit 16 y from h2)]
      simp
  have hpos := List.length_pos_of_ne_nil hfound
  refine ⟨hfound, ?_, ?_⟩
  · rw [hat, hlen, List.length_nil]
    omega
  · rw [hat, hlen, List.length_nil]
    omega

/-- No numeral is longer than the one that is found. -/
theorem notLonger (hform : Form base pre radix ds) (hne : ds ≠ [])
    (hds : ∀ c ∈ ds, IsDigit radix c)
    (hr : r = pre ++ (ds ++ rest)) : NotLonger base r pre radix ds := by
  by_cases hhex : HexAt base r
  · cases hform with
    | plain _ hbase =>
      have hbase' : base = 16 := hhex.1.resolve_left hbase
      exact notLonger_of_hexAt hhex hne hds hbase'.le hr
    | hex x _ hbase hx => exact notLonger_of_form hne hds hr (if_pos hhex)
    | octal ds' hbase => exact notLonger_of_hexAt hhex hne hds (by decide) hr
    | decimal c ds' hbase hc =>
      rw [hr] at hhex
      exact absurd hhex.2.1 hc
  · refine notLonger_of_form hne hds hr ?_
    rw [formAt_of_not_hexAt hhex]
    cases hform with
    | plain _ hbase => rw [if_neg fun h => hbase h.1, if_neg hbase, List.length_nil]
    | hex x _ hbase hx =>
      -- The digits after the prefix would make it a hexadecimal one.
      refine absurd ?_ hhex
      match ds, hne with
      | d :: ds, _ =>
        rw [hr]
        exact ⟨hbase, rfl, hx, hds d List.mem_cons_self⟩
    | octal ds' hbase =>
      rw [hr]
      exact if_pos ⟨hbase, rfl⟩
    | decimal c ds' hbase hc =>
      rw [hr, if_neg fun h => hc h.2, if_pos hbase]
      rfl

/-- The numeral that is found is one. -/
theorem numeral_of_numeralAt (h : numeralAt base s = some (n, v)) :
    n ≤ s.length ∧ Numeral base (s.take n) v := by
  obtain ⟨ws, sgn, hsplit, hws, hsgn⟩ := scan_split s
  unfold numeralAt at h
  dsimp only at h
  generalize (scanSign (s.dropWhile isspace)).1 = sign at h hsgn
  generalize (scanSign (s.dropWhile isspace)).2 = r at h hsplit
  split at h
  · cases h
  next hne =>
    simp only [Option.some.injEq, Prod.mk.injEq] at h
    obtain ⟨rfl, rfl⟩ := h
    have hskip : (r.take (formAt base r).2).length = (formAt base r).2 := by
      rw [List.length_take]
      apply min_eq_left
      by_contra hlt
      unfold digitsAt at hne
      rw [List.drop_of_length_le (by omega)] at hne
      exact hne rfl
    -- The rest of the string behind the digits.
    obtain ⟨rest, hrest⟩ : ∃ rest, r = r.take (formAt base r).2 ++ (digitsAt base r ++ rest) := by
      refine ⟨(r.drop (formAt base r).2).dropWhile (IsDigit (formAt base r).1), ?_⟩
      unfold digitsAt
      rw [List.takeWhile_append_dropWhile, List.take_append_drop]
    have hlen : s.length - r.length + (formAt base r).2 + (digitsAt base r).length =
        (ws ++ (sgn ++ (r.take (formAt base r).2 ++ digitsAt base r))).length := by
      have := congrArg List.length hsplit
      simp only [List.length_append, hskip] at this ⊢
      omega
    have htext : s = (ws ++ (sgn ++ (r.take (formAt base r).2 ++ digitsAt base r))) ++ rest := by
      rw [hsplit]
      nth_rewrite 1 [hrest]
      simp only [List.append_assoc]
    rw [hlen]
    constructor
    · have := congrArg List.length htext
      rw [List.length_append] at this
      omega
    · have htake : s.take (ws ++ (sgn ++ (r.take (formAt base r).2 ++ digitsAt base r))).length =
          ws ++ (sgn ++ (r.take (formAt base r).2 ++ digitsAt base r)) := by
        nth_rewrite 1 [htext]
        exact List.take_left
      rw [htake]
      exact ⟨ws, sgn, _, _, _, sign, rfl, hws, hsgn, formAt_form base r hne, hne,
        fun c hc => List.mem_takeWhile_imp hc, rfl⟩

/-- A numeral is at most as long, and if it is as long, it has the same value. -/
theorem numeralAt_of_numeral (hm : m ≤ s.length) (h : Numeral base (s.take m) w) :
    ∃ n v, numeralAt base s = some (n, v) ∧ m ≤ n ∧ (m = n → w = v) := by
  obtain ⟨ws, sgn, pre, radix, ds, sign, htext, hws, hsgn, hform, hne, hds, rfl⟩ := h
  have hsplit : s = ws ++ (sgn ++ (pre ++ (ds ++ s.drop m))) := by
    nth_rewrite 1 [← List.take_append_drop m s]
    rw [htext]
    simp only [List.append_assoc]
  have hhead : ∃ c r', pre ++ (ds ++ s.drop m) = c :: r' ∧ IsDigit 36 c := by
    cases hform with
    | hex x _ hbase hx => exact ⟨48, _, rfl, by decide⟩
    | octal ds' hbase => exact ⟨48, _, rfl, by decide⟩
    | plain _ hbase =>
      match ds, hne with
      | d :: ds, _ =>
        obtain ⟨k, hk, -⟩ := isDigit_iff.mp (hds d List.mem_cons_self)
        have := digitOf_le hk
        exact ⟨d, _, rfl, isDigit_iff.mpr ⟨k, hk, by omega⟩⟩
    | decimal c ds' hbase hc =>
      obtain ⟨k, hk, -⟩ := isDigit_iff.mp (hds c List.mem_cons_self)
      have := digitOf_le hk
      exact ⟨c, _, rfl, isDigit_iff.mpr ⟨k, hk, by omega⟩⟩
  have hscan : scanSign (s.dropWhile isspace) = (sign, pre ++ (ds ++ s.drop m)) := by
    nth_rewrite 1 [hsplit]
    exact scan_unique hws hsgn hhead
  have hlongest : NotLonger base (pre ++ (ds ++ s.drop m)) pre radix ds :=
    notLonger hform hne hds rfl
  obtain ⟨hfound, hle, hsame⟩ := hlongest
  have hat : numeralAt base s = some (s.length - (pre ++ (ds ++ s.drop m)).length +
      (formAt base (pre ++ (ds ++ s.drop m))).2 +
        (digitsAt base (pre ++ (ds ++ s.drop m))).length,
      sign * digitsValue (formAt base (pre ++ (ds ++ s.drop m))).1
        (digitsAt base (pre ++ (ds ++ s.drop m)))) := by
    unfold numeralAt
    rw [hscan]
    exact if_neg hfound
  have hlen : m = s.length - (pre ++ (ds ++ s.drop m)).length + (pre.length + ds.length) := by
    have h₁ := congrArg List.length hsplit
    have h₂ := congrArg List.length htext
    simp only [List.length_append, List.length_take, List.length_drop] at h₁ h₂ ⊢
    omega
  refine ⟨_, _, hat, by omega, fun heq => ?_⟩
  obtain ⟨hradix, hdigits⟩ := hsame (by omega)
  rw [← hradix, ← hdigits]

theorem longestNumeral_iff : LongestNumeral base s n v ↔ numeralAt base s = some (n, v) := by
  constructor
  · rintro ⟨hn, hnumeral, hmax⟩
    obtain ⟨n', v', hat, hle, hsame⟩ := numeralAt_of_numeral hn hnumeral
    obtain ⟨hn', hnumeral'⟩ := numeral_of_numeralAt hat
    have heq : n = n' := le_antisymm hle (hmax n' hn' v' hnumeral')
    rw [hat, hsame heq, heq]
  · intro hat
    obtain ⟨hn, hnumeral⟩ := numeral_of_numeralAt hat
    refine ⟨hn, hnumeral, fun m hm w hw => ?_⟩
    obtain ⟨n', v', hat', hle, -⟩ := numeralAt_of_numeral hm hw
    rw [hat] at hat'
    cases hat'
    exact hle

/-! ## The loop over the digits -/

/-- The values of the digits. -/
def digitList (ds : List UInt8) : List Nat := ds.map fun c => (digitOf c).getD 0

/-- Once over the bound, the loop reads the other digits for nothing. -/
theorem digitLoop_over (val : Int) (p : List UInt8) :
    digitLoop base val (-1) p = (val, -1, p.dropWhile (IsDigit base)) := by
  induction p with
  | nil => rfl
  | cons c p ih =>
    rw [digitLoop]
    cases hd : digitOf c with
    | none =>
      have hno : ¬ IsDigit base c = true := by
        rw [isDigit_iff, hd]
        simp
      rw [List.dropWhile_cons_of_neg hno]
    | some d =>
      dsimp only
      by_cases hlt : d < base
      · rw [if_neg (not_le.mpr hlt), if_pos (.inl (by decide)), ih,
          List.dropWhile_cons_of_pos (isDigit_iff.mpr ⟨d, hd, hlt⟩)]
      · have hno : ¬ IsDigit base c = true := by
          rw [isDigit_iff, hd]
          rintro ⟨e, he, hlt'⟩
          cases he
          exact hlt hlt'
        rw [if_pos (not_lt.mp hlt), List.dropWhile_cons_of_neg hno]

/-- The test of the loop in natural numbers. -/
theorem longTest_iff {d v : Nat} (hd : d ≤ 35) :
    (v : Int) > (LONG_MAX - d) / base ↔ v > (2 ^ 63 - 1 - d) / base := by
  have hcast : LONG_MAX - d = ((2 ^ 63 - 1 - d : Nat) : Int) := by
    unfold LONG_MAX
    omega
  rw [hcast, ← Int.natCast_ediv, gt_iff_lt, gt_iff_lt, Int.ofNat_lt]

/-- The loop is the scanner that stays below `LONG_MAX`. -/
theorem digitLoop_spec (base v : Nat) (any : Int) (hany : 0 ≤ any) (p : List UInt8) :
    match accumulate (2 ^ 63 - 1) base (some v) (digitList (p.takeWhile (IsDigit base))) with
    | some v' => digitLoop base v any p =
        ((v' : Int), if p.takeWhile (IsDigit base) = [] then any else 1,
          p.dropWhile (IsDigit base))
    | none => (digitLoop base v any p).2 = (-1, p.dropWhile (IsDigit base)) := by
  induction p generalizing v any with
  | nil => rfl
  | cons c p ih =>
    by_cases hc : IsDigit base c = true
    · obtain ⟨d, hd, hlt⟩ := isDigit_iff.mp hc
      have hstep : ∀ ds, accumulate (2 ^ 63 - 1) base (some v) (digitList (c :: ds)) =
          accumulate (2 ^ 63 - 1) base
            (if v > (2 ^ 63 - 1 - d) / base then none else some (v * base + d))
            (digitList ds) := by
        intro ds
        unfold digitList accumulate
        rw [List.map_cons, List.foldl_cons, hd]
        rfl
      rw [List.takeWhile_cons_of_pos hc, List.dropWhile_cons_of_pos hc, hstep, digitLoop, hd]
      dsimp only
      rw [if_neg (not_le.mpr hlt)]
      by_cases hover : v > (2 ^ 63 - 1 - d) / base
      · rw [if_pos hover, accumulate_none,
          if_pos (.inr ((longTest_iff (digitOf_le hd)).mpr hover)), digitLoop_over]
      · have htest : ¬ (any < 0 ∨ (v : Int) > (LONG_MAX - d) / base) := by
          rintro (hneg | hgt)
          · omega
          · exact hover ((longTest_iff (digitOf_le hd)).mp hgt)
        rw [if_neg hover, if_neg htest]
        have hrest := ih (v * base + d) 1 (by decide)
        rw [if_neg (List.cons_ne_nil _ _)]
        simp only [ite_self, Nat.cast_add, Nat.cast_mul] at hrest ⊢
        exact hrest
    · have hstop : digitLoop base v any (c :: p) = ((v : Int), any, c :: p) := by
        rw [digitLoop]
        cases hd : digitOf c with
        | none => rfl
        | some d => exact if_pos (base_le_of_not_isDigit hc hd)
      rw [List.takeWhile_cons_of_neg hc, List.dropWhile_cons_of_neg hc, hstop]
      rfl

/-- The loop from the start: the value, whether there was a digit, and the rest. -/
theorem digitLoop_start (hbase : 0 < base) (p : List UInt8) :
    (digitsValue base (p.takeWhile (IsDigit base)) < 2 ^ 63 ∧
        digitLoop base 0 0 p = ((digitsValue base (p.takeWhile (IsDigit base)) : Int),
          if p.takeWhile (IsDigit base) = [] then 0 else 1, p.dropWhile (IsDigit base))) ∨
      (2 ^ 63 ≤ digitsValue base (p.takeWhile (IsDigit base)) ∧
        (digitLoop base 0 0 p).2 = (-1, p.dropWhile (IsDigit base))) := by
  have hdigits : ∀ e ∈ digitList (p.takeWhile (IsDigit base)), e ≤ 2 ^ 63 - 1 := by
    intro e he
    obtain ⟨c, hc, rfl⟩ := List.mem_map.mp he
    obtain ⟨d, hd, -⟩ := isDigit_iff.mp (List.mem_takeWhile_imp hc)
    have := digitOf_le hd
    rw [hd]
    show d ≤ _
    omega
  have hloop := digitLoop_spec base 0 0 (le_refl 0) p
  have hnil : numberOf base [] ≤ 2 ^ 63 - 1 := Nat.zero_le _
  rw [← (numberOf_nil : numberOf base [] = 0), accumulate_eq hbase hdigits hnil,
    List.nil_append] at hloop
  show (numberOf base (digitList _) < _ ∧ _ = ((numberOf base (digitList _) : Int), _)) ∨
    (_ ≤ numberOf base (digitList _) ∧ _)
  split at hloop
  next v' heq =>
    split at heq
    next hle =>
      cases heq
      exact .inl ⟨by omega, hloop⟩
    next => cases heq
  next heq =>
    split at heq
    next => cases heq
    next hlt => exact .inr ⟨by omega, hloop⟩

/-! ## The prefix -/

/-- The text behind the sign begins with a prefix that no digit follows. -/
def BareAt (base : Nat) (r : List UInt8) : Prop :=
  ((base = 0 ∨ base = 16) ∧ r.getD 0 0 = 48 ∧ (r.getD 1 0 = 120 ∨ r.getD 1 0 = 88) ∧
    ¬ IsDigit 16 (r.getD 2 0)) ∨
    (base = 0 ∧ r.getD 0 0 = 48 ∧ ¬ (r.getD 1 0 = 120 ∨ r.getD 1 0 = 88) ∧
      ¬ IsDigit 8 (r.getD 1 0))

theorem scanPrefix_base (hbase : base = 0 ∨ (2 ≤ base ∧ base ≤ 36)) (r : List UInt8) :
    2 ≤ (scanPrefix base r).1 ∧ (scanPrefix base r).1 ≤ 36 := by
  unfold scanPrefix
  split_ifs with hhex hoctal hzero
  · exact ⟨Nat.le_add_left 2 14, Nat.le_add_left 16 20⟩
  · exact ⟨Nat.le_add_left 2 6, Nat.le_add_left 8 28⟩
  · exact ⟨Nat.le_add_left 2 8, Nat.le_add_left 10 26⟩
  · exact hbase.resolve_left hzero

/-- The digits that the loop reads. -/
def digitsRead (base : Nat) (r : List UInt8) : List UInt8 :=
  (scanPrefix base r).2.takeWhile (IsDigit (scanPrefix base r).1)

theorem dropWhile_eq_drop (p : List UInt8) (f : UInt8 → Bool) :
    p.dropWhile f = p.drop (p.takeWhile f).length := by
  have hdrop : (p.takeWhile f ++ p.dropWhile f).drop (p.takeWhile f).length = p.dropWhile f :=
    List.drop_left
  rw [List.takeWhile_append_dropWhile] at hdrop
  exact hdrop.symm

/-- A character that is not there is no digit. -/
theorem takeWhile_eq_nil (h : ¬ IsDigit base (p.getD 0 0)) : p.takeWhile (IsDigit base) = [] := by
  cases p with
  | nil => rfl
  | cons c p => exact List.takeWhile_cons_of_neg h

/-- Behind a prefix without digits the loop reads nothing, though the `0` is a numeral. -/
theorem scanPrefix_bare (h : BareAt base r) :
    digitsRead base r = [] ∧ digitsAt base r = [48] ∧ (formAt base r).2 = 0 := by
  have hzero : r.getD 0 0 = 48 := by
    rcases h with ⟨-, h0, -⟩ | ⟨-, h0, -⟩ <;> exact h0
  obtain ⟨p, rfl⟩ : ∃ p, r = 48 :: p := by
    match r with
    | [] => exact absurd hzero (by decide)
    | a :: p =>
      have ha : a = 48 := hzero
      exact ⟨p, by rw [ha]⟩
  -- The `0` stands alone for every base in which it is read.
  have halone :
      ∀ b, 0 < b → ¬ IsDigit b (p.getD 0 0) → (48 :: p).takeWhile (IsDigit b) = [48] := by
    intro b hb hp
    have h48 : IsDigit b 48 = true := isDigit_iff.mpr ⟨0, rfl, hb⟩
    rw [List.takeWhile_cons_of_pos h48, takeWhile_eq_nil hp]
  rcases h with ⟨hbase, -, hletter, hnone⟩ | ⟨hbase, -, hletter, hnone⟩
  · have hscan : scanPrefix base (48 :: p) = (16, p.drop 1) := if_pos ⟨hbase, rfl, hletter⟩
    have hnohex : ¬ HexAt base (48 :: p) := fun hhex => hnone hhex.2.2.2
    have hread : digitsRead base (48 :: p) = [] := by
      unfold digitsRead
      rw [hscan]
      apply takeWhile_eq_nil
      rw [List.getD_eq_getElem?_getD, List.getElem?_drop, ← List.getD_eq_getElem?_getD]
      exact hnone
    have hat : formAt base (48 :: p) = (if base = 0 then 8 else base, 0) := by
      rw [formAt_of_not_hexAt hnohex]
      split_ifs with hoctal hb hb
      · rfl
      · exact absurd hoctal.1 hb
      · exact absurd ⟨hb, rfl⟩ hoctal
      · rfl
    have hb16 : 0 < (if base = 0 then 8 else base) ∧ (if base = 0 then 8 else base) ≤ 16 := by
      split_ifs <;> omega
    have hx : ¬ IsDigit (if base = 0 then 8 else base) (p.getD 0 0) := by
      rw [hexLetter_not_digit (c := p.getD 0 0) hletter hb16.2]
      simp
    refine ⟨hread, ?_, by rw [hat]⟩
    unfold digitsAt
    rw [hat]
    exact halone _ hb16.1 hx
  · subst hbase
    have hscan : scanPrefix 0 (48 :: p) = (8, p) := by
      rw [scanPrefix, if_neg fun hhex => hletter hhex.2.2, if_pos ⟨rfl, rfl⟩, List.drop_one,
        List.tail_cons]
    have hat : formAt 0 (48 :: p) = (8, 0) := by
      rw [formAt, if_neg fun hhex => hletter hhex.2.2.1, if_pos ⟨rfl, rfl⟩]
    refine ⟨?_, ?_, by rw [hat]⟩
    · unfold digitsRead
      rw [hscan]
      exact takeWhile_eq_nil hnone
    · unfold digitsAt
      rw [hat]
      exact halone 8 (by decide) hnone

/-- What the loop read is the numeral: the same value, the same end. -/
structure ReadsNumeral (base : Nat) (r : List UInt8) : Prop where
  found : digitsRead base r = [] ↔ digitsAt base r = []
  radix : (scanPrefix base r).1 = (formAt base r).1
  digits : digitsAt base r = digitsRead base r ∨ digitsAt base r = 48 :: digitsRead base r
  ends : (scanPrefix base r).2.dropWhile (IsDigit (scanPrefix base r).1) =
    r.drop ((formAt base r).2 + (digitsAt base r).length)

/-- It reads from where `formAt` finds the digits. -/
theorem readsNumeral_of_eq
    (h : scanPrefix base r = ((formAt base r).1, r.drop (formAt base r).2)) :
    ReadsNumeral base r := by
  have hread : digitsRead base r = digitsAt base r := by
    unfold digitsRead digitsAt
    rw [h]
  refine ⟨by rw [hread], by rw [h], .inl hread.symm, ?_⟩
  rw [h, ← List.drop_drop]
  exact dropWhile_eq_drop _ _

/-- A leading zero adds nothing to the value. -/
theorem digitsValue_zero_cons (base : Nat) (ds : List UInt8) :
    digitsValue base (48 :: ds) = digitsValue base ds := by
  unfold digitsValue
  rw [List.map_cons]
  exact numberOf_zero_cons _ _

theorem ReadsNumeral.value (h : ReadsNumeral base r) :
    digitsValue (scanPrefix base r).1 (digitsRead base r) =
      digitsValue (formAt base r).1 (digitsAt base r) := by
  rw [h.radix]
  rcases h.digits with heq | heq
  · rw [heq]
  · rw [heq, digitsValue_zero_cons]

theorem scanPrefix_numeral (h : ¬ BareAt base r) : ReadsNumeral base r := by
  by_cases hhex : HexAt base r
  · have hat : formAt base r = (16, 2) := if_pos hhex
    apply readsNumeral_of_eq
    rw [hat]
    exact if_pos ⟨hhex.1, hhex.2.1, hhex.2.2.1⟩
  · have hnohex :
        ¬ ((base = 0 ∨ base = 16) ∧ r.getD 0 0 = 48 ∧ (r.getD 1 0 = 120 ∨ r.getD 1 0 = 88)) := by
      rintro ⟨hb, h0, hx⟩
      by_cases hd : IsDigit 16 (r.getD 2 0)
      · exact hhex ⟨hb, h0, hx, hd⟩
      · exact h (.inl ⟨hb, h0, hx, hd⟩)
    have hat := formAt_of_not_hexAt hhex
    have hscan : scanPrefix base r =
        if base = 0 ∧ r.getD 0 0 = 48 then (8, r.drop 1) else if base = 0 then (10, r)
          else (base, r) :=
      if_neg hnohex
    by_cases hoctal : base = 0 ∧ r.getD 0 0 = 48
    · -- The octal prefix is itself the first digit of the numeral.
      obtain ⟨hb, h0⟩ := hoctal
      rw [if_pos ⟨hb, h0⟩] at hat hscan
      obtain ⟨p, rfl⟩ : ∃ p, r = 48 :: p := by
        match r with
        | [] => exact absurd h0 (by decide)
        | a :: p =>
          have ha : a = 48 := h0
          exact ⟨p, by rw [ha]⟩
      have hdigit : IsDigit 8 (p.getD 0 0) = true := by
        by_contra hd
        exact h (.inr ⟨hb, rfl, fun hx => hnohex ⟨.inl hb, rfl, hx⟩, hd⟩)
      have hread : digitsRead base (48 :: p) = p.takeWhile (IsDigit 8) := by
        unfold digitsRead
        rw [hscan]
        rfl
      have hdigits : digitsAt base (48 :: p) = 48 :: p.takeWhile (IsDigit 8) := by
        unfold digitsAt
        rw [hat]
        exact List.takeWhile_cons_of_pos (by decide)
      refine ⟨?_, by rw [hscan, hat], .inr (by rw [hdigits, hread]), ?_⟩
      · rw [hread, hdigits]
        match p with
        | [] => exact absurd hdigit (by decide)
        | c :: p =>
          rw [List.takeWhile_cons_of_pos (show IsDigit 8 c = true from hdigit)]
          simp
      · rw [hdigits, hscan, hat]
        show p.dropWhile (IsDigit 8) = _
        rw [zero_add, List.length_cons, List.drop_succ_cons]
        exact dropWhile_eq_drop p (IsDigit 8)
    · rw [if_neg hoctal] at hat hscan
      apply readsNumeral_of_eq
      rw [hat, hscan]
      split_ifs <;> rfl

/-! ## What a call returns -/

/-- The base in use and the digits that the loop reads, for a whole string. -/
structure Scanned (base : Nat) (s r : List UInt8) (sign : Int) : Prop where
  val : (strtol s base).val =
    clampLong (sign * digitsValue (scanPrefix base r).1 (digitsRead base r))
  endptr : (strtol s base).endptr =
    if digitsRead base r = [] then 0
    else s.length - ((scanPrefix base r).2.dropWhile (IsDigit (scanPrefix base r).1)).length
  erange : (strtol s base).erange =
    decide (2 ^ 63 ≤ digitsValue (scanPrefix base r).1 (digitsRead base r))

theorem strtol_scanned (hbase : base = 0 ∨ (2 ≤ base ∧ base ≤ 36)) (hsgn : Sign sgn sign)
    (hscan : scanSign (s.dropWhile isspace) = (sign, r)) : Scanned base s r sign := by
  have hsign : sign = 1 ∨ sign = -1 := by
    cases hsgn with
    | none => exact .inl rfl
    | plus => exact .inl rfl
    | minus => exact .inr rfl
  have hloop :=
    digitLoop_start (Nat.zero_lt_two.trans_le (scanPrefix_base hbase r).1) (scanPrefix base r).2
  have hresult : strtol s base =
      { val :=
          if (digitLoop (scanPrefix base r).1 0 0 (scanPrefix base r).2).2.1 < 0 then
            if sign > 0 then LONG_MAX else LONG_MIN
          else if (digitLoop (scanPrefix base r).1 0 0 (scanPrefix base r).2).2.1 = 0 then 0
          else (digitLoop (scanPrefix base r).1 0 0 (scanPrefix base r).2).1 * sign
        endptr :=
          if (digitLoop (scanPrefix base r).1 0 0 (scanPrefix base r).2).2.1 ≠ 0 then
            s.length - (digitLoop (scanPrefix base r).1 0 0 (scanPrefix base r).2).2.2.length
          else 0
        erange := decide
          ((digitLoop (scanPrefix base r).1 0 0 (scanPrefix base r).2).2.1 < 0) } := by
    unfold strtol
    dsimp only
    rw [hscan]
  rw [show (scanPrefix base r).2.takeWhile (IsDigit (scanPrefix base r).1) =
    digitsRead base r from rfl] at hloop
  rcases hloop with ⟨hlt, heq⟩ | ⟨hge, heq⟩
  · rw [heq] at hresult
    by_cases hempty : digitsRead base r = []
    · simp only [hempty] at hresult
      refine ⟨?_, ?_, ?_⟩
      · rw [hresult, hempty]
        show (0 : Int) = clampLong (sign * (0 : Nat))
        rw [Nat.cast_zero, mul_zero]
        decide
      · rw [hresult, if_pos hempty]
        rfl
      · rw [hresult, hempty]
        rfl
    · simp only [if_neg hempty] at hresult
      refine ⟨?_, ?_, ?_⟩
      · rw [hresult]
        show (digitsValue _ (digitsRead base r) : Int) * sign = _
        unfold clampLong LONG_MIN LONG_MAX
        rcases hsign with rfl | rfl <;> omega
      · rw [hresult, if_neg hempty]
        rfl
      · rw [hresult]
        exact (decide_eq_false (not_le.mpr hlt)).symm
  · have hne : digitsRead base r ≠ [] := by
      intro hempty
      rw [hempty] at hge
      exact absurd hge (Nat.not_le.mpr (Nat.two_pow_pos 63))
    have hany : (digitLoop (scanPrefix base r).1 0 0 (scanPrefix base r).2).2.1 = -1 :=
      congrArg Prod.fst heq
    have hrest := congrArg Prod.snd heq
    dsimp only at hrest
    rw [hany, hrest] at hresult
    refine ⟨?_, ?_, ?_⟩
    · rw [hresult]
      unfold clampLong
      rcases hsign with rfl | rfl
      · show LONG_MAX = _
        unfold LONG_MIN LONG_MAX
        omega
      · show LONG_MIN = _
        unfold LONG_MIN LONG_MAX
        omega
    · rw [hresult, if_neg hne]
      rfl
    · rw [hresult]
      exact (decide_eq_true hge).symm

theorem numeralAt_eq (hscan : scanSign (s.dropWhile isspace) = (sign, r)) :
    numeralAt base s =
      if digitsAt base r = [] then none
      else some (s.length - r.length + (formAt base r).2 + (digitsAt base r).length,
        sign * digitsValue (formAt base r).1 (digitsAt base r)) := by
  unfold numeralAt
  rw [hscan]

/-- The value is that of the longest numeral, clamped to the range of `long`, and 0 where
there is none. -/
theorem strtol_value (s : List UInt8) (base : Nat) (hbase : base = 0 ∨ (2 ≤ base ∧ base ≤ 36)) :
    (∀ n v, LongestNumeral base s n v → (strtol s base).val = clampLong v) ∧
      ((∀ n v, ¬ LongestNumeral base s n v) → (strtol s base).val = 0) := by
  obtain ⟨ws, sgn, -, -, hsgn⟩ := scan_split s
  cases hscan : scanSign (s.dropWhile isspace) with
  | mk sign r =>
    rw [hscan] at hsgn
    have hval := (strtol_scanned hbase hsgn hscan).val
    -- The digits read have the value of those of the numeral.
    have hsame : digitsValue (scanPrefix base r).1 (digitsRead base r) =
        digitsValue (formAt base r).1 (digitsAt base r) := by
      by_cases hbare : BareAt base r
      · obtain ⟨hread, hat, -⟩ := scanPrefix_bare hbare
        rw [hread, hat]
        rfl
      · exact (scanPrefix_numeral hbare).value
    constructor
    · intro n v hlongest
      rw [longestNumeral_iff, numeralAt_eq hscan] at hlongest
      split at hlongest
      · cases hlongest
      · cases hlongest
        rw [hval, hsame]
    · intro hnone
      have hempty : digitsAt base r = [] := by
        by_contra hne
        have hat : numeralAt base s = _ := numeralAt_eq hscan
        rw [if_neg hne] at hat
        exact hnone _ _ (longestNumeral_iff.mpr hat)
      rw [hval, hsame, hempty]
      show clampLong (sign * (0 : Nat)) = 0
      rw [Nat.cast_zero, mul_zero]
      decide

/-- Twenty digits are clamped. -/
theorem strtol_value_clamped :
    (0 = 0 ∨ (2 ≤ 0 ∧ 0 ≤ 36)) ∧
      (strtol [32, 57, 57, 57, 57, 57, 57, 57, 57, 57, 57, 57, 57, 57, 57, 57, 57, 57, 57, 57, 57]
        0).val =
        clampLong 99999999999999999999 := by
  refine ⟨.inl rfl, (strtol_value _ 0 (.inl rfl)).1 21 _ (longestNumeral_iff.mpr ?_)⟩
  decide

/-- `*endptr` is behind the longest numeral, or at the start if there is none, and `errno`
is set where the value does not fit. -/
def Reports (s : List UInt8) (base : Nat) : Prop :=
  (∀ n v, LongestNumeral base s n v →
      (strtol s base).endptr = n ∧
        ((strtol s base).erange = true ↔ ¬ (LONG_MIN ≤ v ∧ v ≤ LONG_MAX))) ∧
    ((∀ n v, ¬ LongestNumeral base s n v) → (strtol s base).endptr = 0 ∧
      (strtol s base).erange = false)

/-- Behind the white space and the sign there is a prefix that no digit follows. -/
def BarePrefix (base : Nat) (s : List UInt8) : Prop :=
  BareAt base (scanSign (s.dropWhile isspace)).2

/-- The end and the range are reported for the strings without a bare prefix, unless the
numeral is that of `LONG_MIN`. -/
theorem strtol_reports_iff (s : List UInt8) (base : Nat)
    (hbase : base = 0 ∨ (2 ≤ base ∧ base ≤ 36)) :
    Reports s base ↔ ¬ BarePrefix base s ∧ ∀ n, ¬ LongestNumeral base s n LONG_MIN := by
  obtain ⟨ws, sgn, hsplit, -, hsgn⟩ := scan_split s
  unfold BarePrefix
  cases hscan : scanSign (s.dropWhile isspace) with
  | mk sign r =>
    rw [hscan] at hsgn hsplit
    obtain ⟨-, hend, herange⟩ := strtol_scanned hbase hsgn hscan
    have hat : numeralAt base s = _ := numeralAt_eq hscan
    have hlen : r.length ≤ s.length := by
      have := congrArg List.length hsplit
      simp only [List.length_append] at this
      omega
    dsimp only
    by_cases hbare : BareAt base r
    · -- The numeral is the `0`, and nothing is reported as consumed.
      obtain ⟨hread, hdigits, hskip⟩ := scanPrefix_bare hbare
      rw [hdigits, if_neg (List.cons_ne_nil _ _), hskip] at hat
      rw [hread, if_pos rfl] at hend
      refine iff_of_false (fun hreports => ?_) (fun h => h.1 hbare)
      have := (hreports.1 _ _ (longestNumeral_iff.mpr hat)).1
      rw [hend, List.length_singleton] at this
      omega
    · have hnumeral := scanPrefix_numeral hbare
      have hvalue := hnumeral.value
      obtain ⟨hfound, -, -, hends⟩ := hnumeral
      rw [hvalue] at herange
      by_cases hempty : digitsAt base r = []
      · rw [if_pos hempty] at hat
        have hnone : ∀ n v, ¬ LongestNumeral base s n v := by
          intro n v hlongest
          rw [longestNumeral_iff, hat] at hlongest
          cases hlongest
        rw [if_pos (hfound.mpr hempty)] at hend
        rw [hempty] at herange
        refine iff_of_true ⟨fun n v hlongest => absurd hlongest (hnone n v), fun _ => ⟨hend, ?_⟩⟩
          ⟨hbare, fun n => hnone n _⟩
        rw [herange]
        exact decide_eq_false (Nat.not_le.mpr (Nat.two_pow_pos 63))
      · rw [if_neg hempty] at hat
        rw [if_neg (mt hfound.mp hempty), hends, List.length_drop] at hend
        -- The digits lie within the string.
        have hfit : (formAt base r).2 + (digitsAt base r).length ≤ r.length := by
          have htake :=
            (List.takeWhile_sublist (l := r.drop (formAt base r).2)
            (IsDigit (formAt base r).1)).length_le
          have hpos := List.length_pos_of_ne_nil hempty
          rw [List.length_drop] at htake
          unfold digitsAt at hpos ⊢
          omega
        have hsign : sign = 1 ∨ sign = -1 := by
          cases hsgn with
          | none => exact .inl rfl
          | plus => exact .inl rfl
          | minus => exact .inr rfl
        have hlongest : ∀ n v, LongestNumeral base s n v ↔
            n = s.length - r.length + (formAt base r).2 + (digitsAt base r).length ∧
              v = sign * digitsValue (formAt base r).1 (digitsAt base r) := by
          intro n v
          rw [longestNumeral_iff, hat, Option.some.injEq, Prod.mk.injEq]
          exact and_congr eq_comm eq_comm
        generalize digitsValue (formAt base r).1 (digitsAt base r) = V at herange hlongest
        -- Outside the range and too large for `LONG_MAX` differ in `LONG_MIN` alone.
        have hrange :
            ((strtol s base).erange = true ↔ ¬ (LONG_MIN ≤ sign * V ∧ sign * V ≤ LONG_MAX)) ↔
            sign * V ≠ LONG_MIN := by
          rw [herange, decide_eq_true_iff]
          unfold LONG_MIN LONG_MAX
          rcases hsign with rfl | rfl <;> omega
        constructor
        · intro hreports
          refine ⟨hbare, fun n hmin => ?_⟩
          obtain ⟨-, heq⟩ := (hlongest n _).mp hmin
          apply hrange.mp ?_ heq.symm
          exact (hreports.1 _ _ ((hlongest _ _).mpr ⟨rfl, rfl⟩)).2
        · rintro ⟨-, hmin⟩
          refine ⟨fun n v hnv => ?_,
            fun hnone => absurd ((hlongest _ _).mpr ⟨rfl, rfl⟩) (hnone _ _)⟩
          obtain ⟨rfl, rfl⟩ := (hlongest n v).mp hnv
          refine ⟨by omega, hrange.mpr fun heq => ?_⟩
          exact hmin _ ((hlongest _ _).mpr ⟨rfl, heq.symm⟩)

/-- `"7"` is reported. -/
theorem strtol_reports_seven : (0 = 0 ∨ (2 ≤ 0 ∧ 0 ≤ 36)) ∧ Reports [55] 0 := by
  refine ⟨.inl rfl, (strtol_reports_iff [55] 0 (.inl rfl)).mpr ⟨?_, fun n hmin => ?_⟩⟩
  · unfold BarePrefix BareAt
    decide
  · rw [longestNumeral_iff] at hmin
    revert hmin
    rw [show numeralAt 0 [55] = some (1, 7) by decide]
    simp [LONG_MIN]

/-- Of `"0"` the one digit is not consumed. -/
theorem zero_not_reported : ¬ ∀ s base, (base = 0 ∨ (2 ≤ base ∧ base ≤ 36)) → Reports s base := by
  intro h
  have hlongest : LongestNumeral 0 [48] 1 0 := longestNumeral_iff.mpr (by decide)
  exact absurd ((h [48] 0 (.inl rfl)).1 1 0 hlongest).1 (by decide)

end Lumin.Libc
