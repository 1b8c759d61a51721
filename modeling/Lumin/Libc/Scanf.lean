import Lumin.Libc.PrintNumbers

/-!
# Formatted input

A model of `vcb_scanf` and `sscanf` of `libc/src/stdio/scanf.c`.  The source of the
characters is a string with a pointer into it that goes both ways.

`skip_ws` gives the first character behind the white space back to the source and returns
it too, and its callers take it for consumed.  So they meet this character twice.
`scanf_reads_iff` says for which numerals, words and printed numbers that is harmless.
-/

namespace Lumin.Libc.Scanf

open Lumin.Lib Printf

/-! ## The source -/

/-- `struct str_src`: the characters from the pointer on, up to the terminating zero, and
the bytes in front of it, the nearest one first. -/
structure StrSrc where
  seen : Nat → UInt8
  rest : List UInt8

/-- Put a byte in front of a stream of bytes. -/
def pushSeen (c : UInt8) (seen : Nat → UInt8) : Nat → UInt8
  | 0 => c
  | k + 1 => seen k

/-- `str_get`; `none` is `EOF`. -/
def StrSrc.get (s : StrSrc) : Option UInt8 × StrSrc :=
  match s.rest with
  | [] => (none, s)
  | c :: rest => if c = 0 then (none, s) else (some c, { seen := pushSeen c s.seen, rest })

/-- `str_unget` of a character.  It moves the pointer and does not look at the character. -/
def StrSrc.unget (s : StrSrc) : StrSrc :=
  { seen := fun k => s.seen (k + 1), rest := s.seen 0 :: s.rest }

/-- `if (c != EOF) src->unget(c, src->ctx);` -/
def StrSrc.giveBack (s : StrSrc) (c : Option UInt8) : StrSrc := if c.isSome then s.unget else s

/-- A character that is got is the next one. -/
theorem StrSrc.get_some {s s' : StrSrc} {c : UInt8} (h : s.get = (some c, s')) :
    c ≠ 0 ∧ s.rest = c :: s'.rest ∧ s'.unget = s := by
  unfold get at h
  split at h
  · cases h
  next c' rest heq =>
    by_cases hzero : c' = 0
    · rw [if_pos hzero] at h
      cases h
    · rw [if_neg hzero] at h
      cases h
      refine ⟨hzero, heq, ?_⟩
      show ({ seen := s.seen, rest := c :: rest } : StrSrc) = s
      rw [← heq]

theorem StrSrc.get_none {s s' : StrSrc} (h : s.get = (none, s')) : s' = s := by
  unfold get at h
  split at h
  · cases h
    rfl
  next c' rest heq =>
    by_cases hzero : c' = 0
    · rw [if_pos hzero] at h
      cases h
      rfl
    · rw [if_neg hzero] at h
      cases h

/-- What is got and given back is to be read again. -/
theorem StrSrc.giveBack_get {s s' : StrSrc} {c : Option UInt8} (h : s.get = (c, s')) :
    s'.giveBack c = s := by
  cases c with
  | none => exact get_none h
  | some c => exact (get_some h).2.2

theorem StrSrc.get_length {s s' : StrSrc} {c : UInt8} (h : s.get = (some c, s')) :
    s'.rest.length < s.rest.length := by
  obtain ⟨-, hrest, -⟩ := get_some h
  rw [hrest, List.length_cons]
  exact Nat.lt_succ_self _

/-! ## White space -/

/-- `skip_ws`. -/
def skipWs (src : StrSrc) : Option UInt8 × StrSrc :=
  match _hget : src.get with
  | (none, src) => (none, src)
  | (some c, src) => if isspace c then skipWs src else (some c, src.unget)
termination_by src.rest.length
decreasing_by exact StrSrc.get_length _hget

/-! ## Numbers -/

/-- What a conversion stores through its pointer. -/
inductive Stored where
  | int (size val : Nat)
  | text (chars : List UInt8)
  | chars (chars : List UInt8)
  deriving DecidableEq, Repr

/-- The digit that a character stands for. -/
def scanDigit (c : UInt8) : Option Nat :=
  if 48 ≤ c ∧ c ≤ 57 then some (c.toNat - 48)
  else if 97 ≤ c ∧ c ≤ 102 then some (c.toNat - 97 + 10)
  else if 65 ≤ c ∧ c ≤ 70 then some (c.toNat - 65 + 10)
  else none

/-- The loop over the digits: `ndigits`, `val`, the character that ended it and the source. -/
def intLoop (base width count ndigits val : Nat) (c : Option UInt8) (src : StrSrc) :
    Nat × Nat × Option UInt8 × StrSrc :=
  match c with
  | none => (ndigits, val, none, src)
  | some ch =>
    if width ≠ 0 ∧ count ≥ width then (ndigits, val, some ch, src)
    else
      match scanDigit ch with
      | none => (ndigits, val, some ch, src)
      | some digit =>
        if digit ≥ base then (ndigits, val, some ch, src)
        else
          match _hget : src.get with
          | (none, src) => (ndigits + 1, u64 (val * base + digit), none, src)
          | (some c, src) => intLoop base width (count + 1) (ndigits + 1)
            (u64 (val * base + digit)) (some c) src
termination_by src.rest.length
decreasing_by exact StrSrc.get_length _hget

/-- The sign: whether it is a minus, `count`, the character behind it and the source. -/
def intSign (width : Nat) (c : UInt8) (src : StrSrc) : Bool × Nat × Option UInt8 × StrSrc :=
  if c = 45 ∨ c = 43 then
    if width > 0 ∧ 1 ≥ width then (c = 45, 1, none, src)
    else
      let (c', src) := src.get
      (c = 45, 1, c', src)
  else (false, 0, some c, src)

/-- The base for `base == 0`, and `count`, the character and the source behind its prefix. -/
def intBase (width count : Nat) (c : UInt8) (src : StrSrc) : Nat × Nat × Option UInt8 × StrSrc :=
  if c ≠ 48 then (10, count, some c, src)
  else if width > 0 ∧ count + 1 ≥ width then (8, count + 1, some c, src)
  else
    let (c, src) := src.get
    if c = some 120 ∨ c = some 88 then
      let (c, src) := src.get
      (16, count + 2, c, src)
    else (8, count + 1, c, src.giveBack c)

/-- The value for a target of the size. -/
def truncateTo (size val : Nat) : Nat :=
  if size ≥ 8 then u64 val else if size ≥ 4 then u32 val else if size ≥ 2 then val % 2 ^ 16
    else val % 2 ^ 8

/-- `scan_int`: what is stored, if anything, and the source. -/
def scanInt (base width size : Nat) (src : StrSrc) : Option Stored × StrSrc :=
  match skipWs src with
  | (none, src) => (none, src)
  | (some c, src) =>
    match intSign width c src with
    | (_, _, none, src) => (none, src.unget)
    | (neg, count, some c, src) =>
      let (base, count, c, src) :=
        if base = 0 then intBase width count c src else (base, count, some c, src)
      let (ndigits, val, c, src) := intLoop base width count 0 0 c src
      let src := src.giveBack c
      if ndigits = 0 then (none, src)
      else (some (.int size (truncateTo size (if neg then sub64 0 val else val))), src)

/-! ## Strings -/

/-- The character does not match the list of a `[`.  Its characters are signed. -/
def scanlistStops (scanlist : List UInt8) (c : UInt8) : Bool :=
  if scanlist.getD 0 0 = 94 then (scanlist.drop 1).any fun b => b = c ∧ b < 128
  else !scanlist.any fun b => b = c ∧ b < 128

/-- The loop of `scan_string`: the characters stored, the one that ended it and the source. -/
def stringLoop (stops : UInt8 → Bool) (width : Nat) (chars : List UInt8) (c : Option UInt8)
    (src : StrSrc) :
    List UInt8 × Option UInt8 × StrSrc :=
  match c with
  | none => (chars, none, src)
  | some ch =>
    if width ≠ 0 ∧ chars.length ≥ width then (chars, some ch, src)
    else if stops ch then (chars, some ch, src)
    else
      match _hget : src.get with
      | (none, src) => (chars ++ [ch], none, src)
      | (some c, src) => stringLoop stops width (chars ++ [ch]) (some c) src
termination_by src.rest.length
decreasing_by exact StrSrc.get_length _hget

/-- `scan_string`: whether it counts, what is stored, and the source. -/
def scanString (stops : UInt8 → Bool) (width : Nat) (src : StrSrc) :
    Bool × Option Stored × StrSrc :=
  match skipWs src with
  | (none, src) => (false, none, src)
  | (some c, src) =>
    let (chars, c, src) := stringLoop stops width [] (some c) src
    (chars.length > 0, some (.text chars), src.giveBack c)

/-- `scan_chars` for `n` more characters. -/
def scanChars : Nat → List UInt8 → StrSrc → List UInt8 × StrSrc
  | 0, chars, src => (chars, src)
  | n + 1, chars, src =>
    match src.get with
    | (none, src) => (chars, src)
    | (some c, src) => scanChars n (chars ++ [c]) src

/-! ## `vcb_scanf` -/

/-- What is between the `%` and the end of a conversion; `conv` is 0 at the end of the
format. -/
structure Directive where
  width : Nat
  isLong : Bool
  scanlist : List UInt8
  conv : UInt8
  deriving DecidableEq, Repr

/-- `while (*fmt && *fmt != ']') fmt++;` behind what may be in front of it. -/
def skipScanlist (fmt : List UInt8) : List UInt8 :=
  let (_, fmt) := scanFlag 94 fmt
  let (_, fmt) := scanFlag 93 fmt
  fmt.dropWhile (· ≠ 93)

/-- Read a conversion: it and what follows it. -/
def scanDirective (fmt : List UInt8) : Option (Directive × List UInt8) :=
  let (digits, fmt) := scanPad fmt
  let (isLong, fmt) := scanLong fmt
  let fmt := fmt.dropWhile (· = 104)
  let scanlist := if fmt.getD 0 0 = 91 then fmt.drop 1 else []
  let fmt := if fmt.getD 0 0 = 91 then skipScanlist (fmt.drop 1) else fmt
  if padOf digits > INT_MAX then none
  else some ({ width := padOf digits, isLong, scanlist, conv := fmt.getD 0 0 }, fmt.drop 1)

/-- What a conversion does: whether it counts as an item, the object stored through each
pointer it takes, the source, and whether the call ends. -/
structure Outcome where
  counts : Bool
  stored : List (Option Stored)
  src : StrSrc
  stops : Bool

def intOutcome (base : Nat) (d : Directive) (src : StrSrc) : Outcome :=
  let (stored, src) := scanInt base d.width (if d.isLong then 8 else 4) src
  { counts := stored.isSome, stored := [stored], src, stops := false }

def stringOutcome (stops : UInt8 → Bool) (d : Directive) (src : StrSrc) : Outcome :=
  let (counts, stored, src) := scanString stops d.width src
  { counts, stored := [stored], src, stops := false }

def charsOutcome (d : Directive) (src : StrSrc) : Outcome :=
  let (chars, src) := scanChars (if d.width = 0 then 1 else d.width) [] src
  { counts := chars.length > 0, stored := [some (.chars chars)], src, stops := false }

/-- A character of the format that stands for itself. -/
def expectChar (c : UInt8) (src : StrSrc) : Outcome :=
  let (c', src) := src.get
  if c' = some c then { counts := false, stored := [], src, stops := false }
  else { counts := false, stored := [], src := src.giveBack c', stops := true }

/-- The `switch` of the conversions. -/
def convert (d : Directive) (items : Nat) (src : StrSrc) : Outcome :=
  if d.conv = 100 then intOutcome 10 d src
  else if d.conv = 105 then intOutcome 0 d src
  else if d.conv = 117 then intOutcome 10 d src
  else if d.conv = 120 ∨ d.conv = 88 then intOutcome 16 d src
  else if d.conv = 115 then stringOutcome isspace d src
  else if d.conv = 99 then charsOutcome d src
  else if d.conv = 91 then stringOutcome (scanlistStops d.scanlist) d src
  else if d.conv = 110
    then { counts := false, stored := [some (.int 4 (u32 items))], src, stops := false }
  else if d.conv = 37 then expectChar 37 src
  else { counts := false, stored := [], src, stops := false }

/-- What a call leaves: the number of items, what it stored through each pointer, and the
source. -/
structure Scanned where
  items : Nat
  stored : List (Option Stored)
  src : StrSrc

/-- What a conversion adds. -/
def Scanned.add (r : Scanned) (o : Outcome) : Scanned :=
  { items := if o.counts then r.items + 1 else r.items, stored := r.stored ++ o.stored,
    src := o.src }

theorem skipScanlist_length (fmt : List UInt8) : (skipScanlist fmt).length ≤ fmt.length := by
  have hcaret := scanFlag_length 94 fmt
  have hbracket := scanFlag_length 93 (scanFlag 94 fmt).2
  exact (List.dropWhile_sublist _).length_le.trans (hbracket.trans hcaret)

theorem scanDirective_length {fmt rest : List UInt8} {d : Directive}
    (h : scanDirective fmt = some (d, rest)) :
    rest.length ≤ fmt.length := by
  have hpad := scanPad_length fmt
  have hlong : (scanLong (scanPad fmt).2).2.length ≤ _ := (List.dropWhile_sublist _).length_le
  have hshort :=
    (List.dropWhile_sublist (l := (scanLong (scanPad fmt).2).2)
    (· = 104 : UInt8 → Bool)).length_le
  unfold scanDirective at h
  dsimp only at h
  generalize (scanLong (scanPad fmt).2).2.dropWhile (· = 104 : UInt8 → Bool) = fmt' at h hshort
  have hlist := skipScanlist_length (fmt'.drop 1)
  rw [List.length_drop] at hlist
  split_ifs at h
  all_goals
    obtain ⟨-, rfl⟩ := Prod.mk.inj (Option.some.inj h)
    rw [List.length_drop]
    omega

/-- `vcb_scanf`. -/
def vcbScanf (fmt : List UInt8) (r : Scanned) : Option Scanned :=
  match fmt with
  | [] => some r
  | c :: fmt =>
    if isspace c then vcbScanf fmt r
    else if c ≠ 37 then
      let o := expectChar c r.src
      if o.stops then some (r.add o) else vcbScanf fmt (r.add o)
    else
      match _hscan : scanDirective fmt with
      | none => none
      | some (d, rest) =>
        let o := convert d r.items r.src
        if o.stops then some (r.add o) else vcbScanf rest (r.add o)
termination_by fmt.length
decreasing_by
  · exact Nat.lt_succ_self _
  · exact Nat.lt_succ_self _
  · exact Nat.lt_succ_of_le (scanDirective_length _hscan)

/-- `sscanf` of `s`; `front` is what is in memory in front of it. -/
def sscanf (front : Nat → UInt8) (s fmt : List UInt8) : Option Scanned :=
  vcbScanf fmt { items := 0, stored := [], src := { seen := front, rest := s } }

/-! ## What is to be read -/

/-- The string begins with white space, a sign and a numeral of the base, and behind them
is `rest`.  The value is `v`. -/
structure NumeralIn (base : Nat) (s ws sgn ds rest : List UInt8) (v : Int) : Prop where
  split : s = ws ++ (sgn ++ (ds ++ rest))
  spaces : ∀ c ∈ ws, isspace c = true
  nonempty : ds ≠ []
  digits : ∀ c ∈ ds, IsDigit base c = true
  ends : ∀ c ∈ rest.head?, IsDigit base c = false
  value : ∃ sign, Sign sgn sign ∧ v = sign * digitsValue base ds

/-- The string begins with white space and then has the word `w`. -/
structure WordIn (s ws w rest : List UInt8) : Prop where
  split : s = ws ++ (w ++ rest)
  spaces : ∀ c ∈ ws, isspace c = true
  nonempty : w ≠ []
  word : ∀ c ∈ w, isspace c = false
  ends : ∀ c ∈ rest.head?, isspace c = true

/-- The values of an `int` and of an `unsigned int`. -/
def FitsInt (v : Int) : Prop := -2 ^ 31 ≤ v ∧ v < 2 ^ 31
def FitsUnsigned (v : Int) : Prop := 0 ≤ v ∧ v < 2 ^ 32

/-- A call stores exactly the object and leaves the source at `rest`. -/
def StoresExactly (r : Option Scanned) (o : Stored) (rest : List UInt8) : Prop :=
  ∃ src, r = some { items := 1, stored := [some o], src } ∧ src.rest = rest

/-- A conversion stores the value of the numeral and leaves the source behind it. -/
def ReadsNumeral (front : Nat → UInt8) (conv : UInt8) (base : Nat) (fits : Int → Prop)
    (s : List UInt8) : Prop :=
  ∀ ws sgn ds rest v, NumeralIn base s ws sgn ds rest v → fits v →
    StoresExactly (sscanf front s [37, conv]) (.int 4 (v % 2 ^ 32).toNat) rest

/-- `%s` stores the first word and leaves the source behind it. -/
def ReadsWord (front : Nat → UInt8) (s : List UInt8) : Prop :=
  ∀ ws w rest, WordIn s ws w rest → StoresExactly (sscanf front s [37, 115]) (.text w) rest

/-- `%d` reads back the numeral of an `int`. -/
def InvertsPrint (front : Nat → UInt8) (v : Int) : Prop :=
  StoresExactly (sscanf front (decimal v) [37, 100]) (.int 4 (v % 2 ^ 32).toNat) []

/-- A first digit that is read twice makes no difference: there is no sign in front of it,
and it is a zero, or is lost above the 32 bits of the target. -/
def HarmlessTwice (base : Nat) (fits : Int → Prop) (s : List UInt8) : Prop :=
  ∀ ws sgn ds rest v, NumeralIn base s ws sgn ds rest v → fits v →
    sgn = [] ∧ (ds.head? = some 48 ∨ (base = 16 ∧ ds.length = 8))

variable {base n : Nat} {s ws sgn ds rest r w : List UInt8} {c : UInt8} {v : Int}
  {src src' : StrSrc}

/-! ## The white space -/

theorem get_cons (hc : c ≠ 0) (hrest : src.rest = c :: r) :
    src.get = (some c, { seen := pushSeen c src.seen, rest := r }) := by
  unfold StrSrc.get
  rw [hrest]
  exact if_neg hc

theorem skipWs_some (h : src.get = (some c, src')) :
    skipWs src = if isspace c then skipWs src' else (some c, src'.unget) := by
  rw [skipWs]
  split
  next hget =>
    rw [h] at hget
    cases hget
  next hget =>
    rw [h] at hget
    cases hget
    rfl

theorem isspace_ne_zero (h : isspace c = true) : c ≠ 0 := by
  rintro rfl
  exact absurd h (by decide)

/-- The first character behind the white space is returned and is still in the source. -/
theorem skipWs_spec (hws : ∀ c ∈ ws, isspace c = true) (hc : c ≠ 0) (hspace : isspace c = false)
    (hrest : src.rest = ws ++ c :: r) :
    ∃ src', skipWs src = (some c, src') ∧ src'.rest = c :: r := by
  induction ws generalizing src with
  | nil =>
    have hget := get_cons hc hrest
    rw [skipWs_some hget, hspace, (StrSrc.get_some hget).2.2]
    exact ⟨src, rfl, hrest⟩
  | cons x ws ih =>
    have hx := hws x List.mem_cons_self
    rw [skipWs_some (get_cons (isspace_ne_zero hx) hrest), hx]
    exact ih (fun c hc => hws c (List.mem_cons_of_mem x hc)) rfl

/-! ## The digits -/

/-- A digit below 16 is one for the scanner. -/
theorem scanDigit_of_digitOf {d : Nat} (hd : digitOf c = some d) (hlt : d < 16) :
    scanDigit c = some d := by
  unfold digitOf at hd
  unfold scanDigit
  split_ifs at hd with hdec hlower hupper
  · rw [if_pos hdec]
    exact hd
  · have hle : c ≤ 102 := by
      rw [UInt8.le_iff_toNat_le]
      show c.toNat ≤ 102
      cases hd
      omega
    rw [if_neg hdec, if_pos ⟨hlower.1, hle⟩]
    exact hd
  · have hle : c ≤ 70 := by
      rw [UInt8.le_iff_toNat_le]
      show c.toNat ≤ 70
      cases hd
      omega
    rw [if_neg hdec, if_neg fun h => hlower ⟨h.1, UInt8.le_trans h.2 (by decide)⟩,
      if_pos ⟨hupper.1, hle⟩]
    exact hd

/-- What is one for the scanner is a digit. -/
theorem digitOf_of_scanDigit {d : Nat} (hd : scanDigit c = some d) : digitOf c = some d := by
  unfold scanDigit at hd
  unfold digitOf
  split_ifs at hd with hdec hlower hupper
  · rw [if_pos hdec]
    exact hd
  · rw [if_neg hdec, if_pos ⟨hlower.1, UInt8.le_trans hlower.2 (by decide)⟩]
    exact hd
  · have hnot : ¬ (97 ≤ c ∧ c ≤ 122) := fun h => absurd (UInt8.le_trans h.1 hupper.2) (by decide)
    rw [if_neg hdec, if_neg hnot, if_pos ⟨hupper.1, UInt8.le_trans hupper.2 (by decide)⟩]
    exact hd

/-- The loop stops at a character that is no digit. -/
theorem intLoop_stop {count ndigits val : Nat} (hc : IsDigit base c = false) :
    intLoop base 0 count ndigits val (some c) src = (ndigits, val, some c, src) := by
  rw [intLoop, if_neg fun h => h.1 rfl]
  cases hd : scanDigit c with
  | none => rfl
  | some d =>
    exact if_pos (base_le_of_not_isDigit (Bool.eq_false_iff.mp hc) (digitOf_of_scanDigit hd))

/-- The loop takes a digit, and gets the next character. -/
theorem intLoop_digit {count ndigits val d : Nat} (hbase : base ≤ 16) (hd : digitOf c = some d)
    (hlt : d < base) :
    intLoop base 0 count ndigits val (some c) src =
      match src.get with
      | (none, src) => (ndigits + 1, u64 (val * base + d), none, src)
      | (some c, src) => intLoop base 0 (count + 1) (ndigits + 1) (u64 (val * base + d))
        (some c) src := by
  rw [intLoop, if_neg fun h => h.1 rfl, scanDigit_of_digitOf hd (hlt.trans_le hbase)]
  dsimp only
  rw [if_neg (not_le.mpr hlt)]
  split
  next hget => rw [hget]
  next hget => rw [hget]

theorem u64_mul_add (a b c : Nat) : u64 (u64 a * b + c) = u64 (a * b + c) := by
  unfold u64
  rw [Nat.add_mod, Nat.mod_mul_mod, ← Nat.add_mod]

theorem digit_ne_zero (h : IsDigit base c = true) : c ≠ 0 := by
  rintro rfl
  obtain ⟨d, hd, -⟩ := isDigit_iff.mp h
  rw [show digitOf 0 = none from rfl] at hd
  cases hd

theorem digitsValue_cons {d : Nat} (hd : digitOf c = some d) (ds : List UInt8) :
    digitsValue base (c :: ds) = d * base ^ ds.length + digitsValue base ds := by
  unfold digitsValue
  rw [List.map_cons, numberOf_cons, hd, List.length_map]
  rfl

/-- The loop reads the character that it is given and then the digits of the source. -/
theorem intLoop_spec {count ndigits val : Nat} (hbase : base ≤ 16) (hc : IsDigit base c = true)
    (hrest : src.rest = ds ++ rest) (hds : ∀ c ∈ ds, IsDigit base c = true)
    (hends : ∀ c ∈ rest.head?, IsDigit base c = false) :
    ∃ c' src', intLoop base 0 count ndigits val (some c) src =
        (ndigits + (ds.length + 1),
          u64 (val * base ^ (ds.length + 1) + digitsValue base (c :: ds)), c', src') ∧
      (src'.giveBack c').rest = rest := by
  induction ds generalizing c count ndigits val src with
  | nil =>
    obtain ⟨d, hd, hlt⟩ := isDigit_iff.mp hc
    rw [intLoop_digit hbase hd hlt, digitsValue_cons hd, List.length_nil, zero_add, pow_one,
      pow_zero, mul_one,
      show digitsValue base [] = 0 from rfl, add_zero]
    rw [List.nil_append] at hrest
    rcases hget : src.get with ⟨c', src'⟩
    have hback : (src'.giveBack c').rest = rest := by rw [StrSrc.giveBack_get hget, hrest]
    cases c' with
    | none => exact ⟨none, src', rfl, hback⟩
    | some x =>
      have hx := (StrSrc.get_some hget).2.1
      have hstop : IsDigit base x = false := hends x (by rw [← hrest, hx]; rfl)
      exact ⟨some x, src', intLoop_stop hstop, hback⟩
  | cons x ds ih =>
    obtain ⟨d, hd, hlt⟩ := isDigit_iff.mp hc
    have hx := hds x List.mem_cons_self
    rw [List.cons_append] at hrest
    rw [intLoop_digit hbase hd hlt, get_cons (digit_ne_zero hx) hrest]
    obtain ⟨c', src', hloop, hback⟩ :=
      @ih x { seen := pushSeen x src.seen, rest := ds ++ rest } (count + 1)
      (ndigits + 1) (u64 (val * base + d)) hx rfl fun c hc => hds c (List.mem_cons_of_mem x hc)
    refine ⟨c', src', ?_, hback⟩
    dsimp only
    rw [hloop, u64_mul_add, digitsValue_cons hd, List.length_cons, add_assoc, add_comm 1]
    refine congrArg (Prod.mk _) (congrArg (fun n => (u64 n, c', src')) ?_)
    rw [pow_succ base (ds.length + 1)]
    ring

/-! ## `%d`, `%u` and `%x` -/

/-- Without a sign the first digit is read twice. -/
theorem scanInt_digits (hpos : base ≠ 0) (hbase : base ≤ 16) (size : Nat)
    (hws : ∀ c ∈ ws, isspace c = true)
    (hrest : src.rest = ws ++ (c :: ds ++ rest)) (hc : IsDigit base c = true)
    (hds : ∀ c ∈ ds, IsDigit base c = true)
    (hends : ∀ c ∈ rest.head?, IsDigit base c = false) :
    ∃ src', scanInt base 0 size src =
        (some (.int size (truncateTo size (u64 (digitsValue base (c :: c :: ds))))), src') ∧
          src'.rest = rest := by
  obtain ⟨hspace, hminus, hplus⟩ := digit_not_space hc
  obtain ⟨src₁, hskip, hrest₁⟩ := skipWs_spec hws (digit_ne_zero hc) hspace hrest
  obtain ⟨c', src₂, hloop, hback⟩ :=
    @intLoop_spec base (c :: ds) rest c src₁ 0 0 0 hbase hc hrest₁
    (fun x hx => by
      rcases List.mem_cons.mp hx with rfl | hx
      · exact hc
      · exact hds x hx) hends
  refine ⟨src₂.giveBack c', ?_, hback⟩
  unfold scanInt intSign
  rw [hskip]
  dsimp only
  rw [if_neg (not_or.mpr ⟨hminus, hplus⟩)]
  dsimp only
  rw [if_neg hpos]
  dsimp only
  rw [hloop]
  dsimp only
  rw [if_neg (by omega), zero_mul, zero_add]
  rfl

/-- A sign is read twice too, and is no digit. -/
theorem scanInt_sign (hpos : base ≠ 0) (size : Nat) (hws : ∀ c ∈ ws, isspace c = true)
    (hc : c = 45 ∨ c = 43)
    (hrest : src.rest = ws ++ c :: r) : (scanInt base 0 size src).1 = none := by
  have hspace : c ≠ 0 ∧ isspace c = false ∧ digitOf c = none := by
    rcases hc with rfl | rfl <;> decide
  obtain ⟨hzero, hnot, hdigit⟩ := hspace
  obtain ⟨src₁, hskip, hrest₁⟩ := skipWs_spec hws hzero hnot hrest
  have hstop : IsDigit base c = false := by
    unfold IsDigit
    rw [hdigit]
    rfl
  unfold scanInt intSign
  rw [hskip]
  dsimp only
  rw [if_pos hc, if_neg (by omega), get_cons hzero hrest₁]
  dsimp only
  rw [if_neg hpos]
  dsimp only
  rw [intLoop_stop hstop]
  dsimp only
  rw [if_pos rfl]

/-- A conversion without a width and a length. -/
def plain (conv : UInt8) : Directive := { width := 0, isLong := false, scanlist := [], conv }

/-- A format of one conversion. -/
theorem sscanf_one {conv : UInt8} (front : Nat → UInt8) (s : List UInt8)
    (hscan : scanDirective [conv] = some (plain conv, [])) :
    sscanf front s [37, conv] =
      some (({ items := 0, stored := [], src := { seen := front, rest := s } } : Scanned).add
      (convert (plain conv) 0 { seen := front, rest := s })) := by
  unfold sscanf
  rw [vcbScanf, if_neg (by decide), if_neg (by decide)]
  split
  next hnone =>
    rw [hscan] at hnone
    cases hnone
  next hsome =>
    rw [hscan] at hsome
    cases hsome
    dsimp only
    split
    · rfl
    · rw [vcbScanf]

theorem intOutcome_plain (base : Nat) (conv : UInt8) (src : StrSrc) :
    intOutcome base (plain conv) src =
      { counts := (scanInt base 0 4 src).1.isSome, stored := [(scanInt base 0 4 src).1],
        src := (scanInt base 0 4 src).2, stops := false } := rfl

/-- The object that `%d`, `%u` or `%x` stores, if it stores one. -/
theorem storesExactly_int {conv : UInt8} {front : Nat → UInt8} {o : Stored}
    (hscan : scanDirective [conv] = some (plain conv, []))
    (hconv : ∀ src, convert (plain conv) 0 src = intOutcome base (plain conv) src) :
    StoresExactly (sscanf front s [37, conv]) o rest ↔
      (scanInt base 0 4 { seen := front, rest := s }).1 = some o ∧
        (scanInt base 0 4 { seen := front, rest := s }).2.rest = rest := by
  rw [sscanf_one front s hscan, hconv, intOutcome_plain]
  rcases scanInt base 0 4 { seen := front, rest := s } with ⟨o', src⟩
  constructor
  · rintro ⟨src', heq, hrest⟩
    obtain ⟨-, hstored, rfl⟩ := Scanned.mk.inj (Option.some.inj heq)
    exact ⟨(List.cons.inj hstored).1, hrest⟩
  · rintro ⟨rfl, hrest⟩
    exact ⟨src, rfl, hrest⟩

/-- The digit `d` in front of `k` digits does not show in 32 bits. -/
theorem lost_iff {d k V : Nat} (hbase : base = 10 ∨ base = 16) (hd : d < base) (hk : 0 < k)
    (hV : V < 2 ^ 32)
    (hle : d * base ^ (k - 1) ≤ V) :
    (d * base ^ k + V) % 2 ^ 32 = V ↔ d = 0 ∨ (base = 16 ∧ k = 8) := by
  have hdvd : (d * base ^ k + V) % 2 ^ 32 = V ↔ d * base ^ k % 2 ^ 32 = 0 := by omega
  rw [hdvd]
  by_cases hzero : d = 0
  · rw [hzero, Nat.zero_mul]
    exact iff_of_true rfl (.inl rfl)
  · have hpow : base ^ (k - 1) < 2 ^ 32 :=
      lt_of_le_of_lt ((Nat.le_mul_of_pos_left _ (Nat.pos_of_ne_zero hzero)).trans hle) hV
    rcases hbase with rfl | rfl
    · have hten : k - 1 < 10 := (Nat.pow_lt_pow_iff_right (by decide)).mp (hpow.trans (by decide))
      have hall : ∀ d < 10, ∀ k < 11, d ≠ 0 → d * 10 ^ k % 2 ^ 32 ≠ 0 := by decide
      exact iff_of_false (hall d hd k (by omega) hzero) (by omega)
    · have height :
          k - 1 < 8 := (Nat.pow_lt_pow_iff_right (by decide)).mp (hpow.trans_le (by decide))
      have hall : ∀ d < 16, ∀ k < 9, d ≠ 0 → (d * 16 ^ k % 2 ^ 32 = 0 ↔ k = 8) := by decide
      rw [hall d hd k (by omega) hzero]
      omega

theorem digitOf_zero_iff : digitOf c = some 0 ↔ c = 48 := by
  constructor
  · intro h
    unfold digitOf at h
    split_ifs at h with hdec
    · have hlo : 48 ≤ c.toNat := hdec.1
      apply UInt8.toNat_inj.mp
      have := Option.some.inj h
      show c.toNat = 48
      omega
    · exact absurd (Option.some.inj h) (Nat.succ_ne_zero _)
    · exact absurd (Option.some.inj h) (Nat.succ_ne_zero _)
  · rintro rfl
    rfl

/-- What is stored is right if the digit that is read twice is harmless. -/
theorem storesExactly_numeral_iff {conv : UInt8} {front : Nat → UInt8}
    (hbase : base = 10 ∨ base = 16)
    (hscan : scanDirective [conv] = some (plain conv, []))
    (hconv : ∀ src, convert (plain conv) 0 src = intOutcome base (plain conv) src)
    (h : NumeralIn base s ws sgn ds rest v) (hfits : -2 ^ 31 ≤ v ∧ v < 2 ^ 32) :
    StoresExactly (sscanf front s [37, conv]) (.int 4 (v % 2 ^ 32).toNat) rest ↔
      sgn = [] ∧ (ds.head? = some 48 ∨ (base = 16 ∧ ds.length = 8)) := by
  have hpos : base ≠ 0 := by omega
  have hle : base ≤ 16 := by omega
  rw [storesExactly_int hscan hconv]
  obtain ⟨sign, hsgn, hvalue⟩ := h.value
  have hsign : ∀ x : UInt8, x = 45 ∨ x = 43 → sgn = [x] →
      (scanInt base 0 4 { seen := front, rest := s }).1 = none := by
    rintro x hx rfl
    exact scanInt_sign hpos 4 h.spaces hx h.split
  cases hsgn with
  | plus =>
    refine iff_of_false (fun hstored => ?_) (fun hplain => List.cons_ne_nil _ _ hplain.1)
    rw [hsign 43 (.inr rfl) rfl] at hstored
    cases hstored.1
  | minus =>
    refine iff_of_false (fun hstored => ?_) (fun hplain => List.cons_ne_nil _ _ hplain.1)
    rw [hsign 45 (.inl rfl) rfl] at hstored
    cases hstored.1
  | none =>
    obtain ⟨c, ds, rfl⟩ := List.exists_cons_of_ne_nil h.nonempty
    have hc := h.digits c List.mem_cons_self
    obtain ⟨d, hd, hlt⟩ := isDigit_iff.mp hc
    obtain ⟨src', hscanned, hrest⟩ :=
      @scanInt_digits base ws ds rest c { seen := front, rest := s } hpos hle 4
      h.spaces h.split hc (fun x hx => h.digits x (List.mem_cons_of_mem c hx)) h.ends
    rw [hscanned]
    dsimp only
    rw [and_iff_left hrest, Option.some.injEq, Stored.int.injEq, and_iff_right rfl,
      and_iff_right (rfl : ([] : List UInt8) = []), digitsValue_cons hd]
    have hval : v = (digitsValue base (c :: ds) : Int) := by rw [hvalue, one_mul]
    have hhead : d * base ^ ((c :: ds).length - 1) ≤ digitsValue base (c :: ds) := by
      rw [digitsValue_cons hd]
      exact Nat.le_add_right _ _
    have hlost :
        (d * base ^ (c :: ds).length + digitsValue base (c :: ds)) % 2 ^ 32 =
        digitsValue base (c :: ds) ↔
        d = 0 ∨ (base = 16 ∧ (c :: ds).length = 8) :=
          lost_iff hbase hlt (Nat.succ_pos _) (by omega) hhead
    have hzero : d = 0 ↔ (c :: ds).head? = some 48 := by
      rw [List.head?_cons, Option.some.injEq, ← digitOf_zero_iff, hd, Option.some.injEq]
    rw [← hzero, ← hlost]
    show u32 (u64 _) = _ ↔ _
    unfold u32 u64
    generalize digitsValue base (c :: ds) = V at hval ⊢
    generalize d * base ^ (c :: ds).length = W
    omega

/-! ## `%s` -/

theorem stringLoop_char {stops : UInt8 → Bool} {chars : List UInt8} (hc : stops c = false) :
    stringLoop stops 0 chars (some c) src =
      match src.get with
      | (none, src) => (chars ++ [c], none, src)
      | (some x, src) => stringLoop stops 0 (chars ++ [c]) (some x) src := by
  rw [stringLoop, if_neg fun h => h.1 rfl, hc, if_neg Bool.false_ne_true]
  split
  next hget => rw [hget]
  next hget => rw [hget]

/-- The loop stores the character that it is given and then the characters of the source. -/
theorem stringLoop_spec {stops : UInt8 → Bool} {chars : List UInt8} (hc : stops c = false)
    (hrest : src.rest = w ++ rest) (hw : ∀ c ∈ w, c ≠ 0 ∧ stops c = false)
    (hends : ∀ c ∈ rest.head?, stops c = true) :
    ∃ c' src', stringLoop stops 0 chars (some c) src = (chars ++ c :: w, c', src') ∧
        (src'.giveBack c').rest = rest := by
  induction w generalizing c chars src with
  | nil =>
    rw [stringLoop_char hc]
    rw [List.nil_append] at hrest
    rcases hget : src.get with ⟨c', src'⟩
    have hback : (src'.giveBack c').rest = rest := by rw [StrSrc.giveBack_get hget, hrest]
    cases c' with
    | none => exact ⟨none, src', rfl, hback⟩
    | some x =>
      have hx := (StrSrc.get_some hget).2.1
      have hstop : stops x = true := hends x (by rw [← hrest, hx]; rfl)
      refine ⟨some x, src', ?_, hback⟩
      dsimp only
      rw [stringLoop, if_neg fun h => h.1 rfl, if_pos hstop]
  | cons x w ih =>
    obtain ⟨hzero, hx⟩ := hw x List.mem_cons_self
    rw [List.cons_append] at hrest
    rw [stringLoop_char hc, get_cons hzero hrest]
    obtain ⟨c', src', hloop, hback⟩ :=
      @ih x { seen := pushSeen x src.seen, rest := w ++ rest } (chars ++ [c]) hx rfl
      fun c hc => hw c (List.mem_cons_of_mem x hc)
    refine ⟨c', src', ?_, hback⟩
    dsimp only
    rw [hloop, List.append_assoc]
    rfl

/-- The first character of a word is stored twice. -/
theorem sscanf_word {front : Nat → UInt8} (h : WordIn s ws (c :: w) rest) (hs : ∀ c ∈ s, c ≠ 0) :
    ∃ src, sscanf front s [37, 115] =
        some { items := 1, stored := [some (.text (c :: c :: w))], src } := by
  have hmem : ∀ x ∈ c :: w, x ≠ 0 ∧ isspace x = false := by
    intro x hx
    refine ⟨hs x ?_, h.word x hx⟩
    rw [h.split]
    exact List.mem_append_right _ (List.mem_append_left _ hx)
  obtain ⟨hzero, hnot⟩ := hmem c List.mem_cons_self
  obtain ⟨src₁, hskip, hrest₁⟩ :=
    @skipWs_spec ws (w ++ rest) c { seen := front, rest := s } h.spaces hzero hnot h.split
  obtain ⟨c', src₂, hloop, -⟩ :=
    @stringLoop_spec rest (c :: w) c src₁ isspace [] hnot hrest₁ hmem h.ends
  refine ⟨src₂.giveBack c', ?_⟩
  have hstring : scanString isspace 0 { seen := front, rest := s } =
      (true, some (.text (c :: c :: w)), src₂.giveBack c') := by
    unfold scanString
    rw [hskip]
    dsimp only
    rw [hloop]
    rfl
  have houtcome : convert (plain 115) 0 { seen := front, rest := s } =
      { counts := true, stored := [some (.text (c :: c :: w))], src := src₂.giveBack c',
        stops := false } := by
    show stringOutcome isspace (plain 115) { seen := front, rest := s } = _
    unfold stringOutcome
    rw [show (plain 115).width = 0 from rfl, hstring]
  rw [sscanf_one front s rfl, houtcome]
  rfl

/-- A string is read rightly if there is no word in it. -/
theorem readsWord_iff (front : Nat → UInt8) (hs : ∀ c ∈ s, c ≠ 0) :
    ReadsWord front s ↔ ∀ c ∈ s, isspace c = true := by
  constructor
  · intro hreads
    by_contra hnot
    have hne : s.dropWhile isspace ≠ [] := fun hnil => hnot (List.dropWhile_eq_nil_iff.mp hnil)
    obtain ⟨c, r, hcons⟩ := List.exists_cons_of_ne_nil hne
    have hc : isspace c = false := by
      have := List.head_dropWhile_not isspace hne
      simpa only [hcons, List.head_cons] using this
    have hword : WordIn s (s.takeWhile isspace) (c :: r.takeWhile (fun c => !isspace c))
        (r.dropWhile fun c => !isspace c) := by
      refine ⟨?_, fun c hc => List.mem_takeWhile_imp hc, List.cons_ne_nil _ _, fun x hx => ?_,
        fun x hx => ?_⟩
      · rw [List.cons_append, List.takeWhile_append_dropWhile, ← hcons,
          List.takeWhile_append_dropWhile]
      · rcases List.mem_cons.mp hx with rfl | hx
        · exact hc
        · simpa using List.mem_takeWhile_imp hx
      · have hhead := List.head?_dropWhile_not (fun c => !isspace c) r
        rw [Option.mem_def.mp hx] at hhead
        simpa using hhead
    obtain ⟨src, hexact, -⟩ := hreads _ _ _ hword
    obtain ⟨src', htwice⟩ := @sscanf_word s _ _ _ c front hword hs
    rw [htwice] at hexact
    obtain ⟨-, hstored, -⟩ := Scanned.mk.inj (Option.some.inj hexact)
    have hlen :=
      congrArg List.length (Stored.text.inj (Option.some.inj (List.cons.inj hstored).1))
    rw [List.length_cons] at hlen
    omega
  · intro hspaces ws w rest h
    obtain ⟨c, w, rfl⟩ := List.exists_cons_of_ne_nil h.nonempty
    have hc := h.word c List.mem_cons_self
    rw [hspaces c (by rw [h.split]; simp)] at hc
    cases hc

/-! ## Reading back what is printed -/

/-- The numeral of a number begins with a zero if the number is zero. -/
theorem numeral_head (n : Nat) : (numeral 10 n).head? = some 48 ↔ n = 0 := by
  by_cases hzero : n = 0
  · rw [hzero]
    exact iff_of_true rfl rfl
  · have hdigits : Nat.digits 10 n ≠ [] := Nat.digits_ne_nil_iff_ne_zero.mpr hzero
    have hlast := Nat.getLast_digit_ne_zero 10 hzero
    have hlt := Nat.digits_lt_base (by decide) (List.getLast_mem hdigits)
    have hhead :
        (numeral 10 n).head? = some (hexDigit false ((Nat.digits 10 n).getLast hdigits)) := by
      show (if n = 0 then [48] else ((Nat.digits 10 n).map (hexDigit false)).reverse).head? = _
      rw [if_neg hzero, List.head?_reverse, List.getLast?_map,
        List.getLast?_eq_getLast_of_ne_nil hdigits]
      rfl
    have hall : ∀ d < 10, d ≠ 0 → hexDigit false d ≠ 48 := by decide
    rw [hhead, Option.some.injEq]
    exact iff_of_false (hall _ hlt hlast) hzero

theorem invertsPrint_iff (front : Nat → UInt8) (hfits : FitsInt v) :
    InvertsPrint front v ↔ v = 0 := by
  obtain ⟨hdigits, hvalue⟩ := numeral_digits v.natAbs
  obtain ⟨hlo, hhi⟩ := hfits
  have hnumeral :
      NumeralIn 10 (decimal v) [] (if v < 0 then [45] else []) (numeral 10 v.natAbs) [] v := by
    refine ⟨?_, fun c hc => absurd hc List.not_mem_nil, numeral_ne_nil _ _, hdigits,
      fun c hc => (by cases hc), ?_⟩
    · unfold decimal
      split_ifs <;> simp
    · rw [hvalue]
      split_ifs with hneg
      · exact ⟨-1, Sign.minus, by omega⟩
      · exact ⟨1, Sign.none, by omega⟩
  unfold InvertsPrint
  rw [storesExactly_numeral_iff (.inl rfl) rfl (fun _ => rfl) hnumeral ⟨hlo, by omega⟩,
    numeral_head]
  split_ifs with hneg
  · exact iff_of_false (fun h => h.1.elim) (by omega)
  · constructor
    · rintro ⟨-, hzero | ⟨hten, -⟩⟩
      · omega
      · omega
    · rintro rfl
      exact ⟨rfl, .inl rfl⟩

/-! ## The result -/

/-- Which numerals, words and printed numbers are read rightly. -/
theorem scanf_reads_iff (front : Nat → UInt8) (s : List UInt8) (hs : ∀ c ∈ s, c ≠ 0) :
    (ReadsNumeral front 100 10 FitsInt s ↔ HarmlessTwice 10 FitsInt s) ∧
    (ReadsNumeral front 117 10 FitsUnsigned s ↔ HarmlessTwice 10 FitsUnsigned s) ∧
    (ReadsNumeral front 120 16 FitsUnsigned s ↔ HarmlessTwice 16 FitsUnsigned s) ∧
    (ReadsWord front s ↔ ∀ c ∈ s, isspace c = true) ∧
    ∀ v, FitsInt v → (InvertsPrint front v ↔ v = 0) := by
  have hint : ∀ v, FitsInt v → -2 ^ 31 ≤ v ∧ v < 2 ^ 32 := fun v h => ⟨h.1, h.2.trans (by decide)⟩
  have hunsigned : ∀ v, FitsUnsigned v → -2 ^ 31 ≤ v ∧ v < 2 ^ 32 :=
    fun v h => ⟨le_trans (by decide) h.1, h.2⟩
  refine ⟨?_, ?_, ?_, readsWord_iff front hs, fun v hv => invertsPrint_iff front hv⟩
  · refine forall₅_congr fun ws sgn ds rest v => forall₂_congr fun h hv => ?_
    exact storesExactly_numeral_iff (.inl rfl) rfl (fun _ => rfl) h (hint v hv)
  · refine forall₅_congr fun ws sgn ds rest v => forall₂_congr fun h hv => ?_
    exact storesExactly_numeral_iff (.inl rfl) rfl (fun _ => rfl) h (hunsigned v hv)
  · refine forall₅_congr fun ws sgn ds rest v => forall₂_congr fun h hv => ?_
    exact storesExactly_numeral_iff (.inr rfl) rfl (fun _ => rfl) h (hunsigned v hv)

/-- `"0012"` is read as 12, since its first digit is a zero. -/
theorem scanf_reads_zeros : (∀ c ∈ [(48 : UInt8), 48, 49, 50], c ≠ 0) ∧
    HarmlessTwice 10 FitsInt [48, 48, 49, 50] ∧
    StoresExactly (sscanf (fun _ => 0) [48, 48, 49, 50] [37, 100]) (.int 4 12) [] := by
  have hs : ∀ c ∈ [(48 : UInt8), 48, 49, 50], c ≠ 0 := by simp
  have hharmless : HarmlessTwice 10 FitsInt [48, 48, 49, 50] := by
    intro ws sgn ds rest v h _
    cases ws with
    | cons c ws =>
      obtain rfl : 48 = c := (List.cons.inj h.split).1
      exact absurd (h.spaces 48 (by simp)) (by decide)
    | nil =>
      obtain ⟨sign, hsign, -⟩ := h.value
      cases hsign with
      | none =>
        cases ds with
        | nil => exact absurd rfl h.nonempty
        | cons c ds => exact ⟨rfl, .inl (congrArg some (List.cons.inj h.split).1.symm)⟩
      | plus => exact absurd (List.cons.inj h.split).1 (by decide)
      | minus => exact absurd (List.cons.inj h.split).1 (by decide)
  have hnumeral : NumeralIn 10 [48, 48, 49, 50] [] [] [48, 48, 49, 50] [] 12 := by
    refine ⟨rfl, by simp, by simp, ?_, by simp, 1, Sign.none, by decide⟩
    simp [IsDigit, digitOf]
  obtain ⟨hdecimal, -⟩ := scanf_reads_iff (fun _ => 0) [48, 48, 49, 50] hs
  exact ⟨hs, hharmless, hdecimal.mpr hharmless _ _ _ _ _ hnumeral ⟨by decide, by decide⟩⟩

/-- `"12"` is not read as 12. -/
theorem twelve_misread : ¬ ∀ front s, (∀ c ∈ s, c ≠ 0) → ReadsNumeral front 100 10 FitsInt s := by
  intro h
  have htwelve : NumeralIn 10 [49, 50] [] [] [49, 50] [] 12 := by
    refine ⟨rfl, by simp, by simp, ?_, by simp, 1, Sign.none, by decide⟩
    simp [IsDigit, digitOf]
  have hfits : FitsInt 12 := ⟨by decide, by decide⟩
  have hstored := h (fun _ => 0) [49, 50] (by simp) _ _ _ _ _ htwelve hfits
  rw [storesExactly_numeral_iff (.inl rfl) rfl (fun _ => rfl) htwelve ⟨by decide, by decide⟩]
    at hstored
  exact absurd hstored.2 (by decide)

end Lumin.Libc.Scanf
