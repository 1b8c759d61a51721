import Mathlib.Data.Nat.Digits.Defs
import Lumin.Lib.Stores

/-!
# Formatted output

A model of `vcb_printf` and `vsnprintf` of `libc/src/stdio/printf.c`.  The formatter hands
one character after the other to a sink, and the sinks of the source differ only in their
context.  A format is the list of its bytes in front of the terminating zero.

* `vcbPrintf_eq_output` is the result for the sinks: what a sink is left with is what the
  characters of the output, handed over in order, make of its context.
* `vsnprintf_spec` is the result for `vsnprintf`: what is stored is a prefix of the output
  with a zero behind it, and none of it is outside of the buffer.

The calls that the language leaves undefined give `none`: a format that ends within a
conversion, an argument that is not there, an `int` that overflows.
-/

namespace Lumin.Libc.Printf

open Lumin.Lib

def INT_MAX : Nat := 2 ^ 31 - 1

/-- An argument: the word that `va_arg` reads, and the string in front of the terminating
zero if it is a pointer to one. -/
structure VaArg where
  word : BitVec 64
  text : List UInt8
  deriving DecidableEq, Repr

/-- `putchar_t`, a function of the character and the context. -/
abbrev Sink (σ : Type) := UInt8 → σ → σ

variable {σ τ : Type}

/-! ## Loops that print -/

/-- `for (int i = 0; i < n; i++) out(c, ctx);` -/
def putTimes (out : Sink σ) (c : UInt8) (n : Nat) (ctx : σ) : σ := Nat.iterate (out c) n ctx

/-- `print_str`. -/
def printStr (out : Sink σ) (s : List UInt8) (ctx : σ) : σ := s.foldl (fun ctx c => out c ctx) ctx

/-- `while (tlen > 0) out(tmp[--tlen], ctx);` -/
def putBackwards (out : Sink σ) (tmp : List UInt8) (ctx : σ) : σ := tmp.foldr out ctx

/-- `while (n > 0) { tmp[tlen++] = digit(n % base); n /= base; }`, with the bases 10 and 16. -/
def storeDigits (digit : Nat → UInt8) (base n : Nat) (tmp : List UInt8) : List UInt8 :=
  if n = 0 ∨ base < 2 then tmp else storeDigits digit base (n / base) (tmp ++ [digit (n % base)])
termination_by n
decreasing_by exact Nat.div_lt_self (by omega) (by omega)

/-- The same loop with its test at the end. -/
def storeNumber (digit : Nat → UInt8) (base u : Nat) (tmp : List UInt8) : List UInt8 :=
  storeDigits digit base (u / base) (tmp ++ [digit (u % base)])

/-- `'0' + d`. -/
def decDigit (d : Nat) : UInt8 := UInt8.ofNat (48 + d)

/-- `digits[d]`. -/
def hexDigit (upper : Bool) (d : Nat) : UInt8 :=
  if d < 10 then UInt8.ofNat (48 + d) else if upper then UInt8.ofNat (55 + d)
    else UInt8.ofNat (87 + d)

/-- `print_num`. -/
def printNum (out : Sink σ) (n base : Nat) (upper : Bool) (ctx : σ) : σ :=
  putBackwards out (storeDigits (hexDigit upper) base n (if n = 0 then [48] else [])) ctx

/-! ## Conversions -/

/-- What is between the `%` and the end of a conversion. -/
structure Conversion where
  left : Bool
  padChar : UInt8
  pad : Nat
  isLong : Bool
  conv : UInt8
  deriving DecidableEq, Repr

/-- The value of `pad` after its digits. -/
def padOf (digits : List UInt8) : Nat := digits.foldl (fun pad c => pad * 10 + (c.toNat - 48)) 0

/-- `if (*fmt == c) { flag = 1; fmt++; }` -/
def scanFlag (c : UInt8) (fmt : List UInt8) : Bool × List UInt8 :=
  if fmt.getD 0 0 = c then (true, fmt.drop 1) else (false, fmt)

/-- The digits of the width. -/
def scanPad (fmt : List UInt8) : List UInt8 × List UInt8 :=
  if 49 ≤ fmt.getD 0 0 ∧ fmt.getD 0 0 ≤ 57 then
    (fmt.takeWhile fun c => 48 ≤ c ∧ c ≤ 57, fmt.dropWhile fun c => 48 ≤ c ∧ c ≤ 57)
  else ([], fmt)

/-- `while (*fmt == 'l') { is_long = 1; fmt++; }` -/
def scanLong (fmt : List UInt8) :
    Bool × List UInt8 := (decide (fmt.getD 0 0 = 108), fmt.dropWhile (· = 108))

/-- Read a conversion: it and what follows it. -/
def scanConversion (fmt : List UInt8) : Option (Conversion × List UInt8) :=
  let (left, fmt) := scanFlag 45 fmt
  let (zero, fmt) := scanFlag 48 fmt
  let (digits, fmt) := scanPad fmt
  let (isLong, fmt) := scanLong fmt
  match fmt with
  | [] => none
  | conv :: fmt =>
    if padOf digits > INT_MAX then none
    else some ({ left, padChar := if zero then 48 else 32, pad := padOf digits, isLong, conv },
      fmt)

/-- The padding around something of `len` characters.  `rest` is the length as it is read after
`body`, which for a number has counted it down. -/
def padded (out : Sink σ) (d : Conversion) (padChar : UInt8) (len rest : Nat) (body : σ → σ)
    (ctx : σ) : σ :=
  let ctx := if d.left = false ∧ d.pad > len then putTimes out padChar (d.pad - len) ctx else ctx
  let ctx := body ctx
  if d.left = true ∧ d.pad > rest then putTimes out 32 (d.pad - rest) ctx else ctx

/-- The argument of `%d`: a `long long` or an `int`. -/
def Conversion.signed (d : Conversion) (arg : VaArg) : Int :=
  if d.isLong then arg.word.toInt else (arg.word.setWidth 32).toInt

/-- The argument of `%u` and `%x`. -/
def Conversion.unsigned (d : Conversion) (arg : VaArg) : Nat :=
  if d.isLong then arg.word.toNat else (arg.word.setWidth 32).toNat

/-- The argument of `%s`, or `(null)`. -/
def VaArg.string (arg : VaArg) : List UInt8 :=
  if arg.word = 0 then [40, 110, 117, 108, 108, 41] else arg.text

/-- `%s`. -/
def putString (out : Sink σ) (d : Conversion) (arg : VaArg) (ctx : σ) : Option σ :=
  let s := arg.string
  if s.length > INT_MAX then none
  else some (padded out d 32 s.length s.length (printStr out s) ctx)

/-- `%d` and `%i`.  For a negative number `tlen` starts at 1, and `junk` is what `tmp[0]`
happens to be. -/
def putSigned (out : Sink σ) (junk : UInt8) (d : Conversion) (arg : VaArg) (ctx : σ) : Option σ :=
  let v := d.signed arg
  if v = -2 ^ 63 then none
  else
    let tmp := storeNumber decDigit 10 v.natAbs (if v < 0 then [junk] else [])
    some (padded out d d.padChar tmp.length 0
      (fun ctx => putBackwards out tmp (if v < 0 then out 45 ctx else ctx)) ctx)

/-- `%u`, `%x` and `%X`. -/
def putUnsigned (out : Sink σ) (digit : Nat → UInt8) (base : Nat) (d : Conversion) (arg : VaArg)
    (ctx : σ) : σ :=
  let v := d.unsigned arg
  let tmp := storeNumber digit base v []
  padded out d d.padChar tmp.length 0 (putBackwards out tmp) ctx

/-- `%p`. -/
def putPointer (out : Sink σ) (arg : VaArg) (ctx : σ) : σ :=
  let ctx := out 120 (out 48 ctx)
  if arg.word = 0 then out 48 ctx else printNum out arg.word.toNat 16 false ctx

/-- The conversions that read an argument. -/
def putArg (out : Sink σ) (junk : UInt8) (d : Conversion) (arg : VaArg) (ctx : σ) : Option σ :=
  if d.conv = 115 then putString out d arg ctx
  else if d.conv = 100 ∨ d.conv = 105 then putSigned out junk d arg ctx
  else if d.conv = 117 then some (putUnsigned out decDigit 10 d arg ctx)
  else if d.conv = 120 ∨
    d.conv = 88 then some (putUnsigned out (hexDigit (d.conv = 88)) 16 d arg ctx)
  else if d.conv = 112 then some (putPointer out arg ctx)
  else some (out (UInt8.ofNat arg.word.toNat) ctx)

/-- The `switch` of the conversions: the arguments that are left, and the context. -/
def convert (out : Sink σ) (junk : UInt8) (d : Conversion) (ap : List VaArg) (ctx : σ) :
    Option (List VaArg × σ) :=
  if d.conv ∈ [115, 100, 105, 117, 120, 88, 112, 99] then
    match ap with
    | [] => none
    | arg :: ap => (putArg out junk d arg ctx).map fun ctx => (ap, ctx)
  else if d.conv = 37 then some (ap, out 37 ctx)
  else some (ap, out d.conv (out 37 ctx))

theorem scanFlag_length (c : UInt8) (fmt : List UInt8) :
    (scanFlag c fmt).2.length ≤ fmt.length := by
  unfold scanFlag
  split_ifs
  · exact (List.drop_sublist 1 fmt).length_le
  · exact le_refl _

theorem scanPad_length (fmt : List UInt8) : (scanPad fmt).2.length ≤ fmt.length := by
  unfold scanPad
  split_ifs
  · exact (List.dropWhile_sublist _).length_le
  · exact le_refl _

theorem scanLong_length (fmt : List UInt8) : (scanLong fmt).2.length ≤ fmt.length :=
  (List.dropWhile_sublist _).length_le

theorem scanConversion_length {fmt rest : List UInt8} {d : Conversion}
    (h : scanConversion fmt = some (d, rest)) : rest.length < fmt.length := by
  have hleft := scanFlag_length 45 fmt
  have hzero := scanFlag_length 48 (scanFlag 45 fmt).2
  have hpad := scanPad_length (scanFlag 48 (scanFlag 45 fmt).2).2
  have hlong := scanLong_length (scanPad (scanFlag 48 (scanFlag 45 fmt).2).2).2
  unfold scanConversion at h
  dsimp only at h
  have hall := hlong.trans (hpad.trans (hzero.trans hleft))
  generalize (scanLong (scanPad (scanFlag 48 (scanFlag 45 fmt).2).2).2).2 = fmt' at h hall
  cases fmt' with
  | nil => cases h
  | cons conv fmt' =>
    dsimp only at h
    rw [List.length_cons] at hall
    split at h
    · cases h
    · cases h
      exact hall

/-- `vcb_printf`.  `junk n` is what is in `tmp[0]` at the conversion that `n` bytes of the
format follow. -/
def vcbPrintf (out : Sink σ) (junk : Nat → UInt8) (fmt : List UInt8) (ap : List VaArg) (ctx : σ) :
    Option σ :=
  match fmt with
  | [] => some ctx
  | c :: fmt =>
    if c ≠ 37 then vcbPrintf out junk fmt ap (out c ctx)
    else
      match _hscan : scanConversion fmt with
      | none => none
      | some (d, rest) =>
        match convert out (junk rest.length) d ap ctx with
        | none => none
        | some (ap, ctx) => vcbPrintf out junk rest ap ctx
termination_by fmt.length
decreasing_by
  · exact Nat.lt_succ_self _
  · exact Nat.lt_succ_of_lt (scanConversion_length _hscan)

theorem vcbPrintf_char {out : Sink σ} {junk : Nat → UInt8} {c : UInt8} (hc : c ≠ 37)
    (fmt : List UInt8)
    (ap : List VaArg) (ctx : σ) :
    vcbPrintf out junk (c :: fmt) ap ctx = vcbPrintf out junk fmt ap (out c ctx) := by
  rw [vcbPrintf, if_pos hc]

theorem vcbPrintf_percent (out : Sink σ) (junk : Nat → UInt8) (fmt : List UInt8) (ap : List VaArg)
    (ctx : σ) :
    vcbPrintf out junk (37 :: fmt) ap ctx =
      (scanConversion fmt).bind fun r => (convert out (junk r.2.length) r.1 ap ctx).bind fun q =>
        vcbPrintf out junk r.2 q.1 q.2 := by
  rw [vcbPrintf, if_neg (by decide)]
  split
  next hscan => rw [hscan, Option.bind_none]
  next d rest hscan =>
    rw [hscan, Option.bind_some]
    split
    next hconv => rw [hconv, Option.bind_none]
    next hconv => rw [hconv, Option.bind_some]

/-- The characters that are handed to the sink. -/
def output (junk : Nat → UInt8) (fmt : List UInt8) (ap : List VaArg) : Option (List UInt8) :=
  vcbPrintf (fun c l => l ++ [c]) junk fmt ap []

/-! ## Sinks -/

section Sinks

variable {out : Sink σ} {out' : Sink τ} {h : σ → τ} {d : Conversion} {arg : VaArg} {ctx : σ}
  (hom : ∀ c ctx, h (out c ctx) = out' c (h ctx))
include hom

theorem putTimes_hom (c : UInt8) (n : Nat) (ctx : σ) :
    putTimes out' c n (h ctx) = h (putTimes out c n ctx) := by
  have hsemi : Function.Semiconj h (out c) (out' c) := fun ctx => hom c ctx
  exact ((hsemi.iterate_right n) ctx).symm

theorem printStr_hom (s : List UInt8) (ctx : σ) :
    printStr out' s (h ctx) = h (printStr out s ctx) :=
  List.foldl_hom h fun ctx c => (hom c ctx).symm

theorem putBackwards_hom (tmp : List UInt8) (ctx : σ) :
    putBackwards out' tmp (h ctx) = h (putBackwards out tmp ctx) :=
  List.foldr_hom h fun c ctx => (hom c ctx).symm

theorem padded_hom {body : σ → σ} {body' : τ → τ} (hbody : ∀ ctx, body' (h ctx) = h (body ctx))
    (padChar : UInt8) (len rest : Nat) (ctx : σ) :
    padded out' d padChar len rest body' (h ctx) = h (padded out d padChar len rest body ctx) := by
  unfold padded
  dsimp only
  split_ifs <;> simp only [putTimes_hom hom, hbody]

theorem putSigned_hom (junk : UInt8) (ctx : σ) :
    putSigned out' junk d arg (h ctx) = (putSigned out junk d arg ctx).map h := by
  unfold putSigned
  dsimp only
  split_ifs with hmin hneg
  · rfl
  · refine congrArg some (padded_hom hom (fun ctx => ?_) _ _ _ _)
    rw [← hom, putBackwards_hom hom]
  · exact congrArg some (padded_hom hom (putBackwards_hom hom _) _ _ _ _)

theorem putArg_hom (junk : UInt8) (ctx : σ) :
    putArg out' junk d arg (h ctx) = (putArg out junk d arg ctx).map h := by
  have hunsigned : ∀ digit base, some (putUnsigned out' digit base d arg (h ctx)) =
      (some (putUnsigned out digit base d arg ctx)).map h := by
    intro digit base
    exact congrArg some (padded_hom hom (putBackwards_hom hom _) _ _ _ _)
  unfold putArg
  split_ifs
  · unfold putString
    dsimp only
    split
    · rfl
    · exact congrArg some (padded_hom hom (printStr_hom hom _) _ _ _ _)
  · exact putSigned_hom hom junk ctx
  · exact hunsigned _ _
  · exact hunsigned _ _
  · unfold putPointer
    dsimp only
    rw [Option.map_some, ← hom, ← hom]
    split
    · exact congrArg some (hom 48 _).symm
    · exact congrArg some (putBackwards_hom hom _ _)
  · rw [Option.map_some, hom]

theorem convert_hom (junk : UInt8) (ap : List VaArg) (ctx : σ) :
    convert out' junk d ap (h ctx) = (convert out junk d ap ctx).map (Prod.map id h) := by
  unfold convert
  split_ifs
  · cases ap with
    | nil => rfl
    | cons arg ap =>
      dsimp only
      rw [putArg_hom hom, Option.map_map, Option.map_map]
      rfl
  · simp only [Option.map_some, Prod.map_apply, id_eq, hom]
  · simp only [Option.map_some, Prod.map_apply, id_eq, hom]

/-- The formatter does not look at the context. -/
theorem vcbPrintf_hom (junk : Nat → UInt8) (fmt : List UInt8) (ap : List VaArg) (ctx : σ) :
    vcbPrintf out' junk fmt ap (h ctx) = (vcbPrintf out junk fmt ap ctx).map h := by
  fun_induction vcbPrintf out junk fmt ap ctx with
  | case1 ap ctx =>
    rw [vcbPrintf]
    rfl
  | case2 ap ctx c fmt hc ih =>
    rw [vcbPrintf_char hc, ← hom]
    exact ih
  | case3 ap ctx c fmt hc hscan =>
    obtain rfl := not_not.mp hc
    rw [vcbPrintf_percent, hscan]
    rfl
  | case4 ap ctx c fmt hc d rest hscan hconv =>
    obtain rfl := not_not.mp hc
    rw [vcbPrintf_percent, hscan, Option.bind_some, convert_hom hom, hconv]
    rfl
  | case5 ap ctx c fmt hc d rest hscan ap' ctx' hconv ih =>
    obtain rfl := not_not.mp hc
    rw [vcbPrintf_percent, hscan, Option.bind_some, convert_hom hom, hconv, Option.map_some,
      Option.bind_some]
    exact ih

end Sinks

/-- What a sink is left with, from what the formatter hands it. -/
theorem vcbPrintf_eq_output (out : Sink σ) (junk : Nat → UInt8) (fmt : List UInt8)
    (ap : List VaArg) (ctx : σ) :
    vcbPrintf out junk fmt ap ctx = (output junk fmt ap).map fun l => printStr out l ctx := by
  have hom : ∀ c l, printStr out (l ++ [c]) ctx = out c (printStr out l ctx) := by
    intro c l
    exact List.foldl_concat _ _ _ _
  exact vcbPrintf_hom (h := fun l => printStr out l ctx) hom junk fmt ap []

/-! ## `vsnprintf` -/

/-- `struct strbuf`, with the buffer as the trace of its stores. -/
structure StrBuf where
  stores : List ByteStore
  pos : Nat
  max : Nat

/-- `strbuf_out`. -/
def strbufOut : Sink StrBuf := fun c sb =>
  { sb with stores := if sb.pos < sb.max then sb.stores ++ [(sb.pos, c)] else sb.stores,
            pos := u64 (sb.pos + 1) }

/-- `vsnprintf`: the return value, and the stores to the buffer. -/
def vsnprintf (junk : Nat → UInt8) (n : Nat) (fmt : List UInt8) (ap : List VaArg) :
    Option (Int × List ByteStore) :=
  match vcbPrintf strbufOut junk fmt ap
    { stores := [], pos := 0, max := if n > 0 then n - 1 else 0 } with
  | none => none
  | some sb =>
    some (s32 sb.pos, if n > 0 then sb.stores ++ [(if sb.pos < n then sb.pos else n - 1, 0)]
      else sb.stores)

/-- The sink stores a prefix and counts everything. -/
theorem printStr_strbufOut (l : List UInt8) (sb : StrBuf) (hpos : sb.pos + l.length < 2 ^ 64) :
    printStr strbufOut l sb =
      { sb with stores := sb.stores ++ storesAt sb.pos (l.take (sb.max - sb.pos)),
                pos := sb.pos + l.length } := by
  induction l generalizing sb with
  | nil =>
    rw [List.take_nil]
    show sb = { sb with stores := sb.stores ++ [] }
    rw [List.append_nil]
  | cons c l ih =>
    rw [List.length_cons] at hpos
    have hnext : u64 (sb.pos + 1) = sb.pos + 1 := u64_of_lt (by omega)
    show printStr strbufOut l (strbufOut c sb) = _
    rw [ih (strbufOut c sb) (by show u64 _ + _ < _; omega)]
    unfold strbufOut
    dsimp only
    rw [hnext, List.length_cons, Nat.add_right_comm]
    by_cases hroom : sb.pos < sb.max
    · obtain ⟨k, hk⟩ : ∃ k, sb.max - sb.pos = k + 1 := ⟨sb.max - sb.pos - 1, by omega⟩
      rw [if_pos hroom, hk, List.take_succ_cons, storesAt, hnext, List.append_assoc,
        show sb.max - (sb.pos + 1) = k by omega]
      rfl
    · rw [if_neg hroom, Nat.sub_eq_zero_of_le (by omega), Nat.sub_eq_zero_of_le (by omega)]
      rfl

/-- `vsnprintf` returns the length of the output, stores nothing outside of the buffer and
leaves as much of the output in it as there is room for, with a zero behind it. -/
theorem vsnprintf_spec (junk : Nat → UInt8) (n : Nat) (fmt : List UInt8) (ap : List VaArg)
    {l : List UInt8}
    (hl : output junk fmt ap = some l) (hlen : l.length < 2 ^ 31) :
    ∃ stores, vsnprintf junk n fmt ap = some ((l.length : Int), stores) ∧
        (∀ w ∈ stores, w.1 < n) ∧
      (0 < n → ∀ m : Mem,
        runStores m stores = wrBytes m 0 (l.take (min l.length (n - 1)) ++ [0])) := by
  have hrun :=
    printStr_strbufOut l { stores := [], pos := 0, max := if n > 0 then n - 1 else 0 }
    (by dsimp only; omega)
  unfold vsnprintf
  rw [vcbPrintf_eq_output, hl, Option.map_some, hrun]
  dsimp only
  rw [List.nil_append, zero_add, Nat.sub_zero, s32_of_lt hlen]
  by_cases hn : n > 0
  · rw [if_pos hn, if_pos hn]
    -- The zero is stored right behind the prefix.
    have hend : (if l.length < n then l.length else n - 1) = 0 + (l.take (n - 1)).length := by
      rw [List.length_take]
      split_ifs <;> omega
    have hfit : 0 + (l.take (n - 1)).length < 2 ^ 64 := by
      rw [List.length_take]
      omega
    rw [hend, ← storesAt_concat hfit]
    have hbound : 0 + (l.take (n - 1) ++ [(0 : UInt8)]).length ≤ 2 ^ 64 := by
      rw [List.length_append, List.length_singleton]
      omega
    refine ⟨_, rfl, fun w hw => ?_, fun _ m => ?_⟩
    · obtain ⟨-, hlt⟩ := range_of_mem_storesAt hbound hw
      rw [List.length_append, List.length_singleton, List.length_take] at hlt
      omega
    · rw [runStores_eq_wrBytes hbound, List.take_eq_take_min (i := n - 1) (l := l), min_comm]
  · rw [if_neg hn, if_neg hn]
    exact ⟨_, rfl, fun w hw => absurd hw List.not_mem_nil, fun hpos => absurd hpos hn⟩

/-- `"%%"` printed into two bytes. -/
theorem vsnprintf_percent :
    output (fun _ => 0) [37, 37] [] = some [37] ∧ [(37 : UInt8)].length < 2 ^ 31 ∧
    ∃ stores, vsnprintf (fun _ => 0) 2 [37, 37] [] = some (((1 : Nat) : Int), stores) ∧
        (∀ w ∈ stores, w.1 < 2) ∧
      (0 < 2 → ∀ m : Mem, runStores m stores = wrBytes m 0 [37, 0]) := by
  have hl : output (fun _ => 0) [37, 37] [] = some [37] := by
    unfold output
    rw [vcbPrintf_percent]
    show vcbPrintf _ _ [] _ _ = _
    rw [vcbPrintf]
    rfl
  exact ⟨hl, by decide, vsnprintf_spec _ 2 _ _ hl (by decide)⟩

end Lumin.Libc.Printf
