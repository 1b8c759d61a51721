import Lumin.Lib.Stores
import Lumin.Proc.UserStack

/-!
# The stores of `setup_user_stack`

`setup_user_stack` of `kernel/proc/task.c` as the trace of its byte stores.  `argc` and
`argv` come from the program that calls `SYS_EXEC` or `SYS_SPAWN`: the count may be
negative, and `argv` and each of its entries may be `NULL`.

The function takes `off` down by the size of each thing that it pushes and never compares
it with anything.  The trace is that of `pushAll`, so that the stores stay in the page
exactly if everything has room there (`syscallStores_inside_iff`), and then the page has
the layout that a program expects (`setupUserStackOf_laidOut`).
-/

namespace Lumin.Proc

open Lumin.Lib Lumin.Mm

/-! ## The function -/

/-- `char **argv` with its strings, which are given without their terminators. -/
abbrev Argv := Option (Nat → Option (List UInt8))

/-- `argv && argv[i] ? argv[i] : ""`. -/
def argString (argv : Argv) (i : Nat) : List UInt8 :=
  match argv with
  | none => []
  | some entry => (entry i).getD []

/-- `str_len`. -/
def strLen (s : List UInt8) : Nat := s.length

/-- `str_cpy`. -/
def strCpy (dst : Nat) : List UInt8 → List ByteStore
  | [] => [(dst, 0)]
  | c :: src => (dst, c) :: strCpy (u64 (dst + 1)) src

/-- The locals of `setup_user_stack` and the stores up to now. -/
structure StackBuild where
  off : Nat
  argStringOffsets : Nat → Nat
  stores : List ByteStore

/-- `off -= 8` and the store of a word there. -/
def StackBuild.push (phys : Nat) (b : StackBuild) (v : Nat) : StackBuild :=
  let off := sub64 b.off 8
  { b with off := off, stores := b.stores ++ storesAt (u64 (phys + off)) (wordBytes v) }

/-- The first loop, with `i` strings to go. -/
def copyStrings (phys usVaddr : Nat) (argv : Argv) : StackBuild → Nat → StackBuild
  | b, 0 => b
  | b, i + 1 =>
    let s := argString argv i
    let off := sub64 b.off (strLen s + 1)
    copyStrings phys usVaddr argv
      { off := off
        argStringOffsets :=
          Function.update b.argStringOffsets i (u64 (sub64 usVaddr 0x1000 + off))
        stores := b.stores ++ strCpy (u64 (phys + off)) s } i

/-- The second loop. -/
def copyPointers (phys : Nat) (argStringOffsets : Nat → Nat) : StackBuild → Nat → StackBuild
  | b, 0 => b
  | b, i + 1 => copyPointers phys argStringOffsets (b.push phys (argStringOffsets i)) i

/-- `if (argc > 64) argc = 64`. -/
def clampArgc (argc : Int) : Int := if argc > 64 then 64 else argc

/-- `setup_user_stack`: its stores and `*out_rsp`. -/
def setupUserStackOf (phys usVaddr : Nat) (argc : Int) (argv : Argv) : List ByteStore × Nat :=
  let argc := clampArgc argc
  let b : StackBuild := { off := 0x1000, argStringOffsets := fun _ => 0, stores := [] }
  let b := copyStrings phys usVaddr argv b argc.toNat
  let argStringOffsets := b.argStringOffsets
  let b := b.push phys 0
  let b := copyPointers phys argStringOffsets b argc.toNat
  let b := b.push phys (argc % 2 ^ 64).toNat
  (b.stores, u64 (sub64 usVaddr 0x1000 + b.off))

/-- The stores for `argc` and `argv` as `SYS_EXEC` and `SYS_SPAWN` find them in the
registers. -/
def syscallStores (phys rsi : Nat) (argv : Argv) : List ByteStore :=
  (setupUserStackOf phys US_VADDR (s32 rsi) argv).1

/-! ## What is pushed -/

-- Comparing two states must not evaluate their offsets.
attribute [local irreducible] StackBuild.push u64 sub64

/-- The strings below `n` with their terminators, the last one first. -/
def stringItems (argv : Argv) : Nat → List (List UInt8)
  | 0 => []
  | i + 1 => (argString argv i ++ [0]) :: stringItems argv i

/-- The words below `n`, the last one first. -/
def wordItems (v : Nat → Nat) : Nat → List (List UInt8)
  | 0 => []
  | i + 1 => wordBytes (v i) :: wordItems v i

/-- The bytes of the strings below `n` with their terminators. -/
def stringBytes (argv : Argv) (n : Nat) : Nat :=
  ∑ i ∈ Finset.range n, ((argString argv i).length + 1)

variable {phys usVaddr rsi n i : Nat} {argc : Int} {argv : Argv} {v : Nat → Nat} {b : StackBuild}
  {m : Mem}

theorem strCpy_eq (dst : Nat) (s : List UInt8) : strCpy dst s = storesAt dst (s ++ [0]) := by
  induction s generalizing dst with
  | nil => rfl
  | cons c s ih =>
    rw [strCpy, ih]
    rfl

theorem pushedBytes_stringItems (argv : Argv) (n : Nat) :
    pushedBytes (stringItems argv n) = stringBytes argv n := by
  unfold stringBytes
  induction n with
  | zero => rfl
  | succ n ih =>
    rw [stringItems, pushedBytes_cons, ih, Finset.sum_range_succ, List.length_append,
      Nat.add_comm]
    rfl

theorem pushedBytes_wordItems (v : Nat → Nat) (n : Nat) :
    pushedBytes (wordItems v n) = 8 * n := by
  induction n with
  | zero => rfl
  | succ n ih =>
    rw [wordItems, pushedBytes_cons, ih, length_wordBytes]
    omega

/-- From `b` to `b'` the items are pushed. -/
structure Pushes (phys : Nat) (b b' : StackBuild) (items : List (List UInt8)) : Prop where
  off : b'.off = pushEnd b.off items
  stores : b'.stores = b.stores ++ pushAll phys b.off items

theorem Pushes.trans {b₁ b' : StackBuild} {xs ys : List (List UInt8)} (h : Pushes phys b b₁ xs)
    (h' : Pushes phys b₁ b' ys) : Pushes phys b b' (xs ++ ys) := by
  constructor
  · rw [h'.off, h.off, pushEnd_append]
  · rw [h'.stores, h.stores, h.off, List.append_assoc, pushAll_append]

theorem pushes_push (phys : Nat) (b : StackBuild) (v : Nat) :
    Pushes phys b (b.push phys v) [wordBytes v] := by
  unfold StackBuild.push
  constructor
  · rw [pushEnd_cons, length_wordBytes, pushEnd_nil]
  · rw [pushAll_cons, length_wordBytes, pushAll_nil, List.append_nil]

theorem copyStrings_pushes (phys usVaddr : Nat) (argv : Argv) (n : Nat) (b : StackBuild) :
    Pushes phys b (copyStrings phys usVaddr argv b n) (stringItems argv n) := by
  induction n generalizing b with
  | zero => exact ⟨rfl, (List.append_nil _).symm⟩
  | succ n ih =>
    have hlen : strLen (argString argv n) + 1 = (argString argv n ++ [0]).length := by
      rw [List.length_append, strLen, List.length_singleton]
    rw [copyStrings, hlen, strCpy_eq]
    constructor
    · rw [stringItems, pushEnd_cons]
      generalize sub64 b.off (argString argv n ++ [0]).length = off
      exact (ih _).off
    · rw [stringItems, pushAll_cons, ← List.append_assoc]
      generalize sub64 b.off (argString argv n ++ [0]).length = off
      exact (ih _).stores

theorem copyPointers_succ (phys n : Nat) (offsets : Nat → Nat) (b : StackBuild) :
    copyPointers phys offsets b (n + 1) = copyPointers phys offsets (b.push phys (offsets n)) n :=
      rfl

theorem copyPointers_pushes (phys n : Nat) (offsets : Nat → Nat) (b : StackBuild) :
    Pushes phys b (copyPointers phys offsets b n) (wordItems offsets n) := by
  induction n generalizing b with
  | zero => exact ⟨rfl, (List.append_nil _).symm⟩
  | succ n ih =>
    rw [copyPointers_succ, wordItems, ← List.singleton_append]
    exact (pushes_push phys b (offsets n)).trans (ih _)

theorem stringBytes_succ (argv : Argv) (n : Nat) :
    stringBytes argv (n + 1) = stringBytes argv n + ((argString argv n).length + 1) :=
  Finset.sum_range_succ _ n

theorem stringBytes_mono (argv : Argv) {i n : Nat} (h : i ≤ n) :
    stringBytes argv i ≤ stringBytes argv n :=
  Finset.sum_le_sum_of_subset (Finset.range_mono h)

/-- The addresses that the first loop keeps, if there is room for the strings. -/
theorem copyStrings_offsets (phys usVaddr : Nat) (argv : Argv) (n : Nat) (b : StackBuild)
    (hoff : b.off < 2 ^ 64)
    (hfit : stringBytes argv n ≤ b.off) :
    (∀ i < n, (copyStrings phys usVaddr argv b n).argStringOffsets i =
        u64 (sub64 usVaddr 0x1000 + (b.off - (stringBytes argv n - stringBytes argv i)))) ∧
      ∀ i, n ≤ i →
          (copyStrings phys usVaddr argv b n).argStringOffsets i = b.argStringOffsets i := by
  induction n generalizing b with
  | zero => exact ⟨fun i hi => absurd hi (Nat.not_lt_zero _), fun _ _ => rfl⟩
  | succ n ih =>
    rw [stringBytes_succ] at hfit
    have hsub : sub64 b.off (strLen (argString argv n) + 1) =
        b.off - ((argString argv n).length + 1) := by
      rw [strLen, sub64_of_le hoff (by omega)]
    rw [copyStrings, hsub]
    generalize hpage : sub64 usVaddr 0x1000 = page at ih ⊢
    obtain ⟨hbelow, habove⟩ := ih
      { off := b.off - ((argString argv n).length + 1)
        argStringOffsets := Function.update b.argStringOffsets n
          (u64 (page + (b.off - ((argString argv n).length + 1))))
        stores := b.stores ++ strCpy (u64 (phys + (b.off - ((argString argv n).length + 1))))
          (argString argv n) }
      (Nat.lt_of_le_of_lt (Nat.sub_le _ _) hoff) (Nat.le_sub_of_add_le hfit)
    dsimp only at hbelow habove ⊢
    rw [stringBytes_succ]
    constructor
    · intro i hi
      rcases Nat.lt_succ_iff_lt_or_eq.mp hi with hlt | rfl
      · have hle := stringBytes_mono argv hlt.le
        rw [hbelow i hlt]
        congr 2
        omega
      · rw [habove i (le_refl _), Function.update_self]
        congr 2
        omega
    · intro i hi
      rw [habove i (by omega), Function.update_of_ne (by omega)]

/-- All that is pushed for `n` strings. -/
def stackItems (argv : Argv) (n : Nat) (offsets : Nat → Nat) (count : Nat) : List (List UInt8) :=
  stringItems argv n ++ wordBytes 0 :: (wordItems offsets n ++ [wordBytes count])

theorem pushedBytes_stackItems (argv : Argv) (n : Nat) (offsets : Nat → Nat) (count : Nat) :
    pushedBytes (stackItems argv n offsets count) = stringBytes argv n + 8 * (n + 2) := by
  unfold stackItems
  rw [pushedBytes_append, pushedBytes_stringItems, pushedBytes_cons, pushedBytes_append,
    pushedBytes_wordItems,
    length_wordBytes, pushedBytes_cons, length_wordBytes]
  show stringBytes argv n + (8 + (8 * n + (8 + 0))) = _
  omega

theorem stringItems_ne_nil {bs : List UInt8} (h : bs ∈ stringItems argv n) : bs ≠ [] := by
  induction n with
  | zero => exact absurd h List.not_mem_nil
  | succ n ih =>
    rcases List.mem_cons.mp h with rfl | h
    · exact List.append_ne_nil_of_right_ne_nil _ (List.cons_ne_nil _ _)
    · exact ih h

theorem wordBytes_ne_nil (v : Nat) : wordBytes v ≠ [] := by
  intro h
  have hlen := length_wordBytes v
  rw [h] at hlen
  cases hlen

theorem wordItems_ne_nil {bs : List UInt8} (h : bs ∈ wordItems v n) : bs ≠ [] := by
  induction n with
  | zero => exact absurd h List.not_mem_nil
  | succ n ih =>
    rcases List.mem_cons.mp h with rfl | h
    · exact wordBytes_ne_nil _
    · exact ih h

theorem stackItems_ne_nil {offsets : Nat → Nat} {count : Nat} {bs : List UInt8}
    (h : bs ∈ stackItems argv n offsets count) : bs ≠ [] := by
  unfold stackItems at h
  rcases List.mem_append.mp h with h | h
  · exact stringItems_ne_nil h
  · rcases List.mem_cons.mp h with rfl | h
    · exact wordBytes_ne_nil 0
    · rcases List.mem_append.mp h with h | h
      · exact wordItems_ne_nil h
      · obtain rfl := List.mem_singleton.mp h
        exact wordBytes_ne_nil count

/-- The addresses of the strings. -/
def stringOffsets (phys usVaddr : Nat) (argv : Argv) (n : Nat) : Nat → Nat :=
  (copyStrings phys usVaddr argv { off := 0x1000, argStringOffsets := fun _ => 0, stores := [] }
    n).argStringOffsets

/-- The function pushes these things and nothing else. -/
theorem setupUserStackOf_eq (phys usVaddr : Nat) (argc : Int) (argv : Argv) :
    let n := (clampArgc argc).toNat
    let items :=
      stackItems argv n (stringOffsets phys usVaddr argv n) (clampArgc argc % 2 ^ 64).toNat
    setupUserStackOf phys usVaddr argc argv =
      (pushAll phys 0x1000 items, u64 (sub64 usVaddr 0x1000 + pushEnd 0x1000 items)) := by
  intro n items
  have hstrings := copyStrings_pushes phys usVaddr argv n
    { off := 0x1000, argStringOffsets := fun _ => 0, stores := [] }
  have hitems :
      items = stringItems argv n ++ [wordBytes 0] ++
      wordItems (stringOffsets phys usVaddr argv n) n ++
      [wordBytes (clampArgc argc % 2 ^ 64).toNat] := by
    simp [items, stackItems]
  unfold setupUserStackOf
  dsimp only
  rw [hitems]
  unfold stringOffsets
  generalize copyStrings phys usVaddr argv _ n = b at hstrings ⊢
  have hall := ((hstrings.trans (pushes_push phys b 0)).trans
    (copyPointers_pushes phys n b.argStringOffsets (b.push phys 0))).trans
      (pushes_push phys _ (clampArgc argc % 2 ^ 64).toNat)
  exact Prod.ext hall.stores (congrArg (fun off => u64 (sub64 usVaddr 0x1000 + off)) hall.off)

/-! ## Inside the page -/

/-- The stores stay in the page exactly if everything has room in it. -/
theorem setupUserStackOf_inside_iff (phys usVaddr : Nat) (argc : Int) (argv : Argv)
    (hphys : IsFrame phys) :
    (∀ w ∈ (setupUserStackOf phys usVaddr argc argv).1, phys ≤ w.1 ∧ w.1 < phys + 0x1000) ↔
      stringBytes argv (clampArgc argc).toNat + 8 * ((clampArgc argc).toNat + 2) ≤ 0x1000 := by
  obtain ⟨hmod, hpos, hlt⟩ := hphys
  rw [setupUserStackOf_eq]
  dsimp only
  rw [pushAll_inside_iff hpos (by omega) (le_refl _) fun bs hbs => stackItems_ne_nil hbs,
    pushedBytes_stackItems]

/-- Whatever a program passes, the stores stay in the page of the stack exactly if the
strings, with a pointer for each, `NULL` and the count, have room in it. -/
theorem syscallStores_inside_iff (phys rsi : Nat) (argv : Argv) (hphys : IsFrame phys) :
    (∀ w ∈ syscallStores phys rsi argv, phys ≤ w.1 ∧ w.1 < phys + 0x1000) ↔
      stringBytes argv (clampArgc (s32 rsi)).toNat + 8 * ((clampArgc (s32 rsi)).toNat + 2) ≤
        0x1000 :=
  setupUserStackOf_inside_iff phys US_VADDR (s32 rsi) argv hphys

/-- `argv = { "ab", NULL }` and a count of two. -/
theorem syscallStores_inside_iff_two :
    (∀ w ∈ syscallStores 0x200000 2 (some fun i => if i = 0 then some [97, 98] else none),
        0x200000 ≤ w.1 ∧ w.1 < 0x200000 + 0x1000) ↔
      stringBytes (some fun i => if i = 0 then some [97, 98] else none)
        (clampArgc (s32 2)).toNat +
        8 * ((clampArgc (s32 2)).toNat + 2) ≤ 0x1000 :=
  syscallStores_inside_iff 0x200000 2 _ (by decide)

/-- One string of a page. -/
theorem longString_outside :
    ¬ ∀ w ∈ syscallStores 0x200000 1 (some fun _ => some (List.replicate 4096 97)),
      0x200000 ≤ w.1 ∧ w.1 < 0x200000 + 0x1000 := by
  unfold syscallStores
  rw [setupUserStackOf_inside_iff 0x200000 US_VADDR _ _ (by decide)]
  decide +kernel

/-! ## The layout -/

/-- The offset in the page that pointer `i` of a stack leads to. -/
def stringAt (m : Mem) (phys page rsp i : Nat) : Nat :=
  sub64 (rdLE m (phys + sub64 rsp page + 8 * (i + 1)) 8) page

/-- The stack of `argc` and `argv` at `rsp`, in the page that is at `phys` in memory and at
`page` for the program: the count, the pointers and `NULL`, and the strings above them. -/
structure StackLayout (argc : Int) (argv : Argv) (m : Mem) (phys page rsp : Nat) : Prop where
  room : sub64 rsp page + 8 * (argc.toNat + 2) ≤ 0x1000
  count : (rdLE m (phys + sub64 rsp page) 8 : Int) = argc % 2 ^ 64
  null : rdLE m (phys + sub64 rsp page + 8 * (argc.toNat + 1)) 8 = 0
  string : ∀ i < argc.toNat, ∀ k (hk : k < (argString argv i ++ [0]).length),
    m (phys + stringAt m phys page rsp i + k) = (argString argv i ++ [0])[k]
  above : ∀ i < argc.toNat, sub64 rsp page + 8 * (argc.toNat + 2) ≤ stringAt m phys page rsp i ∧
    stringAt m phys page rsp i + ((argString argv i).length + 1) ≤ 0x1000
  apart : ∀ i j, i < j → j < argc.toNat →
    stringAt m phys page rsp i + ((argString argv i).length + 1) ≤ stringAt m phys page rsp j

theorem sub64_u64_add (a : Nat) {k : Nat} (hk : k < 2 ^ 64) : sub64 (u64 (a + k)) a = k := by
  unfold sub64 u64
  omega

theorem u64_mod (x : Nat) : u64 x % 2 ^ 64 = u64 x := by
  unfold u64
  exact Nat.mod_mod _ _

/-- String `i` is pushed after those behind it. -/
theorem stringItems_split (argv : Argv) (hi : i < n) :
    ∃ xs, stringItems argv n = xs ++ (argString argv i ++ [0]) :: stringItems argv i ∧
      pushedBytes (xs ++ [argString argv i ++ [0]]) =
        stringBytes argv n - stringBytes argv i := by
  have hsplit :
      ∃ xs, stringItems argv n = xs ++ (argString argv i ++ [0]) :: stringItems argv i := by
    induction n with
    | zero => exact absurd hi (Nat.not_lt_zero _)
    | succ n ih =>
      rcases Nat.lt_succ_iff_lt_or_eq.mp hi with hlt | rfl
      · obtain ⟨xs, hxs⟩ := ih hlt
        exact ⟨(argString argv n ++ [0]) :: xs, by rw [stringItems, hxs, List.cons_append]⟩
      · exact ⟨[], rfl⟩
  obtain ⟨xs, hxs⟩ := hsplit
  have htotal := pushedBytes_stringItems argv n
  rw [hxs, List.append_cons, pushedBytes_append, pushedBytes_stringItems] at htotal
  exact ⟨xs, hxs, by omega⟩

theorem wordItems_split (hi : i < n) :
    ∃ xs, wordItems v n = xs ++ wordBytes (v i) :: wordItems v i ∧
      pushedBytes (xs ++ [wordBytes (v i)]) = 8 * (n - i) := by
  have hsplit : ∃ xs, wordItems v n = xs ++ wordBytes (v i) :: wordItems v i := by
    induction n with
    | zero => exact absurd hi (Nat.not_lt_zero _)
    | succ n ih =>
      rcases Nat.lt_succ_iff_lt_or_eq.mp hi with hlt | rfl
      · obtain ⟨xs, hxs⟩ := ih hlt
        exact ⟨wordBytes (v n) :: xs, by rw [wordItems, hxs, List.cons_append]⟩
      · exact ⟨[], rfl⟩
  obtain ⟨xs, hxs⟩ := hsplit
  have htotal := pushedBytes_wordItems v n
  rw [hxs, List.append_cons, pushedBytes_append, pushedBytes_wordItems] at htotal
  exact ⟨xs, hxs, by omega⟩

/-- The words and the strings of a page into which the things for `n` strings are pushed. -/
theorem read_stackItems (m : Mem) (hphys : IsFrame phys) (offsets : Nat → Nat) (count : Nat)
    (hfit : stringBytes argv n + 8 * (n + 2) ≤ 0x1000) :
    let m' := runStores m (pushAll phys 0x1000 (stackItems argv n offsets count))
    let o := 0x1000 - (stringBytes argv n + 8 * (n + 2))
    rdLE m' (phys + o) 8 = count % 2 ^ 64 ∧ rdLE m' (phys + o + 8 * (n + 1)) 8 = 0 ∧
      (∀ i < n, rdLE m' (phys + o + 8 * (i + 1)) 8 = offsets i % 2 ^ 64) ∧
      ∀ i < n, ∀ k (hk : k < (argString argv i ++ [0]).length),
        m' (phys + (0x1000 - (stringBytes argv n - stringBytes argv i)) + k) =
          (argString argv i ++ [0])[k] := by
  intro m' o
  obtain ⟨hmod, hpos, hlt⟩ := hphys
  have htotal := pushedBytes_stackItems argv n offsets count
  obtain ⟨hplace, -⟩ := runStores_pushAll (m := m) (show phys + 0x1000 ≤ 2 ^ 64 by omega) hpos
    (fun bs hbs => stackItems_ne_nil hbs) (by rw [htotal]; exact hfit)
  -- A word of the stack, by what is pushed before it.
  have hword : ∀ xs w ys, stackItems argv n offsets count = xs ++ wordBytes w :: ys →
      ∀ a, a = phys + (0x1000 - (pushedBytes xs + 8)) → rdLE m' a 8 = w % 2 ^ 64 := by
    intro xs w ys hitems a ha
    have hone : pushedBytes (xs ++ [wordBytes w]) = pushedBytes xs + 8 := by
      rw [pushedBytes_append, pushedBytes_cons, length_wordBytes]
      rfl
    refine rdLE_of_wordBytes fun k hk => ?_
    rw [ha, ← hone]
    exact hplace xs _ ys hitems k hk
  have hstrings := pushedBytes_stringItems argv n
  have hwords := pushedBytes_wordItems offsets n
  have hnull : pushedBytes (stringItems argv n ++ [wordBytes 0]) = stringBytes argv n + 8 := by
    rw [pushedBytes_append, hstrings, pushedBytes_cons, length_wordBytes]
    rfl
  refine ⟨?_, ?_, fun i hi => ?_, fun i hi k hk => ?_⟩
  · refine hword (stringItems argv n ++ wordBytes 0 :: wordItems offsets n) count [] ?_ _ ?_
    · unfold stackItems
      rw [List.append_assoc, List.cons_append]
    · rw [List.append_cons, pushedBytes_append, hnull, hwords]
      omega
  · refine hword (stringItems argv n) 0 (wordItems offsets n ++ [wordBytes count]) rfl _ ?_
    rw [hstrings]
    omega
  · obtain ⟨xs, hxs, hbytes⟩ := wordItems_split (v := offsets) hi
    rw [pushedBytes_append, pushedBytes_cons, length_wordBytes] at hbytes
    refine hword (stringItems argv n ++ wordBytes 0 :: xs) (offsets i)
      (wordItems offsets i ++ [wordBytes count]) ?_ _ ?_
    · unfold stackItems
      rw [hxs]
      simp
    · have hzero : pushedBytes [] = 0 := rfl
      rw [List.append_cons, pushedBytes_append, hnull]
      omega
  · obtain ⟨xs, hxs, hbytes⟩ := stringItems_split argv hi
    rw [← hbytes]
    refine hplace xs _
      (stringItems argv i ++ wordBytes 0 :: (wordItems offsets n ++ [wordBytes count])) ?_ k hk
    unfold stackItems
    rw [hxs]
    simp

/-- With room for everything, `setup_user_stack` makes the layout and stores into the page
alone. -/
theorem setupUserStackOf_laidOut (m : Mem) (phys usVaddr : Nat) (argc : Int) (argv : Argv)
    (hphys : IsFrame phys)
    (hargc : argc ≤ 64) (hfit : (stringBytes argv argc.toNat : Int) + 8 * (argc + 2) ≤ 0x1000) :
    StackLayout argc argv (runStores m (setupUserStackOf phys usVaddr argc argv).1) phys
      (sub64 usVaddr 0x1000)
        (setupUserStackOf phys usVaddr argc argv).2 ∧
      ∀ w ∈ (setupUserStackOf phys usVaddr argc argv).1, phys ≤ w.1 ∧ w.1 < phys + 0x1000 := by
  have hclamp : clampArgc argc = argc := if_neg (by omega)
  have hroom : stringBytes argv argc.toNat + 8 * (argc.toNat + 2) ≤ 0x1000 := by
    rcases Int.lt_or_le argc 0 with hneg | hpos
    · rw [Int.toNat_of_nonpos hneg.le]
      have hnone : stringBytes argv 0 = 0 := rfl
      omega
    · omega
  rw [setupUserStackOf_eq]
  dsimp only
  rw [hclamp]
  obtain ⟨n, hn⟩ : ∃ n, n = argc.toNat := ⟨_, rfl⟩
  rw [← hn] at hroom ⊢
  obtain ⟨count, hcount⟩ : ∃ count, count = (argc % 2 ^ 64).toNat := ⟨_, rfl⟩
  rw [← hcount]
  have hoffsets := (copyStrings_offsets phys usVaddr argv n
    { off := 0x1000, argStringOffsets := fun _ => 0, stores := [] } (by decide)
    (by dsimp only; omega)).1
  have htotal := pushedBytes_stackItems argv n (stringOffsets phys usVaddr argv n) count
  obtain ⟨hread, hnull, hptr, hstring⟩ :=
    read_stackItems m hphys (stringOffsets phys usVaddr argv n) count hroom
  generalize sub64 usVaddr 0x1000 = page at hoffsets ⊢
  dsimp only at hread hnull hptr hstring hoffsets
  rw [pushEnd_of_le (by decide) (by omega), htotal]
  have hrsp : sub64 (u64 (page + (0x1000 - (stringBytes argv n + 8 * (n + 2))))) page =
      0x1000 - (stringBytes argv n + 8 * (n + 2)) := sub64_u64_add page (by omega)
  have hat : ∀ i < n, stringAt (runStores m (pushAll phys 0x1000 (stackItems argv n
      (stringOffsets phys usVaddr argv n) count))) phys page
      (u64 (page + (0x1000 - (stringBytes argv n + 8 * (n + 2))))) i =
      0x1000 - (stringBytes argv n - stringBytes argv i) := by
    intro i hi
    unfold stringAt
    rw [hrsp, hptr i hi, stringOffsets, hoffsets i hi, u64_mod, sub64_u64_add page (by omega)]
  constructor
  · have hlt : ∀ i < n, stringBytes argv i + ((argString argv i).length + 1) ≤
        stringBytes argv n := by
      intro i hi
      rw [← stringBytes_succ]
      exact stringBytes_mono argv hi
    refine { room := ?_, count := ?_, null := ?_, string := ?_, above := ?_, apart := ?_ }
    · rw [hrsp, ← hn]
      omega
    · rw [hrsp, hread, hcount]
      omega
    · rw [hrsp, ← hn]
      exact hnull
    · rw [← hn]
      intro i hi k hk
      rw [hat i hi]
      exact hstring i hi k hk
    · rw [← hn]
      intro i hi
      have := hlt i hi
      rw [hat i hi, hrsp]
      omega
    · rw [← hn]
      intro i j hij hj
      have hi := hlt i (by omega)
      have hmono : stringBytes argv i + ((argString argv i).length + 1) ≤ stringBytes argv j := by
        rw [← stringBytes_succ]
        exact stringBytes_mono argv hij
      have := hlt j hj
      rw [hat i (by omega), hat j hj]
      omega
  · obtain ⟨hmod, hpos, hlt⟩ := hphys
    rw [pushAll_inside_iff hpos (by omega) (le_refl _) fun bs hbs => stackItems_ne_nil hbs,
      htotal]
    exact hroom

/-- `argv = { "ab", NULL }` and a count of two. -/
theorem setupUserStackOf_laidOut_two :
    let argv : Argv := some fun i => if i = 0 then some [97, 98] else none
    StackLayout 2 argv (runStores (fun _ => 0xFF) (setupUserStackOf 0x200000 US_VADDR 2 argv).1)
      0x200000
        (sub64 US_VADDR 0x1000) (setupUserStackOf 0x200000 US_VADDR 2 argv).2 ∧
      ∀ w ∈ (setupUserStackOf 0x200000 US_VADDR 2 argv).1, 0x200000 ≤ w.1 ∧
          w.1 < 0x200000 + 0x1000 :=
  setupUserStackOf_laidOut (fun _ => 0xFF) 0x200000 US_VADDR 2 _ (by decide) (by decide)
      (by decide)

/-! ## Strings as a list -/

section ListArgs

variable {args : List (List UInt8)}

/-- `argv` of a list of strings. -/
def listArgv (args : List (List UInt8)) : Argv := some fun i => args[i]?

theorem argString_listArgv (hi : i < args.length) : argString (listArgv args) i = args[i] := by
  show args[i]?.getD [] = args[i]
  rw [List.getElem?_eq_getElem hi, Option.getD_some]

theorem stringItems_listArgv (hn : n ≤ args.length) :
    stringItems (listArgv args) n = ((args.take n).map fun s => s ++ [0]).reverse := by
  induction n with
  | zero => rfl
  | succ n ih =>
    rw [stringItems, ih (by omega), argString_listArgv (by omega),
      List.take_succ_eq_append_getElem (by omega),
      List.map_append, List.reverse_append]
    rfl

theorem pushedBytes_strings (args : List (List UInt8)) :
    pushedBytes (args.map fun s => s ++ [0]).reverse = argBytes args := by
  unfold pushedBytes argBytes
  rw [List.map_reverse, List.sum_reverse, List.map_map]
  congr 1
  exact List.map_congr_left fun s _ => List.length_append

theorem pushedBytes_words (ws : List Nat) :
    pushedBytes (ws.map wordBytes).reverse = 8 * ws.length := by
  have hlen : ws.map (List.length ∘ wordBytes) = ws.map fun _ => 8 :=
    List.map_congr_left fun v _ => length_wordBytes v
  unfold pushedBytes
  rw [List.map_reverse, List.sum_reverse, List.map_map, hlen, List.map_const', List.sum_replicate,
    smul_eq_mul,
    Nat.mul_comm]

/-- The bytes of the strings from `i` on. -/
theorem stringBytes_listArgv (hi : i ≤ args.length) :
    stringBytes (listArgv args) args.length = stringBytes (listArgv args) i +
      argBytes (args.drop i) := by
  induction i with
  | zero =>
    have hitems := pushedBytes_stringItems (listArgv args) args.length
    rw [stringItems_listArgv (le_refl _), List.take_length, pushedBytes_strings] at hitems
    rw [← hitems, List.drop_zero]
    exact (Nat.zero_add _).symm
  | succ i ih =>
    rw [ih (by omega), stringBytes_succ, argString_listArgv hi, List.drop_eq_getElem_cons hi,
      argBytes_cons]
    omega

/-- The strings of the list are pushed as the first loop does. -/
theorem pushStrings_eq_stores (mem : Mem) (hphys : IsFrame phys) (hfit : argBytes args ≤ 0x1000) :
    (pushStrings mem phys args).1 =
      runStores mem (pushAll phys 0x1000 (args.map fun s => s ++ [0]).reverse) := by
  induction args with
  | nil => rfl
  | cons s args ih =>
    have hbytes := argBytes_cons s args
    have hpushed := pushedBytes_strings args
    have hlen : (s ++ [0]).length = s.length + 1 := List.length_append
    rw [pushStrings_cons mem hphys hfit]
    rw [hbytes] at hfit ⊢
    have hrest := ih (by omega)
    obtain ⟨hmod, -, hlt⟩ := hphys
    have haddr : u64 (phys + sub64 (0x1000 - argBytes args) (s.length + 1)) =
        phys + (0x1000 - (s.length + 1 + argBytes args)) := by
      rw [sub64_of_le (by omega) (by omega), u64_of_lt (by omega)]
      omega
    rw [List.map_cons, List.reverse_cons, pushAll_append, runStores_append,
      pushEnd_of_le (by decide) (by omega),
      hpushed, pushAll_cons, pushAll_nil, List.append_nil, hlen, haddr,
        runStores_eq_wrBytes (by omega), ← hrest]

/-- So are words. -/
theorem pushWords_eq_stores {r : Mem × Nat} (hphys : IsFrame phys) (ws : List Nat)
    (hlo : 8 * ws.length ≤ r.2)
    (hhi : r.2 ≤ 0x1000) :
    (ws.foldr (fun v r => pushWord phys r v) r).1 =
      runStores r.1 (pushAll phys r.2 (ws.map wordBytes).reverse) := by
  induction ws with
  | nil => rfl
  | cons w ws ih =>
    rw [List.length_cons] at hlo
    obtain ⟨hoff, -⟩ := pushWords_spec hphys ws (by omega) hhi
    have hrest := ih (by omega)
    have hpushed := pushedBytes_words ws
    have hlen := length_wordBytes w
    obtain ⟨hmod, -, hlt⟩ := hphys
    rw [List.foldr_cons]
    generalize ws.foldr (fun v r => pushWord phys r v) r = r' at hoff hrest ⊢
    have haddr : u64 (phys + sub64 r'.2 8) = phys + (r.2 - 8 * ws.length - 8) := by
      rw [hoff, sub64_of_le (by omega) (by omega), u64_of_lt (by omega)]
    unfold pushWord
    dsimp only
    rw [List.map_cons, List.reverse_cons, pushAll_append, runStores_append,
      pushEnd_of_le (by omega) (by omega),
      hpushed, pushAll_cons, pushAll_nil, List.append_nil, hlen, ← hoff, haddr, ← hrest,
      runStores_eq_wrBytes (by omega), wrBytes_wordBytes]

theorem wordItems_eq (v : Nat → Nat) (n : Nat) :
    wordItems v n = ((List.range n).map fun i => wordBytes (v i)).reverse := by
  induction n with
  | zero => rfl
  | succ n ih =>
    rw [wordItems, ih, List.range_succ, List.map_append, List.reverse_append]
    rfl

theorem stackPage_eq : sub64 US_VADDR 0x1000 = US_VADDR - 0x1000 :=
  sub64_of_le (by decide) (by decide)

/-- The addresses that the first loop keeps are those of the strings in the list. -/
theorem pointers_listArgv (mem : Mem) (hphys : IsFrame phys) (hfit : argBytes args ≤ 0x1000) :
    (pushStrings mem phys args).2.2 =
      (List.range args.length).map (stringOffsets phys US_VADDR (listArgv args) args.length) := by
  have htotal := stringBytes_listArgv (Nat.zero_le args.length)
  rw [List.drop_zero, show stringBytes (listArgv args) 0 = 0 from rfl, Nat.zero_add] at htotal
  obtain ⟨-, hptrs, -⟩ := pushStrings_spec mem args hphys hfit
  have hoffsets := (copyStrings_offsets phys US_VADDR (listArgv args) args.length
    { off := 0x1000, argStringOffsets := fun _ => 0, stores := [] } (by decide)
    (by rw [htotal]; exact hfit)).1
  refine List.ext_getElem (by rw [hptrs, List.length_map, List.length_range]) fun i hi _ => ?_
  rw [hptrs] at hi
  obtain ⟨hptr, -⟩ := pushStrings_string mem hphys hfit hi
  have hdrop := argBytes_drop_le args i
  have hrest := stringBytes_listArgv hi.le
  rw [List.getElem_map, List.getElem_range, (List.getElem?_eq_some_iff.mp hptr).2, stringOffsets,
    hoffsets i hi]
  have htop : US_VADDR = 0x9000000000 := by decide
  dsimp only
  rw [stackPage_eq, htop, hrest, Nat.add_sub_cancel_left, u64_of_lt (by omega)]
  omega

/-- For a list of strings that fits, the trace makes the memory and the stack pointer of
`setupUserStack`. -/
theorem setupUserStackOf_eq_setupUserStack (mem : Mem) (hphys : IsFrame phys)
    (hlen : args.length ≤ 64)
    (hfit : vectorBytes args + 8 ≤ 0x1000) :
    runStores mem (setupUserStackOf phys US_VADDR args.length (listArgv args)).1 =
      (setupUserStack mem phys args).1 ∧
      (setupUserStackOf phys US_VADDR args.length (listArgv args)).2 =
        (setupUserStack mem phys args).2 := by
  have hbytes : vectorBytes args = argBytes args + 8 * (args.length + 1) := rfl
  have hclamp : clampArgc (args.length : Int) = args.length := if_neg (by omega)
  have hcount : ((args.length : Int) % 2 ^ 64).toNat = args.length := by omega
  have htotal : stringBytes (listArgv args) args.length = argBytes args := by
    rw [stringBytes_listArgv (Nat.zero_le _), List.drop_zero]
    exact Nat.zero_add _
  obtain ⟨hoff, hptrs, -⟩ := pushStrings_spec mem args hphys (by omega)
  have hpointers :
      wordItems (stringOffsets phys US_VADDR (listArgv args) args.length) args.length =
      ((pushStrings mem phys args).2.2.map wordBytes).reverse := by
    rw [wordItems_eq, pointers_listArgv mem hphys (by omega), List.map_map]
    rfl
  have hitems :
      stackItems (listArgv args) args.length
      (stringOffsets phys US_VADDR (listArgv args) args.length)
      args.length = (args.map fun s => s ++ [0]).reverse ++
        ((args.length :: ((pushStrings mem phys args).2.2 ++ [0])).map wordBytes).reverse := by
    unfold stackItems
    rw [stringItems_listArgv (le_refl _), List.take_length, hpointers]
    simp
  have hwords :=
    pushWords_eq_stores (r := ((pushStrings mem phys args).1, (pushStrings mem phys args).2.1))
    hphys
    (args.length :: ((pushStrings mem phys args).2.2 ++ [0]))
    (by simp only [List.length_cons, List.length_append, List.length_nil, hptrs, hoff]; omega)
    (by rw [hoff]; omega)
  have hend :=
    (pushWords_spec (r := ((pushStrings mem phys args).1, (pushStrings mem phys args).2.1)) hphys
    (args.length :: ((pushStrings mem phys args).2.2 ++ [0]))
    (by simp only [List.length_cons, List.length_append, List.length_nil, hptrs, hoff]; omega)
    (by rw [hoff]; omega)).1
  have hpushed := pushedBytes_strings args
  rw [setupUserStackOf_eq, setupUserStack_eq mem phys hlen]
  dsimp only
  rw [hclamp, hcount, Int.toNat_natCast, hitems, hwords, hend, stackPage_eq]
  constructor
  · rw [pushStrings_eq_stores mem hphys (by omega), hoff, pushAll_append, runStores_append,
      pushEnd_of_le (by decide) (by omega), hpushed]
  · have hend₁ :
        pushEnd 0x1000 (args.map fun s => s ++ [0]).reverse = 0x1000 - argBytes args := by
      rw [pushEnd_of_le (by decide) (by omega), hpushed]
    have hlast := pushedBytes_words (args.length :: ((pushStrings mem phys args).2.2 ++ [0]))
    have hnum : (args.length :: ((pushStrings mem phys args).2.2 ++ [0])).length =
        args.length + 2 := by
      rw [List.length_cons, List.length_append, hptrs, List.length_singleton]
    rw [pushEnd_append, hend₁, pushEnd_of_le (by omega) (by omega), hlast, hoff]

end ListArgs

end Lumin.Proc
