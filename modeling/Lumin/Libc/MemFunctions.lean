import Lumin.Lib.Memory
import Lumin.Lib.Word

/-!
# Filling and copying memory

A model of `memset`, `memcpy` and `memmove` of `libc/src/string/mem.c`.  An address is a
number below `2 ^ 64`, and pointer arithmetic wraps there.  A word is eight bytes in
little-endian order.

The lemmas come in two groups, for filling and for copying.  A loop over bytes splits at
every index (`fillLoop_add`, `copyLoop_add`), and eight of its turns at an aligned address
are one turn of the loop over words.
-/

namespace Lumin.Libc.MemFunctions

open Lumin.Lib

/-- `p[j] = b` for `k` indices from `i` on. -/
def fillLoop (b : UInt8) (p i : Nat) : Nat → Mem → Mem
  | 0, m => m
  | k + 1, m => fillLoop b p (i + 1) k (setByte m (u64 (p + i)) b)

/-- The word `v` of `memset`. -/
def fillWord (b : UInt8) : Nat :=
  let v := b.toNat
  let v := v ||| u64 (v <<< 8)
  let v := v ||| u64 (v <<< 16)
  v ||| u64 (v <<< 32)

/-- The loop over words of `memset`: the memory, `dp` and `n` at its end. -/
def storeWords (v : Nat) (m : Mem) (dp n : Nat) : Mem × Nat × Nat :=
  if 8 ≤ n then storeWords v (wrLE m (u64 dp) 8 v) (u64 (dp + 8)) (n - 8) else (m, dp, n)
termination_by n

/-- `memset`: the pointer that it returns and the memory. -/
def memset (m : Mem) (dst : Nat) (c : Int) (n : Nat) : Nat × Mem :=
  let b := UInt8.ofInt c
  let r := dst &&& 7
  let (m, d, n) :=
    if r ≠ 0 then
      let part := if 8 - r > n then n else 8 - r
      (fillLoop b dst 0 part m, u64 (dst + part), n - part)
    else (m, dst, n)
  let (m, cp, n) := storeWords (fillWord b) m d n
  (dst, fillLoop b cp 0 n m)

/-- `d[j] = s[j]` for `k` indices from `i` on. -/
def copyLoop (d s i : Nat) : Nat → Mem → Mem
  | 0, m => m
  | k + 1, m => copyLoop d s (i + 1) k (setByte m (u64 (d + i)) (m (u64 (s + i))))

/-- `d[i - 1] = s[i - 1]` for the indices from `k` down to 1. -/
def copyDownLoop (d s : Nat) : Nat → Mem → Mem
  | 0, m => m
  | i + 1, m => copyDownLoop d s i (setByte m (u64 (d + i)) (m (u64 (s + i))))

/-- The loop over words of `memcpy`: the memory, `ld`, `ls` and `n` at its end. -/
def copyWords (m : Mem) (ld ls n : Nat) : Mem × Nat × Nat × Nat :=
  if 8 ≤ n then copyWords (wrLE m (u64 ld) 8 (rdLE m (u64 ls) 8)) (u64 (ld + 8)) (u64 (ls + 8))
    (n - 8)
  else (m, ld, ls, n)
termination_by n

/-- `memcpy`: the pointer that it returns and the memory. -/
def memcpy (m : Mem) (dst src n : Nat) : Nat × Mem :=
  let (m, d, s, n) :=
    if dst &&& 7 = 0 ∧ src &&& 7 = 0 then copyWords m dst src n else (m, dst, src, n)
  (dst, copyLoop d s 0 n m)

/-- `memmove`: the pointer that it returns and the memory. -/
def memmove (m : Mem) (dst src n : Nat) : Nat × Mem :=
  (dst, if dst < src then copyLoop dst src 0 n m else copyDownLoop dst src n m)

variable {m : Mem} {b : UInt8} {p d s i j k n a : Nat}

theorem and_seven (p : Nat) : p &&& 7 = p % 8 := Nat.and_two_pow_sub_one_eq_mod p 3

theorem u64_add_u64 (p i : Nat) : u64 (u64 p + i) = u64 (p + i) := Nat.mod_add_mod p (2 ^ 64) i

/-- Inside a range that does not wrap the address is a plain sum. -/
theorem u64_add (h : u64 p + i < 2 ^ 64) : u64 (p + i) = u64 p + i := by
  rw [← u64_add_u64, u64_of_lt h]

/-- An aligned word does not wrap. -/
theorem aligned_fits (h : p % 8 = 0) : u64 p + 8 ≤ 2 ^ 64 := by
  unfold u64
  omega

theorem aligned_next (h : p % 8 = 0) : u64 (p + 8) % 8 = 0 := by
  unfold u64
  omega

/-! ## Filling -/

theorem fillLoop_add (b : UInt8) (p i j k : Nat) (m : Mem) :
    fillLoop b p i (j + k) m = fillLoop b p (i + j) k (fillLoop b p i j m) := by
  induction j generalizing i m with
  | zero => rw [Nat.zero_add, Nat.add_zero, fillLoop]
  | succ j ih =>
    rw [Nat.add_right_comm, fillLoop, ih, fillLoop, Nat.add_right_comm i 1 j]
    rfl

/-- The index can be moved into the pointer. -/
theorem fillLoop_shift (b : UInt8) (p i j k : Nat) (m : Mem) :
    fillLoop b p (i + j) k m = fillLoop b (u64 (p + i)) j k m := by
  induction k generalizing j m with
  | zero => rfl
  | succ k ih =>
    rw [fillLoop, fillLoop, u64_add_u64, ← Nat.add_assoc p i j, ← ih (j + 1), Nat.add_assoc i j 1]

theorem fillLoop_apply (h : u64 p + i + k ≤ 2 ^ 64) (a : Nat) :
    fillLoop b p i k m a = if u64 p + i ≤ a ∧ a < u64 p + i + k then b else m a := by
  induction k generalizing i m with
  | zero => rw [fillLoop, if_neg (by omega)]
  | succ k ih =>
    rw [fillLoop, ih (by omega), u64_add (by omega), setByte]
    split_ifs <;> first | rfl | omega

/-- Every byte of the fill word is the fill byte. -/
theorem fillWord_lane (b : UInt8) (hk : k < 8) : UInt8.ofNat (fillWord b / 256 ^ k) = b := by
  have hall : ∀ x < 256, ∀ k < 8, UInt8.ofNat (fillWord (UInt8.ofNat x) / 256 ^ k) =
      UInt8.ofNat x := by
    decide +kernel
  have := hall b.toNat b.toNat_lt k hk
  rwa [UInt8.ofNat_toNat] at this

/-- Eight turns at an aligned address are one store of the fill word. -/
theorem fillLoop_eight (h : p % 8 = 0) : fillLoop b p 0 8 m = wrLE m (u64 p) 8 (fillWord b) := by
  funext a
  rw [fillLoop_apply (aligned_fits h), wrLE, Nat.add_zero]
  by_cases ha : u64 p ≤ a ∧ a < u64 p + 8
  · rw [if_pos ha, if_pos ha, fillWord_lane b (by omega)]
  · rw [if_neg ha, if_neg ha]

/-- The loop over words and the tail behind it make the loop over bytes. -/
theorem storeWords_fill (h : p % 8 = 0) (b : UInt8) (m : Mem) (n : Nat) :
    fillLoop b (storeWords (fillWord b) m p n).2.1 0 (storeWords (fillWord b) m p n).2.2
      (storeWords (fillWord b) m p n).1 = fillLoop b p 0 n m := by
  induction n using Nat.strongRecOn generalizing m p with
  | _ n ih =>
    rw [storeWords]
    by_cases hn : 8 ≤ n
    · have hsplit :
          fillLoop b p 0 n m = fillLoop b (u64 (p + 8)) 0 (n - 8) (fillLoop b p 0 8 m) := by
        conv_lhs => rw [← Nat.add_sub_cancel' hn]
        rw [fillLoop_add, Nat.zero_add, ← fillLoop_shift]
      rw [if_pos hn, ih (n - 8) (by omega) (aligned_next h), hsplit, fillLoop_eight h]
    · rw [if_neg hn]

/-- `memset` stores the byte at each address of the range, one after the other. -/
theorem memset_eq (m : Mem) (dst : Nat) (c : Int) (n : Nat) :
    memset m dst c n = (dst, fillLoop (UInt8.ofInt c) dst 0 n m) := by
  unfold memset
  rw [and_seven]
  by_cases hr : dst % 8 = 0
  · simp only [hr, ne_eq, not_true_eq_false, if_false]
    rw [storeWords_fill hr]
  · have hpart : (if 8 - dst % 8 > n then n else 8 - dst % 8) = min (8 - dst % 8) n := by
      split_ifs <;> omega
    have hsplit : fillLoop (UInt8.ofInt c) dst 0 n m =
        fillLoop (UInt8.ofInt c) (u64 (dst + min (8 - dst % 8) n)) 0 (n - min (8 - dst % 8) n)
          (fillLoop (UInt8.ofInt c) dst 0 (min (8 - dst % 8) n) m) := by
      conv_lhs => rw [← Nat.add_sub_cancel' (Nat.min_le_right (8 - dst % 8) n)]
      rw [fillLoop_add, Nat.zero_add, ← fillLoop_shift, Nat.add_zero]
    simp only [ne_eq, hr, not_false_eq_true, if_true, hpart]
    rw [hsplit]
    -- Either the head reaches a word boundary, or nothing is left behind it.
    rcases Nat.le_total (8 - dst % 8) n with hle | hle
    · have haligned : u64 (dst + min (8 - dst % 8) n) % 8 = 0 := by
        rw [Nat.min_eq_left hle]
        unfold u64
        omega
      rw [storeWords_fill haligned]
    · rw [Nat.min_eq_right hle, Nat.sub_self, storeWords, if_neg (by omega)]

/-! ## Copying -/

theorem copyLoop_add (d s i j k : Nat) (m : Mem) :
    copyLoop d s i (j + k) m = copyLoop d s (i + j) k (copyLoop d s i j m) := by
  induction j generalizing i m with
  | zero => rw [Nat.zero_add, Nat.add_zero, copyLoop]
  | succ j ih =>
    rw [Nat.add_right_comm, copyLoop, ih, copyLoop, Nat.add_right_comm i 1 j]
    rfl

theorem copyLoop_shift (d s i j k : Nat) (m : Mem) :
    copyLoop d s (i + j) k m = copyLoop (u64 (d + i)) (u64 (s + i)) j k m := by
  induction k generalizing j m with
  | zero => rfl
  | succ k ih =>
    rw [copyLoop, copyLoop, u64_add_u64, u64_add_u64, ← Nat.add_assoc d i j,
      ← Nat.add_assoc s i j,
      ← ih (j + 1), Nat.add_assoc i j 1]

/-- Upwards, with the destination in front of the source or behind its end. -/
theorem copyLoop_apply (hd : u64 d + i + k ≤ 2 ^ 64) (hs : u64 s + i + k ≤ 2 ^ 64)
    (h : u64 d ≤ u64 s ∨ u64 s + i + k ≤ u64 d + i) (a : Nat) :
    copyLoop d s i k m a = if u64 d + i ≤ a ∧ a < u64 d + i + k then m (u64 s + (a - u64 d))
      else m a := by
  induction k generalizing i m with
  | zero => rw [copyLoop, if_neg (by omega)]
  | succ k ih =>
    rw [copyLoop, ih (by omega) (by omega) (by omega), u64_add (by omega), u64_add (by omega)]
    -- No turn reads what an earlier one has stored.
    by_cases hin : u64 d + (i + 1) ≤ a ∧ a < u64 d + (i + 1) + k
    · rw [if_pos hin, if_pos (by omega), setByte_of_ne _ (by omega)]
    · rw [if_neg hin]
      by_cases ha : a = u64 d + i
      · rw [if_pos (by omega), setByte, if_pos ha]
        congr 1
        omega
      · rw [if_neg (by omega), setByte_of_ne _ ha]

/-- Downwards, with the destination at the source or behind it. -/
theorem copyDownLoop_apply (hd : u64 d + k ≤ 2 ^ 64) (h : u64 s ≤ u64 d) (a : Nat) :
    copyDownLoop d s k m a =
      if u64 d ≤ a ∧ a < u64 d + k then m (u64 s + (a - u64 d)) else m a := by
  induction k generalizing m with
  | zero => rw [copyDownLoop, if_neg (by omega)]
  | succ k ih =>
    rw [copyDownLoop, ih (by omega), u64_add (by omega), u64_add (by omega)]
    by_cases hin : u64 d ≤ a ∧ a < u64 d + k
    · rw [if_pos hin, if_pos (by omega), setByte_of_ne _ (by omega)]
    · rw [if_neg hin]
      by_cases ha : a = u64 d + k
      · rw [if_pos (by omega), setByte, if_pos ha]
        congr 1
        omega
      · rw [if_neg (by omega), setByte_of_ne _ ha]

/-- Eight turns at aligned addresses are one load and one store. -/
theorem copyLoop_eight (hd : d % 8 = 0) (hs : s % 8 = 0) :
    copyLoop d s 0 8 m = wrLE m (u64 d) 8 (rdLE m (u64 s) 8) := by
  have hd' := aligned_fits hd
  have hs' := aligned_fits hs
  -- Two aligned words are the same or have no byte in common.
  have hapart : u64 d ≤ u64 s ∨ u64 s + 8 ≤ u64 d := by
    unfold u64
    omega
  funext a
  rw [copyLoop_apply hd' hs' hapart, wrLE_rdLE, Nat.add_zero]

/-- The loop over words and the tail behind it make the loop over bytes. -/
theorem copyWords_copy (hd : d % 8 = 0) (hs : s % 8 = 0) (m : Mem) (n : Nat) :
    copyLoop (copyWords m d s n).2.1 (copyWords m d s n).2.2.1 0 (copyWords m d s n).2.2.2
      (copyWords m d s n).1 = copyLoop d s 0 n m := by
  induction n using Nat.strongRecOn generalizing m d s with
  | _ n ih =>
    rw [copyWords]
    by_cases hn : 8 ≤ n
    · have hsplit : copyLoop d s 0 n m =
          copyLoop (u64 (d + 8)) (u64 (s + 8)) 0 (n - 8) (copyLoop d s 0 8 m) := by
        conv_lhs => rw [← Nat.add_sub_cancel' hn]
        rw [copyLoop_add, Nat.zero_add, ← copyLoop_shift]
      rw [if_pos hn, ih (n - 8) (by omega) (aligned_next hd) (aligned_next hs), hsplit,
        copyLoop_eight hd hs]
    · rw [if_neg hn]

/-- `memcpy` copies byte by byte, upwards. -/
theorem memcpy_eq (m : Mem) (dst src n : Nat) :
    memcpy m dst src n = (dst, copyLoop dst src 0 n m) := by
  unfold memcpy
  rw [and_seven, and_seven]
  by_cases h : dst % 8 = 0 ∧ src % 8 = 0
  · simp only [if_pos h]
    rw [copyWords_copy h.1 h.2]
  · simp only [if_neg h]

/-- The fast paths are the loops over bytes. -/
theorem word_paths_eq_byte_loops (m : Mem) (dst src n : Nat) (c : Int) :
    memset m dst c n = (dst, fillLoop (UInt8.ofInt c) dst 0 n m) ∧
      memcpy m dst src n = (dst, copyLoop dst src 0 n m) :=
  ⟨memset_eq m dst c n, memcpy_eq m dst src n⟩

theorem memmove_apply (m : Mem) {dst src n : Nat} (hdst : dst + n ≤ 2 ^ 64)
    (hsrc : src + n ≤ 2 ^ 64) (a : Nat) :
    (memmove m dst src n).2 a = if dst ≤ a ∧ a < dst + n then m (src + (a - dst)) else m a := by
  rcases Nat.eq_zero_or_pos n with rfl | hn
  · rw [if_neg (by omega)]
    unfold memmove
    split_ifs <;> rfl
  have hd : u64 dst = dst := u64_of_lt (by omega)
  have hs : u64 src = src := u64_of_lt (by omega)
  unfold memmove
  by_cases hlt : dst < src
  · rw [if_pos hlt]
    have h := @copyLoop_apply m dst src 0 n (by omega) (by omega) (by omega) a
    rwa [hd, hs] at h
  · rw [if_neg hlt]
    have h := @copyDownLoop_apply m dst src n (by omega) (by omega) a
    rwa [hd, hs] at h

/-- `memmove` copies the old bytes, however the two ranges lie. -/
theorem memmove_copies (m : Mem) {dst src n : Nat} (hdst : dst + n ≤ 2 ^ 64)
    (hsrc : src + n ≤ 2 ^ 64) :
    (memmove m dst src n).1 = dst ∧
      (∀ i < n, (memmove m dst src n).2 (dst + i) = m (src + i)) ∧
      ∀ a, a < dst ∨ dst + n ≤ a → (memmove m dst src n).2 a = m a := by
  refine ⟨rfl, fun i hi => ?_, fun a ha => ?_⟩
  · rw [memmove_apply m hdst hsrc, if_pos (by omega), Nat.add_sub_cancel_left]
  · rw [memmove_apply m hdst hsrc, if_neg (by omega)]

/-- Three bytes one place up, where the ranges overlap. -/
theorem memmove_copies_up_one :
    (1 + 3 ≤ 2 ^ 64 ∧ 0 + 3 ≤ 2 ^ 64) ∧
      ∀ i < 3, (memmove (fun a => UInt8.ofNat a) 1 0 3).2 (1 + i) = UInt8.ofNat (0 + i) :=
  ⟨by decide, (memmove_copies (fun a => UInt8.ofNat a) (by decide) (by decide)).2.1⟩

end Lumin.Libc.MemFunctions
