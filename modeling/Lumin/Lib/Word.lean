import Mathlib.Tactic

/-!
# Machine words as natural numbers

C's unsigned arithmetic on natural numbers.  A value is kept below `2 ^ w` by
an explicit reduction at each operation that can leave the range.  The lemmas
say that nothing is lost when the operation does not leave it.
-/

namespace Lumin.Lib

/-- Conversion to `uint32_t`. -/
def u32 (x : Nat) : Nat := x % 2 ^ 32

/-- Conversion to `uint64_t`. -/
def u64 (x : Nat) : Nat := x % 2 ^ 64

/-- Subtraction of `uint64_t` values. -/
def sub64 (a b : Nat) : Nat := u64 (a + (2 ^ 64 - b % 2 ^ 64))

/-- Conversion to `int`. -/
def s32 (x : Nat) : Int := if u32 x < 2 ^ 31 then u32 x else (u32 x : Int) - 2 ^ 32

theorem u32_lt (x : Nat) : u32 x < 2 ^ 32 := Nat.mod_lt _ (by decide)

theorem u32_of_lt {x : Nat} (h : x < 2 ^ 32) : u32 x = x := Nat.mod_eq_of_lt h

theorem u64_of_lt {x : Nat} (h : x < 2 ^ 64) : u64 x = x := Nat.mod_eq_of_lt h

theorem s32_of_lt {x : Nat} (h : x < 2 ^ 31) : s32 x = x := by
  unfold s32
  rw [u32_of_lt (by omega), if_pos h]

/-- Without a borrow the subtraction is exact. -/
theorem sub64_of_le {a b : Nat} (ha : a < 2 ^ 64) (hb : b ≤ a) : sub64 a b = a - b := by
  unfold sub64 u64
  omega

end Lumin.Lib
