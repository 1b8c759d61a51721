import Mathlib.Tactic

/-!
# Byte memory with little-endian words

A memory is a total function from addresses to bytes.  `rdLE` and `wrLE` read
and write a little-endian number of `n` bytes.  The two rules are that a number
reads back as it was written and that a write leaves the bytes outside of it
alone.
-/

namespace Lumin.Lib

/-- The bytes of a memory, a sector or a buffer. -/
abbrev Mem := Nat → UInt8

/-- The little-endian number in the `n` bytes from `a` on. -/
def rdLE (m : Mem) (a : Nat) : Nat → Nat
  | 0 => 0
  | n + 1 => (m a).toNat + 256 * rdLE m (a + 1) n

/-- Write `v` into the `n` bytes from `a` on. -/
def wrLE (m : Mem) (a n v : Nat) : Mem := fun x =>
  if a ≤ x ∧ x < a + n then UInt8.ofNat (v / 256 ^ (x - a)) else m x

/-- Write one byte. -/
def setByte (m : Mem) (a : Nat) (b : UInt8) : Mem := fun x => if x = a then b else m x

/-- Write the bytes `bs` from `a` on. -/
def wrBytes (m : Mem) (a : Nat) (bs : List UInt8) : Mem := fun x =>
  if a ≤ x ∧ x < a + bs.length then bs.getD (x - a) 0 else m x

variable {m m' : Mem} {a b n k v x : Nat}

theorem rdLE_lt (m : Mem) (a n : Nat) : rdLE m a n < 256 ^ n := by
  induction n generalizing a with
  | zero => exact Nat.one_pos
  | succ n ih =>
    have := ih (a + 1)
    have hbyte := (m a).toNat_lt
    rw [rdLE, pow_succ]
    omega

/-- A number depends only on its own bytes. -/
theorem rdLE_congr (h : ∀ x, a ≤ x → x < a + n → m x = m' x) : rdLE m a n = rdLE m' a n := by
  induction n generalizing a with
  | zero => rfl
  | succ n ih =>
    rw [rdLE, rdLE, h a (le_refl _) (by omega), ih fun x hlo hhi => h x (by omega) (by omega)]

/-- Equal bytes make equal numbers, wherever they are. -/
theorem rdLE_move (h : ∀ i < n, m (a + i) = m' (b + i)) : rdLE m a n = rdLE m' b n := by
  induction n generalizing a b with
  | zero => rfl
  | succ n ih =>
    have hrest : rdLE m (a + 1) n = rdLE m' (b + 1) n := by
      refine ih fun i hi => ?_
      rw [Nat.add_right_comm a, Nat.add_right_comm b]
      exact h (i + 1) (by omega)
    rw [rdLE, rdLE, hrest]
    congr 2
    exact h 0 (by omega)

theorem wrLE_of_lt (h : x < a) : wrLE m a n v x = m x :=
  if_neg fun hx => by omega

theorem wrLE_of_ge (h : a + n ≤ x) : wrLE m a n v x = m x :=
  if_neg fun hx => by omega

/-- A write leaves a number alone that shares no byte with it. -/
theorem rdLE_wrLE_apart (h : a + n ≤ b ∨ b + k ≤ a) : rdLE (wrLE m b k v) a n = rdLE m a n := by
  refine rdLE_congr fun x hlo hhi => ?_
  rcases h with h | h
  · exact wrLE_of_lt (by omega)
  · exact wrLE_of_ge (by omega)

/-- A number reads back as it was written. -/
theorem rdLE_wrLE_same (m : Mem) (a n v : Nat) : rdLE (wrLE m a n v) a n = v % 256 ^ n := by
  -- The bytes from the second one on are the write of `v / 256` there.
  have hmain : ∀ n a v : Nat, ∀ m' : Mem,
      (∀ x, a ≤ x → x < a + n → m' x = UInt8.ofNat (v / 256 ^ (x - a))) →
        rdLE m' a n = v % 256 ^ n := by
    intro n
    induction n with
    | zero =>
      intro a v m' _
      simp [rdLE, Nat.mod_one]
    | succ n ih =>
      intro a v m' h
      have hrest : rdLE m' (a + 1) n = v / 256 % 256 ^ n := by
        refine ih (a + 1) (v / 256) m' fun x hlo hhi => ?_
        rw [h x (by omega) (by omega), Nat.div_div_eq_div_mul, ← pow_succ']
        congr 3
        omega
      rw [rdLE, hrest, h a (le_refl _) (by omega), Nat.sub_self, pow_zero, Nat.div_one,
        UInt8.toNat_ofNat', show 256 ^ (n + 1) = 256 * 256 ^ n from pow_succ' 256 n, Nat.mod_mul]
  exact hmain n a v _ fun x hlo hhi => if_pos ⟨hlo, hhi⟩

theorem rdLE_wrLE_of_lt (hv : v < 256 ^ n) : rdLE (wrLE m a n v) a n = v := by
  rw [rdLE_wrLE_same, Nat.mod_eq_of_lt hv]

/-- A byte of a number that was read. -/
theorem rdLE_byte (m : Mem) (hk : k < n) (a : Nat) :
    UInt8.ofNat (rdLE m a n / 256 ^ k) = m (a + k) := by
  induction n generalizing k a with
  | zero => omega
  | succ n ih =>
    have hbyte := (m a).toNat_lt
    rw [rdLE]
    cases k with
    | zero =>
      rw [pow_zero, Nat.div_one, Nat.add_zero a]
      apply UInt8.toNat.inj
      rw [UInt8.toNat_ofNat']
      omega
    | succ k =>
      have hrest : ((m a).toNat + 256 * rdLE m (a + 1) n) / 256 = rdLE m (a + 1) n := by omega
      rw [pow_succ', ← Nat.div_div_eq_div_mul, hrest, ih (by omega) (a + 1), Nat.add_right_comm,
        Nat.add_assoc]

/-- A number that is read in one place and written in another takes its bytes with it. -/
theorem wrLE_rdLE (m m' : Mem) (a b n x : Nat) :
    wrLE m a n (rdLE m' b n) x = if a ≤ x ∧ x < a + n then m' (b + (x - a)) else m x := by
  unfold wrLE
  by_cases hx : a ≤ x ∧ x < a + n
  · rw [if_pos hx, if_pos hx, rdLE_byte m' (by omega)]
  · rw [if_neg hx, if_neg hx]

theorem setByte_of_ne (b : UInt8) (h : x ≠ a) : setByte m a b x = m x := if_neg h

end Lumin.Lib
