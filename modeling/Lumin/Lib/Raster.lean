import Lumin.Lib.Memory

/-!
# A raster in memory

Pixels of four bytes, in lines that are `pitch` bytes apart.  No two pixels share a byte
(`Raster.px_write`).

* `Raster.px_block` is a double loop that writes a block of pixels.
* `Raster.px_shift` is a double loop that moves groups of lines to the group in front of them,
  eight bytes at a time.
-/

namespace Lumin.Lib

/-- A turn that writes a value or leaves it, in a loop whose turns all write the same. -/
theorem foldl_overwrite {σ ι ν : Type} (get : σ → ν) {step : σ → ι → σ} {hit : ι → Prop}
    [DecidablePred hit] {v : ν}
    (is : List ι) (h : ∀ s, ∀ i ∈ is, get (step s i) = if hit i then v else get s) (s : σ) :
    get (is.foldl step s) = if ∃ i ∈ is, hit i then v else get s := by
  induction is generalizing s with
  | nil => simp
  | cons i is ih =>
    rw [List.foldl_cons, ih fun s j hj => h s j (List.mem_cons_of_mem i hj),
      h s i List.mem_cons_self]
    by_cases hi : hit i
    · simp [hi]
    · simp [hi]

/-- Words that are copied downwards in memory. -/
theorem copyWords_apply {dst src : Nat} (n : Nat) (h : dst + 8 * n ≤ src) (m : Mem) (a : Nat) :
    (List.range n).foldl (fun m i => wrLE m (dst + 8 * i) 8 (rdLE m (src + 8 * i) 8)) m a =
      if dst ≤ a ∧ a < dst + 8 * n then m (src + (a - dst)) else m a := by
  induction n generalizing a with
  | zero => simp
  | succ n ih =>
    rw [List.range_succ, List.foldl_append, List.foldl_cons, List.foldl_nil, wrLE_rdLE]
    split_ifs with hlast hall hall
    · -- the source of the last word is behind all that was written
      rw [ih (by omega), if_neg (by omega)]
      congr 1
      omega
    · omega
    · rw [ih (by omega), if_pos (by omega)]
    · rw [ih (by omega), if_neg (by omega)]

/-- Blocks of `size` bytes that are copied one by one to the block in front. -/
theorem copyBlocks_apply {base size : Nat} (hsize : size % 8 = 0) (k : Nat) (m : Mem) (a : Nat) :
    (List.range' 1 k).foldl (fun m r =>
        (List.range (size / 8)).foldl (fun m i =>
          wrLE m (base + (r - 1) * size + 8 * i) 8 (rdLE m (base + r * size + 8 * i) 8)) m) m a =
      if base ≤ a ∧ a < base + k * size then m (a + size) else m a := by
  have hdiv : 8 * (size / 8) = size := by omega
  induction k generalizing a with
  | zero => simp
  | succ k ih =>
    have hnext : (k + 1) * size = k * size + size := Nat.succ_mul k size
    rw [List.range'_concat, List.foldl_append, List.foldl_cons, List.foldl_nil]
    have hk : 1 + 1 * k - 1 = k := by omega
    rw [hk, show 1 + 1 * k = k + 1 by omega, copyWords_apply _ (by omega), hdiv]
    split_ifs with hlast hall hall
    · rw [ih, if_neg (by omega)]
      congr 1
      omega
    · omega
    · rw [ih, if_pos (by omega)]
    · rw [ih, if_neg (by omega)]

/-- Lines of `width` pixels, `pitch` bytes apart. -/
structure Raster where
  base : Nat
  width : Nat
  pitch : Nat
  fits : 4 * width ≤ pitch

namespace Raster

/-- The address of a pixel. -/
def addr (z : Raster) (x y : Nat) : Nat := z.base + y * z.pitch + 4 * x

/-- The pixel. -/
def px (z : Raster) (m : Mem) (x y : Nat) : UInt32 := UInt32.ofNat (rdLE m (z.addr x y) 4)

variable {z : Raster} {m : Mem} {x y x' y' x₀ y₀ n : Nat}

theorem addr_lt_of_line (hx : x < z.width) (hy : y < y') : z.addr x y + 4 ≤ z.addr x' y' := by
  have hfits := z.fits
  have hline : (y + 1) * z.pitch ≤ y' * z.pitch := Nat.mul_le_mul_right _ hy
  rw [Nat.succ_mul] at hline
  unfold addr
  omega

/-- Different pixels share no byte. -/
theorem addr_apart (hx : x < z.width) (hx' : x' < z.width) (hne : ¬ (x = x' ∧ y = y')) :
    z.addr x y + 4 ≤ z.addr x' y' ∨ z.addr x' y' + 4 ≤ z.addr x y := by
  rcases Nat.lt_trichotomy y y' with hy | rfl | hy
  · exact .inl (addr_lt_of_line hx hy)
  · unfold addr
    omega
  · exact .inr (addr_lt_of_line hx' hy)

theorem px_write (hx : x < z.width) (hx' : x' < z.width) (v : UInt32) :
    z.px (wrLE m (z.addr x' y') 4 v.toNat) x y = if x = x' ∧ y = y' then v else z.px m x y := by
  unfold px
  split_ifs with heq
  · obtain ⟨rfl, rfl⟩ := heq
    rw [rdLE_wrLE_of_lt v.toNat_lt, UInt32.ofNat_toNat]
  · rw [rdLE_wrLE_apart (addr_apart hx hx' heq)]

/-- A block of `n` columns from `x₀` on in the lines `rs` from `y₀` on. -/
theorem px_block (rs : List Nat) (color : Nat → Nat → UInt32) (hx : x < z.width)
    (hn : x₀ + n ≤ z.width) (m : Mem) :
    z.px (rs.foldl (fun m r => (List.range n).foldl (fun m k =>
        wrLE m (z.addr (x₀ + k) (y₀ + r)) 4 (color r k).toNat) m) m) x y =
      if (x₀ ≤ x ∧ x < x₀ + n) ∧ y₀ ≤ y ∧ y - y₀ ∈ rs then color (y - y₀) (x - x₀)
        else z.px m x y := by
  have hline : ∀ m, ∀ r ∈ rs,
      z.px ((List.range n).foldl
        (fun m k => wrLE m (z.addr (x₀ + k) (y₀ + r)) 4 (color r k).toNat) m) x y =
        if (x₀ ≤ x ∧ x < x₀ + n) ∧ y = y₀ + r then color (y - y₀) (x - x₀) else z.px m x y := by
    intro m r _
    have hpixel :
        ∀ m, ∀ k ∈ List.range n,
        z.px (wrLE m (z.addr (x₀ + k) (y₀ + r)) 4 (color r k).toNat) x y =
        if x = x₀ + k ∧ y = y₀ + r then color (y - y₀) (x - x₀) else z.px m x y := by
      intro m k hk
      have hk' := List.mem_range.1 hk
      rw [px_write hx (by omega)]
      split_ifs with heq
      · rw [heq.1, heq.2, Nat.add_sub_cancel_left, Nat.add_sub_cancel_left]
      · rfl
    rw [foldl_overwrite (fun m => z.px m x y) (List.range n) hpixel m]
    refine if_congr ?_ rfl rfl
    constructor
    · rintro ⟨k, hk, rfl, rfl⟩
      have hk' := List.mem_range.1 hk
      exact ⟨by omega, rfl⟩
    · rintro ⟨hcol, rfl⟩
      exact ⟨x - x₀, List.mem_range.2 (by omega), by omega, rfl⟩
  rw [foldl_overwrite (fun m => z.px m x y) rs hline m]
  refine if_congr ?_ rfl rfl
  constructor
  · rintro ⟨r, hr, hcol, rfl⟩
    exact ⟨hcol, by omega, by rwa [Nat.add_sub_cancel_left]⟩
  · rintro ⟨hcol, hge, hr⟩
    exact ⟨y - y₀, hr, hcol, by omega⟩

/-- The first `k` groups of `lines` lines are each copied from the group behind it. -/
theorem px_shift {lines : Nat} (hsize : z.pitch * lines % 8 = 0) (k : Nat) (hx : x < z.width)
    (m : Mem) :
    z.px ((List.range' 1 k).foldl (fun m r =>
        (List.range (z.pitch * lines / 8)).foldl (fun m i =>
          wrLE m (z.base + (r - 1) * (z.pitch * lines) + 8 * i) 8
            (rdLE m (z.base + r * (z.pitch * lines) + 8 * i) 8)) m) m) x y =
      if y < k * lines then z.px m x (y + lines) else z.px m x y := by
  have hfits := z.fits
  have hlines : k * (z.pitch * lines) = k * lines * z.pitch := by ring
  have hadd : z.addr x (y + lines) = z.addr x y + z.pitch * lines := by
    unfold addr
    ring
  unfold px
  split_ifs with hy
  · have hline : (y + 1) * z.pitch ≤ k * lines * z.pitch := Nat.mul_le_mul_right _ hy
    rw [Nat.succ_mul] at hline
    congr 1
    refine rdLE_move fun i hi => ?_
    rw [copyBlocks_apply hsize, hadd, if_pos (by unfold addr; omega)]
    congr 1
    omega
  · have hline : k * lines * z.pitch ≤ y * z.pitch := Nat.mul_le_mul_right _ (Nat.le_of_not_lt hy)
    congr 1
    refine rdLE_congr fun a hlo hhi => ?_
    unfold addr at hlo
    rw [copyBlocks_apply hsize, if_neg (by omega)]

end Raster

end Lumin.Lib
