import Lumin.Lib.Lomuto
import Lumin.Lib.Memory

/-!
# Sorting an array of bytes

A model of `qsort` of `libc/src/stdlib/qsort.c`.  The elements are runs of `size` bytes in
memory, and `swap` exchanges them byte by byte.  `compar` is a function of the bytes of the
two elements.

`elements_qsort` says that on the elements the code is the sort of `Lib/Lomuto`, and
`qsort_sorts` is the result.
-/

namespace Lumin.Libc.Qsort

open Lumin.Lib

/-- `swap`. -/
def swap (a b size : Nat) (m : Mem) : Mem :=
  (List.range size).foldl (fun m i => setByte (setByte m (a + i) (m (b + i))) (b + i) (m (a + i)))
    m

/-- The element at the address `a`. -/
def element (m : Mem) (size a : Nat) : List UInt8 := (List.range size).map fun k => m (a + k)

/-- A turn of the loop: `pivot` and the memory. -/
def turn (compar : List UInt8 → List UInt8 → Int) (arr last size : Nat) (s : Nat × Mem)
    (i : Nat) : Nat × Mem :=
  if compar (element s.2 size (arr + i * size)) (element s.2 size (arr + last * size)) < 0 then
    (s.1 + 1, swap (arr + s.1 * size) (arr + i * size) size s.2)
  else s

/-- The loop for the first `n` values of `i`. -/
def loop (compar : List UInt8 → List UInt8 → Int) (arr last size n : Nat) (m : Mem) : Nat × Mem :=
  (List.range n).foldl (turn compar arr last size) (0, m)

theorem loop_le (compar : List UInt8 → List UInt8 → Int) (arr last size n : Nat) (m : Mem) :
    (loop compar arr last size n m).1 ≤ n := by
  unfold loop
  induction n with
  | zero => exact le_refl 0
  | succ n ih =>
    rw [List.range_succ, List.foldl_concat]
    unfold turn
    split_ifs
    · exact Nat.succ_le_succ ih
    · exact Nat.le_succ_of_le ih

/-- `qsort`. -/
def qsort (compar : List UInt8 → List UInt8 → Int) (arr nmemb size : Nat) (m : Mem) : Mem :=
  if nmemb ≤ 1 then m
  else
    let last := nmemb - 1
    let pivot := (loop compar arr last size last m).1
    let m := swap (arr + pivot * size) (arr + last * size) size
        (loop compar arr last size last m).2
    let m := if pivot > 1 then qsort compar arr pivot size m else m
    if last - pivot > 1 then qsort compar (arr + (pivot + 1) * size) (last - pivot) size m else m
termination_by nmemb
decreasing_by
  · exact Nat.lt_of_le_of_lt (loop_le _ _ _ _ _ _) (by omega)
  · omega

/-! ## What is to be sorted -/

/-- The elements of an array, in order. -/
def elements (m : Mem) (base nmemb size : Nat) : List (List UInt8) :=
  (List.range nmemb).map fun i => element m size (base + i * size)

/-- The sign of `compar` is a total preorder on the elements of `l`. -/
structure TotalPreorder (compar : List UInt8 → List UInt8 → Int) (l : List (List UInt8)) :
    Prop where
  sign : ∀ x ∈ l, ∀ y ∈ l, compar x y < 0 ↔ 0 < compar y x
  trans : ∀ x ∈ l, ∀ y ∈ l, ∀ z ∈ l, compar x y ≤ 0 → compar y z ≤ 0 → compar x z ≤ 0

variable {compar : List UInt8 → List UInt8 → Int} {m : Mem} {a b size base lo n i j x : Nat}

/-! ## `swap` -/

/-- The ranges of two elements are the same or apart. -/
def SameOrApart (a b size : Nat) : Prop := a = b ∨ a + size ≤ b ∨ b + size ≤ a

theorem swap_spec (h : SameOrApart a b size) (m : Mem) (x : Nat) :
    swap a b size m x =
      if a ≤ x ∧ x < a + size then m (b + (x - a))
      else if b ≤ x ∧ x < b + size then m (a + (x - b))
      else m x := by
  -- After `n` turns the first `n` bytes are exchanged.
  have hturns : ∀ n ≤ size, ∀ x, swap a b n m x =
      if a ≤ x ∧ x < a + n then m (b + (x - a)) else if b ≤ x ∧
        x < b + n then m (a + (x - b)) else m x := by
    intro n hn
    induction n with
    | zero =>
      intro x
      rw [if_neg (by omega), if_neg (by omega)]
      rfl
    | succ n ih =>
      intro x
      have hstep : swap a b (n + 1) m =
          setByte (setByte (swap a b n m) (a + n) (swap a b n m (b + n))) (b + n)
              (swap a b n m (a + n)) := by
        unfold swap
        rw [List.range_succ, List.foldl_concat]
      have hb : swap a b n m (b + n) = m (b + n) := by
        rw [ih (by omega), if_neg (by unfold SameOrApart at h; omega), if_neg (by omega)]
      have ha : swap a b n m (a + n) = m (a + n) := by
        rw [ih (by omega), if_neg (by omega), if_neg (by unfold SameOrApart at h; omega)]
      rw [hstep, ha, hb]
      unfold setByte
      by_cases hxb : x = b + n
      · rw [if_pos hxb]
        rcases h with rfl | hapart
        · rw [if_pos (by omega), hxb, Nat.add_sub_cancel_left]
        · rw [if_neg (by omega), if_pos (by omega), hxb, Nat.add_sub_cancel_left]
      · rw [if_neg hxb]
        by_cases hxa : x = a + n
        · rw [if_pos hxa, if_pos (by omega), hxa, Nat.add_sub_cancel_left]
        · rw [if_neg hxa, ih (by omega)]
          split_ifs <;> first | rfl | omega
  exact hturns size (le_refl size) x

/-! ## Elements -/

theorem element_congr {m' : Mem} (h : ∀ k < size, m (a + k) = m' (b + k)) :
    element m size a = element m' size b :=
  List.map_congr_left fun k hk => h k (List.mem_range.mp hk)

/-- Different elements do not overlap. -/
theorem blocks_apart (base size : Nat) (hij : i < j) :
    base + i * size + size ≤ base + j * size := by
  have := Nat.mul_le_mul_right size hij
  rw [Nat.succ_mul] at this
  omega

theorem blocks_sameOrApart (base size i j : Nat) :
    SameOrApart (base + i * size) (base + j * size) size := by
  rcases lt_trichotomy i j with hlt | rfl | hgt
  · exact .inr (.inl (blocks_apart base size hlt))
  · exact .inl rfl
  · exact .inr (.inr (blocks_apart base size hgt))

/-- The elements of memory, by their index. -/
def elementsOf (m : Mem) (base size : Nat) :
    Nat → List UInt8 := fun k => element m size (base + k * size)

/-- `swap` exchanges two elements. -/
theorem elements_swap (m : Mem) (base size i j : Nat) :
    elementsOf (swap (base + i * size) (base + j * size) size m) base size =
      elementsOf m base size ∘ Equiv.swap i j := by
  have hspec := swap_spec (blocks_sameOrApart base size i j) m
  funext k
  show element _ size (base + k * size) = element m size (base + Equiv.swap i j k * size)
  apply element_congr
  intro n hn
  rw [hspec]
  by_cases hi : k = i
  · rw [hi, Equiv.swap_apply_left, if_pos (by omega)]
    congr 1
    omega
  · have hnoti :
        ¬ (base + i * size ≤ base + k * size + n ∧
        base + k * size + n < base + i * size + size) := by
      rcases lt_or_gt_of_ne hi with hlt | hgt
      · have := blocks_apart base size hlt
        omega
      · have := blocks_apart base size hgt
        omega
    rw [if_neg hnoti]
    by_cases hj : k = j
    · rw [hj, Equiv.swap_apply_right, if_pos (by omega)]
      congr 1
      omega
    · have hnotj :
          ¬ (base + j * size ≤ base + k * size + n ∧
          base + k * size + n < base + j * size + size) := by
        rcases lt_or_gt_of_ne hj with hlt | hgt
        · have := blocks_apart base size hlt
          omega
        · have := blocks_apart base size hgt
          omega
      rw [if_neg hnotj, Equiv.swap_apply_of_ne_of_ne hi hj]

/-- `swap` leaves alone what is outside of the two elements. -/
theorem swap_outside (h : SameOrApart a b size) (ha : x < a ∨ a + size ≤ x)
    (hb : x < b ∨ b + size ≤ x) :
    swap a b size m x = m x := by
  rw [swap_spec h, if_neg (by omega), if_neg (by omega)]

/-! ## The code and the sort -/

/-- The test of the code. -/
def below (compar : List UInt8 → List UInt8 → Int) (x y : List UInt8) : Bool := compar x y < 0

/-- The loop on an array that begins at the element `lo` is the partition loop. -/
theorem loop_spec (compar : List UInt8 → List UInt8 → Int) (base size lo last n : Nat) (m : Mem) :
    Lib.partitionLoop (below compar) (lo + last) lo n (elementsOf m base size) =
      (lo + (loop compar (base + lo * size) last size n m).1,
        elementsOf (loop compar (base + lo * size) last size n m).2 base size) := by
  unfold Lib.partitionLoop loop
  induction n with
  | zero => rfl
  | succ n ih =>
    rw [List.range'_concat, List.foldl_concat, List.range_succ, List.foldl_concat, ih,
      Nat.one_mul]
    generalize (List.range n).foldl (turn compar (base + lo * size) last size) (0, m) = s
    have haddr : ∀ k, base + lo * size + k * size = base + (lo + k) * size := by
      intro k
      rw [Nat.add_mul, Nat.add_assoc]
    unfold partitionStep turn
    dsimp only
    rw [haddr, haddr, haddr]
    by_cases hlt :
      compar (element s.2 size (base + (lo + n) * size))
      (element s.2 size (base + (lo + last) * size)) < 0
    · have htest :
          below compar (elementsOf s.2 base size (lo + n)) (elementsOf s.2 base size (lo + last))
          = true :=
        decide_eq_true hlt
      rw [if_pos hlt, if_pos htest, elements_swap]
      rfl
    · have htest :
          ¬ below compar (elementsOf s.2 base size (lo + n))
          (elementsOf s.2 base size (lo + last)) = true :=
        fun h => hlt (of_decide_eq_true h)
      rw [if_neg hlt, if_neg htest]

/-- The first part of a call, up to the recursion. -/
theorem partition_spec (compar : List UInt8 → List UInt8 → Int) (base size lo n : Nat) (m : Mem) :
    Lib.partitionRange (below compar) lo n (elementsOf m base size) =
      (lo + (loop compar (base + lo * size) (n - 1) size (n - 1) m).1,
        elementsOf (swap
          (base + (lo + (loop compar (base + lo * size) (n - 1) size (n - 1) m).1) * size)
          (base + (lo + (n - 1)) * size) size
            (loop compar (base + lo * size) (n - 1) size (n - 1) m).2) base size) := by
  unfold Lib.partitionRange
  rw [loop_spec, elements_swap]

/-- On the elements the code is the sort. -/
theorem elements_qsort (compar : List UInt8 → List UInt8 → Int) (base size lo n : Nat) (m : Mem) :
    elementsOf (qsort compar (base + lo * size) n size m) base size =
      Lib.quicksort (below compar) lo n (elementsOf m base size) := by
  induction n using Nat.strongRecOn generalizing lo m with
  | _ n ih =>
    have haddr : ∀ k, base + lo * size + k * size = base + (lo + k) * size := by
      intro k
      rw [Nat.add_mul, Nat.add_assoc]
    rw [qsort, Lib.quicksort]
    by_cases hn : n ≤ 1
    · rw [if_pos hn, dif_pos hn]
    · rw [if_neg hn, dif_neg hn, partition_spec]
      dsimp only
      rw [haddr, haddr, haddr]
      have hle := loop_le compar (base + lo * size) (n - 1) size (n - 1) m
      generalize hpivot :
        (loop compar (base + lo * size) (n - 1) size (n - 1) m).1 = pivot at hle ⊢
      generalize swap (base + (lo + pivot) * size) (base + (lo + (n - 1)) * size) size
        (loop compar (base + lo * size) (n - 1) size (n - 1) m).2 = m'
      -- The parts are sorted by the same calls.
      have hpart : ∀ lo k m', k < n →
          elementsOf (if k > 1 then qsort compar (base + lo * size) k size m' else m') base size =
            if k > 1 then Lib.quicksort (below compar) lo k (elementsOf m' base size)
              else elementsOf m' base size := by
        intro lo k m' hk
        split_ifs
        · exact ih k hk lo m'
        · rfl
      rw [show lo + (n - 1) - (lo + pivot) = n - 1 - pivot by omega, Nat.add_sub_cancel_left,
        ← hpart lo pivot m' (by omega), Nat.add_assoc lo pivot 1,
          hpart (lo + (pivot + 1)) (n - 1 - pivot) _ (by omega)]

/-- What is outside of an array is outside of its elements. -/
theorem outside_block {nmemb k : Nat} (hk : k < nmemb) (hx : x < base ∨ base + nmemb * size ≤ x) :
    x < base + k * size ∨ base + k * size + size ≤ x := by
  have := blocks_apart base size hk
  omega

theorem loop_outside (compar : List UInt8 → List UInt8 → Int) {base size last n : Nat} (m : Mem)
    (hn : n ≤ last)
    (hx : x < base ∨ base + (last + 1) * size ≤ x) :
    (loop compar base last size n m).2 x = m x := by
  induction n with
  | zero => rfl
  | succ n ih =>
    have hle := loop_le compar base last size n m
    have hstep :
        loop compar base last size (n + 1) m =
        turn compar base last size (loop compar base last size n m) n := by
      unfold loop
      rw [List.range_succ, List.foldl_concat]
    rw [hstep]
    unfold turn
    split_ifs
    · have hswap := swap_outside (m := (loop compar base last size n m).2)
        (blocks_sameOrApart base size (loop compar base last size n m).1 n)
        (outside_block (by omega) hx) (outside_block (by omega) hx)
      exact hswap.trans (ih (by omega))
    · exact ih (by omega)

/-- What is outside of the array stays. -/
theorem qsort_outside (compar : List UInt8 → List UInt8 → Int) (base size n : Nat) (m : Mem)
    (hx : x < base ∨ base + n * size ≤ x) : qsort compar base n size m x = m x := by
  induction n using Nat.strongRecOn generalizing base m with
  | _ n ih =>
    rw [qsort]
    by_cases hn : n ≤ 1
    · rw [if_pos hn]
    · rw [if_neg hn]
      have hle := loop_le compar base (n - 1) size (n - 1) m
      have hloop : (loop compar base (n - 1) size (n - 1) m).2 x = m x := by
        apply loop_outside compar m (le_refl (n - 1))
        rwa [Nat.sub_add_cancel (by omega)]
      generalize (loop compar base (n - 1) size (n - 1) m).1 = pivot at hle ⊢
      generalize (loop compar base (n - 1) size (n - 1) m).2 = m₁ at hloop ⊢
      have hswap := swap_outside (m := m₁) (blocks_sameOrApart base size pivot (n - 1))
        (outside_block (by omega) hx) (outside_block (by omega) hx)
      generalize swap (base + pivot * size) (base + (n - 1) * size) size m₁ = m₂ at hswap ⊢
      have hleft : (if pivot > 1 then qsort compar base pivot size m₂ else m₂) x = m₂ x := by
        split_ifs
        · refine ih pivot (by omega) base m₂ ?_
          have := Nat.mul_le_mul_right size (by omega : pivot ≤ n)
          omega
        · rfl
      generalize (if pivot > 1 then qsort compar base pivot size m₂ else m₂) = m₃ at hleft ⊢
      have hright :
          (if n - 1 - pivot > 1
          then qsort compar (base + (pivot + 1) * size) (n - 1 - pivot) size m₃
          else m₃) x = m₃ x := by
        split_ifs
        · refine ih (n - 1 - pivot) (by omega) _ m₃ ?_
          have hend : base + (pivot + 1) * size + (n - 1 - pivot) * size = base + n * size := by
            rw [Nat.add_assoc, ← Nat.add_mul, show pivot + 1 + (n - 1 - pivot) = n by omega]
          rw [hend]
          omega
        · rfl
      rw [hright, hleft, hswap, hloop]

/-! ## The result -/

/-- The sign of `compar` makes its test an order. -/
theorem TotalPreorder.strictOn {l : List (List UInt8)} (h : TotalPreorder compar l) :
    StrictOn {x | x ∈ l} (below compar) := by
  have hle : ∀ x ∈ l, ∀ y ∈ l, below compar y x = false → compar x y ≤ 0 := by
    intro x hx y hy hbelow
    have := of_decide_eq_false hbelow
    have := h.sign y hy x hx
    omega
  refine ⟨fun x hx y hy hlt => ?_, fun x hx y hy z hz hxy hyz => ?_⟩
  · have hneg : compar x y < 0 := of_decide_eq_true hlt
    have := (h.sign x hx y hy).mp hneg
    exact decide_eq_false (by omega)
  · have hxz := h.trans x hx y hy z hz (hle x hx y hy hxy) (hle y hy z hz hyz)
    have := h.sign z hz x hx
    exact decide_eq_false (by omega)

/-- `qsort` leaves the elements in order and nothing else changed. -/
theorem qsort_sorts (compar : List UInt8 → List UInt8 → Int) (base nmemb size : Nat) (m : Mem)
    (h : TotalPreorder compar (elements m base nmemb size)) :
    (elements (qsort compar base nmemb size m) base nmemb size).Perm
      (elements m base nmemb size) ∧
      (∀ i j, i < j → j < nmemb →
        compar (element (qsort compar base nmemb size m) size (base + i * size))
          (element (qsort compar base nmemb size m) size (base + j * size)) ≤ 0) ∧
      ∀ x, x < base ∨ base + nmemb * size ≤ x → qsort compar base nmemb size m x = m x := by
  have hsame := elements_qsort compar base size 0 nmemb m
  rw [Nat.zero_mul, Nat.add_zero] at hsame
  obtain ⟨hrearranged, hsorted⟩ := quicksort_spec (below compar) 0 nmemb (elementsOf m base size)
  rw [← hsame, Nat.zero_add] at hrearranged hsorted
  have hmem : ∀ k, 0 ≤ k → k < nmemb → elementsOf m base size k ∈ elements m base nmemb size :=
    fun k _ hk =>
    List.mem_map.mpr ⟨k, List.mem_range.mpr hk, rfl⟩
  have hperm :
      (elements (qsort compar base nmemb size m) base nmemb size).Perm
      (elements m base nmemb size) := by
    have := hrearranged.perm
    rwa [Nat.sub_zero, ← List.range_eq_range'] at this
  refine ⟨hperm, fun i j hij hj => ?_, fun x hx => qsort_outside compar base size nmemb m hx⟩
  have hback : ∀ k < nmemb, element (qsort compar base nmemb size m) size (base + k * size) ∈
      elements m base nmemb size := by
    intro k hk
    exact hperm.mem_iff.mp (List.mem_map.mpr ⟨k, List.mem_range.mpr hk, rfl⟩)
  have hnot := of_decide_eq_false (hsorted _ h.strictOn hmem i j (Nat.zero_le i) hij hj)
  have hsign := h.sign _ (hback j hj) _ (hback i (by omega))
  change ¬ compar (element (qsort compar base nmemb size m) size (base + j * size))
    (element (qsort compar base nmemb size m) size (base + i * size)) < 0 at hnot
  omega

/-- Two elements of one byte that compare as numbers. -/
theorem qsort_sorts_two :
    TotalPreorder (fun x y => (x.headD 0).toNat - (y.headD 0).toNat)
      (elements (fun x => if x = 8 then 7 else 3) 8 2 1) ∧
      let compar : List UInt8 → List UInt8 → Int :=
        fun x y => (x.headD 0).toNat - (y.headD 0).toNat
      let m' := qsort compar 8 2 1 fun x => if x = 8 then 7 else 3
      (elements m' 8 2 1).Perm [[7], [3]] ∧
        (∀ i j, i < j → j < 2 → compar (element m' 1 (8 + i * 1)) (element m' 1 (8 + j * 1)) ≤ 0)
          ∧
        ∀ x, x < 8 ∨ 10 ≤ x → m' x = 3 := by
  have horder : TotalPreorder (fun x y => (x.headD 0).toNat - (y.headD 0).toNat)
      (elements (fun x => if x = 8 then 7 else 3) 8 2 1) := by
    constructor
    · intro x _ y _
      omega
    · intro x _ y _ z _ hxy hyz
      omega
  obtain ⟨hperm, hsorted, houtside⟩ := qsort_sorts _ 8 2 1 _ horder
  refine ⟨horder, hperm, hsorted, ?_⟩
  intro x hx
  rw [houtside x hx, if_neg (by omega)]

end Lumin.Libc.Qsort
