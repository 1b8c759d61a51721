import Mathlib.Algebra.Group.End
import Mathlib.Tactic

/-!
# Sorting by partition around the last element

An array is a total function from the indices, and the code sorts a range of it in place.
`lt` is the test of the code.  It needs to be the strict part of a total preorder only on
the elements that are there.

* `partition_spec` is the invariant of the partition loop.
* `quicksort_spec` says that the result is the array rearranged within the range, and
  sorted there.
-/

namespace Lumin.Lib

variable {α : Type}

/-- A turn of the partition loop: where the pivot goes, and the array. -/
def partitionStep (lt : α → α → Bool) (last : Nat) (s : Nat × (Nat → α)) (i : Nat) :
    Nat × (Nat → α) :=
  if lt (s.2 i) (s.2 last) then (s.1 + 1, s.2 ∘ Equiv.swap s.1 i) else s

/-- The partition loop over the `n` indices from `lo` on. -/
def partitionLoop (lt : α → α → Bool) (last lo n : Nat) (a : Nat → α) : Nat × (Nat → α) :=
  (List.range' lo n).foldl (partitionStep lt last) (lo, a)

/-- The array `b` is `a` rearranged between `lo` and `hi`. -/
def Rearranged (lo hi : Nat) (a b : Nat → α) : Prop :=
  ∃ σ : Equiv.Perm Nat, (∀ k, k < lo ∨ hi ≤ k → σ k = k) ∧ b = a ∘ σ

/-- On the elements of `S` the test is the strict part of a total preorder. -/
structure StrictOn (S : Set α) (lt : α → α → Bool) : Prop where
  asymm : ∀ x ∈ S, ∀ y ∈ S, lt x y = true → lt y x = false
  trans : ∀ x ∈ S, ∀ y ∈ S, ∀ z ∈ S, lt y x = false → lt z y = false → lt z x = false

variable {lt : α → α → Bool} {a b c : Nat → α} {lo hi lo' hi' n i last : Nat} {S : Set α}

/-! ## Rearranging -/

theorem Rearranged.refl (lo hi : Nat) (a : Nat → α) :
    Rearranged lo hi a a := ⟨1, fun _ _ => rfl, rfl⟩

theorem Rearranged.trans (h : Rearranged lo hi a b) (h' : Rearranged lo hi b c) :
    Rearranged lo hi a c := by
  obtain ⟨σ, hσ, rfl⟩ := h
  obtain ⟨τ, hτ, rfl⟩ := h'
  refine ⟨σ * τ, fun k hk => ?_, rfl⟩
  rw [Equiv.Perm.mul_apply, hτ k hk, hσ k hk]

theorem Rearranged.mono (h : Rearranged lo hi a b) (hlo : lo' ≤ lo) (hhi : hi ≤ hi') :
    Rearranged lo' hi' a b := by
  obtain ⟨σ, hσ, rfl⟩ := h
  exact ⟨σ, fun k hk => hσ k (by omega), rfl⟩

theorem Rearranged.outside (h : Rearranged lo hi a b) {k : Nat} (hk : k < lo ∨ hi ≤ k) :
    b k = a k := by
  obtain ⟨σ, hσ, rfl⟩ := h
  exact congrArg a (hσ k hk)

/-- A permutation that fixes what is outside of the range does not lead out of it. -/
theorem perm_inside {σ : Equiv.Perm Nat} (hσ : ∀ k, k < lo ∨ hi ≤ k → σ k = k) {k : Nat}
    (hlo : lo ≤ k) (hhi : k < hi) :
    lo ≤ σ k ∧ σ k < hi := by
  by_contra hout
  have hfix : σ (σ k) = σ k := hσ (σ k) (by omega)
  have := σ.injective hfix
  omega

/-- What holds of all elements in the range holds of them wherever they go. -/
theorem Rearranged.all (h : Rearranged lo hi a b) {P : α → Prop} (hP : ∀ k, lo ≤ k → k < hi →
    P (a k)) :
    ∀ k, lo ≤ k → k < hi → P (b k) := by
  obtain ⟨σ, hσ, rfl⟩ := h
  intro k hlo hhi
  obtain ⟨hlo', hhi'⟩ := perm_inside hσ hlo hhi
  exact hP (σ k) hlo' hhi'

theorem rearranged_swap (a : Nat → α) {i j : Nat} (hi' : lo ≤ i ∧ i < hi) (hj : lo ≤ j ∧ j < hi) :
    Rearranged lo hi a (a ∘ Equiv.swap i j) :=
  ⟨Equiv.swap i j, fun k hk => Equiv.swap_apply_of_ne_of_ne (by omega) (by omega), rfl⟩

/-- The elements of the range, in order. -/
theorem Rearranged.perm (h : Rearranged lo hi a b) :
    ((List.range' lo (hi - lo)).map b).Perm ((List.range' lo (hi - lo)).map a) := by
  obtain ⟨σ, hσ, rfl⟩ := h
  have hindices : ((List.range' lo (hi - lo)).map σ).Perm (List.range' lo (hi - lo)) := by
    refine (List.perm_ext_iff_of_nodup (List.Nodup.map σ.injective List.nodup_range')
      List.nodup_range').mpr fun x => ?_
    rw [List.mem_map, List.mem_range'_1]
    constructor
    · rintro ⟨k, hk, rfl⟩
      have hk := List.mem_range'_1.mp hk
      obtain ⟨hlo, hhi⟩ := perm_inside hσ hk.1 (by omega)
      exact ⟨hlo, by omega⟩
    · intro hx
      have hinv : ∀ k, k < lo ∨ hi ≤ k → σ.symm k = k :=
        fun k hk => σ.symm_apply_eq.mpr (hσ k hk).symm
      obtain ⟨hlo, hhi⟩ := perm_inside hinv hx.1 (by omega)
      exact ⟨σ.symm x, List.mem_range'_1.mpr ⟨hlo, by omega⟩, σ.apply_symm_apply x⟩
  rw [← List.map_map]
  exact hindices.map a

/-! ## The partition -/

/-- What holds before the turn for `i`: the elements in front of `p` are below the pivot
element, those from `p` on are not. -/
structure PartitionInv (lt : α → α → Bool) (last lo : Nat) (a : Nat → α) (i : Nat)
    (s : Nat × (Nat → α)) : Prop where
  lower : lo ≤ s.1
  upper : s.1 ≤ i
  pivot : s.2 last = a last
  rearranged : Rearranged lo last a s.2
  below : ∀ k, lo ≤ k → k < s.1 → lt (s.2 k) (a last) = true
  above : ∀ k, s.1 ≤ k → k < i → lt (s.2 k) (a last) = false

theorem PartitionInv.step {s : Nat × (Nat → α)} (h : PartitionInv lt last lo a i s) (hi : lo ≤ i)
    (hlast : i < last) :
    PartitionInv lt last lo a (i + 1) (partitionStep lt last s i) := by
  obtain ⟨p, b⟩ := s
  obtain ⟨hlower, hupper, hpivot, hrearranged, hbelow, habove⟩ := h
  dsimp only at hlower hupper hpivot hrearranged hbelow habove
  unfold partitionStep
  dsimp only
  by_cases hlt : lt (b i) (b last) = true
  · rw [if_pos hlt]
    rw [hpivot] at hlt
    have hswap : ∀ k, k ≠ p → k ≠ i → (b ∘ Equiv.swap p i) k = b k := fun k hp hi =>
      congrArg b (Equiv.swap_apply_of_ne_of_ne hp hi)
    have hleft : (b ∘ Equiv.swap p i) p = b i := congrArg b (Equiv.swap_apply_left p i)
    have hright : (b ∘ Equiv.swap p i) i = b p := congrArg b (Equiv.swap_apply_right p i)
    have hre := hrearranged.trans (rearranged_swap b ⟨hlower, hupper.trans_lt hlast⟩ ⟨hi, hlast⟩)
    generalize b ∘ Equiv.swap p i = c at hswap hleft hright hre ⊢
    refine ⟨Nat.le_succ_of_le hlower, Nat.succ_le_succ hupper, ?_, hre, fun k hlo hk => ?_,
      fun k hlo hk => ?_⟩
    · exact (hswap last (by omega) (by omega)).trans hpivot
    · dsimp only at hk ⊢
      rcases Nat.lt_succ_iff_lt_or_eq.mp hk with hk | rfl
      · rw [hswap k (by omega) (by omega)]
        exact hbelow k hlo hk
      · rw [hleft]
        exact hlt
    · dsimp only at hlo ⊢
      by_cases heq : k = i
      · rw [heq, hright]
        exact habove p (le_refl p) (by omega)
      · rw [hswap k (by omega) heq]
        exact habove k (by omega) (by omega)
  · rw [if_neg hlt]
    rw [hpivot] at hlt
    refine ⟨hlower, Nat.le_succ_of_le hupper, hpivot, hrearranged, hbelow, fun k hlo hk => ?_⟩
    rcases Nat.lt_succ_iff_lt_or_eq.mp hk with hk | rfl
    · exact habove k hlo hk
    · exact Bool.not_eq_true _ ▸ hlt

theorem partitionLoop_inv (lt : α → α → Bool) (a : Nat → α) (hn : lo + n ≤ last) :
    PartitionInv lt last lo a (lo + n) (partitionLoop lt last lo n a) := by
  unfold partitionLoop
  induction n with
  | zero =>
    exact ⟨le_refl lo, le_refl lo, rfl, Rearranged.refl lo last a,
      fun k hlo hk => absurd hk (not_lt.mpr hlo),
      fun k hlo hk => absurd hk (not_lt.mpr hlo)⟩
  | succ n ih =>
    rw [List.range'_concat, List.foldl_concat, Nat.one_mul]
    exact (ih (by omega)).step (Nat.le_add_right _ _) (by omega)

/-- The partition of the `n` elements from `lo` on: where the pivot is, and the array. -/
def partitionRange (lt : α → α → Bool) (lo n : Nat) (a : Nat → α) : Nat × (Nat → α) :=
  let s := partitionLoop lt (lo + (n - 1)) lo (n - 1) a
  (s.1, s.2 ∘ Equiv.swap s.1 (lo + (n - 1)))

/-- The elements in front of the pivot are below it, and those behind it are not. -/
structure Partitioned (lt : α → α → Bool) (lo hi : Nat) (a : Nat → α) (s : Nat × (Nat → α)) :
    Prop where
  lower : lo ≤ s.1
  upper : s.1 < hi
  rearranged : Rearranged lo hi a s.2
  below : ∀ k, lo ≤ k → k < s.1 → lt (s.2 k) (s.2 s.1) = true
  above : ∀ k, s.1 < k → k < hi → lt (s.2 k) (s.2 s.1) = false

theorem partitionRange_spec (lt : α → α → Bool) (lo : Nat) (a : Nat → α) (hn : 0 < n) :
    Partitioned lt lo (lo + n) a (partitionRange lt lo n a) := by
  have hinv := partitionLoop_inv lt a (le_refl (lo + (n - 1)))
  unfold partitionRange
  dsimp only
  generalize partitionLoop lt (lo + (n - 1)) lo (n - 1) a = s at hinv ⊢
  obtain ⟨p, b⟩ := s
  obtain ⟨hlower, hupper, hpivot, hrearranged, hbelow, habove⟩ := hinv
  dsimp only at hlower hupper hpivot hrearranged hbelow habove ⊢
  generalize hlast : lo + (n - 1) = last at *
  have hswap : ∀ k, k ≠ p → k ≠ last → (b ∘ Equiv.swap p last) k = b k := fun k hp hl =>
    congrArg b (Equiv.swap_apply_of_ne_of_ne hp hl)
  have hleft : (b ∘ Equiv.swap p last) p = a last :=
    (congrArg b (Equiv.swap_apply_left p last)).trans hpivot
  have hright : (b ∘ Equiv.swap p last) last = b p := congrArg b (Equiv.swap_apply_right p last)
  have hre : Rearranged lo (lo + n) a (b ∘ Equiv.swap p last) :=
    (hrearranged.mono (le_refl lo) (by omega)).trans (rearranged_swap b (by omega) (by omega))
  generalize b ∘ Equiv.swap p last = c at hswap hleft hright hre ⊢
  refine ⟨hlower, by dsimp only; omega, hre, fun k hlo hk => ?_, fun k hlo hk => ?_⟩
  · dsimp only at hk ⊢
    rw [hleft, hswap k (by omega) (by omega)]
    exact hbelow k hlo hk
  · dsimp only at hlo ⊢
    rw [hleft]
    by_cases heq : k = last
    · rw [heq, hright]
      exact habove p (le_refl p) (by omega)
    · rw [hswap k (by omega) heq]
      exact habove k (by omega) (by omega)

/-! ## Quicksort -/

theorem partitionRange_bounds {p : Nat} (hn : ¬ n ≤ 1) (hs : partitionRange lt lo n a = (p, b)) :
    lo ≤ p ∧ p < lo + n := by
  have hspec := partitionRange_spec lt lo a (by omega : 0 < n)
  rw [hs] at hspec
  exact ⟨hspec.lower, hspec.upper⟩

/-- Sort the `n` elements from `lo` on. -/
def quicksort (lt : α → α → Bool) (lo n : Nat) (a : Nat → α) : Nat → α :=
  if _hn : n ≤ 1 then a
  else
    match _hs : partitionRange lt lo n a with
    | (p, a) =>
      let a := if p - lo > 1 then quicksort lt lo (p - lo) a else a
      if lo + (n - 1) - p > 1 then quicksort lt (p + 1) (lo + (n - 1) - p) a else a
termination_by n
decreasing_by
  · have hbounds := partitionRange_bounds _hn _hs
    omega
  · have hbounds := partitionRange_bounds _hn _hs
    omega

/-- The range is sorted: no element is below an earlier one. -/
def SortedBetween (lt : α → α → Bool) (lo hi : Nat) (a : Nat → α) : Prop :=
  ∀ i j, lo ≤ i → i < j → j < hi → lt (a j) (a i) = false

/-- Two sorted parts around the pivot. -/
theorem Partitioned.sorted {s : Nat × (Nat → α)} (h : Partitioned lt lo hi a s)
    (hS : StrictOn S lt) (hmem : ∀ k, lo ≤ k → k < hi → a k ∈ S)
    (hleft : Rearranged lo s.1 s.2 b) (hsorted : SortedBetween lt lo s.1 b)
    (hright : Rearranged (s.1 + 1) hi b c) (hsorted' : SortedBetween lt (s.1 + 1) hi c) :
    SortedBetween lt lo hi c := by
  obtain ⟨p, d⟩ := s
  obtain ⟨hlower, hupper, hre, hbelow, habove⟩ := h
  dsimp only at *
  have hd : ∀ k, lo ≤ k → k < hi → d k ∈ S := hre.all hmem
  have hb : ∀ k, lo ≤ k → k < hi → b k ∈ S := (hleft.mono (le_refl lo) hupper.le).all hd
  have hc : ∀ k, lo ≤ k → k < hi → c k ∈ S := (hright.mono (by omega) (le_refl hi)).all hb
  have hpivot : c p = d p := (hright.outside (by omega)).trans (hleft.outside (by omega))
  -- The parts keep their elements, so they stay on their sides of the pivot.
  have hlow : ∀ k, lo ≤ k → k < p → lt (c k) (d p) = true := by
    intro k hlo hk
    rw [hright.outside (by omega)]
    exact hleft.all (P := fun x => lt x (d p) = true) hbelow k hlo hk
  have hhigh : ∀ k, p < k → k < hi → lt (c k) (d p) = false := by
    have hb' : ∀ k, p + 1 ≤ k → k < hi → lt (b k) (d p) = false := by
      intro k hlo hk
      rw [hleft.outside (by omega)]
      exact habove k hlo hk
    exact hright.all (P := fun x => lt x (d p) = false) hb'
  intro i j hlo hij hhi
  rcases lt_trichotomy i p with hi | rfl | hi
  · have hle : lt (d p) (c i) = false :=
      hS.asymm _ (hc i hlo (by omega)) _ (hd p hlower hupper) (hlow i hlo hi)
    rcases lt_trichotomy j p with hj | rfl | hj
    · rw [hright.outside (by omega), hright.outside (by omega)]
      exact hsorted i j hlo hij hj
    · rw [hpivot]
      exact hle
    · exact hS.trans _ (hc i hlo (by omega)) _ (hd p hlower hupper) _ (hc j (by omega) hhi) hle
        (hhigh j hj hhi)
  · rw [hpivot]
    exact hhigh j hij hhi
  · exact hsorted' i j hi hij hhi

/-- The array is rearranged within the range, and sorted there if the test is an order of its
elements. -/
theorem quicksort_spec (lt : α → α → Bool) (lo n : Nat) (a : Nat → α) :
    Rearranged lo (lo + n) a (quicksort lt lo n a) ∧
      ∀ S, StrictOn S lt → (∀ k, lo ≤ k → k < lo + n → a k ∈ S) →
        SortedBetween lt lo (lo + n) (quicksort lt lo n a) := by
  induction n using Nat.strongRecOn generalizing lo a with
  | _ n ih =>
    rw [quicksort]
    by_cases hn : n ≤ 1
    · rw [dif_pos hn]
      exact ⟨Rearranged.refl _ _ a, fun S _ _ i j hlo hij hhi => by omega⟩
    · rw [dif_neg hn]
      -- A part of one element or none is left as it is.
      have hpart : ∀ lo m (d : Nat → α), m < n →
          Rearranged lo (lo + m) d (if m > 1 then quicksort lt lo m d else d) ∧
            ∀ S, StrictOn S lt → (∀ k, lo ≤ k → k < lo + m → d k ∈ S) →
              SortedBetween lt lo (lo + m) (if m > 1 then quicksort lt lo m d else d) := by
        intro lo m d hm
        split_ifs with hone
        · exact ih m hm lo d
        · exact ⟨Rearranged.refl _ _ d, fun S _ _ i j hlo hij hhi => by omega⟩
      split
      next p d hs =>
        have hspec := partitionRange_spec lt lo a (by omega : 0 < n)
        rw [hs] at hspec
        have hlower : lo ≤ p := hspec.lower
        have hupper : p < lo + n := hspec.upper
        obtain ⟨hleft, hsorted⟩ := hpart lo (p - lo) d (by omega)
        rw [show lo + (p - lo) = p by omega] at hleft hsorted
        dsimp only
        generalize (if p - lo > 1 then quicksort lt lo (p - lo) d else d) = b at hleft hsorted ⊢
        obtain ⟨hright, hsorted'⟩ := hpart (p + 1) (lo + (n - 1) - p) b (by omega)
        rw [show p + 1 + (lo + (n - 1) - p) = lo + n by omega] at hright hsorted'
        have hwhole := hspec.rearranged.trans
          ((hleft.mono (le_refl lo) hupper.le).trans (hright.mono (by omega) (le_refl _)))
        refine ⟨hwhole, fun S hS hmem => ?_⟩
        have hd : ∀ k, lo ≤ k → k < lo + n → d k ∈ S := hspec.rearranged.all hmem
        have hb : ∀ k, lo ≤ k → k < lo + n → b k ∈ S := (hleft.mono (le_refl lo) hupper.le).all hd
        exact hspec.sorted hS hmem hleft (hsorted S hS fun k hlo hk => hd k hlo (by omega)) hright
          (hsorted' S hS fun k hlo hk => hb k (by omega) hk)

end Lumin.Lib
