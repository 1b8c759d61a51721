import Mathlib.Data.Nat.Digits.Defs
import Mathlib.Tactic

/-!
# Numbers read digit by digit

A number in some base as the list of its digits, the most significant one first, as a
scanner meets them.  A scanner that must stay below a bound looks before each step
whether the next digit would take it over the bound, by a division, and from then on
reads the other digits for nothing.  `accumulate_eq` says that this is exact.

A scanner may also leave out the digits that do not fit and go on with the others.
`skipDigits_last` says when it ends with a digit that fits although the number does not.
-/

namespace Lumin.Lib

/-- The number with the digits `ds`, the most significant one first. -/
def numberOf (base : Nat) (ds : List Nat) : Nat := Nat.ofDigits base ds.reverse

/-- A step of the scanner: `none` is a number above the bound. -/
def accumulateStep (bound base : Nat) (acc : Option Nat) (d : Nat) : Option Nat :=
  acc.bind fun v => if v > (bound - d) / base then none else some (v * base + d)

/-- The scanner. -/
def accumulate (bound base : Nat) (acc : Option Nat) (ds : List Nat) : Option Nat :=
  ds.foldl (accumulateStep bound base) acc

/-- A step of the scanner that leaves out a digit that does not fit: the number that it
keeps, and whether it has taken the digit. -/
def skipStep (bound base : Nat) (acc : Nat × Bool) (d : Nat) : Nat × Bool :=
  if acc.1 > (bound - d) / base then (acc.1, false) else (acc.1 * base + d, true)

/-- The scanner that leaves out digits. -/
def skipDigits (bound base : Nat) (acc : Nat × Bool) (ds : List Nat) : Nat × Bool :=
  ds.foldl (skipStep bound base) acc

/-- The last digit fits behind digits that were left out: what is kept of the number is the
bound without its last digit. -/
def Relapses (bound base : Nat) (ds : List Nat) : Prop :=
  ∃ kept skipped d, ds = kept ++ (skipped ++ [d]) ∧ numberOf base kept = bound / base ∧
      skipped ≠ [] ∧
    (∀ e ∈ skipped, bound % base < e) ∧ d ≤ bound % base

variable {bound base v d : Nat} {ds es : List Nat} {b : Bool}

theorem numberOf_nil : numberOf base [] = 0 := rfl

theorem numberOf_concat : numberOf base (ds ++ [d]) = numberOf base ds * base + d := by
  unfold numberOf
  rw [List.reverse_append, List.reverse_singleton, List.singleton_append, Nat.ofDigits_cons]
  ring

theorem numberOf_cons (base d : Nat) (ds : List Nat) :
    numberOf base (d :: ds) = d * base ^ ds.length + numberOf base ds := by
  unfold numberOf
  rw [List.reverse_cons, Nat.ofDigits_append, Nat.ofDigits_singleton, List.length_reverse]
  ring

/-- A leading zero adds nothing. -/
theorem numberOf_zero_cons (base : Nat) (ds : List Nat) :
    numberOf base (0 :: ds) = numberOf base ds := by
  rw [numberOf_cons, Nat.zero_mul, Nat.zero_add]

/-- More digits make no smaller number. -/
theorem numberOf_le_append (hbase : 0 < base) (ds es : List Nat) :
    numberOf base ds ≤ numberOf base (ds ++ es) := by
  induction es using List.reverseRecOn with
  | nil => rw [List.append_nil]
  | append_singleton es d ih =>
    rw [← List.append_assoc, numberOf_concat]
    calc numberOf base ds ≤ numberOf base (ds ++ es) := ih
      _ ≤ numberOf base (ds ++ es) * base := Nat.le_mul_of_pos_right _ hbase
      _ ≤ numberOf base (ds ++ es) * base + d := Nat.le_add_right _ d

/-- The division finds out whether the next digit leads over the bound. -/
theorem exceeds_iff (hbase : 0 < base) (hd : d ≤ bound) :
    v > (bound - d) / base ↔ v * base + d > bound := by
  rw [gt_iff_lt, Nat.div_lt_iff_lt_mul hbase]
  omega

theorem accumulate_none (bound base : Nat) (ds : List Nat) :
    accumulate bound base none ds = none := by
  induction ds with
  | nil => rfl
  | cons d ds ih => exact ih

/-- With the digits `ds` behind it, the scanner ends with the whole number, unless this is
above the bound. -/
theorem accumulate_eq (hbase : 0 < base) (hes : ∀ e ∈ es, e ≤ bound)
    (hds : numberOf base ds ≤ bound) :
    accumulate bound base (some (numberOf base ds)) es =
      if numberOf base (ds ++ es) ≤ bound then some (numberOf base (ds ++ es)) else none := by
  induction es generalizing ds with
  | nil =>
    rw [List.append_nil, if_pos hds]
    rfl
  | cons e es ih =>
    have he := hes e List.mem_cons_self
    have hsplit : ds ++ e :: es = (ds ++ [e]) ++ es := by simp
    show accumulate bound base (accumulateStep bound base (some (numberOf base ds)) e) es = _
    unfold accumulateStep
    rw [Option.bind_some, hsplit]
    by_cases hover : numberOf base ds * base + e > bound
    · -- The bound stays exceeded.
      have hle := numberOf_le_append hbase (ds ++ [e]) es
      rw [numberOf_concat] at hle
      rw [if_pos ((exceeds_iff hbase he).mpr hover), accumulate_none, if_neg (by omega)]
    · rw [if_neg fun h => hover ((exceeds_iff hbase he).mp h), ← numberOf_concat]
      apply ih (fun e he => hes e (List.mem_cons_of_mem _ he))
      rw [numberOf_concat]
      exact not_lt.mp hover

/-! ## Leaving out digits -/

theorem skipDigits_concat (acc : Nat × Bool) :
    skipDigits bound base acc (ds ++ [d]) =
      skipStep bound base (skipDigits bound base acc ds) d := by
  unfold skipDigits
  rw [List.foldl_concat]

theorem skipStep_eq (hbase : 0 < base) (hd : d ≤ bound) (acc : Nat × Bool) :
    skipStep bound base acc d = if bound < acc.1 * base + d then (acc.1, false)
      else (acc.1 * base + d, true) := by
  unfold skipStep
  rw [if_congr (exceeds_iff hbase hd) rfl rfl]

/-- Of a number within the bound nothing is left out. -/
theorem skipDigits_fits (hbase : 0 < base) (hds : ∀ e ∈ ds, e ≤ bound)
    (hfits : numberOf base ds ≤ bound) :
    skipDigits bound base (0, b) ds = (numberOf base ds, if ds = [] then b else true) := by
  induction ds using List.reverseRecOn with
  | nil => rfl
  | append_singleton ds d ih =>
    have hprefix := (numberOf_le_append hbase ds [d]).trans hfits
    rw [skipDigits_concat, ih (fun e he => hds e (List.mem_append_left _ he)) hprefix,
      skipStep_eq hbase (hds d (List.mem_append_right _ (List.mem_singleton_self d)))]
    rw [numberOf_concat] at hfits ⊢
    rw [if_neg (not_lt.mpr hfits),
      if_neg (List.append_ne_nil_of_right_ne_nil ds (List.cons_ne_nil d []))]

/-- Above the bound, where a digit could still fit, the digits that were left out are the
ones behind the number that is kept. -/
theorem skipDigits_held (hbase : 2 ≤ base) (hbound : base ≤ bound) (hds : ∀ e ∈ ds, e < base)
    (hover : bound < numberOf base ds)
    (hroom : (skipDigits bound base (0, b) ds).1 * base ≤ bound) :
    ∃ kept skipped, ds = kept ++ skipped ∧ skipped ≠ [] ∧
        numberOf base kept = (skipDigits bound base (0, b) ds).1 ∧
      ∀ e ∈ skipped, bound < numberOf base kept * base + e := by
  induction ds using List.reverseRecOn with
  | nil => exact absurd hover (Nat.not_lt_zero _)
  | append_singleton ds d ih =>
    have hinit : ∀ e ∈ ds, e < base := fun e he => hds e (List.mem_append_left _ he)
    have hd : d < base := hds d (List.mem_append_right _ (List.mem_singleton_self d))
    have hfits : numberOf base ds ≤ bound →
        skipDigits bound base (0, b) ds = (numberOf base ds, if ds = [] then b else true) :=
      skipDigits_fits (by omega) fun e he => (hinit e he).le.trans hbound
    rw [skipDigits_concat, skipStep_eq (by omega) (hd.le.trans hbound)] at hroom ⊢
    generalize skipDigits bound base (0, b) ds = acc at ih hfits hroom ⊢
    by_cases hinside : numberOf base ds ≤ bound
    · -- The last digit is the first one that does not fit.
      rw [hfits hinside] at hroom ⊢
      rw [numberOf_concat] at hover
      rw [if_pos hover] at hroom ⊢
      refine ⟨ds, [d], rfl, List.cons_ne_nil _ _, rfl, fun e he => ?_⟩
      rw [List.mem_singleton.mp he]
      exact hover
    · have hover' := not_le.mp hinside
      split_ifs at hroom ⊢ with hskip
      · obtain ⟨kept, skipped, rfl, hne, hkept, hlarge⟩ := ih hinit hover' hroom
        refine ⟨kept, skipped ++ [d], by rw [List.append_assoc], by simp, hkept, fun e he => ?_⟩
        rcases List.mem_append.mp he with he | he
        · exact hlarge e he
        · rw [List.mem_singleton.mp he, hkept]
          exact hskip
      · -- What is kept with a digit behind it leaves no room for another one.
        dsimp only at hroom
        have hle : acc.1 * base ≤ bound := by omega
        obtain ⟨kept, skipped, rfl, hne, hkept, hlarge⟩ := ih hinit hover' hle
        obtain ⟨e, he⟩ := List.exists_mem_of_ne_nil skipped hne
        have hex := hlarge e he
        have helt := hinit e (List.mem_append_right _ he)
        rw [hkept] at hex
        have hpos : acc.1 ≠ 0 := by
          intro h0
          rw [h0] at hex
          omega
        have htwice : 2 * base ≤ (acc.1 * base + d) * base := by
          apply Nat.mul_le_mul_right
          have : 1 * 2 ≤ acc.1 * base := Nat.mul_le_mul (Nat.one_le_iff_ne_zero.mpr hpos) hbase
          omega
        have hmul : acc.1 * base * 2 ≤ acc.1 * base * base := Nat.mul_le_mul_left _ hbase
        have hone : base ≤ acc.1 * base := Nat.le_mul_of_pos_left _ (Nat.pos_of_ne_zero hpos)
        rw [Nat.add_mul] at hroom
        omega

/-- A quotient from its bounds. -/
theorem bound_div_eq (hle : v * base ≤ bound) (hlt : bound < v * base + base) :
    v = bound / base ∧ bound % base = bound - v * base := by
  have hdiv : bound / base = v := Nat.div_eq_of_lt_le hle (by rw [Nat.succ_mul]; exact hlt)
  refine ⟨hdiv.symm, ?_⟩
  have := Nat.div_add_mod' bound base
  rw [hdiv] at this
  omega

/-- Above the bound, the last digit is taken if the number relapses. -/
theorem skipDigits_last (hbase : 2 ≤ base) (hbound : base ≤ bound) (hds : ∀ e ∈ ds, e < base)
    (hover : bound < numberOf base ds) : (skipDigits bound base (0, b) ds).2 = true ↔
      Relapses bound base ds := by
  have hfits : ∀ e ∈ ds, e ≤ bound := fun e he => (hds e he).le.trans hbound
  constructor
  · intro htaken
    induction ds using List.reverseRecOn with
    | nil => exact absurd hover (Nat.not_lt_zero _)
    | append_singleton ds d _ =>
      have hinit : ∀ e ∈ ds, e < base := fun e he => hds e (List.mem_append_left _ he)
      have hd : d < base := hds d (List.mem_append_right _ (List.mem_singleton_self d))
      rw [skipDigits_concat, skipStep_eq (by omega) (by omega)] at htaken
      split_ifs at htaken with hskip
      rw [numberOf_concat] at hover
      have hover' : bound < numberOf base ds := by
        by_contra hinside
        rw [skipDigits_fits (by omega) (fun e he => (hinit e he).le.trans hbound)
          (not_lt.mp hinside)] at hskip
        exact hskip hover
      obtain ⟨kept, skipped, rfl, hne, hkept, hlarge⟩ :=
        skipDigits_held hbase hbound hinit hover' (b := b) (by omega)
      rw [← hkept] at hskip
      obtain ⟨e, he⟩ := List.exists_mem_of_ne_nil skipped hne
      have hex := hlarge e he
      have helt := hinit e (List.mem_append_right _ he)
      have hroom : numberOf base kept * base ≤ bound := by omega
      obtain ⟨hdiv, hmod⟩ := bound_div_eq hroom (by omega)
      refine ⟨kept, skipped, d, by rw [List.append_assoc], hdiv, hne, fun e he => ?_, by omega⟩
      have := hlarge e he
      omega
  · rintro ⟨kept, skipped, d, rfl, hkept, hne, hlarge, hd⟩
    have hmod := Nat.div_add_mod' bound base
    have hin : numberOf base kept ≤ bound := by
      rw [hkept]
      exact Nat.div_le_self _ _
    -- The digits behind what is kept change nothing.
    have hheld : ∀ c (es : List Nat), (∀ e ∈ es, bound % base < e ∧ e ≤ bound) →
        (skipDigits bound base (bound / base, c) es).1 = bound / base := by
      intro c es hes
      induction es using List.reverseRecOn with
      | nil => rfl
      | append_singleton es e ih =>
        obtain ⟨he, hle⟩ := hes e (List.mem_append_right _ (List.mem_singleton_self e))
        rw [skipDigits_concat, skipStep_eq (by omega) hle,
          ih fun e he => hes e (List.mem_append_left _ he),
          if_pos (by omega)]
    have hkeep :=
      skipDigits_fits (b := b) (by omega) (fun e he => hfits e (List.mem_append_left _ he)) hin
    have hsplit : skipDigits bound base (0, b) (kept ++ skipped) =
        skipDigits bound base (skipDigits bound base (0, b) kept) skipped := List.foldl_append
    rw [← List.append_assoc, skipDigits_concat, skipStep_eq (by omega) (hfits d (by simp)),
      hsplit, hkeep, hkept,
      hheld _ _ fun e he => ⟨hlarge e he, hfits e (by simp [he])⟩, if_neg (by omega)]

/-- A number that relapses is above the bound. -/
theorem Relapses.over (hbase : 0 < base) (h : Relapses bound base ds) :
    bound < numberOf base ds := by
  obtain ⟨kept, skipped, d, rfl, hkept, hne, hlarge, -⟩ := h
  match skipped, hne with
  | e :: skipped, _ =>
    have hmod := Nat.div_add_mod' bound base
    have he := hlarge e List.mem_cons_self
    have hle := numberOf_le_append hbase (kept ++ [e]) (skipped ++ [d])
    rw [numberOf_concat, hkept, List.append_assoc] at hle
    have : bound < numberOf base (kept ++ ([e] ++ (skipped ++ [d]))) := by omega
    exact this

/-- There is a digit that was left out, and one that fits. -/
theorem Relapses.length (h : Relapses bound base ds) : 2 ≤ ds.length := by
  obtain ⟨kept, skipped, d, rfl, -, hne, -⟩ := h
  have := List.length_pos_of_ne_nil hne
  rw [List.length_append, List.length_append, List.length_singleton]
  omega

/-- A leading zero changes nothing. -/
theorem relapses_zero_cons (hbase : 0 < base) (hbound : base ≤ bound) :
    Relapses bound base (0 :: ds) ↔ Relapses bound base ds := by
  constructor
  · rintro ⟨kept, skipped, d, heq, hkept, hne, hlarge, hd⟩
    match kept with
    | [] => exact absurd hkept (Nat.div_pos hbound hbase).ne
    | x :: kept =>
      obtain ⟨rfl, rfl⟩ := List.cons.inj heq
      rw [numberOf_zero_cons] at hkept
      exact ⟨kept, skipped, d, rfl, hkept, hne, hlarge, hd⟩
  · rintro ⟨kept, skipped, d, rfl, hkept, hne, hlarge, hd⟩
    exact ⟨0 :: kept, skipped, d, rfl, (numberOf_zero_cons base kept).trans hkept, hne, hlarge,
      hd⟩

end Lumin.Lib
