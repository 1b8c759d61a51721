import Mathlib.Data.List.TakeWhile
import Mathlib.Tactic

/-!
# The maximal runs of a list between separators

`sep` says which elements separate.  A run is a non-empty stretch without separators that
cannot be made longer.  `runs` lists the runs as pairs of a start and a length, and
`mem_runs` and `runs_sorted` are its specification.  `runs_separators` and `runs_run` are
the equations for a scanner that takes one run at a time.
-/

namespace Lumin.Lib

variable {α : Type} {sep : α → Bool} {s u r : List α} {c : α} {i n : Nat}

/-- The `n` elements from index `i` on are a maximal run without separators. -/
structure IsRun (sep : α → Bool) (s : List α) (i n : Nat) : Prop where
  pos : 0 < n
  inside : ∀ k < n, ∃ c, s[i + k]? = some c ∧ sep c = false
  before : ∀ j, j + 1 = i → ∀ c, s[j]? = some c → sep c = true
  after : ∀ c, s[i + n]? = some c → sep c = true

/-- The runs of `s`, where `cur` elements of a run from `start` on are in front of `s`. -/
def runs (sep : α → Bool) (start cur : Nat) : List α → List (Nat × Nat)
  | [] => if cur = 0 then [] else [(start, cur)]
  | c :: s =>
    if sep c then (if cur = 0 then [] else [(start, cur)]) ++ runs sep (start + cur + 1) 0 s
    else runs sep start (cur + 1) s

theorem IsRun.end_le (h : IsRun sep s i n) : i + n ≤ s.length := by
  obtain ⟨c, hc, -⟩ := h.inside (n - 1) (by have := h.pos; omega)
  have hlt := (List.getElem?_eq_some_iff.mp hc).1
  have := h.pos
  omega

/-! ## Runs of a list with a separator in it -/

/-- A list without separators is one run. -/
theorem isRun_of_none (hu : ∀ c ∈ u, sep c = false) :
    IsRun sep u i n ↔ u ≠ [] ∧ i = 0 ∧ n = u.length := by
  have hat : ∀ k < u.length, ∃ c, u[k]? = some c ∧ sep c = false := fun k hk =>
    ⟨u[k], List.getElem?_eq_getElem hk, hu _ (List.getElem_mem hk)⟩
  constructor
  · intro h
    have hend := h.end_le
    have hpos := h.pos
    have hi : i = 0 := by
      by_contra hi
      obtain ⟨c, hc, hsep⟩ := hat (i - 1) (by omega)
      rw [h.before (i - 1) (by omega) c hc] at hsep
      cases hsep
    have hn : n = u.length := by
      by_contra hn
      obtain ⟨c, hc, hsep⟩ := hat (i + n) (by omega)
      rw [h.after c hc] at hsep
      cases hsep
    refine ⟨?_, hi, hn⟩
    rintro rfl
    rw [List.length_nil] at hn
    omega
  · rintro ⟨hne, rfl, rfl⟩
    refine ⟨List.length_pos_iff.mpr hne, fun k hk => ?_, fun j hj => by omega, fun c hc => ?_⟩
    · rw [Nat.zero_add]
      exact hat k hk
    · rw [Nat.zero_add, List.getElem?_eq_none (le_refl _)] at hc
      cases hc

/-- A separator ends the runs in front of it, and the others begin behind it. -/
theorem isRun_append_cons (hc : sep c = true) (u r : List α) :
    IsRun sep (u ++ c :: r) i n ↔ IsRun sep u i n ∨ u.length + 1 ≤ i ∧
      IsRun sep r (i - (u.length + 1)) n := by
  have hleft : ∀ k < u.length, (u ++ c :: r)[k]? = u[k]? :=
    fun k hk => List.getElem?_append_left hk
  have hmid : (u ++ c :: r)[u.length]? = some c := by
    rw [List.getElem?_append_right (le_refl _), Nat.sub_self]
    rfl
  have hright : ∀ k, (u ++ c :: r)[u.length + 1 + k]? = r[k]? := by
    intro k
    rw [List.getElem?_append_right (by omega), show u.length + 1 + k - u.length = k + 1 by omega]
    rfl
  constructor
  · intro h
    have hpos := h.pos
    by_cases hle : i + n ≤ u.length
    · left
      refine ⟨hpos, fun k hk => ?_, fun j hj d hd => ?_, fun d hd => ?_⟩
      · rw [← hleft (i + k) (by omega)]
        exact h.inside k hk
      · exact h.before j hj d ((hleft j (by omega)).trans hd)
      · have hlt := (List.getElem?_eq_some_iff.mp hd).1
        exact h.after d ((hleft (i + n) hlt).trans hd)
    · right
      -- The separator itself is not in the run.
      have hi : u.length + 1 ≤ i := by
        by_contra hi
        obtain ⟨d, hd, hsep⟩ := h.inside (u.length - i) (by omega)
        rw [show i + (u.length - i) = u.length by omega, hmid] at hd
        rw [← Option.some.inj hd, hc] at hsep
        cases hsep
      obtain ⟨i, rfl⟩ := Nat.exists_eq_add_of_le hi
      rw [Nat.add_sub_cancel_left]
      refine ⟨hi, hpos, fun k hk => ?_, fun j hj d hd => ?_, fun d hd => ?_⟩
      · rw [← hright, ← Nat.add_assoc]
        exact h.inside k hk
      · exact h.before (u.length + 1 + j) (by omega) d ((hright j).trans hd)
      · apply h.after d
        rw [Nat.add_assoc, hright]
        exact hd
  · intro h
    cases h with
    | inl h =>
      have hend := h.end_le
      refine ⟨h.pos, fun k hk => ?_, fun j hj d hd => ?_, fun d hd => ?_⟩
      · rw [hleft (i + k) (by omega)]
        exact h.inside k hk
      · rw [hleft j (by have := h.pos; omega)] at hd
        exact h.before j hj d hd
      · by_cases hlt : i + n < u.length
        · rw [hleft _ hlt] at hd
          exact h.after d hd
        · rw [show i + n = u.length by omega, hmid] at hd
          rwa [← Option.some.inj hd]
    | inr h =>
      obtain ⟨hi, h⟩ := h
      obtain ⟨i, rfl⟩ := Nat.exists_eq_add_of_le hi
      rw [Nat.add_sub_cancel_left] at h
      refine ⟨h.pos, fun k hk => ?_, fun j hj d hd => ?_, fun d hd => ?_⟩
      · rw [Nat.add_assoc, hright]
        exact h.inside k hk
      · by_cases hj' : j = u.length
        · rw [hj', hmid] at hd
          rwa [← Option.some.inj hd]
        · obtain ⟨j, rfl⟩ := Nat.exists_eq_add_of_le (show u.length + 1 ≤ j by omega)
          rw [hright] at hd
          exact h.before j (by omega) d hd
      · rw [Nat.add_assoc, hright] at hd
        exact h.after d hd

/-! ## The list of the runs -/

/-- A run that has begun is in the list exactly when it is one. -/
theorem mem_begun (hu : ∀ c ∈ u, sep c = false) (start : Nat) :
    (i, n) ∈ (if u.length = 0 then [] else [(start, u.length)]) ↔
      start ≤ i ∧ IsRun sep u (i - start) n := by
  rw [isRun_of_none hu]
  cases u with
  | nil => simp
  | cons d u =>
    rw [List.length_cons, if_neg (Nat.succ_ne_zero _), List.mem_singleton, Prod.mk.injEq]
    have hne : d :: u ≠ [] := List.cons_ne_nil d u
    constructor
    · rintro ⟨rfl, rfl⟩
      exact ⟨le_refl _, hne, Nat.sub_self _, rfl⟩
    · rintro ⟨hle, -, hi, hn⟩
      exact ⟨by omega, hn⟩

/-- `runs` lists the runs of what is in front of `s` and of `s` together. -/
theorem mem_runs_append {start : Nat} (hu : ∀ c ∈ u, sep c = false) :
    (i, n) ∈ runs sep start u.length s ↔ start ≤ i ∧ IsRun sep (u ++ s) (i - start) n := by
  induction s generalizing u start with
  | nil =>
    rw [runs, List.append_nil]
    exact mem_begun hu start
  | cons c s ih =>
    rw [runs]
    by_cases hc : sep c = true
    · have hrest : (i, n) ∈ runs sep (start + u.length + 1) 0 s ↔
          start + u.length + 1 ≤ i ∧ IsRun sep s (i - (start + u.length + 1)) n :=
        ih (u := []) fun d hd => by cases hd
      rw [if_pos hc, List.mem_append, mem_begun hu, hrest, isRun_append_cons hc,
        show i - start - (u.length + 1) = i - (start + u.length + 1) by omega]
      constructor
      · rintro (⟨hle, h⟩ | ⟨hle, h⟩)
        · exact ⟨hle, .inl h⟩
        · exact ⟨by omega, .inr ⟨by omega, h⟩⟩
      · rintro ⟨hle, h | ⟨hle', h⟩⟩
        · exact .inl ⟨hle, h⟩
        · exact .inr ⟨by omega, h⟩
    · have hlonger : ∀ d ∈ u ++ [c], sep d = false := by
        intro d hd
        rcases List.mem_append.mp hd with hd | hd
        · exact hu d hd
        · rw [List.mem_singleton.mp hd]
          exact Bool.eq_false_iff.mpr hc
      have hrest : (i, n) ∈ runs sep start (u ++ [c]).length s ↔
          start ≤ i ∧ IsRun sep (u ++ [c] ++ s) (i - start) n :=
        ih hlonger
      rw [List.append_assoc, List.length_append] at hrest
      rw [if_neg hc]
      exact hrest

/-- `runs` lists the runs. -/
theorem mem_runs (sep : α → Bool) (s : List α) : (i, n) ∈ runs sep 0 0 s ↔ IsRun sep s i n := by
  have h : (i, n) ∈ runs sep 0 0 s ↔ 0 ≤ i ∧ IsRun sep s (i - 0) n :=
    mem_runs_append (u := []) fun d hd => by cases hd
  rw [h]
  exact and_iff_right (Nat.zero_le i)

/-- The runs come in order, with a separator between them. -/
theorem runs_sorted (sep : α → Bool) (start cur : Nat) (s : List α) :
    (∀ t ∈ runs sep start cur s, start ≤ t.1) ∧
      (runs sep start cur s).Pairwise fun t t' => t.1 + t.2 < t'.1 := by
  induction s generalizing start cur with
  | nil =>
    rw [runs]
    split_ifs
    · simp
    · simp
  | cons c s ih =>
    rw [runs]
    by_cases hc : sep c = true
    · obtain ⟨hge, hpairwise⟩ := ih (start + cur + 1) 0
      have hge' : ∀ t ∈ runs sep (start + cur + 1) 0 s, start + cur < t.1 := hge
      rw [if_pos hc]
      by_cases hcur : cur = 0
      · rw [if_pos hcur, List.nil_append]
        refine ⟨fun t ht => ?_, hpairwise⟩
        have := hge' t ht
        omega
      · rw [if_neg hcur, List.singleton_append]
        refine ⟨fun t ht => ?_, List.pairwise_cons.mpr ⟨hge', hpairwise⟩⟩
        rcases List.mem_cons.mp ht with rfl | ht
        · exact le_refl _
        · have := hge' t ht
          omega
    · rw [if_neg hc]
      exact ih start (cur + 1)

/-- Where the list begins is added to the starts. -/
theorem runs_shift (sep : α → Bool) (a start cur : Nat) (s : List α) :
    runs sep (a + start) cur s = (runs sep start cur s).map fun t => (a + t.1, t.2) := by
  induction s generalizing start cur with
  | nil =>
    rw [runs, runs]
    split_ifs
    · rfl
    · rfl
  | cons c s ih =>
    rw [runs, runs, Nat.add_assoc a start cur, Nat.add_assoc a (start + cur) 1, ih, ih]
    split_ifs
    · rfl
    · rfl
    · rfl

/-! ## One run at a time -/

/-- Separators in front are passed over. -/
theorem runs_separators (start : Nat) (hu : ∀ c ∈ u, sep c = true) :
    runs sep start 0 (u ++ r) = runs sep (start + u.length) 0 r := by
  induction u generalizing start with
  | nil => rfl
  | cons c u ih =>
    rw [List.cons_append, runs, if_pos (hu c List.mem_cons_self), if_pos rfl, List.nil_append,
      ih _ fun d hd => hu d (List.mem_cons_of_mem c hd), List.length_cons]
    congr 1
    omega

theorem runs_begun (start cur : Nat) (hu : ∀ c ∈ u, sep c = false) :
    runs sep start cur (u ++ r) = runs sep start (cur + u.length) r := by
  induction u generalizing cur with
  | nil => rfl
  | cons c u ih =>
    have hc : ¬ sep c = true := Bool.eq_false_iff.mp (hu c List.mem_cons_self)
    rw [List.cons_append, runs, if_neg hc, ih _ fun d hd => hu d (List.mem_cons_of_mem c hd),
      List.length_cons,
      Nat.add_right_comm, Nat.add_assoc]

/-- A run in front and a separator behind it. -/
theorem runs_run (start : Nat) (hu : ∀ c ∈ u, sep c = false) (hne : u ≠ []) (hc : sep c = true) :
    runs sep start 0 (u ++ c :: r) =
      (start, u.length) :: runs sep (start + u.length + 1) 0 r := by
  rw [runs_begun start 0 hu, Nat.zero_add, runs, if_pos hc,
    if_neg (List.length_pos_iff.mpr hne).ne',
    List.singleton_append]

/-- A list is separators, then a run and what is behind it, if anything is left. -/
theorem split_first (sep : α → Bool) (s : List α) :
    (∀ c ∈ s, sep c = true) ∨
      ∃ lead run rest, s = lead ++ (run ++ rest) ∧ (∀ c ∈ lead, sep c = true) ∧ run ≠ [] ∧
        (∀ c ∈ run, sep c = false) ∧ ∀ c r, rest = c :: r → sep c = true := by
  have hlead : ∀ c ∈ s.takeWhile sep, sep c = true := fun c hc => List.mem_takeWhile_imp hc
  have hsplit : s.takeWhile sep ++ s.dropWhile sep = s := List.takeWhile_append_dropWhile
  cases hleft : s.dropWhile sep with
  | nil =>
    left
    rw [hleft, List.append_nil] at hsplit
    rwa [hsplit] at hlead
  | cons c r =>
    right
    have hc : sep c = false := by
      have h := List.head_dropWhile_not sep (l := s) (by rw [hleft]; exact List.cons_ne_nil c r)
      simp only [hleft, List.head_cons] at h
      exact h
    have hrun : ∀ d ∈ (c :: r).takeWhile (fun d => !sep d), sep d = false := by
      intro d hd
      simpa using List.mem_takeWhile_imp hd
    refine ⟨s.takeWhile sep, (c :: r).takeWhile fun d => !sep d,
      (c :: r).dropWhile fun d => !sep d, ?_, hlead, ?_,
      hrun, ?_⟩
    · rw [List.takeWhile_append_dropWhile, ← hleft, hsplit]
    · rw [List.takeWhile_cons_of_pos (by rw [hc]; rfl)]
      exact List.cons_ne_nil _ _
    · intro d r' hd
      have h := List.head_dropWhile_not (fun d => !sep d) (l := c :: r)
          (by rw [hd]; exact List.cons_ne_nil d r')
      simp only [hd, List.head_cons] at h
      simpa using h

/-- A run and nothing behind it. -/
theorem runs_last (start : Nat) (hu : ∀ c ∈ u, sep c = false) (hne : u ≠ []) :
    runs sep start 0 u = [(start, u.length)] := by
  have h := runs_begun (r := []) start 0 hu
  rw [List.append_nil, Nat.zero_add] at h
  rw [h, runs, if_neg (List.length_pos_iff.mpr hne).ne']

end Lumin.Lib
