import Mathlib.Tactic

/-!
# Round robin

Slots in a circle and a turn that moves to the next slot of a set.  `Rotation` is a
run of turns in which the set only grows.  A slot of the set gets its turn after at
most as many turns as it is away (`Rotation.reaches`), and every other slot of the
set gets exactly one turn between two turns of a slot (`Rotation.once`).
-/

namespace Lumin.Lib.RoundRobin

variable {n : Nat} {c c' j : Fin n}

/-- The number of places from `c` on to `j`. -/
def gap (c j : Fin n) : Nat := (j - c).val

theorem gap_eq (c j : Fin n) :
    gap c j = if c.val ≤ j.val then j.val - c.val else n + j.val - c.val := by
  have hc := c.isLt
  have hj := j.isLt
  unfold gap
  rw [Fin.sub_def]
  show (n - c.val + j.val) % n = _
  split
  · rw [show n - c.val + j.val =
      n + (j.val - c.val) by omega, Nat.add_mod_left, Nat.mod_eq_of_lt (by omega)]
  · rw [Nat.mod_eq_of_lt (by omega)]
    omega

theorem gap_lt (c j : Fin n) : gap c j < n := (j - c).isLt

theorem gap_pos (h : j ≠ c) : 0 < gap c j := by
  have hne : j.val ≠ c.val := fun heq => h (Fin.ext heq)
  have hc := c.isLt
  rw [gap_eq]
  split <;> omega

/-- A turn that does not pass `j` brings it nearer. -/
theorem gap_add (h : gap c c' ≤ gap c j) : gap c c' + gap c' j = gap c j := by
  have hc := c.isLt
  have hc' := c'.isLt
  have hj := j.isLt
  simp only [gap_eq] at h ⊢
  split_ifs at h ⊢ <;> omega

/-- `c'` is the slot of `P` that follows `c`. -/
structure IsNext (P : Fin n → Prop) (c c' : Fin n) : Prop where
  mem : P c'
  ne : c' ≠ c
  first : ∀ j, P j → j ≠ c → gap c c' ≤ gap c j

/-- A run of turns: each goes to the next slot of the set, if there is one, and no slot
leaves the set. -/
structure Rotation (cur : Nat → Fin n) (P : Nat → Fin n → Prop) : Prop where
  next : ∀ t j, P t j → j ≠ cur t → IsNext (P t) (cur t) (cur (t + 1))
  keeps : ∀ t j, P t j → P (t + 1) j

variable {cur : Nat → Fin n} {P : Nat → Fin n → Prop} {t t' : Nat} {s : Fin n}

theorem Rotation.keeps_add (h : Rotation cur P) (hj : P t j) (m : Nat) : P (t + m) j := by
  induction m with
  | zero => exact hj
  | succ m ih => exact h.keeps _ _ ih

/-- A slot of the set that lies before `s` gets its turn, and no turn before it comes as
far as `s`. -/
theorem Rotation.reaches_before (h : Rotation cur P) (hj : P t j) (hne : j ≠ cur t) :
    ∃ m, 0 < m ∧ m ≤ gap (cur t) j ∧ cur (t + m) = j ∧
      ∀ i, 0 < i → i < m → gap (cur (t + i)) j < gap (cur t) j ∧ cur (t + i) ≠ j := by
  generalize hd : gap (cur t) j = d
  induction d using Nat.strong_induction_on generalizing t with
  | _ d ih =>
    have hnext := h.next t j hj hne
    have hsum := gap_add (hnext.first j hj hne)
    have hpos := gap_pos hnext.ne
    by_cases hdone : cur (t + 1) = j
    · refine ⟨1, Nat.one_pos, ?_, hdone, fun i hlo hhi => by omega⟩
      rw [← hd]
      exact gap_pos hne
    · obtain ⟨m, hm, hle, hcur, hbefore⟩ := ih (gap (cur (t + 1)) j) (by omega) (h.keeps t j hj)
        (fun heq => hdone heq.symm) rfl
      refine ⟨m + 1, Nat.succ_pos m, by omega, ?_, fun i hlo hhi => ?_⟩
      · rw [← hcur]
        congr 1
        omega
      · by_cases hone : i = 1
        · subst hone
          exact ⟨by omega, hdone⟩
        · have hrest := hbefore (i - 1) (by omega) (by omega)
          rw [show t + 1 + (i - 1) = t + i by omega] at hrest
          exact ⟨by omega, hrest.2⟩

/-- A slot of the set gets its turn, and the slot that has the turn now does not get
another one before. -/
theorem Rotation.reaches (h : Rotation cur P) (hj : P t j) (hne : j ≠ cur t) :
    ∃ m, 0 < m ∧ m < n ∧ cur (t + m) = j ∧ ∀ i, 0 < i → i < m → cur (t + i) ≠ cur t := by
  obtain ⟨m, hm, hle, hcur, hbefore⟩ := h.reaches_before hj hne
  refine ⟨m, hm, lt_of_le_of_lt hle (gap_lt _ _), hcur, fun i hlo hhi heq => ?_⟩
  have hlt := (hbefore i hlo hhi).1
  rw [heq] at hlt
  exact lt_irrefl _ hlt

/-- Between two turns of a slot every other slot of the set gets exactly one. -/
theorem Rotation.once (h : Rotation cur P) (hlt : t < t') (hs : P t (cur t))
    (hagain : cur t' = cur t)
    (haway : ∀ u, t < u → u < t' → cur u ≠ cur t) (hj : P t j) (hne : j ≠ cur t) :
    ∃! u, (t < u ∧ u < t') ∧ cur u = j := by
  obtain ⟨m, hm, -, hcur, hbefore⟩ := h.reaches hj hne
  have hinside : t + m < t' := by
    by_contra hge
    rcases Nat.lt_or_ge (t' - t) m with hless | hmore
    · refine hbefore (t' - t) (by omega) hless ?_
      rw [show t + (t' - t) = t' by omega, hagain]
    · rw [show t' = t + m by omega, hcur] at hagain
      exact hne hagain
  -- A second turn of `j` would come after another turn of the slot.
  have hlast : ∀ u v, t < u → u < v → v < t' → cur u = j → cur v ≠ j := by
    intro u v hu huv hv hcu hcv
    have hsu : P u (cur t) := by
      have hkeep := h.keeps_add hs (u - t)
      rwa [show t + (u - t) = u by omega] at hkeep
    obtain ⟨i, hi, -, hback, hbetween⟩ := h.reaches hsu (by rw [hcu]; exact hne.symm)
    rcases Nat.lt_or_ge (u + i) v with hless | hmore
    · exact haway (u + i) (by omega) (by omega) hback
    · rcases Nat.eq_or_lt_of_le hmore with heq | hmore
      · exact haway (u + i) (by omega) (by omega) hback
      · refine hbetween (v - u) (by omega) (by omega) ?_
        rw [show u + (v - u) = v by omega, hcv, hcu]
  refine ⟨t + m, ⟨⟨by omega, hinside⟩, hcur⟩, ?_⟩
  rintro u ⟨⟨hu, hu'⟩, hcu⟩
  rcases Nat.lt_trichotomy u (t + m) with hless | heq | hmore
  · exact absurd hcur (hlast u (t + m) hu hless hinside hcu)
  · exact heq
  · exact absurd hcu (hlast (t + m) u (by omega) hmore hu' hcur)

end Lumin.Lib.RoundRobin
