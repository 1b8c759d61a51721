import Lumin.Fs.Fat32.DirScan

/-!
# What an unlink removes

The deletion loop of `fat32_unlink_file` marks the target as deleted, and with it
every long-name slot that comes earlier in the directory and not in a later
sector of the device: these need not be the target's.  An entry that loses a slot
of its long name is listed under its short name from then on.

`unlink_removesOne_iff` says exactly when the listing loses the target and nothing
else.
-/

namespace Lumin.Fs.Fat32

open Lumin.Lib Lumin.Block

/-! ## The deletion loop -/

/-- The device with the slot at `p` marked as deleted. -/
def wipeAt (d : Disk) (p : Place) : Disk :=
  d.setSector p.1 (setByte (d.data p.1) (32 * p.2) DELETED)

/-- A deleted slot keeps its other bytes. -/
def delSlot (slot : Slot) : Slot := setByte slot 0 DELETED

/-- The place of the entry that is unlinked. -/
def AtTarget (target : Found) (p : Place) : Prop :=
  p.1 = target.sector ∧ 32 * p.2 = target.offset

instance (target : Found) : DecidablePred (AtTarget target) := fun p =>
  inferInstanceAs (Decidable (p.1 = target.sector ∧ 32 * p.2 = target.offset))

/-- The test of the deletion loop for a slot before the target: it compares sector
numbers, not places in the directory. -/
def NumberedBefore (target : Found) (p : Place) : Prop :=
  p.1 < target.sector ∨ (p.1 = target.sector ∧ 32 * p.2 < target.offset)

instance (target : Found) : DecidablePred (NumberedBefore target) := fun p =>
  inferInstanceAs
    (Decidable (p.1 < target.sector ∨ (p.1 = target.sector ∧ 32 * p.2 < target.offset)))

/-- A slot in the deletion loop, without the buffer. -/
def wipeStep (target : Found) (d : Disk) (p : Place) : Except Disk Disk :=
  if AtTarget target p then .error (wipeAt d p)
  else if NumberedBefore target p ∧ slotKind (slotAt d p) = .lfn then .ok (wipeAt d p)
  else .ok d

/-- No slot before the target ends the directory. -/
def Clear (d : Disk) (target : Found) (ps : List Place) : Prop :=
  ∀ p ∈ ps.takeWhile fun p => ¬ AtTarget target p, slotAt d p 0 ≠ 0

variable {fs : Fat32Fs} {d d' d₁ : Disk} {target : Found} {c v s : Nat} {l : List Nat}
  {p q t : Place}
  {ps pre post : List Place}

theorem slotAt_wipeAt :
    slotAt (wipeAt d p) q = if q = p then delSlot (slotAt d p) else slotAt d q := by
  funext i
  unfold slotAt slotIn wipeAt
  by_cases hsec : q.1 = p.1
  · rw [hsec, setSector_data_same]
    by_cases hei : q.2 = p.2
    · rw [if_pos (Prod.ext hsec hei), hei]
      unfold delSlot setByte
      by_cases hi : i = 0
      · simp [hi]
      · simp [hi]
    · rw [if_neg fun h => hei (congrArg Prod.snd h)]
      unfold setByte
      by_cases hi : i < 32
      · rw [if_pos hi, if_pos hi, if_neg (by omega)]
      · rw [if_neg hi, if_neg hi]
  · rw [if_neg fun h => hsec (congrArg Prod.fst h), setSector_data_ne _ _ hsec]

theorem wipeAt_keeps_nonzero (h : slotAt d q 0 ≠ 0) : slotAt (wipeAt d p) q 0 ≠ 0 := by
  rw [slotAt_wipeAt]
  split
  · show DELETED ≠ 0
    decide
  · exact h

/-- What a part of the loop does to the device. -/
structure Wipes (d d' : Disk) (ps : List Place) : Prop where
  sameDevice : d.SameDevice d'
  outside : ∀ s, (∀ p ∈ ps, p.1 ≠ s) → d'.data s = d.data s
  nonzero : ∀ q, slotAt d q 0 ≠ 0 → slotAt d' q 0 ≠ 0

theorem Wipes.refl (d : Disk) (ps : List Place) : Wipes d d ps :=
  ⟨.refl d, fun _ _ => rfl, fun _ h => h⟩

theorem wipes_wipeAt (hp : p ∈ ps) : Wipes d (wipeAt d p) ps :=
  ⟨sameDevice_setSector _ _ _, fun _ hout => setSector_data_ne _ _ fun h => hout p hp h.symm,
    fun _ h => wipeAt_keeps_nonzero h⟩

theorem Wipes.trans {d'' : Disk} (h : Wipes d d' ps) (h' : Wipes d' d'' ps) : Wipes d d'' ps :=
  ⟨h.sameDevice.trans h'.sameDevice, fun s hs => (h'.outside s hs).trans (h.outside s hs),
    fun q hq => h'.nonzero q (h.nonzero q hq)⟩

theorem Wipes.mono {qs : List Place} (h : Wipes d d' ps) (hsub : ∀ p ∈ ps, p ∈ qs) :
    Wipes d d' qs :=
  ⟨h.sameDevice, fun s hs => h.outside s fun p hp => hs p (hsub p hp), h.nonzero⟩

theorem wipeStep_ok (h : wipeStep target d p = .ok d') :
    ¬ AtTarget target p ∧ Wipes d d' [p] := by
  unfold wipeStep at h
  split at h
  · cases h
  next hnot =>
    refine ⟨hnot, ?_⟩
    split at h
    · cases h
      exact wipes_wipeAt (by simp)
    · cases h
      exact .refl d _

/-- A part of the loop that goes on has not met the target. -/
theorem wipe_ok (h : ps.foldlM (wipeStep target) d = .ok d') :
    (∀ p ∈ ps, ¬ AtTarget target p) ∧ Wipes d d' ps := by
  induction ps generalizing d with
  | nil =>
    cases h
    exact ⟨by simp, .refl _ _⟩
  | cons p ps ih =>
    rw [List.foldlM_cons] at h
    cases hstep : wipeStep target d p with
    | error r =>
      rw [hstep] at h
      cases h
    | ok d₁ =>
      rw [hstep] at h
      obtain ⟨hnot, hwipes⟩ := wipeStep_ok hstep
      obtain ⟨hrest, hwipes'⟩ := ih h
      refine ⟨?_, (hwipes.mono (by simp)).trans (hwipes'.mono (fun q hq => by simp [hq]))⟩
      intro q hq
      rcases List.mem_cons.mp hq with rfl | hq
      · exact hnot
      · exact hrest q hq

theorem Clear.left (h : Clear d target (ps ++ post)) : Clear d target ps := by
  intro p hp
  refine h p ?_
  rw [List.takeWhile_append]
  split
  · exact List.mem_append_left _ ((List.takeWhile_sublist _).subset hp)
  · exact hp

theorem Clear.right (h : Clear d target (ps ++ post)) (hps : ∀ p ∈ ps, ¬ AtTarget target p) :
    Clear d target post := by
  intro p hp
  refine h p ?_
  rw [List.takeWhile_append_of_pos fun q hq => by simpa using hps q hq]
  exact List.mem_append_right _ hp

theorem Clear.mono (h : Clear d target ps) (hw : Wipes d d' post) : Clear d' target ps :=
  fun p hp => hw.nonzero p (h p hp)

/-- A loop over parts of the directory is the loop over their slots. -/
theorem wipe_units {α : Type} (f : Disk → α → Except Disk Disk) (g : α → List Place)
    (units : List α)
    (hunit : ∀ u ∈ units, ∀ d, Sane fs d → Clear d target (g u) →
      f d u = (g u).foldlM (wipeStep target) d)
    (hs : Sane fs d) (hclear : Clear d target (units.flatMap g)) :
    units.foldlM f d = (units.flatMap g).foldlM (wipeStep target) d := by
  induction units generalizing d with
  | nil => rfl
  | cons u units ih =>
    rw [List.flatMap_cons] at hclear ⊢
    rw [List.foldlM_cons, List.foldlM_append, hunit u (by simp) d hs hclear.left]
    cases hstep : (g u).foldlM (wipeStep target) d with
    | error r => rfl
    | ok d₁ =>
      obtain ⟨hnot, hwipes⟩ := wipe_ok hstep
      exact ih (fun w hw => hunit w (by simp [hw])) (hs.of_sameDevice hwipes.sameDevice)
        ((hclear.right hnot).mono hwipes)

theorem slotKind_eq_lfn_iff (slot : Slot) :
    slotKind slot = .lfn ↔ slot 0 ≠ 0 ∧ slot 0 ≠ DELETED ∧ slot 11 = ATTR_LFN := by
  unfold slotKind
  split_ifs <;> simp_all

/-- With the buffer equal to the sector on the device, a turn of the loop is a
`wipeStep`. -/
theorem wipeSlots_eq (hs : Sane fs d) (hsec : s < d.sectorCount) (eis : List Nat)
    (hclear : Clear d target (eis.map (Prod.mk s))) :
    wipeSlots target s eis d (d.data s) = (eis.map (Prod.mk s)).foldlM (wipeStep target) d := by
  induction eis generalizing d with
  | nil => rfl
  | cons ei eis ih =>
    rw [List.map_cons] at hclear ⊢
    rw [List.foldlM_cons, wipeSlots, wipeStep]
    have hwrite := fun buf => blockWrite_of_works hs.works hsec buf
    by_cases hat : s = target.sector ∧ 32 * ei = target.offset
    · have hat' : AtTarget target (s, ei) := hat
      rw [if_pos hat, if_pos hat', hwrite]
      rfl
    have hat' : ¬ AtTarget target (s, ei) := hat
    have happ : Clear d target ([(s, ei)] ++ eis.map (Prod.mk s)) := hclear
    have hclear' := happ.right (by simpa using hat')
    have hnonzero : d.data s (32 * ei) ≠ 0 := hclear (s, ei) (by simp [hat'])
    have hkind := slotKind_eq_lfn_iff (slotAt d (s, ei))
    rw [if_neg hat, if_neg hat']
    by_cases hnumber : s < target.sector ∨ s = target.sector ∧ 32 * ei < target.offset
    · have hbefore : NumberedBefore target (s, ei) := hnumber
      rw [if_pos hnumber, if_neg hnonzero]
      by_cases hdel : d.data s (32 * ei) = DELETED
      · rw [if_pos hdel, if_neg fun h => (hkind.mp h.2).2.1 hdel]
        exact ih hs hsec hclear'
      · by_cases hlfn : d.data s (32 * ei + 11) = ATTR_LFN
        · rw [if_neg hdel, if_pos hlfn, if_pos ⟨hbefore, hkind.mpr ⟨hnonzero, hdel, hlfn⟩⟩]
          simp only [hwrite, Option.getD_some]
          have hw : Wipes d (wipeAt d (s, ei)) [(s, ei)] := wipes_wipeAt (by simp)
          have := ih (hs.of_sameDevice hw.sameDevice) hsec (hclear'.mono hw)
          rwa [show (wipeAt d (s, ei)).data s = setByte (d.data s) (32 * ei) DELETED from
            setSector_data_same _ _ _] at this
        · rw [if_neg hdel, if_neg hlfn, if_neg fun h => hlfn (hkind.mp h.2).2.2]
          exact ih hs hsec hclear'
    · rw [if_neg hnumber, if_neg fun h => hnumber h.1]
      exact ih hs hsec hclear'

theorem wipeCluster_eq (hs : Sane fs d) (hc : InVolume fs c)
    (hclear : Clear d target (dirSlots fs [c])) :
    (List.range fs.sectorsPerCluster).foldlM
        (fun d s => wipeSector target d (u32 (firstSector fs c + s))) d =
      (dirSlots fs [c]).foldlM (wipeStep target) d := by
  have hslots : dirSlots fs [c] = (List.range fs.sectorsPerCluster).flatMap fun s =>
      (List.range 16).map (Prod.mk (firstSector fs c + s)) := by
    simp [dirSlots]
  rw [hslots] at hclear ⊢
  refine wipe_units _ _ _ (fun s hmem d hs hclear => ?_) hs hclear
  have hlt : s < fs.sectorsPerCluster := List.mem_range.mp hmem
  have hin := lt_of_lt_of_le (firstSector_add_lt hs hc hlt) hs.data_inside
  rw [wipeSector, u32_firstSector_add hs hc hlt, blockRead_of_works hs.works hin]
  exact wipeSlots_eq hs hin _ hclear

theorem wipeLoop_eq {fuel : Nat} (hs : Sane fs d) (h : Walk fs d v l) (hfuel : l.length < fuel)
    (hclear : Clear d target (dirSlots fs l)) :
    wipeLoop fs target fuel d v = some ((dirSlots fs l).foldlM (wipeStep target) d) := by
  induction l generalizing v fuel d with
  | nil =>
    obtain ⟨fuel, rfl⟩ := Nat.exists_eq_add_one_of_ne_zero (show fuel ≠ 0 by omega)
    exact if_neg h.linked
  | cons x xs ih =>
    obtain ⟨fuel, rfl⟩ := Nat.exists_eq_add_one_of_ne_zero (show fuel ≠ 0 by omega)
    have hlink : IsLink v := h.linked.1 ▸ not_not.mp h.linked.2.1
    have hx : v = x := h.linked.1
    subst hx
    rw [dirSlots_cons] at hclear
    rw [wipeLoop, if_pos hlink, wipeCluster_eq hs (h.inVolume v (by simp)) hclear.left,
      dirSlots_cons (l := xs), List.foldlM_append]
    cases hstep : (dirSlots fs [v]).foldlM (wipeStep target) d with
    | error r => rfl
    | ok d₁ =>
      obtain ⟨hnot, hwipes⟩ := wipe_ok hstep
      have hsame : ∀ y ∈ v :: xs, fatNextCluster fs d₁ y = fatNextCluster fs d y := by
        intro y hy
        refine fatNextCluster_congr hs hwipes.sameDevice (fun s hlt => hwipes.outside s ?_)
          (h.inVolume y hy).2
        intro p hp heq
        have := dataStart_le_of_mem hs (fun c hc => h.inVolume c (by simp_all)) hp
        omega
      have hwalk : Walk fs d₁ (fatNextCluster fs d₁ v) xs := by
        rw [hsame v (by simp)]
        exact h.tail.congr fun y hy => hsame y (by simp [hy])
      exact ih (hs.of_sameDevice hwipes.sameDevice) hwalk (by simpa using hfuel)
        ((hclear.right hnot).mono hwipes)

/-- What the deletion loop marks besides the target. -/
def Wiped (d : Disk) (target : Found) (p : Place) : Prop :=
  NumberedBefore target p ∧ slotKind (slotAt d p) = .lfn

instance (d : Disk) (target : Found) : DecidablePred (Wiped d target) := fun p =>
  inferInstanceAs (Decidable (NumberedBefore target p ∧ slotKind (slotAt d p) = .lfn))

theorem wipe_before (hnodup : pre.Nodup) (hpre : ∀ p ∈ pre, ¬ AtTarget target p) :
    ∃ d₁, pre.foldlM (wipeStep target) d = .ok d₁ ∧ ∀ q, slotAt d₁ q =
      if q ∈ pre ∧ Wiped d target q then delSlot (slotAt d q) else slotAt d q := by
  induction pre generalizing d with
  | nil => exact ⟨d, rfl, fun q => by simp⟩
  | cons p pre ih =>
    obtain ⟨hp, hnodup⟩ := List.nodup_cons.mp hnodup
    -- The first slot, and then the others as the device is after it.
    obtain ⟨d₁, hstep, hslots⟩ : ∃ d₁, wipeStep target d p = .ok d₁ ∧ ∀ q, slotAt d₁ q =
        if q = p ∧ Wiped d target q then delSlot (slotAt d q) else slotAt d q := by
      unfold wipeStep
      rw [if_neg (hpre p (by simp))]
      by_cases hw : NumberedBefore target p ∧ slotKind (slotAt d p) = .lfn
      · refine ⟨wipeAt d p, if_pos hw, fun q => ?_⟩
        rw [slotAt_wipeAt]
        by_cases hq : q = p
        · subst hq
          rw [if_pos rfl, if_pos ⟨rfl, hw⟩]
        · rw [if_neg hq, if_neg fun h => hq h.1]
      · refine ⟨d, if_neg hw, fun q => (if_neg ?_).symm⟩
        rintro ⟨rfl, hw'⟩
        exact hw hw'
    obtain ⟨d₂, hrest, hslots'⟩ := ih hnodup fun q hq => hpre q (by simp [hq])
    refine ⟨d₂, by rw [List.foldlM_cons, hstep]; exact hrest, fun q => ?_⟩
    rw [hslots' q]
    by_cases hq : q = p
    · subst hq
      rw [if_neg fun h => hp h.1, hslots q]
      simp
    · have hsame : slotAt d₁ q = slotAt d q := by rw [hslots q, if_neg fun h => hq h.1]
      simp only [Wiped, hsame, List.mem_cons, hq, false_or]

/-- The device after the deletion loop found the target at `t`, behind the slots
`pre`. -/
structure Removed (fs : Fat32Fs) (d d' : Disk) (target : Found) (pre : List Place) (t : Place) :
    Prop where
  sameDevice : d.SameDevice d'
  table : ∀ s < fs.dataStart, d'.data s = d.data s
  slots : ∀ q, slotAt d' q =
    if q = t ∨ (q ∈ pre ∧ Wiped d target q) then delSlot (slotAt d q) else slotAt d q

theorem wipeLoop_spec (hs : Sane fs d) (h : Walk fs d v l)
    (hps : dirSlots fs l = pre ++ t :: post)
    (ht : AtTarget target t) (hpre : ∀ p ∈ pre, ¬ AtTarget target p ∧ slotAt d p 0 ≠ 0) :
    ∃ d', wipeLoop fs target chainFuel d v = some (.error d') ∧ Removed fs d d' target pre t := by
  have hnodup := h.dirSlots_nodup hs
  rw [hps] at hnodup
  have ht' : t ∉ pre := fun hmem => (List.nodup_append.mp hnodup).2.2 t hmem t (by simp) rfl
  have hclear : Clear d target (dirSlots fs l) := by
    intro p hp
    rw [hps, List.takeWhile_append_of_pos fun q hq => by simpa using (hpre q hq).1] at hp
    simp only [List.takeWhile_cons, ht] at hp
    exact (hpre p (by simpa using hp)).2
  have hnot : ∀ p ∈ pre, ¬ AtTarget target p := fun p hp => (hpre p hp).1
  obtain ⟨d₁, hbefore, hslots⟩ := wipe_before (d := d) (List.nodup_append.mp hnodup).1 hnot
  have hwipes := (wipe_ok hbefore).2
  have hdata : ∀ p ∈ pre ++ t :: post, fs.dataStart ≤ p.1 := fun p hp =>
    dataStart_le_of_mem hs h.inVolume (hps ▸ hp)
  refine ⟨wipeAt d₁ t, ?_, ?_, fun s hlt => ?_, fun q => ?_⟩
  · have hlt := h.length_lt_fuel hs
    rw [wipeLoop_eq hs h (by unfold chainFuel; omega) hclear, hps, List.foldlM_append, hbefore]
    show some ((t :: post).foldlM (wipeStep target) d₁) = _
    rw [List.foldlM_cons, wipeStep, if_pos ht]
    rfl
  · exact hwipes.sameDevice.trans (sameDevice_setSector _ _ _)
  · have hne : s ≠ t.1 := by
      have := hdata t (by simp)
      omega
    rw [wipeAt, setSector_data_ne _ _ hne, hwipes.outside]
    intro p hp heq
    have := hdata p (by simp [hp])
    omega
  · rw [slotAt_wipeAt, hslots, hslots]
    by_cases hq : q = t
    · subst hq
      simp [ht']
    · simp [hq]

/-! ## Long names that lose a slot -/

variable {W : Place → Prop} {x x' y y' : LongName} {slot : Slot}

/-- The states of a scan before (`x`) and after (`x'`) the slots of `W` were marked as
deleted: they agree as long as no slot of the current long name is in `W`, and
else there is no long name any more. -/
def Damaged (W : Place → Prop) (x x' : LongName) : Prop :=
  (x.st.lfnCount = 0 → x.st.lfnSeq = 0) ∧
    (((∀ q ∈ x.own, ¬ W q) ∧ x.st.Equiv x'.st) ∨
      ((∃ q ∈ x.own, W q) ∧ x'.st.lfnCount = 0 ∧ x'.st.lfnSeq = 0))

theorem damaged_reset (W : Place → Prop) (x x' : LongName) : Damaged W x.reset x'.reset :=
  ⟨fun _ => rfl, .inl ⟨by simp [LongName.reset], x.equiv_reset x'⟩⟩

theorem damaged_none (W : Place → Prop) : Damaged W .none .none :=
  ⟨fun _ => rfl, .inl ⟨by simp [LongName.none], .refl _⟩⟩

/-- What a long-name slot can do to the state: discard it, start a name, or go on
with one. -/
theorem add_cases (st : LfnState) (slot : Slot) :
    addLfnEntry st slot = resetLfn st ∨
      ((slot 0).toNat / 64 % 2 = 1 ∧ (addLfnEntry st slot).lfnCount ≠ 0) ∨
      ((slot 0).toNat / 64 % 2 ≠ 1 ∧ st.lfnSeq ≠ 0 ∧
        (addLfnEntry st slot).lfnCount = st.lfnCount) := by
  unfold addLfnEntry
  by_cases hseq : (slot 0).toNat % 32 = 0 ∨ (slot 0).toNat % 32 > FAT32_MAX_LFN_ENTRIES
  · exact .inl (if_pos hseq)
  simp only [if_neg hseq]
  by_cases hlast : (slot 0).toNat / 64 % 2 = 1
  · simp only [if_pos hlast]
    exact .inr (.inl ⟨hlast, fun h => hseq (.inl h)⟩)
  simp only [if_neg hlast]
  by_cases hnext : (slot 0).toNat % 32 + 1 = st.lfnSeq
  · rw [if_neg (not_not.mpr hnext)]
    exact .inr (.inr ⟨hlast, by omega, rfl⟩)
  · exact .inl (if_pos hnext)

/-- The state after a slot that starts a name does not depend on the one before. -/
theorem add_equiv_of_last (st st' : LfnState) (hlast : (slot 0).toNat / 64 % 2 = 1) :
    (addLfnEntry st slot).Equiv (addLfnEntry st' slot) := by
  unfold addLfnEntry
  by_cases hseq : (slot 0).toNat % 32 = 0 ∨ (slot 0).toNat % 32 > FAT32_MAX_LFN_ENTRIES
  · simp only [if_pos hseq]
    exact equiv_reset st st'
  · simp only [if_neg hseq, if_pos hlast]
    refine ⟨rfl, rfl, fun _ => rfl, fun i hlo hhi => ?_⟩
    simp only at hlo hhi ⊢
    rw [if_pos (by omega), if_pos (by omega)]

/-- Without a name that has begun, a slot that does not start one is discarded. -/
theorem add_eq_reset {st : LfnState} (hseq : st.lfnSeq = 0)
    (hlast : (slot 0).toNat / 64 % 2 ≠ 1) :
    addLfnEntry st slot = resetLfn st := by
  rcases add_cases st slot with h | h | h
  · exact h
  · exact absurd h.1 hlast
  · exact absurd hseq h.2.1

theorem own_add_of_reset (h : addLfnEntry x.st slot = resetLfn x.st) :
    (x.add p slot).own = [] := by
  unfold LongName.add
  rw [h]
  rfl

theorem Damaged.count_add (h : Damaged W x x') (p : Place) (slot : Slot) :
    (x.add p slot).st.lfnCount = 0 → (x.add p slot).st.lfnSeq = 0 := by
  intro hcount
  have hcount' : (addLfnEntry x.st slot).lfnCount = 0 := hcount
  show (addLfnEntry x.st slot).lfnSeq = 0
  rcases add_cases x.st slot with hreset | hlast | hnext
  · rw [hreset]
    rfl
  · exact absurd hcount' hlast.2
  · exact absurd (h.1 (hnext.2.2 ▸ hcount')) hnext.2.1

/-- A long-name slot that is kept. -/
theorem Damaged.add (h : Damaged W x x') (hp : ¬ W p) (slot : Slot) :
    Damaged W (x.add p slot) (x'.add p slot) := by
  refine ⟨h.count_add p slot, ?_⟩
  rcases h.2 with ⟨hown, hequiv⟩ | ⟨hown, hcount, hseq⟩
  · refine .inl ⟨fun q hq => ?_, LongName.equiv_add hequiv p slot⟩
    unfold LongName.add at hq
    simp only at hq
    split_ifs at hq
    · cases hq
    · rw [List.mem_singleton.mp hq]
      exact hp
    · rcases List.mem_append.mp hq with hq | hq
      · exact hown q hq
      · rw [List.mem_singleton.mp hq]
        exact hp
  · by_cases hlast : (slot 0).toNat / 64 % 2 = 1
    · refine .inl ⟨fun q hq => ?_, add_equiv_of_last x.st x'.st hlast⟩
      unfold LongName.add at hq
      simp only [if_pos hlast] at hq
      split_ifs at hq
      · cases hq
      · rw [List.mem_singleton.mp hq]
        exact hp
    · have hreset' : (x'.add p slot).st = resetLfn x'.st := add_eq_reset hseq hlast
      rcases add_cases x.st slot with hreset | hstart | hnext
      · refine .inl ⟨fun q hq => ?_, ?_⟩
        · rw [own_add_of_reset hreset] at hq
          cases hq
        · rw [hreset', show (x.add p slot).st = resetLfn x.st from hreset]
          exact equiv_reset _ _
      · exact absurd hstart.1 hlast
      · refine .inr ⟨?_, by rw [hreset']; rfl, by rw [hreset']; rfl⟩
        obtain ⟨q, hq, hWq⟩ := hown
        refine ⟨q, ?_, hWq⟩
        have hcount : (addLfnEntry x.st slot).lfnCount ≠ 0 := by
          rw [hnext.2.2]
          exact fun h0 => hnext.2.1 (h.1 h0)
        unfold LongName.add
        simp only [if_neg hcount, if_neg hlast]
        exact List.mem_append_left _ hq

/-- A long-name slot that is marked as deleted. -/
theorem Damaged.wipe (h : Damaged W x x') (hp : W p) (slot : Slot) :
    Damaged W (x.add p slot) x'.reset := by
  refine ⟨h.count_add p slot, ?_⟩
  by_cases hcount : (addLfnEntry x.st slot).lfnCount = 0
  · refine .inl ⟨?_, ?_⟩
    · unfold LongName.add
      simp only [if_pos hcount]
      simp
    · have hseq := h.count_add p slot hcount
      refine ⟨hcount, hseq, fun h0 => absurd hcount h0, fun i _ hhi => ?_⟩
      have hhi' : i + 1 ≤ (addLfnEntry x.st slot).lfnCount := hhi
      omega
  · refine .inr ⟨⟨p, ?_, hp⟩, rfl, rfl⟩
    unfold LongName.add
    simp only [if_neg hcount]
    split_ifs <;> simp

/-! ## The listing -/

/-- The long-name slots in `W` are marked as deleted, the others are as before. -/
def Marks (W : Place → Prop) (d d' : Disk) (ps : List Place) : Prop :=
  ∀ p ∈ ps, (W p ∧ slotKind (slotAt d p) = .lfn ∧ slotAt d' p = delSlot (slotAt d p)) ∨
    (¬ (W p ∧ slotKind (slotAt d p) = .lfn) ∧ slotAt d' p = slotAt d p)

/-- An entry before and after. -/
def SameEntry (W : Place → Prop) (d d' : Disk) (e e' : Visible) : Prop :=
  e'.pos = e.pos ∧ slotAt d' e.pos = slotAt d e.pos ∧ Damaged W e.long e'.long

theorem slotKind_delSlot (slot : Slot) : slotKind (delSlot slot) = .deleted :=
  slotKind_of_deleted rfl

/-- The scans of the slots before the target meet the same entries, in states that
the deletion may have damaged. -/
theorem visible_before (hkind : ∀ p ∈ pre, slotKind (slotAt d p) ≠ .last)
    (hmarks : Marks W d d' pre)
    (h : Damaged W x x') :
    ∃ es es' y y', (∀ rest, visible d x (pre ++ rest) = es ++ visible d y rest) ∧
      (∀ rest, visible d' x' (pre ++ rest) = es' ++ visible d' y' rest) ∧
      List.Forall₂ (SameEntry W d d') es es' ∧ Damaged W y y' := by
  induction pre generalizing x x' with
  | nil => exact ⟨[], [], x, x', fun _ => rfl, fun _ => rfl, .nil, h⟩
  | cons p pre ih =>
    have hrest := fun {z z' : LongName} (hz : Damaged W z z') =>
      ih (fun q hq => hkind q (by simp [hq])) (fun q hq => hmarks q (by simp [hq])) hz
    simp only [List.cons_append, visible]
    rcases hmarks p (by simp) with ⟨hW, hlfn, hslot⟩ | ⟨hW, hslot⟩
    · rw [hslot, slotKind_delSlot, hlfn]
      exact hrest (h.wipe hW _)
    · rw [hslot]
      cases hk : slotKind (slotAt d p) with
      | last => exact absurd hk (hkind p (by simp))
      | deleted => exact hrest (damaged_reset W x x')
      | lfn => exact hrest (h.add (fun hp => hW ⟨hp, hk⟩) _)
      | volume => exact hrest (damaged_reset W x x')
      | entry =>
        obtain ⟨es, es', y, y', hes, hes', hsame, hy⟩ := hrest (damaged_reset W x x')
        refine ⟨⟨p, x⟩ :: es, ⟨p, x'⟩ :: es', y, y', fun rest => ?_, fun rest => ?_, ?_, hy⟩
        · simp only [hes, List.cons_append]
        · simp only [hes', List.cons_append]
        · exact .cons ⟨rfl, hslot, h⟩ hsame

/-- An entry keeps its name: it has no long name, or none of the slots of its long
name is in `W`, or its long name is its short name. -/
def KeepsName (W : Place → Prop) (d : Disk) (e : Visible) : Prop :=
  useLfn e.long.st (slotAt d e.pos) = true → (∃ q ∈ e.long.own, W q) →
    collectLfn e.long.st.lfnBuf e.long.st.lfnCount = parseShortName (slotName (slotAt d e.pos))

theorem toDentry_eq_iff {st st' : LfnState} :
    toDentry st' slot = toDentry st slot ↔ entryName st' slot = entryName st slot := by
  unfold toDentry
  rw [Dentry.mk.injEq]
  simp only [and_true]

theorem dentry_eq_iff {e e' : Visible} (h : SameEntry W d d' e e') :
    e'.dentry d' = e.dentry d ↔ KeepsName W d e := by
  obtain ⟨hpos, hslot, -, hlong⟩ := h
  unfold Visible.dentry KeepsName
  rw [hpos, hslot, toDentry_eq_iff]
  rcases hlong with ⟨hown, hequiv⟩ | ⟨hown, hcount, -⟩
  · refine iff_of_true (hequiv.entryName_eq _).symm fun _ hex => ?_
    obtain ⟨q, hq, hW⟩ := hex
    exact absurd hW (hown q hq)
  · have huse' : useLfn e'.long.st (slotAt d e.pos) = false := by
      simp [useLfn, hcount]
    unfold entryName
    rw [huse']
    cases huse : useLfn e.long.st (slotAt d e.pos) with
    | false => simp
    | true =>
      simp only [if_true, if_false, Bool.false_eq_true, forall_const, hown]
      exact eq_comm

theorem map_dentry_eq_iff {es es' : List Visible} (h : List.Forall₂ (SameEntry W d d') es es') :
    es'.map (Visible.dentry d') = es.map (Visible.dentry d) ↔ ∀ e ∈ es, KeepsName W d e := by
  induction h with
  | nil => simp
  | cons hhead _ ih =>
    rw [List.map_cons, List.map_cons, List.cons_eq_cons, ih, dentry_eq_iff hhead,
      List.forall_mem_cons]

/-- Where an entry of a listing stands. -/
theorem visible_split {es₁ es₂ : List Visible} {e : Visible}
    (h : visible d x ps = es₁ ++ e :: es₂) :
    ∃ pre post, ps = pre ++ e.pos :: post ∧ visible d x pre = es₁ ∧
      (∀ p ∈ pre, slotKind (slotAt d p) ≠ .last) ∧ slotKind (slotAt d e.pos) = .entry := by
  induction ps generalizing x es₁ with
  | nil => simp [visible] at h
  | cons p ps ih =>
    by_cases hlast : slotKind (slotAt d p) = .last
    · rw [visible_cons_last hlast] at h
      simp at h
    by_cases hk : slotKind (slotAt d p) = .entry
    · rw [visible_cons_entry hk] at h
      cases es₁ with
      | nil =>
        obtain ⟨rfl, -⟩ := List.cons_eq_cons.mp h
        exact ⟨[], ps, rfl, by rw [visible], by simp, hk⟩
      | cons e₁ es₁ =>
        obtain ⟨rfl, hrest⟩ := List.cons_eq_cons.mp h
        obtain ⟨pre, post, rfl, hpre, hkind, hentry⟩ := ih hrest
        exact ⟨p :: pre, post, rfl, by rw [visible_cons_entry hk, hpre],
          List.forall_mem_cons.mpr ⟨hlast, hkind⟩, hentry⟩
    · rw [visible_cons_skip hlast hk] at h
      obtain ⟨pre, post, rfl, hpre, hkind, hentry⟩ := ih h
      exact ⟨p :: pre, post, rfl, by rw [visible_cons_skip hlast hk, hpre],
        List.forall_mem_cons.mpr ⟨hlast, hkind⟩, hentry⟩

/-! ## Well-formed directories -/

/-- The names `.` and `..`. -/
def IsDot (name : CStr) : Prop := name = [46] ∨ name = [46, 46]

instance : DecidablePred IsDot := fun name =>
  inferInstanceAs (Decidable (name = [46] ∨ name = [46, 46]))

/-- A directory with the clusters `l`.  An entry has clusters of its own, or is the
`.` entry at the start, or the `..` entry of a directory that is not empty. -/
structure WellFormedDir (fs : Fat32Fs) (d : Disk) (dir : Nat) (l : List Nat) : Prop where
  chain : Chain fs d dir l
  entries : ∀ e ∈ dirEntries fs d l,
    (∃ m, Chain fs d (e.found d).cluster m ∧ m.Disjoint l) ∨
    ((e.found d).cluster = dir ∧ (e.found d).isDir = true ∧ (dirSlots fs l).head? = some e.pos) ∨
    ((e.found d).isDir = true ∧ ∃ m, Chain fs d (e.found d).cluster m ∧
      ∃ e' ∈ dirEntries fs d m, ¬ IsDot (e'.dentry d).name)
  dots : ∀ e ∈ dirEntries fs d l, IsDot (e.dentry d).name → e.pos ∈ (dirSlots fs l).take 2

theorem dirEntries_length_lt (hs : Sane fs d) (h : Walk fs d v l) :
    (dirEntries fs d l).length < 2 ^ 39 := by
  have hsub : ((dirEntries fs d l).map Visible.pos).Sublist (dirSlots fs l) := visible_sublist
  have hle := hsub.length_le
  rw [List.length_map, dirSlots_length] at hle
  have hlen := h.length_lt_fuel hs
  have hmul : fs.sectorsPerCluster * l.length ≤ 128 * l.length := Nat.mul_le_mul_right _ hs.spc_le
  omega

theorem countEntries_spec (hs : Sane fs d) (h : Walk fs d v l) {fuel i count : Nat}
    (hfuel : (dirEntries fs d l).length - i < fuel) :
    countEntries fs d v fuel i count = some (count +
      (((dirEntries fs d l).drop i).countP fun e => ¬ IsDot (e.dentry d).name)) := by
  induction fuel generalizing i count with
  | zero => omega
  | succ fuel ih =>
    rw [countEntries, fat32ReadDir_eq hs h]
    by_cases hi : i < (dirEntries fs d l).length
    · rw [List.getElem?_eq_getElem hi, List.drop_eq_getElem_cons hi, List.countP_cons]
      simp only [Option.map_some]
      rw [ih (by omega)]
      congr 1
      by_cases hdot : IsDot ((dirEntries fs d l)[i].dentry d).name
      · have hdot' := hdot
        unfold IsDot at hdot'
        simp only [if_pos hdot', hdot, not_true, decide_false, Bool.false_eq_true, if_false]
        omega
      · have hdot' := hdot
        unfold IsDot at hdot'
        simp only [if_neg hdot', hdot, not_false_iff, decide_true, if_true]
        omega
    · rw [List.getElem?_eq_none (by omega), List.drop_eq_nil_of_le (by omega)]
      simp

/-- `fat32_unlink_file` takes a directory for empty when it lists only dots. -/
theorem countEntries_pos_iff (hs : Sane fs d) (h : Walk fs d v l) :
    ∃ n, countEntries fs d v (2 ^ 39 + 1) 0 0 = some n ∧
      (n > 0 ↔ ∃ e ∈ dirEntries fs d l, ¬ IsDot (e.dentry d).name) := by
  have hlen := dirEntries_length_lt hs h
  refine ⟨_, countEntries_spec hs h (by omega), ?_⟩
  rw [Nat.zero_add, List.drop_zero, gt_iff_lt, List.countP_pos_iff]
  simp only [decide_eq_true_eq]

/-! ## The exact condition -/

/-- What `fat32_read_dir` enumerates. -/
def Lists (fs : Fat32Fs) (d : Disk) (dir : Nat) (es : List Dentry) : Prop :=
  ∀ i, fat32ReadDir fs d dir i = some es[i]?

/-- The listing has lost the entry that `fat32_lookup` designates, and nothing else
has changed in it. -/
def RemovesOne (fs : Fat32Fs) (d d' : Disk) (dir : Nat) (l : List Nat) (name : CStr) : Prop :=
  Lists fs d dir ((dirEntries fs d l).map (Visible.dentry d)) ∧
    ∃ k e, (dirEntries fs d l)[k]? = some e ∧
        fat32Lookup fs d dir name = some (some (e.found d)) ∧
      Lists fs d' dir (((dirEntries fs d l).map (Visible.dentry d)).eraseIdx k)

/-- Every entry listed before the target keeps its name when the long-name slots
numbered before the target are marked as deleted. -/
def SparesNames (fs : Fat32Fs) (d : Disk) (l : List Nat) (target : Found) : Prop :=
  ∀ e ∈ (dirEntries fs d l).takeWhile (fun e => ¬ AtTarget target e.pos),
    KeepsName (NumberedBefore target) d e

theorem lists_iff (hs : Sane fs d) (h : Walk fs d v l) {es : List Dentry} :
    Lists fs d v es ↔ es = (dirEntries fs d l).map (Visible.dentry d) := by
  unfold Lists
  constructor
  · intro hlists
    refine List.ext_getElem? fun i => ?_
    have := hlists i
    rw [fat32ReadDir_eq hs h, Option.some.injEq] at this
    rw [← this, List.getElem?_map]
  · rintro rfl i
    rw [fat32ReadDir_eq hs h, List.getElem?_map]

theorem found_inj {e e' : Visible} (h : e.found d = e'.found d) : e.pos = e'.pos := by
  have hsec : e.pos.1 = e'.pos.1 := congrArg Found.sector h
  have hoff : 32 * e.pos.2 = 32 * e'.pos.2 := congrArg Found.offset h
  exact Prod.ext hsec (by omega)

theorem atTarget_found {e : Visible} : AtTarget (e.found d) p ↔ p = e.pos := by
  constructor
  · rintro ⟨hsec, hoff⟩
    have hoff' : 32 * p.2 = 32 * e.pos.2 := hoff
    exact Prod.ext hsec (by omega)
  · rintro rfl
    exact ⟨rfl, rfl⟩

section Split

variable {es₁ es₂ : List Visible} {e : Visible} {dir : Nat} {name : CStr}

theorem pos_not_before (hs : Sane fs d) (h : Walk fs d dir l)
    (hsplit : dirEntries fs d l = es₁ ++ e :: es₂) : ∀ e' ∈ es₁, e'.pos ≠ e.pos := by
  have hsub : ((dirEntries fs d l).map Visible.pos).Sublist (dirSlots fs l) := visible_sublist
  have hnodup := (h.dirSlots_nodup hs).sublist hsub
  rw [hsplit, List.map_append, List.map_cons] at hnodup
  intro e' he' heq
  exact (List.nodup_append.mp hnodup).2.2 _ (List.mem_map_of_mem he') _ (by simp) heq

theorem sparesNames_iff (hs : Sane fs d) (h : Walk fs d dir l)
    (hsplit : dirEntries fs d l = es₁ ++ e :: es₂) :
    SparesNames fs d l (e.found d) ↔ ∀ e' ∈ es₁, KeepsName (NumberedBefore (e.found d)) d e' := by
  have hbefore :
      (dirEntries fs d l).takeWhile (fun e' => ¬ AtTarget (e.found d) e'.pos) = es₁ := by
    rw [hsplit, List.takeWhile_append_of_pos fun e' he' => by
      simpa [atTarget_found] using pos_not_before hs h hsplit e' he']
    simp [atTarget_found]
  unfold SparesNames
  rw [hbefore]

/-- The lookup fixes which entry is left out. -/
theorem removesOne_iff (hs : Sane fs d) (h : Walk fs d dir l)
    (hsplit : dirEntries fs d l = es₁ ++ e :: es₂)
    (hlook : fat32Lookup fs d dir name = some (some (e.found d))) :
    RemovesOne fs d d' dir l name ↔ Lists fs d' dir ((es₁ ++ es₂).map (Visible.dentry d)) := by
  have herase : ((dirEntries fs d l).map (Visible.dentry d)).eraseIdx es₁.length =
      (es₁ ++ es₂).map (Visible.dentry d) := by
    rw [hsplit, List.map_append, List.map_cons, List.eraseIdx_append_of_length_le (by simp)]
    simp
  constructor
  · rintro ⟨-, k, e', hk, hlook', hlists⟩
    rw [hlook, Option.some.injEq, Option.some.injEq] at hlook'
    have hpos := found_inj hlook'
    have hindex : k = es₁.length := by
      have hsub : ((dirEntries fs d l).map Visible.pos).Sublist (dirSlots fs l) := visible_sublist
      have hnodup := (h.dirSlots_nodup hs).sublist hsub
      have hat : ((dirEntries fs d l).map Visible.pos)[k]? =
          ((dirEntries fs d l).map Visible.pos)[es₁.length]? := by
        rw [List.getElem?_map, hk, List.getElem?_map, hsplit]
        simp [hpos]
      have hlt : k < ((dirEntries fs d l).map Visible.pos).length := by
        rw [List.length_map]
        exact (List.getElem?_eq_some_iff.mp hk).1
      exact (List.getElem?_inj hlt hnodup).mp hat
    rw [hindex, herase] at hlists
    exact hlists
  · intro hlists
    refine ⟨(lists_iff hs h).mpr rfl, es₁.length, e, by simp [hsplit], hlook, ?_⟩
    rw [herase]
    exact hlists

/-- Freeing the target's chain leaves a directory alone that shares no cluster with
it. -/
theorem free_target (hs : Sane fs d) {m : List Nat} (hm : Chain fs d v m) :
    ∃ d₁, (if IsLink v then fatFreeChain fs d v else some d) = some d₁ ∧ Freed fs d d₁ m := by
  by_cases hlink : IsLink v
  · rw [if_pos hlink]
    exact fatFreeChain_spec hs hm
  · have hstop : Linked (fatNextCluster fs d) (fun c => ¬ IsLink c) v [] := hlink
    have hnil := hm.linked.unique hstop
    subst hnil
    exact ⟨d, if_neg hlink, .refl fs d, by simp, fun _ _ _ => rfl⟩

/-- The listing after the deletion loop has run on the slots `pre ++ t :: post`. -/
theorem lists_after (hs : Sane fs d') (h : Walk fs d' dir l)
    (hsplit : dirEntries fs d l = es₁ ++ e :: es₂)
    (hps : dirSlots fs l = pre ++ e.pos :: post) (hpre : visible d .none pre = es₁)
    (hkind : ∀ p ∈ pre, slotKind (slotAt d p) ≠ .last)
    (hentry : slotKind (slotAt d e.pos) = .entry)
    (hmarks : Marks W d d' pre) (htarget : slotAt d' e.pos = delSlot (slotAt d e.pos))
    (hpost : ∀ p ∈ post, slotAt d' p = slotAt d p) :
    Lists fs d' dir ((es₁ ++ es₂).map (Visible.dentry d)) ↔ ∀ e' ∈ es₁, KeepsName W d e' := by
  obtain ⟨es, es', y, y', hes, hes', hsame, -⟩ := visible_before hkind hmarks (damaged_none W)
  have hes₁ : es = es₁ := by
    have := hes []
    rw [List.append_nil, hpre] at this
    simpa [visible] using this.symm
  subst hes₁
  have hdel : slotKind (slotAt d' e.pos) = .deleted := by rw [htarget, slotKind_delSlot]
  have hes₂ : es₂ = visible d (y.step e.pos (slotAt d e.pos)) post := by
    have : dirEntries fs d l = es ++ visible d y (e.pos :: post) := by
      unfold dirEntries
      rw [hps, hes]
    rw [hsplit, visible_cons_entry hentry] at this
    exact (List.cons_eq_cons.mp (List.append_cancel_left this)).2
  have hafter :
      dirEntries fs d' l = es' ++ visible d' (y'.step e.pos (slotAt d' e.pos)) post := by
    unfold dirEntries
    rw [hps, hes', visible_cons_skip (by simp [hdel]) (by simp [hdel])]
  have hequiv :
      (y.step e.pos (slotAt d e.pos)).st.Equiv (y'.step e.pos (slotAt d' e.pos)).st := by
    unfold LongName.step
    rw [hentry, hdel, if_neg (by simp), if_neg (by simp)]
    exact y.equiv_reset y'
  rw [lists_iff hs h, hafter, List.map_append, List.map_append, visible_dentry_congr hequiv hpost,
    ← hes₂,
    List.append_cancel_right_eq, eq_comm]
  exact map_dentry_eq_iff hsame

theorem removeEntry_spec (hs : Sane fs d) (hl : Chain fs d dir l)
    (hsplit : dirEntries fs d l = es₁ ++ e :: es₂) {m : List Nat}
    (hm : Chain fs d (e.found d).cluster m) (hdisj : m.Disjoint l) :
    ∃ d', removeEntry fs d dir (e.found d) = some (true, d') ∧
      (Lists fs d' dir ((es₁ ++ es₂).map (Visible.dentry d)) ↔
        ∀ e' ∈ es₁, KeepsName (NumberedBefore (e.found d)) d e') := by
  obtain ⟨d₁, hfree, hfreed⟩ := free_target hs hm
  have hs₁ := hs.of_sameDevice hfreed.sameData.1
  have hwalk₁ : Walk fs d₁ dir l := hl.toWalk.congr fun c hc =>
    hfreed.others c (hl.inVolume c hc).2 fun hcm => hdisj hcm hc
  obtain ⟨pre, post, hps, hpre, hkind, hentry⟩ := visible_split hsplit
  have hslot : ∀ p ∈ pre ++ e.pos :: post, slotAt d₁ p = slotAt d p := fun p hp =>
    slotAt_of_sameData hs hfreed.sameData hl.inVolume (hps ▸ hp)
  have hnodup := hl.toWalk.dirSlots_nodup hs
  rw [hps, List.nodup_append] at hnodup
  have hne : ∀ p ∈ pre, p ≠ e.pos := fun p hp => hnodup.2.2 p hp e.pos (by simp)
  have hclear : ∀ p ∈ pre, ¬ AtTarget (e.found d) p ∧ slotAt d₁ p 0 ≠ 0 := by
    intro p hp
    refine ⟨fun hat => hne p hp (atTarget_found.mp hat), fun hzero => hkind p hp ?_⟩
    rw [hslot p (by simp [hp])] at hzero
    exact if_pos hzero
  obtain ⟨d', hwipe, hremoved⟩ := wipeLoop_spec hs₁ hwalk₁ hps (atTarget_found.mpr rfl) hclear
  refine ⟨d', by rw [removeEntry, hfree]; simp only [hwipe], ?_⟩
  have hwalk' : Walk fs d' dir l := hwalk₁.congr fun c hc =>
    fatNextCluster_congr hs₁ hremoved.sameDevice hremoved.table (hl.inVolume c hc).2
  refine lists_after (hs₁.of_sameDevice hremoved.sameDevice) hwalk' hsplit hps hpre hkind hentry
    ?_ ?_ ?_
  · intro p hp
    have hslots := hremoved.slots p
    simp only [hne p hp, hp, false_or, true_and, Wiped, hslot p (by simp [hp])] at hslots
    by_cases hw : NumberedBefore (e.found d) p ∧ slotKind (slotAt d p) = .lfn
    · rw [if_pos hw] at hslots
      exact .inl ⟨hw.1, hw.2, hslots⟩
    · rw [if_neg hw] at hslots
      exact .inr ⟨hw, hslots⟩
  · rw [hremoved.slots, if_pos (.inl rfl), hslot e.pos (by simp)]
  · intro p hp
    have hnot : p ∉ pre := fun hmem => hnodup.2.2 p hmem p (by simp [hp]) rfl
    have hne' : p ≠ e.pos := by
      rintro rfl
      exact (List.nodup_cons.mp hnodup.2.1).1 hp
    rw [hremoved.slots, if_neg (by simp [hne', hnot]), hslot p (by simp [hp])]

/-- The entries of two parts: those of the first, and some of the second. -/
theorem visible_append (x : LongName) (ps qs : List Place) :
    ∃ es, visible d x (ps ++ qs) = visible d x ps ++ es ∧ ∀ e ∈ es, e.pos ∈ qs := by
  induction ps generalizing x with
  | nil =>
    refine ⟨visible d x qs, rfl, fun e he => ?_⟩
    have hsub : ((visible d x qs).map Visible.pos).Sublist qs := visible_sublist
    exact hsub.subset (List.mem_map_of_mem he)
  | cons p ps ih =>
    rw [List.cons_append]
    by_cases hlast : slotKind (slotAt d p) = .last
    · exact ⟨[], by rw [visible_cons_last hlast, visible_cons_last hlast]; rfl, by simp⟩
    obtain ⟨es, hes, hmem⟩ := ih (x.step p (slotAt d p))
    by_cases hentry : slotKind (slotAt d p) = .entry
    · exact ⟨es, by rw [visible_cons_entry hentry, visible_cons_entry hentry, hes]; rfl, hmem⟩
    · exact ⟨es, by rw [visible_cons_skip hlast hentry, visible_cons_skip hlast hentry, hes],
        hmem⟩

/-- When every entry stands in the first two slots, the others come from the rest of
the first cluster. -/
theorem entries_in_first (hs : Sane fs d) (h : Walk fs d dir (dir :: l))
    (hsplit : dirEntries fs d (dir :: l) = e :: es₂) (hfirst : dirSlots fs [dir] = e.pos :: post)
    (hentry : slotKind (slotAt d e.pos) = .entry)
    (hplaces : ∀ e' ∈ dirEntries fs d (dir :: l), e'.pos ∈ (dirSlots fs (dir :: l)).take 2) :
    es₂ = visible d (LongName.none.step e.pos (slotAt d e.pos)) post := by
  have hnodup := h.dirSlots_nodup hs
  have hlen : (dirSlots fs [dir]).length = 16 * (fs.sectorsPerCluster * [dir].length) :=
    dirSlots_length
  have hpos := hs.spc_pos
  rw [hfirst, List.length_singleton, List.length_cons] at hlen
  rw [dirSlots_cons, hfirst] at hnodup hplaces
  obtain ⟨es, hes, hmem⟩ :=
    visible_append (d := d) (LongName.none.step e.pos (slotAt d e.pos)) post (dirSlots fs l)
  have hall : es₂ = visible d (LongName.none.step e.pos (slotAt d e.pos)) post ++ es := by
    unfold dirEntries at hsplit
    rw [dirSlots_cons, hfirst, List.cons_append, visible_cons_entry hentry, hes] at hsplit
    exact (List.cons_eq_cons.mp hsplit).2.symm
  have hnil : es = [] := by
    refine List.eq_nil_iff_forall_not_mem.mpr fun e' he' => ?_
    have htake := hplaces e' (by rw [hsplit, hall]; simp [he'])
    rw [List.take_append_of_le_length (by rw [List.length_cons]; omega)] at htake
    exact (List.nodup_append.mp hnodup).2.2 _ (List.mem_of_mem_take htake) _ (hmem e' he') rfl
  rw [hall, hnil, List.append_nil]

/-- The `.` entry of a directory that lists only dots: its chain, which is the
directory's own, is freed, and the first cluster can still be read. -/
theorem removeEntry_dot (hs : Sane fs d) (hwf : WellFormedDir fs d dir l)
    (hsplit : dirEntries fs d l = es₁ ++ e :: es₂) (hdir : (e.found d).cluster = dir)
    (hhead : (dirSlots fs l).head? = some e.pos)
    (hdots : ∀ e' ∈ dirEntries fs d l, IsDot (e'.dentry d).name) :
    es₁ = [] ∧ ∃ d', removeEntry fs d dir (e.found d) = some (true, d') ∧
      Lists fs d' dir (es₂.map (Visible.dentry d)) := by
  have hnodup := hwf.chain.toWalk.dirSlots_nodup hs
  obtain ⟨pre, post, hps, hpre, -, hentry⟩ := visible_split hsplit
  have hnil : pre = [] := by
    cases pre with
    | nil => rfl
    | cons p pre =>
      rw [hps] at hhead hnodup
      have hp : p = e.pos := by simpa using hhead
      have := (List.nodup_append.mp hnodup).2.2 p (by simp) e.pos (by simp)
      exact absurd hp this
  subst hnil
  refine ⟨by rw [← hpre, visible], ?_⟩
  cases l with
  | nil => simp [dirSlots] at hhead
  | cons c l =>
    obtain ⟨rfl, hstop, -⟩ := hwf.chain.linked
    have hlink : IsLink dir := not_not.mp hstop
    have hin := hwf.chain.inVolume dir (by simp)
    obtain ⟨d₁, hfree, hfreed⟩ := free_target hs hwf.chain
    have hs₁ := hs.of_sameDevice hfreed.sameData.1
    have hnext : ¬ IsLink (fatNextCluster fs d₁ dir) := by
      rw [hfreed.freed dir (by simp)]
      decide
    have hwalk₁ : Walk fs d₁ dir [dir] := ⟨⟨rfl, hstop, hnext⟩, by simpa using hin⟩
    -- The first cluster holds the target and more than one other slot.
    have hlen : (dirSlots fs [dir]).length = 16 * fs.sectorsPerCluster := by
      rw [dirSlots_length]
      simp
    have hpos := hs.spc_pos
    rw [dirSlots_cons] at hps hnodup hhead
    obtain ⟨p, post₁, hfirst⟩ := List.exists_cons_of_ne_nil
      (List.ne_nil_of_length_pos (show 0 < (dirSlots fs [dir]).length by omega))
    rw [hfirst] at hps
    obtain ⟨rfl, rfl⟩ := List.cons_eq_cons.mp hps
    have hat : AtTarget (e.found d) e.pos := atTarget_found.mpr rfl
    obtain ⟨d', hwipe, hremoved⟩ := wipeLoop_spec hs₁ hwalk₁
      (show dirSlots fs [dir] = [] ++ e.pos :: post₁ from hfirst) hat (by simp)
    have hwalk' : Walk fs d' dir [dir] := hwalk₁.congr fun c hc =>
      fatNextCluster_congr hs₁ hremoved.sameDevice hremoved.table (hwalk₁.inVolume c hc).2
    refine ⟨d', by rw [removeEntry, hdir, hfree]; simp only [hwipe], ?_⟩
    have hslot : ∀ q ∈ dirSlots fs [dir], slotAt d₁ q = slotAt d q := fun q hq =>
      slotAt_of_sameData hs hfreed.sameData (by simpa using hin) hq
    have hfirstNodup := (List.nodup_append.mp hnodup).1
    rw [hfirst] at hfirstNodup hslot
    have htarget : slotAt d' e.pos = delSlot (slotAt d e.pos) := by
      rw [hremoved.slots, if_pos (.inl rfl), hslot e.pos (by simp)]
    have hpost : ∀ q ∈ post₁, slotAt d' q = slotAt d q := by
      intro q hq
      have hne : q ≠ e.pos := by
        rintro rfl
        exact (List.nodup_cons.mp hfirstNodup).1 hq
      rw [hremoved.slots, if_neg (by simp [hne]), hslot q (by simp [hq])]
    have hes₂ : es₂ = visible d (LongName.none.step e.pos (slotAt d e.pos)) post₁ := by
      have hes₁ : es₁ = [] := by rw [← hpre, visible]
      subst hes₁
      refine entries_in_first hs hwf.chain.toWalk hsplit hfirst hentry fun e' he' => ?_
      exact hwf.dots e' he' (hdots e' he')
    have hdel : slotKind (slotAt d' e.pos) = .deleted := by rw [htarget, slotKind_delSlot]
    have hequiv : (LongName.none.step e.pos (slotAt d e.pos)).st.Equiv
        (LongName.none.step e.pos (slotAt d' e.pos)).st := by
      unfold LongName.step
      rw [hentry, hdel, if_neg (by simp), if_neg (by simp)]
      exact .refl _
    rw [lists_iff (hs₁.of_sameDevice hremoved.sameDevice) hwalk']
    unfold dirEntries
    rw [hfirst, visible_cons_skip (by simp [hdel]) (by simp [hdel]),
      visible_dentry_congr hequiv hpost,
      ← hes₂]

/-- What a successful unlink has done: it found the target, which lists no entry if it
is a directory, and removed it. -/
theorem unlink_inv {target : Found} (hlook : fat32Lookup fs d dir name = some (some target))
    (hret : fat32UnlinkFile fs d dir name = some (true, d')) :
    removeEntry fs d dir target = some (true, d') ∧
      (target.isDir = true → countEntries fs d target.cluster (2 ^ 39 + 1) 0 0 = some 0) := by
  unfold fat32UnlinkFile at hret
  split at hret
  · cases hret
  rw [hlook] at hret
  simp only at hret
  split at hret
  next hdir =>
    split at hret
    · cases hret
    next n hcount =>
      split at hret
      · cases hret
      next hzero =>
        obtain rfl : n = 0 := by omega
        exact ⟨hret, fun _ => hcount⟩
  next hdir => exact ⟨hret, fun h => absurd h hdir⟩

/-- **What an unlink removes.**  When `fat32_unlink_file` returns 0 on a well-formed
directory, the listing loses the entry that `fat32_lookup` designates and nothing
else exactly if every entry listed before it keeps its name. -/
theorem unlink_removesOne_iff {target : Found} (hs : Sane fs d) (hwf : WellFormedDir fs d dir l)
    (hlook : fat32Lookup fs d dir name = some (some target))
    (hret : fat32UnlinkFile fs d dir name = some (true, d')) :
    RemovesOne fs d d' dir l name ↔ SparesNames fs d l target := by
  have hname : name ≠ [] := by
    rintro rfl
    cases hlook
  have hfind := hlook
  rw [fat32Lookup_eq hs hwf.chain.toWalk hname, Option.some.injEq,
    Option.map_eq_some_iff] at hfind
  obtain ⟨e, hfind, rfl⟩ := hfind
  obtain ⟨-, es₁, es₂, hsplit, -⟩ := List.find?_eq_some_iff_append.mp hfind
  rw [removesOne_iff hs hwf.chain.toWalk hsplit hlook, sparesNames_iff hs hwf.chain.toWalk hsplit]
  have hmem : e ∈ dirEntries fs d l := by simp [hsplit]
  obtain ⟨hremove, hzero⟩ := unlink_inv hlook hret
  -- A directory that lists more than dots is refused.
  have hempty : (e.found d).isDir = true → ∀ m, Chain fs d (e.found d).cluster m →
      ∀ e' ∈ dirEntries fs d m, IsDot (e'.dentry d).name := by
    intro hdir m hm e' he'
    obtain ⟨n, hcount, hpos⟩ := countEntries_pos_iff hs hm.toWalk
    rw [hzero hdir, Option.some.injEq] at hcount
    by_contra hdot
    have := hpos.mpr ⟨e', he', hdot⟩
    omega
  rcases hwf.entries e hmem with ⟨m, hm, hdisj⟩ | ⟨hcluster, hdir, hhead⟩ | ⟨hdir, m, hm, e', he',
      hdot⟩
  · obtain ⟨d₂, hspec, hiff⟩ := removeEntry_spec hs hwf.chain hsplit hm hdisj
    rw [hremove, Option.some.injEq, Prod.mk.injEq] at hspec
    rw [hspec.2]
    exact hiff
  · obtain ⟨rfl, d₂, hspec, hlists⟩ := removeEntry_dot hs hwf hsplit hcluster hhead
      (hempty hdir l (hcluster ▸ hwf.chain))
    rw [hremove, Option.some.injEq, Prod.mk.injEq] at hspec
    rw [hspec.2]
    exact iff_of_true hlists (by simp)
  · exact absurd (hempty hdir m hm e' he') hdot

end Split

/-! ## A directory with two long names -/

/-- A sector with the given slots, and no others. -/
def sectorOf (slots : List Slot) : Mem := fun i => (slots.getD (i / 32) fun _ => 0) (i % 32)

/-- `alphabet`. -/
def nameA : CStr := [97, 108, 112, 104, 97, 98, 101, 116]

/-- `betamax`. -/
def nameB : CStr := [98, 101, 116, 97, 109, 97, 120]

/-- The files `alphabet` and `betamax`, as `fat32_create_file` writes them. -/
def twoFiles : Disk :=
  smallDisk (sectorOf (newSlots nameA (shortCandidate nameA 1) ATTR_ARCHIVE 0 ++
    newSlots nameB (shortCandidate nameB 1) ATTR_ARCHIVE 0))

theorem wellFormed_twoFiles : WellFormedDir smallFs twoFiles 2 [2] where
  chain := chain_smallDisk _
  entries := by
    intro e he
    have hzero : ∀ e ∈ dirEntries smallFs twoFiles [2], (e.found twoFiles).cluster = 0 := by
      decide +kernel
    refine .inl ⟨[], ?_, by simp⟩
    rw [hzero e he]
    exact ⟨⟨show ¬ IsLink 0 by decide, by simp⟩, by simp⟩
  dots := by
    intro e he hdot
    have hnone : ∀ e ∈ dirEntries smallFs twoFiles [2], ¬ IsDot (e.dentry twoFiles).name := by
      decide +kernel
    exact absurd hdot (hnone e he)

/-- The device after `unlink(name)`. -/
def afterUnlink (name : CStr) : Disk :=
  ((fat32UnlinkFile smallFs twoFiles 2 name).getD (false, twoFiles)).2

theorem unlink_twoFiles (name : CStr)
    (h : (fat32UnlinkFile smallFs twoFiles 2 name).map Prod.fst = some true) :
    fat32UnlinkFile smallFs twoFiles 2 name = some (true, afterUnlink name) := by
  obtain ⟨r, hr, htrue⟩ := Option.map_eq_some_iff.mp h
  unfold afterUnlink
  rw [hr, Option.getD_some, ← htrue]

/-- The first file can go. -/
theorem unlink_removesOne_iff_first :
    fat32UnlinkFile smallFs twoFiles 2 nameA = some (true, afterUnlink nameA) ∧
      (RemovesOne smallFs twoFiles (afterUnlink nameA) 2 [2] nameA ↔
        SparesNames smallFs twoFiles [2]
          { cluster := 0, size := 0, isDir := false, sector := 2, offset := 32 }) := by
  have hret := unlink_twoFiles nameA (by decide +kernel)
  exact ⟨hret, unlink_removesOne_iff (sane_smallDisk _) wellFormed_twoFiles
    (by decide +kernel) hret⟩

/-- Unlinking `betamax` takes the long name of `alphabet` away: it is listed as
`alphab~1` afterwards. -/
theorem second_not_removesOne :
    WellFormedDir smallFs twoFiles 2 [2] ∧
      fat32UnlinkFile smallFs twoFiles 2 nameB = some (true, afterUnlink nameB) ∧
      ¬ RemovesOne smallFs twoFiles (afterUnlink nameB) 2 [2] nameB := by
  refine ⟨wellFormed_twoFiles, unlink_twoFiles nameB (by decide +kernel), ?_⟩
  rintro ⟨-, k, e, -, -, hlists⟩
  have hfirst := hlists 0
  rw [List.getElem?_eraseIdx] at hfirst
  have hA : fat32ReadDir smallFs (afterUnlink nameB) 2 0 ≠
      some ((dirEntries smallFs twoFiles [2]).map (Visible.dentry twoFiles))[0]? := by
    decide +kernel
  have hB : fat32ReadDir smallFs (afterUnlink nameB) 2 0 ≠
      some ((dirEntries smallFs twoFiles [2]).map (Visible.dentry twoFiles))[0 + 1]? := by
    decide +kernel
  split at hfirst
  · exact hA hfirst
  · exact hB hfirst

end Lumin.Fs.Fat32
