import Lumin.Fs.Fat32.Create

/-!
# The search for a short name

`make_short_name` tries 99999 numbers, but prints only the last two digits of a
number above 99.  The names of the numbers 1 to 109 are all the names it tries;
when a directory has all of them it returns the first one, which is taken.
-/

namespace Lumin.Fs.Fat32

open Lumin.Lib Lumin.Block

variable {fs : Fat32Fs} {d : Disk} {dir i j n num : Nat} {l : List Nat} {ps : List Place}
  {name : CStr}
  {name11 : List UInt8}

/-! ## The names that are tried -/

/-- Each number prints like one of the first 109. -/
theorem shortDigits_repeat (hnum : 1 ≤ num) :
    ∃ i, 1 ≤ i ∧ i ≤ 109 ∧ shortDigits num = shortDigits i := by
  by_cases hsmall : num ≤ 109
  · exact ⟨num, hnum, hsmall, rfl⟩
  have hlong :
      shortDigits num = [UInt8.ofNat (48 + num / 10 % 10), UInt8.ofNat (48 + num % 10)] := by
    rw [shortDigits, if_neg (by omega), if_neg (by omega)]
  by_cases htens : num % 100 < 10
  · refine ⟨100 + num % 100, by omega, by omega, ?_⟩
    rw [hlong, shortDigits, if_neg (by omega), if_neg (by omega),
      show (100 + num % 100) / 10 % 10 = num / 10 % 10 by omega,
      show (100 + num % 100) % 10 = num % 10 by omega]
  · refine ⟨num % 100, by omega, by omega, ?_⟩
    rw [hlong, shortDigits, if_neg htens, if_pos (Nat.mod_lt _ (by decide)),
      show num % 100 / 10 = num / 10 % 10 by omega, show num % 100 % 10 = num % 10 by omega]

theorem shortCandidate_repeat (name : CStr) (hnum : 1 ≤ num) :
    ∃ i, 1 ≤ i ∧ i ≤ 109 ∧ shortCandidate name num = shortCandidate name i := by
  obtain ⟨i, hpos, hle, hdigits⟩ := shortDigits_repeat hnum
  exact ⟨i, hpos, hle, by rw [shortCandidate, hdigits, shortCandidate]⟩

/-- The first 109 print differently. -/
theorem shortDigits_inj (hi : i ≤ 109) (hj : j ≤ 109) (h : shortDigits i = shortDigits j) :
    i = j := by
  have hnat := congrArg (List.map UInt8.toNat) h
  have htilde : UInt8.toNat 126 = 126 := rfl
  unfold shortDigits at hnat
  split_ifs at hnat <;>
    simp only [List.map_cons, List.map_nil, List.cons.injEq, UInt8.toNat_ofNat', htilde,
      and_true] at hnat <;>
    omega

theorem shortCandidate_inj (hi : i ≤ 109) (hj : j ≤ 109)
    (h : shortCandidate name i = shortCandidate name j) : i = j := by
  unfold shortCandidate at h
  have hprefix := List.append_inj_left' h rfl
  exact shortDigits_inj hi hj (List.append_inj_right hprefix rfl)

/-! ## The search -/

/-- An entry in one of the slots has the short name. -/
def Taken (d : Disk) (ps : List Place) (name11 : List UInt8) : Prop :=
  ∃ p ∈ ps, slotKind (slotAt d p) = .entry ∧ slotName (slotAt d p) = name11

instance (d : Disk) (ps : List Place) (name11 : List UInt8) : Decidable (Taken d ps name11) :=
  inferInstanceAs
    (Decidable (∃ p ∈ ps, slotKind (slotAt d p) = .entry ∧ slotName (slotAt d p) = name11))

/-- `short_name_exists` looks at all slots of a directory, also behind its end mark. -/
theorem shortNameExists_eq (h : Readable fs d dir l) (name11 : List UInt8) :
    shortNameExists fs d dir name11 = some (decide (Taken d (scanPlaces fs l) name11)) := by
  rw [shortNameExists, scanDir_readable h]
  generalize scanPlaces fs l = ps
  induction ps with
  | nil => simp [Taken, pure, Except.pure]
  | cons p ps ih =>
    rw [List.foldlM_cons, shortNameSlot]
    by_cases hp : slotKind (slotAt d p) = .entry ∧ slotName (slotAt d p) = name11
    · have htaken : Taken d (p :: ps) name11 := ⟨p, by simp, hp⟩
      rw [if_pos hp, decide_eq_true htaken]
      rfl
    · have hiff : Taken d (p :: ps) name11 ↔ Taken d ps name11 := by
        exact (List.exists_mem_cons_iff _ p ps).trans (or_iff_right hp)
      rw [if_neg hp, decide_eq_decide.mpr hiff]
      exact ih

/-- The loop returns the first name that is not taken, or the name of 1. -/
theorem makeShortLoop_eq (h : Readable fs d dir l) (name : CStr) (n num : Nat) :
    makeShortLoop fs d dir name n num = some (shortCandidate name
      (((List.range' num n).find? fun i => ¬ Taken d (scanPlaces fs l)
        (shortCandidate name i)).getD 1)) := by
  induction n generalizing num with
  | zero => rfl
  | succ n ih =>
    rw [makeShortLoop, shortNameExists_eq h, List.range'_succ, List.find?_cons]
    by_cases htaken : Taken d (scanPlaces fs l) (shortCandidate name num)
    · rw [decide_eq_true htaken, decide_eq_false (not_not.mpr htaken)]
      exact ih (num + 1)
    · rw [decide_eq_false htaken, decide_eq_true htaken]
      rfl

/-- The number that `make_short_name` takes in a directory with the slots `ps`. -/
def shortNumber (d : Disk) (ps : List Place) (name : CStr) : Nat :=
  ((List.range' 1 109).find? fun i => ¬ Taken d ps (shortCandidate name i)).getD 1

/-- All later numbers repeat a name. -/
theorem makeShortName_eq (h : Readable fs d dir l) (name : CStr) :
    makeShortName fs d dir name =
      some (shortCandidate name (shortNumber d (scanPlaces fs l) name)) := by
  have hsplit : List.range' 1 99999 = List.range' 1 109 ++ List.range' (1 + 109) 99890 := by
    rw [List.range'_append_1]
  rw [makeShortName, makeShortLoop_eq h, shortNumber, hsplit, List.find?_append]
  cases hfind :
    (List.range' 1 109).find? fun i => ¬ Taken d (scanPlaces fs l) (shortCandidate name i) with
  | some i => rfl
  | none =>
    rw [List.find?_eq_none] at hfind
    rw [Option.none_or, List.find?_eq_none.mpr]
    · intro num hnum hfree
      obtain ⟨i, hpos, hle, hsame⟩ := shortCandidate_repeat name
        (show 1 ≤ num by have := List.mem_range'_1.mp hnum; omega)
      refine hfind i (List.mem_range'_1.mpr ⟨hpos, by omega⟩) ?_
      rwa [← hsame]

/-- What `make_short_name` returns: a name that is not taken if there is one among the
first 109, else the name of 1. -/
theorem makeShortName_cases (h : Readable fs d dir l) (name : CStr) :
    ∃ name11, makeShortName fs d dir name = some name11 ∧
      (((∃ i, 1 ≤ i ∧ i ≤ 109 ∧ ¬ Taken d (scanPlaces fs l) (shortCandidate name i)) ∧
          ¬ Taken d (scanPlaces fs l) name11) ∨
        (¬ (∃ i, 1 ≤ i ∧ i ≤ 109 ∧ ¬ Taken d (scanPlaces fs l) (shortCandidate name i)) ∧
          name11 = shortCandidate name 1)) := by
  refine ⟨_, makeShortName_eq h name, ?_⟩
  unfold shortNumber
  cases hfind :
    (List.range' 1 109).find? fun i => ¬ Taken d (scanPlaces fs l) (shortCandidate name i) with
  | some i =>
    have hfree : ¬ Taken d (scanPlaces fs l) (shortCandidate name i) := by
      simpa using List.find?_some hfind
    have hmem := List.mem_range'_1.mp (List.mem_of_find?_eq_some hfind)
    exact .inl ⟨⟨i, hmem.1, by omega, hfree⟩, hfree⟩
  | none =>
    rw [List.find?_eq_none] at hfind
    refine .inr ⟨?_, rfl⟩
    rintro ⟨i, hpos, hle, hfree⟩
    exact hfind i (List.mem_range'_1.mpr ⟨hpos, by omega⟩) (decide_eq_true hfree)

/-! ## Uniqueness -/

/-- An entry that the directory shows has the short name. -/
def Live (fs : Fat32Fs) (d : Disk) (l : List Nat) (name11 : List UInt8) : Prop :=
  ∃ e ∈ visible d .none (scanPlaces fs l), slotName (slotAt d e.pos) = name11

/-- The entries that are shown stand in slots of the directory. -/
theorem visible_kind {x : LongName} {e : Visible} (he : e ∈ visible d x ps) :
    e.pos ∈ ps ∧ slotKind (slotAt d e.pos) = .entry := by
  induction ps generalizing x with
  | nil => simp [visible] at he
  | cons p ps ih =>
    rw [visible] at he
    cases hkind : slotKind (slotAt d p) <;> rw [hkind] at he <;> simp only at he
    case last => simp at he
    case entry =>
      rcases List.mem_cons.mp he with rfl | he
      · exact ⟨by simp, hkind⟩
      · exact ⟨List.mem_cons_of_mem p (ih he).1, (ih he).2⟩
    all_goals exact ⟨List.mem_cons_of_mem p (ih he).1, (ih he).2⟩

theorem Live.taken (h : Live fs d l name11) : Taken d (scanPlaces fs l) name11 := by
  obtain ⟨e, he, hname⟩ := h
  obtain ⟨hmem, hkind⟩ := visible_kind he
  exact ⟨e.pos, hmem, hkind, hname⟩

/-- **Generated short names are unique** exactly if one of the 109 names is not taken or
the directory does not show the first one. -/
theorem makeShortName_unique_iff (h : Readable fs d dir l) (name : CStr) :
    ∃ name11, makeShortName fs d dir name = some name11 ∧ (¬ Live fs d l name11 ↔
      (∃ i, 1 ≤ i ∧ i ≤ 109 ∧ ¬ Taken d (scanPlaces fs l) (shortCandidate name i)) ∨
        ¬ Live fs d l (shortCandidate name 1)) := by
  obtain ⟨name11, hmake, hcases⟩ := makeShortName_cases h name
  refine ⟨name11, hmake, ?_⟩
  rcases hcases with ⟨hsome, hfree⟩ | ⟨hnone, hname⟩
  · exact iff_of_true (fun hlive => hfree hlive.taken) (.inl hsome)
  · rw [hname]
    exact (or_iff_right hnone).symm

theorem makeShortName_unique_iff_readme :
    ∃ name11, makeShortName smallFs emptyDir 2 readmeName = some name11 ∧
        (¬ Live smallFs emptyDir [2] name11 ↔
      (∃ i, 1 ≤ i ∧ i ≤ 109 ∧
        ¬ Taken emptyDir (scanPlaces smallFs [2]) (shortCandidate readmeName i)) ∨
        ¬ Live smallFs emptyDir [2] (shortCandidate readmeName 1)) := by
  exact makeShortName_unique_iff ((chain_smallDisk _).toWalk.readable (sane_smallDisk _))
    readmeName

/-- With fewer than 109 entries the name is not taken. -/
theorem makeShortName_unique_of_few (h : Readable fs d dir l) (name : CStr)
    (hfew : ((scanPlaces fs l).filter fun p => slotKind (slotAt d p) = .entry).length < 109) :
    ∃ name11, makeShortName fs d dir name = some name11 ∧ ¬ Taken d (scanPlaces fs l) name11 := by
  obtain ⟨name11, hmake, hcases⟩ := makeShortName_cases h name
  refine ⟨name11, hmake, ?_⟩
  rcases hcases with ⟨-, hfree⟩ | ⟨hnone, -⟩
  · exact hfree
  · exfalso
    have hnodup : ((List.range 109).map fun i => shortCandidate name (i + 1)).Nodup := by
      refine List.Nodup.map_on (fun i hi j hj heq => ?_) List.nodup_range
      have := shortCandidate_inj (by have := List.mem_range.mp hi; omega)
        (by have := List.mem_range.mp hj; omega) heq
      omega
    have hsub : ((List.range 109).map fun i => shortCandidate name (i + 1)) ⊆
        ((scanPlaces fs l).filter fun p => slotKind (slotAt d p) = .entry).map
          fun p => slotName (slotAt d p) := by
      intro name11 hmem
      obtain ⟨i, hi, rfl⟩ := List.mem_map.mp hmem
      have htaken : Taken d (scanPlaces fs l) (shortCandidate name (i + 1)) := by
        by_contra hfree
        exact hnone ⟨i + 1, by omega, by have := List.mem_range.mp hi; omega, hfree⟩
      obtain ⟨p, hp, hkind, hname⟩ := htaken
      exact List.mem_map.mpr ⟨p, List.mem_filter.mpr ⟨hp, by simpa using hkind⟩, hname⟩
    have hle := (List.subperm_of_subset hnodup hsub).length_le
    rw [List.length_map, List.length_map, List.length_range] at hle
    omega

/-! ## A directory with all 109 names -/

/-- The long name `a`. -/
def oneLetter : CStr := [97]

/-- A volume with one cluster of eight sectors. -/
def wideFs : Fat32Fs :=
  { fatStart := 1, dataStart := 2, sectorsPerFat := 1, totalClusters := 1, sectorsPerCluster := 8,
    rootCluster := 2 }

/-- Slot `k` of the directory has the short name of number `k + 1`, up to 109. -/
def crowdedSlot (k : Nat) : Slot :=
  if k < 109 then dentSlot (shortCandidate oneLetter (k + 1)) ATTR_ARCHIVE 0 0 else fun _ => 0

def crowdedDisk : Disk :=
  { sectorCount := 10, readFails := fun _ => false, writeFails := fun _ => false
    data := fun s => if s = 1 then wrLE (fun _ => 0) 8 4 FAT32_EOC
      else fun i => crowdedSlot (16 * (s - 2) + i / 32) (i % 32) }

theorem readable_crowdedDisk : Readable wideFs crowdedDisk 2 [2] := by
  refine ⟨⟨rfl, by decide, ?_⟩, by decide⟩
  show ¬ IsLink (rdLE (wrLE (fun _ => 0) 8 4 FAT32_EOC) 8 4 % FAT_SPAN)
  decide

theorem slotAt_crowdedDisk {k : Nat} (hk : k < 109) :
    slotAt crowdedDisk (2 + k / 16, k % 16) =
      dentSlot (shortCandidate oneLetter (k + 1)) ATTR_ARCHIVE 0 0 := by
  have hslot : crowdedSlot k = dentSlot (shortCandidate oneLetter (k + 1)) ATTR_ARCHIVE 0 0 :=
    if_pos hk
  rw [← hslot]
  funext i
  show (if i < 32 then crowdedDisk.data (2 + k / 16) (32 * (k % 16) + i) else 0) = crowdedSlot k i
  by_cases hi : i < 32
  · rw [if_pos hi]
    show (if 2 + k / 16 = 1 then wrLE (fun _ => 0) 8 4 FAT32_EOC
      else fun i => crowdedSlot (16 * (2 + k / 16 - 2) + i / 32) (i % 32)) (32 * (k % 16) + i) =
        crowdedSlot k i
    rw [if_neg (by omega), show 16 * (2 + k / 16 - 2) + (32 * (k % 16) + i) / 32 = k by omega,
      show (32 * (k % 16) + i) % 32 = i by omega]
  · rw [if_neg hi, hslot, isSlot_dentSlot _ _ _ _ i (by omega)]

/-- In a directory with 109 entries the name generated for `a` is the first of them. -/
theorem crowdedDisk_not_unique :
    makeShortName wideFs crowdedDisk 2 oneLetter = some (shortCandidate oneLetter 1) ∧
      ((scanPlaces wideFs [2]).filter fun p => slotKind (slotAt crowdedDisk p) = .entry).length <
        99999 ∧
      Live wideFs crowdedDisk [2] (shortCandidate oneLetter 1) := by
  have hplace : ∀ k < 109, ((2 + k / 16, k % 16) : Place) ∈ scanPlaces wideFs [2] := by
    intro k hk
    refine List.mem_flatMap.mpr ⟨2, by simp, List.mem_flatMap.mpr ⟨k / 16, ?_, ?_⟩⟩
    · exact List.mem_range.mpr (show k / 16 < 8 by omega)
    · have hsector : u32 (firstSector wideFs 2 + k / 16) = 2 + k / 16 :=
        u32_of_lt (show 2 + k / 16 < 2 ^ 32 by omega)
      rw [hsector]
      exact List.mem_map.mpr ⟨k % 16, List.mem_range.mpr (by omega), rfl⟩
  have hkind : ∀ k < 109, slotKind (slotAt crowdedDisk (2 + k / 16, k % 16)) = .entry := by
    intro k hk
    rw [slotAt_crowdedDisk hk]
    exact slotKind_newDent (shortCandidate_first _ _) _ (.inl rfl) 0
  have hname : ∀ k < 109, slotName (slotAt crowdedDisk (2 + k / 16, k % 16)) =
      shortCandidate oneLetter (k + 1) := by
    intro k hk
    rw [slotAt_crowdedDisk hk, slotName_dentSlot (shortCandidate_length _ _)]
  refine ⟨?_, ?_, ?_⟩
  · obtain ⟨name11, hmake, ⟨⟨i, hpos, hle, hfree⟩, -⟩ | ⟨-, hfirst⟩⟩ :=
      makeShortName_cases readable_crowdedDisk oneLetter
    · obtain ⟨k, rfl⟩ := Nat.exists_eq_add_of_le' hpos
      exact absurd ⟨_, hplace k (by omega), hkind k (by omega), hname k (by omega)⟩ hfree
    · rw [hmake, hfirst]
  · refine lt_of_le_of_lt (List.length_filter_le _ _) ?_
    simp [scanPlaces, wideFs]
  · obtain ⟨rest, hrest⟩ : ∃ rest, scanPlaces wideFs [2] = (2, 0) :: rest := ⟨_, rfl⟩
    unfold Live
    rw [hrest, visible_cons_entry (hkind 0 (by decide))]
    exact ⟨_, List.mem_cons_self, hname 0 (by decide)⟩

end Lumin.Fs.Fat32
