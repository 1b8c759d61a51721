import Lumin.Fs.Fat32.DirWrite
import Lumin.Fs.Fat32.ShortNames

/-!
# Names that a new file captures

`fat32_lookup` takes an entry for its long name and for the printed form of its short
name.  The number of a short name is printed only behind a base of six characters, and
only a number below 10 is printed with a tilde: `index.html` is also found as
`index.htm`.
-/

namespace Lumin.Fs.Fat32

open Lumin.Lib Lumin.Block

variable {fs : Fat32Fs} {d d' : Disk} {dir n num : Nat} {l : List Nat} {p q t : Place}
  {ps post run : List Place} {slots : List Slot} {name wanted : CStr} {bs : List UInt8}
    {x : LongName}

/-! ## The printed form of a short name -/

/-- The part of a name before its last dot. -/
def baseOf (name : CStr) : CStr := name.take ((dotPos name).getD name.length)

/-- The part behind it. -/
def extOf (name : CStr) : CStr := ((dotPos name).map fun dot => name.drop (dot + 1)).getD []

/-- The short name of number `num` as it is printed: the padding of a shorter base cuts
the number off. -/
def shortForm (name : CStr) (num : Nat) : CStr :=
  let base := ((baseOf name).take 6).map shortChar ++ if (baseOf name).length < 6 then []
      else shortDigits num
  if extOf name = [] then base.map lower
  else base.map lower ++ 46 :: (((extOf name).take 3).map shortChar).map lower

theorem shortPart_append (rest : List UInt8) (h : ∀ b ∈ bs, b ≠ 0 ∧ b ≠ 32) :
    shortPart (bs ++ rest) = bs.map lower ++ shortPart rest := by
  unfold shortPart
  rw [List.takeWhile_append_of_pos fun b hb => decide_eq_true (h b hb), List.map_append]

/-- A padded part ends at its padding. -/
theorem shortPart_pad {n : Nat} (rest : List UInt8) (h : ∀ b ∈ bs, b ≠ 0 ∧ b ≠ 32)
    (hlen : bs.length ≤ n) :
    shortPart (pad n bs ++ rest) =
      bs.map lower ++ if bs.length < n then [] else shortPart rest := by
  unfold pad
  rw [List.take_of_length_le hlen, List.append_assoc, shortPart_append _ h]
  by_cases hlt : bs.length < n
  · obtain ⟨k, hk⟩ := Nat.exists_eq_add_of_lt hlt
    rw [if_pos hlt, show n - bs.length = k + 1 by omega, List.replicate_succ]
    rfl
  · rw [if_neg hlt, show n - bs.length = 0 by omega]
    rfl

theorem shortChar_shown (c : UInt8) : shortChar c ≠ 0 ∧ shortChar c ≠ 32 := by
  unfold shortChar
  simp only
  generalize (if 97 ≤ c ∧ c ≤ 122 then c - 32 else c) = x
  split_ifs with h
  · constructor
    · rintro rfl
      revert h
      decide
    · rintro rfl
      revert h
      decide
  · decide

theorem shortChars_shown (cs : CStr) : ∀ b ∈ cs.map shortChar, b ≠ 0 ∧ b ≠ 32 := by
  intro b hb
  obtain ⟨c, -, rfl⟩ := List.mem_map.mp hb
  exact shortChar_shown c

theorem shortDigits_shown (num : Nat) : ∀ b ∈ shortDigits num, b ≠ 0 ∧ b ≠ 32 := by
  have hdigit : ∀ n < 10, (UInt8.ofNat (48 + n)) ≠ 0 ∧ UInt8.ofNat (48 + n) ≠ 32 := by decide
  unfold shortDigits
  intro b hb
  split_ifs at hb with hone htwo
  · rcases List.mem_pair.mp hb with rfl | rfl
    · decide
    · exact hdigit num hone
  · rcases List.mem_pair.mp hb with rfl | rfl
    · exact hdigit _ (by omega)
    · exact hdigit _ (by omega)
  · rcases List.mem_pair.mp hb with rfl | rfl
    · exact hdigit _ (by omega)
    · exact hdigit _ (by omega)

/-- `parse_short_name` of a name that `make_short_name` tries. -/
theorem parseShortName_shortCandidate (name : CStr) (num : Nat) :
    parseShortName (shortCandidate name num) = shortForm name num := by
  have hdef : shortCandidate name num = pad 6 (((baseOf name).take 6).map shortChar) ++
      shortDigits num ++
      pad 3 (((extOf name).take 3).map shortChar) := rfl
  have hpad := pad_length 6 (((baseOf name).take 6).map shortChar)
  have hdigits := shortDigits_length num
  have hext := pad_length 3 (((extOf name).take 3).map shortChar)
  have htake : (shortCandidate name num).take 8 =
      pad 6 (((baseOf name).take 6).map shortChar) ++ shortDigits num := by
    rw [hdef, List.take_left' (by rw [List.length_append, hpad, hdigits])]
  have hdrop :
      ((shortCandidate name num).drop 8).take 3 =
        pad 3 (((extOf name).take 3).map shortChar) := by
    rw [hdef, List.drop_left' (by rw [List.length_append, hpad, hdigits]),
      List.take_of_length_le hext.le]
  have hshownBase : shortPart ((shortCandidate name num).take 8) =
      (((baseOf name).take 6).map shortChar ++
        if (baseOf name).length < 6 then [] else shortDigits num).map lower := by
    have hlen : (((baseOf name).take 6).map shortChar).length < 6 ↔ (baseOf name).length < 6 := by
      rw [List.length_map, List.length_take]
      omega
    have hnum : shortPart (shortDigits num) = (shortDigits num).map lower := by
      have := shortPart_append [] (shortDigits_shown num)
      rwa [List.append_nil, show shortPart [] = [] from rfl, List.append_nil] at this
    rw [htake, shortPart_pad _ (shortChars_shown _)
      (by rw [List.length_map, List.length_take]; omega),
      List.map_append]
    by_cases hlt : (baseOf name).length < 6
    · rw [if_pos hlt, if_pos (hlen.mpr hlt), List.map_nil]
    · rw [if_neg hlt, if_neg (mt hlen.mp hlt), hnum]
  have hshownExt : shortPart (((shortCandidate name num).drop 8).take 3) =
      (((extOf name).take 3).map shortChar).map lower := by
    have hpadded := shortPart_pad (n := 3) [] (shortChars_shown ((extOf name).take 3))
      (by rw [List.length_map, List.length_take]; omega)
    rw [List.append_nil, show shortPart [] = [] from rfl, ite_self, List.append_nil] at hpadded
    rw [hdrop, hpadded]
  unfold parseShortName shortForm
  simp only
  rw [hshownBase, hshownExt]
  by_cases hnil : extOf name = []
  · rw [if_pos hnil, if_pos (by rw [hnil]; rfl)]
  · rw [if_neg hnil, if_neg (by simpa using hnil)]

/-- The short name of number `num` is printed without a tilde. -/
def Unmarked (name : CStr) (num : Nat) : Prop := (baseOf name).length < 6 ∨ 10 ≤ num

instance (name : CStr) (num : Nat) : Decidable (Unmarked name num) :=
  inferInstanceAs (Decidable ((baseOf name).length < 6 ∨ 10 ≤ num))

theorem tilde_mem_shortForm (h : ¬ Unmarked name num) : 126 ∈ shortForm name num := by
  unfold Unmarked at h
  rw [not_or] at h
  have hdigits : shortDigits num = [126, UInt8.ofNat (48 + num)] := if_pos (not_le.mp h.2)
  have hmem : 126 ∈ (((baseOf name).take 6).map shortChar ++ shortDigits num).map lower := by
    rw [List.map_append, hdigits]
    exact List.mem_append_right _ (List.mem_cons_self)
  unfold shortForm
  simp only [if_neg h.1]
  split
  · exact hmem
  · exact List.mem_append_left _ hmem

theorem lower_eq_tilde {c : UInt8} (h : lower c = lower 126) : c = 126 := by
  have htilde : lower 126 = 126 := by decide
  rw [htilde] at h
  unfold lower at h
  split at h
  next hletter =>
    have hsum := congrArg UInt8.toNat h
    have hle := UInt8.le_iff_toNat_le.mp hletter.2
    rw [UInt8.toNat_add] at hsum
    have h32 : (0x20 : UInt8).toNat = 32 := rfl
    have h90 : (90 : UInt8).toNat = 90 := rfl
    have h126 : (126 : UInt8).toNat = 126 := rfl
    omega
  · exact h

theorem not_strcmpCi_of_tilde (h : 126 ∈ bs) (htilde : 126 ∉ wanted) :
    ¬ strcmpCi wanted bs = true := by
  intro heq
  rw [strcmpCi_iff] at heq
  have hmem : lower 126 ∈ wanted.map lower := heq ▸ List.mem_map_of_mem h
  obtain ⟨c, hc, hlower⟩ := List.mem_map.mp hmem
  exact htilde (lower_eq_tilde hlower ▸ hc)

/-- A file `name` with the short name of number `num` is found as `wanted`, which has no
tilde: the long name comes back as that, or the short name is printed so. -/
def Captures (name : CStr) (num : Nat) (wanted : CStr) : Prop :=
  strcmpCi wanted (collectedName name) = true ∨
    (Unmarked name num ∧ strcmpCi wanted (shortForm name num) = true)

theorem shows_iff_captures (htilde : 126 ∉ wanted) :
    Shows name (shortCandidate name num) wanted ↔ Captures name num wanted := by
  unfold Shows Captures
  rw [parseShortName_shortCandidate]
  refine or_congr_right ⟨fun h => ⟨?_, h⟩, fun h => h.2⟩
  by_contra hmarked
  exact not_strcmpCi_of_tilde (tilde_mem_shortForm hmarked) htilde h

/-! ## Slots that run out of the directory -/

/-- The computed places run out of the directory: those that are slots of it belong to
the run, the entry is not in the directory, and the last slot of the run stays free.
Without a run they fill the new cluster and meet no slot of the directory. -/
def Spills (fs : Fat32Fs) (d : Disk) (l : List Nat) (n : Nat) : Prop :=
  match firstRun d n [] (dirSlots fs l) with
  | some run => ∀ p ∈ run.head?, (∀ q ∈ runPlaces p n, q ∈ dirSlots fs l → q ∈ run) ∧
      (∀ q ∈ (runPlaces p n).getLast?, q ∉ dirSlots fs l) ∧ ∀ q ∈ run.getLast?, q ∉ runPlaces p n
  | none => 16 * fs.sectorsPerCluster < n ∧
      ∀ c, IsLeast {x | Free fs d x} c →
          ∀ q ∈ runPlaces (firstSector fs c, 0) n, q ∉ dirSlots fs l

/-- Slots without an entry show nothing, and a free one behind them leaves no long
name. -/
theorem visible_skip (hps : ∀ p ∈ ps, slotKind (slotAt d p) ≠ .entry) (hfree : IsFree d q) :
    visible d x (ps ++ q :: post) = [] ∨
      ∃ y : LongName, visible d x (ps ++ q :: post) = visible d y.reset post := by
  induction ps generalizing x with
  | nil =>
    rw [List.nil_append]
    rcases hfree with hzero | hdel
    · exact .inl (visible_cons_last (slotKind_eq_last_iff.mpr hzero))
    · have hkind := slotKind_of_deleted hdel
      refine .inr ⟨x, ?_⟩
      rw [visible_cons_skip (by simp [hkind]) (by simp [hkind]), LongName.step,
        if_neg (by simp [hkind])]
  | cons p ps ih =>
    rw [List.cons_append]
    by_cases hlast : slotKind (slotAt d p) = .last
    · exact .inl (visible_cons_last hlast)
    · rw [visible_cons_skip hlast (hps p (by simp))]
      exact ih fun q hq => hps q (by simp [hq])

theorem visible_of_no_entry (hps : ∀ p ∈ ps, slotKind (slotAt d p) ≠ .entry) :
    visible d x ps = [] := by
  induction ps generalizing x with
  | nil => rw [visible]
  | cons p ps ih =>
    by_cases hlast : slotKind (slotAt d p) = .last
    · exact visible_cons_last hlast
    · rw [visible_cons_skip hlast (hps p (by simp))]
      exact ih fun q hq => hps q (by simp [hq])

/-- All slots of a new name but the last are long-name slots. -/
theorem slotKind_of_ne_last {attr : UInt8} {cluster : Nat} {name11 : List UInt8}
    (hwritten : List.Forall₂ (fun p slot => slotAt d p = slot) ps
      (newSlots name name11 attr cluster))
    (hp : p ∈ ps) (hlast : p ∉ ps.getLast?) : slotKind (slotAt d p) = .lfn := by
  have hlen := hwritten.length_eq
  obtain ⟨j, hj, rfl⟩ := List.getElem_of_mem hp
  rw [List.forall₂_iff_get] at hwritten
  have hat := hwritten.2 j hj (hlen ▸ hj)
  simp only [List.get_eq_getElem] at hat
  rw [newSlots_length] at hlen
  have hne : j ≠ lfnNeeded name := by
    rintro rfl
    refine hlast ?_
    rw [List.getLast?_eq_getElem?, hlen, Nat.add_sub_cancel, List.getElem?_eq_getElem hj]
    rfl
  have hlt : j < lfnNeeded name := by omega
  rw [hat]
  unfold newSlots
  rw [List.getElem_append_left
    (by rw [buildLfnEntries_eq, List.length_map, List.length_range]; exact hlt)]
  simp only [buildLfnEntries_eq, List.getElem_map, List.getElem_range]
  exact slotKind_nameSlot hlt

/-- Slots without an entry behind a directory show nothing. -/
theorem visible_append_of_no_entry (hps : ∀ p ∈ post, slotKind (slotAt d p) ≠ .entry) :
    visible d x (ps ++ post) = visible d x ps := by
  by_cases hlast : ∃ p ∈ ps, slotKind (slotAt d p) = .last
  · exact visible_append_of_last post hlast
  · push Not at hlast
    rw [visible_append_of_ne_last _ hlast, visible_of_no_entry hps, List.append_nil]

/-- A run that leaves the directory: the lookup meets no new entry. -/
theorem create_run_spills (hs : Sane fs d) (hreserved : 0 < fs.fatStart)
    (hsectors : fs.dataStart + fs.totalClusters * fs.sectorsPerCluster < 2 ^ 32)
    (hchain : Chain fs d dir l)
    (hends : EndsProperly d (dirSlots fs l)) (hne : name ≠ []) (hwanted : wanted ≠ [])
    (hlook : fat32Lookup fs d dir wanted = some none)
    (hret : dirWriteEntries fs d dir (newSlots name (shortCandidate name num) ATTR_ARCHIVE 0) =
      some (some t, d'))
    (hrun : firstRun d (lfnNeeded name + 1) [] (dirSlots fs l) = some run)
    (hspills : Spills fs d l (lfnNeeded name + 1)) :
    fat32Lookup fs d' dir wanted = some none := by
  have hnodup := dirSlots_nodup hs hchain.inVolume hchain.linked.nodup
  obtain ⟨-, pre, post, hparts⟩ := runParts hends hnodup (Nat.succ_pos _) hrun
  have hslots := newSlots_length name (shortCandidate name num) ATTR_ARCHIVE 0
  obtain ⟨p, hhead, hwrite⟩ := dirWriteEntries_some hs hchain.toWalk (hslots.symm ▸ hrun)
  rw [hwrite, Option.some.injEq] at hret
  have hwritten :=
    written_of_writeRun hs.works newSlots_isSlot newSlots_ne_nil (newSlots_few _ _ _ _) hret
  unfold Spills at hspills
  rw [hrun] at hspills
  obtain ⟨hmeet, hdent, hlast⟩ := hspills p hhead
  rw [← hslots] at hmeet hdent hlast
  have hmem : ∀ q ∈ run, q ∈ dirSlots fs l := fun q hq => hparts.mem (.inr (.inl hq))
  have hpmem := hmem p (List.mem_of_mem_head? hhead)
  have hnone := not_matches_of_lookup hs hchain.toWalk hwanted hlook
  unfold dirEntries at hnone
  rw [hparts.split] at hends hnone
  have hsamePre : ∀ q ∈ pre, slotAt d' q = slotAt d q := fun q hq =>
    hwritten.others q fun hplace => (hparts.apart q (hmeet q hplace (hparts.mem (.inl hq)))).1 hq
  have hsamePost : ∀ q ∈ post, slotAt d' q = slotAt d q := fun q hq =>
    hwritten.others q fun hplace =>
      (hparts.apart q (hmeet q hplace (hparts.mem (.inr (.inr hq))))).2 hq
  have hne' := hparts.ne_nil
  have hfree := hparts.free
  -- The last slot of the run stays free, and none of the others holds an entry.
  obtain ⟨run', q, rfl⟩ : ∃ run' q, run = run' ++ [q] :=
    ⟨run.dropLast, run.getLast hne', (List.dropLast_append_getLast hne').symm⟩
  have hq : IsFree d' q := by
    unfold IsFree
    rw [hwritten.others q (hlast q (by simp))]
    exact hfree q (by simp)
  have hkinds : ∀ r ∈ run', slotKind (slotAt d' r) ≠ .entry := by
    intro r hr
    have hr' : r ∈ run' ++ [q] := List.mem_append_left _ hr
    by_cases hplace :
      r ∈ runPlaces p (newSlots name (shortCandidate name num) ATTR_ARCHIVE 0).length
    · rw [slotKind_of_ne_last hwritten.slots hplace fun hr'' => hdent r hr'' (hmem r hr')]
      simp
    · rw [hwritten.others r hplace]
      rcases hfree r hr' with hzero | hdel
      · rw [slotKind_eq_last_iff.mpr hzero]
        simp
      · rw [slotKind_of_deleted hdel]
        simp
  have hlt := sector_lt_of_mem hs hchain.inVolume hpmem
  have hwalk : Walk fs d' dir l := hchain.toWalk.congr fun v hv =>
    writeRun_nextCluster hs hreserved (dataStart_le_of_mem hs hchain.inVolume hpmem) (by omega)
      (nameSlots_newSlots hne num (show ATTR_ARCHIVE ≠ ATTR_LFN by decide) 0) hret
        (hchain.inVolume v hv).2
  rw [fat32Lookup_eq (hs.of_sameDevice hwritten.sameDevice) hwalk hwanted]
  unfold dirEntries
  rw [hparts.split, List.append_assoc, visible_append_of_ne_last _ fun r hr => by
    rw [hsamePre r hr, ne_eq, slotKind_eq_last_iff]
    exact hparts.before r hr, List.find?_append, List.find?_eq_none.mpr
      (not_matches_of_same hsamePre (not_matches_before hparts.before hnone)), Option.none_or]
  rw [List.append_assoc, List.singleton_append]
  have hrest : visible d' (stepAll d' .none pre) (run' ++ q :: post) = [] ∨
      ∃ y : LongName, visible d' (stepAll d' .none pre) (run' ++ q :: post) =
          visible d' y.reset post :=
    visible_skip hkinds hq
  rcases hrest with hnil | ⟨y, hvis⟩
  · rw [hnil]
    rfl
  · rw [hvis, List.find?_eq_none.mpr
      (post_not_matches hends hne' hfree hparts.before hsamePost hnone y)]
    rfl

/-- Slots that run out of a new cluster: it holds no entry. -/
theorem create_ext_spills (hs : Sane fs d) (hreserved : 0 < fs.fatStart)
    (hsectors : fs.dataStart + fs.totalClusters * fs.sectorsPerCluster < 2 ^ 32)
    (hchain : Chain fs d dir l)
    (hl : l ≠ []) (hne : name ≠ []) (hwanted : wanted ≠ [])
    (hlook : fat32Lookup fs d dir wanted = some none)
    (hret : dirWriteEntries fs d dir (newSlots name (shortCandidate name num) ATTR_ARCHIVE 0) =
      some (some t, d'))
    (hrun : firstRun d (lfnNeeded name + 1) [] (dirSlots fs l) = none)
    (hspills : Spills fs d l (lfnNeeded name + 1)) :
    fat32Lookup fs d' dir wanted = some none := by
  have hslots := newSlots_length name (shortCandidate name num) ATTR_ARCHIVE 0
  have hname := nameSlots_newSlots hne num (show ATTR_ARCHIVE ≠ ATTR_LFN by decide) 0
  unfold Spills at hspills
  rw [hrun] at hspills
  obtain ⟨hlong, hapart⟩ := hspills
  rw [dirWriteEntries_none hs hchain.toWalk (hslots.symm ▸ hrun)] at hret
  rcases dirWriteEntriesExt_spec hs hchain hl
      (newSlots name (shortCandidate name num) ATTR_ARCHIVE 0)
    with ⟨c, d₁, hleast, hgrown, -, hwrite⟩ | ⟨hfail, -⟩
  swap
  · rw [hfail] at hret
    cases hret
  rw [hwrite, Option.some.injEq] at hret
  have hc := hleast.1.1
  have hs₁ := hs.of_sameDevice hgrown.sameData.1
  obtain ⟨hdev, -, -⟩ := zeroCluster_spec hs₁ hc
  have hs₂ := hs₁.of_sameDevice hdev
  have hwritten :
      Written (zeroCluster fs d₁ c) d' (runPlaces (firstSector fs c, 0) (lfnNeeded name + 1))
      (newSlots name (shortCandidate name num) ATTR_ARCHIVE 0) := by
    rw [← hslots]
    exact written_of_writeRun hs₂.works newSlots_isSlot newSlots_ne_nil
      (newSlots_few _ _ _ _) hret
  have hwalk : Walk fs d' dir (l ++ [c]) := hgrown.chain.toWalk.congr fun v hv =>
    writeRun_ext_nextCluster hs hreserved hsectors hgrown hname hret
      (hgrown.chain.inVolume v hv).2
  have hsame : ∀ q ∈ dirSlots fs l, slotAt d' q = slotAt d q := fun q hq => by
    rw [hwritten.others q fun hplace => hapart c hleast q hplace hq]
    exact slotAt_zeroCluster hs hchain hgrown hq
  have hone : (dirSlots fs [c]).length = 16 * fs.sectorsPerCluster := by
    rw [dirSlots_length]
    simp
  have hle := lfnNeeded_le name
  have hkinds : ∀ q ∈ dirSlots fs [c], slotKind (slotAt d' q) ≠ .entry := by
    intro q hq
    obtain ⟨j, hj, rfl⟩ := List.getElem_of_mem hq
    have hplace : (dirSlots fs [c])[j] = runPlace 0 (firstSector fs c) j :=
      (runPlace_cluster hs hc j hj).symm
    rw [hplace, slotKind_of_ne_last hwritten.slots
      (List.mem_map_of_mem (List.mem_range.mpr (by omega)))]
    · simp
    · intro hlast
      rw [List.getLast?_eq_getElem?, runPlaces_length, Nat.add_sub_cancel] at hlast
      simp only [runPlaces, List.getElem?_map, List.getElem?_range (Nat.lt_succ_self _),
        Option.map_some,
        Option.mem_some_iff] at hlast
      have := runPlace_inj (by omega) (by omega) hlast
      omega
  rw [fat32Lookup_eq (hs₂.of_sameDevice hwritten.sameDevice) hwalk hwanted]
  unfold dirEntries
  rw [dirSlots_append, visible_append_of_no_entry hkinds, List.find?_eq_none.mpr
    (not_matches_of_same hsame (not_matches_of_lookup hs hchain.toWalk hwanted hlook))]
  rfl

/-! ## What is captured -/

/-- A new entry is not met: it goes to a new cluster behind the end of the directory. -/
def Hidden (fs : Fat32Fs) (d : Disk) (l : List Nat) (n : Nat) : Prop :=
  firstRun d n [] (dirSlots fs l) = none ∧ ∃ p ∈ dirSlots fs l, slotAt d p 0 = 0

/-- When `wanted` stays unknown: the slots for `name` run out of the directory, or they
stand in it and their entry is not met or is not found under that name. -/
def NotCaptured (fs : Fat32Fs) (d : Disk) (l : List Nat) (name wanted : CStr) : Prop :=
  wanted = [] ∨ Spills fs d l (lfnNeeded name + 1) ∨ (InPlace fs d l (lfnNeeded name + 1) ∧
    (Hidden fs d l (lfnNeeded name + 1) ∨
      ¬ Captures name (shortNumber d (dirSlots fs l) name) wanted))

/-- The number that a successful create has taken. -/
theorem create_number (hs : Sane fs d) (hchain : Chain fs d dir l)
    (hret : fat32CreateFile fs d dir name = some (some t, d')) :
    dirWriteEntries fs d dir
      (newSlots name (shortCandidate name (shortNumber d (dirSlots fs l) name))
      ATTR_ARCHIVE 0) = some (some t, d') := by
  obtain ⟨-, -, i, hmake, hwrite⟩ := create_inv hret
  rw [makeShortName_eq (hchain.toWalk.readable hs), scanPlaces_eq hs hchain.inVolume,
    Option.some.injEq] at hmake
  rwa [hmake]

theorem create_inPlace_iff (hs : Sane fs d) (hchain : Chain fs d dir l) (hl : l ≠ [])
    (hends : EndsProperly d (dirSlots fs l)) (hplace : InPlace fs d l (lfnNeeded name + 1))
    (hret : fat32CreateFile fs d dir name = some (some t, d')) (hwanted : wanted ≠ [])
    (htilde : 126 ∉ wanted)
    (hlook : fat32Lookup fs d dir wanted = some none) :
    fat32Lookup fs d' dir wanted = some none ↔
      Hidden fs d l (lfnNeeded name + 1) ∨
        ¬ Captures name (shortNumber d (dirSlots fs l) name) wanted := by
  have hne := (create_inv hret).1
  have hwrite := create_number hs hchain hret
  rw [← shows_iff_captures htilde]
  unfold InPlace at hplace
  unfold Hidden
  cases hrun : firstRun d (lfnNeeded name + 1) [] (dirSlots fs l) with
  | some run =>
    rw [hrun] at hplace
    rw [create_run hs hchain hends hne hwanted hlook hwrite hrun hplace]
    simp
  | none =>
    rw [hrun] at hplace
    rw [create_ext hs hchain hl hne hwanted hlook hwrite hrun hplace, Option.some.injEq,
      ite_eq_right_iff]
    simp only [reduceCtorEq, imp_false, true_and, not_and_or, not_forall, not_not, exists_prop]
    exact or_comm

/-- **Creating one name does not capture another** under `NotCaptured`, and only then,
unless the slots were written over other slots of the directory. -/
theorem create_notCaptured (hs : Sane fs d) (hreserved : 0 < fs.fatStart)
    (hsectors : fs.dataStart + fs.totalClusters * fs.sectorsPerCluster < 2 ^ 32)
    (hchain : Chain fs d dir l)
    (hl : l ≠ []) (hends : EndsProperly d (dirSlots fs l))
    (hret : fat32CreateFile fs d dir name = some (some t, d')) (htilde : 126 ∉ wanted)
    (hlook : fat32Lookup fs d dir wanted = some none) :
    (NotCaptured fs d l name wanted → fat32Lookup fs d' dir wanted = some none) ∧
      (InPlace fs d l (lfnNeeded name + 1) ∨ Spills fs d l (lfnNeeded name + 1) →
        fat32Lookup fs d' dir wanted = some none → NotCaptured fs d l name wanted) := by
  have hne := (create_inv hret).1
  have hwrite := create_number hs hchain hret
  constructor
  · rintro (rfl | hspills | ⟨hplace, hcond⟩)
    · exact if_pos rfl
    · by_cases hwanted : wanted = []
      · exact if_pos hwanted
      cases hrun : firstRun d (lfnNeeded name + 1) [] (dirSlots fs l) with
      | some run =>
        exact create_run_spills hs hreserved hsectors hchain hends hne hwanted hlook hwrite hrun
          hspills
      | none =>
        exact create_ext_spills hs hreserved hsectors hchain hl hne hwanted hlook hwrite hrun
          hspills
    · by_cases hwanted : wanted = []
      · exact if_pos hwanted
      · exact (create_inPlace_iff hs hchain hl hends hplace hret hwanted htilde hlook).mpr hcond
  · rintro (hplace | hspills) hafter
    · by_cases hwanted : wanted = []
      · exact .inl hwanted
      · have hcond :=
          (create_inPlace_iff hs hchain hl hends hplace hret hwanted htilde hlook).mp hafter
        exact .inr (.inr ⟨hplace, hcond⟩)
    · exact .inr (.inl hspills)

theorem create_notCaptured_readme :
    (NotCaptured smallFs emptyDir [2] readmeName oneLetter →
        fat32Lookup smallFs (afterCreate readmeName) 2 oneLetter = some none) ∧
      (InPlace smallFs emptyDir [2] (lfnNeeded readmeName + 1) ∨
          Spills smallFs emptyDir [2] (lfnNeeded readmeName + 1) →
        fat32Lookup smallFs (afterCreate readmeName) 2 oneLetter = some none →
          NotCaptured smallFs emptyDir [2] readmeName oneLetter) := by
  have hret : fat32CreateFile smallFs emptyDir 2 readmeName =
      some (some (2, 1), afterCreate readmeName) :=
    create_emptyDir (by decide +kernel)
  exact create_notCaptured (sane_smallDisk _) (by decide) (by decide) (chain_smallDisk _)
    (by simp)
    endsProperly_emptyDir hret (by decide) (by decide +kernel)

/-! ## A captured name -/

/-- `index.html`. -/
def indexHtml : CStr := [105, 110, 100, 101, 120, 46, 104, 116, 109, 108]

/-- `index.htm`. -/
def indexHtm : CStr := [105, 110, 100, 101, 120, 46, 104, 116, 109]

/-- After `index.html` has been created in an empty directory, `index.htm` is found. -/
theorem indexHtml_captures :
    Sane smallFs emptyDir ∧ Chain smallFs emptyDir 2 [2] ∧
      EndsProperly emptyDir (dirSlots smallFs [2]) ∧
      126 ∉ indexHtm ∧ strcmpCi indexHtm indexHtml = false ∧
      fat32Lookup smallFs emptyDir 2 indexHtm = some none ∧
      fat32CreateFile smallFs emptyDir 2 indexHtml = some (some (2, 1), afterCreate indexHtml) ∧
      fat32Lookup smallFs (afterCreate indexHtml) 2 indexHtm = some (some (newFile (2, 1))) := by
  refine ⟨sane_smallDisk _, chain_smallDisk _, endsProperly_emptyDir,
    by decide, by decide, by decide +kernel,
    create_emptyDir (by decide +kernel), by decide +kernel⟩

end Lumin.Fs.Fat32
