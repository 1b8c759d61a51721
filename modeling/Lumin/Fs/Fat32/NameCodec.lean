import Lumin.Fs.Fat32.Names

/-!
# Writing and reading long names

What the scanners read back from the slots of `build_lfn_entries`.  The slot
written first gets the first part of the name and the highest number, but the
reader puts the parts together by number, so that the parts of a name come back
in reverse order.
-/

namespace Lumin.Fs.Fat32

open Lumin.Lib

/-- Printable ASCII. -/
def Printable (name : CStr) : Prop := ∀ c ∈ name, 0x20 ≤ c.toNat ∧ c.toNat ≤ 0x7E

instance : DecidablePred Printable := fun name =>
  inferInstanceAs (Decidable (∀ c ∈ name, 0x20 ≤ c.toNat ∧ c.toNat ≤ 0x7E))

/-- Part `i` of a name. -/
def namePart (name : CStr) (i : Nat) : CStr := (name.drop (13 * i)).take 13

/-- The number of long-name slots. -/
def lfnNeeded (name : CStr) : Nat := min ((name.length + 12) / 13) FAT32_MAX_LFN_ENTRIES

/-- The name that comes back: the parts in reverse order. -/
def readBack (name : CStr) : CStr :=
  (List.range (lfnNeeded name)).reverse.flatMap (namePart name)

variable {name : CStr} {units : List Nat} {seq checksum : UInt8} {i j n room : Nat}
  {st : LfnState}

/-! ## One slot -/

theorem unit_lfnSlot (hj : j < 13) (hunits : ∀ u ∈ units, u < 65536) :
    rdLE (lfnSlot seq units checksum) (unitOffset j) 2 = units.getD j 0 := by
  have hlt : units[j]?.getD 0 < 65536 := by
    cases h : units[j]? with
    | none => decide
    | some u => exact hunits u (List.mem_of_getElem? h)
  interval_cases j <;> simp [unitOffset, rdLE, lfnSlot, unitByte] <;> omega

theorem lfnUnits_lfnSlot (hlen : units.length = 13) (hunits : ∀ u ∈ units, u < 65536) :
    lfnUnits (lfnSlot seq units checksum) = units := by
  refine List.ext_getElem (by simp [lfnUnits, hlen]) fun j hj hj' => ?_
  have hlt : j < 13 := by omega
  simp only [lfnUnits, List.getElem_map, List.getElem_range, unit_lfnSlot hlt hunits]
  rw [List.getD_eq_getElem?_getD, List.getElem?_eq_getElem hj', Option.getD_some]

theorem lfnChunk_length (name : CStr) (i : Nat) : (lfnChunk name i).length = 13 := by
  have : (namePart name i).length ≤ 13 := by
    unfold namePart
    rw [List.length_take]
    omega
  unfold lfnChunk
  simp only [List.length_append, List.length_map, List.length_replicate]
  unfold namePart at this
  omega

theorem lfnChunk_lt (name : CStr) (i : Nat) : ∀ u ∈ lfnChunk name i, u < 65536 := by
  intro u hu
  unfold lfnChunk at hu
  rcases List.mem_append.mp hu with hu | hu
  · obtain ⟨c, -, rfl⟩ := List.mem_map.mp hu
    have := c.toNat_lt
    omega
  · rw [List.eq_of_mem_replicate hu]
    decide

/-- The filling ends the characters of a part. -/
theorem lfnToAscii_fill (part : CStr) (k : Nat) (hprint : Printable part)
    (hroom : part.length ≤ room) :
    lfnToAscii (part.map UInt8.toNat ++ List.replicate k 0xFFFF) room = part := by
  induction part generalizing room with
  | nil =>
    cases k with
    | zero => simp [lfnToAscii]
    | succ k =>
      rw [List.map_nil, List.nil_append, List.replicate_succ]
      cases room with
      | zero => simp [lfnToAscii]
      | succ room => simp [lfnToAscii]
  | cons c part ih =>
    cases room with
    | zero => simp at hroom
    | succ room =>
      have hc := hprint c (by simp)
      rw [List.map_cons, List.cons_append, lfnToAscii, if_neg (by omega), if_pos hc,
        ih (fun x hx => hprint x (by simp [hx])) (by simpa using hroom), UInt8.ofNat_toNat]

theorem namePart_printable (h : Printable name) (i : Nat) : Printable (namePart name i) :=
  fun c hc => h c (List.mem_of_mem_drop (List.mem_of_mem_take hc))

/-- The characters that are read from slot `i` of a name. -/
theorem lfnToAscii_slot (h : Printable name) (hroom : (namePart name i).length ≤ room) :
    lfnToAscii (lfnUnits (lfnSlot seq (lfnChunk name i) checksum)) room = namePart name i := by
  rw [lfnUnits_lfnSlot (lfnChunk_length name i) (lfnChunk_lt name i)]
  unfold lfnChunk
  exact lfnToAscii_fill (namePart name i) _ (namePart_printable h i) hroom

/-! ## All slots -/

/-- The number byte of slot `i`. -/
def lfnSeq (name : CStr) (i : Nat) : UInt8 :=
  UInt8.ofNat (lfnNeeded name - i + if i = 0 then 0x40 else 0)

/-- Slot `i` of a name. -/
def nameSlot (name : CStr) (checksum : UInt8) (i : Nat) : Slot :=
  lfnSlot (lfnSeq name i) (lfnChunk name i) checksum

theorem buildLfnEntries_eq (name : CStr) (checksum : UInt8) :
    buildLfnEntries name checksum = (List.range (lfnNeeded name)).map (nameSlot name checksum) :=
      rfl

theorem lfnNeeded_le (name : CStr) : lfnNeeded name ≤ 20 := Nat.min_le_right _ _

theorem lfnSeq_toNat (hi : i < lfnNeeded name) :
    (lfnSeq name i).toNat % 32 = lfnNeeded name - i ∧ (lfnSeq name i).toNat ≠ 0 ∧
      (lfnSeq name i).toNat < 128 ∧ ((lfnSeq name i).toNat / 64 % 2 = 1 ↔ i = 0) := by
  have hle := lfnNeeded_le name
  unfold lfnSeq
  rw [UInt8.toNat_ofNat']
  split <;> omega

theorem slotKind_nameSlot (hi : i < lfnNeeded name) :
    slotKind (nameSlot name checksum i) = .lfn := by
  obtain ⟨-, hne, hlt, -⟩ := lfnSeq_toNat hi
  have hzero : nameSlot name checksum i 0 = lfnSeq name i := rfl
  have hattr : nameSlot name checksum i 11 = ATTR_LFN := rfl
  rw [slotKind, hzero, hattr, if_neg, if_neg, if_pos rfl]
  · intro h
    rw [h] at hlt
    exact absurd hlt (by decide)
  · intro h
    rw [h] at hne
    exact hne rfl

/-- The state after the first `i + 1` slots: slot `j` stands in the buffer at its
number. -/
theorem foldl_add_nameSlot (checksum : UInt8) (st : LfnState) (hi : i < lfnNeeded name) :
    let st' := ((List.range (i + 1)).map (nameSlot name checksum)).foldl addLfnEntry st
    st'.lfnCount = lfnNeeded name ∧ st'.lfnSeq = lfnNeeded name - i ∧ st'.lfnChecksum = checksum ∧
      ∀ j ≤ i, st'.lfnBuf (lfnNeeded name - 1 - j) = nameSlot name checksum j := by
  have hle := lfnNeeded_le name
  induction i with
  | zero =>
    obtain ⟨hseq, -, -, hlast⟩ := lfnSeq_toNat hi
    have hzero : nameSlot name checksum 0 0 = lfnSeq name 0 := rfl
    simp only [Nat.zero_add, List.range_one, List.map_cons, List.map_nil, List.foldl_cons,
      List.foldl_nil,
      addLfnEntry, hzero, hseq]
    rw [if_neg (by unfold FAT32_MAX_LFN_ENTRIES; omega), if_pos (hlast.mpr rfl)]
    refine ⟨Nat.sub_zero _, rfl, rfl, fun j hj => ?_⟩
    obtain rfl : j = 0 := by omega
    exact if_pos (by omega)
  | succ i ih =>
    obtain ⟨hcount, hold, hsum, hbuf⟩ := ih (by omega)
    obtain ⟨hseq, -, -, hlast⟩ := lfnSeq_toNat hi
    rw [List.range_succ, List.map_append, List.foldl_append]
    generalize ((List.range (i + 1)).map (nameSlot name checksum)).foldl addLfnEntry st = st₁
      at hcount hold hsum hbuf
    have hzero : nameSlot name checksum (i + 1) 0 = lfnSeq name (i + 1) := rfl
    simp only [List.map_cons, List.map_nil, List.foldl_cons, List.foldl_nil, addLfnEntry, hzero,
      hseq]
    rw [if_neg (by unfold FAT32_MAX_LFN_ENTRIES; omega),
      if_neg fun h => by simpa using hlast.mp h,
      if_neg (by omega)]
    refine ⟨hcount, rfl, hsum, fun j hj => ?_⟩
    by_cases hj' : j = i + 1
    · rw [hj']
      exact if_pos (by omega)
    · simp only
      rw [if_neg (by omega), hbuf j (by omega)]

theorem collectLoop_nameSlot (h : Printable name) (idx : List Nat) (out : CStr)
    (hlen : out.length + (idx.flatMap (namePart name)).length < VFS_NAME_MAX) :
    collectLoop (idx.map (nameSlot name checksum)) out = out ++ idx.flatMap (namePart name) := by
  induction idx generalizing out with
  | nil => simp [collectLoop]
  | cons i idx ih =>
    rw [List.flatMap_cons, List.length_append] at hlen
    have hpart :
        lfnToAscii (lfnUnits (nameSlot name checksum i)) (VFS_NAME_MAX - out.length - 1) =
        namePart name i := lfnToAscii_slot h (by omega)
    rw [List.map_cons, collectLoop, hpart, ih _ (by rw [List.length_append]; omega),
      List.flatMap_cons,
      List.append_assoc]

theorem flatMap_namePart (name : CStr) (n : Nat) :
    (List.range n).flatMap (namePart name) = name.take (13 * n) := by
  induction n with
  | zero => simp
  | succ n ih =>
    rw [List.range_succ, List.flatMap_append, ih, List.flatMap_singleton, Nat.mul_succ,
      List.take_add]
    rfl

theorem readBack_length (name : CStr) :
    (readBack name).length = min (13 * lfnNeeded name) name.length := by
  unfold readBack
  rw [List.length_flatMap, List.map_reverse, List.sum_reverse, ← List.length_flatMap,
    flatMap_namePart,
    List.length_take]

/-- The name that is collected from all slots of a name. -/
def collectedName (name : CStr) : CStr :=
  collectLoop ((List.range (lfnNeeded name)).reverse.map (nameSlot name 0)) []

/-- The checksum is no part of the name. -/
theorem collectLoop_checksum (name : CStr) (checksum : UInt8) (idx : List Nat) (out : CStr) :
    collectLoop (idx.map (nameSlot name checksum)) out =
      collectLoop (idx.map (nameSlot name 0)) out := by
  have hunits : ∀ checksum i, lfnUnits (nameSlot name checksum i) = lfnChunk name i := fun _ i =>
    lfnUnits_lfnSlot (lfnChunk_length name i) (lfnChunk_lt name i)
  induction idx generalizing out with
  | nil => rfl
  | cons i idx ih =>
    rw [List.map_cons, List.map_cons, collectLoop, collectLoop, hunits, hunits]
    exact ih _

/-- The state behind all slots of a name. -/
theorem collectLfn_slots (checksum : UInt8) (st : LfnState) (hpos : 0 < lfnNeeded name) :
    let st' := (buildLfnEntries name checksum).foldl addLfnEntry st
    st'.lfnCount = lfnNeeded name ∧ st'.lfnSeq = 1 ∧ st'.lfnChecksum = checksum ∧
      collectLfn st'.lfnBuf st'.lfnCount = collectedName name := by
  have hfold := foldl_add_nameSlot checksum st
    (show lfnNeeded name - 1 < lfnNeeded name by omega)
  rw [show lfnNeeded name - 1 + 1 = lfnNeeded name by omega] at hfold
  rw [buildLfnEntries_eq]
  obtain ⟨hcount, hseq, hsum, hbuf⟩ := hfold
  refine ⟨hcount, by omega, hsum, ?_⟩
  rw [hcount]
  have hslots : (List.range (lfnNeeded name)).map
      (((List.range (lfnNeeded name)).map (nameSlot name checksum)).foldl addLfnEntry st).lfnBuf =
      (List.range (lfnNeeded name)).reverse.map (nameSlot name checksum) := by
    refine List.ext_getElem (by simp) fun i hi _ => ?_
    rw [List.length_map, List.length_range] at hi
    have := hbuf (lfnNeeded name - 1 - i) (by omega)
    rw [show lfnNeeded name - 1 - (lfnNeeded name - 1 - i) = i by omega] at this
    simp [this]
  unfold collectLfn
  rw [hslots, collectLoop_checksum]
  rfl

/-- A printable name that fits comes back with its parts in reverse order. -/
theorem collectedName_eq (h : Printable name) (hlen : name.length ≤ 255) :
    collectedName name = readBack name := by
  have hback := readBack_length name
  unfold collectedName
  rw [collectLoop_nameSlot h _ _ (by
    rw [show (List.range (lfnNeeded name)).reverse.flatMap (namePart name) =
      readBack name from rfl, hback]
    simp only [List.length_nil, VFS_NAME_MAX]
    omega)]
  rfl

/-- A name of one part comes back as it was written. -/
theorem readBack_of_short (hne : name ≠ []) (hlen : name.length ≤ 13) : readBack name = name := by
  have hpos : 0 < name.length := List.length_pos_iff.mpr hne
  have hone : lfnNeeded name = 1 := by
    unfold lfnNeeded FAT32_MAX_LFN_ENTRIES
    omega
  unfold readBack namePart
  rw [hone]
  simp [List.take_of_length_le hlen]

/-! ## The entry -/

variable {name11 : List UInt8} {attr : UInt8} {cluster size : Nat}

theorem strcmpCi_iff (a b : CStr) : strcmpCi a b = true ↔ a.map lower = b.map lower := by
  induction a generalizing b with
  | nil => cases b <;> simp [strcmpCi]
  | cons x a ih =>
    cases b with
    | nil => simp [strcmpCi]
    | cons y b =>
      rw [strcmpCi, List.map_cons, List.map_cons, List.cons_eq_cons]
      by_cases h : lower x = lower y
      · rw [if_neg (not_not.mpr h), ih]
        exact ⟨fun h' => ⟨h, h'⟩, fun h' => h'.2⟩
      · rw [if_pos h]
        exact ⟨fun h' => absurd h' (by decide), fun h' => absurd h'.1 h⟩

theorem slotName_dentSlot (hlen : name11.length = 11) :
    slotName (dentSlot name11 attr cluster size) = name11 := by
  refine List.ext_getElem (by simp [slotName, hlen]) fun i hi hi' => ?_
  have hlt : i < 11 := by omega
  simp only [slotName, List.getElem_map, List.getElem_range, dentSlot, if_pos hlt]
  rw [List.getD_eq_getElem?_getD, List.getElem?_eq_getElem hi', Option.getD_some]

theorem slotCluster_dentSlot (hcluster : cluster < 2 ^ 32) :
    slotCluster (dentSlot name11 attr cluster size) = cluster := by
  simp [slotCluster, rdLE, dentSlot]
  omega

theorem slotSize_dentSlot (hsize : size < 2 ^ 32) :
    slotSize (dentSlot name11 attr cluster size) = size := by
  simp [slotSize, rdLE, dentSlot]
  omega

theorem slotKind_dentSlot (hzero : name11.getD 0 0 ≠ 0) (hdel : name11.getD 0 0 ≠ DELETED)
    (hattr : attr ≠ ATTR_LFN) (hvol : attr.toNat / 8 % 2 ≠ 1) :
    slotKind (dentSlot name11 attr cluster size) = .entry := by
  have hfirst : dentSlot name11 attr cluster size 0 = name11.getD 0 0 := rfl
  have hat : dentSlot name11 attr cluster size 11 = attr := rfl
  rw [slotKind, hfirst, hat, if_neg hzero, if_neg hdel, if_neg hattr, if_neg hvol]

theorem shortPart_length_le (bs : List UInt8) : (shortPart bs).length ≤ bs.length := by
  unfold shortPart
  rw [List.length_map]
  exact (List.takeWhile_sublist _).length_le

theorem parseShortName_length_le (name11 : List UInt8) : (parseShortName name11).length ≤ 12 := by
  have hbase := shortPart_length_le (name11.take 8)
  have hext := shortPart_length_le ((name11.drop 8).take 3)
  rw [List.length_take] at hbase hext
  unfold parseShortName
  simp only
  split
  · omega
  · rw [List.length_append, List.length_cons]
    omega

theorem pad_length (n : Nat) (bs : List UInt8) : (pad n bs).length = n := by
  unfold pad
  rw [List.length_append, List.length_take, List.length_replicate]
  omega

theorem shortDigits_length (num : Nat) : (shortDigits num).length = 2 := by
  unfold shortDigits
  split_ifs <;> rfl

theorem shortCandidate_length (longName : CStr) (num : Nat) :
    (shortCandidate longName num).length = 11 := by
  unfold shortCandidate
  simp only [List.length_append, pad_length, shortDigits_length]

theorem shortChar_ne (c : UInt8) : shortChar c ≠ 0 ∧ shortChar c ≠ DELETED := by
  unfold shortChar DELETED
  simp only
  generalize (if 97 ≤ c ∧ c ≤ 122 then c - 32 else c) = x
  split_ifs with h
  · constructor
    · rintro rfl
      revert h
      decide
    · rintro rfl
      revert h
      decide
  · decide

/-- The first byte of a generated short name is a letter, a digit, `_` or a space. -/
theorem shortCandidate_first (longName : CStr) (num : Nat) :
    (shortCandidate longName num).getD 0 0 ≠ 0 ∧
      (shortCandidate longName num).getD 0 0 ≠ DELETED := by
  unfold shortCandidate
  simp only
  generalize (List.take ((dotPos longName).getD longName.length) longName).take 6 = base
  cases base with
  | nil =>
    show (32 : UInt8) ≠ 0 ∧ (32 : UInt8) ≠ DELETED
    decide
  | cons c base => exact shortChar_ne c

end Lumin.Fs.Fat32
