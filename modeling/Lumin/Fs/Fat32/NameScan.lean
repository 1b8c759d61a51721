import Lumin.Fs.Fat32.Create

/-!
# Decoding the slots of a long name

The slots of `build_lfn_entries`, followed by their short entry, as the scans of
`fat32_lookup` and `fat32_read_dir` meet them.  Both accept the long name, and the
name they collect is the original one exactly if it reads back.
-/

namespace Lumin.Fs.Fat32

open Lumin.Lib

variable {name name' name11 : List UInt8} {slots : List Slot} {dent : Slot}
  {st st' st'' : LfnState}
  {attr : UInt8} {cluster size : Nat}

/-- Both scans go on behind the slots `slots`, wherever these stand, and the long-name
state has become `st'`. -/
structure ScansTo (slots : List Slot) (st st' : LfnState) : Prop where
  lookup : ∀ (wanted : CStr) (placed : List (Place × Slot)), placed.map Prod.snd = slots →
    placed.foldlM (fun st x => lookupSlot wanted st x.1 x.2) st = .ok st'
  readDir : ∀ (index count : Nat) (placed : List (Place × Slot)), placed.map Prod.snd = slots →
    placed.foldlM (fun st x => readDirSlot index st x.1 x.2) (st, count) = .ok (st', count)

/-- From whatever state, the slots make both scans accept the long name `name` for the
entry `dent`. -/
def Decodes (slots : List Slot) (dent : Slot) (name : CStr) : Prop :=
  ∀ st, ∃ st', ScansTo slots st st' ∧ useLfn st' dent = true ∧
    collectLfn st'.lfnBuf st'.lfnCount = name

/-- Long-name slots are collected. -/
theorem scansTo_lfns (hkind : ∀ slot ∈ slots, slotKind slot = .lfn) (st : LfnState) :
    ScansTo slots st (slots.foldl addLfnEntry st) := by
  constructor
  · intro wanted placed hplaced
    induction placed generalizing slots st with
    | nil =>
      subst hplaced
      rfl
    | cons x placed ih =>
      subst hplaced
      have hx : slotKind x.2 = .lfn := hkind x.2 (by simp)
      rw [List.foldlM_cons, lookupSlot, hx]
      exact ih (fun slot hslot => hkind slot (List.mem_cons_of_mem _ hslot))
        (addLfnEntry st x.2) rfl
  · intro index count placed hplaced
    induction placed generalizing slots st with
    | nil =>
      subst hplaced
      rfl
    | cons x placed ih =>
      subst hplaced
      have hx : slotKind x.2 = .lfn := hkind x.2 (by simp)
      rw [List.foldlM_cons, readDirSlot, hx]
      exact ih (fun slot hslot => hkind slot (List.mem_cons_of_mem _ hslot))
        (addLfnEntry st x.2) rfl

theorem ScansTo.unique (h : ScansTo slots st st') (h' : ScansTo slots st st'') : st' = st'' := by
  have hplaced : (slots.map fun slot => (((0, 0) : Place), slot)).map Prod.snd = slots := by
    rw [List.map_map]
    exact List.map_id slots
  have heq := (h.lookup [] _ hplaced).symm.trans (h'.lookup [] _ hplaced)
  exact Except.ok.inj heq

theorem Decodes.unique (h : Decodes slots dent name) (h' : Decodes slots dent name') :
    name = name' := by
  obtain ⟨st', hscan, -, hname⟩ := h .init
  obtain ⟨st'', hscan', -, hname'⟩ := h' .init
  rw [← hname, ← hname', hscan.unique hscan']

/-- What the slots of a name decode to. -/
theorem decodes_readBack (hprint : Printable name) (hne : name ≠ []) (hlen : name.length ≤ 255)
    (hname11 : name11.length = 11) :
    Decodes (buildLfnEntries name (fatChecksum name11)) (dentSlot name11 attr cluster size)
      (readBack name) := by
  intro st
  have hpos : 0 < name.length := List.length_pos_iff.mpr hne
  have hneeded : 0 < lfnNeeded name := by
    unfold lfnNeeded FAT32_MAX_LFN_ENTRIES
    omega
  obtain ⟨hcount, hseq, hsum, hcollect⟩ :=
    collectLfn_slots (fatChecksum name11) st hneeded
  rw [collectedName_eq hprint hlen] at hcollect
  refine ⟨_, scansTo_lfns (fun slot hslot => ?_) st, ?_, hcollect⟩
  · rw [buildLfnEntries_eq] at hslot
    obtain ⟨i, hi, rfl⟩ := List.mem_map.mp hslot
    exact slotKind_nameSlot (List.mem_range.mp hi)
  · rw [useLfn_iff, hcount, hseq, hsum, slotName_dentSlot hname11]
    exact ⟨hneeded, rfl, rfl⟩

/-- **Long names decode to themselves** exactly if they read back. -/
theorem decodes_iff (hprint : Printable name) (hne : name ≠ []) (hlen : name.length ≤ 255)
    (hname11 : name11.length = 11) :
    Decodes (buildLfnEntries name (fatChecksum name11)) (dentSlot name11 attr cluster size) name ↔
      readBack name = name := by
  have hback : Decodes (buildLfnEntries name (fatChecksum name11))
      (dentSlot name11 attr cluster size) (readBack name) :=
        decodes_readBack hprint hne hlen hname11
  constructor
  · intro h
    exact hback.unique h
  · intro h
    rwa [h] at hback

theorem decodes_iff_readme :
    Decodes (buildLfnEntries readmeName (fatChecksum (shortCandidate readmeName 1)))
      (dentSlot (shortCandidate readmeName 1) ATTR_ARCHIVE 0 0) readmeName ↔
        readBack readmeName = readmeName := by
  exact decodes_iff (by decide +kernel) (by decide) (by decide) (shortCandidate_length _ _)

/-- `abcdefghijklmnop` comes back as `nopabcdefghijklm`. -/
theorem letters_not_decodes :
    Printable lettersName ∧ 1 ≤ lettersName.length ∧ lettersName.length ≤ 255 ∧
      ¬ Decodes (buildLfnEntries lettersName (fatChecksum (shortCandidate lettersName 1)))
        (dentSlot (shortCandidate lettersName 1) ATTR_ARCHIVE 0 0) lettersName := by
  refine ⟨by decide +kernel, by decide, by decide, fun h => ?_⟩
  have hprint : Printable lettersName := by decide +kernel
  have hback : Decodes (buildLfnEntries lettersName (fatChecksum (shortCandidate lettersName 1)))
      (dentSlot (shortCandidate lettersName 1) ATTR_ARCHIVE 0 0) (readBack lettersName) :=
    decodes_readBack hprint (by decide) (by decide) (shortCandidate_length _ _)
  have hne : readBack lettersName ≠ lettersName := by decide +kernel
  exact hne (hback.unique h)

end Lumin.Fs.Fat32
