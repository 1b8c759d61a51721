import Lumin.Fs.Fat32.Names

/-!
# Directories

A model of the directory functions of `kernel/fs/fat32.c`.  The loops over the
clusters, sectors and slots of a directory that only read are one scan with a
visitor: `.error r` is a `return r` inside the loops and `.ok st` goes on.
`none` is a scan that is still going after `chainFuel` clusters, so that it goes
in a circle.  It never ends, but for `fat32_read_dir`, which counts the entries of
the circle again in every round and can reach a large index there.
-/

namespace Lumin.Fs.Fat32

open Lumin.Lib Lumin.Block

/-- Slot `ei` of a sector. -/
def slotIn (buf : Mem) (ei : Nat) : Slot := fun i => if i < 32 then buf (32 * ei + i) else 0

/-! ## Scans -/

section Scan

variable {σ ρ : Type}

/-- The slots of a sector.  `onFail` is what a failed read does. -/
def scanSector (d : Disk) (onFail : σ → Except ρ σ) (visit : σ → Nat × Nat → Slot → Except ρ σ)
    (st : σ) (sector : Nat) : Except ρ σ :=
  match blockRead d sector with
  | none => onFail st
  | some buf => (List.range 16).foldlM (fun st ei => visit st (sector, ei) (slotIn buf ei)) st

/-- The sectors of a cluster. -/
def scanCluster (fs : Fat32Fs) (d : Disk) (onFail : σ → Except ρ σ)
    (visit : σ → Nat × Nat → Slot → Except ρ σ) (st : σ) (cl : Nat) : Except ρ σ :=
  (List.range fs.sectorsPerCluster).foldlM
    (fun st s => scanSector d onFail visit st (u32 (firstSector fs cl + s))) st

/-- The clusters of a directory. -/
def scanLoop (fs : Fat32Fs) (d : Disk) (onFail : σ → Except ρ σ)
    (visit : σ → Nat × Nat → Slot → Except ρ σ) : Nat → σ → Nat → Option (Except ρ σ)
  | 0, _, _ => none
  | fuel + 1, st, cl =>
    if IsLink cl then
      match scanCluster fs d onFail visit st cl with
      | .error r => some (.error r)
      | .ok st => scanLoop fs d onFail visit fuel st (fatNextCluster fs d cl)
    else some (.ok st)

def scanDir (fs : Fat32Fs) (d : Disk) (onFail : σ → Except ρ σ)
    (visit : σ → Nat × Nat → Slot → Except ρ σ) (st : σ) (cluster : Nat) : Option (Except ρ σ) :=
  scanLoop fs d onFail visit chainFuel st cluster

/-- What a scan returns when the code after the loops is `return -1`. -/
def returned {α : Type} : Except (Option α) σ → Option α
  | .error r => r
  | .ok _ => none

end Scan

/-! ## Reading a directory -/

/-- A `struct vfs_dentry`. -/
structure Dentry where
  name : CStr
  ino : Nat
  isDir : Bool
  size : Nat
  deriving DecidableEq, Repr

/-- The result of an entry's slot. -/
def toDentry (st : LfnState) (slot : Slot) : Dentry :=
  { name := entryName st slot, ino := slotCluster slot, isDir := slotIsDir slot,
    size := slotSize slot }

/-- A slot in `scan_sector`; the number is `visible_count`. -/
def readDirSlot (index : Nat) (st : LfnState × Nat) (_pos : Nat × Nat) (slot : Slot) :
    Except (Option Dentry) (LfnState × Nat) :=
  match slotKind slot with
  | .last => .error none
  | .deleted => .ok (resetLfn st.1, st.2)
  | .lfn => .ok (addLfnEntry st.1 slot, st.2)
  | .volume => .ok (resetLfn st.1, st.2)
  | .entry =>
    if st.2 = index then .error (some (toDentry st.1 slot))
    else .ok (resetLfn st.1, st.2 + 1)

/-- `fat32_read_dir`: the entry, or `none` for -1. -/
def fat32ReadDir (fs : Fat32Fs) (d : Disk) (cluster index : Nat) : Option (Option Dentry) :=
  (scanDir fs d (fun _ => .error none) (readDirSlot index) (LfnState.init, 0) cluster).map
    returned

/-- What `fat32_lookup` reports. -/
structure Found where
  cluster : Nat
  size : Nat
  isDir : Bool
  sector : Nat
  offset : Nat
  deriving DecidableEq, Repr

def toFound (pos : Nat × Nat) (slot : Slot) : Found :=
  { cluster := slotCluster slot, size := slotSize slot, isDir := slotIsDir slot, sector := pos.1,
    offset := 32 * pos.2 }

/-- A slot in `fat32_lookup`. -/
def lookupSlot (name : CStr) (st : LfnState) (pos : Nat × Nat) (slot : Slot) :
    Except (Option Found) LfnState :=
  match slotKind slot with
  | .last => .error none
  | .deleted => .ok (resetLfn st)
  | .lfn => .ok (addLfnEntry st slot)
  | .volume => .ok (resetLfn st)
  | .entry =>
    if entryMatches name st slot then .error (some (toFound pos slot)) else .ok (resetLfn st)

/-- `fat32_lookup`: what is found, or `none` for -1. -/
def fat32Lookup (fs : Fat32Fs) (d : Disk) (cluster : Nat) (name : CStr) : Option (Option Found) :=
  if name = [] then some none
  else (scanDir fs d (fun _ => .error none) (lookupSlot name) LfnState.init cluster).map returned

/-! ## Short names -/

/-- A slot in `short_name_exists`. -/
def shortNameSlot (name11 : List UInt8) (st : Unit) (_pos : Nat × Nat) (slot : Slot) :
    Except Unit Unit :=
  if slotKind slot = .entry ∧ slotName slot = name11 then .error () else .ok st

/-- `short_name_exists`: a sector that cannot be read is left out. -/
def shortNameExists (fs : Fat32Fs) (d : Disk) (dirCluster : Nat) (name11 : List UInt8) :
    Option Bool :=
  match scanDir fs d .ok (shortNameSlot name11) () dirCluster with
  | none => none
  | some (.error _) => some true
  | some (.ok _) => some false

/-- The loop of `make_short_name`, with `n` numbers left from `num` on. -/
def makeShortLoop (fs : Fat32Fs) (d : Disk) (dirCluster : Nat) (longName : CStr) :
    Nat → Nat → Option (List UInt8)
  | 0, _ => some (shortCandidate longName 1)
  | n + 1, num =>
    match shortNameExists fs d dirCluster (shortCandidate longName num) with
    | none => none
    | some true => makeShortLoop fs d dirCluster longName n (num + 1)
    | some false => some (shortCandidate longName num)

def makeShortName (fs : Fat32Fs) (d : Disk) (dirCluster : Nat) (longName : CStr) :
    Option (List UInt8) :=
  makeShortLoop fs d dirCluster longName 99999 1

/-! ## Writing slots -/

/-- A sector with one slot replaced. -/
def putSlot (buf : Mem) (ei : Nat) (slot : Slot) : Mem := fun i =>
  if 32 * ei ≤ i ∧ i < 32 * ei + 32 then slot (i - 32 * ei) else buf i

/-- Read a sector, replace a slot and write it back, or do nothing. -/
def writeSlot (d : Disk) (sector ei : Nat) (slot : Slot) : Option Disk :=
  match blockRead d sector with
  | none => none
  | some buf => blockWrite d sector (putSlot buf ei slot)

/-- The place of slot `k` of a run in `do_write_at_position`: it counts sectors from
the one where the run starts. -/
def runPlace (runStart runBaseSector k : Nat) : Nat × Nat :=
  (u32 (runBaseSector + (runStart % 16 + k) / 16), (runStart + k) % 16)

/-- `do_write_at_position` from slot `k` of the run on: the device as far as it was
written, and the place of the last slot if all were. -/
def writeRun (runStart runBaseSector : Nat) : Nat → List Slot → Disk → Option (Nat × Nat) × Disk
  | _, [], d => (none, d)
  | k, slot :: slots, d =>
    let pos := runPlace runStart runBaseSector k
    match writeSlot d pos.1 pos.2 slot with
    | none => (none, d)
    | some d => if slots = [] then (some pos, d)
      else writeRun runStart runBaseSector (k + 1) slots d

/-- The state of the search in `dir_write_entries`. -/
structure RunSearch where
  slotsFound : Nat
  runStart : Nat
  runBaseSector : Nat
  absEntry : Nat
  deriving DecidableEq, Repr

/-- A slot in `dir_write_entries`: the run found, or a longer search. -/
def runSlot (total : Nat) (st : RunSearch) (pos : Nat × Nat) (slot : Slot) :
    Except (Option (Nat × Nat)) RunSearch :=
  if slot 0 = 0 ∨ slot 0 = DELETED then
    let st := if st.slotsFound = 0
        then { st with runStart := st.absEntry, runBaseSector := pos.1 }
      else st
    if st.slotsFound + 1 ≥ total then .error (some (st.runStart, st.runBaseSector))
    else .ok { st with slotsFound := st.slotsFound + 1, absEntry := st.absEntry + 1 }
  else .ok { st with slotsFound := 0, absEntry := st.absEntry + 1 }

/-- Fill a cluster with zeros; a failed write is ignored. -/
def zeroCluster (fs : Fat32Fs) (d : Disk) (cl : Nat) : Disk :=
  (List.range fs.sectorsPerCluster).foldl
    (fun d s => (blockWrite d (u32 (firstSector fs cl + s)) fun _ => 0).getD d) d

/-- `dir_write_entries_ext`: the slots go to a new cluster. -/
def dirWriteEntriesExt (fs : Fat32Fs) (d : Disk) (dirCluster : Nat) (slots : List Slot) :
    Option (Option (Nat × Nat) × Disk) :=
  let (newCl, d) := fatAllocCluster fs d
  if newCl ≥ FAT32_EOC then some (none, d)
  else
    match (if IsLink dirCluster then fatChainLast fs d dirCluster else some 0) with
    | none => none
    | some last =>
      let d := if IsLink last then (fatSetCluster fs d last newCl).getD d else d
      some (writeRun 0 (firstSector fs newCl) 0 slots (zeroCluster fs d newCl))

/-- `dir_write_entries` of the long-name slots and the entry. -/
def dirWriteEntries (fs : Fat32Fs) (d : Disk) (dirCluster : Nat) (slots : List Slot) :
    Option (Option (Nat × Nat) × Disk) :=
  match scanDir fs d (fun _ => .error none) (runSlot slots.length)
      { slotsFound := 0, runStart := 0, runBaseSector := 0, absEntry := 0 } dirCluster with
  | none => none
  | some (.error none) => some (none, d)
  | some (.error (some (runStart, runBaseSector))) =>
    some (writeRun runStart runBaseSector 0 slots d)
  | some (.ok _) => dirWriteEntriesExt fs d dirCluster slots

/-! ## Creating -/

/-- The long-name slots and the entry for a new name. -/
def newSlots (name : CStr) (name11 : List UInt8) (attr : UInt8) (cluster : Nat) : List Slot :=
  buildLfnEntries name (fatChecksum name11) ++ [dentSlot name11 attr cluster 0]

/-- `fat32_create_file`: the place of the new entry, or `none` for -1. -/
def fat32CreateFile (fs : Fat32Fs) (d : Disk) (dirCluster : Nat) (name : CStr) :
    Option (Option (Nat × Nat) × Disk) :=
  if name = [] then some (none, d)
  else
    match fat32Lookup fs d dirCluster name with
    | none => none
    | some (some _) => some (none, d)
    | some none =>
      match makeShortName fs d dirCluster name with
      | none => none
      | some name11 => dirWriteEntries fs d dirCluster (newSlots name name11 ATTR_ARCHIVE 0)

/-- The `.` or `..` entry of a new directory. -/
def dotSlot (dots : Nat) (cluster : Nat) : Slot :=
  dentSlot (pad 11 (List.replicate dots 46)) ATTR_DIRECTORY cluster 0

/-- `fat32_mkdir`: the new cluster and the place of its entry, or `none` for -1. -/
def fat32Mkdir (fs : Fat32Fs) (d : Disk) (dirCluster : Nat) (name : CStr) :
    Option (Option (Nat × Nat × Nat) × Disk) :=
  if name = [] then some (none, d)
  else
    match fat32Lookup fs d dirCluster name with
    | none => none
    | some (some _) => some (none, d)
    | some none =>
      let (cl, d) := fatAllocCluster fs d
      if cl ≥ FAT32_EOC then some (none, d)
      else
        let d := zeroCluster fs d cl
        let d := (writeSlot d (firstSector fs cl) 0 (dotSlot 1 cl)).getD d
        let d := (writeSlot d (firstSector fs cl) 1 (dotSlot 2 dirCluster)).getD d
        match makeShortName fs d dirCluster name with
        | none => none
        | some name11 =>
          match dirWriteEntries fs d dirCluster (newSlots name name11 ATTR_DIRECTORY cl) with
          | none => none
          | some (some pos, d) => some (some (cl, pos), d)
          | some (none, d) => (fatFreeChain fs d cl).map fun d => (none, d)

/-! ## Unlinking -/

/-- The loop of `fat32_unlink_file` that counts the entries of a directory.  A
directory on a chain that ends has fewer than `2 ^ 39` entries. -/
def countEntries (fs : Fat32Fs) (d : Disk) (cluster : Nat) : Nat → Nat → Nat → Option Nat
  | 0, _, _ => none
  | fuel + 1, i, count =>
    match fat32ReadDir fs d cluster i with
    | none => none
    | some none => some count
    | some (some de) =>
      countEntries fs d cluster fuel (i + 1)
        (if de.name = [46] ∨ de.name = [46, 46] then count else count + 1)

/-- The slots of one sector in the deletion loop: `.error d` is `return 0`, and `.ok d`
goes on with the next sector.  The buffer is the sector as the loop has changed
it. -/
def wipeSlots (target : Found) (sector : Nat) : List Nat → Disk → Mem → Except Disk Disk
  | [], d, _ => .ok d
  | ei :: eis, d, buf =>
    if sector = target.sector ∧ 32 * ei = target.offset then
      .error ((blockWrite d sector (setByte buf (32 * ei) DELETED)).getD d)
    else if sector < target.sector ∨ (sector = target.sector ∧ 32 * ei < target.offset) then
      if buf (32 * ei) = 0 then .ok d
      else if buf (32 * ei) = DELETED then wipeSlots target sector eis d buf
      else if buf (32 * ei + 11) = ATTR_LFN then
        let buf := setByte buf (32 * ei) DELETED
        wipeSlots target sector eis ((blockWrite d sector buf).getD d) buf
      else wipeSlots target sector eis d buf
    else wipeSlots target sector eis d buf

/-- A sector in the deletion loop; one that cannot be read is left out. -/
def wipeSector (target : Found) (d : Disk) (sector : Nat) : Except Disk Disk :=
  match blockRead d sector with
  | none => .ok d
  | some buf => wipeSlots target sector (List.range 16) d buf

/-- The deletion loop over the clusters of the directory. -/
def wipeLoop (fs : Fat32Fs) (target : Found) : Nat → Disk → Nat → Option (Except Disk Disk)
  | 0, _, _ => none
  | fuel + 1, d, cl =>
    if IsLink cl then
      match (List.range fs.sectorsPerCluster).foldlM
          (fun d s => wipeSector target d (u32 (firstSector fs cl + s))) d with
      | .error d => some (.error d)
      | .ok d => wipeLoop fs target fuel d (fatNextCluster fs d cl)
    else some (.ok d)

/-- The part of `fat32_unlink_file` after its tests: whether it returns 0. -/
def removeEntry (fs : Fat32Fs) (d : Disk) (dirCluster : Nat) (target : Found) :
    Option (Bool × Disk) :=
  match (if IsLink target.cluster then fatFreeChain fs d target.cluster else some d) with
  | none => none
  | some d =>
    match wipeLoop fs target chainFuel d dirCluster with
    | none => none
    | some (.error d) => some (true, d)
    | some (.ok d) => some (false, d)

/-- `fat32_unlink_file`: whether it returns 0, and the device. -/
def fat32UnlinkFile (fs : Fat32Fs) (d : Disk) (dirCluster : Nat) (name : CStr) :
    Option (Bool × Disk) :=
  if name = [] then some (false, d)
  else
    match fat32Lookup fs d dirCluster name with
    | none => none
    | some none => some (false, d)
    | some (some target) =>
      if target.isDir then
        match countEntries fs d target.cluster (2 ^ 39 + 1) 0 0 with
        | none => none
        | some count => if count > 0 then some (false, d) else removeEntry fs d dirCluster target
      else removeEntry fs d dirCluster target

end Lumin.Fs.Fat32
