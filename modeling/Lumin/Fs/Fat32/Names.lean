import Lumin.Fs.Fat32.Table
import Lumin.Fs.Vfs

/-!
# Directory slots and names

A model of the slot formats of `kernel/fs/fat32.h` and of the name functions of
`kernel/fs/fat32.c`.  A slot is 32 bytes.  A C string is the list of its bytes
without the terminator.
-/

namespace Lumin.Fs.Fat32

open Lumin.Lib

/-- A directory slot: a `struct fat32_dent` or a `struct fat32_lfn_part`. -/
abbrev Slot := Mem

def VFS_NAME_MAX : Nat := 256
def FAT32_MAX_LFN_ENTRIES : Nat := 20
def ATTR_DIRECTORY : UInt8 := 0x10
def ATTR_ARCHIVE : UInt8 := 0x20
def ATTR_LFN : UInt8 := 0x0F

/-- The first byte of a deleted slot. -/
def DELETED : UInt8 := 0xE5

/-- What the scanners tell apart, in the order of their tests. -/
inductive SlotKind
  | last
  | deleted
  | lfn
  | volume
  | entry
  deriving DecidableEq, Repr

def slotKind (slot : Slot) : SlotKind :=
  if slot 0 = 0 then .last
  else if slot 0 = DELETED then .deleted
  else if slot 11 = ATTR_LFN then .lfn
  else if (slot 11).toNat / 8 % 2 = 1 then .volume
  else .entry

/-- The 11 bytes of `name`. -/
def slotName (slot : Slot) : List UInt8 := (List.range 11).map slot

/-- `(cluster_hi << 16) | cluster_lo`. -/
def slotCluster (slot : Slot) : Nat := rdLE slot 20 2 * 65536 + rdLE slot 26 2

def slotSize (slot : Slot) : Nat := rdLE slot 28 4

/-- `attr & ATTR_DIRECTORY`. -/
def slotIsDir (slot : Slot) : Bool := (slot 11).toNat / 16 % 2 = 1

/-! ## Short names -/

def fatChecksum (shortname : List UInt8) : UInt8 :=
  shortname.foldl (fun sum b => (sum >>> 1) + (sum <<< 7) + b) 0

/-- ASCII letters in lower case. -/
def lower (c : UInt8) : UInt8 := if 65 ≤ c ∧ c ≤ 90 then c + 0x20 else c

/-- One part of a short name, up to its padding. -/
def shortPart (bs : List UInt8) : List UInt8 :=
  (bs.takeWhile fun b => b ≠ 0 ∧ b ≠ 32).map lower

/-- `parse_short_name`.  The result has at most 12 bytes, so that it fits in both
buffers it is called with. -/
def parseShortName (name11 : List UInt8) : CStr :=
  let base := shortPart (name11.take 8)
  let ext := shortPart ((name11.drop 8).take 3)
  if ext = [] then base else base ++ 46 :: ext

/-- A character of a generated short name. -/
def shortChar (c : UInt8) : UInt8 :=
  let c := if 97 ≤ c ∧ c ≤ 122 then c - 0x20 else c
  if (65 ≤ c ∧ c ≤ 90) ∨ (48 ≤ c ∧ c ≤ 57) then c else 95

/-- The last dot. -/
def dotPos (name : CStr) : Option Nat :=
  (List.range name.length).reverse.find? fun i => name.getD i 0 = 46

/-- Cut or fill with spaces to `n` bytes. -/
def pad (n : Nat) (bs : List UInt8) : List UInt8 := bs.take n ++ List.replicate (n - bs.length) 32

/-- The last two bytes of the base part for `num`. -/
def shortDigits (num : Nat) : List UInt8 :=
  if num < 10 then [126, UInt8.ofNat (48 + num)]
  else if num < 100 then [UInt8.ofNat (48 + num / 10), UInt8.ofNat (48 + num % 10)]
  else [UInt8.ofNat (48 + num / 10 % 10), UInt8.ofNat (48 + num % 10)]

/-- The name that `make_short_name` tries for `num`. -/
def shortCandidate (longName : CStr) (num : Nat) : List UInt8 :=
  let base := longName.take ((dotPos longName).getD longName.length)
  let ext := ((dotPos longName).map fun dot => longName.drop (dot + 1)).getD []
  pad 6 ((base.take 6).map shortChar) ++ shortDigits num ++ pad 3 ((ext.take 3).map shortChar)

/-- `strcmp_ci(a, b) == 0`. -/
def strcmpCi : CStr → CStr → Bool
  | a :: as, b :: bs => if lower a ≠ lower b then false else strcmpCi as bs
  | [], [] => true
  | _, _ => false

/-! ## Long names -/

/-- Where character `j` of a long-name slot lies: `name1`, `name2` or `name3`. -/
def unitOffset (j : Nat) : Nat :=
  if j < 5 then 1 + 2 * j else if j < 11 then 14 + 2 * (j - 5) else 28 + 2 * (j - 11)

/-- The 13 characters of a long-name slot. -/
def lfnUnits (slot : Slot) : List Nat := (List.range 13).map fun j => rdLE slot (unitOffset j) 2

/-- `lfn_to_ascii`, with room for `room` characters before the terminator. -/
def lfnToAscii : List Nat → Nat → CStr
  | [], _ => []
  | _, 0 => []
  | c :: cs, room + 1 =>
    if c = 0xFFFF ∨ c = 0xFFFE then []
    else if 0x20 ≤ c ∧ c ≤ 0x7E then UInt8.ofNat c :: lfnToAscii cs room
    else if c = 0 then []
    else 63 :: lfnToAscii cs room

/-- The loop of `collect_lfn` over the slots `lfns`, with `out` collected so far. -/
def collectLoop : List Slot → CStr → CStr
  | [], out => out
  | lfn :: lfns, out =>
    collectLoop lfns (out ++ lfnToAscii (lfnUnits lfn) (VFS_NAME_MAX - out.length - 1))

def collectLfn (lfnBuf : Nat → Slot) (count : Nat) : CStr :=
  collectLoop ((List.range count).map lfnBuf) []

/-- The byte at place `i` of the characters `units`. -/
def unitByte (units : List Nat) (i : Nat) : UInt8 :=
  let j := if i < 11 then (i - 1) / 2 else if i < 26 then 5 + (i - 14) / 2 else 11 + (i - 28) / 2
  UInt8.ofNat (units.getD j 0 / 256 ^ ((i + if i < 11 then 1 else 0) % 2))

/-- A long-name slot. -/
def lfnSlot (seq : UInt8) (units : List Nat) (checksum : UInt8) : Slot := fun i =>
  if i = 0 then seq
  else if i = 11 then ATTR_LFN
  else if i = 12 ∨ i = 26 ∨ i = 27 then 0
  else if i = 13 then checksum
  else if i < 32 then unitByte units i
  else 0

/-- The characters of slot `i` of a name: a part of 13, filled with `0xFFFF`. -/
def lfnChunk (name : CStr) (i : Nat) : List Nat :=
  let part := ((name.drop (13 * i)).take 13).map UInt8.toNat
  part ++ List.replicate (13 - part.length) 0xFFFF

/-- `build_lfn_entries`, with the checksum that `do_write_at_position` fills in.
Slot `i` gets part `i` of the name and the number `entries_needed - i`. -/
def buildLfnEntries (name : CStr) (checksum : UInt8) : List Slot :=
  let needed := min ((name.length + 12) / 13) FAT32_MAX_LFN_ENTRIES
  (List.range needed).map fun i =>
    lfnSlot (UInt8.ofNat (needed - i + if i = 0 then 0x40 else 0)) (lfnChunk name i) checksum

/-- A `struct fat32_dent` with the fields that the code sets, the others 0. -/
def dentSlot (name11 : List UInt8) (attr : UInt8) (cluster size : Nat) : Slot := fun i =>
  if i < 11 then name11.getD i 0
  else if i = 11 then attr
  else if i = 20 ∨ i = 21 then UInt8.ofNat (cluster / 65536 / 256 ^ (i - 20))
  else if i = 26 ∨ i = 27 then UInt8.ofNat (cluster / 256 ^ (i - 26))
  else if 28 ≤ i ∧ i < 32 then UInt8.ofNat (size / 256 ^ (i - 28))
  else 0

/-! ## The scan state -/

/-- The long-name part of `struct fat_scan_state`. -/
structure LfnState where
  lfnBuf : Nat → Slot
  lfnCount : Nat
  lfnSeq : Nat
  lfnChecksum : UInt8

def resetLfn (st : LfnState) : LfnState :=
  { st with lfnCount := 0, lfnSeq := 0, lfnChecksum := 0 }

/-- The state at the start of a scan; the buffer is not set. -/
def LfnState.init : LfnState :=
  { lfnBuf := fun _ _ => 0, lfnCount := 0, lfnSeq := 0, lfnChecksum := 0 }

/-- `add_lfn_entry`. -/
def addLfnEntry (st : LfnState) (lfn : Slot) : LfnState :=
  let seq := (lfn 0).toNat % 32
  if seq = 0 ∨ seq > FAT32_MAX_LFN_ENTRIES then resetLfn st
  else
    let lfnBuf := fun i => if i = seq - 1 then lfn else st.lfnBuf i
    if (lfn 0).toNat / 64 % 2 = 1 then
      { lfnBuf, lfnCount := seq, lfnSeq := seq, lfnChecksum := lfn 13 }
    else if seq + 1 ≠ st.lfnSeq then resetLfn st
    else { st with lfnBuf, lfnSeq := seq }

/-- `use_lfn`: a complete long name with the checksum of the short one. -/
def useLfn (st : LfnState) (slot : Slot) : Bool :=
  st.lfnCount > 0 ∧ st.lfnSeq = 1 ∧ fatChecksum (slotName slot) = st.lfnChecksum

/-- The name that `scan_sector` reports for an entry. -/
def entryName (st : LfnState) (slot : Slot) : CStr :=
  if useLfn st slot then collectLfn st.lfnBuf st.lfnCount else parseShortName (slotName slot)

/-- The test of `fat32_lookup`: the long name, if there is one, or the short name. -/
def entryMatches (name : CStr) (st : LfnState) (slot : Slot) : Bool :=
  (useLfn st slot && strcmpCi name (collectLfn st.lfnBuf st.lfnCount)) ||
    strcmpCi name (parseShortName (slotName slot))

end Lumin.Fs.Fat32
