import Lumin.Block.Device
import Lumin.Lib.Linked
import Lumin.Lib.Word

/-!
# The file allocation table

A model of the cluster functions of `kernel/fs/fat32.c`.  The state is the
device; a function that writes returns the new device.  Sector numbers are
32-bit words as in the source.  A cluster loop that writes nothing and has not
ended after `2 ^ 28` links has met a cluster twice, so that it never ends; such
a call is `none`.
-/

namespace Lumin.Fs.Fat32

open Lumin.Lib Lumin.Block

def FAT32_EOC : Nat := 0x0FFFFFF8
def FAT32_FREE : Nat := 0

/-- `FAT_MASK + 1`: a table entry has 28 bits, and the other 4 are kept. -/
def FAT_SPAN : Nat := 2 ^ 28

/-- `struct fat32_fs` of a mounted volume.  `fat32_mount` accepts only 512 bytes
per sector. -/
structure Fat32Fs where
  fatStart : Nat
  dataStart : Nat
  sectorsPerFat : Nat
  totalClusters : Nat
  sectorsPerCluster : Nat
  rootCluster : Nat
  deriving DecidableEq, Repr

def Fat32Fs.clusterSize (fs : Fat32Fs) : Nat := 512 * fs.sectorsPerCluster

/-- The first sector of a cluster. -/
def firstSector (fs : Fat32Fs) (cluster : Nat) : Nat :=
  u32 (fs.dataStart + u32 ((cluster - 2) * fs.sectorsPerCluster))

/-- `cluster >= 2 && cluster < FAT32_EOC`. -/
def IsLink (cluster : Nat) : Prop := 2 ≤ cluster ∧ cluster < FAT32_EOC

instance : DecidablePred IsLink := fun c => inferInstanceAs (Decidable (2 ≤ c ∧ c < FAT32_EOC))

/-- The sector of a table entry. -/
def fatSector (fs : Fat32Fs) (cluster : Nat) : Nat := u32 (fs.fatStart + u32 (cluster * 4) / 512)

/-- The place of a table entry in its sector. -/
def fatByte (cluster : Nat) : Nat := u32 (cluster * 4) % 512

def fatNextCluster (fs : Fat32Fs) (d : Disk) (cluster : Nat) : Nat :=
  match blockRead d (fatSector fs cluster) with
  | none => FAT32_EOC
  | some buf => rdLE buf (fatByte cluster) 4 % FAT_SPAN

def fatSetCluster (fs : Fat32Fs) (d : Disk) (cluster value : Nat) : Option Disk :=
  match blockRead d (fatSector fs cluster) with
  | none => none
  | some buf =>
    let old := rdLE buf (fatByte cluster) 4
    blockWrite d (fatSector fs cluster)
      (wrLE buf (fatByte cluster) 4 (old / FAT_SPAN * FAT_SPAN + value % FAT_SPAN))

/-- What stops the inner loop of `fat_alloc_cluster`: a free entry, or the end of
the volume. -/
def stopsAlloc (fs : Fat32Fs) (buf : Mem) (s i : Nat) : Bool :=
  let cluster := u32 (u32 (s * 128) + i)
  2 ≤ cluster ∧
    (u32 (fs.totalClusters + 2) ≤ cluster ∨ rdLE buf (4 * i) 4 % FAT_SPAN = FAT32_FREE)

/-- The outer loop of `fat_alloc_cluster`, with `n` sectors left from `s` on.  The
free entry is overwritten as a whole. -/
def allocLoop (fs : Fat32Fs) (d : Disk) : Nat → Nat → Nat × Disk
  | 0, _ => (FAT32_EOC, d)
  | n + 1, s =>
    match blockRead d (u32 (fs.fatStart + s)) with
    | none => (FAT32_EOC, d)
    | some buf =>
      match (List.range 128).find? (stopsAlloc fs buf s) with
      | none => allocLoop fs d n (s + 1)
      | some i =>
        let cluster := u32 (u32 (s * 128) + i)
        if u32 (fs.totalClusters + 2) ≤ cluster then (FAT32_EOC, d)
        else
          match blockWrite d (u32 (fs.fatStart + s)) (wrLE buf (4 * i) 4 FAT32_EOC) with
          | none => (FAT32_EOC, d)
          | some d => (cluster, d)

def fatAllocCluster (fs : Fat32Fs) (d : Disk) : Nat × Disk := allocLoop fs d fs.sectorsPerFat 0

/-- The number of links after which a walk is known not to end. -/
abbrev chainFuel : Nat := 2 ^ 28 + 1

/-- `fat_free_chain`.  Each turn frees a cluster, and a failed write is ignored. -/
def freeLoop (fs : Fat32Fs) : Nat → Disk → Nat → Option Disk
  | 0, _, _ => none
  | fuel + 1, d, cluster =>
    if IsLink cluster then
      let next := fatNextCluster fs d cluster
      freeLoop fs fuel ((fatSetCluster fs d cluster FAT32_FREE).getD d) next
    else some d

def fatFreeChain (fs : Fat32Fs) (d : Disk) (cluster : Nat) : Option Disk :=
  freeLoop fs chainFuel d cluster

def lastLoop (fs : Fat32Fs) (d : Disk) : Nat → Nat → Option Nat
  | 0, _ => none
  | fuel + 1, cluster =>
    let next := fatNextCluster fs d cluster
    if IsLink next then lastLoop fs d fuel next else some cluster

def fatChainLast (fs : Fat32Fs) (d : Disk) (cluster : Nat) : Option Nat :=
  if IsLink cluster then lastLoop fs d chainFuel cluster else some 0

/-- `fat_extend_chain`: the new cluster, or a value from `FAT32_EOC` on. -/
def fatExtendChain (fs : Fat32Fs) (d : Disk) (cluster : Nat) : Option (Nat × Disk) :=
  match fatChainLast fs d cluster with
  | none => none
  | some last =>
    let (newCl, d) := fatAllocCluster fs d
    if newCl ≥ FAT32_EOC then some (FAT32_EOC, d)
    else if IsLink last then some (newCl, (fatSetCluster fs d last newCl).getD d)
    else some (newCl, d)

end Lumin.Fs.Fat32
