import Lumin.Fs.Fat32.Table

/-!
# File contents

A model of `fat32_read_file`, `fat32_write_file` and `fat32_truncate` of
`kernel/fs/fat32.c`.  The buffer of a read or write is a list of bytes, and
`count` is its length.  A function that changes the caller's `*cluster` and
`*size` returns them after the device.  `none` is a call that never ends.
-/

namespace Lumin.Fs.Fat32

open Lumin.Lib Lumin.Block

/-! ## Reading -/

/-- The inner loop of `fat32_read_file` over the sectors of one cluster: whether no
read failed, the bytes read and how many are left.  Every turn reads a byte, so
that `remaining` turns are enough. -/
def readSectors (fs : Fat32Fs) (d : Disk) (first : Nat) :
    Nat → Nat → Nat → Bool × List UInt8 × Nat
  | 0, _, remaining => (true, [], remaining)
  | fuel + 1, startByte, remaining =>
    if startByte < fs.clusterSize ∧ 0 < remaining then
      match blockRead d (u32 (first + startByte / 512)) with
      | none => (false, [], remaining)
      | some tmp =>
        let byteIn := startByte % 512
        let chunk := min (512 - byteIn) remaining
        let bytes := (List.range chunk).map fun i => tmp (byteIn + i)
        let (ok, rest, left) :=
          readSectors fs d first fuel (startByte + chunk) (remaining - chunk)
        (ok, bytes ++ rest, left)
    else (true, [], remaining)

/-- The outer loop of `fat32_read_file`: the bytes read. -/
def readClusters (fs : Fat32Fs) (d : Disk) : Nat → Nat → Nat → Nat → List UInt8
  | 0, _, _, _ => []
  | fuel + 1, cl, startByte, remaining =>
    if IsLink cl ∧ 0 < remaining then
      match readSectors fs d (firstSector fs cl) remaining startByte remaining with
      | (false, bytes, _) => bytes
      | (true, bytes, left) => bytes ++ readClusters fs d fuel (fatNextCluster fs d cl) 0 left
    else []

/-- The skip loop of `fat32_read_file`: the test follows the step. -/
def skipRead (fs : Fat32Fs) (d : Disk) : Nat → Nat → Option Nat
  | 0, cl => some cl
  | n + 1, cl =>
    let next := fatNextCluster fs d cl
    if IsLink next then skipRead fs d n next else none

/-- `fat32_read_file`: the result and the bytes stored in the buffer. -/
def fat32ReadFile (fs : Fat32Fs) (d : Disk) (cluster size offset count : Nat) :
    Int × List UInt8 :=
  if count = 0 then (0, [])
  else if size ≤ offset then (0, [])
  else
    let count := if size < u64 (offset + count) then size - offset else count
    match skipRead fs d (u32 (offset / fs.clusterSize)) cluster with
    | none => (-1, [])
    | some cl =>
      let bytes := readClusters fs d (count + 1) cl (offset % fs.clusterSize) count
      (s32 bytes.length, bytes)

/-! ## Writing -/

/-- The loop of `fat32_write_file` that counts the clusters of a chain. -/
def countLoop (fs : Fat32Fs) (d : Disk) : Nat → Nat → Nat → Option Nat
  | 0, _, _ => none
  | fuel + 1, cur, curCount =>
    let next := fatNextCluster fs d cur
    if IsLink next then countLoop fs d fuel next (curCount + 1) else some curCount

def chainCount (fs : Fat32Fs) (d : Disk) (cluster : Nat) : Option Nat :=
  if IsLink cluster then countLoop fs d chainFuel cluster 1 else some 0

/-- The loop of `fat32_write_file` that adds `n` clusters: whether it got them, the
device and `*cluster`. -/
def extendLoop (fs : Fat32Fs) : Nat → Disk → Nat → Option (Bool × Disk × Nat)
  | 0, d, cluster => some (true, d, cluster)
  | n + 1, d, cluster =>
    if cluster = 0 ∨ FAT32_EOC ≤ cluster then
      let (newCl, d) := fatAllocCluster fs d
      if FAT32_EOC ≤ newCl then some (false, d, newCl) else extendLoop fs n d newCl
    else
      match fatExtendChain fs d cluster with
      | none => none
      | some (newCl, d) =>
        if FAT32_EOC ≤ newCl then some (false, d, cluster) else extendLoop fs n d cluster

/-- The skip loop of `fat32_write_file`: the step follows the test. -/
def skipWrite (fs : Fat32Fs) (d : Disk) : Nat → Nat → Option Nat
  | 0, cl => some cl
  | n + 1, cl => if IsLink cl then skipWrite fs d n (fatNextCluster fs d cl) else none

/-- The inner loop of `fat32_write_file` over the sectors of one cluster: whether no
transfer failed, the device and the data left.  A sector that is not overwritten
as a whole is read first.  Every turn writes a byte. -/
def writeSectors (fs : Fat32Fs) (first : Nat) :
    Nat → Disk → Nat → List UInt8 → Bool × Disk × List UInt8
  | 0, d, _, data => (true, d, data)
  | fuel + 1, d, startByte, data =>
    if startByte < fs.clusterSize ∧ 0 < data.length then
      let sector := u32 (first + startByte / 512)
      let byteIn := startByte % 512
      if byteIn ≠ 0 ∨ data.length < 512 then
        match blockRead d sector with
        | none => (false, d, data)
        | some tmp =>
          let chunk := min (512 - byteIn) data.length
          match blockWrite d sector (wrBytes tmp byteIn (data.take chunk)) with
          | none => (false, d, data)
          | some d => writeSectors fs first fuel d (startByte + chunk) (data.drop chunk)
      else
        match blockWrite d sector (wrBytes (fun _ => 0) 0 (data.take 512)) with
        | none => (false, d, data)
        | some d => writeSectors fs first fuel d (startByte + 512) (data.drop 512)
    else (true, d, data)

/-- The outer loop of `fat32_write_file`: the device and the data left. -/
def writeClusters (fs : Fat32Fs) : Nat → Disk → Nat → Nat → List UInt8 → Disk × List UInt8
  | 0, d, _, _, data => (d, data)
  | fuel + 1, d, cl, startByte, data =>
    if IsLink cl ∧ 0 < data.length then
      match writeSectors fs (firstSector fs cl) data.length d startByte data with
      | (false, d, data) => (d, data)
      | (true, d, data) => writeClusters fs fuel d (fatNextCluster fs d cl) 0 data
    else (d, data)

/-- The part of `fat32_write_file` after the file has its clusters. -/
def writeAt (fs : Fat32Fs) (d : Disk) (cluster size offset : Nat) (data : List UInt8) :
    Int × Disk × Nat × Nat :=
  match skipWrite fs d (u32 (offset / fs.clusterSize)) cluster with
  | none => (-1, d, cluster, size)
  | some cl =>
    let (d, left) := writeClusters fs (data.length + 1) d cl (offset % fs.clusterSize) data
    (s32 (data.length - left.length), d, cluster, size)

def fat32WriteFile (fs : Fat32Fs) (d : Disk) (cluster size offset : Nat) (data : List UInt8) :
    Option (Int × Disk × Nat × Nat) :=
  if data.length = 0 then some (0, d, cluster, size)
  else
    let stop := u64 (offset + data.length)
    if size < stop then
      match chainCount fs d cluster with
      | none => none
      | some curCount =>
        let needed := u64 (stop + fs.clusterSize - 1) / fs.clusterSize
        match extendLoop fs (needed - curCount) d cluster with
        | none => none
        | some (false, d, cluster) => some (-1, d, cluster, size)
        | some (true, d, cluster) => some (writeAt fs d cluster (u32 stop) offset data)
    else some (writeAt fs d cluster size offset data)

/-! ## Truncating -/

/-- The loop of `fat32_truncate` over the clusters that are kept: the last of them
and the first one after. -/
def keepLoop (fs : Fat32Fs) (d : Disk) : Nat → Nat → Nat → Option (Nat × Nat)
  | 0, prev, cl => some (prev, cl)
  | n + 1, _, cl => if IsLink cl then keepLoop fs d n cl (fatNextCluster fs d cl) else none

def fat32Truncate (fs : Fat32Fs) (d : Disk) (cluster size newSize : Nat) :
    Option (Int × Disk × Nat × Nat) :=
  if size ≤ newSize then some (0, d, cluster, size)
  else if newSize = 0 then
    match fatFreeChain fs d cluster with
    | none => none
    | some d => some (0, d, 0, 0)
  else
    match keepLoop fs d (u32 ((newSize + fs.clusterSize - 1) / fs.clusterSize)) 0 cluster with
    | none => some (-1, d, cluster, size)
    | some (prev, cl) =>
      match fatFreeChain fs d cl with
      | none => none
      | some d =>
        let d := if IsLink prev then (fatSetCluster fs d prev FAT32_EOC).getD d else d
        some (0, d, cluster, u32 newSize)

end Lumin.Fs.Fat32
