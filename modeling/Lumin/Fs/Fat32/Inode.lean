import Lumin.Fs.Fat32.File
import Lumin.Fs.Fat32.DirScan

/-!
# Inodes

A model of the inode operations of `kernel/fs/fat32.c` on regular files:
`fat32_vfs_lookup`, `fat32_vfs_read` and `fat32_vfs_write`.  An inode keeps its own
copy of the start cluster and the size of a file, and the place of the directory
entry that a write brings up to date.  `none` is a call that never ends.
-/

namespace Lumin.Fs.Fat32

open Lumin.Lib Lumin.Block

/-- `struct fat32_inode_private` with `ino` and `size` of its `struct vfs_inode`. -/
@[ext] structure FatInode where
  cluster : Nat
  size : Nat
  isDir : Bool
  parentCluster : Nat
  dirSector : Nat
  dirOffset : Nat
  ino : Nat
  inodeSize : Nat
  deriving DecidableEq, Repr

def updateEntrySizeAt (d : Disk) (sector offset newSize : Nat) : Option Disk :=
  match blockRead d sector with
  | none => none
  | some buf => blockWrite d sector (wrLE buf (offset + 28) 4 newSize)

def updateEntryClusterAt (d : Disk) (sector offset newCluster : Nat) : Option Disk :=
  match blockRead d sector with
  | none => none
  | some buf =>
    let buf := wrLE buf (offset + 26) 2 (newCluster % 65536)
    blockWrite d sector (wrLE buf (offset + 20) 2 (newCluster / 65536 % 65536))

/-- `fat32_vfs_lookup`: the inode, or `none` for -1.  `granted` says whether the two
allocations succeed. -/
def fat32VfsLookup (fs : Fat32Fs) (d : Disk) (dir : FatInode) (name : CStr) (granted : Bool) :
    Option (Option FatInode) :=
  if dir.isDir = false then some none
  else
    match fat32Lookup fs d dir.cluster name with
    | none => none
    | some none => some none
    | some (some child) =>
      if granted = false then some none
      else some (some { cluster := child.cluster, size := child.size, isDir := child.isDir,
                        parentCluster := dir.cluster, dirSector := child.sector,
                        dirOffset := child.offset, ino := child.cluster,
                        inodeSize := child.size })

/-- `fat32_vfs_read`: the result and the bytes stored in the buffer. -/
def fat32VfsRead (fs : Fat32Fs) (d : Disk) (inode : FatInode) (offset size : Nat) :
    Int × List UInt8 :=
  if inode.isDir then (-1, []) else fat32ReadFile fs d inode.cluster inode.size offset size

/-- The write-back of `fat32_vfs_write`: the entry gets the cluster of the inode when
that is not `ino`, and the size when one of the two has changed. -/
def writeBack (d : Disk) (inode : FatInode) (oldSize : Nat) : Disk × FatInode :=
  if inode.size ≠ oldSize ∨ inode.cluster ≠ inode.ino then
    let d := if inode.cluster ≠ inode.ino ∧ inode.dirSector ≠ 0 then
        (updateEntryClusterAt d inode.dirSector inode.dirOffset inode.cluster).getD d
      else d
    let d := if inode.dirSector ≠ 0 then
        (updateEntrySizeAt d inode.dirSector inode.dirOffset inode.size).getD d
      else d
    (d, { inode with ino := inode.cluster })
  else (d, inode)

/-- `fat32_vfs_write`: the result, the device and the inode. -/
def fat32VfsWrite (fs : Fat32Fs) (d : Disk) (inode : FatInode) (offset : Nat)
    (data : List UInt8) :
    Option (Int × Disk × FatInode) :=
  if inode.isDir then some (-1, d, inode)
  else
    match fat32WriteFile fs d inode.cluster inode.size offset data with
    | none => none
    | some (r, d, cluster, size) =>
      let written := { inode with cluster := cluster, size := size }
      if r < 0 then some (r, d, written)
      else
        let (d, inode) := writeBack d { written with inodeSize := size } inode.size
        some (r, d, inode)

/-! ## The entry of a file -/

variable {d d' d'' : Disk} {c c' n n' : Nat} {p : Place}

/-- The entry at `p` has got a cluster and a size, and no other byte has changed. -/
structure EntrySet (d d' : Disk) (p : Place) (cluster size : Nat) : Prop where
  sameDevice : d.SameDevice d'
  sectors : ∀ s, s ≠ p.1 → d'.data s = d.data s
  slots : ∀ q : Place, q ≠ p → slotAt d' q = slotAt d q
  head : ∀ i < 20, slotAt d' p i = slotAt d p i
  cluster : slotCluster (slotAt d' p) = cluster
  size : slotSize (slotAt d' p) = size

theorem EntrySet.trans (h : EntrySet d d' p c n) (h' : EntrySet d' d'' p c' n') :
    EntrySet d d'' p c' n' where
  sameDevice := h.sameDevice.trans h'.sameDevice
  sectors s hs := (h'.sectors s hs).trans (h.sectors s hs)
  slots q hq := (h'.slots q hq).trans (h.slots q hq)
  head i hi := (h'.head i hi).trans (h.head i hi)
  cluster := h'.cluster
  size := h'.size

theorem rdLE_slotIn {buf : Mem} {ei i n : Nat} (h : i + n ≤ 32) :
    rdLE (slotIn buf ei) i n = rdLE buf (32 * ei + i) n := by
  refine rdLE_move fun j hj => ?_
  rw [slotIn, if_pos (by omega), Nat.add_assoc]

/-- Writing a sector back with other bytes behind the first 20 of a slot. -/
theorem entrySet_setSector (d : Disk) (p : Place) (buf : Mem)
    (hsame : ∀ i, i < 32 * p.2 + 20 ∨ 32 * p.2 + 32 ≤ i → buf i = d.data p.1 i) :
    EntrySet d (d.setSector p.1 buf) p (slotCluster (slotIn buf p.2))
      (slotSize (slotIn buf p.2)) := by
  have hslot : slotAt (d.setSector p.1 buf) p = slotIn buf p.2 := by
    rw [slotAt, setSector_data_same]
  refine ⟨sameDevice_setSector _ _ _, fun s hs => setSector_data_ne _ _ hs, fun q hq => ?_,
    fun i hi => ?_, by rw [hslot], by rw [hslot]⟩
  · unfold slotAt
    by_cases hsec : q.1 = p.1
    · have hne : q.2 ≠ p.2 := fun heq => hq (Prod.ext hsec heq)
      rw [hsec, setSector_data_same]
      funext i
      unfold slotIn
      split
      · exact hsame _ (by omega)
      · rfl
    · rw [setSector_data_ne _ _ hsec]
  · rw [hslot, slotAt, slotIn, slotIn, if_pos (by omega), if_pos (by omega)]
    exact hsame _ (.inl (by omega))

theorem updateEntrySizeAt_spec (hw : d.Works) (hp : p.1 < d.sectorCount) (hn : n < 2 ^ 32) :
    ∃ d', updateEntrySizeAt d p.1 (32 * p.2) n = some d' ∧
      EntrySet d d' p (slotCluster (slotAt d p)) n := by
  refine ⟨_, by
    rw [updateEntrySizeAt, blockRead_of_works hw hp]
    exact blockWrite_of_works hw hp _, ?_⟩
  have hset := entrySet_setSector d p (wrLE (d.data p.1) (32 * p.2 + 28) 4 n) fun i hi => by
    rcases hi with hi | hi
    · exact wrLE_of_lt (by omega)
    · exact wrLE_of_ge (by omega)
  have hcluster : slotCluster (slotIn (wrLE (d.data p.1) (32 * p.2 + 28) 4 n) p.2) =
      slotCluster (slotAt d p) := by
    unfold slotCluster slotAt
    rw [rdLE_slotIn (by decide), rdLE_slotIn (by decide), rdLE_slotIn (by decide),
      rdLE_slotIn (by decide), rdLE_wrLE_apart (by omega), rdLE_wrLE_apart (by omega)]
  have hsize : slotSize (slotIn (wrLE (d.data p.1) (32 * p.2 + 28) 4 n) p.2) = n := by
    unfold slotSize
    rw [rdLE_slotIn (by decide), rdLE_wrLE_of_lt (by omega)]
  rwa [hcluster, hsize] at hset

theorem updateEntryClusterAt_spec (hw : d.Works) (hp : p.1 < d.sectorCount) (hc : c < 2 ^ 32) :
    ∃ d', updateEntryClusterAt d p.1 (32 * p.2) c = some d' ∧
      EntrySet d d' p c (slotSize (slotAt d p)) := by
  refine ⟨_, by
    rw [updateEntryClusterAt, blockRead_of_works hw hp]
    exact blockWrite_of_works hw hp _, ?_⟩
  generalize hlow : wrLE (d.data p.1) (32 * p.2 + 26) 2 (c % 65536) = low
  have hset :=
    entrySet_setSector d p (wrLE low (32 * p.2 + 20) 2 (c / 65536 % 65536)) fun i hi => by
    rw [← hlow]
    rcases hi with hi | hi
    · rw [wrLE_of_lt (by omega), wrLE_of_lt (by omega)]
    · rw [wrLE_of_ge (by omega), wrLE_of_ge (by omega)]
  have hcluster :
      slotCluster (slotIn (wrLE low (32 * p.2 + 20) 2 (c / 65536 % 65536)) p.2) = c := by
    unfold slotCluster
    rw [rdLE_slotIn (by decide), rdLE_slotIn (by decide), rdLE_wrLE_of_lt (by omega),
      rdLE_wrLE_apart (by omega), ← hlow, rdLE_wrLE_of_lt (by omega)]
    omega
  have hsize : slotSize (slotIn (wrLE low (32 * p.2 + 20) 2 (c / 65536 % 65536)) p.2) =
      slotSize (slotAt d p) := by
    unfold slotSize slotAt
    rw [rdLE_slotIn (by decide), rdLE_slotIn (by decide), rdLE_wrLE_apart (by omega), ← hlow,
      rdLE_wrLE_apart (by omega)]
  rwa [hcluster, hsize] at hset

/-- The write-back brings the entry up to date when the inode has changed. -/
theorem writeBack_spec (inode : FatInode) (oldSize : Nat) (hw : d.Works)
    (hp : p.1 < d.sectorCount)
    (hpos : p.1 ≠ 0) (hsector : inode.dirSector = p.1) (hoffset : inode.dirOffset = 32 * p.2)
    (hino : inode.ino ≠ inode.cluster ∨ slotCluster (slotAt d p) = inode.cluster)
    (hcluster : inode.cluster < 2 ^ 32) (hsize : inode.size < 2 ^ 32) :
    ∃ d', writeBack d inode oldSize = (d', { inode with ino := inode.cluster }) ∧
      ((d' = d ∧ inode.size = oldSize ∧ inode.cluster = inode.ino) ∨
        (EntrySet d d' p inode.cluster inode.size ∧
          (inode.size ≠ oldSize ∨ inode.cluster ≠ inode.ino))) := by
  unfold writeBack
  rw [hsector, hoffset]
  by_cases hchanged : inode.size ≠ oldSize ∨ inode.cluster ≠ inode.ino
  · rw [if_pos hchanged]
    by_cases hnew : inode.cluster ≠ inode.ino
    · obtain ⟨d₁, hupdate, hset⟩ := updateEntryClusterAt_spec hw hp hcluster
      obtain ⟨d₂, hupdate', hset'⟩ := updateEntrySizeAt_spec (hset.sameDevice.works hw)
        (hset.sameDevice.1 ▸ hp) hsize
      rw [hset.cluster] at hset'
      refine ⟨d₂, ?_, .inr ⟨hset.trans hset', hchanged⟩⟩
      simp only [if_pos (And.intro hnew hpos), if_pos hpos, hupdate, hupdate', Option.getD_some]
    · obtain ⟨d₁, hupdate, hset⟩ := updateEntrySizeAt_spec hw hp hsize
      rw [hino.resolve_left fun hne => hnew fun heq => hne heq.symm] at hset
      refine ⟨d₁, ?_, .inr ⟨hset, hchanged⟩⟩
      simp only [if_neg fun h : _ ∧ _ => hnew h.1, if_pos hpos, hupdate, Option.getD_some]
  · obtain ⟨hsame, hkept⟩ := not_or.mp hchanged
    rw [if_neg hchanged]
    refine ⟨d, Prod.ext rfl ?_, .inl ⟨rfl, not_not.mp hsame, not_not.mp hkept⟩⟩
    exact FatInode.ext rfl rfl rfl rfl hsector hoffset (not_not.mp hkept).symm rfl

end Lumin.Fs.Fat32
