import Lumin.Fs.Fat32.WideOffsets
import Lumin.Lib.TwoRuns

/-!
# A file shows its own data

Runs of `fat32_vfs_write` and `fat32_vfs_read` on one file of two volumes that differ
only in free clusters and behind the ends of files.  A new cluster of a file is not
cleared, so that a write shows what it held where the write leaves a hole.
`OwnFile.write` says all that a write does; `Twins` relates a file of the one volume to
the same file of the other.
-/

namespace Lumin.Fs.Fat32

open Lumin.Lib Lumin.Block

/-! ## The calls -/

inductive FileOp where
  | read (offset count : Nat)
  | write (offset : Nat) (data : List UInt8)

/-- The result of a call with the bytes that it stores in the buffer, and the device and
the inode after it. -/
def fileCall (fs : Fat32Fs) (s : Disk × FatInode) :
    FileOp → Option ((Int × List UInt8) × Disk × FatInode)
  | .read offset count => some (fat32VfsRead fs s.1 s.2 offset count, s)
  | .write offset data => (fat32VfsWrite fs s.1 s.2 offset data).map fun x => ((x.1, []), x.2)

/-- The inode of a file with the clusters `l`.  Its entry lies in a cluster in use that is
not one of them. -/
structure OwnFile (fs : Fat32Fs) (d : Disk) (inode : FatInode) (l : List Nat) : Prop where
  sane : Sane fs d
  isFile : inode.isDir = false
  chain : Chain fs d inode.cluster l
  start : l = [] → inode.cluster = 0 ∨ FAT32_EOC ≤ inode.cluster
  size_lt : inode.size < 2 ^ 32
  entry : inode.dirSector = 0 ∨
    ∃ c, InVolume fs c ∧ ¬ Free fs d c ∧ c ∉ l ∧ IsSectorOf fs c inode.dirSector

def extentOf (fs : Fat32Fs) (d : Disk) (inode : FatInode) (l : List Nat) : Extent :=
  { size := inode.size, clusters := l.length, free := (freeClusters fs d).card }

variable {fs : Fat32Fs} {d d' d₁ : Disk} {inode inode' : FatInode} {l m new : List Nat}
  {data : List UInt8}
  {e : Extent} {count n offset q size v p : Nat}

/-! ## The write-back -/

/-- At most the sector of the entry has changed. -/
structure EntryOnly (d d' : Disk) (sector : Nat) : Prop where
  sameDevice : d.SameDevice d'
  sectors : ∀ s, s ≠ sector ∨ sector = 0 → d'.data s = d.data s

theorem EntryOnly.refl (d : Disk) (s : Nat) : EntryOnly d d s := ⟨.refl d, fun _ _ => rfl⟩

theorem EntryOnly.trans {d'' : Disk} {s : Nat} (h : EntryOnly d d' s) (h' : EntryOnly d' d'' s) :
    EntryOnly d d'' s :=
  ⟨h.sameDevice.trans h'.sameDevice, fun t ht => (h'.sectors t ht).trans (h.sectors t ht)⟩

/-- An update of the entry that fails leaves the device as it is. -/
theorem entryOnly_update {s : Nat} (hs : s ≠ 0) {update : Option Disk}
    (hupdate : ∀ x, update = some x → ∃ buf, blockWrite d s buf = some x) :
    EntryOnly d (update.getD d) s := by
  cases update with
  | none => exact .refl d s
  | some x =>
    obtain ⟨buf, hwrite⟩ := hupdate x rfl
    unfold blockWrite at hwrite
    split at hwrite
    · cases hwrite
    · cases hwrite
      refine ⟨sameDevice_setSector _ _ _, fun t ht => setSector_data_ne _ _ ?_⟩
      exact ht.resolve_right hs

theorem updateEntryClusterAt_write {s c : Nat} (h : updateEntryClusterAt d s offset c = some d') :
    ∃ buf, blockWrite d s buf = some d' := by
  unfold updateEntryClusterAt at h
  split at h
  · cases h
  · exact ⟨_, h⟩

theorem updateEntrySizeAt_write {s c : Nat} (h : updateEntrySizeAt d s offset c = some d') :
    ∃ buf, blockWrite d s buf = some d' := by
  unfold updateEntrySizeAt at h
  split at h
  · cases h
  · exact ⟨_, h⟩

/-- The write-back changes only the sector of the entry, and only `ino` of the inode. -/
theorem writeBack_frame (d : Disk) (inode : FatInode) (oldSize : Nat) :
    EntryOnly d (writeBack d inode oldSize).1 inode.dirSector ∧
      ∃ ino, (writeBack d inode oldSize).2 = { inode with ino := ino } := by
  unfold writeBack
  split
  · refine ⟨?_, _, rfl⟩
    by_cases hsector : inode.dirSector = 0
    · dsimp only
      rw [if_neg (not_not.mpr hsector), if_neg fun h => h.2 hsector]
      exact .refl _ _
    · dsimp only
      rw [if_pos hsector]
      refine EntryOnly.trans ?_ (entryOnly_update hsector fun x hx => updateEntrySizeAt_write hx)
      split
      · exact entryOnly_update hsector fun x hx => updateEntryClusterAt_write hx
      · exact .refl _ _
  · exact ⟨.refl _ _, inode.ino, rfl⟩

/-- The entry lies neither in the table nor in the file, so that the write-back changes
nothing of them. -/
theorem OwnFile.entryOnly (h : OwnFile fs d inode l) (he : EntryOnly d d' inode.dirSector) :
    (∀ c < fs.totalClusters + 2, fatNextCluster fs d' c = fatNextCluster fs d c) ∧
      ∀ q < l.length * fs.clusterSize, chainByte fs d' l q = chainByte fs d l q := by
  constructor
  · intro c hc
    refine fatNextCluster_congr h.sane he.sameDevice (fun s hlt => he.sectors s ?_) hc
    cases h.entry with
    | inl hzero => exact Or.inr hzero
    | inr hentry =>
      obtain ⟨x, hx, -, -, k, -, hsector⟩ := hentry
      left
      intro heq
      have := dataStart_le_firstSector h.sane hx
      omega
  · intro q hq
    rw [mul_clusterSize] at hq
    have hmem := getD_mem (l := l) (show q / 512 < l.length * fs.sectorsPerCluster by omega)
    unfold chainByte
    rw [he.sectors]
    cases h.entry with
    | inl hzero => exact Or.inr hzero
    | inr hentry =>
      obtain ⟨x, hx, -, hnot, k, hk, hsector⟩ := hentry
      left
      intro heq
      unfold chainSector at heq
      rw [hsector] at heq
      obtain ⟨hcluster, -⟩ := firstSector_add_inj h.sane (h.chain.inVolume _ hmem) hx
        (Nat.mod_lt _ h.sane.spc_pos) hk heq
      exact hnot (hcluster ▸ hmem)

theorem OwnFile.settle (h : OwnFile fs d inode l) (he : EntryOnly d d' inode.dirSector) :
    OwnFile fs d' inode l where
  sane := h.sane.of_sameDevice he.sameDevice
  isFile := h.isFile
  chain := h.chain.congr fun c hc => (h.entryOnly he).1 c (h.chain.inVolume c hc).2
  start := h.start
  size_lt := h.size_lt
  entry := by
    refine h.entry.imp_right fun hentry => ?_
    obtain ⟨x, hx, hused, hrest⟩ := hentry
    refine ⟨x, hx, fun hfree => hused ⟨hx, ?_⟩, hrest⟩
    rw [← (h.entryOnly he).1 x hx.2]
    exact hfree.2

/-- The other fields of the inode do not matter. -/
theorem OwnFile.of_inode (h : OwnFile fs d inode l) (hcluster : inode'.cluster = inode.cluster)
    (hsize : inode'.size = inode.size) (hdir : inode'.isDir = inode.isDir)
    (hsector : inode'.dirSector = inode.dirSector) : OwnFile fs d inode' l where
  sane := h.sane
  isFile := hdir.trans h.isFile
  chain := hcluster ▸ h.chain
  start := hcluster ▸ h.start
  size_lt := hsize ▸ h.size_lt
  entry := hsector ▸ h.entry

/-- The file after `fat32_write_file`, before the write-back. -/
theorem OwnFile.fileAfter {cluster : Nat} (h : OwnFile fs d inode l)
    (hafter : FileAfter fs d d' l new cluster offset data) (hsize : size < 2 ^ 32) :
    OwnFile fs d' { inode with cluster := cluster, size := size } (l ++ new) where
  sane := h.sane.of_sameDevice hafter.sameDevice
  isFile := h.isFile
  chain := hafter.chain
  start := hafter.start
  size_lt := hsize
  entry := by
    refine h.entry.imp_right fun hentry => ?_
    obtain ⟨x, hx, hused, hnot, hsector⟩ := hentry
    refine ⟨x, hx, fun hfree => hused ((hafter.free_iff h.sane h.chain).mp hfree).1,
      fun hmem => ?_, hsector⟩
    cases List.mem_append.mp hmem with
    | inl hold => exact hnot hold
    | inr hnew => exact hused (hafter.taken x hnew)

/-- **What a write does**: the extent afterwards and the bytes of the chain, where the
new clusters hold what they held before. -/
theorem OwnFile.write (h : OwnFile fs d inode l) (offset : Nat) (hdata : data.length ≠ 0) :
    ∃ d' inode' new, fat32VfsWrite fs d inode offset data =
        some ((extentOf fs d inode l).result fs offset data, d', inode') ∧
      OwnFile fs d' inode' (l ++ new) ∧
      extentOf fs d' inode' (l ++ new) = (extentOf fs d inode l).after fs offset data ∧
      ∀ q < (l ++ new).length * fs.clusterSize, chainByte fs d' (l ++ new) q =
        if writeStart fs offset ≤ q ∧
            q < writeStart fs offset + (extentOf fs d inode l).stored fs offset data then
          data.getD (q - writeStart fs offset) 0
        else chainByte fs d (l ++ new) q := by
  obtain ⟨d₁, cluster', new, hrun, hafter, hlength⟩ :=
    fat32WriteFile_after (extentOf fs d inode l) offset h.sane h.chain h.start hdata rfl rfl
  have hcard := hafter.card_freeClusters h.sane h.chain
  generalize he : extentOf fs d inode l = e at hrun hafter hlength ⊢
  have hsize : (e.after fs offset data).size < 2 ^ 32 := e.size_lt (he ▸ h.size_lt) fs offset data
  have hown := h.fileAfter hafter hsize
  have hbytes := fun q hq => hafter.bytes (q := q) h.sane (e.stored_le fs offset data) hq
  have hfree :
      (freeClusters fs d₁).card = e.clusters + e.free - e.clustersAfter fs offset data := by
    rw [← hlength, List.length_append, ← he]
    show (freeClusters fs d₁).card = l.length + (freeClusters fs d).card - (l.length + new.length)
    omega
  rw [fat32VfsWrite, if_neg (Bool.eq_false_iff.mp h.isFile),
    show inode.size = e.size by rw [← he]; rfl, hrun]
  dsimp only
  by_cases hneg : e.result fs offset data < 0
  · rw [if_pos hneg]
    refine ⟨d₁, _, new, rfl, hown, ?_, hbytes⟩
    exact Extent.ext rfl hlength hfree
  · rw [if_neg hneg]
    obtain ⟨hentry, ino, hinode⟩ := writeBack_frame d₁
      { inode with cluster := cluster', size := (e.after fs offset data).size,
                   inodeSize := (e.after fs offset data).size } e.size
    obtain ⟨htable, hsame⟩ := hown.entryOnly hentry
    refine ⟨_, _, new, rfl, ?_, ?_, fun q hq => ?_⟩
    · rw [hinode]
      exact (hown.settle hentry).of_inode rfl rfl rfl rfl
    · rw [hinode]
      refine Extent.ext rfl hlength ?_
      show (freeClusters fs _).card = _
      rw [freeClusters_congr htable, hfree]
      rfl
    · rw [hsame q hq, hbytes q hq]

/-! ## Two volumes -/

/-- A write that grows the file and gets its clusters stores every byte between the old
end of the file and the new one, and the new end lies in the clusters. -/
def Extent.Covers (e : Extent) (fs : Fat32Fs) (offset : Nat) (data : List UInt8) : Prop :=
  data.length ≠ 0 → e.size < writeStop offset data → e.Granted fs offset data →
    u32 (writeStop offset data) ≤ e.size ∨
      writeStart fs offset ≤ e.size ∧
        u32 (writeStop offset data) ≤ writeStart fs offset + data.length ∧
        (writeStop offset data + fs.clusterSize ≤ 2 ^ 64 ∨
          u32 (writeStop offset data) ≤ e.clusters * fs.clusterSize)

/-- The read is clamped to the file, or the clusters of the file end with it. -/
def Extent.Clamps (e : Extent) (fs : Fat32Fs) (offset count : Nat) : Prop :=
  e.size ≤ offset ∨ offset + count < 2 ^ 64 ∨ e.size < u64 (offset + count) ∨
    e.clusters * fs.clusterSize ≤ e.size

theorem Extent.clusters_le (e : Extent) (fs : Fat32Fs) (offset : Nat) (data : List UInt8) :
    e.clusters ≤ (e.after fs offset data).clusters := by
  show e.clusters ≤ e.clustersAfter fs offset data
  unfold Extent.clustersAfter writeClusterCount
  split <;> omega

/-- The clusters that a write asks for hold its end, if the rounding does not wrap. -/
theorem Extent.end_le (hs : Sane fs d) (hgrow : e.size < writeStop offset data)
    (hgranted : e.Granted fs offset data)
    (hwrap : writeStop offset data + fs.clusterSize ≤ 2 ^ 64) :
    writeStop offset data ≤ (e.after fs offset data).clusters * fs.clusterSize := by
  have hneeds : writeNeeds fs offset data ≤ (e.after fs offset data).clusters := by
    show _ ≤ e.clustersAfter fs offset data
    unfold Extent.Granted at hgranted
    unfold Extent.clustersAfter
    unfold writeClusterCount at hgranted ⊢
    rw [if_pos hgrow] at hgranted ⊢
    omega
  have hround : writeStop offset data ≤ writeNeeds fs offset data * fs.clusterSize := by
    unfold writeNeeds
    rw [u64_of_lt (by omega)]
    exact le_ceilDiv_mul hs _
  exact hround.trans (Nat.mul_le_mul_right _ hneeds)

/-- After a write that leaves no hole, the file has clusters for its size, and what it
did not show before has been stored. -/
theorem Extent.Covers.filled (hs : Sane fs d) (hcovers : e.Covers fs offset data)
    (hdata : data.length ≠ 0)
    (hroom : e.size ≤ e.clusters * fs.clusterSize) :
    (e.after fs offset data).size ≤ (e.after fs offset data).clusters * fs.clusterSize ∧
      ((e.after fs offset data).size ≤ e.size ∨
        writeStart fs offset ≤ e.size ∧
          (e.after fs offset data).size ≤ writeStart fs offset + e.stored fs offset data) := by
  have hmore : e.clusters * fs.clusterSize ≤ (e.after fs offset data).clusters * fs.clusterSize :=
    Nat.mul_le_mul_right _ (e.clusters_le fs offset data)
  by_cases hgrow : e.size < writeStop offset data
  · by_cases hgranted : e.Granted fs offset data
    · rw [Extent.size_of_grows hgranted hgrow]
      cases hcovers hdata hgrow hgranted with
      | inl hsmall => exact ⟨hsmall.trans (hroom.trans hmore), Or.inl hsmall⟩
      | inr hfill =>
        obtain ⟨hstart, hend, hplace⟩ := hfill
        have hfits :
            u32 (writeStop offset data) ≤ (e.after fs offset data).clusters * fs.clusterSize := by
          cases hplace with
          | inl hwrap => exact (Nat.mod_le _ _).trans (Extent.end_le hs hgrow hgranted hwrap)
          | inr hthere => exact hthere.trans hmore
        refine ⟨hfits, Or.inr ⟨hstart, ?_⟩⟩
        rw [Extent.stored_of_granted hgranted]
        change u32 (writeStop offset data) ≤ e.clustersAfter fs offset data *
          fs.clusterSize at hfits
        omega
    · rw [Extent.size_of_refused hgranted]
      exact ⟨hroom.trans hmore, Or.inl (le_refl _)⟩
  · rw [Extent.size_of_keeps hgrow]
    exact ⟨hroom.trans hmore, Or.inl (le_refl _)⟩

/-- A write that begins at or before the end of the file and ends below 4 GiB leaves no
hole. -/
theorem Extent.covers_of_inside (hs : Sane fs d) (hoffset : offset ≤ e.size)
    (hend : offset + data.length < 2 ^ 32) : e.Covers fs offset data := by
  intro _ _ _
  have hcs := clusterSize_pos hs
  have hcluster : fs.clusterSize ≤ 512 * 128 := Nat.mul_le_mul_left _ hs.spc_le
  have hstop : writeStop offset data = offset + data.length := u64_of_lt (by omega)
  have hstart : writeStart fs offset = offset := by
    unfold writeStart
    rw [u32_of_lt (lt_of_le_of_lt (Nat.div_le_self _ _) (by omega)), Nat.mul_comm,
      Nat.div_add_mod]
  rw [hstop, hstart, u32_of_lt hend]
  exact Or.inr ⟨hoffset, le_refl _, Or.inl (by omega)⟩

/-- A call that shows nothing but the file's own data. -/
def ShowsOwn (fs : Fat32Fs) (s : Disk × FatInode) (o : FileOp) : Prop :=
  ∀ l, Chain fs s.1 s.2.cluster l →
    match o with
    | .read offset count => (extentOf fs s.1 s.2 l).Clamps fs offset count
    | .write offset data => (extentOf fs s.1 s.2 l).Covers fs offset data

/-- A file of one volume and a file of another one with the same extent and the same
bytes up to the end. -/
structure TwinFiles (fs : Fat32Fs) (s t : Disk × FatInode) (l m : List Nat) : Prop where
  left : OwnFile fs s.1 s.2 l
  right : OwnFile fs t.1 t.2 m
  extent : extentOf fs t.1 t.2 m = extentOf fs s.1 s.2 l
  room : s.2.size ≤ l.length * fs.clusterSize
  bytes : ∀ q < s.2.size, chainByte fs t.1 m q = chainByte fs s.1 l q

def Twins (fs : Fat32Fs) (s t : Disk × FatInode) : Prop := ∃ l m, TwinFiles fs s t l m

variable {s t : Disk × FatInode}

theorem sector_unique (hs : Sane fs d) {c c' k : Nat} (hc : InVolume fs c) (hc' : InVolume fs c')
    (h : IsSectorOf fs c k) (h' : IsSectorOf fs c' k) : c = c' := by
  obtain ⟨i, hi, rfl⟩ := h
  obtain ⟨j, hj, heq⟩ := h'
  exact (firstSector_add_inj hs hc hc' hi hj heq).1

theorem TwinFiles.size_eq (h : TwinFiles fs s t l m) :
    t.2.size = s.2.size := congrArg Extent.size h.extent

theorem TwinFiles.length_eq (h : TwinFiles fs s t l m) :
    m.length = l.length := congrArg Extent.clusters h.extent

/-- A clamped read returns the same bytes of both files. -/
theorem TwinFiles.read (h : TwinFiles fs s t l m)
    (hclamps : (extentOf fs s.1 s.2 l).Clamps fs offset count) :
    fat32VfsRead fs t.1 t.2 offset count = fat32VfsRead fs s.1 s.2 offset count := by
  have hsize := h.size_eq
  have hlength := h.length_eq
  have hlt := h.left.size_lt
  have hroom := h.room
  unfold fat32VfsRead
  rw [if_neg (Bool.eq_false_iff.mp h.left.isFile), if_neg (Bool.eq_false_iff.mp h.right.isFile),
    hsize]
  by_cases hnone : count = 0 ∨ s.2.size ≤ offset
  · unfold fat32ReadFile
    cases hnone with
    | inl hzero => rw [if_pos hzero, if_pos hzero]
    | inr hbehind => rw [if_pos hbehind, if_pos hbehind]
  · rw [not_or, not_le] at hnone
    rw [fat32ReadFile_stretch (h.left.chain.readableFile h.left.sane) hroom hlt hnone.2 hnone.1,
      fat32ReadFile_stretch (h.right.chain.readableFile h.right.sane)
        (by rw [hlength]; exact hroom) hlt
        hnone.2 hnone.1, hlength]
    dsimp only
    have hend : min (if s.2.size < u64 (offset + count) then s.2.size - offset else count)
        (l.length * fs.clusterSize - offset) ≤ s.2.size - offset := by
      unfold Extent.Clamps extentOf at hclamps
      dsimp only at hclamps
      unfold u64 at hclamps ⊢
      split <;> omega
    generalize min (if s.2.size < u64 (offset + count) then s.2.size - offset else count)
      (l.length * fs.clusterSize - offset) = n at hend
    have hsame : stretch fs t.1 m offset n = stretch fs s.1 l offset n := by
      refine List.map_congr_left fun i hi => h.bytes _ ?_
      have := List.mem_range.mp hi
      omega
    rw [hsame]

/-- An empty write at most brings the entry up to date. -/
theorem OwnFile.write_nil (h : OwnFile fs d inode l) (offset : Nat) (hdata : data.length = 0) :
    ∃ d' inode', fat32VfsWrite fs d inode offset data = some (0, d', inode') ∧
        OwnFile fs d' inode' l ∧
      extentOf fs d' inode' l = extentOf fs d inode l ∧
      ∀ q < l.length * fs.clusterSize, chainByte fs d' l q = chainByte fs d l q := by
  obtain ⟨hentry, ino, hinode⟩ :=
    writeBack_frame d { inode with inodeSize := inode.size } inode.size
  have hown : OwnFile fs d { inode with inodeSize := inode.size } l := h.of_inode rfl rfl rfl rfl
  obtain ⟨htable, hsame⟩ := hown.entryOnly hentry
  refine ⟨_, (writeBack d { inode with inodeSize := inode.size } inode.size).2, ?_, ?_, ?_, hsame⟩
  · rw [fat32VfsWrite, if_neg (Bool.eq_false_iff.mp h.isFile), fat32WriteFile, if_pos hdata]
    rfl
  · rw [hinode]
    exact (hown.settle hentry).of_inode rfl rfl rfl rfl
  · rw [hinode]
    exact Extent.ext rfl rfl (congrArg Finset.card (freeClusters_congr htable))

/-- A write that leaves no hole gives the same result in both files, and twins again. -/
theorem TwinFiles.write (h : TwinFiles fs s t l m)
    (hcovers : (extentOf fs s.1 s.2 l).Covers fs offset data) :
    ∃ r s' t', fat32VfsWrite fs s.1 s.2 offset data = some (r, s') ∧
      fat32VfsWrite fs t.1 t.2 offset data = some (r, t') ∧ Twins fs s' t' := by
  have hroom' : s.2.size ≤ m.length * fs.clusterSize := by
    rw [h.length_eq]
    exact h.room
  by_cases hdata : data.length = 0
  · obtain ⟨d₁, inode₁, hrun₁, hown₁, hextent₁, hbytes₁⟩ := h.left.write_nil offset hdata
    obtain ⟨d₂, inode₂, hrun₂, hown₂, hextent₂, hbytes₂⟩ := h.right.write_nil offset hdata
    have hsize : inode₁.size = s.2.size := congrArg Extent.size hextent₁
    refine ⟨0, (d₁, inode₁), (d₂, inode₂), hrun₁, hrun₂, l, m, hown₁, hown₂, ?_, ?_,
      fun q hq => ?_⟩
    · rw [hextent₁, hextent₂, h.extent]
    · rw [hsize]
      exact h.room
    · have hq : q < s.2.size := hsize ▸ hq
      rw [hbytes₁ q (hq.trans_le h.room), hbytes₂ q (hq.trans_le hroom'), h.bytes q hq]
  · obtain ⟨d₁, inode₁, new₁, hrun₁, hown₁, hextent₁, hbytes₁⟩ := h.left.write offset hdata
    obtain ⟨d₂, inode₂, new₂, hrun₂, hown₂, hextent₂, hbytes₂⟩ := h.right.write offset hdata
    obtain ⟨hfits, hfilled⟩ := hcovers.filled h.left.sane hdata h.room
    rw [h.extent] at hrun₂ hextent₂ hbytes₂
    generalize he :
      extentOf fs s.1 s.2 l = e at hrun₁ hrun₂ hextent₁ hextent₂ hbytes₁ hbytes₂ hfits hfilled
    have hold : e.size = s.2.size := by
      rw [← he]
      rfl
    have hsize : inode₁.size = (e.after fs offset data).size := congrArg Extent.size hextent₁
    have hlength₁ : (l ++ new₁).length = (e.after fs offset data).clusters :=
      congrArg Extent.clusters hextent₁
    have hlength₂ : (m ++ new₂).length = (e.after fs offset data).clusters :=
      congrArg Extent.clusters hextent₂
    refine ⟨_, (d₁, inode₁), (d₂, inode₂), hrun₁, hrun₂, l ++ new₁, m ++ new₂, hown₁, hown₂, ?_,
      ?_,
      fun q hq => ?_⟩
    · rw [hextent₁, hextent₂]
    · rw [hlength₁]
      exact hsize.trans_le hfits
    · have hq : q < (e.after fs offset data).size := hsize ▸ hq
      have hlt := hq.trans_le hfits
      rw [hbytes₁ q (by rw [hlength₁]; exact hlt), hbytes₂ q (by rw [hlength₂]; exact hlt)]
      by_cases hin : writeStart fs offset ≤ q ∧ q < writeStart fs offset + e.stored fs offset data
      · rw [if_pos hin, if_pos hin]
      · -- A byte that the write does not store was in the file before.
        have hbefore : q < s.2.size := by omega
        rw [if_neg hin, if_neg hin, chainByte_append _ _ (hbefore.trans_le h.room),
          chainByte_append _ _ (hbefore.trans_le hroom'), h.bytes q hbefore]

/-! ## Runs -/

theorem Twins.comes (h : Twins fs s t) (o : FileOp) : (fileCall fs s o).isSome := by
  obtain ⟨l, m, htwin⟩ := h
  cases o with
  | read offset count => rfl
  | write offset data =>
    unfold fileCall
    dsimp only
    by_cases hdata : data.length = 0
    · obtain ⟨d₁, inode₁, hrun, -⟩ := htwin.left.write_nil offset hdata
      rw [hrun]
      rfl
    · obtain ⟨d₁, inode₁, new, hrun, -⟩ := htwin.left.write offset hdata
      rw [hrun]
      rfl

theorem Twins.call (h : Twins fs s t) {o : FileOp} (hown : ShowsOwn fs s o) :
    ∃ a s' t', fileCall fs s o = some (a, s') ∧ fileCall fs t o = some (a, t') ∧
      Twins fs s' t' := by
  obtain ⟨l, m, htwin⟩ := h
  have hcond := hown l htwin.left.chain
  cases o with
  | read offset count =>
    refine ⟨_, s, t, rfl, ?_, l, m, htwin⟩
    unfold fileCall
    dsimp only
    rw [htwin.read hcond]
  | write offset data =>
    obtain ⟨r, s', t', hrun, hrun', htwins⟩ := htwin.write hcond
    refine ⟨(r, []), s', t', ?_, ?_, htwins⟩
    · unfold fileCall
      dsimp only
      rw [hrun, Option.map_some]
    · unfold fileCall
      dsimp only
      rw [hrun', Option.map_some]

/-! ## Volumes that differ where nothing is stored -/

/-- The files of a volume, each with its clusters and its size: no two have a cluster in
common. -/
structure VolumeFiles (fs : Fat32Fs) (d : Disk) (files : List (List Nat × Nat)) : Prop where
  chain : ∀ f ∈ files, ∃ v, Chain fs d v f.1
  room : ∀ f ∈ files, f.2 ≤ f.1.length * fs.clusterSize
  apart : ∀ f ∈ files, ∀ g ∈ files, f ≠ g → f.1.Disjoint g.1

/-- Byte `i` of sector `s` lies in a free cluster, or behind the end of a file. -/
def Unowned (fs : Fat32Fs) (d : Disk) (files : List (List Nat × Nat)) (s i : Nat) : Prop :=
  (∃ c, Free fs d c ∧ IsSectorOf fs c s) ∨
    ∃ f ∈ files, ∃ q, f.2 ≤ q ∧ q < f.1.length * fs.clusterSize ∧
        s = chainSector fs f.1 (q / 512) ∧ i = q % 512

/-- Two volumes that differ at most in free clusters and behind the ends of files. -/
structure DifferUnowned (fs : Fat32Fs) (d d' : Disk) (files : List (List Nat × Nat)) : Prop where
  sameDevice : d.SameDevice d'
  owned : ∀ s i, ¬ Unowned fs d files s i → d'.data s i = d.data s i

variable {files : List (List Nat × Nat)}

/-- The table belongs to no cluster. -/
theorem DifferUnowned.table (h : DifferUnowned fs d d' files) (hs : Sane fs d)
    (hfiles : VolumeFiles fs d files)
    {c : Nat} (hc : c < fs.totalClusters + 2) :
    fatNextCluster fs d' c = fatNextCluster fs d c := by
  refine fatNextCluster_congr hs h.sameDevice (fun s hlt => ?_) hc
  funext i
  refine h.owned s i fun hunowned => ?_
  cases hunowned with
  | inl hfree =>
    obtain ⟨x, hx, k, -, hsector⟩ := hfree
    have := dataStart_le_firstSector hs hx.1
    omega
  | inr hslack =>
    obtain ⟨f, hf, q, -, hq, hsector, -⟩ := hslack
    obtain ⟨v, hchain⟩ := hfiles.chain f hf
    rw [mul_clusterSize] at hq
    have hmem := getD_mem (l := f.1) (show q / 512 < f.1.length * fs.sectorsPerCluster by omega)
    have := dataStart_le_firstSector hs (hchain.inVolume _ hmem)
    unfold chainSector at hsector
    omega

/-- The bytes of a file belong to it alone. -/
theorem DifferUnowned.bytes (h : DifferUnowned fs d d' files) (hs : Sane fs d)
    (hfiles : VolumeFiles fs d files)
    (hfile : (l, size) ∈ files) (hq : q < size) : chainByte fs d' l q = chainByte fs d l q := by
  obtain ⟨v, hchain⟩ := hfiles.chain _ hfile
  have hq' : q < l.length * fs.clusterSize := hq.trans_le (hfiles.room _ hfile)
  rw [mul_clusterSize] at hq'
  have hj : q / 512 < l.length * fs.sectorsPerCluster := by omega
  have hmem := getD_mem hj
  have hin := hchain.inVolume _ hmem
  have hsector : IsSectorOf fs _ (chainSector fs l (q / 512)) := isSectorOf_chainSector hs
  refine h.owned _ _ fun hunowned => ?_
  cases hunowned with
  | inl hfree =>
    obtain ⟨x, hx, hsector'⟩ := hfree
    obtain rfl := sector_unique hs hin hx.1 hsector hsector'
    exact hchain.not_free hmem hx
  | inr hslack =>
    obtain ⟨f, hf, p, hle, hlt, heq, hbyte⟩ := hslack
    obtain ⟨w, hchain'⟩ := hfiles.chain f hf
    rw [mul_clusterSize] at hlt
    have hj' : p / 512 < f.1.length * fs.sectorsPerCluster := by omega
    by_cases hsame : f = (l, size)
    · rw [hsame] at heq hj' hle
      have hindex := chainSector_inj hs hchain.inVolume hchain.linked.nodup hj hj' heq
      have hle : size ≤ p := hle
      omega
    · have hcluster := sector_unique hs hin (hchain'.inVolume _ (getD_mem hj')) hsector
        (heq ▸ isSectorOf_chainSector hs)
      exact hfiles.apart f hf _ hfile hsame (getD_mem hj') (hcluster ▸ hmem)

theorem DifferUnowned.ownFile (h : DifferUnowned fs d d' files) (hfiles : VolumeFiles fs d files)
    (hown : OwnFile fs d inode l) : OwnFile fs d' inode l where
  sane := hown.sane.of_sameDevice h.sameDevice
  isFile := hown.isFile
  chain := hown.chain.congr fun c hc => h.table hown.sane hfiles (hown.chain.inVolume c hc).2
  start := hown.start
  size_lt := hown.size_lt
  entry := by
    refine hown.entry.imp_right fun hentry => ?_
    obtain ⟨x, hx, hused, hrest⟩ := hentry
    refine ⟨x, hx, fun hfree => hused ⟨hx, ?_⟩, hrest⟩
    rw [← h.table hown.sane hfiles hx.2]
    exact hfree.2

/-- Each file of the one volume has its twin in the other one. -/
theorem DifferUnowned.twins (h : DifferUnowned fs d d' files) (hfiles : VolumeFiles fs d files)
    (hown : OwnFile fs d inode l) (hfile : (l, inode.size) ∈ files) :
    Twins fs (d, inode) (d', inode) := by
  refine ⟨l, l, hown, h.ownFile hfiles hown, ?_, hfiles.room _ hfile, fun q hq => ?_⟩
  · have hfree : freeClusters fs d' = freeClusters fs d :=
      freeClusters_congr fun c hc => h.table hown.sane hfiles hc
    exact Extent.ext rfl rfl (congrArg Finset.card hfree)
  · exact h.bytes hown.sane hfiles hfile hq

/-- **Own data.**  Calls on a file of two volumes that differ only in free clusters and
behind the ends of files return the same bytes, as long as no write of the run leaves
a hole and no read goes behind the end. -/
theorem ownData_outputs {ops : List FileOp} (hown : OwnFile fs d inode l)
    (hfiles : VolumeFiles fs d files)
    (hfile : (l, inode.size) ∈ files) (hdiffer : DifferUnowned fs d d' files)
    (hops : Guarded (stateAfter (fileCall fs)) (ShowsOwn fs) (d, inode) ops) :
    outputs (fileCall fs) (d, inode) ops = outputs (fileCall fs) (d', inode) ops := by
  have htwins := hdiffer.twins hfiles hown hfile
  refine outputs_eq_of_related (R := Twins fs) ?_ htwins ?_ hops
  · intro s t o hst hown
    exact hst.call hown
  · intro s t o hst
    exact hst.comes o

/-! ## An empty file over a cluster that was used before -/

theorem ownFile_emptyFile : OwnFile smallFs emptyFileDisk emptyFile [] where
  sane := sane_smallDisk _
  isFile := rfl
  chain := chain_emptyFile
  start := fun _ => Or.inl rfl
  size_lt := by decide
  entry := Or.inr
    ⟨2, by decide, (chain_smallDisk _).not_free List.mem_cons_self, List.not_mem_nil,
    0, by decide, rfl⟩

/-- The free cluster 3 holds what a deleted file has left. -/
def usedBefore : Disk := emptyFileDisk.setSector 3 fun _ => 9

theorem volumeFiles_emptyFile : VolumeFiles smallFs emptyFileDisk [([], 0)] where
  chain := fun f hf => by
    obtain rfl := List.mem_singleton.mp hf
    exact ⟨0, chain_emptyFile⟩
  room := fun f hf => by
    obtain rfl := List.mem_singleton.mp hf
    exact Nat.zero_le _
  apart := fun f hf g hg hne => by
    rw [List.mem_singleton.mp hf, List.mem_singleton.mp hg] at hne
    exact absurd rfl hne

theorem differUnowned_usedBefore : DifferUnowned smallFs emptyFileDisk usedBefore [([], 0)] where
  sameDevice := sameDevice_setSector _ _ _
  owned := fun s i hs => by
    refine congrFun (setSector_data_ne _ _ fun hthree => hs (Or.inl ⟨3, ?_, 0, by decide, ?_⟩)) i
    · decide +kernel
    · rw [hthree]
      rfl

theorem ownData_outputs_emptyFile :
    outputs (fileCall smallFs) (emptyFileDisk, emptyFile) [.write 0 [65, 66], .read 0 5] =
      outputs (fileCall smallFs) (usedBefore, emptyFile) [.write 0 [65, 66], .read 0 5] := by
  refine ownData_outputs ownFile_emptyFile volumeFiles_emptyFile List.mem_cons_self
    differUnowned_usedBefore ?_
  unfold Guarded
  split
  · trivial
  · refine ⟨fun l _ => Extent.covers_of_inside (sane_smallDisk fun _ => 0) (Nat.zero_le _)
      (by decide), ?_⟩
    unfold Guarded
    split
    · trivial
    · exact ⟨fun l _ => Or.inr (Or.inl (by decide)), trivial⟩

/-- One byte at 1 takes the free cluster, and the read shows its first byte. -/
theorem hole_shows_usedBefore :
    OwnFile smallFs emptyFileDisk emptyFile [] ∧ VolumeFiles smallFs emptyFileDisk [([], 0)] ∧
      DifferUnowned smallFs emptyFileDisk usedBefore [([], 0)] ∧
      outputs (fileCall smallFs) (emptyFileDisk, emptyFile) [.write 1 [65], .read 0 2] ≠
        outputs (fileCall smallFs) (usedBefore, emptyFile) [.write 1 [65], .read 0 2] := by
  have hzero : outputs (fileCall smallFs) (emptyFileDisk, emptyFile) [.write 1 [65], .read 0 2] =
      [(1, []), (2, [0, 65])] := by decide +kernel
  have hnine : outputs (fileCall smallFs) (usedBefore, emptyFile) [.write 1 [65], .read 0 2] =
      [(1, []), (2, [9, 65])] := by decide +kernel
  refine ⟨ownFile_emptyFile, volumeFiles_emptyFile, differUnowned_usedBefore, ?_⟩
  rw [hzero, hnine]
  decide

end Lumin.Fs.Fat32
