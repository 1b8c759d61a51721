import Lumin.Fs.Fat32.FileWrite
import Lumin.Fs.Fat32.Inode

/-!
# A write that fails

`fat32_write_file` takes the clusters one by one and gives none back, and it stores
the new size before it walks to the offset.  A failed `fat32_vfs_write` has changed
nothing exactly if it needed no cluster and no new size, or found no free cluster at
all for a file that has some.
-/

namespace Lumin.Fs.Fat32

open Lumin.Lib Lumin.Block

variable {fs : Fat32Fs} {d d' : Disk} {c cl n v size offset : Nat} {l : List Nat}
  {data : List UInt8}
  {inode inode' : FatInode} {r : Int}

/-! ## The part after the growth -/

/-- The byte of the chain where a write begins, with the cluster index cut to 32 bits. -/
def writeStart (fs : Fat32Fs) (offset : Nat) : Nat :=
  u32 (offset / fs.clusterSize) * fs.clusterSize + offset % fs.clusterSize

/-- Where the skip loop ends, a part of the chain follows. -/
theorem skipWrite_inv (h : Linked (fatNextCluster fs d) (fun c => ¬ IsLink c) v l)
    (hskip : skipWrite fs d n v = some cl) :
    Linked (fatNextCluster fs d) (fun c => ¬ IsLink c) cl (l.drop n) := by
  induction n generalizing v l with
  | zero =>
    cases hskip
    exact h
  | succ n ih =>
    rw [skipWrite] at hskip
    split at hskip
    next hlink =>
      cases l with
      | nil => exact absurd hlink h
      | cons x xs =>
        obtain ⟨rfl, -, hrest⟩ := h
        exact ih hrest hskip
    · cases hskip

/-- The skip loop ends with a cluster, or right behind the last one. -/
theorem skipWrite_le (h : Linked (fatNextCluster fs d) (fun c => ¬ IsLink c) v l)
    (hskip : skipWrite fs d n v = some cl) : n ≤ l.length := by
  induction n generalizing v l with
  | zero => exact Nat.zero_le _
  | succ n ih =>
    rw [skipWrite] at hskip
    split at hskip
    next hlink =>
      cases l with
      | nil => exact absurd hlink h
      | cons x xs =>
        obtain ⟨rfl, -, hrest⟩ := h
        rw [List.length_cons]
        exact Nat.succ_le_succ (ih hrest hskip)
    · cases hskip

theorem skipWrite_none (h : Linked (fatNextCluster fs d) (fun c => ¬ IsLink c) v l)
    (hskip : skipWrite fs d n v = none) : l.length < n := by
  induction n generalizing v l with
  | zero => cases hskip
  | succ n ih =>
    rw [skipWrite] at hskip
    split at hskip
    next hlink =>
      cases l with
      | nil => exact absurd hlink h
      | cons x xs =>
        obtain ⟨rfl, -, hrest⟩ := h
        rw [List.length_cons]
        exact Nat.succ_lt_succ (ih hrest hskip)
    next hstop =>
      cases l with
      | nil => exact Nat.succ_pos n
      | cons x xs =>
        obtain ⟨rfl, hlive, -⟩ := h
        exact absurd (not_not.mp hlive) hstop

/-- The part after the growth stores as much of the data as there is room for, from the
cluster that the cut index names. -/
theorem writeAt_stores (size offset : Nat) (data : List UInt8) (hs : Sane fs d)
    (h : Chain fs d v l) :
    ∃ d', writeAt fs d v size offset data =
        (if u32 (offset / fs.clusterSize) ≤ l.length then
          s32 (min data.length (l.length * fs.clusterSize - writeStart fs offset))
        else -1, d', v, size) ∧
      Stored fs d d' l (writeStart fs offset)
        (data.take (l.length * fs.clusterSize - writeStart fs offset)) := by
  have hcs := clusterSize_pos hs
  unfold writeAt writeStart
  cases hskip : skipWrite fs d (u32 (offset / fs.clusterSize)) v with
  | none =>
    have hlt := skipWrite_none h.linked hskip
    generalize u32 (offset / fs.clusterSize) = n at hlt ⊢
    have hle : l.length * fs.clusterSize ≤ n * fs.clusterSize := Nat.mul_le_mul_right _ hlt.le
    rw [if_neg (not_le.mpr hlt), show l.length * fs.clusterSize -
      (n * fs.clusterSize + offset % fs.clusterSize) = 0 by omega, List.take_zero]
    exact ⟨d, rfl, Stored.nil _ _ _ _⟩
  | some cl =>
    have hle := skipWrite_le h.linked hskip
    have hwalk := skipWrite_inv h.linked hskip
    rw [if_pos hle]
    generalize u32 (offset / fs.clusterSize) = n at hle hwalk ⊢
    have happ : l.take n ++ l.drop n = l := List.take_append_drop n l
    obtain ⟨d', hloop, hstored⟩ := writeClusters_spec hs (by rw [happ]; exact h.inVolume)
      (by rw [happ]; exact h.linked.nodup) hwalk (Nat.mod_lt offset hcs)
        (Nat.lt_succ_self data.length)
    have hroom : (l.drop n).length * fs.clusterSize - offset % fs.clusterSize =
        l.length * fs.clusterSize - (n * fs.clusterSize + offset % fs.clusterSize) := by
      rw [List.length_drop, Nat.sub_mul, Nat.sub_sub]
    rw [happ, List.length_take, Nat.min_eq_left hle, hroom] at hstored
    rw [hroom] at hloop
    refine ⟨d', ?_, hstored⟩
    dsimp only
    rw [hloop]
    dsimp only
    rw [List.length_drop, show data.length - (data.length -
      (l.length * fs.clusterSize - (n * fs.clusterSize + offset % fs.clusterSize))) =
      min data.length (l.length * fs.clusterSize - (n * fs.clusterSize + offset % fs.clusterSize))
        by omega]

/-- Whatever it returns, the part after the growth writes only sectors of the file. -/
theorem writeAt_frame (size offset : Nat) (data : List UInt8) (hs : Sane fs d)
    (h : Chain fs d v l) :
    ∃ r d', writeAt fs d v size offset data = (r, d', v, size) ∧ d.SameDevice d' ∧
      ∀ s, (∀ c ∈ l, ¬ IsSectorOf fs c s) → d'.data s = d.data s := by
  obtain ⟨d', hwrite, hstored⟩ := writeAt_stores size offset data hs h
  exact ⟨_, d', hwrite, hstored.sameDevice, hstored.outside⟩

/-! ## What a failure leaves -/

/-- The table, the entry of the file and the inode's cluster and size are what they
were. -/
structure Unchanged (fs : Fat32Fs) (d d' : Disk) (inode inode' : FatInode) : Prop where
  table : ∀ s < fs.dataStart, d'.data s = d.data s
  entry : slotAt d' (inode.dirSector, inode.dirOffset / 32) =
    slotAt d (inode.dirSector, inode.dirOffset / 32)
  cluster : inode'.cluster = inode.cluster
  size : inode'.size = inode.size

/-- The end of a write, in 64 bits. -/
def writeStop (offset : Nat) (data : List UInt8) : Nat := u64 (offset + data.length)

/-- The clusters that a write needs, as the code computes them. -/
def writeNeeds (fs : Fat32Fs) (offset : Nat) (data : List UInt8) : Nat :=
  u64 (writeStop offset data + fs.clusterSize - 1) / fs.clusterSize

/-- When a write to a file with the clusters `l` has nothing to take back: it does not
end behind the file, or the clusters and the size are there, or there is no free
cluster and the inode keeps its cluster. -/
def NothingTaken (fs : Fat32Fs) (d : Disk) (inode : FatInode) (l : List Nat) (offset : Nat)
    (data : List UInt8) : Prop :=
  inode.isDir = true ∨ writeStop offset data ≤ inode.size ∨
    (writeNeeds fs offset data ≤ l.length ∧ u32 (writeStop offset data) = inode.size) ∨
    (l.length < writeNeeds fs offset data ∧ (∀ c, ¬ Free fs d c) ∧
      (l ≠ [] ∨ inode.cluster = FAT32_EOC))

theorem Unchanged.refl (fs : Fat32Fs) (d : Disk) (inode : FatInode) :
    Unchanged fs d d inode inode :=
  ⟨fun _ _ => rfl, rfl, rfl, rfl⟩

/-- A cluster that was taken has another entry. -/
theorem Grown.changed {new : List Nat} {v' : Nat} (hs : Sane fs d) (h : Grown fs d d' v' l new)
    (hne : new ≠ []) {d'' : Disk} (hdev : d'.SameDevice d'')
    (hrest : ∀ s < fs.dataStart, d''.data s = d'.data s) :
    ¬ ∀ s < fs.dataStart, d''.data s = d.data s := by
  intro htable
  obtain ⟨c, hc⟩ := List.exists_mem_of_ne_nil new hne
  have hfree := h.free c hc
  have hs' := hs.of_sameDevice h.sameData.1
  have hback : fatNextCluster fs d'' c = fatNextCluster fs d c :=
    fatNextCluster_congr hs (h.sameData.1.trans hdev) htable hfree.1.2
  rw [fatNextCluster_congr hs' hdev hrest hfree.1.2, hfree.2] at hback
  exact h.chain.used c (List.mem_append_right l hc) hback

/-- A write that runs after the growth: it fails without a change if it got no new
cluster and no new size. -/
theorem unchanged_of_writeAt {new : List Nat} {d₁ : Disk} {v' : Nat} (hs : Sane fs d)
    (hgrown : Grown fs d d₁ v' l new) (hnone : new = [] → d₁ = d ∧ v' = inode.cluster)
    (hentry : ∀ c ∈ l, ¬ IsSectorOf fs c inode.dirSector)
    (hrun : writeAt fs d₁ v' size offset data = (r, d', inode'.cluster, inode'.size)) :
    Unchanged fs d d' inode inode' ↔ new = [] ∧ size = inode.size := by
  obtain ⟨r', d₂, hwrite, hdev, hout⟩ := writeAt_frame size offset data
    (hs.of_sameDevice hgrown.sameData.1) hgrown.chain
  rw [hwrite, Prod.mk.injEq, Prod.mk.injEq, Prod.mk.injEq] at hrun
  obtain ⟨-, rfl, hcluster, hsize⟩ := hrun
  have htable : ∀ s < fs.dataStart, d₂.data s = d₁.data s := by
    refine fun s hlt => hout s ?_
    rintro c hc ⟨k, -, rfl⟩
    have := dataStart_le_firstSector hs (hgrown.chain.inVolume c hc)
    omega
  constructor
  · intro h
    refine ⟨?_, hsize.trans h.size⟩
    by_contra hne
    exact hgrown.changed hs hne hdev htable h.table
  · rintro ⟨hnil, hsame⟩
    obtain ⟨rfl, rfl⟩ := hnone hnil
    rw [hnil, List.append_nil] at hout
    refine ⟨htable, ?_, hcluster.symm, hsize.symm.trans hsame⟩
    unfold slotAt
    rw [hout _ hentry]

theorem Grown.refl (h : Chain fs d v l) : Grown fs d d v l [] := by
  refine ⟨.refl fs d, by simp, ?_, fun _ _ _ => rfl⟩
  rwa [List.append_nil]

/-- Where the loop gave up: nothing has changed if it got no cluster and the file has
some. -/
theorem unchanged_of_fails {new : List Nat} {d₁ : Disk} {v' : Nat} (hs : Sane fs d)
    (hgrown : Grown fs d d₁ v' l new) (hnone : new = [] → d₁ = d ∧ v' = inode.cluster)
    (hcluster : inode'.cluster = if l ++ new = [] then FAT32_EOC else v')
    (hsize : inode'.size = inode.size) :
    Unchanged fs d d₁ inode inode' ↔ new = [] ∧ (l ≠ [] ∨ inode.cluster = FAT32_EOC) := by
  constructor
  · intro h
    have hnil : new = [] := by
      by_contra hne
      exact hgrown.changed hs hne (.refl d₁) (fun _ _ => rfl) h.table
    refine ⟨hnil, ?_⟩
    by_cases hl : l = []
    · rw [if_pos (by rw [hl, hnil]; rfl), h.cluster] at hcluster
      exact .inr hcluster
    · exact .inl hl
  · rintro ⟨hnil, hkept⟩
    obtain ⟨rfl, rfl⟩ := hnone hnil
    refine ⟨fun _ _ => rfl, rfl, ?_, hsize⟩
    rw [hnil, List.append_nil] at hcluster
    rw [hcluster]
    split
    next hl => exact (hkept.resolve_left (not_not.mpr hl)).symm
    · rfl

/-- The whole `fat32_write_file`. -/
theorem failedWriteFile_iff (hs : Sane fs d) (hl : Chain fs d inode.cluster l)
    (hstart : l = [] → inode.cluster = 0 ∨ FAT32_EOC ≤ inode.cluster)
    (hentry : ∀ c ∈ l, ¬ IsSectorOf fs c inode.dirSector)
    (hrun : fat32WriteFile fs d inode.cluster inode.size offset data =
      some (r, d', inode'.cluster, inode'.size)) (hneg : r < 0) :
    Unchanged fs d d' inode inode' ↔ writeStop offset data ≤ inode.size ∨
      (writeNeeds fs offset data ≤ l.length ∧ u32 (writeStop offset data) = inode.size) ∨
      (l.length < writeNeeds fs offset data ∧ (∀ c, ¬ Free fs d c) ∧
        (l ≠ [] ∨ inode.cluster = FAT32_EOC)) := by
  have hdata : data.length ≠ 0 := by
    intro hzero
    rw [fat32WriteFile, if_pos hzero, Option.some.injEq, Prod.mk.injEq] at hrun
    omega
  have hcard : (freeClusters fs d).card = 0 ↔ ∀ c, ¬ Free fs d c := by
    rw [Finset.card_eq_zero, Finset.eq_empty_iff_forall_notMem]
    exact forall_congr' fun c => not_congr mem_freeClusters
  rw [fat32WriteFile, if_neg hdata] at hrun
  simp only at hrun
  by_cases hgrow : inode.size < writeStop offset data
  · obtain ⟨d₁, v', new, hgrown, hnone, hlen, hloop⟩ :=
      extendLoop_cases (writeNeeds fs offset data - l.length) hs hl hstart
    have hnew : new = [] ↔
        min (writeNeeds fs offset data - l.length) (freeClusters fs d).card = 0 := by
      rw [← hlen, List.length_eq_zero_iff]
    rw [if_pos (show inode.size < u64 (offset + data.length) from hgrow),
      chainCount_spec hs hl] at hrun
    rw [writeNeeds, writeStop] at hloop
    simp only [hloop] at hrun
    by_cases henough : writeNeeds fs offset data - l.length ≤ (freeClusters fs d).card
    · rw [if_pos (show u64 (u64 (offset + data.length) + fs.clusterSize - 1) / fs.clusterSize -
        l.length ≤
        (freeClusters fs d).card from henough)] at hrun
      rw [unchanged_of_writeAt hs hgrown hnone hentry (Option.some.inj hrun), hnew, ← hcard]
      unfold writeStop at hgrow ⊢
      omega
    · rw [if_neg (show ¬ u64 (u64 (offset + data.length) + fs.clusterSize - 1) / fs.clusterSize -
        l.length ≤
        (freeClusters fs d).card from henough), Option.some.injEq, Prod.mk.injEq, Prod.mk.injEq,
        Prod.mk.injEq] at hrun
      obtain ⟨-, rfl, hcluster, hsize⟩ := hrun
      have hlack : l.length < writeNeeds fs offset data := by omega
      have hnone' : new = [] ↔ (freeClusters fs d).card = 0 := hnew.trans (by omega)
      rw [unchanged_of_fails hs hgrown hnone hcluster.symm hsize.symm, hnone', ← hcard]
      constructor
      · exact fun h => .inr (.inr ⟨hlack, h⟩)
      · rintro (hbehind | ⟨hroom, -⟩ | ⟨-, h⟩)
        · exact absurd hgrow (not_lt.mpr hbehind)
        · exact absurd hlack (not_lt.mpr hroom)
        · exact h
  · rw [if_neg (show ¬ inode.size < u64 (offset + data.length) from hgrow),
      Option.some.injEq] at hrun
    rw [unchanged_of_writeAt hs (.refl hl) (fun _ => ⟨rfl, rfl⟩) hentry hrun]
    exact iff_of_true ⟨rfl, rfl⟩ (.inl (not_lt.mp hgrow))

/-- **A failed write changes nothing** exactly if it has nothing to take back. -/
theorem failedWrite_unchanged_iff (hs : Sane fs d) (hl : Chain fs d inode.cluster l)
    (hstart : l = [] → inode.cluster = 0 ∨ FAT32_EOC ≤ inode.cluster)
    (hentry : ∀ c ∈ l, ¬ IsSectorOf fs c inode.dirSector)
    (hrun : fat32VfsWrite fs d inode offset data = some (r, d', inode')) (hneg : r < 0) :
    Unchanged fs d d' inode inode' ↔ NothingTaken fs d inode l offset data := by
  unfold fat32VfsWrite at hrun
  unfold NothingTaken
  by_cases hdir : inode.isDir = true
  · rw [if_pos hdir] at hrun
    obtain ⟨-, rfl, rfl⟩ := Option.some.inj hrun
    exact iff_of_true (.refl fs d inode) (.inl hdir)
  rw [if_neg hdir] at hrun
  cases hwrite : fat32WriteFile fs d inode.cluster inode.size offset data with
  | none =>
    rw [hwrite] at hrun
    cases hrun
  | some w =>
    obtain ⟨r', d₂, cluster, size⟩ := w
    rw [hwrite] at hrun
    simp only at hrun
    have hneg' : r' < 0 := by
      by_contra hge
      rw [if_neg hge, Option.some.injEq, Prod.mk.injEq] at hrun
      omega
    rw [if_pos hneg', Option.some.injEq, Prod.mk.injEq, Prod.mk.injEq] at hrun
    obtain ⟨rfl, rfl, rfl⟩ := hrun
    rw [failedWriteFile_iff hs hl hstart hentry hwrite hneg']
    exact (or_iff_right hdir).symm

/-! ## Too few clusters -/

/-- A directory with an empty file, and three free clusters of 512 bytes. -/
def emptyFileDisk : Disk := smallDisk (dentSlot (shortCandidate [97] 1) ATTR_ARCHIVE 0 0)

def emptyFile : FatInode :=
  { cluster := 0, size := 0, isDir := false, parentCluster := 2, dirSector := 2, dirOffset := 0,
    ino := 0,
    inodeSize := 0 }

theorem chain_emptyFile : Chain smallFs emptyFileDisk 0 [] := by
  refine ⟨⟨?_, by simp⟩, by simp⟩
  show ¬ IsLink 0
  decide

/-- One byte at 5120 needs eleven clusters. -/
theorem emptyFile_fails : ∃ d' inode', fat32VfsWrite smallFs emptyFileDisk emptyFile 5120 [65] =
    some (-1, d', inode') ∧ inode'.cluster = 3 := by
  have hrun : (fat32VfsWrite smallFs emptyFileDisk emptyFile 5120 [65]).map
      (fun x => (x.1, x.2.2.cluster)) = some (-1, 3) := by decide +kernel
  obtain ⟨⟨r, d', inode'⟩, hwrite, hret⟩ := Option.map_eq_some_iff.mp hrun
  obtain ⟨rfl, hcluster⟩ := Prod.mk.inj hret
  exact ⟨d', inode', hwrite, hcluster⟩

theorem failedWrite_unchanged_iff_emptyFile :
    ∃ d' inode', fat32VfsWrite smallFs emptyFileDisk emptyFile 5120 [65] = some (-1, d', inode') ∧
      (Unchanged smallFs emptyFileDisk d' emptyFile inode' ↔
        NothingTaken smallFs emptyFileDisk emptyFile [] 5120 [65]) := by
  obtain ⟨d', inode', hwrite, -⟩ := emptyFile_fails
  exact ⟨d', inode', hwrite, failedWrite_unchanged_iff (sane_smallDisk _) chain_emptyFile
    (fun _ => .inl rfl) (by simp) hwrite (by decide)⟩

/-- The write that fails has taken the three free clusters, and the inode starts with
cluster 3. -/
theorem emptyFile_changed :
    Sane smallFs emptyFileDisk ∧ ∃ d' inode',
      fat32VfsWrite smallFs emptyFileDisk emptyFile 5120 [65] = some (-1, d', inode') ∧
        ¬ Unchanged smallFs emptyFileDisk d' emptyFile inode' := by
  refine ⟨sane_smallDisk _, ?_⟩
  obtain ⟨d', inode', hwrite, hcluster⟩ := emptyFile_fails
  refine ⟨d', inode', hwrite, fun h => ?_⟩
  have hzero : inode'.cluster = 0 := h.cluster
  omega

end Lumin.Fs.Fat32
