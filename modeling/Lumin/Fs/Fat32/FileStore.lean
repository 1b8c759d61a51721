import Lumin.Fs.Fat32.OwnData
import Lumin.Fs.Fat32.Truncate
import Lumin.Lib.BlockStore
import Lumin.Lib.Simulation

/-!
# The files of a volume

Calls of `fat32_vfs_read`, `fat32_vfs_write` and `fat32_vfs_truncate` of `kernel/fs/fat32.c` on
any number of open files, in any order.  What a volume stores is a `BlockStore` with the clusters
as blocks: `storeOf` reads it off the device.

* `Volume` is the invariant: each inode has its own chain, and no two chains meet.
* `SparesOthers` is the frame of a call on one file, `Volume.update` and `Volume.storeOf_update`
  what it does to the others.
* `files_follow_store` is the result.
-/

namespace Lumin.Fs.Fat32

open Lumin.Lib Lumin.Block

/-! ## The calls -/

/-- `fat32_vfs_truncate`: the result, the device and the inode. -/
def fat32VfsTruncate (fs : Fat32Fs) (d : Disk) (inode : FatInode) (size : Nat) :
    Option (Int × Disk × FatInode) :=
  match fat32Truncate fs d inode.cluster inode.size size with
  | none => none
  | some (r, d, cluster, newSize) =>
    let cut := { inode with cluster := cluster, size := newSize }
    if r ≠ 0 then some (-1, d, cut)
    else
      let d := if cut.dirSector ≠ 0
          then (updateEntrySizeAt d cut.dirSector cut.dirOffset newSize).getD d else d
      some (0, d, { cut with inodeSize := newSize, ino := cluster })

section Calls

variable {ι : Type} [DecidableEq ι]

/-- A call on one of the open files. -/
def volumeCall (fs : Fat32Fs) (s : Disk × (ι → FatInode)) :
    ByteOp ι → Option ((Int × List UInt8) × Disk × (ι → FatInode))
  | .read i offset count => some (fat32VfsRead fs s.1 (s.2 i) offset count, s)
  | .write i offset data =>
    (fat32VfsWrite fs s.1 (s.2 i) offset data).map fun x =>
      ((x.1, []), x.2.1, Function.update s.2 i x.2.2)
  | .truncate i size =>
    (fat32VfsTruncate fs s.1 (s.2 i) size).map fun x =>
      ((x.1, []), x.2.1, Function.update s.2 i x.2.2)

/-- What the files with the chains `chains` hold. -/
def storeOf (fs : Fat32Fs) (d : Disk) (inodes : ι → FatInode) (chains : ι → List Nat) :
    BlockStore ι where
  content i := content fs d (chains i) (inodes i).size
  blocks i := (chains i).length
  spare := (freeClusters fs d).card

/-- The open files of a volume, each with its chain: no two have a cluster in common, and the
entries lie in the chains of directories, which are none of theirs. -/
structure Volume (fs : Fat32Fs) (d : Disk) (inodes : ι → FatInode) (chains : ι → List Nat) :
    Prop where
  own : ∀ i, OwnFile fs d (inodes i) (chains i)
  room : ∀ i, (inodes i).size ≤ (chains i).length * fs.clusterSize
  apart : ∀ i j, i ≠ j → (chains i).Disjoint (chains j)
  dirs : ∀ i, ∃ v m c, Chain fs d v m ∧ (∀ j, m.Disjoint (chains j)) ∧ c ∈ m ∧
    IsSectorOf fs c (inodes i).dirSector

end Calls

variable {fs : Fat32Fs} {d d' d₁ d'' : Disk} {inode inode' : FatInode} {l l' m new : List Nat}
  {data : List UInt8}
  {offset count sector size v n c : Nat} {r : Int}

/-! ## The frame of a call -/

/-- What a call on the file with the chain `l` leaves alone: the other chains, and their sectors
besides the one with the entry. -/
structure SparesOthers (fs : Fat32Fs) (d d' : Disk) (l : List Nat) (sector : Nat) : Prop where
  sameDevice : d.SameDevice d'
  others : ∀ v m, Chain fs d v m → m.Disjoint l →
    ∀ c ∈ m, fatNextCluster fs d' c = fatNextCluster fs d c ∧
    ∀ s, IsSectorOf fs c s → s ≠ sector → d'.data s = d.data s

theorem SparesOthers.refl (fs : Fat32Fs) (d : Disk) (l : List Nat) (sector : Nat) :
    SparesOthers fs d d l sector :=
  ⟨.refl d, fun _ _ _ _ _ _ => ⟨rfl, fun _ _ _ => rfl⟩⟩

/-- The entry is written after the file. -/
theorem SparesOthers.of_othersKept (hs : Sane fs d) (hdev : d.SameDevice d₁)
    (hkept : OthersKept fs d d₁ l)
    (he : EntryOnly d₁ d' sector) (hsector : fs.dataStart ≤ sector) :
    SparesOthers fs d d' l sector := by
  refine ⟨hdev.trans he.sameDevice, fun v m hm hapart c hc => ?_⟩
  obtain ⟨hnext, hdata⟩ := hkept v m hm hapart c hc
  have hin := hm.inVolume c hc
  constructor
  · rw [← hnext]
    refine fatNextCluster_congr (hs.of_sameDevice hdev) he.sameDevice
      (fun s hlt => he.sectors s (Or.inl ?_)) hin.2
    omega
  · intro s hs hne
    rw [he.sectors s (Or.inl hne), hdata s hs]

/-- What a call on a file does to the file and leaves to the others. -/
structure Stepped (fs : Fat32Fs) (d d' : Disk) (inode inode' : FatInode) (l l' : List Nat) :
    Prop where
  own : OwnFile fs d' inode' l'
  room : inode'.size ≤ l'.length * fs.clusterSize
  sector : inode'.dirSector = inode.dirSector
  taken : ∀ c ∈ l', c ∈ l ∨ Free fs d c
  spares : SparesOthers fs d d' l inode.dirSector

theorem SparesOthers.chain (h : SparesOthers fs d d' l sector) (hm : Chain fs d v m)
    (hapart : m.Disjoint l) : Chain fs d' v m :=
  hm.congr fun c hc => (h.others v m hm hapart c hc).1

/-- A chain keeps clear of the clusters that the file has taken. -/
theorem Stepped.apart (h : Stepped fs d d' inode inode' l l') (hm : Chain fs d v m)
    (hapart : m.Disjoint l) : m.Disjoint l' := by
  intro c hc hc'
  cases h.taken c hc' with
  | inl hold => exact hapart hc hold
  | inr hfree => exact hm.not_free hc hfree

/-- The content depends on its bytes. -/
theorem content_of_bytes (hspc : 0 < fs.sectorsPerCluster)
    (hroom : size ≤ l.length * fs.clusterSize)
    (hbytes : ∀ q < size, chainByte fs d' l q = chainByte fs d l q) :
    content fs d' l size = content fs d l size := by
  refine List.ext_getElem? fun q => ?_
  by_cases hq : q < size
  · rw [content_getElem? hspc hroom hq, content_getElem? hspc hroom hq, hbytes q hq]
  · rw [List.getElem?_eq_none (by rw [content_length hroom]; omega),
      List.getElem?_eq_none (by rw [content_length hroom]; omega)]

theorem content_congr (hsame : ∀ c ∈ l, ∀ s, IsSectorOf fs c s → d'.data s = d.data s)
    (hspc : 0 < fs.sectorsPerCluster)
    (hroom : size ≤ l.length * fs.clusterSize) : content fs d' l size = content fs d l size := by
  refine content_of_bytes hspc hroom fun q hq => ?_
  have hq' := hq.trans_le hroom
  rw [mul_clusterSize] at hq'
  have hmem := getD_mem (l := l) (show q / 512 < l.length * fs.sectorsPerCluster by omega)
  unfold chainByte chainSector
  rw [hsame _ hmem _ ⟨_, Nat.mod_lt _ hspc, rfl⟩]

section Volume

variable {ι : Type} {inodes : ι → FatInode} {chains : ι → List Nat} {i j : ι}

/-- The sector of an entry belongs to none of the files. -/
theorem Volume.sector_ne (h : Volume fs d inodes chains) (i : ι) {s : Nat} (hc : c ∈ chains j)
    (hs : IsSectorOf fs c s) : s ≠ (inodes i).dirSector := by
  obtain ⟨v, m, x, hm, hapart, hx, hsector⟩ := h.dirs i
  rintro rfl
  have hsame :=
    sector_unique (h.own i).sane ((h.own j).chain.inVolume c hc) (hm.inVolume x hx) hs hsector
  exact hapart j hx (hsame ▸ hc)

theorem Volume.dataStart_le (h : Volume fs d inodes chains) (i : ι) :
    fs.dataStart ≤ (inodes i).dirSector := by
  obtain ⟨v, m, c, hm, -, hc, k, -, hsector⟩ := h.dirs i
  have := dataStart_le_firstSector (h.own i).sane (hm.inVolume c hc)
  omega

/-- The content of a file is as long as its inode says. -/
theorem Volume.content_length (h : Volume fs d inodes chains) (i : ι) :
    ((storeOf fs d inodes chains).content i).length = (inodes i).size :=
      Fat32.content_length (h.room i)

variable [DecidableEq ι]

/-- The chains of the directories stay, and keep clear of the files. -/
theorem Volume.dirs_update (h : Volume fs d inodes chains)
    (hstep : Stepped fs d d' (inodes i) inode' (chains i) l') (j : ι) :
    ∃ v m c, Chain fs d' v m ∧ (∀ k, m.Disjoint (Function.update chains i l' k)) ∧ c ∈ m ∧
      IsSectorOf fs c (inodes j).dirSector := by
  obtain ⟨v, m, c, hm, hapart, hc, hsector⟩ := h.dirs j
  refine ⟨v, m, c, hstep.spares.chain hm (hapart i), fun k => ?_, hc, hsector⟩
  by_cases hk : k = i
  · rw [hk, Function.update_self]
    exact hstep.apart hm (hapart i)
  · rw [Function.update_of_ne hk]
    exact hapart k

/-- Another file is still a file. -/
theorem Volume.own_update (h : Volume fs d inodes chains)
    (hstep : Stepped fs d d' (inodes i) inode' (chains i) l') (hj : j ≠ i) :
    OwnFile fs d' (inodes j) (chains j) := by
  obtain ⟨v, m, c, hm, hapart, hc, hsector⟩ := h.dirs_update hstep j
  have hnot : c ∉ chains j := fun hmem => by
    have hd := hapart j
    rw [Function.update_of_ne hj] at hd
    exact hd hc hmem
  have hchain : Chain fs d' (inodes j).cluster (chains j) :=
    hstep.spares.chain (h.own j).chain (h.apart j i hj)
  exact ⟨hstep.own.sane, (h.own j).isFile, hchain, (h.own j).start, (h.own j).size_lt,
    Or.inr ⟨c, hm.inVolume c hc, hm.not_free hc, hnot, hsector⟩⟩

/-- A call on one file keeps the invariant. -/
theorem Volume.update (h : Volume fs d inodes chains)
    (hstep : Stepped fs d d' (inodes i) inode' (chains i) l') :
    Volume fs d' (Function.update inodes i inode') (Function.update chains i l') := by
  have hnew : ∀ j, j ≠ i → (chains j).Disjoint l' := fun j hj =>
    hstep.apart (h.own j).chain (h.apart j i hj)
  refine ⟨fun j => ?_, fun j => ?_, fun j k hjk => ?_, fun j => ?_⟩
  · by_cases hj : j = i
    · rw [hj, Function.update_self, Function.update_self]
      exact hstep.own
    · rw [Function.update_of_ne hj, Function.update_of_ne hj]
      exact h.own_update hstep hj
  · by_cases hj : j = i
    · rw [hj, Function.update_self, Function.update_self]
      exact hstep.room
    · rw [Function.update_of_ne hj, Function.update_of_ne hj]
      exact h.room j
  · by_cases hj : j = i
    · have hk : k ≠ i := fun hk => hjk (hj.trans hk.symm)
      rw [hj, Function.update_self, Function.update_of_ne hk]
      exact (hnew k hk).symm
    · rw [Function.update_of_ne hj]
      by_cases hk : k = i
      · rw [hk, Function.update_self]
        exact hnew j hj
      · rw [Function.update_of_ne hk]
        exact h.apart j k hjk
  · by_cases hj : j = i
    · rw [hj, Function.update_self, hstep.sector]
      exact h.dirs_update hstep i
    · rw [Function.update_of_ne hj]
      exact h.dirs_update hstep j

/-- A call on one file leaves what the others hold. -/
theorem Volume.storeOf_update (h : Volume fs d inodes chains)
    (hstep : Stepped fs d d' (inodes i) inode' (chains i) l') :
    storeOf fs d' (Function.update inodes i inode') (Function.update chains i l') =
      (storeOf fs d inodes chains).set i (content fs d' l' inode'.size) l'.length
        (freeClusters fs d').card := by
  refine BlockStore.ext ?_ ?_ rfl
  · funext j
    show content fs d' (Function.update chains i l' j) (Function.update inodes i inode' j).size =
      Function.update (fun j => content fs d (chains j) (inodes j).size) i
        (content fs d' l' inode'.size) j
    by_cases hj : j = i
    · rw [hj, Function.update_self, Function.update_self, Function.update_self]
    · rw [Function.update_of_ne hj, Function.update_of_ne hj, Function.update_of_ne hj]
      refine content_congr (fun c hc s hs => ?_) (h.own j).sane.spc_pos (h.room j)
      exact (hstep.spares.others _ _ (h.own j).chain (h.apart j i hj) c hc).2 s hs
        (h.sector_ne i hc hs)
  · funext j
    show (Function.update chains i l' j).length =
        Function.update (fun j => (chains j).length) i l'.length j
    by_cases hj : j = i
    · rw [hj, Function.update_self, Function.update_self]
    · rw [Function.update_of_ne hj, Function.update_of_ne hj]

end Volume

/-! ## A write -/

/-- What a write needs and does where it begins inside of the file and ends below 4 GiB. -/
structure Plain (fs : Fat32Fs) (e : Extent) (offset : Nat) (data : List UInt8) : Prop where
  start : writeStart fs offset = offset
  stop : writeStop offset data = offset + data.length
  clusters : e.clustersAfter fs offset data =
    min (max e.clusters (blocksFor fs.clusterSize (offset + data.length))) (e.clusters + e.free)
  granted : e.Granted fs offset data ↔
    max e.clusters (blocksFor fs.clusterSize (offset + data.length)) ≤ e.clusters + e.free

theorem Extent.isPlain {e : Extent} (hs : Sane fs d)
    (hroom : e.size ≤ e.clusters * fs.clusterSize)
    (hsize : e.size < 2 ^ 32) (hoff : offset ≤ e.size) (hend : offset + data.length < 2 ^ 32) :
    Plain fs e offset data := by
  have hcs := clusterSize_pos hs
  have hle : fs.clusterSize ≤ 512 * 128 := Nat.mul_le_mul_left _ hs.spc_le
  have hstop : writeStop offset data = offset + data.length := u64_of_lt (by omega)
  have hneeds : writeNeeds fs offset data = blocksFor fs.clusterSize (offset + data.length) := by
    unfold writeNeeds
    rw [hstop, u64_of_lt (by omega)]
    rfl
  have hcount : writeClusterCount fs e.clusters e.size offset data =
      max e.clusters (blocksFor fs.clusterSize (offset + data.length)) := by
    unfold writeClusterCount
    rw [hstop, hneeds]
    split
    · rfl
    next hkeeps =>
      refine (max_eq_left ?_).symm
      exact (blocksFor_le_iff hcs).mpr ((not_lt.mp hkeeps).trans hroom)
  refine ⟨?_, hstop, ?_, ?_⟩
  · unfold writeStart
    rw [u32_of_lt ((Nat.div_le_self _ _).trans_lt (by omega)), Nat.mul_comm, Nat.div_add_mod]
  · unfold Extent.clustersAfter
    rw [hcount]
  · unfold Extent.Granted
    rw [hcount]

/-- `fat32_vfs_write` is `fat32_write_file` and the write-back. -/
theorem OwnFile.write_parts (h : OwnFile fs d inode l) (offset : Nat) (hdata : data.length ≠ 0) :
    ∃ d₁ cluster new,
      FileAfter fs d d₁ l new cluster offset
        (data.take ((extentOf fs d inode l).stored fs offset data)) ∧
      fat32VfsWrite fs d inode offset data =
        if (extentOf fs d inode l).result fs offset data < 0 then
          some ((extentOf fs d inode l).result fs offset data, d₁,
            { inode with cluster := cluster,
                         size := ((extentOf fs d inode l).after fs offset data).size })
        else
          some ((extentOf fs d inode l).result fs offset data,
            writeBack d₁
              { inode with cluster := cluster,
                           size := ((extentOf fs d inode l).after fs offset data).size,
                                      inodeSize :=
                                        ((extentOf fs d inode l).after fs offset data).size }
                                        inode.size) := by
  obtain ⟨d₁, cluster, new, hrun, hafter, -⟩ :=
    fat32WriteFile_after (extentOf fs d inode l) offset h.sane h.chain h.start hdata rfl rfl
  refine ⟨d₁, cluster, new, hafter, ?_⟩
  have hsize : (extentOf fs d inode l).size = inode.size := rfl
  rw [hsize] at hrun
  rw [fat32VfsWrite, if_neg (Bool.eq_false_iff.mp h.isFile), hrun]

/-- A write takes only free clusters, and spares the other chains. -/
theorem OwnFile.write_frame (h : OwnFile fs d inode l) (hsector : fs.dataStart ≤ inode.dirSector)
    (hdata : data.length ≠ 0) (hrun : fat32VfsWrite fs d inode offset data = some (r, d', inode'))
    (hown : OwnFile fs d' inode' (l ++ new)) :
    inode'.dirSector = inode.dirSector ∧ (∀ c ∈ new, Free fs d c) ∧
      SparesOthers fs d d' l inode.dirSector := by
  obtain ⟨d₁, cluster, new₁, hafter, hwrite⟩ := h.write_parts offset hdata
  obtain ⟨d₀, v, hgrown, hstored⟩ := hafter.grown
  have hkept := othersKept_of_stored h.sane hgrown hstored
  have hdev := hafter.sameDevice
  have hsame : EntryOnly d₁ d' inode.dirSector ∧ inode'.dirSector = inode.dirSector ∧
      inode'.cluster = cluster := by
    rw [hrun] at hwrite
    split at hwrite
    · obtain ⟨-, rfl, rfl⟩ := Option.some.inj hwrite
      exact ⟨.refl _ _, rfl, rfl⟩
    · obtain ⟨-, hback⟩ := Prod.mk.inj (Option.some.inj hwrite)
      obtain ⟨hentry, ino, hinode⟩ := writeBack_frame d₁
        { inode with cluster := cluster,
                     size := ((extentOf fs d inode l).after fs offset data).size,
                     inodeSize := ((extentOf fs d inode l).after fs offset data).size } inode.size
      rw [← hback] at hentry hinode
      dsimp only at hinode
      rw [hinode]
      exact ⟨hentry, rfl, rfl⟩
  obtain ⟨hentry, hplace, hcluster⟩ := hsame
  have hspares := SparesOthers.of_othersKept h.sane hdev hkept hentry hsector
  refine ⟨hplace, ?_, hspares⟩
  -- The clusters of the inode are the ones that the file has got.
  have hchain : Chain fs d' cluster (l ++ new₁) := hafter.chain.congr fun c hc => by
    refine fatNextCluster_congr (h.sane.of_sameDevice hdev) hentry.sameDevice
      (fun s hlt => hentry.sectors s (Or.inl ?_))
      (hafter.chain.inVolume c hc).2
    omega
  have heq := (hcluster ▸ hown.chain).linked.unique hchain.linked
  rw [List.append_cancel_left heq]
  exact hafter.taken

/-- A write that gets its clusters. -/
theorem Plain.of_granted {e : Extent} (h : Plain fs e offset data) (hcs : 0 < fs.clusterSize)
    (hg : max e.clusters (blocksFor fs.clusterSize (offset + data.length)) ≤ e.clusters + e.free)
    (hend : offset + data.length < 2 ^ 32) (hlen : data.length < 2 ^ 31) :
    e.stored fs offset data = data.length ∧ e.result fs offset data = data.length ∧
      (e.after fs offset data).size = max e.size (offset + data.length) ∧
      (e.after fs offset data).clusters =
        max e.clusters (blocksFor fs.clusterSize (offset + data.length)) ∧
      offset + data.length ≤ (e.after fs offset data).clusters * fs.clusterSize := by
  have hgranted := h.granted.mpr hg
  have hclusters : e.clustersAfter fs offset data =
      max e.clusters (blocksFor fs.clusterSize (offset + data.length)) := by
    rw [h.clusters, min_eq_left hg]
  have hfits : offset + data.length ≤ e.clustersAfter fs offset data * fs.clusterSize := by
    rw [hclusters]
    exact (blocksFor_le_iff hcs).mp (le_max_right _ _)
  have hstored : e.stored fs offset data = data.length := by
    rw [Extent.stored_of_granted hgranted, h.start]
    omega
  refine ⟨hstored, ?_, ?_, hclusters, hfits⟩
  · have hindex : u32 (offset / fs.clusterSize) ≤ e.clustersAfter fs offset data := by
      refine (Nat.mod_le _ _).trans ?_
      exact Nat.div_le_of_le_mul (by rw [Nat.mul_comm]; omega)
    unfold Extent.result
    rw [if_pos ⟨hgranted, hindex⟩, hstored, s32_of_lt hlen]
  · by_cases hgrow : e.size < writeStop offset data
    · rw [Extent.size_of_grows hgranted hgrow]
      rw [h.stop] at hgrow ⊢
      rw [u32_of_lt hend, max_eq_right hgrow.le]
    · rw [Extent.size_of_keeps hgrow]
      rw [h.stop] at hgrow
      rw [max_eq_left (not_lt.mp hgrow)]

/-- **What a write does**: it overwrites the content, or there are too few clusters. -/
theorem OwnFile.write_stepped (h : OwnFile fs d inode l)
    (hroom : inode.size ≤ l.length * fs.clusterSize)
    (hsector : fs.dataStart ≤ inode.dirSector) (hdata : data ≠ []) (hoff : offset ≤ inode.size)
    (hend : offset + data.length < 2 ^ 32) (hlen : data.length < 2 ^ 31) :
    ∃ d' inode' l', Stepped fs d d' inode inode' l l' ∧
      if max l.length (blocksFor fs.clusterSize (offset + data.length)) ≤
        l.length + (freeClusters fs d).card then
        fat32VfsWrite fs d inode offset data = some ((data.length : Int), d', inode') ∧
          content fs d' l' inode'.size = overwrite (content fs d l inode.size) offset data ∧
          l'.length = max l.length (blocksFor fs.clusterSize (offset + data.length)) ∧
          (freeClusters fs d').card =
            l.length + (freeClusters fs d).card - max l.length
              (blocksFor fs.clusterSize (offset + data.length))
      else
        fat32VfsWrite fs d inode offset data = some (-1, d', inode') ∧
          content fs d' l' inode'.size = content fs d l inode.size ∧
          l'.length = l.length + (freeClusters fs d).card ∧ (freeClusters fs d').card = 0 := by
  have hne : data.length ≠ 0 := fun hzero => hdata (List.eq_nil_of_length_eq_zero hzero)
  have hspc := h.sane.spc_pos
  have hplain : Plain fs (extentOf fs d inode l) offset data :=
    Extent.isPlain h.sane hroom h.size_lt hoff hend
  obtain ⟨d', inode', new, hrun, hown, hextent, hbytes⟩ := h.write offset hne
  obtain ⟨hplace, htaken, hspares⟩ := h.write_frame hsector hne hrun hown
  have htaken' : ∀ c ∈ l ++ new, c ∈ l ∨ Free fs d c := fun c hc =>
    (List.mem_append.mp hc).imp_right (htaken c)
  have hsize : inode'.size = ((extentOf fs d inode l).after fs offset data).size :=
    congrArg Extent.size hextent
  have hclusters : (l ++ new).length = ((extentOf fs d inode l).after fs offset data).clusters :=
    congrArg Extent.clusters hextent
  have hfree : (freeClusters fs d').card = ((extentOf fs d inode l).after fs offset data).free :=
    congrArg Extent.free hextent
  have hlonger : l.length * fs.clusterSize ≤ (l ++ new).length * fs.clusterSize :=
    Nat.mul_le_mul_right _ (List.length_append ▸ Nat.le_add_right _ _)
  have hold : ∀ q < inode.size, chainByte fs d (l ++ new) q = chainByte fs d l q := fun q hq =>
    chainByte_append d new (hq.trans_le hroom)
  by_cases hg : max l.length (blocksFor fs.clusterSize (offset + data.length)) ≤
      l.length + (freeClusters fs d).card
  · obtain ⟨hstored, hresult, hafter, hcount, hfits⟩ :=
      hplain.of_granted (clusterSize_pos h.sane) hg hend hlen
    rw [hstored, hplain.start] at hbytes
    rw [← hclusters] at hfits
    have hmax : inode'.size = max inode.size (offset + data.length) := hsize.trans hafter
    have hroom' : inode'.size ≤ (l ++ new).length * fs.clusterSize := by
      rw [hmax]
      exact max_le (hroom.trans hlonger) hfits
    refine ⟨d', inode', l ++ new, ⟨hown, hroom', hplace, htaken', hspares⟩, ?_⟩
    rw [if_pos hg]
    refine ⟨by rw [hrun, hresult], ?_, hclusters.trans hcount, ?_⟩
    · rw [hmax] at hroom' ⊢
      refine content_eq_splice hspc hroom hoff hroom' fun q hq => ?_
      rw [hbytes q (hq.trans_le hroom')]
      split
      · rfl
      next hout => exact hold q (by omega)
    · have hcount' : (extentOf fs d inode l).clustersAfter fs offset data =
        max l.length (blocksFor fs.clusterSize (offset + data.length)) := hcount
      rw [hfree]
      show l.length + (freeClusters fs d).card -
          (extentOf fs d inode l).clustersAfter fs offset data = _
      rw [hcount']
  · have hrefused : ¬ (extentOf fs d inode l).Granted fs offset data :=
      fun h => hg (hplain.granted.mp h)
    have hcount :
        (extentOf fs d inode l).clustersAfter fs offset data =
        l.length + (freeClusters fs d).card := by
      rw [hplain.clusters]
      exact min_eq_right (not_le.mp hg).le
    have hkeep : inode'.size = inode.size := hsize.trans (Extent.size_of_refused hrefused)
    have hroom' : inode'.size ≤ (l ++ new).length * fs.clusterSize := hkeep ▸ hroom.trans hlonger
    refine ⟨d', inode', l ++ new, ⟨hown, hroom', hplace, htaken', hspares⟩, ?_⟩
    rw [if_neg hg]
    refine ⟨by rw [hrun, Extent.result_of_refused hrefused], ?_, hclusters.trans hcount, ?_⟩
    · rw [hkeep] at hroom' ⊢
      refine List.ext_getElem? fun q => ?_
      by_cases hq : q < inode.size
      · rw [content_getElem? hspc hroom' hq, content_getElem? hspc hroom hq,
          hbytes q (hq.trans_le hroom'),
          Extent.stored, if_neg hrefused, if_neg (by omega), hold q hq]
      · rw [List.getElem?_eq_none (by rw [content_length hroom']; omega),
          List.getElem?_eq_none (by rw [content_length hroom]; omega)]
    · rw [hfree]
      show l.length + (freeClusters fs d).card -
          (extentOf fs d inode l).clustersAfter fs offset data = 0
      rw [hcount, Nat.sub_self]

/-- An empty write at most brings the entry up to date. -/
theorem OwnFile.write_nil_stepped (h : OwnFile fs d inode l)
    (hroom : inode.size ≤ l.length * fs.clusterSize)
    (hsector : fs.dataStart ≤ inode.dirSector) (offset : Nat) :
    ∃ d' inode', fat32VfsWrite fs d inode offset [] = some (0, d', inode') ∧
        Stepped fs d d' inode inode' l l ∧
      content fs d' l inode'.size = content fs d l inode.size ∧
      (freeClusters fs d').card = (freeClusters fs d).card := by
  obtain ⟨hentry, ino, hinode⟩ :=
    writeBack_frame d { inode with inodeSize := inode.size } inode.size
  have hown : OwnFile fs d { inode with inodeSize := inode.size } l := h.of_inode rfl rfl rfl rfl
  obtain ⟨htable, hbytes⟩ := hown.entryOnly hentry
  refine ⟨_, (writeBack d { inode with inodeSize := inode.size } inode.size).2, ?_, ?_, ?_,
    by rw [freeClusters_congr htable]⟩
  · rw [fat32VfsWrite, if_neg (Bool.eq_false_iff.mp h.isFile), fat32WriteFile,
      if_pos List.length_nil]
    rfl
  · rw [hinode]
    exact ⟨(hown.settle hentry).of_inode rfl rfl rfl rfl, hroom, rfl, fun c hc => Or.inl hc,
      SparesOthers.of_othersKept h.sane (.refl d) (fun _ _ _ _ _ _ => ⟨rfl, fun _ _ => rfl⟩)
        hentry hsector⟩
  · rw [hinode]
    exact content_of_bytes h.sane.spc_pos hroom fun q hq => hbytes q (hq.trans_le hroom)

/-! ## A truncation -/

/-- The clusters behind the first `keep` of a chain have become free. -/
structure Shrunk (fs : Fat32Fs) (d d' : Disk) (l : List Nat) (keep : Nat) : Prop where
  sameData : SameData fs d d'
  freed : ∀ c ∈ l.drop keep, Free fs d' c
  used : ∀ c ∈ l.take keep, ¬ Free fs d' c
  others : ∀ c < fs.totalClusters + 2, c ∉ l → fatNextCluster fs d' c = fatNextCluster fs d c

theorem Cut.shrunk {keep : Nat} (h : Cut fs d d' v l keep) : Shrunk fs d d' l keep :=
  ⟨h.sameData, h.freed, fun _ hc => h.chain.not_free hc, fun c hc hnot =>
    h.others c hc (fun hmem => hnot (List.mem_of_mem_drop hmem))
      fun hmem => hnot (List.mem_of_mem_take (List.mem_of_getLast? hmem))⟩

theorem Freed.shrunk (h : Freed fs d d' l) (hl : ∀ c ∈ l, InVolume fs c) : Shrunk fs d d' l 0 :=
  ⟨h.sameData, fun c hc => ⟨hl c hc, h.freed c hc⟩, fun _ hc => absurd hc List.not_mem_nil,
    h.others⟩

theorem Shrunk.othersKept {keep : Nat} (h : Shrunk fs d d' l keep) (hs : Sane fs d) :
    OthersKept fs d d' l := by
  intro v m hm hapart c hc
  have hin := hm.inVolume c hc
  refine ⟨h.others c hin.2 fun hmem => hapart hc hmem, ?_⟩
  rintro s ⟨k, -, rfl⟩
  have := dataStart_le_firstSector hs hin
  exact h.sameData.2 _ (by omega)

theorem Shrunk.card {keep : Nat} (h : Shrunk fs d d' l keep) (hl : Chain fs d v l) :
    (freeClusters fs d').card = (freeClusters fs d).card + (l.length - keep) := by
  have hapart : Disjoint (freeClusters fs d) (l.drop keep).toFinset := by
    rw [Finset.disjoint_left]
    intro x hx hmem
    exact hl.not_free (List.mem_of_mem_drop (List.mem_toFinset.mp hmem)) (mem_freeClusters.mp hx)
  have hunion : freeClusters fs d' = freeClusters fs d ∪ (l.drop keep).toFinset := by
    ext x
    rw [Finset.mem_union, mem_freeClusters, mem_freeClusters, List.mem_toFinset]
    by_cases hx : x ∈ l
    · rw [← List.take_append_drop keep l, List.mem_append] at hx
      cases hx with
      | inl htake =>
        have hnodup := hl.linked.nodup
        rw [← List.take_append_drop keep l, List.nodup_append] at hnodup
        refine iff_of_false (h.used x htake) fun hor => ?_
        cases hor with
        | inl hfree => exact hl.not_free (List.mem_of_mem_take htake) hfree
        | inr hdrop => exact hnodup.2.2 x htake x hdrop rfl
      | inr hdrop => exact iff_of_true (h.freed x hdrop) (Or.inr hdrop)
    · have hdrop : x ∉ l.drop keep := fun hmem => hx (List.mem_of_mem_drop hmem)
      rw [or_iff_left hdrop]
      refine and_congr_right fun hin => ?_
      rw [h.others x hin.2 hx]
  have hnodup : (l.drop keep).Nodup := hl.linked.nodup.sublist (List.drop_sublist keep l)
  rw [hunion, Finset.card_union_of_disjoint hapart, List.toFinset_card_of_nodup hnodup,
    List.length_drop]

/-- The end of `fat32_vfs_truncate`. -/
theorem fat32VfsTruncate_eq {newSize cluster : Nat}
    (hrun : fat32Truncate fs d inode.cluster inode.size newSize =
    some (0, d₁, cluster, n)) :
    ∃ d', fat32VfsTruncate fs d inode newSize =
        some (0, d', { inode with cluster := cluster, size := n, inodeSize := n, ino := cluster })
          ∧
      EntryOnly d₁ d' inode.dirSector := by
  unfold fat32VfsTruncate
  rw [hrun]
  refine ⟨_, rfl, ?_⟩
  dsimp only
  split
  next hsector => exact entryOnly_update hsector fun x hx => updateEntrySizeAt_write hx
  · exact .refl _ _

/-- A chain that has lost clusters is a file again. -/
theorem OwnFile.shrunk {keep cluster : Nat} (h : OwnFile fs d inode l)
    (hshrunk : Shrunk fs d d₁ l keep)
    (hchain : Chain fs d₁ cluster (l.take keep)) (hstart : l.take keep = [] → cluster = 0)
    (hsize : n < 2 ^ 32) :
    OwnFile fs d₁ { inode with cluster := cluster, size := n } (l.take keep) where
  sane := h.sane.of_sameDevice hshrunk.sameData.1
  isFile := h.isFile
  chain := hchain
  start hnil := Or.inl (hstart hnil)
  size_lt := hsize
  entry := by
    refine h.entry.imp_right fun hentry => ?_
    obtain ⟨x, hx, hused, hnot, hsector⟩ := hentry
    refine ⟨x, hx, fun hfree => hused ⟨hx, ?_⟩, fun hmem => hnot (List.mem_of_mem_take hmem),
      hsector⟩
    rw [← hshrunk.others x hx.2 hnot]
    exact hfree.2

/-- What `fat32_truncate` does, before the entry is written. -/
theorem OwnFile.truncate_file {newSize : Nat} (h : OwnFile fs d inode l)
    (hroom : inode.size ≤ l.length * fs.clusterSize)
    (hless : newSize < inode.size) :
    ∃ d₁ cluster, fat32Truncate fs d inode.cluster inode.size newSize =
        some (0, d₁, cluster, newSize) ∧
      (cluster = if newSize = 0 then 0 else inode.cluster) ∧
      Shrunk fs d d₁ l (blocksFor fs.clusterSize newSize) ∧
      OwnFile fs d₁ { inode with cluster := cluster, size := newSize }
        (l.take (blocksFor fs.clusterSize newSize)) ∧
      (l.take (blocksFor fs.clusterSize newSize)).length = blocksFor fs.clusterSize newSize ∧
      content fs d₁ (l.take (blocksFor fs.clusterSize newSize)) newSize =
        (content fs d l inode.size).take newSize := by
  have hcs := clusterSize_pos h.sane
  by_cases hzero : newSize = 0
  · obtain ⟨d₁, hfree, hfreed⟩ := fatFreeChain_spec h.sane h.chain
    have hkeep : blocksFor fs.clusterSize newSize = 0 := by
      rw [hzero]
      exact Nat.div_eq_of_lt (by omega)
    have hshrunk : Shrunk fs d d₁ l 0 := hfreed.shrunk h.chain.inVolume
    have hchain : Chain fs d₁ 0 (l.take 0) :=
      ⟨⟨show ¬ IsLink 0 by decide, fun c hc => absurd hc List.not_mem_nil⟩,
        fun c hc => absurd hc List.not_mem_nil⟩
    rw [hkeep, if_pos hzero]
    refine ⟨d₁, 0, ?_, rfl, hshrunk, h.shrunk hshrunk hchain (fun _ => rfl) (by omega), rfl, ?_⟩
    · rw [fat32Truncate, if_neg (not_le.mpr hless), if_pos hzero, hfree, hzero]
    · rw [hzero]
      rfl
  · obtain ⟨d₁, hrun, hcut, hlength, hcontent⟩ :=
      fat32Truncate_spec h.sane h.chain hroom h.size_lt (Nat.pos_of_ne_zero hzero) hless
    have hne : blocksFor fs.clusterSize newSize ≠ 0 := fun hkeep => by
      have hle := (blocksFor_le_iff hcs).mp hkeep.le
      omega
    have hstart : l.take (blocksFor fs.clusterSize newSize) ≠ [] := fun hnil => by
      have hlen : (l.take (blocksFor fs.clusterSize newSize)).length =
          blocksFor fs.clusterSize newSize := hlength
      rw [hnil] at hlen
      exact hne hlen.symm
    rw [if_neg hzero]
    exact ⟨d₁, inode.cluster, hrun, rfl, hcut.shrunk,
      h.shrunk hcut.shrunk hcut.chain (fun hnil => absurd hnil hstart) (hless.trans h.size_lt),
        hlength, hcontent⟩

/-- **What a truncation does**: it cuts the content, and the clusters behind it are free. -/
theorem OwnFile.truncate_stepped (h : OwnFile fs d inode l)
    (hroom : inode.size ≤ l.length * fs.clusterSize)
    (hsector : fs.dataStart ≤ inode.dirSector) (newSize : Nat) :
    ∃ d' inode' l', fat32VfsTruncate fs d inode newSize = some (0, d', inode') ∧
        Stepped fs d d' inode inode' l l' ∧
      if inode.size ≤ newSize then
        content fs d' l' inode'.size = content fs d l inode.size ∧ l'.length = l.length ∧
          (freeClusters fs d').card = (freeClusters fs d).card
      else
        content fs d' l' inode'.size = (content fs d l inode.size).take newSize ∧
          l'.length = blocksFor fs.clusterSize newSize ∧
          (freeClusters fs d').card = (freeClusters fs d).card +
            (l.length - blocksFor fs.clusterSize newSize) := by
  have hspc := h.sane.spc_pos
  by_cases hle : inode.size ≤ newSize
  · have hrun : fat32Truncate fs d inode.cluster inode.size newSize =
        some (0, d, inode.cluster, inode.size) := if_pos hle
    obtain ⟨d', hcall, hentry⟩ := fat32VfsTruncate_eq hrun
    obtain ⟨htable, hbytes⟩ := h.entryOnly hentry
    have hspares : SparesOthers fs d d' l inode.dirSector :=
      SparesOthers.of_othersKept h.sane (.refl d) (fun _ _ _ _ _ _ => ⟨rfl, fun _ _ => rfl⟩)
        hentry hsector
    refine ⟨d', _, l, hcall,
      ⟨(h.settle hentry).of_inode rfl rfl rfl rfl, hroom, rfl, fun c hc => Or.inl hc, hspares⟩,
        ?_⟩
    rw [if_pos hle, freeClusters_congr htable]
    exact ⟨content_of_bytes hspc hroom fun q hq => hbytes q (hq.trans_le hroom), rfl, rfl⟩
  · obtain ⟨d₁, cluster, hrun, -, hshrunk, hown, hlength, hcontent⟩ :=
      h.truncate_file hroom (not_le.mp hle)
    obtain ⟨d', hcall, hentry⟩ := fat32VfsTruncate_eq hrun
    obtain ⟨htable, hbytes⟩ := hown.entryOnly hentry
    have hroom' :
        newSize ≤ (l.take (blocksFor fs.clusterSize newSize)).length * fs.clusterSize := by
      rw [hlength]
      exact (blocksFor_le_iff (clusterSize_pos h.sane)).mp le_rfl
    have hspares : SparesOthers fs d d' l inode.dirSector :=
      SparesOthers.of_othersKept h.sane hshrunk.sameData.1
        (hshrunk.othersKept h.sane) hentry hsector
    refine ⟨d', _, _, hcall, ⟨(hown.settle hentry).of_inode rfl rfl rfl rfl, hroom', rfl,
      fun c hc => Or.inl (List.mem_of_mem_take hc), hspares⟩, ?_⟩
    rw [if_neg hle, freeClusters_congr htable, hshrunk.card h.chain, ← hcontent]
    exact ⟨content_of_bytes hspc hroom' fun q hq => hbytes q (hq.trans_le hroom'), hlength, rfl⟩

/-! ## Runs -/

section Runs

variable {ι : Type} [DecidableEq ι] {inodes : ι → FatInode} {chains : ι → List Nat}
  {s : BlockStore ι}

/-- The open files of the volume hold what is in the store. -/
def HoldsStore (fs : Fat32Fs) (s : BlockStore ι) (v : Disk × (ι → FatInode)) : Prop :=
  ∃ chains, Volume fs v.1 v.2 chains ∧ storeOf fs v.1 v.2 chains = s

/-- The guard: what a call may be in a state of the store. -/
def Fitting (s : BlockStore ι) (o : ByteOp ι) : Prop := o.Fits fun i => (s.content i).length

instance (s : BlockStore ι) : DecidablePred (Fitting s) := fun o =>
  inferInstanceAs (Decidable (o.Fits fun i => (s.content i).length))

/-- A call on a file sets its array, to what the file is left with. -/
theorem HoldsStore.set {i : ι} {bytes : List UInt8} {blocks spare : Nat}
    (h : Volume fs d inodes chains)
    (hstep : Stepped fs d d' (inodes i) inode' (chains i) l')
    (hcontent : content fs d' l' inode'.size = bytes)
    (hlength : l'.length = blocks) (hspare : (freeClusters fs d').card = spare) :
    HoldsStore fs ((storeOf fs d inodes chains).set i bytes blocks spare)
      (d', Function.update inodes i inode') := by
  have hstore := h.storeOf_update hstep
  rw [hcontent, hlength, hspare] at hstore
  exact ⟨_, h.update hstep, hstore⟩

theorem Volume.read {i : ι} (h : Volume fs d inodes chains) (hwrap : offset + count < 2 ^ 64)
    (hcount : count < 2 ^ 31) :
    volumeCall fs (d, inodes) (.read i offset count) =
      some (((storeOf fs d inodes chains).call fs.clusterSize (.read i offset count)).1, d,
        inodes) := by
  have hread :=
    fat32ReadFile_slice ((h.own i).chain.readableFile (h.own i).sane) (h.room i)
    (h.own i).size_lt hwrap
    ((min_le_left count ((inodes i).size - offset)).trans_lt hcount)
  have hlength : ((((storeOf fs d inodes chains).content i).drop offset).take count).length =
      min count ((inodes i).size - offset) := by
    rw [List.length_take, List.length_drop, h.content_length]
  rw [volumeCall, fat32VfsRead, if_neg (Bool.eq_false_iff.mp (h.own i).isFile), hread, call_read,
    hlength]
  rfl

theorem Volume.write {i : ι} (h : Volume fs d inodes chains) (hoff : offset ≤ (inodes i).size)
    (hend : offset + data.length < 2 ^ 32) (hcount : data.length < 2 ^ 31) :
    ∃ v', volumeCall fs (d, inodes) (.write i offset data) =
        some (((storeOf fs d inodes chains).call fs.clusterSize (.write i offset data)).1, v') ∧
      HoldsStore fs ((storeOf fs d inodes chains).call fs.clusterSize (.write i offset data)).2
        v' := by
  by_cases hnil : data = []
  · obtain ⟨d', inode', hrun, hstep, hcontent, hfree⟩ :=
      (h.own i).write_nil_stepped (h.room i) (h.dataStart_le i) offset
    rw [hnil, volumeCall, hrun, call_write_nil]
    exact ⟨_, rfl,
      (storeOf fs d inodes chains).set_self i ▸ HoldsStore.set h hstep hcontent rfl hfree⟩
  · obtain ⟨d', inode', l', hstep, hresult⟩ :=
      (h.own i).write_stepped (h.room i) (h.dataStart_le i) hnil hoff hend hcount
    by_cases hg : max (chains i).length (blocksFor fs.clusterSize (offset + data.length)) ≤
        (chains i).length + (freeClusters fs d).card
    · rw [if_pos hg] at hresult
      obtain ⟨hrun, hcontent, hlength, hfree⟩ := hresult
      rw [volumeCall, hrun, call_write_granted hnil hg]
      exact ⟨_, rfl, HoldsStore.set h hstep hcontent hlength hfree⟩
    · rw [if_neg hg] at hresult
      obtain ⟨hrun, hcontent, hlength, hfree⟩ := hresult
      rw [volumeCall, hrun, call_write_refused hnil hg]
      exact ⟨_, rfl, HoldsStore.set h hstep hcontent hlength hfree⟩

theorem Volume.truncate {i : ι} (h : Volume fs d inodes chains) (size : Nat) :
    ∃ v', volumeCall fs (d, inodes) (.truncate i size) =
        some (((storeOf fs d inodes chains).call fs.clusterSize (.truncate i size)).1, v') ∧
      HoldsStore fs
        ((storeOf fs d inodes chains).call fs.clusterSize (.truncate i size)).2 v' := by
  obtain ⟨d', inode', l', hrun, hstep, hresult⟩ :=
    (h.own i).truncate_stepped (h.room i) (h.dataStart_le i) size
  by_cases hle : (inodes i).size ≤ size
  · rw [if_pos hle] at hresult
    obtain ⟨hcontent, hlength, hfree⟩ := hresult
    rw [volumeCall, hrun, call_truncate_above (h.content_length i ▸ hle)]
    exact ⟨_, rfl,
      (storeOf fs d inodes chains).set_self i ▸ HoldsStore.set h hstep hcontent hlength hfree⟩
  · rw [if_neg hle] at hresult
    obtain ⟨hcontent, hlength, hfree⟩ := hresult
    rw [volumeCall, hrun, call_truncate_below (h.content_length i ▸ hle)]
    exact ⟨_, rfl, HoldsStore.set h hstep hcontent hlength hfree⟩

/-- Every call does to the volume what it does to the store. -/
theorem HoldsStore.call (s : BlockStore ι) (v : Disk × (ι → FatInode)) (o : ByteOp ι)
    (h : HoldsStore fs s v)
    (hfits : Fitting s o) :
    ∃ v', volumeCall fs v o = some ((s.call fs.clusterSize o).1, v') ∧
        HoldsStore fs (s.call fs.clusterSize o).2 v' := by
  obtain ⟨d, inodes⟩ := v
  obtain ⟨chains, hvolume, rfl⟩ := h
  cases o with
  | read i offset count => exact ⟨_, hvolume.read hfits.1 hfits.2, chains, hvolume, rfl⟩
  | write i offset data =>
    obtain ⟨hoff, hend, hcount⟩ := hfits
    exact hvolume.write (hvolume.content_length i ▸ hoff) hend hcount
  | truncate i size => exact hvolume.truncate size

omit [DecidableEq ι] in
/-- The clusters of every file hold it. -/
theorem HoldsStore.room {v : Disk × (ι → FatInode)} (h : HoldsStore fs s v) :
    s.Room fs.clusterSize := by
  obtain ⟨chains, hvolume, rfl⟩ := h
  intro i
  rw [hvolume.content_length i]
  exact (blocksFor_le_iff (clusterSize_pos (hvolume.own i).sane)).mpr (hvolume.room i)

/-- **The files of a volume are byte arrays over a pool of clusters.**  Whatever the order of the
calls on them, they are answered as the store answers them, the chains stay apart, and no cluster
is lost. -/
theorem files_follow_store [Fintype ι] {v : Disk × (ι → FatInode)} (h : HoldsStore fs s v)
    {ops : List (ByteOp ι)}
    (hops : Admits (BlockStore.call fs.clusterSize) Fitting s ops) :
    outputs (volumeCall fs) v ops = answers (BlockStore.call fs.clusterSize) s ops ∧
      ∃ v', run (stateAfter (volumeCall fs)) v ops = some v' ∧
        HoldsStore fs (after (BlockStore.call fs.clusterSize) s ops) v' ∧
        ∑ i, (after (BlockStore.call fs.clusterSize) s ops).blocks i +
            (after (BlockStore.call fs.clusterSize) s ops).spare = ∑ i, s.blocks i + s.spare := by
  obtain ⟨hanswers, v', hrun, hend, htotal⟩ := follows_run
    (R := fun t w => HoldsStore fs t w ∧ ∑ i, t.blocks i + t.spare = ∑ i, s.blocks i + s.spare)
    (fun t w o hrelated hfits => by
      obtain ⟨w', hcall, hholds⟩ := HoldsStore.call t w o hrelated.1 hfits
      exact ⟨w', hcall, hholds, (total_call hrelated.1.room o).trans hrelated.2⟩) ⟨h, rfl⟩ hops
  exact ⟨hanswers, v', hrun, hend, htotal⟩

end Runs

/-! ## Two empty files of one directory -/

def openPair (i : Fin 2) : FatInode := { emptyFile with dirOffset := 32 * i }

def noFiles : BlockStore (Fin 2) := { content := fun _ => [], blocks := fun _ => 0, spare := 3 }

/-- Both files get a cluster, and the first one is cut. -/
def twoCalls : List (ByteOp (Fin 2)) :=
  [.write 0 0 [65, 66], .write 1 0 [67], .truncate 0 1, .read 0 0 5]

theorem holdsStore_openPair : HoldsStore smallFs noFiles (emptyFileDisk, openPair) := by
  refine ⟨fun _ => [], ⟨fun i => ?_, fun i => ?_, fun i j _ => ?_, fun i => ?_⟩, ?_⟩
  · exact ownFile_emptyFile.of_inode rfl rfl rfl rfl
  · exact Nat.zero_le _
  · exact List.disjoint_nil_left _
  · exact ⟨2, [2], 2, chain_smallDisk _, fun _ => List.disjoint_nil_right _, List.mem_cons_self,
      0, by decide, rfl⟩
  · refine BlockStore.ext rfl rfl ?_
    show (freeClusters smallFs emptyFileDisk).card = 3
    decide +kernel

theorem files_follow_store_two :
    (HoldsStore smallFs noFiles (emptyFileDisk, openPair) ∧
        Admits (BlockStore.call smallFs.clusterSize) Fitting noFiles twoCalls) ∧
      outputs (volumeCall smallFs) (emptyFileDisk, openPair) twoCalls =
        answers (BlockStore.call smallFs.clusterSize) noFiles twoCalls ∧
      ∃ v', run (stateAfter (volumeCall smallFs)) (emptyFileDisk, openPair) twoCalls = some v' ∧
        HoldsStore smallFs (after (BlockStore.call smallFs.clusterSize) noFiles twoCalls) v' ∧
        ∑ i, (after (BlockStore.call smallFs.clusterSize) noFiles twoCalls).blocks i +
            (after (BlockStore.call smallFs.clusterSize) noFiles twoCalls).spare = ∑ i,
              noFiles.blocks i + noFiles.spare :=
  ⟨⟨holdsStore_openPair, by decide⟩, files_follow_store holdsStore_openPair (by decide)⟩

end Lumin.Fs.Fat32
