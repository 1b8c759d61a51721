import Lumin.Fs.Fat32.FileRead
import Lumin.Fs.Fat32.Inode
import Lumin.Fs.Fat32.Unlink

/-!
# Several handles of one file

Inodes of one file, each with its own copy of the start cluster and the size,
and writes through them in any order.  Each write brings the shared directory
entry up to what its own inode says.

* `Backed` is a file whose entry and chain agree.
* `Views` is an inode that writes back to the entry of the file.
* `UpToDate` is what the inode of a write must still know.
-/

namespace Lumin.Fs.Fat32

open Lumin.Lib Lumin.Block

variable {fs : Fat32Fs} {d d' d'' : Disk} {v c n dir : Nat} {l ldir : List Nat} {p : Place}
  {ps : List Place}
  {slot slot' : Slot} {name : CStr} {f : Found}

/-! ## Lookups of an entry that changes -/

/-- Slots that a lookup does not tell apart: only the fields of an entry behind its
attributes may differ. -/
structure SameHead (slot slot' : Slot) : Prop where
  head : ∀ i < 12, slot' i = slot i
  lfn : slotKind slot = .lfn → slot' = slot

theorem SameHead.refl (slot : Slot) : SameHead slot slot := ⟨fun _ _ => rfl, fun _ => rfl⟩

theorem SameHead.kind (h : SameHead slot slot') : slotKind slot' = slotKind slot := by
  unfold slotKind
  rw [h.head 0 (by decide), h.head 11 (by decide)]

theorem SameHead.matches_eq (h : SameHead slot slot') (name : CStr) (st : LfnState) :
    entryMatches name st slot' = entryMatches name st slot := by
  have hname : slotName slot' = slotName slot :=
    List.map_congr_left fun i hi => h.head i (lt_trans (List.mem_range.mp hi) (by decide))
  unfold entryMatches useLfn
  rw [hname]

theorem visible_sameHead {x : LongName} (h : ∀ p ∈ ps, SameHead (slotAt d p) (slotAt d' p)) :
    visible d' x ps = visible d x ps := by
  induction ps generalizing x with
  | nil => simp only [visible]
  | cons p ps ih =>
    have hrest := fun y : LongName => ih (x := y) fun q hq => h q (by simp [hq])
    have hp := h p (by simp)
    rw [visible, visible, hp.kind]
    cases hkind : slotKind (slotAt d p) with
    | last => rfl
    | deleted => exact hrest _
    | lfn =>
      simp only [hp.lfn hkind]
      exact hrest _
    | volume => exact hrest _
    | entry => simp only [hrest]

/-- The place of the entry that a lookup found. -/
def Found.place (f : Found) : Place := (f.sector, f.offset / 32)

theorem toFound_place (p : Place) (slot : Slot) : (toFound p slot).place = p := by
  unfold toFound Found.place
  rw [Nat.mul_div_cancel_left _ (by decide)]

theorem offset_place (hf : f = toFound p slot) : f.offset = 32 * f.place.2 := by
  rw [hf, toFound_place]
  rfl

/-- What a lookup found is an entry of the directory. -/
theorem lookup_inv (hs : Sane fs d) (h : Walk fs d v l)
    (hfound : fat32Lookup fs d v name = some (some f)) :
    name ≠ [] ∧ ∃ e, (dirEntries fs d l).find? (Visible.matches d name) = some e ∧
      e.pos = f.place ∧
      f.place ∈ dirSlots fs l ∧ slotKind (slotAt d f.place) = .entry ∧
      f = toFound f.place (slotAt d f.place) := by
  have hname : name ≠ [] := by
    rintro rfl
    rw [fat32Lookup, if_pos rfl] at hfound
    cases hfound
  rw [fat32Lookup_eq hs h hname, Option.some.injEq, Option.map_eq_some_iff] at hfound
  obtain ⟨e, hfind, rfl⟩ := hfound
  have hpos : (e.found d).place = e.pos := toFound_place e.pos _
  obtain ⟨pre, post, hsplit⟩ := List.append_of_mem (List.mem_of_find?_eq_some hfind)
  obtain ⟨before, behind, hslots, -, -, hkind⟩ := visible_split hsplit
  rw [hpos]
  exact ⟨hname, e, hfind, rfl, by rw [hslots]; simp, hkind, rfl⟩

/-- A lookup finds the same entry when no head of a slot has changed. -/
theorem lookup_sameHead (hs : Sane fs d) (hs' : Sane fs d') (h : Walk fs d v l)
    (h' : Walk fs d' v l)
    (hsame : ∀ p ∈ dirSlots fs l, SameHead (slotAt d p) (slotAt d' p))
    (hfound : fat32Lookup fs d v name = some (some f)) :
    fat32Lookup fs d' v name = some (some (toFound f.place (slotAt d' f.place))) := by
  obtain ⟨hname, e, hfind, hpos, -⟩ := lookup_inv hs h hfound
  have hentries : dirEntries fs d' l = dirEntries fs d l := visible_sameHead hsame
  have hmatches :
      ∀ e ∈ dirEntries fs d l, Visible.matches d' name e = Visible.matches d name e := by
    intro e he
    exact (hsame e.pos (visible_sublist.subset (List.mem_map_of_mem he))).matches_eq name
      e.long.st
  rw [fat32Lookup_eq hs' h' hname, hentries, List.find?_congr hmatches, hfind, Option.map_some,
    Visible.found, hpos]

/-! ## A file and its entry -/

/-- The directory at `dir` finds `f` under `name`. -/
structure Entered (fs : Fat32Fs) (d : Disk) (dir : Nat) (name : CStr) (f : Found)
    (ldir : List Nat) : Prop where
  sane : Sane fs d
  dirChain : Chain fs d dir ldir
  entry : fat32Lookup fs d dir name = some (some f)

/-- A file: the entry has the cluster of the chain `l`, which has room for the size and
shares no cluster with the directory. -/
structure Backed (fs : Fat32Fs) (d : Disk) (dir : Nat) (name : CStr) (f : Found)
    (l ldir : List Nat) : Prop extends Entered fs d dir name f ldir where
  isFile : f.isDir = false
  chain : Chain fs d f.cluster l
  start : l = [] → f.cluster = 0
  room : f.size ≤ l.length * fs.clusterSize
  apart : l.Disjoint ldir

/-- An inode that writes back to the entry `f`.  Its cluster may be out of date, and so
may its size, which is never larger. -/
structure Views (inode : FatInode) (f : Found) : Prop where
  isFile : inode.isDir = false
  sector : inode.dirSector = f.sector
  offset : inode.dirOffset = f.offset
  ino : inode.ino = inode.cluster
  size_le : inode.size ≤ f.size

theorem Views.mono {inode : FatInode} {f' : Found} (h : Views inode f)
    (hsector : f'.sector = f.sector) (hoffset : f'.offset = f.offset) (hsize : f.size ≤ f'.size) :
    Views inode f' :=
  ⟨h.isFile, by rw [h.sector, hsector], by rw [h.offset, hoffset], h.ino,
    le_trans h.size_le hsize⟩

theorem Entered.place_mem (h : Entered fs d dir name f ldir) : f.place ∈ dirSlots fs ldir := by
  obtain ⟨-, e, -, -, hmem, -⟩ := lookup_inv h.sane h.dirChain.toWalk h.entry
  exact hmem

theorem Entered.eq (h : Entered fs d dir name f ldir) :
    f = toFound f.place (slotAt d f.place) := by
  obtain ⟨-, e, -, -, -, -, heq⟩ := lookup_inv h.sane h.dirChain.toWalk h.entry
  exact heq

theorem Entered.size_lt (h : Entered fs d dir name f ldir) : f.size < 2 ^ 32 := by
  rw [h.eq]
  exact rdLE_lt _ 28 4

/-- The sector of the entry belongs to the directory. -/
theorem Entered.sector (h : Entered fs d dir name f ldir) :
    (∃ c ∈ ldir, IsSectorOf fs c f.sector) ∧ f.sector < d.sectorCount ∧ f.sector ≠ 0 ∧
      fs.dataStart ≤ f.sector := by
  obtain ⟨c, hc, k, hk, hsector, -⟩ := mem_dirSlots.mp h.place_mem
  have hsector : f.sector = firstSector fs c + k := hsector
  have hin := h.dirChain.inVolume c hc
  have hlt := firstSector_add_lt h.sane hin hk
  have hstart := dataStart_le_firstSector h.sane hin
  have hinside := h.sane.data_inside
  have hcovers := h.sane.table_covers
  have hbefore := h.sane.table_before
  exact ⟨⟨c, hc, k, hk, hsector⟩, by omega, by omega, by omega⟩

/-- The entry is found again where no head of a slot has changed. -/
theorem Entered.keep (h : Entered fs d dir name f ldir) (hs' : Sane fs d')
    (hdir : Chain fs d' dir ldir)
    (hsame : ∀ p ∈ dirSlots fs ldir, SameHead (slotAt d p) (slotAt d' p)) :
    Entered fs d' dir name (toFound f.place (slotAt d' f.place)) ldir :=
  ⟨hs', hdir, lookup_sameHead h.sane hs' h.dirChain.toWalk hdir.toWalk hsame h.entry⟩

/-- A change outside the directory leaves the entry as it is. -/
theorem Entered.of_othersKept (h : Entered fs d dir name f ldir) (hs' : Sane fs d')
    (hkept : OthersKept fs d d' l) (hapart : l.Disjoint ldir) :
    Entered fs d' dir name f ldir := by
  have hdir := hkept dir ldir h.dirChain hapart.symm
  have hslots : ∀ p ∈ dirSlots fs ldir, slotAt d' p = slotAt d p := by
    intro p hp
    obtain ⟨c, hc, k, hk, hsector, -⟩ := mem_dirSlots.mp hp
    unfold slotAt
    rw [(hdir c hc).2 p.1 ⟨k, hk, hsector⟩]
  have hkeep := h.keep hs' (h.dirChain.congr fun c hc => (hdir c hc).1) fun p hp => by
    rw [hslots p hp]
    exact .refl _
  rwa [hslots _ h.place_mem, ← h.eq] at hkeep

/-- A sector of another chain is not the sector of the entry. -/
theorem Entered.sector_ne (h : Entered fs d dir name f ldir) {c s : Nat}
    (hl : ∀ c ∈ l, InVolume fs c)
    (hapart : l.Disjoint ldir) (hc : c ∈ l) (hs : IsSectorOf fs c s) : s ≠ f.sector := by
  rintro rfl
  obtain ⟨⟨c', hc', k', hk', hsector'⟩, -⟩ := h.sector
  obtain ⟨k, hk, hsector⟩ := hs
  obtain ⟨rfl, -⟩ := firstSector_add_inj h.sane (hl c hc) (h.dirChain.inVolume c' hc') hk hk'
    (hsector ▸ hsector')
  exact hapart hc hc'

/-- An update of the entry changes what the lookup reports, and nothing else. -/
theorem Entered.entrySet {cluster size : Nat} (h : Entered fs d dir name f ldir)
    (hset : EntrySet d d' f.place cluster size) :
    Entered fs d' dir name { f with cluster := cluster, size := size } ldir ∧
      ∀ c < fs.totalClusters + 2, fatNextCluster fs d' c = fatNextCluster fs d c := by
  have hnext : ∀ c < fs.totalClusters + 2, fatNextCluster fs d' c = fatNextCluster fs d c := by
    intro c hc
    refine fatNextCluster_congr h.sane hset.sameDevice (fun s hlt => hset.sectors s fun heq => ?_)
      hc
    have hstart := h.sector.2.2.2
    have heq : s = f.sector := heq
    omega
  have hkeep := h.keep (h.sane.of_sameDevice hset.sameDevice)
    (h.dirChain.congr fun c hc => hnext c (h.dirChain.inVolume c hc).2) fun p _ => by
      by_cases hp : p = f.place
      · obtain ⟨-, e, -, -, -, hkind, -⟩ := lookup_inv h.sane h.dirChain.toWalk h.entry
        rw [hp]
        exact ⟨fun i hi => hset.head i (by omega), fun hlfn => by rw [hkind] at hlfn; cases hlfn⟩
      · rw [hset.slots p hp]
        exact .refl _
  have hfound :
      toFound f.place (slotAt d' f.place) = { f with cluster := cluster, size := size } := by
    have hisDir : slotIsDir (slotAt d' f.place) = f.isDir := by
      conv_rhs => rw [h.eq]
      unfold toFound slotIsDir
      rw [hset.head 11 (by decide)]
    have hoffset := offset_place h.eq
    rw [toFound, hset.cluster, hset.size, hisDir, ← hoffset]
    rfl
  exact ⟨hfound ▸ hkeep, hnext⟩

/-- An update of the entry changes no byte of the file. -/
theorem Entered.chainByte_eq {cluster size q : Nat} (h : Entered fs d dir name f ldir)
    (hset : EntrySet d d' f.place cluster size) (hl : ∀ c ∈ l, InVolume fs c)
    (hapart : l.Disjoint ldir) (hq : q < l.length * fs.clusterSize) :
    chainByte fs d' l q = chainByte fs d l q := by
  rw [mul_clusterSize] at hq
  have hmem := getD_mem (l := l) (show q / 512 < l.length * fs.sectorsPerCluster by omega)
  unfold chainByte
  rw [hset.sectors _ (h.sector_ne hl hapart hmem (isSectorOf_chainSector h.sane))]

/-! ## One write -/

variable {data new : List UInt8} {inode inode' : FatInode} {offset q : Nat}

theorem s32_lt (x : Nat) : s32 x < 2 ^ 31 := by
  have := u32_lt x
  unfold s32
  split <;> omega

/-- The result of a write is an `int`. -/
theorem fat32WriteFile_lt {cluster size cluster' size' : Nat} {r : Int}
    (h : fat32WriteFile fs d cluster size offset data = some (r, d', cluster', size')) :
    r < 2 ^ 31 := by
  have hwrite :
      ∀ d₁ v n, writeAt fs d₁ v n offset data = (r, d', cluster', size') → r < 2 ^ 31 := by
    intro d₁ v n hrun
    unfold writeAt at hrun
    split at hrun
    · obtain ⟨rfl, -⟩ := hrun
      decide
    · obtain ⟨rfl, -⟩ := hrun
      exact s32_lt _
  unfold fat32WriteFile at h
  split at h
  · obtain ⟨rfl, -⟩ := Option.some.inj h
    decide
  · dsimp only at h
    split at h
    · split at h
      · cases h
      · split at h
        · cases h
        · obtain ⟨rfl, -⟩ := Option.some.inj h
          decide
        · exact hwrite _ _ _ (Option.some.inj h)
    · exact hwrite _ _ _ (Option.some.inj h)

/-- What a write that succeeds has done before it brings the entry up to date. -/
theorem fat32VfsWrite_inv (hisFile : inode.isDir = false)
    (h : fat32VfsWrite fs d inode offset data = some ((data.length : Int), d', inode')) :
    data.length < 2 ^ 31 ∧ ∃ d₁ cluster size,
      fat32WriteFile fs d inode.cluster inode.size offset data =
        some ((data.length : Int), d₁, cluster, size) ∧
      writeBack d₁ { inode with cluster := cluster, size := size, inodeSize := size } inode.size =
        (d', inode') := by
  rw [fat32VfsWrite, if_neg (Bool.eq_false_iff.mp hisFile)] at h
  split at h
  · cases h
  next r d₁ cluster size heq =>
    have hlt := fat32WriteFile_lt heq
    dsimp only at h
    split at h
    next hneg =>
      obtain ⟨rfl, -⟩ := Prod.mk.inj (Option.some.inj h)
      omega
    · obtain ⟨rfl, hrest⟩ := Prod.mk.inj (Option.some.inj h)
      exact ⟨by omega, d₁, cluster, size, heq, hrest⟩

/-- A chain that has clusters keeps its first one. -/
theorem Grown.start_eq {v' : Nat} {new : List Nat} (hl : Chain fs d v l)
    (h : Grown fs d d' v' l new)
    (hne : l ≠ []) : v' = v := by
  obtain ⟨x, xs, rfl⟩ := List.exists_cons_of_ne_nil hne
  exact h.chain.linked.1.symm ▸ hl.linked.1.symm

/-- The bytes of a file with the chain `l'` are those of `l` with `data` written at
`offset`. -/
def Overwritten (fs : Fat32Fs) (d d' : Disk) (f : Found) (l l' : List Nat) (offset : Nat)
    (data : List UInt8) : Prop :=
  ∀ q < l'.length * fs.clusterSize, (offset ≤ q ∧ q < offset + data.length ∨ q < f.size) →
    chainByte fs d' l' q =
      if offset ≤ q ∧ q < offset + data.length then data.getD (q - offset) 0
        else chainByte fs d l q

/-- The file after `fat32_write_file`: the chain holds the data, and the entry is still
the old one. -/
structure Unrecorded (fs : Fat32Fs) (d d' : Disk) (dir : Nat) (name : CStr) (f : Found)
    (l l' ldir : List Nat) (offset : Nat) (data : List UInt8) (cluster : Nat) : Prop
    extends Entered fs d' dir name f ldir where
  chain : Chain fs d' cluster l'
  ne_nil : l' ≠ []
  apart : l'.Disjoint ldir
  longer : l.length ≤ l'.length
  start : l ≠ [] → cluster = f.cluster
  bytes : Overwritten fs d d' f l l' offset data

theorem Backed.unrecorded {size cluster size' : Nat} (h : Backed fs d dir name f l ldir)
    (hsize : size ≤ f.size) (hdata : data ≠ []) (hend : offset + data.length < 2 ^ 32)
    (hcount : data.length < 2 ^ 31)
    (hrun : fat32WriteFile fs d f.cluster size offset data =
      some ((data.length : Int), d', cluster, size')) :
    ∃ l', Unrecorded fs d d' dir name f l l' ldir offset data cluster ∧
      size' = max size (offset + data.length) ∧ size' ≤ l'.length * fs.clusterSize := by
  obtain ⟨d₁, new, hgrown, hstored, hsize', hroom⟩ := fat32WriteFile_inv h.sane h.chain h.start
    (le_trans hsize h.room) hdata hend hcount hrun
  have hs₁ := h.sane.of_sameDevice hgrown.sameData.1
  refine ⟨l ++ new, ⟨?_, ?_, ?_, ?_, ?_, hgrown.start_eq h.chain, ?_⟩, hsize', hroom⟩
  · exact h.toEntered.of_othersKept (hs₁.of_sameDevice hstored.sameDevice)
      (othersKept_of_stored h.sane hgrown hstored) h.apart
  · exact hgrown.chain.congr fun c hc =>
      hstored.fatNextCluster_eq hs₁ hgrown.chain.inVolume (hgrown.chain.inVolume c hc).2
  · intro hnil
    have hpos := List.length_pos_iff.mpr hdata
    rw [hnil, List.length_nil, Nat.zero_mul] at hroom
    omega
  · intro c hc hdir
    rcases List.mem_append.mp hc with hc | hc
    · exact h.apart hc hdir
    · exact h.dirChain.not_free hdir (hgrown.free c hc)
  · rw [List.length_append]
    exact Nat.le_add_right _ _
  · intro q hq hin
    rw [hstored.bytes q hq]
    split
    · rfl
    next hout =>
      exact hgrown.chainByte_eq h.sane (lt_of_lt_of_le (hin.resolve_left hout) h.room)

/-- The write of `data` at `offset` in a file, as its handles see it. -/
structure Wrote (fs : Fat32Fs) (d d' : Disk) (f f' : Found) (l l' : List Nat) (offset : Nat)
    (data : List UInt8) : Prop where
  sameEntry : f'.sector = f.sector ∧ f'.offset = f.offset
  size_le : f.size ≤ f'.size
  end_le : offset + data.length ≤ f'.size
  bytes : Overwritten fs d d' f l l' offset data

theorem Unrecorded.cluster_lt {l' : List Nat} {cluster : Nat}
    (h : Unrecorded fs d d' dir name f l l' ldir offset data cluster) : cluster < 2 ^ 32 := by
  obtain ⟨x, xs, hx⟩ := List.exists_cons_of_ne_nil h.ne_nil
  have hchain := h.chain
  rw [hx] at hchain
  have := (hchain.inVolume x (by simp)).2
  have := h.sane.total_le
  rw [hchain.linked.1]
  unfold FAT32_EOC at this
  omega

/-- A write through an inode that knows the cluster of the file, and that does not
record a smaller size than the entry has. -/
theorem Backed.write (h : Backed fs d dir name f l ldir) (hview : Views inode f)
    (hcluster : inode.cluster = f.cluster)
    (hgrow : inode.size < offset + data.length → f.size ≤ offset + data.length)
    (hdata : data ≠ []) (hend : offset + data.length < 2 ^ 32)
    (hrun : fat32VfsWrite fs d inode offset data = some ((data.length : Int), d', inode')) :
    ∃ f' l', Backed fs d' dir name f' l' ldir ∧ Views inode' f' ∧
        Wrote fs d d' f f' l l' offset data := by
  obtain ⟨hcount, d₂, cluster, size, hwrite, hback⟩ := fat32VfsWrite_inv hview.isFile hrun
  rw [hcluster] at hwrite
  obtain ⟨l', hmid, hsize, hroom⟩ := h.unrecorded hview.size_le hdata hend hcount hwrite
  have hfound := hmid.eq
  have hflt := hmid.size_lt
  have hview_le := hview.size_le
  obtain ⟨d₃, heq, hdone⟩ := writeBack_spec (p := f.place)
    { inode with cluster := cluster, size := size, inodeSize := size } inode.size
    hmid.sane.works hmid.sector.2.1 hmid.sector.2.2.1 hview.sector
    (hview.offset.trans (offset_place hfound))
    (by
      by_cases hino : inode.ino = cluster
      · refine .inr ?_
        show slotCluster (slotAt d₂ f.place) = cluster
        rw [← hino, hview.ino, hcluster, hfound, toFound_place]
        rfl
      · exact .inl hino)
    hmid.cluster_lt (show size < 2 ^ 32 by omega)
  rw [heq, Prod.mk.injEq] at hback
  obtain ⟨rfl, rfl⟩ := hback
  rcases hdone with ⟨rfl, hsame, hkept⟩ | ⟨hset, hchanged⟩
  · have hsame : size = inode.size := hsame
    have hkept : cluster = f.cluster := hkept.trans (hview.ino.trans hcluster)
    refine ⟨f, l',
      ⟨hmid.toEntered, h.isFile, hkept ▸ hmid.chain, fun hnil => absurd hnil hmid.ne_nil,
      ?_, hmid.apart⟩, ⟨hview.isFile, hview.sector, hview.offset, rfl, hsame ▸ hview.size_le⟩,
      ⟨⟨rfl, rfl⟩, le_refl _, by omega, hmid.bytes⟩⟩
    exact le_trans h.room (Nat.mul_le_mul_right _ hmid.longer)
  · have hle : f.size ≤ size := by
      by_cases hlonger : inode.size < offset + data.length
      · have := hgrow hlonger
        omega
      · -- Nothing was appended, so that the inode has not changed.
        have hl : l ≠ [] := by
          rintro rfl
          have hroomL := h.room
          have hpos := List.length_pos_iff.mpr hdata
          rw [List.length_nil, Nat.zero_mul] at hroomL
          omega
        have hstart : cluster = inode.ino := by rw [hmid.start hl, hview.ino, hcluster]
        rcases hchanged with hchanged | hchanged
        · exact absurd (show size = inode.size by omega) hchanged
        · exact absurd hstart hchanged
    obtain ⟨hupdated, hnext⟩ := hmid.toEntered.entrySet hset
    refine ⟨{ f with cluster := cluster, size := size }, l',
      ⟨hupdated, h.isFile, ?_, fun hnil => absurd hnil hmid.ne_nil, hroom, hmid.apart⟩,
      ⟨hview.isFile, hview.sector, hview.offset, rfl, le_refl _⟩,
      ⟨⟨rfl, rfl⟩, hle, show offset + data.length ≤ size by omega, fun q hq hin => ?_⟩⟩
    · exact hmid.chain.congr fun c hc => hnext c (hmid.chain.inVolume c hc).2
    · rw [hmid.toEntered.chainByte_eq hset hmid.chain.inVolume hmid.apart hq]
      exact hmid.bytes q hq hin

/-! ## Opening and reading -/

/-- `fat32_vfs_lookup` of `name` in the directory `dir`, and then every read that covers
position `q`, find the byte `b` there. -/
def Reads (fs : Fat32Fs) (d : Disk) (dir : FatInode) (name : CStr) (q : Nat) (b : UInt8) : Prop :=
  ∃ inode, fat32VfsLookup fs d dir name true = some (some inode) ∧
    ∀ offset count, offset ≤ q → q < offset + count →
      ∃ bytes, fat32VfsRead fs d inode offset count = (s32 bytes.length, bytes) ∧
        bytes[q - offset]? = some b

/-- The inode of `f`. -/
def openedInode (dir : FatInode) (f : Found) : FatInode :=
  { cluster := f.cluster, size := f.size, isDir := f.isDir, parentCluster := dir.cluster,
    dirSector := f.sector, dirOffset := f.offset, ino := f.cluster, inodeSize := f.size }

theorem Entered.opened {dir : FatInode} (h : Entered fs d dir.cluster name f ldir)
    (hdir : dir.isDir = true) :
    fat32VfsLookup fs d dir name true = some (some (openedInode dir f)) := by
  rw [fat32VfsLookup, if_neg (by rw [hdir]; decide), h.entry]
  rfl

theorem Backed.reads {dir : FatInode} (h : Backed fs d dir.cluster name f l ldir)
    (hdir : dir.isDir = true) (hq : q < f.size) : Reads fs d dir name q (chainByte fs d l q) := by
  refine ⟨_, h.toEntered.opened hdir, fun offset count hlo hhi => ?_⟩
  obtain ⟨n, hn, hread⟩ := fat32ReadFile_spec h.sane h.chain h.room h.size_lt
    (lt_of_le_of_lt hlo hq) (show count ≠ 0 by omega)
  refine ⟨stretch fs d l offset n, ?_, ?_⟩
  · rw [stretch_length, fat32VfsRead, openedInode, if_neg (Bool.eq_false_iff.mp h.isFile)]
    exact hread
  · rw [stretch_getElem? (by omega), show offset + (q - offset) = q by omega]

/-! ## Runs -/

/-- Handles of one file, the device, and the byte last written at each position. -/
structure Handles (ι : Type) where
  disk : Disk
  inode : ι → FatInode
  written : Nat → Option UInt8

section Runs

variable {ι : Type} {σ σ' : Handles ι} {i : ι} {dirInode : FatInode}

/-- A `fat32_vfs_write` through handle `i` that writes all of the data, or `none`. -/
def Handles.write [DecidableEq ι] (fs : Fat32Fs) (σ : Handles ι) (i : ι) (offset : Nat)
    (data : List UInt8) : Option (Handles ι) :=
  match fat32VfsWrite fs σ.disk (σ.inode i) offset data with
  | none => none
  | some (r, d, inode) =>
    if r = (data.length : Int) then
      some { disk := d, inode := Function.update σ.inode i inode
             written := fun q => if offset ≤ q ∧ q < offset + data.length then data[q - offset]?
               else σ.written q }
    else none

/-- Every handle is what `fat32_vfs_lookup` returns for the file. -/
structure Opened (fs : Fat32Fs) (dir : FatInode) (name : CStr) (σ : Handles ι) : Prop where
  inode : ∀ i, fat32VfsLookup fs σ.disk dir name true = some (some (σ.inode i))
  written : ∀ q, σ.written q = none

/-- Writes through the handles in any order, all of them successful; `P` is what holds
before each one. -/
inductive Writes [DecidableEq ι] (fs : Fat32Fs) (P : Handles ι → ι → Nat → List UInt8 → Prop) :
    Handles ι → Handles ι → Prop
  | start {σ : Handles ι} : Writes fs P σ σ
  | next {σ σ' σ'' : Handles ι} {i : ι} {offset : Nat} {data : List UInt8} (h : Writes fs P σ σ')
      (hbefore : P σ' i offset data) (hwrite : σ'.write fs i offset data = some σ'') :
      Writes fs P σ σ''

/-- The inode of the handle has the cluster of the entry.  A write behind the size of the
inode does not end before the size of the entry, and the new size fits in it. -/
def UpToDate (fs : Fat32Fs) (dir : FatInode) (name : CStr) (σ : Handles ι) (i : ι) (offset : Nat)
    (data : List UInt8) : Prop :=
  data ≠ [] → offset + data.length < 2 ^ 32 ∧
    ∃ f, fat32Lookup fs σ.disk dir.cluster name = some (some f) ∧
        (σ.inode i).cluster = f.cluster ∧
      ((σ.inode i).size < offset + data.length → f.size ≤ offset + data.length)

/-- The write goes to positions that were not written, and leaves no hole behind a file
of `size` bytes. -/
def InOrder (size : Nat) (σ : Handles ι) (_ : ι) (offset : Nat) (data : List UInt8) : Prop :=
  (∀ q, offset ≤ q → q < offset + data.length → σ.written q = none) ∧
    ∀ q < offset, q < size ∨ (σ.written q).isSome

/-- The invariant: every handle writes back to the entry of the file, and what was
written stands in the file. -/
structure NothingLost (fs : Fat32Fs) (dir : FatInode) (name : CStr) (f : Found)
    (l ldir : List Nat)
    (σ : Handles ι) : Prop extends Backed fs σ.disk dir.cluster name f l ldir where
  views : ∀ i, Views (σ.inode i) f
  kept : ∀ q b, σ.written q = some b → q < f.size ∧ chainByte fs σ.disk l q = b

theorem NothingLost.of_opened (h : Backed fs σ.disk dirInode.cluster name f l ldir)
    (hdir : dirInode.isDir = true) (hopen : Opened fs dirInode name σ) :
    NothingLost fs dirInode name f l ldir σ := by
  refine ⟨h, fun i => ?_, fun q b hq => by rw [hopen.written q] at hq; cases hq⟩
  have hinode := hopen.inode i
  rw [h.toEntered.opened hdir, Option.some.injEq, Option.some.injEq] at hinode
  rw [← hinode]
  exact ⟨h.isFile, rfl, rfl, rfl, le_refl _⟩

/-- An empty write changes nothing. -/
theorem fat32VfsWrite_nil (hisFile : inode.isDir = false) (hino : inode.ino = inode.cluster) :
    fat32VfsWrite fs d inode offset [] = some (0, d, { inode with inodeSize := inode.size }) := by
  rw [fat32VfsWrite, if_neg (Bool.eq_false_iff.mp hisFile)]
  simp [fat32WriteFile, writeBack, hino]

/-- What was written before a write, and the data of the write, stand in the file. -/
theorem Wrote.kept {f' : Found} {l' : List Nat} {written : Nat → Option UInt8} {b : UInt8}
    (h : Wrote fs d d' f f' l l' offset data) (hroom : f'.size ≤ l'.length * fs.clusterSize)
    (hkept : ∀ q b, written q = some b → q < f.size ∧ chainByte fs d l q = b)
    (hq : (if offset ≤ q ∧ q < offset + data.length then data[q - offset]? else written q) =
      some b) :
    q < f'.size ∧ chainByte fs d' l' q = b := by
  have hend_le := h.end_le
  have hsize_le := h.size_le
  by_cases hin : offset ≤ q ∧ q < offset + data.length
  · rw [if_pos hin] at hq
    refine ⟨by omega, ?_⟩
    rw [h.bytes q (by omega) (.inl hin), if_pos hin, List.getD_eq_getElem?_getD, hq,
      Option.getD_some]
  · rw [if_neg hin] at hq
    obtain ⟨hlt, hbyte⟩ := hkept q b hq
    refine ⟨by omega, ?_⟩
    rw [h.bytes q (by omega) (.inr hlt), if_neg hin]
    exact hbyte

variable [DecidableEq ι]

/-- A write through an inode that is up to date keeps the invariant. -/
theorem NothingLost.write (h : NothingLost fs dirInode name f l ldir σ)
    (hbefore : UpToDate fs dirInode name σ i offset data)
    (hwrite : σ.write fs i offset data = some σ') :
    ∃ f' l', NothingLost fs dirInode name f' l' ldir σ' := by
  have hview := h.views i
  unfold Handles.write at hwrite
  split at hwrite
  · cases hwrite
  next r d inode hrun =>
    split at hwrite
    next hall =>
      obtain rfl := Option.some.inj hwrite
      subst hall
      by_cases hdata : data = []
      · subst hdata
        rw [fat32VfsWrite_nil hview.isFile hview.ino] at hrun
        obtain ⟨-, rfl, rfl⟩ := Option.some.inj hrun
        refine ⟨f, l, h.toBacked, ?_, fun q b hq => ?_⟩
        · refine (Function.forall_update_iff σ.inode fun _ inode => Views inode f).mpr
            ⟨?_, fun j _ => h.views j⟩
          exact ⟨hview.isFile, hview.sector, hview.offset, hview.ino, hview.size_le⟩
        · simp only [List.length_nil] at hq
          rw [if_neg (by omega)] at hq
          exact h.kept q b hq
      · obtain ⟨hend, f₀, hfound, hcluster, hgrow⟩ := hbefore hdata
        obtain rfl : f = f₀ := Option.some.inj (Option.some.inj (h.entry.symm.trans hfound))
        obtain ⟨f', l', hbacked, hviews, hwrote⟩ :=
          h.toBacked.write hview hcluster hgrow hdata hend hrun
        refine ⟨f', l', hbacked, ?_, fun q b hq => ?_⟩
        · exact (Function.forall_update_iff σ.inode fun _ inode => Views inode f').mpr ⟨hviews,
            fun j _ => (h.views j).mono hwrote.sameEntry.1 hwrote.sameEntry.2 hwrote.size_le⟩
        · exact hwrote.kept hbacked.room h.kept hq
    · cases hwrite

theorem NothingLost.run (h : NothingLost fs dirInode name f l ldir σ)
    (hrun : Writes fs (UpToDate fs dirInode name) σ σ') :
    ∃ f' l', NothingLost fs dirInode name f' l' ldir σ' := by
  induction hrun with
  | start => exact ⟨f, l, h⟩
  | next _ hbefore hwrite ih =>
    obtain ⟨f₁, l₁, h₁⟩ := ih
    exact h₁.write hbefore hwrite

/-- **No update is lost while the inodes are up to date.**  However the successful writes
through the handles of one file follow each other, if each goes through an inode
that is up to date, a fresh lookup and every read find the byte last written at each
position. -/
theorem handles_reads {q : Nat} {b : UInt8}
    (hfile : Backed fs σ.disk dirInode.cluster name f l ldir)
    (hdir : dirInode.isDir = true) (hopen : Opened fs dirInode name σ)
    (hrun : Writes fs (UpToDate fs dirInode name) σ σ') (hq : σ'.written q = some b) :
    Reads fs σ'.disk dirInode name q b := by
  obtain ⟨f', l', h⟩ := (NothingLost.of_opened hfile hdir hopen).run hrun
  obtain ⟨hlt, rfl⟩ := h.kept q b hq
  exact h.toBacked.reads hdir hlt

end Runs

/-! ## Two handles of an empty file -/

/-- The root directory of the small volume. -/
def rootInode : FatInode :=
  { cluster := 2, size := 0, isDir := true, parentCluster := 0, dirSector := 0, dirOffset := 0,
    ino := 2, inodeSize := 0 }

/-- The entry of `alphabet`. -/
def foundA : Found := { cluster := 0, size := 0, isDir := false, sector := 2, offset := 32 }

theorem backed_twoFiles : Backed smallFs twoFiles 2 nameA foundA [] [2] where
  sane := sane_smallDisk _
  dirChain := chain_smallDisk _
  entry := by decide +kernel
  isFile := rfl
  chain := ⟨⟨show ¬ IsLink 0 by decide, by simp⟩, by simp⟩
  start _ := rfl
  room := le_refl _
  apart := List.disjoint_nil_left _

/-- `alphabet` opened twice. -/
def openedTwice : Handles Bool :=
  { disk := twoFiles, inode := fun _ => openedInode rootInode foundA, written := fun _ => none }

theorem opened_openedTwice : Opened smallFs rootInode nameA openedTwice :=
  ⟨fun _ => backed_twoFiles.toEntered.opened rfl, fun _ => rfl⟩

/-- Both bytes through the handle that has got the first cluster. -/
theorem handles_reads_first : ∃ σ : Handles Bool,
    Writes smallFs (UpToDate smallFs rootInode nameA) openedTwice σ ∧ σ.written 0 = some 65 ∧
      Reads smallFs σ.disk rootInode nameA 0 65 := by
  have heval : ((openedTwice.write smallFs false 0 [65]).bind fun σ =>
      (σ.write smallFs false 1 [66]).map fun σ' =>
        (fat32Lookup smallFs σ.disk 2 nameA, (σ.inode false).cluster, σ'.written 0)) =
      some (some (some { foundA with cluster := 3, size := 1 }), 3, some 65) := by
    decide +kernel
  obtain ⟨σ, hfirst, hrest⟩ := Option.bind_eq_some_iff.mp heval
  obtain ⟨σ', hsecond, heq⟩ := Option.map_eq_some_iff.mp hrest
  simp only [Prod.mk.injEq] at heq
  obtain ⟨hlookup, hcluster, hwritten⟩ := heq
  have hrun : Writes smallFs (UpToDate smallFs rootInode nameA) openedTwice σ' :=
    .next (.next .start
      (fun _ => ⟨by decide, foundA, backed_twoFiles.entry, rfl, fun _ => by decide⟩)
      hfirst) (fun _ => ⟨by decide, _, hlookup, hcluster, fun _ => by decide⟩) hsecond
  exact ⟨σ', hrun, hwritten,
    handles_reads backed_twoFiles rfl opened_openedTwice hrun hwritten⟩

/-- One byte through each handle: the second handle still has no cluster, takes a new
one and puts it in the entry, and the first byte is lost. -/
theorem twoHandles_lose : ∃ σ : Handles Bool, Writes smallFs (InOrder 0) openedTwice σ ∧
    σ.written 0 = some 65 ∧ ¬ Reads smallFs σ.disk rootInode nameA 0 65 := by
  have heval : ((openedTwice.write smallFs false 0 [65]).bind fun σ =>
      (σ.write smallFs true 1 [66]).map fun σ' =>
        (σ.written 0, σ.written 1, σ'.written 0,
          (fat32VfsLookup smallFs σ'.disk rootInode nameA true).join.map fun inode =>
            (fat32VfsRead smallFs σ'.disk inode 0 1).2)) =
      some (some 65, none, some 65, some [0]) := by
    decide +kernel
  obtain ⟨σ, hfirst, hrest⟩ := Option.bind_eq_some_iff.mp heval
  obtain ⟨σ', hsecond, heq⟩ := Option.map_eq_some_iff.mp hrest
  simp only [Prod.mk.injEq] at heq
  obtain ⟨hzero, hone, hwritten, hread⟩ := heq
  refine ⟨σ', .next
    (.next .start ⟨fun _ _ _ => rfl, fun q hq => absurd hq (Nat.not_lt_zero q)⟩ hfirst)
    ⟨fun q hlo hhi => ?_, fun q hq => ?_⟩ hsecond, hwritten, ?_⟩
  · obtain rfl : q = 1 := by
      simp only [List.length_singleton] at hhi
      omega
    exact hone
  · obtain rfl : q = 0 := by omega
    rw [hzero]
    exact .inr rfl
  · rintro ⟨inode, hlookup, hreads⟩
    obtain ⟨bytes, heq, hbyte⟩ := hreads 0 1 (le_refl 0) (by decide)
    rw [hlookup, Option.join_some, Option.map_some, heq] at hread
    obtain rfl : bytes = [0] := Option.some.inj hread
    simp at hbyte

/-- Writes to new positions without a hole can lose an update. -/
theorem twoHandles_not_reads :
    ¬ ∀ (fs : Fat32Fs) (dir : FatInode) (name : CStr) (f : Found) (l ldir : List Nat)
      (σ σ' : Handles Bool), Backed fs σ.disk dir.cluster name f l ldir → dir.isDir = true →
      Opened fs dir name σ → Writes fs (InOrder f.size) σ σ' →
      ∀ q b, σ'.written q = some b → Reads fs σ'.disk dir name q b := by
  intro hall
  obtain ⟨σ, hrun, hwritten, hlost⟩ := twoHandles_lose
  exact hlost (hall smallFs rootInode nameA foundA [] [2] openedTwice σ backed_twoFiles rfl
    opened_openedTwice hrun 0 65 hwritten)

end Lumin.Fs.Fat32
