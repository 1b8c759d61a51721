import Lumin.Fs.Fat32.Chains

/-!
# Mounting a volume

A model of `fat32_mount` of `kernel/fs/fat32.c`.  The end of the tables is
computed in 32 bits and compared with the number of sectors, so that tables
that are too large for 32 bits pass.  Where they are not, every sector of every
cluster lies inside the volume and behind the tables.
-/

namespace Lumin.Fs.Fat32

open Lumin.Lib Lumin.Block

/-- The fields of `struct fat32_bpb` that are read. -/
structure Fat32Bpb where
  bytesPerSector : Nat
  sectorsPerCluster : Nat
  reservedSectors : Nat
  numFats : Nat
  totalSectors16 : Nat
  totalSectors32 : Nat
  sectorsPerFat32 : Nat
  rootCluster : Nat
  deriving DecidableEq, Repr

/-- The fields at their places in the boot sector. -/
def readBpb (buf : Mem) : Fat32Bpb :=
  { bytesPerSector := rdLE buf 11 2
    sectorsPerCluster := rdLE buf 13 1
    reservedSectors := rdLE buf 14 2
    numFats := rdLE buf 16 1
    totalSectors16 := rdLE buf 19 2
    totalSectors32 := rdLE buf 32 4
    sectorsPerFat32 := rdLE buf 36 4
    rootCluster := rdLE buf 44 4 }

def isPow2 (v : Nat) : Bool := v ≠ 0 ∧ v &&& (v - 1) = 0

def Fat32Bpb.totalSectors (bpb : Fat32Bpb) : Nat :=
  if bpb.totalSectors32 ≠ 0 then bpb.totalSectors32 else bpb.totalSectors16

/-- `fat_end`, in 32 bits. -/
def Fat32Bpb.fatEnd (bpb : Fat32Bpb) : Nat :=
  u32 (bpb.reservedSectors + u32 (bpb.numFats * bpb.sectorsPerFat32))

/-- `fat32_mount`: the volume, or `none` for -1. -/
def fat32Mount (d : Disk) : Option Fat32Fs :=
  match blockRead d 0 with
  | none => none
  | some buf =>
    let bpb := readBpb buf
    if buf 510 ≠ 0x55 ∨ buf 511 ≠ 0xAA then none
    else if bpb.sectorsPerFat32 = 0 then none
    else if bpb.bytesPerSector ≠ 512 then none
    else if isPow2 bpb.sectorsPerCluster = false ∨ bpb.sectorsPerCluster > 128 then none
    else if bpb.reservedSectors = 0 ∨ bpb.reservedSectors > 1024 then none
    else if bpb.numFats ≠ 1 ∧ bpb.numFats ≠ 2 then none
    else if bpb.rootCluster < 2 then none
    else if bpb.totalSectors = 0 then none
    else if bpb.fatEnd ≥ bpb.totalSectors then none
    else
      some
        { fatStart := bpb.reservedSectors
          dataStart := bpb.fatEnd
          sectorsPerFat := bpb.sectorsPerFat32
          totalClusters := (bpb.totalSectors - bpb.fatEnd) / bpb.sectorsPerCluster
          sectorsPerCluster := bpb.sectorsPerCluster
          rootCluster := bpb.rootCluster }

/-- The last sector of the tables, in natural numbers. -/
def Fat32Bpb.tablesEnd (bpb : Fat32Bpb) : Nat :=
  bpb.reservedSectors + bpb.numFats * bpb.sectorsPerFat32

/-- The sectors of the volume's clusters are where its boot sector puts them. -/
structure SoundGeometry (bpb : Fat32Bpb) (fs : Fat32Fs) : Prop where
  dataStart : fs.dataStart = bpb.tablesEnd
  noWrap : ∀ c, InVolume fs c → ∀ k < fs.sectorsPerCluster,
    u32 (firstSector fs c + k) = fs.dataStart + (c - 2) * fs.sectorsPerCluster + k
  inside : ∀ c, InVolume fs c →
    ∀ k < fs.sectorsPerCluster, u32 (firstSector fs c + k) < bpb.totalSectors
  apart : ∀ c, InVolume fs c → ∀ k < fs.sectorsPerCluster,
    ¬ (fs.fatStart ≤ u32 (firstSector fs c + k) ∧
      u32 (firstSector fs c + k) < fs.fatStart + bpb.numFats * bpb.sectorsPerFat32)

variable {d : Disk} {fs : Fat32Fs} {buf : Mem} {bpb : Fat32Bpb} {c k : Nat}

/-! ## What is checked -/

/-- What `fat32_mount` knows of a volume that it accepts. -/
structure Mounted (bpb : Fat32Bpb) (fs : Fat32Fs) : Prop where
  spc_pos : 0 < fs.sectorsPerCluster
  spc_le : fs.sectorsPerCluster ≤ 128
  spf_pos : 0 < bpb.sectorsPerFat32
  fats : bpb.numFats = 1 ∨ bpb.numFats = 2
  root : 2 ≤ fs.rootCluster
  fatStart_pos : 0 < fs.fatStart
  fatStart_le : fs.fatStart ≤ 1024
  fatStart : fs.fatStart = bpb.reservedSectors
  perFat : fs.sectorsPerFat = bpb.sectorsPerFat32
  dataStart : fs.dataStart = bpb.fatEnd
  before : bpb.fatEnd < bpb.totalSectors
  total : fs.totalClusters = (bpb.totalSectors - fs.dataStart) / fs.sectorsPerCluster

theorem mounted_of_mount (hread : blockRead d 0 = some buf) (h : fat32Mount d = some fs) :
    Mounted (readBpb buf) fs := by
  unfold fat32Mount at h
  rw [hread] at h
  simp only [Option.ite_none_left_eq_some, Option.some.injEq] at h
  generalize readBpb buf = bpb at h ⊢
  obtain ⟨-, hspf, -, hspc, hreserved, hfats, hroot, -, hend, rfl⟩ := h
  have hpos : bpb.sectorsPerCluster ≠ 0 := by
    intro hzero
    rw [hzero] at hspc
    exact hspc (.inl rfl)
  exact
    { spc_pos := Nat.pos_of_ne_zero hpos
      spc_le := not_lt.mp fun hgt => hspc (.inr hgt)
      spf_pos := Nat.pos_of_ne_zero hspf
      fats := by omega
      root := not_lt.mp hroot
      fatStart_pos := Nat.pos_of_ne_zero fun hzero => hreserved (.inl hzero)
      fatStart_le := not_lt.mp fun hgt => hreserved (.inr hgt)
      fatStart := rfl
      perFat := rfl
      dataStart := rfl
      before := not_le.mp hend
      total := rfl }

theorem totalSectors_lt (buf : Mem) : (readBpb buf).totalSectors < 2 ^ 32 := by
  have h32 : rdLE buf 32 4 < 256 ^ 4 := rdLE_lt buf 32 4
  have h16 : rdLE buf 19 2 < 256 ^ 2 := rdLE_lt buf 19 2
  unfold Fat32Bpb.totalSectors readBpb
  simp only
  split <;> omega

/-! ## Where the clusters lie -/

theorem fatEnd_of_lt (h : bpb.tablesEnd < 2 ^ 32) : bpb.fatEnd = bpb.tablesEnd := by
  unfold Fat32Bpb.tablesEnd at h
  rw [Fat32Bpb.fatEnd, u32_of_lt (show bpb.numFats * bpb.sectorsPerFat32 < 2 ^ 32 by omega),
    u32_of_lt h]
  rfl

/-- The clusters of a mounted volume end with its last sector at most. -/
theorem Mounted.clusters_le (h : Mounted bpb fs) :
    fs.dataStart + fs.totalClusters * fs.sectorsPerCluster ≤ bpb.totalSectors := by
  have hbefore := h.before
  have hle := Nat.div_mul_le_self (bpb.totalSectors - fs.dataStart) fs.sectorsPerCluster
  rw [← h.total] at hle
  rw [← h.dataStart] at hbefore
  omega

/-- A sector of a cluster, in natural numbers. -/
theorem Mounted.sector_lt (h : Mounted bpb fs) (hc : InVolume fs c)
    (hk : k < fs.sectorsPerCluster) :
    fs.dataStart + (c - 2) * fs.sectorsPerCluster + k < bpb.totalSectors := by
  have hle := h.clusters_le
  have hc' : c - 2 + 1 ≤ fs.totalClusters := by
    have := hc.1
    have := hc.2
    omega
  have hmul := Nat.mul_le_mul_right fs.sectorsPerCluster hc'
  rw [Nat.add_mul, Nat.one_mul] at hmul
  omega

theorem Mounted.sector_eq (h : Mounted bpb fs) (hlt : bpb.totalSectors < 2 ^ 32)
    (hc : InVolume fs c)
    (hk : k < fs.sectorsPerCluster) :
    u32 (firstSector fs c + k) = fs.dataStart + (c - 2) * fs.sectorsPerCluster + k := by
  have hsector := h.sector_lt hc hk
  unfold firstSector
  rw [u32_of_lt (show (c - 2) * fs.sectorsPerCluster < 2 ^ 32 by omega),
    u32_of_lt (show fs.dataStart + (c - 2) * fs.sectorsPerCluster < 2 ^ 32 by omega),
      u32_of_lt (by omega)]

/-- What the other modules assume of the places of a volume's sectors is what
`fat32_mount` has checked, if the tables end below `2 ^ 32`. -/
theorem Mounted.fits (h : Mounted bpb fs) (hlt : bpb.totalSectors < 2 ^ 32)
    (htables : bpb.tablesEnd < 2 ^ 32) :
    fs.fatStart + fs.sectorsPerFat ≤ fs.dataStart ∧
      fs.dataStart + fs.totalClusters * fs.sectorsPerCluster ≤ 2 ^ 32 := by
  have hle := h.clusters_le
  refine ⟨?_, by omega⟩
  rw [h.dataStart, fatEnd_of_lt htables, h.fatStart, h.perFat, Fat32Bpb.tablesEnd]
  rcases h.fats with hfats | hfats <;> rw [hfats] <;> omega

/-- **An accepted geometry is sound** exactly if the tables end below `2 ^ 32`. -/
theorem soundGeometry_iff (hread : blockRead d 0 = some buf) (h : fat32Mount d = some fs) :
    SoundGeometry (readBpb buf) fs ↔
      (readBpb buf).reservedSectors + (readBpb buf).numFats * (readBpb buf).sectorsPerFat32 <
        2 ^ 32 := by
  have hmounted := mounted_of_mount hread h
  have hlt := totalSectors_lt buf
  constructor
  · intro hsound
    have hend := hsound.dataStart
    rw [hmounted.dataStart] at hend
    show (readBpb buf).tablesEnd < 2 ^ 32
    rw [← hend]
    exact u32_lt _
  · intro htables
    have hstart : fs.dataStart = (readBpb buf).tablesEnd :=
      hmounted.dataStart.trans (fatEnd_of_lt htables)
    refine ⟨hstart, fun c hc k hk => hmounted.sector_eq hlt hc hk, fun c hc k hk => ?_,
      fun c hc k hk => ?_⟩
    · rw [hmounted.sector_eq hlt hc hk]
      exact hmounted.sector_lt hc hk
    · rw [hmounted.sector_eq hlt hc hk, hstart, Fat32Bpb.tablesEnd, hmounted.fatStart]
      omega

/-! ## Boot sectors -/

/-- A boot sector with 512 bytes per sector, one sector per cluster, 32 reserved sectors,
two tables, 1000 sectors and the root in cluster 2. -/
def bootSector (sectorsPerFat : Nat) : Mem :=
  [(13, 1, 1), (14, 2, 32), (16, 1, 2), (32, 4, 1000), (36, 4, sectorsPerFat), (44, 4, 2),
    (510, 2, 0xAA55)].foldl (fun buf x => wrLE buf x.1 x.2.1 x.2.2) (wrLE (fun _ => 0) 11 2 512)

def bootDisk (sectorsPerFat : Nat) : Disk :=
  { sectorCount := 1000, readFails := fun _ => false, writeFails := fun _ => false,
    data := fun s => if s = 0 then bootSector sectorsPerFat else fun _ => 0 }

theorem soundGeometry_iff_eight :
    ∃ fs, fat32Mount (bootDisk 8) = some fs ∧ (SoundGeometry (readBpb (bootSector 8)) fs ↔
      (readBpb (bootSector 8)).reservedSectors +
        (readBpb (bootSector 8)).numFats * (readBpb (bootSector 8)).sectorsPerFat32 <
          2 ^ 32) := by
  have hmount : (fat32Mount (bootDisk 8)).isSome = true := by decide +kernel
  obtain ⟨fs, hfs⟩ := Option.isSome_iff_exists.mp hmount
  exact ⟨fs, hfs, soundGeometry_iff rfl hfs⟩

/-- Two tables of `2 ^ 31` sectors pass: the data area begins where the first table
does. -/
theorem largeTables_not_sound :
    ∃ fs, fat32Mount (bootDisk (2 ^ 31)) = some fs ∧ fs.fatStart = 32 ∧ fs.dataStart = 32 ∧
      ¬ SoundGeometry (readBpb (bootSector (2 ^ 31))) fs := by
  have hmount : (fat32Mount (bootDisk (2 ^ 31))).map (fun fs => (fs.fatStart, fs.dataStart)) =
      some (32, 32) := by decide +kernel
  obtain ⟨fs, hfs, hstart⟩ := Option.map_eq_some_iff.mp hmount
  obtain ⟨hfat, hdata⟩ := Prod.mk.inj hstart
  refine ⟨fs, hfs, hfat, hdata, fun hsound => ?_⟩
  have hend := hsound.dataStart
  rw [hdata] at hend
  exact absurd hend (by decide +kernel)

end Lumin.Fs.Fat32
