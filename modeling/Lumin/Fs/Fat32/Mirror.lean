import Lumin.Lib.Transition
import Lumin.Fs.Fat32.Chains
import Lumin.Fs.Fat32.File
import Lumin.Fs.Fat32.Dir

/-!
# The second copy of the table

`fat32_mount` accepts a volume with two copies of the table and puts the data
area behind them.  Every function of `kernel/fs/fat32.c` that changes an entry
writes the first copy, and none of them writes the second.  This module follows
the five calls that change a volume, as far as they write sectors: a table entry
of a cluster, or a sector outside of both copies.

* `TwoFats` is a volume with two copies whose links stay inside it.
* `Spares` is what every call does: the volume is still one, and its second copy
  is what it was.
-/

namespace Lumin.Fs.Fat32

open Lumin.Lib Lumin.Block

/-- A cluster number that a walk follows only inside the volume. -/
def PointsInside (fs : Fat32Fs) (c : Nat) : Prop := IsLink c → InVolume fs c

instance (fs : Fat32Fs) : DecidablePred (PointsInside fs) := fun c =>
  inferInstanceAs (Decidable (IsLink c → InVolume fs c))

/-- A mounted volume with `num_fats = 2`: there is a boot sector, the data area
begins behind the second copy, a sector number of the volume has 32 bits, and no
link leaves the volume. -/
structure TwoFats (fs : Fat32Fs) (d : Disk) : Prop extends Sane fs d where
  reserved : 0 < fs.fatStart
  behind : fs.dataStart = fs.fatStart + 2 * fs.sectorsPerFat
  sectors_lt : fs.dataStart + fs.totalClusters * fs.sectorsPerCluster < 2 ^ 32
  links : ∀ c, InVolume fs c → PointsInside fs (fatNextCluster fs d c)

/-- The two copies hold the same bytes. -/
def CopiesEqual (fs : Fat32Fs) (d : Disk) : Prop :=
  ∀ s < fs.sectorsPerFat, ∀ i < 512,
    d.data (fs.fatStart + s) i = d.data (fs.fatStart + fs.sectorsPerFat + s) i

/-- The first copy holds the bytes that it held in `d`. -/
def FirstKept (fs : Fat32Fs) (d d' : Disk) : Prop :=
  ∀ s < fs.sectorsPerFat, ∀ i < 512, d'.data (fs.fatStart + s) i = d.data (fs.fatStart + s) i

/-- The second copy holds the bytes that it held in `d`. -/
def SecondKept (fs : Fat32Fs) (d d' : Disk) : Prop :=
  ∀ s < fs.sectorsPerFat, ∀ i < 512,
    d'.data (fs.fatStart + fs.sectorsPerFat + s) i = d.data (fs.fatStart + fs.sectorsPerFat + s) i

/-- The volume is still one with two copies, and the second copy is what it was. -/
structure Spares (fs : Fat32Fs) (d d' : Disk) : Prop where
  volume : TwoFats fs d'
  second : SecondKept fs d d'

variable {fs : Fat32Fs} {d d' d'' : Disk} {c v s : Nat} {buf : Mem}

theorem TwoFats.spares_refl (h : TwoFats fs d) : Spares fs d d := ⟨h, fun _ _ _ _ => rfl⟩

theorem Spares.trans (h : Spares fs d d') (h' : Spares fs d' d'') : Spares fs d d'' :=
  ⟨h'.volume, fun s hs i hi => (h'.second s hs i hi).trans (h.second s hs i hi)⟩

theorem pointsInside_of_not_isLink (h : ¬ IsLink c) :
    PointsInside fs c := fun hlink => absurd hlink h

theorem pointsInside_free : PointsInside fs FAT32_FREE := pointsInside_of_not_isLink (by decide)

theorem pointsInside_zero : PointsInside fs 0 := pointsInside_of_not_isLink (by decide)

theorem pointsInside_eoc : PointsInside fs FAT32_EOC := pointsInside_of_not_isLink (by decide)

theorem PointsInside.of_inVolume (h : InVolume fs c) : PointsInside fs c := fun _ => h

/-! ## Single writes -/

/-- A sector that belongs to neither copy. -/
def OutsideTables (fs : Fat32Fs) (s : Nat) : Prop := s < fs.fatStart ∨ fs.dataStart ≤ s

/-- A write outside of the copies changes no entry. -/
theorem TwoFats.setSector_spares (h : TwoFats fs d) (hout : OutsideTables fs s) (buf : Mem) :
    Spares fs d (d.setSector s buf) := by
  have hdev := sameDevice_setSector d s buf
  have hbehind := h.behind
  refine ⟨{ h with toSane := h.toSane.of_sameDevice hdev, links := fun c hc => ?_ }, ?_⟩
  · have hsector := fatSector_eq h.toSane hc.2
    rw [fatNextCluster_eq (h.toSane.of_sameDevice hdev) hc.2, setSector_data_ne d buf,
      ← fatNextCluster_eq h.toSane hc.2]
    · exact h.links c hc
    · unfold OutsideTables at hout
      omega
  · intro t ht i hi
    rw [setSector_data_ne d buf]
    unfold OutsideTables at hout
    omega

theorem blockWrite_eq (h : blockWrite d s buf = some d') : d' = d.setSector s buf := by
  unfold blockWrite at h
  split at h
  · cases h
  · exact (Option.some.inj h).symm

theorem TwoFats.blockWrite_spares (h : TwoFats fs d) (hout : OutsideTables fs s)
    (hwrite : blockWrite d s buf = some d') : Spares fs d d' := by
  rw [blockWrite_eq hwrite]
  exact h.setSector_spares hout buf

/-- A write whose failure is ignored. -/
theorem TwoFats.blockWrite_getD (h : TwoFats fs d) (hout : OutsideTables fs s) (buf : Mem) :
    Spares fs d ((blockWrite d s buf).getD d) := by
  cases hwrite : blockWrite d s buf with
  | none => exact h.spares_refl
  | some d' => exact h.blockWrite_spares hout hwrite

theorem TwoFats.of_setEntry (h : TwoFats fs d) (hset : SetEntry fs d d' c v)
    (hv : PointsInside fs v) : TwoFats fs d' := by
  refine { h with toSane := h.toSane.of_sameDevice hset.sameData.1, links := fun c' hc' => ?_ }
  by_cases heq : c' = c
  · rw [heq, hset.entry]
    exact hv
  · rw [hset.others c' hc'.2 heq]
    exact h.links c' hc'

/-- `fat_set_cluster` writes the first copy. -/
theorem TwoFats.fatSetCluster_spares (h : TwoFats fs d) (hc : InVolume fs c) (hlt : v < FAT_SPAN)
    (hv : PointsInside fs v) : Spares fs d ((fatSetCluster fs d c v).getD d) := by
  obtain ⟨d', heq, hset⟩ := fatSetCluster_spec h.toSane hc.2 hlt
  obtain ⟨hsector, -, -, hin⟩ := fatSector_eq h.toSane hc.2
  rw [heq]
  refine ⟨h.of_setEntry hset hv, fun s hs i hi => ?_⟩
  unfold fatSetCluster at heq
  rw [hsector, blockRead_of_works h.works hin] at heq
  have hcovers := h.table_covers
  have hlt := hc.2
  rw [Option.getD_some, blockWrite_eq heq, setSector_data_ne _ _ (by omega)]

theorem allocLoop_second (h : TwoFats fs d) (n s : Nat) (hn : s + n = fs.sectorsPerFat) :
    SecondKept fs d (allocLoop fs d n s).2 := by
  induction n generalizing s with
  | zero => exact fun _ _ _ _ => rfl
  | succ n ih =>
    have hbehind := h.behind
    have hlt := h.sectors_lt
    rw [allocLoop, u32_of_lt (by omega)]
    split
    · exact fun _ _ _ _ => rfl
    · split
      · exact ih (s + 1) (by omega)
      · dsimp only
        split
        · exact fun _ _ _ _ => rfl
        · split
          · exact fun _ _ _ _ => rfl
          next hwrite =>
            intro t ht i hi
            rw [blockWrite_eq hwrite, setSector_data_ne _ _ (by omega)]

/-- `fat_alloc_cluster` writes the first copy, and what it returns is a cluster of
the volume or no link. -/
theorem TwoFats.fatAllocCluster_spares (h : TwoFats fs d) :
    Spares fs d (fatAllocCluster fs d).2 ∧
      (FAT32_EOC ≤ (fatAllocCluster fs d).1 ∨ InVolume fs (fatAllocCluster fs d).1) := by
  have hsecond := allocLoop_second h fs.sectorsPerFat 0 (Nat.zero_add _)
  rcases fatAllocCluster_spec h.toSane with ⟨hfree, hset⟩ | ⟨heq, -⟩
  · exact ⟨⟨h.of_setEntry hset pointsInside_eoc, hsecond⟩, .inr hfree.1⟩
  · rw [heq]
    exact ⟨h.spares_refl, .inl (le_refl _)⟩

/-! ## Chains -/

theorem TwoFats.next_inside (h : TwoFats fs d) (hc : PointsInside fs c) (hlink : IsLink c) :
    PointsInside fs (fatNextCluster fs d c) :=
  h.links c (hc hlink)

theorem freeLoop_spares {fuel : Nat} (h : TwoFats fs d) (hc : PointsInside fs c)
    (hrun : freeLoop fs fuel d c = some d') : Spares fs d d' := by
  induction fuel generalizing d c with
  | zero => cases hrun
  | succ fuel ih =>
    rw [freeLoop] at hrun
    split at hrun
    next hlink =>
      have hset := h.fatSetCluster_spares (hc hlink) (by decide) pointsInside_free
      exact hset.trans (ih hset.volume (h.next_inside hc hlink) hrun)
    · cases hrun
      exact h.spares_refl

theorem lastLoop_inVolume {fuel last : Nat} (h : TwoFats fs d) (hc : InVolume fs c)
    (hrun : lastLoop fs d fuel c = some last) : InVolume fs last := by
  induction fuel generalizing c with
  | zero => cases hrun
  | succ fuel ih =>
    rw [lastLoop] at hrun
    split at hrun
    next hlink => exact ih (h.links c hc hlink) hrun
    · cases hrun
      exact hc

theorem fatChainLast_inside {last : Nat} (h : TwoFats fs d) (hc : PointsInside fs c)
    (hrun : fatChainLast fs d c = some last) : PointsInside fs last := by
  unfold fatChainLast at hrun
  split at hrun
  next hlink => exact .of_inVolume (lastLoop_inVolume h (hc hlink) hrun)
  · cases hrun
    exact pointsInside_zero

/-- Linking the last cluster of a chain, if there is one, to a new cluster. -/
theorem TwoFats.link_spares {last new : Nat} (h : TwoFats fs d) (hlast : PointsInside fs last)
    (hnew : InVolume fs new) :
    Spares fs d (if IsLink last then (fatSetCluster fs d last new).getD d else d) := by
  split
  next hlink =>
    have hlt : new < FAT_SPAN := lt_trans (hnew.isLink h.toSane).2 (by decide)
    exact h.fatSetCluster_spares (hlast hlink) hlt (.of_inVolume hnew)
  · exact h.spares_refl

theorem fatExtendChain_spares {new : Nat} (h : TwoFats fs d) (hc : PointsInside fs c)
    (hrun : fatExtendChain fs d c = some (new, d')) : Spares fs d d' := by
  unfold fatExtendChain at hrun
  obtain ⟨halloc, hnew⟩ := h.fatAllocCluster_spares
  split at hrun
  · cases hrun
  next last hlast =>
    dsimp only at hrun
    split at hrun
    · cases hrun
      exact halloc
    next hlt =>
      have hlink := halloc.volume.link_spares (fatChainLast_inside h hc hlast)
        (hnew.resolve_left hlt)
      split at hrun <;> cases hrun
      next hl =>
        rw [if_pos hl] at hlink
        exact halloc.trans hlink
      · exact halloc

/-! ## File contents -/

theorem extendLoop_spares {n v' : Nat} {ok : Bool} (h : TwoFats fs d) (hc : PointsInside fs c)
    (hrun : extendLoop fs n d c = some (ok, d', v')) : Spares fs d d' ∧ PointsInside fs v' := by
  induction n generalizing d c with
  | zero =>
    cases hrun
    exact ⟨h.spares_refl, hc⟩
  | succ n ih =>
    rw [extendLoop] at hrun
    split at hrun
    · obtain ⟨halloc, hnew⟩ := h.fatAllocCluster_spares
      dsimp only at hrun
      split at hrun
      next hend =>
        cases hrun
        exact ⟨halloc, pointsInside_of_not_isLink (eoc_not_isLink hend)⟩
      next hlt =>
        obtain ⟨hrest, hv⟩ := ih halloc.volume (.of_inVolume (hnew.resolve_left hlt)) hrun
        exact ⟨halloc.trans hrest, hv⟩
    · split at hrun
      · cases hrun
      next newCl d₁ hextend =>
        have hone := fatExtendChain_spares h hc hextend
        split at hrun
        · cases hrun
          exact ⟨hone, hc⟩
        · obtain ⟨hrest, hv⟩ := ih hone.volume hc hrun
          exact ⟨hone.trans hrest, hv⟩

theorem skipWrite_inside {n cl : Nat} (h : TwoFats fs d) (hc : PointsInside fs c)
    (hrun : skipWrite fs d n c = some cl) : PointsInside fs cl := by
  induction n generalizing c with
  | zero =>
    cases hrun
    exact hc
  | succ n ih =>
    rw [skipWrite] at hrun
    split at hrun
    next hlink => exact ih (h.next_inside hc hlink) hrun
    · cases hrun

/-- The sectors of a cluster of the volume belong to neither copy. -/
theorem TwoFats.outside (h : TwoFats fs d) (hc : InVolume fs c) (hs : s < fs.sectorsPerCluster) :
    OutsideTables fs (u32 (firstSector fs c + s)) := by
  rw [u32_firstSector_add h.toSane hc hs]
  exact .inr (Nat.le_add_right_of_le (dataStart_le_firstSector h.toSane hc))

theorem writeSectors_spares {fuel startByte : Nat} {data : List UInt8} (h : TwoFats fs d)
    (hc : InVolume fs c) :
    Spares fs d (writeSectors fs (firstSector fs c) fuel d startByte data).2.1 := by
  induction fuel generalizing d startByte data with
  | zero => exact h.spares_refl
  | succ fuel ih =>
    rw [writeSectors]
    split
    next hgo =>
      have hsector : startByte / 512 < fs.sectorsPerCluster := by
        have := hgo.1
        unfold Fat32Fs.clusterSize at this
        omega
      have hout := h.outside hc hsector
      dsimp only
      split
      · split
        · exact h.spares_refl
        · split
          · exact h.spares_refl
          next hwrite =>
            have hone := h.blockWrite_spares hout hwrite
            exact hone.trans (ih hone.volume)
      · split
        · exact h.spares_refl
        next hwrite =>
          have hone := h.blockWrite_spares hout hwrite
          exact hone.trans (ih hone.volume)
    · exact h.spares_refl

theorem writeClusters_spares {fuel startByte : Nat} {data : List UInt8} (h : TwoFats fs d)
    (hc : PointsInside fs c) : Spares fs d (writeClusters fs fuel d c startByte data).1 := by
  induction fuel generalizing d c startByte data with
  | zero => exact h.spares_refl
  | succ fuel ih =>
    rw [writeClusters]
    split
    next hgo =>
      have hone : Spares fs d
          (writeSectors fs (firstSector fs c) data.length d startByte data).2.1 :=
        writeSectors_spares h (hc hgo.1)
      split
      next hres =>
        rw [hres] at hone
        exact hone
      next hres =>
        rw [hres] at hone
        exact hone.trans (ih hone.volume (hone.volume.next_inside hc hgo.1))
    · exact h.spares_refl

theorem writeAt_spares {size offset : Nat} {data : List UInt8} (h : TwoFats fs d)
    (hc : PointsInside fs c) : Spares fs d (writeAt fs d c size offset data).2.1 := by
  unfold writeAt
  split
  · exact h.spares_refl
  next hskip => exact writeClusters_spares h (skipWrite_inside h hc hskip)

theorem fat32WriteFile_spares {size offset : Nat} {data : List UInt8} {r : Int × Disk × Nat × Nat}
    (h : TwoFats fs d) (hc : PointsInside fs c)
    (hrun : fat32WriteFile fs d c size offset data = some r) : Spares fs d r.2.1 := by
  unfold fat32WriteFile at hrun
  split at hrun
  · cases hrun
    exact h.spares_refl
  · dsimp only at hrun
    split at hrun
    · split at hrun
      · cases hrun
      · split at hrun
        · cases hrun
        next hloop =>
          cases hrun
          exact (extendLoop_spares h hc hloop).1
        next hloop =>
          cases hrun
          obtain ⟨hgrow, hv⟩ := extendLoop_spares h hc hloop
          exact hgrow.trans (writeAt_spares hgrow.volume hv)
    · cases hrun
      exact writeAt_spares h hc

theorem keepLoop_inside {n prev prev' cl : Nat} (h : TwoFats fs d) (hprev : PointsInside fs prev)
    (hc : PointsInside fs c) (hrun : keepLoop fs d n prev c = some (prev', cl)) :
    PointsInside fs prev' ∧ PointsInside fs cl := by
  induction n generalizing prev c with
  | zero =>
    cases hrun
    exact ⟨hprev, hc⟩
  | succ n ih =>
    rw [keepLoop] at hrun
    split at hrun
    next hlink => exact ih hc (h.next_inside hc hlink) hrun
    · cases hrun

theorem fat32Truncate_spares {size newSize : Nat} {r : Int × Disk × Nat × Nat} (h : TwoFats fs d)
    (hc : PointsInside fs c) (hrun : fat32Truncate fs d c size newSize = some r) :
    Spares fs d r.2.1 := by
  unfold fat32Truncate at hrun
  split at hrun
  · cases hrun
    exact h.spares_refl
  · split at hrun
    · split at hrun
      · cases hrun
      next hfree =>
        cases hrun
        exact freeLoop_spares h hc hfree
    · split at hrun
      · cases hrun
        exact h.spares_refl
      next hkeep =>
        obtain ⟨hprev, hcl⟩ := keepLoop_inside h pointsInside_zero hc hkeep
        split at hrun
        · cases hrun
        next hfree =>
          have hfreed := freeLoop_spares h hcl hfree
          cases hrun
          dsimp only
          split
          next hlink =>
            exact hfreed.trans (hfreed.volume.fatSetCluster_spares (hprev hlink) (by decide)
              pointsInside_eoc)
          · exact hfreed

/-! ## Directories -/

section Holds

variable {σ ρ β : Type}

/-- What holds of a loop's state when it goes on, and of its result when it returns. -/
def Holds (P : σ → Prop) (Q : ρ → Prop) : Except ρ σ → Prop
  | .ok st => P st
  | .error r => Q r

variable {P : σ → Prop} {Q : ρ → Prop}

theorem foldlM_holds {f : σ → β → Except ρ σ} {xs : List β} {st : σ}
    (hstep : ∀ x ∈ xs, ∀ st, P st → Holds P Q (f st x)) (hst : P st) :
    Holds P Q (xs.foldlM f st) := by
  induction xs generalizing st with
  | nil => exact hst
  | cons x xs ih =>
    have hone := hstep x (by simp) st hst
    rw [List.foldlM_cons]
    cases hres : f st x with
    | error r =>
      rw [hres] at hone
      exact hone
    | ok st' =>
      rw [hres] at hone
      exact ih (fun y hy => hstep y (by simp [hy])) hone

/-- The invariant rule for a scan of a directory: it visits sectors of the volume. -/
theorem scanLoop_holds {onFail : σ → Except ρ σ} {visit : σ → Nat × Nat → Slot → Except ρ σ}
    {fuel : Nat} {st : σ} {r : Except ρ σ} (h : TwoFats fs d)
    (hfail : ∀ st, P st → Holds P Q (onFail st))
    (hvisit : ∀ st pos slot, P st → fs.dataStart ≤ pos.1 →
      pos.1 < fs.dataStart + fs.totalClusters * fs.sectorsPerCluster →
        Holds P Q (visit st pos slot))
    (hc : PointsInside fs c) (hst : P st) (hrun : scanLoop fs d onFail visit fuel st c = some r) :
    Holds P Q r := by
  induction fuel generalizing st c with
  | zero => cases hrun
  | succ fuel ih =>
    rw [scanLoop] at hrun
    split at hrun
    next hlink =>
      have hin := hc hlink
      have hcluster : Holds P Q (scanCluster fs d onFail visit st c) := by
        refine foldlM_holds (fun s hs st hst => ?_) hst
        have hlt := List.mem_range.mp hs
        have hlo := dataStart_le_firstSector h.toSane hin
        have hhi := firstSector_add_lt h.toSane hin hlt
        rw [u32_firstSector_add h.toSane hin hlt]
        unfold scanSector
        split
        · exact hfail st hst
        · exact foldlM_holds (fun ei _ st hst => hvisit st _ _ hst (by omega) (by omega)) hst
      split at hrun
      next hres =>
        cases hrun
        rw [hres] at hcluster
        exact hcluster
      next hres =>
        rw [hres] at hcluster
        exact ih (h.next_inside hc hlink) hcluster hrun
    · cases hrun
      exact hst

end Holds

/-- A sector of the volume's data area. -/
def InData (fs : Fat32Fs) (s : Nat) : Prop :=
  fs.dataStart ≤ s ∧ s < fs.dataStart + fs.totalClusters * fs.sectorsPerCluster

/-- The run that `dir_write_entries` finds begins in a sector of the volume. -/
theorem search_inData {total dir : Nat} {r : Except (Option (Nat × Nat)) RunSearch}
    (h : TwoFats fs d)
    (hc : PointsInside fs dir)
    (hrun : scanDir fs d (fun _ => .error none) (runSlot total)
      { slotsFound := 0, runStart := 0, runBaseSector := 0, absEntry := 0 } dir = some r) :
    Holds (fun st => st.slotsFound = 0 ∨ InData fs st.runBaseSector)
      (fun found => ∀ run ∈ found, InData fs run.2) r := by
  refine scanLoop_holds h (fun _ _ => by simp [Holds]) (fun st pos slot hst hlo hhi => ?_) hc
    (.inl rfl)
    hrun
  unfold runSlot
  split
  · have hbase : InData fs (if st.slotsFound = 0 then
        { st with runStart := st.absEntry, runBaseSector := pos.1 } else st).runBaseSector := by
      split
      · exact ⟨hlo, hhi⟩
      next hpos => exact hst.resolve_left hpos
    dsimp only
    generalize (if st.slotsFound = 0 then
      { st with runStart := st.absEntry, runBaseSector := pos.1 } else st) = st' at hbase ⊢
    split
    · intro run hmem
      cases hmem
      exact hbase
    · exact Or.inr hbase
  · exact Or.inl rfl

theorem writeSlot_spares {ei : Nat} {slot : Slot} (h : TwoFats fs d) (hout : OutsideTables fs s)
    (hrun : writeSlot d s ei slot = some d') : Spares fs d d' := by
  unfold writeSlot at hrun
  split at hrun
  · cases hrun
  · exact h.blockWrite_spares hout hrun

theorem TwoFats.writeSlot_getD (h : TwoFats fs d) (hout : OutsideTables fs s) (ei : Nat)
    (slot : Slot) : Spares fs d ((writeSlot d s ei slot).getD d) := by
  cases hwrite : writeSlot d s ei slot with
  | none => exact h.spares_refl
  | some d' => exact writeSlot_spares h hout hwrite

/-- A run of slots leaves the copies alone: it may go on behind its cluster, but no
further than two sectors, so that at most the boot sector is met when the sector
number wraps. -/
theorem writeRun_spares {runStart base k : Nat} {slots : List Slot} (h : TwoFats fs d)
    (hbase : InData fs base) (hlen : k + slots.length ≤ 32) :
    Spares fs d (writeRun runStart base k slots d).2 := by
  induction slots generalizing d k with
  | nil => exact h.spares_refl
  | cons slot slots ih =>
    rw [List.length_cons] at hlen
    have hout : OutsideTables fs (runPlace runStart base k).1 := by
      have hlt := h.sectors_lt
      have hreserved := h.reserved
      obtain ⟨hlo, hhi⟩ := hbase
      unfold runPlace u32 OutsideTables
      dsimp only
      omega
    rw [writeRun]
    split
    · exact h.spares_refl
    next hwrite =>
      have hone := writeSlot_spares h hout hwrite
      split
      · exact hone
      · exact hone.trans (ih hone.volume (by omega))

theorem zeroCluster_spares (h : TwoFats fs d) (hc : InVolume fs c) :
    Spares fs d (zeroCluster fs d c) := by
  have hmain : ∀ sectors : List Nat, (∀ s ∈ sectors, s < fs.sectorsPerCluster) →
      ∀ d, TwoFats fs d →
      Spares fs d (sectors.foldl
        (fun d s => (blockWrite d (u32 (firstSector fs c + s)) fun _ => 0).getD d) d) := by
    intro sectors
    induction sectors with
    | nil => exact fun _ d h => h.spares_refl
    | cons s sectors ih =>
      intro hlt d h
      have hone := h.blockWrite_getD (h.outside hc (hlt s (by simp))) fun _ => 0
      rw [List.foldl_cons]
      exact hone.trans (ih (fun t ht => hlt t (by simp [ht])) _ hone.volume)
  exact hmain _ (fun s hs => List.mem_range.mp hs) d h

theorem TwoFats.inData_firstSector (h : TwoFats fs d) (hc : InVolume fs c) :
    InData fs (firstSector fs c) :=
  ⟨dataStart_le_firstSector h.toSane hc, firstSector_add_lt h.toSane hc h.spc_pos⟩

theorem newSlots_length_le (name : CStr) (name11 : List UInt8) (attr : UInt8) (cluster : Nat) :
    (newSlots name name11 attr cluster).length ≤ 21 := by
  simp only [newSlots, buildLfnEntries, List.length_append, List.length_map, List.length_range,
    List.length_singleton, FAT32_MAX_LFN_ENTRIES]
  omega

theorem dirWriteEntriesExt_spares {dir : Nat} {slots : List Slot} {r : Option (Nat × Nat) × Disk}
    (h : TwoFats fs d) (hc : PointsInside fs dir) (hlen : slots.length ≤ 32)
    (hrun : dirWriteEntriesExt fs d dir slots = some r) : Spares fs d r.2 := by
  unfold dirWriteEntriesExt at hrun
  obtain ⟨halloc, hnew⟩ := h.fatAllocCluster_spares
  dsimp only at hrun
  split at hrun
  · cases hrun
    exact halloc
  next hlt =>
    have hin := hnew.resolve_left hlt
    split at hrun
    · cases hrun
    next last hlast =>
      have hinside : PointsInside fs last := by
        split at hlast
        · exact fatChainLast_inside halloc.volume hc hlast
        · cases hlast
          exact pointsInside_zero
      have hlinked := halloc.trans (halloc.volume.link_spares hinside hin)
      have hzero := hlinked.trans (zeroCluster_spares hlinked.volume hin)
      cases hrun
      exact hzero.trans (writeRun_spares hzero.volume (h.inData_firstSector hin) (by omega))

theorem dirWriteEntries_spares {dir : Nat} {slots : List Slot} {r : Option (Nat × Nat) × Disk}
    (h : TwoFats fs d) (hc : PointsInside fs dir) (hlen : slots.length ≤ 32)
    (hrun : dirWriteEntries fs d dir slots = some r) : Spares fs d r.2 := by
  unfold dirWriteEntries at hrun
  split at hrun
  · cases hrun
  · cases hrun
    exact h.spares_refl
  next hscan =>
    cases hrun
    exact writeRun_spares h (search_inData h hc hscan _ rfl) (by omega)
  · exact dirWriteEntriesExt_spares h hc hlen hrun

theorem fat32CreateFile_spares {dir : Nat} {name : CStr} {r : Option (Nat × Nat) × Disk}
    (h : TwoFats fs d) (hc : PointsInside fs dir)
    (hrun : fat32CreateFile fs d dir name = some r) : Spares fs d r.2 := by
  unfold fat32CreateFile at hrun
  split at hrun
  · cases hrun
    exact h.spares_refl
  · split at hrun
    · cases hrun
    · cases hrun
      exact h.spares_refl
    · split at hrun
      · cases hrun
      next name11 _ =>
        have hlen := newSlots_length_le name name11 ATTR_ARCHIVE 0
        exact dirWriteEntries_spares h hc (by omega) hrun

theorem fat32Mkdir_spares {dir : Nat} {name : CStr} {r : Option (Nat × Nat × Nat) × Disk}
    (h : TwoFats fs d) (hc : PointsInside fs dir)
    (hrun : fat32Mkdir fs d dir name = some r) : Spares fs d r.2 := by
  unfold fat32Mkdir at hrun
  split at hrun
  · cases hrun
    exact h.spares_refl
  · split at hrun
    · cases hrun
    · cases hrun
      exact h.spares_refl
    · obtain ⟨halloc, hnew⟩ := h.fatAllocCluster_spares
      generalize fatAllocCluster fs d = alloc at halloc hnew hrun
      obtain ⟨cl, d₀⟩ := alloc
      dsimp only at halloc hnew hrun
      split at hrun
      · cases hrun
        exact halloc
      next hlt =>
        have hin := hnew.resolve_left hlt
        have hout : OutsideTables fs (firstSector fs cl) :=
          .inr (dataStart_le_firstSector h.toSane hin)
        have hzero := halloc.trans (zeroCluster_spares halloc.volume hin)
        have hdot := hzero.trans (hzero.volume.writeSlot_getD hout 0 (dotSlot 1 cl))
        have hdots := hdot.trans (hdot.volume.writeSlot_getD hout 1 (dotSlot 2 dir))
        split at hrun
        · cases hrun
        next name11 _ =>
          have hlen := newSlots_length_le name name11 ATTR_DIRECTORY cl
          split at hrun
          · cases hrun
          next hwrite =>
            cases hrun
            exact hdots.trans (dirWriteEntries_spares hdots.volume hc (by omega) hwrite)
          next hwrite =>
            have hfailed := hdots.trans (dirWriteEntries_spares hdots.volume hc (by omega) hwrite)
            obtain ⟨d₄, hfree, rfl⟩ := Option.map_eq_some_iff.mp hrun
            exact hfailed.trans (freeLoop_spares hfailed.volume (.of_inVolume hin) hfree)

/-! ## Unlinking -/

/-- What a step of the deletion loop makes of the device, whether it goes on or
returns. -/
abbrev WipeSpares (fs : Fat32Fs) (d : Disk) : Except Disk Disk → Prop :=
  Holds (Spares fs d) (Spares fs d)

theorem Spares.wipe {r : Except Disk Disk} (h : Spares fs d d') (hr : WipeSpares fs d' r) :
    WipeSpares fs d r := by
  cases r with
  | ok d'' => exact h.trans hr
  | error d'' => exact h.trans hr

theorem wipeSlots_spares {target : Found} {eis : List Nat} (h : TwoFats fs d)
    (hout : OutsideTables fs s) : WipeSpares fs d (wipeSlots target s eis d buf) := by
  induction eis generalizing d buf with
  | nil => exact h.spares_refl
  | cons ei eis ih =>
    rw [wipeSlots]
    split
    · exact h.blockWrite_getD hout _
    · split
      · split
        · exact h.spares_refl
        · split
          · exact ih h
          · split
            · have hone := h.blockWrite_getD hout (setByte buf (32 * ei) DELETED)
              exact hone.wipe (ih hone.volume)
            · exact ih h
      · exact ih h

theorem wipeCluster_spares {target : Found} (h : TwoFats fs d) (hc : InVolume fs c) :
    WipeSpares fs d ((List.range fs.sectorsPerCluster).foldlM
      (fun d s => wipeSector target d (u32 (firstSector fs c + s))) d) := by
  refine foldlM_holds (fun s hs d' hd' => ?_) h.spares_refl
  refine hd'.wipe ?_
  unfold wipeSector
  split
  · exact hd'.volume.spares_refl
  · exact wipeSlots_spares hd'.volume (h.outside hc (List.mem_range.mp hs))

theorem wipeLoop_spares {target : Found} {fuel : Nat} {r : Except Disk Disk} (h : TwoFats fs d)
    (hc : PointsInside fs c) (hrun : wipeLoop fs target fuel d c = some r) :
    WipeSpares fs d r := by
  induction fuel generalizing d c with
  | zero => cases hrun
  | succ fuel ih =>
    rw [wipeLoop] at hrun
    split at hrun
    next hlink =>
      have hcluster : WipeSpares fs d ((List.range fs.sectorsPerCluster).foldlM
          (fun d s => wipeSector target d (u32 (firstSector fs c + s))) d) :=
        wipeCluster_spares h (hc hlink)
      split at hrun
      next hres =>
        cases hrun
        rw [hres] at hcluster
        exact hcluster
      next d₁ hres =>
        rw [hres] at hcluster
        have hone : Spares fs d d₁ := hcluster
        exact hone.wipe (ih hone.volume (hone.volume.next_inside hc hlink) hrun)
    · cases hrun
      exact h.spares_refl

theorem removeEntry_spares {dir : Nat} {target : Found} {r : Bool × Disk} (h : TwoFats fs d)
    (hc : PointsInside fs dir) (htarget : PointsInside fs target.cluster)
    (hrun : removeEntry fs d dir target = some r) : Spares fs d r.2 := by
  unfold removeEntry at hrun
  split at hrun
  · cases hrun
  next d₁ hfree =>
    have hfreed : Spares fs d d₁ := by
      split at hfree
      · exact freeLoop_spares h htarget hfree
      · cases hfree
        exact h.spares_refl
    split at hrun
    · cases hrun
    next hwipe =>
      cases hrun
      exact hfreed.trans (wipeLoop_spares hfreed.volume hc hwipe)
    next hwipe =>
      cases hrun
      exact hfreed.trans (wipeLoop_spares hfreed.volume hc hwipe)

theorem fat32UnlinkFile_spares {dir : Nat} {name : CStr} {r : Bool × Disk} (h : TwoFats fs d)
    (hc : PointsInside fs dir)
    (htarget : ∀ target, fat32Lookup fs d dir name = some (some target) →
      PointsInside fs target.cluster)
    (hrun : fat32UnlinkFile fs d dir name = some r) : Spares fs d r.2 := by
  unfold fat32UnlinkFile at hrun
  split at hrun
  · cases hrun
    exact h.spares_refl
  · split at hrun
    · cases hrun
    · cases hrun
      exact h.spares_refl
    next target hlook =>
      have hin := htarget target hlook
      split at hrun
      · split at hrun
        · cases hrun
        · split at hrun
          · cases hrun
            exact h.spares_refl
          · exact removeEntry_spares h hc hin hrun
      · exact removeEntry_spares h hc hin hrun

/-! ## The calls -/

/-- A call of a function that changes the volume. -/
inductive VolumeCall where
  | createFile (dirCluster : Nat) (name : CStr)
  | writeFile (cluster size offset : Nat) (data : List UInt8)
  | truncate (cluster size newSize : Nat)
  | mkdir (dirCluster : Nat) (name : CStr)
  | unlinkFile (dirCluster : Nat) (name : CStr)

/-- The device after a call that ends, whatever the call returns. -/
def VolumeCall.run (fs : Fat32Fs) (d : Disk) : VolumeCall → Option Disk
  | .createFile dirCluster name => (fat32CreateFile fs d dirCluster name).map fun r => r.2
  | .writeFile cluster size offset data =>
    (fat32WriteFile fs d cluster size offset data).map fun r => r.2.1
  | .truncate cluster size newSize => (fat32Truncate fs d cluster size newSize).map fun r => r.2.1
  | .mkdir dirCluster name => (fat32Mkdir fs d dirCluster name).map fun r => r.2
  | .unlinkFile dirCluster name => (fat32UnlinkFile fs d dirCluster name).map fun r => r.2

/-- The clusters that a call begins with are clusters of the volume: the one that it
gets and, for `fat32_unlink_file`, the one in the entry of the name. -/
def VolumeCall.Inside (fs : Fat32Fs) (d : Disk) : VolumeCall → Prop
  | .createFile dirCluster _ => PointsInside fs dirCluster
  | .writeFile cluster _ _ _ => PointsInside fs cluster
  | .truncate cluster _ _ => PointsInside fs cluster
  | .mkdir dirCluster _ => PointsInside fs dirCluster
  | .unlinkFile dirCluster name => PointsInside fs dirCluster ∧
    ∀ target, fat32Lookup fs d dirCluster name = some (some target) →
      PointsInside fs target.cluster

/-- No call writes the second copy. -/
theorem run_spares {call : VolumeCall} (h : TwoFats fs d) (hin : call.Inside fs d)
    (hrun : call.run fs d = some d') : Spares fs d d' := by
  cases call with
  | createFile dir name =>
    obtain ⟨r, hcall, rfl⟩ := Option.map_eq_some_iff.mp hrun
    exact fat32CreateFile_spares h hin hcall
  | writeFile cluster size offset data =>
    obtain ⟨r, hcall, rfl⟩ := Option.map_eq_some_iff.mp hrun
    exact fat32WriteFile_spares h hin hcall
  | truncate cluster size newSize =>
    obtain ⟨r, hcall, rfl⟩ := Option.map_eq_some_iff.mp hrun
    exact fat32Truncate_spares h hin hcall
  | mkdir dir name =>
    obtain ⟨r, hcall, rfl⟩ := Option.map_eq_some_iff.mp hrun
    exact fat32Mkdir_spares h hin hcall
  | unlinkFile dir name =>
    obtain ⟨r, hcall, rfl⟩ := Option.map_eq_some_iff.mp hrun
    exact fat32UnlinkFile_spares h hin.1 hin.2 hcall

/-- The states of a volume in a run of calls. -/
abbrev Runs (fs : Fat32Fs) (d d' : Disk) : Prop :=
  Reach (fun d call => call.run fs d) (fun d call => VolumeCall.Inside fs d call) d d'

theorem Runs.spares (h : TwoFats fs d) (hrun : Runs fs d d') : Spares fs d d' :=
  hrun.invariant (Spares fs d) h.spares_refl fun _ _ _ hd hin hstep =>
    hd.trans (run_spares hd.volume hin hstep)

/-- When the second copy is kept, the copies are equal again exactly when the first
is kept too. -/
theorem copiesEqual_iff (heq : CopiesEqual fs d) (hsecond : SecondKept fs d d') :
    CopiesEqual fs d' ↔ FirstKept fs d d' := by
  constructor
  · intro h s hs i hi
    rw [h s hs i hi, hsecond s hs i hi, heq s hs i hi]
  · intro h s hs i hi
    rw [h s hs i hi, hsecond s hs i hi, heq s hs i hi]

/-- A first copy that is kept has the entries that it had. -/
theorem FirstKept.entry (h : TwoFats fs d) (h' : TwoFats fs d') (hfirst : FirstKept fs d d')
    (hc : c < fs.totalClusters + 2) : fatNextCluster fs d' c = fatNextCluster fs d c := by
  have hcovers := h.table_covers
  rw [fatNextCluster_eq h.toSane hc, fatNextCluster_eq h'.toSane hc]
  congr 1
  refine rdLE_congr fun x hlo hhi => ?_
  exact hfirst _ (by omega) x (by omega)

/-- **Only the first copy is maintained.**  In a run of calls without I/O errors on a
volume whose two copies are equal, the second copy stays what it was.  So the
copies are equal after a call exactly when the first one is what it was at the
start, and a run that has changed the entry of a cluster leaves them different. -/
theorem mirror_stale (h : TwoFats fs d) (heq : CopiesEqual fs d) (hrun : Runs fs d d') :
    SecondKept fs d d' ∧ (CopiesEqual fs d' ↔ FirstKept fs d d') ∧
      ∀ c < fs.totalClusters + 2, fatNextCluster fs d' c ≠ fatNextCluster fs d c →
        ¬ CopiesEqual fs d' := by
  have hspares := Runs.spares h hrun
  have hiff := copiesEqual_iff heq hspares.second
  exact ⟨hspares.second, hiff, fun c hc hne hcopies =>
    hne ((hiff.mp hcopies).entry h hspares.volume hc)⟩

/-! ## A small volume -/

/-- A volume of four clusters, one sector each, with two copies of its table. -/
def twoFatsFs : Fat32Fs :=
  { fatStart := 1, dataStart := 3, sectorsPerFat := 1, totalClusters := 4, sectorsPerCluster := 1,
    rootCluster := 2 }

/-- The root directory is an empty chain of its own, clusters 3 to 5 are free, and the
copies are equal. -/
def twoFatsDisk : Disk :=
  { sectorCount := 7, readFails := fun _ => false, writeFails := fun _ => false
    data := fun s => if s = 1 ∨ s = 2 then wrLE (fun _ => 0) 8 4 FAT32_EOC else fun _ => 0 }

theorem sane_twoFatsDisk : Sane twoFatsFs twoFatsDisk where
  works _ := ⟨rfl, rfl⟩
  spc_pos := by decide
  spc_le := by decide
  table_before := by decide
  data_inside := by decide
  data_fits := by decide
  table_covers := by decide
  total_le := by decide

theorem twoFats_twoFatsDisk : TwoFats twoFatsFs twoFatsDisk where
  toSane := sane_twoFatsDisk
  reserved := by decide
  behind := rfl
  sectors_lt := by decide
  links := by
    intro c hc
    have hall : ∀ c < 6, PointsInside twoFatsFs (fatNextCluster twoFatsFs twoFatsDisk c) :=
      by decide
    exact hall c hc.2

theorem copiesEqual_twoFatsDisk : CopiesEqual twoFatsFs twoFatsDisk := by
  intro s hs i _
  have hzero : s = 0 := Nat.lt_one_iff.mp hs
  rw [hzero]
  rfl

/-- Writing one byte to a file that has no cluster yet. -/
def firstByte : VolumeCall := .writeFile 0 0 0 [65]

/-- The call takes cluster 3: its entry in the first copy gets a byte that the entry in
the second does not have. -/
theorem run_firstByte : ∃ d', firstByte.run twoFatsFs twoFatsDisk = some d' ∧
    d'.data 1 12 ≠ d'.data 2 12 := by
  have heval : (firstByte.run twoFatsFs twoFatsDisk).map
      (fun d' => (d'.data 1 12, d'.data 2 12)) = some (0xF8, 0) := by
    decide
  obtain ⟨d', hrun, hbytes⟩ := Option.map_eq_some_iff.mp heval
  obtain ⟨hfirst, hsecond⟩ := Prod.mk.inj hbytes
  refine ⟨d', hrun, ?_⟩
  rw [hfirst, hsecond]
  decide

theorem mirror_stale_firstByte : ∃ d', Runs twoFatsFs twoFatsDisk d' ∧
    SecondKept twoFatsFs twoFatsDisk d' ∧
    (CopiesEqual twoFatsFs d' ↔ FirstKept twoFatsFs twoFatsDisk d') ∧
    ∀ c < twoFatsFs.totalClusters + 2,
      fatNextCluster twoFatsFs d' c ≠ fatNextCluster twoFatsFs twoFatsDisk c →
        ¬ CopiesEqual twoFatsFs d' := by
  obtain ⟨d', hrun, -⟩ := run_firstByte
  have hin : firstByte.Inside twoFatsFs twoFatsDisk := pointsInside_zero
  have hreach : Runs twoFatsFs twoFatsDisk d' := .next .start hin hrun
  exact ⟨d', hreach, mirror_stale twoFats_twoFatsDisk copiesEqual_twoFatsDisk hreach⟩

/-- Copies that are equal are not always equal again after a call. -/
theorem firstByte_not_copiesEqual :
    ¬ ∀ (fs : Fat32Fs) (d d' : Disk) (call : VolumeCall), TwoFats fs d → CopiesEqual fs d →
      call.Inside fs d → call.run fs d = some d' → CopiesEqual fs d' := by
  intro hall
  obtain ⟨d', hrun, hne⟩ := run_firstByte
  exact hne (hall twoFatsFs twoFatsDisk d' firstByte twoFats_twoFatsDisk copiesEqual_twoFatsDisk
    pointsInside_zero hrun 0 (by decide) 12 (by decide))

end Lumin.Fs.Fat32
