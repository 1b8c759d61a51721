import Lumin.Fs.Fat32.Table
import Lumin.Lib.Meets

/-!
# The table functions on any table

What `fat_free_chain` and `fat_alloc_cluster` do whatever the table holds: cycles,
links out of the volume, a table that is too short or too long.  An entry is a word
of 32 bits, of which the upper four are reserved.  `SetsWord` is the effect of one
table update.
-/

namespace Lumin.Fs.Fat32

open Lumin.Lib Lumin.Block

/-- A table entry with its reserved bits. -/
def fatWord (fs : Fat32Fs) (d : Disk) (c : Nat) : Nat :=
  rdLE (d.data (fatSector fs c)) (fatByte c) 4

/-- The table sector of the entry can be read. -/
def ReadableEntry (fs : Fat32Fs) (d : Disk) (c : Nat) : Prop :=
  (blockRead d (fatSector fs c)).isSome

instance (fs : Fat32Fs) (d : Disk) : DecidablePred (ReadableEntry fs d) := fun c =>
  inferInstanceAs (Decidable ((blockRead d (fatSector fs c)).isSome = true))

/-- A write to a sector that can be read succeeds. -/
def WritesWhereReads (d : Disk) : Prop :=
  ∀ s, (blockRead d s).isSome → ∀ buf, blockWrite d s buf = some (d.setSector s buf)

variable {fs : Fat32Fs} {d d' : Disk} {c c' v w s x : Nat} {l : List Nat} {P : Nat → Prop}

theorem blockRead_eq (h : (blockRead d s).isSome) : blockRead d s = some (d.data s) := by
  unfold blockRead at h ⊢
  split at h
  · cases h
  · rename_i hok
    exact if_neg hok

theorem blockRead_isSome_congr (h : d.SameDevice d') :
    (blockRead d' s).isSome = (blockRead d s).isSome := by
  unfold blockRead
  rw [h.1, h.2.1]
  split <;> rfl

theorem readableEntry_congr (h : d.SameDevice d') :
    ReadableEntry fs d' c ↔ ReadableEntry fs d c := by
  unfold ReadableEntry
  rw [blockRead_isSome_congr h]

theorem WritesWhereReads.of_sameDevice (hw : WritesWhereReads d) (h : d.SameDevice d') :
    WritesWhereReads d' := by
  intro s hs buf
  rw [blockRead_isSome_congr h] at hs
  have hwrite := hw s hs buf
  unfold blockWrite at hwrite ⊢
  rw [h.1, h.2.2]
  split at hwrite
  · cases hwrite
  · rename_i hok
    exact if_neg hok

/-! ## Places of entries -/

theorem fatSector_of_lt (fs : Fat32Fs) (hc : c < FAT_SPAN) :
    fatSector fs c = u32 (fs.fatStart + c / 128) ∧ fatByte c = 4 * (c % 128) := by
  unfold FAT_SPAN at hc
  unfold fatSector fatByte
  rw [u32_of_lt (x := c * 4) (by omega), show c * 4 / 512 = c / 128 by omega,
    show c * 4 % 512 = 4 * (c % 128) by omega]
  exact ⟨rfl, rfl⟩

/-- Two entries share no byte, even where the numbers of the table's sectors wrap. -/
theorem entries_apart (fs : Fat32Fs) (hc : c < FAT_SPAN) (hc' : c' < FAT_SPAN) (hne : c ≠ c') :
    fatSector fs c ≠ fatSector fs c' ∨ fatByte c + 4 ≤ fatByte c' ∨
      fatByte c' + 4 ≤ fatByte c := by
  obtain ⟨hs, hb⟩ := fatSector_of_lt fs hc
  obtain ⟨hs', hb'⟩ := fatSector_of_lt fs hc'
  unfold FAT_SPAN at hc hc'
  rw [hs, hs', hb, hb']
  unfold u32
  omega

/-- One entry has become the word `w`, and no other byte of the device has changed. -/
structure SetsWord (fs : Fat32Fs) (d d' : Disk) (c w : Nat) : Prop where
  sameDevice : d.SameDevice d'
  word : fatWord fs d' c = w
  frame : ∀ s x, s ≠ fatSector fs c ∨ x < fatByte c ∨ fatByte c + 4 ≤ x → d'.data s x = d.data s x

theorem SetsWord.others (h : SetsWord fs d d' c w) (hc : c < FAT_SPAN) (hc' : c' < FAT_SPAN)
    (hne : c' ≠ c) :
    fatWord fs d' c' = fatWord fs d c' := by
  refine rdLE_congr fun x hlo hhi => h.frame _ x ?_
  have := entries_apart fs hc' hc hne
  omega

theorem setsWord_setSector (fs : Fat32Fs) (d : Disk) (c : Nat) (hw : w < 256 ^ 4) :
    SetsWord fs d (d.setSector (fatSector fs c) (wrLE (d.data (fatSector fs c)) (fatByte c) 4 w))
      c w := by
  refine ⟨sameDevice_setSector _ _ _, ?_, fun s x hx => ?_⟩
  · rw [fatWord, setSector_data_same, rdLE_wrLE_of_lt hw]
  · by_cases hs : s = fatSector fs c
    · rw [hs, setSector_data_same]
      cases hx with
      | inl hne => exact absurd hs hne
      | inr hout =>
        cases hout with
        | inl hlo => exact wrLE_of_lt hlo
        | inr hhi => exact wrLE_of_ge hhi
    · rw [setSector_data_ne _ _ hs]

theorem fatNextCluster_readable (h : ReadableEntry fs d c) :
    fatNextCluster fs d c = fatWord fs d c % FAT_SPAN := by
  rw [fatNextCluster, blockRead_eq h, fatWord]

theorem fatNextCluster_unreadable (h : ¬ ReadableEntry fs d c) :
    fatNextCluster fs d c = FAT32_EOC := by
  unfold ReadableEntry at h
  rw [Option.not_isSome_iff_eq_none] at h
  rw [fatNextCluster, h]

theorem fatSetCluster_unreadable (h : ¬ ReadableEntry fs d c) :
    fatSetCluster fs d c v = none := by
  unfold ReadableEntry at h
  rw [Option.not_isSome_iff_eq_none] at h
  rw [fatSetCluster, h]

/-- An update keeps the reserved bits. -/
theorem fatSetCluster_readable (hw : WritesWhereReads d) (h : ReadableEntry fs d c) (v : Nat) :
    ∃ d', fatSetCluster fs d c v = some d' ∧
      SetsWord fs d d' c (fatWord fs d c / FAT_SPAN * FAT_SPAN + v % FAT_SPAN) := by
  have hlt : fatWord fs d c < 256 ^ 4 := rdLE_lt _ _ _
  rw [fatSetCluster, blockRead_eq h]
  simp only [hw _ h]
  refine ⟨_, rfl, setsWord_setSector fs d c ?_⟩
  show fatWord fs d c / FAT_SPAN * FAT_SPAN + v % FAT_SPAN < 256 ^ 4
  unfold FAT_SPAN
  omega

/-! ## Freeing -/

/-- The walk from `start` meets the cluster `c`, whose entry can be read. -/
def Freeable (fs : Fat32Fs) (d : Disk) (start c : Nat) : Prop :=
  Meets IsLink (fatNextCluster fs d) start c ∧ ReadableEntry fs d c

/-- The entries of the clusters with `P` have become free, with their reserved bits, and
no other byte of the device has changed. -/
structure FreesExactly (fs : Fat32Fs) (d d' : Disk) (P : Nat → Prop) : Prop where
  sameDevice : d.SameDevice d'
  freed : ∀ c, P c → fatWord fs d' c = fatWord fs d c / FAT_SPAN * FAT_SPAN
  others : ∀ c < FAT_SPAN, ¬ P c → fatWord fs d' c = fatWord fs d c
  frame : ∀ s x, (∀ c, P c → s ≠ fatSector fs c ∨ x < fatByte c ∨ fatByte c + 4 ≤ x) →
    d'.data s x = d.data s x

/-- The clusters whose entries do not read as free. -/
def usedEntries (fs : Fat32Fs) (d : Disk) : Finset Nat :=
  (Finset.range FAT32_EOC).filter fun c => fatNextCluster fs d c ≠ FAT32_FREE

theorem IsLink.lt_span (h : IsLink c) : c < FAT_SPAN := h.2.trans (by decide)

theorem freesExactly_refl (h : ∀ c, ¬ P c) : FreesExactly fs d d P :=
  ⟨.refl d, fun c hc => absurd hc (h c), fun _ _ _ => rfl, fun _ _ _ => rfl⟩

/-- What the walk meets behind its first cluster, once the entry of that one is free. -/
theorem freeable_cut {d₁ : Disk} (hlink : IsLink v) (hread : ReadableEntry fs d v)
    (hset : SetsWord fs d d₁ v (fatWord fs d v / FAT_SPAN * FAT_SPAN)) :
    Freeable fs d v c ↔ c = v ∨ Freeable fs d₁ (fatNextCluster fs d v) c := by
  have hreadable : ∀ a, ReadableEntry fs d₁ a ↔ ReadableEntry fs d a := fun a =>
    readableEntry_congr hset.sameDevice
  have hcut : ¬ IsLink (fatNextCluster fs d₁ v) := by
    rw [fatNextCluster_readable ((hreadable v).mpr hread), hset.word, Nat.mul_mod_left]
    decide
  have hsame : ∀ a, a ≠ v → IsLink a → fatNextCluster fs d₁ a = fatNextCluster fs d a := by
    intro a hne ha
    by_cases hra : ReadableEntry fs d a
    · rw [fatNextCluster_readable hra, fatNextCluster_readable ((hreadable a).mpr hra),
        hset.others hlink.lt_span ha.lt_span hne]
    · rw [fatNextCluster_unreadable hra,
        fatNextCluster_unreadable fun h => hra ((hreadable a).mp h)]
  unfold Freeable
  rw [meets_cut hlink hcut hsame, hreadable]
  constructor
  · intro h
    exact h.1.imp id fun hmeets => ⟨hmeets, h.2⟩
  · intro h
    cases h with
    | inl heq => exact ⟨Or.inl heq, heq ▸ hread⟩
    | inr hrest => exact ⟨Or.inr hrest.1, hrest.2⟩

/-- One turn of the loop and what the rest of it frees. -/
theorem freesExactly_step {d₁ : Disk} (hlink : IsLink v) (hread : ReadableEntry fs d v)
    (hset : SetsWord fs d d₁ v (fatWord fs d v / FAT_SPAN * FAT_SPAN))
    (hrest : FreesExactly fs d₁ d' (Freeable fs d₁ (fatNextCluster fs d v))) :
    FreesExactly fs d d' (Freeable fs d v) := by
  have hcut := fun c => freeable_cut (c := c) hlink hread hset
  have hspan : 0 < FAT_SPAN := by decide
  have hword :
      ∀ c < FAT_SPAN, fatWord fs d₁ c = if c = v then fatWord fs d v / FAT_SPAN * FAT_SPAN
      else fatWord fs d c := by
    intro c hc
    split
    · rename_i heq
      rw [heq, hset.word]
    · rename_i hne
      exact hset.others hlink.lt_span hc hne
  refine ⟨hset.sameDevice.trans hrest.sameDevice, fun c hc => ?_, fun c hc hnot => ?_,
    fun s x hx => ?_⟩
  · have hlt : c < FAT_SPAN := hc.1.1.lt_span
    by_cases hmem : Freeable fs d₁ (fatNextCluster fs d v) c
    · rw [hrest.freed c hmem, hword c hlt]
      split
      · rename_i heq
        rw [heq, Nat.mul_div_cancel _ hspan]
      · rfl
    · have heq : c = v := ((hcut c).mp hc).resolve_right hmem
      rw [hrest.others c hlt hmem, hword c hlt, if_pos heq, heq]
  · rw [hcut, not_or] at hnot
    rw [hrest.others c hc hnot.2, hword c hc, if_neg hnot.1]
  · rw [hrest.frame s x fun c hc => hx c ((hcut c).mpr (Or.inr hc)),
      hset.frame s x (hx v ((hcut v).mpr (Or.inl rfl)))]

theorem mem_usedEntries :
    c ∈ usedEntries fs d ↔ c < FAT32_EOC ∧ fatNextCluster fs d c ≠ FAT32_FREE := by
  rw [usedEntries, Finset.mem_filter, Finset.mem_range]

/-- Freeing a used entry leaves one fewer. -/
theorem card_usedEntries_lt {d₁ : Disk} (hlink : IsLink v) (hread : ReadableEntry fs d v)
    (hset : SetsWord fs d d₁ v (fatWord fs d v / FAT_SPAN * FAT_SPAN))
    (hused : fatNextCluster fs d v ≠ FAT32_FREE) :
    (usedEntries fs d₁).card < (usedEntries fs d).card := by
  have hreadable : ∀ a, ReadableEntry fs d₁ a ↔ ReadableEntry fs d a := fun a =>
    readableEntry_congr hset.sameDevice
  have hfree : fatNextCluster fs d₁ v = FAT32_FREE := by
    rw [fatNextCluster_readable ((hreadable v).mpr hread), hset.word, Nat.mul_mod_left]
    rfl
  refine Finset.card_lt_card ((Finset.ssubset_iff_of_subset fun c hc => ?_).mpr
    ⟨v, mem_usedEntries.mpr ⟨hlink.2, hused⟩, fun h => (mem_usedEntries.mp h).2 hfree⟩)
  obtain ⟨hlt, hne⟩ := mem_usedEntries.mp hc
  have hcv : c ≠ v := fun heq => hne (heq ▸ hfree)
  have hspan : c < FAT_SPAN := hlt.trans (by decide)
  refine mem_usedEntries.mpr ⟨hlt, ?_⟩
  by_cases hrc : ReadableEntry fs d c
  · rw [fatNextCluster_readable ((hreadable c).mpr hrc),
      hset.others hlink.lt_span hspan hcv] at hne
    rwa [fatNextCluster_readable hrc]
  · rw [fatNextCluster_unreadable hrc]
    decide

/-- The loop ends: every turn but the last frees a used entry. -/
theorem freeLoop_any {fuel : Nat} (hw : WritesWhereReads d)
    (hfuel : (usedEntries fs d).card + 2 ≤ fuel) :
    ∃ d', freeLoop fs fuel d v = some d' ∧ FreesExactly fs d d' (Freeable fs d v) := by
  induction fuel generalizing d v with
  | zero => omega
  | succ fuel ih =>
    by_cases hlink : IsLink v
    · rw [freeLoop, if_pos hlink]
      dsimp only
      obtain ⟨fuel, rfl⟩ : ∃ k, fuel = k + 1 := ⟨fuel - 1, by omega⟩
      by_cases hread : ReadableEntry fs d v
      · obtain ⟨d₁, hsome, hset⟩ := fatSetCluster_readable hw hread FAT32_FREE
        rw [show FAT32_FREE % FAT_SPAN = 0 from rfl, Nat.add_zero] at hset
        rw [hsome, Option.getD_some]
        by_cases hnext : IsLink (fatNextCluster fs d v)
        · have hused : fatNextCluster fs d v ≠ FAT32_FREE :=
            fun h => absurd (h ▸ hnext) (by decide)
          have hless := card_usedEntries_lt hlink hread hset hused
          obtain ⟨d', hloop, hrest⟩ := ih (v := fatNextCluster fs d v)
            (hw.of_sameDevice hset.sameDevice) (by omega)
          exact ⟨d', hloop, freesExactly_step hlink hread hset hrest⟩
        · refine ⟨d₁, by rw [freeLoop, if_neg hnext], freesExactly_step hlink hread hset ?_⟩
          exact freesExactly_refl fun c hc => not_meets_of_not_live hnext hc.1
      · -- The walk ends at an entry that cannot be read, and nothing is written.
        have hnext : fatNextCluster fs d v = FAT32_EOC := fatNextCluster_unreadable hread
        have hend : ¬ IsLink (fatNextCluster fs d v) := by
          rw [hnext]
          decide
        rw [fatSetCluster_unreadable hread, Option.getD_none, freeLoop, if_neg hend]
        refine ⟨d, rfl, freesExactly_refl fun c hc => ?_⟩
        cases Relation.ReflTransGen.cases_head hc.1.2 with
        | inl heq => exact hread (heq ▸ hc.2)
        | inr hstep =>
          obtain ⟨b, hb, hpath⟩ := hstep
          exact not_meets_of_not_live (hb.2 ▸ hend) ⟨hc.1.1, hpath⟩
    · rw [freeLoop, if_neg hlink]
      exact ⟨d, rfl, freesExactly_refl fun c hc => not_meets_of_not_live hlink hc.1⟩

/-- On every table the freeing of a chain ends and frees exactly the clusters that the walk
from `start` meets, as far as their entries can be read. -/
theorem fatFreeChain_frees (fs : Fat32Fs) (d : Disk) (start : Nat) (hw : WritesWhereReads d) :
    ∃ d', fatFreeChain fs d start = some d' ∧ FreesExactly fs d d' (Freeable fs d start) := by
  refine freeLoop_any hw ?_
  have hcard : (usedEntries fs d).card ≤ FAT32_EOC := by
    have := Finset.card_filter_le ( Finset.range FAT32_EOC) fun c => fatNextCluster fs d c ≠
        FAT32_FREE
    rwa [Finset.card_range] at this
  unfold chainFuel
  have : FAT32_EOC = 2 ^ 28 - 8 := rfl
  omega

theorem writesWhereReads_of_works (hworks : d.Works) : WritesWhereReads d := by
  intro s hs buf
  refine blockWrite_of_works hworks ?_ buf
  by_contra hout
  rw [blockRead, if_pos (Or.inl (by omega))] at hs
  cases hs

/-- A volume of four clusters, one sector each. -/
def circleFs : Fat32Fs :=
  { fatStart := 1, dataStart := 2, sectorsPerFat := 1, totalClusters := 4, sectorsPerCluster := 1,
    rootCluster := 2 }

/-- Clusters 2 and 3 linked in a circle. -/
def circleDisk : Disk :=
  { sectorCount := 6, readFails := fun _ => false, writeFails := fun _ => false
    data := fun s => if s = 1 then wrLE (wrLE (fun _ => 0) 8 4 3) 12 4 2 else fun _ => 0 }

theorem works_circleDisk : circleDisk.Works := fun _ => ⟨rfl, rfl⟩

theorem fatFreeChain_frees_circle :
    ∃ d', fatFreeChain circleFs circleDisk 2 = some d' ∧
      FreesExactly circleFs circleDisk d' (Freeable circleFs circleDisk 2) :=
  fatFreeChain_frees circleFs circleDisk 2 (writesWhereReads_of_works works_circleDisk)

/-! ## Allocation -/

/-- A cluster below the end of the volume and the end of the table whose entry is free. -/
def FreeEntry (fs : Fat32Fs) (d : Disk) (c : Nat) : Prop :=
  2 ≤ c ∧ c < fs.totalClusters + 2 ∧ c < 128 * fs.sectorsPerFat ∧
    fatWord fs d c % FAT_SPAN = FAT32_FREE

/-- No transfer of a sector of the table fails. -/
def TableWorks (fs : Fat32Fs) (d : Disk) : Prop :=
  ∀ s < fs.sectorsPerFat, (blockRead d (u32 (fs.fatStart + s))).isSome ∧
    ∀ buf, blockWrite d (u32 (fs.fatStart + s)) buf =
        some (d.setSector (u32 (fs.fatStart + s)) buf)

/-- The first free entry is taken: its cluster is the result, the entry is an end mark, and
no other byte of the device has changed; or there is none and nothing is written. -/
def TakesFirst (fs : Fat32Fs) (d : Disk) (r : Nat × Disk) : Prop :=
  (FreeEntry fs d r.1 ∧ (∀ c < r.1, ¬ FreeEntry fs d c) ∧ SetsWord fs d r.2 r.1 FAT32_EOC) ∨
    (r = (FAT32_EOC, d) ∧ ∀ c, ¬ FreeEntry fs d c)

/-- The place of entry `i` of sector `s` of the table. -/
theorem fatPlace_eq (fs : Fat32Fs) {i : Nat} (hi : i < 128) (hspan : 128 * s + i < FAT_SPAN) :
    fatSector fs (128 * s + i) = u32 (fs.fatStart + s) ∧ fatByte (128 * s + i) = 4 * i := by
  obtain ⟨hsector, hbyte⟩ := fatSector_of_lt fs hspan
  rw [show (128 * s + i) / 128 = s by omega] at hsector
  rw [show (128 * s + i) % 128 = i by omega] at hbyte
  exact ⟨hsector, hbyte⟩

/-- Where the inner loop stops in sector `s` of the table. -/
theorem stopsAlloc_any (htotal : fs.totalClusters + 2 ≤ FAT32_EOC) {i : Nat} (hi : i < 128)
    (hs : s < fs.sectorsPerFat) (hle : 128 * s ≤ fs.totalClusters + 2) :
    u32 (u32 (s * 128) + i) = 128 * s + i ∧
      (stopsAlloc fs (d.data (u32 (fs.fatStart + s))) s i = true ↔
        2 ≤ 128 * s + i ∧
          (fs.totalClusters + 2 ≤ 128 * s + i ∨ FreeEntry fs d (128 * s + i))) := by
  unfold FAT32_EOC at htotal
  have hcluster : u32 (u32 (s * 128) + i) = 128 * s + i := by
    rw [u32_of_lt (x := s * 128) (by omega), u32_of_lt (by omega)]
    omega
  refine ⟨hcluster, ?_⟩
  simp only [stopsAlloc, hcluster, decide_eq_true_eq, u32_of_lt (x := fs.totalClusters + 2)
    (show fs.totalClusters + 2 < 2 ^ 32 by omega)]
  refine and_congr_right fun hlo => ?_
  by_cases hhi : fs.totalClusters + 2 ≤ 128 * s + i
  · exact iff_of_true (Or.inl hhi) (Or.inl hhi)
  · have hspan : 128 * s + i < FAT_SPAN := by
      unfold FAT_SPAN
      omega
    obtain ⟨hsector, hbyte⟩ := fatPlace_eq fs hi hspan
    have hword :
        fatWord fs d (128 * s + i) = rdLE (d.data (u32 (fs.fatStart + s))) (4 * i) 4 := by
      rw [fatWord, hsector, hbyte]
    rw [← hword]
    refine or_congr_right ⟨fun h => ⟨hlo, by omega, by omega, h⟩, fun h => h.2.2.2⟩

/-- The entries that the inner loop passes are not free. -/
theorem not_free_below (htotal : fs.totalClusters + 2 ≤ FAT32_EOC) {i : Nat} (hi : i ≤ 128)
    (hs : s < fs.sectorsPerFat) (hle : 128 * s ≤ fs.totalClusters + 2)
    (hbelow : ∀ c < 128 * s, ¬ FreeEntry fs d c)
    (hpass : ∀ j < i, (!stopsAlloc fs (d.data (u32 (fs.fatStart + s))) s j) = true) :
    ∀ c < 128 * s + i, ¬ FreeEntry fs d c := by
  intro c hc hfree
  by_cases hlow : c < 128 * s
  · exact hbelow c hlow hfree
  · have hplace : 128 * s + (c - 128 * s) = c := by omega
    have hgo := hpass (c - 128 * s) (by omega)
    rw [(stopsAlloc_any htotal (by omega) hs hle).2.mpr] at hgo
    · cases hgo
    · rw [hplace]
      exact ⟨hfree.1, Or.inr hfree⟩

theorem allocLoop_any (htotal : fs.totalClusters + 2 ≤ FAT32_EOC) (hio : TableWorks fs d)
    (n s : Nat)
    (hn : s + n = fs.sectorsPerFat) (hle : 128 * s ≤ fs.totalClusters + 2)
    (hbelow : ∀ c < 128 * s, ¬ FreeEntry fs d c) : TakesFirst fs d (allocLoop fs d n s) := by
  induction n generalizing s with
  | zero =>
    -- The table is at its end.
    refine Or.inr ⟨rfl, fun c hc => hbelow c ?_ hc⟩
    have := hc.2.2.1
    omega
  | succ n ih =>
    have hs : s < fs.sectorsPerFat := by omega
    rw [allocLoop, blockRead_eq (hio s hs).1]
    simp only
    cases hfind : (List.range 128).find? (stopsAlloc fs (d.data (u32 (fs.fatStart + s))) s) with
    | none =>
      rw [List.find?_range_eq_none] at hfind
      have hnext : 128 * (s + 1) ≤ fs.totalClusters + 2 := by
        by_contra hend
        have hgo := hfind 127 (by omega)
        rw [(stopsAlloc_any htotal (by omega) hs hle).2.mpr ⟨by omega, Or.inl (by omega)⟩] at hgo
        cases hgo
      apply ih (s + 1) (by omega) hnext
      exact not_free_below htotal (le_refl 128) hs hle hbelow hfind
    | some i =>
      rw [List.find?_range_eq_some] at hfind
      obtain ⟨hstop, hmem, hfirst⟩ := hfind
      have hi : i < 128 := List.mem_range.mp hmem
      have hleast := not_free_below htotal hi.le hs hle hbelow hfirst
      obtain ⟨hcluster, hiff⟩ := stopsAlloc_any htotal hi hs hle (d := d)
      obtain ⟨hlo, hstop⟩ := hiff.mp hstop
      have heoc : FAT32_EOC = 2 ^ 28 - 8 := rfl
      simp only [hcluster, u32_of_lt (x := fs.totalClusters + 2)
        (show fs.totalClusters + 2 < 2 ^ 32 by omega)]
      split
      next hend =>
        refine Or.inr ⟨rfl, fun c hfree => ?_⟩
        have hlt := hfree.2.1
        exact hleast c (by omega) hfree
      next hend =>
        have hfree := hstop.resolve_left hend
        have hspan : 128 * s + i < FAT_SPAN := by
          unfold FAT_SPAN
          omega
        obtain ⟨hsector, hbyte⟩ := fatPlace_eq fs hi hspan
        have hset := setsWord_setSector fs d (128 * s + i) (w := FAT32_EOC) (by decide)
        rw [hsector, hbyte] at hset
        rw [(hio s hs).2]
        exact Or.inl ⟨hfree, hleast, hset⟩

theorem fatAllocCluster_any (htotal : fs.totalClusters + 2 ≤ FAT32_EOC) (hio : TableWorks fs d) :
    TakesFirst fs d (fatAllocCluster fs d) :=
  allocLoop_any htotal hio fs.sectorsPerFat 0 (Nat.zero_add _) (Nat.zero_le _)
    fun _ h => absurd h (Nat.not_lt_zero _)

/-- The first free cluster of the table, or none: for every table and every geometry. -/
theorem fatAllocCluster_firstFit (fs : Fat32Fs) (d : Disk)
    (htotal : fs.totalClusters + 2 ≤ FAT32_EOC)
    (hio : TableWorks fs d) :
    (∀ c, FreeEntry fs d c → (∀ c' < c, ¬ FreeEntry fs d c') →
      (fatAllocCluster fs d).1 = c ∧
        fatWord fs (fatAllocCluster fs d).2 c % FAT_SPAN = FAT32_EOC ∧
        (∀ c' < FAT_SPAN, c' ≠ c → fatWord fs (fatAllocCluster fs d).2 c' = fatWord fs d c') ∧
        SetsWord fs d (fatAllocCluster fs d).2 c FAT32_EOC) ∧
      ((∀ c, ¬ FreeEntry fs d c) → fatAllocCluster fs d = (FAT32_EOC, d)) := by
  cases fatAllocCluster_any htotal hio with
  | inl htaken =>
    obtain ⟨hfree, hfirst, hset⟩ := htaken
    refine ⟨fun c hc hleast => ?_, fun hnone => absurd hfree (hnone _)⟩
    have heq : (fatAllocCluster fs d).1 = c := by
      rcases Nat.lt_trichotomy (fatAllocCluster fs d).1 c with hlt | heq | hgt
      · exact absurd hfree (hleast _ hlt)
      · exact heq
      · exact absurd hc (hfirst c hgt)
    rw [heq] at hset
    have hspan : c < FAT_SPAN := hc.2.1.trans_le (htotal.trans (by decide))
    exact ⟨heq, by rw [hset.word]; decide, fun c' hc' hne => hset.others hspan hc' hne, hset⟩
  | inr hnone => exact ⟨fun c hc => absurd hc (hnone.2 c), fun _ => hnone.1⟩

theorem fatAllocCluster_firstFit_circle :
    (∀ c, FreeEntry circleFs circleDisk c → (∀ c' < c, ¬ FreeEntry circleFs circleDisk c') →
      (fatAllocCluster circleFs circleDisk).1 = c ∧
        fatWord circleFs (fatAllocCluster circleFs circleDisk).2 c % FAT_SPAN = FAT32_EOC ∧
        (∀ c' < FAT_SPAN, c' ≠ c →
          fatWord circleFs (fatAllocCluster circleFs circleDisk).2 c' =
            fatWord circleFs circleDisk c') ∧
        SetsWord circleFs circleDisk (fatAllocCluster circleFs circleDisk).2 c FAT32_EOC) ∧
      ((∀ c, ¬ FreeEntry circleFs circleDisk c) →
        fatAllocCluster circleFs circleDisk = (FAT32_EOC, circleDisk)) := by
  refine fatAllocCluster_firstFit circleFs circleDisk (by decide) fun s hs => ?_
  have hzero : s = 0 := Nat.lt_one_iff.mp hs
  rw [hzero]
  exact ⟨rfl, fun buf => rfl⟩

end Lumin.Fs.Fat32
