import Lumin.Mm.FreeCount

/-!
# The free lists that `pmm_init` leaves

The free lists after `pmm_init` of `kernel/mm/pmm.c` are the usable memory of the boot
table: every aligned page that lies within one available range and not below 2 MiB, on
the list of its zone.  The ranges may start and end anywhere, may be empty and may touch
each other.

* `mem_tableFrames` says which pages the loops of `pmm_init` and `add_range` visit.
* `free_pageFrees` says on which list `page_free_internal` leaves them.
* `pmmInit_usable` is the result, for the lists in memory.
-/

namespace Lumin.Mm.FreeList

open Lumin.Lib

/-- The page at `f` lies within the part of one available range that is not below 2 MiB. -/
def Usable (table : List E820Entry) (f : Nat) : Prop :=
  f % 0x1000 = 0 ∧
    ∃ e ∈ table, e.type = E820_AVAILABLE ∧ max e.base 0x200000 ≤ f ∧
        f + 0x1000 ≤ e.base + e.length

/-- The addresses of a zone. -/
def InZone (f : Nat) : Zone → Prop
  | .dma => f < 0x1000000
  | .dma32 => 0x1000000 ≤ f ∧ f < 0x100000000
  | .normal => 0x100000000 ≤ f

/-- The available ranges end below `2 ^ 63`, and no address is in two of them. -/
structure Ranges (table : List E820Entry) : Prop where
  ends : ∀ e ∈ table, e.type = E820_AVAILABLE → e.base + e.length < 2 ^ 63
  apart : table.Pairwise fun a b => a.type = E820_AVAILABLE → b.type = E820_AVAILABLE →
    ∀ x, ¬ ((a.base ≤ x ∧ x < a.base + a.length) ∧ (b.base ≤ x ∧ x < b.base + b.length))

variable {table : List E820Entry} {f : Nat} {z : Zone}

theorem zoneOf_eq_iff : zoneOf f = z ↔ InZone f z := by
  have h₁ : DMA_ZONE_LIMIT = 0x1000000 := rfl
  have h₂ : DMA32_ZONE_LIMIT = 0x100000000 := rfl
  unfold zoneOf
  split_ifs with hlow hdma
  · cases z with
    | dma => exact iff_of_true rfl (show f < 0x1000000 by omega)
    | dma32 => exact iff_of_false Zone.noConfusion fun h => absurd h.1 (by omega)
    | normal =>
      exact iff_of_false Zone.noConfusion fun h => absurd (show 0x100000000 ≤ f from h) (by omega)
  · cases z with
    | dma =>
      exact iff_of_false Zone.noConfusion fun h => absurd (show f < 0x1000000 from h) (by omega)
    | dma32 => exact iff_of_true rfl ⟨by omega, by omega⟩
    | normal =>
      exact iff_of_false Zone.noConfusion fun h => absurd (show 0x100000000 ≤ f from h) (by omega)
  · cases z with
    | dma =>
      exact iff_of_false Zone.noConfusion fun h => absurd (show f < 0x1000000 from h) (by omega)
    | dma32 => exact iff_of_false Zone.noConfusion fun h => absurd h.2 (by omega)
    | normal => exact iff_of_true rfl (show 0x100000000 ≤ f by omega)

/-! ## The pages that are visited -/

theorem mem_rangeFrames_iff {start stop : Nat} :
    f ∈ rangeFrames start stop ↔ f % 0x1000 = 0 ∧ start ≤ f ∧ f + 0x1000 ≤ stop := by
  constructor
  · intro h
    obtain ⟨hlo, hhi, haligned⟩ := mem_rangeFrames h
    unfold pageUp pageDown at hlo
    unfold pageDown at hhi
    omega
  · rintro ⟨haligned, hlo, hhi⟩
    refine List.mem_map.mpr ⟨(f - pageUp start) / 0x1000, List.mem_range.mpr ?_, ?_⟩
    · unfold pageUp pageDown
      omega
    · unfold pageUp pageDown
      omega

theorem mem_entryFrames_iff {e : E820Entry} :
    f ∈ entryFrames e ↔ f % 0x1000 = 0 ∧ e.type = E820_AVAILABLE ∧ max e.base 0x200000 ≤ f ∧
      f + 0x1000 ≤ e.base + e.length := by
  have hmin : MIN_ADDR = 0x200000 := rfl
  unfold entryFrames
  split_ifs with hskip
  · -- A range that is skipped has no page above the floor.
    refine iff_of_false List.not_mem_nil ?_
    rintro ⟨-, htype, hlo, hhi⟩
    rcases hskip with hother | hbelow
    · exact hother htype
    · omega
  · rw [mem_rangeFrames_iff, hmin]
    have htype : e.type = E820_AVAILABLE := by
      by_contra hother
      exact hskip (.inl hother)
    exact and_congr_right fun _ => (and_iff_right htype).symm

theorem mem_tableFrames : f ∈ table.flatMap entryFrames ↔ Usable table f := by
  unfold Usable
  rw [List.mem_flatMap]
  constructor
  · rintro ⟨e, he, hf⟩
    obtain ⟨haligned, hrest⟩ := mem_entryFrames_iff.mp hf
    exact ⟨haligned, e, he, hrest⟩
  · rintro ⟨haligned, e, he, hrest⟩
    exact ⟨e, he, mem_entryFrames_iff.mpr ⟨haligned, hrest⟩⟩

/-- No page is visited twice: it would lie in two ranges. -/
theorem Ranges.nodup (h : Ranges table) : (table.flatMap entryFrames).Nodup := by
  rw [List.nodup_flatMap]
  refine ⟨fun e _ => ?_, h.apart.imp ?_⟩
  · unfold entryFrames
    split_ifs
    · exact List.nodup_nil
    · exact rangeFrames_nodup _ _
  · intro a b hab f ha hb
    obtain ⟨-, hta, hloa, hhia⟩ := mem_entryFrames_iff.mp ha
    obtain ⟨-, htb, hlob, hhib⟩ := mem_entryFrames_iff.mp hb
    apply hab hta htb f
    omega

theorem Ranges.bounded (h : Ranges table) :
    ∀ e ∈ table, e.type = E820_AVAILABLE → e.base + e.length + 0xFFF < 2 ^ 64 := by
  intro e he htype
  have := h.ends e he htype
  omega

/-! ## The lists they are put on -/

theorem free_pageFrees (l : List Nat) (p : Pmm) :
    f ∈ (l.foldl Mm.pageFreeInternal p).free z ↔ f ∈ p.free z ∨ (f ∈ l ∧ zoneOf f = z) := by
  induction l generalizing p with
  | nil => simp
  | cons g l ih =>
    have hpush :
        f ∈ (Mm.pageFreeInternal p g).free z ↔ f ∈ p.free z ∨ (f = g ∧ zoneOf f = z) := by
      show f ∈ Function.update p.free (zoneOf g) (g :: p.free (zoneOf g)) z ↔ _
      by_cases hz : z = zoneOf g
      · subst hz
        rw [Function.update_self, List.mem_cons]
        constructor
        · rintro (rfl | hf)
          · exact .inr ⟨rfl, rfl⟩
          · exact .inl hf
        · rintro (hf | ⟨rfl, -⟩)
          · exact .inr hf
          · exact .inl rfl
      · rw [Function.update_of_ne hz]
        refine (or_iff_left ?_).symm
        rintro ⟨rfl, h⟩
        exact hz h.symm
    rw [List.foldl_cons, ih, hpush, List.mem_cons, or_assoc, or_and_right]

/-- With a page in the table, the lists are filled from the table. -/
theorem pmmInit_eq (hranges : Ranges table) (hlen : 1 ≤ table.length ∧ table.length ≤ 100)
    (hsome : ∃ f, Usable table f) :
    Mm.pmmInit table = (table.flatMap entryFrames).foldl Mm.pageFreeInternal emptyPmm := by
  obtain ⟨f, hf⟩ := hsome
  have hmem := mem_tableFrames.mpr hf
  have htotal := freePagesTotal_pageFrees (table.flatMap entryFrames) emptyPmm
  have hsmall := length_lt_of_nodup hranges.nodup fun g hg => tableFrames_range hranges.bounded hg
  have hpos := List.length_pos_of_mem hmem
  unfold Mm.pmmInit
  rw [if_neg (by omega)]
  dsimp only
  rw [Mm.foldl_addEntry _ hranges.bounded, if_neg]
  intro hzero
  rw [hzero] at htotal
  simp only [emptyPmm] at htotal
  omega

/-- After `pmm_init` the three lists hold each usable page once, on the list of its zone,
and `free_pages_total` is their number. -/
theorem pmmInit_usable (s : FreeLists) (table : List E820Entry)
    (hlen : 1 ≤ table.length ∧ table.length ≤ 100)
    (hranges : Ranges table) (hsome : ∃ f, Usable table f) :
    ∃ l : Zone → List Nat,
      (∀ z, Linked (pmmInit s table).next (· = 0) ((pmmInit s table).head z) (l z)) ∧
      (l .dma ++ l .dma32 ++ l .normal).Nodup ∧
      (∀ z f, f ∈ l z ↔ Usable table f ∧ InZone f z) ∧
      (pmmInit s table).freePagesTotal = (l .dma ++ l .dma32 ++ l .normal).length := by
  have hrep := represents_pmmInit_of_nodup s (fun _ => hranges.bounded) (fun _ => hranges.nodup)
  have hperm :
      ((Mm.pmmInit table).free .dma ++ (Mm.pmmInit table).free .dma32 ++
      (Mm.pmmInit table).free .normal).Perm
      (popOrder (Mm.pmmInit table)) := by
    rw [← Multiset.coe_eq_coe]
    simp only [popOrder, ← Multiset.coe_add]
    abel
  refine ⟨(Mm.pmmInit table).free, hrep.chain, hperm.nodup_iff.mpr hrep.nodup, fun z f => ?_, ?_⟩
  · rw [pmmInit_eq hranges hlen hsome, free_pageFrees, mem_tableFrames, zoneOf_eq_iff]
    exact or_iff_right List.not_mem_nil
  · rw [hperm.length_eq]
    exact hrep.count_eq

/-- One range that starts below 2 MiB and ends within a page. -/
theorem pmmInit_usable_unaligned :
    ∃ l : Zone → List Nat,
      (∀ z f, f ∈ l z ↔ Usable [{ base := 0x100000, length := 0x102800, type := 1 }] f ∧
        InZone f z) ∧
      (pmmInit (bootLists id)
        [{ base := 0x100000, length := 0x102800, type := 1 }]).freePagesTotal =
        (l .dma ++ l .dma32 ++ l .normal).length := by
  have hranges : Ranges [{ base := 0x100000, length := 0x102800, type := 1 }] :=
    ⟨by decide, List.pairwise_singleton _ _⟩
  obtain ⟨l, -, -, hmem, htotal⟩ :=
    pmmInit_usable (bootLists id) [{ base := 0x100000, length := 0x102800, type := 1 }]
    ⟨by decide, by decide⟩ hranges ⟨0x200000, by decide, _, List.mem_singleton_self _, by decide⟩
  exact ⟨l, hmem, htotal⟩

end Lumin.Mm.FreeList
