import Lumin.Mm.MapPage
import Lumin.Proc.ElfLoading

/-!
# Clearing pages

`elf_cleanup` goes over the list of pages: it clears the entry of each page in its page
table and frees its frame.  As long as no page is mapped higher up than in a page table,
the pages are not mapped any more, their frames are free, and nothing else has changed
(`elfCleanup_spec`).
-/

namespace Lumin.Proc

open Lumin.Lib Lumin.Mm

variable {η : Type} {K : NodeHeap η} {own : η → List Nat} {m m' : Machine}
  {held T : List Nat} {pml4 vaddr : Nat} {h : η} {eps rest : List ElfPage} {ep : ElfPage}

/-! ## Clearing an entry -/

/-- A present entry on the way to a page that is not mapped higher up leads to a table. -/
theorem pageStore_node {mem : Mem} {l t : Nat}
    (hpresent : isPresent (entryAt mem t (virtPath vaddr (l + 1)).val))
    (hlevel : ∀ k e, walkFrom mem (l + 1) t vaddr = some (k, e) → k = 0) :
    pageStore mem (l + 1) t (virtPath vaddr (l + 1)) = .node
      (pageDown (entryAt mem t (virtPath vaddr (l + 1)).val)) ∧
      walkFrom mem (l + 1) t vaddr =
        walkFrom mem l (pageDown (entryAt mem t (virtPath vaddr (l + 1)).val)) vaddr := by
  have hslot : pageStore mem (l + 1) t (virtPath vaddr (l + 1)) =
      .node (pageDown (entryAt mem t (virtPath vaddr (l + 1)).val)) := by
    by_cases hhuge : isHuge (entryAt mem t (virtPath vaddr (l + 1)).val) = true
    · have hleaf : pageStore mem (l + 1) t (virtPath vaddr (l + 1)) =
          .leaf (entryAt mem t (virtPath vaddr (l + 1)).val) := by
        unfold pageStore pageSlot
        rw [if_pos hpresent, if_pos (.inr hhuge)]
      have hwalk :
          walkFrom mem (l + 1) t vaddr =
          some (l + 1, entryAt mem t (virtPath vaddr (l + 1)).val) := by
        unfold walkFrom
        rw [Radix.walk_eq, hleaf]
        rfl
      exact absurd (hlevel _ _ hwalk) (by omega)
    · unfold pageStore pageSlot
      rw [if_pos hpresent, if_neg (by simp [hhuge])]
  refine ⟨hslot, ?_⟩
  unfold walkFrom
  rw [Radix.walk_eq, hslot]
  rfl

/-- Below an entry that is not present nothing is mapped. -/
theorem walkFrom_absent {mem : Mem} {l t : Nat}
    (habsent : ¬ isPresent (entryAt mem t (virtPath vaddr l).val) = true) :
    walkFrom mem l t vaddr = none := by
  have hslot : pageStore mem l t (virtPath vaddr l) = .absent := by
    unfold pageStore
    rw [pageSlot_absent_iff]
    simpa using habsent
  unfold walkFrom
  rw [Radix.walk_eq, hslot]
  cases l <;> rfl

/-- `elf_cleanup` clears the entry in the page table of the page, if there is one. -/
theorem clearEntry_cases (hlevel : ∀ l e, translate m.mem pml4 vaddr = some (l, e) → l = 0) :
    (clearEntry m pml4 vaddr = m ∧ translate m.mem pml4 vaddr = none) ∨
      ∃ pt, Radix.leafNode (pageStore m.mem) (virtPath vaddr) 3 pml4 = some pt ∧
        clearEntry m pml4 vaddr = m.store (pt + 8 * (virtPath vaddr 0).val) 0 := by
  unfold clearEntry
  rw [show tableIdx 0 vaddr = (virtPath vaddr 3).val from tableIdx_eq (l := 3) (by omega) vaddr,
    show tableIdx 1 vaddr = (virtPath vaddr 2).val from tableIdx_eq (l := 2) (by omega) vaddr,
    show tableIdx 2 vaddr = (virtPath vaddr 1).val from tableIdx_eq (l := 1) (by omega) vaddr,
    show tableIdx 3 vaddr = (virtPath vaddr 0).val from tableIdx_eq (l := 0) (by omega) vaddr]
  dsimp only
  split
  · rename_i hpml4e
    obtain ⟨hslot₃, hwalk₃⟩ := pageStore_node (l := 2) hpml4e hlevel
    split
    · rename_i hpdpte
      obtain ⟨hslot₂, hwalk₂⟩ :=
        pageStore_node (l := 1) hpdpte fun k e he => hlevel k e (hwalk₃.trans he)
      split
      · rename_i hpde
        obtain ⟨hslot₁, hwalk₁⟩ :=
          pageStore_node (l := 0) hpde fun k e he => hlevel k e (hwalk₃.trans (hwalk₂.trans he))
        split
        · refine .inr ⟨_, ?_, rfl⟩
          rw [Radix.leafNode, hslot₃]
          dsimp only
          rw [Radix.leafNode, hslot₂]
          dsimp only
          rw [Radix.leafNode, hslot₁]
          rfl
        · rename_i habsent
          exact .inl ⟨rfl, hwalk₃.trans (hwalk₂.trans (hwalk₁.trans (walkFrom_absent habsent)))⟩
      · rename_i habsent
        exact .inl ⟨rfl, hwalk₃.trans (hwalk₂.trans (walkFrom_absent habsent))⟩
    · rename_i habsent
      exact .inl ⟨rfl, hwalk₃.trans (walkFrom_absent habsent)⟩
  · rename_i habsent
    exact .inl ⟨rfl, walkFrom_absent habsent⟩

/-- Clearing an entry keeps the tables and the paths and changes a page on the path.  The
one page is not mapped any more. -/
theorem space_clearEntry {own : List Nat} (hspace : Space m pml4 own held)
    (hlevel : ∀ l e, translate m.mem pml4 vaddr = some (l, e) → l = 0) :
    Space (clearEntry m pml4 vaddr) pml4 own held ∧ (clearEntry m pml4 vaddr).pmm = m.pmm ∧
      (∀ x, pageDown x ∉ pathTables m.mem 3 pml4 vaddr →
        (clearEntry m pml4 vaddr).mem x = m.mem x) ∧
      (∀ virt, pathTables (clearEntry m pml4 vaddr).mem 3 pml4 virt =
        pathTables m.mem 3 pml4 virt) ∧
      ∀ virt, translate (clearEntry m pml4 vaddr).mem pml4 virt =
        if pageNumber virt = pageNumber vaddr then none else translate m.mem pml4 virt := by
  rcases clearEntry_cases hlevel with ⟨heq, hnone⟩ | ⟨pt, hpt, heq⟩
  · rw [heq]
    refine ⟨hspace, rfl, fun _ _ => rfl, fun _ => rfl, fun virt => ?_⟩
    split
    · rename_i hpage
      rw [translate_pageNumber hpage]
      exact hnone
    · rfl
  · rw [heq]
    have hpath : pt ∈ pathTables m.mem 3 pml4 vaddr := Radix.leafNode_mem hpt
    have hpt0 : pt % 0x1000 = 0 := hspace.tree.aligned pt (pathTables_subset hpath)
    have hstore :=
      fun l => pageStore_store (l := l) (i := virtPath vaddr 0) m.mem hpt0
      (show 0 < 2 ^ 64 by decide)
    have houtside :
        ∀ x, pageDown x ≠ pt → (m.store (pt + 8 * (virtPath vaddr 0).val) 0).mem x = m.mem x :=
      (hstore 0).2.2
    obtain ⟨hnodes, hwalks⟩ :=
      Radix.leafNode_clear hspace.tree.nodup (fun l => mem_tableSlots (virtPath vaddr l)) hpt
      (fun y hy hne => agree_of_page (hspace.tree.aligned y hy) fun x hx =>
        houtside x (by rw [hx]; exact hne))
      (fun k j hj => (hstore k).2.1 j hj) ((hstore 0).1.trans (pageSlot_zero 0))
    have htables :
        tables (m.store (pt + 8 * (virtPath vaddr 0).val) 0).mem 3 pml4 = tables m.mem 3 pml4 :=
        hnodes
    refine ⟨⟨⟨?_, ?_⟩, ?_, ?_⟩, rfl, fun x hx => houtside x ?_, fun virt => ?_, fun virt => ?_⟩
    · rw [htables]
      exact hspace.tree.nodup
    · rw [htables]
      exact hspace.tree.aligned
    · rw [htables]
      exact hspace.pool.of_perm (List.Perm.refl _)
    · rw [htables]
      exact hspace.apart
    · rintro rfl
      exact hx hpath
    · exact (hwalks (virtPath virt) fun l => mem_tableSlots _).1
    · rcases (hwalks (virtPath virt) fun l => mem_tableSlots _).2 with ⟨hsame, hnone⟩ | ⟨hne,
          hkeep⟩
      · rw [if_pos (pageNumber_eq_iff.mpr hsame)]
        exact hnone
      · rw [if_neg fun hpage => ?_]
        · exact hkeep
        · obtain ⟨k, hk, hne⟩ := hne
          exact hne (pageNumber_eq_iff.mp hpage k hk)

theorem clearEntry_pmm (m : Machine) (pml4 vaddr : Nat) :
    (clearEntry m pml4 vaddr).pmm = m.pmm := by
  unfold clearEntry
  dsimp only
  split
  · split
    · split
      · split
        · rfl
        · rfl
      · rfl
    · rfl
  · rfl

theorem popOrder_dropPage (m : Machine) (pml4 : Nat) {ep : ElfPage} (hphys : ep.phys ≠ 0) :
    (popOrder (dropPage m pml4 ep).pmm).Perm (ep.phys :: popOrder m.pmm) := by
  have hpmm : (if ep.vaddr ≠ 0 then clearEntry m pml4 ep.vaddr else m).pmm = m.pmm := by
    split
    · exact clearEntry_pmm m pml4 ep.vaddr
    · rfl
  have hfree := popOrder_pageFreeInternal m.pmm ep.phys
  unfold dropPage freeFrame linkFrame
  rw [if_pos hphys, if_neg hphys]
  dsimp only
  rw [hpmm]
  exact Multiset.coe_eq_coe.mp hfree

/-- One page of the cleanup: its entry goes, and its frame is free. -/
theorem space_dropPage {own : List Nat} {ep : ElfPage}
    (hspace : Space m pml4 own (ep.phys :: held))
    (hlevel : ep.vaddr ≠ 0 → ∀ l e, translate m.mem pml4 ep.vaddr = some (l, e) → l = 0)
    (hframe : IsFrame ep.phys)
    (hheld : ep.phys ∉ held) :
    Space (dropPage m pml4 ep) pml4 own held ∧
      (∀ x, pageDown x ∉ pathTables m.mem 3 pml4 ep.vaddr → pageDown x ≠ ep.phys →
        (dropPage m pml4 ep).mem x = m.mem x) ∧
      (∀ virt, pathTables (dropPage m pml4 ep).mem 3 pml4 virt = pathTables m.mem 3 pml4 virt) ∧
      ∀ virt, translate (dropPage m pml4 ep).mem pml4 virt =
        if ep.vaddr ≠ 0 ∧ pageNumber virt = pageNumber ep.vaddr then none
          else translate m.mem pml4 virt := by
  -- First the entry.
  obtain ⟨m₁, hm₁, hspace₁, houtside, hpaths, htranslate⟩ :
      ∃ m₁, m₁ = (if ep.vaddr ≠ 0 then clearEntry m pml4 ep.vaddr else m) ∧
          Space m₁ pml4 own (ep.phys :: held) ∧
        (∀ x, pageDown x ∉ pathTables m.mem 3 pml4 ep.vaddr → m₁.mem x = m.mem x) ∧
        (∀ virt, pathTables m₁.mem 3 pml4 virt = pathTables m.mem 3 pml4 virt) ∧
        ∀ virt, translate m₁.mem pml4 virt =
          if ep.vaddr ≠ 0 ∧ pageNumber virt = pageNumber ep.vaddr then none
            else translate m.mem pml4 virt := by
    by_cases hvaddr : ep.vaddr ≠ 0
    · obtain ⟨hspace₁, -, houtside, hpaths, htranslate⟩ := space_clearEntry hspace (hlevel hvaddr)
      refine ⟨_, (if_pos hvaddr).symm, hspace₁, houtside, hpaths, fun virt => ?_⟩
      rw [htranslate virt]
      simp only [hvaddr, ne_eq, not_false_eq_true, true_and]
    · refine ⟨m, (if_neg hvaddr).symm, hspace, fun _ _ => rfl, fun _ => rfl, fun virt => ?_⟩
      rw [if_neg fun h => hvaddr h.1]
  -- Then the frame.
  obtain ⟨hspace₂, htables, -⟩ := hspace₁.free hframe hheld
  have hdrop : dropPage m pml4 ep = freeFrame m₁ ep.phys := by
    unfold dropPage
    rw [if_pos hframe.2.1.ne', hm₁]
  rw [hdrop]
  refine ⟨hspace₂, fun x hx hphys => ?_, fun virt => ?_, fun virt => ?_⟩
  · rw [freeFrame_mem hframe.1 hphys, houtside x hx]
  · rw [← hpaths virt]
    exact pathTables_congr hspace₁.tree.aligned htables virt
  · rw [hspace₁.translate_congr htables, htranslate virt]

/-! ## The cleanup -/

/-- The cleanup clears the entry of the page at `virt`. -/
def Cleared (eps : List ElfPage) (virt : Nat) : Prop :=
  ∃ ep ∈ eps, ep.vaddr ≠ 0 ∧ pageNumber virt = pageNumber ep.vaddr

instance (eps : List ElfPage) (virt : Nat) : Decidable (Cleared eps virt) := by
  unfold Cleared
  infer_instance

theorem cleared_cons {virt : Nat} :
    Cleared (ep :: rest) virt ↔ (ep.vaddr ≠ 0 ∧ pageNumber virt = pageNumber ep.vaddr) ∨
      Cleared rest virt := by
  unfold Cleared
  simp only [List.mem_cons, exists_eq_or_imp]

/-- What `elf_cleanup` does if no page of the list is mapped higher up than in a page
table: the pages are not mapped any more, their frames are free, and nothing else has
changed.  The tables stay. -/
theorem elfCleanup_spec (hsound : K.Sound own)
    (hspace : Space m pml4 (own h) (eps.map ElfPage.phys))
    (hnodup : (eps.map ElfPage.phys).Nodup) (hframe : ∀ ep ∈ eps, IsFrame ep.phys)
    (hlevel : ∀ ep ∈ eps, ep.vaddr ≠ 0 → ∀ l e, translate m.mem pml4 ep.vaddr = some (l, e) →
      l = 0)
    (hpaths : ∀ ep ∈ eps, pathTables m.mem 3 pml4 ep.vaddr ⊆ T) :
    (∀ virt, translate (elfCleanup K pml4 h m eps).2.mem pml4 virt =
        if Cleared eps virt then none else translate m.mem pml4 virt) ∧
      (popOrder (elfCleanup K pml4 h m eps).2.pmm ++ own (elfCleanup K pml4 h m eps).1).Perm
        (eps.map ElfPage.phys ++ (popOrder m.pmm ++ own h)) ∧
      (∀ x, pageDown x ∉ T → pageDown x ∉ eps.map ElfPage.phys →
          pageDown x ∉ popOrder m.pmm ++ own h →
        (elfCleanup K pml4 h m eps).2.mem x = m.mem x) ∧
      ∀ virt, pathTables (elfCleanup K pml4 h m eps).2.mem 3 pml4 virt =
        pathTables m.mem 3 pml4 virt := by
  induction eps generalizing h m with
  | nil =>
    refine ⟨fun virt => ?_, List.Perm.refl _, fun _ _ _ _ => rfl, fun _ => rfl⟩
    rw [if_neg fun hmem => ?_]
    · rfl
    · obtain ⟨e, he, -⟩ := hmem
      cases he
  | cons ep rest ih =>
    rw [List.map_cons, List.nodup_cons] at hnodup
    have hep := hframe ep (by simp)
    obtain ⟨hspace₁, houtside, hpaths₁, htranslate⟩ :=
      space_dropPage hspace (hlevel ep (by simp)) hep hnodup.1
    have hpool₁ := popOrder_dropPage m pml4 hep.2.1.ne'
    have hstep :=
      hsound.kfree h ep.node (dropPage m pml4 ep) (hspace₁.pool.of_subset (List.nil_subset _))
    obtain ⟨hspace₂, htables, -⟩ := hspace₁.heapStep hstep
    have htranslate₂ :
        ∀ virt, translate (K.kfree h ep.node (dropPage m pml4 ep)).2.mem pml4 virt =
        if ep.vaddr ≠ 0 ∧ pageNumber virt = pageNumber ep.vaddr then none
          else translate m.mem pml4 virt :=
      fun virt => (hspace₁.translate_congr htables virt).trans (htranslate virt)
    have hpaths₂ : ∀ virt, pathTables (K.kfree h ep.node (dropPage m pml4 ep)).2.mem 3 pml4 virt =
        pathTables m.mem 3 pml4 virt :=
      fun virt => (pathTables_congr hspace₁.tree.aligned htables virt).trans (hpaths₁ virt)
    -- The frame of the page is in the pool now.
    have hpool₂ : (popOrder (K.kfree h ep.node (dropPage m pml4 ep)).2.pmm ++
        own (K.kfree h ep.node (dropPage m pml4 ep)).1).Perm
          (ep.phys :: (popOrder m.pmm ++ own h)) :=
      hstep.frames.trans (hpool₁.append_right (own h))
    have hlevel₂ : ∀ e ∈ rest, e.vaddr ≠ 0 → ∀ l b,
        translate (K.kfree h ep.node (dropPage m pml4 ep)).2.mem pml4 e.vaddr = some (l, b) →
          l = 0 := by
      intro e he hvaddr l b hb
      rw [htranslate₂] at hb
      split at hb
      · cases hb
      · exact hlevel e (List.mem_cons_of_mem ep he) hvaddr l b hb
    obtain ⟨ihtranslate, ihpool, ihmem, ihpaths⟩ := ih hspace₂ hnodup.2
      (fun e he => hframe e (List.mem_cons_of_mem ep he)) hlevel₂ fun e he => by
        rw [hpaths₂]
        exact hpaths e (List.mem_cons_of_mem ep he)
    rw [elfCleanup]
    dsimp only
    refine ⟨fun virt => ?_, ?_, fun x hT hphys hpool => ?_,
      fun virt => (ihpaths virt).trans (hpaths₂ virt)⟩
    · rw [ihtranslate virt, htranslate₂ virt]
      by_cases hrest : Cleared rest virt
      · rw [if_pos hrest, if_pos (cleared_cons.mpr (.inr hrest))]
      · rw [if_neg hrest]
        by_cases hmine : ep.vaddr ≠ 0 ∧ pageNumber virt = pageNumber ep.vaddr
        · rw [if_pos hmine, if_pos (cleared_cons.mpr (.inl hmine))]
        · rw [if_neg hmine, if_neg fun hcons => ?_]
          rcases cleared_cons.mp hcons with hcons | hcons
          · exact hmine hcons
          · exact hrest hcons
    · rw [List.map_cons, List.cons_append]
      exact (ihpool.trans (List.Perm.append_left _ hpool₂)).trans List.perm_middle
    · rw [List.map_cons, List.mem_cons, not_or] at hphys
      have hnot : pageDown x ∉ ep.phys :: (popOrder m.pmm ++ own h) := by
        rw [List.mem_cons, not_or]
        exact ⟨hphys.1, hpool⟩
      rw [ihmem x hT hphys.2 fun hmem => hnot (hpool₂.subset hmem),
        hstep.outside x (fun hmem => hpool (List.mem_append_right _ hmem)) fun hmem =>
          hnot (hpool₂.subset (List.mem_append_right _ hmem))]
      exact houtside x (fun hmem => hT (hpaths ep (by simp) hmem)) hphys.1

end Lumin.Proc
