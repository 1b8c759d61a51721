import Lumin.Mm.PageTree

/-!
# Address spaces

What holds of a page-table tree while the kernel builds and uses it.

* `PoolOk` accounts for the frames that are not in use: those on the free lists and
  those of the kernel heap, which takes frames from the lists and gives them back.
* `Space` is a tree with the frames that its owner holds besides the tables, such as
  the pages that it maps.
* `vmmCreatePml4_spec` and `Space.map` are what the two functions of `vmm.c` do to it.
-/

namespace Lumin.Mm

open Lumin.Lib Lumin.Lib.Radix

/-! ## The pool -/

/-- The frames on the free lists and those of the kernel heap, `own`, are distinct
frames outside `used`. -/
structure PoolOk (m : Machine) (own used : List Nat) : Prop where
  nodup : (popOrder m.pmm ++ own).Nodup
  frame : ∀ f ∈ popOrder m.pmm ++ own, IsFrame f
  apart : ∀ f ∈ popOrder m.pmm ++ own, f ∉ used

/-- What a call of the kernel heap does to the machine: it exchanges frames with the
free lists and writes into its own frames only. -/
structure HeapStep (m m' : Machine) (own own' : List Nat) : Prop where
  frames : (popOrder m'.pmm ++ own').Perm (popOrder m.pmm ++ own)
  outside : ∀ x, pageDown x ∉ own → pageDown x ∉ own' → m'.mem x = m.mem x

variable {m m' : Machine} {own own' used used' held new : List Nat}
  {pml4 cr3 virt virt' phys l t p f x : Nat}

theorem PoolOk.freeOk (h : PoolOk m own used) : FreeOk m used :=
  ⟨h.nodup.of_append_left, fun f hf => h.frame f (List.mem_append_left _ hf),
    fun f hf => h.apart f (List.mem_append_left _ hf)⟩

theorem FreeOk.poolOk (h : FreeOk m used) : PoolOk m [] used := by
  refine ⟨?_, ?_, ?_⟩ <;> rw [List.append_nil]
  · exact h.nodup
  · exact h.frame
  · exact h.apart

theorem PoolOk.of_subset (h : PoolOk m own used) (hsub : used' ⊆ used) : PoolOk m own used' :=
  ⟨h.nodup, h.frame, fun f hf hused => h.apart f hf (hsub hused)⟩

theorem PoolOk.of_perm (h : PoolOk m own used)
    (hperm : (popOrder m'.pmm ++ own').Perm (popOrder m.pmm ++ own)) : PoolOk m' own' used :=
  ⟨hperm.nodup_iff.mpr h.nodup, fun f hf => h.frame f (hperm.mem_iff.mp hf),
    fun f hf => h.apart f (hperm.mem_iff.mp hf)⟩

theorem PoolOk.heapStep (h : PoolOk m own used) (hstep : HeapStep m m' own own') :
    PoolOk m' own' used :=
  h.of_perm hstep.frames

/-- A step of the heap leaves the frames in use alone. -/
theorem HeapStep.mem_eq (hstep : HeapStep m m' own own') (h : PoolOk m own used)
    (hx : pageDown x ∈ used) :
    m'.mem x = m.mem x := by
  refine hstep.outside x (fun hown => h.apart _ (List.mem_append_right _ hown) hx) fun hown => ?_
  exact h.apart _ (hstep.frames.mem_iff.mp (List.mem_append_right _ hown)) hx

/-- Frames that leave the free lists are in use from then on. -/
theorem PoolOk.popped (h : PoolOk m own used) (hpop : popOrder m.pmm = new ++ popOrder m'.pmm) :
    PoolOk m' own (used ++ new) := by
  have hnodup := h.nodup
  rw [hpop, List.append_assoc] at hnodup
  have hmem : ∀ f ∈ popOrder m'.pmm ++ own, f ∈ popOrder m.pmm ++ own := by
    intro f hf
    rw [hpop, List.append_assoc]
    exact List.mem_append_right _ hf
  refine ⟨hnodup.of_append_right, fun f hf => h.frame f (hmem f hf), fun f hf hused => ?_⟩
  rcases List.mem_append.mp hused with hused | hnew
  · exact h.apart f (hmem f hf) hused
  · exact (List.nodup_append.mp hnodup).2.2 f hnew f hf rfl

/-- `pmm_alloc` fails or takes a frame out of the pool. -/
theorem PoolOk.alloc (h : PoolOk m own used) :
    (allocFrame m = (0, m) ∧ popOrder m.pmm = []) ∨
      ∃ p m', allocFrame m = (p, m') ∧ IsFrame p ∧ p ∉ used ∧ m'.mem = m.mem ∧
        popOrder m.pmm = p :: popOrder m'.pmm ∧ PoolOk m' own (p :: used) := by
  rcases h.freeOk.alloc with hnone | ⟨p, m', halloc, hframe, hused, hmem, hpop, -⟩
  · exact .inl hnone
  · refine .inr ⟨p, m', halloc, hframe, hused, hmem, hpop, ?_⟩
    exact (h.popped (show popOrder m.pmm = [p] ++ popOrder m'.pmm from hpop)).of_subset fun f
      hf => by
      rcases List.mem_cons.mp hf with rfl | hf
      · simp
      · exact List.mem_append_left _ hf

/-- `pmm_free` puts a frame back into it. -/
theorem PoolOk.free (h : PoolOk m own (p :: used)) (hp : IsFrame p) (hused : p ∉ used) :
    PoolOk (freeFrame m p) own used := by
  have hperm : (popOrder (freeFrame m p).pmm ++ own).Perm (p :: (popOrder m.pmm ++ own)) := by
    show (popOrder (freeFrame m p).pmm ++ own).Perm ((p :: popOrder m.pmm) ++ own)
    refine List.Perm.append_right own ?_
    have := popOrder_pageFreeInternal m.pmm p
    rw [← Multiset.coe_eq_coe, ← Multiset.cons_coe, ← this]
    unfold freeFrame linkFrame
    rw [if_neg hp.2.1.ne']
  refine ⟨?_, fun f hf => ?_, fun f hf => ?_⟩
  · rw [hperm.nodup_iff]
    exact List.nodup_cons.mpr ⟨fun hmem => h.apart p hmem (by simp), h.nodup⟩
  · rcases List.mem_cons.mp (hperm.mem_iff.mp hf) with rfl | hf
    · exact hp
    · exact h.frame f hf
  · rcases List.mem_cons.mp (hperm.mem_iff.mp hf) with rfl | hf
    · exact hused
    · exact fun hmem => h.apart f hf (List.mem_cons_of_mem p hmem)

/-! ## Spaces -/

/-- A tree whose owner also holds the frames `held`, apart from the pool. -/
structure Space (m : Machine) (pml4 : Nat) (own held : List Nat) : Prop where
  tree : TreeOk m.mem 3 pml4
  pool : PoolOk m own (tables m.mem 3 pml4 ++ held)
  apart : ∀ f ∈ held, f ∉ tables m.mem 3 pml4

/-- The address is below one of the PML4 slots that each task has for itself. -/
def UserSlot (virt : Nat) : Prop := 1 ≤ (virtPath virt 3).val ∧ (virtPath virt 3).val < 256

instance (virt : Nat) : Decidable (UserSlot virt) := inferInstanceAs (Decidable (_ ∧ _))

/-- Everything that is mapped at the addresses `S` is a page of a held frame. -/
def LeavesHeld (S : Nat → Prop) (m : Machine) (pml4 : Nat) (held : List Nat) : Prop :=
  ∀ virt l e, S virt → translate m.mem pml4 virt = some (l, e) → l = 0 ∧ pageDown e ∈ held

theorem Space.freeOk (h : Space m pml4 own held) : FreeOk m (tables m.mem 3 pml4) :=
  h.pool.freeOk.of_subset (List.subset_append_left _ _)

theorem Space.of_subset {held' : List Nat} (h : Space m pml4 own held) (hsub : held' ⊆ held) :
    Space m pml4 own held' := by
  refine ⟨h.tree, h.pool.of_subset fun f hf => ?_, fun f hf => h.apart f (hsub hf)⟩
  rcases List.mem_append.mp hf with hf | hf
  · exact List.mem_append_left _ hf
  · exact List.mem_append_right _ (hsub hf)

/-- The heap can be left out. -/
theorem Space.forgetHeap (h : Space m pml4 own held) : Space m pml4 [] held :=
  ⟨h.tree, h.pool.freeOk.poolOk, h.apart⟩

theorem Space.translate_congr (h : Space m pml4 own held)
    (hsame : ∀ x, pageDown x ∈ tables m.mem 3 pml4 → m'.mem x = m.mem x) (virt : Nat) :
    translate m'.mem pml4 virt = translate m.mem pml4 virt :=
  walkFrom_congr h.tree.aligned hsame

/-- A change outside of the tables. -/
theorem Space.congr {held' : List Nat} (h : Space m pml4 own held)
    (hsame : ∀ x, pageDown x ∈ tables m.mem 3 pml4 → m'.mem x = m.mem x)
    (hpool : PoolOk m' own' (tables m.mem 3 pml4 ++ held'))
    (hheld : ∀ f ∈ held', f ∉ tables m.mem 3 pml4) : Space m' pml4 own' held' := by
  have htables : tables m'.mem 3 pml4 = tables m.mem 3 pml4 := tables_congr h.tree.aligned hsame
  refine ⟨h.tree.congr hsame, ?_, ?_⟩
  · rw [htables]
    exact hpool
  · rw [htables]
    exact hheld

/-- A write into a held frame. -/
theorem Space.write (h : Space m pml4 own held) {mem' : Mem} (hf : f ∈ held)
    (hsame : ∀ x, pageDown x ≠ f → mem' x = m.mem x) :
    Space { m with mem := mem' } pml4 own held := by
  refine h.congr (fun x hx => hsame x ?_) (h.pool.of_perm (List.Perm.refl _)) h.apart
  rintro rfl
  exact h.apart _ hf hx

/-- A step of the kernel heap. -/
theorem Space.heapStep (h : Space m pml4 own held) (hstep : HeapStep m m' own own') :
    Space m' pml4 own' held ∧ (∀ x, pageDown x ∈ tables m.mem 3 pml4 → m'.mem x = m.mem x) ∧
      ∀ x, pageDown x ∈ held → m'.mem x = m.mem x := by
  have hsame : ∀ x, pageDown x ∈ tables m.mem 3 pml4 ++ held → m'.mem x = m.mem x :=
    fun x hx => hstep.mem_eq h.pool hx
  have htables : ∀ x, pageDown x ∈ tables m.mem 3 pml4 → m'.mem x = m.mem x :=
    fun x hx => hsame x (List.mem_append_left _ hx)
  exact ⟨h.congr htables (h.pool.heapStep hstep) h.apart, htables,
    fun x hx => hsame x (List.mem_append_right _ hx)⟩

/-- Frames that leave the free lists can be held. -/
theorem Space.popped (h : Space m pml4 own held) (hpop : popOrder m.pmm = new ++ popOrder m'.pmm)
    (hmem : m'.mem = m.mem) : Space m' pml4 own (new ++ held) := by
  refine h.congr (fun x _ => by rw [hmem]) ((h.pool.popped hpop).of_subset fun f hf => ?_) fun f
    hf ht => ?_
  · simp only [List.mem_append] at hf ⊢
    tauto
  · rcases List.mem_append.mp hf with hf | hf
    · refine h.pool.apart f (List.mem_append_left _ ?_) (List.mem_append_left _ ht)
      rw [hpop]
      exact List.mem_append_left _ hf
    · exact h.apart f hf ht

/-- Taking a frame. -/
theorem Space.alloc (h : Space m pml4 own held) :
    (allocFrame m = (0, m) ∧ popOrder m.pmm = []) ∨
      ∃ p m', allocFrame m = (p, m') ∧ IsFrame p ∧ p ∉ held ∧ p ∉ tables m.mem 3 pml4 ∧
          m'.mem = m.mem ∧
        popOrder m.pmm = p :: popOrder m'.pmm ∧ Space m' pml4 own (p :: held) := by
  rcases h.pool.alloc with hnone | ⟨p, m', halloc, hframe, hused, hmem, hpop, hpool⟩
  · exact .inl hnone
  · rw [List.mem_append, not_or] at hused
    exact .inr ⟨p, m', halloc, hframe, hused.2, hused.1, hmem, hpop,
      h.popped (show popOrder m.pmm = [p] ++ popOrder m'.pmm from hpop) hmem⟩

/-- Giving one back. -/
theorem Space.free (h : Space m pml4 own (p :: held)) (hp : IsFrame p) (hheld : p ∉ held) :
    Space (freeFrame m p) pml4 own held ∧
      (∀ x, pageDown x ∈ tables m.mem 3 pml4 → (freeFrame m p).mem x = m.mem x) ∧
      ∀ x, pageDown x ∈ held → (freeFrame m p).mem x = m.mem x := by
  have hnot : p ∉ tables m.mem 3 pml4 := h.apart p (by simp)
  have htables : ∀ x, pageDown x ∈ tables m.mem 3 pml4 → (freeFrame m p).mem x = m.mem x :=
    fun x hx => freeFrame_mem hp.1 fun heq => hnot (heq ▸ hx)
  refine ⟨h.congr htables ?_ fun f hf => h.apart f (List.mem_cons_of_mem p hf), htables,
    fun x hx => freeFrame_mem hp.1 fun heq => hheld (heq ▸ hx)⟩
  have hpool : PoolOk m own (p :: (tables m.mem 3 pml4 ++ held)) := by
    refine h.pool.of_subset fun f hf => ?_
    simp only [List.mem_append, List.mem_cons] at hf ⊢
    tauto
  refine hpool.free hp ?_
  rw [List.mem_append, not_or]
  exact ⟨hnot, hheld⟩

/-- Mapping a held frame. -/
theorem Space.map {leafFlags : Nat} (h : Space m pml4 own held) (virt : Nat)
    (hphys : IsFrame phys)
    (hflags : leafFlags < 2 ^ 12) :
    ∃ r m' new, vmmMapPage m pml4 virt phys leafFlags = (r, m') ∧ Extended m m' 3 pml4 virt new ∧
      Space m' pml4 own held ∧ (∀ x, pageDown x ∈ held → m'.mem x = m.mem x) ∧
      ((r = 0 ∧ translate m.mem pml4 virt = none ∧
          translate m'.mem pml4 virt = some (0, phys ||| leafFlags ||| PAGE_PRESENT)) ∨
        (r = -1 ∧ ∀ virt', translate m'.mem pml4 virt' = translate m.mem pml4 virt')) := by
  obtain ⟨r, m', new, hmap, hext, hres⟩ :=
    vmmMapPage_spec virt h.tree h.freeOk hphys.1 hphys.2.2 hflags
  have hnew : ∀ f ∈ new, f ∉ held := fun f hf hheld =>
    h.pool.apart f (List.mem_append_left _ (hext.mem_free hf)) (List.mem_append_right _ hheld)
  refine ⟨r, m', new, hmap, hext, ⟨hext.treeOk h.tree h.freeOk, ?_, fun f hf hmem => ?_⟩,
    fun x hx => ?_, ?_⟩
  · refine (h.pool.popped hext.popped).of_subset fun f hf => ?_
    rcases List.mem_append.mp hf with hf | hf
    · rcases List.mem_append.mp (hext.tables.mem_iff.mp hf) with hf | hf
      · exact List.mem_append_left _ (List.mem_append_left _ hf)
      · exact List.mem_append_right _ hf
    · exact List.mem_append_left _ (List.mem_append_right _ hf)
  · rcases List.mem_append.mp (hext.tables.mem_iff.mp hmem) with hmem | hmem
    · exact h.apart f hf hmem
    · exact hnew f hmem hf
  · exact hext.outside x (fun hmem => h.apart _ hx (pathTables_subset hmem)) fun hmem =>
      hnew _ hmem hx
  · rcases hres with ⟨hr, hnone, hsome, -⟩ | ⟨hr, hsame, -⟩
    · exact .inl ⟨hr, hnone, hsome⟩
    · exact .inr ⟨hr, hsame⟩

section Leaves

variable {S : Nat → Prop}

/-- After a held frame is mapped, what is mapped is still held. -/
theorem LeavesHeld.map {leafFlags : Nat} (h : LeavesHeld S m pml4 held)
    (hext : Extended m m' 3 pml4 virt new)
    (hphys : IsFrame phys) (hflags : leafFlags < 2 ^ 12) (hheld : phys ∈ held)
    (hsome : translate m'.mem pml4 virt = some (0, phys ||| leafFlags ||| PAGE_PRESENT)) :
    LeavesHeld S m' pml4 held := by
  intro virt' l e huser he
  by_cases hpath : ∃ k ≤ 3, virtPath virt' k ≠ virtPath virt k
  · refine h virt' l e huser ?_
    rw [← he]
    exact (hext.walks virt' hpath).symm
  · push Not at hpath
    have hsame : translate m'.mem pml4 virt' = translate m'.mem pml4 virt :=
      walkFrom_eq_of_path hpath
    rw [hsame, hsome] at he
    cases he
    refine ⟨rfl, ?_⟩
    rw [pageDown_or hphys.1 hflags]
    exact hheld

theorem LeavesHeld.of_subset {held' : List Nat} (h : LeavesHeld S m pml4 held)
    (hsub : held ⊆ held') : LeavesHeld S m pml4 held' :=
  fun virt l e huser he => ⟨(h virt l e huser he).1, hsub (h virt l e huser he).2⟩

theorem LeavesHeld.congr (h : LeavesHeld S m pml4 held)
    (hsame : ∀ virt, translate m'.mem pml4 virt = translate m.mem pml4 virt) :
    LeavesHeld S m' pml4 held :=
  fun virt l e huser he => h virt l e huser ((hsame virt) ▸ he)

end Leaves

/-! ## A new PML4 -/

/-- The entries of a PML4 that `vmm_create_pml4` made. -/
theorem entryAt_newPml4 (mem : Mem) (hp : p % 0x1000 = 0) (hcr3 : cr3 % 0x1000 = 0)
    (hne : p ≠ cr3) (i : Fin 512) :
    entryAt (zeroFill (copyWords mem p cr3 PAGE_TABLE_ENTRIES) (p + 8) (8 * 255)) p i =
      if 1 ≤ i.val ∧ i.val < 256 then 0 else entryAt mem cr3 i := by
  have hi := i.isLt
  have hranges : p + 8 * PAGE_TABLE_ENTRIES ≤ cr3 ∨ cr3 + 8 * PAGE_TABLE_ENTRIES ≤ p := by
    unfold PAGE_TABLE_ENTRIES
    omega
  unfold entryAt
  by_cases huser : 1 ≤ i.val ∧ i.val < 256
  · rw [if_pos huser, rdLE_zeroFill (by omega)]
  · rw [if_neg huser]
    refine rdLE_move fun k hk => ?_
    rw [zeroFill_of_not (by omega), copyWords_eq hranges,
      if_pos (by unfold PAGE_TABLE_ENTRIES; omega)]
    congr 1
    omega

/-- `vmm_create_pml4`: a tree that shares the slots outside of the user's with the
current one, but not its PML4, and has nothing else. -/
theorem vmmCreatePml4_spec (h : Space m cr3 own held) :
    vmmCreatePml4 m cr3 = (0, m) ∨
      ∃ p m', vmmCreatePml4 m cr3 = (p, m') ∧ IsFrame p ∧ popOrder m.pmm = p :: popOrder m'.pmm ∧
        (∀ x, pageDown x ≠ p → m'.mem x = m.mem x) ∧ Space m' p own (cr3 :: held) ∧
        tables m'.mem 3 p ⊆ p :: tables m.mem 3 cr3 ∧
        (∀ virt, translate m'.mem p virt = if UserSlot virt then none
          else translate m.mem cr3 virt) ∧
        (∀ virt, UserSlot virt → pathTables m'.mem 3 p virt = [p]) ∧
        ∀ i : Fin 512, entryAt m'.mem p i = if 1 ≤ i.val ∧
            i.val < 256 then 0 else entryAt m.mem cr3 i := by
  have hcr3 : cr3 % 0x1000 = 0 := h.tree.aligned cr3 (mem_tables_self _ _ _)
  unfold vmmCreatePml4
  rcases h.alloc with ⟨hnone, -⟩ | ⟨p, m₁, halloc, hframe, hheld, htables, hmem, hpop, hspace⟩
  · rw [hnone]
    exact .inl rfl
  · rw [halloc]
    dsimp only
    rw [if_neg hframe.2.1.ne', hmem]
    have hne : p ≠ cr3 := by
      rintro rfl
      exact htables (mem_tables_self _ _ _)
    set mem' := zeroFill (copyWords m.mem p cr3 PAGE_TABLE_ENTRIES) (p + 8) (8 * 255) with hmem'
    have hp0 := hframe.1
    have hranges : p + 8 * PAGE_TABLE_ENTRIES ≤ cr3 ∨ cr3 + 8 * PAGE_TABLE_ENTRIES ≤ p := by
      unfold PAGE_TABLE_ENTRIES
      omega
    have houtside : ∀ x, pageDown x ≠ p → mem' x = m.mem x := by
      intro x hx
      have hrange : ¬ (p ≤ x ∧ x < p + 0x1000) :=
        fun hmem => hx (pageDown_of_mem_page hp0 hmem.1 hmem.2)
      rw [hmem', zeroFill_of_not (by omega), copyWords_eq hranges,
        if_neg (by unfold PAGE_TABLE_ENTRIES; omega)]
    have hentry := entryAt_newPml4 m.mem hp0 hcr3 hne
    rw [← hmem'] at hentry
    have hslot : ∀ i, pageStore mem' 3 p i =
        if 1 ≤ i.val ∧ i.val < 256 then .absent else pageStore m.mem 3 cr3 i := by
      intro i
      unfold pageStore
      rw [hentry i]
      split
      · exact pageSlot_zero 3
      · rfl
    have hmine : ∀ virt, UserSlot virt → pageStore mem' 3 p (virtPath virt 3) = .absent :=
      fun virt huser => (hslot _).trans (if_pos huser)
    have hshared :
        ∀ virt, ¬ UserSlot virt →
        pageStore mem' 3 p (virtPath virt 3) = pageStore m.mem 3 cr3 (virtPath virt 3) :=
      fun virt huser => (hslot _).trans (if_neg huser)
    have hagree : ∀ y ∈ tables m.mem 3 cr3, Agree (pageStore m.mem) (pageStore mem') y := by
      intro y hy
      refine agree_of_page (h.tree.aligned y hy) fun x hx => houtside x ?_
      rintro rfl
      exact htables (hx ▸ hy)
    obtain ⟨hnodup, hsub, hroot⟩ := nodes_select h.tree.nodup htables
      (fun i _ => by
        rw [hslot i]
        split
        · exact .inl rfl
        · exact .inr rfl) hagree
    refine .inr ⟨p, { m₁ with mem := mem' }, rfl, hframe, hpop, houtside,
      ⟨⟨hnodup, fun x hx => ?_⟩, ?_, ?_⟩, hsub,
      fun virt => ?_, fun virt huser => ?_, hentry⟩
    · rcases List.mem_cons.mp (hsub hx) with rfl | hx
      · exact hp0
      · exact h.tree.aligned x hx
    · have hpool : PoolOk { m₁ with mem := mem' } own (tables m.mem 3 cr3 ++ held ++ [p]) :=
        h.pool.popped hpop
      refine hpool.of_subset fun f hf => ?_
      rcases List.mem_append.mp hf with hf | hf
      · rcases List.mem_cons.mp (hsub hf) with rfl | hf
        · simp
        · exact List.mem_append_left _ (List.mem_append_left _ hf)
      · rcases List.mem_cons.mp hf with rfl | hf
        · exact List.mem_append_left _ (List.mem_append_left _ (mem_tables_self _ _ _))
        · exact List.mem_append_left _ (List.mem_append_right _ hf)
    · intro f hf hmem
      rcases List.mem_cons.mp hf with rfl | hf
      · exact hroot hmem
      · rcases List.mem_cons.mp (hsub hmem) with rfl | hmem
        · exact hheld hf
        · exact h.apart f hf hmem
    · unfold translate walkFrom
      rw [walk_eq]
      by_cases huser : UserSlot virt
      · rw [if_pos huser, hmine virt huser]
        rfl
      · rw [if_neg huser, walk_eq, hshared virt huser]
        have hbelow :
            ∀ y ∈ slotNodes (pageStore m.mem) tableSlots 3
            (pageStore m.mem 3 cr3 (virtPath virt 3)),
            Agree (pageStore m.mem) (pageStore mem') y :=
          fun y hy => hagree y (mem_nodes_of_slot (mem_tableSlots _) hy)
        exact slotWalk_congr (fun l => mem_tableSlots _) hbelow
    · unfold pathTables
      rw [onPath, hmine virt huser]

/-! ## An empty space -/

/-- An allocator that has frames of the lowest zone only. -/
def lowFrames (free : List Nat) (total : Nat) : Pmm :=
  { free := fun z => if z = .dma then free else [], freePagesTotal := total }

/-- An empty PML4 at `0x1000` and the frames `free`. -/
def emptyMachine (free : List Nat) : Machine where
  mem _ := 0
  pmm := lowFrames free free.length

theorem allocFrame_low (mem : Mem) (p : Nat) (ps : List Nat) (n : Nat) :
    allocFrame { mem := mem, pmm := lowFrames (p :: ps) n } =
      (p, { mem := mem, pmm := lowFrames ps (sub64 n 1) }) := by
  have hupdate :
      Function.update (lowFrames (p :: ps) n).free .dma ps = (lowFrames ps n).free := by
    funext z
    cases z <;> rfl
  unfold allocFrame pmmAlloc zoneAllocAny
  show (p, Machine.mk mem
      (Pmm.mk (Function.update (lowFrames (p :: ps) n).free .dma ps) (sub64 n 1))) = _
  rw [hupdate]
  rfl

theorem pageStore_empty (l t : Nat) (i : Fin 512) : pageStore (fun _ => 0) l t i = .absent := by
  have hentry : entryAt (fun _ => 0) t i = 0 := by simp [entryAt, rdLE]
  unfold pageStore
  rw [hentry, pageSlot_zero]

/-- Nothing is mapped in memory without page tables. -/
theorem translate_empty (t virt : Nat) : translate (fun _ => 0) t virt = none :=
  walk_of_absent (fun l i => pageStore_empty l t i) (virtPath virt) 3

theorem tables_empty (l t : Nat) : tables (fun _ => 0) l t = [t] :=
  (nodes_of_absent (fun l i => pageStore_empty l t i) l).1

theorem treeOk_empty : TreeOk (fun _ => 0) 3 0x1000 := by
  constructor
  · rw [tables_empty]
    exact List.nodup_singleton _
  · rw [tables_empty]
    simp

/-- A new address space on distinct frames. -/
theorem space_empty {free own : List Nat} (hnodup : (free ++ own).Nodup)
    (hframe : ∀ f ∈ free ++ own, IsFrame f)
    (hroot : 0x1000 ∉ free ++ own) : Space (emptyMachine free) 0x1000 own [] := by
  have htables : tables (emptyMachine free).mem 3 0x1000 = [0x1000] := tables_empty 3 0x1000
  refine ⟨treeOk_empty, ⟨hnodup, hframe, fun f hf hused => ?_⟩, by simp⟩
  rw [htables, List.append_nil, List.mem_singleton] at hused
  exact hroot (hused ▸ hf)

end Lumin.Mm
