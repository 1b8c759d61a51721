import Lumin.Lib.Radix
import Lumin.Mm.Frames
import Lumin.Mm.Vmm

/-!
# Page-table trees

The tree that `vmm_map_page` walks, as a radix tree over physical memory.  Level 3 is
the PML4 and level 0 a page table.

* `tables` are the frames of the tree, and `TreeOk` says that they are pages that the
  tree reaches once.
* `FreeOk` says that the allocator has only frames to give that are not among them.
* `mapFrom_spec` is what mapping one page does to any tree: the frames it takes become
  tables, the leaf is new, and the walk of every other page is as before.
-/

namespace Lumin.Mm

open Lumin.Lib Lumin.Lib.Radix

/-! ## Memory -/

variable {mem mem' : Mem} {m m' : Machine} {a b n x v : Nat}

theorem zeroFill_of_mem (h : a ≤ x ∧ x < a + n) : zeroFill mem a n x = 0 := if_pos h

theorem zeroFill_of_not (h : ¬ (a ≤ x ∧ x < a + n)) : zeroFill mem a n x = mem x := if_neg h

theorem copyWords_succ (mem : Mem) (dst src n : Nat) :
    copyWords mem dst src (n + 1) =
      wrLE (copyWords mem dst src n) (dst + 8 * n) 8
        (rdLE (copyWords mem dst src n) (src + 8 * n) 8) := by
  unfold copyWords
  rw [List.range_succ, List.foldl_append]
  rfl

/-- A byte of a word that was copied. -/
theorem wrLE_rdLE_byte (mem mem' : Mem) (dst src k : Nat) (hk : k < 8) :
    wrLE mem dst 8 (rdLE mem' src 8) (dst + k) = mem' (src + k) := by
  rw [wrLE_rdLE, if_pos (by omega), Nat.add_sub_cancel_left]

/-- A copy between ranges that do not meet. -/
theorem copyWords_eq {dst src : Nat} (h : dst + 8 * n ≤ src ∨ src + 8 * n ≤ dst) :
    copyWords mem dst src n x =
      if dst ≤ x ∧ x < dst + 8 * n then mem (src + (x - dst)) else mem x := by
  induction n generalizing x with
  | zero => rw [if_neg (by omega)]; rfl
  | succ n ih =>
    rw [copyWords_succ]
    by_cases hword : dst + 8 * n ≤ x ∧ x < dst + 8 * n + 8
    · obtain ⟨k, rfl⟩ : ∃ k, x = dst + 8 * n + k := ⟨x - (dst + 8 * n), by omega⟩
      rw [wrLE_rdLE_byte _ _ _ _ k (by omega), ih (by omega), if_neg (by omega),
        if_pos (by omega)]
      congr 1
      omega
    · rw [wrLE, if_neg (by omega), ih (by omega)]
      by_cases hx : dst ≤ x ∧ x < dst + 8 * n
      · rw [if_pos hx, if_pos (by omega)]
      · rw [if_neg hx, if_neg (by omega)]

theorem rdLE_zeroFill (h : a ≤ b ∧ b + 8 ≤ a + n) : rdLE (zeroFill mem a n) b 8 = 0 := by
  have hz : rdLE (zeroFill mem a n) b 8 = rdLE (fun _ => 0) b 8 :=
    rdLE_congr fun x hlo hhi => zeroFill_of_mem (by omega)
  rw [hz]
  simp [rdLE]

/-! ## Frames -/

/-- The address of a page frame. -/
def IsFrame (f : Nat) : Prop := f % 0x1000 = 0 ∧ 0 < f ∧ f < 2 ^ 64

instance (f : Nat) : Decidable (IsFrame f) := inferInstanceAs (Decidable (_ ∧ _))

theorem pageDown_of_mem_page {t : Nat} (ht : t % 0x1000 = 0) (hlo : t ≤ x)
    (hhi : x < t + 0x1000) :
    pageDown x = t := by
  unfold pageDown
  omega

theorem pageDown_aligned (x : Nat) : pageDown x % 0x1000 = 0 := by
  unfold pageDown
  omega

theorem pageDown_le (x : Nat) : pageDown x ≤ x := Nat.div_mul_le_self _ _

theorem lt_pageDown_add (x : Nat) : x < pageDown x + 0x1000 := by
  unfold pageDown
  omega

/-- The next frame of the allocator, if there is one. -/
theorem allocFrame_spec (hnz : ∀ f ∈ popOrder m.pmm, f ≠ 0) :
    (popOrder m.pmm = [] ∧ allocFrame m = (0, m)) ∨
      ∃ p rest pmm, popOrder m.pmm = p :: rest ∧ allocFrame m = (p, { m with pmm := pmm }) ∧
        popOrder pmm = rest := by
  unfold allocFrame pmmAlloc
  cases hpop : popOrder m.pmm with
  | nil =>
    left
    rw [zoneAllocAny_nil hpop]
    exact ⟨rfl, rfl⟩
  | cons p rest =>
    right
    obtain ⟨pmm, halloc, hrest⟩ := zoneAllocAny_cons hpop (hnz p (by simp [hpop]))
    rw [halloc]
    exact ⟨p, rest, pmm, rfl, rfl, hrest⟩

/-! ## The tree -/

/-- What an entry of a table at a level stands for. -/
def pageSlot (l e : Nat) : Slot Nat Nat :=
  if isPresent e then if l = 0 ∨ isHuge e then .leaf e else .node (pageDown e) else .absent

/-- The tables in memory. -/
def pageStore (mem : Mem) : Store Nat (Fin 512) Nat := fun l t i => pageSlot l (entryAt mem t i)

/-- The indices by which a virtual address goes down the tree. -/
def virtPath (virt l : Nat) : Fin 512 := ⟨virt / 2 ^ (12 + 9 * l) % 512, Nat.mod_lt _ (by decide)⟩

/-- The indices of a table. -/
@[irreducible] def tableSlots : List (Fin 512) := List.finRange 512

theorem mem_tableSlots (i : Fin 512) : i ∈ tableSlots := by
  unfold tableSlots
  exact List.mem_finRange i

theorem nodup_tableSlots : tableSlots.Nodup := by
  unfold tableSlots
  exact List.nodup_finRange 512

/-- The frames of the tables below a table at level `l`. -/
def tables (mem : Mem) (l t : Nat) : List Nat := nodes (pageStore mem) tableSlots l t

/-- The leaf entries below a table at level `l`. -/
def leafEntries (mem : Mem) (l t : Nat) : List Nat := leaves (pageStore mem) tableSlots l t

/-- The leaf entry for a virtual address below a table at level `l`, with its level. -/
def walkFrom (mem : Mem) (l t virt : Nat) : Option (Nat × Nat) :=
  walk (pageStore mem) (virtPath virt) l t

/-- The leaf entry for a virtual address. -/
def translate (mem : Mem) (pml4 virt : Nat) : Option (Nat × Nat) := walkFrom mem 3 pml4 virt

/-- The tables are pages, and the tree reaches each of them once. -/
structure TreeOk (mem : Mem) (l t : Nat) : Prop where
  nodup : (tables mem l t).Nodup
  aligned : ∀ x ∈ tables mem l t, x % 0x1000 = 0

/-- The free frames are distinct frames outside `used`. -/
structure FreeOk (m : Machine) (used : List Nat) : Prop where
  nodup : (popOrder m.pmm).Nodup
  frame : ∀ f ∈ popOrder m.pmm, IsFrame f
  apart : ∀ f ∈ popOrder m.pmm, f ∉ used

theorem FreeOk.ne_zero {used : List Nat} (h : FreeOk m used) : ∀ f ∈ popOrder m.pmm, f ≠ 0 :=
  fun f hf => (h.frame f hf).2.1.ne'

variable {l t t' virt virt' e p : Nat} {i j : Fin 512}

/-- A table depends on its own page. -/
theorem agree_of_page (ht : t % 0x1000 = 0) (h : ∀ x, pageDown x = t → mem' x = mem x) :
    Agree (pageStore mem) (pageStore mem') t := by
  intro l i
  have hentry : entryAt mem' t i = entryAt mem t i := by
    have := i.isLt
    exact rdLE_congr fun x hlo hhi => h x (pageDown_of_mem_page ht (by omega) (by omega))
  unfold pageStore
  rw [hentry]

/-- A tree depends on the pages of its tables. -/
theorem tables_congr (hal : ∀ x ∈ tables mem l t, x % 0x1000 = 0)
    (h : ∀ x, pageDown x ∈ tables mem l t → mem' x = mem x) : tables mem' l t = tables mem l t :=
  nodes_congr fun y hy => agree_of_page (hal y hy) fun x hx => h x (hx ▸ hy)

theorem walkFrom_congr (hal : ∀ x ∈ tables mem l t, x % 0x1000 = 0)
    (h : ∀ x, pageDown x ∈ tables mem l t → mem' x = mem x) :
    walkFrom mem' l t virt = walkFrom mem l t virt :=
  walk_congr (fun l => mem_tableSlots (virtPath virt l)) fun y hy =>
    agree_of_page (hal y hy) fun x hx => h x (hx ▸ hy)

theorem TreeOk.congr (h : TreeOk mem l t) (hsame : ∀ x, pageDown x ∈ tables mem l t →
    mem' x = mem x) : TreeOk mem' l t := by
  have htables := tables_congr h.aligned hsame
  constructor
  · rw [htables]
    exact h.nodup
  · rw [htables]
    exact h.aligned

theorem mem_tables_self (mem : Mem) (l t : Nat) : t ∈ tables mem l t := mem_nodes_self _ _ _ _

/-- The tree below a slot. -/
theorem TreeOk.child (h : TreeOk mem (l + 1) t) {c : Nat}
    (hslot : pageStore mem (l + 1) t i = .node c) :
    TreeOk mem l c ∧ (∀ x ∈ tables mem l c, x ∈ tables mem (l + 1) t) ∧ t ∉ tables mem l c := by
  have hsub : slotNodes (pageStore mem) tableSlots (l + 1) (pageStore mem (l + 1) t i) =
      tables mem l c := by
    rw [hslot]
    rfl
  have hmem : ∀ x ∈ tables mem l c, x ∈ tables mem (l + 1) t := by
    intro x hx
    exact mem_nodes_of_slot (mem_tableSlots i) (hsub ▸ hx)
  refine ⟨⟨?_, fun x hx => h.aligned x (hmem x hx)⟩, hmem, ?_⟩
  · rw [← hsub]
    exact slotNodes_nodup h.nodup (mem_tableSlots i)
  · rw [← hsub]
    exact not_mem_slotNodes_self h.nodup (mem_tableSlots i)

/-! ## Entries -/

theorem lt_of_or {a b : Nat} (ha : a < 2 ^ 12) (hb : b < 2 ^ 12) :
    a ||| b < 2 ^ 12 := Nat.or_lt_two_pow ha hb

/-- A page address with flags. -/
theorem frame_or_flags {f flags : Nat} (hf : f % 0x1000 = 0) (hflags : flags < 2 ^ 12) :
    f ||| flags ||| PAGE_PRESENT = f + (flags ||| PAGE_PRESENT) ∧
      flags ||| PAGE_PRESENT < 2 ^ 12 := by
  have hlt : flags ||| PAGE_PRESENT < 2 ^ 12 := lt_of_or hflags (by decide)
  refine ⟨?_, hlt⟩
  obtain ⟨k, rfl⟩ : ∃ k, f = 2 ^ 12 * k := ⟨f / 2 ^ 12, by omega⟩
  rw [Nat.or_assoc]
  exact (Nat.two_pow_add_eq_or_of_lt hlt k).symm

theorem isPresent_or (e : Nat) : isPresent (e ||| PAGE_PRESENT) = true := by
  have : (e ||| PAGE_PRESENT).testBit 0 = true := by
    rw [Nat.testBit_or]
    simp [PAGE_PRESENT]
  rw [Nat.testBit_zero] at this
  unfold isPresent
  simpa using this

/-- The slot of an entry that points to a page. -/
theorem pageDown_or {f flags : Nat} (hf : f % 0x1000 = 0) (hflags : flags < 2 ^ 12) :
    pageDown (f ||| flags ||| PAGE_PRESENT) = f := by
  obtain ⟨heq, hlt⟩ := frame_or_flags hf hflags
  rw [heq]
  unfold pageDown
  omega

theorem tableFlags_cases (leafFlags : Nat) :
    tableFlags leafFlags = 3 ∨ tableFlags leafFlags = 7 := by
  unfold tableFlags
  split
  · exact .inr rfl
  · exact .inl rfl

/-- The slot of an entry that `walk_or_create` makes. -/
theorem pageSlot_table {leafFlags : Nat} (hp : p % 0x1000 = 0) :
    pageSlot (l + 1) (p ||| tableFlags leafFlags ||| PAGE_PRESENT) = .node p := by
  have hflags : tableFlags leafFlags < 2 ^ 12 ∧
      isHuge (p ||| tableFlags leafFlags ||| PAGE_PRESENT) = false := by
    have hval : ∀ f, f = 3 ∨ f = 7 → f < 2 ^ 12 ∧ isHuge (p ||| f ||| PAGE_PRESENT) = false := by
      intro f hf
      have hlt : f < 2 ^ 12 := by omega
      refine ⟨hlt, ?_⟩
      have hor : f ||| PAGE_PRESENT = f := by rcases hf with rfl | rfl <;> rfl
      unfold isHuge
      rw [(frame_or_flags hp hlt).1, hor]
      simp only [decide_eq_false_iff_not]
      omega
    exact hval _ (tableFlags_cases leafFlags)
  unfold pageSlot
  rw [isPresent_or, if_pos rfl, if_neg (by simp [hflags.2]), pageDown_or hp hflags.1]

/-- The slot of a leaf that `vmm_map_page` makes. -/
theorem pageSlot_leaf {phys flags : Nat} :
    pageSlot 0 (phys ||| flags ||| PAGE_PRESENT) = .leaf (phys ||| flags ||| PAGE_PRESENT) := by
  unfold pageSlot
  rw [isPresent_or, if_pos rfl, if_pos (.inl rfl)]

theorem pageSlot_absent_iff : pageSlot l e = .absent ↔ isPresent e = false := by
  unfold pageSlot
  cases isPresent e
  · simp
  · simp only [if_true]
    split <;> simp

theorem pageSlot_zero (l : Nat) : pageSlot l 0 = .absent := rfl

/-- Writing one entry of a table. -/
theorem pageStore_store (mem : Mem) (ht : t % 0x1000 = 0) (hv : v < 2 ^ 64) :
    pageStore (wrLE mem (t + 8 * i.val) 8 v) l t i = pageSlot l v ∧
      (∀ j, j ≠ i → pageStore (wrLE mem (t + 8 * i.val) 8 v) l t j = pageStore mem l t j) ∧
      ∀ x, pageDown x ≠ t → wrLE mem (t + 8 * i.val) 8 v x = mem x := by
  refine ⟨?_, fun j hj => ?_, fun x hx => ?_⟩
  · unfold pageStore entryAt
    rw [rdLE_wrLE_of_lt (by simpa using hv)]
  · unfold pageStore entryAt
    have hne : j.val ≠ i.val := fun h => hj (Fin.ext h)
    rw [rdLE_wrLE_apart (by omega)]
  · have := i.isLt
    unfold wrLE
    rw [if_neg]
    rintro ⟨hlo, hhi⟩
    exact hx (pageDown_of_mem_page ht (by omega) (by omega))

/-- A cleared page is a table without entries. -/
theorem pageStore_zero (p : Nat) (l : Nat) (i : Fin 512) :
    pageStore (zeroFill mem p (8 * PAGE_TABLE_ENTRIES)) l p i = .absent := by
  have := i.isLt
  unfold pageStore entryAt
  rw [rdLE_zeroFill (by unfold PAGE_TABLE_ENTRIES; omega)]
  exact pageSlot_zero l

theorem nodes_of_absent {E : Store Nat (Fin 512) Nat} (h : ∀ l i, E l p i = .absent) (l : Nat) :
    nodes E tableSlots l p = [p] ∧ leaves E tableSlots l p = [] := by
  constructor
  · have hnone : (tableSlots.flatMap fun i => slotNodes E tableSlots l (E l p i)) = [] := by
      rw [List.flatMap_eq_nil_iff]
      intro i _
      rw [h l i]
      cases l <;> rfl
    rw [nodes_eq, hnone]
  · rw [leaves_eq, List.flatMap_eq_nil_iff]
    intro i _
    rw [h l i]
    cases l <;> rfl

theorem walk_of_absent {E : Store Nat (Fin 512) Nat} (h : ∀ l i, E l p i = .absent)
    (path : Nat → Fin 512)
    (l : Nat) : walk E path l p = none := by
  rw [walk_eq, h l (path l)]
  cases l <;> rfl

/-! ## Mapping a page -/

/-- The tables that a walk meets. -/
def pathTables (mem : Mem) (l t virt : Nat) : List Nat :=
  onPath (pageStore mem) (virtPath virt) l t

theorem pathTables_congr (hal : ∀ x ∈ tables mem l t, x % 0x1000 = 0)
    (h : ∀ x, pageDown x ∈ tables mem l t → mem' x = mem x) (virt : Nat) :
    pathTables mem' l t virt = pathTables mem l t virt :=
  onPath_congr (fun l => mem_tableSlots (virtPath virt l)) fun y hy =>
    agree_of_page (hal y hy) fun x hx => h x (hx ▸ hy)

theorem pathTables_subset : pathTables mem l t virt ⊆ tables mem l t :=
  onPath_subset fun l => mem_tableSlots (virtPath virt l)

/-- The steps of `vmm_map_page` from a table at level `l` on. -/
def mapFrom (flags leaf virt : Nat) : Nat → Machine → Nat → Int × Machine
  | 0, m, pt =>
    if isPresent (entryAt m.mem pt (tableIdx 3 virt)) then (-1, m)
    else (0, m.store (pt + 8 * tableIdx 3 virt) leaf)
  | l + 1, m, table =>
    match walkOrCreate m table (2 - l) virt flags with
    | (next, m) => if next = 0 then (-1, m) else mapFrom flags leaf virt l m next

theorem vmmMapPage_eq (m : Machine) (pml4 virt phys leafFlags : Nat) :
    vmmMapPage m pml4 virt phys leafFlags =
      mapFrom (tableFlags leafFlags) (phys ||| leafFlags ||| PAGE_PRESENT) virt 3 m pml4 := by
  unfold vmmMapPage
  simp only [mapFrom, Nat.sub_self, Nat.sub_zero, Nat.reduceSub]

theorem tableIdx_eq (hl : l ≤ 3) (virt : Nat) :
    tableIdx (3 - l) virt = (virtPath virt l).val := by
  unfold tableIdx virtPath
  simp only
  rw [show 39 - (3 - l) * 9 = 12 + 9 * l by omega]

/-- What mapping below a table does: the frames `new` are taken and become tables,
memory changes in them and in the tables on the path, and the walks of other pages
stay and meet no other tables. -/
structure Extended (m m' : Machine) (l t virt : Nat) (new : List Nat) : Prop where
  popped : popOrder m.pmm = new ++ popOrder m'.pmm
  outside : ∀ x, pageDown x ∉ pathTables m.mem l t virt → pageDown x ∉ new → m'.mem x = m.mem x
  tables : (tables m'.mem l t).Perm (tables m.mem l t ++ new)
  walks : ∀ virt', (∃ k ≤ l, virtPath virt' k ≠ virtPath virt k) →
    walkFrom m'.mem l t virt' = walkFrom m.mem l t virt'
  paths : ∀ virt', pathTables m'.mem l t virt' ⊆ pathTables m.mem l t virt' ++ new
  slots : ∀ i, pageStore m.mem l t i ≠ .absent →
    pageStore m'.mem l t i = pageStore m.mem l t i

theorem Extended.refl (m : Machine) (l t virt : Nat) : Extended m m l t virt [] :=
  ⟨rfl, fun _ _ _ => rfl, by simp, fun _ _ => rfl, fun _ => by simp, fun _ _ => rfl⟩

variable {new new' : List Nat} {m₁ m₂ : Machine}

theorem Extended.mem_free (h : Extended m m' l t virt new) (hx : x ∈ new) :
    x ∈ popOrder m.pmm := by
  rw [h.popped]
  exact List.mem_append_left _ hx

theorem Extended.treeOk (h : Extended m m' l t virt new) (htree : TreeOk m.mem l t)
    (hfree : FreeOk m (Mm.tables m.mem l t)) : TreeOk m'.mem l t := by
  constructor
  · rw [h.tables.nodup_iff, List.nodup_append]
    refine ⟨htree.nodup, ?_, fun x hx y hy hxy => hfree.apart y (h.mem_free hy) (hxy ▸ hx)⟩
    have := hfree.nodup
    rw [h.popped] at this
    exact this.of_append_left
  · intro x hx
    rcases List.mem_append.mp (h.tables.mem_iff.mp hx) with hx | hx
    · exact htree.aligned x hx
    · exact (hfree.frame x (h.mem_free hx)).1

/-- What is left of the free frames is apart from what was used and from the new
tables. -/
theorem Extended.freeOk {used : List Nat} (h : Extended m m' l t virt new)
    (hfree : FreeOk m used) :
    FreeOk m' (used ++ new) := by
  have hnodup := hfree.nodup
  rw [h.popped] at hnodup
  have hmem : ∀ f ∈ popOrder m'.pmm, f ∈ popOrder m.pmm := by
    intro f hf
    rw [h.popped]
    exact List.mem_append_right _ hf
  refine ⟨hnodup.of_append_right, fun f hf => hfree.frame f (hmem f hf), fun f hf hused => ?_⟩
  rcases List.mem_append.mp hused with hused | hnew
  · exact hfree.apart f (hmem f hf) hused
  · exact (List.nodup_append.mp hnodup).2.2 f hnew f hf rfl

theorem FreeOk.of_subset {used used' : List Nat} (h : FreeOk m used) (hsub : used' ⊆ used) :
    FreeOk m used' :=
  ⟨h.nodup, h.frame, fun f hf hused => h.apart f hf (hsub hused)⟩

theorem Extended.freeOk_tables (h : Extended m m' l t virt new)
    (hfree : FreeOk m (Mm.tables m.mem l t)) : FreeOk m' (Mm.tables m'.mem l t) :=
  (h.freeOk hfree).of_subset h.tables.subset

/-- No new table is at address 0. -/
theorem Extended.null {used : List Nat} (h : Extended m m' l t virt new) (hfree : FreeOk m used)
    (hnull : 0 ∉ Mm.tables m.mem l t) : 0 ∉ Mm.tables m'.mem l t := by
  intro hzero
  rcases List.mem_append.mp (h.tables.mem_iff.mp hzero) with hold | hnew
  · exact hnull hold
  · exact hfree.ne_zero 0 (h.mem_free hnew) rfl

theorem Extended.trans (h : Extended m m₁ l t virt new) (h' : Extended m₁ m₂ l t virt new') :
    Extended m m₂ l t virt (new ++ new') := by
  refine ⟨?_, fun x hx hnew => ?_, ?_,
    fun virt' hne => (h'.walks virt' hne).trans (h.walks virt' hne),
    fun virt' x hx => ?_, fun i hi => ?_⟩
  · rw [h.popped, h'.popped, List.append_assoc]
  · rw [List.mem_append, not_or] at hnew
    rw [h'.outside x (fun hmem => ?_) hnew.2, h.outside x hx hnew.1]
    rcases List.mem_append.mp (h.paths virt hmem) with hmem | hmem
    · exact hx hmem
    · exact hnew.1 hmem
  · rw [← List.append_assoc]
    exact h'.tables.trans (h.tables.append_right _)
  · rw [← List.append_assoc]
    rcases List.mem_append.mp (h'.paths virt' hx) with hx | hx
    · exact List.mem_append_left _ (h.paths virt' hx)
    · exact List.mem_append_right _ hx
  · have hslot := h.slots i hi
    exact (h'.slots i (hslot.symm ▸ hi)).trans hslot

/-- Mapping below one slot is mapping below the table. -/
theorem Extended.lift {c : Nat} (h : Extended m m' l c virt new) (htree : TreeOk m.mem (l + 1) t)
    (hfree : FreeOk m (Mm.tables m.mem (l + 1) t))
    (hslot : pageStore m.mem (l + 1) t (virtPath virt (l + 1)) = .node c) :
    Extended m m' (l + 1) t virt new ∧
      (∀ i, pageStore m'.mem (l + 1) t i = pageStore m.mem (l + 1) t i) ∧
      Below (pageStore m.mem) (pageStore m'.mem) tableSlots (l + 1) t
        (virtPath virt (l + 1)) := by
  obtain ⟨hchild, hsub, hnot⟩ := htree.child hslot
  -- A table outside of the subtree keeps its page.
  have hagree : ∀ y ∈ Mm.tables m.mem (l + 1) t, y ∉ Mm.tables m.mem l c →
      Agree (pageStore m.mem) (pageStore m'.mem) y := by
    intro y hy hyc
    refine agree_of_page (htree.aligned y hy) fun x hx => h.outside x ?_ ?_
    · rw [hx]
      exact fun hmem => hyc (pathTables_subset hmem)
    · rw [hx]
      exact fun hmem => hfree.apart y (h.mem_free hmem) hy
  have hroot : ∀ i, pageStore m'.mem (l + 1) t i = pageStore m.mem (l + 1) t i :=
    fun i => hagree t (mem_tables_self _ _ _) hnot (l + 1) i
  have hbelow :
      Below (pageStore m.mem) (pageStore m'.mem) tableSlots (l + 1) t
        (virtPath virt (l + 1)) := by
    refine ⟨fun j _ => hroot j, fun y hy _ hyc => hagree y hy ?_⟩
    rw [hslot] at hyc
    exact hyc
  refine ⟨⟨h.popped, fun x hx hnew => ?_, ?_, fun virt' hne => ?_, fun virt' => ?_,
    fun i _ => hroot i⟩, hroot, hbelow⟩
  · refine h.outside x (fun hmem => hx ?_) hnew
    unfold pathTables
    rw [onPath, hslot]
    exact List.mem_cons_of_mem t hmem
  · refine nodes_update hbelow htree.nodup nodup_tableSlots (mem_tableSlots _) ?_
    rw [hroot, hslot]
    exact h.tables
  · by_cases hroute : virtPath virt' (l + 1) = virtPath virt (l + 1)
    · have hbelowne : ∃ k ≤ l, virtPath virt' k ≠ virtPath virt k := by
        obtain ⟨k, hk, hne⟩ := hne
        refine ⟨k, ?_, hne⟩
        rcases Nat.lt_or_ge l k with hlt | hle
        · obtain rfl : k = l + 1 := by omega
          exact absurd hroute hne
        · exact hle
      unfold walkFrom
      rw [walk_eq, walk_eq, hroute, hroot, hslot]
      exact h.walks virt' hbelowne
    · exact walk_update hbelow htree.nodup (mem_tableSlots _) (fun l => mem_tableSlots _) hroute
  · by_cases hroute : virtPath virt' (l + 1) = virtPath virt (l + 1)
    · unfold pathTables
      rw [onPath, onPath, hroute, hroot, hslot]
      exact List.cons_subset_cons t (h.paths virt')
    · unfold pathTables
      rw [onPath_update hbelow htree.nodup (mem_tableSlots _) (fun l => mem_tableSlots _) hroute]
      exact List.subset_append_left _ _

/-- A fresh frame is cleared and linked into an absent slot. -/
theorem extended_newTable {leafFlags : Nat} {pmm : Pmm} (htree : TreeOk m.mem (l + 1) t)
    (hfree : FreeOk m (Mm.tables m.mem (l + 1) t)) (hpop : popOrder m.pmm = p :: popOrder pmm)
    (hslot : pageStore m.mem (l + 1) t (virtPath virt (l + 1)) = .absent)
    (hm : m' = { mem := wrLE (zeroFill m.mem p (8 * PAGE_TABLE_ENTRIES)) (t + 8 *
      (virtPath virt (l + 1)).val) 8
                   (p ||| tableFlags leafFlags ||| PAGE_PRESENT), pmm := pmm }) :
    Extended m m' (l + 1) t virt [p] ∧
      pageStore m'.mem (l + 1) t (virtPath virt (l + 1)) = .node p ∧
      (∀ l i, pageStore m'.mem l p i = .absent) ∧
      (∀ virt', walkFrom m'.mem (l + 1) t virt' = walkFrom m.mem (l + 1) t virt') ∧
      (leafEntries m'.mem (l + 1) t).Perm (leafEntries m.mem (l + 1) t) := by
  have hp : p ∈ popOrder m.pmm := by simp [hpop]
  obtain ⟨hp0, hppos, hplt⟩ := hfree.frame p hp
  have hpt : p ∉ Mm.tables m.mem (l + 1) t := hfree.apart p hp
  have ht : t % 0x1000 = 0 := htree.aligned t (mem_tables_self _ _ _)
  have hne : p ≠ t := by
    rintro rfl
    exact hpt (mem_tables_self _ _ _)
  have hentry : p ||| tableFlags leafFlags ||| PAGE_PRESENT < 2 ^ 64 := by
    have hflags : tableFlags leafFlags < 2 ^ 12 := by
      rcases tableFlags_cases leafFlags with h | h <;> rw [h] <;> decide
    obtain ⟨heq, hlt⟩ := frame_or_flags hp0 hflags
    rw [heq]
    omega
  set i := virtPath virt (l + 1) with hi
  have hzero : ∀ x, pageDown x ≠ p → zeroFill m.mem p (8 * PAGE_TABLE_ENTRIES) x = m.mem x := by
    intro x hx
    refine zeroFill_of_not fun hmem => hx (pageDown_of_mem_page hp0 hmem.1 ?_)
    have := hmem.2
    unfold PAGE_TABLE_ENTRIES at this
    omega
  obtain ⟨hset, hothers, hpage⟩ := pageStore_store (l := l + 1) (i := i)
    (zeroFill m.mem p (8 * PAGE_TABLE_ENTRIES)) ht hentry
  have hmem : m'.mem = wrLE (zeroFill m.mem p (8 * PAGE_TABLE_ENTRIES)) (t + 8 * i.val) 8
      (p ||| tableFlags leafFlags ||| PAGE_PRESENT) := by rw [hm]
  have hnode : pageStore m'.mem (l + 1) t i = .node p := by
    rw [hmem, hset, pageSlot_table hp0]
  have hempty : ∀ l i, pageStore m'.mem l p i = .absent := by
    intro l' i'
    have hsame :
        Agree (pageStore (zeroFill m.mem p (8 * PAGE_TABLE_ENTRIES))) (pageStore m'.mem) p := by
      refine agree_of_page hp0 fun x hx => ?_
      rw [hmem]
      exact hpage x (by rw [hx]; exact hne)
    rw [hsame l' i']
    exact pageStore_zero p l' i'
  have hagree : ∀ y ∈ Mm.tables m.mem (l + 1) t, y ≠ t →
      Agree (pageStore m.mem) (pageStore m'.mem) y := by
    intro y hy hyt
    refine agree_of_page (htree.aligned y hy) fun x hx => ?_
    rw [hmem, hpage x (by rw [hx]; exact hyt)]
    refine hzero x ?_
    rw [hx]
    rintro rfl
    exact hpt hy
  have hbelow : Below (pageStore m.mem) (pageStore m'.mem) tableSlots (l + 1) t i := by
    refine ⟨fun j hj => ?_, fun y hy hyt _ => hagree y hy hyt⟩
    rw [hmem, hothers j hj]
    refine agree_of_page ht (fun x hx => hzero x ?_) (l + 1) j
    rw [hx]
    exact Ne.symm hne
  obtain ⟨hnodes, hleaves⟩ := nodes_of_absent hempty l
  have hwalks : ∀ virt', walkFrom m'.mem (l + 1) t virt' = walkFrom m.mem (l + 1) t virt' := by
    intro virt'
    by_cases hroute : virtPath virt' (l + 1) = i
    · unfold walkFrom
      rw [walk_eq, walk_eq, hroute, hnode, hslot]
      exact walk_of_absent hempty _ l
    · exact walk_update hbelow htree.nodup (mem_tableSlots _) (fun l => mem_tableSlots _) hroute
  have hone : ∀ virt', onPath (pageStore m'.mem) (virtPath virt') l p = [p] := by
    intro virt'
    cases l with
    | zero => rfl
    | succ l => rw [onPath, hempty]
  refine ⟨⟨?_, fun x hx hnew => ?_, ?_, fun virt' _ => hwalks virt', fun virt' => ?_,
    fun j hj => ?_⟩, hnode, hempty, hwalks, ?_⟩
  · rw [hpop, hm]
    rfl
  · rw [hmem, hpage x, hzero x]
    · simpa using hnew
    · rintro rfl
      refine hx ?_
      unfold pathTables
      rw [onPath]
      exact List.mem_cons_self
  · refine nodes_update hbelow htree.nodup nodup_tableSlots (mem_tableSlots _) ?_
    rw [hnode, hslot]
    show (nodes (pageStore m'.mem) tableSlots l p).Perm ([] ++ [p])
    rw [hnodes]
    exact List.Perm.refl _
  · by_cases hroute : virtPath virt' (l + 1) = i
    · -- The path ends in the new table.
      unfold pathTables
      rw [onPath, onPath, hroute, hnode, hslot]
      dsimp only
      rw [hone virt']
      simp
    · unfold pathTables
      rw [onPath_update hbelow htree.nodup (mem_tableSlots _) (fun l => mem_tableSlots _) hroute]
      exact List.subset_append_left _ _
  · exact hbelow.1 j fun hji => hj (hji ▸ hslot)
  · have hupd : (leafEntries m'.mem (l + 1) t).Perm (leafEntries m.mem (l + 1) t ++ []) := by
      refine leaves_update hbelow htree.nodup nodup_tableSlots (mem_tableSlots i) ?_
      rw [hnode, hslot]
      show (leaves (pageStore m'.mem) tableSlots l p).Perm ([] ++ [])
      rw [hleaves]
      exact List.Perm.refl _
    rwa [List.append_nil] at hupd

/-- What `walk_or_create` does: it fails and changes nothing, or the slot leads to the
table it returns. -/
theorem walkOrCreate_spec (virt leafFlags : Nat) (hl : l ≤ 2) (htree : TreeOk m.mem (l + 1) t)
    (hfree : FreeOk m (Mm.tables m.mem (l + 1) t)) :
    walkOrCreate m t (2 - l) virt (tableFlags leafFlags) = (0, m) ∨
      ∃ c m₁ new, walkOrCreate m t (2 - l) virt (tableFlags leafFlags) = (c, m₁) ∧ c ≠ 0 ∧
        Extended m m₁ (l + 1) t virt new ∧
        pageStore m₁.mem (l + 1) t (virtPath virt (l + 1)) = .node c ∧
        (∀ virt', walkFrom m₁.mem (l + 1) t virt' = walkFrom m.mem (l + 1) t virt') ∧
        (leafEntries m₁.mem (l + 1) t).Perm (leafEntries m.mem (l + 1) t) := by
  have hidx : tableIdx (2 - l) virt = (virtPath virt (l + 1)).val := by
    have hlevel : 3 - (l + 1) = 2 - l := by omega
    rw [← hlevel, tableIdx_eq (by omega) virt]
  unfold walkOrCreate
  rw [hidx]
  dsimp only
  by_cases hpresent : isPresent (entryAt m.mem t (virtPath virt (l + 1)).val) = true
  · rw [if_pos hpresent]
    by_cases hhuge : isHuge (entryAt m.mem t (virtPath virt (l + 1)).val) = true
    · rw [if_pos ⟨hhuge, by omega⟩]
      exact .inl rfl
    · rw [if_neg fun h => hhuge h.1]
      by_cases hzero : pageDown (entryAt m.mem t (virtPath virt (l + 1)).val) = 0
      · rw [hzero]
        exact .inl rfl
      · refine .inr ⟨_, m, [], rfl, hzero, Extended.refl m _ _ _, ?_, fun _ => rfl,
          List.Perm.refl _⟩
        unfold pageStore pageSlot
        rw [if_pos hpresent, if_neg (by simp [hhuge])]
  · rw [if_neg hpresent]
    have hslot : pageStore m.mem (l + 1) t (virtPath virt (l + 1)) = .absent := by
      unfold pageStore
      rw [pageSlot_absent_iff]
      simpa using hpresent
    rcases allocFrame_spec hfree.ne_zero with ⟨-, halloc⟩ | ⟨p, rest, pmm, hpop, halloc, hrest⟩
    · rw [halloc]
      exact .inl rfl
    · have hp : p ≠ 0 := hfree.ne_zero p (by simp [hpop])
      rw [halloc]
      dsimp only
      rw [if_neg hp]
      obtain ⟨m₁, hm₁⟩ : ∃ m₁ :
          Machine, m₁ = Machine.mk (wrLE (zeroFill m.mem p (8 * PAGE_TABLE_ENTRIES))
          (t + 8 * (virtPath virt (l + 1)).val) 8 (p ||| tableFlags leafFlags ||| PAGE_PRESENT))
            pmm :=
        ⟨_, rfl⟩
      have hpop' : popOrder m.pmm = p :: popOrder pmm := by rw [hpop, hrest]
      obtain ⟨hext, hnode, -, hwalks, hleaves⟩ := extended_newTable htree hfree hpop' hslot hm₁
      exact .inr ⟨p, m₁, [p], by simp only [Machine.store, hm₁], hp, hext, hnode, hwalks, hleaves⟩

/-- What mapping one page does below a table at any level. -/
theorem mapFrom_spec (virt leafFlags : Nat) {leaf : Nat} (hl : l ≤ 3) (htree : TreeOk m.mem l t)
    (hfree : FreeOk m (Mm.tables m.mem l t)) (hleaf : leaf < 2 ^ 64)
    (hslot : pageSlot 0 leaf = .leaf leaf) :
    ∃ r m' new, mapFrom (tableFlags leafFlags) leaf virt l m t = (r, m') ∧
        Extended m m' l t virt new ∧
      ((r = 0 ∧ walkFrom m.mem l t virt = none ∧ walkFrom m'.mem l t virt = some (0, leaf) ∧
          (leafEntries m'.mem l t).Perm (leafEntries m.mem l t ++ [leaf])) ∨
        (r = -1 ∧ walkFrom m'.mem l t virt = walkFrom m.mem l t virt ∧
          (leafEntries m'.mem l t).Perm (leafEntries m.mem l t))) := by
  induction l generalizing m t with
  | zero =>
    have ht : t % 0x1000 = 0 := htree.aligned t (mem_tables_self _ _ _)
    have hidx : tableIdx 3 virt = (virtPath virt 0).val := tableIdx_eq (l := 0) (by omega) virt
    rw [mapFrom, hidx]
    by_cases hpresent : isPresent (entryAt m.mem t (virtPath virt 0).val) = true
    · rw [if_pos hpresent]
      exact ⟨-1, m, [], rfl, Extended.refl m _ _ _, .inr ⟨rfl, rfl, List.Perm.refl _⟩⟩
    · rw [if_neg hpresent]
      have habsent : pageStore m.mem 0 t (virtPath virt 0) = .absent := by
        unfold pageStore
        rw [pageSlot_absent_iff]
        simpa using hpresent
      obtain ⟨hset, hothers, hpage⟩ :=
        pageStore_store (l := 0) (i := virtPath virt 0) m.mem ht hleaf
      rw [hslot] at hset
      have hbelow :
          Below (pageStore m.mem) (pageStore (wrLE m.mem (t + 8 * (virtPath virt 0).val) 8 leaf))
          tableSlots 0 t (virtPath virt 0) :=
        ⟨hothers, fun y hy hyt _ => absurd (List.mem_singleton.mp hy) hyt⟩
      refine ⟨0, { m with mem := wrLE m.mem (t + 8 * (virtPath virt 0).val) 8 leaf }, [], rfl,
        ⟨rfl, fun x hx _ => hpage x ?_, ?_, fun virt' hne => ?_, fun virt' => ?_,
          fun j hj => hothers j fun hji => hj (hji ▸ habsent)⟩, .inl ⟨rfl, ?_, ?_, ?_⟩⟩
      · rintro rfl
        exact hx (by simp [pathTables, onPath])
      · exact List.Perm.refl _
      · obtain ⟨k, hk, hne⟩ := hne
        obtain rfl : k = 0 := by omega
        exact walk_update hbelow htree.nodup (mem_tableSlots _) (fun l => mem_tableSlots _) hne
      · unfold pathTables
        rw [onPath, onPath]
        exact List.subset_append_left _ _
      · unfold walkFrom
        rw [walk_eq, habsent]
        rfl
      · unfold walkFrom
        rw [walk_eq, hset]
        rfl
      · refine leaves_update hbelow htree.nodup nodup_tableSlots (mem_tableSlots _) ?_
        rw [hset, habsent]
        exact List.Perm.refl _
  | succ l ih =>
    rw [mapFrom]
    rcases walkOrCreate_spec virt leafFlags (show l ≤ 2 by omega) htree hfree with
      heq | ⟨c, m₁, new₁, heq, hc, hext₁, hnode, hwalks, hleaves⟩
    · rw [heq]
      exact ⟨-1, m, [], if_pos rfl, Extended.refl m _ _ _, .inr ⟨rfl, rfl, List.Perm.refl _⟩⟩
    · rw [heq]
      dsimp only
      rw [if_neg hc]
      have htree₁ := hext₁.treeOk htree hfree
      have hfree₁ := hext₁.freeOk_tables hfree
      obtain ⟨hchild, hsub, -⟩ := htree₁.child hnode
      obtain ⟨r, m', new₂, hmap, hext₂, hres⟩ := ih (by omega) hchild (hfree₁.of_subset hsub)
      obtain ⟨hlift, hroot, hbelow⟩ := hext₂.lift htree₁ hfree₁ hnode
      have hdown : walkFrom m'.mem (l + 1) t virt = walkFrom m'.mem l c virt ∧
          walkFrom m₁.mem (l + 1) t virt = walkFrom m₁.mem l c virt := by
        constructor
        · unfold walkFrom
          rw [walk_eq, hroot, hnode]
          rfl
        · unfold walkFrom
          rw [walk_eq, hnode]
          rfl
      have hleafUp : ∀ extra :
          List Nat, (leafEntries m'.mem l c).Perm (leafEntries m₁.mem l c ++ extra) →
          (leafEntries m'.mem (l + 1) t).Perm (leafEntries m.mem (l + 1) t ++ extra) := by
        intro extra hperm
        refine List.Perm.trans ?_ (hleaves.append_right extra)
        refine leaves_update hbelow htree₁.nodup nodup_tableSlots (mem_tableSlots _) ?_
        rw [hroot, hnode]
        exact hperm
      refine ⟨r, m', new₁ ++ new₂, hmap, hext₁.trans hlift, ?_⟩
      rcases hres with ⟨hr, hnone, hsome, hperm⟩ | ⟨hr, hsame, hperm⟩
      · refine .inl ⟨hr, ?_, ?_, hleafUp [leaf] hperm⟩
        · rw [← hwalks virt, hdown.2, hnone]
        · rw [hdown.1, hsome]
      · refine .inr ⟨hr, ?_, ?_⟩
        · rw [hdown.1, hsame, ← hdown.2, hwalks]
        · have := hleafUp [] (by rwa [List.append_nil])
          rwa [List.append_nil] at this

/-! ## Taking and giving back a frame -/

section Frames

variable {used : List Nat}

/-- A frame that the allocator hands out belongs to the caller from then on. -/
theorem FreeOk.alloc (h : FreeOk m used) :
    (allocFrame m = (0, m) ∧ popOrder m.pmm = []) ∨
      ∃ p m', allocFrame m = (p, m') ∧ IsFrame p ∧ p ∉ used ∧ m'.mem = m.mem ∧
        popOrder m.pmm = p :: popOrder m'.pmm ∧ FreeOk m' (p :: used) := by
  rcases allocFrame_spec h.ne_zero with ⟨hnil, halloc⟩ | ⟨p, rest, pmm, hpop, halloc, hrest⟩
  · exact .inl ⟨halloc, hnil⟩
  · have hp : p ∈ popOrder m.pmm := by simp [hpop]
    have hnodup := h.nodup
    rw [hpop] at hnodup
    have hmem : ∀ f ∈ rest, f ∈ popOrder m.pmm := fun f hf => by simp [hpop, hf]
    refine .inr ⟨p, { m with pmm := pmm }, halloc, h.frame p hp, h.apart p hp, rfl, ?_,
      ⟨?_, ?_, ?_⟩⟩
    · rw [hpop, hrest]
    · rw [show popOrder ({ m with pmm := pmm } : Machine).pmm = rest from hrest]
      exact (List.nodup_cons.mp hnodup).2
    · intro f hf
      rw [show popOrder ({ m with pmm := pmm } : Machine).pmm = rest from hrest] at hf
      exact h.frame f (hmem f hf)
    · intro f hf hused
      rw [show popOrder ({ m with pmm := pmm } : Machine).pmm = rest from hrest] at hf
      rcases List.mem_cons.mp hused with rfl | hused
      · exact (List.nodup_cons.mp hnodup).1 hf
      · exact h.apart f (hmem f hf) hused

theorem freeFrame_mem (hp : p % 0x1000 = 0) (hx : pageDown x ≠ p) :
    (freeFrame m p).mem x = m.mem x := by
  unfold freeFrame
  split
  · rfl
  · show wrLE m.mem p 8 _ x = m.mem x
    unfold wrLE
    rw [if_neg]
    rintro ⟨hlo, hhi⟩
    exact hx (pageDown_of_mem_page hp hlo (by omega))

/-- A frame of the caller can be given back. -/
theorem FreeOk.free (h : FreeOk m (p :: used)) (hp : IsFrame p) (hused : p ∉ used) :
    FreeOk (freeFrame m p) used := by
  have hperm : (popOrder (freeFrame m p).pmm).Perm (p :: popOrder m.pmm) := by
    have := popOrder_pageFreeInternal m.pmm p
    rw [← Multiset.coe_eq_coe, ← Multiset.cons_coe, ← this]
    unfold freeFrame linkFrame
    rw [if_neg hp.2.1.ne']
  have hnot : p ∉ popOrder m.pmm := fun hmem => h.apart p hmem (by simp)
  refine ⟨?_, fun f hf => ?_, fun f hf => ?_⟩
  · rw [hperm.nodup_iff]
    exact List.nodup_cons.mpr ⟨hnot, h.nodup⟩
  · rcases List.mem_cons.mp (hperm.mem_iff.mp hf) with rfl | hf
    · exact hp
    · exact h.frame f hf
  · rcases List.mem_cons.mp (hperm.mem_iff.mp hf) with rfl | hf
    · exact hused
    · exact fun hmem => h.apart f hf (List.mem_cons_of_mem p hmem)

end Frames

/-! ## Translations -/

/-- A walk depends on the indices of its levels only. -/
theorem walkFrom_eq_of_path (h : ∀ k ≤ l, virtPath virt' k = virtPath virt k) :
    walkFrom mem l t virt' = walkFrom mem l t virt :=
  walk_path_congr h

/-- Every path is that of some address. -/
theorem exists_virt (path : Nat → Fin 512) : ∃ virt, ∀ k ≤ 3, virtPath virt k = path k := by
  have h0 := (path 0).isLt
  have h1 := (path 1).isLt
  have h2 := (path 2).isLt
  have h3 := (path 3).isLt
  refine ⟨(path 0).val * 2 ^ 12 + (path 1).val * 2 ^ 21 + (path 2).val * 2 ^ 30 + (path 3).val *
    2 ^ 39, fun k hk => ?_⟩
  apply Fin.ext
  unfold virtPath
  interval_cases k <;>
    simp only [Nat.mul_zero, Nat.add_zero, Nat.mul_one, Nat.reduceMul, Nat.reduceAdd] <;> omega

/-- Every table is on the way to some address. -/
theorem mem_tables_path (hx : x ∈ tables mem 3 t) : ∃ virt, x ∈ pathTables mem 3 t virt := by
  obtain ⟨path, hpath⟩ := exists_onPath (virtPath 0) hx
  obtain ⟨virt, hvirt⟩ := exists_virt path
  refine ⟨virt, ?_⟩
  unfold pathTables
  rw [onPath_path_congr hvirt]
  exact hpath

theorem virtPath_pageDown (virt k : Nat) : virtPath (pageDown virt) k = virtPath virt k := by
  unfold virtPath pageDown
  apply Fin.ext
  simp only
  rw [pow_add, ← Nat.div_div_eq_div_mul, ← Nat.div_div_eq_div_mul,
    show (2 : Nat) ^ 12 = 0x1000 from rfl, Nat.mul_div_cancel _ (by decide)]

theorem translate_pageDown (mem : Mem) (pml4 virt : Nat) :
    translate mem pml4 (pageDown virt) = translate mem pml4 virt :=
  walkFrom_eq_of_path fun k _ => virtPath_pageDown virt k

/-- `vmm_map_page` adds one translation or none. -/
theorem vmmMapPage_spec (virt : Nat) {pml4 phys leafFlags : Nat} (htree : TreeOk m.mem 3 pml4)
    (hfree : FreeOk m (Mm.tables m.mem 3 pml4)) (hphys : phys % 0x1000 = 0) (hlt : phys < 2 ^ 64)
    (hflags : leafFlags < 2 ^ 12) :
    ∃ r m' new, vmmMapPage m pml4 virt phys leafFlags = (r, m') ∧ Extended m m' 3 pml4 virt new ∧
      ((r = 0 ∧ translate m.mem pml4 virt = none ∧
          translate m'.mem pml4 virt = some (0, phys ||| leafFlags ||| PAGE_PRESENT) ∧
          (leafEntries m'.mem 3 pml4).Perm
            (leafEntries m.mem 3 pml4 ++ [phys ||| leafFlags ||| PAGE_PRESENT])) ∨
        (r = -1 ∧ (∀ virt', translate m'.mem pml4 virt' = translate m.mem pml4 virt') ∧
          (leafEntries m'.mem 3 pml4).Perm (leafEntries m.mem 3 pml4))) := by
  have hleaf : phys ||| leafFlags ||| PAGE_PRESENT < 2 ^ 64 := by
    obtain ⟨heq, hlow⟩ := frame_or_flags hphys hflags
    rw [heq]
    omega
  obtain ⟨r, m', new, hmap, hext, hres⟩ := mapFrom_spec virt leafFlags (le_refl 3)
    htree hfree hleaf pageSlot_leaf
  refine ⟨r, m', new, by rw [vmmMapPage_eq, hmap], hext, ?_⟩
  rcases hres with hsuccess | ⟨hr, hsame, hperm⟩
  · exact .inl hsuccess
  · refine .inr ⟨hr, fun virt' => ?_, hperm⟩
    by_cases hpath : ∃ k ≤ 3, virtPath virt' k ≠ virtPath virt k
    · exact hext.walks virt' hpath
    · push Not at hpath
      unfold translate
      rw [walkFrom_eq_of_path hpath, walkFrom_eq_of_path hpath, hsame]

/-- A page that is mapped stays mapped as it is. -/
theorem Extended.translate_mono {pml4 : Nat} {le : Nat × Nat} (h : Extended m m' 3 pml4 virt new)
    (hnone : translate m.mem pml4 virt = none) (hsome : translate m.mem pml4 virt' = some le) :
    translate m'.mem pml4 virt' = some le := by
  by_cases hpath : ∃ k ≤ 3, virtPath virt' k ≠ virtPath virt k
  · rw [← hsome]
    exact h.walks virt' hpath
  · push Not at hpath
    have hsame : translate m.mem pml4 virt' = translate m.mem pml4 virt :=
      walkFrom_eq_of_path hpath
    rw [hsame, hnone] at hsome
    cases hsome

end Lumin.Mm
