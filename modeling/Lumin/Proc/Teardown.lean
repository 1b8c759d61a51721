import Lumin.Mm.AddressSpace

/-!
# Giving back an address space

The walk over the page tables that `free_task_resources` and `free_user_pages` of
`kernel/proc/task.c` share: everything below some slots of a PML4 goes to `pmm_free`, a
table after what is below it.  The state carries the frames passed to `pmm_free`, in
order.  `pmm_free` writes a link into each frame while the walk goes on.

On a tree whose leaves are not tables the walk frees each leaf and each table once.
-/

namespace Lumin.Proc

open Lumin.Lib Lumin.Lib.Radix Lumin.Mm

/-- `pmm_free` of a frame, with the frames freed so far. -/
def release (s : Machine × List Nat) (f : Nat) :
    Machine × List Nat := (freeFrame s.1 f, s.2 ++ [f])

/-- The loop over a table of level `l`, which frees everything below it. -/
def freeTable : Nat → Nat → Machine × List Nat → Machine × List Nat
  | 0, pt, s =>
    tableSlots.foldl
      (fun s (i : Fin 512) =>
        let pte := entryAt s.1.mem pt i.val
        if isPresent pte then release s (pageDown pte) else s) s
  | l + 1, table, s =>
    tableSlots.foldl
      (fun s (i : Fin 512) =>
        let e := entryAt s.1.mem table i.val
        if isPresent e then
          if isHuge e then release s (pageDown e)
          else release (freeTable l (pageDown e) s) (pageDown e)
        else s) s

/-- The slots of a PML4 from `lo` to `255`. -/
def userSlots (lo : Nat) : List (Fin 512) := tableSlots.filter fun i => lo ≤ i.val ∧ i.val < 256

/-- The loop over these slots. -/
def freeSlots (lo pml4 : Nat) (s : Machine × List Nat) : Machine × List Nat :=
  (userSlots lo).foldl
    (fun s (i : Fin 512) =>
      let pml4e := entryAt s.1.mem pml4 i.val
      if isPresent pml4e then release (freeTable 2 (pageDown pml4e) s) (pageDown pml4e) else s) s

/-! ## What a walk frees -/

variable {s : Machine × List Nat} {mem : Mem} {l t f pml4 lo x : Nat} {i : Fin 512}

/-- A loop that frees the frames `d i` for each `i` and reads the pages `keep i`: if
what is freed is not read later, it frees all of them. -/
theorem foldl_frees {ι : Type} {step : Machine × List Nat → ι → Machine × List Nat}
    {d keep : ι → List Nat}
    {is : List ι}
    (hstep : ∀ s, ∀ i ∈ is, (∀ x, pageDown x ∈ keep i → s.1.mem x = mem x) →
      (step s i).2 = s.2 ++ d i ∧ ∀ x, pageDown x ∉ d i → (step s i).1.mem x = s.1.mem x)
    (hapart : is.Pairwise fun i j => ∀ y ∈ keep j, y ∉ d i)
    (hsame : ∀ i ∈ is, ∀ x, pageDown x ∈ keep i → s.1.mem x = mem x) :
    (is.foldl step s).2 = s.2 ++ is.flatMap d ∧
      ∀ x, pageDown x ∉ is.flatMap d → (is.foldl step s).1.mem x = s.1.mem x := by
  induction is generalizing s with
  | nil => exact ⟨by simp, fun _ _ => rfl⟩
  | cons i is ih =>
    obtain ⟨hfirst, hrest⟩ := List.pairwise_cons.mp hapart
    obtain ⟨hlist, hmem⟩ := hstep s i (by simp) (hsame i (by simp))
    obtain ⟨hlist', hmem'⟩ :=
      ih (fun s j hj => hstep s j (List.mem_cons_of_mem i hj)) hrest fun j hj x hx => by
      rw [hmem x (hfirst j hj _ hx)]
      exact hsame j (List.mem_cons_of_mem i hj) x hx
    refine ⟨?_, fun x hx => ?_⟩
    · rw [List.foldl_cons, hlist', hlist, List.flatMap_cons, List.append_assoc]
    · rw [List.flatMap_cons, List.mem_append, not_or] at hx
      rw [List.foldl_cons, hmem' x hx.2, hmem x hx.1]

theorem release_mem (hf : f % 0x1000 = 0) (hx : pageDown x ≠ f) :
    (release s f).1.mem x = s.1.mem x :=
  freeFrame_mem hf hx

/-- The slot of an entry, from the memory that the walk sees. -/
theorem entryAt_congr (mem : Mem) (ht : t % 0x1000 = 0) (hsame : ∀ x, pageDown x = t →
    s.1.mem x = mem x) :
    entryAt s.1.mem t i = entryAt mem t i := by
  have := i.isLt
  exact rdLE_congr fun x hlo hhi => hsame x (pageDown_of_mem_page ht (by omega) (by omega))

/-- A leaf below a slot is a leaf of the tree. -/
theorem mem_leafEntries_of_slot {e : Nat}
    (he : e ∈ slotLeaves (pageStore mem) tableSlots l (pageStore mem l t i)) :
    e ∈ leafEntries mem l t := by
  unfold leafEntries
  rw [leaves_eq]
  exact List.mem_flatMap.mpr ⟨i, mem_tableSlots i, he⟩

/-- What is read for a slot is a table of the tree. -/
theorem mem_tables_of_keep {y : Nat}
    (hy : y ∈ t :: slotNodes (pageStore mem) tableSlots l (pageStore mem l t i)) :
    y ∈ tables mem l t := by
  rcases List.mem_cons.mp hy with rfl | hy
  · exact mem_tables_self _ _ _
  · exact mem_nodes_of_slot (mem_tableSlots i) hy

/-- What a slot frees is not read for another slot. -/
theorem slots_apart {is : List (Fin 512)} (hnodup : is.Nodup) (htree : TreeOk mem l t)
    (hleaf : ∀ i ∈ is, ∀ e ∈ slotLeaves (pageStore mem) tableSlots l (pageStore mem l t i),
      pageDown e ∉ tables mem l t) :
    is.Pairwise fun i j => ∀ y ∈ t :: slotNodes (pageStore mem) tableSlots l
      (pageStore mem l t j),
      y ∉ slotDrain (pageStore mem) tableSlots pageDown l (pageStore mem l t i) := by
  refine hnodup.imp_of_mem fun hi hj hne y hy hmem => ?_
  have hytree : y ∈ tables mem l t := mem_tables_of_keep hy
  rcases List.mem_append.mp ((slotDrain_perm _ _ _ _ _).mem_iff.mp hmem) with hmem | hmem
  · obtain ⟨e, he, rfl⟩ := List.mem_map.mp hmem
    exact hleaf _ hi e he hytree
  · rcases List.mem_cons.mp hy with rfl | hy
    · exact not_mem_slotNodes_self htree.nodup (mem_tableSlots _) hmem
    · exact slotNodes_disjoint htree.nodup (mem_tableSlots _) (mem_tableSlots _) hne hmem hy

/-- Freeing a table after what is below it. -/
theorem release_freeTable {c : Nat} {mem' : Mem}
    (hlist : (freeTable l c s).2 = s.2 ++ drain (pageStore mem') tableSlots pageDown l c)
    (hmem : ∀ x, pageDown x ∉ drain (pageStore mem') tableSlots pageDown l c →
      (freeTable l c s).1.mem x = s.1.mem x)
    (hc : c % 0x1000 = 0) :
    (release (freeTable l c s) c).2 =
      s.2 ++ (drain (pageStore mem') tableSlots pageDown l c ++ [c]) ∧
      ∀ x, pageDown x ∉ drain (pageStore mem') tableSlots pageDown l c ++ [c] →
        (release (freeTable l c s) c).1.mem x = s.1.mem x := by
  constructor
  · show (freeTable l c s).2 ++ [c] = _
    rw [hlist, List.append_assoc]
  · intro x hx
    rw [List.mem_append, not_or, List.mem_singleton] at hx
    rw [release_mem hc hx.2, hmem x hx.1]

/-- A walk frees the leaves and the tables below a table. -/
theorem freeTable_spec (htree : TreeOk mem l t)
    (hleaf : ∀ e ∈ leafEntries mem l t, pageDown e ∉ tables mem l t)
    (hsame : ∀ x, pageDown x ∈ tables mem l t → s.1.mem x = mem x) :
    (freeTable l t s).2 = s.2 ++ drain (pageStore mem) tableSlots pageDown l t ∧
      ∀ x, pageDown x ∉ drain (pageStore mem) tableSlots pageDown l t →
          (freeTable l t s).1.mem x = s.1.mem x := by
  induction l generalizing t s with
  | zero =>
    have ht : t % 0x1000 = 0 := htree.aligned t (mem_tables_self _ _ _)
    rw [freeTable, drain_eq]
    refine foldl_frees (fun s i _ hpage => ?_)
      (slots_apart nodup_tableSlots htree fun i _ e he => hleaf e (mem_leafEntries_of_slot he))
      fun i _ x hx => hsame x (mem_tables_of_keep hx)
    dsimp only
    rw [entryAt_congr mem ht fun x hx => hpage x (hx ▸ List.mem_cons_self)]
    by_cases hpresent : isPresent (entryAt mem t i) = true
    · have hslot : pageStore mem 0 t i = .leaf (entryAt mem t i) := by
        unfold pageStore pageSlot
        rw [if_pos hpresent, if_pos (.inl rfl)]
      rw [if_pos hpresent, hslot, slotDrain_leaf]
      refine ⟨rfl, fun x hx => release_mem (pageDown_aligned _) fun heq => hx ?_⟩
      rw [heq]
      exact List.mem_singleton.mpr rfl
    · have hslot : pageStore mem 0 t i = .absent := by
        unfold pageStore
        exact pageSlot_absent_iff.mpr (by simpa using hpresent)
      rw [if_neg hpresent, hslot, slotDrain_absent]
      exact ⟨(List.append_nil _).symm, fun _ _ => rfl⟩
  | succ l ih =>
    have ht : t % 0x1000 = 0 := htree.aligned t (mem_tables_self _ _ _)
    rw [freeTable, drain_eq]
    refine foldl_frees (fun s i _ hpage => ?_)
      (slots_apart nodup_tableSlots htree fun i _ e he => hleaf e (mem_leafEntries_of_slot he))
      fun i _ x hx => hsame x (mem_tables_of_keep hx)
    dsimp only
    rw [entryAt_congr mem ht fun x hx => hpage x (hx ▸ List.mem_cons_self)]
    by_cases hpresent : isPresent (entryAt mem t i) = true
    · rw [if_pos hpresent]
      by_cases hhuge : isHuge (entryAt mem t i) = true
      · have hslot : pageStore mem (l + 1) t i = .leaf (entryAt mem t i) := by
          unfold pageStore pageSlot
          rw [if_pos hpresent, if_pos (.inr hhuge)]
        rw [if_pos hhuge, hslot, slotDrain_leaf]
        refine ⟨rfl, fun x hx => release_mem (pageDown_aligned _) fun heq => hx ?_⟩
        rw [heq]
        exact List.mem_singleton.mpr rfl
      · have hslot : pageStore mem (l + 1) t i = .node (pageDown (entryAt mem t i)) := by
          unfold pageStore pageSlot
          rw [if_pos hpresent, if_neg (by simp [hhuge])]
        obtain ⟨hchild, hsub, -⟩ := htree.child hslot
        rw [if_neg hhuge, hslot]
        rw [hslot] at hpage
        have hleaf' : ∀ e ∈ leafEntries mem l (pageDown (entryAt mem t i)),
            pageDown e ∉ tables mem l (pageDown (entryAt mem t i)) := by
          intro e he hmem
          refine hleaf e (mem_leafEntries_of_slot (i := i) ?_) (hsub _ hmem)
          rw [hslot]
          exact he
        obtain ⟨hlist, hmem⟩ := ih hchild hleaf' fun x hx => hpage x (List.mem_cons_of_mem t hx)
        exact release_freeTable hlist hmem (pageDown_aligned _)
    · have hslot : pageStore mem (l + 1) t i = .absent := by
        unfold pageStore
        exact pageSlot_absent_iff.mpr (by simpa using hpresent)
      rw [if_neg hpresent, hslot, slotDrain_absent]
      exact ⟨(List.append_nil _).symm, fun _ _ => rfl⟩

/-! ## What is below the slots of a task -/

/-- The frames below the slots from `lo` on, in the order of the walk. -/
def slotFrames (mem : Mem) (lo pml4 : Nat) : List Nat :=
  (userSlots lo).flatMap fun i => slotDrain (pageStore mem) tableSlots pageDown 3
    (pageStore mem 3 pml4 i)

/-- The frames of the leaves below them. -/
def leafFrames (mem : Mem) (lo pml4 : Nat) : List Nat :=
  (userSlots lo).flatMap fun i =>
    (slotLeaves (pageStore mem) tableSlots 3 (pageStore mem 3 pml4 i)).map pageDown

/-- The tables below them. -/
def slotTables (mem : Mem) (lo pml4 : Nat) : List Nat :=
  (userSlots lo).flatMap fun i => slotNodes (pageStore mem) tableSlots 3 (pageStore mem 3 pml4 i)

/-- The walk meets the leaves and the tables, each once. -/
theorem slotFrames_perm (mem : Mem) (lo pml4 : Nat) :
    (slotFrames mem lo pml4).Perm (leafFrames mem lo pml4 ++ slotTables mem lo pml4) := by
  refine List.Perm.trans ?_ (List.flatMap_append_perm _ _ _).symm
  exact List.Perm.flatMap_left _ fun i _ => slotDrain_perm _ _ _ _ _

/-- The loop over the slots frees what is below them. -/
theorem freeSlots_spec (htree : TreeOk mem 3 pml4)
    (hnode : ∀ i ∈ userSlots lo, ∀ e, pageStore mem 3 pml4 i ≠ .leaf e)
    (hleaf : ∀ i ∈ userSlots lo,
      ∀ e ∈ slotLeaves (pageStore mem) tableSlots 3 (pageStore mem 3 pml4 i),
      pageDown e ∉ tables mem 3 pml4)
    (hsame : ∀ x, pageDown x ∈ tables mem 3 pml4 → s.1.mem x = mem x) :
    (freeSlots lo pml4 s).2 = s.2 ++ slotFrames mem lo pml4 ∧
      ∀ x, pageDown x ∉ slotFrames mem lo pml4 → (freeSlots lo pml4 s).1.mem x = s.1.mem x := by
  have ht : pml4 % 0x1000 = 0 := htree.aligned pml4 (mem_tables_self _ _ _)
  have hnodup : (userSlots lo).Nodup := nodup_tableSlots.filter _
  unfold freeSlots slotFrames
  refine foldl_frees (fun s i hi hpage => ?_) (slots_apart hnodup htree hleaf)
    fun i _ x hx => hsame x (mem_tables_of_keep hx)
  dsimp only
  rw [entryAt_congr mem ht fun x hx => hpage x (hx ▸ List.mem_cons_self)]
  by_cases hpresent : isPresent (entryAt mem pml4 i) = true
  · have hslot : pageStore mem 3 pml4 i = .node (pageDown (entryAt mem pml4 i)) := by
      have hne := hnode i hi
      unfold pageStore pageSlot at hne ⊢
      rw [if_pos hpresent] at hne ⊢
      split
      · rename_i hhuge
        rw [if_pos hhuge] at hne
        exact absurd rfl (hne _)
      · rfl
    obtain ⟨hchild, hsub, -⟩ := htree.child hslot
    rw [if_pos hpresent, hslot]
    rw [hslot] at hpage
    have hleaf' : ∀ e ∈ leafEntries mem 2 (pageDown (entryAt mem pml4 i)),
        pageDown e ∉ tables mem 2 (pageDown (entryAt mem pml4 i)) := by
      intro e he hmem
      refine hleaf i hi e ?_ (hsub _ hmem)
      rw [hslot]
      exact he
    obtain ⟨hlist, hmem⟩ :=
      freeTable_spec (s := s) hchild hleaf' fun x hx => hpage x (List.mem_cons_of_mem pml4 hx)
    exact release_freeTable hlist hmem (pageDown_aligned _)
  · have hslot : pageStore mem 3 pml4 i = .absent := by
      unfold pageStore
      exact pageSlot_absent_iff.mpr (by simpa using hpresent)
    rw [if_neg hpresent, hslot, slotDrain_absent]
    exact ⟨(List.append_nil _).symm, fun _ _ => rfl⟩

/-- A leaf below a slot of a PML4 is what some address there leads to. -/
theorem exists_translate {e : Nat}
    (he : e ∈ slotLeaves (pageStore mem) tableSlots 3 (pageStore mem 3 pml4 i)) :
    ∃ virt k, virtPath virt 3 = i ∧ translate mem pml4 virt = some (k, e) := by
  cases hslot : pageStore mem 3 pml4 i with
  | absent =>
    rw [hslot] at he
    cases he
  | leaf e' =>
    rw [hslot] at he
    obtain ⟨virt, hvirt⟩ := exists_virt fun _ => i
    refine ⟨virt, 3, hvirt 3 (le_refl 3), ?_⟩
    unfold Mm.translate walkFrom
    rw [walk_eq, hvirt 3 (le_refl 3), hslot, List.mem_singleton.mp he]
    rfl
  | node c =>
    rw [hslot] at he
    obtain ⟨path, k, -, hwalk⟩ := mem_leaves_iff.mp he
    obtain ⟨virt, hvirt⟩ := exists_virt fun j => if j = 3 then i else path j
    have hroot : virtPath virt 3 = i := (hvirt 3 (le_refl 3)).trans (if_pos rfl)
    refine ⟨virt, k, hroot, ?_⟩
    unfold Mm.translate walkFrom
    rw [walk_eq, hroot, hslot, ← hwalk]
    refine walk_path_congr fun j hj => ?_
    have hj' : j ≤ 2 := hj
    exact (hvirt j (by omega)).trans (if_neg (by omega))

/-- What an address leads to is a leaf below its slot. -/
theorem mem_leafFrames {virt k e : Nat} (hslot : virtPath virt 3 ∈ userSlots lo)
    (he : translate mem pml4 virt = some (k, e)) : pageDown e ∈ leafFrames mem lo pml4 := by
  refine List.mem_flatMap.mpr ⟨virtPath virt 3, hslot, List.mem_map.mpr ⟨e, ?_, rfl⟩⟩
  unfold Mm.translate walkFrom at he
  rw [walk_eq] at he
  cases hE : pageStore mem 3 pml4 (virtPath virt 3) with
  | absent =>
    rw [hE] at he
    cases he
  | leaf e' =>
    rw [hE] at he
    cases he
    exact List.mem_singleton.mpr rfl
  | node c =>
    rw [hE] at he
    exact mem_leaves_iff.mpr ⟨virtPath virt, k, fun l => mem_tableSlots _, he⟩

theorem mem_userSlots : i ∈ userSlots lo ↔ lo ≤ i.val ∧ i.val < 256 := by
  unfold userSlots
  rw [List.mem_filter]
  simp [mem_tableSlots]

theorem userSlot_of_path {virt : Nat} (hi : i ∈ userSlots 1) (hvirt : virtPath virt 3 = i) :
    UserSlot virt := by
  unfold UserSlot
  rw [hvirt]
  exact mem_userSlots.mp hi

section User

variable {m : Machine} {own held : List Nat}

/-- The frames that are mapped for the user are held. -/
theorem leafFrames_subset (hleaves : LeavesHeld UserSlot m pml4 held) :
    leafFrames m.mem 1 pml4 ⊆ held := by
  intro f hf
  obtain ⟨i, hi, hf⟩ := List.mem_flatMap.mp hf
  obtain ⟨e, he, rfl⟩ := List.mem_map.mp hf
  obtain ⟨virt, k, hroot, htranslate⟩ := exists_translate he
  exact (hleaves virt k e (userSlot_of_path hi hroot) htranslate).2

/-- They are all that has to be held for them. -/
theorem leavesHeld_leafFrames (hleaves : LeavesHeld UserSlot m pml4 held) :
    LeavesHeld UserSlot m pml4 (leafFrames m.mem 1 pml4) :=
  fun virt l e huser he =>
    ⟨(hleaves virt l e huser he).1, mem_leafFrames (mem_userSlots.mpr huser) he⟩

/-- The walk over the slots of a task whose pages are held frames. -/
theorem freeSlots_user (hspace : Space m pml4 own held)
    (hleaves : LeavesHeld UserSlot m pml4 held)
    (hsame : ∀ x, pageDown x ∈ tables m.mem 3 pml4 → s.1.mem x = m.mem x) :
    (freeSlots 1 pml4 s).2 = s.2 ++ slotFrames m.mem 1 pml4 := by
  refine (freeSlots_spec hspace.tree (fun i hi e hslot => ?_) (fun i hi e he => ?_) hsame).1
  · obtain ⟨virt, hvirt⟩ := exists_virt fun _ => i
    have hroot := hvirt 3 (le_refl 3)
    have htranslate : translate m.mem pml4 virt = some (3, e) := by
      unfold Mm.translate walkFrom
      rw [walk_eq, hroot, hslot]
      rfl
    exact absurd (hleaves virt 3 e (userSlot_of_path hi hroot) htranslate).1 (by decide)
  · obtain ⟨virt, k, hroot, htranslate⟩ := exists_translate he
    exact hspace.apart _ (hleaves virt k e (userSlot_of_path hi hroot) htranslate).2

end User

end Lumin.Proc
