import Lumin.Proc.ElfCleanup

/-!
# The loader and the other address spaces

A new PML4 shares the tables below its slots `0` and `256..511` with all others.
`elf_load` does not look at the slot of the pages that a file asks for.  As long as they
are below slots that the new PML4 does not share, everything that the loader and its
cleanup write lies in the new PML4 and in frames that nobody used.  The first page below
a shared slot shows up in the other address spaces, or it is refused and taken out of
them.
-/

namespace Lumin.Proc

open Lumin.Lib Lumin.Mm

variable {η : Type} {K : NodeHeap η} {own : η → List Nat} {file : ElfFile} {hdr : ElfHdr}
  {m m' m₀ : Machine} {s s' : LoadState η} {held pool₀ ps : List Nat} {pml4 cr3 vaddr v : Nat}
  {S : Nat → Prop} {h h' : η} {eps : List ElfPage} {ok : Bool}

/-! ## The invariant -/

/-- What is mapped at the addresses `S` is mapped by tables of level `0`. -/
def LevelZero (S : Nat → Prop) (m : Machine) (pml4 : Nat) : Prop :=
  ∀ virt l e, S virt → translate m.mem pml4 virt = some (l, e) → l = 0

/-- Since `m₀`, only the PML4 and frames of the pool `pool₀` have changed, and the
tables for the addresses `S` are among them. -/
structure Confined (own : List Nat) (pml4 : Nat) (S : Nat → Prop) (pool₀ : List Nat)
    (m₀ m : Machine) : Prop where
  outside : ∀ x, pageDown x ≠ pml4 → pageDown x ∉ pool₀ → m.mem x = m₀.mem x
  paths : ∀ virt, S virt → pathTables m.mem 3 pml4 virt ⊆ pml4 :: pool₀
  pool : popOrder m.pmm ++ own ⊆ pool₀
  level : LevelZero S m pml4

/-- The invariant of the loader for the other address spaces. -/
structure ConfinedLoad (own : η → List Nat) (pml4 : Nat) (S : Nat → Prop) (pool₀ : List Nat)
    (m₀ : Machine)
    (s : LoadState η) (held : List Nat) : Prop where
  confined : Confined (own s.heap) pml4 S pool₀ m₀ s.machine
  leaves : LeavesHeld S s.machine pml4 held
  held : held ⊆ pool₀
  pages : ∀ ep ∈ s.pages, S ep.vaddr

theorem levelZero_of_leavesHeld (hleaves : LeavesHeld S m pml4 held) : LevelZero S m pml4 :=
  fun virt l e hS he => (hleaves virt l e hS he).1

/-- A round at an address of `S` keeps it. -/
theorem confinedLoad_kept {ok : Nat → Prop} (hS : ∀ vaddr, ok vaddr → S vaddr) :
    Kept own pml4 ok (ConfinedLoad own pml4 S pool₀ m₀) := by
  have hstep : ∀ {vaddr : Nat} {s s' : LoadState η} {held held' : List Nat},
      (∀ x, pageDown x ≠ pml4 → pageDown x ∉ pool₀ → s'.machine.mem x = s.machine.mem x) →
      ConfinedLoad own pml4 S pool₀ m₀ s held → PageStep own pml4 vaddr s s' held held' →
      (∀ ep ∈ s'.pages, S ep.vaddr) → ConfinedLoad own pml4 S pool₀ m₀ s' held' := by
    intro vaddr s s' held held' hmem hP hstep hpages
    have hleaves := hstep.leaves S hP.leaves
    refine ⟨⟨fun x hx hpool => ?_, fun virt hvirt f hf => ?_,
      fun f hf => hP.confined.pool (hstep.pool hf),
      levelZero_of_leavesHeld hleaves⟩, hleaves, fun f hf => ?_, hpages⟩
    · rw [hmem x hx hpool, hP.confined.outside x hx hpool]
    · rcases List.mem_append.mp (hstep.paths virt hf) with hf | hf
      · exact hP.confined.paths virt hvirt hf
      · exact List.mem_cons_of_mem pml4 (hP.confined.pool hf)
    · rcases List.mem_append.mp (hstep.fresh hf) with hf | hf
      · exact hP.held hf
      · exact hP.confined.pool hf
  constructor
  · intro vaddr s s' held held' hok hinv hP hpage
    refine hstep
      (fun x hx hpool => hpage.outside x (fun hmem => ?_) fun hmem =>
      hpool (hP.confined.pool hmem)) hP
      hpage fun ep hep => ?_
    · rcases List.mem_cons.mp (hP.confined.paths vaddr (hS vaddr hok) hmem) with heq | hmem
      · exact hx heq
      · exact hpool hmem
    · rcases hpage.added ep hep with hep | heq
      · exact hP.pages ep hep
      · rw [heq]
        exact hS vaddr hok
  · intro s held h' m' hinv hP hheap
    refine hstep (fun x _ hpool => ?_) hP (PageStep.heap 0 hinv hheap) hP.pages
    refine hheap.outside x (fun hmem => hpool ?_) fun hmem => hpool ?_
    · exact hP.confined.pool (List.mem_append_right _ hmem)
    · exact hP.confined.pool (hheap.frames.subset (List.mem_append_right _ hmem))

/-- The cleanup stays within the frames that the loader may change. -/
theorem Confined.elfCleanup (hsound : K.Sound own) (hc : Confined (own h) pml4 S pool₀ m₀ m)
    (hspace : Space m pml4 (own h) (eps.map ElfPage.phys)) (hnodup : (eps.map ElfPage.phys).Nodup)
    (hpages : ∀ ep ∈ eps, S ep.vaddr ∧ IsFrame ep.phys ∧ ep.phys ∈ pool₀) :
    ∀ x, pageDown x ≠ pml4 → pageDown x ∉ pool₀ →
        (elfCleanup K pml4 h m eps).2.mem x = m₀.mem x := by
  obtain ⟨-, -, hmem, -⟩ := elfCleanup_spec hsound hspace hnodup
    (fun ep hep => (hpages ep hep).2.1) (fun ep hep _ l e => hc.level ep.vaddr l e (hpages ep hep).1)
    (fun ep hep => hc.paths ep.vaddr (hpages ep hep).1)
  intro x hx hpool
  rw [hmem x ?_ ?_ fun hx => hpool (hc.pool hx), hc.outside x hx hpool]
  · rw [List.mem_cons, not_or]
    exact ⟨hx, hpool⟩
  · intro hphys
    obtain ⟨ep, hep, heq⟩ := List.mem_map.mp hphys
    exact hpool (heq ▸ (hpages ep hep).2.2)

/-! ## Loading -/

/-- The address lies below a slot that the PML4 does not use. -/
def FreshSlot (mem : Mem) (pml4 virt : Nat) : Prop :=
  isPresent (entryAt mem pml4 (tableIdx 0 virt)) = false

/-- Nothing is mapped below such a slot. -/
theorem FreshSlot.walk {mem : Mem} {virt : Nat} (hfresh : FreshSlot mem pml4 virt) :
    translate mem pml4 virt = none ∧ pathTables mem 3 pml4 virt = [pml4] := by
  have hslot : pageStore mem 3 pml4 (virtPath virt 3) = .absent := by
    unfold FreshSlot at hfresh
    rw [show tableIdx 0 virt = (virtPath virt 3).val from tableIdx_eq (l := 3) (by omega) virt]
      at hfresh
    unfold pageStore
    exact pageSlot_absent_iff.mpr hfresh
  constructor
  · unfold Mm.translate walkFrom
    rw [Radix.walk_eq, hslot]
    rfl
  · unfold pathTables
    rw [Radix.onPath, hslot]

/-- The loop stays within the PML4 and the frames that are not in use, if the pages that it
gets to lie below fresh slots. -/
theorem loadRun_confined (hsound : K.Sound own) (hspace : Space m pml4 (own h) [])
    (hpages : ∀ hdr ps v, readHdr file = some hdr → Asked file hdr ps v →
      NewPages m.mem pml4 ps → FreshSlot m.mem pml4 v)
    (hrun : loadRun K file pml4 h m = some (ok, s)) :
    ∃ held, LoadInv own pml4 s held ∧
      ConfinedLoad own pml4 (FreshSlot m.mem pml4) (popOrder m.pmm ++ own h) m s held := by
  have hstart : ConfinedLoad own pml4 (FreshSlot m.mem pml4) (popOrder m.pmm ++ own h) m
      (startState h m) [] := by
    have hleaves : LeavesHeld (FreshSlot m.mem pml4) m pml4 [] := by
      intro virt l e hfresh he
      rw [hfresh.walk.1] at he
      cases he
    refine ⟨⟨fun _ _ _ => rfl, fun virt hfresh => ?_, fun _ hf => hf,
      levelZero_of_leavesHeld hleaves⟩, hleaves, List.nil_subset _, by simp [startState]⟩
    unfold startState
    rw [hfresh.walk.2]
    simp
  have hfresh : ∀ hdr, readHdr file = some hdr → ∀ v,
      (∃ ps, Asked file hdr ps v ∧ NewPages m.mem pml4 ps) → FreshSlot m.mem pml4 v := by
    rintro hdr hhdr v ⟨ps, hasked, hnew⟩
    exact hpages hdr ps v hhdr hasked hnew
  obtain ⟨hdr, hhdr, hends⟩ :=
    loadRun_ends hsound hspace (fun hdr hhdr => confinedLoad_kept (hfresh hdr hhdr)) hstart hrun
  exact hends.load

/-- So does `elf_load`. -/
theorem elfLoad_outside (hsound : K.Sound own) (hspace : Space m pml4 (own h) [])
    (hpages : ∀ hdr ps v, readHdr file = some hdr → Asked file hdr ps v →
      NewPages m.mem pml4 ps → FreshSlot m.mem pml4 v) :
    ∀ x, pageDown x ≠ pml4 → pageDown x ∉ popOrder m.pmm ++ own h →
      (elfLoad K file pml4 h m).2.2.mem x = m.mem x := by
  rw [elfLoad_afterRun]
  cases hrun : loadRun K file pml4 h m with
  | none => exact fun _ _ _ => rfl
  | some r =>
    obtain ⟨ok, s⟩ := r
    obtain ⟨held, hinv, hconf⟩ := loadRun_confined hsound hspace hpages hrun
    cases ok with
    | false =>
      refine Confined.elfCleanup hsound hconf.confined (hinv.space.of_subset fun f hf => ?_)
        hinv.nodup fun ep hep =>
          ⟨hconf.pages ep hep, (hinv.pages ep hep).2, hconf.held (hinv.pages ep hep).1⟩
      obtain ⟨ep, hep, rfl⟩ := List.mem_map.mp hf
      exact (hinv.pages ep hep).1
    | true =>
      unfold afterRun
      dsimp only
      rcases hfree : elfFreeNodes K s.heap s.machine s.pages with ⟨h₁, m₁⟩
      obtain ⟨-, hconf₁⟩ := elfFreeNodes_kept hsound
        (confinedLoad_kept fun _ (hfresh : FreshSlot m.mem pml4 _) => hfresh) s.pages hinv hconf
        hfree
      exact hconf₁.confined.outside

/-! ## The other address spaces -/

/-- Another address space: none of its tables is the new PML4 or a frame that is not
in use. -/
def OtherSpace (own : η → List Nat) (h : η) (m : Machine) (pml4 root : Nat) : Prop :=
  ∀ t ∈ tables m.mem 3 root, t % 0x1000 = 0 ∧ t ≠ pml4 ∧ t ∉ popOrder m.pmm ++ own h

/-- The memory `mem` has the translations of all other address spaces and of the current
PML4 as they were. -/
def KeepsSpaces (own : η → List Nat) (h : η) (m₀ m : Machine) (cr3 pml4 : Nat) (mem : Mem) :
    Prop :=
  (∀ root, OtherSpace own h m pml4 root → ∀ virt,
      translate mem root virt = translate m.mem root virt) ∧
    ∀ virt, translate mem cr3 virt = translate m₀.mem cr3 virt

/-- Every load of the file into a PML4 that `vmm_create_pml4` makes leaves the other address
spaces alone, where its loop ends and where it returns, with any heap and any frames that
are free. -/
def KeepsOthers (file : ElfFile) (mem : Mem) (cr3 : Nat) : Prop :=
  ∀ (η : Type) (K : NodeHeap η) (own : η → List Nat) (h : η) (m₀ m : Machine) (pml4 : Nat)
      (held : List Nat), K.Sound own → m₀.mem = mem → Space m₀ cr3 (own h) held →
    vmmCreatePml4 m₀ cr3 = (pml4, m) → pml4 ≠ 0 →
    (∀ ok s, loadRun K file pml4 h m = some (ok, s) →
        KeepsSpaces own h m₀ m cr3 pml4 s.machine.mem) ∧
      KeepsSpaces own h m₀ m cr3 pml4 (elfLoad K file pml4 h m).2.2.mem

/-- The address lies below a slot that a new PML4 shares with the current one. -/
def SharedSlot (mem : Mem) (cr3 v : Nat) : Prop :=
  ¬ UserSlot v ∧ isPresent (entryAt mem cr3 (tableIdx 0 v)) = true

/-- No page that the loader can get to lies below a shared slot. -/
def Unshared (file : ElfFile) (mem : Mem) (cr3 : Nat) : Prop :=
  ∀ hdr ps v, readHdr file = some hdr → Asked file hdr ps v → (ps.map pageNumber).Nodup →
    ¬ SharedSlot mem cr3 v

/-- The first page below a shared slot is mapped already, in a huge mapping or at address
`0`, so that it is refused, and the cleanup does not clear the entry of the page. -/
def SharedRefused (file : ElfFile) (mem : Mem) (cr3 : Nat) : Prop :=
  ∃ hdr ps v l e, readHdr file = some hdr ∧ Asked file hdr ps v ∧ (ps.map pageNumber).Nodup ∧
    (∀ u ∈ ps, ¬ SharedSlot mem cr3 u) ∧ SharedSlot mem cr3 v ∧
    translate mem cr3 v = some (l, e) ∧ (l = 0 → v = 0)

/-- A write into the new PML4 and frames that are not in use leaves the other spaces alone. -/
theorem keepsSpaces_of_outside (hspace : Space m₀ cr3 (own h) held)
    (hcreate : vmmCreatePml4 m₀ cr3 = (pml4, m)) (hpml4 : pml4 ≠ 0) {mem : Mem}
    (houtside : ∀ x, pageDown x ≠ pml4 → pageDown x ∉ popOrder m.pmm ++ own h → mem x = m.mem x) :
    KeepsSpaces own h m₀ m cr3 pml4 mem := by
  have hothers : ∀ root, OtherSpace own h m pml4 root → ∀ virt,
      translate mem root virt = translate m.mem root virt := by
    intro root hroot virt
    refine walkFrom_congr (fun t ht => (hroot t ht).1) fun x hx => ?_
    exact houtside x (hroot _ hx).2.1 (hroot _ hx).2.2
  refine ⟨hothers, fun virt => ?_⟩
  rcases vmmCreatePml4_spec hspace with hnone | ⟨p, m', heq, -, hpop, hnew, -⟩
  · rw [hnone] at hcreate
    exact absurd (congrArg Prod.fst hcreate).symm hpml4
  · rw [heq] at hcreate
    cases hcreate
    -- The current PML4 is one of the others.
    have hapart : ∀ t ∈ tables m₀.mem 3 cr3, t ∉ pml4 :: (popOrder m.pmm ++ own h) := by
      intro t ht hmem
      refine hspace.pool.apart t ?_ (List.mem_append_left _ ht)
      rw [hpop]
      exact hmem
    have hsame : ∀ x, pageDown x ∈ tables m₀.mem 3 cr3 → m.mem x = m₀.mem x := by
      intro x hx
      refine hnew x ?_
      intro heq
      exact hapart _ hx (heq ▸ List.mem_cons_self)
    have htables : tables m.mem 3 cr3 = tables m₀.mem 3 cr3 :=
      tables_congr hspace.tree.aligned hsame
    rw [hothers cr3 ?_ virt]
    · exact walkFrom_congr hspace.tree.aligned hsame
    · intro t ht
      rw [htables] at ht
      have hnot := hapart t ht
      rw [List.mem_cons, not_or] at hnot
      exact ⟨hspace.tree.aligned t ht, hnot.1, hnot.2⟩

/-- The slots of a new PML4. -/
theorem pageStore_newPml4 {mem mem₀ : Mem}
    (hentry : ∀ i : Fin 512, entryAt mem pml4 i =
      if 1 ≤ i.val ∧ i.val < 256 then 0 else entryAt mem₀ cr3 i) :
    (¬ SharedSlot mem₀ cr3 v → FreshSlot mem pml4 v) ∧
      (SharedSlot mem₀ cr3 v →
        pageStore mem 3 pml4 (virtPath v 3) = pageStore mem₀ 3 cr3 (virtPath v 3) ∧
        pageStore mem 3 pml4 (virtPath v 3) ≠ .absent) := by
  unfold SharedSlot FreshSlot UserSlot
  rw [show tableIdx 0 v = (virtPath v 3).val from tableIdx_eq (l := 3) (by omega) v, hentry]
  unfold pageStore
  rw [hentry]
  by_cases huser : 1 ≤ (virtPath v 3).val ∧ (virtPath v 3).val < 256
  · rw [if_pos huser]
    exact ⟨fun _ => rfl, fun hshared => absurd huser hshared.1⟩
  · rw [if_neg huser]
    refine ⟨fun hnot => ?_, fun hshared => ⟨rfl, fun habsent => ?_⟩⟩
    · rw [not_and, Bool.not_eq_true] at hnot
      exact hnot huser
    · rw [pageSlot_absent_iff.mp habsent] at hshared
      exact absurd hshared.2 Bool.false_ne_true

theorem sharedSlot_pageNumber {mem : Mem} {u : Nat} (hpage : pageNumber u = pageNumber v) :
    SharedSlot mem cr3 u ↔ SharedSlot mem cr3 v := by
  have hpath := pageNumber_eq_iff.mp hpage 3 (le_refl 3)
  unfold SharedSlot UserSlot
  rw [show tableIdx 0 u = (virtPath u 3).val from tableIdx_eq (l := 3) (by omega) u,
    show tableIdx 0 v = (virtPath v 3).val from tableIdx_eq (l := 3) (by omega) v, hpath]

/-- A condition on the file is enough. -/
theorem Unshared.keeps {mem : Mem} (hunshared : Unshared file mem cr3) :
    KeepsOthers file mem cr3 := by
  rintro η K own h m₀ m pml4 held hsound rfl hspace hcreate hpml4
  rcases vmmCreatePml4_spec hspace with hnone | ⟨p, m', heq, -, -, -, hnew, -, -, -, hentry⟩
  · rw [hnone] at hcreate
    exact absurd (congrArg Prod.fst hcreate).symm hpml4
  · rw [hcreate] at heq
    cases heq
    have hnew' := hnew.of_subset (List.nil_subset _)
    have hpages : ∀ hdr ps v, readHdr file = some hdr → Asked file hdr ps v →
        NewPages m.mem pml4 ps → FreshSlot m.mem pml4 v :=
      fun hdr ps v hhdr hasked hps =>
        (pageStore_newPml4 hentry).1 (hunshared hdr ps v hhdr hasked hps.1)
    refine ⟨fun ok s hrun => ?_, ?_⟩
    · obtain ⟨_, -, hconf⟩ := loadRun_confined hsound hnew' hpages hrun
      exact keepsSpaces_of_outside hspace hcreate hpml4 hconf.confined.outside
    · exact keepsSpaces_of_outside hspace hcreate hpml4 (elfLoad_outside hsound hnew' hpages)

/-! ## A page below a shared slot -/

/-- With equal slots in the two roots an address has one translation. -/
theorem translate_of_slot {mem : Mem} {a b : Nat}
    (hslot : pageStore mem 3 a (virtPath v 3) = pageStore mem 3 b (virtPath v 3)) :
    translate mem a v = translate mem b v := by
  have hroot : ∀ t, translate mem t v =
      Radix.slotWalk (pageStore mem) (virtPath v) 3 (pageStore mem 3 t (virtPath v 3)) :=
    fun t => Radix.walk_eq _ _ 3 t
  rw [hroot a, hroot b, hslot]

/-- A new PML4 and a load of the file into it, with nodes for the pages `ps` and one more. -/
theorem exists_newLoad {mem : Mem} (htree : TreeOk mem 3 cr3) (hnull : 0 ∉ tables mem 3 cr3)
    (hhdr : readHdr file = some hdr) (hlength : ps.length ≤ 2 ^ 36) :
    ∃ m₀ m pml4, m₀.mem = mem ∧ Space m₀ cr3 [] [] ∧ vmmCreatePml4 m₀ cr3 = (pml4, m) ∧
      pml4 ≠ 0 ∧ (∀ x, pageDown x ≠ pml4 → m.mem x = mem x) ∧ Space m pml4 [] [cr3] ∧
      cr3 ≠ pml4 ∧
      (∀ virt, translate m.mem pml4 virt = if UserSlot virt then none
        else translate mem cr3 virt) ∧
      (∀ i : Fin 512, entryAt m.mem pml4 i =
        if 1 ≤ i.val ∧ i.val < 256 then 0 else entryAt mem cr3 i) ∧
      Supplied (Within (fun _ => []) pml4 (popOrder m.pmm ++ []) m) (ps.length + 1) pml4 m
        (startState 0 m) [] (ps.length + 1) ∧
      loadRun (limitedHeap (ps.length + 1)) file pml4 0 m =
        some (loadSegments (limitedHeap (ps.length + 1)) file pml4 hdr hdr.e_phnum 0
          (startState 0 m)) := by
  obtain ⟨frames, hframes, -, hspace⟩ :=
    exists_space htree (List.length_nil.trans_le (Nat.zero_le _))
      (show 4 * (ps.length + 1) + 1 ≤ 2 ^ 40 by omega)
  rcases vmmCreatePml4_spec hspace with hnone | ⟨p, m, heq, hframe, hpop, houtside, hnew, hsub,
      htranslate, -, hentry⟩
  · -- There is a frame for the PML4.
    rcases allocFrame_spec hspace.freeOk.ne_zero with ⟨hnil, -⟩ | ⟨q, rest, pmm, hq, halloc, -⟩
    · rw [hnil] at hframes
      exact absurd hframes (by simp)
    · have hq : q ≠ 0 := hspace.freeOk.ne_zero q (by simp [hq])
      unfold vmmCreatePml4 at hnone
      rw [halloc] at hnone
      dsimp only at hnone
      rw [if_neg hq] at hnone
      exact absurd (congrArg Prod.fst hnone) hq
  · rw [hpop, List.length_cons] at hframes
    have hne : cr3 ≠ p := fun hcr3 =>
      hnew.apart cr3 List.mem_cons_self (hcr3 ▸ mem_tables_self m.mem 3 p)
    refine ⟨machineWith mem frames, m, p, rfl, hspace, heq, hframe.2.1.ne', houtside, hnew, hne,
      htranslate, hentry, ⟨?_, fun hzero => ?_, rfl, ?_, Nat.le_of_succ_le_succ hframes⟩, ?_⟩
    · exact loadedUpTo_start (hnew.of_subset (List.nil_subset _))
        (within_start 0 m)
    · rcases List.mem_cons.mp (hsub hzero) with hp | hold
      · exact hframe.2.1.ne hp
      · exact hnull hold
    · rw [List.length_nil, Nat.zero_add]
    · unfold loadRun
      rw [if_neg hframe.2.1.ne', hhdr]
      rfl

/-- The first page below a shared slot shows up in the current address space, or its
entry there is cleared. -/
theorem not_keeps_of_shared {mem : Mem} (htree : TreeOk mem 3 cr3) (hnull : 0 ∉ tables mem 3 cr3)
    (hhdr : readHdr file = some hdr) (hasked : Asked file hdr ps v)
    (hnodup : (ps.map pageNumber).Nodup) (hps : ∀ u ∈ ps, ¬ SharedSlot mem cr3 u)
    (hv : SharedSlot mem cr3 v)
    (hharm : ∀ l e, translate mem cr3 v = some (l, e) → l = 0 ∧ v ≠ 0) :
    ¬ KeepsOthers file mem cr3 := by
  intro hkeeps
  have hlength : ps.length ≤ 2 ^ 36 := length_le_of_pageNumber hnodup
  obtain ⟨m₀, m, pml4, rfl, hspace₀, hcreate, hpml4, houtside, hspace, hne, htranslate, hentry,
    hstart, hrun⟩ := exists_newLoad htree hnull hhdr hlength
  obtain ⟨hloop, hend⟩ := hkeeps Nat _ _ 0 m₀ m pml4 [] (limitedHeap_sound (ps.length + 1)) rfl
    hspace₀ hcreate hpml4
  -- In the new space the pages are those of the current one.
  have hnone : ∀ u, ¬ SharedSlot m₀.mem cr3 u → translate m.mem pml4 u = none :=
    fun u hu => ((pageStore_newPml4 hentry).1 hu).walk.1
  have hsame : translate m.mem pml4 v = translate m₀.mem cr3 v :=
    (htranslate v).trans (if_neg hv.1)
  have hnew : NewPages m.mem pml4 ps := ⟨hnodup, fun u hu => hnone u (hps u hu)⟩
  obtain ⟨hslot, hpresent⟩ := (pageStore_newPml4 hentry).2 hv
  have hcr3 : cr3 ∉ tables m.mem 3 pml4 ++ (popOrder m.pmm ++ []) := by
    intro hmem
    rcases List.mem_append.mp hmem with hmem | hmem
    · exact hspace.apart cr3 List.mem_cons_self hmem
    · exact hspace.pool.apart cr3 hmem (List.mem_append_right _ List.mem_cons_self)
  have hroot : ∀ mem', (∀ x, pageDown x = cr3 → mem' x = m.mem x) →
      pageStore mem' 3 cr3 (virtPath v 3) = pageStore m₀.mem 3 cr3 (virtPath v 3) := by
    intro mem' hmem'
    have hcr3' : cr3 % 0x1000 = 0 := htree.aligned cr3 (mem_tables_self _ _ _)
    refine agree_of_page hcr3' (fun x hx => ?_) 3 _
    rw [hmem' x hx, houtside x (hx ▸ hne)]
  obtain ⟨ok, t, hload, -, ⟨ep, hep, rfl⟩, hmore, hstop⟩ := loadSegments_asked hstart
    (within_kept _ pml4 _ m _) hasked hnew rfl
  rw [hload] at hrun
  obtain ⟨-, hcurrent⟩ := hloop ok t hrun
  cases hbefore : translate m₀.mem cr3 ep.vaddr with
  | none =>
    -- It gets mapped, below a table that both spaces have.
    have hall : NewPages m.mem pml4 (ps ++ [ep.vaddr]) := by
      refine ⟨?_, fun u hu => ?_⟩
      · rw [List.map_append, List.nodup_append]
        refine ⟨hnodup, List.nodup_singleton _, fun a ha b hb hab => ?_⟩
        rw [List.map_singleton, List.mem_singleton] at hb
        obtain ⟨u, hu, hpage⟩ := List.mem_map.mp ha
        exact hps u hu ((sharedSlot_pageNumber (hpage.trans (hab.trans hb))).mpr hv)
      · rcases List.mem_append.mp hu with hu | hu
        · exact hnew.2 u hu
        · rw [List.mem_singleton.mp hu, hsame, hbefore]
    have hloaded := hmore hall
    obtain ⟨held, -, hwithin⟩ := hloaded.load
    obtain ⟨e, he, hvaddr⟩ := hloaded.mem_pages.2 ep.vaddr (by simp)
    obtain ⟨b, hb⟩ := hloaded.loaded.mapped e he
    have hnow := hwithin.slots _ hpresent
    rw [hslot, ← hroot _ fun x hx => hwithin.outside x (hx ▸ hcr3)] at hnow
    rw [hvaddr, translate_of_slot hnow, hcurrent, hbefore] at hb
    cases hb
  | some b =>
    obtain ⟨l, e⟩ := b
    obtain ⟨rfl, hv₀⟩ := hharm l e hbefore
    rw [hbefore] at hsame
    obtain ⟨rfl, hstopped⟩ := hstop (by rw [hsame]; simp)
    obtain ⟨e', eps, hvaddr, hcons, hgave⟩ : ∃ e' eps, e'.vaddr = ep.vaddr ∧
        t.pages = e' :: eps ∧ GaveUp (fun _ => []) m 0 pml4 t eps :=
      hstopped.refused hep hsame
    -- It is refused, and the cleanup clears its entry.
    have hsmall := hgave.small_cons hcons (e := e) (by rw [hvaddr, hsame])
    obtain ⟨hclear, -, hmem, hpaths⟩ :=
      hgave.cleanup_small (limitedHeap_sound (ps.length + 1)) hsmall
    obtain ⟨-, hkept⟩ := hend
    rw [elfLoad_afterRun, hrun] at hkept
    unfold afterRun at hkept
    dsimp only at hkept
    have hgone := hclear ep.vaddr
    rw [if_pos ⟨e', hcons ▸ List.mem_cons_self, hvaddr.symm ▸ hv₀, by rw [hvaddr]⟩] at hgone
    obtain ⟨hnode, -⟩ := pageStore_node
      (walkFrom_below (l := 2) (by decide) hsame).choose_spec.1 fun k b hb => by
        rw [show walkFrom m.mem 3 pml4 ep.vaddr = some (0, e) from hsame] at hb
        cases hb
        rfl
    obtain ⟨held, -, hwithin⟩ := hstopped.load
    have hfinal := Radix.slot_of_onPath (hpaths ep.vaddr)
      ((hwithin.slots _ hpresent).trans hnode)
    have hcurrent' := hroot _ fun x hx =>
      (hmem x (hx ▸ hcr3)).trans (hwithin.outside x (hx ▸ hcr3))
    rw [← hslot, hnode, ← hfinal] at hcurrent'
    rw [← translate_of_slot hcurrent', hkept, hbefore] at hgone
    cases hgone

/-- Every load of a file leaves the other address spaces alone if no page that the loader
can get to lies below a shared slot, and otherwise only if the first such page is refused
where the cleanup does not find its entry. -/
theorem elfLoad_keeps_others (file : ElfFile) (mem : Mem) (cr3 : Nat) (htree : TreeOk mem 3 cr3)
    (hnull : 0 ∉ tables mem 3 cr3) :
    (Unshared file mem cr3 → KeepsOthers file mem cr3) ∧
      (KeepsOthers file mem cr3 → Unshared file mem cr3 ∨ SharedRefused file mem cr3) := by
  refine ⟨Unshared.keeps, fun hkeeps => ?_⟩
  by_cases hrefused : SharedRefused file mem cr3
  · exact .inr hrefused
  refine .inl fun hdr ps v hhdr hasked hnodup hv => ?_
  obtain ⟨qs, u, hfront, hfirst, hu, hqs⟩ := hasked.first hv
  have hqsNodup : (qs.map pageNumber).Nodup := hnodup.sublist (hfront.sublist.map pageNumber)
  refine not_keeps_of_shared htree hnull hhdr hfirst hqsNodup hqs hu (fun l e he => ?_) hkeeps
  by_contra hnot
  refine hrefused ⟨hdr, qs, u, l, e, hhdr, hfirst, hqsNodup, hqs, hu, he, fun hl => ?_⟩
  by_contra hne
  exact hnot ⟨hl, hne⟩

/-- A page below a slot of the task. -/
theorem elfLoad_keeps_others_tiny :
    (elfLoad pageHeap (elfFileOf (tinyElf 0x8000000000)) (vmmCreatePml4 loadMachine 0x1000).1 0
        (vmmCreatePml4 loadMachine 0x1000).2).1 = 0x8000000000 ∧
      ∀ virt, translate
          (elfLoad pageHeap (elfFileOf (tinyElf 0x8000000000))
          (vmmCreatePml4 loadMachine 0x1000).1 0
        (vmmCreatePml4 loadMachine 0x1000).2).2.2.mem 0x1000 virt =
          translate loadMachine.mem 0x1000 virt := by
  have hspace : Space loadMachine 0x1000 [0x300000] [] :=
    space_empty (by decide) (by decide +kernel) (by decide)
  have hnull : 0 ∉ tables loadMachine.mem 3 0x1000 := by
    rw [show loadMachine.mem = fun _ => 0 from rfl, tables_empty]
    decide
  have hunshared : Unshared (elfFileOf (tinyElf 0x8000000000)) loadMachine.mem 0x1000 := by
    intro hdr ps v hhdr hasked _ hshared
    obtain ⟨-, rfl⟩ := tinyElf_asked hhdr hasked
    exact hshared.1 (by decide)
  refine ⟨by decide +kernel, ?_⟩
  exact ((elfLoad_keeps_others _ loadMachine.mem 0x1000 treeOk_empty hnull).1 hunshared Nat
    pageHeap (fun _ => [0x300000]) 0 loadMachine _ _ [] (pageHeap_sound _) rfl hspace rfl
    (by decide +kernel)).2.2

/-- The PML4 at `0x1000` has a table for its slot `0`. -/
def sharedMachine : Machine :=
  { emptyMachine [0xC000, 0xB000, 0xA000, 0x9000] with mem := wrLE (fun _ => 0) 0x1000 8 0x6003 }

/-- A page below this slot shows up in the current address space. -/
theorem sharedSlot_not_kept :
    ¬ ∀ virt, translate
      (elfLoad pageHeap (elfFileOf (tinyElf 0x40000000)) (vmmCreatePml4 sharedMachine 0x1000).1 0
        (vmmCreatePml4 sharedMachine 0x1000).2).2.2.mem 0x1000 virt =
          translate sharedMachine.mem 0x1000 virt := by
  intro hkept
  have hbefore : translate sharedMachine.mem 0x1000 0x40000000 = none := by decide +kernel
  have hafter :
      (translate (elfLoad pageHeap (elfFileOf (tinyElf 0x40000000))
      (vmmCreatePml4 sharedMachine 0x1000).1 0
      (vmmCreatePml4 sharedMachine 0x1000).2).2.2.mem 0x1000 0x40000000).isSome =
        true := by decide +kernel
  rw [hkept, hbefore] at hafter
  cases hafter

end Lumin.Proc
