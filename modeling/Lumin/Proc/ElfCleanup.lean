import Lumin.Proc.ElfClearing
import Lumin.Proc.ElfRuns

/-!
# What a failed load leaves behind

`elf_load` keeps a list of the pages that it has taken, and `elf_cleanup` goes back over
it: it clears the entry of each page and frees its frame.

* A page that `vmm_map_page` refuses is in the list as well.  If it is refused because
  it was mapped before the load, the cleanup clears a mapping that the loader never made,
  or, below a huge mapping, a word of the mapped memory.
* A page at address `0` keeps its entry, since the cleanup takes the address for no
  address.
* A program with the entry point `0` is not cleaned up.

`Undoable` says of a file and an address space that none of this can happen.
-/

namespace Lumin.Proc

open Lumin.Lib Lumin.Mm

variable {η : Type} {K : NodeHeap η} {own : η → List Nat} {file : ElfFile} {hdr : ElfHdr}
  {m m' m₀ : Machine} {s s' : LoadState η} {held pool₀ ps : List Nat} {pml4 vaddr v : Nat}
  {h h₀ h' : η} {ok : Bool} {eps rest : List ElfPage} {ep : ElfPage}

/-! ## The memory that the loader changes -/

/-- Since `m₀` only the tables and frames of the pool `pool₀` have changed, and no slot of
the PML4 that was in use. -/
structure Within (own : η → List Nat) (pml4 : Nat) (pool₀ : List Nat) (m₀ : Machine)
    (s : LoadState η) (held : List Nat) : Prop where
  outside : ∀ x, pageDown x ∉ tables m₀.mem 3 pml4 ++ pool₀ → s.machine.mem x = m₀.mem x
  paths : ∀ virt, pathTables s.machine.mem 3 pml4 virt ⊆ tables m₀.mem 3 pml4 ++ pool₀
  pool : s.pool own ⊆ pool₀
  held : held ⊆ pool₀
  slots : ∀ i, pageStore m₀.mem 3 pml4 i ≠ .absent →
    pageStore s.machine.mem 3 pml4 i = pageStore m₀.mem 3 pml4 i

theorem within_kept (own : η → List Nat) (pml4 : Nat) (pool₀ : List Nat) (m₀ : Machine)
    (okay : Nat → Prop) : Kept own pml4 okay (Within own pml4 pool₀ m₀) := by
  have hkeep :
      ∀ {vaddr : Nat} {s s' : LoadState η} {held held' : List Nat},
      Within own pml4 pool₀ m₀ s held →
      PageStep own pml4 vaddr s s' held held' → Within own pml4 pool₀ m₀ s' held' := by
    intro vaddr s s' held held' hP hstep
    refine ⟨fun x hx => ?_, fun virt f hf => ?_, fun f hf => hP.pool (hstep.pool hf),
      fun f hf => ?_, fun i hi => ?_⟩
    · rw [hstep.outside x (fun hmem => hx (hP.paths vaddr hmem)) fun hmem =>
        hx (List.mem_append_right _ (hP.pool hmem)), hP.outside x hx]
    · rcases List.mem_append.mp (hstep.paths virt hf) with hf | hf
      · exact hP.paths virt hf
      · exact List.mem_append_right _ (hP.pool hf)
    · rcases List.mem_append.mp (hstep.fresh hf) with hf | hf
      · exact hP.held hf
      · exact hP.pool hf
    · have hslot := hP.slots i hi
      exact (hstep.slots i (hslot.symm ▸ hi)).trans hslot
  exact ⟨fun _ _ hP hstep => hkeep hP hstep,
    fun hinv hP hstep => hkeep hP (PageStep.heap 0 hinv hstep)⟩

theorem within_start (h : η) (m : Machine) :
    Within own pml4 (popOrder m.pmm ++ own h) m (startState h m) [] :=
  ⟨fun _ _ => rfl, fun _ => List.Subset.trans pathTables_subset (List.subset_append_left _ _),
    fun _ hf => hf, List.nil_subset _, fun _ _ => rfl⟩

/-! ## Giving up -/

/-- The state of the loader when it gives up on the machine `m₀`: it has mapped the pages
`eps`, and its list may have one more page in front. -/
structure GaveUp (own : η → List Nat) (m₀ : Machine) (h₀ : η) (pml4 : Nat) (s : LoadState η)
    (eps : List ElfPage) : Prop where
  load : ∃ held, LoadInv own pml4 s held ∧
    Within own pml4 (popOrder m₀.pmm ++ own h₀) m₀ s held
  loaded : LoadedPages m₀ s.machine pml4 eps
  list : s.pages = eps ∨ ∃ ep, s.pages = ep :: eps

theorem LoadedUpTo.gaveUp
    (hloaded : LoadedUpTo (Within own pml4 (popOrder m₀.pmm ++ own h₀) m₀) own pml4 m₀ s ps) :
    GaveUp own m₀ h₀ pml4 s s.pages :=
  ⟨hloaded.load, hloaded.loaded, .inl rfl⟩

theorem StoppedAt.gaveUp
    (hstopped : StoppedAt (Within own pml4 (popOrder m₀.pmm ++ own h₀) m₀) own pml4 m₀ s ps v) :
    ∃ eps, GaveUp own m₀ h₀ pml4 s eps ∧ eps.map ElfPage.vaddr = ps.reverse ∧
      (s.pages = eps ∨ ∃ ep, ep.vaddr = v ∧ s.pages = ep :: eps) := by
  obtain ⟨eps, hloaded, hvaddrs, hlist⟩ := hstopped.list
  exact ⟨eps, ⟨hstopped.load, hloaded, hlist.imp_right fun ⟨ep, _, heq⟩ => ⟨ep, heq⟩⟩, hvaddrs,
    hlist⟩

/-- A page of the list that was mapped before is the refused one. -/
theorem StoppedAt.refused {b : Nat × Nat}
    (hstopped : StoppedAt (Within own pml4 (popOrder m₀.pmm ++ own h₀) m₀) own pml4 m₀ s ps
      ep.vaddr)
    (hep : ep ∈ s.pages) (hmapped : translate m₀.mem pml4 ep.vaddr = some b) :
    ∃ e eps, e.vaddr = ep.vaddr ∧ s.pages = e :: eps ∧ GaveUp own m₀ h₀ pml4 s eps := by
  obtain ⟨eps, hgave, -, heq | ⟨e, hvaddr, hcons⟩⟩ := hstopped.gaveUp
  · rw [hgave.loaded.fresh ep (heq ▸ hep)] at hmapped
    cases hmapped
  · exact ⟨e, eps, hvaddr, hcons, hgave⟩

theorem GaveUp.subset (hgave : GaveUp own m₀ h₀ pml4 s eps) : eps ⊆ s.pages := by
  rcases hgave.list with heq | ⟨ep, heq⟩
  · rw [heq]
    exact fun _ he => he
  · rw [heq]
    exact List.subset_cons_self _ _

theorem GaveUp.space (hgave : GaveUp own m₀ h₀ pml4 s eps) :
    Space s.machine pml4 (own s.heap) (s.pages.map ElfPage.phys) := by
  obtain ⟨held, hinv, -⟩ := hgave.load
  refine hinv.space.of_subset fun f hf => ?_
  obtain ⟨ep, hep, rfl⟩ := List.mem_map.mp hf
  exact (hinv.pages ep hep).1

theorem GaveUp.phys (hgave : GaveUp own m₀ h₀ pml4 s eps) {f : Nat}
    (hf : f ∈ s.pages.map ElfPage.phys) :
    IsFrame f ∧ f ∈ popOrder m₀.pmm ++ own h₀ := by
  obtain ⟨held, hinv, hwithin⟩ := hgave.load
  obtain ⟨ep, hep, rfl⟩ := List.mem_map.mp hf
  exact ⟨(hinv.pages ep hep).2, hwithin.held (hinv.pages ep hep).1⟩

theorem GaveUp.paths (hgave : GaveUp own m₀ h₀ pml4 s eps) (virt : Nat) :
    pathTables s.machine.mem 3 pml4 virt ⊆
      tables m₀.mem 3 pml4 ++ (popOrder m₀.pmm ++ own h₀) := by
  obtain ⟨held, -, hwithin⟩ := hgave.load
  exact hwithin.paths virt

theorem GaveUp.outside (hgave : GaveUp own m₀ h₀ pml4 s eps) {x : Nat}
    (hx : pageDown x ∉ tables m₀.mem 3 pml4 ++ (popOrder m₀.pmm ++ own h₀)) :
    s.machine.mem x = m₀.mem x := by
  obtain ⟨held, -, hwithin⟩ := hgave.load
  exact hwithin.outside x hx

/-- The pages of the list without a huge mapping. -/
theorem GaveUp.level (hgave : GaveUp own m₀ h₀ pml4 s eps)
    (hsmall : ∀ l e, translate m₀.mem pml4 vaddr = some (l, e) → l = 0) {l e : Nat}
    (he : translate s.machine.mem pml4 vaddr = some (l, e)) : l = 0 := by
  cases hbefore : translate m₀.mem pml4 vaddr with
  | none => exact hgave.loaded.level hbefore he
  | some b =>
    rw [hgave.loaded.keeps (by rw [hbefore]; simp)] at he
    exact hsmall l e he

/-- The cleanup of a list with the frames of the loader's pages. -/
theorem GaveUp.cleanup (hgave : GaveUp own m₀ h₀ pml4 s eps) (hsound : K.Sound own)
    {list : List ElfPage}
    (hspace : Space m pml4 (own s.heap) (s.pages.map ElfPage.phys)) (hpmm : m.pmm = s.machine.pmm)
    (hphys : list.map ElfPage.phys = s.pages.map ElfPage.phys)
    (hlevel : ∀ ep ∈ list, ep.vaddr ≠ 0 → ∀ l e, translate m.mem pml4 ep.vaddr = some (l, e) →
      l = 0)
    (hpaths : ∀ virt, pathTables m.mem 3 pml4 virt ⊆ tables m₀.mem 3 pml4 ++
      (popOrder m₀.pmm ++ own h₀)) :
    (∀ virt, translate (elfCleanup K pml4 s.heap m list).2.mem pml4 virt =
        if Cleared list virt then none else translate m.mem pml4 virt) ∧
      (∀ f ∈ s.pages.map ElfPage.phys, (popOrder (elfCleanup K pml4 s.heap m list).2.pmm ++
        own (elfCleanup K pml4 s.heap m list).1).count f = 1) ∧
      (∀ x, pageDown x ∉ tables m₀.mem 3 pml4 ++ (popOrder m₀.pmm ++ own h₀) →
        (elfCleanup K pml4 s.heap m list).2.mem x = m.mem x) ∧
      ∀ virt, pathTables (elfCleanup K pml4 s.heap m list).2.mem 3 pml4 virt =
        pathTables m.mem 3 pml4 virt := by
  obtain ⟨held, hinv, hwithin⟩ := hgave.load
  obtain ⟨htranslate, hpool, hmem, htables⟩ :=
    elfCleanup_spec hsound (hphys.symm ▸ hspace) (hphys.symm ▸ hinv.nodup)
    (fun ep hep => (hgave.phys (hphys ▸ List.mem_map_of_mem hep)).1) hlevel fun ep _ =>
      hpaths ep.vaddr
  rw [hphys, hpmm] at hpool
  rw [hphys, hpmm] at hmem
  refine ⟨htranslate, fun f hf => ?_, fun x hx => ?_, htables⟩
  · -- The frames of the pages and the pool have nothing in common.
    have hnodup : (s.pages.map ElfPage.phys ++ (popOrder s.machine.pmm ++ own s.heap)).Nodup := by
      refine List.nodup_append.mpr ⟨hinv.nodup, hgave.space.pool.nodup, ?_⟩
      rintro a ha b hb rfl
      exact hgave.space.pool.apart a hb (List.mem_append_right _ ha)
    rw [hpool.count_eq f]
    exact List.count_eq_one_of_mem hnodup (List.mem_append_left _ hf)
  · refine hmem x hx (fun hf => hx ?_) fun hf => hx ?_
    · exact List.mem_append_right _ (hgave.phys hf).2
    · exact List.mem_append_right _ (hwithin.pool hf)

/-- The cleanup of a list without a page in a huge mapping. -/
theorem GaveUp.cleanup_small (hgave : GaveUp own m₀ h₀ pml4 s eps) (hsound : K.Sound own)
    (hsmall : ∀ ep ∈ s.pages, ep.vaddr ≠ 0 → ∀ l e, translate m₀.mem pml4 ep.vaddr = some (l, e) →
      l = 0) :
    (∀ virt, translate (elfCleanup K pml4 s.heap s.machine s.pages).2.mem pml4 virt =
        if Cleared s.pages virt then none else translate s.machine.mem pml4 virt) ∧
      (∀ f ∈ s.pages.map ElfPage.phys,
        (popOrder (elfCleanup K pml4 s.heap s.machine s.pages).2.pmm ++
          own (elfCleanup K pml4 s.heap s.machine s.pages).1).count f = 1) ∧
      (∀ x, pageDown x ∉ tables m₀.mem 3 pml4 ++ (popOrder m₀.pmm ++ own h₀) →
        (elfCleanup K pml4 s.heap s.machine s.pages).2.mem x = s.machine.mem x) ∧
      ∀ virt, pathTables (elfCleanup K pml4 s.heap s.machine s.pages).2.mem 3 pml4 virt =
        pathTables s.machine.mem 3 pml4 virt :=
  hgave.cleanup hsound hgave.space rfl rfl
    (fun ep hep hvaddr _ _ => hgave.level (hsmall ep hep hvaddr)) hgave.paths

/-- Memory that is mapped under the PML4. -/
def Reachable (mem : Mem) (pml4 x : Nat) : Prop :=
  ∃ virt l e, translate mem pml4 virt = some (l, e) ∧ pageDown e ≤ x ∧
      x < pageDown e + 0x1000 * 512 ^ l

/-- The cleanup has restored the translations, freed each frame of `frames` once, and
left the memory alone. -/
structure Restores (own : η → List Nat) (m₀ : Machine) (h₀ : η) (pml4 : Nat) (frames : List Nat)
    (r : η × Machine) : Prop where
  translations : ∀ virt, translate r.2.mem pml4 virt = translate m₀.mem pml4 virt
  frames : ∀ f ∈ frames, (popOrder r.2.pmm ++ own r.1).count f = 1
  memory : ∀ x, Reachable m₀.mem pml4 x →
    pageDown x ∉ tables m₀.mem 3 pml4 ++ (popOrder m₀.pmm ++ own h₀) →
    r.2.mem x = m₀.mem x

/-- If no page of the list was mapped before, and no page at address `0` is mapped, the
cleanup restores everything. -/
theorem GaveUp.restores (hgave : GaveUp own m₀ h₀ pml4 s eps) (hsound : K.Sound own)
    (hfresh : ∀ ep ∈ s.pages, ep.vaddr ≠ 0 → translate m₀.mem pml4 ep.vaddr = none)
    (hzero : ∀ ep ∈ eps, ep.vaddr ≠ 0) :
    Restores own m₀ h₀ pml4 (s.pages.map ElfPage.phys)
      (elfCleanup K pml4 s.heap s.machine s.pages) := by
  obtain ⟨htranslate, hframes, hmem, -⟩ :=
    hgave.cleanup_small hsound fun ep hep hvaddr l e he => by
      rw [hfresh ep hep hvaddr] at he
      cases he
  refine ⟨fun virt => ?_, hframes, fun x _ hx => (hmem x hx).trans (hgave.outside hx)⟩
  rw [htranslate virt]
  split
  · rename_i hcleared
    obtain ⟨ep, hep, hvaddr, hpage⟩ := hcleared
    rw [translate_pageNumber hpage, hfresh ep hep hvaddr]
  · rename_i hcleared
    refine hgave.loaded.others virt fun ep hep hpage => hcleared ?_
    exact ⟨ep, hgave.subset hep, hzero ep hep, hpage⟩

/-- The list with a refused page that was mapped in a page table. -/
theorem GaveUp.small_cons (hgave : GaveUp own m₀ h₀ pml4 s eps) (hlist : s.pages = ep :: eps)
    {e : Nat} (hbefore : translate m₀.mem pml4 ep.vaddr = some (0, e)) :
    ∀ e' ∈ s.pages, e'.vaddr ≠ 0 → ∀ l b, translate m₀.mem pml4 e'.vaddr = some (l, b) →
      l = 0 := by
  intro e' he' _ l b hb
  rw [hlist] at he'
  rcases List.mem_cons.mp he' with rfl | he'
  · rw [hbefore] at hb
    cases hb
    rfl
  · rw [hgave.loaded.fresh e' he'] at hb
    cases hb

/-! ## Below a huge mapping -/

/-- A walk that ends further down goes on in the table of its entry. -/
theorem walkFrom_below {mem : Mem} {l t k e : Nat} (hk : k ≠ l + 1)
    (hwalk : walkFrom mem (l + 1) t vaddr = some (k, e)) :
    ∃ c, isPresent (entryAt mem t (virtPath vaddr (l + 1)).val) = true ∧
      pageDown (entryAt mem t (virtPath vaddr (l + 1)).val) = c ∧
      walkFrom mem l c vaddr = some (k, e) := by
  unfold walkFrom at hwalk
  rw [Radix.walk_eq] at hwalk
  unfold pageStore pageSlot at hwalk
  split_ifs at hwalk with hpresent hleaf
  · cases hwalk
    exact absurd rfl hk
  · exact ⟨_, hpresent, rfl, hwalk⟩
  · cases hwalk

/-- A walk that ends where it starts. -/
theorem walkFrom_leaf {mem : Mem} {l t e : Nat} (hwalk : walkFrom mem l t vaddr = some (l, e)) :
    isPresent e = true ∧ entryAt mem t (virtPath vaddr l).val = e := by
  have hslot := Radix.walk_leaf hwalk
  unfold pageStore pageSlot at hslot
  split_ifs at hslot with hpresent
  obtain rfl := Radix.Slot.leaf.inj hslot
  exact ⟨hpresent, rfl⟩

/-- The part of the cleanup of a page that works on the tables can be taken for itself. -/
theorem elfCleanup_cons_clear (hphys : ep.phys ≠ 0) :
    elfCleanup K pml4 h m (ep :: rest) =
      elfCleanup K pml4 h (if ep.vaddr ≠ 0 then clearEntry m pml4 ep.vaddr else m)
        ({ ep with vaddr := 0 } :: rest) := by
  rw [elfCleanup, elfCleanup]
  unfold dropPage
  rw [if_pos hphys, if_pos hphys, if_neg (not_not.mpr rfl)]

/-- The walk of the cleanup goes through a mapping of 2 MiB, and takes the start of the
mapped memory for a page table. -/
theorem clearEntry_huge {e : Nat} (hwalk : translate m.mem pml4 vaddr = some (1, e))
    (hpresent : isPresent (entryAt m.mem (pageDown e) (virtPath vaddr 0).val) = true) :
    clearEntry m pml4 vaddr = m.store (pageDown e + 8 * (virtPath vaddr 0).val) 0 := by
  obtain ⟨t₂, hpml4e, ht₂, hwalk₂⟩ := walkFrom_below (show 1 ≠ 2 + 1 by decide) hwalk
  obtain ⟨t₁, hpdpte, ht₁, hwalk₁⟩ := walkFrom_below (show 1 ≠ 1 + 1 by decide) hwalk₂
  obtain ⟨hpde, hleaf⟩ := walkFrom_leaf hwalk₁
  unfold clearEntry
  rw [show tableIdx 0 vaddr = (virtPath vaddr 3).val from tableIdx_eq (l := 3) (by omega) vaddr,
    show tableIdx 1 vaddr = (virtPath vaddr 2).val from tableIdx_eq (l := 2) (by omega) vaddr,
    show tableIdx 2 vaddr = (virtPath vaddr 1).val from tableIdx_eq (l := 1) (by omega) vaddr,
    show tableIdx 3 vaddr = (virtPath vaddr 0).val from tableIdx_eq (l := 0) (by omega) vaddr]
  dsimp only
  rw [if_pos hpml4e, ht₂, if_pos hpdpte, ht₁, hleaf, if_pos hpde, if_pos hpresent]

/-- A refused page lies in a mapping of 2 MiB, and the word that the cleanup takes for its
entry has the present bit, in a page that is neither a table nor free: the word is `0`
afterwards. -/
theorem GaveUp.stray (hgave : GaveUp own m₀ h₀ pml4 s eps) (hsound : K.Sound own) {e : Nat}
    (hlist : s.pages = ep :: eps) (hvaddr : ep.vaddr ≠ 0)
    (hbefore : translate m₀.mem pml4 ep.vaddr = some (1, e))
    (hpresent : isPresent (entryAt m₀.mem (pageDown e) (virtPath ep.vaddr 0).val) = true)
    (hpage : pageDown e ∉ tables m₀.mem 3 pml4 ++ (popOrder m₀.pmm ++ own h₀)) :
    ¬ Restores own m₀ h₀ pml4 (s.pages.map ElfPage.phys)
      (elfCleanup K pml4 s.heap s.machine s.pages) := by
  intro hrestores
  set i := virtPath ep.vaddr 0 with hi
  set t := pageDown e with htdef
  have ht : t % 0x1000 = 0 := pageDown_aligned e
  have hlt := i.isLt
  have hword :
      pageDown (t + 8 * i.val) ∉ tables m₀.mem 3 pml4 ++ (popOrder m₀.pmm ++ own h₀) := by
    rw [pageDown_of_mem_page ht (by omega) (by omega)]
    exact hpage
  -- The word is as before the load.
  have hsame : entryAt s.machine.mem t i.val = entryAt m₀.mem t i.val :=
    rdLE_congr fun x hlo hhi => hgave.outside (by
      rw [pageDown_of_mem_page ht (by omega) (by omega)]
      exact hpage)
  have hnow : translate s.machine.mem pml4 ep.vaddr = some (1, e) := by
    rw [hgave.loaded.keeps (by rw [hbefore]; simp), hbefore]
  have hclear := clearEntry_huge hnow (hsame.symm ▸ hpresent)
  -- Storing it is no change of the tables.
  have htables : t ∉ tables s.machine.mem 3 pml4 := by
    intro hmem
    obtain ⟨virt, hvirt⟩ := mem_tables_path hmem
    exact hpage (hgave.paths virt hvirt)
  have houtside :
      ∀ x, pageDown x ≠ t → (s.machine.store (t + 8 * i.val) 0).mem x = s.machine.mem x :=
    (pageStore_store (l := 0) s.machine.mem ht (show 0 < 2 ^ 64 by decide)).2.2
  have hkeep : ∀ x, pageDown x ∈ tables s.machine.mem 3 pml4 →
      (s.machine.store (t + 8 * i.val) 0).mem x = s.machine.mem x :=
    fun x hx => houtside x fun heq => htables (heq ▸ hx)
  have hspace :
      Space (s.machine.store (t + 8 * i.val) 0) pml4 (own s.heap) (s.pages.map ElfPage.phys) :=
    hgave.space.congr hkeep (hgave.space.pool.of_perm (List.Perm.refl _)) hgave.space.apart
  have htranslate := hgave.space.translate_congr hkeep
  have hphys : ({ ep with vaddr := 0 } :: eps).map ElfPage.phys = s.pages.map ElfPage.phys := by
    rw [hlist]
    rfl
  obtain ⟨-, -, hmem, -⟩ := hgave.cleanup hsound hspace rfl hphys
    (fun e' he' hne l b hb => by
      rcases List.mem_cons.mp he' with rfl | he'
      · exact absurd rfl hne
      · rw [htranslate] at hb
        exact hgave.loaded.level (hgave.loaded.fresh e' he') hb)
    (fun virt => by
      rw [pathTables_congr hgave.space.tree.aligned hkeep virt]
      exact hgave.paths virt)
  have hep : ep.phys ≠ 0 := (hgave.phys (hlist ▸ List.mem_cons_self)).1.2.1.ne'
  have hreach : Reachable m₀.mem pml4 (t + 8 * i.val) :=
    ⟨ep.vaddr, 1, e, hbefore, Nat.le_add_right _ _, Nat.add_lt_add_left (by omega) t⟩
  have hzero := hrestores.memory _ hreach hword
  rw [hlist, elfCleanup_cons_clear hep, if_pos hvaddr, hclear, hmem _ hword] at hzero
  -- The present bit of the word is gone.
  have hbyte : (s.machine.store (t + 8 * i.val) 0).mem (t + 8 * i.val) = 0 := by
    unfold Machine.store wrLE
    dsimp only
    rw [if_pos ⟨le_refl _, by omega⟩, Nat.zero_div]
    rfl
  have hodd : (m₀.mem (t + 8 * i.val)).toNat % 2 = 1 := by
    unfold isPresent entryAt at hpresent
    rw [rdLE] at hpresent
    have := of_decide_eq_true hpresent
    omega
  rw [← hzero, hbyte] at hodd
  cases hodd

/-! ## `elf_load` -/

/-- The frames that `elf_load` takes for pages. -/
def takenFrames (K : NodeHeap η) (file : ElfFile) (pml4 : Nat) (h : η) (m : Machine) : List Nat :=
  match loadRun K file pml4 h m with
  | none => []
  | some (_, s) => s.pages.map ElfPage.phys

/-- A failed load has undone itself. -/
def Undone (K : NodeHeap η) (own : η → List Nat) (file : ElfFile) (pml4 : Nat) (h : η)
    (m : Machine) : Prop :=
  Restores own m h pml4 (takenFrames K file pml4 h m) (elfLoad K file pml4 h m).2

/-- Every load of the file into the PML4 that returns `0` undoes itself, with any heap and
any frames that are free. -/
def UndoesLoads (file : ElfFile) (mem : Mem) (pml4 : Nat) : Prop :=
  ∀ (η : Type) (K : NodeHeap η) (own : η → List Nat) (h : η) (m : Machine), K.Sound own →
    m.mem = mem → Space m pml4 (own h) [] → (elfLoad K file pml4 h m).1 = 0 →
    Undone K own file pml4 h m

/-- No page that the loader can get to is mapped already, none of the pages that it can
have mapped when it fails is page `0`, and it maps none if the entry point is `0`. -/
structure Undoable (file : ElfFile) (mem : Mem) (pml4 : Nat) : Prop where
  fresh : ∀ hdr ps v, readHdr file = some hdr → Asked file hdr ps v → NewPages mem pml4 ps →
    v ≠ 0 → translate mem pml4 v = none
  zero : ∀ hdr ps, readHdr file = some hdr → MayFail file hdr ps → NewPages mem pml4 ps → 0 ∉ ps
  entry : ∀ hdr ps, readHdr file = some hdr → hdr.e_entry = 0 →
    pagesBefore file hdr hdr.e_phnum = some ps → NewPages mem pml4 ps → ps = []

/-- The loader can get to a page in a huge mapping where the cleanup does no harm that shows:
the mapping is of 1 GiB or more, or it starts with a table, or the word that the cleanup
takes for the entry of the page does not have the present bit. -/
def HugeRefused (file : ElfFile) (mem : Mem) (pml4 : Nat) : Prop :=
  ∃ hdr ps v l e, readHdr file = some hdr ∧ Asked file hdr ps v ∧ NewPages mem pml4 ps ∧ v ≠ 0 ∧
    translate mem pml4 v = some (l + 1, e) ∧ (l = 0 → pageDown e ∈ tables mem 3 pml4 ∨
      isPresent (entryAt mem (pageDown e) (tableIdx 3 v)) = false)

/-- What `elf_load` leaves behind where its loop ends. -/
theorem undone_iff (hrun : loadRun K file pml4 h m = some (ok, s)) :
    Undone K own file pml4 h m ↔ Restores own m h pml4 (s.pages.map ElfPage.phys)
      (if ok then elfFreeNodes K s.heap s.machine s.pages
        else elfCleanup K pml4 s.heap s.machine s.pages) := by
  unfold Undone takenFrames
  rw [elfLoad_afterRun, hrun]
  cases ok <;> exact Iff.rfl

/-- A page that is left at the end has a frame that is not free. -/
theorem not_restores_of_pages (hsound : K.Sound own) (hinv : LoadInv own pml4 s held)
    (hne : s.pages ≠ []) :
    ¬ Restores own m₀ h₀ pml4 (s.pages.map ElfPage.phys)
      (elfFreeNodes K s.heap s.machine s.pages) := by
  intro hrestores
  obtain ⟨ep, hep⟩ := List.exists_mem_of_ne_nil _ hne
  rcases hfree : elfFreeNodes K s.heap s.machine s.pages with ⟨h₁, m₁⟩
  obtain ⟨hinv₁, -⟩ :=
    elfFreeNodes_kept hsound (leavesHeld_kept (fun _ => False) fun _ => True) s.pages hinv
    (fun _ _ _ hfalse => absurd hfalse not_false) hfree
  have hcount := hrestores.frames ep.phys (List.mem_map_of_mem hep)
  rw [hfree] at hcount
  have hmem : ep.phys ∈ popOrder m₁.pmm ++ own h₁ := List.count_pos_iff.mp (hcount ▸ Nat.one_pos)
  exact hinv₁.space.pool.apart _ hmem (List.mem_append_right _ (hinv.pages ep hep).1)

/-- The conditions are enough. -/
theorem Undoable.undoes (hundo : Undoable file m.mem pml4) (hsound : K.Sound own)
    (hspace : Space m pml4 (own h) []) (hzero : (elfLoad K file pml4 h m).1 = 0) :
    Undone K own file pml4 h m := by
  cases hrun : loadRun K file pml4 h m with
  | none =>
    unfold Undone takenFrames
    rw [elfLoad_afterRun, hrun]
    exact ⟨fun _ => rfl, by simp, fun _ _ _ => rfl⟩
  | some r =>
    obtain ⟨ok, s⟩ := r
    obtain ⟨hdr, hhdr, hends⟩ := loadRun_ends hsound hspace
      (fun hdr _ => within_kept own pml4 (popOrder m.pmm ++ own h) m _) (within_start h m) hrun
    have hpml4 : pml4 ≠ 0 := by
      rintro rfl
      cases hrun
    rw [elfLoad_fst hpml4 hhdr hrun] at hzero
    rw [undone_iff hrun]
    cases hends with
    | done hall hloaded =>
      have hnil : s.pages = [] := by
        have hpages := hloaded.pages
        rw [hundo.entry hdr _ hhdr hzero hall hloaded.new] at hpages
        exact List.map_eq_nil_iff.mp hpages
      obtain ⟨held, -, hwithin⟩ := hloaded.load
      have hothers := hloaded.loaded.others
      rw [if_pos rfl, hnil]
      rw [hnil] at hothers
      exact ⟨fun virt => hothers virt (by simp), by simp, fun x _ hx => hwithin.outside x hx⟩
    | header hfails hloaded =>
      rw [if_neg Bool.false_ne_true]
      refine hloaded.gaveUp.restores hsound (fun ep hep _ => hloaded.loaded.fresh ep hep)
        fun ep hep hvaddr => ?_
      exact hundo.zero hdr _ hhdr (.inl hfails) hloaded.new (hvaddr ▸ hloaded.mem_pages.1 ep hep)
    | page hasked hstopped =>
      obtain ⟨eps, hgave, hvaddrs, hlist⟩ := hstopped.gaveUp
      have hloaded := hgave.loaded
      rw [if_neg Bool.false_ne_true]
      refine hgave.restores hsound (fun ep hep hvaddr => ?_) fun ep hep hvaddr => ?_
      · rcases hlist with heq | ⟨e, rfl, heq⟩
        · exact hloaded.fresh ep (heq ▸ hep)
        · rw [heq] at hep
          rcases List.mem_cons.mp hep with rfl | hep
          · exact hundo.fresh hdr _ _ hhdr hasked hstopped.new hvaddr
          · exact hloaded.fresh ep hep
      · refine hundo.zero hdr _ hhdr (.inr ⟨_, hasked⟩) hstopped.new ?_
        exact List.mem_reverse.mp (hvaddrs ▸ hvaddr ▸ List.mem_map_of_mem hep)

/-! ## Loads that are not undone -/

section Loads

variable {mem : Mem}

/-- A load on the given memory, with frames outside of `used` and nodes for the pages `ps`
and `k` more. -/
theorem exists_load (htree : TreeOk mem 3 pml4) (hnull : 0 ∉ tables mem 3 pml4)
    (hhdr : readHdr file = some hdr) (hnew : NewPages mem pml4 ps) (k : Nat) (hk : k ≤ 1)
    (used : List Nat) (hused : used.length ≤ 2 ^ 40) :
    ∃ m, m.mem = mem ∧ Space m pml4 [] [] ∧ (∀ f ∈ popOrder m.pmm ++ [], f ∉ used) ∧
      Supplied (Within (fun _ => []) pml4 (popOrder m.pmm ++ []) m) (ps.length + k) pml4 m
        (startState 0 m) [] (ps.length + k) ∧
      loadRun (limitedHeap (ps.length + k)) file pml4 0 m =
        some (loadSegments (limitedHeap (ps.length + k)) file pml4 hdr hdr.e_phnum 0
          (startState 0 m)) := by
  have hlength := length_le_of_pageNumber hnew.1
  obtain ⟨frames, hframes, happart, hspace⟩ :=
    exists_space htree hused (show 4 * (ps.length + k) ≤ 2 ^ 40 by omega)
  refine ⟨machineWith mem frames, rfl, hspace, fun f hf => ?_, ⟨?_, hnull, rfl, ?_, hframes⟩, ?_⟩
  · rw [List.append_nil] at hf
    exact happart f hf
  · exact loadedUpTo_start hspace (within_start 0 _)
  · rw [List.length_nil, Nat.zero_add]
  · have hpml4 : pml4 ≠ 0 := fun hzero => hnull (hzero ▸ mem_tables_self mem 3 pml4)
    unfold loadRun
    rw [if_neg hpml4, hhdr]
    rfl

/-- A page that is mapped, and that the loader can get to. -/
theorem not_undoes_of_mapped (htree : TreeOk mem 3 pml4) (hnull : 0 ∉ tables mem 3 pml4)
    (hhdr : readHdr file = some hdr) (hasked : Asked file hdr ps v)
    (hnew : NewPages mem pml4 ps) (hv : v ≠ 0) {l e : Nat}
    (hmapped : translate mem pml4 v = some (l, e))
    (hharm : l = 0 ∨ (l = 1 ∧ pageDown e ∉ tables mem 3 pml4 ∧
      isPresent (entryAt mem (pageDown e) (tableIdx 3 v)) = true)) :
    ¬ UndoesLoads file mem pml4 := by
  intro hundoes
  obtain ⟨m, rfl, hspace, happart, hstart, hrun⟩ :=
    exists_load htree hnull hhdr hnew 1 (le_refl 1) [pageDown e] (by simp)
  obtain ⟨ok, t, hload, -, ⟨ep, hep, rfl⟩, -, hstop⟩ := loadSegments_asked hstart
    (within_kept _ pml4 _ m _) hasked hnew rfl
  obtain ⟨rfl, hstopped⟩ := hstop (by rw [hmapped]; simp)
  obtain ⟨e', eps, hvaddr, hcons, hgave⟩ := hstopped.refused hep hmapped
  rw [hload] at hrun
  have hsound := limitedHeap_sound (ps.length + 1)
  rw [← hvaddr] at hmapped hv hharm
  have hpml4 : pml4 ≠ 0 := fun hzero => hnull (hzero ▸ mem_tables_self m.mem 3 pml4)
  have hundone := hundoes Nat _ _ 0 m hsound rfl hspace (by
    rw [elfLoad_fst hpml4 hhdr hrun]
    rfl)
  rw [undone_iff hrun, if_neg Bool.false_ne_true] at hundone
  rcases hharm with rfl | ⟨rfl, hpage, hpresent⟩
  · -- Its entry is cleared.
    obtain ⟨htranslate, -⟩ := hgave.cleanup_small hsound (hgave.small_cons hcons hmapped)
    have hkept := hundone.translations e'.vaddr
    rw [htranslate, if_pos ⟨e', hcons ▸ List.mem_cons_self, hv, rfl⟩, hmapped] at hkept
    cases hkept
  · rw [show tableIdx 3 e'.vaddr = (virtPath e'.vaddr 0).val from
      tableIdx_eq (l := 0) (by omega) e'.vaddr] at hpresent
    refine hgave.stray hsound hcons hv hmapped hpresent (fun hmem => ?_) hundone
    rcases List.mem_append.mp hmem with hmem | hmem
    · exact hpage hmem
    · exact happart _ hmem (List.mem_singleton.mpr rfl)

/-- Page `0` among the pages that are mapped when the loader fails. -/
theorem not_undoes_of_zero (htree : TreeOk mem 3 pml4) (hnull : 0 ∉ tables mem 3 pml4)
    (hhdr : readHdr file = some hdr) (hfail : MayFail file hdr ps)
    (hnew : NewPages mem pml4 ps) (hzero : 0 ∈ ps) : ¬ UndoesLoads file mem pml4 := by
  intro hundoes
  obtain ⟨m, rfl, hspace, -, hstart, hrun⟩ :=
    exists_load htree hnull hhdr hnew 0 (Nat.zero_le 1) [] (by simp)
  obtain ⟨t, hload, hloaded⟩ :=
    loadSegments_fails hstart (within_kept _ pml4 _ m _) hfail hnew rfl
  have hsound := limitedHeap_sound (ps.length + 0)
  rw [hload] at hrun
  have hpml4 : pml4 ≠ 0 := fun hnil => hnull (hnil ▸ mem_tables_self m.mem 3 pml4)
  have hundone := hundoes Nat _ _ 0 m hsound rfl hspace (by
    rw [elfLoad_fst hpml4 hhdr hrun]
    rfl)
  rw [undone_iff hrun, if_neg Bool.false_ne_true] at hundone
  have hgave : GaveUp (fun _ => []) m 0 pml4 t t.pages := hloaded.gaveUp
  obtain ⟨htranslate, -⟩ := hgave.cleanup_small hsound
    fun ep hep _ l e he => by
      rw [hloaded.loaded.fresh ep hep] at he
      cases he
  obtain ⟨ep, hep, hvaddr⟩ := hloaded.mem_pages.2 0 hzero
  have hkept := hundone.translations 0
  rw [htranslate, if_neg ?_, ← hvaddr, hloaded.loaded.fresh ep hep] at hkept
  · obtain ⟨e, he⟩ := hloaded.loaded.mapped ep hep
    rw [hkept] at he
    cases he
  · -- No other page of the list is the same for the tables.
    rintro ⟨e, he, hne, hpage⟩
    have hmem := hloaded.mem_pages.1 e he
    exact hne (List.inj_on_of_nodup_map hloaded.distinct hmem hzero hpage.symm)

/-- A program with the entry point `0` whose pages can all be mapped. -/
theorem not_undoes_of_entry (htree : TreeOk mem 3 pml4) (hnull : 0 ∉ tables mem 3 pml4)
    (hhdr : readHdr file = some hdr) (hentry : hdr.e_entry = 0)
    (hall : pagesBefore file hdr hdr.e_phnum = some ps)
    (hnew : NewPages mem pml4 ps) (hne : ps ≠ []) : ¬ UndoesLoads file mem pml4 := by
  intro hundoes
  obtain ⟨m, rfl, hspace, -, hstart, hrun⟩ :=
    exists_load htree hnull hhdr hnew 0 (Nat.zero_le 1) [] (by simp)
  obtain ⟨t, hload, hsupplied⟩ := loadSegments_supplied (k := 0) hstart
    (within_kept _ pml4 _ m _) hdr.e_phnum (le_refl _) hall hnew rfl
  have hsound := limitedHeap_sound (ps.length + 0)
  rw [hload, Nat.sub_self, loadSegments] at hrun
  have hpml4 : pml4 ≠ 0 := fun hnil => hnull (hnil ▸ mem_tables_self m.mem 3 pml4)
  have hundone := hundoes Nat _ _ 0 m hsound rfl hspace (by
    rw [elfLoad_fst hpml4 hhdr hrun, hentry, ite_self])
  rw [undone_iff hrun, if_pos rfl] at hundone
  obtain ⟨held, hinv, -⟩ := hsupplied.upTo.load
  refine not_restores_of_pages hsound hinv (fun hnil => hne ?_) hundone
  have hpages := hsupplied.upTo.pages
  rw [hnil, List.map_nil] at hpages
  exact List.reverse_eq_nil_iff.mp hpages.symm

end Loads

/-- A file is undone by every load that returns `0` if it is `Undoable`, and otherwise only
if the loader can get to a page in a huge mapping. -/
theorem elfLoad_undone (file : ElfFile) (mem : Mem) (pml4 : Nat) (htree : TreeOk mem 3 pml4)
    (hnull : 0 ∉ tables mem 3 pml4) :
    (Undoable file mem pml4 → UndoesLoads file mem pml4) ∧
      (UndoesLoads file mem pml4 → Undoable file mem pml4 ∨ HugeRefused file mem pml4) := by
  refine ⟨fun hundo η K own h m hsound hmem hspace hzero => ?_, fun hundoes => ?_⟩
  · subst hmem
    exact hundo.undoes hsound hspace hzero
  by_cases hhuge : HugeRefused file mem pml4
  · exact .inr hhuge
  refine .inl ⟨fun hdr ps v hhdr hasked hnew hv => ?_, fun hdr ps hhdr hfail hnew hzero => ?_,
    fun hdr ps hhdr hentry hall hnew => ?_⟩
  · cases hmapped : translate mem pml4 v with
    | none => rfl
    | some b =>
      obtain ⟨l, e⟩ := b
      refine absurd hundoes (not_undoes_of_mapped htree hnull hhdr hasked hnew hv hmapped ?_)
      cases l with
      | zero => exact .inl rfl
      | succ l =>
        right
        by_contra hnot
        refine hhuge ⟨hdr, ps, v, l, e, hhdr, hasked, hnew, hv, hmapped, fun hl => ?_⟩
        by_contra hneither
        rw [not_or, Bool.not_eq_false] at hneither
        exact hnot ⟨by rw [hl], hneither⟩
  · exact not_undoes_of_zero htree hnull hhdr hfail hnew hzero hundoes
  · by_contra hne
    exact not_undoes_of_entry htree hnull hhdr hentry hall hnew hne hundoes

/-- A load that runs out of frames for its tables. -/
theorem elfLoad_undone_short :
    (elfLoad pageHeap (elfFileOf (tinyElf 0x8000000000)) 0x1000 0
        (emptyMachine [0x6000, 0x5000])).1 = 0 ∧
      Undone pageHeap (fun _ => [0x300000]) (elfFileOf (tinyElf 0x8000000000)) 0x1000 0
        (emptyMachine [0x6000, 0x5000]) := by
  have hfails : (elfLoad pageHeap (elfFileOf (tinyElf 0x8000000000)) 0x1000 0
      (emptyMachine [0x6000, 0x5000])).1 = 0 := by decide +kernel
  have hnull : 0 ∉ tables (fun _ => 0) 3 0x1000 := by
    rw [tables_empty]
    decide
  have hundo : Undoable (elfFileOf (tinyElf 0x8000000000)) (fun _ => 0) 0x1000 := by
    refine ⟨fun _ _ _ _ _ _ _ => translate_empty 0x1000 _, fun hdr ps hhdr hfail _ => ?_,
      fun hdr ps hhdr hentry => ?_⟩
    · rcases hfail with hfails | ⟨v, hasked⟩
      · exact absurd hfails (tinyElf_headers hhdr)
      · rw [(tinyElf_asked hhdr hasked).1]
        exact List.not_mem_nil
    · rw [tinyElf_hdr] at hhdr
      cases hhdr
      cases hentry
  exact ⟨hfails, (elfLoad_undone _ _ 0x1000 treeOk_empty hnull).1 hundo Nat pageHeap _ 0 _
    (pageHeap_sound _) rfl (space_empty (by decide) (by decide +kernel) (by decide)) hfails⟩

/-- An address space in which the page of the program is mapped already. -/
def takenMachine : Machine :=
  (vmmMapPage (emptyMachine [0xC000, 0xB000, 0xA000, 0x9000]) 0x1000 0x8000000000 0x7000
    PAGE_USER).2

/-- The load fails, and the page is not mapped any more. -/
theorem takenPage_not_undone :
    ¬ ∀ m, Space m 0x1000 [0x300000] [] →
      (elfLoad pageHeap (elfFileOf (tinyElf 0x8000000000)) 0x1000 0 m).1 = 0 →
      Undone pageHeap (fun _ => [0x300000]) (elfFileOf (tinyElf 0x8000000000)) 0x1000 0 m := by
  intro hclaim
  have hspace : Space takenMachine 0x1000 [0x300000] [] := by
    have hempty : Space (emptyMachine [0xC000, 0xB000, 0xA000, 0x9000]) 0x1000 [0x300000] [] :=
      space_empty (by decide) (by decide +kernel) (by decide)
    obtain ⟨r, m', new, hmap, -, hspace, -⟩ :=
      hempty.map 0x8000000000 (show IsFrame 0x7000 by decide) (show PAGE_USER < 2 ^ 12 by decide)
    unfold takenMachine
    rw [hmap]
    exact hspace
  have hundone := hclaim takenMachine hspace (by decide +kernel)
  have hbefore : (translate takenMachine.mem 0x1000 0x8000000000).isSome = true :=
    by decide +kernel
  have hafter :
      translate (elfLoad pageHeap (elfFileOf (tinyElf 0x8000000000)) 0x1000 0
      takenMachine).2.2.mem 0x1000
      0x8000000000 = none := by decide +kernel
  rw [← hundone.translations, hafter] at hbefore
  cases hbefore

end Lumin.Proc
