import Lumin.Mm.MapPage
import Lumin.Proc.Elf

/-!
# What one page of the loader does

The loader works on a `Space`.  `NodeHeap.Sound` is what it relies on of the kernel
heap, and `PageStep` is what one round of the inner loop does, whether it succeeds or
not.  `PageTaken` is what the round does to the list of pages.  The results about whole
loads are inductions over them.
-/

namespace Lumin.Proc

open Lumin.Lib Lumin.Mm

variable {η : Type}

/-- The heap keeps to the frames `own` that it has from the page allocator. -/
structure NodeHeap.Sound (K : NodeHeap η) (own : η → List Nat) : Prop where
  kmalloc : ∀ h m, PoolOk m (own h) [] →
    HeapStep m (K.kmalloc h m).2.2 (own h) (own (K.kmalloc h m).2.1)
  kfree : ∀ h ptr m, PoolOk m (own h) [] →
    HeapStep m (K.kfree h ptr m).2 (own h) (own (K.kfree h ptr m).1)

/-- The frames that are not in use. -/
def LoadState.pool (s : LoadState η) (own : η → List Nat) : List Nat :=
  popOrder s.machine.pmm ++ own s.heap

/-- The invariant of the loader. -/
structure LoadInv (own : η → List Nat) (pml4 : Nat) (s : LoadState η) (held : List Nat) :
    Prop where
  space : Space s.machine pml4 (own s.heap) held
  pages : ∀ ep ∈ s.pages, ep.phys ∈ held ∧ IsFrame ep.phys
  nodup : (s.pages.map ElfPage.phys).Nodup

/-- What a round of the loader at `vaddr` does. -/
structure PageStep (own : η → List Nat) (pml4 vaddr : Nat) (s s' : LoadState η)
    (held held' : List Nat) : Prop where
  inv : LoadInv own pml4 s' held'
  pool : s'.pool own ⊆ s.pool own
  keeps : held ⊆ held'
  fresh : held' ⊆ held ++ s.pool own
  outside : ∀ x, pageDown x ∉ pathTables s.machine.mem 3 pml4 vaddr → pageDown x ∉ s.pool own →
    s'.machine.mem x = s.machine.mem x
  mono : ∀ virt le, translate s.machine.mem pml4 virt = some le →
    translate s'.machine.mem pml4 virt = some le
  paths : ∀ virt, pathTables s'.machine.mem 3 pml4 virt ⊆ pathTables s.machine.mem 3 pml4 virt ++
    s.pool own
  leaves : ∀ S, LeavesHeld S s.machine pml4 held → LeavesHeld S s'.machine pml4 held'
  slots : ∀ i, pageStore s.machine.mem 3 pml4 i ≠ .absent →
    pageStore s'.machine.mem 3 pml4 i = pageStore s.machine.mem 3 pml4 i
  added : ∀ ep ∈ s'.pages, ep ∈ s.pages ∨ ep.vaddr = vaddr

/-- What a round of the loader at `vaddr` does to the list of pages and to the
translations: a page that gets into the list is mapped, or the round fails. -/
def PageTaken (pml4 vaddr : Nat) (ok : Bool) (s s' : LoadState η) : Prop :=
  (ok = false ∧ s'.pages = s.pages ∧
      ∀ virt, translate s'.machine.mem pml4 virt = translate s.machine.mem pml4 virt) ∨
    ∃ ep, ep.vaddr = vaddr ∧ s'.pages = ep :: s.pages ∧
      ((ok = true ∧
        ∃ leafFlags, MapsOne s.machine.mem s'.machine.mem pml4 vaddr ep.phys leafFlags) ∨
        (ok = false ∧
          ∀ virt, translate s'.machine.mem pml4 virt = translate s.machine.mem pml4 virt))

/-- A page of a segment is mapped, and its frame has what `elf_load` puts there. -/
def Loaded (file : ElfFile) (ph : ElfPhdr) (m : Machine) (pml4 p : Nat) (held : List Nat) :
    Prop :=
  ∃ phys mem, phys ∈ held ∧ IsFrame phys ∧
    translate m.mem pml4 (ph.pageVaddr p) = some (0, phys ||| ph.flags ||| PAGE_PRESENT) ∧
    ∀ x, pageDown x = phys → m.mem x = fillPage file ph mem (ph.pageVaddr p) phys x

variable {K : NodeHeap η} {own : η → List Nat} {file : ElfFile} {ph : ElfPhdr} {pml4 p : Nat}
  {m m' : Machine}
  {s s' s₁ : LoadState η} {held held' : List Nat}

theorem flags_lt (ph : ElfPhdr) : ph.flags < 2 ^ 12 := by
  unfold ElfPhdr.flags
  split <;> decide

/-- A page gets at most a page of the file. -/
theorem chunk_le {vaddr offset size : Nat} (h : ph.chunk vaddr = some (offset, size)) :
    size ≤ 0x1000 := by
  unfold ElfPhdr.chunk at h
  dsimp only at h
  by_cases hin : vaddr ≥ ph.p_vaddr ∧ vaddr < u64 (ph.p_vaddr + ph.p_filesz)
  · rw [if_pos hin] at h
    by_cases hlast : u64 (vaddr + PAGE_SIZE) > u64 (ph.p_vaddr + ph.p_filesz)
    · rw [if_pos hlast] at h
      split at h
      · simp only [Option.some.injEq, Prod.mk.injEq] at h
        unfold u64 PAGE_SIZE at *
        omega
      · cases h
    · rw [if_neg hlast] at h
      split at h
      · simp only [Option.some.injEq, Prod.mk.injEq] at h
        exact h.2.ge
      · cases h
  · rw [if_neg hin] at h
    cases h

/-- Filling a page writes to this page. -/
theorem fillPage_outside {mem : Mem} {vaddr phys x : Nat} (hphys : phys % 0x1000 = 0)
    (hx : pageDown x ≠ phys) :
    fillPage file ph mem vaddr phys x = mem x := by
  have hrange : ¬ (phys ≤ x ∧ x < phys + 0x1000) :=
    fun h => hx (pageDown_of_mem_page hphys h.1 h.2)
  have hzero : zeroFill mem phys PAGE_SIZE x = mem x := by
    unfold PAGE_SIZE
    exact zeroFill_of_not hrange
  unfold fillPage
  cases hchunk : ph.chunk vaddr with
  | none => exact hzero
  | some c =>
    obtain ⟨offset, size⟩ := c
    have hsize := chunk_le hchunk
    have hlen := file.read_le offset size
    dsimp only
    unfold wrBytes
    rw [if_neg (by omega)]
    exact hzero

theorem LoadInv.poolOk (h : LoadInv own pml4 s held) : PoolOk s.machine (own s.heap) [] :=
  h.space.pool.of_subset (List.nil_subset _)

/-- The slots of the PML4 depend on the pages of the tables only. -/
theorem LoadInv.slots_congr {mem : Mem} (h : LoadInv own pml4 s held)
    (hsame : ∀ x, pageDown x ∈ tables s.machine.mem 3 pml4 → mem x = s.machine.mem x)
    (i : Fin 512) : pageStore mem 3 pml4 i = pageStore s.machine.mem 3 pml4 i := by
  have hroot := mem_tables_self s.machine.mem 3 pml4
  exact agree_of_page (h.space.tree.aligned pml4 hroot) (fun x hx => hsame x (hx ▸ hroot)) 3 i

/-- The heap leaves the translations alone. -/
theorem LoadInv.heap_translate {h' : η} (h : LoadInv own pml4 s held)
    (hstep : HeapStep s.machine m' (own s.heap) (own h')) (virt : Nat) :
    translate m'.mem pml4 virt = translate s.machine.mem pml4 virt :=
  h.space.translate_congr (h.space.heapStep hstep).2.1 virt

/-- A step of the heap is a round that maps nothing. -/
theorem PageStep.heap {h' : η} (vaddr : Nat) (h : LoadInv own pml4 s held)
    (hstep : HeapStep s.machine m' (own s.heap) (own h')) :
    PageStep own pml4 vaddr s { s with heap := h', machine := m' } held held := by
  obtain ⟨hspace, htables, hheld⟩ := h.space.heapStep hstep
  have htranslate := h.space.translate_congr htables
  refine ⟨⟨hspace, h.pages, h.nodup⟩, hstep.frames.subset, fun _ hf => hf,
    List.subset_append_left _ _,
    fun x _ hpool => ?_, fun virt le hle => ?_, fun virt => ?_,
      fun S hleaves => hleaves.congr htranslate, fun i _ => h.slots_congr htables i,
    fun ep hep => .inl hep⟩
  · refine hstep.outside x (fun hown => hpool (List.mem_append_right _ hown)) fun hown => hpool ?_
    exact hstep.frames.subset (List.mem_append_right _ hown)
  · exact (htranslate virt).trans hle
  · rw [pathTables_congr h.space.tree.aligned htables virt]
    exact List.subset_append_left _ _

theorem PageStep.trans {held₁ : List Nat} {vaddr : Nat}
    (h : PageStep own pml4 vaddr s s₁ held held₁)
    (h' : PageStep own pml4 vaddr s₁ s' held₁ held') :
    PageStep own pml4 vaddr s s' held held' := by
  refine ⟨h'.inv, fun f hf => h.pool (h'.pool hf), fun f hf => h'.keeps (h.keeps hf),
    fun f hf => ?_,
    fun x hx hpool => ?_, fun virt le hle => h'.mono virt le (h.mono virt le hle),
      fun virt f hf => ?_,
    fun S hleaves => h'.leaves S (h.leaves S hleaves), fun i hi => ?_, fun ep hep => ?_⟩
  · rcases List.mem_append.mp (h'.fresh hf) with hf | hf
    · exact h.fresh hf
    · exact List.mem_append_right _ (h.pool hf)
  · rw [h'.outside x (fun hmem => ?_) fun hmem => hpool (h.pool hmem), h.outside x hx hpool]
    rcases List.mem_append.mp (h.paths vaddr hmem) with hmem | hmem
    · exact hx hmem
    · exact hpool hmem
  · rcases List.mem_append.mp (h'.paths virt hf) with hf | hf
    · exact h.paths virt hf
    · exact List.mem_append_right _ (h.pool hf)
  · have hslot := h.slots i hi
    exact (h'.slots i (hslot.symm ▸ hi)).trans hslot
  · rcases h'.added ep hep with hep | hep
    · exact h.added ep hep
    · exact .inr hep

/-- A round leaves the held frames alone. -/
theorem PageStep.held_mem {vaddr x : Nat} (hstep : PageStep own pml4 vaddr s s' held held')
    (hinv : LoadInv own pml4 s held) (hx : pageDown x ∈ held) :
    s'.machine.mem x = s.machine.mem x := by
  refine hstep.outside x (fun hmem => ?_) fun hmem => ?_
  · exact hinv.space.apart _ hx (pathTables_subset hmem)
  · exact hinv.space.pool.apart _ hmem (List.mem_append_right _ hx)

/-- What is loaded stays loaded. -/
theorem Loaded.keep {vaddr : Nat} (h : Loaded file ph s.machine pml4 p held)
    (hinv : LoadInv own pml4 s held)
    (hstep : PageStep own pml4 vaddr s s' held held') :
    Loaded file ph s'.machine pml4 p held' := by
  obtain ⟨phys, mem, hphys, hframe, htranslate, hbytes⟩ := h
  refine ⟨phys, mem, hstep.keeps hphys, hframe, hstep.mono _ _ htranslate, fun x hx => ?_⟩
  rw [← hbytes x hx]
  exact hstep.held_mem hinv (hx ▸ hphys)

/-- A frame is taken, and nothing but its page is written. -/
structure FrameTaken (pml4 : Nat) (s : LoadState η) (held : List Nat) (phys : Nat) (m : Machine) :
    Prop where
  frame : IsFrame phys
  notHeld : phys ∉ held
  noTable : phys ∉ tables s.machine.mem 3 pml4
  popped : popOrder s.machine.pmm = phys :: popOrder m.pmm
  outside : ∀ x, pageDown x ≠ phys → m.mem x = s.machine.mem x

/-- The table pages are as they were before the frame was taken. -/
theorem FrameTaken.tables {phys : Nat} (h : FrameTaken pml4 s held phys m) :
    ∀ x, pageDown x ∈ tables s.machine.mem 3 pml4 → m.mem x = s.machine.mem x :=
  fun x hx => h.outside x fun heq => h.noTable (heq ▸ hx)

theorem FrameTaken.translate {phys : Nat} (h : FrameTaken pml4 s held phys m)
    (hinv : LoadInv own pml4 s held)
    (virt : Nat) : Mm.translate m.mem pml4 virt = Mm.translate s.machine.mem pml4 virt :=
  walkFrom_congr hinv.space.tree.aligned h.tables

theorem FrameTaken.paths {phys : Nat} (h : FrameTaken pml4 s held phys m)
    (hinv : LoadInv own pml4 s held)
    (virt : Nat) : pathTables m.mem 3 pml4 virt = pathTables s.machine.mem 3 pml4 virt :=
  pathTables_congr hinv.space.tree.aligned h.tables virt

/-- A frame that is taken and mapped is a round, whether the mapping succeeds or not. -/
theorem PageStep.mapped {phys vaddr leafFlags : Nat} {r : Int} {new : List Nat} (ep : Nat)
    (hinv : LoadInv own pml4 s held)
    (h : FrameTaken pml4 s held phys m) (hflags : leafFlags < 2 ^ 12)
    (hspace : Space m pml4 (own s.heap) (phys :: held)) (hext : Extended m m' 3 pml4 vaddr new)
    (hspace' : Space m' pml4 (own s.heap) (phys :: held))
    (hres : (r = 0 ∧ translate m.mem pml4 vaddr = none ∧
        translate m'.mem pml4 vaddr = some (0, phys ||| leafFlags ||| PAGE_PRESENT)) ∨
      (r = -1 ∧ ∀ virt', translate m'.mem pml4 virt' = translate m.mem pml4 virt')) :
    PageStep own pml4 vaddr s
      { s with
        machine := m'
        pages := { node := ep, vaddr := vaddr, phys := phys } :: s.pages
        pageCount := s.pageCount + 1 } held (phys :: held) := by
  have hleaves : ∀ S, LeavesHeld S s.machine pml4 held → LeavesHeld S m' pml4 (phys :: held) := by
    intro S h₁
    have hleaves₃ : LeavesHeld S m pml4 (phys :: held) :=
      (h₁.of_subset (List.subset_cons_self phys held)).congr (h.translate hinv)
    rcases hres with ⟨-, -, hsome⟩ | ⟨-, hsame⟩
    · exact hleaves₃.map hext h.frame hflags (by simp) hsome
    · exact hleaves₃.congr hsame
  have hmono : ∀ virt le, translate s.machine.mem pml4 virt = some le →
      translate m'.mem pml4 virt = some le := by
    intro virt le hle
    rw [← h.translate hinv] at hle
    rcases hres with ⟨-, hnone, -⟩ | ⟨-, hsame⟩
    · exact hext.translate_mono hnone hle
    · rw [hsame virt]
      exact hle
  have hphysPool : phys ∈ popOrder s.machine.pmm := by
    rw [h.popped]
    exact List.mem_cons_self
  have hnewPool : ∀ f ∈ new, f ∈ popOrder s.machine.pmm := by
    intro f hf
    rw [h.popped]
    exact List.mem_cons_of_mem phys (hext.mem_free hf)
  have hpool' : ∀ f ∈ popOrder m'.pmm, f ∈ popOrder s.machine.pmm := by
    intro f hf
    rw [h.popped, hext.popped]
    exact List.mem_cons_of_mem phys (List.mem_append_right _ hf)
  refine ⟨⟨hspace', fun e he => ?_, ?_⟩, fun f hf => ?_, List.subset_cons_self _ _,
    fun f hf => ?_,
    fun x hx hpool => ?_, hmono, fun virt f hf => ?_, hleaves, fun i hi => ?_, fun e he => ?_⟩
  · rcases List.mem_cons.mp he with rfl | he
    · exact ⟨by simp, h.frame⟩
    · exact ⟨List.mem_cons_of_mem phys (hinv.pages e he).1, (hinv.pages e he).2⟩
  · rw [List.map_cons, List.nodup_cons]
    refine ⟨fun hmem => ?_, hinv.nodup⟩
    obtain ⟨e, he, heq⟩ := List.mem_map.mp hmem
    have heq' : e.phys = phys := heq
    exact h.notHeld (heq' ▸ (hinv.pages e he).1)
  · rcases List.mem_append.mp hf with hf | hf
    · exact List.mem_append_left _ (hpool' f hf)
    · exact List.mem_append_right _ hf
  · rcases List.mem_cons.mp hf with rfl | hf
    · exact List.mem_append_right _ (List.mem_append_left _ hphysPool)
    · exact List.mem_append_left _ hf
  · have hne : pageDown x ≠ phys := fun heq => hpool (heq ▸ List.mem_append_left _ hphysPool)
    have hx' : pageDown x ∉ pathTables m.mem 3 pml4 vaddr := by
      rw [h.paths hinv]
      exact hx
    show m'.mem x = s.machine.mem x
    rw [hext.outside x hx' fun hmem => hpool (List.mem_append_left _ (hnewPool _ hmem)),
      h.outside x hne]
  · rcases List.mem_append.mp (hext.paths virt hf) with hf | hf
    · rw [h.paths hinv] at hf
      exact List.mem_append_left _ hf
    · exact List.mem_append_right _ (List.mem_append_left _ (hnewPool f hf))
  · have hslot := hinv.slots_congr h.tables i
    exact (hext.slots i (hslot.symm ▸ hi)).trans hslot
  · rcases List.mem_cons.mp he with rfl | he
    · exact .inr rfl
    · exact .inl he

/-- One round of the loader. -/
theorem loadPage_spec (hsound : K.Sound own) (h : LoadInv own pml4 s held) (file : ElfFile)
    (ph : ElfPhdr) (p : Nat) :
    ∃ ok s' held', loadPage K file pml4 ph p s = (ok, s') ∧
        PageStep own pml4 (ph.pageVaddr p) s s' held held' ∧
      PageTaken pml4 (ph.pageVaddr p) ok s s' ∧
        (ok = true → Loaded file ph s'.machine pml4 p held') := by
  unfold loadPage
  have hheap := hsound.kmalloc s.heap s.machine h.poolOk
  have hmalloc := PageStep.heap (ph.pageVaddr p) h hheap
  have hsame := h.heap_translate hheap
  rcases hk : K.kmalloc s.heap s.machine with ⟨ep, h₁, m₁⟩
  rw [hk] at hmalloc hsame
  dsimp only at hmalloc hsame ⊢
  by_cases hep : ep = 0
  · rw [if_pos hep]
    exact ⟨false, _, held, rfl, hmalloc, .inl ⟨rfl, rfl, hsame⟩, by simp⟩
  rw [if_neg hep]
  have hinv₁ := hmalloc.inv
  rcases hinv₁.space.alloc with ⟨halloc, -⟩ | ⟨phys, m₂, halloc, hframe, hheld, htables, hmem,
      hpop, hspace⟩
  · -- No frame: the node goes back.
    dsimp only at halloc
    rw [halloc]
    dsimp only
    rw [if_pos rfl]
    have hheap₁ := hsound.kfree h₁ ep m₁ hinv₁.poolOk
    have hfree := PageStep.heap (ph.pageVaddr p) hinv₁ hheap₁
    refine ⟨false, _, held, rfl, hmalloc.trans hfree, .inl ⟨rfl, rfl, fun virt => ?_⟩, by simp⟩
    exact (hinv₁.heap_translate hheap₁ virt).trans (hsame virt)
  · dsimp only at halloc hmem hpop htables hspace
    rw [halloc]
    dsimp only
    rw [if_neg hframe.2.1.ne']
    set vaddr := ph.pageVaddr p with hvaddr
    have houtside : ∀ x, pageDown x ≠ phys → fillPage file ph m₂.mem vaddr phys x = m₂.mem x :=
      fun x hx => fillPage_outside hframe.1 hx
    have htaken : FrameTaken pml4 { s with heap := h₁, machine := m₁ } held phys
        { m₂ with mem := fillPage file ph m₂.mem vaddr phys } :=
      ⟨hframe, hheld, htables, hpop, fun x hx => (houtside x hx).trans (congrFun hmem x)⟩
    have hspace₃ := hspace.write (by simp) houtside
    obtain ⟨r, m', new, hmap, hext, hspace', hkeep, hres⟩ :=
      hspace₃.map vaddr hframe (flags_lt ph)
    rw [hmap]
    have hbefore :
        ∀ virt, translate (fillPage file ph m₂.mem vaddr phys) pml4 virt =
        translate s.machine.mem pml4 virt :=
      fun virt => (htaken.translate hinv₁ virt).trans (hsame virt)
    have hstep := PageStep.mapped ep hinv₁ htaken (flags_lt ph) hspace₃ hext hspace' hres
    refine ⟨decide (r = 0), _, phys :: held, rfl, hmalloc.trans hstep, .inr ⟨_, rfl, rfl, ?_⟩,
      fun hok => ?_⟩
    · rcases hres with ⟨hr, hnone, hsome⟩ | ⟨hr, hkept⟩
      · refine .inl ⟨decide_eq_true hr, ph.flags, (hbefore vaddr).symm.trans hnone, hsome,
          fun virt' hne => ?_⟩
        exact (hext.walks virt' (exists_virtPath_ne hne)).trans (hbefore virt')
      · refine .inr ⟨?_, fun virt => (hkept virt).trans (hbefore virt)⟩
        rw [hr]
        rfl
    · rcases hres with ⟨-, -, hsome⟩ | ⟨hr, -⟩
      · refine ⟨phys, m₂.mem, by simp, hframe, hsome, fun x hx => ?_⟩
        exact hkeep x (hx ▸ List.mem_cons_self)
      · rw [hr] at hok
        cases hok

/-! ## Whole loads -/

section Runs

variable {hdr : ElfHdr} {ok : Bool} {h h' : η} {P : LoadState η → List Nat → Prop}

/-- A property that every round keeps, and every step of the heap. -/
structure Kept (own : η → List Nat) (pml4 : Nat) (ok : Nat → Prop) (P : LoadState η → List Nat →
    Prop) : Prop where
  page : ∀ {vaddr s s' held held'}, ok vaddr → LoadInv own pml4 s held → P s held →
    PageStep own pml4 vaddr s s' held held' → P s' held'
  heap : ∀ {s held h' m'}, LoadInv own pml4 s held → P s held →
    HeapStep s.machine m' (own s.heap) (own h') →
    P { s with heap := h', machine := m' } held

/-- The pages of a segment. -/
def SegmentPage (ph : ElfPhdr) (vaddr : Nat) : Prop :=
  ∃ p < ph.pagesNeeded, vaddr = ph.pageVaddr p

/-- The pages of the segments that the file has. -/
def FilePage (file : ElfFile) (hdr : ElfHdr) (vaddr : Nat) : Prop :=
  ∃ i < hdr.e_phnum, ∃ ph, readPhdr file hdr i = some ph ∧ ph.p_type = PT_LOAD ∧
      SegmentPage ph vaddr

theorem Kept.and {ok : Nat → Prop} {Q : LoadState η → List Nat → Prop} (hP : Kept own pml4 ok P)
    (hQ : Kept own pml4 ok Q) : Kept own pml4 ok fun s held => P s held ∧ Q s held :=
  ⟨fun hok hinv h hstep => ⟨hP.page hok hinv h.1 hstep, hQ.page hok hinv h.2 hstep⟩,
    fun hinv h hstep => ⟨hP.heap hinv h.1 hstep, hQ.heap hinv h.2 hstep⟩⟩

theorem loaded_kept (file : ElfFile) (ph : ElfPhdr) (p : Nat) (ok : Nat → Prop) :
    Kept own pml4 ok fun s held => Loaded file ph s.machine pml4 p held :=
  ⟨fun _ hinv h hstep => h.keep hinv hstep,
    fun hinv h hstep => h.keep hinv (PageStep.heap 0 hinv hstep)⟩

/-- What is mapped stays held. -/
theorem leavesHeld_kept (S : Nat → Prop) (ok : Nat → Prop) :
    Kept own pml4 ok fun s held => LeavesHeld S s.machine pml4 held :=
  ⟨fun _ _ h hstep => hstep.leaves S h,
    fun hinv h hstep => (PageStep.heap 0 hinv hstep).leaves S h⟩

/-- A held frame keeps its bytes. -/
theorem heldFrame_kept (f : Nat) (m₀ : Machine) (ok : Nat → Prop) :
    Kept own pml4 ok fun s held => f ∈ held ∧
      ∀ x, pageDown x = f → s.machine.mem x = m₀.mem x := by
  have hkeep :
      ∀ {vaddr : Nat} {s s' : LoadState η} {held held' : List Nat}, LoadInv own pml4 s held →
      (f ∈ held ∧ ∀ x, pageDown x = f → s.machine.mem x = m₀.mem x) →
        PageStep own pml4 vaddr s s' held held' →
      f ∈ held' ∧ ∀ x, pageDown x = f → s'.machine.mem x = m₀.mem x := by
    intro vaddr s s' held held' hinv hP hstep
    refine ⟨hstep.keeps hP.1, fun x hx => ?_⟩
    rw [hstep.held_mem hinv (hx ▸ hP.1), hP.2 x hx]
  exact ⟨fun _ hinv hP hstep => hkeep hinv hP hstep,
    fun hinv hP hstep => hkeep hinv hP (PageStep.heap 0 hinv hstep)⟩

/-- The inner loop: what the rounds keep is kept, and when the loop gets through, its
pages are loaded. -/
theorem loadPages_spec (hsound : K.Sound own) (hkept : Kept own pml4 (SegmentPage ph) P)
    {n p : Nat}
    (hn : p + n ≤ ph.pagesNeeded) (hinv : LoadInv own pml4 s held) (hP : P s held)
    (heq : loadPages K file pml4 ph n p s = (ok, s')) :
    ∃ held', LoadInv own pml4 s' held' ∧ P s' held' ∧
      (ok = true → ∀ q, p ≤ q → q < p + n → Loaded file ph s'.machine pml4 q held') := by
  induction n generalizing p s held P with
  | zero =>
    cases heq
    exact ⟨held, hinv, hP, fun _ q hlo hhi => by omega⟩
  | succ n ih =>
    obtain ⟨ok₁, s₁, held₁, hload, hstep, -, hloaded⟩ := loadPage_spec hsound hinv file ph p
    have hP₁ : P s₁ held₁ := hkept.page ⟨p, by omega, rfl⟩ hinv hP hstep
    rw [loadPages, hload] at heq
    cases ok₁ with
    | false =>
      cases heq
      exact ⟨held₁, hstep.inv, hP₁, by simp⟩
    | true =>
      -- The rest keeps page `p` as well.
      obtain ⟨held', hinv', ⟨hP', hpage⟩, hrest⟩ :=
        ih (hkept.and (loaded_kept file ph p _)) (by omega) hstep.inv ⟨hP₁, hloaded rfl⟩ heq
      refine ⟨held', hinv', hP', fun hok q hlo hhi => ?_⟩
      rcases Nat.lt_or_ge p q with hlt | hge
      · exact hrest hok q hlt (by omega)
      · obtain rfl : q = p := by omega
        exact hpage

/-- All pages of a segment are loaded. -/
def SegmentLoaded (file : ElfFile) (ph : ElfPhdr) (m : Machine) (pml4 : Nat) (held : List Nat) :
    Prop :=
  ∀ p < ph.pagesNeeded, Loaded file ph m pml4 p held

theorem segmentLoaded_kept (file : ElfFile) (ph : ElfPhdr) (ok : Nat → Prop) :
    Kept own pml4 ok fun s held => SegmentLoaded file ph s.machine pml4 held :=
  ⟨fun hok hinv h hstep p hp => (loaded_kept file ph p ok).page hok hinv (h p hp) hstep,
    fun hinv h hstep p hp => (loaded_kept file ph p ok).heap hinv (h p hp) hstep⟩

/-- The outer loop in the same way. -/
theorem loadSegments_spec (hsound : K.Sound own) (hkept : Kept own pml4 (FilePage file hdr) P)
    {n i : Nat}
    (hn : i + n ≤ hdr.e_phnum) (hinv : LoadInv own pml4 s held) (hP : P s held)
    (heq : loadSegments K file pml4 hdr n i s = (ok, s')) :
    ∃ held', LoadInv own pml4 s' held' ∧ P s' held' ∧
      (ok = true → ∀ j ph, i ≤ j → j < i + n → readPhdr file hdr j = some ph →
        ph.p_type = PT_LOAD →
        SegmentLoaded file ph s'.machine pml4 held') := by
  induction n generalizing i s held P with
  | zero =>
    cases heq
    exact ⟨held, hinv, hP, fun _ j ph hlo hhi => by omega⟩
  | succ n ih =>
    rw [loadSegments] at heq
    cases hph : readPhdr file hdr i with
    | none =>
      rw [hph] at heq
      cases heq
      exact ⟨held, hinv, hP, by simp⟩
    | some ph =>
      rw [hph] at heq
      dsimp only at heq
      by_cases htype : ph.p_type ≠ PT_LOAD
      · rw [if_pos htype] at heq
        obtain ⟨held', hinv', hP', hrest⟩ := ih hkept (by omega) hinv hP heq
        refine ⟨held', hinv', hP', fun hok j ph' hlo hhi hread hload => ?_⟩
        rcases Nat.lt_or_ge i j with hlt | hge
        · exact hrest hok j ph' hlt (by omega) hread hload
        · obtain rfl : j = i := by omega
          rw [hph] at hread
          cases hread
          exact absurd hload htype
      rw [if_neg htype] at heq
      split at heq
      · cases heq
        exact ⟨held, hinv, hP, by simp⟩
      · have hsegment : Kept own pml4 (SegmentPage ph) P :=
          ⟨fun hok => hkept.page ⟨i, by omega, ph, hph, not_not.mp htype, hok⟩, hkept.heap⟩
        rcases hload : loadPages K file pml4 ph ph.pagesNeeded 0 s with ⟨ok₁, s₁⟩
        obtain ⟨held₁, hinv₁, hP₁, hpages⟩ :=
          loadPages_spec hsound hsegment (by omega) hinv hP hload
        rw [hload] at heq
        cases ok₁ with
        | false =>
          cases heq
          exact ⟨held₁, hinv₁, hP₁, by simp⟩
        | true =>
          have hmine : SegmentLoaded file ph s₁.machine pml4 held₁ :=
            fun p hp => hpages rfl p (Nat.zero_le p) (by omega)
          obtain ⟨held', hinv', ⟨hP', hsame⟩, hrest⟩ :=
            ih (hkept.and (segmentLoaded_kept file ph _)) (by omega) hinv₁ ⟨hP₁, hmine⟩ heq
          refine ⟨held', hinv', hP', fun hok j ph' hlo hhi hread hload => ?_⟩
          rcases Nat.lt_or_ge i j with hlt | hge
          · exact hrest hok j ph' hlt (by omega) hread hload
          · obtain rfl : j = i := by omega
            rw [hph] at hread
            cases hread
            exact hsame

/-- Freeing the nodes is a sequence of steps of the heap. -/
theorem elfFreeNodes_kept (hsound : K.Sound own) {ok : Nat → Prop} (hkept : Kept own pml4 ok P)
    (eps : List ElfPage)
    (hinv : LoadInv own pml4 s held) (hP : P s held)
    (heq : elfFreeNodes K s.heap s.machine eps = (h', m')) :
    LoadInv own pml4 { s with heap := h', machine := m' } held ∧
      P { s with heap := h', machine := m' } held := by
  induction eps generalizing s with
  | nil =>
    cases heq
    exact ⟨hinv, hP⟩
  | cons ep rest ih =>
    rw [elfFreeNodes] at heq
    have hstep := hsound.kfree s.heap ep.node s.machine hinv.poolOk
    rcases hfree : K.kfree s.heap ep.node s.machine with ⟨h₁, m₁⟩
    rw [hfree] at heq hstep
    dsimp only at heq hstep
    have hinv₁ := (PageStep.heap 0 hinv hstep).inv
    have hP₁ : P { s with heap := h₁, machine := m₁ } held := hkept.heap hinv hP hstep
    have hrest := ih hinv₁ hP₁ heq
    exact hrest

/-- What a load that returns an entry point has done. -/
theorem elfLoad_loaded (hsound : K.Sound own) (hkept : ∀ hdr, Kept own pml4 (FilePage file hdr) P)
    (hspace : Space m pml4 (own h) held)
    (hP : P { heap := h, machine := m, pages := [], pageCount := 0 } held) {entry : Nat}
    (hentry : entry ≠ 0)
    (heq : elfLoad K file pml4 h m = (entry, h', m')) :
    ∃ hdr held' pages count, readHdr file = some hdr ∧ Space m' pml4 (own h') held' ∧
      P { heap := h', machine := m', pages := pages, pageCount := count } held' ∧
      ∀ i ph, i < hdr.e_phnum → readPhdr file hdr i = some ph → ph.p_type = PT_LOAD →
        SegmentLoaded file ph m' pml4 held' := by
  unfold elfLoad at heq
  split at heq
  · cases heq
    exact absurd rfl hentry
  cases hhdr : readHdr file with
  | none =>
    rw [hhdr] at heq
    cases heq
    exact absurd rfl hentry
  | some hdr =>
    rw [hhdr] at heq
    dsimp only at heq
    have hinv : LoadInv own pml4 { heap := h, machine := m, pages := [], pageCount := 0 } held :=
      ⟨hspace, by simp, by simp⟩
    rcases hload : loadSegments K file pml4 hdr hdr.e_phnum 0
      { heap := h, machine := m, pages := [], pageCount := 0 } with ⟨ok, s⟩
    obtain ⟨held', hinv', hP', hsegments⟩ :=
      loadSegments_spec hsound (hkept hdr) (by omega) hinv hP hload
    rw [hload] at heq
    cases ok with
    | false => exact absurd (congrArg Prod.fst heq).symm hentry
    | true =>
      dsimp only at heq
      rcases hfree : elfFreeNodes K s.heap s.machine s.pages with ⟨h₁, m₁⟩
      rw [hfree] at heq
      cases heq
      -- The segments stay loaded while the nodes are freed.
      have hall : Kept own pml4 (FilePage file hdr) fun s held => P s held ∧
          ∀ i ph, i < hdr.e_phnum → readPhdr file hdr i = some ph → ph.p_type = PT_LOAD →
            SegmentLoaded file ph s.machine pml4 held :=
        (hkept hdr).and
          ⟨fun hok hinv h hstep i ph hi hread hload =>
              (segmentLoaded_kept file ph _).page hok hinv (h i ph hi hread hload) hstep,
            fun hinv h hstep i ph hi hread hload =>
              (segmentLoaded_kept file ph (FilePage file hdr)).heap hinv
                (h i ph hi hread hload) hstep⟩
      obtain ⟨hinv₁, hP₁, hsegments₁⟩ := elfFreeNodes_kept hsound hall s.pages hinv'
        ⟨hP', fun i ph hi hread hload => hsegments rfl i ph (Nat.zero_le i)
          (by omega) hread hload⟩ hfree
      exact ⟨hdr, held', s.pages, s.pageCount, rfl, hinv₁.space, hP₁, hsegments₁⟩

end Runs

/-! ## A small program -/

/-- A page of the kernel heap whose first block is taken, with nodes after it. -/
def pageHeap : NodeHeap Nat where
  kmalloc n m := if n < 84 then (0x300048 + 48 * n, n + 1, m) else (0, n, m)
  kfree n _ m := (n, m)

theorem pageHeap_sound (frames : List Nat) : pageHeap.Sound fun _ => frames := by
  refine ⟨fun h m _ => ?_, fun h ptr m _ => ⟨List.Perm.refl _, fun _ _ _ => rfl⟩⟩
  unfold pageHeap
  dsimp only
  split <;> exact ⟨List.Perm.refl _, fun _ _ _ => rfl⟩

/-- A file of the given bytes. -/
def elfFileOf (bs : List UInt8) : ElfFile where
  read offset size := ((((bs.drop offset).take size).length : Int), (bs.drop offset).take size)
  read_le _ size := List.length_take_le size _

/-- An executable with one segment, whose four bytes are the magic number. -/
def tinyElf (vaddr : Nat) : List UInt8 :=
  [0x7F, 0x45, 0x4C, 0x46, 2, 1, 1, 0, 0, 0, 0, 0, 0, 0, 0, 0, 2, 0, 62, 0, 1, 0, 0, 0,
    0, 0, 0, 0, 0x80, 0, 0, 0, 64, 0, 0, 0, 0, 0, 0, 0, 0, 0, 0, 0, 0, 0, 0, 0,
    0, 0, 0, 0, 64, 0, 56, 0, 1, 0, 0, 0, 0, 0, 0, 0] ++
  [1, 0, 0, 0, 5, 0, 0, 0, 0, 0, 0, 0, 0, 0, 0, 0] ++
    ((List.range 8).map fun i => UInt8.ofNat (vaddr / 256 ^ i)) ++
  [0, 0, 0, 0, 0, 0, 0, 0, 4, 0, 0, 0, 0, 0, 0, 0, 4, 0, 0, 0, 0, 0, 0, 0, 0, 16, 0, 0, 0, 0, 0,
    0]

/-- Its program header. -/
def tinyPhdr (vaddr : Nat) : ElfPhdr :=
  { p_type := PT_LOAD, p_flags := 5, p_offset := 0, p_vaddr := vaddr, p_filesz := 4,
    p_memsz := 4 }

def tinyHdr : ElfHdr :=
  { magic := ELF_MAGIC, ident4 := ELF_64, ident5 := ELF_LE, e_type := ELF_EXEC,
    e_entry := 0x8000000000,
    e_phoff := 64, e_phentsize := PHDR_SIZE, e_phnum := 1 }

/-- The machine that loads it. -/
def loadMachine : Machine := emptyMachine [0x6000, 0x5000, 0x4000, 0x3000, 0x2000]

end Lumin.Proc
