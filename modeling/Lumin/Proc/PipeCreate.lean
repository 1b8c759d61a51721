import Lumin.Mm.FreeCount
import Lumin.Mm.HeapSeparation
import Lumin.Proc.DescriptorTables

/-!
# A pipe that is not created

A model of `vfs_pipe_create` of `kernel/fs/pipefs.c` with the frames it takes: the one of
the pipe, and the one that `kmalloc` may take for the inode.  The free lists are those in
memory, because the counters of the pipe lie behind its frame: they overwrite the link of
the next page.  The headers of the kernel heap are a list beside the memory.

* Two calls of `vfs_alloc_file` return the same slot, so a pipe needs one.
* A page that `kmalloc` took for the inode stays with the heap.
* `vfsPipeCreate_clean_iff` says after which failures nothing is left behind.
-/

namespace Lumin.Proc

open Lumin.Fs Lumin.Lib Lumin.Mm
open FreeList (FreeLists Represents OnList)

/-- `sizeof(struct vfs_inode)`. -/
def INODE_SIZE : Nat := 56

/-- What `vfs_pipe_create` works on.  An inode is its address. -/
structure PipeWorld (σ : Type) where
  calls : FdWorld σ Nat
  lists : FreeLists
  heap : List HeapBlock

variable {σ : Type}

/-- The stores to the counters: `read_pos` and `write_pos` are the first word of the next
page, and they are 0. -/
def spill (s : FreeLists) (pipe : Nat) : FreeLists :=
  { s with next := Function.update s.next (u64 (pipe + 0x1000)) 0 }

/-- `vfs_alloc_inode`, that is `kmalloc`: the inode, the free lists and the heap. -/
def vfsAllocInode (s : FreeLists) (heap : List HeapBlock) : Nat × FreeLists × List HeapBlock :=
  match kmalloc heap INODE_SIZE (FreeList.pmmAlloc s).1 with
  | (ptr, heap, none) => (ptr, s, heap)
  | (ptr, heap, some _) => (ptr, (FreeList.pmmAlloc s).2, heap)

/-- `vfs_pipe_create`. -/
def vfsPipeCreate (w : PipeWorld σ) : Int × PipeWorld σ :=
  let (pipe, lists) := FreeList.pmmAlloc w.lists
  if pipe = 0 then (-1, { w with lists := lists })
  else
    let (inode, lists, heap) := vfsAllocInode (spill lists pipe) w.heap
    if inode = 0 then (-1, { w with lists := FreeList.pmmFree lists pipe, heap := heap })
    else
      let (f0, vfs) := vfsAllocFile w.calls.vfs
      let (f1, vfs) := vfsAllocFile vfs
      match f0, f1 with
      | some f0, some f1 =>
        let (r, calls) := installPipe { w.calls with vfs := vfs } inode f0 f1
        (r, { calls := calls, lists := lists, heap := heap })
      | _, _ =>
        (-1, { calls := { w.calls with vfs := vfsFreeFile (vfsFreeFile vfs f0) f1 }
               lists := FreeList.pmmFree lists pipe
               heap := heap })

/-! ## What is left behind -/

/-- The frames on the free lists. -/
def FreeFrames (s : FreeLists) (frames : Multiset Nat) : Prop :=
  ∃ l : Zone → List Nat, (∀ z, Linked s.next (· = 0) (s.head z) (l z)) ∧
    frames = ↑(l .normal ++ (l .dma32 ++ l .dma))

/-- The descriptors, the slots in use and the free frames are the same. -/
def NoTrace (w w' : PipeWorld σ) : Prop :=
  w'.calls.fds = w.calls.fds ∧ (∀ f, InUse w'.calls.vfs f ↔ InUse w.calls.vfs f) ∧
    ∃ frames, FreeFrames w.lists frames ∧ FreeFrames w'.lists frames

/-- The heap has a block for the inode. -/
def HasBlock (heap : List HeapBlock) : Prop :=
  takeBlock (neededBytes INODE_SIZE) (heapCoalesce heap) ≠ none

/-- It has one with another page. -/
def GrowsInto (heap : List HeapBlock) (page : Nat) : Prop :=
  takeBlock (neededBytes INODE_SIZE) (heapCoalesce (heapAddPages (heapCoalesce heap) page)) ≠ none

def TwoFree (w : FdWorld σ Nat) : Prop :=
  2 ≤ ((List.range MAX_FDS).filter fun i => (w.fds i).isNone).length

/-- The page behind the frame is on no free list, or it is the last of its list. -/
def CutsNothing (s : FreeLists) (pipe : Nat) : Prop :=
  OnList s (u64 (pipe + 0x1000)) → s.next (u64 (pipe + 0x1000)) = 0

/-- The page that `kmalloc` gets when it asks for one. -/
def secondPage (s : FreeLists) : Nat :=
  (FreeList.pmmAlloc (spill (FreeList.pmmAlloc s).2 (FreeList.pmmAlloc s).1)).1

/-- There is no frame; or there is everything that a pipe needs; or it fails before it has
a slot, without a page for the heap and without a cut through a free list. -/
def PipeClean (w : PipeWorld σ) : Prop :=
  (FreeList.pmmAlloc w.lists).1 = 0 ∨
    ((HasBlock w.heap ∨ (secondPage w.lists ≠ 0 ∧ GrowsInto w.heap (secondPage w.lists))) ∧
      freeSlot w.calls.vfs ≠ none ∧ TwoFree w.calls) ∨
    (CutsNothing (FreeList.pmmAlloc w.lists).2 (FreeList.pmmAlloc w.lists).1 ∧
      ((HasBlock w.heap ∧ freeSlot w.calls.vfs = none) ∨
        (¬ HasBlock w.heap ∧ secondPage w.lists = 0)))

variable {c f : Nat} {s : FreeLists} {p : Pmm} {w w' : PipeWorld σ}

/-! ## The free lists -/

theorem freeFrames_iff (h : Represents c s p) {frames : Multiset Nat} :
    FreeFrames s frames ↔ frames = ↑(popOrder p) := by
  constructor
  · rintro ⟨l, hl, rfl⟩
    have hsame : l = p.free := funext fun z => (hl z).unique (h.chain z)
    rw [hsame]
    rfl
  · rintro rfl
    exact ⟨p.free, h.chain, rfl⟩

/-- `pmm_alloc` takes the first page, if there is one. -/
theorem pmmAlloc_cases (h : Represents c s p) :
    (popOrder p = [] ∧ (FreeList.pmmAlloc s).1 = 0 ∧ Represents c (FreeList.pmmAlloc s).2 p) ∨
      ∃ f p', f ≠ 0 ∧ f < 2 ^ 64 ∧ popOrder p = f :: popOrder p' ∧ (FreeList.pmmAlloc s).1 = f ∧
        Represents c (FreeList.pmmAlloc s).2 p' := by
  obtain ⟨hpage, hrep⟩ := h.zoneAllocAny
  cases hpop : popOrder p with
  | nil =>
    rw [zoneAllocAny_nil hpop] at hpage hrep
    exact .inl ⟨rfl, hpage, hrep⟩
  | cons f rest =>
    have hmem : f ∈ popOrder p := by
      rw [hpop]
      exact List.mem_cons_self
    obtain ⟨p', hp', hrest⟩ := zoneAllocAny_cons hpop (h.ne_zero hmem)
    rw [hp'] at hpage hrep
    exact .inr ⟨f, p', h.ne_zero hmem, h.bound f hmem, by rw [hrest], hpage, hrep⟩

theorem mem_of_onList (h : Represents c s p) (hf : OnList s f) : f ∈ popOrder p := by
  obtain ⟨z, l, hl, hmem⟩ := hf
  rw [hl.unique (h.chain z)] at hmem
  exact FreeList.mem_popOrder hmem

/-- No page is on two lists. -/
theorem zone_unique (h : (popOrder p).Nodup) {y z : Zone} {g : Nat} (hy : g ∈ p.free y)
    (hz : g ∈ p.free z) : y = z := by
  obtain ⟨-, hlow, hnormal⟩ := List.nodup_append.mp h
  obtain ⟨-, -, hdma⟩ := List.nodup_append.mp hlow
  have hlow : ∀ x, g ∈ p.free x → x = .normal ∨ g ∈ p.free .dma32 ++ p.free .dma := by
    intro x hx
    cases x with
    | normal => exact .inl rfl
    | dma32 => exact .inr (List.mem_append_left _ hx)
    | dma => exact .inr (List.mem_append_right _ hx)
  cases y with
  | normal => exact ((hlow z hz).resolve_right fun hmem => hnormal g hy g hmem rfl).symm
  | dma32 =>
    cases z with
    | normal => exact absurd rfl (hnormal g hz g (List.mem_append_left _ hy))
    | dma32 => rfl
    | dma => exact absurd rfl (hdma g hy g hz)
  | dma =>
    cases z with
    | normal => exact absurd rfl (hnormal g hz g (List.mem_append_right _ hy))
    | dma32 => exact absurd rfl (hdma g hz g hy)
    | dma => rfl

/-- The stores behind the frame keep the lists, or they cut one of them. -/
theorem spill_cases (h : Represents c s p) (pipe : Nat) :
    ∃ c' p', Represents c' (spill s pipe) p' ∧ List.Sublist (popOrder p') (popOrder p) ∧
      (popOrder p' = popOrder p ↔ CutsNothing s pipe) := by
  unfold Proc.spill CutsNothing
  generalize u64 (pipe + 0x1000) = a
  by_cases hmem : a ∈ popOrder p
  · obtain ⟨z, hz⟩ : ∃ z, a ∈ p.free z := by
      simp only [popOrder, List.mem_append] at hmem
      rcases hmem with hz | hz | hz
      · exact ⟨.normal, hz⟩
      · exact ⟨.dma32, hz⟩
      · exact ⟨.dma, hz⟩
    obtain ⟨l₁, l₂, hsplit⟩ := List.append_of_mem hz
    have hlist : Linked s.next (· = 0) (s.head z) (l₁ ++ a :: l₂) := by
      rw [← hsplit]
      exact h.chain z
    have hother : ∀ g, g ≠ a → Function.update s.next a 0 g = s.next g :=
      fun g hg => Function.update_of_ne hg _ _
    have hcut : Linked (Function.update s.next a 0) (· = 0) (s.head z) (l₁ ++ [a]) :=
      hlist.cut hother (Function.update_self a 0 s.next)
    -- The lists with the part behind the page left out.
    generalize hp' : Pmm.mk (Function.update p.free z (l₁ ++ [a])) p.freePagesTotal = p'
    have hfree : p'.free = Function.update p.free z (l₁ ++ [a]) := by rw [← hp']
    have hsub : List.Sublist (l₁ ++ [a]) (p.free z) := by
      rw [hsplit]
      exact List.Sublist.append_left (List.Sublist.cons_cons a (List.nil_sublist l₂)) l₁
    have hpop : List.Sublist (popOrder p') (popOrder p) := by
      unfold popOrder
      rw [hfree]
      cases z
      · exact .append (.refl _) (.append (.refl _) hsub)
      · exact .append (.refl _) (.append hsub (.refl _))
      · exact .append hsub (.refl _)
    have hlen : (popOrder p).length = (popOrder p').length + l₂.length := by
      unfold popOrder
      rw [hfree]
      cases z <;>
        simp only [Function.update_self, ne_eq, reduceCtorEq, not_false_eq_true,
          Function.update_of_ne,
          List.length_append, List.length_cons, List.length_nil, hsplit] <;> omega
    have hend : l₂ = [] ↔ s.next a = 0 := by
      have hrest : Linked s.next (· = 0) (s.next a) l₂ := hlist.drop.2.2
      cases l₂ with
      | nil => exact iff_of_true rfl hrest
      | cons x l =>
        exact iff_of_false (List.cons_ne_nil x l) fun hzero =>
          hrest.2.1 (hrest.1.symm.trans hzero)
    have hon : OnList s a := ⟨z, _, h.chain z, hz⟩
    refine ⟨c + l₂.length, p',
      ⟨fun y => ?_, hpop.nodup h.nodup, fun g hg => h.bound g (hpop.subset hg), ?_, ?_⟩, hpop, ?_⟩
    · rw [hfree]
      by_cases hy : y = z
      · subst hy
        rw [Function.update_self]
        exact hcut
      · rw [Function.update_of_ne hy]
        refine (h.chain y).congr fun g hg => hother g ?_
        rintro rfl
        exact hy (zone_unique h.nodup hg hz)
    · rw [← hp']
      exact h.total
    · show s.freePagesTotal = _
      rw [h.count, hlen]
      congr 1
      omega
    · constructor
      · intro heq _
        apply hend.mp
        rw [heq] at hlen
        exact List.length_eq_zero_iff.mp (by omega)
      · intro hkeep
        apply hpop.eq_of_length
        rw [hlen, hend.mpr (hkeep hon), List.length_nil]
        omega
  · refine ⟨c, p, ⟨fun z => ?_, h.nodup, h.bound, h.total, h.count⟩, .refl _,
      iff_of_true rfl fun hon => ?_⟩
    · refine (h.chain z).congr fun g hg => Function.update_of_ne ?_ _ _
      rintro rfl
      exact hmem (FreeList.mem_popOrder hg)
    · exact absurd (mem_of_onList h hon) hmem

/-! ## The steps of the call -/

/-- The inode comes from the heap as it is, or from another page of it, if there is one. -/
theorem vfsAllocInode_cases (s : FreeLists) (heap : List HeapBlock) :
    (HasBlock heap ∧ ∃ ptr heap', ptr ≠ 0 ∧ vfsAllocInode s heap = (ptr, s, heap')) ∨
      (¬ HasBlock heap ∧ (FreeList.pmmAlloc s).1 = 0 ∧
        ∃ heap', vfsAllocInode s heap = (0, s, heap')) ∨
      (¬ HasBlock heap ∧ (FreeList.pmmAlloc s).1 ≠ 0 ∧ ∃ ptr heap',
        vfsAllocInode s heap = (ptr, (FreeList.pmmAlloc s).2, heap') ∧
          (ptr ≠ 0 ↔ GrowsInto heap (FreeList.pmmAlloc s).1)) := by
  unfold vfsAllocInode HasBlock GrowsInto
  rcases kmalloc_cases heap (FreeList.pmmAlloc s).1 (show INODE_SIZE ≠ 0 by decide) with
    ⟨ptr, heap', htake, hcall⟩ | ⟨hnone,
      ⟨hpage, hcall⟩ | ⟨hpage, ⟨ptr, heap', htake, hcall⟩ | ⟨hagain, hcall⟩⟩⟩
  · left
    rw [hcall, htake]
    exact ⟨Option.some_ne_none _, ptr, heap', takeBlock_ne_zero htake, rfl⟩
  · right
    left
    rw [hcall, hnone]
    exact ⟨fun h => h rfl, hpage, _, rfl⟩
  · right
    right
    rw [hcall, hnone, htake]
    exact ⟨fun h => h rfl, hpage, ptr, heap', rfl,
      iff_of_true (takeBlock_ne_zero htake) (Option.some_ne_none _)⟩
  · right
    right
    rw [hcall, hnone, hagain]
    exact ⟨fun h => h rfl, hpage, 0, _, rfl, iff_of_false (fun h => h rfl) (fun h => h rfl)⟩

/-- The descriptors decide how the call ends once there are an inode and a slot. -/
theorem installPipe_fails (w : FdWorld σ Nat) (inode f0 f1 : Nat) :
    (installPipe w inode f0 f1).1 = -1 ↔ ¬ TwoFree w := by
  unfold installPipe TwoFree
  dsimp only
  rcases hlist :
      (List.range MAX_FDS).filter (fun i => (w.fds i).isNone) with _ | ⟨a, _ | ⟨b, rest⟩⟩
  · exact iff_of_true rfl (by simp)
  · exact iff_of_true rfl (by simp)
  · refine iff_of_false (fun h => absurd (show (0 : Int) = -1 from h) (by decide))
      (not_not.mpr ?_)
    simp only [List.length_cons]
    omega

/-- The second half of the call: the slots and the descriptors. -/
def finishPipe (w : PipeWorld σ) (pipe inode : Nat) (lists : FreeLists) (heap : List HeapBlock) :
    Int × PipeWorld σ :=
  let (f0, vfs) := vfsAllocFile w.calls.vfs
  let (f1, vfs) := vfsAllocFile vfs
  match f0, f1 with
  | some f0, some f1 =>
    let (r, calls) := installPipe { w.calls with vfs := vfs } inode f0 f1
    (r, { calls := calls, lists := lists, heap := heap })
  | _, _ =>
    (-1, { calls := { w.calls with vfs := vfsFreeFile (vfsFreeFile vfs f0) f1 }
           lists := FreeList.pmmFree lists pipe
           heap := heap })

/-- Without a slot it gives the frame back; with one it keeps the frame, and the
descriptors decide. -/
theorem finishPipe_cases (w : PipeWorld σ) (pipe inode : Nat) (lists : FreeLists)
    (heap : List HeapBlock) :
    (freeSlot w.calls.vfs = none ∧
        finishPipe w pipe inode lists heap =
          (-1, { w with lists := FreeList.pmmFree lists pipe, heap := heap })) ∨
      (freeSlot w.calls.vfs ≠ none ∧ (finishPipe w pipe inode lists heap).2.lists = lists ∧
        ((finishPipe w pipe inode lists heap).1 = -1 ↔ ¬ TwoFree w.calls)) := by
  unfold finishPipe
  cases hslot : freeSlot w.calls.vfs with
  | none =>
    left
    have hnone : vfsAllocFile w.calls.vfs = (none, w.calls.vfs) := by
      unfold vfsAllocFile
      rw [hslot]
    rw [hnone]
    dsimp only
    rw [hnone]
    exact ⟨rfl, rfl⟩
  | some idx =>
    right
    obtain ⟨vfs₁, hfirst, hsecond, -⟩ := vfsAllocFile_twice hslot
    rw [hfirst]
    dsimp only
    rw [hsecond]
    exact ⟨Option.some_ne_none idx, rfl, installPipe_fails _ _ _ _⟩

/-! ## The result -/

/-- The frames at the end are those of the start when the frame is back and nothing else
is gone. -/
theorem noTrace_frames {lists : FreeLists} {p' : Pmm} {c' : Nat} (h : Represents c w.lists p)
    (h' : Represents c' lists p') :
    (∃ frames, FreeFrames w.lists frames ∧ FreeFrames lists frames) ↔
      (popOrder p' : Multiset Nat) = ↑(popOrder p) := by
  constructor
  · rintro ⟨frames, hbefore, hafter⟩
    rw [← (freeFrames_iff h).mp hbefore, (freeFrames_iff h').mp hafter]
  · intro heq
    exact ⟨_, (freeFrames_iff h).mpr rfl, (freeFrames_iff h').mpr heq.symm⟩

/-- A call that ends with fewer free frames leaves a trace. -/
theorem not_noTrace {p' : Pmm} {c' : Nat} (h : Represents c w.lists p)
    (h' : Represents c' w'.lists p')
    (hlt : (popOrder p').length < (popOrder p).length) : ¬ NoTrace w w' := by
  rintro ⟨-, -, hframes⟩
  have hcard := congrArg Multiset.card ((noTrace_frames h h').mp hframes)
  rw [Multiset.coe_card, Multiset.coe_card] at hcard
  omega

/-- A failure that gives the frame back leaves a trace if other frames are gone. -/
theorem noTrace_giveBack {p₁ p₂ : Pmm} {c' : Nat} {lists : FreeLists} (heap : List HeapBlock)
    (h : Represents c w.lists p) (h₂ : Represents c' lists p₂) (hne : f ≠ 0) (hlt : f < 2 ^ 64)
    (hpop : popOrder p = f :: popOrder p₁) (hsub : List.Sublist (popOrder p₂) (popOrder p₁)) :
    NoTrace w { w with lists := FreeList.pmmFree lists f, heap := heap } ↔
      popOrder p₂ = popOrder p₁ := by
  have hfresh : f ∉ popOrder p₂ := by
    intro hmem
    have hnodup := h.nodup
    rw [hpop] at hnodup
    exact (List.nodup_cons.mp hnodup).1 (hsub.subset hmem)
  have hback : Represents c' (FreeList.pmmFree lists f) (pageFreeInternal p₂ f) := by
    unfold FreeList.pmmFree
    rw [if_neg hne]
    exact h₂.push hne hlt hfresh
  have hframes := noTrace_frames h hback
  rw [popOrder_pageFreeInternal, hpop, ← Multiset.cons_coe, Multiset.cons_inj_right] at hframes
  unfold NoTrace
  rw [hframes]
  constructor
  · rintro ⟨-, -, heq⟩
    apply hsub.eq_of_length
    have := congrArg Multiset.card heq
    rwa [Multiset.coe_card, Multiset.coe_card] at this
  · intro heq
    exact ⟨rfl, fun _ => Iff.rfl, by rw [heq]⟩

/-- With an inode, the call is clean if it gives back all frames before it has a slot, or
if it has the descriptors. -/
theorem finishPipe_clean {p₁ p₂ : Pmm} {c' : Nat} {lists : FreeLists} (inode : Nat)
    (heap : List HeapBlock)
    (h : Represents c w.lists p) (h₂ : Represents c' lists p₂) (hne : f ≠ 0) (hlt : f < 2 ^ 64)
    (hpop : popOrder p = f :: popOrder p₁) (hsub : List.Sublist (popOrder p₂) (popOrder p₁)) :
    ((finishPipe w f inode lists heap).1 = -1 → NoTrace w (finishPipe w f inode lists heap).2) ↔
      (freeSlot w.calls.vfs = none ∧ popOrder p₂ = popOrder p₁) ∨
        (freeSlot w.calls.vfs ≠ none ∧ TwoFree w.calls) := by
  rcases finishPipe_cases w f inode lists heap with ⟨hslot, hend⟩ | ⟨hslot, hlists, hfails⟩
  · have hback := noTrace_giveBack heap h h₂ hne hlt hpop hsub
    rw [hend]
    constructor
    · intro hclean
      exact .inl ⟨hslot, hback.mp (hclean rfl)⟩
    · rintro (⟨-, heq⟩ | ⟨hsome, -⟩)
      · exact fun _ => hback.mpr heq
      · exact absurd hslot hsome
  · have hlen := hsub.length_le
    have htrace : ¬ NoTrace w (finishPipe w f inode lists heap).2 := by
      rw [← hlists] at h₂
      apply not_noTrace h h₂
      rw [hpop, List.length_cons]
      omega
    constructor
    · intro hclean
      refine .inr ⟨hslot, ?_⟩
      by_contra hfew
      exact htrace (hclean (hfails.mpr hfew))
    · rintro (⟨hnone, -⟩ | ⟨-, htwo⟩)
      · exact absurd hnone hslot
      · exact fun hfail => absurd htwo (hfails.mp hfail)

/-- A call of `vfs_pipe_create` that fails leaves no trace, but for these failures: with a
slot and fewer than two free descriptors, with a page that the heap took, and with a free
list that is cut. -/
theorem vfsPipeCreate_clean_iff (w : PipeWorld σ) (c : Nat) (p : Pmm)
    (h : Represents c w.lists p) :
    ((vfsPipeCreate w).1 = -1 → NoTrace w (vfsPipeCreate w).2) ↔ PipeClean w := by
  unfold PipeClean
  rcases pmmAlloc_cases h with ⟨hempty, hzero, hrep⟩ | ⟨f, p₁, hne, hlt, hpop, hfirst, hrep⟩
  · have hcall : vfsPipeCreate w = (-1, { w with lists := (FreeList.pmmAlloc w.lists).2 }) := by
      unfold vfsPipeCreate
      dsimp only
      rw [if_pos hzero]
    rw [hcall]
    refine iff_of_true (fun _ => ⟨rfl, fun _ => Iff.rfl, ?_⟩) (.inl hzero)
    exact (noTrace_frames h hrep).mpr rfl
  · obtain ⟨c₂, p₂, hrep₂, hsub, hkeep⟩ := spill_cases hrep f
    have hcall : vfsPipeCreate w =
        let (inode, lists, heap) := vfsAllocInode (spill (FreeList.pmmAlloc w.lists).2 f) w.heap
        if inode = 0 then (-1, { w with lists := FreeList.pmmFree lists f, heap := heap })
        else finishPipe w f inode lists heap := by
      unfold vfsPipeCreate
      dsimp only
      rw [if_neg (by rw [hfirst]; exact hne), hfirst]
      rfl
    unfold secondPage
    rw [hcall, hfirst, or_iff_right hne, ← hkeep]
    rcases vfsAllocInode_cases (spill (FreeList.pmmAlloc w.lists).2 f) w.heap with
      ⟨hblock, ptr, heap, hptr, hinode⟩ | ⟨hblock, hpage, heap, hinode⟩ | ⟨hblock, hpage, ptr,
        heap, hinode, hgrows⟩
    · -- The heap has a block: the lists are as they are after the spill.
      rw [hinode]
      dsimp only
      rw [if_neg hptr, finishPipe_clean ptr heap h hrep₂ hne hlt hpop hsub]
      constructor
      · rintro (⟨hslot, heq⟩ | ⟨hslot, htwo⟩)
        · exact .inr ⟨heq, .inl ⟨hblock, hslot⟩⟩
        · exact .inl ⟨.inl hblock, hslot, htwo⟩
      · rintro (⟨-, hslot, htwo⟩ | ⟨heq, ⟨-, hslot⟩ | ⟨hno, -⟩⟩)
        · exact .inr ⟨hslot, htwo⟩
        · exact .inl ⟨hslot, heq⟩
        · exact absurd hblock hno
    · -- There is no page for the heap: the frame goes back.
      rw [hinode]
      dsimp only
      rw [if_pos rfl]
      have hback := noTrace_giveBack heap h hrep₂ hne hlt hpop hsub
      constructor
      · intro hclean
        exact .inr ⟨hback.mp (hclean rfl), .inr ⟨hblock, hpage⟩⟩
      · rintro (⟨hgot | ⟨hgot, -⟩, -⟩ | ⟨heq, -⟩)
        · exact absurd hgot hblock
        · exact absurd hpage hgot
        · exact fun _ => hback.mpr heq
    · -- The heap takes a page, which is gone in any case.
      obtain ⟨g, p₃, -, -, hpop₃, -, hrep₃⟩ :=
        (pmmAlloc_cases hrep₂).resolve_left fun hnone => hpage hnone.2.1
      have hsub₃ : List.Sublist (popOrder p₃) (popOrder p₁) := by
        refine List.Sublist.trans ?_ hsub
        rw [hpop₃]
        exact List.sublist_cons_self g _
      have hgone : popOrder p₃ ≠ popOrder p₁ := by
        intro heq
        have hlen := hsub.length_le
        rw [hpop₃, heq, List.length_cons] at hlen
        omega
      rw [hinode]
      dsimp only
      by_cases hptr : ptr = 0
      · have hback := noTrace_giveBack heap h hrep₃ hne hlt hpop hsub₃
        rw [if_pos hptr]
        refine iff_of_false (fun hclean => hgone (hback.mp (hclean rfl))) ?_
        rintro (⟨hgot | ⟨-, hgrow⟩, -⟩ | ⟨-, ⟨hgot, -⟩ | ⟨-, hnone⟩⟩)
        · exact hblock hgot
        · exact hgrows.mpr hgrow hptr
        · exact hblock hgot
        · exact hpage hnone
      · have hgrow := hgrows.mp hptr
        rw [if_neg hptr, finishPipe_clean ptr heap h hrep₃ hne hlt hpop hsub₃]
        constructor
        · rintro (⟨-, heq⟩ | ⟨hslot, htwo⟩)
          · exact absurd heq hgone
          · exact .inl ⟨.inr ⟨hpage, hgrow⟩, hslot, htwo⟩
        · rintro (⟨-, hslot, htwo⟩ | ⟨-, ⟨hgot, -⟩ | ⟨-, hnone⟩⟩)
          · exact .inr ⟨hslot, htwo⟩
          · exact absurd hgot hblock
          · exact absurd hnone hpage

/-! ## A pipe with one free descriptor -/

/-- A task with one free descriptor, one frame and a page in the heap. -/
def lastFd : PipeWorld Unit where
  calls :=
    { vfs :=
        { fs := ()
          mounts := []
          files := fun _ => { inode := none, offset := 0, flags := 0 }
          fileCount := 0 }
      fds := fun i => if i = 0 then none else some i
      pid := some 1
      console := [] }
  lists := FreeList.pmmFree (FreeList.bootLists fun _ => 0) 0x200000
  heap := [{ addr := 0x300000, size := 0x1000, free := true }]

theorem lastFd_represents : Represents 0 lastFd.lists (pageFreeInternal emptyPmm 0x200000) :=
  (FreeList.represents_empty fun _ => 0).push (by decide) (by decide) List.not_mem_nil

/-- The call fails, and the descriptor is left on a slot that is free. -/
theorem vfsPipeCreate_traces :
    (vfsPipeCreate lastFd).1 = -1 ∧ (vfsPipeCreate lastFd).2.calls.fds 0 = some 0 ∧
    ¬ NoTrace lastFd (vfsPipeCreate lastFd).2 := by
  refine ⟨rfl, rfl, fun h => ?_⟩
  have hfd : (vfsPipeCreate lastFd).2.calls.fds 0 = lastFd.calls.fds 0 := congrFun h.1 0
  cases hfd

theorem vfsPipeCreate_clean_lastFd :
    Represents 0 lastFd.lists (pageFreeInternal emptyPmm 0x200000) ∧
      (((vfsPipeCreate lastFd).1 = -1 → NoTrace lastFd (vfsPipeCreate lastFd).2) ↔
        PipeClean lastFd) :=
  ⟨lastFd_represents, vfsPipeCreate_clean_iff lastFd 0 _ lastFd_represents⟩

end Lumin.Proc
