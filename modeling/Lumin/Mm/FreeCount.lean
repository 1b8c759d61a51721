import Lumin.Lib.Linked
import Lumin.Mm.Frames

/-!
# The count of free pages

`free_pages_total` against the length of the free lists, over runs of the whole
interface of `kernel/mm/pmm.c`.  Here the lists are what the code has: a head for each
zone, and a link in the first word of each free page.  `Represents` relates them to
the lists of `Lumin.Mm.Pmm`, as long as no page is pushed that is already on a list.

* `zone_alloc` and `page_free_internal` count every page that they move, and
  `pmm_alloc_pages` counts `n - 1` of them a second time.  It corrects that only when
  it fails.
* A failed `pmm_alloc_pages` gives back addresses that it counts down from the first
  page.  They are as many as it took, and that they are the same does not matter to
  the count.
-/

namespace Lumin.Mm.FreeList

open Lumin.Lib

/-! ## The lists in memory -/

/-- The link word of every page, the heads of the lists, and `free_pages_total`. -/
structure FreeLists where
  next : Nat → Nat
  head : Zone → Nat
  freePagesTotal : Nat

def pageFreeInternal (s : FreeLists) (addr : Nat) : FreeLists where
  next := Function.update s.next addr (s.head (zoneOf addr))
  head := Function.update s.head (zoneOf addr) addr
  freePagesTotal := u64 (s.freePagesTotal + 1)

def zoneAlloc (s : FreeLists) (z : Zone) : Nat × FreeLists :=
  if s.head z = 0 then (0, s)
  else
    (s.head z,
      { s with head := Function.update s.head z (s.next (s.head z))
               freePagesTotal := sub64 s.freePagesTotal 1 })

def zoneAllocAny (s : FreeLists) : Nat × FreeLists :=
  let (p, s) := zoneAlloc s .normal
  if p ≠ 0 then (p, s)
  else
    let (p, s) := zoneAlloc s .dma32
    if p ≠ 0 then (p, s) else zoneAlloc s .dma

def addRange (s : FreeLists) (start stop : Nat) : FreeLists :=
  let start := pageDown (u64 (start + 0xFFF))
  let stop := pageDown stop
  (List.range ((stop - start) / 0x1000)).foldl
    (fun s i => pageFreeInternal s (start + i * 0x1000)) s

def addEntry (s : FreeLists) (e : E820Entry) : FreeLists :=
  if e.type ≠ E820_AVAILABLE then s
  else
    let stop := u64 (e.base + e.length)
    if stop ≤ MIN_ADDR then s
    else addRange s (if e.base < MIN_ADDR then MIN_ADDR else e.base) stop

/-- `pmm_init`: the lists are emptied first. -/
def pmmInit (s : FreeLists) (table : List E820Entry) : FreeLists :=
  let s := { s with head := fun _ => 0, freePagesTotal := 0 }
  if table.length = 0 ∨ table.length > 100 then addRange s MIN_ADDR 0x400000
  else
    let s := table.foldl addEntry s
    if s.freePagesTotal = 0 then addRange s MIN_ADDR 0x400000 else s

def pmmAlloc (s : FreeLists) : Nat × FreeLists := zoneAllocAny s

def pmmAllocDma (s : FreeLists) : Nat × FreeLists := zoneAlloc s .dma

def pmmFree (s : FreeLists) (page : Nat) : FreeLists :=
  if page = 0 then s else pageFreeInternal s page

def freeDown (s : FreeLists) (highest i : Nat) : FreeLists :=
  (List.range i).foldl (fun s j => pageFreeInternal s (sub64 highest (j * 0x1000))) s

def allocRest (highest : Nat) : (left i : Nat) → FreeLists → Bool × FreeLists
  | 0, _, s => (true, s)
  | left + 1, i, s =>
    let (page, s) := zoneAllocAny s
    if page = 0 then (false, freeDown s highest i)
    else allocRest highest left (i + 1) s

def pmmAllocPages (s : FreeLists) (n : Nat) : Nat × FreeLists :=
  if n = 0 then (0, s)
  else
    let (highest, s) := zoneAllocAny s
    if highest = 0 then (0, s)
    else
      let s := { s with freePagesTotal := sub64 s.freePagesTotal (n - 1) }
      match allocRest highest (n - 1) 1 s with
      | (true, s) => (sub64 highest ((n - 1) * 0x1000), s)
      | (false, s) => (0, { s with freePagesTotal := u64 (s.freePagesTotal + (n - 1)) })

def pmmFreePages (s : FreeLists) (addr n : Nat) : FreeLists :=
  if addr = 0 then s
  else (List.range n).foldl (fun s i => pageFreeInternal s (u64 (addr + i * 0x1000))) s

def pmmFreeCount (s : FreeLists) : Nat := s.freePagesTotal

/-- A call of the interface.  Pointers and sizes are 64-bit words. -/
inductive FrameOp where
  | init (table : List E820Entry)
  | alloc
  | allocDma
  | allocPages (n : Nat)
  | free (page : Nat)
  | freePages (addr n : Nat)

def frameStep (s : FreeLists) : FrameOp → Option FreeLists
  | .init table => some (pmmInit s table)
  | .alloc => some (pmmAlloc s).2
  | .allocDma => some (pmmAllocDma s).2
  | .allocPages n => some (pmmAllocPages s (u64 n)).2
  | .free page => some (pmmFree s (u64 page))
  | .freePages addr n => some (pmmFreePages s (u64 addr) (u64 n))

/-- The static variables before the first call, over whatever the pages hold. -/
def bootLists (next : Nat → Nat) : FreeLists :=
  { next := next, head := fun _ => 0, freePagesTotal := 0 }

/-- `pmm_free_count` is the total length of the three lists. -/
def CountsFree (s : FreeLists) : Prop :=
  ∃ lists : Zone → List Nat, (∀ z, Linked s.next (· = 0) (s.head z) (lists z)) ∧
    pmmFreeCount s = (lists .dma).length + (lists .dma32).length + (lists .normal).length

/-! ## The lists of the other model -/

/-- The memory holds the lists of `p`, and the counter is ahead of their length by
`c`. -/
structure Represents (c : Nat) (s : FreeLists) (p : Pmm) : Prop where
  chain : ∀ z, Linked s.next (· = 0) (s.head z) (p.free z)
  nodup : (popOrder p).Nodup
  bound : ∀ f ∈ popOrder p, f < 2 ^ 64
  total : s.freePagesTotal = p.freePagesTotal
  count : s.freePagesTotal = u64 ((popOrder p).length + c)

variable {c addr : Nat} {s : FreeLists} {p : Pmm} {z : Zone}

theorem mem_popOrder {f : Nat} (h : f ∈ p.free z) : f ∈ popOrder p := by
  unfold popOrder
  cases z <;> simp [h]

theorem Represents.ne_zero (h : Represents c s p) {f : Nat} (hf : f ∈ popOrder p) : f ≠ 0 := by
  simp only [popOrder, List.mem_append] at hf
  rcases hf with hf | hf | hf
  · exact (h.chain .normal).not_stop hf
  · exact (h.chain .dma32).not_stop hf
  · exact (h.chain .dma).not_stop hf

/-- A page that is on no list goes to the front of its list. -/
theorem Represents.push (h : Represents c s p) (hne : addr ≠ 0) (hlt : addr < 2 ^ 64)
    (hfresh : addr ∉ popOrder p) :
    Represents c (pageFreeInternal s addr) (Mm.pageFreeInternal p addr) := by
  have hpop := popOrder_pageFreeInternal p addr
  have hperm : (popOrder (Mm.pageFreeInternal p addr)).Perm (addr :: popOrder p) := by
    rw [← Multiset.coe_eq_coe, hpop, Multiset.cons_coe]
  refine ⟨fun z => ?_, ?_, fun f hf => ?_, ?_, ?_⟩
  · have hkeep :
        Linked (Function.update s.next addr (s.head (zoneOf addr))) (· = 0) (s.head z)
        (p.free z) := by
      refine (h.chain z).congr fun f hf => Function.update_of_ne ?_ _ _
      rintro rfl
      exact hfresh (mem_popOrder hf)
    by_cases hz : z = zoneOf addr
    · subst hz
      simp only [pageFreeInternal, Mm.pageFreeInternal, Function.update_self]
      refine ⟨rfl, hne, ?_⟩
      rwa [Function.update_self]
    · simp only [pageFreeInternal, Mm.pageFreeInternal, Function.update_of_ne hz]
      exact hkeep
  · rw [hperm.nodup_iff, List.nodup_cons]
    exact ⟨hfresh, h.nodup⟩
  · rcases List.mem_cons.mp (hperm.mem_iff.mp hf) with rfl | hf
    · exact hlt
    · exact h.bound f hf
  · show u64 (s.freePagesTotal + 1) = u64 (p.freePagesTotal + 1)
    rw [h.total]
  · rw [hperm.length_eq, List.length_cons]
    show u64 (s.freePagesTotal + 1) = _
    rw [h.count]
    unfold u64
    omega

/-- Two functions on the two models return the same page and keep the relation. -/
def SamePage (c : Nat) (r : Nat × FreeLists) (q : Nat × Pmm) : Prop :=
  r.1 = q.1 ∧ Represents c r.2 q.2

/-- The list of a zone loses its first page. -/
theorem Represents.zoneAlloc (h : Represents c s p) (z : Zone) :
    SamePage c (zoneAlloc s z) (Mm.zoneAlloc p z) := by
  have hchain := h.chain z
  unfold FreeList.zoneAlloc Mm.zoneAlloc
  cases hfree : p.free z with
  | nil =>
    rw [hfree] at hchain
    have hzero : s.head z = 0 := hchain
    rw [if_pos hzero]
    exact ⟨rfl, h⟩
  | cons f fs =>
    rw [hfree] at hchain
    obtain ⟨hhead, hne, hrest⟩ := hchain
    rw [hhead, if_neg hne]
    dsimp only
    generalize hp' : Pmm.mk (Function.update p.free z fs) (sub64 p.freePagesTotal 1) = p'
    have hfree' : p'.free = Function.update p.free z fs := by rw [← hp']
    have hsplit : (popOrder p).Perm (f :: popOrder p') := by
      rw [← Multiset.coe_eq_coe]
      unfold popOrder
      rw [hfree']
      cases z <;>
        simp only [hfree, Function.update_self, ne_eq, reduceCtorEq, not_false_eq_true,
          Function.update_of_ne, ← Multiset.coe_add, ← Multiset.cons_coe, Multiset.cons_add,
          Multiset.add_cons]
    have hnodup := List.nodup_cons.mp (hsplit.nodup_iff.mp h.nodup)
    refine ⟨rfl, fun y => ?_, hnodup.2, fun g hg => ?_, ?_, ?_⟩
    · rw [hfree']
      by_cases hy : y = z
      · subst hy
        simpa only [Function.update_self] using hrest
      · simpa only [Function.update_of_ne hy] using h.chain y
    · exact h.bound g (hsplit.mem_iff.mpr (List.mem_cons_of_mem f hg))
    · rw [← hp']
      dsimp only
      rw [h.total]
    · dsimp only
      rw [h.count, hsplit.length_eq, List.length_cons]
      unfold sub64 u64
      omega

theorem Represents.zoneAllocAny (h : Represents c s p) :
    SamePage c (zoneAllocAny s) (Mm.zoneAllocAny p) := by
  have hnormal := h.zoneAlloc .normal
  unfold FreeList.zoneAllocAny Mm.zoneAllocAny
  dsimp only
  rw [hnormal.1]
  split
  · exact ⟨rfl, hnormal.2⟩
  · have hdma32 := hnormal.2.zoneAlloc .dma32
    rw [hdma32.1]
    split
    · exact ⟨rfl, hdma32.2⟩
    · exact hdma32.2.zoneAlloc .dma

/-- A loop that frees pages that are on no list. -/
theorem Represents.pushAll (h : Represents c s p) {l : List Nat} (g : Nat → Nat)
    (hrange : ∀ i ∈ l, g i ≠ 0 ∧ g i < 2 ^ 64 ∧ g i ∉ popOrder p) (hnodup : (l.map g).Nodup) :
    Represents c (l.foldl (fun s i => pageFreeInternal s (g i)) s)
      (l.foldl (fun p i => Mm.pageFreeInternal p (g i)) p) := by
  induction l generalizing s p with
  | nil => exact h
  | cons i l ih =>
    obtain ⟨hne, hlt, hfresh⟩ := hrange i (by simp)
    rw [List.map_cons, List.nodup_cons] at hnodup
    rw [List.foldl_cons, List.foldl_cons]
    refine ih (h.push hne hlt hfresh) (fun j hj => ?_) hnodup.2
    obtain ⟨hne, hlt, hfresh⟩ := hrange j (by simp [hj])
    refine ⟨hne, hlt, fun hmem => ?_⟩
    have hpop := popOrder_pageFreeInternal p (g i)
    rw [← Multiset.mem_coe, hpop, Multiset.mem_cons, Multiset.mem_coe] at hmem
    rcases hmem with heq | hmem
    · exact hnodup.1 (heq ▸ List.mem_map_of_mem hj)
    · exact hfresh hmem

/-- The addresses counted down from `highest` that do not reach 0. -/
theorem downFrom_spec {highest i : Nat} (hhigh : highest < 2 ^ 64)
    (hdown : ∀ j < i, j * 0x1000 < highest) :
    (∀ j ∈ List.range i, sub64 highest (j * 0x1000) ≠ 0 ∧ sub64 highest (j * 0x1000) < 2 ^ 64) ∧
      ((List.range i).map fun j => sub64 highest (j * 0x1000)).Nodup := by
  have hsub : ∀ j < i, sub64 highest (j * 0x1000) = highest - j * 0x1000 := fun j hj =>
    sub64_of_le hhigh (hdown j hj).le
  constructor
  · intro j hj
    have hlt := hdown j (List.mem_range.mp hj)
    rw [hsub j (List.mem_range.mp hj)]
    omega
  · refine (List.nodup_map_iff_inj_on List.nodup_range).mpr fun j hj k hk heq => ?_
    have hj' := hdown j (List.mem_range.mp hj)
    have hk' := hdown k (List.mem_range.mp hk)
    rw [hsub j (List.mem_range.mp hj), hsub k (List.mem_range.mp hk)] at heq
    omega

/-- The loop of `pmm_alloc_pages`.  When it fails the lists are empty, so that what it
gives back is on no list. -/
theorem Represents.allocRest (h : Represents c s p) {highest left i : Nat}
    (hhigh : highest < 2 ^ 64)
    (hdown : left ≤ (popOrder p).length ∨ ∀ j < i + (popOrder p).length, j * 0x1000 < highest) :
    (allocRest highest left i s).1 = (Mm.allocRest highest left i p).1 ∧
      Represents c (allocRest highest left i s).2 (Mm.allocRest highest left i p).2 := by
  induction left generalizing i s p with
  | zero => exact ⟨rfl, h⟩
  | succ left ih =>
    have hsame := h.zoneAllocAny
    rw [FreeList.allocRest, Mm.allocRest]
    cases hpop : popOrder p with
    | nil =>
      rw [zoneAllocAny_nil hpop] at hsame ⊢
      dsimp only
      rw [hsame.1, if_pos rfl, if_pos rfl]
      rw [hpop] at hdown
      obtain ⟨hrange, hnodup⟩ := downFrom_spec hhigh (hdown.resolve_left (by simp))
      refine ⟨rfl, hsame.2.pushAll _ (fun j hj => ?_) hnodup⟩
      exact ⟨(hrange j hj).1, (hrange j hj).2, by simp [hpop]⟩
    | cons f fs =>
      have hne : f ≠ 0 := h.ne_zero (by simp [hpop])
      obtain ⟨p', hcons, hrest⟩ := zoneAllocAny_cons hpop hne
      rw [hcons] at hsame ⊢
      dsimp only
      rw [hsame.1, if_neg hne, if_neg hne]
      refine ih hsame.2 ?_
      rw [hpop, List.length_cons] at hdown
      rw [hrest]
      rcases hdown with hdown | hdown
      · exact Or.inl (by omega)
      · exact Or.inr fun j hj => hdown j (by omega)

/-- The counter is set to another value in both models. -/
theorem Represents.setTotal (h : Represents c s p) {c' n : Nat}
    (hn : n = u64 ((popOrder p).length + c')) :
    Represents c' { s with freePagesTotal := n } { p with freePagesTotal := n } :=
  ⟨h.chain, h.nodup, h.bound, rfl, hn⟩

/-- What the counter is ahead by counts modulo `2 ^ 64`. -/
theorem Represents.shift (h : Represents c s p) {c' : Nat} (hc : c % 2 ^ 64 = c' % 2 ^ 64) :
    Represents c' s p := by
  refine ⟨h.chain, h.nodup, h.bound, h.total, ?_⟩
  rw [h.count]
  unfold u64
  omega

theorem Represents.count_eq (h : Represents 0 s p) : s.freePagesTotal = (popOrder p).length := by
  have hlt := length_lt_of_nodup h.nodup fun f hf =>
    ⟨Nat.one_le_iff_ne_zero.mpr (h.ne_zero hf), h.bound f hf⟩
  rw [h.count, Nat.add_zero, u64_of_lt hlt]

theorem Represents.countsFree (h : Represents 0 s p) : CountsFree s := by
  refine ⟨p.free, h.chain, ?_⟩
  rw [pmmFreeCount, h.count_eq, popOrder, List.length_append, List.length_append]
  omega

/-- `pmm_alloc_pages` of one page, or of more pages than there are. -/
theorem Represents.allocPages (h : Represents 0 s p) {n : Nat} (hn : n < 2 ^ 64)
    (hguard : n ≤ 1 ∨
      (s.freePagesTotal < n ∧ ∀ j < s.freePagesTotal, j * 0x1000 < (pmmAlloc s).1)) :
    Represents 0 (pmmAllocPages s n).2 (Mm.pmmAllocPages p n).2 := by
  have hcount := h.count_eq
  have hsame := h.zoneAllocAny
  unfold pmmAlloc at hguard
  unfold pmmAllocPages Mm.pmmAllocPages
  by_cases hzero : n = 0
  · rw [if_pos hzero, if_pos hzero]
    exact h
  rw [if_neg hzero, if_neg hzero]
  cases hpop : popOrder p with
  | nil =>
    rw [zoneAllocAny_nil hpop] at hsame ⊢
    dsimp only
    rw [hsame.1, if_pos rfl, if_pos rfl]
    exact hsame.2
  | cons f fs =>
    have hne : f ≠ 0 := h.ne_zero (by simp [hpop])
    have hhigh : f < 2 ^ 64 := h.bound f (by simp [hpop])
    obtain ⟨p₁, hcons, hrest⟩ := zoneAllocAny_cons hpop hne
    rw [hcons] at hsame ⊢
    rcases hres : FreeList.zoneAllocAny s with ⟨q, s₁⟩
    rw [hres] at hsame hguard
    obtain ⟨rfl, hfirst⟩ := hsame
    dsimp only at hfirst hguard ⊢
    rw [if_neg hne, if_neg hne]
    rw [hpop, List.length_cons] at hcount
    -- From here on the counter is behind by `n - 1`.
    have hbehind : Represents (2 ^ 64 - (n - 1))
        { s₁ with freePagesTotal := sub64 s₁.freePagesTotal (n - 1) }
        { p₁ with freePagesTotal := sub64 p₁.freePagesTotal (n - 1) } := by
      rw [← hfirst.total]
      refine hfirst.setTotal ?_
      rw [hfirst.count]
      unfold sub64 u64
      omega
    have hdown :
        n - 1 ≤ (popOrder { p₁ with freePagesTotal := sub64 p₁.freePagesTotal (n - 1) }).length ∨
        ∀ j < 1 + (popOrder { p₁ with freePagesTotal := sub64 p₁.freePagesTotal (n - 1) }).length,
          j * 0x1000 < q := by
      rw [popOrder_total, hrest]
      rcases hguard with hone | ⟨-, hdown⟩
      · exact Or.inl (by omega)
      · exact Or.inr fun j hj => hdown j (by omega)
    have hloop := hbehind.allocRest hhigh hdown
    rcases hguard with hone | ⟨hmore, -⟩
    · have hleft : n - 1 = 0 := by omega
      rw [hleft] at hbehind ⊢
      exact hbehind.shift (by omega)
    · obtain ⟨p₂, -, hshort⟩ := allocRest_short q (n - 1) 1
        (s := { p₁ with freePagesTotal := sub64 p₁.freePagesTotal (n - 1) })
        (fun g hg => h.ne_zero (by rw [popOrder_total, hrest] at hg; rw [hpop]; simp [hg]))
        (by rw [popOrder_total, hrest]; omega)
      rw [hshort] at hloop ⊢
      rcases hlast : FreeList.allocRest q (n - 1) 1
        { s₁ with freePagesTotal := sub64 s₁.freePagesTotal (n - 1) } with ⟨b, s₂⟩
      rw [hlast] at hloop
      obtain ⟨rfl, hback⟩ := hloop
      dsimp only at hback ⊢
      rw [← hback.total]
      refine hback.setTotal ?_
      rw [hback.count]
      unfold u64
      omega

/-! ## Initialisation -/

theorem addRange_eq {start stop : Nat} (s : FreeLists) (h : start + 0xFFF < 2 ^ 64) :
    addRange s start stop = (rangeFrames start stop).foldl pageFreeInternal s := by
  unfold addRange rangeFrames
  rw [u64_of_lt h, List.foldl_map]
  rfl

theorem addEntry_eq {e : E820Entry} (s : FreeLists)
    (h : e.type = E820_AVAILABLE → e.base + e.length + 0xFFF < 2 ^ 64) :
    addEntry s e = (entryFrames e).foldl pageFreeInternal s := by
  unfold addEntry entryFrames
  by_cases htype : e.type = E820_AVAILABLE
  · have hbound := h htype
    have hmax : (if e.base < MIN_ADDR then MIN_ADDR else e.base) = max e.base MIN_ADDR := by
      split <;> omega
    have hmin : MIN_ADDR = 0x200000 := rfl
    simp only [htype, ne_eq, not_true_eq_false, false_or, if_false,
      u64_of_lt (show e.base + e.length < 2 ^ 64 by omega)]
    split
    · rfl
    · rw [hmax, addRange_eq s (by omega)]
  · simp [htype]

theorem foldl_addEntry {table : List E820Entry} (s : FreeLists)
    (h : ∀ e ∈ table, e.type = E820_AVAILABLE → e.base + e.length + 0xFFF < 2 ^ 64) :
    table.foldl addEntry s = (table.flatMap entryFrames).foldl pageFreeInternal s := by
  induction table generalizing s with
  | nil => rfl
  | cons e table ih =>
    rw [List.foldl_cons, addEntry_eq s (h e (by simp)), List.flatMap_cons, List.foldl_append]
    exact ih _ fun e' he' => h e' (by simp [he'])

/-- Empty lists. -/
theorem represents_empty (next : Nat → Nat) : Represents 0 (bootLists next) emptyPmm :=
  ⟨fun _ => rfl, by simp [popOrder, emptyPmm], by simp [popOrder, emptyPmm], rfl, rfl⟩

theorem Represents.fill (h : Represents 0 s p) (hempty : popOrder p = []) {l : List Nat}
    (hnodup : l.Nodup) (hrange : ∀ f ∈ l, 1 ≤ f ∧ f < 2 ^ 64) :
    Represents 0 (l.foldl pageFreeInternal s) (l.foldl Mm.pageFreeInternal p) := by
  refine h.pushAll id (fun f hf => ?_) (by simpa using hnodup)
  have := hrange f hf
  exact ⟨by simp only [id]; omega, this.2, by simp [hempty]⟩

/-- The range that `pmm_init` falls back to. -/
theorem Represents.fallback (h : Represents 0 s p) (hempty : popOrder p = []) :
    Represents 0 (addRange s MIN_ADDR 0x400000) (Mm.addRange p MIN_ADDR 0x400000) := by
  have hmin : MIN_ADDR = 0x200000 := rfl
  rw [addRange_eq s (by omega), Mm.addRange_eq p (by omega)]
  refine h.fill hempty (rangeFrames_nodup _ _) fun f hf => ?_
  have hlo : 0x200000 ≤ f := (mem_rangeFrames hf).1
  have hhi : f + 0x1000 ≤ 0x400000 := (mem_rangeFrames hf).2.1
  omega

theorem represents_pmmInit_of_nodup (s : FreeLists) {table : List E820Entry}
    (hbounded : table.length ≤ 100 → ∀ e ∈ table, e.type = E820_AVAILABLE →
      e.base + e.length + 0xFFF < 2 ^ 64)
    (hnodup : table.length ≤ 100 → (table.flatMap entryFrames).Nodup) :
    Represents 0 (pmmInit s table) (Mm.pmmInit table) := by
  have hboot : Represents 0 { s with head := fun _ => 0, freePagesTotal := 0 } emptyPmm :=
    represents_empty s.next
  have hempty : popOrder emptyPmm = [] := rfl
  unfold pmmInit Mm.pmmInit
  split
  · exact hboot.fallback hempty
  next hlength =>
    have hbounded := hbounded (by omega)
    have hrange := fun f hf => tableFrames_range hbounded (f := f) hf
    have hfill := hboot.fill hempty (hnodup (by omega)) hrange
    dsimp only
    rw [foldl_addEntry _ hbounded, Mm.foldl_addEntry _ hbounded, hfill.total]
    split
    next hzero =>
      have hpop : popOrder ((table.flatMap entryFrames).foldl Mm.pageFreeInternal emptyPmm) =
          [] := by
        have := hfill.count_eq
        rw [hfill.total, hzero] at this
        exact List.eq_nil_of_length_eq_zero this.symm
      exact hfill.fallback hpop
    · exact hfill

theorem represents_pmmInit (s : FreeLists) {table : List E820Entry} (htable : table.length ≤ 100 →
    E820Sound table) : Represents 0 (pmmInit s table) (Mm.pmmInit table) :=
  represents_pmmInit_of_nodup s (fun hlen => (htable hlen).bounded)
    (fun hlen => tableFrames_nodup (htable hlen))

/-! ## The count over whole runs -/

/-- The page is on a free list. -/
def OnList (s : FreeLists) (f : Nat) : Prop := ∃ z l, Linked s.next (· = 0) (s.head z) l ∧ f ∈ l

/-- No call of `pmm_alloc_pages` with `n` above 1 succeeds, and one that fails does not
count its addresses down to 0.  No page is freed that is free, or that is not a page, and
the boot table gives no page twice. -/
def FrameGuard (s : FreeLists) : FrameOp → Prop
  | .init table => table.length ≤ 100 → E820Sound table
  | .alloc => True
  | .allocDma => True
  | .allocPages n =>
    u64 n ≤ 1 ∨ (s.freePagesTotal < u64 n ∧ ∀ j < s.freePagesTotal, j * 0x1000 < (pmmAlloc s).1)
  | .free page => u64 page ≠ 0 → u64 page % 0x1000 = 0 ∧ ¬ OnList s (u64 page)
  | .freePages addr n =>
    u64 addr ≠ 0 → u64 addr % 0x1000 = 0 ∧ (framesFrom (u64 addr) (u64 n)).Nodup ∧
      ∀ f ∈ framesFrom (u64 addr) (u64 n), f ≠ 0 ∧ ¬ OnList s f

theorem u64_lt (x : Nat) : u64 x < 2 ^ 64 := Nat.mod_lt _ (by decide)

theorem Represents.fresh (h : Represents c s p) {f : Nat} (hf : ¬ OnList s f) :
    f ∉ popOrder p := by
  intro hmem
  simp only [popOrder, List.mem_append] at hmem
  rcases hmem with hmem | hmem | hmem
  · exact hf ⟨.normal, _, h.chain .normal, hmem⟩
  · exact hf ⟨.dma32, _, h.chain .dma32, hmem⟩
  · exact hf ⟨.dma, _, h.chain .dma, hmem⟩

theorem Represents.step (h : Represents 0 s p) {o : FrameOp} {s' : FreeLists}
    (hguard : FrameGuard s o)
    (hstep : frameStep s o = some s') : ∃ p', Represents 0 s' p' := by
  cases o with
  | init table =>
    cases hstep
    exact ⟨_, represents_pmmInit s hguard⟩
  | alloc =>
    cases hstep
    exact ⟨_, h.zoneAllocAny.2⟩
  | allocDma =>
    cases hstep
    exact ⟨_, (h.zoneAlloc .dma).2⟩
  | allocPages n =>
    cases hstep
    exact ⟨_, h.allocPages (u64_lt n) hguard⟩
  | free page =>
    cases hstep
    unfold pmmFree
    split
    · exact ⟨p, h⟩
    next hne => exact ⟨_, h.push hne (u64_lt page) (h.fresh (hguard hne).2)⟩
  | freePages addr n =>
    cases hstep
    unfold pmmFreePages
    split
    · exact ⟨p, h⟩
    next hne =>
      obtain ⟨-, hnodup, hfresh⟩ := hguard hne
      refine ⟨_, h.pushAll _ (fun i hi => ?_) hnodup⟩
      obtain ⟨hzero, hoff⟩ := hfresh _ (List.mem_map_of_mem hi)
      exact ⟨hzero, u64_lt _, h.fresh hoff⟩

/-- In every guarded run `pmm_free_count` is the total length of the free lists. -/
theorem countsFree_of_reach (next : Nat → Nat) (s : FreeLists)
    (h : Reach frameStep FrameGuard (bootLists next) s) : CountsFree s := by
  have hinv := h.invariant (fun s => ∃ p, Represents 0 s p) ⟨_, represents_empty next⟩
    fun s o s' ⟨p, hp⟩ hguard hstep => hp.step hguard hstep
  obtain ⟨p, hp⟩ := hinv
  exact hp.countsFree

/-- Four pages; one is taken, and then more are asked for than there are. -/
theorem countsFree_of_reach_failed :
    ∃ s, run frameStep (bootLists fun _ => 0) [.init fourPages, .alloc, .allocPages 9] = some s ∧
      pmmFreeCount s = 3 ∧ CountsFree s := by
  have hcount :
      (run frameStep (bootLists fun _ => 0) [.init fourPages, .alloc, .allocPages 9]).map
      pmmFreeCount = some 3 := by
    decide +kernel
  have hguard : ∀ s, run frameStep (bootLists fun _ => 0) [.init fourPages, .alloc] = some s →
      FrameGuard s (.allocPages 9) := by
    rintro _ ⟨rfl⟩
    exact Or.inr (by decide +kernel)
  obtain ⟨s, hs, hthree⟩ := Option.map_eq_some_iff.mp hcount
  refine ⟨s, hs, hthree, countsFree_of_reach _ s (reach_of_guarded ?_ hs)⟩
  exact ⟨fun _ => fourPages_sound, trivial, hguard _ rfl, trivial⟩

/-- Every success of `pmm_alloc_pages` with two or more pages leaves a wrong count. -/
theorem Represents.allocPages_miscounts (h : Represents 0 s p) {n : Nat} (htwo : 2 ≤ n)
    (hle : n ≤ (popOrder p).length) : ¬ CountsFree (pmmAllocPages s n).2 := by
  have hlt := length_lt_of_nodup h.nodup fun f hf =>
    ⟨Nat.one_le_iff_ne_zero.mpr (h.ne_zero hf), h.bound f hf⟩
  have hsame := h.zoneAllocAny
  obtain ⟨f, fs, hpop⟩ := List.exists_cons_of_length_pos (show 0 < (popOrder p).length by omega)
  have hne : f ≠ 0 := h.ne_zero (by simp [hpop])
  have hhigh : f < 2 ^ 64 := h.bound f (by simp [hpop])
  obtain ⟨p₁, hcons, hrest⟩ := zoneAllocAny_cons hpop hne
  rw [hpop, List.length_cons] at hle hlt
  rw [hcons] at hsame
  unfold pmmAllocPages
  rw [if_neg (by omega)]
  rcases hres : FreeList.zoneAllocAny s with ⟨q, s₁⟩
  rw [hres] at hsame
  obtain ⟨rfl, hfirst⟩ := hsame
  dsimp only at hfirst ⊢
  rw [if_neg hne]
  have hbehind : Represents (2 ^ 64 - (n - 1))
      { s₁ with freePagesTotal := sub64 s₁.freePagesTotal (n - 1) }
      { p₁ with freePagesTotal := sub64 p₁.freePagesTotal (n - 1) } := by
    rw [← hfirst.total]
    refine hfirst.setTotal ?_
    rw [hfirst.count]
    unfold sub64 u64
    omega
  have henough :
      n - 1 ≤
        (popOrder { p₁ with freePagesTotal := sub64 p₁.freePagesTotal (n - 1) }).length := by
    rw [popOrder_total, hrest]
    omega
  have hloop := hbehind.allocRest (i := 1) hhigh (Or.inl henough)
  obtain ⟨p₂, hall, hdrop⟩ :=
    allocRest_enough q (n - 1) 1 (fun g hg => hbehind.ne_zero hg) henough
  rw [hall] at hloop
  rcases hlast : FreeList.allocRest q (n - 1) 1
    { s₁ with freePagesTotal := sub64 s₁.freePagesTotal (n - 1) } with ⟨b, s₂⟩
  rw [hlast] at hloop
  obtain ⟨rfl, hrep⟩ := hloop
  rintro ⟨lists, hlists, hcount⟩
  -- The lists are those of the other model, and their length is not the counter.
  have huniq : lists = p₂.free := funext fun z => (hlists z).unique (hrep.chain z)
  have hlength : (popOrder p₂).length = fs.length - (n - 1) := by
    rw [hdrop, popOrder_total, hrest, List.length_drop]
  have htotal : pmmFreeCount s₂ = (popOrder p₂).length := by
    rw [popOrder, List.length_append, List.length_append, ← huniq]
    have := hcount
    dsimp only at this
    omega
  have hbad := hrep.count
  dsimp only at hbad
  rw [pmmFreeCount] at htotal
  rw [htotal, hlength] at hbad
  unfold u64 at hbad
  omega

/-- Four pages, and two are taken at once. -/
theorem twoPages_not_countsFree :
    ∃ s, Reach frameStep (fun _ _ => True) (bootLists fun _ => 0) s ∧ pmmFreeCount s = 1 ∧
        ¬ CountsFree s := by
  have hrep : Represents 0 (pmmInit (bootLists fun _ => 0) fourPages) (Mm.pmmInit fourPages) :=
    represents_pmmInit _ fun _ => fourPages_sound
  have hlength : (popOrder (Mm.pmmInit fourPages)).length = 4 := by decide +kernel
  have hrun : run frameStep (bootLists fun _ => 0) [.init fourPages, .allocPages 2] =
      some (pmmAllocPages (pmmInit (bootLists fun _ => 0) fourPages) 2).2 := rfl
  refine ⟨_, reach_of_run hrun, by decide +kernel, ?_⟩
  exact hrep.allocPages_miscounts (le_refl 2) (by rw [hlength]; decide)

end Lumin.Mm.FreeList
