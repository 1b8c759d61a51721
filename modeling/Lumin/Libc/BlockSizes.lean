import Lumin.Libc.HeapUse
import Lumin.Mm.HeapSeparation

/-!
# The sizes of allocated blocks

`kmalloc` of `kernel/mm/kmalloc.c` and `malloc`, `calloc` and `realloc` of
`libc/src/stdlib/malloc.c` add a header to the size and round it up, modulo `2 ^ 64`.
The block they return has room for the request as long as nothing wraps.

* `malloc_cases` says where the block of `malloc` comes from and `malloc_result` how large it
  is recorded.
* `allocators_enough_iff` is the result for the four functions, for every size and every
  memory.
-/

namespace Lumin.Libc

open Lumin.Lib

/-! ## `kmalloc` -/

section Kernel

open Mm

/-- The sizes are 32-bit words, and the headers are at different addresses, also from the
page that `pmm_alloc` would return. -/
structure KernelHeap (heap : List HeapBlock) (page : Nat) : Prop where
  sizes : ∀ b ∈ heap, b.size < 2 ^ 32
  addrs : ((heap ++ [pageBlock page]).map HeapBlock.addr).Nodup

/-- The size that the header in front of the payload records. -/
def recordedSize (heap : List HeapBlock) (ptr : Nat) : Option Nat :=
  (heap.find? fun b => b.addr + HEADER = ptr).map HeapBlock.size

/-- `kmalloc` returns `NULL` or a block with room for `size` bytes behind its header. -/
def KmallocEnough (heap : List HeapBlock) (size page : Nat) : Prop :=
  (kmalloc heap size page).1 = 0 ∨
    ∃ s, recordedSize (kmalloc heap size page).2.1 (kmalloc heap size page).1 = some s ∧
        size + HEADER ≤ s

/-- The size does not wrap, or there is no block for what is left of it. -/
def KmallocOk (heap : List HeapBlock) (size page : Nat) : Prop :=
  size + 39 < 2 ^ 64 ∨
    (takeBlock (neededBytes size) (heapCoalesce heap) = none ∧
      (page = 0 ∨ takeBlock (neededBytes size)
        (heapCoalesce (heapAddPages (heapCoalesce heap) page)) = none))

variable {needed size page ptr : Nat} {heap heap' : List HeapBlock} {cur : HeapBlock}

/-- A merge keeps the first of the two headers. -/
theorem coalesceFrom_addrs (cur : HeapBlock) (rest : List HeapBlock) :
    List.Sublist ((coalesceFrom cur rest).map HeapBlock.addr)
      (cur.addr :: rest.map HeapBlock.addr) := by
  induction rest generalizing cur with
  | nil => exact List.Sublist.refl _
  | cons next rest ih =>
    rw [coalesceFrom]
    split_ifs
    · exact (ih _).trans ((List.sublist_cons_self next.addr _).cons_cons cur.addr)
    · exact (ih next).cons_cons cur.addr

theorem heapCoalesce_addrs (heap : List HeapBlock) :
    List.Sublist ((heapCoalesce heap).map HeapBlock.addr) (heap.map HeapBlock.addr) := by
  cases heap with
  | nil => exact List.Sublist.refl _
  | cons root rest => exact coalesceFrom_addrs root rest

theorem coalesceFrom_sizes (cur : HeapBlock) (rest : List HeapBlock) (hcur : cur.size < 2 ^ 32)
    (hrest : ∀ b ∈ rest, b.size < 2 ^ 32) : ∀ b ∈ coalesceFrom cur rest, b.size < 2 ^ 32 := by
  induction rest generalizing cur with
  | nil =>
    intro b hb
    rw [List.mem_singleton.mp hb]
    exact hcur
  | cons next rest ih =>
    have htail := fun b hb => hrest b (List.mem_cons_of_mem next hb)
    rw [coalesceFrom]
    split_ifs
    · exact ih _ (u32_lt _) htail
    · intro b hb
      rcases List.mem_cons.mp hb with rfl | hb
      · exact hcur
      · exact ih next (hrest next List.mem_cons_self) htail b hb

theorem heapCoalesce_sizes (h : ∀ b ∈ heap, b.size < 2 ^ 32) :
    ∀ b ∈ heapCoalesce heap, b.size < 2 ^ 32 := by
  cases heap with
  | nil => exact h
  | cons root rest =>
    exact coalesceFrom_sizes root rest (h root List.mem_cons_self) fun b hb =>
      h b (List.mem_cons_of_mem root hb)

/-- The block that the search takes is one of the list. -/
theorem takeBlock_addr (h : takeBlock needed heap = some (ptr, heap')) :
    ∃ b ∈ heap, ptr = b.addr + HEADER := by
  induction heap generalizing heap' with
  | nil => cases h
  | cons cur rest ih =>
    rw [takeBlock] at h
    split_ifs at h
    · cases h
      exact ⟨cur, List.mem_cons_self, rfl⟩
    · cases h
      exact ⟨cur, List.mem_cons_self, rfl⟩
    · cases h
      exact ⟨cur, List.mem_cons_self, rfl⟩
    · obtain ⟨r, hrest, hr⟩ := Option.map_eq_some_iff.mp h
      cases hr
      obtain ⟨b, hb, hptr⟩ := ih hrest
      exact ⟨b, List.mem_cons_of_mem cur hb, hptr⟩

/-- Its recorded size is at least what the search was for. -/
theorem takeBlock_recorded (h : takeBlock needed heap = some (ptr, heap'))
    (hsizes : ∀ b ∈ heap, b.size < 2 ^ 32)
    (haddrs : (heap.map HeapBlock.addr).Nodup) :
    ∃ s, recordedSize heap' ptr = some s ∧ needed ≤ s ∧ s < 2 ^ 32 := by
  induction heap generalizing heap' with
  | nil => cases h
  | cons cur rest ih =>
    have hcur := hsizes cur List.mem_cons_self
    rw [takeBlock] at h
    split_ifs at h with hfit hsplit hzero
    · cases h
      refine ⟨0, ?_, le_of_eq hzero, by decide⟩
      unfold recordedSize
      rw [List.find?_cons_of_pos (by simp)]
      rfl
    · cases h
      have hword : u32 needed = needed := u32_of_lt (by omega)
      refine ⟨needed, ?_, le_refl _, by omega⟩
      unfold recordedSize
      rw [List.find?_cons_of_pos (by simp), hword]
      rfl
    · cases h
      refine ⟨cur.size, ?_, hfit.2, hcur⟩
      unfold recordedSize
      rw [List.find?_cons_of_pos (by simp)]
      rfl
    · obtain ⟨r, hrest, hr⟩ := Option.map_eq_some_iff.mp h
      cases hr
      rw [List.map_cons, List.nodup_cons] at haddrs
      obtain ⟨s, hs, hle, hlt⟩ :=
        ih hrest (fun b hb => hsizes b (List.mem_cons_of_mem cur hb)) haddrs.2
      refine ⟨s, ?_, hle, hlt⟩
      -- The header in front is another one.
      obtain ⟨b, hb, hptr⟩ := takeBlock_addr hrest
      have hne : cur.addr + HEADER ≠ r.1 := by
        intro heq
        have hsame : cur.addr = b.addr := by omega
        rw [hsame] at haddrs
        exact haddrs.1 (List.mem_map_of_mem hb)
      unfold recordedSize at hs ⊢
      rw [List.find?_cons_of_neg (by simpa using hne)]
      exact hs

theorem KernelHeap.coalesce (h : KernelHeap heap page) :
    (∀ b ∈ heapCoalesce heap, b.size < 2 ^ 32) ∧
      ((heapCoalesce heap).map HeapBlock.addr).Nodup := by
  refine ⟨heapCoalesce_sizes h.sizes, (heapCoalesce_addrs heap).nodup ?_⟩
  have haddrs := h.addrs
  rw [List.map_append] at haddrs
  exact haddrs.of_append_left

theorem KernelHeap.addPage (h : KernelHeap heap page) :
    (∀ b ∈ heapCoalesce (heapAddPages (heapCoalesce heap) page), b.size < 2 ^ 32) ∧
      ((heapCoalesce (heapAddPages (heapCoalesce heap) page)).map HeapBlock.addr).Nodup := by
  constructor
  · refine heapCoalesce_sizes fun b hb => ?_
    rcases List.mem_append.mp hb with hb | hb
    · exact heapCoalesce_sizes h.sizes b hb
    · rw [List.mem_singleton.mp hb]
      exact (by decide : 0x1000 < 2 ^ 32)
  · refine (heapCoalesce_addrs _).nodup (List.Sublist.nodup ?_ h.addrs)
    unfold heapAddPages
    rw [List.map_append, List.map_append]
    exact (heapCoalesce_addrs heap).append (List.Sublist.refl _)

/-- A block for a size that has wrapped is too small: its size is a 32-bit word. -/
theorem enough_iff_not_wrapped {s : Nat} (hle : neededBytes size ≤ s) (hlt : s < 2 ^ 32) :
    size + HEADER ≤ s ↔ size + 39 < 2 ^ 64 := by
  have hheader : HEADER = 24 := rfl
  constructor
  · intro henough
    omega
  · intro hmax
    by_cases hpos : 0 < size
    · have := neededBytes_ge hpos hmax
      omega
    · have hzero : size = 0 := by omega
      subst hzero
      have : neededBytes 0 = 32 := by decide
      omega

theorem kmalloc_enough_iff (h : KernelHeap heap page) :
    KmallocEnough heap size page ↔ KmallocOk heap size page := by
  unfold KmallocEnough KmallocOk
  by_cases hzero : size = 0
  · subst hzero
    exact iff_of_true (.inl rfl) (.inl (by decide))
  -- A block was found in the heap `heap₁`.
  have hfound : ∀ {heap₁ heap₂ : List HeapBlock} {ptr : Nat}, (∀ b ∈ heap₁, b.size < 2 ^ 32) →
      (heap₁.map HeapBlock.addr).Nodup → takeBlock (neededBytes size) heap₁ = some (ptr, heap₂) →
      ((ptr = 0 ∨ ∃ s, recordedSize heap₂ ptr = some s ∧ size + HEADER ≤ s) ↔
        size + 39 < 2 ^ 64) := by
    intro heap₁ heap₂ ptr hsizes haddrs htake
    obtain ⟨s, hs, hle, hlt⟩ := takeBlock_recorded htake hsizes haddrs
    rw [or_iff_right (takeBlock_ne_zero htake), ← enough_iff_not_wrapped hle hlt]
    constructor
    · rintro ⟨s', hs', henough⟩
      rw [hs] at hs'
      cases hs'
      exact henough
    · exact fun henough => ⟨s, hs, henough⟩
  rcases kmalloc_cases heap page hzero with
    ⟨ptr, heap', htake, hcall⟩ | ⟨hnone,
      ⟨hpage, hcall⟩ | ⟨hpage, ⟨ptr, heap', htake, hcall⟩ | ⟨hagain, hcall⟩⟩⟩
  · rw [hcall, hfound h.coalesce.1 h.coalesce.2 htake, htake]
    simp
  · rw [hcall]
    exact iff_of_true (.inl rfl) (.inr ⟨hnone, .inl hpage⟩)
  · rw [hcall, hfound h.addPage.1 h.addPage.2 htake, htake]
    simp [hpage]
  · rw [hcall]
    exact iff_of_true (.inl rfl) (.inr ⟨hnone, .inr hagain⟩)

end Kernel

/-! ## `malloc` -/

variable {h h' : UserHeap} {size total q b x ptr : Nat} {grant : Bool}

/-- The blocks that a walk over the free list meets. -/
inductive OnWalk (h : UserHeap) : Nat → Prop
  | head : h.freeList ≠ 0 → OnWalk h h.freeList
  | next {b : Nat} : OnWalk h b → freeNext h b ≠ 0 → OnWalk h (freeNext h b)

/-- The link that a walk follows next. -/
def LinkOf (h : UserHeap) (pp : Option Nat) : Prop := ∀ b ∈ pp, OnWalk h b

theorem LinkOf.onWalk {pp : Option Nat} (hpp : LinkOf h pp) (hne : loadLink h pp ≠ 0) :
    OnWalk h (loadLink h pp) := by
  cases pp with
  | none => exact .head hne
  | some b => exact .next (hpp b rfl) hne

/-- The walk of `malloc` ends at a block that is large enough. -/
theorem findFit_some (fuel : Nat) {pp pp' : Option Nat} (hpp : LinkOf h pp)
    (hfind : findFit h total fuel pp = some (some pp')) :
    LinkOf h pp' ∧ OnWalk h (loadLink h pp') ∧ total ≤ blockRealSize h (loadLink h pp') := by
  induction fuel generalizing pp with
  | zero => cases hfind
  | succ fuel ih =>
    rw [findFit] at hfind
    by_cases hzero : loadLink h pp = 0
    · rw [if_pos hzero] at hfind
      cases hfind
    rw [if_neg hzero] at hfind
    by_cases hfit : blockRealSize h (loadLink h pp) ≥ total
    · rw [if_pos hfit] at hfind
      cases hfind
      exact ⟨hpp, hpp.onWalk hzero, hfit⟩
    · rw [if_neg hfit] at hfind
      refine ih (fun b hb => ?_) hfind
      cases hb
      exact hpp.onWalk hzero

/-- The size that a store to the header records. -/
theorem realSize_setSize {v : Nat} (hv : v < 2 ^ 64) :
    blockRealSize (setSize h b v) b = v / 2 * 2 := by
  unfold blockRealSize
  rw [sizeWord_setSize_same hv]

theorem realSize_lt (h : UserHeap) (b : Nat) : blockRealSize h b < 2 ^ 64 := by
  have hword : sizeWord h b < 2 ^ 64 := rdLE_lt _ _ _
  unfold blockRealSize
  omega

/-- The header of the block that is taken is written last. -/
theorem takeLinked_size {pp : Option Nat} (heven : total % 8 = 0)
    (hfit : total ≤ blockRealSize h (loadLink h pp)) :
    (takeLinked h pp total).1 = loadLink h pp + HDR_SZ ∧
      total ≤ blockRealSize (takeLinked h pp total).2 (loadLink h pp) ∧
      blockRealSize (takeLinked h pp total).2 (loadLink h pp) < total + MIN_BLOCK := by
  have hmin : MIN_BLOCK = 24 := rfl
  have hlt := realSize_lt h (loadLink h pp)
  have heven' : blockRealSize h (loadLink h pp) % 2 = 0 := by
    unfold blockRealSize
    omega
  unfold takeLinked
  dsimp only
  split_ifs with hsplit
  · refine ⟨rfl, ?_⟩
    rw [realSize_setSize (by omega)]
    omega
  · refine ⟨rfl, ?_⟩
    rw [realSize_setSize (by omega)]
    omega

/-- `malloc` returns `NULL` and changes nothing, takes a block of the free list, or makes
one at the break. -/
theorem malloc_cases (hsize : size ≠ 0) (hres : malloc h size grant = some (q, h')) :
    (q = 0 ∧ h' = h ∧ findFit h (u64 (HDR_SZ + align8 size)) walkFuel none = some none ∧
        sbrk h (u64 (HDR_SZ + align8 size)) grant = none) ∨
      (∃ pp, LinkOf h pp ∧ OnWalk h (loadLink h pp) ∧
        u64 (HDR_SZ + align8 size) ≤ blockRealSize h (loadLink h pp) ∧
        takeLinked h pp (u64 (HDR_SZ + align8 size)) = (q, h')) ∨
      ∃ top, q = h.brk + HDR_SZ ∧
          h' = setSize { h with brk := top } h.brk (u64 (HDR_SZ + align8 size)) := by
  rw [malloc, if_neg hsize] at hres
  dsimp only at hres
  generalize u64 (HDR_SZ + align8 size) = total at hres ⊢
  cases hfind : findFit h total walkFuel none with
  | none =>
    rw [hfind] at hres
    cases hres
  | some found =>
    rw [hfind] at hres
    cases found with
    | some pp =>
      obtain ⟨hpp, hwalk, hfit⟩ :=
        findFit_some walkFuel (fun b hb => absurd hb (Option.not_mem_none b)) hfind
      exact .inr (.inl ⟨pp, hpp, hwalk, hfit, Option.some.inj hres⟩)
    | none =>
      unfold sbrk at hres ⊢
      dsimp only at hres ⊢
      split_ifs at hres ⊢
      · cases hres
        exact .inr (.inr ⟨h.brk, rfl, rfl⟩)
      · cases hres
        exact .inl ⟨rfl, rfl, rfl, rfl⟩
      · cases hres
        exact .inr (.inr ⟨u64 (h.brk + total), rfl, rfl⟩)
      · cases hres
        exact .inl ⟨rfl, rfl, rfl, rfl⟩

/-- What `malloc` records for its block is the bytes it was looking for, or a few more. -/
theorem malloc_result (hsize : size ≠ 0) (hres : malloc h size grant = some (q, h')) :
    (q = 0 ∧ findFit h (u64 (HDR_SZ + align8 size)) walkFuel none = some none ∧
        sbrk h (u64 (HDR_SZ + align8 size)) grant = none) ∨
      ∃ b, q = b + HDR_SZ ∧ (OnWalk h b ∨ b = h.brk) ∧
          u64 (HDR_SZ + align8 size) ≤ blockRealSize h' b ∧
        blockRealSize h' b < u64 (HDR_SZ + align8 size) + MIN_BLOCK := by
  have hmin : MIN_BLOCK = 24 := rfl
  have heven : u64 (HDR_SZ + align8 size) % 8 = 0 := by
    unfold u64 align8 HDR_SZ
    omega
  have hlt : u64 (HDR_SZ + align8 size) < 2 ^ 64 := Nat.mod_lt _ (by decide)
  rcases malloc_cases hsize hres with ⟨hq, -, hnone⟩ | ⟨pp, -, hwalk, hfit, htake⟩ | ⟨top, rfl,
      rfl⟩
  · exact .inl ⟨hq, hnone⟩
  · obtain ⟨hptr, hle, hless⟩ := takeLinked_size heven hfit
    rw [htake] at hptr hle hless
    exact .inr ⟨_, hptr, .inl hwalk, hle, hless⟩
  · refine .inr ⟨h.brk, rfl, .inr rfl, ?_, ?_⟩
    · rw [realSize_setSize hlt]
      omega
    · rw [realSize_setSize hlt]
      omega

/-- The size and its header do not wrap, or `malloc` has no block for what is left. -/
def MallocOk (h : UserHeap) (size : Nat) (grant : Bool) : Prop :=
  size + 15 < 2 ^ 64 ∨
    (findFit h (u64 (HDR_SZ + align8 size)) walkFuel none = some none ∧
      sbrk h (u64 (HDR_SZ + align8 size)) grant = none)

/-- `NULL`, or a block with room for `size` bytes behind its header. -/
def Enough (h : UserHeap) (q size : Nat) : Prop :=
  q = 0 ∨ HDR_SZ + size ≤ blockRealSize h (q - HDR_SZ)

/-- A size that wraps leaves at most the header. -/
theorem wrapped_total (hsize : size < 2 ^ 64) (hwrap : 2 ^ 64 ≤ size + 15) :
    u64 (HDR_SZ + align8 size) ≤ HDR_SZ := by
  have hhdr : HDR_SZ = 8 := rfl
  unfold u64 align8 u64
  omega

/-- A block with the recorded size `s` has room for the request if nothing has wrapped. -/
theorem room_iff {s : Nat} (hpos : size ≠ 0) (hsize : size < 2 ^ 64)
    (hle : u64 (HDR_SZ + align8 size) ≤ s)
    (hlt : s < u64 (HDR_SZ + align8 size) + MIN_BLOCK) :
    HDR_SZ + size ≤ s ↔ size + 15 < 2 ^ 64 := by
  have hhdr : HDR_SZ = 8 := rfl
  have hmin : MIN_BLOCK = 24 := rfl
  constructor
  · intro hroom
    by_contra hwrap
    have := wrapped_total hsize (not_lt.mp hwrap)
    omega
  · intro hmax
    obtain ⟨htotal, hge, -, -⟩ := total_spec (Nat.pos_of_ne_zero hpos) hmax
    omega

theorem malloc_enough_iff (hsize : size < 2 ^ 64) (hres : malloc h size grant = some (q, h')) :
    Enough h' q size ↔ MallocOk h size grant := by
  unfold Enough MallocOk
  by_cases hzero : size = 0
  · subst hzero
    cases hres
    exact iff_of_true (.inl rfl) (.inl (by decide))
  · rcases malloc_result hzero hres with ⟨rfl, hfind, hbrk⟩ | ⟨b, rfl, -, hle, hlt⟩
    · exact iff_of_true (.inl rfl) (.inr ⟨hfind, hbrk⟩)
    · have hne : b + HDR_SZ ≠ 0 := Nat.succ_ne_zero _
      have hnot : ¬ (findFit h (u64 (HDR_SZ + align8 size)) walkFuel none = some none ∧
          sbrk h (u64 (HDR_SZ + align8 size)) grant = none) := by
        rintro ⟨hfind, hbrk⟩
        rw [malloc, if_neg hzero] at hres
        dsimp only at hres
        rw [hfind] at hres
        dsimp only at hres
        rw [hbrk] at hres
        cases hres
      rw [or_iff_right hne, or_iff_left hnot, Nat.add_sub_cancel]
      exact room_iff hzero hsize hle hlt

/-! ## `calloc` -/

/-- The product is no size, or `malloc` is right about it. -/
def CallocOk (h : UserHeap) (nmemb size : Nat) (grant : Bool) : Prop :=
  2 ^ 64 ≤ nmemb * size ∨ MallocOk h (nmemb * size) grant

/-- Clearing the payload leaves the header. -/
theorem realSize_zeroBytes (h : UserHeap) (b n : Nat) :
    blockRealSize { h with mem := zeroBytes h.mem (b + HDR_SZ) n } b = blockRealSize h b := by
  have hhdr : HDR_SZ = 8 := rfl
  unfold blockRealSize sizeWord
  rw [rdLE_congr fun z _ hz => zeroBytes_of_not_mem h.mem (b + HDR_SZ) (by omega)]

theorem calloc_enough_iff {nmemb : Nat} (hres : calloc h nmemb size grant = some (q, h')) :
    Enough h' q (nmemb * size) ↔ CallocOk h nmemb size grant := by
  unfold CallocOk
  rw [calloc] at hres
  by_cases hzero : nmemb = 0 ∨ size = 0
  · rw [if_pos hzero] at hres
    cases hres
    have hprod : nmemb * size = 0 := Nat.mul_eq_zero.mpr hzero
    rw [hprod]
    exact iff_of_true (.inl rfl) (.inr (.inl (by decide)))
  · rw [if_neg hzero] at hres
    have hpos : 0 < size := Nat.pos_of_ne_zero fun hs => hzero (.inr hs)
    have hover : nmemb > (2 ^ 64 - 1) / size ↔ 2 ^ 64 ≤ nmemb * size := by
      rw [gt_iff_lt, Nat.div_lt_iff_lt_mul hpos]
      omega
    by_cases hbig : 2 ^ 64 ≤ nmemb * size
    · rw [if_pos (hover.mpr hbig)] at hres
      cases hres
      exact iff_of_true (.inl rfl) (.inl hbig)
    · rw [if_neg (mt hover.mp hbig)] at hres
      dsimp only at hres
      rw [u64_of_lt (not_le.mp hbig)] at hres
      rw [or_iff_right hbig]
      obtain ⟨⟨ptr, h₁⟩, hmalloc, hclear⟩ := Option.map_eq_some_iff.mp hres
      rw [← malloc_enough_iff (not_le.mp hbig) hmalloc]
      dsimp only at hclear
      split_ifs at hclear with hnull
      · cases hclear
        exact Iff.rfl
      · cases hclear
        have hprod : nmemb * size ≠ 0 := fun h => hzero (Nat.mul_eq_zero.mp h)
        rcases malloc_result hprod hmalloc with ⟨rfl, -⟩ | ⟨b, rfl, -⟩
        · exact absurd rfl hnull
        · unfold Enough
          rw [Nat.add_sub_cancel, realSize_zeroBytes]

/-! ## `realloc` -/

/-- The block has a header and a payload of its own, away from the free blocks and from
the break. -/
structure OwnBlock (h : UserHeap) (ptr : Nat) : Prop where
  header : HDR_SZ ≤ ptr
  apart : ∀ x, OnWalk h x ∨ x = h.brk → x + 16 ≤ ptr - HDR_SZ ∨ ptr - HDR_SZ + 16 ≤ x

/-- Without a block it is `malloc`.  With one, its header is not smaller than a header, and
the size does not wrap. -/
def ReallocOk (h : UserHeap) (ptr size : Nat) (grant : Bool) : Prop :=
  if ptr = 0 then MallocOk h size grant
  else size = 0 ∨ (HDR_SZ ≤ blockRealSize h (ptr - HDR_SZ) ∧ size + 15 < 2 ^ 64)

/-- A store to a header that is away from the free blocks keeps their links. -/
theorem onWalk_setSize {v : Nat} (hapart : ∀ x, OnWalk h x → x + 16 ≤ b ∨ b + 16 ≤ x)
    (hx : OnWalk (setSize h b v) x) : OnWalk h x := by
  induction hx with
  | head hne => exact .head hne
  | @next y _ hne ih =>
    have hspaced : Spaced b y := by
      rcases hapart y ih with hle | hle
      · exact .inr (.inr hle)
      · exact .inr (.inl hle)
    rw [freeNext_setSize hspaced] at hne ⊢
    exact .next ih hne

/-- Taking a block off the list writes to the link of a free block only. -/
theorem unlinkBlock_size {nb : Nat} (fuel : Nat) {pp : Option Nat} (hpp : LinkOf h pp)
    (hapart : ∀ x, OnWalk h x → x + 16 ≤ b ∨ b + 16 ≤ x)
    (hres : unlinkBlock h nb fuel pp = some h') :
    blockRealSize h' b = blockRealSize h b := by
  induction fuel generalizing pp with
  | zero => cases hres
  | succ fuel ih =>
    rw [unlinkBlock] at hres
    by_cases hzero : loadLink h pp = 0
    · rw [if_pos hzero] at hres
      cases hres
      rfl
    rw [if_neg hzero] at hres
    by_cases hfound : loadLink h pp = nb
    · rw [if_pos hfound] at hres
      cases hres
      unfold blockRealSize
      rw [sizeWord_storeLink fun y hy => ?_]
      rcases hapart y (hpp y hy) with hle | hle
      · exact .inr (.inl hle)
      · exact .inr (.inr hle)
    · rw [if_neg hfound] at hres
      refine ih (fun y hy => ?_) hres
      cases hy
      exact hpp.onWalk hzero

/-- In place, the block gets the size that was asked for with its header, or all there is. -/
theorem growInPlace_size {nb combined : Nat} (hapart : ∀ x, OnWalk h x → x + 16 ≤ b ∨ b + 16 ≤ x)
    (heven : size % 8 = 0) (hcombined : combined < 2 ^ 64 ∧ combined % 2 = 0)
    (hfit : u64 (HDR_SZ + size) ≤ combined)
    (hres : growInPlace h b nb size combined = some h') :
    u64 (HDR_SZ + size) ≤ blockRealSize h' b ∧
      blockRealSize h' b < u64 (HDR_SZ + size) + MIN_BLOCK := by
  have hhdr : HDR_SZ = 8 := rfl
  have hmin : MIN_BLOCK = 24 := rfl
  have hlt : u64 (HDR_SZ + size) < 2 ^ 64 := Nat.mod_lt _ (by decide)
  have hword : u64 (HDR_SZ + size) % 8 = 0 := by
    unfold u64
    omega
  unfold growInPlace at hres
  dsimp only at hres
  split_ifs at hres with hsplit
  · cases hres
    rw [realSize_setSize hlt]
    omega
  · have hkeep := unlinkBlock_size walkFuel (fun y hy => absurd hy (Option.not_mem_none y))
      (fun x hx => hapart x (onWalk_setSize hapart hx)) hres
    rw [hkeep, realSize_setSize hcombined.1]
    omega

/-- A move leaves the header of the new block as `malloc` wrote it. -/
theorem moveBlock_size {n : Nat} (hown : OwnBlock h ptr) (hsize : size ≠ 0)
    (hres : moveBlock h ptr n size grant = some (q, h')) :
    (q = 0 ∧ findFit h (u64 (HDR_SZ + align8 size)) walkFuel none = some none ∧
        sbrk h (u64 (HDR_SZ + align8 size)) grant = none) ∨
      (q ≠ 0 ∧ u64 (HDR_SZ + align8 size) ≤ blockRealSize h' (q - HDR_SZ) ∧
        blockRealSize h' (q - HDR_SZ) < u64 (HDR_SZ + align8 size) + MIN_BLOCK) := by
  have hhdr : HDR_SZ = 8 := rfl
  obtain ⟨⟨new, h₁⟩, hmalloc, hmove⟩ := Option.map_eq_some_iff.mp hres
  dsimp only at hmove
  rcases malloc_result hsize hmalloc with ⟨rfl, hfind, hbrk⟩ | ⟨b, rfl, hwhere, hle, hlt⟩
  · rw [if_pos rfl] at hmove
    cases hmove
    exact .inl ⟨rfl, hfind, hbrk⟩
  · have hne : b + HDR_SZ ≠ 0 := Nat.succ_ne_zero _
    rw [if_neg hne] at hmove
    cases hmove
    have hkeep :
        blockRealSize (free { h₁ with mem := copyBytes h₁.mem (b + HDR_SZ) ptr n } ptr) b =
        blockRealSize h₁ b := by
      have hspaced : Spaced (blockFromPtr ptr) b := by
        rcases hown.apart b hwhere with hap | hap
        · exact .inr (.inr hap)
        · exact .inr (.inl hap)
      have hother : blockFromPtr ptr ≠ b := by
        intro heq
        unfold blockFromPtr at heq
        rcases hown.apart b hwhere with hap | hap <;> omega
      have hcopy :
          sizeWord { h₁ with mem := copyBytes h₁.mem (b + HDR_SZ) ptr n } b = sizeWord h₁ b :=
        rdLE_congr fun z _ hz => copyBytes_of_not_mem h₁.mem (b + HDR_SZ) ptr (by omega)
      have hfree : ∀ g : UserHeap, sizeWord (free g ptr) b = sizeWord g b := by
        intro g
        unfold free
        rw [if_neg (by have := hown.header; omega)]
        dsimp only
        split_ifs
        · exact (sizeWord_setNext hspaced).trans (sizeWord_setSize_ne hspaced hother)
        · exact (sizeWord_setNext hspaced).trans (sizeWord_setSize_ne hspaced hother)
      unfold blockRealSize
      rw [hfree, hcopy]
    rw [Nat.add_sub_cancel, hkeep]
    exact .inr ⟨hne, hle, hlt⟩

/-- A request that grows the block cannot be left without one because its size wrapped:
then it is for no bytes at all, header included. -/
theorem not_null_of_wrapped (hsize : size < 2 ^ 64) (hwrap : 2 ^ 64 ≤ size + 15)
    (hgrow : align8 size ≠ 0) :
    sbrk h (u64 (HDR_SZ + align8 size)) grant ≠ none := by
  have hhdr : HDR_SZ = 8 := rfl
  have hzero : u64 (HDR_SZ + align8 size) = 0 := by
    unfold align8 u64 at hgrow
    unfold align8 u64
    omega
  rw [hzero]
  unfold sbrk
  dsimp only
  rw [if_pos (Or.inl rfl)]
  exact Option.some_ne_none _

theorem realloc_enough_iff (hsize : size < 2 ^ 64) (hown : ptr ≠ 0 → OwnBlock h ptr)
    (hres : realloc h ptr size grant = some (q, h')) :
    Enough h' q size ↔ ReallocOk h ptr size grant := by
  have hhdr : HDR_SZ = 8 := rfl
  unfold ReallocOk
  rw [realloc] at hres
  by_cases hptr : ptr = 0
  · rw [if_pos hptr] at hres ⊢
    exact malloc_enough_iff hsize hres
  rw [if_neg hptr] at hres ⊢
  by_cases hzero : size = 0
  · rw [if_pos hzero] at hres
    cases hres
    exact iff_of_true (.inl rfl) (.inl hzero)
  rw [if_neg hzero] at hres
  rw [or_iff_right hzero]
  dsimp only at hres
  have hown := hown hptr
  have hreal := realSize_lt h (blockFromPtr ptr)
  have halign : align8 size ≤ 2 ^ 64 - 8 := by
    unfold align8 u64
    omega
  have hsame : ptr - HDR_SZ = blockFromPtr ptr := rfl
  rw [hsame]
  by_cases hheader : HDR_SZ ≤ blockRealSize h (blockFromPtr ptr)
  · rw [and_iff_right hheader]
    rw [sub64_of_le hreal hheader] at hres
    by_cases hfits : align8 size ≤ blockRealSize h (blockFromPtr ptr) - HDR_SZ
    · -- The block stays as it is.
      rw [if_pos hfits] at hres
      cases hres
      unfold Enough
      rw [or_iff_right hptr, hsame]
      constructor
      · intro hroom
        by_contra hwrap
        unfold align8 u64 at hfits
        omega
      · intro hmax
        obtain ⟨-, hge, -, -⟩ := total_spec (Nat.pos_of_ne_zero hzero) hmax
        omega
    rw [if_neg hfits] at hres
    split_ifs at hres with hgrow
    · obtain ⟨h₁, hplace, hend⟩ := Option.map_eq_some_iff.mp hres
      cases hend
      have heven : align8 size % 8 = 0 := by
        unfold align8
        omega
      have hcombined : ∀ n m :
          Nat, n % 2 = 0 → m % 2 = 0 → u64 (n + m) < 2 ^ 64 ∧ u64 (n + m) % 2 = 0 := by
        intro n m hn hm
        unfold u64
        omega
      have hreal2 : ∀ c, blockRealSize h c % 2 = 0 := fun c => Nat.mul_mod_left _ _
      obtain ⟨hle, hlt⟩ := growInPlace_size (fun x hx => hown.apart x (.inl hx)) heven
        (hcombined _ _ (hreal2 _) (hreal2 _)) hgrow.2.2 hplace
      unfold Enough
      rw [or_iff_right hptr]
      exact room_iff hzero hsize hle hlt
    · have hpos : align8 size ≠ 0 := by omega
      rcases moveBlock_size hown hpos hres with ⟨rfl, -, hbrk⟩ | ⟨hne, hle, hlt⟩
      · refine iff_of_true (.inl rfl) ?_
        by_contra hwrap
        rw [align8_align8] at hbrk
        exact not_null_of_wrapped hsize (not_lt.mp hwrap) hpos hbrk
      · rw [align8_align8] at hle hlt
        unfold Enough
        rw [or_iff_right hne]
        exact room_iff hzero hsize hle hlt
  · -- The old size wraps, and every size fits.
    have hold : align8 size ≤ sub64 (blockRealSize h (blockFromPtr ptr)) HDR_SZ := by
      unfold sub64 u64
      omega
    rw [if_pos hold] at hres
    cases hres
    refine iff_of_false ?_ fun h => hheader h.1
    rintro (hnull | hroom)
    · exact hptr hnull
    · rw [hsame] at hroom
      omega

/-! ## The four allocators -/

/-- The allocators return `NULL` or a block with room for the request, as long as the size
with its header, rounded up, is a size. -/
theorem allocators_enough_iff (nmemb size : Nat) :
    (∀ heap page, KernelHeap heap page →
      (KmallocEnough heap size page ↔ KmallocOk heap size page)) ∧
    (∀ h grant q h', size < 2 ^ 64 → malloc h size grant = some (q, h') →
      (Enough h' q size ↔ MallocOk h size grant)) ∧
    (∀ h grant q h', calloc h nmemb size grant = some (q, h') →
      (Enough h' q (nmemb * size) ↔ CallocOk h nmemb size grant)) ∧
    (∀ h ptr grant q h', size < 2 ^ 64 → (ptr ≠ 0 → OwnBlock h ptr) →
      realloc h ptr size grant = some (q, h') →
        (Enough h' q size ↔ ReallocOk h ptr size grant)) := by
  refine ⟨?_, ?_, ?_, ?_⟩
  · intro heap page hheap
    exact kmalloc_enough_iff hheap
  · intro h grant q h' hsize hres
    exact malloc_enough_iff hsize hres
  · intro h grant q h' hres
    exact calloc_enough_iff hres
  · intro h ptr grant q h' hsize hown hres
    exact realloc_enough_iff hsize hown hres

/-- A heap without blocks. -/
def emptyHeap : UserHeap := { mem := fun _ => 0, freeList := 0, brk := USER_HEAP_START }

theorem emptyHeap_malloc (size : Nat) (hsize : size ≠ 0)
    (hzero : u64 (HDR_SZ + align8 size) = 0) :
    malloc emptyHeap size true =
      some (USER_HEAP_START + 8, setSize emptyHeap USER_HEAP_START 0) := by
  rw [malloc, if_neg hsize]
  dsimp only
  rw [hzero]
  have hfind : findFit emptyHeap 0 walkFuel none = some none := by
    rw [walkFuel, findFit]
    exact if_pos rfl
  rw [hfind]
  rfl

/-- The four equivalences at one request each: 16 bytes from an empty heap. -/
theorem allocators_enough_small :
    (KmallocEnough [{ addr := 0x200000, size := 0x1000, free := true }] 16 0 ↔
        KmallocOk [{ addr := 0x200000, size := 0x1000, free := true }] 16 0) ∧
      ∃ q h', malloc emptyHeap (2 ^ 64 - 8) true = some (q, h') ∧
        (Enough h' q (2 ^ 64 - 8) ↔ MallocOk emptyHeap (2 ^ 64 - 8) true) := by
  have hheap : KernelHeap [{ addr := 0x200000, size := 0x1000, free := true }] 0 :=
    ⟨by decide, by decide⟩
  have hmalloc := emptyHeap_malloc (2 ^ 64 - 8) (by decide) (by decide)
  exact ⟨(allocators_enough_iff 0 16).1 _ 0 hheap, _, _, hmalloc,
    (allocators_enough_iff 0 (2 ^ 64 - 8)).2.1 _ _ _ _ (by decide) hmalloc⟩

/-- `malloc(2^64 - 8)` returns a block that records no bytes at all. -/
theorem malloc_wraps :
    ∃ q h', malloc emptyHeap (2 ^ 64 - 8) true = some (q, h') ∧ ¬ Enough h' q (2 ^ 64 - 8) := by
  refine ⟨_, _, emptyHeap_malloc (2 ^ 64 - 8) (by decide) (by decide), ?_⟩
  rintro (hnull | hroom)
  · cases hnull
  · have hrec : blockRealSize (setSize emptyHeap USER_HEAP_START 0) USER_HEAP_START = 0 :=
      realSize_setSize (by decide)
    rw [show USER_HEAP_START + 8 - HDR_SZ = USER_HEAP_START from rfl, hrec] at hroom
    exact absurd hroom (by decide)

end Lumin.Libc
