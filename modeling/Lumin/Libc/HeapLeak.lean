import Lumin.Libc.HeapUse

/-!
# What the user heap gives back

When a program has freed every allocation, the blocks on `free_list` hold every
byte that came from `sbrk`, in every run in which no call drops a block from the
list.  Three things drop blocks.  `free` takes over the link of a free next block:
that block leaves the list together with the blocks before it, and its bytes are
not added to the freed block.  `realloc` puts the rest of a block that it splits
at the head of the list: the blocks before that block leave it.  And a `realloc`
that splits after eight bytes reads a link that it has just overwritten.
-/

namespace Lumin.Libc

open Lumin.Lib

/-- One call or store of a program that keeps to its live allocations, with any
size. -/
def heapStep (w : HeapUser) : UserOp → Option HeapUser
  | .malloc size grant =>
    (malloc w.heap size grant).map fun (ptr, h) => { heap := h, live := noteLive w.live ptr size }
  | .calloc nmemb size grant =>
    (calloc w.heap nmemb size grant).map fun (ptr, h) =>
      { heap := h, live := noteLive w.live ptr (nmemb * size) }
  | .realloc ptr size grant =>
    if ptr = 0 ∨ ptr ∈ w.live.map Prod.fst then
      (realloc w.heap ptr size grant).map fun (q, h) =>
        if q = 0 then { heap := h, live := if size = 0 then dropLive w.live ptr else w.live }
        else { heap := h, live := (q, size) :: dropLive w.live ptr }
    else none
  | .free ptr =>
    if ptr = 0 ∨ ptr ∈ w.live.map Prod.fst then
      some { heap := free w.heap ptr, live := dropLive w.live ptr }
    else none
  | .store addr value =>
    if ∃ a ∈ w.live, a.1 ≤ addr ∧ addr < a.1 + a.2 then
      some { w with heap := { w.heap with mem := setByte w.heap.mem addr value } }
    else none

/-- When nothing is live, the sizes of the blocks on the free list add up to the
distance from the first break to the current one. -/
def NoLeak (base : Nat) (w : HeapUser) : Prop :=
  w.live = [] → ∃ l, Linked (freeNext w.heap) (· = 0) w.heap.freeList l ∧
    base + (l.map (blockRealSize w.heap)).sum = w.heap.brk

/-! ## When no block is dropped -/

/-- `free` drops no block: the block after `b` has no free bit, or the link that is
taken over from it is the one to the head of the list. -/
def FreeKeeps (h : UserHeap) (b : Nat) : Prop :=
  b + blockRealSize h b ≤ h.brk → isFree h (b + blockRealSize h b) = true →
    freeNext h (b + blockRealSize h b) = h.freeList

/-- A block of the free list has `total` bytes. -/
def Fits (h : UserHeap) (total : Nat) : Prop := ∃ a, OnFreeList h a ∧ total ≤ blockRealSize h a

/-- `size` payload bytes have a size with their header, and room. -/
def Sized (h : UserHeap) (size : Nat) : Prop :=
  size + 15 < 2 ^ 64 ∧ (Fits h (HDR_SZ + align8 size) ∨ Contiguous h (HDR_SZ + align8 size))

/-- `realloc` can grow the block `b` to `size` payload bytes where it is. -/
def InPlace (h : UserHeap) (b size : Nat) : Prop :=
  let nb := b + blockRealSize h b
  nb ≤ h.brk ∧ isFree h nb = true ∧
    u64 (blockRealSize h b + blockRealSize h nb) ≥ HDR_SZ + size

/-- `realloc` drops no block when it grows the block `b` to `size` payload bytes and
the next block has its free bit set.  To grow into it, it must be a block and not
the word at the break; to split it, it must be the head of the list, and the new
block must not start at its link.  To leave it and move, there must be no block to
move to, or it must be the word at the break and the new block be made there. -/
def GrowKeeps (h : UserHeap) (b size : Nat) (grant : Bool) : Prop :=
  let nb := b + blockRealSize h b
  let combined := u64 (blockRealSize h b + blockRealSize h nb)
  nb ≤ h.brk → isFree h nb = true →
    if combined ≥ HDR_SZ + size then
      nb ≠ h.brk ∧ (combined - (HDR_SZ + size) ≥ MIN_BLOCK →
        h.freeList = nb ∧ b + HDR_SZ + size ≠ nb + HDR_SZ)
    else ¬ Fits h (HDR_SZ + size) ∧ (nb = h.brk ∨ sbrk h (HDR_SZ + size) grant = none)

/-- The condition under which a call drops no block: no size wraps when the header is
added, `sbrk` does not move the break down, and `free` and `realloc` keep the list. -/
def LeakGuard (w : HeapUser) : UserOp → Prop
  | .malloc size _ => size = 0 ∨ Sized w.heap size
  | .calloc nmemb size _ =>
    nmemb * size = 0 ∨ 2 ^ 64 ≤ nmemb * size ∨ Sized w.heap (nmemb * size)
  | .realloc ptr size grant =>
    if ptr = 0 then size = 0 ∨ Sized w.heap size
    else if size = 0 then FreeKeeps w.heap (blockFromPtr ptr)
    else size + 15 < 2 ^ 64 ∧
      (blockRealSize w.heap (blockFromPtr ptr) - HDR_SZ < align8 size →
        GrowKeeps w.heap (blockFromPtr ptr) (align8 size) grant ∧
          (InPlace w.heap (blockFromPtr ptr) (align8 size) ∨ Sized w.heap (align8 size)))
  | .free ptr => ptr ≠ 0 → FreeKeeps w.heap (blockFromPtr ptr)
  | .store _ _ => True

/-! ## The invariant -/

/-- Every free block is on the list, and every block in use is live. -/
structure Accounted (base : Nat) (w : HeapUser) (blocks : List Block) (list : List Nat) :
    Prop where
  shape : HeapShape w.heap base blocks list
  live : LiveIn w.live blocks
  free : ∀ b ∈ blocks, b.free = true → b.addr ∈ list
  used : ∀ b ∈ blocks, b.free = false → b.addr + HDR_SZ ∈ w.live.map Prod.fst

def LeakInv (base : Nat) (w : HeapUser) : Prop := ∃ blocks list, Accounted base w blocks list

variable {w w' : HeapUser} {h h' : UserHeap} {base total ptr size a e : Nat} {x y : Block}
  {blocks blocks' pre post : List Block} {list list' : List Nat} {live : List (Nat × Nat)}
  {grant : Bool}

theorem Tiles.sum_sizes (ht : Tiles a blocks e) : a + (blocks.map Block.size).sum = e := by
  induction blocks generalizing a with
  | nil => exact ht
  | cons b bs ih =>
    obtain ⟨-, -, -, hrest⟩ := ht
    rw [List.map_cons, List.sum_cons, ← Nat.add_assoc]
    exact ih hrest

theorem Tiles.nodup_addr (ht : Tiles a blocks e) : (blocks.map Block.addr).Nodup := by
  refine List.Nodup.map_on (fun b hb c hc heq => ?_) ht.nodup
  exact ht.eq_of_addr hb hc heq

/-- When all blocks are free, the list holds them all. -/
theorem Accounted.noLeak (hw : Accounted base w blocks list) : NoLeak base w := by
  intro hlive
  have hfree : ∀ b ∈ blocks, b.free = true := by
    intro b hb
    by_contra hused
    have hmem := hw.used b hb (by simpa using hused)
    rw [hlive] at hmem
    cases hmem
  have hperm : list.Perm (blocks.map Block.addr) := by
    refine (List.perm_ext_iff_of_nodup hw.shape.chain.nodup hw.shape.tiles.nodup_addr).mpr
      fun a => ?_
    constructor
    · intro ha
      obtain ⟨b, hb, -, rfl⟩ := hw.shape.listed a ha
      exact List.mem_map_of_mem hb
    · intro ha
      obtain ⟨b, hb, rfl⟩ := List.mem_map.mp ha
      exact hw.free b hb (hfree b hb)
  have hsizes : (blocks.map Block.addr).map (blockRealSize w.heap) = blocks.map Block.size := by
    rw [List.map_map]
    exact List.map_congr_left fun b hb => hw.shape.realSize hb
  refine ⟨list, hw.shape.chain, ?_⟩
  calc base + (list.map (blockRealSize w.heap)).sum
    _ = base + ((blocks.map Block.addr).map (blockRealSize w.heap)).sum := by
      rw [(hperm.map _).sum_eq]
    _ = base + (blocks.map Block.size).sum := by rw [hsizes]
    _ = w.heap.brk := hw.shape.tiles.sum_sizes

/-! ## The steps -/

/-- Writes into live payloads change nothing of it. -/
theorem Accounted.payload (hw : Accounted base w blocks list) {mem : Mem}
    (hmem : ∀ z, (∀ b ∈ blocks, b.free = false → ¬ (b.addr + 8 ≤ z ∧ z < b.addr + b.size)) →
      mem z = w.heap.mem z) :
    Accounted base { w with heap := { w.heap with mem := mem } } blocks list :=
  ⟨(hw.shape.payload hmem).1, hw.live, hw.free, hw.used⟩

/-- A new block in use. -/
theorem Accounted.add (hw : Accounted base w blocks list)
    (hserved : Served w.heap h' base blocks blocks' list list' ptr total grant)
    (hsize : size + HDR_SZ ≤ total) :
    Accounted base { heap := h', live := (ptr, size) :: w.live } blocks' list' := by
  obtain ⟨z, hz, hzfree, hzptr, -⟩ := hserved.block
  refine ⟨hserved.shape, hw.live.add hserved.toAllocated size hsize, fun b hb hbfree => ?_,
    fun b hb hbused => ?_⟩
  · rcases hserved.freeOf b hb hbfree with hold | hlisted
    · refine hserved.stays b.addr (hw.free b hold hbfree) fun heq => ?_
      rw [hserved.shape.tiles.eq_of_addr hb hz (by omega), hzfree] at hbfree
      cases hbfree
    · exact hlisted
  · rcases hserved.usedOf b hb hbused with hold | hnew
    · exact List.mem_cons_of_mem _ (hw.used b hold hbused)
    · rw [List.map_cons, ← hnew]
      exact List.mem_cons_self

/-- A pointer other than the dropped one stays. -/
theorem mem_dropLive (hptr : ptr ∈ live.map Prod.fst) (hne : ptr ≠ a) :
    ptr ∈ (dropLive live a).map Prod.fst := by
  obtain ⟨p, hp, rfl⟩ := List.mem_map.mp hptr
  exact List.mem_map_of_mem (List.mem_filter.mpr ⟨hp, by simpa using hne⟩)

/-- The other blocks in use stay live when the pointer of `x` is dropped. -/
theorem Accounted.used_drop (hw : Accounted base w (pre ++ x :: post) list) {b : Block}
    (hb : b ∈ pre ++ post) (hbused : b.free = false) :
    b.addr + HDR_SZ ∈ (dropLive w.live (x.addr + HDR_SZ)).map Prod.fst := by
  refine mem_dropLive (hw.used b (mem_of_mem_rest hb) hbused) fun heq => ?_
  have hap := hw.shape.tiles.apart_split hb
  have hbounds := hw.shape.tiles.bounds (mem_of_mem_rest hb)
  have hx := hw.shape.tiles.bounds (x := x) (by simp)
  omega

/-- A block in use that is freed. -/
theorem Accounted.freeBlock (hw : Accounted base w (pre ++ x :: post) list) (hx : x.free = false)
    (hnext : x.addr + x.size ≤ w.heap.brk → isFree w.heap (x.addr + x.size) = true →
      freeNext w.heap (x.addr + x.size) = w.heap.freeList) :
    Accounted base
      { heap := Libc.free w.heap (x.addr + HDR_SZ), live := dropLive w.live (x.addr + HDR_SZ) }
      (pre ++ { x with free := true } :: post) (x.addr :: list) := by
  refine ⟨free_push hw.shape hx hnext, hw.live.drop hw.shape.tiles fun b hb _ =>
    mem_of_mem_rest hb,
    fun b hb hbfree => ?_, fun b hb hbused => ?_⟩
  · rcases eq_or_mem_rest hb with rfl | hb
    · exact List.mem_cons_self
    · exact List.mem_cons_of_mem _ (hw.free b (mem_of_mem_rest hb) hbfree)
  · rcases eq_or_mem_rest hb with rfl | hb
    · cases hbused
    · exact hw.used_drop hb hbused

theorem Sized.hasRoom (h : Sized w.heap size) (hw : Accounted base w blocks list) :
    HasRoom w.heap list (HDR_SZ + align8 size) :=
  h.2.imp_left fun ⟨a, ha, hfit⟩ => ⟨a, hw.shape.onFreeList.mp ha, hfit⟩

theorem LeakInv.malloc (hw : LeakInv base w) (hguard : LeakGuard w (.malloc size grant))
    (hstep : heapStep w (.malloc size grant) = some w') : LeakInv base w' := by
  obtain ⟨blocks, list, hw⟩ := hw
  rw [heapStep] at hstep
  by_cases hzero : size = 0
  · rw [Libc.malloc, if_pos hzero] at hstep
    cases hstep
    exact ⟨blocks, list, hw⟩
  have hsized : Sized w.heap size := hguard.resolve_left hzero
  have hmax := hsized.1
  rcases malloc_served hw.shape grant (Nat.pos_of_ne_zero hzero) hmax (hsized.hasRoom hw) with
    hfail | ⟨ptr, h', blocks', list', hok, hserved⟩
  · rw [hfail] at hstep
    cases hstep
    exact ⟨blocks, list, hw⟩
  · rw [hok] at hstep
    cases hstep
    have htotal := total_spec (Nat.pos_of_ne_zero hzero) hmax
    refine ⟨blocks', list', ?_⟩
    dsimp only
    rw [noteLive_of_ne hserved.ptr_ne]
    exact hw.add hserved (by omega)

theorem LeakInv.calloc {nmemb : Nat} (hw : LeakInv base w)
    (hguard : LeakGuard w (.calloc nmemb size grant))
    (hstep : heapStep w (.calloc nmemb size grant) = some w') : LeakInv base w' := by
  obtain ⟨blocks, list, hw⟩ := hw
  rw [heapStep, Libc.calloc] at hstep
  split at hstep
  · cases hstep
    exact ⟨blocks, list, hw⟩
  rename_i hzero
  split at hstep
  · cases hstep
    exact ⟨blocks, list, hw⟩
  rename_i hover
  have hpos : 0 < nmemb * size := Nat.mul_pos (by omega) (by omega)
  have hlt : nmemb * size < 2 ^ 64 := by
    have := (Nat.le_div_iff_mul_le (show 0 < size by omega)).mp (not_lt.mp hover)
    omega
  have hsized : Sized w.heap (nmemb * size) :=
    (hguard.resolve_left (by omega)).resolve_left (by omega)
  have hmax := hsized.1
  dsimp only at hstep
  rw [u64_of_lt hlt] at hstep
  rcases malloc_served hw.shape grant hpos hmax (hsized.hasRoom hw) with
    hfail | ⟨ptr, h', blocks', list', hok, hserved⟩
  · rw [hfail] at hstep
    cases hstep
    exact ⟨blocks, list, hw⟩
  · have hptr := hserved.ptr_ne
    simp only [hok, Option.map_some, if_neg hptr, Option.some.injEq] at hstep
    subst hstep
    have htotal := total_spec hpos hmax
    obtain ⟨b, hb, hbfree, hbptr, hbsize⟩ := hserved.block
    have hadd : Accounted base { heap := h', live := (ptr, nmemb * size) :: w.live } blocks'
        list' :=
      hw.add hserved (by omega)
    refine ⟨blocks', list', ?_⟩
    rw [noteLive_of_ne hptr]
    refine hadd.payload fun z hz => zeroBytes_of_not_mem _ _ fun hin => hz b hb hbfree ?_
    have hhdr : HDR_SZ = 8 := rfl
    omega

theorem LeakInv.store {addr : Nat} {value : UInt8} (hw : LeakInv base w)
    (hstep : heapStep w (.store addr value) = some w') : LeakInv base w' := by
  obtain ⟨blocks, list, hw⟩ := hw
  rw [heapStep] at hstep
  split at hstep
  · rename_i hin
    cases hstep
    obtain ⟨a, ha, haddr⟩ := hin
    obtain ⟨b, hb, hbfree, hab, hbsize⟩ := hw.live.block a ha
    refine ⟨blocks, list, hw.payload fun z hz => setByte_of_ne _ ?_⟩
    rintro rfl
    have hhdr : HDR_SZ = 8 := rfl
    exact hz b hb hbfree (by omega)
  · cases hstep

theorem LeakInv.free (hw : LeakInv base w) (hguard : LeakGuard w (.free ptr))
    (hstep : heapStep w (.free ptr) = some w') : LeakInv base w' := by
  obtain ⟨blocks, list, hw⟩ := hw
  rw [heapStep] at hstep
  split at hstep
  · rename_i hin
    cases hstep
    by_cases hzero : ptr = 0
    · rw [Libc.free, if_pos hzero, hzero, dropLive_zero hw.live]
      exact ⟨blocks, list, hw⟩
    · obtain ⟨pre, x, post, rfl, hx, rfl⟩ := hw.live.block_of_mem (hin.resolve_left hzero)
      have hkeeps : FreeKeeps w.heap (blockFromPtr (x.addr + HDR_SZ)) := hguard hzero
      rw [blockFromPtr, Nat.add_sub_cancel, FreeKeeps, hw.shape.realSize (by simp)] at hkeeps
      exact ⟨_, _, hw.freeBlock hx hkeeps⟩
  · cases hstep

/-- The block `x` has got the size `newSize`, and the other blocks in use are what they
were. -/
theorem Accounted.resize (hw : Accounted base w (pre ++ x :: post) list) (hx : x.free = false)
    (hshape : HeapShape h' base blocks' list') (newSize : Nat)
    (hmem : { x with size := newSize } ∈ blocks') (hsize : size + HDR_SZ ≤ newSize)
    (hkept : ∀ b ∈ pre ++ post, b.free = false → b ∈ blocks')
    (hfree : ∀ b ∈ blocks', b.free = true → b.addr ∈ list')
    (hused : ∀ b ∈ blocks', b.free = false → b = { x with size := newSize } ∨ b ∈ pre ++ post) :
    Accounted base
      { heap := h', live := (x.addr + HDR_SZ, size) :: dropLive w.live (x.addr + HDR_SZ) }
      blocks' list' := by
  refine ⟨hshape, hw.live.resize hw.shape.tiles hx newSize hmem hsize hkept, hfree,
    fun b hb hbused => ?_⟩
  rw [List.map_cons]
  rcases hused b hb hbused with rfl | hother
  · exact List.mem_cons_self
  · exact List.mem_cons_of_mem _ (hw.used_drop hother hbused)

/-- `realloc` that splits the next block, the head of the list. -/
theorem Accounted.growSplit (hw : Accounted base w (pre ++ x :: y :: post) list)
    (hx : x.free = false)
    (hhead : w.heap.freeList = y.addr) (hylisted : y.addr ∈ list) {asize : Nat}
    (hmod : asize % 8 = 0)
    (hgrow : x.size + 16 ≤ HDR_SZ + asize) (hfit : HDR_SZ + asize + MIN_BLOCK ≤ x.size + y.size)
    (hyfree : y.free = true) (hsize : size ≤ asize) :
    let split := x.addr + HDR_SZ + asize
    let h₁ := setSize w.heap split (setLowBit (x.size + y.size - (HDR_SZ + asize)))
    let h₂ := setNext h₁ split (freeNext h₁ y.addr)
    LeakInv base
      { heap := setSize { h₂ with freeList := split } x.addr (HDR_SZ + asize),
        live := (x.addr + HDR_SZ, size) :: dropLive w.live (x.addr + HDR_SZ) } := by
  intro split h₁ h₂
  -- The list begins with `y`.
  obtain ⟨l₂, rfl⟩ : ∃ l₂, list = y.addr :: l₂ := by
    have hchain := hw.shape.chain
    cases list with
    | nil => cases hylisted
    | cons a l₂ => exact ⟨l₂, by rw [← hhead, hchain.1]⟩
  have hfront : HeapShape w.heap base (pre ++ x :: y :: post) ([] ++ y.addr :: l₂) := hw.shape
  have hshape := hfront.growSplit hx hmod hgrow hfit
  refine ⟨_, _, hw.resize hx hshape (HDR_SZ + asize) (by simp) (by omega) ?_ ?_ ?_⟩
  · intro b hb hbused
    rcases eq_or_mem_rest hb with rfl | hb
    · rw [hyfree] at hbused
      cases hbused
    · exact mem_of_mem_rest (mem_of_mem_rest hb)
  · have hold : ∀ b ∈ pre ++ x :: y :: post, b ≠ y → b.free = true → b.addr ∈ split :: l₂ := by
      intro b hb hne hbfree
      have hmem := hw.free b hb hbfree
      refine List.mem_cons_of_mem _ ((List.mem_cons.mp hmem).resolve_left fun heq => hne ?_)
      exact hw.shape.tiles.eq_of_addr hb (by simp) heq
    have hrest := (List.nodup_cons.mp (List.nodup_middle.mp hw.shape.tiles.nodup)).2
    have hy := (List.nodup_cons.mp (List.nodup_middle.mp hrest)).1
    intro b hb hbfree
    rcases eq_or_mem_rest hb with rfl | hb
    · rw [hx] at hbfree
      cases hbfree
    rcases eq_or_mem_rest hb with rfl | hrest
    · exact List.mem_cons_self
    · exact hold b (mem_of_mem_rest (mem_of_mem_rest hrest)) (fun heq => hy (heq ▸ hrest)) hbfree
  · intro b hb hbused
    rcases eq_or_mem_rest hb with rfl | hb
    · exact Or.inl rfl
    rcases eq_or_mem_rest hb with rfl | hb
    · cases hbused
    · exact Or.inr (mem_of_mem_rest hb)

/-- `realloc` that takes all of the next block. -/
theorem Accounted.growAbsorb (hw : Accounted base w (pre ++ x :: y :: post) list)
    (hx : x.free = false) (hyfree : y.free = true) (hsize : size + HDR_SZ ≤ x.size + y.size) :
    ∃ h', unlinkBlock (setSize w.heap x.addr (x.size + y.size)) y.addr walkFuel none = some h' ∧
      LeakInv base
        { heap := h', live := (x.addr + HDR_SZ, size) :: dropLive w.live (x.addr + HDR_SZ) } := by
  obtain ⟨h', list', hunlink, hshape, hstays⟩ := hw.shape.growAbsorb hx
  have hlisted : ∀ b ∈ pre ++ post, b.free = true → b.addr ∈ list' := by
    intro b hb hbfree
    have hmem : b ∈ pre ++ x :: y :: post := mem_of_mem_rest (mem_of_mem_rest hb)
    refine hstays b.addr (hw.free b hmem hbfree) fun heq => ?_
    have hby := hw.shape.tiles.eq_of_addr hmem (by simp) heq
    have hap := hshape.tiles.apart_split hb
    have hbb := hw.shape.tiles.bounds hmem
    obtain ⟨-, -, -, hyaddr, -⟩ := tiles_middle.mp hw.shape.tiles
    rw [hby] at hap
    rw [hby] at hbb
    dsimp only at hap
    omega
  refine ⟨h', hunlink, _, list', hw.resize hx hshape (x.size + y.size) (by simp) hsize ?_ ?_ ?_⟩
  · intro b hb hbused
    rcases eq_or_mem_rest hb with rfl | hb
    · rw [hyfree] at hbused
      cases hbused
    · exact mem_of_mem_rest hb
  · intro b hb hbfree
    rcases eq_or_mem_rest hb with rfl | hb
    · rw [hx] at hbfree
      cases hbfree
    · exact hlisted b hb hbfree
  · intro b hb _
    exact (eq_or_mem_rest hb).imp_right mem_of_mem_rest

/-- `realloc` in place. -/
theorem Accounted.growInPlace (hw : Accounted base w (pre ++ x :: post) list)
    (hx : x.free = false)
    {asize : Nat} (hmod : asize % 8 = 0) (hgrow : x.size - HDR_SZ < asize) (hsize : size ≤ asize)
    (hguard : GrowKeeps w.heap x.addr asize grant)
    (hfree : isFree w.heap (x.addr + x.size) = true)
    (hfit : u64 (x.size + blockRealSize w.heap (x.addr + x.size)) ≥ HDR_SZ + asize) :
    ∃ h', Libc.growInPlace w.heap x.addr (x.addr + x.size) asize
        (u64 (x.size + blockRealSize w.heap (x.addr + x.size))) = some h' ∧
      LeakInv base
        { heap := h', live := (x.addr + HDR_SZ, size) :: dropLive w.live (x.addr + HDR_SZ) } := by
  have hhdr : HDR_SZ = 8 := rfl
  have hmin : MIN_BLOCK = 24 := rfl
  have hxb := hw.shape.tiles.bounds (x := x) (by simp)
  have hreal := hw.shape.realSize (x := x) (by simp)
  have hlt := hw.shape.brk_lt
  simp only [GrowKeeps, hreal] at hguard
  have hguard := hguard hxb.2.1 hfree
  rw [if_pos hfit] at hguard
  obtain ⟨hnotend, hhead⟩ := hguard
  obtain ⟨y, post', rfl, hy⟩ := hw.shape.tiles.next.resolve_left fun hend => hnotend hend.2
  have hyb := hw.shape.tiles.bounds (x := y) (by simp)
  have hyreal := hw.shape.realSize (x := y) (by simp)
  have hyfree : y.free = true := by
    rw [← hy, hw.shape.isFree_eq (by simp)] at hfree
    exact hfree
  have hu : u64 (x.size + y.size) = x.size + y.size := u64_of_lt (by omega)
  rw [← hy, hyreal, hu] at hhead hfit ⊢
  have hneed : u64 (HDR_SZ + asize) = HDR_SZ + asize := u64_of_lt (by omega)
  unfold Libc.growInPlace
  dsimp only
  rw [hneed]
  by_cases hsplit : x.size + y.size - (HDR_SZ + asize) ≥ MIN_BLOCK
  · obtain ⟨hfirst, hne⟩ := hhead hsplit
    rw [if_pos hsplit]
    exact ⟨_, rfl, hw.growSplit hx hfirst (hw.free y (by simp) hyfree) hmod (by omega) (by omega)
      hyfree hsize⟩
  · rw [if_neg hsplit]
    exact hw.growAbsorb hx hyfree (by omega)

/-- `realloc` by a new block. -/
theorem Accounted.moveBlock (hw : Accounted base w (pre ++ x :: post) list) (hx : x.free = false)
    {asize : Nat} (hgrow : x.size - HDR_SZ < asize) (hsize : size ≤ asize)
    (hsized : Sized w.heap asize) (halign : align8 asize = asize)
    (hguard : isFree w.heap (x.addr + x.size) = true → ¬ Fits w.heap (HDR_SZ + asize) ∧
      (x.addr + x.size = w.heap.brk ∨ sbrk w.heap (HDR_SZ + asize) grant = none))
    (hstep : (Libc.moveBlock w.heap (x.addr + HDR_SZ) (x.size - HDR_SZ) asize grant).map
      (fun (q, h) => if q = 0 then { heap := h, live := w.live }
        else { heap := h, live := (q, size) :: dropLive w.live (x.addr + HDR_SZ) }) = some w') :
    LeakInv base w' := by
  have hhdr : HDR_SZ = 8 := rfl
  have hmax := hsized.1
  rcases malloc_served hw.shape grant (show 0 < asize by omega) hmax (hsized.hasRoom hw) with
    hfail | ⟨new, h', blocks', list', hok, hserved⟩
  · simp only [Libc.moveBlock, hfail, Option.map_some, if_true, Option.some.injEq] at hstep
    subst hstep
    exact ⟨_, list, hw⟩
  · rw [halign] at hserved
    have hnew := hserved.ptr_ne
    simp only [Libc.moveBlock, hok, Option.map_some, if_neg hnew, Option.some.injEq] at hstep
    subst hstep
    have hadd : Accounted base { heap := h', live := (new, size) :: w.live } blocks' list' :=
      hw.add hserved (by omega)
    obtain ⟨z, hz, hzfree, hzptr, hzsize⟩ := hserved.block
    have hcopy : ∀ a, (∀ b ∈ blocks', b.free = false → ¬ (b.addr + 8 ≤ a ∧ a < b.addr + b.size)) →
        copyBytes h'.mem new (x.addr + HDR_SZ) (x.size - HDR_SZ) a = h'.mem a := by
      intro a ha
      refine copyBytes_of_not_mem _ _ _ fun hin => ha z hz hzfree ?_
      omega
    obtain ⟨hshape, htop⟩ := hserved.shape.payload hcopy
    have hcopied := hadd.payload hcopy
    have hmem : x ∈ pre ++ x :: post := by simp
    have hne : new ≠ x.addr + HDR_SZ := hserved.fresh x hmem hx
    -- A free next block would have left nothing to move to but the word at the break.
    have hnext :
        isFree { h' with mem := copyBytes h'.mem new (x.addr + HDR_SZ) (x.size - HDR_SZ) }
        (x.addr + x.size) ≠ true := by
      intro hfree
      obtain ⟨hold, hother⟩ := hserved.isFree_next hw.shape hmem hshape htop hfree
      obtain ⟨hnone, hend⟩ := hguard hold
      rcases hserved.source with ⟨a, ha, hfits⟩ | ⟨hptr, hgrant⟩
      · exact hnone ⟨a, hw.shape.onFreeList.mpr ha, hfits⟩
      · rcases hend with hend | hrefused
        · exact hother (by rw [hptr, hend])
        · exact hgrant hrefused
    obtain ⟨pre', post', hblocks⟩ := List.append_of_mem (hserved.kept x hmem hx)
    rw [hblocks] at hcopied
    have hdone := hcopied.freeBlock hx fun _ hfree => absurd hfree hnext
    rw [dropLive, List.filter_cons_of_pos (by simpa using hne)] at hdone
    exact ⟨_, _, hdone⟩

theorem LeakInv.realloc (hw : LeakInv base w) (hguard : LeakGuard w (.realloc ptr size grant))
    (hstep : heapStep w (.realloc ptr size grant) = some w') : LeakInv base w' := by
  have hhdr : HDR_SZ = 8 := rfl
  obtain ⟨blocks, list, hacc⟩ := id hw
  rw [heapStep] at hstep
  rw [LeakGuard] at hguard
  split at hstep
  · rename_i hin
    by_cases hnull : ptr = 0
    · subst hnull
      have hmalloc : LeakGuard w (.malloc size grant) := by rwa [if_pos rfl] at hguard
      refine hw.malloc hmalloc (hstep ▸ ?_ : heapStep w (.malloc size grant) = some w')
      rw [heapStep, Libc.realloc, if_pos rfl, dropLive_zero hacc.live, ite_self]
      refine Option.map_congr fun r _ => ?_
      by_cases hr : r.1 = 0
      · simp only [noteLive, if_pos hr]
      · simp only [noteLive, if_neg hr]
    rw [if_neg hnull] at hguard
    obtain ⟨pre, x, post, rfl, hx, rfl⟩ := hacc.live.block_of_mem (hin.resolve_left hnull)
    have hxb := hacc.shape.tiles.bounds (x := x) (by simp)
    have hreal := hacc.shape.realSize (x := x) (by simp)
    rw [blockFromPtr, Nat.add_sub_cancel] at hguard
    by_cases hzero : size = 0
    · rw [if_pos hzero, FreeKeeps, hreal] at hguard
      simp only [Libc.realloc, if_neg hnull, Option.map_some, if_true, if_pos hzero,
        Option.some.injEq] at hstep
      subst hstep
      exact ⟨_, _, hacc.freeBlock hx hguard⟩
    simp only [if_neg hzero] at hstep hguard
    obtain ⟨hmax, hguard⟩ := hguard
    obtain ⟨-, hle, hmod, hmin⟩ := total_spec (Nat.pos_of_ne_zero hzero) hmax
    rw [hreal] at hguard
    rcases realloc_cases hacc.shape.tiles hacc.shape.brk_lt (hacc.shape.realSize (by simp)) grant
        hzero (by omega) with
      ⟨hfits, heq⟩ | ⟨hmore, hfree, hfit, heq⟩ | ⟨hmore, hnot, heq⟩
    · simp only [heq, Option.map_some, if_neg hnull, Option.some.injEq] at hstep
      subst hstep
      refine ⟨_, list, hacc.resize hx hacc.shape x.size (by simp) (by omega)
        (fun b hb _ => mem_of_mem_rest hb) hacc.free fun b hb _ => ?_⟩
      exact eq_or_mem_rest hb
    · obtain ⟨h', hgrow, hinv⟩ := hacc.growInPlace hx hmod hmore hle (hguard hmore).1 hfree hfit
      simp only [heq, hgrow, Option.map_some, if_neg hnull, Option.some.injEq] at hstep
      subst hstep
      exact hinv
    · rw [heq] at hstep
      obtain ⟨hguard, hroom⟩ := hguard hmore
      have hsized := hroom.resolve_left fun hplace => by
        simp only [InPlace, hreal] at hplace
        exact hnot hplace.2.1 hplace.2.2
      refine hacc.moveBlock hx hmore hle hsized (align8_align8 size) ?_ hstep
      intro hfree
      simp only [GrowKeeps, hreal] at hguard
      have hguard := hguard hxb.2.1 hfree
      rwa [if_neg (hnot hfree)] at hguard
  · cases hstep

/-- Every guarded step keeps the invariant. -/
theorem LeakInv.step {o : UserOp} (hw : LeakInv base w) (hguard : LeakGuard w o)
    (hstep : heapStep w o = some w') : LeakInv base w' := by
  cases o with
  | malloc size grant => exact hw.malloc hguard hstep
  | calloc nmemb size grant => exact hw.calloc hguard hstep
  | realloc ptr size grant => exact hw.realloc hguard hstep
  | free ptr => exact hw.free hguard hstep
  | store addr value => exact hw.store hstep

theorem freshHeap_leakInv (mem : Mem) (hpos : 0 < base) (hlt : base < 2 ^ 64) :
    LeakInv base (freshHeap mem base) :=
  ⟨[], [], ⟨rfl, by simp, rfl, by simp, hpos, hlt⟩, ⟨by simp [freshHeap], by simp [freshHeap]⟩,
    by simp, by simp⟩

/-- **The heap does not leak.**  In every run in which no call drops a block from the
list, whenever every allocation has been freed the blocks on the list hold every byte
between the first and the current break. -/
theorem noLeak_of_reach (mem : Mem) (base : Nat) (hpos : 0 < base) (hlt : base < 2 ^ 64)
    (w : HeapUser) (h : Reach heapStep LeakGuard (freshHeap mem base) w) : NoLeak base w := by
  have hinv : LeakInv base w := by
    refine h.invariant (LeakInv base) (freshHeap_leakInv mem hpos hlt) ?_
    intro s o s' hs hguard hstep
    exact hs.step hguard hstep
  obtain ⟨blocks, list, hacc⟩ := hinv
  exact hacc.noLeak

/-- Two allocations, freed in the order in which they were made. -/
theorem noLeak_of_reach_inOrder :
    (0 < USER_HEAP_START ∧ USER_HEAP_START < 2 ^ 64) ∧
      ∃ w, run heapStep zeroHeap [.malloc 8 true, .malloc 8 true, .free (USER_HEAP_START + 8),
          .free (USER_HEAP_START + 24)] = some w ∧
        w.live = [] ∧ NoLeak USER_HEAP_START w := by
  have hone : (heapStep zeroHeap (.malloc 8 true)).map (fun w => w.heap.brk) =
      some (USER_HEAP_START + 16) := by
    decide +kernel
  have hfirst : (run heapStep zeroHeap [.malloc 8 true, .malloc 8 true]).map (fun w =>
      isFree w.heap (USER_HEAP_START + blockRealSize w.heap USER_HEAP_START)) = some false := by
    decide +kernel
  have hsecond : (run heapStep zeroHeap
      [.malloc 8 true, .malloc 8 true, .free (USER_HEAP_START + 8)]).map (fun w =>
        isFree w.heap (USER_HEAP_START + 16 + blockRealSize w.heap (USER_HEAP_START + 16))) =
      some false := by
    decide +kernel
  have hlive :
      (run heapStep zeroHeap [.malloc 8 true, .malloc 8 true, .free (USER_HEAP_START + 8),
      .free (USER_HEAP_START + 24)]).map HeapUser.live = some [] := by
    decide +kernel
  obtain ⟨w₂, hw₂, hfirst⟩ := Option.map_eq_some_iff.mp hfirst
  obtain ⟨w₃, hw₃, hsecond⟩ := Option.map_eq_some_iff.mp hsecond
  obtain ⟨w, hw, hlive⟩ := Option.map_eq_some_iff.mp hlive
  obtain ⟨w₁, h₁, hrest⟩ := Option.bind_eq_some_iff.mp hw₂
  obtain ⟨w₂, h₂, hend⟩ := Option.bind_eq_some_iff.mp hrest
  cases hend
  have h₃ : heapStep w₂ (.free (USER_HEAP_START + 8)) = some w₃ := by
    simpa only [run, h₁, h₂, Option.bind_some, Option.bind_fun_some] using hw₃
  have h₄ : heapStep w₃ (.free (USER_HEAP_START + 24)) = some w := by
    simpa only [run, h₁, h₂, h₃, Option.bind_some, Option.bind_fun_some] using hw
  have hmalloc : ∀ w : HeapUser, w.heap.brk ≤ USER_HEAP_START + 16 →
      LeakGuard w (.malloc 8 true) := by
    intro w hlow
    have htotal : HDR_SZ + align8 8 = 16 := by decide
    have hstart : USER_HEAP_START = 0x8100000000 := rfl
    exact Or.inr ⟨by decide, Or.inr (Or.inl (by omega))⟩
  rw [h₁] at hone
  have hbrk : w₁.heap.brk ≤ USER_HEAP_START + 16 := le_of_eq (Option.some.inj hone)
  have hguard₁ : LeakGuard w₂ (.free (USER_HEAP_START + 8)) := by
    intro _ _ hfree
    exact absurd (hfirst.symm.trans hfree) (by decide)
  have hguard₂ : LeakGuard w₃ (.free (USER_HEAP_START + 24)) := by
    intro _ _ hfree
    exact absurd (hsecond.symm.trans hfree) (by decide)
  exact ⟨⟨by decide, by decide⟩, w, hw, hlive,
    noLeak_of_reach (fun _ => 0) USER_HEAP_START (by decide) (by decide) w
      ((((Reach.start.next (hmalloc _ (by decide)) h₁).next (hmalloc _ hbrk) h₂).next
        hguard₁ h₃).next hguard₂ h₄)⟩

/-- Two allocations, the second freed first: the first one merges with it and takes it
off the list. -/
def secondFirst : List UserOp :=
  [.malloc 8 true, .malloc 8 true, .free (USER_HEAP_START + 24), .free (USER_HEAP_START + 8)]

theorem secondFirst_leaks :
    ∃ w, Reach heapStep (fun _ _ => True) zeroHeap w ∧ ¬ NoLeak USER_HEAP_START w := by
  have hrun : (run heapStep zeroHeap secondFirst).map (fun w =>
      (w.live, w.heap.freeList, freeNext w.heap USER_HEAP_START,
        blockRealSize w.heap USER_HEAP_START, w.heap.brk)) =
      some ([], USER_HEAP_START, 0, 16, USER_HEAP_START + 32) := by
    decide +kernel
  obtain ⟨w, hw, hstate⟩ := Option.map_eq_some_iff.mp hrun
  simp only [Prod.mk.injEq] at hstate
  obtain ⟨hlive, hhead, hnext, hsize, hbrk⟩ := hstate
  refine ⟨w, reach_of_run hw, fun hno => ?_⟩
  obtain ⟨l, hl, hsum⟩ := hno hlive
  have hone : Linked (freeNext w.heap) (· = 0) w.heap.freeList [USER_HEAP_START] :=
    ⟨hhead, by decide, hnext⟩
  rw [hl.unique hone, List.map_singleton, List.sum_singleton, hsize, hbrk] at hsum
  omega

end Lumin.Libc
