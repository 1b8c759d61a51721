import Lumin.Lib.Transition
import Lumin.Libc.HeapSteps

/-!
# Separation of user heap allocations

The payloads of a program's live allocations are disjoint and lie between the
first and the current break, in every run in which `free` and `realloc` find
what they assume about the next block.  Two assumptions can fail.  A block with
its free bit set can be off the list, because a merge in `free` drops the blocks
before the merged one and leaves their bits.  And `realloc` reads the link of
the next block after it has overwritten it, when it grows by eight bytes.
-/

namespace Lumin.Libc

open Lumin.Lib

/-! ## Live allocations and blocks -/

/-- Each live allocation is the payload of a block in use that is large enough. -/
structure LiveIn (live : List (Nat × Nat)) (blocks : List Block) : Prop where
  block : ∀ a ∈ live, ∃ b ∈ blocks, b.free = false ∧ a.1 = b.addr + HDR_SZ ∧ a.2 + HDR_SZ ≤ b.size
  nodup : (live.map Prod.fst).Nodup

/-- The heap has a shape that carries the live allocations. -/
def UserInv (base : Nat) (w : HeapUser) : Prop :=
  ∃ blocks list, HeapShape w.heap base blocks list ∧ LiveIn w.live blocks

/-- The live payloads are disjoint and lie between the first and the current
break. -/
structure PayloadsApart (base : Nat) (w : HeapUser) : Prop where
  disjoint : w.live.Pairwise fun a b => a.1 + a.2 ≤ b.1 ∨ b.1 + b.2 ≤ a.1
  inside : ∀ a ∈ w.live, base ≤ a.1 ∧ a.1 + a.2 ≤ w.heap.brk

variable {h h' : UserHeap} {base total ptr size : Nat} {x y : Block}
  {blocks blocks' pre post : List Block} {list list' : List Nat} {live : List (Nat × Nat)}

theorem UserInv.payloadsApart {w : HeapUser} (hw : UserInv base w) : PayloadsApart base w := by
  obtain ⟨blocks, list, hs, hlive⟩ := hw
  refine ⟨(List.pairwise_map.mp hlive.nodup).imp_of_mem ?_, ?_⟩
  · intro a c ha hc hne
    obtain ⟨b, hb, -, hab, hbsize⟩ := hlive.block a ha
    obtain ⟨d, hd, -, hcd, hdsize⟩ := hlive.block c hc
    rcases hs.tiles.eq_or_apart hb hd with rfl | hap
    · exact absurd (hab.trans hcd.symm) hne
    · omega
  · intro a ha
    obtain ⟨b, hb, -, hab, hbsize⟩ := hlive.block a ha
    have := hs.tiles.bounds hb
    omega

/-- The live allocations stay where they are when the blocks in use do. -/
theorem LiveIn.mono (hlive : LiveIn live blocks)
    (hkept : ∀ b ∈ blocks, b.free = false → b ∈ blocks') : LiveIn live blocks' := by
  refine ⟨fun a ha => ?_, hlive.nodup⟩
  obtain ⟨b, hb, hbfree, hab, hbsize⟩ := hlive.block a ha
  exact ⟨b, hkept b hb hbfree, hbfree, hab, hbsize⟩

/-- A new block carries one more allocation. -/
theorem LiveIn.add (hlive : LiveIn live blocks)
    (hall : Allocated h h' base blocks blocks' list list' ptr total) (size : Nat)
    (hsize : size + HDR_SZ ≤ total) :
    LiveIn ((ptr, size) :: live) blocks' := by
  obtain ⟨b, hb, hbfree, hptr, hbsize⟩ := hall.block
  refine ⟨List.forall_mem_cons.mpr ⟨⟨b, hb, hbfree, hptr, by dsimp only; omega⟩,
    (hlive.mono hall.kept).block⟩, ?_⟩
  rw [List.map_cons, List.nodup_cons]
  refine ⟨fun hmem => ?_, hlive.nodup⟩
  obtain ⟨a, ha, haptr⟩ := List.mem_map.mp hmem
  obtain ⟨c, hc, hcfree, hac, -⟩ := hlive.block a ha
  exact hall.fresh c hc hcfree (by dsimp only at haptr; omega)

/-- The allocations other than the one in `x` do not use `x`. -/
theorem LiveIn.drop (ht : Tiles base (pre ++ x :: post) h.brk)
    (hlive : LiveIn live (pre ++ x :: post))
    (hblocks : ∀ b ∈ pre ++ post, b.free = false → b ∈ blocks') :
    LiveIn (dropLive live (x.addr + HDR_SZ)) blocks' := by
  refine ⟨fun a ha => ?_, hlive.nodup.sublist (List.filter_sublist.map _)⟩
  obtain ⟨hmem, hne⟩ := List.mem_filter.mp ha
  have hne : a.1 ≠ x.addr + HDR_SZ := by simpa using hne
  obtain ⟨b, hb, hbfree, hab, hbsize⟩ := hlive.block a hmem
  refine ⟨b, hblocks b ?_ hbfree, hbfree, hab, hbsize⟩
  rcases List.mem_append.mp hb with hb | hb
  · exact List.mem_append_left _ hb
  rcases List.mem_cons.mp hb with rfl | hb
  · exact absurd hab hne
  · exact List.mem_append_right _ hb

/-- The block of a live pointer. -/
theorem LiveIn.block_of_mem (hlive : LiveIn live blocks) (hptr : ptr ∈ live.map Prod.fst) :
    ∃ pre x post, blocks = pre ++ x :: post ∧ x.free = false ∧ ptr = x.addr + HDR_SZ := by
  obtain ⟨a, ha, rfl⟩ := List.mem_map.mp hptr
  obtain ⟨b, hb, hbfree, hab, -⟩ := hlive.block a ha
  obtain ⟨pre, post, rfl⟩ := List.append_of_mem hb
  exact ⟨pre, b, post, rfl, hbfree, hab⟩

/-! ## The steps -/

/-- What `realloc` has to find when it grows the block `b` to `size` payload
bytes and the next block has its free bit set.  To split the next block it must
be on the list, and the new block must not start at its link.  To take all of it
it must be a block and not the word at the break.  To leave it and free `b` it
must be on the list. -/
def GrowGuard (h : UserHeap) (b size : Nat) : Prop :=
  let nb := b + blockRealSize h b
  let combined := u64 (blockRealSize h b + blockRealSize h nb)
  nb ≤ h.brk → isFree h nb = true →
    if combined ≥ HDR_SZ + size then
      if combined - (HDR_SZ + size) ≥ MIN_BLOCK then
        OnFreeList h nb ∧ b + HDR_SZ + size ≠ nb + HDR_SZ
      else nb ≠ h.brk
    else OnFreeList h nb

/-- The condition under which a call keeps the payloads apart. -/
def UserGuard (w : HeapUser) : UserOp → Prop
  | .free ptr => ptr ≠ 0 → NextListed w.heap (blockFromPtr ptr)
  | .realloc ptr size _ =>
    ptr ≠ 0 →
      if size = 0 then NextListed w.heap (blockFromPtr ptr)
      else
        blockRealSize w.heap (blockFromPtr ptr) - HDR_SZ < align8 size →
          GrowGuard w.heap (blockFromPtr ptr) (align8 size)
  | _ => True

theorem zeroBytes_of_not_mem (m : Mem) (p : Nat) {n z : Nat} (hz : ¬ (p ≤ z ∧ z < p + n)) :
    zeroBytes m p n z = m z := by
  induction n with
  | zero => rfl
  | succ n ih => rw [zeroBytes, setByte_of_ne _ (by omega), ih (by omega)]

theorem copyBytes_of_not_mem (m : Mem) (dst src : Nat) {n z : Nat}
    (hz : ¬ (dst ≤ z ∧ z < dst + n)) : copyBytes m dst src n z = m z := by
  induction n with
  | zero => rfl
  | succ n ih => rw [copyBytes, setByte_of_ne _ (by omega), ih (by omega)]

theorem dropLive_zero (hlive : LiveIn live blocks) : dropLive live 0 = live := by
  refine List.filter_eq_self.mpr fun a ha => ?_
  obtain ⟨b, -, -, hab, -⟩ := hlive.block a ha
  have hhdr : HDR_SZ = 8 := rfl
  have : a.1 ≠ 0 := by omega
  simpa using this

theorem noteLive_of_ne (hptr : ptr ≠ 0) : noteLive live ptr size = (ptr, size) :: live :=
  if_neg hptr

theorem Allocated.ptr_ne (hall : Allocated h h' base blocks blocks' list list' ptr total) :
    ptr ≠ 0 := by
  obtain ⟨b, -, -, hptr, -⟩ := hall.block
  have hhdr : HDR_SZ = 8 := rfl
  omega

theorem UserInv.malloc {w w' : HeapUser} {grant : Bool} (hw : UserInv base w)
    (hstep : userStep w (.malloc size grant) = some w') : UserInv base w' := by
  obtain ⟨blocks, list, hs, hlive⟩ := hw
  rw [userStep] at hstep
  split at hstep
  · rename_i hmax
    by_cases hzero : size = 0
    · rw [Libc.malloc, if_pos hzero] at hstep
      cases hstep
      exact ⟨blocks, list, hs, hlive⟩
    have htotal := total_spec (Nat.pos_of_ne_zero hzero) (show size + 15 < 2 ^ 64 by omega)
    rcases malloc_spec hs grant (Nat.pos_of_ne_zero hzero) (by omega)
        (Or.inr (htotal.1 ▸ hmax.2)) with
      hfail | ⟨ptr, h', blocks', list', hok, hall⟩
    · rw [hfail] at hstep
      cases hstep
      exact ⟨blocks, list, hs, hlive⟩
    · rw [hok] at hstep
      cases hstep
      refine ⟨blocks', list', hall.shape, ?_⟩
      dsimp only
      rw [noteLive_of_ne hall.ptr_ne]
      exact hlive.add hall size (by omega)
  · cases hstep

theorem UserInv.calloc {w w' : HeapUser} {nmemb : Nat} {grant : Bool} (hw : UserInv base w)
    (hstep : userStep w (.calloc nmemb size grant) = some w') : UserInv base w' := by
  obtain ⟨blocks, list, hs, hlive⟩ := hw
  rw [userStep] at hstep
  split at hstep
  · rename_i hmax
    rw [Libc.calloc] at hstep
    split at hstep
    · cases hstep
      exact ⟨blocks, list, hs, hlive⟩
    rename_i hzero
    split at hstep
    · cases hstep
      exact ⟨blocks, list, hs, hlive⟩
    have hprod : nmemb * size ≤ (2 ^ 32 - 1) * (2 ^ 32 - 1) :=
      Nat.mul_le_mul (by omega) (by omega)
    have hpos : 0 < nmemb * size := Nat.mul_pos (by omega) (by omega)
    dsimp only at hstep
    rw [u64_of_lt (by omega)] at hstep
    have htotal := total_spec hpos (show nmemb * size + 15 < 2 ^ 64 by omega)
    rcases malloc_spec hs grant hpos (by omega) (Or.inr (htotal.1 ▸ hmax.2.2)) with
      hfail | ⟨ptr, h', blocks', list', hok, hall⟩
    · rw [hfail] at hstep
      cases hstep
      exact ⟨blocks, list, hs, hlive⟩
    · have hptr := hall.ptr_ne
      simp only [hok, Option.map_some, if_neg hptr, Option.some.injEq] at hstep
      subst hstep
      have hadd := hlive.add hall (nmemb * size) (by omega)
      obtain ⟨b, hb, hbfree, hbptr, hbsize⟩ := hall.block
      refine ⟨blocks', list', (hall.shape.payload fun z hz => ?_).1, ?_⟩
      · refine zeroBytes_of_not_mem _ _ fun hin => hz b hb hbfree ?_
        have hhdr : HDR_SZ = 8 := rfl
        omega
      · rwa [noteLive_of_ne hptr]
  · cases hstep

theorem UserInv.store {w w' : HeapUser} {addr : Nat} {value : UInt8} (hw : UserInv base w)
    (hstep : userStep w (.store addr value) = some w') : UserInv base w' := by
  obtain ⟨blocks, list, hs, hlive⟩ := hw
  rw [userStep] at hstep
  split at hstep
  · rename_i hin
    cases hstep
    obtain ⟨a, ha, haddr⟩ := hin
    obtain ⟨b, hb, hbfree, hab, hbsize⟩ := hlive.block a ha
    refine ⟨blocks, list, (hs.payload fun z hz => setByte_of_ne _ ?_).1, hlive⟩
    rintro rfl
    have hhdr : HDR_SZ = 8 := rfl
    exact hz b hb hbfree (by omega)
  · cases hstep

/-- Freeing the block of a live pointer. -/
theorem LiveIn.free_block (hs : HeapShape h base (pre ++ x :: post) list)
    (hlive : LiveIn live (pre ++ x :: post)) (hx : x.free = false) (hnext : NextListed h x.addr) :
    UserInv base
      { heap := free h (x.addr + HDR_SZ), live := dropLive live (x.addr + HDR_SZ) } := by
  obtain ⟨list', hshape⟩ := free_spec hs hx hnext
  exact ⟨_, list', hshape, hlive.drop hs.tiles fun b hb _ => mem_of_mem_rest hb⟩

theorem UserInv.free {w w' : HeapUser} (hw : UserInv base w) (hguard : UserGuard w (.free ptr))
    (hstep : userStep w (.free ptr) = some w') : UserInv base w' := by
  obtain ⟨blocks, list, hs, hlive⟩ := hw
  rw [userStep] at hstep
  split at hstep
  · rename_i hin
    cases hstep
    by_cases hzero : ptr = 0
    · rw [Libc.free, if_pos hzero, hzero, dropLive_zero hlive]
      exact ⟨blocks, list, hs, hlive⟩
    · obtain ⟨pre, x, post, rfl, hx, rfl⟩ := hlive.block_of_mem (hin.resolve_left hzero)
      have hnext := hguard hzero
      rw [blockFromPtr, Nat.add_sub_cancel] at hnext
      exact hlive.free_block hs hx hnext
  · cases hstep

/-- The allocation in `x` gets a new size and `x` room for it. -/
theorem LiveIn.resize (ht : Tiles base (pre ++ x :: post) h.brk)
    (hlive : LiveIn live (pre ++ x :: post)) (hx : x.free = false) (newSize : Nat)
    (hmem : { x with size := newSize } ∈ blocks') (hsize : size + HDR_SZ ≤ newSize)
    (hblocks : ∀ b ∈ pre ++ post, b.free = false → b ∈ blocks') :
    LiveIn ((x.addr + HDR_SZ, size) :: dropLive live (x.addr + HDR_SZ)) blocks' := by
  have hdrop := hlive.drop ht hblocks
  refine ⟨List.forall_mem_cons.mpr ⟨⟨_, hmem, hx, rfl, hsize⟩, hdrop.block⟩, ?_⟩
  rw [List.map_cons, List.nodup_cons]
  refine ⟨fun hin => ?_, hdrop.nodup⟩
  obtain ⟨a, ha, haptr⟩ := List.mem_map.mp hin
  have := (List.mem_filter.mp ha).2
  simp only [decide_eq_true_eq] at this
  exact this haptr

/-- `realloc` in place keeps the invariant. -/
theorem LiveIn.growInPlace (hs : HeapShape h base (pre ++ x :: post) list)
    (hlive : LiveIn live (pre ++ x :: post)) (hx : x.free = false) {asize : Nat}
    (hmod : asize % 8 = 0) (hgrow : x.size - HDR_SZ < asize) (hsize : size ≤ asize)
    (hguard : GrowGuard h x.addr asize) (hfree : isFree h (x.addr + x.size) = true)
    (hfit : u64 (x.size + blockRealSize h (x.addr + x.size)) ≥ HDR_SZ + asize) :
    ∃ h', growInPlace h x.addr (x.addr + x.size) asize
        (u64 (x.size + blockRealSize h (x.addr + x.size))) = some h' ∧
      UserInv base { heap := h',
                     live := (x.addr + HDR_SZ, size) :: dropLive live (x.addr + HDR_SZ) } := by
  have hhdr : HDR_SZ = 8 := rfl
  have hmin : MIN_BLOCK = 24 := rfl
  have hxb := hs.tiles.bounds (x := x) (by simp)
  have hreal := hs.realSize (x := x) (by simp)
  have hlt := hs.brk_lt
  simp only [GrowGuard, hreal] at hguard
  have hguard := hguard hxb.2.1 hfree
  rw [if_pos hfit] at hguard
  -- The next block is a block: the guard excludes the word at the break.
  have hnotend : x.addr + x.size ≠ h.brk := by
    intro hend
    split at hguard
    · obtain ⟨c, hc, -, hcaddr⟩ := hs.listed _ (hs.onFreeList.mp hguard.1)
      have := hs.tiles.bounds hc
      omega
    · exact hguard hend
  obtain ⟨y, post', rfl, hy⟩ := hs.tiles.next.resolve_left fun hend => hnotend hend.2
  have hyb := hs.tiles.bounds (x := y) (by simp)
  have hyreal := hs.realSize (x := y) (by simp)
  have hyfree : y.free = true := by
    rw [← hy, hs.isFree_eq (by simp)] at hfree
    exact hfree
  have hu : u64 (x.size + y.size) = x.size + y.size := u64_of_lt (by omega)
  have hkept : ∀ (z : Block) (rest : List Block), ∀ b ∈ pre ++ y :: post', b.free = false →
      b ∈ pre ++ z :: (rest ++ post') := by
    intro z rest b hb hbfree
    simp only [List.mem_append, List.mem_cons] at hb ⊢
    rcases hb with hb | rfl | hb
    · exact Or.inl hb
    · rw [hyfree] at hbfree
      cases hbfree
    · exact Or.inr (Or.inr (Or.inr hb))
  rw [← hy, hyreal, hu] at hguard hfit ⊢
  have hneed : u64 (HDR_SZ + asize) = HDR_SZ + asize := u64_of_lt (by omega)
  unfold Libc.growInPlace
  rw [hneed]
  by_cases hsplit : x.size + y.size - (HDR_SZ + asize) ≥ MIN_BLOCK
  · rw [if_pos hsplit] at hguard
    obtain ⟨hlisted, hne⟩ := hguard
    obtain ⟨l₁, l₂, rfl⟩ := List.append_of_mem (hs.onFreeList.mp hlisted)
    dsimp only
    rw [if_pos hsplit]
    have hshape := hs.growSplit hx hmod (by omega) (by omega)
    refine ⟨_, rfl, _, _, hshape, hlive.resize hs.tiles hx (HDR_SZ + asize) (by simp)
      (by omega) (hkept _ [_])⟩
  · dsimp only
    rw [if_neg hsplit]
    obtain ⟨h', list', hunlink, hshape, -⟩ := hs.growAbsorb hx
    exact ⟨h', hunlink, _, list', hshape, hlive.resize hs.tiles hx (x.size + y.size)
      (by simp) (by omega) (hkept _ [])⟩

/-- After `malloc` and a write into the new payload, the block after `x` has its free
bit set only if it had it before and is not the new block. -/
theorem Allocated.isFree_next (hall : Allocated h h' base blocks blocks' list list' ptr total)
    (hs : HeapShape h base blocks list) (hx : x ∈ blocks) {mem : Mem}
    (hmem : HeapShape { h' with mem := mem } base blocks' list')
    (htop : sizeWord { h' with mem := mem } h'.brk = sizeWord h' h'.brk)
    (hfree : isFree { h' with mem := mem } (x.addr + x.size) = true) :
    isFree h (x.addr + x.size) = true ∧ ptr ≠ x.addr + x.size + HDR_SZ := by
  obtain ⟨z, hz, hzfree, hzptr, -⟩ := hall.block
  have hnew : ptr ≠ x.addr + x.size + HDR_SZ := by
    intro heq
    have haddr : z.addr = x.addr + x.size := by omega
    rw [← haddr, hmem.isFree_eq hz, hzfree] at hfree
    cases hfree
  refine ⟨?_, hnew⟩
  obtain ⟨pre, post, rfl⟩ := List.append_of_mem hx
  rcases hs.tiles.next with ⟨-, hend⟩ | ⟨y, post', rfl, hy⟩
  · -- At the end of the heap the word at the break has not changed.
    rcases hall.top with ⟨hbrk, hword⟩ | hptr
    · have hsame : ∀ b, b = h'.brk → sizeWord { h' with mem := mem } b = sizeWord h' b := by
        rintro b rfl
        exact htop
      have hword' : sizeWord { h' with mem := mem } h.brk = sizeWord h h.brk :=
        (hsame _ hbrk.symm).trans hword
      rw [hend] at hfree ⊢
      rw [isFree_congr hword'] at hfree
      exact hfree
    · exact absurd (by rw [hptr, hend]) hnew
  · rw [← hy] at hfree ⊢
    rw [hs.isFree_eq (by simp)]
    by_contra hused
    have hused : y.free = false := by simpa using hused
    rw [hmem.isFree_eq (hall.kept y (by simp) hused), hused] at hfree
    cases hfree

/-- After `malloc` and a write into the new payload, the block after `x` is on
the list or not free, when it was so before. -/
theorem Allocated.nextListed (hall : Allocated h h' base blocks blocks' list list' ptr total)
    (hs : HeapShape h base blocks list) (hx : x ∈ blocks) (hxfree : x.free = false)
    (hlisted : isFree h (x.addr + x.size) = true → x.addr + x.size ∈ list) {mem : Mem}
    (hmem : HeapShape { h' with mem := mem } base blocks' list')
    (htop : sizeWord { h' with mem := mem } h'.brk = sizeWord h' h'.brk) :
    NextListed { h' with mem := mem } x.addr := by
  rw [NextListed, hmem.realSize (hall.kept x hx hxfree), hmem.onFreeList]
  intro _ hfree
  obtain ⟨hold, hnew⟩ := hall.isFree_next hs hx hmem htop hfree
  exact hall.stays _ (hlisted hold) hnew

/-- `realloc` by a new block keeps the invariant. -/
theorem LiveIn.moveBlock {w' : HeapUser} {grant : Bool} {asize : Nat}
    (hs : HeapShape h base (pre ++ x :: post) list) (hlive : LiveIn live (pre ++ x :: post))
    (hx : x.free = false) (hgrow : x.size - HDR_SZ < asize) (hsize : size ≤ asize)
    (hmax : asize + 15 < 2 ^ 64) (hroom : Contiguous h (HDR_SZ + align8 asize))
    (hlisted : isFree h (x.addr + x.size) = true → x.addr + x.size ∈ list)
    (hstep : (moveBlock h (x.addr + HDR_SZ) (x.size - HDR_SZ) asize grant).map (fun (q, h) =>
      if q = 0 then { heap := h, live := live }
      else { heap := h, live := (q, size) :: dropLive live (x.addr + HDR_SZ) }) = some w') :
    UserInv base w' := by
  have hhdr : HDR_SZ = 8 := rfl
  rcases malloc_spec hs grant (show 0 < asize by omega) hmax (Or.inr hroom) with
    hfail | ⟨new, h', blocks', list', hok, hall⟩
  · simp only [Libc.moveBlock, hfail, Option.map_some, if_true, Option.some.injEq] at hstep
    subst hstep
    exact ⟨_, list, hs, hlive⟩
  · have hnew := hall.ptr_ne
    simp only [Libc.moveBlock, hok, Option.map_some, if_neg hnew, Option.some.injEq] at hstep
    subst hstep
    have htotal := total_spec (show 0 < asize by omega) hmax
    have hadd := hlive.add hall size (by omega)
    obtain ⟨z, hz, hzfree, hzptr, hzsize⟩ := hall.block
    have hcopy : ∀ a, (∀ b ∈ blocks', b.free = false → ¬ (b.addr + 8 ≤ a ∧ a < b.addr + b.size)) →
        copyBytes h'.mem new (x.addr + HDR_SZ) (x.size - HDR_SZ) a = h'.mem a := by
      intro a ha
      refine copyBytes_of_not_mem _ _ _ fun hin => ha z hz hzfree ?_
      omega
    obtain ⟨hshape, htop⟩ := hall.shape.payload hcopy
    have hmem : x ∈ pre ++ x :: post := by simp
    have hnext := hall.nextListed hs hmem hx hlisted hshape htop
    have hne : new ≠ x.addr + HDR_SZ := hall.fresh x hmem hx
    obtain ⟨pre', post', hblocks⟩ := List.append_of_mem (hall.kept x hmem hx)
    rw [hblocks] at hshape hadd
    have hdone := hadd.free_block hshape hx hnext
    rwa [dropLive, List.filter_cons_of_pos (by simpa using hne)] at hdone

theorem UserInv.realloc {w w' : HeapUser} {grant : Bool} (hw : UserInv base w)
    (hguard : UserGuard w (.realloc ptr size grant))
    (hstep : userStep w (.realloc ptr size grant) = some w') : UserInv base w' := by
  have hhdr : HDR_SZ = 8 := rfl
  obtain ⟨blocks, list, hs, hlive⟩ := id hw
  rw [userStep] at hstep
  split at hstep
  · rename_i hin
    by_cases hnull : ptr = 0
    · subst hnull
      refine hw.malloc (hstep ▸ ?_ : userStep w (.malloc size grant) = some w')
      rw [userStep, if_pos hin.1, Libc.realloc, if_pos rfl, dropLive_zero hlive, ite_self]
      refine Option.map_congr fun r _ => ?_
      by_cases hr : r.1 = 0
      · simp only [noteLive, if_pos hr]
      · simp only [noteLive, if_neg hr]
    have hguard := hguard hnull
    obtain ⟨pre, x, post, rfl, hx, rfl⟩ := hlive.block_of_mem (hin.2.resolve_left hnull)
    have hxb := hs.tiles.bounds (x := x) (by simp)
    have hreal := hs.realSize (x := x) (by simp)
    rw [blockFromPtr, Nat.add_sub_cancel] at hguard
    by_cases hzero : size = 0
    · rw [if_pos hzero] at hguard
      simp only [Libc.realloc, if_neg hnull, Option.map_some, if_true, if_pos hzero,
        Option.some.injEq] at hstep
      subst hstep
      exact hlive.free_block hs hx hguard
    simp only [if_neg hzero] at hstep hguard
    obtain ⟨hneed, hle, hmod, hmin⟩ := total_spec (Nat.pos_of_ne_zero hzero)
      (show size + 15 < 2 ^ 64 by omega)
    rw [hreal] at hguard
    rcases realloc_cases hs.tiles hs.brk_lt (hs.realSize (by simp)) grant hzero (by omega) with
      ⟨hfits, heq⟩ | ⟨hmore, hfree, hfit, heq⟩ | ⟨hmore, hnot, heq⟩
    · simp only [heq, Option.map_some, if_neg hnull, Option.some.injEq] at hstep
      subst hstep
      exact ⟨_, list, hs, hlive.resize hs.tiles hx x.size (by simp) (by omega)
        fun b hb _ => mem_of_mem_rest hb⟩
    · obtain ⟨h', hgrow, hinv⟩ := hlive.growInPlace hs hx hmod hmore hle (hguard hmore) hfree hfit
      simp only [heq, hgrow, Option.map_some, if_neg hnull, Option.some.injEq] at hstep
      subst hstep
      exact hinv
    · rw [heq] at hstep
      refine hlive.moveBlock hs hx hmore hle ?_ ?_ ?_ hstep
      · have : align8 size ≤ size + 7 := Nat.le_trans (Nat.div_mul_le_self _ _) (Nat.mod_le _ _)
        omega
      · rw [align8_align8, ← hneed]
        exact hin.1.2
      · intro hfree
        have hguard := hguard hmore
        simp only [GrowGuard, hreal] at hguard
        have hguard := hguard hxb.2.1 hfree
        rw [if_neg (hnot hfree)] at hguard
        exact hs.onFreeList.mp hguard
  · cases hstep

/-- Every guarded step keeps the invariant. -/
theorem UserInv.step {w w' : HeapUser} {o : UserOp} (hw : UserInv base w) (hguard : UserGuard w o)
    (hstep : userStep w o = some w') : UserInv base w' := by
  cases o with
  | malloc size grant => exact hw.malloc hstep
  | calloc nmemb size grant => exact hw.calloc hstep
  | realloc ptr size grant => exact hw.realloc hguard hstep
  | free ptr => exact hw.free hguard hstep
  | store addr value => exact hw.store hstep

theorem freshHeap_inv (mem : Mem) (hpos : 0 < base) (hlt : base < 2 ^ 64) :
    UserInv base (freshHeap mem base) :=
  ⟨[], [], ⟨rfl, by simp, rfl, by simp, hpos, hlt⟩, by simp [freshHeap], by simp [freshHeap]⟩

/-- In every guarded run of a program the live payloads are disjoint and lie
between the first and the current break. -/
theorem payloadsApart_of_reach (mem : Mem) (base : Nat) (hpos : 0 < base) (hlt : base < 2 ^ 64)
    (w : HeapUser) (h : Reach userStep UserGuard (freshHeap mem base) w) :
    PayloadsApart base w := by
  refine UserInv.payloadsApart (h.invariant (UserInv base) (freshHeap_inv mem hpos hlt) ?_)
  intro s o s' hs hguard hstep
  exact hs.step hguard hstep

/-- A process that finds zeros. -/
def zeroHeap : HeapUser := freshHeap (fun _ => 0) USER_HEAP_START

/-- Two allocations, and the first is freed. -/
theorem payloadsApart_of_reach_free :
    (0 < USER_HEAP_START ∧ USER_HEAP_START < 2 ^ 64) ∧
      ∃ w, run userStep zeroHeap
          [.malloc 8 true, .malloc 8 true, .free (USER_HEAP_START + 8)] = some w ∧
        w.live = [(USER_HEAP_START + 24, 8)] ∧ PayloadsApart USER_HEAP_START w := by
  have hrun : (run userStep zeroHeap [.malloc 8 true, .malloc 8 true]).map (fun w =>
      isFree w.heap (USER_HEAP_START + blockRealSize w.heap USER_HEAP_START)) = some false := by
    decide +kernel
  have hlive : (run userStep zeroHeap
      [.malloc 8 true, .malloc 8 true, .free (USER_HEAP_START + 8)]).map HeapUser.live =
        some [(USER_HEAP_START + 24, 8)] := by
    decide +kernel
  obtain ⟨w₂, hw₂, hused⟩ := Option.map_eq_some_iff.mp hrun
  obtain ⟨w₁, h₁, hrest⟩ := Option.bind_eq_some_iff.mp hw₂
  obtain ⟨w₂, h₂, hend⟩ := Option.bind_eq_some_iff.mp hrest
  cases hend
  obtain ⟨w, hw, hlive⟩ := Option.map_eq_some_iff.mp hlive
  have h₃ : userStep w₂ (.free (USER_HEAP_START + 8)) = some w := by
    simpa only [run, h₁, h₂, Option.bind_some, Option.bind_fun_some] using hw
  have hguard : UserGuard w₂ (.free (USER_HEAP_START + 8)) := by
    intro _ _ hfree
    exact absurd (hused.symm.trans hfree) (by decide)
  exact ⟨⟨by decide, by decide⟩, w, hw, hlive,
    payloadsApart_of_reach (fun _ => 0) USER_HEAP_START (by decide) (by decide) w
      (((Reach.start.next trivial h₁).next trivial h₂).next hguard h₃)⟩

/-- Four blocks; the last, the second and the first are freed in this order, the
first merging with the second.  The first then leads to the last while the last
is in use, so that the last is handed out twice. -/
def staleLink : List UserOp :=
  [.malloc 8 true, .malloc 8 true, .malloc 8 true, .malloc 8 true,
    .free (USER_HEAP_START + 56), .free (USER_HEAP_START + 24), .free (USER_HEAP_START + 8),
    .malloc 8 true, .malloc 8 true, .free (USER_HEAP_START + 8), .malloc 8 true, .malloc 8 true]

theorem staleLink_not_apart :
    ∃ w, Reach userStep (fun _ _ => True) zeroHeap w ∧ ¬ PayloadsApart USER_HEAP_START w := by
  have hrun : (run userStep zeroHeap staleLink).map HeapUser.live =
      some [(USER_HEAP_START + 56, 8), (USER_HEAP_START + 8, 8), (USER_HEAP_START + 56, 8),
        (USER_HEAP_START + 40, 8)] := by
    decide +kernel
  obtain ⟨w, hw, hlive⟩ := Option.map_eq_some_iff.mp hrun
  refine ⟨w, reach_of_run hw, fun hap => ?_⟩
  have hpairs := hap.disjoint
  rw [hlive] at hpairs
  revert hpairs
  decide

end Lumin.Libc
