import Lumin.Libc.BlockSizes

/-!
# What `realloc` does to the bytes

`realloc` of `libc/src/stdlib/malloc.c` has four outcomes.  It leaves the block, gives it
all of the next block, gives it a part of the next block, or moves it.  It writes headers
and links, and it copies.

There are four groups of lemmas.

* The stores of one function.  `malloc` writes to the bytes that are not `Settled`,
  and `free`, `unlinkBlock` and `growInPlace` write to the first two words of a block.
* `TiledHeap` is the state of the heap before the call, and `TiledHeap.settled` says that
  the payload of a block in use is away from all these stores.
* One lemma for growing in place and one for moving.
* `realloc_preserves` is the result.  The free list need not have an end for it: the call
  may then not come back, and it does come back when the list has one.
-/

namespace Lumin.Libc

open Lumin.Lib

variable {h h' : UserHeap} {b c v z nb size combined total base ptr q n dst src i : Nat} {m : Mem}
  {grant : Bool}
  {x y : Block} {blocks : List Block}

/-! ## The stores of one function -/

theorem setSize_mem (hz : z < b ∨ b + 8 ≤ z) : (setSize h b v).mem z = h.mem z := by
  rcases hz with hz | hz
  · exact wrLE_of_lt hz
  · exact wrLE_of_ge hz

theorem setNext_mem (hz : z < b + 8 ∨ b + 16 ≤ z) : (setNext h b v).mem z = h.mem z := by
  rcases hz with hz | hz
  · exact wrLE_of_lt hz
  · exact wrLE_of_ge hz

theorem storeLink_mem {pp : Option Nat} (hz : ∀ c ∈ pp, z < c + 8 ∨ c + 16 ≤ z) :
    (storeLink h pp v).mem z = h.mem z := by
  cases pp with
  | none => rfl
  | some c => exact setNext_mem (hz c rfl)

/-- The byte is below the break and in no block of the free list. -/
def Settled (h : UserHeap) (z : Nat) : Prop :=
  z < h.brk ∧ ∀ c, OnWalk h c → z < c ∨ (c + 16 ≤ z ∧ c + blockRealSize h c ≤ z)

theorem Settled.link (hz : Settled h z) (hc : OnWalk h c) : z < c + 8 ∨ c + 16 ≤ z := by
  rcases hz.2 c hc with hlow | ⟨hhigh, -⟩
  · exact .inl (by omega)
  · exact .inr hhigh

theorem takeLinked_mem {pp : Option Nat} (hpp : LinkOf h pp) (hwalk : OnWalk h (loadLink h pp))
    (hfit : total ≤ blockRealSize h (loadLink h pp)) (hz : Settled h z) :
    (takeLinked h pp total).2.mem z = h.mem z := by
  have hmin : MIN_BLOCK = 24 := rfl
  have hblock := hz.2 _ hwalk
  have hheader : z < loadLink h pp ∨ loadLink h pp + 8 ≤ z := by omega
  have hlink : ∀ c ∈ pp, z < c + 8 ∨ c + 16 ≤ z := fun c hc => hz.link (hpp c hc)
  unfold takeLinked
  dsimp only
  split_ifs with hsplit
  · -- The rest of the block ends where the block did.
    have hrest : z < loadLink h pp + total ∨ loadLink h pp + total + 16 ≤ z := by omega
    rw [setSize_mem hheader, storeLink_mem hlink, setNext_mem (by omega), setSize_mem (by omega)]
  · rw [setSize_mem hheader, storeLink_mem hlink]

theorem malloc_mem (hsize : size ≠ 0) (hres : malloc h size grant = some (q, h'))
    (hz : Settled h z) :
    h'.mem z = h.mem z := by
  rcases malloc_cases hsize hres with ⟨-, rfl, -⟩ | ⟨pp, hpp, hwalk, hfit, htake⟩ | ⟨top, -, rfl⟩
  · rfl
  · have hmem := takeLinked_mem hpp hwalk hfit hz
    rw [htake] at hmem
    exact hmem
  · exact setSize_mem (.inl hz.1)

theorem free_mem (hptr : 8 ≤ ptr) (hz : z < ptr - 8 ∨ ptr + 8 ≤ z) :
    (free h ptr).mem z = h.mem z := by
  have hlow : blockFromPtr ptr = ptr - 8 := rfl
  unfold free
  rw [hlow]
  dsimp only
  split_ifs
  · rfl
  · exact (setNext_mem (by omega)).trans (setSize_mem (by omega))
  · exact (setNext_mem (by omega)).trans (setSize_mem (by omega))

/-- A byte that is copied to a place away from the source is the byte of the source. -/
theorem copyBytes_apply (hapart : dst + n ≤ src ∨ src + n ≤ dst) (hi : i < n) :
    copyBytes m dst src n (dst + i) = m (src + i) := by
  induction n with
  | zero => cases hi
  | succ n ih =>
    rw [copyBytes]
    by_cases hlast : i = n
    · subst hlast
      rw [setByte, if_pos rfl]
      exact copyBytes_of_not_mem m dst src (by omega)
    · rw [setByte_of_ne _ (by omega)]
      exact ih (by omega) (by omega)

theorem unlinkBlock_mem (fuel : Nat) {pp : Option Nat} (hpp : LinkOf h pp)
    (hz : ∀ c, OnWalk h c → z < c + 8 ∨ c + 16 ≤ z) (hres : unlinkBlock h nb fuel pp = some h') :
    h'.mem z = h.mem z := by
  induction fuel generalizing pp with
  | zero => cases hres
  | succ fuel ih =>
    rw [unlinkBlock] at hres
    by_cases hzero : loadLink h pp = 0
    · rw [if_pos hzero] at hres
      cases hres
      rfl
    rw [if_neg hzero] at hres
    by_cases hfound : loadLink h pp = nb
    · rw [if_pos hfound] at hres
      cases hres
      exact storeLink_mem fun c hc => hz c (hpp c hc)
    · rw [if_neg hfound] at hres
      refine ih (fun c hc => ?_) hres
      cases hc
      exact hpp.onWalk hzero

/-- The new header of `b`, the rest of the block that follows it up to the end of the two,
and the links of the free list are all that is written. -/
theorem growInPlace_mem (hapart : ∀ c, OnWalk h c → c + 16 ≤ b ∨ b + 16 ≤ c)
    (hneed : u64 (HDR_SZ + size) = HDR_SZ + size)
    (hnext : nb ≤ b + HDR_SZ + size) (hheader : z < b ∨ b + 8 ≤ z)
    (hrest : z < nb ∨ b + combined ≤ z)
    (hz : ∀ c, OnWalk h c → z < c + 8 ∨ c + 16 ≤ z)
    (hres : growInPlace h b nb size combined = some h') :
    h'.mem z = h.mem z := by
  have hmin : MIN_BLOCK = 24 := rfl
  unfold growInPlace at hres
  rw [hneed] at hres
  dsimp only at hres
  split_ifs at hres with hsplit
  · cases hres
    have hnew : z < b + HDR_SZ + size ∨ b + HDR_SZ + size + 16 ≤ z := by omega
    rw [setSize_mem hheader]
    exact (setNext_mem (by omega)).trans (setSize_mem (by omega))
  · have hmem := unlinkBlock_mem walkFuel (fun c hc => absurd hc (Option.not_mem_none c))
      (fun c hc => hz c (onWalk_setSize hapart hc)) hres
    rw [hmem, setSize_mem hheader]

/-! ## The heap before the call -/

/-- The headers tile the heap and say which blocks are free, the free list leads to free
blocks only, and the word at the break has its low bit clear. -/
structure TiledHeap (h : UserHeap) (base : Nat) (blocks : List Block) : Prop where
  tiles : Tiles base blocks h.brk
  tags : ∀ b ∈ blocks, sizeWord h b.addr = b.tag
  listed : ∀ a, OnWalk h a → ∃ b ∈ blocks, b.free = true ∧ b.addr = a
  top : isFree h h.brk = false
  base_pos : 0 < base
  brk_lt : h.brk < 2 ^ 64

/-- The payload of the block has the same bytes. -/
def SamePayload (h h' : UserHeap) (b : Block) : Prop :=
  ∀ z, b.addr + HDR_SZ ≤ z → z < b.addr + b.size → h'.mem z = h.mem z

/-- The blocks that the links lead to are the blocks of the list. -/
theorem onWalk_of_mem {list : List Nat} (hl : Linked (freeNext h) (· = 0) h.freeList list)
    (hc : c ∈ list) : OnWalk h c := by
  have hmain : ∀ (l : List Nat) (a : Nat), Linked (freeNext h) (· = 0) a l →
      (a ≠ 0 → OnWalk h a) →
      ∀ d ∈ l, OnWalk h d := by
    intro l
    induction l with
    | nil =>
      intro a _ _ d hd
      cases hd
    | cons e l ih =>
      intro a hl ha d hd
      obtain ⟨rfl, hne, hrest⟩ := hl
      rcases List.mem_cons.mp hd with rfl | hd
      · exact ha hne
      · exact ih _ hrest (fun hnext => .next (ha hne) hnext) d hd
  exact hmain list _ hl .head c hc

/-- When the list has an end, this is the shape of the heap. -/
theorem TiledHeap.shape (hh : TiledHeap h base blocks) {list : List Nat}
    (hl : Linked (freeNext h) (· = 0) h.freeList list) : HeapShape h base blocks list :=
  ⟨hh.tiles, hh.tags, hl, fun _ ha => hh.listed _ (onWalk_of_mem hl ha), hh.base_pos, hh.brk_lt⟩

theorem TiledHeap.realSize (hh : TiledHeap h base blocks) (hx : x ∈ blocks) :
    blockRealSize h x.addr = x.size :=
  realSize_of_tag (hh.tags x hx) (hh.tiles.bounds hx).2.2.2

/-- A block of the free list is another block than one in use. -/
theorem TiledHeap.apart (hh : TiledHeap h base blocks) (hx : x ∈ blocks) (hused : x.free = false)
    (hc : OnWalk h c) :
    (c + 16 ≤ x.addr ∧ c + blockRealSize h c ≤ x.addr) ∨ x.addr + x.size ≤ c := by
  obtain ⟨y, hy, hyfree, rfl⟩ := hh.listed c hc
  have hyb := hh.tiles.bounds hy
  rw [hh.realSize hy]
  rcases hh.tiles.eq_or_apart hy hx with rfl | hap | hap
  · rw [hused] at hyfree
    cases hyfree
  · exact .inl ⟨by omega, hap⟩
  · exact .inr hap

/-- The bytes of a block in use are settled. -/
theorem TiledHeap.settled (hh : TiledHeap h base blocks) (hx : x ∈ blocks)
    (hused : x.free = false)
    (hlow : x.addr ≤ z) (hhigh : z < x.addr + x.size) : Settled h z := by
  have hxb := hh.tiles.bounds hx
  refine ⟨by omega, fun c hc => ?_⟩
  rcases hh.apart hx hused hc with ⟨hmin, hend⟩ | hafter
  · exact .inr ⟨by omega, by omega⟩
  · exact .inl (by omega)

theorem TiledHeap.ownBlock (hh : TiledHeap h base blocks) (hx : x ∈ blocks)
    (hused : x.free = false) :
    OwnBlock h (x.addr + HDR_SZ) := by
  have hxb := hh.tiles.bounds hx
  refine ⟨Nat.le_add_left _ _, fun c hc => ?_⟩
  rw [Nat.add_sub_cancel]
  rcases hc with hc | rfl
  · rcases hh.apart hx hused hc with ⟨hmin, -⟩ | hafter
    · exact .inl hmin
    · exact .inr (by omega)
  · exact .inr (by omega)

/-- The word at the break is not free, so what follows a block and is free is a block. -/
theorem TiledHeap.next_block {pre post : List Block} (hh : TiledHeap h base (pre ++ x :: post))
    (hfree : isFree h (x.addr + x.size) = true) :
    ∃ y post', post = y :: post' ∧ y.addr = x.addr + x.size ∧ y.free = true := by
  rcases hh.tiles.next with ⟨-, hend⟩ | ⟨y, post', rfl, hy⟩
  · rw [hend, hh.top] at hfree
    cases hfree
  · refine ⟨y, post', rfl, hy, ?_⟩
    have hmem : y ∈ pre ++ x :: y :: post' := by simp
    rw [← hy, isFree_of_tag (hh.tags y hmem) (hh.tiles.bounds hmem).2.2.2] at hfree
    exact hfree

/-! ## Growing in place -/

/-- A block that grows in place keeps its bytes, and so does every block in use. -/
theorem growInPlace_keeps {pre post : List Block} (hh : TiledHeap h base (pre ++ x :: post))
    (hused : x.free = false)
    (hfree : isFree h (x.addr + x.size) = true) (hmod : size % 8 = 0)
    (hmore : x.size - HDR_SZ < size)
    (hneed : u64 (HDR_SZ + size) = HDR_SZ + size)
    (hres : growInPlace h x.addr (x.addr + x.size) size
      (u64 (x.size + blockRealSize h (x.addr + x.size))) = some h') :
    ∀ b ∈ pre ++ x :: post, b.free = false → SamePayload h h' b := by
  have hhdr : HDR_SZ = 8 := rfl
  have hx : x ∈ pre ++ x :: post := by simp
  have hxb := hh.tiles.bounds hx
  have hlt := hh.brk_lt
  obtain ⟨y, post', rfl, hy, hyfree⟩ := hh.next_block hfree
  have hymem : y ∈ pre ++ x :: y :: post' := by simp
  have hyb := hh.tiles.bounds hymem
  have hyreal : blockRealSize h (x.addr + x.size) = y.size := by
    rw [← hy]
    exact hh.realSize hymem
  rw [hyreal, u64_of_lt (by omega)] at hres
  intro b hb hbused z hlow hhigh
  have hother : z < y.addr ∨ y.addr + y.size ≤ z := by
    rcases hh.tiles.eq_or_apart hb hymem with rfl | hap
    · rw [hbused] at hyfree
      cases hyfree
    · omega
  have hheader : z < x.addr ∨ x.addr + 8 ≤ z := by
    rcases hh.tiles.eq_or_apart hb hx with rfl | hap <;> omega
  have hown := hh.ownBlock hx hused
  have happly := hown.apart
  rw [Nat.add_sub_cancel] at happly
  exact growInPlace_mem (fun c hc => happly c (.inl hc)) hneed (by omega) hheader (by omega)
    (fun c hc => (hh.settled hb hbused (by omega) hhigh).link hc) hres

/-! ## Moving -/

/-- A block that moves takes its bytes along, and every other block in use keeps its own. -/
theorem moveBlock_keeps (hh : TiledHeap h base blocks) (hx : x ∈ blocks) (hused : x.free = false)
    (hmod : size % 8 = 0) (hmore : x.size - HDR_SZ < size)
    (hneed : u64 (HDR_SZ + align8 size) = HDR_SZ + size)
    (hres : moveBlock h (x.addr + HDR_SZ) (x.size - HDR_SZ) size grant = some (q, h')) :
    (q = 0 ∧ h' = h) ∨
      (q ≠ 0 ∧ (∀ i < x.size - HDR_SZ, h'.mem (q + i) = h.mem (x.addr + HDR_SZ + i)) ∧
        ∀ b ∈ blocks, b.free = false → b ≠ x → SamePayload h h' b) := by
  have hhdr : HDR_SZ = 8 := rfl
  have hxb := hh.tiles.bounds hx
  obtain ⟨⟨new, h₁⟩, hmalloc, hmove⟩ := Option.map_eq_some_iff.mp hres
  dsimp only at hmove
  have hpos : size ≠ 0 := by omega
  -- The new block lies in a block of the free list or beyond the break.
  have hwhere : (new = 0 ∧ h₁ = h) ∨ ∃ b, new = b + HDR_SZ ∧
      ∀ y ∈ blocks, y.free = false → b + (HDR_SZ + size) ≤ y.addr ∨ y.addr + y.size ≤ b := by
    rcases malloc_cases hpos hmalloc with ⟨hnew, hsame, -⟩ | ⟨pp, hpp, hwalk, hfit, htake⟩ | ⟨top,
        hnew, -⟩
    · exact .inl ⟨hnew, hsame⟩
    · have hmod' : (HDR_SZ + size) % 8 = 0 := by omega
      rw [hneed] at hfit htake
      obtain ⟨hnew, -⟩ := takeLinked_size hmod' hfit
      rw [htake] at hnew
      refine .inr ⟨_, hnew, fun y hy hyused => ?_⟩
      rcases hh.apart hy hyused hwalk with ⟨-, hend⟩ | hafter
      · exact .inl (by omega)
      · exact .inr hafter
    · exact .inr ⟨h.brk, hnew, fun y hy _ => .inr (hh.tiles.bounds hy).2.1⟩
  rcases hwhere with ⟨rfl, rfl⟩ | ⟨b, rfl, hapart⟩
  · rw [if_pos rfl] at hmove
    cases hmove
    exact .inl ⟨rfl, rfl⟩
  have hne : b + HDR_SZ ≠ 0 := Nat.succ_ne_zero _
  rw [if_neg hne] at hmove
  cases hmove
  have hxapart := hapart x hx hused
  refine .inr ⟨hne, fun i hi => ?_, fun y hy hyused hother z hlow hhigh => ?_⟩
  · rw [free_mem (by omega) (by omega)]
    dsimp only
    rw [copyBytes_apply (by omega) hi]
    exact malloc_mem hpos hmalloc (hh.settled hx hused (by omega) (by omega))
  · have hyapart := hapart y hy hyused
    have hxy : y.addr + y.size ≤ x.addr ∨ x.addr + x.size ≤ y.addr := by
      rcases hh.tiles.eq_or_apart hy hx with heq | hap
      · exact absurd heq hother
      · exact hap
    rw [free_mem (by omega) (by omega)]
    dsimp only
    rw [copyBytes_of_not_mem _ _ _ (by omega)]
    exact malloc_mem hpos hmalloc (hh.settled hy hyused (by omega) hhigh)

/-! ## The call -/

/-- What `realloc` of `x` returns: `NULL` and the old bytes, or a block with room for `n`
bytes that starts with the old bytes of `x`, while the other blocks in use keep theirs. -/
def ReallocKeeps (h h' : UserHeap) (blocks : List Block) (x : Block) (n q : Nat) : Prop :=
  (q = 0 ∧ ∀ b ∈ blocks, b.free = false → SamePayload h h' b) ∨
    (q ≠ 0 ∧ (∀ i < min (x.size - HDR_SZ) n, h'.mem (q + i) = h.mem (x.addr + HDR_SZ + i)) ∧
      HDR_SZ + n ≤ blockRealSize h' (q - HDR_SZ) ∧
      ∀ b ∈ blocks, b.free = false → b ≠ x → SamePayload h h' b)

/-- The room is what `realloc` records for the block. -/
theorem realloc_room (hh : TiledHeap h base blocks) (hx : x ∈ blocks) (hused : x.free = false)
    (hsize : size + 15 < 2 ^ 64)
    (hres : realloc h (x.addr + HDR_SZ) size grant = some (q, h')) (hq : q ≠ 0) :
    HDR_SZ + size ≤ blockRealSize h' (q - HDR_SZ) := by
  have hhdr : HDR_SZ = 8 := rfl
  have hxb := hh.tiles.bounds hx
  have hne : x.addr + HDR_SZ ≠ 0 := Nat.succ_ne_zero _
  have hok : ReallocOk h (x.addr + HDR_SZ) size grant := by
    unfold ReallocOk
    rw [if_neg hne, Nat.add_sub_cancel, hh.realSize hx]
    exact .inr ⟨by omega, hsize⟩
  have henough := (realloc_enough_iff (by omega) (fun _ => hh.ownBlock hx hused) hres).mpr hok
  exact henough.resolve_left hq

/-- The call comes back when the free list has an end. -/
theorem realloc_returns {list : List Nat} (hh : TiledHeap h base blocks)
    (hl : Linked (freeNext h) (· = 0) h.freeList list) (hx : x ∈ blocks) (hused : x.free = false)
    (hsize : size ≠ 0)
    (hmax : size < 2 ^ 32) : realloc h (x.addr + HDR_SZ) size grant ≠ none := by
  have hhdr : HDR_SZ = 8 := rfl
  have halign : align8 size ≤ size + 7 := by
    unfold align8 u64
    omega
  have hs := hh.shape hl
  have hxb := hs.tiles.bounds hx
  have hlt := hs.brk_lt
  have hreal := hs.realSize hx
  obtain ⟨hneed, hge, hmod, hmin⟩ := total_spec (Nat.pos_of_ne_zero hsize) (by omega)
  obtain ⟨pre, post, rfl⟩ := List.append_of_mem hx
  rcases realloc_cases hs.tiles hlt hreal grant hsize (by omega) with
    ⟨-, heq⟩ | ⟨hmore, hfree, hfit, heq⟩ | ⟨-, -, heq⟩
  · rw [heq]
    exact Option.some_ne_none _
  · obtain ⟨y, post', rfl, hy, -⟩ := hh.next_block hfree
    have hymem : y ∈ pre ++ x :: y :: post' := by simp
    have hyb := hs.tiles.bounds hymem
    have hyreal : blockRealSize h (x.addr + x.size) = y.size := by
      rw [← hy]
      exact hs.realSize hymem
    rw [hyreal, u64_of_lt (by omega)] at heq
    have hgrow :
        growInPlace h x.addr (x.addr + x.size) (align8 size) (x.size + y.size) ≠ none := by
      obtain ⟨h', list', hunlink, -⟩ := hs.growAbsorb hused
      unfold growInPlace
      dsimp only
      rw [← hy, hunlink]
      split_ifs <;> exact Option.some_ne_none _
    rw [heq, ne_eq, Option.map_eq_none_iff]
    exact hgrow
  · rw [heq, moveBlock, ne_eq, Option.map_eq_none_iff]
    exact malloc_returns hs (align8 size) grant

/-- `realloc` preserves the bytes of every block in use, in each of its outcomes, and it
comes back when the free list has an end. -/
theorem realloc_preserves (hh : TiledHeap h base blocks) (hx : x ∈ blocks)
    (hused : x.free = false) (hpos : 0 < n)
    (hmax : n < 2 ^ 32) (grant : Bool) :
    (∀ q h', realloc h (x.addr + HDR_SZ) n grant = some (q, h') → ReallocKeeps h h' blocks x n q)
      ∧
      ((∃ list, Linked (freeNext h) (· = 0) h.freeList list) →
        realloc h (x.addr + HDR_SZ) n grant ≠ none) := by
  refine ⟨fun q h' hres => ?_, fun ⟨list, hl⟩ => realloc_returns hh hl hx hused (by omega) hmax⟩
  have hne : x.addr + HDR_SZ ≠ 0 := Nat.succ_ne_zero _
  have hroom := realloc_room hh hx hused (by omega) hres
  have hn : n ≠ 0 := by omega
  obtain ⟨hneed, -, hmod, hmin⟩ := total_spec hpos (by omega)
  obtain ⟨pre, post, rfl⟩ := List.append_of_mem hx
  rcases realloc_cases hh.tiles hh.brk_lt (hh.realSize hx) grant hn (by omega) with
    ⟨-, heq⟩ | ⟨hmore, hfree, -, heq⟩ | ⟨hmore, -, heq⟩
  · -- The block stays.
    rw [heq] at hres
    cases hres
    exact .inr ⟨hne, fun _ _ => rfl, hroom hne, fun _ _ _ _ _ _ _ => rfl⟩
  · rw [heq] at hres
    obtain ⟨h₁, hgrow, hend⟩ := Option.map_eq_some_iff.mp hres
    cases hend
    have hkeep := growInPlace_keeps hh hused hfree hmod hmore hneed hgrow
    refine .inr ⟨hne, fun i hi => ?_, hroom hne, fun b hb hbused _ => hkeep b hb hbused⟩
    have hlt := lt_of_lt_of_le hi (Nat.min_le_left _ _)
    exact hkeep x hx hused _ (Nat.le_add_right _ _) (by omega)
  · rw [heq] at hres
    have halign : u64 (HDR_SZ + align8 (align8 n)) = HDR_SZ + align8 n := by
      rw [align8_align8]
      exact hneed
    rcases moveBlock_keeps hh hx hused hmod hmore halign
        hres with ⟨rfl, rfl⟩ | ⟨hq, hbytes, hkeep⟩
    · exact .inl ⟨rfl, fun _ _ _ _ _ _ => rfl⟩
    · exact .inr ⟨hq, fun i hi => hbytes i (lt_of_lt_of_le hi (Nat.min_le_left _ _)), hroom hq,
        hkeep⟩

/-- A block of 16 bytes in use, with the break behind it. -/
def oneBlock : UserHeap :=
  setSize { emptyHeap with brk := USER_HEAP_START + 16 } USER_HEAP_START 16

/-- 100 bytes instead of 8 move the block. -/
theorem oneBlock_realloc :
    ∃ q h', realloc oneBlock (USER_HEAP_START + 8) 100 true = some (q, h') ∧
      ReallocKeeps oneBlock h' [{ addr := USER_HEAP_START, size := 16, free := false }]
        { addr := USER_HEAP_START, size := 16, free := false } 100 q := by
  have hend : oneBlock.freeList = 0 := rfl
  have htag : sizeWord oneBlock USER_HEAP_START = 16 := sizeWord_setSize_same (by decide)
  have htop : sizeWord oneBlock (USER_HEAP_START + 16) = 0 :=
    (sizeWord_setSize_ne (.inr (.inl (by decide))) (by decide)).trans rfl
  have hwalk : ∀ a, ¬ OnWalk oneBlock a := by
    intro a ha
    induction ha with
    | head hne => exact hne hend
    | next _ _ ih => exact ih
  have hh : TiledHeap oneBlock USER_HEAP_START
      [{ addr := USER_HEAP_START, size := 16, free := false }] := by
    refine ⟨⟨rfl, le_refl _, rfl, rfl⟩, fun b hb => ?_, fun a ha => absurd ha (hwalk a), ?_,
      by decide, by decide⟩
    · rw [List.mem_singleton.mp hb]
      exact htag
    · rw [isFree, show oneBlock.brk = USER_HEAP_START + 16 from rfl, htop]
      rfl
  obtain ⟨hkeeps, hreturns⟩ :=
    realloc_preserves hh (List.mem_singleton.mpr rfl) rfl (by decide : 0 < 100) (by decide) true
  obtain ⟨⟨q, h'⟩, hres⟩ := Option.ne_none_iff_exists'.mp (hreturns ⟨[], hend⟩)
  exact ⟨q, h', hres, hkeeps q h' hres⟩

end Lumin.Libc
