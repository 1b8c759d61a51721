import Lumin.Lib.Linked
import Lumin.Libc.Malloc

/-!
# The shape of the user heap

The blocks of the heap tile the memory between the first and the current break.
The memory holds the size word of each block, and `free_list` leads through the
links of some of the free blocks.  A free block need not be on the list: `free`
drops blocks from it when it merges.

On the start addresses of tiled blocks the memory works like a table of records
with two fields, the size word and the link.  The lemmas of the first section
say so, and the rest of the development does not look at bytes.
-/

namespace Lumin.Libc

open Lumin.Lib

/-! ## Size words and links -/

/-- Two block addresses are the same or leave room for a size word and a link. -/
def Spaced (a b : Nat) : Prop := a = b ∨ a + 16 ≤ b ∨ b + 16 ≤ a

variable {h : UserHeap} {a b c v : Nat}

@[simp] theorem setSize_freeList (h : UserHeap) (b v : Nat) :
    (setSize h b v).freeList = h.freeList := rfl

@[simp] theorem setSize_brk (h : UserHeap) (b v : Nat) : (setSize h b v).brk = h.brk := rfl

@[simp] theorem setNext_freeList (h : UserHeap) (b v : Nat) :
    (setNext h b v).freeList = h.freeList := rfl

@[simp] theorem setNext_brk (h : UserHeap) (b v : Nat) : (setNext h b v).brk = h.brk := rfl

@[simp] theorem storeLink_brk (h : UserHeap) (pp : Option Nat) (v : Nat) :
    (storeLink h pp v).brk = h.brk := by
  cases pp <;> rfl

theorem sizeWord_setSize_same (hv : v < 2 ^ 64) : sizeWord (setSize h b v) b = v :=
  rdLE_wrLE_of_lt hv

theorem sizeWord_setSize_ne (hs : Spaced b c) (hne : b ≠ c) :
    sizeWord (setSize h b v) c = sizeWord h c :=
  rdLE_wrLE_apart (by rcases hs with hs | hs <;> omega)

theorem freeNext_setSize (hs : Spaced b c) : freeNext (setSize h b v) c = freeNext h c := by
  refine rdLE_wrLE_apart ?_
  have : HDR_SZ = 8 := rfl
  rcases hs with hs | hs <;> omega

theorem sizeWord_setNext (hs : Spaced b c) : sizeWord (setNext h b v) c = sizeWord h c := by
  refine rdLE_wrLE_apart ?_
  have : HDR_SZ = 8 := rfl
  rcases hs with hs | hs <;> omega

theorem freeNext_setNext_same (hv : v < 2 ^ 64) : freeNext (setNext h b v) b = v :=
  rdLE_wrLE_of_lt hv

theorem freeNext_setNext_ne (hs : Spaced b c) (hne : b ≠ c) :
    freeNext (setNext h b v) c = freeNext h c := by
  refine rdLE_wrLE_apart ?_
  have : HDR_SZ = 8 := rfl
  rcases hs with hs | hs <;> omega

theorem isFree_congr {h' : UserHeap} (hw : sizeWord h b = sizeWord h' c) :
    isFree h b = isFree h' c := by
  rw [isFree, isFree, hw]

theorem freeNext_lt (h : UserHeap) (b : Nat) : freeNext h b < 2 ^ 64 := rdLE_lt _ _ _

/-- Storing through a link that is the last one of `l₁`. -/
theorem storeLink_freeList (h : UserHeap) (l₁ : List Nat) (v : Nat) :
    (storeLink h l₁.getLast? v).freeList = if l₁ = [] then v else h.freeList := by
  cases hlast : l₁.getLast? with
  | none =>
    rw [if_pos (List.getLast?_eq_none_iff.mp hlast)]
    rfl
  | some b =>
    have : l₁ ≠ [] := by
      rintro rfl
      cases hlast
    rw [if_neg this]
    rfl

theorem sizeWord_storeLink {pp : Option Nat} (hs : ∀ b ∈ pp, Spaced b c) :
    sizeWord (storeLink h pp v) c = sizeWord h c := by
  cases pp with
  | none => rfl
  | some b => exact sizeWord_setNext (hs b rfl)

theorem freeNext_storeLink_ne {pp : Option Nat} (hs : ∀ b ∈ pp, Spaced b c ∧ b ≠ c) :
    freeNext (storeLink h pp v) c = freeNext h c := by
  cases pp with
  | none => rfl
  | some b => exact freeNext_setNext_ne (hs b rfl).1 (hs b rfl).2

/-! ## Tilings -/

/-- A block of the heap as the allocator thinks of it. -/
structure Block where
  addr : Nat
  size : Nat
  free : Bool
  deriving DecidableEq, Repr

/-- The blocks follow each other from `a` to `e` without a gap, and each has room
for a size word and a link. -/
def Tiles (a : Nat) : List Block → Nat → Prop
  | [], e => a = e
  | b :: bs, e => b.addr = a ∧ 16 ≤ b.size ∧ b.size % 8 = 0 ∧ Tiles (a + b.size) bs e

variable {base e m : Nat} {xs ys pre mid mid' post blocks : List Block} {x y : Block}

theorem tiles_append : Tiles a (xs ++ ys) e ↔ ∃ m, Tiles a xs m ∧ Tiles m ys e := by
  induction xs generalizing a with
  | nil => simp [Tiles]
  | cons x xs ih => simp only [List.cons_append, Tiles, ih]; tauto

theorem Tiles.le (ht : Tiles a xs e) : a ≤ e := by
  induction xs generalizing a with
  | nil => exact le_of_eq ht
  | cons x xs ih =>
    have := ih ht.2.2.2
    omega

/-- Each block lies between the ends of the tiling. -/
theorem Tiles.bounds (ht : Tiles a xs e) (hx : x ∈ xs) :
    a ≤ x.addr ∧ x.addr + x.size ≤ e ∧ 16 ≤ x.size ∧ x.size % 8 = 0 := by
  induction xs generalizing a with
  | nil => cases hx
  | cons y ys ih =>
    obtain ⟨haddr, hsize, hmod, hrest⟩ := ht
    rcases List.mem_cons.mp hx with rfl | hx
    · have := hrest.le
      omega
    · have := ih hrest hx
      omega

/-- Two blocks of a tiling are the same or do not meet. -/
theorem Tiles.eq_or_apart (ht : Tiles a xs e) (hx : x ∈ xs) (hy : y ∈ xs) :
    x = y ∨ x.addr + x.size ≤ y.addr ∨ y.addr + y.size ≤ x.addr := by
  induction xs generalizing a with
  | nil => cases hx
  | cons z zs ih =>
    obtain ⟨haddr, hsize, hmod, hrest⟩ := ht
    rcases List.mem_cons.mp hx with hxz | hxs <;> rcases List.mem_cons.mp hy with hyz | hys
    · exact Or.inl (hxz.trans hyz.symm)
    · have := hrest.bounds hys
      rw [hxz]
      omega
    · have := hrest.bounds hxs
      rw [hyz]
      omega
    · exact ih hrest hxs hys

theorem Tiles.spaced (ht : Tiles a xs e) (hx : x ∈ xs) (hy : y ∈ xs) : Spaced x.addr y.addr := by
  have hxb := ht.bounds hx
  have hyb := ht.bounds hy
  rcases ht.eq_or_apart hx hy with rfl | hap
  · exact Or.inl rfl
  · exact Or.inr (by omega)

/-- The address of a block says which block it is. -/
theorem Tiles.eq_of_addr (ht : Tiles a xs e) (hx : x ∈ xs) (hy : y ∈ xs)
    (haddr : x.addr = y.addr) : x = y := by
  have hxb := ht.bounds hx
  have hyb := ht.bounds hy
  rcases ht.eq_or_apart hx hy with rfl | hap
  · rfl
  · omega

theorem tiles_middle : Tiles a (pre ++ x :: post) e ↔
    Tiles a pre x.addr ∧ 16 ≤ x.size ∧ x.size % 8 = 0 ∧ Tiles (x.addr + x.size) post e := by
  rw [tiles_append]
  constructor
  · rintro ⟨m, hpre, rfl, hsize, hmod, hpost⟩
    exact ⟨hpre, hsize, hmod, hpost⟩
  · rintro ⟨hpre, hsize, hmod, hpost⟩
    exact ⟨x.addr, hpre, rfl, hsize, hmod, hpost⟩

/-- What follows a block of a tiling. -/
theorem Tiles.next (ht : Tiles a (pre ++ x :: post) e) :
    (post = [] ∧ x.addr + x.size = e) ∨
      ∃ y post', post = y :: post' ∧ y.addr = x.addr + x.size := by
  obtain ⟨-, -, -, hpost⟩ := tiles_middle.mp ht
  cases post with
  | nil => exact Or.inl ⟨rfl, hpost⟩
  | cons y post' => exact Or.inr ⟨y, post', rfl, hpost.1⟩

/-! ## The shape -/

/-- The size word of a block. -/
def Block.tag (b : Block) : Nat := b.size + if b.free then 1 else 0

/-- The memory holds `blocks` between `base` and the break, and `free_list`
leads through `list`. -/
structure HeapShape (h : UserHeap) (base : Nat) (blocks : List Block) (list : List Nat) :
    Prop where
  tiles : Tiles base blocks h.brk
  tags : ∀ b ∈ blocks, sizeWord h b.addr = b.tag
  chain : Linked (freeNext h) (· = 0) h.freeList list
  listed : ∀ a ∈ list, ∃ b ∈ blocks, b.free = true ∧ b.addr = a
  base_pos : 0 < base
  brk_lt : h.brk < 2 ^ 64

variable {list : List Nat}

theorem realSize_of_tag (htag : sizeWord h x.addr = x.tag) (hmod : x.size % 8 = 0) :
    blockRealSize h x.addr = x.size := by
  rw [blockRealSize, htag, Block.tag]
  split <;> omega

theorem isFree_of_tag (htag : sizeWord h x.addr = x.tag) (hmod : x.size % 8 = 0) :
    isFree h x.addr = x.free := by
  rw [isFree, htag, Block.tag]
  cases x.free
  · have : (x.size + 0) % 2 ≠ 1 := by omega
    simpa using this
  · have : (x.size + 1) % 2 = 1 := by omega
    simpa using this

theorem HeapShape.realSize (hs : HeapShape h base blocks list) (hx : x ∈ blocks) :
    blockRealSize h x.addr = x.size :=
  realSize_of_tag (hs.tags x hx) (hs.tiles.bounds hx).2.2.2

theorem HeapShape.isFree_eq (hs : HeapShape h base blocks list) (hx : x ∈ blocks) :
    isFree h x.addr = x.free :=
  isFree_of_tag (hs.tags x hx) (hs.tiles.bounds hx).2.2.2

/-- Writes into the payloads of blocks in use keep the shape and the word at the
break. -/
theorem HeapShape.payload (hs : HeapShape h base blocks list) {mem : Mem}
    (hmem : ∀ z, (∀ b ∈ blocks, b.free = false → ¬ (b.addr + 8 ≤ z ∧ z < b.addr + b.size)) →
      mem z = h.mem z) :
    HeapShape { h with mem := mem } base blocks list ∧
      sizeWord { h with mem := mem } h.brk = sizeWord h h.brk := by
  have hhdr : HDR_SZ = 8 := rfl
  have htag : ∀ c ∈ blocks, sizeWord { h with mem := mem } c.addr = sizeWord h c.addr := by
    intro c hc
    refine rdLE_congr fun z hlo hhi => hmem z fun b hb _ hz => ?_
    have hcb := hs.tiles.bounds hc
    rcases hs.tiles.eq_or_apart hb hc with rfl | hap <;> omega
  have hlink : ∀ a ∈ list, freeNext { h with mem := mem } a = freeNext h a := by
    intro a ha
    obtain ⟨c, hc, hcfree, rfl⟩ := hs.listed a ha
    refine rdLE_congr fun z hlo hhi => hmem z fun b hb hbfree hz => ?_
    have hcb := hs.tiles.bounds hc
    rcases hs.tiles.eq_or_apart hb hc with rfl | hap
    · rw [hbfree] at hcfree
      cases hcfree
    · omega
  refine ⟨⟨hs.tiles, fun c hc => ?_, hs.chain.congr hlink, hs.listed, hs.base_pos, hs.brk_lt⟩, ?_⟩
  · rw [htag c hc, hs.tags c hc]
  · refine rdLE_congr fun z hlo hhi => hmem z fun b hb _ hz => ?_
    have := hs.tiles.bounds hb
    omega

/-! ## Allocation -/

/-- `malloc` has made the block with payload `ptr` of at least `total` bytes. -/
structure Allocated (h h' : UserHeap) (base : Nat) (blocks blocks' : List Block)
    (list list' : List Nat) (ptr total : Nat) : Prop where
  shape : HeapShape h' base blocks' list'
  kept : ∀ b ∈ blocks, b.free = false → b ∈ blocks'
  block : ∃ b ∈ blocks', b.free = false ∧ ptr = b.addr + HDR_SZ ∧ total ≤ b.size
  fresh : ∀ b ∈ blocks, b.free = false → ptr ≠ b.addr + HDR_SZ
  stays : ∀ a ∈ list, ptr ≠ a + HDR_SZ → a ∈ list'
  top : (h'.brk = h.brk ∧ sizeWord h' h.brk = sizeWord h h.brk) ∨ ptr = h.brk + HDR_SZ
  grows : h.brk ≤ h'.brk

variable {fuel : Nat} {l l₁ l₂ : List Nat}

/-- The walk of `malloc` ends, and it finds the first block that is large
enough. -/
theorem findFit_spec (total : Nat) (pp : Option Nat)
    (hl : Linked (freeNext h) (· = 0) (loadLink h pp) l) (hfuel : l.length < fuel) :
    (findFit h total fuel pp = some none ∧ ∀ a ∈ l, blockRealSize h a < total) ∨
      ∃ l₁ a l₂, l = l₁ ++ a :: l₂ ∧ findFit h total fuel pp = some (some (l₁.getLast?.or pp)) ∧
        total ≤ blockRealSize h a := by
  induction l generalizing fuel pp with
  | nil =>
    cases fuel with
    | zero => cases hfuel
    | succ fuel =>
      have hzero : loadLink h pp = 0 := hl
      exact Or.inl ⟨by rw [findFit, if_pos hzero], by simp⟩
  | cons a l ih =>
    obtain ⟨ha, hne, hrest⟩ := hl
    cases fuel with
    | zero => cases hfuel
    | succ fuel =>
      rw [findFit, ha, if_neg hne]
      by_cases hfit : blockRealSize h a ≥ total
      · rw [if_pos hfit]
        exact Or.inr ⟨[], a, l, rfl, rfl, hfit⟩
      · rw [if_neg hfit]
        rcases ih (some a) hrest (by simpa using hfuel) with
          ⟨hnone, hall⟩ | ⟨l₁, c, l₂, hsplit, hsome, hc⟩
        · exact Or.inl ⟨hnone, List.forall_mem_cons.mpr ⟨not_le.mp hfit, hall⟩⟩
        · refine Or.inr ⟨a :: l₁, c, l₂, by rw [hsplit]; rfl, ?_, hc⟩
          rw [hsome, List.getLast?_cons]
          cases l₁.getLast? <;> rfl

/-- Store through the last link of `l₁`: the list is `l₁` and then whatever the
new value leads to. -/
theorem storeLink_chain {hA : UserHeap} {w : Nat} {l₀ l' : List Nat}
    (hchain : Linked (freeNext h) (· = 0) h.freeList (l₁ ++ l₀))
    (hlist : hA.freeList = h.freeList)
    (hsame : ∀ x ∈ l₁, freeNext hA x = freeNext h x) (hsp : ∀ x ∈ l₁, ∀ y ∈ l₁, Spaced x y)
    (hw : w < 2 ^ 64) (hrest : Linked (freeNext (storeLink hA l₁.getLast? w)) (· = 0) w l') :
    Linked (freeNext (storeLink hA l₁.getLast? w)) (· = 0)
      (storeLink hA l₁.getLast? w).freeList (l₁ ++ l') := by
  rw [storeLink_freeList, hlist]
  refine hchain.relink ?_ ?_ hrest
  · intro x hx
    have hmem := List.dropLast_subset _ hx
    rw [freeNext_storeLink_ne, hsame x hmem]
    intro y hy
    refine ⟨hsp y (List.mem_of_getLast? hy) x hmem, ?_⟩
    rintro rfl
    -- The last node is not among the ones before it.
    have hnodup := (List.nodup_append.mp hchain.nodup).1
    rw [← List.dropLast_append_getLast? y hy] at hnodup
    exact (List.nodup_append.mp hnodup).2.2 y hx y (by simp) rfl
  · intro x hx
    rw [Option.mem_def.mp hx]
    exact freeNext_setNext_same hw

/-- The nodes before and after a block on the list are other blocks. -/
theorem HeapShape.other (hs : HeapShape h base (pre ++ x :: post) (l₁ ++ x.addr :: l₂))
    (ha : a ∈ l₁ ++ l₂) : ∃ c ∈ pre ++ post, c.free = true ∧ c.addr = a := by
  obtain ⟨c, hc, hcfree, rfl⟩ := hs.listed a (by
    rcases List.mem_append.mp ha with h | h <;> simp [h])
  refine ⟨c, ?_, hcfree, rfl⟩
  have hne : c ≠ x := by
    rintro rfl
    have hnodup := hs.chain.nodup
    rw [List.nodup_middle, List.nodup_cons] at hnodup
    exact hnodup.1 ha
  rcases List.mem_append.mp hc with h | h
  · exact List.mem_append_left _ h
  · exact List.mem_append_right _ ((List.mem_cons.mp h).resolve_left hne)

/-- The word at the break is no size word or link of a tiled block. -/
theorem Tiles.spaced_end (ht : Tiles a xs e) (hx : x ∈ xs) : Spaced x.addr e ∧ x.addr ≠ e := by
  have := ht.bounds hx
  exact ⟨Or.inr (Or.inl (by omega)), by omega⟩

/-- The other blocks of a tiling do not meet `x`. -/
theorem Tiles.apart_split (ht : Tiles a (pre ++ x :: post) e) (hy : y ∈ pre ++ post) :
    y.addr + y.size ≤ x.addr ∨ x.addr + x.size ≤ y.addr := by
  obtain ⟨hpre, -, -, hpost⟩ := tiles_middle.mp ht
  rcases List.mem_append.mp hy with hy | hy
  · have := hpre.bounds hy
    omega
  · have := hpost.bounds hy
    omega

/-- A tiling lists its blocks in the order of their addresses. -/
theorem Tiles.sorted (ht : Tiles a xs e) : xs.Pairwise fun x y => x.addr + x.size ≤ y.addr := by
  induction xs generalizing a with
  | nil => exact List.Pairwise.nil
  | cons x xs ih =>
    obtain ⟨haddr, -, -, hrest⟩ := ht
    refine List.pairwise_cons.mpr ⟨fun y hy => ?_, ih hrest⟩
    have := hrest.bounds hy
    omega

theorem Tiles.nodup (ht : Tiles a xs e) : xs.Nodup := by
  refine ht.sorted.imp_of_mem ?_
  rintro x y hx hy hle rfl
  have := ht.bounds hx
  omega

/-- A block of the middle part of a tiling is in no other part. -/
theorem Tiles.not_mem_rest {rest : List Block} (ht : Tiles a (pre ++ x :: (rest ++ post)) e)
    (hy : y ∈ pre ++ post) : y ∉ rest := by
  intro hrest
  have hnodup := ht.nodup
  rw [List.nodup_append, List.nodup_cons, List.nodup_append] at hnodup
  obtain ⟨-, ⟨-, -, -, hpost⟩, hpre⟩ := hnodup
  rcases List.mem_append.mp hy with hy | hy
  · exact hpre y hy y (by simp [hrest]) rfl
  · exact hpost y hrest y hy rfl

theorem mem_of_mem_rest {α : Type} {x c : α} {pre post : List α} (hc : c ∈ pre ++ post) :
    c ∈ pre ++ x :: post := by
  rcases List.mem_append.mp hc with h | h <;> simp [h]

theorem eq_or_mem_rest {α : Type} {x c : α} {pre post : List α} (hc : c ∈ pre ++ x :: post) :
    c = x ∨ c ∈ pre ++ post := by
  rw [List.mem_append, List.mem_cons] at hc
  rcases hc with hc | rfl | hc
  · exact .inr (List.mem_append_left post hc)
  · exact .inl rfl
  · exact .inr (List.mem_append_right pre hc)

/-- Taking `s` bytes of the block `x` from the list.  `hA` is the heap in which
the rest of `x` has been made a block of its own, when there is one, and `w` is
what the link to `x` becomes. -/
theorem HeapShape.takePart (hs : HeapShape h base (pre ++ x :: post) (l₁ ++ x.addr :: l₂))
    {hA : UserHeap} {w s : Nat} {rest : List Block} {l' : List Nat}
    (htiles : Tiles base (pre ++ { x with size := s, free := false } :: (rest ++ post)) h.brk)
    (hlist : hA.freeList = h.freeList) (hbrk : hA.brk = h.brk)
    (hsize : ∀ c ∈ pre ++ post, sizeWord hA c.addr = sizeWord h c.addr)
    (hnext : ∀ c ∈ pre ++ post, freeNext hA c.addr = freeNext h c.addr)
    (htop : sizeWord hA h.brk = sizeWord h h.brk)
    (hrest : ∀ c ∈ rest, sizeWord hA c.addr = c.tag)
    (hw : w < 2 ^ 64)
    (hl' : ∀ hB, (∀ c ∈ rest, freeNext hB c.addr = freeNext hA c.addr) →
      (∀ a ∈ l₂, freeNext hB a = freeNext h a) → Linked (freeNext hB) (· = 0) w l')
    (hlisted : ∀ a ∈ l', a ∈ l₂ ∨ ∃ c ∈ rest, c.free = true ∧ c.addr = a) :
    let h' := setSize (storeLink hA l₁.getLast? w) x.addr s
    HeapShape h' base (pre ++ { x with size := s, free := false } :: (rest ++ post)) (l₁ ++ l') ∧
      sizeWord h' h.brk = sizeWord h h.brk := by
  intro h'
  have hmem : ∀ c ∈ pre ++ post,
      c ∈ pre ++ { x with size := s, free := false } :: (rest ++ post) := by
    intro c hc
    rcases List.mem_append.mp hc with h | h <;> simp [h]
  have hmemr : ∀ c ∈ rest, c ∈ pre ++ { x with size := s, free := false } :: (rest ++ post) := by
    intro c hc
    simp [hc]
  have hx : { x with size := s, free := false } ∈
      pre ++ { x with size := s, free := false } :: (rest ++ post) := by
    simp
  have hsb := htiles.bounds hx
  have hlt := hs.brk_lt
  have hsx : ∀ c ∈ pre ++ { x with size := s, free := false } :: (rest ++ post),
      Spaced x.addr c.addr := by
    intro c hc
    have := htiles.spaced hx hc
    exact this
  have hne : ∀ c ∈ pre ++ (rest ++ post), x.addr ≠ c.addr := by
    intro c hc
    have hcb : c ∈ pre ++ { x with size := s, free := false } :: (rest ++ post) :=
      mem_of_mem_rest hc
    have := htiles.apart_split hc
    have := htiles.bounds hcb
    dsimp only at *
    omega
  have hlast : ∀ b ∈ l₁.getLast?, ∃ c ∈ pre ++ post, c.free = true ∧ c.addr = b := fun b hb =>
    hs.other (List.mem_append_left _ (List.mem_of_getLast? hb))
  -- The stores leave the size words of the other blocks and of the break alone.
  have hword : ∀ c, (∀ d ∈ pre ++ post, Spaced d.addr c) → Spaced x.addr c → x.addr ≠ c →
      sizeWord h' c = sizeWord hA c := by
    intro c hc hxc hxne
    rw [sizeWord_setSize_ne hxc hxne, sizeWord_storeLink]
    intro b hb
    obtain ⟨d, hd, -, rfl⟩ := hlast b hb
    exact hc d hd
  have hwordb : ∀ c ∈ pre ++ (rest ++ post), sizeWord h' c.addr = sizeWord hA c.addr := by
    intro c hc
    exact hword _ (fun d hd => htiles.spaced (hmem d hd) (mem_of_mem_rest hc))
      (hsx c (mem_of_mem_rest hc)) (hne c hc)
  have hspaced : ∀ b ∈ l₁ ++ l₂, ∀ c ∈ l₁ ++ l₂, Spaced b c := by
    intro b hb c hc
    obtain ⟨d, hd, -, rfl⟩ := hs.other hb
    obtain ⟨d', hd', -, rfl⟩ := hs.other hc
    exact htiles.spaced (hmem d hd) (hmem d' hd')
  have hnodup := List.nodup_append.mp hs.chain.nodup
  have hl₂ : ∀ b ∈ l₂, freeNext (storeLink hA l₁.getLast? w) b = freeNext h b := by
    intro b hb
    obtain ⟨c, hc, -, rfl⟩ := hs.other (List.mem_append_right _ hb)
    rw [freeNext_storeLink_ne, hnext c hc]
    intro d hd
    have hdm : d ∈ l₁ := List.mem_of_getLast? hd
    refine ⟨hspaced d (List.mem_append_left _ hdm) _ (List.mem_append_right _ hb), ?_⟩
    rintro rfl
    exact hnodup.2.2 _ hdm _ (List.mem_cons_of_mem _ hb) rfl
  have hrest' :
      ∀ c ∈ rest, freeNext (storeLink hA l₁.getLast? w) c.addr = freeNext hA c.addr := by
    intro c hc
    refine freeNext_storeLink_ne fun b hb => ?_
    obtain ⟨d, hd, -, rfl⟩ := hlast b hb
    refine ⟨htiles.spaced (hmem d hd) (hmemr c hc), fun heq => ?_⟩
    have hcd := htiles.eq_of_addr (hmem d hd) (hmemr c hc) heq
    exact htiles.not_mem_rest (hcd ▸ hd) hc
  have hchain := storeLink_chain hs.chain hlist (fun b hb => by
      obtain ⟨c, hc, -, rfl⟩ := hs.other (List.mem_append_left l₂ hb)
      exact hnext c hc)
    (fun b hb c hc => hspaced b (List.mem_append_left _ hb) c (List.mem_append_left _ hc))
    hw (hl' _ hrest' hl₂)
  have hblock :
      ∀ b ∈ l₁ ++ l', ∃ c ∈ pre ++ { x with size := s, free := false } :: (rest ++ post),
      c.free = true ∧ c.addr = b := by
    intro b hb
    rcases List.mem_append.mp hb with hb | hb
    · obtain ⟨c, hc, hcfree, rfl⟩ := hs.other (List.mem_append_left l₂ hb)
      exact ⟨c, hmem c hc, hcfree, rfl⟩
    · rcases hlisted b hb with hb | ⟨c, hc, hcfree, rfl⟩
      · obtain ⟨c, hc, hcfree, rfl⟩ := hs.other (List.mem_append_right l₁ hb)
        exact ⟨c, hmem c hc, hcfree, rfl⟩
      · exact ⟨c, hmemr c hc, hcfree, rfl⟩
  refine ⟨⟨?_, ?_, ?_, hblock, hs.base_pos, ?_⟩, ?_⟩
  · rw [setSize_brk, storeLink_brk, hbrk]
    exact htiles
  · intro c hc
    rcases List.mem_append.mp hc with hc | hc
    · rw [hwordb c (List.mem_append_left _ hc), hsize c (List.mem_append_left _ hc),
        hs.tags c (List.mem_append_left _ hc)]
    rcases List.mem_cons.mp hc with rfl | hc
    · exact sizeWord_setSize_same (by dsimp only at hsb; omega)
    rw [hwordb c (List.mem_append_right _ hc)]
    rcases List.mem_append.mp hc with hc | hc
    · exact hrest c hc
    · rw [hsize c (List.mem_append_right _ hc), hs.tags c (by simp [hc])]
  · refine hchain.congr fun b hb => freeNext_setSize ?_
    obtain ⟨c, hc, -, rfl⟩ := hblock b hb
    exact hsx c hc
  · rw [setSize_brk, storeLink_brk, hbrk]
    exact hs.brk_lt
  · have hend := htiles.spaced_end hx
    rw [hword h.brk (fun d hd => (htiles.spaced_end (hmem d hd)).1) hend.1 hend.2, htop]

end Lumin.Libc
