import Lumin.Libc.HeapShape

/-!
# What the allocator does to the shape of the heap

One theorem for each function of `malloc.c`.  `malloc` keeps the shape always.
`free` and `realloc` look at the block after the given one, and they take a set
free bit to mean that this block is on the free list.  `NextListed` is that
assumption.
-/

namespace Lumin.Libc

open Lumin.Lib

variable {h h' : UserHeap} {base total a : Nat} {x y : Block} {blocks pre post : List Block}
  {list l₁ l₂ : List Nat}

theorem loadLink_eq (h : UserHeap) (pp : Option Nat) :
    loadLink h pp = pp.elim h.freeList (freeNext h) := by
  cases pp <;> rfl

/-! ## malloc -/

/-- Taking a block without splitting it. -/
theorem HeapShape.takeWhole (hs : HeapShape h base (pre ++ x :: post) (l₁ ++ x.addr :: l₂)) :
    let h' := setSize (storeLink h l₁.getLast? (freeNext h x.addr)) x.addr x.size
    HeapShape h' base (pre ++ { x with free := false } :: post) (l₁ ++ l₂) ∧
      sizeWord h' h.brk = sizeWord h h.brk := by
  have hsplit := tiles_middle.mp hs.tiles
  have htiles :
      Tiles base (pre ++ { x with size := x.size, free := false } :: ([] ++ post)) h.brk :=
    tiles_middle.mpr hsplit
  exact hs.takePart htiles rfl rfl (fun _ _ => rfl) (fun _ _ => rfl) rfl (by simp)
    (freeNext_lt h x.addr) (fun hB _ hl => hs.chain.drop.2.2.congr hl) (fun a ha => Or.inl ha)

/-- Taking the first `total` bytes of a block and leaving the rest on the list. -/
theorem HeapShape.takeSplit (hs : HeapShape h base (pre ++ x :: post) (l₁ ++ x.addr :: l₂))
    (htotal : 16 ≤ total) (hmod : total % 8 = 0) (hfit : total + MIN_BLOCK ≤ x.size) :
    let nb := x.addr + total
    let h₁ := setSize h nb (setLowBit (x.size - total))
    let h₂ := setNext h₁ nb (freeNext h₁ x.addr)
    let h' := setSize (storeLink h₂ l₁.getLast? nb) x.addr total
    HeapShape h' base
        (pre ++ { x with size := total, free := false } ::
          ([{ addr := nb, size := x.size - total, free := true }] ++ post))
        (l₁ ++ nb :: l₂) ∧
      sizeWord h' h.brk = sizeWord h h.brk := by
  intro nb h₁ h₂ h'
  have hmin : MIN_BLOCK = 24 := rfl
  obtain ⟨hpre, hsize, hxmod, hpost⟩ := tiles_middle.mp hs.tiles
  have hend := hpost.le
  have hlt := hs.brk_lt
  have hbase := hs.base_pos
  have hlow := hpre.le
  have htiles : Tiles base (pre ++ { x with size := total, free := false } ::
      ([{ addr := nb, size := x.size - total, free := true }] ++ post)) h.brk := by
    refine tiles_middle.mpr ⟨hpre, htotal, hmod, rfl, ?_, ?_, ?_⟩
    · dsimp only
      omega
    · dsimp only
      omega
    · have : x.addr + total + (x.size - total) = x.addr + x.size := by omega
      dsimp only
      rw [this]
      exact hpost
  -- The new block lies in the rest of `x`, away from every word in use.
  have haway : ∀ c ∈ pre ++ post, Spaced nb c.addr ∧ nb ≠ c.addr := by
    intro c hc
    have := hs.tiles.apart_split hc
    have := hs.tiles.bounds (mem_of_mem_rest hc)
    exact ⟨Or.inr (by omega), by omega⟩
  have hx : Spaced nb x.addr := Or.inr (by omega)
  have hword : setLowBit (x.size - total) = x.size - total + 1 := by
    unfold setLowBit
    omega
  have hnext₁ : freeNext h₁ x.addr = freeNext h x.addr := freeNext_setSize hx
  refine hs.takePart htiles rfl rfl ?_ ?_ ?_ ?_ (by omega) ?_ ?_
  · intro c hc
    rw [sizeWord_setNext (haway c hc).1, sizeWord_setSize_ne (haway c hc).1 (haway c hc).2]
  · intro c hc
    rw [freeNext_setNext_ne (haway c hc).1 (haway c hc).2, freeNext_setSize (haway c hc).1]
  · have hbrk : Spaced nb h.brk := Or.inr (by omega)
    rw [sizeWord_setNext hbrk, sizeWord_setSize_ne hbrk (by omega)]
  · intro c hc
    rw [List.mem_singleton.mp hc, sizeWord_setNext (Or.inl rfl), sizeWord_setSize_same (by omega)]
    exact hword
  · intro hB hnb hl
    refine ⟨rfl, by omega, ?_⟩
    rw [hnb _ (List.mem_singleton.mpr rfl), freeNext_setNext_same (freeNext_lt _ _), hnext₁]
    exact hs.chain.drop.2.2.congr hl
  · intro b hb
    rcases List.mem_cons.mp hb with rfl | hb
    · exact Or.inr ⟨_, List.mem_singleton.mpr rfl, rfl, rfl⟩
    · exact Or.inl hb

/-- A block in use is not the block taken from the list. -/
theorem HeapShape.used_ne (hs : HeapShape h base blocks list) (hx : x ∈ blocks)
    (hxfree : x.free = true) (hy : y ∈ blocks) (hyfree : y.free = false) : y.addr ≠ x.addr := by
  intro heq
  rw [hs.tiles.eq_of_addr hy hx heq, hxfree] at hyfree
  cases hyfree

/-- `malloc` has served a request, and nothing is lost: a free block is an old one or
on the list, the new block is the only new one in use, and it comes from a block of
the list that is large enough or from `sbrk`. -/
structure Served (h h' : UserHeap) (base : Nat) (blocks blocks' : List Block)
    (list list' : List Nat) (ptr total : Nat) (grant : Bool) : Prop
    extends Allocated h h' base blocks blocks' list list' ptr total where
  freeOf : ∀ b ∈ blocks', b.free = true → b ∈ blocks ∨ b.addr ∈ list'
  usedOf : ∀ b ∈ blocks', b.free = false → b ∈ blocks ∨ ptr = b.addr + HDR_SZ
  source : (∃ a ∈ list, total ≤ blockRealSize h a) ∨
    (ptr = h.brk + HDR_SZ ∧ sbrk h total grant ≠ none)

theorem takeLinked_spec (hs : HeapShape h base blocks (l₁ ++ a :: l₂)) (htotal : 16 ≤ total)
    (hmod : total % 8 = 0) (hfit : total ≤ blockRealSize h a) (grant : Bool) :
    ∃ blocks' list', Served h (takeLinked h l₁.getLast? total).2 base blocks blocks'
      (l₁ ++ a :: l₂) list' (takeLinked h l₁.getLast? total).1 total grant := by
  have hsource : ∃ c ∈ l₁ ++ a :: l₂, total ≤ blockRealSize h c := ⟨a, by simp, hfit⟩
  obtain ⟨x, hx, hxfree, rfl⟩ := hs.listed a (by simp)
  have hload : loadLink h l₁.getLast? = x.addr := by
    rw [loadLink_eq]
    exact hs.chain.link
  have hreal := hs.realSize hx
  have hused := fun c hc hcfree => hs.used_ne hx hxfree (y := c) hc hcfree
  obtain ⟨pre, post, rfl⟩ := List.append_of_mem hx
  have hkept : ∀ z rest, ∀ c ∈ pre ++ x :: post, c.free = false →
      c ∈ pre ++ z :: (rest ++ post) := by
    intro z rest c hc hcfree
    have hne := hused c hc hcfree
    rcases List.mem_append.mp hc with hc | hc
    · simp [hc]
    · rcases List.mem_cons.mp hc with rfl | hc
      · exact absurd rfl hne
      · simp [hc]
  have hptr : ∀ c ∈ pre ++ x :: post, c.free = false → x.addr + HDR_SZ ≠ c.addr + HDR_SZ := by
    intro c hc hcfree heq
    exact hused c hc hcfree (by omega)
  have hstay : ∀ b ∈ l₁ ++ x.addr :: l₂, x.addr + HDR_SZ ≠ b + HDR_SZ → b ∈ l₁ ++ l₂ := by
    intro b hb hne
    rcases List.mem_append.mp hb with hb | hb
    · exact List.mem_append_left _ hb
    · rcases List.mem_cons.mp hb with rfl | hb
      · exact absurd rfl hne
      · exact List.mem_append_right _ hb
  unfold takeLinked
  dsimp only
  rw [hload, hreal]
  by_cases hsplit : x.size - total ≥ MIN_BLOCK
  · have hmin : MIN_BLOCK = 24 := rfl
    rw [if_pos hsplit]
    obtain ⟨hshape, htop⟩ := hs.takeSplit htotal hmod (by omega)
    refine ⟨_, _, ⟨hshape, hkept _ _, ⟨{ x with size := total, free := false }, by simp, rfl, rfl,
      le_refl _⟩, hptr, ?_, Or.inl ⟨by simp, htop⟩, by simp⟩, ?_, ?_, Or.inl hsource⟩
    · exact fun b hb hne => mem_of_mem_rest (hstay b hb hne)
    · intro b hb hbfree
      simp only [List.mem_append, List.mem_cons, List.not_mem_nil, or_false] at hb ⊢
      rcases hb with hb | rfl | rfl | hb
      · exact Or.inl (Or.inl hb)
      · cases hbfree
      · exact Or.inr (Or.inr (Or.inl rfl))
      · exact Or.inl (Or.inr (Or.inr hb))
    · intro b hb hbused
      simp only [List.mem_append, List.mem_cons, List.not_mem_nil, or_false] at hb ⊢
      rcases hb with hb | rfl | rfl | hb
      · exact Or.inl (Or.inl hb)
      · exact Or.inr rfl
      · cases hbused
      · exact Or.inl (Or.inr (Or.inr hb))
  · rw [if_neg hsplit]
    obtain ⟨hshape, htop⟩ := hs.takeWhole
    refine ⟨_, _, ⟨hshape, hkept _ [], ⟨{ x with free := false }, by simp, rfl, rfl,
      hreal ▸ hfit⟩, hptr, hstay, Or.inl ⟨by simp, htop⟩, by simp⟩, ?_, ?_, Or.inl hsource⟩
    · intro b hb hbfree
      simp only [List.mem_append, List.mem_cons] at hb ⊢
      rcases hb with hb | rfl | hb
      · exact Or.inl (Or.inl hb)
      · cases hbfree
      · exact Or.inl (Or.inr (Or.inr hb))
    · intro b hb hbused
      simp only [List.mem_append, List.mem_cons] at hb ⊢
      rcases hb with hb | rfl | hb
      · exact Or.inl (Or.inl hb)
      · exact Or.inr rfl
      · exact Or.inl (Or.inr (Or.inr hb))

/-- A block that `sbrk` makes room for. -/
theorem HeapShape.grow (hs : HeapShape h base blocks list) (htotal : 16 ≤ total)
    (hmod : total % 8 = 0) (hroom : h.brk + total < 2 ^ 64) :
    Allocated h (setSize { h with brk := h.brk + total } h.brk total) base blocks
      (blocks ++ [{ addr := h.brk, size := total, free := false }]) list list (h.brk + HDR_SZ)
      total := by
  have hends := fun c hc => hs.tiles.spaced_end (x := c) hc
  refine ⟨⟨?_, ?_, ?_, ?_, hs.base_pos, hroom⟩, ?_, ?_, ?_, fun b hb _ => hb, Or.inr rfl,
    Nat.le_add_right _ _⟩
  · exact tiles_append.mpr ⟨h.brk, hs.tiles, rfl, htotal, hmod, rfl⟩
  · intro c hc
    rcases List.mem_append.mp hc with hc | hc
    · have hspaced : Spaced h.brk c.addr := by
        rcases (hends c hc).1 with heq | hap
        · exact Or.inl heq.symm
        · exact Or.inr hap.symm
      rw [sizeWord_setSize_ne hspaced (hends c hc).2.symm]
      exact hs.tags c hc
    · rw [List.mem_singleton.mp hc]
      exact sizeWord_setSize_same (by omega)
  · refine hs.chain.congr fun b hb => ?_
    obtain ⟨c, hc, -, rfl⟩ := hs.listed b hb
    refine freeNext_setSize ?_
    rcases (hends c hc).1 with heq | hap
    · exact Or.inl heq.symm
    · exact Or.inr hap.symm
  · intro b hb
    obtain ⟨c, hc, hcfree, rfl⟩ := hs.listed b hb
    exact ⟨c, List.mem_append_left _ hc, hcfree, rfl⟩
  · exact fun b hb _ => List.mem_append_left _ hb
  · exact ⟨_, List.mem_append_right _ (List.mem_singleton.mpr rfl), rfl, rfl, le_refl _⟩
  · intro c hc _ heq
    exact (hends c hc).2 (by omega)

/-- The free list is shorter than any walk. -/
theorem HeapShape.list_length (hs : HeapShape h base blocks list) : list.length < walkFuel := by
  have hsub : list.toFinset ⊆ Finset.range (2 ^ 64) := by
    intro b hb
    obtain ⟨c, hc, -, rfl⟩ := hs.listed b (List.mem_toFinset.mp hb)
    have := hs.tiles.bounds hc
    have := hs.brk_lt
    exact Finset.mem_range.mpr (by omega)
  have hcard := Finset.card_le_card hsub
  rw [List.toFinset_card_of_nodup hs.chain.nodup, Finset.card_range] at hcard
  exact Nat.lt_succ_of_le hcard

theorem align8_align8 (size : Nat) : align8 (align8 size) = align8 size := by
  unfold align8 u64
  omega

/-- The bytes that `malloc` looks for. -/
theorem total_spec {size : Nat} (hpos : 0 < size) (hmax : size + 15 < 2 ^ 64) :
    u64 (HDR_SZ + align8 size) = HDR_SZ + align8 size ∧ size ≤ align8 size ∧
      align8 size % 8 = 0 ∧ 8 ≤ align8 size := by
  have hhdr : HDR_SZ = 8 := rfl
  have halign : align8 size = (size + 7) / 8 * 8 := by
    rw [align8, u64_of_lt (by omega)]
  rw [halign]
  refine ⟨u64_of_lt (by omega), by omega, by omega, by omega⟩

/-- `malloc` comes back. -/
theorem malloc_returns (hs : HeapShape h base blocks list) (size : Nat) (grant : Bool) :
    malloc h size grant ≠ none := by
  rw [malloc]
  split
  · exact Option.some_ne_none _
  dsimp only
  rcases findFit_spec (u64 (HDR_SZ + align8 size)) none hs.chain hs.list_length with
    ⟨hnone, -⟩ | ⟨l₁, a, l₂, -, hsome, -⟩
  · rw [hnone]
    cases sbrk h (u64 (HDR_SZ + align8 size)) grant <;> exact Option.some_ne_none _
  · rw [hsome]
    exact Option.some_ne_none _

/-- Where it does not move the break down, `sbrk` fails or moves it up. -/
theorem sbrk_contiguous (hroom : Contiguous h total) (hbrk : h.brk < 2 ^ 64) (hpos : 0 < total)
    (grant : Bool) :
    sbrk h total grant = none ∨
      (h.brk + total < 2 ^ 64 ∧
        sbrk h total grant = some (h.brk, { h with brk := h.brk + total })) := by
  unfold sbrk
  dsimp only
  rcases hroom with hlt | ⟨hne, hlow⟩
  · rw [u64_of_lt hlt, if_neg (by omega)]
    split
    · exact Or.inl rfl
    split
    · exact Or.inr ⟨hlt, rfl⟩
    · exact Or.inl rfl
  · rw [if_neg (by omega), if_pos hlow]
    exact Or.inl rfl

/-- Where the block comes from: a block of the list has `total` bytes, or `sbrk` does not
move the break down. -/
def HasRoom (h : UserHeap) (list : List Nat) (total : Nat) : Prop :=
  (∃ a ∈ list, total ≤ blockRealSize h a) ∨ Contiguous h total

/-- `malloc` comes back, either without a block or with a new one. -/
theorem malloc_served (hs : HeapShape h base blocks list) (grant : Bool) {size : Nat}
    (hpos : 0 < size) (hmax : size + 15 < 2 ^ 64)
    (hroom : HasRoom h list (HDR_SZ + align8 size)) :
    malloc h size grant = some (0, h) ∨
      ∃ ptr h' blocks' list', malloc h size grant = some (ptr, h') ∧
        Served h h' base blocks blocks' list list' ptr (HDR_SZ + align8 size) grant := by
  obtain ⟨hu, -, hmod, hmin⟩ := total_spec hpos hmax
  have hhdr : HDR_SZ = 8 := rfl
  have hwalk := findFit_spec (HDR_SZ + align8 size) none hs.chain hs.list_length
  rw [malloc, if_neg (by omega)]
  dsimp only
  rw [hu]
  rcases hwalk with ⟨hnone, hsmall⟩ | ⟨l₁, a, l₂, rfl, hsome, hfit⟩
  · rw [hnone]
    dsimp only
    have hcont : Contiguous h (HDR_SZ + align8 size) :=
      hroom.resolve_left fun ⟨a, ha, hfit⟩ => absurd (hsmall a ha) (not_lt.mpr hfit)
    rcases sbrk_contiguous hcont hs.brk_lt (by omega) grant with hfail | ⟨hlt, hgrown⟩
    · rw [hfail]
      exact Or.inl rfl
    · rw [hgrown]
      refine Or.inr ⟨_, _, _, _, rfl, hs.grow (by omega) (by omega) hlt, ?_, ?_,
        Or.inr ⟨rfl, hgrown ▸ Option.some_ne_none _⟩⟩
      · intro b hb hbfree
        rcases List.mem_append.mp hb with hb | hb
        · exact Or.inl hb
        · rw [List.mem_singleton.mp hb] at hbfree
          cases hbfree
      · intro b hb _
        rcases List.mem_append.mp hb with hb | hb
        · exact Or.inl hb
        · rw [List.mem_singleton.mp hb]
          exact Or.inr rfl
  · rw [hsome, Option.or_none]
    obtain ⟨blocks', list', hall⟩ := takeLinked_spec hs (by omega) (by omega) hfit grant
    exact Or.inr ⟨_, _, blocks', list', rfl, hall⟩

theorem malloc_spec (hs : HeapShape h base blocks list) (grant : Bool) {size : Nat}
    (hpos : 0 < size) (hmax : size + 15 < 2 ^ 64)
    (hroom : HasRoom h list (HDR_SZ + align8 size)) :
    malloc h size grant = some (0, h) ∨
      ∃ ptr h' blocks' list', malloc h size grant = some (ptr, h') ∧
        Allocated h h' base blocks blocks' list list' ptr (HDR_SZ + align8 size) := by
  rcases malloc_served hs grant hpos hmax hroom with
    hfail | ⟨ptr, h', blocks', list', hok, hserved⟩
  · exact Or.inl hfail
  · exact Or.inr ⟨ptr, h', blocks', list', hok, hserved.toAllocated⟩

/-! ## free -/

/-- `free_list` leads to `b`. -/
def OnFreeList (h : UserHeap) (b : Nat) : Prop :=
  ∃ l, Linked (freeNext h) (· = 0) h.freeList l ∧ b ∈ l

/-- When the block after `b` has its free bit set, it is on the free list.  At the
end of the heap "the block after" is the word at the break. -/
def NextListed (h : UserHeap) (b : Nat) : Prop :=
  b + blockRealSize h b ≤ h.brk → isFree h (b + blockRealSize h b) = true →
    OnFreeList h (b + blockRealSize h b)

theorem HeapShape.onFreeList (hs : HeapShape h base blocks list) : OnFreeList h a ↔ a ∈ list := by
  constructor
  · rintro ⟨l, hl, ha⟩
    rwa [hs.chain.unique hl]
  · exact fun ha => ⟨list, hs.chain, ha⟩

/-- Marking `x` free and putting it in front of `l₂`, which `w` leads to. -/
theorem HeapShape.pushFree (hs : HeapShape h base (pre ++ x :: post) list) (hx : x.free = false)
    {w : Nat} (hw : w < 2 ^ 64) (hl : Linked (freeNext h) (· = 0) w l₂)
    (hsub : ∀ b ∈ l₂, b ∈ list) :
    HeapShape { setNext (setSize h x.addr (x.size + 1)) x.addr w with freeList := x.addr } base
      (pre ++ { x with free := true } :: post) (x.addr :: l₂) := by
  have hmem : x ∈ pre ++ x :: post := by simp
  have hsplit := tiles_middle.mp hs.tiles
  have hxb := hs.tiles.bounds hmem
  have hlt := hs.brk_lt
  have hbase := hs.base_pos
  have haway : ∀ c ∈ pre ++ post, Spaced x.addr c.addr ∧ x.addr ≠ c.addr := by
    intro c hc
    have := hs.tiles.apart_split hc
    have := hs.tiles.bounds (mem_of_mem_rest hc)
    exact ⟨Or.inr (by omega), by omega⟩
  have hlisted : ∀ b ∈ l₂, ∃ c ∈ pre ++ post, c.free = true ∧ c.addr = b := by
    intro b hb
    obtain ⟨c, hc, hcfree, rfl⟩ := hs.listed b (hsub b hb)
    refine ⟨c, ?_, hcfree, rfl⟩
    have hne : c ≠ x := by
      rintro rfl
      rw [hx] at hcfree
      cases hcfree
    rcases List.mem_append.mp hc with hc | hc
    · exact List.mem_append_left _ hc
    · exact List.mem_append_right _ ((List.mem_cons.mp hc).resolve_left hne)
  refine ⟨tiles_middle.mpr hsplit, ?_, ⟨rfl, by omega, ?_⟩, ?_, hs.base_pos, hs.brk_lt⟩
  · have hsize : ∀ c ∈ pre ++ post,
        sizeWord (setNext (setSize h x.addr (x.size + 1)) x.addr w) c.addr = c.tag := by
      intro c hc
      rw [sizeWord_setNext (haway c hc).1, sizeWord_setSize_ne (haway c hc).1 (haway c hc).2,
        hs.tags c (mem_of_mem_rest hc)]
    intro c hc
    rcases List.mem_append.mp hc with hc | hc
    · exact hsize c (List.mem_append_left _ hc)
    rcases List.mem_cons.mp hc with rfl | hc
    · exact (sizeWord_setNext (Or.inl rfl)).trans (sizeWord_setSize_same (by omega))
    · exact hsize c (List.mem_append_right _ hc)
  · have hnext : freeNext { setNext (setSize h x.addr (x.size + 1)) x.addr w with
        freeList := x.addr } x.addr = w := freeNext_setNext_same hw
    rw [hnext]
    refine hl.congr fun b hb => ?_
    obtain ⟨c, hc, -, rfl⟩ := hlisted b hb
    exact (freeNext_setNext_ne (haway c hc).1 (haway c hc).2).trans
      (freeNext_setSize (haway c hc).1)
  · intro b hb
    rcases List.mem_cons.mp hb with rfl | hb
    · exact ⟨{ x with free := true }, by simp, rfl, rfl⟩
    · obtain ⟨c, hc, hcfree, rfl⟩ := hlisted b hb
      exact ⟨c, mem_of_mem_rest hc, hcfree, rfl⟩

theorem HeapShape.freeList_lt (hs : HeapShape h base blocks list) : h.freeList < 2 ^ 64 := by
  have hchain := hs.chain
  cases list with
  | nil =>
    have hzero : h.freeList = 0 := hchain
    omega
  | cons b l =>
    obtain ⟨c, hc, -, hcb⟩ := hs.listed b (by simp)
    have := hs.tiles.bounds hc
    have := hs.brk_lt
    have := hchain.1
    omega

/-- What `free` makes of a block in use: it is marked free and put in front of the
block that its new link leads to. -/
theorem HeapShape.free_eq (hs : HeapShape h base (pre ++ x :: post) list) :
    free h (x.addr + HDR_SZ) =
      { setNext (setSize h x.addr (x.size + 1)) x.addr
          (if x.addr + x.size ≤ h.brk ∧ isFree h (x.addr + x.size) = true then
            freeNext h (x.addr + x.size) else h.freeList) with freeList := x.addr } := by
  have hhdr : HDR_SZ = 8 := rfl
  have hmem : x ∈ pre ++ x :: post := by simp
  have hxb := hs.tiles.bounds hmem
  have hreal := hs.realSize hmem
  have hword : setLowBit x.size = x.size + 1 := by
    unfold setLowBit
    omega
  have hspaced : Spaced x.addr (x.addr + x.size) := Or.inr (by omega)
  have hne : x.addr + x.size ≠ x.addr := by omega
  have hfree : isFree (setSize h x.addr (x.size + 1)) (x.addr + x.size) =
      isFree h (x.addr + x.size) := isFree_congr (sizeWord_setSize_ne hspaced (by omega))
  have hlink : freeNext (setSize h x.addr (x.size + 1)) (x.addr + x.size) =
      freeNext h (x.addr + x.size) := freeNext_setSize hspaced
  rw [free, if_neg (by omega), blockFromPtr, Nat.add_sub_cancel]
  dsimp only
  rw [hreal, hword, hfree, hlink, setSize_brk, setSize_freeList]
  by_cases hmerge : x.addr + x.size ≤ h.brk ∧ isFree h (x.addr + x.size) = true
  · rw [if_pos ⟨hmerge.1, hmerge.2, hne⟩, if_pos hmerge]
  · rw [if_neg fun hall => hmerge ⟨hall.1, hall.2.1⟩, if_neg hmerge]

/-- `free` turns a block in use into a free block on the list. -/
theorem free_spec (hs : HeapShape h base (pre ++ x :: post) list) (hx : x.free = false)
    (hnext : NextListed h x.addr) :
    ∃ list', HeapShape (free h (x.addr + HDR_SZ)) base (pre ++ { x with free := true } :: post)
      list' := by
  have hreal := hs.realSize (x := x) (by simp)
  rw [NextListed, hreal, hs.onFreeList] at hnext
  rw [hs.free_eq]
  split
  next hmerge =>
    -- The blocks before the next one leave the list with it.
    obtain ⟨l₁, l₂, hl⟩ := List.append_of_mem (hnext hmerge.1 hmerge.2)
    have hchain := hs.chain
    rw [hl] at hchain
    exact ⟨_, hs.pushFree hx (freeNext_lt _ _) hchain.drop.2.2 fun b hb => by simp [hl, hb]⟩
  · exact ⟨_, hs.pushFree hx hs.freeList_lt hs.chain fun b hb => hb⟩

/-- `free` in front of the whole list, when the link that it takes over from the next
block is the one to the head of the list. -/
theorem free_push (hs : HeapShape h base (pre ++ x :: post) list) (hx : x.free = false)
    (hnext : x.addr + x.size ≤ h.brk → isFree h (x.addr + x.size) = true →
      freeNext h (x.addr + x.size) = h.freeList) :
    HeapShape (free h (x.addr + HDR_SZ)) base (pre ++ { x with free := true } :: post)
      (x.addr :: list) := by
  have hlink : (if x.addr + x.size ≤ h.brk ∧ isFree h (x.addr + x.size) = true then
      freeNext h (x.addr + x.size) else h.freeList) = h.freeList := by
    split
    next hmerge => exact hnext hmerge.1 hmerge.2
    · rfl
  rw [hs.free_eq, hlink]
  exact hs.pushFree hx hs.freeList_lt hs.chain fun b hb => hb

/-! ## realloc -/

/-- The three things that `realloc` does with a block in use: it leaves it, it grows it
into the next block, or it moves it. -/
theorem realloc_cases (ht : Tiles base (pre ++ x :: post) h.brk) (hlt : h.brk < 2 ^ 64)
    (hreal : blockRealSize h x.addr = x.size) (grant : Bool) {size : Nat} (hsize : size ≠ 0)
    (hmax : size + 15 < 2 ^ 64) :
    (align8 size ≤ x.size - HDR_SZ ∧
      realloc h (x.addr + HDR_SZ) size grant = some (x.addr + HDR_SZ, h)) ∨
    (x.size - HDR_SZ < align8 size ∧ isFree h (x.addr + x.size) = true ∧
      u64 (x.size + blockRealSize h (x.addr + x.size)) ≥ HDR_SZ + align8 size ∧
      realloc h (x.addr + HDR_SZ) size grant =
        (growInPlace h x.addr (x.addr + x.size) (align8 size)
          (u64 (x.size + blockRealSize h (x.addr + x.size)))).map fun h => (x.addr + HDR_SZ, h)) ∨
    (x.size - HDR_SZ < align8 size ∧
      (isFree h (x.addr + x.size) = true →
        ¬ u64 (x.size + blockRealSize h (x.addr + x.size)) ≥ HDR_SZ + align8 size) ∧
      realloc h (x.addr + HDR_SZ) size grant =
        moveBlock h (x.addr + HDR_SZ) (x.size - HDR_SZ) (align8 size) grant) := by
  have hhdr : HDR_SZ = 8 := rfl
  have hmem : x ∈ pre ++ x :: post := by simp
  have hxb := ht.bounds hmem
  obtain ⟨hneed, -⟩ := total_spec (by omega) hmax
  have hold : sub64 x.size HDR_SZ = x.size - HDR_SZ := sub64_of_le (by omega) (by omega)
  have heq : realloc h (x.addr + HDR_SZ) size grant =
      if align8 size ≤ x.size - HDR_SZ then some (x.addr + HDR_SZ, h)
      else if x.addr + x.size ≤ h.brk ∧ isFree h (x.addr + x.size) = true ∧
          u64 (x.size + blockRealSize h (x.addr + x.size)) ≥ HDR_SZ + align8 size then
        (growInPlace h x.addr (x.addr + x.size) (align8 size)
          (u64 (x.size + blockRealSize h (x.addr + x.size)))).map fun h => (x.addr + HDR_SZ, h)
      else moveBlock h (x.addr + HDR_SZ) (x.size - HDR_SZ) (align8 size) grant := by
    rw [realloc, if_neg (by omega), if_neg hsize, blockFromPtr, Nat.add_sub_cancel]
    dsimp only
    rw [hreal, hneed, hold]
  by_cases hfits : align8 size ≤ x.size - HDR_SZ
  · rw [if_pos hfits] at heq
    exact Or.inl ⟨hfits, heq⟩
  rw [if_neg hfits] at heq
  have hgrow := not_le.mp hfits
  by_cases hcond : isFree h (x.addr + x.size) = true ∧
      u64 (x.size + blockRealSize h (x.addr + x.size)) ≥ HDR_SZ + align8 size
  · rw [if_pos ⟨hxb.2.1, hcond⟩] at heq
    exact Or.inr (Or.inl ⟨hgrow, hcond.1, hcond.2, heq⟩)
  · rw [if_neg fun hall => hcond hall.2] at heq
    exact Or.inr (Or.inr ⟨hgrow, fun hfree hfit => hcond ⟨hfree, hfit⟩, heq⟩)

/-- `realloc` gives the first part of the next block `y` to `x` and makes the
rest a block in front of what followed `y` on the list. -/
theorem HeapShape.growSplit (hs : HeapShape h base (pre ++ x :: y :: post) (l₁ ++ y.addr :: l₂))
    (hx : x.free = false) {size : Nat} (hmod : size % 8 = 0)
    (hgrow : x.size + 16 ≤ HDR_SZ + size) (hfit : HDR_SZ + size + MIN_BLOCK ≤ x.size + y.size) :
    let split := x.addr + HDR_SZ + size
    let h₁ := setSize h split (setLowBit (x.size + y.size - (HDR_SZ + size)))
    let h₂ := setNext h₁ split (freeNext h₁ y.addr)
    HeapShape (setSize { h₂ with freeList := split } x.addr (HDR_SZ + size)) base
      (pre ++ { x with size := HDR_SZ + size } ::
        { addr := split, size := x.size + y.size - (HDR_SZ + size), free := true } :: post)
      (split :: l₂) := by
  intro split h₁ h₂
  have hhdr : HDR_SZ = 8 := rfl
  have hmin : MIN_BLOCK = 24 := rfl
  obtain ⟨hpre, hxsize, hxmod, hyaddr, hysize, hymod, hpost⟩ := tiles_middle.mp hs.tiles
  have hend := hpost.le
  have hlt := hs.brk_lt
  have htiles : Tiles base (pre ++ { x with size := HDR_SZ + size } ::
      { addr := split, size := x.size + y.size - (HDR_SZ + size), free := true } :: post)
        h.brk := by
    refine tiles_middle.mpr ⟨hpre, ?_, ?_, ?_, ?_, ?_, ?_⟩
    · dsimp only
      omega
    · dsimp only
      omega
    · dsimp only
      omega
    · dsimp only
      omega
    · dsimp only
      omega
    · have : x.addr + (HDR_SZ + size) + (x.size + y.size - (HDR_SZ + size)) =
          x.addr + x.size + y.size := by omega
      dsimp only
      rw [this]
      exact hpost
  have hout : ∀ c ∈ pre ++ post, c.addr + 16 ≤ x.addr ∨ x.addr + x.size + y.size ≤ c.addr := by
    intro c hc
    rcases List.mem_append.mp hc with hc | hc
    · have := hpre.bounds hc
      omega
    · have := hpost.bounds hc
      omega
  have hword : setLowBit (x.size + y.size - (HDR_SZ + size)) =
      x.size + y.size - (HDR_SZ + size) + 1 := by
    unfold setLowBit
    omega
  have hlisted : ∀ b ∈ l₂, ∃ c ∈ pre ++ post, c.free = true ∧ c.addr = b := by
    intro b hb
    have hne : b ≠ y.addr := by
      rintro rfl
      have hnodup := hs.chain.drop.nodup
      exact (List.nodup_cons.mp hnodup).1 hb
    obtain ⟨c, hc, hcfree, rfl⟩ := hs.listed b (by simp [hb])
    refine ⟨c, ?_, hcfree, rfl⟩
    simp only [List.mem_append, List.mem_cons] at hc ⊢
    rcases hc with hc | rfl | rfl | hc
    · exact Or.inl hc
    · rw [hx] at hcfree
      cases hcfree
    · exact absurd rfl hne
    · exact Or.inr hc
  have hlink : freeNext h₁ y.addr = freeNext h y.addr :=
    freeNext_setSize (Or.inr (by omega))
  refine ⟨htiles, ?_, ⟨rfl, by omega, ?_⟩, ?_, hs.base_pos, hs.brk_lt⟩
  · have hsize : ∀ c ∈ pre ++ post, c ∈ pre ++ x :: y :: post →
        sizeWord (setSize { h₂ with freeList := split } x.addr (HDR_SZ + size)) c.addr =
          c.tag := by
      intro c hc hold
      have := hout c hc
      rw [sizeWord_setSize_ne (Or.inr (by omega)) (by omega)]
      refine (sizeWord_setNext (Or.inr (by omega))).trans ?_
      rw [sizeWord_setSize_ne (Or.inr (by omega)) (by omega), hs.tags c hold]
    intro c hc
    rcases List.mem_append.mp hc with hc | hc
    · exact hsize c (List.mem_append_left _ hc) (by simp [hc])
    rcases List.mem_cons.mp hc with rfl | hc
    · rw [sizeWord_setSize_same (by omega), Block.tag, hx]
      rfl
    rcases List.mem_cons.mp hc with rfl | hc
    · rw [sizeWord_setSize_ne (Or.inr (by dsimp only; omega)) (by dsimp only; omega)]
      refine (sizeWord_setNext (Or.inl rfl)).trans ?_
      rw [sizeWord_setSize_same (by omega), hword]
      rfl
    · exact hsize c (List.mem_append_right _ hc) (by simp [hc])
  · rw [freeNext_setSize (Or.inr (by omega))]
    have hnext : freeNext { h₂ with freeList := split } split = freeNext h₁ y.addr :=
      freeNext_setNext_same (freeNext_lt _ _)
    rw [hnext, hlink]
    refine hs.chain.drop.2.2.congr fun b hb => ?_
    obtain ⟨c, hc, -, rfl⟩ := hlisted b hb
    have := hout c hc
    rw [freeNext_setSize (Or.inr (by omega))]
    exact (freeNext_setNext_ne (Or.inr (by omega)) (by omega)).trans
      (freeNext_setSize (Or.inr (by omega)))
  · intro b hb
    rcases List.mem_cons.mp hb with rfl | hb
    · exact ⟨_, List.mem_append_right _ (List.mem_cons_of_mem _ List.mem_cons_self), rfl, rfl⟩
    · obtain ⟨c, hc, hcfree, rfl⟩ := hlisted b hb
      refine ⟨c, ?_, hcfree, rfl⟩
      rcases List.mem_append.mp hc with hc | hc <;> simp [hc]

/-- The walk that takes `nb` off the list ends, whether it finds `nb` or not. -/
theorem unlinkBlock_spec {fuel : Nat} {l : List Nat} (nb : Nat) (pp : Option Nat)
    (hl : Linked (freeNext h) (· = 0) (loadLink h pp) l) (hfuel : l.length < fuel) :
    (nb ∉ l ∧ unlinkBlock h nb fuel pp = some h) ∨
      ∃ l₁ l₂, l = l₁ ++ nb :: l₂ ∧
        unlinkBlock h nb fuel pp = some (storeLink h (l₁.getLast?.or pp) (freeNext h nb)) := by
  induction l generalizing fuel pp with
  | nil =>
    cases fuel with
    | zero => cases hfuel
    | succ fuel =>
      have hzero : loadLink h pp = 0 := hl
      exact Or.inl ⟨by simp, by rw [unlinkBlock, if_pos hzero]⟩
  | cons a l ih =>
    obtain ⟨ha, hne, hrest⟩ := hl
    cases fuel with
    | zero => cases hfuel
    | succ fuel =>
      rw [unlinkBlock, ha, if_neg hne]
      by_cases hnb : a = nb
      · rw [if_pos hnb]
        exact Or.inr ⟨[], l, by rw [hnb]; rfl, rfl⟩
      · rw [if_neg hnb]
        rcases ih (some a) hrest
            (by simpa using hfuel) with ⟨hnot, hsame⟩ | ⟨l₁, l₂, hsplit, hsome⟩
        · refine Or.inl ⟨fun hmem => ?_, hsame⟩
          rcases List.mem_cons.mp hmem with rfl | hmem
          · exact hnb rfl
          · exact hnot hmem
        · refine Or.inr ⟨a :: l₁, l₂, by rw [hsplit]; rfl, ?_⟩
          rw [hsome, List.getLast?_cons]
          cases l₁.getLast? <;> rfl

/-- `realloc` gives all of the next block `y` to `x`, and only `y` leaves the list. -/
theorem HeapShape.growAbsorb (hs : HeapShape h base (pre ++ x :: y :: post) list)
    (hx : x.free = false) :
    ∃ h' list', unlinkBlock (setSize h x.addr (x.size + y.size)) y.addr walkFuel none = some h' ∧
      HeapShape h' base (pre ++ { x with size := x.size + y.size } :: post) list' ∧
      ∀ b ∈ list, b ≠ y.addr → b ∈ list' := by
  obtain ⟨hpre, hxsize, hxmod, hyaddr, hysize, hymod, hpost⟩ := tiles_middle.mp hs.tiles
  have hend := hpost.le
  have hlt := hs.brk_lt
  have hmemx : x ∈ pre ++ x :: y :: post := by simp
  have htiles : Tiles base (pre ++ { x with size := x.size + y.size } :: post) h.brk := by
    refine tiles_middle.mpr ⟨hpre, ?_, ?_, ?_⟩
    · dsimp only
      omega
    · dsimp only
      omega
    · rw [← Nat.add_assoc]
      exact hpost
  have hchain₁ :
      Linked (freeNext (setSize h x.addr (x.size + y.size))) (· = 0) h.freeList list := by
    refine hs.chain.congr fun b hb => ?_
    obtain ⟨c, hc, -, rfl⟩ := hs.listed b hb
    exact freeNext_setSize (hs.tiles.spaced hmemx hc)
  -- The nodes other than `y` are blocks of the new tiling.
  have hlisted : ∀ b ∈ list, b ≠ y.addr → ∃ c ∈ pre ++ post, c.free = true ∧ c.addr = b := by
    intro b hb hne
    obtain ⟨c, hc, hcfree, rfl⟩ := hs.listed b hb
    refine ⟨c, ?_, hcfree, rfl⟩
    simp only [List.mem_append, List.mem_cons] at hc ⊢
    rcases hc with hc | rfl | rfl | hc
    · exact Or.inl hc
    · rw [hx] at hcfree
      cases hcfree
    · exact absurd rfl hne
    · exact Or.inr hc
  have hdone : ∀ h' list', h'.brk = h.brk →
      (∀ c ∈ pre ++ { x with size := x.size + y.size } :: post,
        sizeWord h' c.addr = sizeWord (setSize h x.addr (x.size + y.size)) c.addr) →
      Linked (freeNext h') (· = 0) h'.freeList list' → (∀ b ∈ list', b ∈ list ∧ b ≠ y.addr) →
      HeapShape h' base (pre ++ { x with size := x.size + y.size } :: post) list' := by
    intro h' list' hbrk hsize hchain hsub
    refine ⟨by rw [hbrk]; exact htiles, ?_, hchain, ?_, hs.base_pos, by rw [hbrk]; exact hlt⟩
    · have hold : ∀ c ∈ pre ++ post, c ∈ pre ++ x :: y :: post →
          sizeWord (setSize h x.addr (x.size + y.size)) c.addr = c.tag := by
        intro c hc hcm
        have hap := htiles.apart_split hc
        have := hs.tiles.bounds hcm
        rw [sizeWord_setSize_ne (hs.tiles.spaced hmemx hcm) (by dsimp only at hap; omega),
          hs.tags c hcm]
      intro c hc
      rw [hsize c hc]
      rcases List.mem_append.mp hc with hc | hc
      · exact hold c (List.mem_append_left _ hc) (by simp [hc])
      rcases List.mem_cons.mp hc with rfl | hc
      · rw [sizeWord_setSize_same (by omega), Block.tag, hx]
        rfl
      · exact hold c (List.mem_append_right _ hc) (by simp [hc])
    · intro b hb
      obtain ⟨c, hc, hcfree, rfl⟩ := hlisted b (hsub b hb).1 (hsub b hb).2
      exact ⟨c, mem_of_mem_rest hc, hcfree, rfl⟩
  rcases unlinkBlock_spec y.addr none hchain₁ hs.list_length with ⟨hnot, hsame⟩ | ⟨l₁, l₂, hl,
      hsome⟩
  · refine ⟨_, list, hsame, hdone _ list rfl (fun _ _ => rfl) hchain₁ fun b hb => ⟨hb, ?_⟩,
      fun b hb _ => hb⟩
    rintro rfl
    exact hnot hb
  · rw [Option.or_none] at hsome
    subst hl
    have hnodup := hs.chain.nodup
    rw [List.nodup_middle, List.nodup_cons] at hnodup
    have hne : ∀ b ∈ l₁ ++ l₂, b ≠ y.addr := by
      rintro b hb rfl
      exact hnodup.1 hb
    have hblock : ∀ b ∈ l₁ ++ l₂, ∃ c ∈ pre ++ post, c.free = true ∧ c.addr = b := fun b hb =>
      hlisted b (mem_of_mem_rest hb) (hne b hb)
    have hspaced : ∀ b ∈ l₁ ++ l₂, ∀ c ∈ l₁ ++ l₂, Spaced b c := by
      intro b hb c hc
      obtain ⟨d, hd, -, rfl⟩ := hblock b hb
      obtain ⟨d', hd', -, rfl⟩ := hblock c hc
      exact htiles.spaced (mem_of_mem_rest hd) (mem_of_mem_rest hd')
    refine ⟨_, l₁ ++ l₂, hsome, hdone _ _ (by simp) ?_ ?_ fun b hb =>
      ⟨mem_of_mem_rest hb, hne b hb⟩,
      fun b hb hother => ?_⟩
    · intro c hc
      refine sizeWord_storeLink fun b hb => ?_
      obtain ⟨d, hd, -, rfl⟩ := hblock b (List.mem_append_left _ (List.mem_of_getLast? hb))
      exact htiles.spaced (mem_of_mem_rest hd) hc
    · refine storeLink_chain hchain₁ rfl (fun _ _ => rfl)
        (fun b hb c hc => hspaced b (List.mem_append_left _ hb) c (List.mem_append_left _ hc))
        (freeNext_lt _ _)
          (hchain₁.drop.2.2.congr fun b hb => freeNext_storeLink_ne fun d hd => ?_)
      have hdm := List.mem_of_getLast? hd
      refine ⟨hspaced d (List.mem_append_left _ hdm) b (List.mem_append_right _ hb), ?_⟩
      rintro rfl
      exact (List.nodup_append.mp hnodup.2).2.2 d hdm d hb rfl
    · rcases List.mem_append.mp hb with hb | hb
      · exact List.mem_append_left _ hb
      · exact List.mem_append_right _ ((List.mem_cons.mp hb).resolve_left hother)

end Lumin.Libc
