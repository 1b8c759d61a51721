import Lumin.Mm.Kmalloc

/-!
# Separation of kernel heap allocations

The live allocations of the kernel heap do not overlap, lie in pages the heap
has, and leave the headers alone, in every run in which each merge of two list
neighbours joins blocks that are also neighbours in memory (`MergesAdjacent`)
and no request wraps around the 64-bit size.

The condition is needed because the heap merges in list order.  `pmm_alloc`
returns pages in any order, the list keeps the order of arrival, and a merge of
two pages that are not adjacent makes a block that covers foreign memory.
-/

namespace Lumin.Mm

open Lumin.Lib

/-! ## Blocks that do not meet -/

/-- Two blocks share no byte. -/
def Apart (a b : HeapBlock) : Prop :=
  a.addr + a.size ≤ b.addr ∨ b.addr + b.size ≤ a.addr

/-- A heap whose blocks hold their header, fit the size field, belong to the
heap and do not meet. -/
structure SoundHeap (owned : Nat → Bool) (heap : List HeapBlock) : Prop where
  apart : heap.Pairwise Apart
  header : ∀ b ∈ heap, HEADER ≤ b.size
  width : ∀ b ∈ heap, b.size < 2 ^ 32
  inside : ∀ b ∈ heap, ∀ x, b.addr ≤ x → x < b.addr + b.size → owned x = true

theorem SoundHeap.tail {owned : Nat → Bool} {b : HeapBlock} {heap : List HeapBlock}
    (h : SoundHeap owned (b :: heap)) : SoundHeap owned heap :=
  ⟨(List.pairwise_cons.mp h.apart).2, fun c hc => h.header c (List.mem_cons_of_mem _ hc),
    fun c hc => h.width c (List.mem_cons_of_mem _ hc),
    fun c hc => h.inside c (List.mem_cons_of_mem _ hc)⟩

theorem SoundHeap.cons {owned : Nat → Bool} {b : HeapBlock} {heap : List HeapBlock}
    (h : SoundHeap owned heap) (hapart : ∀ c ∈ heap, Apart b c) (hheader : HEADER ≤ b.size)
    (hwidth : b.size < 2 ^ 32)
    (hinside : ∀ x, b.addr ≤ x → x < b.addr + b.size → owned x = true) :
    SoundHeap owned (b :: heap) := by
  refine ⟨List.pairwise_cons.mpr ⟨hapart, h.apart⟩, ?_, ?_, ?_⟩
  · exact List.forall_mem_cons.mpr ⟨hheader, h.header⟩
  · exact List.forall_mem_cons.mpr ⟨hwidth, h.width⟩
  · exact List.forall_mem_cons.mpr ⟨hinside, h.inside⟩

theorem SoundHeap.mono {owned owned' : Nat → Bool} {heap : List HeapBlock}
    (h : SoundHeap owned heap)
    (hkeep : ∀ b ∈ heap, ∀ x, b.addr ≤ x → x < b.addr + b.size → owned x = true →
      owned' x = true) : SoundHeap owned' heap :=
  ⟨h.apart, h.header, h.width,
    fun b hb x hlo hhi => hkeep b hb x hlo hhi (h.inside b hb x hlo hhi)⟩

/-! ## Merging -/

/-- From `cur` on, each merge of the loop joins blocks that are adjacent in
memory and does not overflow the size field. -/
def MergesAdjacentFrom (cur : HeapBlock) : List HeapBlock → Prop
  | [] => True
  | next :: rest =>
    if cur.free ∧ next.free then
      (cur.addr + cur.size = next.addr ∧ cur.size + next.size < 2 ^ 32) ∧
        MergesAdjacentFrom { cur with size := u32 (cur.size + next.size) } rest
    else MergesAdjacentFrom next rest

/-- The same for the whole heap. -/
def MergesAdjacent : List HeapBlock → Prop
  | [] => True
  | root :: rest => MergesAdjacentFrom root rest

instance MergesAdjacentFrom.decidable : ∀ cur rest, Decidable (MergesAdjacentFrom cur rest)
  | _, [] => isTrue trivial
  | cur, next :: rest =>
    have := MergesAdjacentFrom.decidable { cur with size := u32 (cur.size + next.size) } rest
    have := MergesAdjacentFrom.decidable next rest
    inferInstanceAs (Decidable (ite _ _ _))

instance MergesAdjacent.decidable : ∀ heap, Decidable (MergesAdjacent heap)
  | [] => isTrue trivial
  | root :: rest => MergesAdjacentFrom.decidable root rest

/-- Two adjacent blocks that are apart from a third are so together. -/
theorem apart_merge {cur next c : HeapBlock} {size : Nat}
    (hadj : cur.addr + cur.size = next.addr) (hsize : size = cur.size + next.size)
    (hc : HEADER ≤ c.size) (h₁ : Apart cur c) (h₂ : Apart next c) :
    Apart { cur with size := size } c := by
  have hheader : HEADER = 24 := rfl
  simp only [Apart] at h₁ h₂ ⊢
  omega

/-- No block is followed by a free block while it is free itself. -/
def NoFreePair : List HeapBlock → Prop :=
  List.IsChain fun a b => ¬ (a.free = true ∧ b.free = true)

theorem apart_comm {a b : HeapBlock} : Apart a b ↔ Apart b a := Or.comm

instance : Std.Symm Apart := ⟨fun _ _ => apart_comm.mp⟩

/-- A block that is apart from the merged blocks is apart from the result. -/
theorem coalesceFrom_apart {c : HeapBlock} (hc : HEADER ≤ c.size) (rest : List HeapBlock) :
    ∀ cur : HeapBlock, MergesAdjacentFrom cur rest → (∀ b ∈ cur :: rest, Apart c b) →
      ∀ b ∈ coalesceFrom cur rest, Apart c b := by
  induction rest with
  | nil =>
    intro cur _ hapart
    exact hapart
  | cons next rest ih =>
    intro cur hmerge hapart
    rw [MergesAdjacentFrom] at hmerge
    rw [coalesceFrom]
    by_cases hfree : cur.free = true ∧ next.free = true
    · rw [if_pos hfree] at hmerge ⊢
      obtain ⟨⟨hadj, hsum⟩, hmerge⟩ := hmerge
      refine ih _ hmerge (List.forall_mem_cons.mpr ⟨?_, fun b hb => hapart b (by simp [hb])⟩)
      exact apart_comm.mp (apart_merge hadj (u32_of_lt hsum) hc
        (apart_comm.mp (hapart cur (by simp))) (apart_comm.mp (hapart next (by simp))))
    · rw [if_neg hfree] at hmerge ⊢
      exact List.forall_mem_cons.mpr ⟨hapart cur (by simp),
        ih next hmerge fun b hb => hapart b (List.mem_cons_of_mem _ hb)⟩

/-- Coalescing a sound heap gives a sound heap without free neighbours, and
keeps every block in use. -/
theorem coalesceFrom_spec {owned : Nat → Bool} (rest : List HeapBlock) :
    ∀ cur : HeapBlock, SoundHeap owned (cur :: rest) → MergesAdjacentFrom cur rest →
      SoundHeap owned (coalesceFrom cur rest) ∧ NoFreePair (coalesceFrom cur rest) ∧
        (∀ b ∈ cur :: rest, b.free = false → b ∈ coalesceFrom cur rest) ∧
        (∃ b tl, coalesceFrom cur rest = b :: tl ∧ b.free = cur.free) := by
  induction rest with
  | nil =>
    intro cur hsound _
    exact ⟨hsound, List.isChain_singleton _, fun b hb _ => hb, cur, [], rfl, rfl⟩
  | cons next rest ih =>
    intro cur hsound hmerge
    rw [MergesAdjacentFrom] at hmerge
    rw [coalesceFrom]
    obtain ⟨hapart, -⟩ := List.pairwise_cons.mp hsound.apart
    by_cases hfree : cur.free = true ∧ next.free = true
    · rw [if_pos hfree] at hmerge ⊢
      obtain ⟨⟨hadj, hsum⟩, hmerge⟩ := hmerge
      have hsize : u32 (cur.size + next.size) = cur.size + next.size := u32_of_lt hsum
      obtain ⟨hnext, -⟩ := List.pairwise_cons.mp hsound.tail.apart
      have hcur := hsound.header cur (by simp)
      have hmerged :
          SoundHeap owned ({ cur with size := u32 (cur.size + next.size) } :: rest) := by
        refine hsound.tail.tail.cons ?_ ?_ (u32_lt _) ?_
        · intro c hc
          exact apart_merge hadj hsize (hsound.header c (by simp [hc]))
            (hapart c (by simp [hc])) (hnext c hc)
        · dsimp only
          omega
        · intro x hlo hhi
          dsimp only at hlo hhi
          by_cases hx : x < cur.addr + cur.size
          · exact hsound.inside cur (by simp) x hlo hx
          · exact hsound.inside next (by simp) x (by omega) (by omega)
      obtain ⟨hs, hn, hused, b, tl, hb, hbf⟩ := ih _ hmerged hmerge
      refine ⟨hs, hn, ?_, b, tl, hb, hbf⟩
      intro b hb hbfree
      rcases List.mem_cons.mp hb with rfl | hb
      · rw [hfree.1] at hbfree
        cases hbfree
      · rcases List.mem_cons.mp hb with rfl | hb
        · rw [hfree.2] at hbfree
          cases hbfree
        · exact hused b (List.mem_cons_of_mem _ hb) hbfree
    · rw [if_neg hfree] at hmerge ⊢
      obtain ⟨hs, hn, hused, b, tl, hb, hbf⟩ := ih next hsound.tail hmerge
      refine ⟨?_, ?_, ?_, cur, _, rfl, rfl⟩
      · exact hs.cons (coalesceFrom_apart (hsound.header cur (by simp)) rest next hmerge hapart)
          (hsound.header cur (by simp)) (hsound.width cur (by simp)) (hsound.inside cur (by simp))
      · rw [hb]
        refine List.isChain_cons_cons.mpr ⟨?_, hb ▸ hn⟩
        rw [hbf]
        exact hfree
      · intro c hc hcfree
        rcases List.mem_cons.mp hc with rfl | hc
        · exact List.mem_cons_self
        · exact List.mem_cons_of_mem _ (hused c hc hcfree)

theorem heapCoalesce_spec {owned : Nat → Bool} {heap : List HeapBlock}
    (hsound : SoundHeap owned heap) (hmerge : MergesAdjacent heap) :
    SoundHeap owned (heapCoalesce heap) ∧ NoFreePair (heapCoalesce heap) ∧
      ∀ b ∈ heap, b.free = false → b ∈ heapCoalesce heap := by
  cases heap with
  | nil => exact ⟨hsound, List.isChain_nil, fun b hb _ => hb⟩
  | cons root rest =>
    obtain ⟨hs, hn, hused, -⟩ := coalesceFrom_spec rest root hsound hmerge
    exact ⟨hs, hn, hused⟩

/-! ## Allocation -/

/-- A request that does not wrap gets room for its header and payload. -/
theorem neededBytes_ge {size : Nat} (hsize : 0 < size) (hmax : size + 39 < 2 ^ 64) :
    size + HEADER ≤ neededBytes size ∧ 32 ≤ neededBytes size := by
  have hheader : HEADER = 24 := rfl
  unfold neededBytes
  rw [u64_of_lt (by omega)]
  dsimp only
  rw [if_neg (by omega), u64_of_lt (by omega)]
  omega

/-- What a successful search does: some free block becomes, in whole or in its
first part, a block in use, and the rest of it stays free. -/
theorem takeBlock_spec {owned : Nat → Bool} {needed : Nat} (hneeded : 32 ≤ needed)
    (heap : List HeapBlock) :
    ∀ ptr heap', SoundHeap owned heap → takeBlock needed heap = some (ptr, heap') →
      SoundHeap owned heap' ∧ (∀ b ∈ heap, b.free = false → b ∈ heap') ∧
        (∃ b ∈ heap', b.free = false ∧ ptr = b.addr + HEADER ∧ needed ≤ b.size) ∧
        (∃ b ∈ heap, b.free = true ∧ ptr = b.addr + HEADER) ∧
        (∀ c : HeapBlock, HEADER ≤ c.size → (∀ b ∈ heap, Apart c b) →
          ∀ b ∈ heap', Apart c b) := by
  have hheader : HEADER = 24 := rfl
  induction heap with
  | nil =>
    intro ptr heap' _ h
    simp [takeBlock] at h
  | cons cur rest ih =>
    intro ptr heap' hsound h
    rw [takeBlock] at h
    obtain ⟨hapart, -⟩ := List.pairwise_cons.mp hsound.apart
    have hwidth := hsound.width cur (by simp)
    have hcursize := hsound.header cur (by simp)
    by_cases hfit : cur.free = true ∧ cur.size ≥ needed
    · rw [if_pos hfit, u64_of_lt (by omega)] at h
      by_cases hsplit : cur.size ≥ needed + HEADER + 16
      · -- The block is split; both parts lie inside it.
        rw [if_pos hsplit, if_neg (by omega)] at h
        cases h
        rw [u32_of_lt (show needed < 2 ^ 32 by omega),
          u32_of_lt (show cur.size - needed < 2 ^ 32 by omega)]
        refine ⟨?_, ?_, ?_, ?_, ?_⟩
        · refine (hsound.tail.cons ?_ ?_ ?_ ?_).cons ?_ ?_ ?_ ?_
          · intro c hc
            have := hapart c hc
            simp only [Apart] at this ⊢
            omega
          · dsimp only
            omega
          · dsimp only
            omega
          · intro x hlo hhi
            dsimp only at hlo hhi
            exact hsound.inside cur (by simp) x (by omega) (by omega)
          · refine List.forall_mem_cons.mpr ⟨Or.inl (le_refl _), fun c hc => ?_⟩
            have := hapart c hc
            simp only [Apart] at this ⊢
            omega
          · dsimp only
            omega
          · dsimp only
            omega
          · intro x hlo hhi
            dsimp only at hlo hhi
            exact hsound.inside cur (by simp) x hlo (by omega)
        · intro b hb hbfree
          rcases List.mem_cons.mp hb with rfl | hb
          · rw [hfit.1] at hbfree
            cases hbfree
          · simp [hb]
        · exact ⟨_, List.mem_cons_self, rfl, rfl, le_refl _⟩
        · exact ⟨cur, by simp, hfit.1, rfl⟩
        · intro c hc hall
          have hcur := hall cur (by simp)
          simp only [Apart] at hcur
          refine List.forall_mem_cons.mpr ⟨?_, List.forall_mem_cons.mpr ⟨?_, ?_⟩⟩
          · simp only [Apart]
            omega
          · simp only [Apart]
            omega
          · exact fun b hb => hall b (by simp [hb])
      · rw [if_neg hsplit] at h
        cases h
        refine ⟨?_, ?_, ?_, ?_, ?_⟩
        · exact hsound.tail.cons hapart hcursize hwidth (hsound.inside cur (by simp))
        · intro b hb hbfree
          rcases List.mem_cons.mp hb with rfl | hb
          · rw [hfit.1] at hbfree
            cases hbfree
          · simp [hb]
        · exact ⟨_, List.mem_cons_self, rfl, rfl, hfit.2⟩
        · exact ⟨cur, by simp, hfit.1, rfl⟩
        · intro c _ hall
          refine List.forall_mem_cons.mpr ⟨hall cur (by simp), fun b hb => hall b (by simp [hb])⟩
    · rw [if_neg hfit] at h
      obtain ⟨r, hrest, hr⟩ := Option.map_eq_some_iff.mp h
      obtain ⟨rfl, rfl⟩ := Prod.mk.inj hr
      obtain ⟨hs, hused, ⟨b, hb, hbf, hbp, hbn⟩, ⟨d, hd, hdf, hdp⟩, hall⟩ :=
        ih _ _ hsound.tail hrest
      refine ⟨?_, ?_, ⟨b, List.mem_cons_of_mem _ hb, hbf, hbp, hbn⟩,
        ⟨d, List.mem_cons_of_mem _ hd, hdf, hdp⟩, ?_⟩
      · exact hs.cons (hall cur hcursize hapart) hcursize hwidth (hsound.inside cur (by simp))
      · intro c hc hcfree
        rcases List.mem_cons.mp hc with rfl | hc
        · exact List.mem_cons_self
        · exact List.mem_cons_of_mem _ (hused c hc hcfree)
      · intro c hc hcall
        exact List.forall_mem_cons.mpr ⟨hcall cur (by simp),
          hall c hc fun b hb => hcall b (List.mem_cons_of_mem _ hb)⟩

/-! ## Giving pages back -/

/-- A large free block keeps its first part, and the page it gives back lies
between that part and its old end. -/
theorem giveExtra_spec {cur : HeapBlock} (h : 0x2000 ≤ cur.size) :
    ∃ size, giveExtra cur = ({ cur with size := size }, [cur.addr + size]) ∧
      0x1000 ≤ size ∧ size + 0x1000 ≤ cur.size := by
  refine ⟨cur.size - (cur.size - 0x1000) / 0x1000 * 0x1000, ?_, by omega, by omega⟩
  unfold giveExtra
  rw [if_pos (by omega)]

/-- The result of the trimming loop: every block is the first part of an old
one, blocks in use stay as they are, and each page given back lies in an old
free block and meets no new block. -/
structure Trimmed (heap : List HeapBlock) (r : List HeapBlock × List Nat) : Prop where
  apart : r.1.Pairwise Apart
  part : ∀ b' ∈ r.1, HEADER ≤ b'.size ∧ ∃ b ∈ heap, b'.addr = b.addr ∧ b'.size ≤ b.size
  used : ∀ b ∈ heap, b.free = false → b ∈ r.1
  page : ∀ a ∈ r.2, ∃ b ∈ heap, b.addr ≤ a ∧ a + 0x1000 ≤ b.addr + b.size
  pageApart : ∀ a ∈ r.2, ∀ b' ∈ r.1, a + 0x1000 ≤ b'.addr ∨ b'.addr + b'.size ≤ a

/-- Put the first part of `cur` in front of a trimmed rest. -/
theorem Trimmed.cons {cur cur' : HeapBlock} {heap : List HeapBlock} {back : List Nat}
    {r : List HeapBlock × List Nat} (h : Trimmed heap r) (hapart : ∀ c ∈ heap, Apart cur c)
    (haddr : cur'.addr = cur.addr) (hsize : cur'.size ≤ cur.size) (hheader : HEADER ≤ cur'.size)
    (hused : cur.free = false → cur' = cur)
    (hback : ∀ a ∈ back, cur.addr + cur'.size ≤ a ∧ a + 0x1000 ≤ cur.addr + cur.size) :
    Trimmed (cur :: heap) (cur' :: r.1, back ++ r.2) := by
  refine ⟨List.pairwise_cons.mpr ⟨?_, h.apart⟩, ?_, ?_, ?_, ?_⟩
  · intro b' hb'
    obtain ⟨-, b, hb, hba, hbs⟩ := h.part b' hb'
    have := hapart b hb
    simp only [Apart] at this ⊢
    omega
  · refine List.forall_mem_cons.mpr ⟨⟨hheader, cur, by simp, haddr, hsize⟩, ?_⟩
    intro b' hb'
    obtain ⟨hh, b, hb, hba, hbs⟩ := h.part b' hb'
    exact ⟨hh, b, List.mem_cons_of_mem _ hb, hba, hbs⟩
  · intro b hb hbfree
    rcases List.mem_cons.mp hb with rfl | hb
    · rw [hused hbfree]
      exact List.mem_cons_self
    · exact List.mem_cons_of_mem _ (h.used b hb hbfree)
  · intro a ha
    rcases List.mem_append.mp ha with ha | ha
    · have := hback a ha
      exact ⟨cur, by simp, by omega, by omega⟩
    · obtain ⟨b, hb, hlo, hhi⟩ := h.page a ha
      exact ⟨b, List.mem_cons_of_mem _ hb, hlo, hhi⟩
  · intro a ha
    rcases List.mem_append.mp ha with ha | ha
    · have hab := hback a ha
      refine List.forall_mem_cons.mpr ⟨Or.inr (by omega), fun b' hb' => ?_⟩
      obtain ⟨-, b, hb, hba, hbs⟩ := h.part b' hb'
      have := hapart b hb
      simp only [Apart] at this
      omega
    · refine List.forall_mem_cons.mpr ⟨?_, h.pageApart a ha⟩
      obtain ⟨b, hb, hlo, hhi⟩ := h.page a ha
      have := hapart b hb
      simp only [Apart] at this
      omega

theorem Trimmed.cons_same {cur : HeapBlock} {heap : List HeapBlock}
    {r : List HeapBlock × List Nat} (h : Trimmed heap r) (hapart : ∀ c ∈ heap, Apart cur c)
    (hheader : HEADER ≤ cur.size) : Trimmed (cur :: heap) (cur :: r.1, r.2) := by
  have hnone :
      ∀ a ∈ ([] : List Nat), cur.addr + cur.size ≤ a ∧ a + 0x1000 ≤ cur.addr + cur.size :=
    by simp
  exact h.cons hapart rfl (le_refl _) hheader (fun _ => rfl) hnone

theorem trimmed_nil : Trimmed [] ([], []) :=
  ⟨List.Pairwise.nil, by simp, by simp, by simp, by simp⟩

/-- The trimming loop at a block that is not the last one, when it is not
followed by a free block while it is free itself. -/
theorem trimHeap_cons {cur next : HeapBlock} {rest : List HeapBlock}
    (h : ¬ (cur.free = true ∧ next.free = true)) :
    trimHeap (cur :: next :: rest) =
      if cur.free = true ∧ cur.size ≥ 0x2000 then
        ((giveExtra cur).1 :: (trimHeap (next :: rest)).1,
          (giveExtra cur).2 ++ (trimHeap (next :: rest)).2)
      else (cur :: (trimHeap (next :: rest)).1, (trimHeap (next :: rest)).2) := by
  rw [trimHeap, if_neg fun hm => h ⟨hm.1, hm.2.2⟩]
  by_cases hbig : cur.free = true ∧ cur.size ≥ 0x2000
  · have hnext : ¬ next.free = true := fun hn => h ⟨hbig.1, hn⟩
    have hall : cur.free = true ∧ cur.size ≥ 0x2000 ∧ ¬ next.free = true :=
      ⟨hbig.1, hbig.2, hnext⟩
    simp only [if_pos hall, if_pos hbig]
  · have hall : ¬ (cur.free = true ∧ cur.size ≥ 0x2000 ∧ ¬ next.free = true) :=
      fun ha => hbig ⟨ha.1, ha.2.1⟩
    simp only [if_neg hbig, if_neg hall, List.nil_append]

/-- The trimming loop at the last block. -/
theorem trimHeap_last {cur cur' : HeapBlock} {back : List Nat}
    (h : giveExtra cur = (cur', back)) :
    trimHeap [cur] =
      if cur.free = true ∧ cur.size = 0x1000 then ([], [cur.addr])
      else if cur.free = true ∧ cur.size ≥ 0x2000 then ([cur'], back)
      else ([cur], []) := by
  rw [trimHeap, h]

theorem trimHeap_spec {owned : Nat → Bool} (heap : List HeapBlock) :
    SoundHeap owned heap → NoFreePair heap → Trimmed heap (trimHeap heap) := by
  induction heap with
  | nil => exact fun _ _ => trimmed_nil
  | cons cur rest ih =>
    intro hsound hpair
    have hheader := hsound.header cur (by simp)
    obtain ⟨hapart, -⟩ := List.pairwise_cons.mp hsound.apart
    have hkeep : ∀ r, Trimmed rest r → Trimmed (cur :: rest) (cur :: r.1, r.2) := by
      intro r hr
      exact hr.cons_same hapart hheader
    have hcut : cur.free = true → 0x2000 ≤ cur.size → ∀ r, Trimmed rest r →
        Trimmed (cur :: rest) ((giveExtra cur).1 :: r.1, (giveExtra cur).2 ++ r.2) := by
      intro hfree hbig r hr
      obtain ⟨size, heq, hlo, hhi⟩ := giveExtra_spec hbig
      rw [heq]
      refine hr.cons hapart rfl (by dsimp only; omega) ?_ (by simp [hfree]) ?_
      · have : HEADER = 24 := rfl
        dsimp only
        omega
      · intro a ha
        rw [List.mem_singleton.mp ha]
        dsimp only
        omega
    cases rest with
    | nil =>
      obtain ⟨⟨cur', back⟩, hg⟩ : ∃ g, giveExtra cur = g := ⟨_, rfl⟩
      rw [hg] at hcut
      rw [trimHeap_last hg]
      split
      · -- The last block is one free page and leaves the heap whole.
        rename_i hlast
        refine ⟨List.Pairwise.nil, by simp, ?_, ?_, by simp⟩
        · intro b hb hbfree
          rw [List.mem_singleton.mp hb, hlast.1] at hbfree
          cases hbfree
        · intro a ha
          rw [List.mem_singleton.mp ha]
          exact ⟨cur, by simp, le_refl _, by omega⟩
      · split
        · rename_i hbig
          simpa using hcut hbig.1 hbig.2 _ trimmed_nil
        · simpa using hkeep _ trimmed_nil
    | cons next rest =>
      obtain ⟨hne, hrest⟩ := List.isChain_cons_cons.mp hpair
      have htrim := ih hsound.tail hrest
      rw [trimHeap_cons hne]
      split
      · rename_i hbig
        exact hcut hbig.1 hbig.2 _ htrim
      · exact hkeep _ htrim

/-- Bytes outside the pages given back keep their owner. -/
theorem ownedByte_gave {back : List Nat} {log : List PageEvent} {x : Nat}
    (h : ∀ a ∈ back, ¬ (a ≤ x ∧ x < a + 0x1000)) :
    OwnedByte ((back.map PageEvent.gave).reverse ++ log) x = OwnedByte log x := by
  induction back generalizing log with
  | nil => rfl
  | cons a back ih =>
    rw [List.map_cons, List.reverse_cons, List.append_assoc, ih fun b hb => h b (by simp [hb])]
    have ha := h a (by simp)
    have : (decide (a ≤ x) && decide (x < a + 0x1000)) = false := by
      simpa using ha
    simp [OwnedByte, this]

theorem Trimmed.sound {log : List PageEvent} {heap : List HeapBlock}
    {r : List HeapBlock × List Nat} (h : Trimmed heap r)
    (hsound : SoundHeap (OwnedByte log) heap) :
    SoundHeap (OwnedByte ((r.2.map PageEvent.gave).reverse ++ log)) r.1 := by
  refine ⟨h.apart, fun b' hb' => (h.part b' hb').1, ?_, ?_⟩
  · intro b' hb'
    obtain ⟨-, b, hb, -, hbs⟩ := h.part b' hb'
    have := hsound.width b hb
    omega
  · intro b' hb' x hlo hhi
    obtain ⟨-, b, hb, hba, hbs⟩ := h.part b' hb'
    rw [ownedByte_gave]
    · exact hsound.inside b hb x (by omega) (by omega)
    · intro a ha
      have := h.pageApart a ha b' hb'
      omega

/-! ## Getting a page -/

/-- A page that shares no byte with the heap can join it. -/
theorem heapAddPages_sound {log : List PageEvent} {heap : List HeapBlock} {page : Nat}
    (hsound : SoundHeap (OwnedByte log) heap)
    (hfresh : ∀ x, page ≤ x → x < page + 0x1000 → OwnedByte log x = false) :
    SoundHeap (OwnedByte (.got page :: log)) (heapAddPages heap page) := by
  have hheader : HEADER = 24 := rfl
  have hapart : ∀ b ∈ heap, Apart b (pageBlock page) := by
    intro b hb
    by_contra hmeet
    simp only [Apart, pageBlock, not_or, not_le] at hmeet
    have hsize := hsound.header b hb
    have howned := hsound.inside b hb (max b.addr page) (le_max_left _ _) (by omega)
    rw [hfresh _ (le_max_right _ _) (by omega)] at howned
    cases howned
  refine ⟨List.pairwise_append.mpr ⟨hsound.apart, List.pairwise_singleton _ _, ?_⟩, ?_, ?_, ?_⟩
  · intro b hb c hc
    rw [List.mem_singleton.mp hc]
    exact hapart b hb
  all_goals
    intro b hb
    rcases List.mem_append.mp hb with hb | hb
  · exact hsound.header b hb
  · rw [List.mem_singleton.mp hb]
    dsimp only [pageBlock]
    omega
  · exact hsound.width b hb
  · rw [List.mem_singleton.mp hb]
    dsimp only [pageBlock]
    omega
  · intro x hlo hhi
    rw [OwnedByte, hsound.inside b hb x hlo hhi, Bool.or_true]
  · rw [List.mem_singleton.mp hb]
    intro x hlo hhi
    simp only [pageBlock] at hlo hhi
    simp [OwnedByte, hlo, hhi]

theorem mem_heapAddPages {heap : List HeapBlock} {page : Nat} {b : HeapBlock} (hb : b ∈ heap) :
    b ∈ heapAddPages heap page :=
  List.mem_append_left _ hb

/-! ## The invariant -/

/-- Each live allocation is the payload of a block in use that is large enough. -/
structure HeapInv (w : HeapWorld) : Prop where
  sound : SoundHeap (OwnedByte w.log) w.heap
  block : ∀ a ∈ w.live, ∃ b ∈ w.heap, b.free = false ∧ a.1 = b.addr + HEADER ∧
    a.2 + HEADER ≤ b.size
  nodup : (w.live.map Prod.fst).Nodup

/-- The live ranges are disjoint, lie in pages the heap has, and meet no header
of the heap list. -/
structure Separated (w : HeapWorld) : Prop where
  disjoint : w.live.Pairwise fun a b => a.1 + a.2 ≤ b.1 ∨ b.1 + b.2 ≤ a.1
  inside : ∀ a ∈ w.live, ∀ x, a.1 ≤ x → x < a.1 + a.2 → OwnedByte w.log x = true
  headers : ∀ a ∈ w.live, ∀ b ∈ w.heap, a.1 + a.2 ≤ b.addr ∨ b.addr + HEADER ≤ a.1

/-- Two blocks of a sound heap are the same block or apart. -/
theorem SoundHeap.eq_or_apart {owned : Nat → Bool} {heap : List HeapBlock}
    (h : SoundHeap owned heap) {b c : HeapBlock} (hb : b ∈ heap) (hc : c ∈ heap) :
    b = c ∨ Apart b c := by
  by_cases hbc : b = c
  · exact Or.inl hbc
  · exact Or.inr (h.apart.forall hb hc hbc)

/-- The address of a block says which block it is. -/
theorem SoundHeap.eq_of_addr {owned : Nat → Bool} {heap : List HeapBlock}
    (h : SoundHeap owned heap) {b c : HeapBlock} (hb : b ∈ heap) (hc : c ∈ heap)
    (haddr : b.addr = c.addr) : b = c := by
  rcases h.eq_or_apart hb hc with heq | hapart
  · exact heq
  · have hheader : HEADER = 24 := rfl
    have := h.header b hb
    have := h.header c hc
    simp only [Apart] at hapart
    omega

theorem HeapInv.separated {w : HeapWorld} (h : HeapInv w) : Separated w := by
  refine ⟨?_, ?_, ?_⟩
  · refine (List.pairwise_map.mp h.nodup).imp_of_mem ?_
    intro a c ha hc hne
    obtain ⟨b, hb, -, hab, hbsize⟩ := h.block a ha
    obtain ⟨d, hd, -, hcd, hdsize⟩ := h.block c hc
    rcases h.sound.eq_or_apart hb hd with rfl | hapart
    · exact absurd (hab.trans hcd.symm) hne
    · simp only [Apart] at hapart
      omega
  · intro a ha x hlo hhi
    obtain ⟨b, hb, -, hab, hbsize⟩ := h.block a ha
    exact h.sound.inside b hb x (by omega) (by omega)
  · intro a ha c hc
    obtain ⟨b, hb, -, hab, hbsize⟩ := h.block a ha
    have hcsize := h.sound.header c hc
    rcases h.sound.eq_or_apart hb hc with rfl | hapart
    · exact Or.inr (le_of_eq hab.symm)
    · simp only [Apart] at hapart
      omega

/-! ## Allocation keeps the invariant -/

/-- The search finds nothing exactly when every free block is too small. -/
theorem takeBlock_eq_none {needed : Nat} {heap : List HeapBlock} :
    takeBlock needed heap = none ↔ ∀ b ∈ heap, b.free = true → b.size < needed := by
  induction heap with
  | nil => simp [takeBlock]
  | cons cur rest ih =>
    rw [takeBlock, List.forall_mem_cons, ← ih]
    by_cases hfit : cur.free = true ∧ cur.size ≥ needed
    · rw [if_pos hfit]
      constructor
      · intro h
        split_ifs at h
      · intro h
        have := h.1 hfit.1
        omega
    · rw [if_neg hfit, Option.map_eq_none_iff]
      constructor
      · intro h
        refine ⟨fun hfree => ?_, h⟩
        by_contra hsize
        exact hfit ⟨hfree, not_lt.mp hsize⟩
      · exact fun h => h.2

/-- A block taken from a heap that carries the live allocations makes one more. -/
theorem HeapInv.take {w : HeapWorld} (h : HeapInv w) {size ptr : Nat} {heap' : List HeapBlock}
    (hsize : 0 < size) (hmax : size + 39 < 2 ^ 64)
    (htake : takeBlock (neededBytes size) w.heap = some (ptr, heap')) :
    HeapInv { w with heap := heap', live := (ptr, size) :: w.live } := by
  obtain ⟨hroom, hneeded⟩ := neededBytes_ge hsize hmax
  obtain ⟨hsound, hused, ⟨b, hb, hbfree, hbptr, hbsize⟩, ⟨d, hd, hdfree, hdptr⟩, -⟩ :=
    takeBlock_spec hneeded w.heap ptr heap' h.sound htake
  refine ⟨hsound, List.forall_mem_cons.mpr ⟨⟨b, hb, hbfree, hbptr, by omega⟩, ?_⟩, ?_⟩
  · intro a ha
    obtain ⟨c, hc, hcfree, hac, hcsize⟩ := h.block a ha
    exact ⟨c, hused c hc hcfree, hcfree, hac, hcsize⟩
  · rw [List.map_cons, List.nodup_cons]
    refine ⟨fun hmem => ?_, h.nodup⟩
    -- The pointer was the payload of a free block, a live one is not.
    obtain ⟨a, ha, rfl⟩ := List.mem_map.mp hmem
    obtain ⟨c, hc, hcfree, hac, -⟩ := h.block a ha
    have : c = d := h.sound.eq_of_addr hc hd (by omega)
    rw [this, hdfree] at hcfree
    cases hcfree

theorem HeapInv.coalesce {w : HeapWorld} (h : HeapInv w) (hmerge : MergesAdjacent w.heap) :
    HeapInv { w with heap := heapCoalesce w.heap } := by
  obtain ⟨hsound, -, hused⟩ := heapCoalesce_spec h.sound hmerge
  refine ⟨hsound, fun a ha => ?_, h.nodup⟩
  obtain ⟨b, hb, hbfree, hab, hbsize⟩ := h.block a ha
  exact ⟨b, hused b hb hbfree, hbfree, hab, hbsize⟩

theorem HeapInv.addPage {w : HeapWorld} (h : HeapInv w) {page : Nat}
    (hfresh : ∀ x, page ≤ x → x < page + 0x1000 → OwnedByte w.log x = false) :
    HeapInv { w with heap := heapAddPages w.heap page, log := .got page :: w.log } := by
  refine ⟨heapAddPages_sound h.sound hfresh, fun a ha => ?_, h.nodup⟩
  obtain ⟨b, hb, hbfree, hab, hbsize⟩ := h.block a ha
  exact ⟨b, mem_heapAddPages hb, hbfree, hab, hbsize⟩

/-! ## Freeing keeps the invariant -/

theorem markFree_sound {owned : Nat → Bool} {heap : List HeapBlock} (ptr : Nat)
    (h : SoundHeap owned heap) : SoundHeap owned (markFree ptr heap) := by
  have hsame : ∀ b : HeapBlock,
      (if b.addr + HEADER = ptr then { b with free := true } else b).addr = b.addr ∧
        (if b.addr + HEADER = ptr then { b with free := true } else b).size = b.size := by
    intro b
    split <;> exact ⟨rfl, rfl⟩
  refine ⟨List.pairwise_map.mpr (h.apart.imp ?_), ?_, ?_, ?_⟩
  · intro b c hbc
    simp only [Apart, hsame] at hbc ⊢
    exact hbc
  all_goals
    intro b' hb'
    obtain ⟨b, hb, rfl⟩ := List.mem_map.mp hb'
    simp only [hsame]
  · exact h.header b hb
  · exact h.width b hb
  · exact h.inside b hb

theorem mem_markFree {heap : List HeapBlock} {ptr : Nat} {b : HeapBlock} (hb : b ∈ heap)
    (hne : b.addr + HEADER ≠ ptr) : b ∈ markFree ptr heap :=
  List.mem_map.mpr ⟨b, hb, if_neg hne⟩

/-- The other live allocations survive when a block is marked free. -/
theorem HeapInv.mark {w : HeapWorld} (h : HeapInv w) (ptr : Nat) :
    HeapInv { w with heap := markFree ptr w.heap, live := w.live.filter fun a => a.1 ≠ ptr } := by
  refine ⟨markFree_sound ptr h.sound, ?_, ?_⟩
  · intro a ha
    obtain ⟨hmem, hne⟩ := List.mem_filter.mp ha
    have hne : a.1 ≠ ptr := by simpa using hne
    obtain ⟨b, hb, hbfree, hab, hbsize⟩ := h.block a hmem
    exact ⟨b, mem_markFree hb (hab ▸ hne), hbfree, hab, hbsize⟩
  · exact h.nodup.sublist (List.filter_sublist.map _)

/-- Giving free pages back keeps the invariant of a coalesced heap. -/
theorem HeapInv.trim {w : HeapWorld} (h : HeapInv w) (hpair : NoFreePair w.heap) :
    HeapInv { w with
      heap := (trimHeap w.heap).1
      log := ((trimHeap w.heap).2.map PageEvent.gave).reverse ++ w.log } := by
  have htrim := trimHeap_spec w.heap h.sound hpair
  refine ⟨htrim.sound h.sound, fun a ha => ?_, h.nodup⟩
  obtain ⟨b, hb, hbfree, hab, hbsize⟩ := h.block a ha
  exact ⟨b, htrim.used b hb hbfree, hbfree, hab, hbsize⟩

/-! ## Runs -/

/-- What `pmm_alloc` promises: an aligned page with no byte that the heap has. -/
def FreshPage (log : List PageEvent) (page : Nat) : Prop :=
  page % 0x1000 = 0 ∧ ∀ x, page ≤ x → x < page + 0x1000 → OwnedByte log x = false

/-- The condition under which a call keeps the allocations apart.  A request
does not wrap around the 64-bit size, and every merge of the call joins blocks
that are adjacent in memory.  `kmalloc` merges a second time when no free block
is large enough and it gets a page. -/
def HeapGuard (w : HeapWorld) : HeapOp → Prop
  | .kmalloc size page =>
    (page ≠ 0 → FreshPage w.log page) ∧
      (size ≠ 0 → size + 39 < 2 ^ 64 ∧ MergesAdjacent w.heap ∧
        ((∀ b ∈ heapCoalesce w.heap, b.free = true → b.size < neededBytes size) → page ≠ 0 →
          MergesAdjacent (heapAddPages (heapCoalesce w.heap) page)))
  | .kfree ptr => MergesAdjacent (markFree ptr w.heap)

/-- The four ways a request for at least one byte can end. -/
theorem kmalloc_cases (heap : List HeapBlock) {size : Nat} (page : Nat) (hsize : size ≠ 0) :
    (∃ ptr heap', takeBlock (neededBytes size) (heapCoalesce heap) = some (ptr, heap') ∧
      kmalloc heap size page = (ptr, heap', none)) ∨
    takeBlock (neededBytes size) (heapCoalesce heap) = none ∧
      (page = 0 ∧ kmalloc heap size page = (0, heapCoalesce heap, none) ∨
      page ≠ 0 ∧
        ((∃ ptr heap',
          takeBlock (neededBytes size) (heapCoalesce (heapAddPages (heapCoalesce heap) page)) =
            some (ptr, heap') ∧ kmalloc heap size page = (ptr, heap', some page)) ∨
        takeBlock (neededBytes size) (heapCoalesce (heapAddPages (heapCoalesce heap) page)) =
          none ∧
          kmalloc heap size page =
            (0, heapCoalesce (heapAddPages (heapCoalesce heap) page), some page))) := by
  unfold kmalloc
  rw [if_neg hsize]
  dsimp only
  cases htake : takeBlock (neededBytes size) (heapCoalesce heap) with
  | some r => exact Or.inl ⟨r.1, r.2, rfl, rfl⟩
  | none =>
    refine Or.inr ⟨rfl, ?_⟩
    by_cases hpage : page = 0
    · exact Or.inl ⟨hpage, by rw [if_pos hpage]⟩
    · refine Or.inr ⟨hpage, ?_⟩
      rw [if_neg hpage]
      cases hagain : takeBlock (neededBytes size)
          (heapCoalesce (heapAddPages (heapCoalesce heap) page)) with
      | some r => exact Or.inl ⟨r.1, r.2, rfl, rfl⟩
      | none => exact Or.inr ⟨rfl, rfl⟩

theorem heapStep_kmalloc {w w' : HeapWorld} {size page ptr : Nat} {heap : List HeapBlock}
    {got : Option Nat} (hstep : heapStep w (.kmalloc size page) = some w')
    (h : kmalloc w.heap size page = (ptr, heap, got)) :
    w' =
      { heap := heap
        log := (got.map PageEvent.got).toList ++ w.log
        live := if ptr = 0 then w.live else (ptr, size) :: w.live
        circle := w.circle || closesCircle w.heap size page } := by
  rw [heapStep] at hstep
  split at hstep
  · cases hstep
  · rw [h] at hstep
    exact (Option.some.inj hstep).symm

theorem takeBlock_ne_zero {needed ptr : Nat} {heap heap' : List HeapBlock}
    (h : takeBlock needed heap = some (ptr, heap')) : ptr ≠ 0 := by
  have hheader : HEADER = 24 := rfl
  induction heap generalizing heap' with
  | nil => cases h
  | cons cur rest ih =>
    rw [takeBlock] at h
    split at h
    · split_ifs at h <;> · cases h; omega
    · obtain ⟨r, hrest, hr⟩ := Option.map_eq_some_iff.mp h
      cases hr
      exact ih hrest

theorem HeapInv.setCircle {w : HeapWorld} (h : HeapInv w) (circle : Bool) :
    HeapInv { w with circle := circle } :=
  ⟨h.sound, h.block, h.nodup⟩

theorem HeapInv.kmalloc_step {w w' : HeapWorld} {size page : Nat} (h : HeapInv w)
    (hguard : HeapGuard w (.kmalloc size page))
    (hstep : heapStep w (.kmalloc size page) = some w') : HeapInv w' := by
  obtain ⟨hpage, hsize⟩ := hguard
  by_cases hzero : size = 0
  · have hk : kmalloc w.heap size page = (0, w.heap, none) := if_pos hzero
    rw [heapStep_kmalloc hstep hk]
    exact h.setCircle _
  obtain ⟨hmax, hmerge, hagain⟩ := hsize hzero
  have hpos : 0 < size := Nat.pos_of_ne_zero hzero
  have hco := h.coalesce hmerge
  rcases kmalloc_cases w.heap page hzero with
    ⟨ptr, heap', htake, hk⟩ | ⟨hnone, ⟨-, hk⟩ | ⟨hp, hsecond⟩⟩
  · rw [heapStep_kmalloc hstep hk, if_neg (takeBlock_ne_zero htake)]
    exact (hco.take hpos hmax htake).setCircle _
  · rw [heapStep_kmalloc hstep hk]
    exact hco.setCircle _
  · have hmerge' := hagain (takeBlock_eq_none.mp hnone) hp
    have hadd := (hco.addPage (hpage hp).2).coalesce hmerge'
    rcases hsecond with ⟨ptr, heap', htake, hk⟩ | ⟨-, hk⟩
    · rw [heapStep_kmalloc hstep hk, if_neg (takeBlock_ne_zero htake)]
      exact (hadd.take hpos hmax htake).setCircle _
    · rw [heapStep_kmalloc hstep hk]
      exact hadd.setCircle _

theorem HeapInv.kfree_step {w w' : HeapWorld} {ptr : Nat} (h : HeapInv w)
    (hguard : HeapGuard w (.kfree ptr)) (hstep : heapStep w (.kfree ptr) = some w') :
    HeapInv w' := by
  rw [heapStep] at hstep
  split at hstep
  · cases hstep
    exact h
  rename_i hptr
  split at hstep
  · have hco := (h.mark ptr).coalesce hguard
    obtain ⟨-, hpair, -⟩ := heapCoalesce_spec (h.mark ptr).sound hguard
    rw [kfree] at hstep
    by_cases hmagic : hasMagic w.heap ptr = true
    · rw [if_neg (not_or.mpr ⟨hptr, not_not.mpr hmagic⟩)] at hstep
      cases hstep
      exact hco.trim hpair
    · -- The block stays in use.
      rw [if_pos (Or.inr hmagic)] at hstep
      cases hstep
      exact ⟨h.sound, fun a ha => h.block a (List.mem_of_mem_filter ha),
        h.nodup.sublist (List.filter_sublist.map _)⟩
  · cases hstep

/-- Every guarded call keeps the invariant. -/
theorem HeapInv.step {w w' : HeapWorld} {o : HeapOp} (h : HeapInv w) (hguard : HeapGuard w o)
    (hstep : heapStep w o = some w') : HeapInv w' := by
  cases o with
  | kmalloc size page => exact h.kmalloc_step hguard hstep
  | kfree ptr => exact h.kfree_step hguard hstep

/-- What `pmm_alloc` gives to `kmalloc_init`: distinct aligned pages. -/
structure BootPages (pages : List Nat) : Prop where
  nodup : pages.Nodup
  aligned : ∀ p ∈ pages, p % 0x1000 = 0

theorem ownedByte_got {pages : List Nat} {x : Nat}
    (h : OwnedByte (pages.map PageEvent.got) x = true) : ∃ p ∈ pages, p ≤ x ∧ x < p + 0x1000 := by
  induction pages with
  | nil => cases h
  | cons p pages ih =>
    rw [List.map_cons, OwnedByte, Bool.or_eq_true, Bool.and_eq_true, decide_eq_true_eq,
      decide_eq_true_eq] at h
    rcases h with h | h
    · exact ⟨p, by simp, h⟩
    · obtain ⟨q, hq, hx⟩ := ih h
      exact ⟨q, List.mem_cons_of_mem _ hq, hx⟩

theorem kmallocInit_inv {pages : List Nat} (h : BootPages pages) :
    HeapInv (kmallocInit pages) := by
  induction pages using List.reverseRecOn with
  | nil => exact ⟨⟨List.Pairwise.nil, by simp [kmallocInit], by simp [kmallocInit],
      by simp [kmallocInit]⟩, by simp [kmallocInit], by simp [kmallocInit]⟩
  | append_singleton pages page ih =>
    obtain ⟨hnodup, hnew⟩ := List.nodup_append.mp h.nodup |>.imp_right And.right
    have hinv := ih ⟨hnodup, fun p hp => h.aligned p (List.mem_append_left _ hp)⟩
    have hfresh : ∀ x, page ≤ x → x < page + 0x1000 →
        OwnedByte (kmallocInit pages).log x = false := by
      intro x hlo hhi
      by_contra howned
      have howned : OwnedByte (pages.reverse.map PageEvent.got) x = true := by
        simpa [kmallocInit] using howned
      obtain ⟨p, hp, hx⟩ := ownedByte_got howned
      rw [List.mem_reverse] at hp
      have hne := hnew p hp page (by simp)
      have hpa := h.aligned p (List.mem_append_left _ hp)
      have hpagea := h.aligned page (by simp)
      omega
    have hadd := hinv.addPage hfresh
    simpa [kmallocInit] using hadd

/-- In every run of guarded calls after `kmalloc_init` the live allocations are
separated. -/
theorem separated_of_reach (pages : List Nat) (hpages : BootPages pages) (w : HeapWorld)
    (h : Reach heapStep HeapGuard (kmallocInit pages) w) : Separated w := by
  refine HeapInv.separated (h.invariant HeapInv (kmallocInit_inv hpages) ?_)
  intro s o s' hs hguard hstep
  exact hs.step hguard hstep

/-- Two pages that arrive in ascending order. -/
def ascending : List Nat := [0x200000, 0x201000]

theorem ascending_pages : BootPages ascending := ⟨by decide, by decide⟩

theorem separated_of_reach_ascending :
    BootPages ascending ∧
      ∃ w, heapStep (kmallocInit ascending) (.kmalloc 0x1800 0) = some w ∧
        w.live = [(0x200018, 0x1800)] ∧ Separated w := by
  have hguard : HeapGuard (kmallocInit ascending) (.kmalloc 0x1800 0) :=
    ⟨fun h => absurd rfl h, fun _ => ⟨by decide, by decide +kernel, fun _ h => absurd rfl h⟩⟩
  exact ⟨ascending_pages, _, rfl, by decide +kernel,
    separated_of_reach ascending ascending_pages _ (Reach.start.next hguard rfl)⟩

/-- The same two pages in descending order, which is the order in which a fresh
`pmm` hands pages out. -/
def descending : List Nat := [0x201000, 0x200000]

/-- After one request over the two descending pages the live allocation leaves
the memory that the heap got. -/
theorem descending_not_separated :
    BootPages descending ∧
      ∃ w, Reach heapStep (fun _ _ => True) (kmallocInit descending) w ∧ ¬ Separated w := by
  refine ⟨⟨by decide, by decide⟩, _, Reach.start.next (o := .kmalloc 0x1800 0) trivial rfl, ?_⟩
  intro hsep
  have hlive : (0x201018, 0x1800) ∈ ((heapStep (kmallocInit descending) (.kmalloc 0x1800 0)).map
      HeapWorld.live).getD [] := by
    decide +kernel
  have := hsep.inside _ hlive 0x202000 (by decide) (by decide)
  revert this
  decide +kernel

end Lumin.Mm
