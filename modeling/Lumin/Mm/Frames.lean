import Lumin.Mm.Pmm

/-!
# Who owns a frame

The frames of the allocator over a whole run.  `frames` is the multiset of all
frames that a caller holds or that lie on a free list.  Every call conserves it
as long as `pmm_alloc_pages` finds consecutive frames (`PopsRun`), and a state
whose frames are those of `pmm_init` has no frame twice.

`pmm_alloc_pages` pops single frames and returns an address that it computes
from the first one.  Nothing in the code makes the popped frames consecutive:
any `pmm_free` that reorders a list breaks it.
-/

namespace Lumin.Mm

open Lumin.Lib

/-! ## Frames as multisets -/

/-- The free frames in the order in which the zones are searched. -/
def popOrder (s : Pmm) : List Nat := s.free .normal ++ (s.free .dma32 ++ s.free .dma)

/-- All frames that a caller holds or that are free. -/
def frames (w : PmmWorld) : Multiset Nat := ↑(w.held.map Prod.snd) + ↑(popOrder w.pmm)

/-- `k` frames from `h` downwards. -/
def downFrom (h k : Nat) : List Nat := (List.range k).map fun j => sub64 h (j * 0x1000)

/-- The frames that `pmm_alloc_pages(n)` pops are, in some order, the first one
and the frames just below it. -/
def PopsRun (s : Pmm) (n : Nat) : Prop :=
  ((popOrder s).take n).Perm (downFrom ((popOrder s).headD 0) (min n (popOrder s).length))

theorem popOrder_pageFreeInternal (s : Pmm) (addr : Nat) :
    (popOrder (pageFreeInternal s addr) : Multiset Nat) = addr ::ₘ ↑(popOrder s) := by
  unfold popOrder pageFreeInternal
  cases zoneOf addr
  all_goals
    simp only [Function.update_self, ne_eq, reduceCtorEq, not_false_eq_true,
      Function.update_of_ne, ← Multiset.coe_add, ← Multiset.cons_coe, Multiset.cons_add,
      Multiset.add_cons]

/-- A loop of `page_free_internal` adds the frames it visits. -/
theorem popOrder_foldl (g : Nat → Nat) (l : List Nat) (s : Pmm) :
    (popOrder (l.foldl (fun s i => pageFreeInternal s (g i)) s) : Multiset Nat) =
      ↑(l.map g) + ↑(popOrder s) := by
  induction l generalizing s with
  | nil => simp
  | cons i l ih =>
    rw [List.foldl_cons, ih, popOrder_pageFreeInternal, List.map_cons, ← Multiset.cons_coe,
      Multiset.cons_add, Multiset.add_cons]

theorem popOrder_freeDown (s : Pmm) (highest i : Nat) :
    (popOrder (freeDown s highest i) : Multiset Nat) = ↑(downFrom highest i) + ↑(popOrder s) :=
  popOrder_foldl _ _ s

@[simp] theorem popOrder_total (s : Pmm) (n : Nat) :
    popOrder { s with freePagesTotal := n } = popOrder s := rfl

/-! ## Taking frames -/

theorem zoneAlloc_nil {s : Pmm} {z : Zone} (h : s.free z = []) : zoneAlloc s z = (0, s) := by
  rw [zoneAlloc, h]

theorem zoneAlloc_cons {s : Pmm} {z : Zone} {p : Nat} {ps : List Nat} (h : s.free z = p :: ps) :
    zoneAlloc s z =
      (p, { free := Function.update s.free z ps,
            freePagesTotal := sub64 s.freePagesTotal 1 }) := by
  rw [zoneAlloc, h]

theorem zoneAllocAny_nil {s : Pmm} (h : popOrder s = []) : zoneAllocAny s = (0, s) := by
  simp only [popOrder, List.append_eq_nil_iff] at h
  simp [zoneAllocAny, zoneAlloc_nil h.1, zoneAlloc_nil h.2.1, zoneAlloc_nil h.2.2]

/-- The search takes the first frame of `popOrder`. -/
theorem zoneAllocAny_cons {s : Pmm} {p : Nat} {ps : List Nat} (h : popOrder s = p :: ps)
    (hp : p ≠ 0) : ∃ s', zoneAllocAny s = (p, s') ∧ popOrder s' = ps := by
  unfold popOrder at h
  unfold zoneAllocAny
  cases hn : s.free .normal with
  | cons q qs =>
    rw [hn, List.cons_append] at h
    obtain ⟨rfl, rfl⟩ := List.cons.inj h
    simp only [zoneAlloc_cons hn]
    exact ⟨_, if_pos hp, by simp [popOrder]⟩
  | nil =>
    rw [hn, List.nil_append] at h
    simp only [zoneAlloc_nil hn]
    cases hm : s.free .dma32 with
    | cons q qs =>
      rw [hm, List.cons_append] at h
      obtain ⟨rfl, rfl⟩ := List.cons.inj h
      simp only [zoneAlloc_cons hm]
      simp only [ne_eq, not_true_eq_false, hp, not_false_eq_true, if_true, if_false]
      exact ⟨_, rfl, by simp [popOrder, hn]⟩
    | nil =>
      rw [hm, List.nil_append] at h
      simp only [zoneAlloc_nil hm, zoneAlloc_cons h]
      simp only [ne_eq, not_true_eq_false, if_false]
      exact ⟨_, rfl, by simp [popOrder, hn, hm]⟩

/-- With enough frames the loop of `pmm_alloc_pages` drops as many as it is
asked for. -/
theorem allocRest_enough (highest left i : Nat) {s : Pmm}
    (hnz : ∀ f ∈ popOrder s, f ≠ 0) (hle : left ≤ (popOrder s).length) :
    ∃ s', allocRest highest left i s = (true, s') ∧ popOrder s' = (popOrder s).drop left := by
  induction left generalizing i s with
  | zero => exact ⟨s, rfl, rfl⟩
  | succ left ih =>
    cases hpop : popOrder s with
    | nil => simp [hpop] at hle
    | cons p ps =>
      have hp : p ≠ 0 := hnz p (by simp [hpop])
      obtain ⟨s₁, hstep, hrest⟩ := zoneAllocAny_cons hpop hp
      have hlen : left ≤ (popOrder s₁).length := by
        rw [hpop, List.length_cons] at hle
        rw [hrest]
        omega
      obtain ⟨s₂, hloop, hdrop⟩ := ih (i + 1) (s := s₁)
        (fun f hf => hnz f (by rw [hpop]; rw [hrest] at hf; simp [hf])) hlen
      refine ⟨s₂, ?_, ?_⟩
      · simp [allocRest, hstep, hp, hloop]
      · rw [hdrop, hrest, List.drop_succ_cons]

/-- Without enough frames the loop empties the lists and frees as many frames
as it took, counted down from `highest`. -/
theorem allocRest_short (highest left i : Nat) {s : Pmm}
    (hnz : ∀ f ∈ popOrder s, f ≠ 0) (hlt : (popOrder s).length < left) :
    ∃ s', popOrder s' = [] ∧
      allocRest highest left i s =
        (false, freeDown s' highest (i + (popOrder s).length)) := by
  induction left generalizing i s with
  | zero => exact absurd hlt (by omega)
  | succ left ih =>
    cases hpop : popOrder s with
    | nil => exact ⟨s, hpop, by simp [allocRest, zoneAllocAny_nil hpop]⟩
    | cons p ps =>
      have hp : p ≠ 0 := hnz p (by simp [hpop])
      obtain ⟨s₁, hstep, hrest⟩ := zoneAllocAny_cons hpop hp
      have hlen : (popOrder s₁).length < left := by
        rw [hpop, List.length_cons] at hlt
        rw [hrest]
        omega
      obtain ⟨s₂, hempty, hloop⟩ := ih (i + 1) (s := s₁)
        (fun f hf => hnz f (by rw [hpop]; rw [hrest] at hf; simp [hf])) hlen
      refine ⟨s₂, hempty, ?_⟩
      simp only [allocRest, hstep, hp, if_false, hloop, hrest, List.length_cons]
      rw [show i + 1 + ps.length = i + (ps.length + 1) by omega]

/-- The frames from the returned address upwards are those from `highest`
downwards. -/
theorem framesFrom_sub64 (highest n : Nat) :
    framesFrom (sub64 highest ((n - 1) * 0x1000)) n = (downFrom highest n).reverse := by
  apply List.ext_getElem
  · simp [framesFrom, downFrom]
  · intro i hi hi'
    have hn : i < n := by simpa [framesFrom] using hi
    simp only [framesFrom, downFrom, List.getElem_map, List.getElem_range, List.getElem_reverse,
      List.length_map, List.length_range, sub64, u64]
    omega

/-! ## Conservation -/

/-- The condition on a call: `pmm_alloc_pages` pops consecutive frames. -/
def PmmGuard (w : PmmWorld) : PmmOp → Prop
  | .allocPages _ n => PopsRun w.pmm n
  | _ => True

theorem giveBack_frames {c : Nat} {fs : List Nat} {held held' : List (Nat × Nat)}
    (h : giveBack c fs held = some held') :
    (held.map Prod.snd : Multiset Nat) = ↑fs + ↑(held'.map Prod.snd) := by
  induction fs generalizing held with
  | nil =>
    cases h
    simp
  | cons f fs ih =>
    rw [giveBack] at h
    split at h
    · rename_i hmem
      have hperm := (List.perm_cons_erase hmem).map Prod.snd
      rw [Multiset.coe_eq_coe.mpr hperm, List.map_cons, ← Multiset.cons_coe, ih h,
        ← Multiset.cons_coe, Multiset.cons_add]
    · exact absurd h (by simp)

/-- The frames of the world after a single frame has been handed out. -/
theorem frames_cons (c p : Nat) (held : List (Nat × Nat)) (s s' : Pmm)
    (hpop : (popOrder s : Multiset Nat) = p ::ₘ ↑(popOrder s')) :
    frames { pmm := s', held := (c, p) :: held } = frames { pmm := s, held := held } := by
  simp only [frames, List.map_cons, hpop, ← Multiset.cons_coe, Multiset.cons_add,
    Multiset.add_cons]

theorem frames_alloc {w w' : PmmWorld} {c : Nat} (hnz : ∀ f ∈ popOrder w.pmm, f ≠ 0)
    (h : pmmStep w (.alloc c) = some w') : frames w' = frames w := by
  cases hpop : popOrder w.pmm with
  | nil =>
    simp only [pmmStep, pmmAlloc, zoneAllocAny_nil hpop, if_true, Option.some.injEq] at h
    rw [← h]
  | cons p ps =>
    have hp : p ≠ 0 := hnz p (by simp [hpop])
    obtain ⟨s', halloc, hrest⟩ := zoneAllocAny_cons hpop hp
    simp only [pmmStep, pmmAlloc, halloc, hp, if_false, Option.some.injEq] at h
    rw [← h]
    exact frames_cons c p w.held w.pmm s' (by rw [hpop, hrest, Multiset.cons_coe])

theorem frames_allocDma {w w' : PmmWorld} {c : Nat} (hnz : ∀ f ∈ popOrder w.pmm, f ≠ 0)
    (h : pmmStep w (.allocDma c) = some w') : frames w' = frames w := by
  cases hdma : w.pmm.free .dma with
  | nil =>
    simp only [pmmStep, pmmAllocDma, zoneAlloc_nil hdma, if_true, Option.some.injEq] at h
    rw [← h]
  | cons p ps =>
    have hp : p ≠ 0 := hnz p (by simp [popOrder, hdma])
    simp only [pmmStep, pmmAllocDma, zoneAlloc_cons hdma, hp, if_false, Option.some.injEq] at h
    rw [← h]
    refine frames_cons c p w.held w.pmm _ ?_
    simp only [popOrder, hdma, Function.update_self, ne_eq, reduceCtorEq, not_false_eq_true,
      Function.update_of_ne, ← Multiset.coe_add, ← Multiset.cons_coe, Multiset.add_cons]

theorem frames_allocPages {w w' : PmmWorld} {c n : Nat} (hnz : ∀ f ∈ popOrder w.pmm, f ≠ 0)
    (hrun : PopsRun w.pmm n) (h : pmmStep w (.allocPages c n) = some w') :
    frames w' = frames w := by
  by_cases hn : n = 0
  · simp only [pmmStep, pmmAllocPages, hn, if_true, Option.some.injEq] at h
    rw [← h]
  cases hpop : popOrder w.pmm with
  | nil =>
    simp only [pmmStep, pmmAllocPages, hn, zoneAllocAny_nil hpop, if_true, if_false,
      Option.some.injEq] at h
    rw [← h]
  | cons p ps =>
    have hp : p ≠ 0 := hnz p (by simp [hpop])
    obtain ⟨s₁, hfirst, hrest⟩ := zoneAllocAny_cons hpop hp
    have hnz₁ : ∀ f ∈ popOrder { s₁ with freePagesTotal := sub64 s₁.freePagesTotal (n - 1) },
        f ≠ 0 := by
      intro f hf
      rw [popOrder_total, hrest] at hf
      exact hnz f (by simp [hpop, hf])
    have hlen₁ : popOrder { s₁ with freePagesTotal := sub64 s₁.freePagesTotal (n - 1) } = ps :=
      hrest
    by_cases hle : n - 1 ≤ ps.length
    · -- All frames are found; the caller gets the run below the first one.
      obtain ⟨s₂, hloop, hdrop⟩ := allocRest_enough p (n - 1) 1 hnz₁ (by rw [hlen₁]; exact hle)
      rw [hlen₁] at hdrop
      have htake : ((p :: ps).take n).Perm (downFrom p n) := by
        have hmin : min n (ps.length + 1) = n := by omega
        simpa [PopsRun, hpop, hmin] using hrun
      have hpage : sub64 p ((n - 1) * 0x1000) ≠ 0 := by
        have hmem : sub64 p ((n - 1) * 0x1000) ∈ downFrom p n :=
          List.mem_map.mpr ⟨n - 1, List.mem_range.mpr (by omega), rfl⟩
        have hfree := List.mem_of_mem_take (htake.mem_iff.mpr hmem)
        exact hnz _ (by rw [hpop]; exact hfree)
      simp only [pmmStep, pmmAllocPages, hn, if_false, hfirst, hp, hloop, hpage,
        Option.some.injEq] at h
      have hsplit : (↑(p :: ps) : Multiset Nat) = ↑(downFrom p n) + ↑(ps.drop (n - 1)) := by
        have hdrop' : (p :: ps).drop n = ps.drop (n - 1) := by
          rw [show n = n - 1 + 1 by omega, List.drop_succ_cons, Nat.add_sub_cancel]
        rw [← hdrop', ← Multiset.coe_eq_coe.mpr htake, Multiset.coe_add,
          List.take_append_drop]
      rw [← h]
      simp only [frames, List.map_append, List.map_map, Function.comp_def, List.map_id',
        framesFrom_sub64, hdrop, hpop, hsplit, ← Multiset.coe_add, Multiset.coe_reverse]
      abel
    · -- The lists run out; the loop frees the frames it took.
      obtain ⟨s₂, hempty, hloop⟩ := allocRest_short p (n - 1) 1 hnz₁ (by rw [hlen₁]; omega)
      rw [hlen₁] at hloop
      have htake : (p :: ps).Perm (downFrom p (ps.length + 1)) := by
        have hmin : min n (ps.length + 1) = ps.length + 1 := by omega
        have hall : (p :: ps).take n = p :: ps :=
          List.take_of_length_le (by rw [List.length_cons]; omega)
        simpa [PopsRun, hpop, hmin, hall] using hrun
      simp only [pmmStep, pmmAllocPages, hn, if_false, hfirst, hp, hloop, if_true,
        Option.some.injEq] at h
      rw [← h]
      simp only [frames, popOrder_total, popOrder_freeDown, hempty, hpop]
      rw [Nat.add_comm 1, ← Multiset.coe_eq_coe.mpr htake]
      simp

theorem frames_free {w w' : PmmWorld} {c page : Nat}
    (h : pmmStep w (.free c page) = some w') : frames w' = frames w := by
  rw [pmmStep] at h
  split at h
  · cases h
    rfl
  · rename_i hpage
    obtain ⟨held, hback, rfl⟩ := Option.map_eq_some_iff.mp h
    simp only [frames, giveBack_frames hback, pmmFree, hpage, if_false,
      popOrder_pageFreeInternal, ← Multiset.singleton_add, Multiset.coe_singleton]
    abel

theorem frames_freePages {w w' : PmmWorld} {c addr n : Nat}
    (h : pmmStep w (.freePages c addr n) = some w') : frames w' = frames w := by
  rw [pmmStep] at h
  split at h
  · cases h
    rfl
  · rename_i haddr
    obtain ⟨held, hback, rfl⟩ := Option.map_eq_some_iff.mp h
    simp only [frames, giveBack_frames hback, pmmFreePages, haddr, if_false, popOrder_foldl,
      framesFrom]
    abel

/-- Every call that meets `PmmGuard` conserves the frames. -/
theorem frames_step {w w' : PmmWorld} {o : PmmOp} (hnz : ∀ f ∈ frames w, f ≠ 0)
    (hguard : PmmGuard w o) (h : pmmStep w o = some w') : frames w' = frames w := by
  have hfree : ∀ f ∈ popOrder w.pmm, f ≠ 0 :=
    fun f hf => hnz f (Multiset.mem_add.mpr (Or.inr hf))
  cases o with
  | alloc c => exact frames_alloc hfree h
  | allocDma c => exact frames_allocDma hfree h
  | allocPages c n => exact frames_allocPages hfree hguard h
  | free c page => exact frames_free h
  | freePages c addr n => exact frames_freePages h

/-! ## The frames of `pmm_init` -/

/-- Round up to a page. -/
def pageUp (x : Nat) : Nat := pageDown (x + 0xFFF)

theorem pageUp_mono {x y : Nat} (h : x ≤ y) : pageUp x ≤ pageUp y := by
  simp only [pageUp, pageDown]
  omega

/-- The boot table gives no page twice: an available range does not reach the
end of the address space, and two available ranges share no whole page. -/
structure E820Sound (table : List E820Entry) : Prop where
  bounded : ∀ e ∈ table, e.type = E820_AVAILABLE → e.base + e.length + 0xFFF < 2 ^ 64
  disjoint : table.Pairwise fun a b => a.type = E820_AVAILABLE → b.type = E820_AVAILABLE →
    pageDown (a.base + a.length) ≤ pageUp b.base ∨ pageDown (b.base + b.length) ≤ pageUp a.base

/-- The frames that `add_range` adds. -/
def rangeFrames (start stop : Nat) : List Nat :=
  (List.range ((pageDown stop - pageUp start) / 0x1000)).map fun i => pageUp start + i * 0x1000

/-- The frames that one table entry adds. -/
def entryFrames (e : E820Entry) : List Nat :=
  if e.type ≠ E820_AVAILABLE ∨ e.base + e.length ≤ MIN_ADDR then []
  else rangeFrames (max e.base MIN_ADDR) (e.base + e.length)

theorem addRange_eq {start stop : Nat} (s : Pmm) (h : start + 0xFFF < 2 ^ 64) :
    addRange s start stop = (rangeFrames start stop).foldl pageFreeInternal s := by
  unfold addRange rangeFrames
  rw [u64_of_lt h, List.foldl_map]
  rfl

theorem addEntry_eq {e : E820Entry} (s : Pmm)
    (h : e.type = E820_AVAILABLE → e.base + e.length + 0xFFF < 2 ^ 64) :
    addEntry s e = (entryFrames e).foldl pageFreeInternal s := by
  unfold addEntry entryFrames
  by_cases htype : e.type = E820_AVAILABLE
  · have hbound := h htype
    have hmax : (if e.base < MIN_ADDR then MIN_ADDR else e.base) = max e.base MIN_ADDR := by
      split <;> omega
    have hmin : MIN_ADDR = 0x200000 := rfl
    simp only [htype, ne_eq, not_true_eq_false, false_or, if_false,
      u64_of_lt (show e.base + e.length < 2 ^ 64 by omega)]
    split
    · rfl
    · rw [hmax, addRange_eq s (by omega)]
  · simp [htype]

theorem foldl_addEntry {table : List E820Entry} (s : Pmm)
    (h : ∀ e ∈ table, e.type = E820_AVAILABLE → e.base + e.length + 0xFFF < 2 ^ 64) :
    table.foldl addEntry s = (table.flatMap entryFrames).foldl pageFreeInternal s := by
  induction table generalizing s with
  | nil => rfl
  | cons e table ih =>
    rw [List.foldl_cons, addEntry_eq s (h e (by simp)), List.flatMap_cons, List.foldl_append]
    exact ih _ fun e' he' => h e' (by simp [he'])

theorem popOrder_pageFrees (l : List Nat) (s : Pmm) :
    (popOrder (l.foldl pageFreeInternal s) : Multiset Nat) = ↑l + ↑(popOrder s) := by
  simpa using popOrder_foldl id l s

theorem freePagesTotal_pageFrees (l : List Nat) (s : Pmm) :
    (l.foldl pageFreeInternal s).freePagesTotal % 2 ^ 64 =
      (s.freePagesTotal + l.length) % 2 ^ 64 := by
  induction l generalizing s with
  | nil => rfl
  | cons f l ih =>
    rw [List.foldl_cons, ih, List.length_cons]
    simp only [pageFreeInternal, u64]
    omega

theorem mem_rangeFrames {start stop f : Nat} (h : f ∈ rangeFrames start stop) :
    pageUp start ≤ f ∧ f + 0x1000 ≤ pageDown stop ∧ f % 0x1000 = 0 := by
  obtain ⟨i, hi, rfl⟩ := List.mem_map.mp h
  rw [List.mem_range] at hi
  simp only [pageUp, pageDown] at hi ⊢
  omega

theorem rangeFrames_nodup (start stop : Nat) : (rangeFrames start stop).Nodup := by
  refine List.Nodup.map ?_ List.nodup_range
  intro i j h
  dsimp only at h
  omega

theorem mem_entryFrames {e : E820Entry} {f : Nat} (h : f ∈ entryFrames e) :
    e.type = E820_AVAILABLE ∧ MIN_ADDR ≤ f ∧ pageUp e.base ≤ f ∧
      f + 0x1000 ≤ pageDown (e.base + e.length) := by
  unfold entryFrames at h
  split at h
  · simp at h
  · rename_i hcond
    simp only [ne_eq, not_or, not_not] at hcond
    obtain ⟨hlo, hhi, -⟩ := mem_rangeFrames h
    refine ⟨hcond.1, ?_, (pageUp_mono (le_max_left _ _)).trans hlo, hhi⟩
    exact (pageUp_mono (le_max_right e.base MIN_ADDR)).trans hlo

theorem tableFrames_nodup {table : List E820Entry} (h : E820Sound table) :
    (table.flatMap entryFrames).Nodup := by
  rw [List.nodup_flatMap]
  refine ⟨?_, h.disjoint.imp ?_⟩
  · intro e _
    unfold entryFrames
    split
    · exact List.nodup_nil
    · exact rangeFrames_nodup _ _
  · intro a b hab f ha hb
    obtain ⟨hta, -, hloa, hhia⟩ := mem_entryFrames ha
    obtain ⟨htb, -, hlob, hhib⟩ := mem_entryFrames hb
    rcases hab hta htb with hle | hle <;> omega

theorem tableFrames_range {table : List E820Entry}
    (h : ∀ e ∈ table, e.type = E820_AVAILABLE → e.base + e.length + 0xFFF < 2 ^ 64) {f : Nat}
    (hf : f ∈ table.flatMap entryFrames) : 1 ≤ f ∧ f < 2 ^ 64 := by
  obtain ⟨e, he, hf⟩ := List.mem_flatMap.mp hf
  obtain ⟨htype, hmin, -, hhi⟩ := mem_entryFrames hf
  have hbound := h e he htype
  have : MIN_ADDR = 0x200000 := rfl
  simp only [pageDown] at hhi
  omega

/-- Distinct frames of the address space are fewer than `2 ^ 64`, so that the
counter of `pmm_init` is zero only when no frame was added. -/
theorem length_lt_of_nodup {l : List Nat} (hnodup : l.Nodup)
    (hrange : ∀ f ∈ l, 1 ≤ f ∧ f < 2 ^ 64) :
    l.length < 2 ^ 64 := by
  have hsub : l.toFinset ⊆ Finset.Ico 1 (2 ^ 64) := by
    intro f hf
    rw [Finset.mem_Ico]
    exact hrange f (List.mem_toFinset.mp hf)
  have hcard := Finset.card_le_card hsub
  rw [List.toFinset_card_of_nodup hnodup, Nat.card_Ico] at hcard
  omega

/-- After `pmm_init` the free lists hold each frame once, and never frame `0`. -/
theorem pmmInit_frames {table : List E820Entry} (h : E820Sound table) :
    (popOrder (pmmInit table)).Nodup ∧ ∀ f ∈ popOrder (pmmInit table), f ≠ 0 := by
  have hfrom : ∀ (l : List Nat) (s : Pmm), (s.free = fun _ => []) → l.Nodup → (∀ f ∈ l, 1 ≤ f) →
      (popOrder (l.foldl pageFreeInternal s)).Nodup ∧
        ∀ f ∈ popOrder (l.foldl pageFreeInternal s), f ≠ 0 := by
    intro l s hs hnodup hpos
    have hpop : (popOrder (l.foldl pageFreeInternal s)).Perm l := by
      rw [← Multiset.coe_eq_coe, popOrder_pageFrees]
      simp [popOrder, hs]
    refine ⟨hpop.nodup_iff.mpr hnodup, fun f hf => ?_⟩
    have := hpos f (hpop.mem_iff.mp hf)
    omega
  have hmin : MIN_ADDR = 0x200000 := rfl
  have hdefault : ∀ s : Pmm, (s.free = fun _ => []) →
      (popOrder (addRange s MIN_ADDR 0x400000)).Nodup ∧
        ∀ f ∈ popOrder (addRange s MIN_ADDR 0x400000), f ≠ 0 := by
    intro s hs
    rw [addRange_eq s (by omega)]
    refine hfrom _ s hs (rangeFrames_nodup _ _) fun f hf => ?_
    have hlo : 0x200000 ≤ f := (mem_rangeFrames hf).1
    omega
  unfold pmmInit
  split
  · exact hdefault emptyPmm rfl
  · have hnodup := tableFrames_nodup h
    have hrange := fun f hf => tableFrames_range h.bounded (f := f) hf
    have htotal := freePagesTotal_pageFrees (table.flatMap entryFrames) emptyPmm
    dsimp only
    rw [foldl_addEntry emptyPmm h.bounded]
    split
    · rename_i hzero
      have hlen := length_lt_of_nodup hnodup hrange
      have hnil : table.flatMap entryFrames = [] := by
        rw [hzero] at htotal
        simp only [emptyPmm] at htotal
        exact List.eq_nil_of_length_eq_zero (by omega)
      rw [hnil]
      exact hdefault emptyPmm rfl
    · exact hfrom _ emptyPmm rfl hnodup fun f hf => (hrange f hf).1

/-! ## Exclusive ownership over whole runs -/

/-- No frame has two holders, no held frame is free, and no frame is free
twice. -/
structure Exclusive (w : PmmWorld) : Prop where
  oneHolder : ∀ c c' f, (c, f) ∈ w.held → (c', f) ∈ w.held → c = c'
  heldOnce : w.held.Nodup
  heldNotFree : ∀ c f z, (c, f) ∈ w.held → f ∉ w.pmm.free z
  freeOnce : (w.pmm.free .dma ++ w.pmm.free .dma32 ++ w.pmm.free .normal).Nodup

theorem exclusive_of_nodup {w : PmmWorld} (h : (frames w).Nodup) : Exclusive w := by
  have hlist : (w.held.map Prod.snd ++ popOrder w.pmm).Nodup := by
    rwa [frames, Multiset.coe_add, Multiset.coe_nodup] at h
  obtain ⟨hheld, hfree, hdisj⟩ := List.nodup_append.mp hlist
  refine ⟨?_, List.Nodup.of_map _ hheld, ?_, ?_⟩
  · intro c c' f hc hc'
    have := List.inj_on_of_nodup_map hheld hc hc' rfl
    exact congrArg Prod.fst this
  · intro c f z hc hz
    have hmem : f ∈ popOrder w.pmm := by
      unfold popOrder
      cases z <;> simp [hz]
    exact hdisj f (List.mem_map.mpr ⟨(c, f), hc, rfl⟩) f hmem rfl
  · have hperm : (w.pmm.free .dma ++ w.pmm.free .dma32 ++ w.pmm.free .normal).Perm
        (popOrder w.pmm) := by
      rw [← Multiset.coe_eq_coe]
      simp only [popOrder, ← Multiset.coe_add]
      abel
    exact hperm.nodup_iff.mpr hfree

/-- The world right after `pmm_init`: nobody holds a frame. -/
def bootPmm (table : List E820Entry) : PmmWorld := { pmm := pmmInit table, held := [] }

/-- In every run from `pmm_init` in which each `pmm_alloc_pages` pops
consecutive frames, every state reached has exclusive frames. -/
theorem exclusive_of_reach (table : List E820Entry) (htable : E820Sound table) (w : PmmWorld)
    (h : Reach pmmStep PmmGuard (bootPmm table) w) : Exclusive w := by
  obtain ⟨hnodup, hnz⟩ := pmmInit_frames htable
  have hboot : frames (bootPmm table) = ↑(popOrder (pmmInit table)) := by
    simp [frames, bootPmm]
  -- The frames never change, so that they stay those of `pmm_init`.
  have hinv : frames w = frames (bootPmm table) := by
    refine h.invariant (fun w => frames w = frames (bootPmm table)) rfl ?_
    intro s o s' hs hguard hstep
    rw [← hs]
    refine frames_step ?_ hguard hstep
    rw [hs, hboot]
    exact hnz
  apply exclusive_of_nodup
  rw [hinv, hboot]
  exact hnodup

/-- One available range of four pages. -/
def fourPages : List E820Entry := [{ base := 0x200000, length := 0x4000, type := 1 }]

theorem fourPages_sound : E820Sound fourPages :=
  ⟨by simp [fourPages], by simp [fourPages]⟩

theorem exclusive_of_reach_alloc :
    E820Sound fourPages ∧
      ∃ w, pmmStep (bootPmm fourPages) (.allocPages 1 2) = some w ∧ Exclusive w := by
  have hpop : popOrder (pmmInit fourPages) = [0x203000, 0x202000, 0x201000, 0x200000] := by
    decide +kernel
  have hguard : PopsRun (pmmInit fourPages) 2 := by
    rw [PopsRun, hpop]
    decide +kernel
  exact ⟨fourPages_sound, _, rfl,
    exclusive_of_reach fourPages fourPages_sound _
      (Reach.start.next (o := .allocPages 1 2) hguard rfl)⟩

/-- Two callers take one frame each and the first gives its frame back.  The
list is then out of order, and the two-page allocation pops frames that are not
consecutive. -/
def staggered : List PmmOp := [.alloc 1, .alloc 2, .free 1 0x203000, .allocPages 3 2]

/-- After `staggered` caller 3 holds the frame that caller 2 still holds. -/
theorem staggered_not_exclusive :
    ∃ w, Reach pmmStep (fun _ _ => True) (bootPmm fourPages) w ∧ ¬ Exclusive w := by
  have hrun : (run pmmStep (bootPmm fourPages) staggered).map PmmWorld.held =
      some [(3, 0x202000), (3, 0x203000), (2, 0x202000)] := by
    decide +kernel
  obtain ⟨w, hw, hheld⟩ := Option.map_eq_some_iff.mp hrun
  refine ⟨w, reach_of_run hw, fun hex => ?_⟩
  have := hex.oneHolder 3 2 0x202000 (by simp [hheld]) (by simp [hheld])
  omega

end Lumin.Mm
