import Lumin.Lib.SpinLock
import Lumin.Mm.FreeCount

/-!
# The frame allocator on several processors

`kernel/mm/pmm.c` with the lock of `kernel/include/spinlock.h`: the calls as code whose loads
and stores are single steps, on any number of processors, each of which may be interrupted in a
call by another one.  `pmm_init` runs before there is a second processor.

* `pmmCode_atomic` says that a call on its own does what the sequential model says.
* `pmm_serializes` is the first result: whatever the order of the steps, the free lists are what
  the calls make of them one after the other, and the calls return what they return then.
* `pmm_lock_freed_iff` is the second one: a call gives the lock back unless it is
  `pmm_alloc_below` above 4 GiB, which calls `pmm_alloc` with the lock taken.
-/

namespace Lumin.Mm.FreeList.Locked

open Lib Lib.SpinLock

/-- The code of a call over the free lists. -/
abbrev PmmCode := Code FreeLists Nat

/-- A call of the interface. -/
inductive PmmCall where
  | alloc
  | allocDma
  | allocBelow (max : Nat)
  | allocPages (n : Nat)
  | free (page : Nat)
  | freePages (addr n : Nat)
  | freeCount
  deriving DecidableEq

/-! ## The code -/

/-- `zone_alloc`. -/
def zone_alloc (z : Zone) (k : Nat → PmmCode) : PmmCode :=
  .load fun s =>
    if s.head z = 0 then k 0
    else
      .load fun s =>
        let page := s.head z
        .load fun s =>
          let next := s.next page
          .store (fun s => { s with head := Function.update s.head z next }) <|
            .load fun s =>
              let total := s.freePagesTotal
              .store (fun s => { s with freePagesTotal := sub64 total 1 }) (k page)

/-- `page_free_internal`. -/
def page_free_internal (addr : Nat) (k : PmmCode) : PmmCode :=
  .load fun s =>
    let first := s.head (zoneOf addr)
    .store (fun s => { s with next := Function.update s.next addr first }) <|
      .store (fun s => { s with head := Function.update s.head (zoneOf addr) addr }) <|
        .load fun s =>
          let total := s.freePagesTotal
          .store (fun s => { s with freePagesTotal := u64 (total + 1) }) k

/-- The zones in the order of `pmm_alloc`. -/
def zone_alloc_any (k : Nat → PmmCode) : PmmCode :=
  zone_alloc .normal fun p =>
    if p ≠ 0 then k p else zone_alloc .dma32 fun p => if p ≠ 0 then k p else zone_alloc .dma k

/-- `spin_lock_irqsave`, the body, and `spin_unlock_irqrestore`. -/
def withLock (body : (Nat → PmmCode) → PmmCode) (k : Nat → PmmCode) : PmmCode :=
  .irqSave (.bts (body fun p => .unlock (.irqRestore (k p))))

/-- `pmm_alloc`. -/
def pmm_alloc (k : Nat → PmmCode) : PmmCode := withLock zone_alloc_any k

/-- `pmm_alloc_dma`. -/
def pmm_alloc_dma (k : Nat → PmmCode) : PmmCode := withLock (zone_alloc .dma) k

/-- `pmm_alloc_below`. -/
def pmm_alloc_below (max_addr : Nat) (k : Nat → PmmCode) : PmmCode :=
  withLock (fun k =>
    if max_addr ≤ DMA_ZONE_LIMIT then zone_alloc .dma k
    else if max_addr ≤ DMA32_ZONE_LIMIT then zone_alloc .dma fun p => if p ≠ 0 then k p
      else zone_alloc .dma32 k
    else pmm_alloc k) k

/-- `pmm_free`. -/
def pmm_free (page : Nat) (k : Nat → PmmCode) : PmmCode :=
  if page = 0 then k 0 else withLock (fun k => page_free_internal page (k 0)) k

/-- The loop of `pmm_alloc_pages` that gives back what it took, from `j` on. -/
def free_down (highest : Nat) : (left j : Nat) → PmmCode → PmmCode
  | 0, _, k => k
  | left + 1, j,
    k => page_free_internal (sub64 highest (j * 0x1000)) (free_down highest left (j + 1) k)

/-- The loop of `pmm_alloc_pages` over the other pages. -/
def alloc_rest (highest n : Nat) (k : Nat → PmmCode) : (left i : Nat) → PmmCode
  | 0, _ => k (sub64 highest ((n - 1) * 0x1000))
  | left + 1, i =>
    zone_alloc_any fun page =>
      if page ≠ 0 then alloc_rest highest n k left (i + 1)
      else
        free_down highest i 0 <|
          .load fun s =>
            let total := s.freePagesTotal
            .store (fun s => { s with freePagesTotal := u64 (total + (n - 1)) }) (k 0)

/-- `pmm_alloc_pages`. -/
def pmm_alloc_pages (n : Nat) (k : Nat → PmmCode) : PmmCode :=
  if n = 0 then k 0
  else
    withLock (fun k =>
      zone_alloc_any fun highest =>
        if highest ≠ 0 then
          .load fun s =>
            let total := s.freePagesTotal
            .store (fun s => { s with freePagesTotal := sub64 total (n - 1) })
              (alloc_rest highest n k (n - 1) 1)
        else k 0) k

/-- The loop of `pmm_free_pages`, from `i` on. -/
def free_up (addr : Nat) : (left i : Nat) → PmmCode → PmmCode
  | 0, _, k => k
  | left + 1, i, k => page_free_internal (u64 (addr + i * 0x1000)) (free_up addr left (i + 1) k)

/-- `pmm_free_pages`. -/
def pmm_free_pages (addr n : Nat) (k : Nat → PmmCode) : PmmCode :=
  if addr = 0 then k 0 else withLock (fun k => free_up addr n 0 (k 0)) k

/-- `pmm_free_count`. -/
def pmm_free_count (k : Nat → PmmCode) : PmmCode :=
  withLock (fun k => .load fun s => k s.freePagesTotal) k

/-- The code of a call.  Pointers and sizes are 64-bit words. -/
def pmmCode : PmmCall → PmmCode
  | .alloc => pmm_alloc .ret
  | .allocDma => pmm_alloc_dma .ret
  | .allocBelow max => pmm_alloc_below (u64 max) .ret
  | .allocPages n => pmm_alloc_pages (u64 n) .ret
  | .free page => pmm_free (u64 page) .ret
  | .freePages addr n => pmm_free_pages (u64 addr) (u64 n) .ret
  | .freeCount => pmm_free_count .ret

/-! ## What a call does on its own -/

/-- `pmm_alloc_below`, up to 4 GiB. -/
def pmmAllocBelow (s : FreeLists) (max_addr : Nat) : Nat × FreeLists :=
  if max_addr ≤ DMA_ZONE_LIMIT then zoneAlloc s .dma
  else
    let (p, s) := zoneAlloc s .dma
    if p ≠ 0 then (p, s) else zoneAlloc s .dma32

/-- A call in the sequential model.  `none` is a call that does not return. -/
def pmmCall (s : FreeLists) : PmmCall → Option (Nat × FreeLists)
  | .alloc => some (pmmAlloc s)
  | .allocDma => some (pmmAllocDma s)
  | .allocBelow max => if u64 max ≤ DMA32_ZONE_LIMIT then some (pmmAllocBelow s (u64 max))
    else none
  | .allocPages n => some (pmmAllocPages s (u64 n))
  | .free page => some (0, pmmFree s (u64 page))
  | .freePages addr n => some (0, pmmFreePages s (u64 addr) (u64 n))
  | .freeCount => some (pmmFreeCount s, s)

variable {s : FreeLists} {k : Nat → PmmCode}

theorem zone_alloc_critical (z : Zone) (k : Nat → PmmCode) (s : FreeLists) :
    (zone_alloc z k).critical s = (k (zoneAlloc s z).1).critical (zoneAlloc s z).2 := by
  unfold zone_alloc zoneAlloc
  rw [Code.critical]
  split
  · rfl
  · rfl

theorem zone_alloc_any_critical (k : Nat → PmmCode) (s : FreeLists) :
    (zone_alloc_any k).critical s = (k (zoneAllocAny s).1).critical (zoneAllocAny s).2 := by
  unfold zone_alloc_any zoneAllocAny
  rw [zone_alloc_critical]
  dsimp only
  split
  · rfl
  · rw [zone_alloc_critical]
    split
    · rfl
    · exact zone_alloc_critical .dma k _

theorem page_free_internal_critical (addr : Nat) (k : PmmCode) (s : FreeLists) :
    (page_free_internal addr k).critical s = k.critical (pageFreeInternal s addr) := rfl

theorem free_down_critical (highest left j : Nat) (k : PmmCode) (s : FreeLists) :
    (free_down highest left j k).critical s =
      k.critical ((List.range' j left).foldl
        (fun s j => pageFreeInternal s (sub64 highest (j * 0x1000))) s) := by
  induction left generalizing j s with
  | zero => rfl
  | succ left ih =>
    rw [free_down, page_free_internal_critical, ih, List.range'_succ, List.foldl_cons]

theorem free_up_critical (addr left i : Nat) (k : PmmCode) (s : FreeLists) :
    (free_up addr left i k).critical s =
      k.critical ((List.range' i left).foldl
        (fun s i => pageFreeInternal s (u64 (addr + i * 0x1000))) s) := by
  induction left generalizing i s with
  | zero => rfl
  | succ left ih =>
    rw [free_up, page_free_internal_critical, ih, List.range'_succ, List.foldl_cons]

theorem allocRest_fails (highest left i : Nat) (hpage : (zoneAllocAny s).1 = 0) :
    allocRest highest (left + 1) i s = (false, freeDown (zoneAllocAny s).2 highest i) := by
  rw [allocRest]
  exact if_pos hpage

theorem allocRest_goes_on (highest left i : Nat) (hpage : (zoneAllocAny s).1 ≠ 0) :
    allocRest highest (left + 1) i s = allocRest highest left (i + 1) (zoneAllocAny s).2 := by
  rw [allocRest]
  exact if_neg hpage

theorem alloc_rest_critical (highest n : Nat) (k : Nat → PmmCode) (left i : Nat) (s : FreeLists) :
    (alloc_rest highest n k left i).critical s =
      if (allocRest highest left i s).1 then (k (sub64 highest ((n - 1) * 0x1000))).critical
        (allocRest highest left i s).2
      else (k 0).critical { (allocRest highest left i s).2 with
        freePagesTotal := u64 ((allocRest highest left i s).2.freePagesTotal + (n - 1)) } := by
  induction left generalizing i s with
  | zero => rfl
  | succ left ih =>
    rw [alloc_rest, zone_alloc_any_critical]
    by_cases hpage : (zoneAllocAny s).1 = 0
    · rw [if_neg (not_not.mpr hpage), free_down_critical, ← List.range_eq_range',
        allocRest_fails highest left i hpage]
      rfl
    · rw [if_pos hpage, ih, allocRest_goes_on highest left i hpage]

/-- A call that nothing comes between is a call of the sequential model. -/
theorem pmmCode_atomic (o : PmmCall) (s : FreeLists) : (pmmCode o).atomic s = pmmCall s o := by
  cases o with
  | alloc => exact zone_alloc_any_critical _ s
  | allocDma =>
    change (zone_alloc .dma fun p => .unlock (.irqRestore (.ret p))).critical s =
      some (zoneAlloc s .dma)
    rw [zone_alloc_critical]
    rfl
  | allocBelow max =>
    rw [pmmCall, pmmAllocBelow]
    change (if u64 max ≤ DMA_ZONE_LIMIT then zone_alloc .dma _
      else if u64 max ≤ DMA32_ZONE_LIMIT then _ else _ : PmmCode).critical s = _
    have hlimits : DMA_ZONE_LIMIT ≤ DMA32_ZONE_LIMIT := by decide
    by_cases hdma : u64 max ≤ DMA_ZONE_LIMIT
    · rw [if_pos hdma, if_pos (Nat.le_trans hdma hlimits), if_pos hdma, zone_alloc_critical]
      rfl
    · rw [if_neg hdma, if_neg hdma]
      by_cases hdma32 : u64 max ≤ DMA32_ZONE_LIMIT
      · rw [if_pos hdma32, if_pos hdma32, zone_alloc_critical]
        dsimp only
        by_cases hp : (zoneAlloc s .dma).1 = 0
        · rw [if_neg (not_not.mpr hp), if_neg (not_not.mpr hp), zone_alloc_critical]
          rfl
        · rw [if_pos hp, if_pos hp]
          rfl
      · rw [if_neg hdma32, if_neg hdma32]
        rfl
  | allocPages n =>
    change (pmm_alloc_pages (u64 n) .ret).atomic s = some (pmmAllocPages s (u64 n))
    unfold pmm_alloc_pages pmmAllocPages
    by_cases hn : u64 n = 0
    · rw [if_pos hn, if_pos hn]
      rfl
    · rw [if_neg hn, if_neg hn]
      change (zone_alloc_any _).critical s = _
      rw [zone_alloc_any_critical]
      dsimp only
      by_cases hpage : (zoneAllocAny s).1 = 0
      · rw [if_neg (not_not.mpr hpage), if_pos hpage]
        rfl
      · rw [if_pos hpage, if_neg hpage, Code.critical, Code.critical, alloc_rest_critical]
        generalize allocRest _ _ _ _ = r
        rcases r with ⟨ok, t⟩
        cases ok with
        | false => rfl
        | true => rfl
  | free page =>
    change (pmm_free (u64 page) .ret).atomic s = some (0, pmmFree s (u64 page))
    unfold pmm_free pmmFree
    by_cases hpage : u64 page = 0
    · rw [if_pos hpage, if_pos hpage]
      rfl
    · rw [if_neg hpage, if_neg hpage]
      rfl
  | freePages addr n =>
    change (pmm_free_pages (u64 addr) (u64 n) .ret).atomic s =
      some (0, pmmFreePages s (u64 addr) (u64 n))
    unfold pmm_free_pages pmmFreePages
    by_cases haddr : u64 addr = 0
    · rw [if_pos haddr, if_pos haddr]
      rfl
    · rw [if_neg haddr, if_neg haddr, List.range_eq_range']
      exact free_up_critical _ _ 0 _ s
  | freeCount => rfl

/-! ## The discipline -/

/-- A body that keeps the lock. -/
def Works (body : (Nat → PmmCode) → PmmCode) : Prop := ∀ k, (∀ p, Sound (k p) .held) →
    Sound (body k) .held

theorem sound_withLock {body : (Nat → PmmCode) → PmmCode} (h : Works body) :
    Sound (withLock body .ret) .start :=
  h _ fun _ => trivial

theorem works_zone_alloc (z : Zone) : Works (zone_alloc z) := by
  intro k hk s
  dsimp only
  split
  · exact hk 0
  · exact fun s _ _ => hk (s.head z)

theorem works_zone_alloc_any : Works zone_alloc_any := by
  intro k hk
  refine works_zone_alloc .normal _ fun p => ?_
  split
  · exact hk p
  · refine works_zone_alloc .dma32 _ fun p => ?_
    split
    · exact hk p
    · exact works_zone_alloc .dma k hk

theorem sound_page_free_internal (addr : Nat) {k : PmmCode} (hk : Sound k .held) :
    Sound (page_free_internal addr k) .held :=
  fun _ _ => hk

theorem sound_free_down (highest left j : Nat) {k : PmmCode} (hk : Sound k .held) :
    Sound (free_down highest left j k) .held := by
  induction left generalizing j with
  | zero => exact hk
  | succ left ih => exact sound_page_free_internal _ (ih (j + 1))

theorem sound_free_up (addr left i : Nat) {k : PmmCode} (hk : Sound k .held) :
    Sound (free_up addr left i k) .held := by
  induction left generalizing i with
  | zero => exact hk
  | succ left ih => exact sound_page_free_internal _ (ih (i + 1))

theorem sound_alloc_rest (highest n left i : Nat) {k : Nat → PmmCode}
    (hk : ∀ p, Sound (k p) .held) : Sound (alloc_rest highest n k left i) .held := by
  induction left generalizing i with
  | zero => exact hk _
  | succ left ih =>
    refine works_zone_alloc_any _ fun page => ?_
    split
    · exact ih (i + 1)
    · exact sound_free_down highest i 0 fun _ => hk 0

theorem disciplined : Disciplined pmmCode := by
  intro o
  cases o with
  | alloc => exact .inl (sound_withLock works_zone_alloc_any)
  | allocDma => exact .inl (sound_withLock (works_zone_alloc .dma))
  | allocBelow max =>
    refine .inl ?_
    change Sound (pmm_alloc_below (u64 max) .ret) .start
    unfold pmm_alloc_below
    apply sound_withLock
    intro k hk
    dsimp only
    split
    · exact works_zone_alloc .dma k hk
    · split
      · refine works_zone_alloc .dma _ fun p => ?_
        split
        · exact hk p
        · exact works_zone_alloc .dma32 k hk
      · exact trivial
  | allocPages n =>
    change Sound (pmm_alloc_pages (u64 n) .ret) .start ∨
      ∃ a, pmm_alloc_pages (u64 n) .ret = .ret a
    unfold pmm_alloc_pages
    split
    · exact .inr ⟨0, rfl⟩
    · refine .inl (sound_withLock fun k hk => works_zone_alloc_any _ fun highest => ?_)
      split
      · exact fun _ => sound_alloc_rest _ _ _ _ hk
      · exact hk 0
  | free page =>
    change Sound (pmm_free (u64 page) .ret) .start ∨ ∃ a, pmm_free (u64 page) .ret = .ret a
    unfold pmm_free
    split
    · exact .inr ⟨0, rfl⟩
    · exact .inl (sound_withLock fun k hk => sound_page_free_internal _ (hk 0))
  | freePages addr n =>
    change Sound (pmm_free_pages (u64 addr) (u64 n) .ret) .start ∨
      ∃ a, pmm_free_pages (u64 addr) (u64 n) .ret = .ret a
    unfold pmm_free_pages
    split
    · exact .inr ⟨0, rfl⟩
    · exact .inl (sound_withLock fun k hk => sound_free_up _ _ 0 (hk 0))
  | freeCount =>
    refine .inl ?_
    change Sound (pmm_free_count .ret) .start
    unfold pmm_free_count
    apply sound_withLock
    intro k hk s
    exact hk s.freePagesTotal

/-! ## Every interleaving -/

/-- Calls of the sequential model, one after the other, with what they return. -/
def InTurn : FreeLists → List (Entry PmmCall Nat) → FreeLists → Prop
  | s, [], t => s = t
  | s, e :: log, t => ∃ u, pmmCall s e.op = some (e.value, u) ∧ InTurn u log t

theorem inTurn_of_replays {log : List (Entry PmmCall Nat)} {s t : FreeLists}
    (h : Replays pmmCode s log t) : InTurn s log t := by
  induction log generalizing s with
  | nil => exact h
  | cons e log ih =>
    obtain ⟨u, hu, hlog⟩ := h
    rw [pmmCode_atomic] at hu
    exact ⟨u, hu, ih hlog⟩

variable {ι : Type} [DecidableEq ι]

/-- Each call that returns has an entry of its own in the log, with what it returns: no two calls
have one number, and no two entries. -/
structure Logged (m : Machine ι PmmCall FreeLists Nat) : Prop where
  returned : ∀ i, ∀ x ∈ (m.cpu i).stack, ∀ p, x.code = .ret p → ⟨x.id, x.op, p⟩ ∈ m.log
  calls : ∀ i j, ∀ x ∈ (m.cpu i).stack, ∀ y ∈ (m.cpu j).stack, x.id = y.id → i = j ∧ x = y
  entries : (m.log.map Entry.call).Nodup

/-- **The lock serializes the allocator.**  In whatever order the processors and their interrupts
take steps, one call at most is between `spin_lock` and `spin_unlock`, each call returns what it
returns when the calls come one after the other, and the free lists are what they are then. -/
theorem pmm_serializes (mem₀ : FreeLists) (m : Machine ι PmmCall FreeLists Nat)
    (h : Reachable pmmCode mem₀ m) :
    (∀ i j, Inside (m.cpu i) → Inside (m.cpu j) → i = j) ∧
      (m.locked = true ↔ ∃ i, Inside (m.cpu i)) ∧
      Logged m ∧
      ∃ s, InTurn mem₀ m.log s ∧ (m.locked = false → m.mem = s) := by
  have hserial := lock_serializes disciplined h
  obtain ⟨s, hreplay, hmem⟩ := hserial.serial
  have hnumbered := hserial.numbered
  refine ⟨hserial.exclusive, hserial.locked,
    ⟨hserial.returned, fun i j x hx y hy hid => ?_, hnumbered.entries⟩,
    s, inTurn_of_replays hreplay, hmem⟩
  obtain rfl := hnumbered.apart i j x hx y hy hid
  exact ⟨rfl, List.inj_on_of_nodup_map (hnumbered.distinct i) hx hy hid⟩

/-- `pmm_alloc` takes a page while another processor waits for the lock. -/
theorem pmm_serializes_two :
    ∃ m : Machine Bool PmmCall FreeLists Nat,
      run (step pmmCode) (Machine.idle (pageFreeInternal (bootLists id) 0x200000) fun _ => true)
          [.call true .alloc, .run true, .run true, .call false .freeCount, .run false, .run
            false, .run true] = some m ∧
        (∀ i j, Inside (m.cpu i) → Inside (m.cpu j) → i = j) ∧
          (m.locked = true ↔ ∃ i, Inside (m.cpu i)) ∧
        Logged m ∧
        ∃ s, InTurn (pageFreeInternal (bootLists id) 0x200000) m.log s ∧
            (m.locked = false → m.mem = s) := by
  obtain ⟨m, hm⟩ : ∃ m : Machine Bool PmmCall FreeLists Nat,
      run (step pmmCode) (Machine.idle (pageFreeInternal (bootLists id) 0x200000) fun _ => true)
        [.call true .alloc, .run true, .run true, .call false .freeCount, .run false, .run
          false, .run true] = some m :=
    ⟨_, rfl⟩
  exact ⟨m, hm, pmm_serializes _ m ⟨fun _ => true, reach_of_run hm⟩⟩

/-- The calls that do not come to an end. -/
theorem pmmCode_ends {o : PmmCall} (h : ∀ max, o = .allocBelow max → u64 max ≤ DMA32_ZONE_LIMIT)
    (s : FreeLists) : ((pmmCode o).atomic s).isSome := by
  rw [pmmCode_atomic]
  cases o with
  | allocBelow max =>
    rw [pmmCall, if_pos (h max rfl)]
    rfl
  | _ => rfl

theorem pmmCode_hangs {max : Nat} (h : DMA32_ZONE_LIMIT < u64 max) :
    (pmmCode (.allocBelow max)).hangs := by
  have hdma : ¬ u64 max ≤ DMA_ZONE_LIMIT := Nat.not_le_of_lt (Nat.lt_trans (by decide) h)
  change (if u64 max ≤ DMA_ZONE_LIMIT then _ else if u64 max ≤ DMA32_ZONE_LIMIT then _
    else _ : PmmCode).asks
  rw [if_neg hdma, if_neg (Nat.not_le_of_lt h)]
  trivial

/-- **What becomes of the lock.**  A call that has the lock can still give it back if and only if
it is not `pmm_alloc_below` with a bound above 4 GiB. -/
theorem pmm_lock_freed_iff (mem₀ : FreeLists) (m : Machine ι PmmCall FreeLists Nat)
    (h : Reachable pmmCode mem₀ m) (i : ι)
    (x : Ctx PmmCall FreeLists Nat) (hx : x ∈ (m.cpu i).stack.head?) (hheld : x.phase = .held) :
    (∃ m', Reach (step pmmCode) (fun _ _ => True) m m' ∧ m'.locked = false) ↔
      ∀ max, x.op = .allocBelow max → u64 max ≤ DMA32_ZONE_LIMIT := by
  constructor
  · rintro ⟨m', hrun, hfree⟩ max hop
    by_contra hmax
    obtain ⟨owner, hinv⟩ := h.inv disciplined
    have hmem : x ∈ (m.cpu i).stack := List.mem_of_mem_head? hx
    have hasks :=
      ((hinv.tidy i).good x hmem).stuck hheld (hop ▸ pmmCode_hangs (Nat.lt_of_not_le hmax))
    obtain ⟨-, hlocked, -⟩ := stuck_forever disciplined h ⟨x, hx, hheld, hasks⟩ hrun
    rw [hfree] at hlocked
    cases hlocked
  · intro hends
    have hin : Inside (m.cpu i) := ⟨x, hx, hheld⟩
    obtain ⟨n, m', hrun, hfree⟩ := lock_released disciplined h hin fun y hy s => by
      rw [Option.mem_def] at hx hy
      cases hx.symm.trans hy
      exact pmmCode_ends hends s
    exact ⟨m', reach_of_run hrun, hfree⟩

/-- `pmm_alloc_below` above 4 GiB, behind its first `spin_lock`. -/
theorem pmm_lock_freed_iff_below :
    ∃ m : Machine Bool PmmCall FreeLists Nat, ∃ x ∈ (m.cpu true).stack.head?,
      run (step pmmCode) (Machine.idle (bootLists id) fun _ => true)
          [.call true (.allocBelow 0x100000001), .run true, .run true] = some m ∧
        ((∃ m', Reach (step pmmCode) (fun _ _ => True) m m' ∧ m'.locked = false) ↔
          ∀ max, x.op = .allocBelow max → u64 max ≤ DMA32_ZONE_LIMIT) := by
  obtain ⟨m, hm, x, hx, hheld⟩ : ∃ m : Machine Bool PmmCall FreeLists Nat,
      run (step pmmCode) (Machine.idle (bootLists id) fun _ => true)
          [.call true (.allocBelow 0x100000001), .run true, .run true] = some m ∧
        ∃ x ∈ (m.cpu true).stack.head?, x.phase = .held := ⟨_, rfl, _, rfl, rfl⟩
  exact ⟨m, x, hx, hm, pmm_lock_freed_iff _ m ⟨fun _ => true, reach_of_run hm⟩ true x hx hheld⟩

end Lumin.Mm.FreeList.Locked
