import Lumin.Lib.Transition
import Lumin.Mm.AddressSpace
import Lumin.Proc.Task

/-!
# The heap break

The `SYS_BRK` case of `syscall_entry`.  A growth maps one page after the other and
moves `brk` only when all of them are mapped; a shrink unmaps nothing.  Both ends of
the range are rounded up in 64 bits, so for an argument within a page of `2 ^ 64` the
rounded end is `0`, no page is mapped, and `brk` moves all the same.
-/

namespace Lumin.Proc

open Lumin.Lib Lumin.Mm

/-- What `SYS_BRK` of a user task works on. -/
structure BrkState where
  machine : Machine
  pml4 : Nat
  brk : Nat
  pid : Int

/-- `(uint64_t)-1`. -/
def BRK_FAILED : Nat := 2 ^ 64 - 1

/-- The loop of `SYS_BRK` with `n` pages to go, and whether it has mapped them all. -/
def brkLoop (pml4 : Nat) : (n virt : Nat) → Machine → Bool × Machine
  | 0, _, m => (true, m)
  | n + 1, virt, m =>
    let (phys, m) := allocFrame m
    if phys = 0 then (false, m)
    else
      let (r, m) := vmmMapPage m pml4 virt phys (PAGE_USER ||| PAGE_WRITE)
      if r ≠ 0 then (false, freeFrame m phys) else brkLoop pml4 n (virt + 0x1000) m

/-- `SYS_BRK`: the value in `rax` and the state after it. -/
def sysBrk (s : BrkState) (newBrk : Nat) : Nat × BrkState :=
  if s.pid = 0 then (BRK_FAILED, s)
  else if newBrk = 0 then (s.brk, s)
  else if newBrk < USER_HEAP_START then (BRK_FAILED, s)
  else if newBrk < s.brk then (newBrk, { s with brk := newBrk })
  else
    let startPage := pageDown (u64 (s.brk + 0xFFF))
    let endPage := pageDown (u64 (newBrk + 0xFFF))
    let (mapped, m) := brkLoop s.pml4 ((endPage - startPage) / 0x1000) startPage s.machine
    if mapped then (newBrk, { s with machine := m, brk := newBrk })
    else (BRK_FAILED, { s with machine := m })

/-- A call of `SYS_BRK`, or what the rest of the system does in between. -/
inductive BrkOp where
  | brk (newBrk : Nat)
  | other (machine : Machine)

def brkStep (s : BrkState) : BrkOp → Option BrkState
  | .brk newBrk => some (sysBrk s newBrk).2
  | .other machine => some { s with machine := machine }

/-! ## Coverage -/

/-- The page of `virt` is mapped for the user to write. -/
def UserWritable (mem : Mem) (pml4 virt : Nat) : Prop :=
  ∃ l e, translate mem pml4 virt = some (l, e) ∧
      e &&& (PAGE_USER ||| PAGE_WRITE) = PAGE_USER ||| PAGE_WRITE

/-- Every page below the break is mapped. -/
def HeapCovered (s : BrkState) : Prop :=
  ∀ virt, USER_HEAP_START ≤ virt → virt < s.brk → UserWritable s.machine.mem s.pml4 virt

/-- A call that returns `-1` leaves the break alone. -/
def FailureKeepsBrk (s : BrkState) (newBrk : Nat) : Prop :=
  (sysBrk s newBrk).1 = BRK_FAILED → (sysBrk s newBrk).2.brk = s.brk

/-- The argument can be rounded up, and the rest of the system leaves the tables of the
task alone and keeps their frames out of the allocator. -/
def BrkGuard (s : BrkState) : BrkOp → Prop
  | .brk newBrk => newBrk + 0xFFF < 2 ^ 64
  | .other machine =>
    (∀ x, pageDown x ∈ tables s.machine.mem 3 s.pml4 → machine.mem x = s.machine.mem x) ∧
      FreeOk machine (tables s.machine.mem 3 s.pml4)

/-- The invariant: the pages up to the rounded break are mapped, and the tables are a
tree of frames that the allocator does not have. -/
structure BrkInv (s : BrkState) : Prop where
  space : Space s.machine s.pml4 [] []
  low : USER_HEAP_START ≤ s.brk
  high : s.brk + 0xFFF < 2 ^ 64
  covered : ∀ virt, USER_HEAP_START ≤ virt → virt < pageUp s.brk →
    UserWritable s.machine.mem s.pml4 virt

variable {m m' : Machine} {s s' : BrkState} {pml4 virt phys n newBrk : Nat}
  {held : List Nat}

/-- The leaf that `SYS_BRK` makes is for the user to write. -/
theorem heapLeaf_flags (phys : Nat) :
    (phys ||| (PAGE_USER ||| PAGE_WRITE) ||| PAGE_PRESENT) &&& (PAGE_USER ||| PAGE_WRITE) =
      PAGE_USER ||| PAGE_WRITE := by
  apply Nat.eq_of_testBit_eq
  intro i
  simp only [Nat.testBit_and, Nat.testBit_or]
  cases (PAGE_USER.testBit i || PAGE_WRITE.testBit i) <;> simp

/-- What the loop does: nothing is unmapped, the frames it maps are held from then on,
and if it gets through, all its pages are mapped. -/
theorem brkLoop_spec (h : Space m pml4 [] held) (n virt : Nat) (hvirt : virt % 0x1000 = 0) :
    ∃ mapped m' held', brkLoop pml4 n virt m = (mapped, m') ∧ Space m' pml4 [] held' ∧
        held ⊆ held' ∧
      (∀ v le, translate m.mem pml4 v = some le → translate m'.mem pml4 v = some le) ∧
      (∀ S, LeavesHeld S m pml4 held → LeavesHeld S m' pml4 held') ∧
      (mapped = true → ∀ v, virt ≤ v → v < virt + n * 0x1000 → UserWritable m'.mem pml4 v) ∧
      (0 ∉ tables m.mem 3 pml4 → 0 ∉ tables m'.mem 3 pml4) := by
  induction n generalizing virt m held with
  | zero =>
    exact ⟨true, m, held, rfl, h, fun _ hf => hf, fun _ _ hle => hle, fun _ hleaves => hleaves,
      fun _ v hlo hhi => by omega, fun hnull => hnull⟩
  | succ n ih =>
    rw [brkLoop]
    rcases h.alloc with ⟨halloc, -⟩ | ⟨phys, m₁, halloc, hframe, hheld, -, hmem, -, hspace₁⟩
    · rw [halloc]
      exact ⟨false, m, held, rfl, h, fun _ hf => hf, fun _ _ hle => hle, fun _ hleaves => hleaves,
        by simp,
        fun hnull => hnull⟩
    · rw [halloc]
      dsimp only
      rw [if_neg hframe.2.1.ne']
      obtain ⟨r, m₂, new, hmap, hext, hspace₂, -, hres⟩ :=
        hspace₁.map virt hframe (show PAGE_USER ||| PAGE_WRITE < 2 ^ 12 by decide)
      rw [hmap]
      dsimp only
      rcases hres with ⟨rfl, hnone, hsome⟩ | ⟨rfl, hsame⟩
      · rw [if_neg (by simp)]
        have hmono₂ : ∀ v le, translate m.mem pml4 v = some le →
            translate m₂.mem pml4 v = some le :=
          fun v le hle => hext.translate_mono hnone (hmem ▸ hle)
        have hpage : ∀ v, virt ≤ v → v < virt + 0x1000 → UserWritable m₂.mem pml4 v := by
          intro v hlo hhi
          refine ⟨0, _, ?_, heapLeaf_flags phys⟩
          rw [← translate_pageDown, pageDown_of_mem_page hvirt hlo hhi]
          exact hsome
        obtain ⟨mapped, m', held', hloop, hspace', hkeep, hmono, hleaves, hdone, hnull'⟩ :=
          ih hspace₂ (virt + 0x1000) (by omega)
        refine ⟨mapped, m', held', hloop, hspace',
          fun f hf => hkeep (List.mem_cons_of_mem phys hf),
          fun v le hle => hmono v le (hmono₂ v le hle), fun S hS => hleaves S ?_,
            fun hmapped v hlo hhi => ?_,
          fun hnull => hnull' ?_⟩
        · refine LeavesHeld.map ?_ hext hframe (by decide) List.mem_cons_self hsome
          exact (hS.of_subset (List.subset_cons_self phys held)).congr fun v => by rw [hmem]
        · by_cases hv : v < virt + 0x1000
          · obtain ⟨l, e, he, hflags⟩ := hpage v hlo hv
            exact ⟨l, e, hmono v _ he, hflags⟩
          · exact hdone hmapped v (by omega) (by omega)
        · exact hext.null hspace₁.freeOk (hmem ▸ hnull)
      · rw [if_pos (by simp)]
        -- The page was not mapped, and its frame goes back.
        obtain ⟨hspace₃, htables, -⟩ := hspace₂.free hframe hheld
        have htranslate :
            ∀ v, translate (freeFrame m₂ phys).mem pml4 v = translate m.mem pml4 v := by
          intro v
          rw [hspace₂.translate_congr htables, hsame v, hmem]
        refine ⟨false, freeFrame m₂ phys, held, rfl, hspace₃, fun _ hf => hf, fun v le hle => ?_,
          fun S hS => hS.congr htranslate, by simp, fun hnull => ?_⟩
        · rw [htranslate v]
          exact hle
        · rw [tables_congr hspace₂.tree.aligned htables]
          exact hext.null hspace₁.freeOk (hmem ▸ hnull)

theorem pageDown_u64 (h : n + 0xFFF < 2 ^ 64) : pageDown (u64 (n + 0xFFF)) = pageUp n := by
  rw [u64_of_lt h]
  rfl

theorem le_pageUp (n : Nat) : n ≤ pageUp n := by
  unfold pageUp pageDown
  omega

/-- One call keeps the invariant, and if it fails, it keeps the break. -/
theorem BrkInv.sysBrk (h : BrkInv s) (hround : newBrk + 0xFFF < 2 ^ 64) :
    BrkInv (sysBrk s newBrk).2 ∧ FailureKeepsBrk s newBrk := by
  unfold FailureKeepsBrk Proc.sysBrk
  by_cases hpid : s.pid = 0
  · rw [if_pos hpid]
    exact ⟨h, fun _ => rfl⟩
  rw [if_neg hpid]
  by_cases hzero : newBrk = 0
  · rw [if_pos hzero]
    exact ⟨h, fun _ => rfl⟩
  rw [if_neg hzero]
  by_cases hlow : newBrk < USER_HEAP_START
  · rw [if_pos hlow]
    exact ⟨h, fun _ => rfl⟩
  rw [if_neg hlow]
  by_cases hshrink : newBrk < s.brk
  · rw [if_pos hshrink]
    refine ⟨⟨h.space, not_lt.mp hlow, hround, fun v hlo hhi => h.covered v hlo ?_⟩,
      fun hfail => ?_⟩
    · exact lt_of_lt_of_le hhi (pageUp_mono hshrink.le)
    · unfold BRK_FAILED at hfail
      simp only at hfail
      omega
  · rw [if_neg hshrink, pageDown_u64 h.high, pageDown_u64 hround]
    have hmono := pageUp_mono (not_lt.mp hshrink)
    obtain ⟨mapped, m', held, hloop, hspace, -, hmono, -, hdone, -⟩ :=
      brkLoop_spec h.space ((pageUp newBrk - pageUp s.brk) / 0x1000) (pageUp s.brk)
        (by unfold pageUp pageDown; omega)
    have hspace' := hspace.of_subset (List.nil_subset held)
    have hkeep : ∀ v, UserWritable s.machine.mem s.pml4 v → UserWritable m'.mem s.pml4 v := by
      rintro v ⟨l, e, he, hflags⟩
      exact ⟨l, e, hmono v _ he, hflags⟩
    dsimp only
    rw [hloop]
    dsimp only
    cases mapped with
    | true =>
      rw [if_pos rfl]
      refine ⟨⟨hspace', not_lt.mp hlow, hround, fun v hlo hhi => ?_⟩, fun hfail => ?_⟩
      · by_cases hv : v < pageUp s.brk
        · exact hkeep v (h.covered v hlo hv)
        · refine hdone rfl v (not_lt.mp hv) ?_
          have hdvd : (pageUp newBrk - pageUp s.brk) / 0x1000 * 0x1000 =
              pageUp newBrk - pageUp s.brk := by
            unfold pageUp pageDown
            omega
          rw [hdvd]
          simp only at hhi
          omega
      · unfold BRK_FAILED at hfail
        simp only at hfail
        omega
    | false =>
      rw [if_neg (by simp)]
      exact ⟨⟨hspace', h.low, h.high, fun v hlo hhi => hkeep v (h.covered v hlo hhi)⟩,
        fun _ => rfl⟩

theorem BrkInv.step (h : BrkInv s) {o : BrkOp} (hguard : BrkGuard s o)
    (hstep : brkStep s o = some s') : BrkInv s' := by
  cases o with
  | brk newBrk =>
    cases hstep
    exact (h.sysBrk hguard).1
  | other machine =>
    cases hstep
    obtain ⟨hpages, hfree⟩ := hguard
    refine ⟨h.space.congr hpages ?_ (by simp), h.low, h.high, fun v hlo hhi => ?_⟩
    · rw [List.append_nil]
      exact hfree.poolOk
    · obtain ⟨l, e, he, hflags⟩ := h.covered v hlo hhi
      refine ⟨l, e, ?_, hflags⟩
      rw [← he]
      exact h.space.translate_congr hpages v

/-- `SYS_BRK` runs its loop or leaves the machine alone. -/
theorem sysBrk_machine (s : BrkState) (newBrk : Nat) :
    (sysBrk s newBrk).2.pml4 = s.pml4 ∧
      ((sysBrk s newBrk).2.machine = s.machine ∨
        ∃ n virt, virt % 0x1000 = 0 ∧
            (sysBrk s newBrk).2.machine = (brkLoop s.pml4 n virt s.machine).2) := by
  unfold sysBrk
  split
  · exact ⟨rfl, .inl rfl⟩
  · split
    · exact ⟨rfl, .inl rfl⟩
    · split
      · exact ⟨rfl, .inl rfl⟩
      · split
        · exact ⟨rfl, .inl rfl⟩
        · dsimp only
          split
          · exact ⟨rfl, .inr ⟨_, _, pageDown_aligned _, rfl⟩⟩
          · exact ⟨rfl, .inr ⟨_, _, pageDown_aligned _, rfl⟩⟩

/-- A task with an empty heap. -/
theorem brkInv_start (hbrk : s.brk = USER_HEAP_START) (htree : TreeOk s.machine.mem 3 s.pml4)
    (hfree : FreeOk s.machine (tables s.machine.mem 3 s.pml4)) : BrkInv s := by
  refine ⟨⟨htree, ?_, by simp⟩, hbrk.ge, ?_, fun v hlo hhi => ?_⟩
  · rw [List.append_nil]
    exact hfree.poolOk
  · rw [hbrk]
    decide
  · rw [hbrk, show pageUp USER_HEAP_START = USER_HEAP_START from rfl] at hhi
    omega

/-- As long as no argument lies within a page of `2 ^ 64`, every page below the break
is mapped for the user to write, and a call that returns `-1` leaves the break alone. -/
theorem heapCovered_of_reach (s₀ s : BrkState) (hbrk : s₀.brk = USER_HEAP_START)
    (htree : TreeOk s₀.machine.mem 3 s₀.pml4)
    (hfree : FreeOk s₀.machine (tables s₀.machine.mem 3 s₀.pml4))
    (hreach : Reach brkStep BrkGuard s₀ s) :
    HeapCovered s ∧ ∀ newBrk, newBrk + 0xFFF < 2 ^ 64 → FailureKeepsBrk s newBrk := by
  have hinv : BrkInv s :=
    Reach.invariant BrkInv (brkInv_start hbrk htree hfree)
      (fun _ _ _ h hguard hstep => h.step hguard hstep) hreach
  refine ⟨fun v hlo hhi => hinv.covered v hlo (lt_of_lt_of_le hhi (le_pageUp _)),
    fun newBrk hround => ?_⟩
  exact (hinv.sysBrk hround).2

/-! ## A small machine -/

/-- A user task with an empty heap. -/
def heapTask (free : List Nat) : BrkState :=
  { machine := emptyMachine free, pml4 := 0x1000, brk := USER_HEAP_START, pid := 1 }

/-- One page can be added. -/
theorem heapCovered_of_reach_grown :
    ∃ s, Reach brkStep BrkGuard (heapTask [0x5000, 0x4000, 0x3000, 0x2000]) s ∧
      s.brk = USER_HEAP_START + 0x1000 ∧
      HeapCovered s ∧ ∀ newBrk, newBrk + 0xFFF < 2 ^ 64 → FailureKeepsBrk s newBrk := by
  have hreach : Reach brkStep BrkGuard (heapTask [0x5000, 0x4000, 0x3000, 0x2000])
      (sysBrk (heapTask [0x5000, 0x4000, 0x3000, 0x2000]) (USER_HEAP_START + 0x1000)).2 :=
    Reach.start.next (o := .brk (USER_HEAP_START + 0x1000))
      (show USER_HEAP_START + 0x1000 + 0xFFF < 2 ^ 64 by decide) rfl
  refine ⟨_, hreach, by decide +kernel, heapCovered_of_reach _ _ rfl treeOk_empty ?_ hreach⟩
  have htables :
      tables (heapTask [0x5000, 0x4000, 0x3000, 0x2000]).machine.mem 3 0x1000 = [0x1000] :=
    tables_empty 3 0x1000
  have hfree : popOrder (heapTask [0x5000, 0x4000, 0x3000, 0x2000]).machine.pmm =
      [0x5000, 0x4000, 0x3000, 0x2000] := rfl
  refine ⟨by rw [hfree]; decide, fun f hf => ?_, fun f hf => ?_⟩
  · rw [hfree] at hf
    revert f
    unfold IsFrame
    decide
  · show f ∉ tables (heapTask [0x5000, 0x4000, 0x3000, 0x2000]).machine.mem 3 0x1000
    rw [htables]
    rw [hfree] at hf
    revert f
    decide

/-- Within a page of `2 ^ 64` the break moves and nothing is mapped. -/
theorem topBrk_not_covered :
    (sysBrk (heapTask []) (2 ^ 64 - 0x800)).1 = 2 ^ 64 - 0x800 ∧
      ¬ HeapCovered (sysBrk (heapTask []) (2 ^ 64 - 0x800)).2 := by
  refine ⟨by decide +kernel, fun hcovered => ?_⟩
  have hbrk : (sysBrk (heapTask []) (2 ^ 64 - 0x800)).2.brk = 2 ^ 64 - 0x800 := by decide +kernel
  obtain ⟨l, e, he, -⟩ := hcovered USER_HEAP_START (le_refl _) (by rw [hbrk]; decide)
  have hnone : translate (sysBrk (heapTask []) (2 ^ 64 - 0x800)).2.machine.mem
      (sysBrk (heapTask []) (2 ^ 64 - 0x800)).2.pml4 USER_HEAP_START = none := by decide +kernel
  rw [hnone] at he
  cases he

end Lumin.Proc
