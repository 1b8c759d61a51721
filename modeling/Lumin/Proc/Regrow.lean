import Lumin.Mm.MapPage
import Lumin.Proc.Brk

/-!
# Growing the heap again

`SYS_BRK` unmaps nothing when the break goes down, nor when a growth fails half way, and
`vmm_map_page` refuses a page that is mapped.  So whether a growth succeeds depends on what
earlier calls have left behind.

* `brkAnswers` are the values that `pmm_alloc` returns during a call.
* `brkLoop_served` says that the loop with enough frames succeeds if it meets no page that is
  mapped.
* `growth_succeeds_iff` is the result, for every run of calls.
-/

namespace Lumin.Proc

open Lumin.Lib Lumin.Mm

/-! ## The answers of the allocator -/

/-- What `pmm_alloc` returns to the loop of `SYS_BRK` and to the calls that the loop makes. -/
def loopAnswers (pml4 : Nat) : (n virt : Nat) → Machine → List Nat
  | 0, _, _ => []
  | n + 1, virt, m =>
    let (phys, m) := allocFrame m
    phys ::
      if phys = 0 then []
      else
        let (r, m') := vmmMapPage m pml4 virt phys (PAGE_USER ||| PAGE_WRITE)
        mapAnswers (tableFlags (PAGE_USER ||| PAGE_WRITE)) virt 3 m pml4 ++
          if r ≠ 0 then [] else loopAnswers pml4 n (virt + 0x1000) m'

/-- The values that `pmm_alloc` returns while the heap grows to `newBrk`. -/
def brkAnswers (s : BrkState) (newBrk : Nat) : List Nat :=
  let startPage := pageDown (u64 (s.brk + 0xFFF))
  let endPage := pageDown (u64 (newBrk + 0xFFF))
  loopAnswers s.pml4 ((endPage - startPage) / 0x1000) startPage s.machine

/-! ## The loop with enough frames -/

variable {m : Machine} {s s' : BrkState} {held : List Nat} {virt pml4 n newBrk : Nat}

/-- The loop with enough frames: it gets through when it meets no page that is mapped. -/
theorem brkLoop_served (h : Space m pml4 [] held) (hnull : 0 ∉ tables m.mem 3 pml4)
    (hvirt : virt % 0x1000 = 0)
    (hend : virt + n * 0x1000 ≤ 2 ^ 48) (hserved : 0 ∉ loopAnswers pml4 n virt m) :
    (brkLoop pml4 n virt m).1 = true ↔
      ∀ v, virt ≤ v → v < virt + n * 0x1000 → translate m.mem pml4 v = none := by
  induction n generalizing virt m held with
  | zero => exact iff_of_true rfl fun v hlo hhi => by omega
  | succ n ih =>
    rw [loopAnswers] at hserved
    rw [brkLoop]
    rcases h.alloc with ⟨halloc, -⟩ | ⟨phys, m₁, halloc, hframe, hheld, -, hmem, -, hspace₁⟩
    · rw [halloc] at hserved
      exact absurd List.mem_cons_self hserved
    rw [halloc] at hserved ⊢
    dsimp only at hserved ⊢
    rw [if_neg hframe.2.1.ne'] at hserved ⊢
    obtain ⟨r, m₂, new, hmap, hext, hspace₂, -, hres⟩ :=
      hspace₁.map virt hframe (show PAGE_USER ||| PAGE_WRITE < 2 ^ 12 by decide)
    rw [hmap] at hserved ⊢
    dsimp only at hserved ⊢
    rw [List.mem_cons, List.mem_append, not_or, not_or] at hserved
    obtain ⟨-, hmapServed, hrestServed⟩ := hserved
    rcases hres with ⟨rfl, hnone, -⟩ | ⟨rfl, -⟩
    · have hdone : ¬ (0 : Int) ≠ 0 := fun hne => hne rfl
      rw [if_neg hdone] at hrestServed ⊢
      have hnull₂ := hext.null hspace₁.freeOk (hmem ▸ hnull)
      rw [ih hspace₂ hnull₂ (by omega) (by omega) hrestServed]
      rw [hmem] at hnone
      -- The pages behind are translated as before.
      have hothers : ∀ v, virt + 0x1000 ≤ v → v < virt + (n + 1) * 0x1000 →
          translate m₂.mem pml4 v = translate m.mem pml4 v := by
        intro v hlo hhi
        have hpage : pageNumber v ≠ pageNumber virt := by
          unfold pageNumber
          omega
        rw [← hmem]
        exact hext.walks v (exists_virtPath_ne hpage)
      constructor
      · intro hrest v hlo hhi
        by_cases hv : v < virt + 0x1000
        · rw [← translate_pageDown, pageDown_of_mem_page hvirt hlo hv]
          exact hnone
        · rw [← hothers v (not_lt.mp hv) hhi]
          exact hrest v (not_lt.mp hv) (by omega)
      · intro hall v hlo hhi
        rw [hothers v hlo (by omega)]
        exact hall v (by omega) (by omega)
    · rw [if_pos (by decide)]
      refine iff_of_false Bool.false_ne_true fun hall => ?_
      have hunmapped : translate m₁.mem pml4 virt = none := by
        rw [hmem]
        exact hall virt (le_refl _) (by omega)
      have hzero :
          (mapFrom (tableFlags (PAGE_USER ||| PAGE_WRITE))
          (phys ||| (PAGE_USER ||| PAGE_WRITE) ||| PAGE_PRESENT)
          virt 3 m₁ pml4).1 = 0 :=
        mapFrom_served (le_refl 3) hspace₁.tree hspace₁.freeOk (hmem ▸ hnull) hmapServed hunmapped
      rw [← vmmMapPage_eq, hmap] at hzero
      cases hzero

/-! ## Runs -/

/-- An argument in the range of the heap. -/
def HeapArg (newBrk : Nat) : Prop := USER_HEAP_START ≤ newBrk ∧ newBrk < USER_HEAP_START + 2 ^ 36

instance (newBrk : Nat) : Decidable (HeapArg newBrk) := inferInstanceAs (Decidable (_ ∧ _))

/-- The calls have arguments in the range of the heap.  In between, frames come and go, and
the tables of the task stay. -/
def RegrowGuard (s : BrkState) : BrkOp → Prop
  | .brk newBrk => HeapArg newBrk
  | .other machine => BrkGuard s (.other machine)

/-- The invariant of these runs. -/
structure RegrowInv (s : BrkState) : Prop where
  brkInv : BrkInv s
  null : 0 ∉ tables s.machine.mem 3 s.pml4
  user : s.pid ≠ 0
  top : s.brk < USER_HEAP_START + 2 ^ 36

theorem HeapArg.round (h : HeapArg newBrk) : newBrk + 0xFFF < 2 ^ 64 := by
  have hstart : USER_HEAP_START = 0x8100000000 := rfl
  have := h.2
  omega

/-- A call keeps the task, and it keeps the break or moves it to the argument. -/
theorem sysBrk_state (s : BrkState) (newBrk : Nat) :
    (sysBrk s newBrk).2.pid = s.pid ∧
      ((sysBrk s newBrk).2.brk = s.brk ∨ (sysBrk s newBrk).2.brk = newBrk) := by
  unfold sysBrk
  dsimp only
  split_ifs
  · exact ⟨rfl, .inl rfl⟩
  · exact ⟨rfl, .inl rfl⟩
  · exact ⟨rfl, .inl rfl⟩
  · exact ⟨rfl, .inr rfl⟩
  · exact ⟨rfl, .inr rfl⟩
  · exact ⟨rfl, .inl rfl⟩

theorem RegrowInv.step {o : BrkOp} (h : RegrowInv s) (hguard : RegrowGuard s o)
    (hstep : brkStep s o = some s') : RegrowInv s' := by
  cases o with
  | brk newBrk =>
    have harg : HeapArg newBrk := hguard
    cases hstep
    obtain ⟨hpid, hbrk⟩ := sysBrk_state s newBrk
    obtain ⟨hpml4, hmachine⟩ := sysBrk_machine s newBrk
    refine ⟨(h.brkInv.sysBrk harg.round).1, ?_, hpid ▸ h.user, ?_⟩
    · rw [hpml4]
      rcases hmachine with hsame | ⟨n, virt, hvirt, hloop⟩
      · rw [hsame]
        exact h.null
      · obtain ⟨mapped, m', held, heq, -, -, -, -, -, hnull⟩ :=
          brkLoop_spec h.brkInv.space n virt hvirt
        rw [hloop, heq]
        exact hnull h.null
    · rcases hbrk with hbrk | hbrk
      · rw [hbrk]
        exact h.top
      · rw [hbrk]
        exact harg.2
  | other machine =>
    have hothers : BrkGuard s (.other machine) := hguard
    have hinv := h.brkInv.step hothers hstep
    cases hstep
    refine ⟨hinv, ?_, h.user, h.top⟩
    rw [tables_congr h.brkInv.space.tree.aligned hothers.1]
    exact h.null

/-- What a growth with enough frames returns. -/
theorem RegrowInv.growth (h : RegrowInv s) (harg : HeapArg newBrk) (hgrow : s.brk < newBrk)
    (hserved : 0 ∉ brkAnswers s newBrk) :
    (sysBrk s newBrk).1 = newBrk ↔
      ∀ virt, pageUp s.brk ≤ virt → virt < pageUp newBrk →
          translate s.machine.mem s.pml4 virt = none := by
  have hstart : USER_HEAP_START = 0x8100000000 := rfl
  have hlow := harg.1
  have hhigh := harg.2
  have hmono := pageUp_mono hgrow.le
  have hround : pageUp newBrk ≤ newBrk + 0xFFF := pageDown_le _
  have haligned : pageUp s.brk % 0x1000 = 0 := pageDown_aligned _
  have hlength :
      pageUp s.brk + (pageUp newBrk - pageUp s.brk) / 0x1000 * 0x1000 = pageUp newBrk := by
    unfold pageUp pageDown at hmono ⊢
    omega
  unfold brkAnswers at hserved
  rw [pageDown_u64 h.brkInv.high, pageDown_u64 harg.round] at hserved
  have hloop := brkLoop_served h.brkInv.space h.null haligned (by omega) hserved
  rw [hlength] at hloop
  rw [← hloop, sysBrk, if_neg h.user, if_neg (by omega), if_neg (by omega), if_neg (by omega),
    pageDown_u64 h.brkInv.high, pageDown_u64 harg.round]
  dsimp only
  generalize brkLoop s.pml4 ((pageUp newBrk - pageUp s.brk) / 0x1000) (pageUp s.brk) s.machine =
    result
  obtain ⟨mapped, m'⟩ := result
  cases mapped with
  | true => exact iff_of_true rfl rfl
  | false =>
    refine iff_of_false ?_ Bool.false_ne_true
    show BRK_FAILED ≠ newBrk
    unfold BRK_FAILED
    omega

/-- In every run of calls, a growth for which `pmm_alloc` always has a frame returns the
requested break exactly when no page of the range is mapped already. -/
theorem growth_succeeds_iff (s₀ s : BrkState) (hbrk : s₀.brk = USER_HEAP_START)
    (huser : s₀.pid ≠ 0)
    (htree : TreeOk s₀.machine.mem 3 s₀.pml4) (hnull : 0 ∉ tables s₀.machine.mem 3 s₀.pml4)
    (hfree : FreeOk s₀.machine (tables s₀.machine.mem 3 s₀.pml4))
    (hreach : Reach brkStep RegrowGuard s₀ s) :
    ∀ newBrk, HeapArg newBrk → s.brk < newBrk → 0 ∉ brkAnswers s newBrk →
      ((sysBrk s newBrk).1 = newBrk ↔
        ∀ virt, pageUp s.brk ≤ virt → virt < pageUp newBrk →
            translate s.machine.mem s.pml4 virt = none) := by
  have hstart : RegrowInv s₀ := by
    refine ⟨brkInv_start hbrk htree hfree, hnull, huser, ?_⟩
    rw [hbrk]
    exact Nat.lt_add_of_pos_right (by decide)
  have hinv : RegrowInv s :=
    Reach.invariant RegrowInv hstart (fun _ _ _ h hguard hstep => h.step hguard hstep) hreach
  exact fun newBrk harg hgrow hserved => hinv.growth harg hgrow hserved

/-- A user task with an empty heap and six frames. -/
def sixFrames : BrkState := heapTask [0x7000, 0x6000, 0x5000, 0x4000, 0x3000, 0x2000]

theorem sixFrames_space : Space sixFrames.machine 0x1000 [] [] := by
  have hspace :
      Space (emptyMachine [0x7000, 0x6000, 0x5000, 0x4000, 0x3000, 0x2000]) 0x1000 [] [] :=
    space_empty (by decide) (by decide) (by decide)
  exact hspace

theorem sixFrames_null : 0 ∉ tables sixFrames.machine.mem 3 0x1000 := by
  have htables : tables sixFrames.machine.mem 3 0x1000 = [0x1000] := tables_empty 3 0x1000
  rw [htables]
  decide

theorem sixFrames_unmapped (virt : Nat) : translate sixFrames.machine.mem 0x1000 virt = none :=
  translate_empty 0x1000 virt

theorem sixFrames_served : 0 ∉ brkAnswers sixFrames (USER_HEAP_START + 0x1000) :=
  by decide +kernel

/-- The first page of an empty heap. -/
theorem growth_succeeds_first :
    (sysBrk sixFrames (USER_HEAP_START + 0x1000)).1 = USER_HEAP_START + 0x1000 := by
  have harg : HeapArg (USER_HEAP_START + 0x1000) := by decide
  have hgrow : sixFrames.brk < USER_HEAP_START + 0x1000 := by decide
  have huser : sixFrames.pid ≠ 0 := by decide
  have hgrowth :=
    growth_succeeds_iff sixFrames sixFrames rfl huser sixFrames_space.tree sixFrames_null
    sixFrames_space.freeOk .start _ harg hgrow sixFrames_served
  rw [hgrowth]
  exact fun virt _ _ => sixFrames_unmapped virt

/-- The heap grows by a page, shrinks, and cannot grow again, although there are frames. -/
theorem regrowth_fails :
    ∃ s, Reach brkStep RegrowGuard sixFrames s ∧ HeapArg (USER_HEAP_START + 0x1000) ∧
      s.brk < USER_HEAP_START + 0x1000 ∧ 0 ∉ brkAnswers s (USER_HEAP_START + 0x1000) ∧
      (sysBrk s (USER_HEAP_START + 0x1000)).1 = BRK_FAILED := by
  have harg : HeapArg (USER_HEAP_START + 0x1000) := by decide
  have hstart : HeapArg USER_HEAP_START := by decide
  have hgrown :
      Reach brkStep RegrowGuard sixFrames (sysBrk sixFrames (USER_HEAP_START + 0x1000)).2 :=
    Reach.start.next (o := .brk (USER_HEAP_START + 0x1000)) harg rfl
  have hshrunk : Reach brkStep RegrowGuard sixFrames
      (sysBrk (sysBrk sixFrames (USER_HEAP_START + 0x1000)).2 USER_HEAP_START).2 :=
    hgrown.next (o := .brk USER_HEAP_START) hstart rfl
  refine ⟨_, hshrunk, harg, ?_⟩
  decide +kernel

end Lumin.Proc
