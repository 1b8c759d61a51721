import Lumin.Proc.ElfRuns

/-!
# The page budget of a program

`elf_load` compares `page_count + (int)pages_needed`, a sum of 32 bits, with
`ELF_MAX_PAGES`, and then loads `pages_needed` pages.  A segment of `2 ^ 31` pages makes the
sum negative, and so do `2 ^ 31 - 1` pages behind the first one.

* `leafRequests` counts the calls of `pmm_alloc` for the pages of a program.
* `segmentsRequests_overrun` finds the program header by which a load goes beyond the budget,
  and `leafRequests_overrun` is a load that does so for each such header.
* `elfLoad_budget_iff` is the result, for every file.
-/

namespace Lumin.Proc

open Lumin.Lib Lumin.Mm

/-! ## Counting the requests -/

section Requests

variable {η : Type} (K : NodeHeap η)

/-- How often a round asks `pmm_alloc` for a page: not at all when there is no node. -/
def pageRequests (s : LoadState η) : Nat := if (K.kmalloc s.heap s.machine).1 = 0 then 0 else 1

/-- The requests of the loop over the pages of a segment. -/
def pagesRequests (file : ElfFile) (pml4 : Nat) (ph : ElfPhdr) : (n p : Nat) → LoadState η → Nat
  | 0, _, _ => 0
  | n + 1, p, s =>
    pageRequests K s +
      match loadPage K file pml4 ph p s with
      | (false, _) => 0
      | (true, s) => pagesRequests file pml4 ph n (p + 1) s

/-- The requests of the loop over the program headers. -/
def segmentsRequests (file : ElfFile) (pml4 : Nat) (hdr : ElfHdr) :
    (n i : Nat) → LoadState η → Nat
  | 0, _, _ => 0
  | n + 1, i, s =>
    match readPhdr file hdr i with
    | none => 0
    | some ph =>
      if ph.p_type ≠ PT_LOAD then segmentsRequests file pml4 hdr n (i + 1) s
      else if s32 (s.pageCount + ph.pagesNeeded) > ELF_MAX_PAGES then 0
      else
        pagesRequests K file pml4 ph ph.pagesNeeded 0 s +
          match loadPages K file pml4 ph ph.pagesNeeded 0 s with
          | (false, _) => 0
          | (true, s) => segmentsRequests file pml4 hdr n (i + 1) s

/-- The calls of `pmm_alloc` that `elf_load` makes for the pages of the program. -/
def leafRequests (file : ElfFile) (pml4 : Nat) (h : η) (m : Machine) : Nat :=
  if pml4 = 0 then 0
  else
    match readHdr file with
    | none => 0
    | some hdr =>
      segmentsRequests K file pml4 hdr hdr.e_phnum 0
        { heap := h, machine := m, pages := [], pageCount := 0 }

end Requests

/-- Header `i` comes after segments with the pages `ps`, which are within the budget.  Its
segment `ph` gets past the check, has more pages than the budget leaves, and the pages up
to the budget are different ones. -/
structure Overrun (file : ElfFile) (hdr : ElfHdr) (i : Nat) (ps : List Nat) (ph : ElfPhdr) :
    Prop where
  segment : Segment file hdr i ps ph
  fits : ps.length ≤ ELF_MAX_PAGES
  tooMany : ELF_MAX_PAGES < ps.length + ph.pagesNeeded
  distinct : ((ps ++ ph.pagesFrom 0 (ELF_MAX_PAGES - ps.length)).map pageNumber).Nodup

variable {η : Type} {K : NodeHeap η} {own : η → List Nat} {file : ElfFile} {hdr : ElfHdr}
  {ph : ElfPhdr} {pml4 p n i : Nat} {m₀ m : Machine} {s s' : LoadState η} {ps : List Nat}
  {ok : Bool}

/-! ## No more than the budget -/

/-- A load whose pages are all that matters. -/
abbrev BudgetInv (own : η → List Nat) (pml4 : Nat) (m₀ : Machine) (s : LoadState η)
    (ps : List Nat) : Prop :=
  LoadedUpTo (fun _ _ => True) own pml4 m₀ s ps

theorem true_kept (own : η → List Nat) (pml4 : Nat) (okay : Nat → Prop) :
    Kept own pml4 okay fun _ _ => True :=
  ⟨fun _ _ _ _ => trivial, fun _ _ _ => trivial⟩

/-- A round that gets through has made its request. -/
theorem pageRequests_of_loaded (heq : loadPage K file pml4 ph p s = (true, s')) :
    pageRequests K s = 1 := by
  unfold pageRequests
  unfold loadPage at heq
  dsimp only at heq
  split_ifs at heq ⊢
  · cases heq
  · rfl
  · rfl

theorem pageRequests_le (K : NodeHeap η) (s : LoadState η) : pageRequests K s ≤ 1 := by
  unfold pageRequests
  split <;> omega

/-- The requests of the loop over the pages: before each of them, the pages in front have
been mapped. -/
theorem pagesRequests_spec (hsound : K.Sound own) (file : ElfFile) (ph : ElfPhdr) (n p : Nat)
    (h : BudgetInv own pml4 m₀ s ps) :
    pagesRequests K file pml4 ph n p s ≤ n ∧
      ((ps ++ ph.pagesFrom p (pagesRequests K file pml4 ph n p s - 1)).map pageNumber).Nodup ∧
      ∀ s', loadPages K file pml4 ph n p s = (true, s') →
        pagesRequests K file pml4 ph n p s = n ∧
          BudgetInv own pml4 m₀ s' (ps ++ ph.pagesFrom p n) := by
  induction n generalizing p s ps with
  | zero =>
    refine ⟨le_refl 0, ?_, fun s' heq => ?_⟩
    · rw [pagesRequests, ElfPhdr.pagesFrom, Nat.zero_sub, List.range'_zero, List.map_nil,
        List.append_nil]
      exact h.distinct
    · cases heq
      rw [ElfPhdr.pagesFrom, List.range'_zero, List.map_nil, List.append_nil]
      exact ⟨rfl, h⟩
  | succ n ih =>
    have hone := pageRequests_le K s
    rw [pagesRequests, loadPages]
    rcases hload : loadPage K file pml4 ph p s with ⟨ok, s₁⟩
    cases ok with
    | false =>
      dsimp only
      refine ⟨by omega, ?_, fun s' heq => by cases heq⟩
      have hnone : pageRequests K s + 0 - 1 = 0 := by omega
      rw [hnone, ElfPhdr.pagesFrom, List.range'_zero, List.map_nil, List.append_nil]
      exact h.distinct
    | true =>
      dsimp only
      rw [pageRequests_of_loaded hload]
      obtain ⟨hle, hdistinct, hdone⟩ := ih (p + 1)
        ((h.page hsound (true_kept own pml4 fun _ => True) trivial hload).1 rfl)
      refine ⟨by omega, ?_, fun s' heq => ?_⟩
      · cases hmore : pagesRequests K file pml4 ph n (p + 1) s₁ with
        | zero =>
          rw [ElfPhdr.pagesFrom, List.range'_zero, List.map_nil, List.append_nil]
          exact h.distinct
        | succ r =>
          rw [hmore, Nat.add_sub_cancel, List.append_assoc] at hdistinct
          rw [Nat.add_sub_cancel_left, pagesFrom_succ]
          exact hdistinct
      · obtain ⟨hall, hinv⟩ := hdone s' heq
        rw [pagesFrom_succ, List.append_cons]
        exact ⟨by omega, hinv⟩

/-- A load that makes more requests than the budget has a header that overruns it. -/
theorem segmentsRequests_overrun (hsound : K.Sound own) (n i : Nat) (hn : i + n = hdr.e_phnum)
    (h : BudgetInv own pml4 m₀ s ps) (hbefore : pagesBefore file hdr i = some ps)
    (hfits : ps.length ≤ ELF_MAX_PAGES)
    (hmore : ELF_MAX_PAGES < ps.length + segmentsRequests K file pml4 hdr n i s) :
    ∃ j ps' ph, Overrun file hdr j ps' ph := by
  induction n generalizing i s ps with
  | zero =>
    rw [segmentsRequests] at hmore
    omega
  | succ n ih =>
    rw [segmentsRequests] at hmore
    cases hread : readPhdr file hdr i with
    | none =>
      rw [hread] at hmore
      dsimp only at hmore
      omega
    | some ph =>
      have hnext := pagesBefore_succ hbefore hread
      rw [hread] at hmore
      dsimp only at hmore
      by_cases htype : ph.p_type ≠ PT_LOAD
      · rw [if_pos htype] at hmore hnext
        exact ih (i + 1) (by omega) h hnext hfits hmore
      rw [if_neg htype] at hmore hnext
      rw [h.count] at hmore
      by_cases hcheck : s32 (ps.length + ph.pagesNeeded) > ELF_MAX_PAGES
      · rw [if_pos hcheck] at hmore
        omega
      rw [if_neg hcheck] at hmore hnext
      obtain ⟨hle, hdistinct, hdone⟩ := pagesRequests_spec hsound file ph ph.pagesNeeded 0 h
      by_cases hbudget : ps.length + ph.pagesNeeded ≤ ELF_MAX_PAGES
      · -- The segment is within the budget, so a later one is not.
        rcases hload : loadPages K file pml4 ph ph.pagesNeeded 0 s with ⟨ok, s₁⟩
        rw [hload] at hmore
        cases ok with
        | false =>
          dsimp only at hmore
          omega
        | true =>
          dsimp only at hmore
          obtain ⟨hall, hinv⟩ := hdone s₁ hload
          have hlength :
              (ps ++ ph.pagesFrom 0 ph.pagesNeeded).length = ps.length + ph.pagesNeeded := by
            rw [List.length_append, length_pagesFrom]
          exact ih (i + 1) (by omega) hinv hnext (by omega) (by omega)
      · refine ⟨i, ps, ph, ⟨by omega, hbefore, hread, not_not.mp htype, not_lt.mp hcheck⟩, hfits,
          not_le.mp hbudget, ?_⟩
        refine nodup_pagesFrom ?_ hdistinct
        -- The budget is reached within this segment.
        rcases hload : loadPages K file pml4 ph ph.pagesNeeded 0 s with ⟨ok, s₁⟩
        rw [hload] at hmore
        cases ok with
        | false =>
          dsimp only at hmore
          omega
        | true =>
          have hall := (hdone s₁ hload).1
          omega

/-! ## More than the budget -/

/-- A round asks for a page when it enters one. -/
theorem pageCount_loadPage (heq : loadPage K file pml4 ph p s = (ok, s')) :
    s'.pageCount ≤ s.pageCount + pageRequests K s := by
  unfold pageRequests
  unfold loadPage at heq
  dsimp only at heq
  split_ifs at heq ⊢
  · exact (congrArg LoadState.pageCount (Prod.mk.inj heq).2).ge
  · exact (congrArg LoadState.pageCount (Prod.mk.inj heq).2).ge.trans (Nat.le_succ _)
  · exact (congrArg LoadState.pageCount (Prod.mk.inj heq).2).ge

theorem pageCount_loadPages (n p : Nat) (heq : loadPages K file pml4 ph n p s = (ok, s')) :
    s'.pageCount ≤ s.pageCount + pagesRequests K file pml4 ph n p s := by
  induction n generalizing p s with
  | zero =>
    cases heq
    exact Nat.le_add_right _ _
  | succ n ih =>
    rw [loadPages] at heq
    rw [pagesRequests]
    rcases hload : loadPage K file pml4 ph p s with ⟨ok₁, s₁⟩
    have hone := pageCount_loadPage hload
    rw [hload] at heq
    cases ok₁ with
    | false =>
      cases heq
      dsimp only
      omega
    | true =>
      have hrest := ih (p + 1) heq
      dsimp only
      omega

/-- The page count of a load is no more than its requests. -/
theorem pageCount_loadSegments (n i : Nat)
    (heq : loadSegments K file pml4 hdr n i s = (ok, s')) :
    s'.pageCount ≤ s.pageCount + segmentsRequests K file pml4 hdr n i s := by
  induction n generalizing i s with
  | zero =>
    cases heq
    exact Nat.le_add_right _ _
  | succ n ih =>
    rw [loadSegments] at heq
    rw [segmentsRequests]
    cases hread : readPhdr file hdr i with
    | none =>
      rw [hread] at heq
      cases heq
      exact Nat.le_add_right _ _
    | some ph =>
      rw [hread] at heq
      dsimp only at heq ⊢
      split at heq
      · rename_i htype
        rw [if_pos htype]
        exact ih (i + 1) heq
      rename_i htype
      rw [if_neg htype]
      split at heq
      · rename_i hcheck
        rw [if_pos hcheck]
        cases heq
        exact Nat.le_add_right _ _
      rename_i hcheck
      rw [if_neg hcheck]
      rcases hload : loadPages K file pml4 ph ph.pagesNeeded 0 s with ⟨ok₁, s₁⟩
      have hpages := pageCount_loadPages _ 0 hload
      rw [hload] at heq
      cases ok₁ with
      | false =>
        cases heq
        dsimp only
        omega
      | true =>
        have hrest := ih (i + 1) heq
        dsimp only
        omega

/-- Four frames for each page of the budget and for one more. -/
def budgetFrames : List Nat :=
  (List.range (4 * (ELF_MAX_PAGES + 1))).map fun i => 0x1000 * (i + 2)

theorem budgetFrames_space : Space (emptyMachine budgetFrames) 0x1000 [] [] := by
  have hframe : ∀ f ∈ budgetFrames ++ [], ∃ i < 4 * (1024 + 1), f = 0x1000 * (i + 2) := by
    intro f hf
    rw [List.append_nil] at hf
    obtain ⟨i, hi, rfl⟩ := List.mem_map.mp hf
    exact ⟨i, List.mem_range.mp hi, rfl⟩
  refine space_empty ?_ (fun f hf => ?_) fun hroot => ?_
  · rw [List.append_nil]
    refine List.Nodup.map ?_ List.nodup_range
    intro a b hab
    dsimp only at hab
    omega
  · obtain ⟨i, hi, rfl⟩ := hframe f hf
    exact ⟨by omega, by omega, by omega⟩
  · obtain ⟨i, hi, heq⟩ := hframe _ hroot
    omega

/-- A load into an empty address space with these frames, and nodes for one page more than
the budget. -/
theorem budgetFrames_supplied : Supplied (fun _ _ => True) (ELF_MAX_PAGES + 1) 0x1000
    (emptyMachine budgetFrames) (startState 0 (emptyMachine budgetFrames)) []
    (ELF_MAX_PAGES + 1) := by
  refine ⟨loadedUpTo_start budgetFrames_space trivial, ?_, rfl, Nat.zero_add _, ?_⟩
  · have htables : tables (emptyMachine budgetFrames).mem 3 0x1000 = [0x1000] :=
      tables_empty 3 0x1000
    show 0 ∉ tables (emptyMachine budgetFrames).mem 3 0x1000
    rw [htables]
    decide
  · show 4 * (ELF_MAX_PAGES + 1) ≤ (popOrder (emptyMachine budgetFrames).pmm).length
    rw [popOrder_empty]
    unfold budgetFrames
    rw [List.length_map, List.length_range]

/-- A header that overruns the budget, and a load of its file that does so. -/
theorem leafRequests_overrun (hhdr : readHdr file = some hdr) (hover : Overrun file hdr i ps ph) :
    ELF_MAX_PAGES <
      leafRequests (limitedHeap (ELF_MAX_PAGES + 1)) file 0x1000 0
        (emptyMachine budgetFrames) := by
  have hfits := hover.fits
  have hmore := hover.tooMany
  -- The first page beyond the budget is asked for.
  have hasked : Asked file hdr (ps ++ ph.pagesFrom 0 (ELF_MAX_PAGES - ps.length))
      (ph.pageVaddr (ELF_MAX_PAGES - ps.length)) :=
    ⟨i, ps, ph, _, hover.segment, by omega, rfl, rfl⟩
  have hlength : (ps ++ ph.pagesFrom 0 (ELF_MAX_PAGES - ps.length)).length + 1 =
      ELF_MAX_PAGES + 1 := by
    rw [List.length_append, length_pagesFrom]
    omega
  obtain ⟨ok, t, hload, hcount, -⟩ := loadSegments_asked budgetFrames_supplied
    (true_kept _ _ _) hasked ⟨hover.distinct, fun v _ => translate_empty 0x1000 v⟩ hlength
  have hle := pageCount_loadSegments _ _ hload
  unfold leafRequests
  rw [if_neg (by decide), hhdr]
  rw [hcount] at hle
  exact Nat.lt_of_succ_le (hle.trans (Nat.zero_add _).le)

/-! ## The budget -/

/-- No load of a file asks for more pages than the budget, exactly when the file has no
header that overruns it. -/
theorem elfLoad_budget_iff (file : ElfFile) :
    (∀ (η : Type) (K : NodeHeap η) (own : η → List Nat) (pml4 : Nat) (h : η) (m : Machine),
      K.Sound own →
        Space m pml4 (own h) [] → leafRequests K file pml4 h m ≤ ELF_MAX_PAGES) ↔
      ¬ ∃ hdr i ps ph, readHdr file = some hdr ∧ Overrun file hdr i ps ph := by
  constructor
  · rintro hall ⟨hdr, i, ps, ph, hhdr, hover⟩
    have hle := hall Nat _ (fun _ => []) 0x1000 0 _ (limitedHeap_sound (ELF_MAX_PAGES + 1))
      budgetFrames_space
    exact absurd hle (not_le.mpr (leafRequests_overrun hhdr hover))
  · intro hnone η K own pml4 h m hsound hspace
    by_contra hmore
    rw [not_le] at hmore
    unfold leafRequests at hmore
    split at hmore
    · cases hmore
    cases hhdr : readHdr file with
    | none =>
      rw [hhdr] at hmore
      cases hmore
    | some hdr =>
      rw [hhdr] at hmore
      have hstart : BudgetInv own pml4 m (startState h m) [] :=
        loadedUpTo_start hspace trivial
      have hover : ∃ j ps ph, Overrun file hdr j ps ph := by
        refine segmentsRequests_overrun hsound hdr.e_phnum 0 (Nat.zero_add _) hstart rfl
          (Nat.zero_le _) ?_
        rw [List.length_nil, Nat.zero_add]
        exact hmore
      obtain ⟨j, ps, ph, hover⟩ := hover
      exact hnone ⟨hdr, j, ps, ph, hhdr, hover⟩

/-- The small program with a segment of `2 ^ 31 + 1` pages. -/
def hugeElf : List UInt8 := (tinyElf 0x8000000000).set 109 8

/-- It gets past the check, and 1025 pages are asked for. -/
theorem hugeElf_overruns : Space (emptyMachine budgetFrames) 0x1000 [] [] ∧
    ELF_MAX_PAGES < leafRequests (limitedHeap (ELF_MAX_PAGES + 1)) (elfFileOf hugeElf) 0x1000 0
      (emptyMachine budgetFrames) := by
  have hhdr : readHdr (elfFileOf hugeElf) = some tinyHdr := by decide +kernel
  have hread : readPhdr (elfFileOf hugeElf) tinyHdr 0 =
      some { tinyPhdr 0x8000000000 with p_memsz := 2 ^ 43 + 4 } := by decide +kernel
  have hover :
      Overrun (elfFileOf hugeElf) tinyHdr 0 []
      { tinyPhdr 0x8000000000 with p_memsz := 2 ^ 43 + 4 } := by
    refine ⟨⟨by decide, rfl, hread, rfl, by decide +kernel⟩, by decide, by decide +kernel, ?_⟩
    exact pagesFrom_distinct _ (by decide)
  exact ⟨budgetFrames_space, leafRequests_overrun hhdr hover⟩

end Lumin.Proc
