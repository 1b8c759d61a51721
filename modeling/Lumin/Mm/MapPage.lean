import Lumin.Mm.AddressSpace

/-!
# One page, one translation

`vmm_map_page` may make up to three tables on its way down, and it may stop after each of
them.  What it does to the address space is still one thing or nothing: the page that it
is given gets its entry, and every other page is translated as before.

A page of the address space is its number, of which the tables see 36 bits.

`mapFrom_served` says that the call fails for mapped pages only, as long as `pmm_alloc` has a
frame whenever it is asked for one; `mapAnswers` are its answers.
-/

namespace Lumin.Mm

open Lumin.Lib Lumin.Lib.Radix

/-- The page of a virtual address, as far as the tables tell pages apart. -/
def pageNumber (virt : Nat) : Nat := virt / 0x1000 % 2 ^ 36

/-- The page at `virt` is new in `mem'`, and the others are as in `mem`. -/
structure MapsOne (mem mem' : Mem) (pml4 virt phys leafFlags : Nat) : Prop where
  unmapped : translate mem pml4 virt = none
  mapped : translate mem' pml4 virt = some (0, phys ||| leafFlags ||| PAGE_PRESENT)
  others : ∀ virt', pageNumber virt' ≠ pageNumber virt →
    translate mem' pml4 virt' = translate mem pml4 virt'

variable {m : Machine} {pml4 virt virt' phys leafFlags l t leaf flags : Nat}

/-- The four indices are the digits of the page number. -/
theorem pageNumber_eq (virt : Nat) :
    pageNumber virt = (virtPath virt 0).val + 512 * (virtPath virt 1).val + 512 ^ 2 *
      (virtPath virt 2).val +
      512 ^ 3 * (virtPath virt 3).val := by
  have hdigit : ∀ k, (virtPath virt k).val = virt / 0x1000 / 2 ^ (9 * k) % 512 := by
    intro k
    show virt / 2 ^ (12 + 9 * k) % 512 = _
    rw [pow_add, ← Nat.div_div_eq_div_mul]
    rfl
  rw [hdigit 0, hdigit 1, hdigit 2, hdigit 3]
  unfold pageNumber
  omega

/-- Pages are told apart by their ways down. -/
theorem pageNumber_eq_iff : pageNumber virt' = pageNumber virt ↔
    ∀ k ≤ 3, virtPath virt' k = virtPath virt k := by
  constructor
  · intro h k hk
    have hdigit := fun k => (virtPath virt k).isLt
    have hdigit' := fun k => (virtPath virt' k).isLt
    have h0 := hdigit 0
    have h1 := hdigit 1
    have h2 := hdigit 2
    have h0' := hdigit' 0
    have h1' := hdigit' 1
    have h2' := hdigit' 2
    rw [pageNumber_eq, pageNumber_eq] at h
    apply Fin.ext
    interval_cases k <;> omega
  · intro h
    rw [pageNumber_eq, pageNumber_eq, h 0 (by omega), h 1 (by omega), h 2 (by omega),
      h 3 (by omega)]

theorem exists_virtPath_ne (hne : pageNumber virt' ≠ pageNumber virt) :
    ∃ k ≤ 3, virtPath virt' k ≠ virtPath virt k := by
  by_contra hsame
  push Not at hsame
  exact hne (pageNumber_eq_iff.mpr hsame)

/-- A translation is that of a page. -/
theorem translate_pageNumber {mem : Mem} (h : pageNumber virt' = pageNumber virt) :
    translate mem pml4 virt' = translate mem pml4 virt :=
  walkFrom_eq_of_path (pageNumber_eq_iff.mp h)

theorem mapPage_cases (m : Machine) (pml4 virt phys leafFlags : Nat) (htree : TreeOk m.mem 3 pml4)
    (hfree : FreeOk m (tables m.mem 3 pml4)) (hphys : phys % 0x1000 = 0) (hlt : phys < 2 ^ 64)
    (hflags : leafFlags < 2 ^ 12) :
    ∃ r m', vmmMapPage m pml4 virt phys leafFlags = (r, m') ∧
      ((r = 0 ∧ MapsOne m.mem m'.mem pml4 virt phys leafFlags) ∨
        (r = -1 ∧ ∀ virt', translate m'.mem pml4 virt' = translate m.mem pml4 virt')) := by
  obtain ⟨r, m', new, hmap, hext, hres⟩ := vmmMapPage_spec virt htree hfree hphys hlt hflags
  refine ⟨r, m', hmap, ?_⟩
  rcases hres with ⟨hr, hnone, hsome, -⟩ | ⟨hr, hsame, -⟩
  · left
    refine ⟨hr, hnone, hsome, ?_⟩
    intro virt' hne
    exact hext.walks virt' (exists_virtPath_ne hne)
  · right
    exact ⟨hr, hsame⟩

/-- `vmm_map_page` returns `0` and maps the one page, which was not mapped before, or it
returns `-1` and every page is translated as before. -/
theorem vmmMapPage_mapsOne (m : Machine) (pml4 virt phys leafFlags : Nat)
    (htree : TreeOk m.mem 3 pml4)
    (hfree : FreeOk m (tables m.mem 3 pml4)) (hphys : phys % 0x1000 = 0) (hlt : phys < 2 ^ 64)
    (hflags : leafFlags < 2 ^ 12) :
    ((vmmMapPage m pml4 virt phys leafFlags).1 = 0 ∧
        MapsOne m.mem (vmmMapPage m pml4 virt phys leafFlags).2.mem pml4 virt phys leafFlags) ∨
      ((vmmMapPage m pml4 virt phys leafFlags).1 = -1 ∧
        ∀ virt', translate (vmmMapPage m pml4 virt phys leafFlags).2.mem pml4 virt' =
            translate m.mem pml4 virt') := by
  obtain ⟨r, m', hmap, hres⟩ :=
    mapPage_cases m pml4 virt phys leafFlags htree hfree hphys hlt hflags
  rw [hmap]
  exact hres

/-- A page of a program in an empty address space with three frames for its tables. -/
theorem vmmMapPage_mapsOne_empty :
    (vmmMapPage (emptyMachine [0xC000, 0xB000, 0xA000]) 0x1000 0x8000000000 0x5000 PAGE_USER).1 =
      0 ∧
      MapsOne (emptyMachine [0xC000, 0xB000, 0xA000]).mem
        (vmmMapPage (emptyMachine [0xC000, 0xB000, 0xA000]) 0x1000 0x8000000000 0x5000
          PAGE_USER).2.mem
        0x1000 0x8000000000 0x5000 PAGE_USER := by
  have hspace : Space (emptyMachine [0xC000, 0xB000, 0xA000]) 0x1000 [] [] :=
    space_empty (by decide) (by decide) (by decide)
  have hzero :
      (vmmMapPage (emptyMachine [0xC000, 0xB000, 0xA000]) 0x1000 0x8000000000 0x5000 PAGE_USER).1
      = 0 := by
    decide +kernel
  rcases vmmMapPage_mapsOne _ 0x1000 0x8000000000 0x5000 PAGE_USER hspace.tree hspace.freeOk
      (by decide) (by decide)
    (by decide) with hmapped | ⟨hfail, -⟩
  · exact hmapped
  · rw [hzero] at hfail
    cases hfail

/-! ## With enough frames -/

/-- What `pmm_alloc` returns to `walk_or_create`, if it is called. -/
def walkAnswers (m : Machine) (table level virt : Nat) : List Nat :=
  if isPresent (entryAt m.mem table (tableIdx level virt)) then [] else [(allocFrame m).1]

/-- What it returns to `vmm_map_page` from a table at level `l` on, where the PML4 has
level 3. -/
def mapAnswers (flags virt : Nat) : (l : Nat) → Machine → Nat → List Nat
  | 0, _, _ => []
  | l + 1, m, table =>
    walkAnswers m table (2 - l) virt ++
      match walkOrCreate m table (2 - l) virt flags with
      | (next, m) => if next = 0 then [] else mapAnswers flags virt l m next

/-- A walk that meets no mapping goes on below the slot. -/
theorem walkOrCreate_served (hl : l ≤ 2) (htree : TreeOk m.mem (l + 1) t)
    (hnull : 0 ∉ tables m.mem (l + 1) t)
    (hserved : 0 ∉ walkAnswers m t (2 - l) virt) (hnone : walkFrom m.mem (l + 1) t virt = none)
    (flags : Nat) :
    (walkOrCreate m t (2 - l) virt flags).1 ≠ 0 := by
  have hidx : tableIdx (2 - l) virt = (virtPath virt (l + 1)).val := by
    have hlevel : 3 - (l + 1) = 2 - l := by omega
    rw [← hlevel, tableIdx_eq (by omega) virt]
  unfold walkAnswers at hserved
  unfold walkOrCreate
  rw [hidx] at hserved ⊢
  dsimp only
  unfold walkFrom at hnone
  rw [walk_eq] at hnone
  by_cases hpresent : isPresent (entryAt m.mem t (virtPath virt (l + 1)).val) = true
  · rw [if_pos hpresent]
    by_cases hhuge : isHuge (entryAt m.mem t (virtPath virt (l + 1)).val) = true
    · -- A huge page is a mapping.
      have hslot : pageStore m.mem (l + 1) t (virtPath virt (l + 1)) =
          .leaf (entryAt m.mem t (virtPath virt (l + 1)).val) := by
        unfold pageStore pageSlot
        rw [if_pos hpresent, if_pos (.inr hhuge)]
      rw [hslot] at hnone
      cases hnone
    · have hslot : pageStore m.mem (l + 1) t (virtPath virt (l + 1)) =
          .node (pageDown (entryAt m.mem t (virtPath virt (l + 1)).val)) := by
        unfold pageStore pageSlot
        rw [if_pos hpresent, if_neg (by simp [hhuge])]
      rw [if_neg fun h => hhuge h.1]
      intro hzero
      dsimp only at hzero
      rw [hzero] at hslot
      exact hnull ((htree.child hslot).2.1 0 (mem_tables_self _ _ _))
  · rw [if_neg hpresent] at hserved ⊢
    have hne : (allocFrame m).1 ≠ 0 := fun hzero => hserved (List.mem_singleton.mpr hzero.symm)
    rw [if_neg hne]
    exact hne

/-- When `pmm_alloc` always has a frame, `vmm_map_page` maps a page that is not mapped. -/
theorem mapFrom_served (hl : l ≤ 3) (htree : TreeOk m.mem l t)
    (hfree : FreeOk m (tables m.mem l t))
    (hnull : 0 ∉ tables m.mem l t) (hserved : 0 ∉ mapAnswers (tableFlags leafFlags) virt l m t)
    (hnone : walkFrom m.mem l t virt = none) :
    (mapFrom (tableFlags leafFlags) leaf virt l m t).1 = 0 := by
  induction l generalizing m t with
  | zero =>
    have hidx : tableIdx 3 virt = (virtPath virt 0).val := tableIdx_eq (l := 0) (by omega) virt
    rw [mapFrom, hidx]
    have habsent : isPresent (entryAt m.mem t (virtPath virt 0).val) ≠ true := by
      intro hpresent
      have hslot :
          pageStore m.mem 0 t (virtPath virt 0) =
            .leaf (entryAt m.mem t (virtPath virt 0).val) := by
        unfold pageStore pageSlot
        rw [if_pos hpresent, if_pos (.inl rfl)]
      unfold walkFrom at hnone
      rw [walk_eq, hslot] at hnone
      cases hnone
    rw [if_neg habsent]
  | succ l ih =>
    rw [mapAnswers, List.mem_append, not_or] at hserved
    obtain ⟨hhere, hbelow⟩ := hserved
    have hnext := walkOrCreate_served (by omega) htree hnull hhere hnone (tableFlags leafFlags)
    rw [mapFrom]
    rcases walkOrCreate_spec virt leafFlags (show l ≤ 2 by omega) htree hfree with
      heq | ⟨c, m₁, new, heq, hc, hext, hnode, hwalks, -⟩
    · rw [heq] at hnext
      exact absurd rfl hnext
    · rw [heq] at hbelow ⊢
      dsimp only at hbelow ⊢
      rw [if_neg hc] at hbelow ⊢
      have htree₁ := hext.treeOk htree hfree
      obtain ⟨hchild, hsub, -⟩ := htree₁.child hnode
      refine ih (by omega) hchild ((hext.freeOk_tables hfree).of_subset hsub)
        (fun hzero => hext.null hfree hnull (hsub 0 hzero)) hbelow ?_
      have hdown : walkFrom m₁.mem (l + 1) t virt = walkFrom m₁.mem l c virt := by
        unfold walkFrom
        rw [walk_eq, hnode]
        rfl
      rw [← hdown, hwalks, hnone]

/-- At most `k` frames have been taken. -/
def TakesAtMost (k : Nat) (m m' : Machine) : Prop :=
  ∃ taken : List Nat, taken.length ≤ k ∧ popOrder m.pmm = taken ++ popOrder m'.pmm

theorem TakesAtMost.trans {j k : Nat} {m₁ m₂ : Machine} (h : TakesAtMost j m m₁)
    (h' : TakesAtMost k m₁ m₂) :
    TakesAtMost (j + k) m m₂ := by
  obtain ⟨taken, hlen, hpop⟩ := h
  obtain ⟨taken', hlen', hpop'⟩ := h'
  refine ⟨taken ++ taken', ?_, ?_⟩
  · rw [List.length_append]
    omega
  · rw [hpop, hpop', List.append_assoc]

theorem TakesAtMost.length {k : Nat} {m' : Machine} (h : TakesAtMost k m m') :
    (popOrder m.pmm).length ≤ k + (popOrder m'.pmm).length := by
  obtain ⟨taken, hlen, hpop⟩ := h
  rw [hpop, List.length_append]
  omega

theorem TakesAtMost.subset {k : Nat} {m' : Machine} (h : TakesAtMost k m m') :
    popOrder m'.pmm ⊆ popOrder m.pmm := by
  obtain ⟨taken, -, hpop⟩ := h
  rw [hpop]
  exact List.subset_append_right _ _

theorem walkOrCreate_takes (hnz : ∀ f ∈ popOrder m.pmm, f ≠ 0) (t level virt flags : Nat) :
    TakesAtMost 1 m (walkOrCreate m t level virt flags).2 := by
  have hnone : TakesAtMost 1 m m := ⟨[], Nat.zero_le 1, rfl⟩
  unfold walkOrCreate
  dsimp only
  split
  · split <;> exact hnone
  · rcases allocFrame_spec hnz with ⟨-, halloc⟩ | ⟨p, rest, pmm, hpop, halloc, hrest⟩
    · rw [halloc]
      exact hnone
    · have hp : p ≠ 0 := hnz p (by simp [hpop])
      rw [halloc]
      dsimp only
      rw [if_neg hp]
      exact ⟨[p], le_refl 1, hpop.trans (congrArg (p :: ·) hrest.symm)⟩

/-- `vmm_map_page` takes at most one frame for each level above the page tables. -/
theorem mapFrom_takes (hnz : ∀ f ∈ popOrder m.pmm, f ≠ 0) (flags leaf virt l t : Nat) :
    TakesAtMost l m (mapFrom flags leaf virt l m t).2 := by
  induction l generalizing m t with
  | zero =>
    rw [mapFrom]
    split <;> exact ⟨[], le_refl 0, rfl⟩
  | succ l ih =>
    have hwalk := walkOrCreate_takes hnz t (2 - l) virt flags
    rw [mapFrom]
    rcases hnext : walkOrCreate m t (2 - l) virt flags with ⟨next, m₁⟩
    rw [hnext] at hwalk
    dsimp only at hwalk ⊢
    split
    · obtain ⟨taken, hlen, hpop⟩ := hwalk
      exact ⟨taken, by omega, hpop⟩
    · rw [Nat.add_comm l 1]
      exact hwalk.trans (ih (fun f hf => hnz f (hwalk.subset hf)) next)

/-- With that many frames `pmm_alloc` has one whenever it is asked. -/
theorem mapAnswers_of_length (hnz : ∀ f ∈ popOrder m.pmm, f ≠ 0)
    (hlen : l ≤ (popOrder m.pmm).length)
    (flags virt t : Nat) : 0 ∉ mapAnswers flags virt l m t := by
  induction l generalizing m t with
  | zero => exact List.not_mem_nil
  | succ l ih =>
    rw [mapAnswers, List.mem_append, not_or]
    constructor
    · unfold walkAnswers
      split
      · exact List.not_mem_nil
      · rcases allocFrame_spec hnz with ⟨hnil, -⟩ | ⟨p, rest, pmm, hpop, halloc, -⟩
        · rw [hnil] at hlen
          cases hlen
        · rw [halloc, List.mem_singleton]
          exact (hnz p (by simp [hpop])).symm
    · have hwalk := walkOrCreate_takes hnz t (2 - l) virt flags
      rcases hnext : walkOrCreate m t (2 - l) virt flags with ⟨next, m₁⟩
      rw [hnext] at hwalk
      dsimp only at hwalk ⊢
      split
      · exact List.not_mem_nil
      · have := hwalk.length
        exact ih (fun f hf => hnz f (hwalk.subset hf)) (by omega) next

theorem popOrder_empty (free : List Nat) : popOrder (emptyMachine free).pmm = free := by
  unfold popOrder emptyMachine lowFrames
  rfl

end Lumin.Mm
