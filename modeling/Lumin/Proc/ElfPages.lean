import Lumin.Mm.MapPage
import Lumin.Proc.ElfLoading

/-!
# The pages that a program asks for

The program headers say which pages `elf_load` maps, and in which order.

* `pagesBefore` are the pages of the segments in front of a header, as far as the loader
  can get there, and `Asked` is a page with the pages that are loaded before it.
* `LoadedPages` is the state while the loader gets through: the pages of its list are
  mapped, and nothing else has changed.
* `EndsAt` are the ways in which the loop over the headers ends, and `loadSegments_ends`
  is the result: it gets through all pages of the file, or fails at a header or a page
  in front of which all pages are loaded.
-/

namespace Lumin.Proc

open Lumin.Lib Lumin.Mm

/-! ## The pages of a file -/

/-- The addresses of `n` pages of a segment from page `p` on. -/
def ElfPhdr.pagesFrom (ph : ElfPhdr) (p n : Nat) : List Nat := (List.range' p n).map ph.pageVaddr

/-- The pages of the segments in front of header `i`, if the headers can be read and the
segments pass the check of the page count. -/
def pagesBefore (file : ElfFile) (hdr : ElfHdr) : Nat → Option (List Nat)
  | 0 => some []
  | i + 1 =>
    (pagesBefore file hdr i).bind fun ps =>
      (readPhdr file hdr i).bind fun ph =>
        if ph.p_type ≠ PT_LOAD then some ps
        else if s32 (ps.length + ph.pagesNeeded) > ELF_MAX_PAGES then none
        else some (ps ++ ph.pagesFrom 0 ph.pagesNeeded)

/-- Header `i` has a segment `ph` that passes the check, after segments with the pages
`ps`. -/
structure Segment (file : ElfFile) (hdr : ElfHdr) (i : Nat) (ps : List Nat) (ph : ElfPhdr) :
    Prop where
  header : i < hdr.e_phnum
  before : pagesBefore file hdr i = some ps
  read : readPhdr file hdr i = some ph
  load : ph.p_type = PT_LOAD
  passes : s32 (ps.length + ph.pagesNeeded) ≤ ELF_MAX_PAGES

/-- The file asks for a page at `v` once the pages `ps` are loaded. -/
def Asked (file : ElfFile) (hdr : ElfHdr) (ps : List Nat) (v : Nat) : Prop :=
  ∃ i ps₀ ph p, Segment file hdr i ps₀ ph ∧ p < ph.pagesNeeded ∧ ps = ps₀ ++ ph.pagesFrom 0 p ∧
    v = ph.pageVaddr p

/-- A header behind the pages `ps` cannot be read, or its segment does not pass the check. -/
def HeaderFails (file : ElfFile) (hdr : ElfHdr) (ps : List Nat) : Prop :=
  ∃ i < hdr.e_phnum, pagesBefore file hdr i = some ps ∧ pagesBefore file hdr (i + 1) = none

/-- The loader can fail once the pages `ps` are loaded: at a page, or at a header. -/
def MayFail (file : ElfFile) (hdr : ElfHdr) (ps : List Nat) : Prop :=
  HeaderFails file hdr ps ∨ ∃ v, Asked file hdr ps v

/-- The pages are different ones, as far as the tables can tell pages apart, and none of them
is mapped. -/
def NewPages (mem : Mem) (pml4 : Nat) (ps : List Nat) : Prop :=
  (ps.map pageNumber).Nodup ∧ ∀ v ∈ ps, translate mem pml4 v = none

variable {η : Type} {K : NodeHeap η} {own : η → List Nat} {file : ElfFile} {hdr : ElfHdr}
  {ph : ElfPhdr} {pml4 vaddr v p n i k : Nat} {m m' m₀ : Machine} {s s' : LoadState η}
  {held ps qs : List Nat} {eps : List ElfPage} {ep : ElfPage} {ok : Bool}
  {P : LoadState η → List Nat → Prop}

@[simp] theorem pagesFrom_zero (ph : ElfPhdr) (p : Nat) : ph.pagesFrom p 0 = [] := rfl

theorem pagesFrom_succ (ph : ElfPhdr) (p n : Nat) :
    ph.pagesFrom p (n + 1) = ph.pageVaddr p :: ph.pagesFrom (p + 1) n := by
  unfold ElfPhdr.pagesFrom
  rw [List.range'_succ, List.map_cons]

theorem pagesFrom_add (ph : ElfPhdr) (p a b : Nat) :
    ph.pagesFrom p (a + b) = ph.pagesFrom p a ++ ph.pagesFrom (p + a) b := by
  unfold ElfPhdr.pagesFrom
  rw [← List.map_append, List.range'_append_1]

@[simp] theorem length_pagesFrom (ph : ElfPhdr) (p n : Nat) : (ph.pagesFrom p n).length = n := by
  unfold ElfPhdr.pagesFrom
  rw [List.length_map, List.length_range']

/-- Fewer pages of a segment are different, if more are. -/
theorem nodup_pagesFrom (hk : k ≤ n) (h : ((ps ++ ph.pagesFrom p n).map pageNumber).Nodup) :
    ((ps ++ ph.pagesFrom p k).map pageNumber).Nodup := by
  have hrange : List.Sublist (List.range' p k) (List.range' p n) :=
    List.range'_sublist_right.mpr hk
  exact h.sublist (((hrange.map ph.pageVaddr).append_left ps).map pageNumber)

/-- The pages of one segment are different. -/
theorem pagesFrom_distinct (ph : ElfPhdr) (hn : p + n ≤ 2 ^ 36) :
    ((ph.pagesFrom p n).map pageNumber).Nodup := by
  unfold ElfPhdr.pagesFrom
  rw [List.map_map]
  refine List.Nodup.map_on ?_ List.nodup_range'
  intro a ha b hb heq
  rw [List.mem_range'_1] at ha hb
  simp only [Function.comp_apply] at heq
  unfold pageNumber ElfPhdr.pageVaddr ElfPhdr.pageStart pageDown PAGE_SIZE u64 at heq
  omega

/-- The pages in front of pages that are new. -/
theorem NewPages.left {mem : Mem} (h : NewPages mem pml4 (ps ++ qs)) : NewPages mem pml4 ps := by
  obtain ⟨hnodup, hnone⟩ := h
  rw [List.map_append] at hnodup
  exact ⟨(List.nodup_append.mp hnodup).1, fun v hv => hnone v (List.mem_append_left _ hv)⟩

/-- There are not more pages than page numbers. -/
theorem length_le_of_pageNumber (h : (ps.map pageNumber).Nodup) : ps.length ≤ 2 ^ 36 := by
  have hsub : ps.map pageNumber ⊆ List.range (2 ^ 36) := by
    intro a ha
    obtain ⟨v, -, rfl⟩ := List.mem_map.mp ha
    exact List.mem_range.mpr (Nat.mod_lt _ (by decide))
  have hle := (List.subperm_of_subset h hsub).length_le
  rw [List.length_map, List.length_range] at hle
  exact hle

/-- What a header does to the pages. -/
theorem pagesBefore_succ (hbefore : pagesBefore file hdr i = some ps)
    (hread : readPhdr file hdr i = some ph) :
    pagesBefore file hdr (i + 1) =
      if ph.p_type ≠ PT_LOAD then some ps
      else if s32 (ps.length + ph.pagesNeeded) > ELF_MAX_PAGES then none
      else some (ps ++ ph.pagesFrom 0 ph.pagesNeeded) := by
  rw [pagesBefore, hbefore, hread]
  rfl

/-- The pages behind a segment. -/
theorem Segment.next (h : Segment file hdr i ps ph) :
    pagesBefore file hdr (i + 1) = some (ps ++ ph.pagesFrom 0 ph.pagesNeeded) := by
  rw [pagesBefore_succ h.before h.read, if_neg (not_not.mpr h.load), if_neg (not_lt.mpr h.passes)]

/-- Where pages come from: the header in front is no segment, or one that passes. -/
theorem pagesBefore_cases (hi : i < hdr.e_phnum)
    (hnext : pagesBefore file hdr (i + 1) = some ps) :
    ∃ ps₀ ph, pagesBefore file hdr i = some ps₀ ∧ readPhdr file hdr i = some ph ∧
      ((ph.p_type ≠ PT_LOAD ∧ ps = ps₀) ∨
        (Segment file hdr i ps₀ ph ∧ ps = ps₀ ++ ph.pagesFrom 0 ph.pagesNeeded)) := by
  obtain ⟨ps₀, hbefore, hrest⟩ := Option.bind_eq_some_iff.mp hnext
  obtain ⟨ph, hread, hps⟩ := Option.bind_eq_some_iff.mp hrest
  refine ⟨ps₀, ph, hbefore, hread, ?_⟩
  by_cases htype : ph.p_type ≠ PT_LOAD
  · rw [if_pos htype, Option.some.injEq] at hps
    exact .inl ⟨htype, hps.symm⟩
  rw [if_neg htype] at hps
  by_cases hcheck : s32 (ps₀.length + ph.pagesNeeded) > ELF_MAX_PAGES
  · rw [if_pos hcheck] at hps
    cases hps
  · rw [if_neg hcheck, Option.some.injEq] at hps
    exact .inr ⟨⟨hi, hbefore, hread, not_not.mp htype, not_lt.mp hcheck⟩, hps.symm⟩

/-- Each page of a segment is asked for. -/
theorem Segment.asked (h : Segment file hdr i ps ph) {rest : List Nat}
    (hsplit : ph.pagesFrom 0 ph.pagesNeeded = qs ++ v :: rest) :
    Asked file hdr (ps ++ qs) v := by
  unfold ElfPhdr.pagesFrom at hsplit
  obtain ⟨front, back, hrange, rfl, hback⟩ := List.map_eq_append_iff.mp hsplit
  obtain ⟨q, back, rfl, rfl, -⟩ := List.map_eq_cons_iff.mp hback
  obtain ⟨k, hk, rfl, hq⟩ := List.range'_eq_append_iff.mp hrange
  obtain ⟨rfl, hpos, -⟩ := List.range'_eq_cons_iff.mp hq.symm
  refine ⟨i, ps, ph, k, h, by omega, rfl, ?_⟩
  rw [Nat.zero_add, Nat.mul_one]

/-- A page among those that are loaded in front of a header was asked for. -/
theorem asked_of_before (hi : i ≤ hdr.e_phnum) {rest : List Nat}
    (hbefore : pagesBefore file hdr i = some (qs ++ v :: rest)) : Asked file hdr qs v := by
  induction i generalizing rest with
  | zero => simp [pagesBefore] at hbefore
  | succ i ih =>
    obtain ⟨ps₀, ph, hbefore₀, -, ⟨-, rfl⟩ | ⟨hsegment, hall⟩⟩ := pagesBefore_cases hi hbefore
    · exact ih (by omega) hbefore₀
    rcases List.append_eq_append_iff.mp hall with ⟨back, rfl, hback⟩ | ⟨front, rfl, hfront⟩
    · cases back with
      | nil =>
        rw [List.append_nil] at hsegment
        rw [← List.append_nil qs]
        exact hsegment.asked (List.nil_append _ ▸ hback.symm)
      | cons u back =>
        obtain ⟨rfl, -⟩ := List.cons.inj hback
        exact ih (by omega) hbefore₀
    · exact hsegment.asked hfront

/-- What is asked for before an asked page. -/
theorem Asked.before {rest : List Nat} (h : Asked file hdr (qs ++ v :: rest) n) :
    Asked file hdr qs v := by
  obtain ⟨i, ps₀, ph, p, hsegment, hp, hps, -⟩ := h
  have hnext := hsegment.next
  have hsplit : ph.pagesNeeded = p + (ph.pagesNeeded - p) := by omega
  rw [hsplit, pagesFrom_add, ← List.append_assoc, ← hps, List.append_assoc,
    List.cons_append] at hnext
  exact asked_of_before hsegment.header hnext

/-- The first asked page with a property. -/
theorem Asked.first {R : Nat → Prop} (h : Asked file hdr ps v) (hv : R v) :
    ∃ qs u, qs <+: ps ∧ Asked file hdr qs u ∧ R u ∧ ∀ w ∈ qs, ¬ R w := by
  induction hn : ps.length using Nat.strongRecOn generalizing ps v with
  | ind n ih =>
    by_cases hall : ∀ w ∈ ps, ¬ R w
    · exact ⟨ps, v, List.prefix_refl ps, h, hv, hall⟩
    · -- A page in front has the property as well.
      push Not at hall
      obtain ⟨w, hw, hR⟩ := hall
      obtain ⟨front, back, rfl⟩ := List.append_of_mem hw
      rw [List.length_append, List.length_cons] at hn
      obtain ⟨qs, u, hprefix, hu⟩ := ih front.length (by omega) h.before hR rfl
      exact ⟨qs, u, hprefix.trans (List.prefix_append _ _), hu⟩

/-! ## The pages that the loader maps -/

/-- The pages `eps` have been mapped since `m₀`, and nothing else has changed. -/
structure LoadedPages (m₀ m : Machine) (pml4 : Nat) (eps : List ElfPage) : Prop where
  fresh : ∀ ep ∈ eps, translate m₀.mem pml4 ep.vaddr = none
  mapped : ∀ ep ∈ eps, ∃ e, translate m.mem pml4 ep.vaddr = some (0, e)
  others : ∀ virt, (∀ ep ∈ eps, pageNumber virt ≠ pageNumber ep.vaddr) →
    translate m.mem pml4 virt = translate m₀.mem pml4 virt

theorem LoadedPages.congr (hpages : LoadedPages m₀ m pml4 eps)
    (hsame : ∀ virt, translate m'.mem pml4 virt = translate m.mem pml4 virt) :
    LoadedPages m₀ m' pml4 eps := by
  refine ⟨hpages.fresh, fun ep hep => ?_, fun virt hvirt => ?_⟩
  · rw [hsame]
    exact hpages.mapped ep hep
  · rw [hsame]
    exact hpages.others virt hvirt

/-- A page that is not mapped is none of them. -/
theorem LoadedPages.ne (hpages : LoadedPages m₀ m pml4 eps)
    (hnone : translate m.mem pml4 vaddr = none) (hep : ep ∈ eps) :
    pageNumber vaddr ≠ pageNumber ep.vaddr := by
  intro hpage
  obtain ⟨e, he⟩ := hpages.mapped ep hep
  rw [← translate_pageNumber hpage, hnone] at he
  cases he

/-- One more page. -/
theorem LoadedPages.cons {leafFlags phys : Nat} (hpages : LoadedPages m₀ m pml4 eps)
    (hmap : MapsOne m.mem m'.mem pml4 ep.vaddr phys leafFlags) :
    LoadedPages m₀ m' pml4 (ep :: eps) := by
  have hne := fun e (he : e ∈ eps) => hpages.ne hmap.unmapped he
  refine ⟨fun e he => ?_, fun e he => ?_, fun virt hvirt => ?_⟩
  · rcases List.mem_cons.mp he with rfl | he
    · rw [← hpages.others _ hne]
      exact hmap.unmapped
    · exact hpages.fresh e he
  · rcases List.mem_cons.mp he with rfl | he
    · exact ⟨_, hmap.mapped⟩
    · rw [hmap.others e.vaddr (hne e he).symm]
      exact hpages.mapped e he
  · rw [hmap.others virt (hvirt ep (by simp))]
    exact hpages.others virt fun e he => hvirt e (List.mem_cons_of_mem ep he)

/-- What is mapped at an address that was free is mapped in a page table. -/
theorem LoadedPages.level (hpages : LoadedPages m₀ m pml4 eps) {virt l e : Nat}
    (hnone : translate m₀.mem pml4 virt = none) (he : translate m.mem pml4 virt = some (l, e)) :
    l = 0 := by
  by_cases hvirt : ∃ ep ∈ eps, pageNumber virt = pageNumber ep.vaddr
  · obtain ⟨ep, hep, hpage⟩ := hvirt
    obtain ⟨b, hb⟩ := hpages.mapped ep hep
    rw [translate_pageNumber hpage, hb] at he
    cases he
    rfl
  · push Not at hvirt
    rw [hpages.others virt hvirt, hnone] at he
    cases he

/-- What was mapped stays as it was. -/
theorem LoadedPages.keeps (hpages : LoadedPages m₀ m pml4 eps) {virt : Nat}
    (hsome : translate m₀.mem pml4 virt ≠ none) :
    translate m.mem pml4 virt = translate m₀.mem pml4 virt := by
  refine hpages.others virt fun ep hep hpage => hsome ?_
  rw [translate_pageNumber hpage]
  exact hpages.fresh ep hep

/-! ## How far the loader gets -/

/-- The loader has mapped the pages `ps`, one after the other and each for the first time.
`P` is what its rounds keep. -/
structure LoadedUpTo (P : LoadState η → List Nat → Prop) (own : η → List Nat) (pml4 : Nat)
    (m₀ : Machine) (s : LoadState η) (ps : List Nat) : Prop where
  load : ∃ held, LoadInv own pml4 s held ∧ P s held
  loaded : LoadedPages m₀ s.machine pml4 s.pages
  pages : s.pages.map ElfPage.vaddr = ps.reverse
  count : s.pageCount = ps.length
  distinct : (ps.map pageNumber).Nodup

/-- The loader has failed at the page `v` behind the pages `ps`: it has got no frame for it,
or it is the first of the list, and `vmm_map_page` has refused it. -/
structure StoppedAt (P : LoadState η → List Nat → Prop) (own : η → List Nat) (pml4 : Nat)
    (m₀ : Machine) (s : LoadState η) (ps : List Nat) (v : Nat) : Prop where
  load : ∃ held, LoadInv own pml4 s held ∧ P s held
  new : NewPages m₀.mem pml4 ps
  list : ∃ eps, LoadedPages m₀ s.machine pml4 eps ∧ eps.map ElfPage.vaddr = ps.reverse ∧
    (s.pages = eps ∨ ∃ ep, ep.vaddr = v ∧ s.pages = ep :: eps)

/-- How the loop over the program headers ends. -/
inductive EndsAt (P : LoadState η → List Nat → Prop) (own : η → List Nat) (pml4 : Nat)
    (m₀ : Machine) (file : ElfFile) (hdr : ElfHdr) : Bool → LoadState η → Prop
  | done {s : LoadState η} {ps : List Nat} (hall : pagesBefore file hdr hdr.e_phnum = some ps)
      (hloaded : LoadedUpTo P own pml4 m₀ s ps) : EndsAt P own pml4 m₀ file hdr true s
  | header {s : LoadState η} {ps : List Nat} (hfails : HeaderFails file hdr ps)
      (hloaded : LoadedUpTo P own pml4 m₀ s ps) : EndsAt P own pml4 m₀ file hdr false s
  | page {s : LoadState η} {ps : List Nat} {v : Nat} (hasked : Asked file hdr ps v)
      (hstopped : StoppedAt P own pml4 m₀ s ps v) : EndsAt P own pml4 m₀ file hdr false s

theorem EndsAt.load (h : EndsAt P own pml4 m₀ file hdr ok s) :
    ∃ held, LoadInv own pml4 s held ∧ P s held := by
  cases h with
  | done _ hloaded => exact hloaded.load
  | header _ hloaded => exact hloaded.load
  | page _ hstopped => exact hstopped.load

theorem LoadedUpTo.mem_pages (h : LoadedUpTo P own pml4 m₀ s ps) :
    (∀ ep ∈ s.pages, ep.vaddr ∈ ps) ∧ ∀ v ∈ ps, ∃ ep ∈ s.pages, ep.vaddr = v := by
  constructor
  · intro ep hep
    exact List.mem_reverse.mp (h.pages ▸ List.mem_map_of_mem hep)
  · intro v hv
    exact List.mem_map.mp (h.pages ▸ List.mem_reverse.mpr hv)

theorem LoadedUpTo.new (h : LoadedUpTo P own pml4 m₀ s ps) : NewPages m₀.mem pml4 ps := by
  refine ⟨h.distinct, fun v hv => ?_⟩
  obtain ⟨ep, hep, rfl⟩ := h.mem_pages.2 v hv
  exact h.loaded.fresh ep hep

/-- A page that was free and is not one of `ps` is still free. -/
theorem LoadedUpTo.unmapped (h : LoadedUpTo P own pml4 m₀ s ps)
    (hfree : translate m₀.mem pml4 v = none) (hnew : pageNumber v ∉ ps.map pageNumber) :
    translate s.machine.mem pml4 v = none := by
  rw [h.loaded.others v fun ep hep hpage => ?_, hfree]
  exact hnew (hpage ▸ List.mem_map_of_mem (h.mem_pages.1 ep hep))

theorem loadPage_count (heq : loadPage K file pml4 ph p s = (true, s')) :
    s'.pageCount = s.pageCount + 1 := by
  unfold loadPage at heq
  dsimp only at heq
  split_ifs at heq
  · cases heq
  · cases heq
  · rw [← (Prod.mk.inj heq).2]

/-- One more page, or the loader stops. -/
theorem LoadedUpTo.page {okay : Nat → Prop} (h : LoadedUpTo P own pml4 m₀ s ps)
    (hsound : K.Sound own) (hkept : Kept own pml4 okay P) (hokay : okay (ph.pageVaddr p))
    (heq : loadPage K file pml4 ph p s = (ok, s')) :
    (ok = true → LoadedUpTo P own pml4 m₀ s' (ps ++ [ph.pageVaddr p])) ∧
      (ok = false → StoppedAt P own pml4 m₀ s' ps (ph.pageVaddr p)) := by
  obtain ⟨held, hinv, hP⟩ := h.load
  obtain ⟨ok₁, s₁, held₁, hload, hstep, htaken, -⟩ := loadPage_spec hsound hinv file ph p
  rw [heq] at hload
  cases hload
  have hnext := hkept.page hokay hinv hP hstep
  have hlist := h.pages
  constructor
  · rintro rfl
    rcases htaken with ⟨hfail, -⟩ | ⟨ep, hvaddr, hcons, ⟨-, leafFlags, hmap⟩ | ⟨hfail, -⟩⟩
    · cases hfail
    · rw [← hvaddr] at hmap
      refine ⟨⟨held₁, hstep.inv, hnext⟩, ?_, ?_, ?_, ?_⟩
      · rw [hcons]
        exact h.loaded.cons hmap
      · rw [hcons, List.map_cons, hvaddr, hlist, List.reverse_concat]
      · rw [loadPage_count heq, h.count, List.length_append]
        rfl
      · -- A page that is mapped already would have been refused.
        rw [List.map_append, List.nodup_append]
        refine ⟨h.distinct, List.nodup_singleton _, fun a ha b hb hab => ?_⟩
        rw [List.map_singleton, List.mem_singleton] at hb
        obtain ⟨v, hv, hpage⟩ := List.mem_map.mp ha
        obtain ⟨e, he, rfl⟩ := h.mem_pages.2 v hv
        rw [hvaddr] at hmap
        exact h.loaded.ne hmap.unmapped he (hpage.trans (hab.trans hb)).symm
    · cases hfail
  · rintro rfl
    refine ⟨⟨held₁, hstep.inv, hnext⟩, h.new, s.pages, ?_⟩
    rcases htaken with ⟨-, hsame, hkeep⟩ | ⟨ep, hvaddr, hcons, ⟨hfail, -⟩ | ⟨-, hkeep⟩⟩
    · exact ⟨h.loaded.congr hkeep, hlist, .inl hsame⟩
    · cases hfail
    · exact ⟨h.loaded.congr hkeep, hlist, .inr ⟨ep, hvaddr, hcons⟩⟩

/-- The inner loop. -/
theorem loadPages_ends {okay : Nat → Prop} (hsound : K.Sound own) (hkept : Kept own pml4 okay P)
    (n p : Nat) (h : LoadedUpTo P own pml4 m₀ s ps)
    (hokay : ∀ k < n, NewPages m₀.mem pml4 (ps ++ ph.pagesFrom p k) → okay (ph.pageVaddr (p + k)))
    (heq : loadPages K file pml4 ph n p s = (ok, s')) :
    (ok = true → LoadedUpTo P own pml4 m₀ s' (ps ++ ph.pagesFrom p n)) ∧
      (ok = false → ∃ k < n,
        StoppedAt P own pml4 m₀ s' (ps ++ ph.pagesFrom p k) (ph.pageVaddr (p + k))) := by
  induction n generalizing p s ps with
  | zero =>
    cases heq
    rw [pagesFrom_zero, List.append_nil]
    exact ⟨fun _ => h, by simp⟩
  | succ n ih =>
    rw [loadPages] at heq
    rcases hload : loadPage K file pml4 ph p s with ⟨ok₁, s₁⟩
    have hfirst : okay (ph.pageVaddr p) := by
      refine hokay 0 (Nat.succ_pos n) ?_
      rw [pagesFrom_zero, List.append_nil]
      exact h.new
    obtain ⟨hmore, hstop⟩ := h.page hsound hkept hfirst hload
    rw [hload] at heq
    cases ok₁ with
    | false =>
      cases heq
      refine ⟨by simp, fun _ => ⟨0, Nat.succ_pos n, ?_⟩⟩
      rw [pagesFrom_zero, List.append_nil]
      exact hstop rfl
    | true =>
      have hshift : ∀ k, ps ++ [ph.pageVaddr p] ++ ph.pagesFrom (p + 1) k =
          ps ++ ph.pagesFrom p (k + 1) := by
        intro k
        rw [pagesFrom_succ, List.append_assoc]
        rfl
      obtain ⟨hall, hsome⟩ := ih (p + 1) (hmore rfl)
        (fun k hk hnew => by
          rw [Nat.add_assoc, Nat.add_comm 1 k]
          exact hokay (k + 1) (by omega) (hshift k ▸ hnew)) heq
      refine ⟨fun hok => hshift n ▸ hall hok, fun hok => ?_⟩
      obtain ⟨k, hk, hstopped⟩ := hsome hok
      rw [hshift k, Nat.add_assoc, Nat.add_comm 1 k] at hstopped
      exact ⟨k + 1, by omega, hstopped⟩

/-- The outer loop: a property that is kept at each page that the file asks for once new
pages are loaded is kept until the loop ends. -/
theorem loadSegments_ends (hsound : K.Sound own)
    (hkept : Kept own pml4
      (fun v => ∃ ps, Asked file hdr ps v ∧ NewPages m₀.mem pml4 ps) P)
    (n i : Nat) (hn : i + n = hdr.e_phnum) (h : LoadedUpTo P own pml4 m₀ s ps)
    (hbefore : pagesBefore file hdr i = some ps)
    (heq : loadSegments K file pml4 hdr n i s = (ok, s')) :
    EndsAt P own pml4 m₀ file hdr ok s' := by
  induction n generalizing i s ps with
  | zero =>
    cases heq
    rw [Nat.add_zero] at hn
    exact .done (hn ▸ hbefore) h
  | succ n ih =>
    rw [loadSegments] at heq
    cases hread : readPhdr file hdr i with
    | none =>
      rw [hread] at heq
      cases heq
      refine .header ⟨i, by omega, hbefore, ?_⟩ h
      rw [pagesBefore, hbefore, hread]
      rfl
    | some ph =>
      have hnext := pagesBefore_succ hbefore hread
      rw [hread] at heq
      dsimp only at heq
      by_cases htype : ph.p_type ≠ PT_LOAD
      · rw [if_pos htype] at heq hnext
        exact ih (i + 1) (by omega) h hnext heq
      rw [if_neg htype] at heq hnext
      rw [h.count] at heq
      by_cases hcheck : s32 (ps.length + ph.pagesNeeded) > ELF_MAX_PAGES
      · rw [if_pos hcheck] at heq hnext
        cases heq
        exact .header ⟨i, by omega, hbefore, hnext⟩ h
      rw [if_neg hcheck] at heq hnext
      have hsegment : Segment file hdr i ps ph :=
        ⟨by omega, hbefore, hread, not_not.mp htype, not_lt.mp hcheck⟩
      have hasked : ∀ k < ph.pagesNeeded,
          Asked file hdr (ps ++ ph.pagesFrom 0 k) (ph.pageVaddr (0 + k)) := by
        intro k hk
        rw [Nat.zero_add]
        exact ⟨i, ps, ph, k, hsegment, hk, rfl, rfl⟩
      rcases hload : loadPages K file pml4 ph ph.pagesNeeded 0 s with ⟨ok₁, s₁⟩
      obtain ⟨hall, hsome⟩ := loadPages_ends hsound hkept _ 0 h
        (fun k hk hnew => ⟨_, hasked k hk, hnew⟩) hload
      rw [hload] at heq
      cases ok₁ with
      | false =>
        cases heq
        obtain ⟨k, hk, hstopped⟩ := hsome rfl
        exact .page (hasked k hk) hstopped
      | true => exact ih (i + 1) (by omega) (hall rfl) hnext heq

/-! ## `elf_load` -/

/-- The state in which `elf_load` starts its loop. -/
def startState (h : η) (m : Machine) : LoadState η :=
  { heap := h, machine := m, pages := [], pageCount := 0 }

/-- Where the loop over the segments ends, if `elf_load` gets there. -/
def loadRun (K : NodeHeap η) (file : ElfFile) (pml4 : Nat) (h : η) (m : Machine) :
    Option (Bool × LoadState η) :=
  if pml4 = 0 then none
  else (readHdr file).map fun hdr =>
    loadSegments K file pml4 hdr hdr.e_phnum 0 (startState h m)

/-- What `elf_load` does after the loop. -/
def afterRun (K : NodeHeap η) (pml4 : Nat) (h : η) (m : Machine) :
    Option (Bool × LoadState η) → η × Machine
  | none => (h, m)
  | some (false, s) => elfCleanup K pml4 s.heap s.machine s.pages
  | some (true, s) => elfFreeNodes K s.heap s.machine s.pages

theorem elfLoad_afterRun (K : NodeHeap η) (file : ElfFile) (pml4 : Nat) (h : η) (m : Machine) :
    (elfLoad K file pml4 h m).2 = afterRun K pml4 h m (loadRun K file pml4 h m) := by
  unfold elfLoad loadRun
  split
  · rfl
  · cases readHdr file with
    | none => rfl
    | some hdr =>
      dsimp only [Option.map_some, startState]
      rcases loadSegments K file pml4 hdr hdr.e_phnum 0
          { heap := h, machine := m, pages := [], pageCount := 0 }
        with ⟨ok, s⟩
      cases ok <;> rfl

/-- Nothing is loaded at first. -/
theorem loadedUpTo_start {h : η} (hspace : Space m pml4 (own h) held)
    (hP : P (startState h m) held) : LoadedUpTo P own pml4 m (startState h m) [] :=
  ⟨⟨held, ⟨hspace, by simp [startState], by simp [startState]⟩, hP⟩,
    ⟨by simp [startState], by simp [startState], fun _ _ => rfl⟩, rfl, rfl, List.nodup_nil⟩

/-- How the loop ends. -/
theorem loadRun_ends {h : η} (hsound : K.Sound own) (hspace : Space m pml4 (own h) held)
    (hkept : ∀ hdr, readHdr file = some hdr → Kept own pml4
      (fun v => ∃ ps, Asked file hdr ps v ∧ NewPages m.mem pml4 ps) P)
    (hP : P (startState h m) held) (hrun : loadRun K file pml4 h m = some (ok, s)) :
    ∃ hdr, readHdr file = some hdr ∧ EndsAt P own pml4 m file hdr ok s := by
  unfold loadRun at hrun
  split at hrun
  · cases hrun
  obtain ⟨hdr, hhdr, hload⟩ := Option.map_eq_some_iff.mp hrun
  exact ⟨hdr, hhdr, loadSegments_ends hsound (hkept hdr hhdr) _ 0 (Nat.zero_add _)
    (loadedUpTo_start hspace hP) rfl hload⟩

/-- The value that `elf_load` returns. -/
theorem elfLoad_fst {h : η} (hpml4 : pml4 ≠ 0) (hhdr : readHdr file = some hdr)
    (hrun : loadRun K file pml4 h m = some (ok, s)) :
    (elfLoad K file pml4 h m).1 = if ok then hdr.e_entry else 0 := by
  unfold loadRun at hrun
  rw [if_neg hpml4, hhdr, Option.map_some, Option.some.injEq] at hrun
  unfold startState at hrun
  unfold elfLoad
  rw [if_neg hpml4, hhdr]
  dsimp only
  rw [hrun]
  cases ok <;> rfl

/-! ## The small program -/

theorem tinyElf_hdr : readHdr (elfFileOf (tinyElf 0x8000000000)) = some tinyHdr := by
  decide +kernel

/-- It has one page. -/
theorem tinyElf_before :
    pagesBefore (elfFileOf (tinyElf 0x8000000000)) tinyHdr 1 = some [0x8000000000] := by
  decide +kernel

theorem tinyElf_headers (hhdr : readHdr (elfFileOf (tinyElf 0x8000000000)) = some hdr) :
    ¬ HeaderFails (elfFileOf (tinyElf 0x8000000000)) hdr ps := by
  rw [tinyElf_hdr] at hhdr
  cases hhdr
  rintro ⟨i, hi, -, hnone⟩
  obtain rfl : i = 0 := Nat.lt_one_iff.mp hi
  rw [tinyElf_before] at hnone
  cases hnone

theorem tinyElf_asked (hhdr : readHdr (elfFileOf (tinyElf 0x8000000000)) = some hdr)
    (hasked : Asked (elfFileOf (tinyElf 0x8000000000)) hdr ps v) :
    ps = [] ∧ v = 0x8000000000 := by
  rw [tinyElf_hdr] at hhdr
  cases hhdr
  obtain ⟨i, ps₀, ph, p, hsegment, hp, rfl, rfl⟩ := hasked
  obtain rfl : i = 0 := Nat.lt_one_iff.mp hsegment.header
  have hnext := hsegment.next
  rw [tinyElf_before] at hnext
  obtain rfl : [] = ps₀ := Option.some.inj hsegment.before
  have hlength : 1 = ph.pagesNeeded := by
    have := congrArg List.length (Option.some.inj hnext)
    rwa [List.nil_append, length_pagesFrom] at this
  obtain rfl : p = 0 := by omega
  rw [← hlength, pagesFrom_succ] at hnext
  exact ⟨rfl, (List.cons.inj (Option.some.inj hnext)).1.symm⟩

end Lumin.Proc
