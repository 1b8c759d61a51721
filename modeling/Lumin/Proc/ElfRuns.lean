import Lumin.Proc.ElfPages

/-!
# Loads that get to a page

A file is loaded with enough frames and with a kernel heap that has nodes for as many
pages as one likes, and no more.

* `exists_frames` are enough frames for any file, whatever memory holds.
* `Supplied` is the state of such a load, and `loadSegments_supplied` takes it to each
  header in front of which there are only new pages.
* `loadSegments_asked` is the load that gets to a page that the file asks for and then
  runs out of nodes, `loadSegments_fails` the one that fails behind the pages `ps`.
-/

namespace Lumin.Proc

open Lumin.Lib Lumin.Mm

/-! ## Frames -/

/-- As many different frames as one needs, none of which is in use. -/
theorem exists_frames (used : List Nat) (n : Nat) (hn : used.length + n < 2 ^ 52) :
    ∃ frames : List Nat, frames.length = n ∧ frames.Nodup ∧
      ∀ f ∈ frames, IsFrame f ∧ f ∉ used := by
  induction n with
  | zero => exact ⟨[], rfl, List.nodup_nil, by simp⟩
  | succ n ih =>
    obtain ⟨frames, hlength, hnodup, hframes⟩ := ih (by omega)
    -- There are more frames than those that are taken.
    obtain ⟨f, hf, hfree⟩ : ∃ f, IsFrame f ∧ f ∉ used ++ frames := by
      by_contra hall
      push Not at hall
      have hsub : (List.range' 1 (2 ^ 52 - 1)).map (0x1000 * ·) ⊆ used ++ frames := by
        intro f hf
        obtain ⟨i, hi, rfl⟩ := List.mem_map.mp hf
        rw [List.mem_range'_1] at hi
        exact hall _ ⟨by omega, by omega, by omega⟩
      have hle := (List.subperm_of_subset
        (List.Nodup.map (fun a b hab => Nat.eq_of_mul_eq_mul_left (by decide) hab)
          List.nodup_range') hsub).length_le
      rw [List.length_map, List.length_range', List.length_append, hlength] at hle
      omega
    rw [List.mem_append, not_or] at hfree
    refine ⟨f :: frames, by rw [List.length_cons, hlength],
      List.nodup_cons.mpr ⟨hfree.2, hnodup⟩, fun g hg => ?_⟩
    rcases List.mem_cons.mp hg with rfl | hg
    · exact ⟨hf, hfree.1⟩
    · exact hframes g hg

/-- Memory with free frames. -/
def machineWith (mem : Mem) (frames : List Nat) : Machine :=
  { emptyMachine frames with mem := mem }

/-- A space on any memory with a tree of tables, and frames for the pages of any file, all
of them outside of `used`. -/
theorem exists_space {mem : Mem} {pml4 : Nat} (htree : TreeOk mem 3 pml4) {used : List Nat}
    (hused : used.length ≤ 2 ^ 40) {n : Nat} (hn : n ≤ 2 ^ 40) :
    ∃ frames, n ≤ (popOrder (machineWith mem frames).pmm).length ∧
      (∀ f ∈ popOrder (machineWith mem frames).pmm, f ∉ used) ∧
      Space (machineWith mem frames) pml4 [] [] := by
  have htables : (tables mem 3 pml4).length ≤ 513 ^ 3 := by
    have hle := Radix.length_nodes_le (pageStore mem) tableSlots 3 pml4
    have hslots : tableSlots.length = 512 := by
      unfold tableSlots
      exact List.length_finRange
    rw [hslots] at hle
    exact hle
  obtain ⟨frames, hlength, hnodup, hframes⟩ := exists_frames (tables mem 3 pml4 ++ used) n (by
    rw [List.length_append]
    omega)
  have hpop : popOrder (machineWith mem frames).pmm = frames := popOrder_empty frames
  refine ⟨frames, (hpop ▸ hlength).ge, fun f hf hmem => ?_, htree,
    ⟨?_, fun f hf => ?_, fun f hf hmem => ?_⟩, by simp⟩
  · exact (hframes f (hpop ▸ hf)).2 (List.mem_append_right _ hmem)
  · rw [hpop, List.append_nil]
    exact hnodup
  · rw [hpop, List.append_nil] at hf
    exact (hframes f hf).1
  · rw [hpop, List.append_nil] at hf
    rw [List.append_nil] at hmem
    exact (hframes f hf).2 (List.mem_append_left _ hmem)

/-! ## Nodes -/

/-- A kernel heap with `limit` nodes. -/
def limitedHeap (limit : Nat) : NodeHeap Nat where
  kmalloc n m := if n < limit then (n + 1, n + 1, m) else (0, n, m)
  kfree n _ m := (n, m)

theorem limitedHeap_sound (limit : Nat) : (limitedHeap limit).Sound fun _ => [] := by
  refine ⟨fun h m _ => ?_, fun _ _ _ _ => ⟨List.Perm.refl _, fun _ _ _ => rfl⟩⟩
  unfold limitedHeap
  dsimp only
  split <;> exact ⟨List.Perm.refl _, fun _ _ _ => rfl⟩

variable {file : ElfFile} {hdr : ElfHdr} {ph : ElfPhdr} {limit pml4 v p n i k : Nat}
  {m₀ : Machine} {t t' : LoadState Nat} {ps : List Nat} {held : List Nat} {ok : Bool}
  {P : LoadState Nat → List Nat → Prop}

/-- Without nodes a round fails and changes nothing. -/
theorem loadPage_spent (hspent : limit ≤ t.heap) (p : Nat) :
    loadPage (limitedHeap limit) file pml4 ph p t = (false, t) := by
  unfold loadPage limitedHeap
  dsimp only
  rw [if_neg (not_lt.mpr hspent)]
  rfl

theorem loadPages_spent (file : ElfFile) (pml4 : Nat) (ph : ElfPhdr) (hspent : limit ≤ t.heap)
    (n p : Nat) :
    ∃ ok, loadPages (limitedHeap limit) file pml4 ph n p t = (ok, t) := by
  cases n with
  | zero => exact ⟨true, rfl⟩
  | succ n =>
    refine ⟨false, ?_⟩
    rw [loadPages, loadPage_spent hspent]

theorem loadSegments_spent (hspent : limit ≤ t.heap) (n i : Nat) :
    ∃ ok, loadSegments (limitedHeap limit) file pml4 hdr n i t = (ok, t) := by
  induction n generalizing i with
  | zero => exact ⟨true, rfl⟩
  | succ n ih =>
    rw [loadSegments]
    cases readPhdr file hdr i with
    | none => exact ⟨false, rfl⟩
    | some ph =>
      dsimp only
      split
      · exact ih (i + 1)
      split
      · exact ⟨false, rfl⟩
      · obtain ⟨ok, hpages⟩ := loadPages_spent file pml4 ph hspent ph.pagesNeeded 0
        rw [hpages]
        cases ok with
        | false => exact ⟨false, rfl⟩
        | true => exact ih (i + 1)

/-- A load with nodes for `k` more pages and frames for them. -/
structure Supplied (P : LoadState Nat → List Nat → Prop) (limit pml4 : Nat) (m₀ : Machine)
    (t : LoadState Nat) (ps : List Nat) (k : Nat) : Prop where
  upTo : LoadedUpTo P (fun _ => []) pml4 m₀ t ps
  null : 0 ∉ tables t.machine.mem 3 pml4
  nodes : t.heap = ps.length
  limit : ps.length + k = limit
  frames : 4 * k ≤ (popOrder t.machine.pmm).length

/-- With a node and four frames a round enters its page into the list, and the page gets
mapped if it is free. -/
theorem loadPage_entered (hinv : LoadInv (fun _ => []) pml4 t held) (hnode : t.heap < limit)
    (hnull : 0 ∉ tables t.machine.mem 3 pml4) (hframes : 4 ≤ (popOrder t.machine.pmm).length)
    (heq : loadPage (limitedHeap limit) file pml4 ph p t = (ok, t')) :
    t'.heap = t.heap + 1 ∧ t'.pageCount = t.pageCount + 1 ∧
      (∃ ep, ep.vaddr = ph.pageVaddr p ∧ t'.pages = ep :: t.pages) ∧
      0 ∉ tables t'.machine.mem 3 pml4 ∧ TakesAtMost 4 t.machine t'.machine ∧
      (translate t.machine.mem pml4 (ph.pageVaddr p) = none → ok = true) := by
  rcases hinv.space.alloc with ⟨-, hnil⟩ | ⟨phys, m₁, halloc, hframe, -, htables, hmem, hpop,
      hspace⟩
  · rw [hnil] at hframes
    cases hframes
  set mem₂ := fillPage file ph m₁.mem (ph.pageVaddr p) phys with hmem₂
  have houtside : ∀ x, pageDown x ≠ phys → mem₂ x = m₁.mem x :=
    fun x hx => fillPage_outside hframe.1 hx
  have hspace₂ : Space { m₁ with mem := mem₂ } pml4 [] (phys :: held) :=
    hspace.write List.mem_cons_self houtside
  have hsame : ∀ x, pageDown x ∈ tables t.machine.mem 3 pml4 → mem₂ x = t.machine.mem x := by
    intro x hx
    rw [houtside x (fun heq => htables (heq ▸ hx)), hmem]
  have hnull₂ : 0 ∉ tables mem₂ 3 pml4 := by
    rw [tables_congr hinv.space.tree.aligned hsame]
    exact hnull
  rw [hpop, List.length_cons] at hframes
  have hnz := hspace₂.freeOk.ne_zero
  have hserved :=
    mapAnswers_of_length hnz (show 3 ≤ _ by exact Nat.le_of_succ_le_succ hframes)
    (tableFlags ph.flags)
    (ph.pageVaddr p) pml4
  have hzero : translate mem₂ pml4 (ph.pageVaddr p) = none →
      (mapFrom (tableFlags ph.flags) (phys ||| ph.flags ||| PAGE_PRESENT) (ph.pageVaddr p) 3
        { m₁ with mem := mem₂ } pml4).1 = 0 :=
    fun hnone => mapFrom_served (le_refl 3) hspace₂.tree hspace₂.freeOk hnull₂ hserved hnone
  have htakes :=
    mapFrom_takes hnz (tableFlags ph.flags) (phys ||| ph.flags ||| PAGE_PRESENT)
    (ph.pageVaddr p) 3 pml4
  rw [← vmmMapPage_eq] at hzero htakes
  obtain ⟨r, m', new, hmap, hext, -⟩ := hspace₂.map (ph.pageVaddr p) hframe (flags_lt ph)
  rw [hmap] at hzero htakes
  have hone : TakesAtMost 1 t.machine { m₁ with mem := mem₂ } := ⟨[phys], le_refl 1, hpop⟩
  have hrun : loadPage (limitedHeap limit) file pml4 ph p t = (decide (r = 0),
      ⟨t.heap + 1, m', ⟨t.heap + 1, ph.pageVaddr p, phys⟩ :: t.pages, t.pageCount + 1⟩) := by
    unfold loadPage limitedHeap
    dsimp only
    rw [if_pos hnode]
    dsimp only
    rw [if_neg (Nat.succ_ne_zero _), halloc]
    dsimp only
    rw [if_neg hframe.2.1.ne', ← hmem₂, hmap]
  rw [hrun] at heq
  obtain ⟨rfl, rfl⟩ := Prod.mk.inj heq
  refine ⟨rfl, rfl, ⟨_, rfl, rfl⟩, hext.null hspace₂.freeOk hnull₂, hone.trans htakes,
    fun hnone => decide_eq_true (hzero ?_)⟩
  rw [← hnone]
  exact walkFrom_congr hinv.space.tree.aligned hsame

/-- One more page. -/
theorem Supplied.page (file : ElfFile) (h : Supplied P limit pml4 m₀ t ps (k + 1))
    (hkept : Kept (fun _ => []) pml4 (fun _ => True) P)
    (hnew : NewPages m₀.mem pml4 (ps ++ [ph.pageVaddr p])) :
    ∃ t', loadPage (limitedHeap limit) file pml4 ph p t = (true, t') ∧
      Supplied P limit pml4 m₀ t' (ps ++ [ph.pageVaddr p]) k := by
  have hlimit := h.limit
  have hframes := h.frames
  have hnodes := h.nodes
  obtain ⟨held, hinv, -⟩ := h.upTo.load
  obtain ⟨hnodup, hnone⟩ := hnew
  have hunmapped : translate t.machine.mem pml4 (ph.pageVaddr p) = none := by
    refine h.upTo.unmapped (hnone _ (by simp)) fun hmem => ?_
    rw [List.map_append, List.nodup_append] at hnodup
    exact hnodup.2.2 _ hmem _ (by simp) rfl
  rcases hload : loadPage (limitedHeap limit) file pml4 ph p t with ⟨ok, t'⟩
  obtain ⟨hheap, -, -, hnull, htakes, hok⟩ :=
    loadPage_entered hinv (by omega) h.null (by omega) hload
  obtain rfl := hok hunmapped
  have hlength := htakes.length
  refine ⟨t', rfl, (h.upTo.page (limitedHeap_sound limit) hkept trivial hload).1 rfl, hnull, ?_,
    ?_, by omega⟩
  · rw [hheap, hnodes, List.length_append]
    rfl
  · rw [List.length_append, List.length_singleton]
    omega

/-- The loop over new pages gets through. -/
theorem Supplied.pages (file : ElfFile) (n p : Nat) (h : Supplied P limit pml4 m₀ t ps (n + k))
    (hkept : Kept (fun _ => []) pml4 (fun _ => True) P)
    (hnew : NewPages m₀.mem pml4 (ps ++ ph.pagesFrom p n)) :
    ∃ t', loadPages (limitedHeap limit) file pml4 ph n p t = (true, t') ∧
      Supplied P limit pml4 m₀ t' (ps ++ ph.pagesFrom p n) k := by
  induction n generalizing p t ps with
  | zero =>
    rw [Nat.zero_add] at h
    refine ⟨t, rfl, ?_⟩
    rw [pagesFrom_zero, List.append_nil]
    exact h
  | succ n ih =>
    rw [pagesFrom_succ, List.append_cons] at hnew ⊢
    rw [Nat.add_right_comm] at h
    obtain ⟨t₁, hload, h₁⟩ := h.page file hkept hnew.left
    obtain ⟨t', hrest, hdone⟩ := ih (p + 1) h₁ hnew
    refine ⟨t', ?_, hdone⟩
    rw [loadPages, hload]
    exact hrest

/-- The load of the segments in front of a header, if all their pages are new. -/
theorem loadSegments_supplied (h : Supplied P limit pml4 m₀ t [] limit)
    (hkept : Kept (fun _ => []) pml4 (fun _ => True) P) (i : Nat) (hi : i ≤ hdr.e_phnum)
    (hbefore : pagesBefore file hdr i = some ps) (hnew : NewPages m₀.mem pml4 ps)
    (hlimit : ps.length + k = limit) :
    ∃ t', loadSegments (limitedHeap limit) file pml4 hdr hdr.e_phnum 0 t =
        loadSegments (limitedHeap limit) file pml4 hdr (hdr.e_phnum - i) i t' ∧
      Supplied P limit pml4 m₀ t' ps k := by
  induction i generalizing ps k with
  | zero =>
    cases hbefore
    rw [List.length_nil, Nat.zero_add] at hlimit
    subst hlimit
    exact ⟨t, rfl, h⟩
  | succ i ih =>
    have hleft : hdr.e_phnum - i = hdr.e_phnum - (i + 1) + 1 := by omega
    obtain ⟨ps₀, ph, hbefore₀, hread, ⟨htype, rfl⟩ | ⟨hsegment, rfl⟩⟩ :=
      pagesBefore_cases hi hbefore
    · obtain ⟨t', hrun, hsupplied⟩ := ih (by omega) hbefore₀ hnew hlimit
      rw [hleft, loadSegments, hread] at hrun
      dsimp only at hrun
      rw [if_pos htype] at hrun
      exact ⟨t', hrun, hsupplied⟩
    · rw [List.length_append, length_pagesFrom, Nat.add_assoc] at hlimit
      obtain ⟨t', hrun, hsupplied⟩ := ih (by omega) hbefore₀ hnew.left hlimit
      obtain ⟨t₁, hload, h₁⟩ := hsupplied.pages file ph.pagesNeeded 0 hkept hnew
      refine ⟨t₁, ?_, h₁⟩
      rw [hleft, loadSegments, hread] at hrun
      dsimp only at hrun
      rw [if_neg (not_not.mpr hsegment.load), hsupplied.upTo.count,
        if_neg (not_lt.mpr hsegment.passes), hload] at hrun
      exact hrun

/-- After `n` rounds the loop goes on from where they lead. -/
theorem loadPages_add {η : Type} {K : NodeHeap η} {s s' : LoadState η} (n k p : Nat)
    (heq : loadPages K file pml4 ph n p s = (true, s')) :
    loadPages K file pml4 ph (n + k) p s = loadPages K file pml4 ph k (p + n) s' := by
  induction n generalizing p s with
  | zero =>
    cases heq
    rw [Nat.zero_add, Nat.add_zero]
  | succ n ih =>
    rw [loadPages] at heq
    rcases hload : loadPage K file pml4 ph p s with ⟨ok, s₁⟩
    rw [hload] at heq
    cases ok with
    | false => cases heq
    | true =>
      rw [Nat.add_right_comm, loadPages, hload]
      dsimp only
      rw [ih (p + 1) heq, Nat.add_assoc, Nat.add_comm 1 n]

/-- A load that gets to a page that the file asks for, with the last node: it ends right
behind the page, and the page is in the list. -/
theorem loadSegments_asked (h : Supplied P limit pml4 m₀ t [] limit)
    (hkept : Kept (fun _ => []) pml4 (fun _ => True) P) (hasked : Asked file hdr ps v)
    (hnew : NewPages m₀.mem pml4 ps) (hlimit : ps.length + 1 = limit) :
    ∃ ok t', loadSegments (limitedHeap limit) file pml4 hdr hdr.e_phnum 0 t = (ok, t') ∧
      t'.pageCount = limit ∧ (∃ ep ∈ t'.pages, ep.vaddr = v) ∧
      (NewPages m₀.mem pml4 (ps ++ [v]) →
        LoadedUpTo P (fun _ => []) pml4 m₀ t' (ps ++ [v])) ∧
      (translate m₀.mem pml4 v ≠ none →
        ok = false ∧ StoppedAt P (fun _ => []) pml4 m₀ t' ps v) := by
  obtain ⟨i, ps₀, ph, p, hsegment, hp, rfl, rfl⟩ := hasked
  have hheader := hsegment.header
  rw [List.length_append, length_pagesFrom] at hlimit
  obtain ⟨t₁, hrun, h₁⟩ := loadSegments_supplied h hkept i hheader.le hsegment.before hnew.left
    (show ps₀.length + (p + 1) = limit by omega)
  obtain ⟨t₂, hpages, h₂⟩ := h₁.pages file p 0 hkept hnew
  obtain ⟨held, hinv, -⟩ := h₂.upTo.load
  have hnodes := h₂.nodes
  have hlimit₂ := h₂.limit
  rcases hpage : loadPage (limitedHeap limit) file pml4 ph p t₂ with ⟨ok₁, t₃⟩
  obtain ⟨hheap, hcount, ⟨ep, hvaddr, hlist⟩, -, -, hok⟩ :=
    loadPage_entered hinv (by omega) h₂.null h₂.frames hpage
  obtain ⟨hmore, hstop⟩ := h₂.upTo.page (limitedHeap_sound limit) hkept trivial hpage
  -- Behind the page nothing happens any more.
  have hend : ∃ ok, loadSegments (limitedHeap limit) file pml4 hdr hdr.e_phnum 0 t = (ok, t₃) ∧
      (ok₁ = false → ok = false) := by
    have hleft : hdr.e_phnum - i = hdr.e_phnum - i - 1 + 1 := by omega
    obtain ⟨rest, hrest⟩ : ∃ rest, ph.pagesNeeded = p + (rest + 1) :=
      ⟨ph.pagesNeeded - p - 1, by omega⟩
    have hloop : loadPages (limitedHeap limit) file pml4 ph ph.pagesNeeded 0 t₁ =
        loadPages (limitedHeap limit) file pml4 ph (rest + 1) p t₂ := by
      rw [hrest, loadPages_add p (rest + 1) 0 hpages, Nat.zero_add]
    rw [loadPages, hpage] at hloop
    rw [hrun, hleft, loadSegments, hsegment.read]
    dsimp only
    rw [if_neg (not_not.mpr hsegment.load), h₁.upTo.count, if_neg (not_lt.mpr hsegment.passes),
      hloop]
    cases ok₁ with
    | false => exact ⟨false, rfl, fun _ => rfl⟩
    | true =>
      have hspent : limit ≤ t₃.heap := by omega
      obtain ⟨ok₂, hpages₂⟩ :=
        loadPages_spent file pml4 ph hspent rest (p + 1)
      dsimp only
      rw [hpages₂]
      cases ok₂ with
      | false => exact ⟨false, rfl, by simp⟩
      | true =>
        obtain ⟨ok, hsegments⟩ := loadSegments_spent hspent (hdr.e_phnum - i - 1) (i + 1)
        exact ⟨ok, hsegments, by simp⟩
  obtain ⟨ok, hend, hfail⟩ := hend
  refine ⟨ok, t₃, hend, ?_, ⟨ep, hlist ▸ List.mem_cons_self, hvaddr⟩, fun hall => ?_,
    fun hsome => ?_⟩
  · rw [hcount, h₂.upTo.count]
    omega
  · have hnone : translate m₀.mem pml4 (ph.pageVaddr p) = none := hall.2 _ (by simp)
    obtain rfl := hok (h₂.upTo.unmapped hnone fun hmem => by
      have hnodup := hall.1
      rw [List.map_append, List.nodup_append] at hnodup
      exact hnodup.2.2 _ hmem _ (by simp) rfl)
    exact hmore rfl
  · cases ok₁ with
    | false => exact ⟨hfail rfl, hstop rfl⟩
    | true =>
      exact absurd ((hmore rfl).new.2 _ (by simp)) hsome

/-- A load that fails behind the pages `ps`, at a header or for want of a node. -/
theorem loadSegments_fails (h : Supplied P limit pml4 m₀ t [] limit)
    (hkept : Kept (fun _ => []) pml4 (fun _ => True) P)
    (hfail : MayFail file hdr ps)
    (hnew : NewPages m₀.mem pml4 ps) (hlimit : ps.length = limit) :
    ∃ t', loadSegments (limitedHeap limit) file pml4 hdr hdr.e_phnum 0 t = (false, t') ∧
      LoadedUpTo P (fun _ => []) pml4 m₀ t' ps := by
  rcases hfail with ⟨i, hi, hbefore, hfails⟩ | ⟨v, i, ps₀, ph, p, hsegment, hp, rfl, rfl⟩
  · obtain ⟨t₁, hrun, h₁⟩ :=
      loadSegments_supplied (k := 0) h hkept i hi.le hbefore hnew hlimit
    refine ⟨t₁, ?_, h₁.upTo⟩
    rw [hrun, show hdr.e_phnum - i = hdr.e_phnum - i - 1 + 1 by omega, loadSegments]
    cases hread : readPhdr file hdr i with
    | none => rfl
    | some ph =>
      rw [pagesBefore_succ hbefore hread] at hfails
      dsimp only
      split_ifs at hfails with htype hcheck
      rw [if_neg htype, h₁.upTo.count, if_pos hcheck]
  · have hheader := hsegment.header
    rw [List.length_append, length_pagesFrom] at hlimit
    obtain ⟨t₁, hrun, h₁⟩ :=
      loadSegments_supplied h hkept i hheader.le hsegment.before hnew.left hlimit
    obtain ⟨t₂, hpages, h₂⟩ := h₁.pages (k := 0) file p 0 hkept hnew
    have hnodes := h₂.nodes
    have hlimit₂ := h₂.limit
    obtain ⟨rest, hrest⟩ : ∃ rest, ph.pagesNeeded = p + (rest + 1) :=
      ⟨ph.pagesNeeded - p - 1, by omega⟩
    have hloop :
        loadPages (limitedHeap limit) file pml4 ph ph.pagesNeeded 0 t₁ = (false, t₂) := by
      rw [hrest, loadPages_add p (rest + 1) 0 hpages, Nat.zero_add, loadPages,
        loadPage_spent (by omega)]
    refine ⟨t₂, ?_, h₂.upTo⟩
    rw [hrun, show hdr.e_phnum - i = hdr.e_phnum - i - 1 + 1 by omega, loadSegments,
      hsegment.read]
    dsimp only
    rw [if_neg (not_not.mpr hsegment.load), h₁.upTo.count, if_neg (not_lt.mpr hsegment.passes),
      hloop]

end Lumin.Proc
