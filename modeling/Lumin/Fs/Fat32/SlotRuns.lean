import Lumin.Fs.Fat32.DirScan
import Lumin.Fs.Fat32.NameCodec

/-!
# Runs of free slots

`dir_write_entries` searches for the first run of free slots in the order of the
directory, but `do_write_at_position` counts sectors of the device from the first
slot of the run on.  Without a run the slots go to a new cluster.
-/

namespace Lumin.Fs.Fat32

open Lumin.Lib Lumin.Block

variable {fs : Fat32Fs} {d d' d₁ : Disk} {c dir k n : Nat} {l : List Nat} {p q t : Place}
  {ps run pre post : List Place} {slot : Slot} {slots : List Slot} {name : CStr}

/-! ## The search for a run -/

/-- A slot that can be used: the end of the directory or a deleted one. -/
def IsFree (d : Disk) (p : Place) : Prop := slotAt d p 0 = 0 ∨ slotAt d p 0 = DELETED

instance (d : Disk) : DecidablePred (IsFree d) := fun p =>
  inferInstanceAs (Decidable (slotAt d p 0 = 0 ∨ slotAt d p 0 = DELETED))

/-- The first `n` free slots that follow one another, with `run` the free slots just
before. -/
def firstRun (d : Disk) (n : Nat) : List Place → List Place → Option (List Place)
  | _, [] => none
  | run, p :: ps =>
    if IsFree d p then
      if run.length + 1 ≥ n then some (run ++ [p]) else firstRun d n (run ++ [p]) ps
    else firstRun d n [] ps

/-- The search of `dir_write_entries` with the run found so far. -/
structure Searches (st : RunSearch) (run : List Place) (i : Nat) : Prop where
  found : st.slotsFound = run.length
  abs : st.absEntry = i
  start : ∀ p ∈ run.head?, st.runBaseSector = p.1 ∧ st.runStart % 16 = p.2

theorem runSlot_used {st : RunSearch} {i : Nat} (h : Searches st run i) (hfree : ¬ IsFree d p) :
    ∃ st', runSlot n st p (slotAt d p) = .ok st' ∧ Searches st' [] (i + 1) := by
  have hfree' : ¬ (slotAt d p 0 = 0 ∨ slotAt d p 0 = DELETED) := hfree
  rw [runSlot, if_neg hfree']
  exact ⟨_, rfl, rfl, congrArg (· + 1) h.abs, by simp⟩

theorem runSlot_free {st : RunSearch} {i : Nat} (h : Searches st run i) (hfree : IsFree d p)
    (hp : p.2 = i % 16) :
    ∃ st', Searches st' (run ++ [p]) (i + 1) ∧ runSlot n st p (slotAt d p) =
      if run.length + 1 ≥ n then .error (some (st'.runStart, st'.runBaseSector))
      else .ok st' := by
  have hfree' : slotAt d p 0 = 0 ∨ slotAt d p 0 = DELETED := hfree
  rw [runSlot, if_pos hfree']
  by_cases hnil : run = []
  · subst hnil
    have hzero : st.slotsFound = 0 := h.found
    simp only [if_pos hzero]
    refine ⟨{ slotsFound := 1, runStart := st.absEntry, runBaseSector := p.1,
              absEntry := st.absEntry + 1 },
      ⟨rfl, congrArg (· + 1) h.abs, ?_⟩, ?_⟩
    · intro q hq
      obtain rfl : p = q := by simpa using hq
      exact ⟨rfl, by rw [hp, ← h.abs]⟩
    · simp only [hzero, List.length_nil, Nat.zero_add]
  · have hpos : st.slotsFound ≠ 0 := by
      rw [h.found]
      exact fun h0 => hnil (List.eq_nil_of_length_eq_zero h0)
    simp only [if_neg hpos]
    refine ⟨{ st with slotsFound := st.slotsFound + 1, absEntry := st.absEntry + 1 },
      ⟨by simp [h.found], congrArg (· + 1) h.abs, ?_⟩, ?_⟩
    · intro q hq
      rw [List.head?_append_of_ne_nil _ hnil] at hq
      exact h.start q hq
    · rw [h.found]

/-- The search returns the first run, by its sector and its place there. -/
theorem search_spec {st : RunSearch} {i : Nat} (h : Searches st run i)
    (hnum : ∀ j (hj : j < ps.length), ps[j].2 = (i + j) % 16) :
    (firstRun d n run ps = none ∧
      ∃ st', ps.foldlM (fun st p => runSlot n st p (slotAt d p)) st = .ok st') ∨
    ∃ r p rs, firstRun d n run ps = some r ∧ r.head? = some p ∧ rs % 16 = p.2 ∧
      ps.foldlM (fun st p => runSlot n st p (slotAt d p)) st = .error (some (rs, p.1)) := by
  induction ps generalizing st run i with
  | nil => exact .inl ⟨rfl, st, rfl⟩
  | cons p ps ih =>
    have hp : p.2 = i % 16 := hnum 0 (by simp)
    have hnum' : ∀ j (hj : j < ps.length), ps[j].2 = (i + 1 + j) % 16 := by
      intro j hj
      have := hnum (j + 1) (by simpa using hj)
      rw [List.getElem_cons_succ] at this
      rw [this]
      congr 1
      omega
    rw [List.foldlM_cons, firstRun]
    by_cases hfree : IsFree d p
    · obtain ⟨st', hst', hslot⟩ := runSlot_free (n := n) h hfree hp
      rw [if_pos hfree, hslot]
      by_cases hdone : run.length + 1 ≥ n
      · rw [if_pos hdone, if_pos hdone]
        have hhead : (run ++ [p]).head? = some ((run ++ [p]).head (by simp)) :=
          List.head?_eq_some_head _
        obtain ⟨hbase, hstart⟩ := hst'.start _ hhead
        exact .inr ⟨run ++ [p], _, st'.runStart, rfl, hhead, hstart, by rw [← hbase]; rfl⟩
      · rw [if_neg hdone, if_neg hdone]
        exact ih hst' hnum'
    · obtain ⟨st', hslot, hst'⟩ := runSlot_used (n := n) h hfree
      rw [if_neg hfree, hslot]
      exact ih hst' hnum'

/-- Where the first run stands: it is free, and what is before it ends in a slot that is
not. -/
theorem firstRun_stretch {r : List Place} (hrun : ∀ p ∈ run, IsFree d p) (hlen : run.length < n)
    (h : firstRun d n run ps = some r) :
    (∃ pre post, run ++ ps = pre ++ r ++ post ∧ ∀ p ∈ pre.getLast?, ¬ IsFree d p) ∧ r.length = n ∧
      ∀ p ∈ r, IsFree d p := by
  induction ps generalizing run with
  | nil => cases h
  | cons p ps ih =>
    have happ : run ++ p :: ps = (run ++ [p]) ++ ps := by simp
    have hone : (run ++ [p]).length = run.length + 1 := by simp
    rw [firstRun] at h
    by_cases hfree : IsFree d p
    · have hrun' : ∀ q ∈ run ++ [p], IsFree d q := by
        intro q hq
        rcases List.mem_append.mp hq with hq | hq
        · exact hrun q hq
        · rw [List.mem_singleton.mp hq]
          exact hfree
      rw [if_pos hfree] at h
      by_cases hdone : run.length + 1 ≥ n
      · rw [if_pos hdone] at h
        cases h
        exact ⟨⟨[], ps, by rw [happ, List.nil_append], by simp⟩, by omega, hrun'⟩
      · rw [if_neg hdone] at h
        rw [happ]
        exact ih hrun' (by omega) h
    · rw [if_neg hfree] at h
      obtain ⟨⟨pre, post, heq, hlast⟩, hlen', hfree'⟩ := ih (by simp) (by simp; omega) h
      refine ⟨⟨run ++ [p] ++ pre, post, ?_, fun q hq => ?_⟩, hlen', hfree'⟩
      · rw [happ, ← List.nil_append ps, heq]
        simp only [List.append_assoc]
      · cases pre with
        | nil =>
          rw [List.append_nil, List.getLast?_concat, Option.mem_some_iff] at hq
          rwa [← hq]
        | cons x xs =>
          rw [List.getLast?_append_of_ne_nil _ (List.cons_ne_nil x xs)] at hq
          exact hlast q hq

/-- FAT's rule for the end of a directory: behind a slot that ends it, all slots are
unused. -/
def EndsProperly (d : Disk) (ps : List Place) : Prop :=
  ps.Pairwise fun p q => slotAt d p 0 = 0 → slotAt d q 0 = 0

/-- The directory does not end before its first run. -/
theorem firstRun_split {r : List Place} (hends : EndsProperly d ps) (hn : 0 < n)
    (h : firstRun d n [] ps = some r) :
    ∃ pre post, ps = pre ++ r ++ post ∧ r.length = n ∧ (∀ p ∈ r, IsFree d p) ∧
      ∀ p ∈ pre, slotAt d p 0 ≠ 0 := by
  obtain ⟨⟨pre, post, hsplit, hlast⟩, hlen, hfree⟩ := firstRun_stretch (by simp) hn h
  rw [List.nil_append] at hsplit
  refine ⟨pre, post, hsplit, hlen, hfree, fun p hp hzero => ?_⟩
  -- The slot before the run would be unused as well.
  obtain ⟨xs, q, rfl⟩ : ∃ xs q, pre = xs ++ [q] :=
    ⟨pre.dropLast, pre.getLast (List.ne_nil_of_mem hp), (List.dropLast_append_getLast _).symm⟩
  refine hlast q (by simp) (.inl ?_)
  rcases List.mem_append.mp hp with hp | hp
  · rw [hsplit, List.append_assoc] at hends
    have hpre := (List.pairwise_append.mp hends).1
    exact (List.pairwise_append.mp hpre).2.2 p hp q (by simp) hzero
  · rwa [← List.mem_singleton.mp hp]

/-! ## Writing the run -/

/-- A slot has 32 bytes. -/
def IsSlot (slot : Slot) : Prop := ∀ i, 32 ≤ i → slot i = 0

theorem isSlot_nameSlot (checksum : UInt8) (i : Nat) : IsSlot (nameSlot name checksum i) := by
  intro j hj
  unfold nameSlot lfnSlot
  rw [if_neg (by omega), if_neg (by omega), if_neg (by omega), if_neg (by omega),
    if_neg (by omega)]

theorem isSlot_dentSlot (name11 : List UInt8) (attr : UInt8) (cluster size : Nat) :
    IsSlot (dentSlot name11 attr cluster size) := by
  intro j hj
  unfold dentSlot
  rw [if_neg (by omega), if_neg (by omega), if_neg (by omega), if_neg (by omega),
    if_neg (by omega)]

/-- The device with the slot at `p` replaced. -/
def putAt (d : Disk) (p : Place) (slot : Slot) : Disk :=
  d.setSector p.1 (putSlot (d.data p.1) p.2 slot)

theorem slotAt_putAt (hslot : IsSlot slot) :
    slotAt (putAt d p slot) q = if q = p then slot else slotAt d q := by
  funext i
  unfold slotAt slotIn putAt
  by_cases hsec : q.1 = p.1
  · rw [hsec, setSector_data_same]
    unfold putSlot
    by_cases hi : i < 32
    · rw [if_pos hi]
      by_cases hei : q.2 = p.2
      · rw [if_pos (Prod.ext hsec hei), if_pos (by omega)]
        congr 1
        omega
      · rw [if_neg fun h => hei (congrArg Prod.snd h), if_neg (by omega)]
        simp only [if_pos hi]
    · rw [if_neg hi]
      split
      · exact (hslot i (by omega)).symm
      · simp only [if_neg hi]
  · rw [if_neg fun h => hsec (congrArg Prod.fst h), setSector_data_ne _ _ hsec]

theorem writeSlot_of_works (hw : d.Works) (hp : p.1 < d.sectorCount) (slot : Slot) :
    writeSlot d p.1 p.2 slot = some (putAt d p slot) := by
  rw [writeSlot, blockRead_of_works hw hp]
  exact blockWrite_of_works hw hp _

/-- The slots `slots` stand at the places `ps`, and all else is as before. -/
structure Written (d d' : Disk) (ps : List Place) (slots : List Slot) : Prop where
  sameDevice : d.SameDevice d'
  outside : ∀ s, (∀ p ∈ ps, p.1 ≠ s) → d'.data s = d.data s
  slots : List.Forall₂ (fun p slot => slotAt d' p = slot) ps slots
  others : ∀ q ∉ ps, slotAt d' q = slotAt d q

/-- When the places that `do_write_at_position` computes are `ps`, it writes its slots
there. -/
theorem writeRun_spec {rs base : Nat} (hw : d.Works) (hin : ∀ p ∈ ps, p.1 < d.sectorCount)
    (hnodup : ps.Nodup) (hslots : ∀ slot ∈ slots, IsSlot slot) (hlen : ps.length = slots.length)
    (hne : slots ≠ []) (hplaces : ∀ j (hj : j < ps.length), runPlace rs base (k + j) = ps[j]) :
    ∃ d', writeRun rs base k slots d = (ps.getLast?, d') ∧ Written d d' ps slots := by
  induction slots generalizing ps k d with
  | nil => exact absurd rfl hne
  | cons slot slots ih =>
    cases ps with
    | nil => simp at hlen
    | cons p ps =>
      obtain ⟨hp, hnodup⟩ := List.nodup_cons.mp hnodup
      have hfirst : runPlace rs base k = p := hplaces 0 (by simp)
      have hslot := hslots slot (by simp)
      rw [writeRun, hfirst]
      simp only [writeSlot_of_works hw (hin p (by simp))]
      have hdev : d.SameDevice (putAt d p slot) := sameDevice_setSector _ _ _
      have hat : slotAt (putAt d p slot) p = slot := by rw [slotAt_putAt hslot, if_pos rfl]
      have hoff : ∀ q, q ≠ p → slotAt (putAt d p slot) q = slotAt d q := fun q hq => by
        rw [slotAt_putAt hslot, if_neg hq]
      by_cases hnil : slots = []
      · subst hnil
        have hps : ps = [] := List.eq_nil_of_length_eq_zero (by simpa using hlen)
        subst hps
        refine ⟨putAt d p slot, by simp, hdev, fun s hs => ?_, .cons hat .nil, fun q hq => ?_⟩
        · exact setSector_data_ne _ _ fun h => hs p (by simp) h.symm
        · exact hoff q (by simpa using hq)
      · rw [if_neg hnil]
        have hplaces' : ∀ j (hj : j < ps.length), runPlace rs base (k + 1 + j) = ps[j] := by
          intro j hj
          have := hplaces (j + 1) (by simpa using hj)
          rwa [List.getElem_cons_succ, show k + (j + 1) = k + 1 + j by omega] at this
        obtain ⟨d', hrun, hwritten⟩ := ih (hdev.works hw)
          (fun q hq => hdev.1 ▸ hin q (by simp [hq])) hnodup (fun s hs => hslots s (by simp [hs]))
          (by simpa using hlen) hnil hplaces'
        refine ⟨d', ?_, hdev.trans hwritten.sameDevice, fun s hs => ?_, .cons ?_ hwritten.slots,
          fun q hq => ?_⟩
        · rw [hrun, List.getLast?_cons]
          have hne : ps ≠ [] := by
            rintro rfl
            exact hnil (List.eq_nil_of_length_eq_zero (by simpa using hlen.symm))
          obtain ⟨x, xs, rfl⟩ := List.exists_cons_of_ne_nil hne
          simp [List.getLast?_eq_some_getLast]
        · rw [hwritten.outside s fun q hq => hs q (by simp [hq])]
          exact setSector_data_ne _ _ fun h => hs p (by simp) h.symm
        · rw [hwritten.others p hp, hat]
        · rw [List.mem_cons, not_or] at hq
          rw [hwritten.others q hq.2, hoff q hq.1]

theorem writeSlot_inv {s ei : Nat} (h : writeSlot d s ei slot = some d') :
    s < d.sectorCount ∧ d' = putAt d (s, ei) slot := by
  unfold writeSlot at h
  cases hread : blockRead d s with
  | none =>
    rw [hread] at h
    cases h
  | some buf =>
    rw [hread] at h
    simp only [blockWrite] at h
    unfold blockRead at hread
    split_ifs at h hread with hfail hfail'
    cases hread
    cases h
    exact ⟨by omega, rfl⟩

/-- A run that was written lies on the device. -/
theorem writeRun_inside {rs base : Nat} (h : writeRun rs base k slots d = (some t, d')) :
    ∀ j < slots.length, (runPlace rs base (k + j)).1 < d.sectorCount := by
  induction slots generalizing k d with
  | nil => cases h
  | cons slot slots ih =>
    rw [writeRun] at h
    cases hwrite : writeSlot d (runPlace rs base k).1 (runPlace rs base k).2 slot with
    | none =>
      rw [hwrite] at h
      cases h
    | some d₁ =>
      rw [hwrite] at h
      simp only at h
      obtain ⟨hfirst, rfl⟩ := writeSlot_inv hwrite
      intro j hj
      cases j with
      | zero => exact hfirst
      | succ j =>
        rw [List.length_cons, Nat.succ_lt_succ_iff] at hj
        rw [if_neg (List.ne_nil_of_length_pos (by omega))] at h
        rw [show k + (j + 1) = k + 1 + j by omega]
        exact ih h j hj

/-- The first slot is written and then the others, or nothing is. -/
theorem writeRun_cons {rs base : Nat} {r : Option Place}
    (h : writeRun rs base k (slot :: slots) d = (r, d')) :
    (writeSlot d (runPlace rs base k).1 (runPlace rs base k).2 slot = none ∧ d' = d) ∨
      ∃ r', writeRun rs base (k + 1) slots (putAt d (runPlace rs base k) slot) = (r', d') := by
  rw [writeRun] at h
  cases hwrite : writeSlot d (runPlace rs base k).1 (runPlace rs base k).2 slot with
  | none =>
    rw [hwrite] at h
    cases h
    exact .inl ⟨rfl, rfl⟩
  | some d₁ =>
    rw [hwrite] at h
    simp only at h
    obtain ⟨-, rfl⟩ := writeSlot_inv hwrite
    by_cases hnil : slots = []
    · rw [if_pos hnil] at h
      cases h
      exact .inr ⟨none, by rw [hnil]; rfl⟩
    · rw [if_neg hnil] at h
      exact .inr ⟨r, h⟩

/-- Whether it succeeds or not, `do_write_at_position` changes only its own places. -/
theorem writeRun_frame {rs base : Nat} {r : Option Place} (hslots : ∀ slot ∈ slots, IsSlot slot)
    (h : writeRun rs base k slots d = (r, d')) :
    d.SameDevice d' ∧
      (∀ s, (∀ j < slots.length, (runPlace rs base (k + j)).1 ≠ s) → d'.data s = d.data s) ∧
      ∀ q, (∀ j < slots.length, runPlace rs base (k + j) ≠ q) → slotAt d' q = slotAt d q := by
  induction slots generalizing k d r with
  | nil =>
    cases h
    exact ⟨.refl _, fun _ _ => rfl, fun _ _ => rfl⟩
  | cons slot slots ih =>
    rcases writeRun_cons h with ⟨-, rfl⟩ | ⟨r', htail⟩
    · exact ⟨.refl _, fun _ _ => rfl, fun _ _ => rfl⟩
    · obtain ⟨hdev, hout, hother⟩ := ih (fun s hs => hslots s (by simp [hs])) htail
      refine ⟨(sameDevice_setSector _ _ _).trans hdev, fun s hs => ?_, fun q hq => ?_⟩
      · rw [hout s fun j hj => ?_]
        · exact setSector_data_ne _ _ (hs 0 (by simp)).symm
        · rw [show k + 1 + j = k + (j + 1) by omega]
          exact hs (j + 1) (by simpa using hj)
      · rw [hother q fun j hj => ?_, slotAt_putAt (hslots slot (by simp))]
        · exact if_neg (hq 0 (by simp)).symm
        · rw [show k + 1 + j = k + (j + 1) by omega]
          exact hq (j + 1) (by simpa using hj)

/-! ## Places by number -/

theorem getElem?_blocks (sectors : List Nat) (j : Nat) :
    (sectors.flatMap fun s => (List.range 16).map (Prod.mk s))[j]? =
      (sectors[j / 16]?).map fun s => (s, j % 16) := by
  induction sectors generalizing j with
  | nil => simp
  | cons s sectors ih =>
    rw [List.flatMap_cons]
    by_cases hlt : j < 16
    · rw [List.getElem?_append_left (by simpa using hlt), Nat.div_eq_of_lt hlt,
        Nat.mod_eq_of_lt hlt]
      simp [hlt]
    · rw [List.getElem?_append_right (by simpa using not_lt.mp hlt), ih,
        show j / 16 = (j - 16) / 16 + 1 by omega, List.getElem?_cons_succ]
      simp only [List.length_map, List.length_range]
      congr 2
      funext s
      congr 1
      omega

/-- The sectors of a directory. -/
def dirSectors (fs : Fat32Fs) (l : List Nat) : List Nat :=
  l.flatMap fun c => (List.range fs.sectorsPerCluster).map fun s => firstSector fs c + s

theorem dirSlots_eq_blocks :
    dirSlots fs l = (dirSectors fs l).flatMap fun s => (List.range 16).map (Prod.mk s) := by
  unfold dirSlots dirSectors
  rw [List.flatMap_assoc]
  congr 1
  funext c
  rw [List.flatMap_map]

theorem dirSlots_snd (j : Nat) (hj : j < (dirSlots fs l).length) :
    (dirSlots fs l)[j].2 = j % 16 := by
  have h := getElem?_blocks (dirSectors fs l) j
  rw [← dirSlots_eq_blocks, List.getElem?_eq_getElem hj] at h
  obtain ⟨s, -, hs⟩ := Option.map_eq_some_iff.mp h.symm
  rw [← hs]

theorem dirSlots_one (k : Nat) (hk : k < (dirSlots fs [c]).length) :
    (dirSlots fs [c])[k] = (firstSector fs c + k / 16, k % 16) := by
  have h := getElem?_blocks (dirSectors fs [c]) k
  rw [← dirSlots_eq_blocks, List.getElem?_eq_getElem hk] at h
  obtain ⟨s, hs, hp⟩ := Option.map_eq_some_iff.mp h.symm
  have hsec : dirSectors fs [c] = (List.range fs.sectorsPerCluster).map fun s =>
      firstSector fs c + s := by
    simp [dirSectors]
  rw [hsec, List.getElem?_map] at hs
  obtain ⟨i, hi, rfl⟩ := Option.map_eq_some_iff.mp hs
  obtain ⟨hlt, hi⟩ := List.getElem?_eq_some_iff.mp hi
  rw [List.getElem_range] at hi
  rw [← hp, ← hi]

/-! ## Where the slots go -/

/-- The places of a run follow one another on the device, as
`do_write_at_position` counts them. -/
def Contiguous (run : List Place) : Prop :=
  ∀ p ∈ run.head?, ∀ j (hj : j < run.length), run[j] = (p.1 + (p.2 + j) / 16, (p.2 + j) % 16)

theorem sector_lt_of_mem (hs : Sane fs d) (hl : ∀ c ∈ l, InVolume fs c) (hp : p ∈ dirSlots fs l) :
    p.1 < fs.dataStart + fs.totalClusters * fs.sectorsPerCluster := by
  obtain ⟨c, hc, s, hlt, heq, -⟩ := mem_dirSlots.mp hp
  rw [heq]
  exact firstSector_add_lt hs (hl c hc) hlt

/-- The search of `dir_write_entries` in a directory. -/
theorem search_dir (hs : Sane fs d) (h : Walk fs d dir l) (n : Nat) :
    (firstRun d n [] (dirSlots fs l) = none ∧
      ∃ st, scanDir fs d (fun _ => .error none) (runSlot n)
        { slotsFound := 0, runStart := 0, runBaseSector := 0, absEntry := 0 } dir = some (.ok st))
          ∨
    ∃ r p rs, firstRun d n [] (dirSlots fs l) = some r ∧ r.head? = some p ∧ rs % 16 = p.2 ∧
      scanDir fs d (fun _ => .error none) (runSlot n)
        { slotsFound := 0, runStart := 0, runBaseSector := 0, absEntry := 0 } dir =
          some (.error (some (rs, p.1))) := by
  have hinit :
      Searches { slotsFound := 0, runStart := 0, runBaseSector := 0, absEntry := 0 } [] 0 :=
    ⟨rfl, rfl, by simp⟩
  have hnum : ∀ j (hj : j < (dirSlots fs l).length), (dirSlots fs l)[j].2 = (0 + j) % 16 := by
    intro j hj
    rw [Nat.zero_add]
    exact dirSlots_snd j hj
  rw [scanDir_eq hs h]
  rcases search_spec (d := d) (n := n) hinit hnum
    with ⟨hnone, st, hfold⟩ | ⟨r, p, rs, hsome, hhead, hstart, hfold⟩
  · exact .inl ⟨hnone, st, congrArg some hfold⟩
  · exact .inr ⟨r, p, rs, hsome, hhead, hstart, congrArg some hfold⟩

/-- The places that `do_write_at_position` computes for `n` slots from `p` on. -/
def runPlaces (p : Place) (n : Nat) : List Place := (List.range n).map (runPlace p.2 p.1)

theorem runPlaces_length (p : Place) (n : Nat) : (runPlaces p n).length = n := by
  unfold runPlaces
  rw [List.length_map, List.length_range]

theorem runPlace_inj {rs base j : Nat} (hk : k < 2 ^ 32) (hj : j < 2 ^ 32)
    (h : runPlace rs base k = runPlace rs base j) : k = j := by
  have hsector := congrArg Prod.fst h
  have hslot := congrArg Prod.snd h
  simp only [runPlace, u32] at hsector hslot
  omega

theorem runPlaces_nodup (p : Place) (hn : n < 2 ^ 32) : (runPlaces p n).Nodup := by
  refine List.Nodup.map_on (fun i hi j hj heq => ?_) List.nodup_range
  have := List.mem_range.mp hi
  have := List.mem_range.mp hj
  exact runPlace_inj (by omega) (by omega) heq

/-- Only the place of a run's start in its sector counts. -/
theorem writeRun_mod (rs base k : Nat) (slots : List Slot) (d : Disk) :
    writeRun rs base k slots d = writeRun (rs % 16) base k slots d := by
  have hplace : ∀ k, runPlace rs base k = runPlace (rs % 16) base k := by
    intro k
    rw [runPlace, runPlace, Nat.mod_mod, Nat.mod_add_mod]
  induction slots generalizing k d with
  | nil => rfl
  | cons slot slots ih =>
    rw [writeRun, writeRun, hplace]
    simp only [ih]

/-- On the device the slots are written to the places that are computed. -/
theorem writeRun_places (hw : d.Works) (hin : ∀ q ∈ runPlaces p slots.length, q.1 < d.sectorCount)
    (hslots : ∀ slot ∈ slots, IsSlot slot) (hne : slots ≠ []) (hlen : slots.length < 2 ^ 32) :
    ∃ d', writeRun p.2 p.1 0 slots d = ((runPlaces p slots.length).getLast?, d') ∧
      Written d d' (runPlaces p slots.length) slots := by
  refine writeRun_spec hw hin (runPlaces_nodup p hlen) hslots
    (runPlaces_length _ _) hne fun j hj => ?_
  simp only [runPlaces, List.getElem_map, List.getElem_range, Nat.zero_add]

/-- A run that was written stands at the places that are computed. -/
theorem written_of_writeRun (hw : d.Works) (hslots : ∀ slot ∈ slots, IsSlot slot)
    (hne : slots ≠ [])
    (hlen : slots.length < 2 ^ 32) (h : writeRun p.2 p.1 0 slots d = (some t, d')) :
    Written d d' (runPlaces p slots.length) slots := by
  have hinside := writeRun_inside h
  obtain ⟨d₁, hrun, hwritten⟩ := writeRun_places (p := p) hw (fun q hq => by
    obtain ⟨j, hj, rfl⟩ := List.mem_map.mp hq
    rw [← Nat.zero_add j]
    exact hinside j (List.mem_range.mp hj)) hslots hne hlen
  rw [h, Prod.mk.injEq] at hrun
  rwa [hrun.2]

/-- With a run the slots are written from its first place on. -/
theorem dirWriteEntries_some (hs : Sane fs d) (h : Walk fs d dir l)
    (hrun : firstRun d slots.length [] (dirSlots fs l) = some run) :
    ∃ p, run.head? = some p ∧
        dirWriteEntries fs d dir slots = some (writeRun p.2 p.1 0 slots d) := by
  rcases search_dir hs h slots.length with ⟨hnone, -⟩ | ⟨r, p, rs, hsome, hhead, hstart, hscan⟩
  · rw [hrun] at hnone
    cases hnone
  · rw [hrun] at hsome
    cases hsome
    refine ⟨p, hhead, ?_⟩
    rw [dirWriteEntries, hscan, ← hstart, ← writeRun_mod]

/-- Without a run the directory gets a new cluster. -/
theorem dirWriteEntries_none (hs : Sane fs d) (h : Walk fs d dir l)
    (hrun : firstRun d slots.length [] (dirSlots fs l) = none) :
    dirWriteEntries fs d dir slots = dirWriteEntriesExt fs d dir slots := by
  rcases search_dir hs h slots.length with ⟨-, st, hscan⟩ | ⟨r, p, rs, hsome, -⟩
  · rw [dirWriteEntries, hscan]
  · rw [hrun] at hsome
    cases hsome

/-- The places of a contiguous run are the ones that are computed. -/
theorem Contiguous.runPlaces_eq (hcont : Contiguous run) (hhead : run.head? = some p)
    (hp : p.2 < 16)
    (hlt : ∀ q ∈ run, q.1 < 2 ^ 32) : runPlaces p run.length = run := by
  refine List.ext_getElem (runPlaces_length _ _) fun j _ hj => ?_
  have hplace := hcont p hhead j hj
  have hsector := hlt _ (List.getElem_mem hj)
  rw [hplace] at hsector ⊢
  simp only at hsector
  simp only [runPlaces, List.getElem_map, List.getElem_range]
  rw [runPlace, Nat.mod_eq_of_lt hp, u32_of_lt hsector]

/-- The slots go to the first run, if it follows the device. -/
theorem dirWriteEntries_run (hs : Sane fs d) (h : Walk fs d dir l)
    (hslots : ∀ slot ∈ slots, IsSlot slot) (hne : slots ≠ []) (hmany : slots.length < 2 ^ 32)
    (hrun : firstRun d slots.length [] (dirSlots fs l) = some run)
    (hlen : run.length = slots.length)
    (hmem : ∀ p ∈ run, p ∈ dirSlots fs l) (hcont : Contiguous run) :
    ∃ d', dirWriteEntries fs d dir slots = some (run.getLast?, d') ∧ Written d d' run slots := by
  obtain ⟨p, hhead, hwrite⟩ := dirWriteEntries_some hs h hrun
  have hsec : ∀ q ∈ run, q.1 < fs.dataStart + fs.totalClusters * fs.sectorsPerCluster :=
    fun q hq =>
    sector_lt_of_mem hs h.inVolume (hmem q hq)
  obtain ⟨-, -, -, -, -, hp⟩ := mem_dirSlots.mp (hmem p (List.mem_of_mem_head? hhead))
  have hplaces := hcont.runPlaces_eq hhead hp fun q hq => lt_of_lt_of_le (hsec q hq) hs.data_fits
  rw [hlen] at hplaces
  obtain ⟨d', hret, hwritten⟩ := writeRun_places (p := p) hs.works
    (fun q hq => lt_of_lt_of_le (hsec q (hplaces ▸ hq)) hs.data_inside) hslots hne hmany
  rw [hplaces] at hret hwritten
  exact ⟨d', hwrite.trans (congrArg some hret), hwritten⟩

/-- A cluster filled with zeros. -/
theorem zeroCluster_spec (hs : Sane fs d) (hc : InVolume fs c) :
    d.SameDevice (zeroCluster fs d c) ∧
      (∀ s < fs.sectorsPerCluster, (zeroCluster fs d c).data (firstSector fs c + s) = fun _ => 0)
        ∧
      ∀ t, (∀ s < fs.sectorsPerCluster, t ≠ firstSector fs c + s) →
        (zeroCluster fs d c).data t = d.data t := by
  have hmain : ∀ n ≤ fs.sectorsPerCluster, ∃ d', (List.range n).foldl
      (fun d s => (blockWrite d (u32 (firstSector fs c + s)) fun _ => 0).getD d) d = d' ∧
      d.SameDevice d' ∧ (∀ s < n, d'.data (firstSector fs c + s) = fun _ => 0) ∧
      ∀ t, (∀ s < n, t ≠ firstSector fs c + s) → d'.data t = d.data t := by
    intro n
    induction n with
    | zero => exact fun _ => ⟨d, rfl, .refl d, by simp, fun _ _ => rfl⟩
    | succ n ih =>
      intro hn
      obtain ⟨d₁, hfold, hdev, hzero, hother⟩ := ih (by omega)
      have hlt := firstSector_add_lt hs hc (show n < fs.sectorsPerCluster by omega)
      have hin : firstSector fs c + n < d₁.sectorCount := by
        rw [hdev.1]
        exact lt_of_lt_of_le hlt hs.data_inside
      refine ⟨d₁.setSector (firstSector fs c + n) fun _ => 0, ?_,
        hdev.trans (sameDevice_setSector _ _ _), fun s hs' => ?_, fun t ht => ?_⟩
      · rw [List.range_succ, List.foldl_append, hfold]
        simp only [List.foldl_cons, List.foldl_nil]
        rw [u32_firstSector_add hs hc (by omega), blockWrite_of_works (hdev.works hs.works) hin]
        rfl
      · by_cases heq : s = n
        · rw [heq, setSector_data_same]
        · rw [setSector_data_ne _ _ (by omega)]
          exact hzero s (by omega)
      · rw [setSector_data_ne _ _ (ht n (by omega))]
        exact hother t fun s hs' => ht s (by omega)
  obtain ⟨d', hfold, hspec⟩ := hmain fs.sectorsPerCluster (le_refl _)
  unfold zeroCluster
  rw [hfold]
  exact hspec

/-- The directory `l` has got a new cluster `c` that begins with `slots`, and nothing
else has changed that belongs to a cluster. -/
structure Appended (fs : Fat32Fs) (d d' : Disk) (dir : Nat) (l : List Nat) (c : Nat)
    (slots : List Slot) : Prop where
  sameDevice : d.SameDevice d'
  free : Free fs d c
  chain : Chain fs d' dir (l ++ [c])
  run : List.Forall₂ (fun p slot => slotAt d' p = slot) ((dirSlots fs [c]).take slots.length)
    slots
  rest : ∀ q ∈ (dirSlots fs [c]).drop slots.length, slotAt d' q 0 = 0
  table : ∀ x < fs.totalClusters + 2, x ∉ l ++ [c] →
    fatNextCluster fs d' x = fatNextCluster fs d x
  data : ∀ s, fs.dataStart ≤ s → ¬ IsSectorOf fs c s → d'.data s = d.data s

/-- The places of a cluster, as `do_write_at_position` counts them. -/
theorem runPlace_cluster (hs : Sane fs d) (hc : InVolume fs c) (j : Nat)
    (hj : j < (dirSlots fs [c]).length) :
    runPlace 0 (firstSector fs c) j = (dirSlots fs [c])[j] := by
  have hmem : (dirSlots fs [c])[j] ∈ dirSlots fs [c] := List.getElem_mem hj
  have hlt := sector_lt_of_mem hs (by simpa using hc) hmem
  have hfits := hs.data_fits
  rw [dirSlots_one j hj] at hlt ⊢
  simp only at hlt
  rw [runPlace, Nat.zero_mod, Nat.zero_add, u32_of_lt (by omega)]

/-- Writing slots into a new cluster that was filled with zeros. -/
theorem writeRun_cluster (hs : Sane fs d) (hc : InVolume fs c)
    (hslots : ∀ slot ∈ slots, IsSlot slot)
    (hne : slots ≠ []) (hfit : slots.length ≤ 16 * fs.sectorsPerCluster) :
    ∃ d', writeRun 0 (firstSector fs c) 0 slots (zeroCluster fs d c) =
        (((dirSlots fs [c]).take slots.length).getLast?, d') ∧
      d.SameDevice d' ∧
      List.Forall₂ (fun p slot => slotAt d' p = slot) ((dirSlots fs [c]).take slots.length) slots
        ∧
      (∀ q ∈ (dirSlots fs [c]).drop slots.length, slotAt d' q 0 = 0) ∧
      ∀ s, ¬ IsSectorOf fs c s → d'.data s = d.data s := by
  obtain ⟨hdev, hzero, hother⟩ := zeroCluster_spec hs hc
  have hs' := hs.of_sameDevice hdev
  have hin : ∀ x ∈ [c], InVolume fs x := by simpa using hc
  have hwalk : (dirSlots fs [c]).Nodup := dirSlots_nodup hs hin (List.nodup_singleton c)
  have hlen : (dirSlots fs [c]).length = 16 * fs.sectorsPerCluster := by
    rw [dirSlots_length]
    simp
  have htake : ((dirSlots fs [c]).take slots.length).length = slots.length := by
    rw [List.length_take]
    omega
  obtain ⟨d', hwrite, hwritten⟩ := writeRun_spec (k := 0) hs'.works
    (fun q hq => lt_of_lt_of_le (sector_lt_of_mem hs' hin (List.mem_of_mem_take hq))
      hs'.data_inside)
    (hwalk.sublist (List.take_sublist _ _)) hslots htake hne
    (fun j hj => by
      rw [Nat.zero_add, List.getElem_take]
      exact runPlace_cluster hs hc j (by omega))
  refine ⟨d', hwrite, hdev.trans hwritten.sameDevice, hwritten.slots, fun q hq => ?_,
    fun s hs => ?_⟩
  · have hnot : q ∉ (dirSlots fs [c]).take slots.length := by
      intro hmem
      rw [← List.take_append_drop slots.length (dirSlots fs [c]), List.nodup_append] at hwalk
      exact hwalk.2.2 q hmem q hq rfl
    obtain ⟨x, hx, k, hk, heq, -⟩ := mem_dirSlots.mp (List.mem_of_mem_drop hq)
    rw [hwritten.others q hnot, slotAt_zero, heq, List.mem_singleton.mp hx, hzero k hk]
  · rw [hwritten.outside, hother]
    · exact fun k hk heq => hs ⟨k, hk, heq⟩
    · intro p hp heq
      obtain ⟨x, hx, k, hk, hsec, -⟩ := mem_dirSlots.mp (List.mem_of_mem_take hp)
      rw [List.mem_singleton.mp hx] at hsec
      exact hs ⟨k, hk, heq ▸ hsec⟩

/-- The sectors of the table. -/
def InTable (fs : Fat32Fs) (s : Nat) : Prop :=
  fs.fatStart ≤ s ∧ s < fs.fatStart + fs.sectorsPerFat

theorem allocLoop_outside {i s : Nat} (hs : Sane fs d) (hn : i + n = fs.sectorsPerFat)
    (hout : ¬ InTable fs s) :
    (allocLoop fs d n i).2.data s = d.data s := by
  induction n generalizing i with
  | zero => rfl
  | succ n ih =>
    have hbefore := hs.table_before
    have hfits := hs.data_fits
    rw [allocLoop, u32_of_lt (by omega)]
    cases blockRead d (fs.fatStart + i) with
    | none => rfl
    | some buf =>
      simp only
      cases (List.range 128).find? (stopsAlloc fs buf i) with
      | none => exact ih (by omega)
      | some j =>
        simp only
        split
        · rfl
        · unfold blockWrite
          by_cases hfail :
            fs.fatStart + i + 1 > d.sectorCount ∨ d.writeFails (fs.fatStart + i) = true
          · rw [if_pos hfail]
          · rw [if_neg hfail]
            refine setSector_data_ne _ _ ?_
            rintro rfl
            exact hout ⟨by omega, by omega⟩

/-- Table functions write sectors of the table only. -/
theorem fatAllocCluster_outside {s : Nat} (hs : Sane fs d) (hout : ¬ InTable fs s) :
    (fatAllocCluster fs d).2.data s = d.data s :=
  allocLoop_outside hs (Nat.zero_add _) hout

theorem fatSetCluster_outside {s v : Nat} (hs : Sane fs d) (hc : c < fs.totalClusters + 2)
    (hset : fatSetCluster fs d c v = some d') (hout : ¬ InTable fs s) : d'.data s = d.data s := by
  obtain ⟨hsector, -, -, hin⟩ := fatSector_eq hs hc
  have hcovers := hs.table_covers
  unfold fatSetCluster at hset
  rw [hsector, blockRead_of_works hs.works hin] at hset
  simp only [blockWrite_of_works hs.works hin, Option.some.injEq] at hset
  rw [← hset]
  refine setSector_data_ne _ _ ?_
  rintro rfl
  exact hout ⟨by omega, by omega⟩

/-- `dir_write_entries_ext` up to the first slot: the directory has got the first free
cluster, which is then filled with zeros. -/
theorem dirWriteEntriesExt_spec (hs : Sane fs d) (h : Chain fs d dir l) (hl : l ≠ [])
    (slots : List Slot) :
    (∃ c d₁, IsLeast {x | Free fs d x} c ∧ Grown fs d d₁ dir l [c] ∧
        (∀ s, ¬ InTable fs s → d₁.data s = d.data s) ∧
        dirWriteEntriesExt fs d dir slots =
          some (writeRun 0 (firstSector fs c) 0 slots (zeroCluster fs d₁ c))) ∨
      (dirWriteEntriesExt fs d dir slots = some (none, d) ∧ ∀ c, ¬ Free fs d c) := by
  unfold dirWriteEntriesExt
  obtain ⟨halloc, hleast⟩ := fatAllocCluster_cases hs
  have houtAlloc := fun s => @fatAllocCluster_outside fs d s hs
  rcases hres : fatAllocCluster fs d with ⟨c, d₁⟩
  rw [hres] at halloc hleast houtAlloc
  simp only
  rcases halloc with ⟨hfree, hset⟩ | ⟨heq, hnone⟩
  · obtain ⟨last, hlast⟩ := Option.isSome_iff_exists.mp (List.getLast?_isSome.mpr hl)
    have hlinkLast := (h.inVolume last (List.mem_of_getLast? hlast)).isLink hs
    have hlink : IsLink dir := by
      obtain ⟨y, ys, rfl⟩ := List.exists_cons_of_ne_nil hl
      exact h.linked.1 ▸ not_not.mp h.linked.2.1
    have hwalk₁ : Walk fs d₁ dir l := h.toWalk.congr fun x hx =>
      hset.others x (h.inVolume x hx).2 fun heq => h.not_free hx (heq ▸ hfree)
    obtain ⟨d₂, hlinked, hgrown⟩ := link_last hs h hlast hfree hset
    refine .inl ⟨c, d₂, ⟨hfree, hleast⟩, hgrown, fun s hout => ?_, ?_⟩
    · rw [fatSetCluster_outside (hs.of_sameDevice hset.sameData.1)
        (h.inVolume last (List.mem_of_getLast? hlast)).2 hlinked hout]
      exact houtAlloc s hout
    rw [if_neg (not_le.mpr (hfree.1.isLink hs).2), if_pos hlink,
      fatChainLast_spec (hs.of_sameDevice hset.sameData.1) hwalk₁, hlast]
    simp only [Option.getD_some, if_pos hlinkLast, hlinked]
  · obtain ⟨rfl, rfl⟩ := Prod.mk.inj heq
    exact .inr ⟨if_pos (le_refl _), hnone⟩

/-- Without a run the slots go to a new cluster, if there is one. -/
theorem dirWriteEntries_ext (hs : Sane fs d) (h : Chain fs d dir l) (hl : l ≠ [])
    (hslots : ∀ slot ∈ slots, IsSlot slot) (hne : slots ≠ [])
    (hrun : firstRun d slots.length [] (dirSlots fs l) = none)
    (hfit : slots.length ≤ 16 * fs.sectorsPerCluster) :
    (∃ c d', dirWriteEntries fs d dir slots =
        some (((dirSlots fs [c]).take slots.length).getLast?, d') ∧
          Appended fs d d' dir l c slots) ∨
      (dirWriteEntries fs d dir slots = some (none, d) ∧ ∀ c, ¬ Free fs d c) := by
  rw [dirWriteEntries_none hs h.toWalk hrun]
  rcases dirWriteEntriesExt_spec hs h hl slots with ⟨c, d₂, ⟨hfree, -⟩, hgrown, -, heq⟩ | hfail
  · have hs₂ := hs.of_sameDevice hgrown.sameData.1
    obtain ⟨d', hwrite, hdev, hslots', hrest, hdata⟩ :=
      writeRun_cluster hs₂ hfree.1 hslots hne hfit
    have hsame : ∀ x < fs.totalClusters + 2, fatNextCluster fs d' x = fatNextCluster fs d₂ x := by
      refine fun x hx => fatNextCluster_congr hs₂ hdev (fun s hlt => hdata s ?_) hx
      rintro ⟨k, -, rfl⟩
      have := dataStart_le_firstSector hs hfree.1
      omega
    refine .inl ⟨c, d', heq.trans (congrArg some hwrite), hgrown.sameData.1.trans hdev, hfree, ?_,
      hslots',
      hrest, fun x hx hnot => ?_, fun s hs' hnot => ?_⟩
    · exact hgrown.chain.congr fun x hx => hsame x (hgrown.chain.inVolume x hx).2
    · rw [hsame x hx, hgrown.others x hx hnot]
    · rw [hdata s hnot, hgrown.sameData.2 s hs']
  · exact .inr hfail

end Lumin.Fs.Fat32
