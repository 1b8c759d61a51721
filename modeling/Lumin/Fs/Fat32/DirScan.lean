import Lumin.Fs.Fat32.Chains
import Lumin.Fs.Fat32.Dir

/-!
# What a directory shows

On a chain that ends a scan is a fold over the slots of the directory, and the
scans of `fat32_read_dir` and `fat32_lookup` see the same entries: `visible` is
their list, with the long-name state that each was met in.
-/

namespace Lumin.Fs.Fat32

open Lumin.Lib Lumin.Block

/-- The place of a slot: its sector and its number there. -/
abbrev Place := Nat × Nat

/-- The places of the slots of a directory, in order. -/
def dirSlots (fs : Fat32Fs) (l : List Nat) : List Place :=
  l.flatMap fun c => (List.range fs.sectorsPerCluster).flatMap fun s =>
    (List.range 16).map fun ei => (firstSector fs c + s, ei)

def slotAt (d : Disk) (p : Place) : Slot := slotIn (d.data p.1) p.2

variable {fs : Fat32Fs} {d d' : Disk} {c v : Nat} {l : List Nat} {p : Place} {ps : List Place}

theorem dirSlots_cons :
    dirSlots fs (c :: l) = dirSlots fs [c] ++ dirSlots fs l := by
  simp [dirSlots]

theorem mem_dirSlots : p ∈ dirSlots fs l ↔
    ∃ c ∈ l, ∃ s < fs.sectorsPerCluster, p.1 = firstSector fs c + s ∧ p.2 < 16 := by
  simp only [dirSlots, List.mem_flatMap, List.mem_map, List.mem_range]
  constructor
  · rintro ⟨c, hc, s, hs, ei, hei, rfl⟩
    exact ⟨c, hc, s, hs, rfl, hei⟩
  · rintro ⟨c, hc, s, hs, hp, hei⟩
    exact ⟨c, hc, s, hs, p.2, hei, by rw [← hp]⟩

/-! ## Places -/

theorem slotAt_zero (d : Disk) (p : Place) : slotAt d p 0 = d.data p.1 (32 * p.2) := rfl

/-- The slots of a directory lie in the data area. -/
theorem dataStart_le_of_mem (hs : Sane fs d) (hl : ∀ c ∈ l, InVolume fs c)
    (hp : p ∈ dirSlots fs l) :
    fs.dataStart ≤ p.1 := by
  obtain ⟨c, hc, k, -, heq, -⟩ := mem_dirSlots.mp hp
  have := dataStart_le_firstSector hs (hl c hc)
  omega

theorem dirSlots_nodup (hs : Sane fs d) (hl : ∀ c ∈ l, InVolume fs c) (hnodup : l.Nodup) :
    (dirSlots fs l).Nodup := by
  unfold dirSlots
  rw [List.nodup_flatMap]
  constructor
  · intro c hc
    rw [List.nodup_flatMap]
    constructor
    · intro k hk
      refine (List.nodup_map_iff fun i j hij => ?_).mpr List.nodup_range
      exact congrArg Prod.snd hij
    · refine List.Pairwise.imp_of_mem ?_ (List.nodup_range (n := fs.sectorsPerCluster))
      intro k k' hk hk' hne p hp hp'
      obtain ⟨ei, -, rfl⟩ := List.mem_map.mp hp
      obtain ⟨ei', -, heq⟩ := List.mem_map.mp hp'
      have hsec := congrArg Prod.fst heq
      exact hne (by simp only at hsec; omega)
  · refine List.Pairwise.imp_of_mem ?_ hnodup
    intro c c' hc hc' hne p hp hp'
    simp only [List.mem_flatMap, List.mem_map, List.mem_range] at hp hp'
    obtain ⟨k, hk, ei, -, rfl⟩ := hp
    obtain ⟨k', hk', ei', -, heq⟩ := hp'
    have hsec : firstSector fs c' + k' = firstSector fs c + k := congrArg Prod.fst heq
    exact hne (firstSector_add_inj hs (hl c' hc') (hl c hc) hk' hk hsec).1.symm

theorem Walk.dirSlots_nodup (h : Walk fs d v l) (hs : Sane fs d) : (dirSlots fs l).Nodup :=
  Fat32.dirSlots_nodup hs h.inVolume h.linked.nodup

theorem dirSlots_length : (dirSlots fs l).length = 16 * (fs.sectorsPerCluster * l.length) := by
  induction l with
  | nil => simp [dirSlots]
  | cons c l ih =>
    have hone : (dirSlots fs [c]).length = 16 * fs.sectorsPerCluster := by
      simp [dirSlots]
      omega
    rw [dirSlots_cons, List.length_append, ih, hone, List.length_cons]
    ring

theorem slotAt_of_sameData (hs : Sane fs d) (h : SameData fs d d') (hl : ∀ c ∈ l, InVolume fs c)
    (hp : p ∈ dirSlots fs l) : slotAt d' p = slotAt d p := by
  unfold slotAt
  rw [h.2 _ (dataStart_le_of_mem hs hl hp)]

/-! ## Scans are folds -/

section Scan

variable {σ ρ : Type} {onFail : σ → Except ρ σ} {visit : σ → Place → Slot → Except ρ σ} {st : σ}

theorem foldlM_flatMap {α β : Type} (g : α → List β) (f : σ → β → Except ρ σ) (xs : List α)
    (st : σ) :
    (xs.flatMap g).foldlM f st = xs.foldlM (fun st x => (g x).foldlM f st) st := by
  induction xs generalizing st with
  | nil => rfl
  | cons x xs ih =>
    rw [List.flatMap_cons, List.foldlM_append, List.foldlM_cons]
    exact bind_congr fun st => ih st

theorem foldlM_congr_mem {β : Type} {f g : σ → β → Except ρ σ} {xs : List β}
    (h : ∀ x ∈ xs, ∀ st, f st x = g st x) (st : σ) : xs.foldlM f st = xs.foldlM g st := by
  induction xs generalizing st with
  | nil => rfl
  | cons x xs ih =>
    rw [List.foldlM_cons, List.foldlM_cons, h x (by simp) st]
    exact bind_congr fun st => ih (fun y hy => h y (by simp [hy])) st

/-- The places that a scan of the clusters `l` visits. -/
def scanPlaces (fs : Fat32Fs) (l : List Nat) : List Place :=
  l.flatMap fun c => (List.range fs.sectorsPerCluster).flatMap fun s =>
    (List.range 16).map fun ei => (u32 (firstSector fs c + s), ei)

/-- The chain from `v` ends after the clusters `l`, and their sectors can be read. -/
structure Readable (fs : Fat32Fs) (d : Disk) (v : Nat) (l : List Nat) : Prop where
  linked : Linked (fatNextCluster fs d) (fun c => ¬ IsLink c) v l
  sectors : ∀ c ∈ l, ∀ s < fs.sectorsPerCluster, (blockRead d (u32 (firstSector fs c + s))).isSome

theorem Readable.tail (h : Readable fs d v (c :: l)) : Readable fs d (fatNextCluster fs d v) l :=
  ⟨h.linked.1 ▸ h.linked.2.2, fun x hx => h.sectors x (List.mem_cons_of_mem c hx)⟩

theorem Walk.readable (hs : Sane fs d) (h : Walk fs d v l) : Readable fs d v l := by
  refine ⟨h.linked, fun c hc s hlt => ?_⟩
  have hin := lt_of_lt_of_le (firstSector_add_lt hs (h.inVolume c hc) hlt) hs.data_inside
  rw [u32_firstSector_add hs (h.inVolume c hc) hlt, blockRead_of_works hs.works hin]
  rfl

/-- Inside the volume the sector numbers do not wrap. -/
theorem scanPlaces_eq (hs : Sane fs d) (hl : ∀ c ∈ l, InVolume fs c) :
    scanPlaces fs l = dirSlots fs l := by
  unfold scanPlaces dirSlots
  refine List.flatMap_congr fun c hc => List.flatMap_congr fun s hmem => ?_
  rw [u32_firstSector_add hs (hl c hc) (List.mem_range.mp hmem)]

/-- A chain that ends is shorter than the number of clusters. -/
theorem Readable.length_lt_fuel (h : Readable fs d v l) : l.length < chainFuel := by
  have hsub : l ⊆ List.range FAT32_EOC := by
    intro c hc
    exact List.mem_range.mpr (not_not.mp (h.linked.not_stop hc)).2
  have hle := (List.subperm_of_subset h.linked.nodup hsub).length_le
  rw [List.length_range] at hle
  unfold FAT32_EOC at hle
  unfold chainFuel
  omega

theorem scanCluster_eq
    (h : ∀ s < fs.sectorsPerCluster, (blockRead d (u32 (firstSector fs c + s))).isSome) :
    scanCluster fs d onFail visit st c =
      (scanPlaces fs [c]).foldlM (fun st p => visit st p (slotAt d p)) st := by
  have hslots : scanPlaces fs [c] = (List.range fs.sectorsPerCluster).flatMap fun s =>
      (List.range 16).map fun ei => (u32 (firstSector fs c + s), ei) := by
    simp [scanPlaces]
  rw [hslots, foldlM_flatMap, scanCluster]
  refine foldlM_congr_mem (fun s hmem st => ?_) st
  have hread :
      blockRead d (u32 (firstSector fs c + s)) = some (d.data (u32 (firstSector fs c + s))) := by
    have hsome := h s (List.mem_range.mp hmem)
    unfold blockRead at hsome ⊢
    split at hsome
    · cases hsome
    next hok => rw [if_neg hok]
  rw [scanSector, hread, List.foldlM_map]
  rfl

theorem scanLoop_eq {fuel : Nat} (h : Readable fs d v l) (hfuel : l.length < fuel) :
    scanLoop fs d onFail visit fuel st v =
      some ((scanPlaces fs l).foldlM (fun st p => visit st p (slotAt d p)) st) := by
  induction l generalizing v fuel st with
  | nil =>
    obtain ⟨fuel, rfl⟩ := Nat.exists_eq_add_one_of_ne_zero (show fuel ≠ 0 by omega)
    exact if_neg h.linked
  | cons x xs ih =>
    obtain ⟨fuel, rfl⟩ := Nat.exists_eq_add_one_of_ne_zero (show fuel ≠ 0 by omega)
    have htail := h.tail
    have hsectors := h.sectors x (by simp)
    obtain ⟨rfl, hstop, -⟩ := h.linked
    have hcons : scanPlaces fs (v :: xs) = scanPlaces fs [v] ++ scanPlaces fs xs := by
      simp [scanPlaces]
    rw [scanLoop, if_pos (not_not.mp hstop), scanCluster_eq hsectors, hcons, List.foldlM_append]
    cases (scanPlaces fs [v]).foldlM (fun st p => visit st p (slotAt d p)) st with
    | error r => rfl
    | ok st => exact ih htail (by simpa using hfuel)

/-- A scan of a directory visits its slots in order. -/
theorem scanDir_readable (h : Readable fs d v l) :
    scanDir fs d onFail visit st v =
      some ((scanPlaces fs l).foldlM (fun st p => visit st p (slotAt d p)) st) :=
  scanLoop_eq h h.length_lt_fuel

theorem scanDir_eq (hs : Sane fs d) (h : Walk fs d v l) :
    scanDir fs d onFail visit st v =
      some ((dirSlots fs l).foldlM (fun st p => visit st p (slotAt d p)) st) := by
  rw [scanDir_readable (h.readable hs), scanPlaces_eq hs h.inVolume]

end Scan

/-! ## Visible entries -/

/-- The long-name state of a scan, with the places of the slots that it was
collected from. -/
structure LongName where
  st : LfnState
  own : List Place

/-- An entry as a scan meets it. -/
structure Visible where
  pos : Place
  long : LongName

def LongName.reset (x : LongName) : LongName := ⟨resetLfn x.st, []⟩

/-- A long-name slot at `p`. -/
def LongName.add (x : LongName) (p : Place) (slot : Slot) : LongName :=
  let st := addLfnEntry x.st slot
  ⟨st, if st.lfnCount = 0 then [] else if (slot 0).toNat / 64 % 2 = 1 then [p] else x.own ++ [p]⟩

/-- The entries that a scan meets before it ends. -/
def visible (d : Disk) : LongName → List Place → List Visible
  | _, [] => []
  | x, p :: ps =>
    match slotKind (slotAt d p) with
    | .last => []
    | .deleted => visible d x.reset ps
    | .lfn => visible d (x.add p (slotAt d p)) ps
    | .volume => visible d x.reset ps
    | .entry => ⟨p, x⟩ :: visible d x.reset ps

/-- The long-name state after a slot that does not end the scan. -/
def LongName.step (x : LongName) (p : Place) (slot : Slot) : LongName :=
  if slotKind slot = .lfn then x.add p slot else x.reset

theorem visible_cons_last {x : LongName} (h : slotKind (slotAt d p) = .last) :
    visible d x (p :: ps) = [] := by
  rw [visible, h]

theorem visible_cons_entry {x : LongName} (h : slotKind (slotAt d p) = .entry) :
    visible d x (p :: ps) = ⟨p, x⟩ :: visible d (x.step p (slotAt d p)) ps := by
  rw [visible, LongName.step, h]
  simp

theorem visible_cons_skip {x : LongName} (hlast : slotKind (slotAt d p) ≠ .last)
    (hentry : slotKind (slotAt d p) ≠ .entry) :
    visible d x (p :: ps) = visible d (x.step p (slotAt d p)) ps := by
  rw [visible, LongName.step]
  cases h : slotKind (slotAt d p) <;> simp_all

/-- The long-name state after slots that do not end the scan. -/
def stepAll (d : Disk) (x : LongName) (ps : List Place) : LongName :=
  ps.foldl (fun x p => x.step p (slotAt d p)) x

/-- A scan goes on behind slots that do not end it. -/
theorem visible_append_of_ne_last {x : LongName} (qs : List Place)
    (h : ∀ p ∈ ps, slotKind (slotAt d p) ≠ .last) :
    visible d x (ps ++ qs) = visible d x ps ++ visible d (stepAll d x ps) qs := by
  induction ps generalizing x with
  | nil => rfl
  | cons p ps ih =>
    have hrest := ih (x := x.step p (slotAt d p)) fun q hq => h q (by simp [hq])
    rw [List.cons_append]
    by_cases hentry : slotKind (slotAt d p) = .entry
    · rw [visible_cons_entry hentry, visible_cons_entry hentry, hrest]
      rfl
    · rw [visible_cons_skip (h p (by simp)) hentry, visible_cons_skip (h p (by simp)) hentry,
        hrest]
      rfl

/-- A scan depends only on the slots. -/
theorem visible_congr {x : LongName} (h : ∀ p ∈ ps, slotAt d' p = slotAt d p) :
    visible d' x ps = visible d x ps := by
  induction ps generalizing x with
  | nil => simp only [visible]
  | cons p ps ih =>
    have hrest := fun y : LongName => ih (x := y) fun q hq => h q (by simp [hq])
    rw [visible, visible, h p (by simp)]
    cases slotKind (slotAt d p) <;> simp only [hrest]

/-- The entries of a listing stand in the order of their slots. -/
theorem visible_sublist {x : LongName} : ((visible d x ps).map Visible.pos).Sublist ps := by
  induction ps generalizing x with
  | nil => simp [visible]
  | cons p ps ih =>
    rw [visible]
    cases slotKind (slotAt d p) with
    | last => exact List.nil_sublist _
    | deleted => exact ih.cons p
    | lfn => exact ih.cons p
    | volume => exact ih.cons p
    | entry => exact ih.cons_cons p

/-- No long name. -/
def LongName.none : LongName := ⟨LfnState.init, []⟩

/-- The entries of a directory with the clusters `l`. -/
def dirEntries (fs : Fat32Fs) (d : Disk) (l : List Nat) : List Visible :=
  visible d .none (dirSlots fs l)

/-- What `fat32_read_dir` reports for an entry. -/
def Visible.dentry (d : Disk) (e : Visible) : Dentry := toDentry e.long.st (slotAt d e.pos)

/-- Whether `fat32_lookup` takes an entry for `name`. -/
def Visible.matches (d : Disk) (name : CStr) (e : Visible) : Bool :=
  entryMatches name e.long.st (slotAt d e.pos)

/-- What `fat32_lookup` reports for an entry. -/
def Visible.found (d : Disk) (e : Visible) : Found := toFound e.pos (slotAt d e.pos)

theorem readDir_fold (index n : Nat) (hn : n ≤ index) (x : LongName) (ps : List Place) :
    returned (ps.foldlM (fun st p => readDirSlot index st p (slotAt d p)) (x.st, n)) =
      ((visible d x ps)[index - n]?).map (Visible.dentry d) := by
  induction ps generalizing x n with
  | nil => simp [visible, returned, pure, Except.pure]
  | cons p ps ih =>
    rw [List.foldlM_cons, readDirSlot, visible]
    cases hkind : slotKind (slotAt d p) with
    | last => rfl
    | deleted => exact ih n hn x.reset
    | lfn => exact ih n hn (x.add p (slotAt d p))
    | volume => exact ih n hn x.reset
    | entry =>
      simp only
      by_cases hidx : n = index
      · rw [if_pos hidx, hidx, Nat.sub_self]
        rfl
      · rw [if_neg hidx, show index - n = index - (n + 1) + 1 by omega, List.getElem?_cons_succ]
        exact ih (n + 1) (by omega) x.reset

/-- `fat32_read_dir` reports the visible entries in order. -/
theorem fat32ReadDir_eq (hs : Sane fs d) (h : Walk fs d v l) (index : Nat) :
    fat32ReadDir fs d v index = some (((dirEntries fs d l)[index]?).map (Visible.dentry d)) := by
  rw [fat32ReadDir, scanDir_eq hs h, Option.map_some]
  exact congrArg some (readDir_fold index 0 (Nat.zero_le _) .none (dirSlots fs l))

theorem lookup_fold (name : CStr) (x : LongName) (ps : List Place) :
    returned (ps.foldlM (fun st p => lookupSlot name st p (slotAt d p)) x.st) =
      ((visible d x ps).find? (Visible.matches d name)).map (Visible.found d) := by
  induction ps generalizing x with
  | nil => rfl
  | cons p ps ih =>
    rw [List.foldlM_cons, lookupSlot, visible]
    cases hkind : slotKind (slotAt d p) with
    | last => rfl
    | deleted => exact ih x.reset
    | lfn => exact ih (x.add p (slotAt d p))
    | volume => exact ih x.reset
    | entry =>
      simp only
      rw [List.find?_cons, show Visible.matches d name ⟨p, x⟩ =
        entryMatches name x.st (slotAt d p) from rfl]
      cases entryMatches name x.st (slotAt d p) with
      | true => rfl
      | false => exact ih x.reset

/-- `fat32_lookup` reports the first visible entry that matches. -/
theorem fat32Lookup_eq (hs : Sane fs d) (h : Walk fs d v l) {name : CStr} (hname : name ≠ []) :
    fat32Lookup fs d v name =
      some (((dirEntries fs d l).find? (Visible.matches d name)).map (Visible.found d)) := by
  rw [fat32Lookup, if_neg hname, scanDir_eq hs h, Option.map_some]
  exact congrArg some (lookup_fold name .none (dirSlots fs l))

/-! ## Long-name states -/

/-- States that no later scan tells apart: the buffer counts only where the
current long name has filled it. -/
structure LfnState.Equiv (st st' : LfnState) : Prop where
  count : st.lfnCount = st'.lfnCount
  seq : st.lfnSeq = st'.lfnSeq
  checksum : st.lfnCount ≠ 0 → st.lfnChecksum = st'.lfnChecksum
  buf : ∀ i, st.lfnSeq ≤ i + 1 → i + 1 ≤ st.lfnCount → st.lfnBuf i = st'.lfnBuf i

variable {st st' : LfnState} {slot : Slot} {x x' : LongName}

theorem LfnState.Equiv.refl (st : LfnState) : st.Equiv st :=
  ⟨rfl, rfl, fun _ => rfl, fun _ _ _ => rfl⟩

theorem equiv_reset (st st' : LfnState) : (resetLfn st).Equiv (resetLfn st') :=
  ⟨rfl, rfl, fun _ => rfl, fun i _ hhi => absurd hhi (Nat.not_succ_le_zero i)⟩

theorem LfnState.Equiv.add (h : st.Equiv st') (slot : Slot) :
    (addLfnEntry st slot).Equiv (addLfnEntry st' slot) := by
  unfold addLfnEntry
  by_cases hseq : (slot 0).toNat % 32 = 0 ∨ (slot 0).toNat % 32 > FAT32_MAX_LFN_ENTRIES
  · simp only [if_pos hseq]
    exact equiv_reset st st'
  simp only [if_neg hseq]
  by_cases hlast : (slot 0).toNat / 64 % 2 = 1
  · simp only [if_pos hlast]
    refine ⟨rfl, rfl, fun _ => rfl, fun i hlo hhi => ?_⟩
    simp only at hlo hhi ⊢
    rw [if_pos (by omega), if_pos (by omega)]
  simp only [if_neg hlast]
  by_cases hnext : (slot 0).toNat % 32 + 1 = st.lfnSeq
  · rw [if_neg (not_not.mpr hnext), if_neg (not_not.mpr (h.seq ▸ hnext))]
    refine ⟨h.count, rfl, h.checksum, fun i hlo hhi => ?_⟩
    simp only at hlo hhi ⊢
    by_cases hi : i = (slot 0).toNat % 32 - 1
    · rw [if_pos hi, if_pos hi]
    · rw [if_neg hi, if_neg hi]
      exact h.buf i (by omega) hhi
  · rw [if_pos hnext, if_pos (h.seq ▸ hnext)]
    exact equiv_reset st st'

theorem LfnState.Equiv.useLfn_eq (h : st.Equiv st') (slot : Slot) :
    useLfn st slot = useLfn st' slot := by
  unfold useLfn
  by_cases hcount : st.lfnCount = 0
  · simp [hcount, ← h.count]
  · rw [← h.count, ← h.seq, ← h.checksum hcount]

/-- A complete long name is the same in both. -/
theorem LfnState.Equiv.collect_eq (h : st.Equiv st') (hseq : st.lfnSeq = 1) :
    collectLfn st.lfnBuf st.lfnCount = collectLfn st'.lfnBuf st'.lfnCount := by
  unfold collectLfn
  rw [← h.count]
  congr 1
  refine List.map_congr_left fun i hi => h.buf i (by omega) ?_
  exact List.mem_range.mp hi

theorem useLfn_iff : useLfn st slot = true ↔
    0 < st.lfnCount ∧ st.lfnSeq = 1 ∧ fatChecksum (slotName slot) = st.lfnChecksum := by
  unfold useLfn
  exact decide_eq_true_iff

theorem LfnState.Equiv.entryName_eq (h : st.Equiv st') (slot : Slot) :
    entryName st slot = entryName st' slot := by
  unfold entryName
  rw [← h.useLfn_eq slot]
  split
  next huse => exact h.collect_eq (useLfn_iff.mp huse).2.1
  · rfl

theorem LfnState.Equiv.entryMatches_eq (h : st.Equiv st') (name : CStr) (slot : Slot) :
    entryMatches name st slot = entryMatches name st' slot := by
  unfold entryMatches
  rw [← h.useLfn_eq slot]
  cases huse : useLfn st slot with
  | false => rfl
  | true => rw [h.collect_eq (useLfn_iff.mp huse).2.1]

theorem LfnState.Equiv.toDentry_eq (h : st.Equiv st') (slot : Slot) :
    toDentry st slot = toDentry st' slot := by
  unfold toDentry
  rw [h.entryName_eq slot]

theorem LongName.equiv_reset (x x' : LongName) : x.reset.st.Equiv x'.reset.st :=
  Fat32.equiv_reset x.st x'.st

theorem LongName.equiv_add (h : x.st.Equiv x'.st) (p : Place) (slot : Slot) :
    (x.add p slot).st.Equiv (x'.add p slot).st :=
  h.add slot

/-- Scans of the same slots from equivalent states show the same, whatever is asked of
an entry that does not tell the states apart. -/
theorem visible_map_congr {β : Type} (f : LfnState → Place → Slot → β)
    (hf : ∀ st st' p slot, st.Equiv st' → f st p slot = f st' p slot) (h : x.st.Equiv x'.st)
    (hsame : ∀ p ∈ ps, slotAt d' p = slotAt d p) :
    (visible d' x' ps).map (fun e => f e.long.st e.pos (slotAt d' e.pos)) =
      (visible d x ps).map fun e => f e.long.st e.pos (slotAt d e.pos) := by
  induction ps generalizing x x' with
  | nil => simp only [visible, List.map_nil]
  | cons p ps ih =>
    have hrest := fun {y y' : LongName} (hy : y.st.Equiv y'.st) =>
      ih hy fun q hq => hsame q (by simp [hq])
    rw [visible, visible, hsame p (by simp)]
    cases slotKind (slotAt d p) with
    | last => simp only [List.map_nil]
    | deleted =>
      simp only
      exact hrest (x.equiv_reset x')
    | lfn =>
      simp only
      exact hrest (LongName.equiv_add h p (slotAt d p))
    | volume =>
      simp only
      exact hrest (x.equiv_reset x')
    | entry =>
      simp only [List.map_cons]
      rw [hrest (x.equiv_reset x'), hsame p (by simp), hf _ _ _ _ h]

theorem visible_dentry_congr (h : x.st.Equiv x'.st) (hsame : ∀ p ∈ ps, slotAt d' p = slotAt d p) :
    (visible d' x' ps).map (Visible.dentry d') = (visible d x ps).map (Visible.dentry d) :=
  visible_map_congr (fun st _ slot => toDentry st slot)
    (fun _ _ _ slot heq => heq.toDentry_eq slot) h hsame

theorem visible_matches_congr (name : CStr) (h : x.st.Equiv x'.st)
    (hsame : ∀ p ∈ ps, slotAt d' p = slotAt d p) :
    (visible d' x' ps).map (Visible.matches d' name) =
      (visible d x ps).map (Visible.matches d name) :=
  visible_map_congr (fun st _ slot => entryMatches name st slot)
    (fun _ _ _ slot heq => heq.entryMatches_eq name slot) h hsame

/-- A scan ends at a slot that ends the directory. -/
theorem visible_append_of_last (qs : List Place) (h : ∃ p ∈ ps, slotKind (slotAt d p) = .last) :
    visible d x (ps ++ qs) = visible d x ps := by
  induction ps generalizing x with
  | nil => simp at h
  | cons p ps ih =>
    rw [List.cons_append]
    by_cases hlast : slotKind (slotAt d p) = .last
    · rw [visible_cons_last hlast, visible_cons_last hlast]
    have hrest := ih (x := x.step p (slotAt d p)) (by
      obtain ⟨q, hq, hk⟩ := h
      rcases List.mem_cons.mp hq with rfl | hq
      · exact absurd hk hlast
      · exact ⟨q, hq, hk⟩)
    by_cases hentry : slotKind (slotAt d p) = .entry
    · rw [visible_cons_entry hentry, visible_cons_entry hentry, hrest]
    · rw [visible_cons_skip hlast hentry, visible_cons_skip hlast hentry, hrest]

/-- Deleted slots show nothing and leave no long name. -/
theorem visible_append_of_deleted (qs : List Place) (hne : ps ≠ [])
    (h : ∀ p ∈ ps, slotKind (slotAt d p) = .deleted) :
    ∃ y : LongName, visible d x (ps ++ qs) = visible d y.reset qs := by
  induction ps generalizing x with
  | nil => exact absurd rfl hne
  | cons p ps ih =>
    have hp := h p (by simp)
    have hstep : x.step p (slotAt d p) = x.reset := by
      rw [LongName.step, hp, if_neg (by simp)]
    rw [List.cons_append, visible_cons_skip (by simp [hp]) (by simp [hp]), hstep]
    by_cases hnil : ps = []
    · exact ⟨x, by rw [hnil]; rfl⟩
    · exact ih hnil fun q hq => h q (by simp [hq])

theorem slotKind_eq_last_iff : slotKind slot = .last ↔ slot 0 = 0 := by
  unfold slotKind
  split_ifs <;> simp_all

theorem slotKind_of_deleted (h : slot 0 = DELETED) : slotKind slot = .deleted := by
  rw [slotKind, h, if_neg (by decide), if_pos rfl]

end Lumin.Fs.Fat32
