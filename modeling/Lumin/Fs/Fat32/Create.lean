import Lumin.Fs.Fat32.SlotRuns

/-!
# Creating a file and looking it up

Where the places that `do_write_at_position` computes are those of the run that
`dir_write_entries` has found, the new slots stand in the run, and `fat32_lookup`
finds the entry if the long name comes back as it was written.
-/

namespace Lumin.Fs.Fat32

open Lumin.Lib Lumin.Block

variable {fs : Fat32Fs} {d d' d₁ : Disk} {c dir k n : Nat} {l : List Nat} {p q t : Place}
  {ps run pre post : List Place} {slot : Slot} {slots : List Slot} {name : CStr}

/-! ## The lookup afterwards -/

/-- The name comes back as it was written, up to case. -/
def ReadsBack (name : CStr) : Prop := strcmpCi name (readBack name) = true

instance : DecidablePred ReadsBack := fun name =>
  inferInstanceAs (Decidable (strcmpCi name (readBack name) = true))

/-- What `fat32_lookup` reports for a new file at `p`. -/
def newFile (p : Place) : Found :=
  { cluster := 0, size := 0, isDir := false, sector := p.1, offset := 32 * p.2 }

variable {x x' : LongName} {name11 : List UInt8}

/-- The scan of long-name slots collects them. -/
theorem visible_lfns (ps : List Place) (slots : List Slot)
    (hslots : List.Forall₂ (fun p slot => slotAt d p = slot) ps slots)
    (hkind : ∀ slot ∈ slots, slotKind slot = .lfn) (x : LongName) :
    ∃ y, y.st = slots.foldl addLfnEntry x.st ∧
        ∀ rest, visible d x (ps ++ rest) = visible d y rest := by
  induction hslots generalizing x with
  | nil => exact ⟨x, rfl, fun _ => rfl⟩
  | @cons p slot ps slots hp _ ih =>
    have hk : slotKind (slotAt d p) = .lfn := by rw [hp]; exact hkind slot (by simp)
    obtain ⟨y, hy, hvis⟩ := ih (fun s hs => hkind s (by simp [hs])) (x.add p slot)
    refine ⟨y, hy, fun rest => ?_⟩
    rw [List.cons_append, visible_cons_skip (by simp [hk]) (by simp [hk]), LongName.step,
      if_pos hk, hp]
    exact hvis rest

/-- A new entry is taken for `wanted`: its long name or its short name is that. -/
def Shows (name : CStr) (name11 : List UInt8) (wanted : CStr) : Prop :=
  strcmpCi wanted (collectedName name) = true ∨ strcmpCi wanted (parseShortName name11) = true

instance (name : CStr) (name11 : List UInt8) : DecidablePred (Shows name name11) := fun wanted =>
  inferInstanceAs (Decidable
    (strcmpCi wanted (collectedName name) = true ∨
      strcmpCi wanted (parseShortName name11) = true))

theorem entryMatches_new {st : LfnState} (hne : name ≠ []) (hname11 : name11.length = 11)
    (wanted : CStr) :
    entryMatches wanted ((buildLfnEntries name (fatChecksum name11)).foldl addLfnEntry st)
      (dentSlot name11 ATTR_ARCHIVE 0 0) = true ↔ Shows name name11 wanted := by
  have hpos : 0 < name.length := List.length_pos_iff.mpr hne
  have hneeded : 0 < lfnNeeded name := by
    unfold lfnNeeded FAT32_MAX_LFN_ENTRIES
    omega
  obtain ⟨hcount, hseq, hsum, hcollect⟩ := collectLfn_slots (fatChecksum name11) st hneeded
  have huse : useLfn ((buildLfnEntries name (fatChecksum name11)).foldl addLfnEntry st)
      (dentSlot name11 ATTR_ARCHIVE 0 0) = true := by
    rw [useLfn_iff, hcount, hseq, hsum, slotName_dentSlot hname11]
    exact ⟨hneeded, rfl, rfl⟩
  unfold entryMatches Shows
  rw [huse, hcollect, slotName_dentSlot hname11, Bool.true_and, Bool.or_eq_true]

/-- The short name cannot help where the long name fails for the name itself, because
such a name is too long for it. -/
theorem shows_self_iff (hprint : Printable name) (hne : name ≠ []) (hlen : name.length ≤ 255)
    (name11 : List UInt8) : Shows name name11 name ↔ ReadsBack name := by
  unfold Shows ReadsBack
  rw [collectedName_eq hprint hlen]
  constructor
  · rintro (h | h)
    · exact h
    · have hshort := congrArg List.length ((strcmpCi_iff _ _).mp h)
      rw [List.length_map, List.length_map] at hshort
      have := parseShortName_length_le name11
      rw [readBack_of_short hne (by omega), strcmpCi_iff]
  · exact fun h => .inl h

theorem slotKind_newDent (hfirst : name11.getD 0 0 ≠ 0 ∧ name11.getD 0 0 ≠ DELETED) (attr : UInt8)
    (hattr : attr = ATTR_ARCHIVE ∨ attr = ATTR_DIRECTORY) (cluster : Nat) :
    slotKind (dentSlot name11 attr cluster 0) = .entry := by
  refine slotKind_dentSlot hfirst.1 hfirst.2 ?_ ?_
  · rcases hattr with rfl | rfl <;> decide
  · rcases hattr with rfl | rfl <;> decide

theorem found_newDent (h : slotAt d t = dentSlot name11 ATTR_ARCHIVE 0 0) :
    toFound t (slotAt d t) = newFile t := by
  have hdir : slotIsDir (dentSlot name11 ATTR_ARCHIVE 0 0) = false := by
    show decide (ATTR_ARCHIVE.toNat / 16 % 2 = 1) = false
    decide
  rw [h, toFound, slotCluster_dentSlot (by decide), slotSize_dentSlot (by decide), hdir, newFile]

/-- The scan of a new run: the long-name slots are collected for the entry, and the
slots behind it are scanned without a long name. -/
theorem visible_newSlots (hfirst : name11.getD 0 0 ≠ 0 ∧ name11.getD 0 0 ≠ DELETED)
    (hrun : List.Forall₂ (fun p slot => slotAt d p = slot) run
      (newSlots name name11 ATTR_ARCHIVE 0))
    (x : LongName) :
    ∃ t y, run.getLast? = some t ∧ slotAt d t = dentSlot name11 ATTR_ARCHIVE 0 0 ∧
      y.st = (buildLfnEntries name (fatChecksum name11)).foldl addLfnEntry x.st ∧
      ∀ rest, visible d x (run ++ rest) = ⟨t, y⟩ :: visible d y.reset rest := by
  have hlfns := List.forall₂_take_append run _ _ hrun
  have hdent := List.forall₂_drop_append run _ _ hrun
  generalize hn : (buildLfnEntries name (fatChecksum name11)).length = n at hlfns hdent
  cases hdent' : run.drop n with
  | nil =>
    rw [hdent'] at hdent
    cases hdent
  | cons t rest =>
    rw [hdent'] at hdent
    cases hdent with
    | cons ht hnil =>
      cases hnil
      have hsplit : run = run.take n ++ [t] := by rw [← hdent', List.take_append_drop]
      have hkind : slotKind (slotAt d t) = .entry := by
        rw [ht]
        exact slotKind_newDent hfirst _ (.inl rfl) 0
      have hkinds : ∀ slot ∈ buildLfnEntries name (fatChecksum name11), slotKind slot = .lfn := by
        intro slot hslot
        rw [buildLfnEntries_eq] at hslot
        obtain ⟨i, hi, rfl⟩ := List.mem_map.mp hslot
        exact slotKind_nameSlot (List.mem_range.mp hi)
      obtain ⟨y, hy, hvis⟩ := visible_lfns _ _ hlfns hkinds x
      refine ⟨t, y, by rw [hsplit]; simp, ht, hy, fun rest => ?_⟩
      rw [hsplit, List.append_assoc, hvis, List.singleton_append, visible_cons_entry hkind,
        LongName.step,
        if_neg (by simp [hkind])]

variable {wanted : CStr}

/-- The lookup of a name when the slots of a new one stand in the directory, behind slots
that do not match. -/
theorem lookup_new (hs : Sane fs d) (hwalk : Walk fs d dir l) (hne : name ≠ [])
    (hname11 : name11.length = 11)
    (hfirst : name11.getD 0 0 ≠ 0 ∧ name11.getD 0 0 ≠ DELETED) (hwanted : wanted ≠ [])
    (hps : dirSlots fs l = pre ++ run ++ post)
    (hpre : ∀ p ∈ pre, slotKind (slotAt d p) ≠ .last)
    (hnone : ∀ e ∈ visible d .none pre, ¬ e.matches d wanted = true)
    (hrun : List.Forall₂ (fun p slot => slotAt d p = slot) run
      (newSlots name name11 ATTR_ARCHIVE 0))
    (hpost : ∀ x : LongName, ∀ e ∈ visible d x.reset post, ¬ e.matches d wanted = true) :
    ∃ t, run.getLast? = some t ∧
      fat32Lookup fs d dir wanted =
        some (if Shows name name11 wanted then some (newFile t) else none) := by
  obtain ⟨t, y, hlast, ht, hy, hvis⟩ := visible_newSlots hfirst hrun (stepAll d .none pre)
  refine ⟨t, hlast, ?_⟩
  have hmatch : Visible.matches d wanted ⟨t, y⟩ = true ↔ Shows name name11 wanted := by
    unfold Visible.matches
    rw [ht, hy]
    exact entryMatches_new hne hname11 wanted
  rw [fat32Lookup_eq hs hwalk hwanted]
  unfold dirEntries
  rw [hps, List.append_assoc, visible_append_of_ne_last _ hpre, hvis, List.find?_append,
    List.find?_eq_none.mpr hnone, Option.none_or, List.find?_cons]
  by_cases hshows : Shows name name11 wanted
  · rw [hmatch.mpr hshows, if_pos hshows]
    exact congrArg some (congrArg some (found_newDent ht))
  · rw [Bool.eq_false_iff.mpr fun h => hshows (hmatch.mp h), if_neg hshows]
    simp only
    rw [List.find?_eq_none.mpr (hpost y)]
    rfl

/-! ## Create and lookup -/

theorem newSlots_length (name : CStr) (name11 : List UInt8) (attr : UInt8) (cluster : Nat) :
    (newSlots name name11 attr cluster).length = lfnNeeded name + 1 := by
  unfold newSlots
  rw [buildLfnEntries_eq, List.length_append, List.length_map, List.length_range,
    List.length_singleton]

theorem newSlots_few (name : CStr) (name11 : List UInt8) (attr : UInt8) (cluster : Nat) :
    (newSlots name name11 attr cluster).length < 2 ^ 32 := by
  have := lfnNeeded_le name
  rw [newSlots_length]
  omega

theorem newSlots_isSlot {attr : UInt8} {cluster : Nat} :
    ∀ slot ∈ newSlots name name11 attr cluster, IsSlot slot := by
  intro slot hslot
  unfold newSlots at hslot
  rcases List.mem_append.mp hslot with hslot | hslot
  · rw [buildLfnEntries_eq] at hslot
    obtain ⟨i, -, rfl⟩ := List.mem_map.mp hslot
    exact isSlot_nameSlot _ i
  · rw [List.mem_singleton.mp hslot]
    exact isSlot_dentSlot _ _ _ _

theorem newSlots_ne_nil {attr : UInt8} {cluster : Nat} :
    newSlots name name11 attr cluster ≠ [] := by
  simp [newSlots]

theorem makeShortLoop_spec {m num : Nat} (h : makeShortLoop fs d dir name m num = some name11) :
    ∃ i, name11 = shortCandidate name i := by
  induction m generalizing num with
  | zero => exact ⟨1, (Option.some.inj h).symm⟩
  | succ m ih =>
    rw [makeShortLoop] at h
    split at h
    · cases h
    · exact ih h
    · exact ⟨num, (Option.some.inj h).symm⟩

/-- What a successful create has done. -/
theorem create_inv (h : fat32CreateFile fs d dir name = some (some t, d')) :
    name ≠ [] ∧ fat32Lookup fs d dir name = some none ∧
      ∃ i, makeShortName fs d dir name = some (shortCandidate name i) ∧ dirWriteEntries fs d dir
        (newSlots name (shortCandidate name i) ATTR_ARCHIVE 0) = some (some t, d') := by
  unfold fat32CreateFile at h
  split at h
  · cases h
  next hne =>
    refine ⟨hne, ?_⟩
    split at h
    · cases h
    · cases h
    next hlook =>
      refine ⟨hlook, ?_⟩
      split at h
      · cases h
      next name11 hshort =>
        obtain ⟨i, rfl⟩ := makeShortLoop_spec hshort
        exact ⟨i, hshort, h⟩

/-- The slots of a new name stand where the directory continues: the first run that is
long enough follows the device, or there is none and a new cluster can hold them. -/
def InPlace (fs : Fat32Fs) (d : Disk) (l : List Nat) (n : Nat) : Prop :=
  match firstRun d n [] (dirSlots fs l) with
  | some run => Contiguous run
  | none => n ≤ 16 * fs.sectorsPerCluster

theorem not_matches_of_lookup (hs : Sane fs d) (h : Walk fs d dir l) (hne : name ≠ [])
    (hlook : fat32Lookup fs d dir name = some none) :
    ∀ e ∈ dirEntries fs d l, ¬ e.matches d name = true := by
  rw [fat32Lookup_eq hs h hne, Option.some.injEq, Option.map_eq_none_iff] at hlook
  exact List.find?_eq_none.mp hlook

/-- Entries in slots that have not changed match as before. -/
theorem not_matches_of_same (hsame : ∀ p ∈ ps, slotAt d' p = slotAt d p)
    (h : ∀ e ∈ visible d x ps, ¬ e.matches d name = true) :
    ∀ e ∈ visible d' x ps, ¬ e.matches d' name = true := by
  intro e he hmatch
  rw [visible_congr hsame] at he
  have hsub : ((visible d x ps).map Visible.pos).Sublist ps := visible_sublist
  have hpos := hsub.subset (List.mem_map_of_mem he)
  unfold Visible.matches at hmatch
  rw [hsame e.pos hpos] at hmatch
  exact h e he hmatch

/-- What no entry of a scan matches, no entry before a run matches. -/
theorem not_matches_before (hpre : ∀ p ∈ pre, slotAt d p 0 ≠ 0)
    (hnone : ∀ e ∈ visible d .none (pre ++ run ++ post), ¬ e.matches d name = true) :
    ∀ e ∈ visible d .none pre, ¬ e.matches d name = true := by
  intro e he
  refine hnone e ?_
  rw [List.append_assoc, visible_append_of_ne_last _ fun p hp => by
    rw [ne_eq, slotKind_eq_last_iff]
    exact hpre p hp]
  exact List.mem_append_left _ he

theorem visible_of_zero (h : ∀ p ∈ ps, slotAt d p 0 = 0) : visible d x ps = [] := by
  cases ps with
  | nil => rw [visible]
  | cons p ps => exact visible_cons_last (slotKind_eq_last_iff.mpr (h p (by simp)))

/-- The entries behind a run that is overwritten do not match: they are the same as
before, or the directory ended in the run. -/
theorem post_not_matches (hends : EndsProperly d (pre ++ run ++ post)) (hrun : run ≠ [])
    (hfree : ∀ p ∈ run, IsFree d p) (hpre : ∀ p ∈ pre, slotAt d p 0 ≠ 0)
    (hsame : ∀ p ∈ post, slotAt d' p = slotAt d p)
    (hnone : ∀ e ∈ visible d .none (pre ++ run ++ post), ¬ e.matches d name = true)
    (x : LongName) :
    ∀ e ∈ visible d' x.reset post, ¬ e.matches d' name = true := by
  by_cases hzero : ∃ p ∈ run, slotAt d p 0 = 0
  · obtain ⟨p, hp, hp0⟩ := hzero
    have hpost : ∀ q ∈ post, slotAt d' q 0 = 0 := by
      intro q hq
      rw [hsame q hq]
      exact (List.pairwise_append.mp hends).2.2 p (List.mem_append_right pre hp) q hq hp0
    rw [visible_of_zero hpost]
    simp
  · have hdel : ∀ p ∈ run, slotKind (slotAt d p) = .deleted := by
      intro p hp
      exact slotKind_of_deleted ((hfree p hp).resolve_left fun h0 => hzero ⟨p, hp, h0⟩)
    obtain ⟨y, hy⟩ := visible_append_of_deleted (x := stepAll d .none pre) post hrun hdel
    have hbefore : ∀ e ∈ visible d y.reset post, ¬ e.matches d name = true := by
      intro e he
      refine hnone e ?_
      rw [List.append_assoc, visible_append_of_ne_last _ fun p hp => by
        rw [ne_eq, slotKind_eq_last_iff]
        exact hpre p hp, hy]
      exact List.mem_append_right _ he
    have hmap := visible_matches_congr name (y.equiv_reset x) hsame
    intro e he hmatch
    have : Visible.matches d' name e ∈ (visible d y.reset post).map (Visible.matches d name) := by
      rw [← hmap]
      exact List.mem_map_of_mem he
    obtain ⟨e', he', heq⟩ := List.mem_map.mp this
    exact hbefore e' he' (heq.trans hmatch)

/-- A write of slots behind the table keeps the chains. -/
theorem Written.nextCluster (hs : Sane fs d) (hw : Written d d' run slots)
    (hmem : ∀ p ∈ run, p ∈ dirSlots fs l) (hl : ∀ x ∈ l, InVolume fs x)
    (hc : c < fs.totalClusters + 2) :
    fatNextCluster fs d' c = fatNextCluster fs d c := by
  refine fatNextCluster_congr hs hw.sameDevice (fun s hlt => hw.outside s ?_) hc
  rintro p hp rfl
  obtain ⟨x, hx, k, -, heq, -⟩ := mem_dirSlots.mp (hmem p hp)
  have := dataStart_le_firstSector hs (hl x hx)
  omega

theorem dirSlots_append (l l' : List Nat) :
    dirSlots fs (l ++ l') = dirSlots fs l ++ dirSlots fs l' := by
  simp [dirSlots]

/-- Where only a free cluster has changed, the slots of a directory are as before. -/
theorem slotAt_of_free (hs : Sane fs d) (hchain : Chain fs d dir l) (hfree : Free fs d c)
    (hdata : ∀ s, fs.dataStart ≤ s → ¬ IsSectorOf fs c s → d'.data s = d.data s)
    (hp : p ∈ dirSlots fs l) : slotAt d' p = slotAt d p := by
  obtain ⟨x, hx, k, hk, heq, -⟩ := mem_dirSlots.mp hp
  unfold slotAt
  rw [hdata p.1 (dataStart_le_of_mem hs hchain.inVolume hp)]
  rintro ⟨k', hk', heq'⟩
  have hsame :=
    (firstSector_add_inj hs (hchain.inVolume x hx) hfree.1 hk hk' (heq.symm.trans heq')).1
  exact hchain.not_free hx (hsame ▸ hfree)

/-- The first run of a directory, between the slots before it and those behind it. -/
structure RunParts (d : Disk) (ps pre run post : List Place) : Prop where
  split : ps = pre ++ run ++ post
  ne_nil : run ≠ []
  free : ∀ p ∈ run, IsFree d p
  before : ∀ p ∈ pre, slotAt d p 0 ≠ 0
  apart : ∀ p ∈ run, p ∉ pre ∧ p ∉ post

theorem RunParts.mem (h : RunParts d ps pre run post) (hp : p ∈ pre ∨ p ∈ run ∨ p ∈ post) :
    p ∈ ps := by
  rw [h.split, List.mem_append, List.mem_append, or_assoc]
  exact hp

theorem runParts (hends : EndsProperly d ps) (hnodup : ps.Nodup) (hn : 0 < n)
    (h : firstRun d n [] ps = some run) :
    run.length = n ∧ ∃ pre post, RunParts d ps pre run post := by
  obtain ⟨pre, post, hsplit, hlen, hfree, hpre⟩ := firstRun_split hends hn h
  have hne : run ≠ [] := by
    rintro rfl
    exact absurd hlen.symm hn.ne'
  refine ⟨hlen, pre, post, hsplit, hne, hfree, hpre, fun p hp => ?_⟩
  rw [hsplit] at hnodup
  obtain ⟨hfront, -, hback⟩ := List.nodup_append.mp hnodup
  obtain ⟨-, -, hmid⟩ := List.nodup_append.mp hfront
  exact ⟨fun hmem => hmid p hmem p hp rfl,
    fun hmem => hback p (List.mem_append_right pre hp) p hmem rfl⟩

/-- The slots go to a run of the directory: a lookup that found nothing finds the new
entry as far as it shows the name. -/
theorem create_run (hs : Sane fs d) (hchain : Chain fs d dir l)
    (hends : EndsProperly d (dirSlots fs l))
    (hne : name ≠ []) (hwanted : wanted ≠ []) (hlook : fat32Lookup fs d dir wanted = some none)
    {i : Nat}
    (hret : dirWriteEntries fs d dir (newSlots name (shortCandidate name i) ATTR_ARCHIVE 0) =
      some (some t, d'))
    (hrun : firstRun d (lfnNeeded name + 1) [] (dirSlots fs l) = some run)
    (hcont : Contiguous run) :
    fat32Lookup fs d' dir wanted =
      some (if Shows name (shortCandidate name i) wanted then some (newFile t) else none) := by
  have hnodup := dirSlots_nodup hs hchain.inVolume hchain.linked.nodup
  obtain ⟨hlenRun, pre, post, hparts⟩ := runParts hends hnodup (Nat.succ_pos _) hrun
  have hmem : ∀ p ∈ run, p ∈ dirSlots fs l := fun p hp => hparts.mem (.inr (.inl hp))
  have hnone := not_matches_of_lookup hs hchain.toWalk hwanted hlook
  unfold dirEntries at hnone
  rw [hparts.split] at hends hnone
  have hslots := newSlots_length name (shortCandidate name i) ATTR_ARCHIVE 0
  obtain ⟨d₁, hwrite, hwritten⟩ :=
    dirWriteEntries_run hs hchain.toWalk newSlots_isSlot newSlots_ne_nil
    (newSlots_few _ _ _ _) (hslots.symm ▸ hrun) (hlenRun.trans hslots.symm) hmem hcont
  rw [hwrite, Option.some.injEq, Prod.mk.injEq] at hret
  obtain ⟨hlast, rfl⟩ := hret
  have hsamePre : ∀ p ∈ pre, slotAt d₁ p = slotAt d p := fun p hp =>
    hwritten.others p fun hp' => (hparts.apart p hp').1 hp
  have hsamePost : ∀ p ∈ post, slotAt d₁ p = slotAt d p := fun p hp =>
    hwritten.others p fun hp' => (hparts.apart p hp').2 hp
  obtain ⟨t', hlast', hfound⟩ := lookup_new (hs.of_sameDevice hwritten.sameDevice)
    (hchain.toWalk.congr fun x hx => hwritten.nextCluster hs hmem hchain.inVolume
      (hchain.inVolume x hx).2)
    hne (shortCandidate_length name i) (shortCandidate_first name i) hwanted hparts.split
    (fun p hp => by
      rw [hsamePre p hp, ne_eq, slotKind_eq_last_iff]
      exact hparts.before p hp)
    (not_matches_of_same hsamePre (not_matches_before hparts.before hnone)) hwritten.slots
    (post_not_matches hends hparts.ne_nil hparts.free hparts.before hsamePost hnone)
  rw [hlast, Option.some.injEq] at hlast'
  rw [hfound, hlast']

/-- The slots go to a new cluster of the directory: they are met as far as the directory
did not end before. -/
theorem create_ext (hs : Sane fs d) (hchain : Chain fs d dir l) (hl : l ≠ [])
    (hne : name ≠ []) (hwanted : wanted ≠ []) (hlook : fat32Lookup fs d dir wanted = some none)
    {i : Nat}
    (hret : dirWriteEntries fs d dir (newSlots name (shortCandidate name i) ATTR_ARCHIVE 0) =
      some (some t, d'))
    (hrun : firstRun d (lfnNeeded name + 1) [] (dirSlots fs l) = none)
    (hfit : lfnNeeded name + 1 ≤ 16 * fs.sectorsPerCluster) :
    fat32Lookup fs d' dir wanted =
      some (if Shows name (shortCandidate name i) wanted ∧ ∀ p ∈ dirSlots fs l, slotAt d p 0 ≠ 0
        then some (newFile t) else none) := by
  have hslots := newSlots_length name (shortCandidate name i) ATTR_ARCHIVE 0
  rw [← hslots] at hrun hfit
  rcases dirWriteEntries_ext hs hchain hl newSlots_isSlot newSlots_ne_nil hrun hfit
    with ⟨c, d₁, hwrite, happ⟩ | ⟨hwrite, -⟩
  · rw [hwrite, Option.some.injEq, Prod.mk.injEq] at hret
    obtain ⟨hlast, rfl⟩ := hret
    have hs₁ := hs.of_sameDevice happ.sameDevice
    have hsame : ∀ p ∈ dirSlots fs l, slotAt d₁ p = slotAt d p := fun p hp =>
      slotAt_of_free hs hchain happ.free happ.data hp
    have hnone := not_matches_of_same hsame (not_matches_of_lookup hs hchain.toWalk hwanted hlook)
    have hsplit : dirSlots fs (l ++ [c]) = dirSlots fs l ++
        (dirSlots fs [c]).take (newSlots name (shortCandidate name i) ATTR_ARCHIVE 0).length ++
        (dirSlots fs [c]).drop (newSlots name (shortCandidate name i) ATTR_ARCHIVE 0).length := by
      rw [dirSlots_append, List.append_assoc, List.take_append_drop]
    by_cases hzero : ∀ p ∈ dirSlots fs l, slotAt d p 0 ≠ 0
    · obtain ⟨t', hlast', hfound⟩ := lookup_new hs₁ happ.chain.toWalk hne
        (shortCandidate_length name i) (shortCandidate_first name i) hwanted hsplit
        (fun p hp => by
          rw [hsame p hp, ne_eq, slotKind_eq_last_iff]
          exact hzero p hp)
        hnone happ.run
        (fun x e he => by
          rw [visible_of_zero happ.rest] at he
          cases he)
      rw [hlast, Option.some.injEq] at hlast'
      rw [hfound, hlast']
      exact congrArg some (if_congr (and_iff_left hzero).symm rfl rfl)
    · -- The scan stops in the old clusters, as it did before.
      rw [if_neg fun h => hzero h.2, fat32Lookup_eq hs₁ happ.chain.toWalk hwanted]
      push Not at hzero
      obtain ⟨p, hp, hp0⟩ := hzero
      unfold dirEntries
      rw [dirSlots_append, visible_append_of_last _
        ⟨p, hp, by rw [hsame p hp, slotKind_eq_last_iff]; exact hp0⟩,
          List.find?_eq_none.mpr hnone]
      rfl
  · rw [hwrite] at hret
    cases hret

/-- A file that was created is found by its name exactly if the long name reads back
and, where the directory got a new cluster, it had no slot that ends it. -/
theorem create_lookup_iff (hs : Sane fs d) (hchain : Chain fs d dir l) (hl : l ≠ [])
    (hends : EndsProperly d (dirSlots fs l)) (hprint : Printable name) (hlen : name.length ≤ 255)
    (hplace : InPlace fs d l (lfnNeeded name + 1))
    (hret : fat32CreateFile fs d dir name = some (some t, d')) :
    fat32Lookup fs d' dir name = some (some (newFile t)) ↔ ReadsBack name ∧
      (firstRun d (lfnNeeded name + 1) [] (dirSlots fs l) = none →
        ∀ p ∈ dirSlots fs l, slotAt d p 0 ≠ 0) := by
  obtain ⟨hne, hlook, i, -, hwrite⟩ := create_inv hret
  have hself := shows_self_iff hprint hne hlen (shortCandidate name i)
  unfold InPlace at hplace
  cases hrun : firstRun d (lfnNeeded name + 1) [] (dirSlots fs l) with
  | some run =>
    rw [hrun] at hplace
    rw [create_run hs hchain hends hne hne hlook hwrite hrun hplace]
    simp [hself]
  | none =>
    rw [hrun] at hplace
    rw [create_ext hs hchain hl hne hne hlook hwrite hrun hplace]
    simp [hself]

/-! ## An empty directory -/

/-- `readme`. -/
def readmeName : CStr := [114, 101, 97, 100, 109, 101]

/-- `abcdefghijklmnop`: its long name takes two slots. -/
def lettersName : CStr :=
  [97, 98, 99, 100, 101, 102, 103, 104, 105, 106, 107, 108, 109, 110, 111, 112]

/-- A volume whose directory has never been used. -/
def emptyDir : Disk := smallDisk fun _ => 0

theorem endsProperly_emptyDir : EndsProperly emptyDir (dirSlots smallFs [2]) := by
  unfold EndsProperly
  decide +kernel

/-- The device after `create(name)`. -/
def afterCreate (name : CStr) : Disk :=
  ((fat32CreateFile smallFs emptyDir 2 name).getD (none, emptyDir)).2

theorem create_emptyDir
    (h : (fat32CreateFile smallFs emptyDir 2 name).map Prod.fst = some (some t)) :
    fat32CreateFile smallFs emptyDir 2 name = some (some t, afterCreate name) := by
  obtain ⟨r, hr, hfst⟩ := Option.map_eq_some_iff.mp h
  unfold afterCreate
  rw [hr, Option.getD_some, ← hfst]

theorem inPlace_emptyDir : InPlace smallFs emptyDir [2] (lfnNeeded readmeName + 1) := by
  have hrun : firstRun emptyDir (lfnNeeded readmeName + 1) [] (dirSlots smallFs [2]) =
      some [(2, 0), (2, 1)] := by
    decide +kernel
  unfold InPlace
  rw [hrun]
  simp only [Contiguous]
  decide

/-- The file `readme` is found. -/
theorem create_lookup_iff_readme :
    fat32CreateFile smallFs emptyDir 2 readmeName = some (some (2, 1), afterCreate readmeName) ∧
      (fat32Lookup smallFs (afterCreate readmeName) 2 readmeName = some (some (newFile (2, 1))) ↔
        ReadsBack readmeName ∧
          (firstRun emptyDir (lfnNeeded readmeName + 1) [] (dirSlots smallFs [2]) = none →
            ∀ p ∈ dirSlots smallFs [2], slotAt emptyDir p 0 ≠ 0)) := by
  have hret : fat32CreateFile smallFs emptyDir 2 readmeName =
      some (some (2, 1), afterCreate readmeName) :=
    create_emptyDir (by decide +kernel)
  exact ⟨hret,
    create_lookup_iff (sane_smallDisk _) (chain_smallDisk _) (by simp) endsProperly_emptyDir
    (by decide +kernel) (by decide) inPlace_emptyDir hret⟩

/-- The file `abcdefghijklmnop` is created and not found: its name reads back as
`nopabcdefghijklm`. -/
theorem letters_not_found :
    Sane smallFs emptyDir ∧ Chain smallFs emptyDir 2 [2] ∧
      EndsProperly emptyDir (dirSlots smallFs [2]) ∧
      Printable lettersName ∧ lettersName.length ≤ 255 ∧
      fat32CreateFile smallFs emptyDir 2 lettersName =
        some (some (2, 2), afterCreate lettersName) ∧
      fat32Lookup smallFs (afterCreate lettersName) 2 lettersName = some none := by
  refine ⟨sane_smallDisk _, chain_smallDisk _, endsProperly_emptyDir,
    by decide +kernel, by decide,
    create_emptyDir (by decide +kernel), by decide +kernel⟩

end Lumin.Fs.Fat32
