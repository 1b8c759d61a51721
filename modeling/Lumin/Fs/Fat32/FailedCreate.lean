import Lumin.Fs.Fat32.DirWrite
import Lumin.Fs.Fat32.ShortNames

/-!
# A create that fails

`dir_write_entries` writes its slots one by one and takes none back when a later one
lies behind the end of the device; a cluster that it has appended to the directory stays
there as well.  A failed `fat32_create_file` or `fat32_mkdir` has changed nothing exactly
if it failed before the first slot.
-/

namespace Lumin.Fs.Fat32

open Lumin.Lib Lumin.Block

variable {fs : Fat32Fs} {d d' d₁ : Disk} {c cl dir n : Nat} {l taken : List Nat} {p q : Place}
  {run : List Place} {slot : Slot} {slots : List Slot} {name : CStr} {r : Option Place}

/-! ## What a failure leaves -/

/-- The table entries and the clusters in use are what they were. -/
structure Undone (fs : Fat32Fs) (d d' : Disk) : Prop where
  table : ∀ c < fs.totalClusters + 2, fatNextCluster fs d' c = fatNextCluster fs d c
  data : ∀ c, InVolume fs c → ¬ Free fs d c → ∀ s, IsSectorOf fs c s → d'.data s = d.data s

theorem Undone.refl (fs : Fat32Fs) (d : Disk) :
    Undone fs d d := ⟨fun _ _ => rfl, fun _ _ _ _ _ => rfl⟩

/-- A call that fails before it writes. -/
theorem undone_of_fails {α : Type} {call : Option (Option α × Disk)} (h : call = some (none, d))
    (d' : Disk)
    (hret : call = some (none, d')) : Undone fs d d' := by
  rw [h] at hret
  cases hret
  exact .refl fs d

/-- The places that `do_write_at_position` computes from `p` on lie on the device. -/
def OnDevice (d : Disk) (p : Place) (n : Nat) : Prop := ∀ q ∈ runPlaces p n, q.1 < d.sectorCount

/-- The places for `n` slots lie on the device: those from the first run of the directory
on, or from the start of the first free cluster on that is not in `taken`. -/
def RunFits (fs : Fat32Fs) (d : Disk) (l taken : List Nat) (n : Nat) : Prop :=
  match firstRun d n [] (dirSlots fs l) with
  | some run => ∀ p ∈ run.head?, OnDevice d p n
  | none => ∀ c, IsLeast {x | Free fs d x ∧ x ∉ taken} c → OnDevice d (firstSector fs c, 0) n

/-- A trace of a write: a slot of the directory has changed, or a cluster is not free
any more. -/
structure LeftBehind (fs : Fat32Fs) (d d' : Disk) (l : List Nat) : Prop where
  sameDevice : d.SameDevice d'
  table : ∀ x < fs.totalClusters + 2, x ∉ l → ¬ Free fs d x →
    fatNextCluster fs d' x = fatNextCluster fs d x
  trace : (∃ p ∈ dirSlots fs l, slotAt d' p ≠ slotAt d p) ∨
    ∃ c, Free fs d c ∧ fatNextCluster fs d' c ≠ FAT32_FREE

theorem LeftBehind.not_undone (h : LeftBehind fs d d' l) (hchain : Chain fs d dir l) :
    ¬ Undone fs d d' := by
  intro hundone
  rcases h.trace with ⟨p, hp, hslot⟩ | ⟨c, hfree, hentry⟩
  · obtain ⟨x, hx, k, hk, hsec, -⟩ := mem_dirSlots.mp hp
    apply hslot
    unfold slotAt
    rw [hundone.data x (hchain.inVolume x hx) (hchain.not_free hx) p.1 ⟨k, hk, hsec⟩]
  · apply hentry
    rw [hundone.table c hfree.1.2]
    exact hfree.2

/-! ## The write -/

/-- The run is written if its places lie on the device. -/
theorem writeRun_ne_none (hw : d.Works) (hslots : NameSlots slots)
    (hon : OnDevice d p slots.length)
    (h : writeRun p.2 p.1 0 slots d = (r, d')) : r ≠ none := by
  obtain ⟨d₁, hwrite, -⟩ := writeRun_places hw hon hslots.isSlot hslots.ne_nil hslots.few
  rw [h, Prod.mk.injEq] at hwrite
  rw [hwrite.1, ne_eq, List.getLast?_eq_none_iff]
  intro hnil
  have hlen := runPlaces_length p slots.length
  rw [hnil] at hlen
  exact hslots.ne_nil (List.length_eq_zero_iff.mp hlen.symm)

theorem writeRun_eq_none (hoff : ¬ OnDevice d p slots.length)
    (h : writeRun p.2 p.1 0 slots d = (r, d')) : r = none := by
  cases r with
  | none => rfl
  | some t =>
    refine absurd (fun q hq => ?_) hoff
    obtain ⟨j, hj, rfl⟩ := List.mem_map.mp hq
    have hinside := writeRun_inside h j (List.mem_range.mp hj)
    rwa [Nat.zero_add] at hinside

/-- The first slot is written in any case. -/
theorem writeRun_first (hw : d.Works) (hp : p.2 < 16) (hsector : p.1 < 2 ^ 32)
    (hin : p.1 < d.sectorCount)
    (hslots : NameSlots slots) (h : writeRun p.2 p.1 0 slots d = (r, d')) :
    ∃ slot ∈ slots, slotAt d' p = slot := by
  have hfew := hslots.few
  have hisSlot := hslots.isSlot
  obtain ⟨slot, rest, rfl⟩ := List.exists_cons_of_ne_nil hslots.ne_nil
  rw [List.length_cons] at hfew
  have hfirst := runPlace_zero hp hsector
  refine ⟨slot, by simp, ?_⟩
  rcases writeRun_cons h with ⟨hfail, -⟩ | ⟨r', htail⟩
  · rw [hfirst, writeSlot_of_works hw hin] at hfail
    cases hfail
  · obtain ⟨-, -, hother⟩ := writeRun_frame (fun s hs => hisSlot s (by simp [hs])) htail
    rw [hother p fun j hj heq => ?_, hfirst, slotAt_putAt (hisSlot slot (by simp)), if_pos rfl]
    have := runPlace_inj (by omega) (by omega) (heq.trans hfirst.symm)
    omega

/-! ## Slots for the directory -/

/-- Slots for a run of the directory: none is left behind if all places lie on the
device, else the first is. -/
theorem dirWriteEntries_run_outcome (hs : Sane fs d) (hreserved : 0 < fs.fatStart)
    (hsectors : fs.dataStart + fs.totalClusters * fs.sectorsPerCluster < 2 ^ 32)
    (h : Chain fs d dir l)
    (hslots : NameSlots slots) (hrun : firstRun d slots.length [] (dirSlots fs l) = some run) :
    ∃ r d', dirWriteEntries fs d dir slots = some (r, d') ∧
      (RunFits fs d l [] slots.length → r ≠ none) ∧
      (¬ RunFits fs d l [] slots.length → r = none ∧ LeftBehind fs d d' l) := by
  obtain ⟨p, hhead, hwrite⟩ := dirWriteEntries_some hs h.toWalk hrun
  obtain ⟨⟨pre, post, hsplit, -⟩, -, hfree⟩ :=
    firstRun_stretch (by simp) (List.length_pos_iff.mpr hslots.ne_nil) hrun
  rw [List.nil_append] at hsplit
  have hprun := List.mem_of_mem_head? hhead
  have hpmem : p ∈ dirSlots fs l := by
    rw [hsplit]
    simp [hprun]
  obtain ⟨-, -, -, -, -, hp⟩ := mem_dirSlots.mp hpmem
  have hlt := sector_lt_of_mem hs h.inVolume hpmem
  have hinside := hs.data_inside
  have hiff : RunFits fs d l [] slots.length ↔ OnDevice d p slots.length := by
    unfold RunFits
    rw [hrun]
    refine ⟨fun hfits => hfits p hhead, fun hon x hx => ?_⟩
    rwa [← Option.some.inj (hhead.symm.trans hx)]
  rcases hres : writeRun p.2 p.1 0 slots d with ⟨r, d'⟩
  refine ⟨r, d', hwrite.trans (congrArg some hres), fun hon => ?_, fun hoff => ⟨?_, ?_⟩⟩
  · exact writeRun_ne_none hs.works hslots (hiff.mp hon) hres
  · exact writeRun_eq_none (fun hon => hoff (hiff.mpr hon)) hres
  · obtain ⟨slot, hslot, hat⟩ := writeRun_first hs.works hp (by omega) (by omega) hslots hres
    refine ⟨(writeRun_frame hslots.isSlot hres).1,
      fun x hx _ _ => ?_, .inl ⟨p, hpmem, fun hsame => ?_⟩⟩
    · have hstart := dataStart_le_of_mem hs h.inVolume hpmem
      exact writeRun_nextCluster hs hreserved hstart (by omega) hslots hres hx
    · have hused := hslots.used slot hslot
      rw [← hat, hsame] at hused
      exact (hfree p hprun).elim hused.1 hused.2

/-- Slots for a new cluster: the cluster stays in the directory if they do not fit. -/
theorem dirWriteEntries_ext_outcome (hs : Sane fs d) (hreserved : 0 < fs.fatStart)
    (hsectors : fs.dataStart + fs.totalClusters * fs.sectorsPerCluster < 2 ^ 32)
    (h : Chain fs d dir l)
    (hl : l ≠ []) (hslots : NameSlots slots)
    (hrun : firstRun d slots.length [] (dirSlots fs l) = none) :
    ∃ r d', dirWriteEntries fs d dir slots = some (r, d') ∧
      (RunFits fs d l [] slots.length → r = none → d' = d) ∧
      (¬ RunFits fs d l [] slots.length → r = none ∧ LeftBehind fs d d' l) := by
  have hset : {x | Free fs d x ∧ x ∉ ([] : List Nat)} = {x | Free fs d x} := by simp
  rw [dirWriteEntries_none hs h.toWalk hrun]
  rcases dirWriteEntriesExt_spec hs h hl slots with ⟨c, d₁, hleast, hgrown, -, hwrite⟩ | ⟨hfail,
      hnone⟩
  swap
  · refine ⟨none, d, hfail, fun _ _ => rfl, fun hoff => absurd ?_ hoff⟩
    unfold RunFits
    rw [hrun, hset]
    exact fun c hc => absurd hc.1 (hnone c)
  have hfree := hleast.1
  have hs₁ := hs.of_sameDevice hgrown.sameData.1
  obtain ⟨hdev, -, -⟩ := zeroCluster_spec hs₁ hfree.1
  have hs₂ := hs₁.of_sameDevice hdev
  have hcount : (zeroCluster fs d₁ c).sectorCount = d.sectorCount :=
    (hgrown.sameData.1.trans hdev).1
  have hiff : RunFits fs d l [] slots.length ↔
      OnDevice (zeroCluster fs d₁ c) (firstSector fs c, 0) slots.length := by
    unfold RunFits OnDevice
    rw [hrun, hset, hcount]
    exact ⟨fun hfits => hfits c hleast, fun hon x hx => by rwa [hx.unique hleast]⟩
  rcases hres : writeRun 0 (firstSector fs c) 0 slots (zeroCluster fs d₁ c) with ⟨r, d'⟩
  have htable : ∀ x < fs.totalClusters + 2, fatNextCluster fs d' x = fatNextCluster fs d₁ x :=
    fun x hx =>
    writeRun_ext_nextCluster hs hreserved hsectors hgrown hslots hres hx
  refine ⟨r, d', hwrite.trans (congrArg some hres), fun hon hr => ?_, fun hoff => ⟨?_, ?_⟩⟩
  · exact absurd hr (writeRun_ne_none hs₂.works hslots (hiff.mp hon) hres)
  · exact writeRun_eq_none (p := (firstSector fs c, 0)) (fun hon => hoff (hiff.mpr hon)) hres
  · refine ⟨(hgrown.sameData.1.trans hdev).trans (writeRun_frame hslots.isSlot hres).1,
      fun x hx hnot hused => ?_, .inr ⟨c, hfree, ?_⟩⟩
    · rw [htable x hx]
      refine hgrown.others x hx fun hmem => ?_
      rcases List.mem_append.mp hmem with hmem | hmem
      · exact hnot hmem
      · exact hused (List.mem_singleton.mp hmem ▸ hfree)
    · rw [htable c hfree.1.2]
      exact hgrown.chain.used c (by simp)

/-- A call of `dir_write_entries` fails without a change, or it leaves something
behind. -/
theorem dirWriteEntries_outcome (hs : Sane fs d) (hreserved : 0 < fs.fatStart)
    (hsectors : fs.dataStart + fs.totalClusters * fs.sectorsPerCluster < 2 ^ 32)
    (h : Chain fs d dir l)
    (hl : l ≠ []) (hslots : NameSlots slots) :
    ∃ r d', dirWriteEntries fs d dir slots = some (r, d') ∧
      (RunFits fs d l [] slots.length → r = none → d' = d) ∧
      (¬ RunFits fs d l [] slots.length → r = none ∧ LeftBehind fs d d' l) := by
  cases hrun : firstRun d slots.length [] (dirSlots fs l) with
  | some run =>
    obtain ⟨r, d', hwrite, hfits, hoff⟩ :=
      dirWriteEntries_run_outcome hs hreserved hsectors h hslots hrun
    exact ⟨r, d', hwrite, fun hon hr => absurd hr (hfits hon), hoff⟩
  | none => exact dirWriteEntries_ext_outcome hs hreserved hsectors h hl hslots hrun

/-! ## Create -/

/-- When `fat32_create_file` has nothing to take back: the name is empty or exists, or
the slots fit. -/
def CreateFits (fs : Fat32Fs) (d : Disk) (dir : Nat) (l : List Nat) (name : CStr) : Prop :=
  name = [] ∨ fat32Lookup fs d dir name ≠ some none ∨ RunFits fs d l [] (lfnNeeded name + 1)

/-- A failed `fat32_create_file` has changed nothing exactly if it got no slot. -/
theorem createFile_undone_iff (hs : Sane fs d) (hreserved : 0 < fs.fatStart)
    (hsectors : fs.dataStart + fs.totalClusters * fs.sectorsPerCluster < 2 ^ 32)
    (h : Chain fs d dir l)
    (hl : l ≠ []) (name : CStr) :
    (∀ d', fat32CreateFile fs d dir name = some (none, d') → Undone fs d d') ↔
      CreateFits fs d dir l name := by
  by_cases hne : name = []
  · exact iff_of_true (undone_of_fails (if_pos hne)) (.inl hne)
  cases hlook : fat32Lookup fs d dir name with
  | none =>
    rw [fat32Lookup_eq hs h.toWalk hne] at hlook
    cases hlook
  | some found =>
    cases found with
    | some f =>
      refine iff_of_true (undone_of_fails ?_) (.inr (.inl (by rw [hlook]; simp)))
      unfold fat32CreateFile
      rw [if_neg hne, hlook]
    | none =>
      have hmake := makeShortName_eq (h.toWalk.readable hs) name
      obtain ⟨r, d', hwrite, hfits, hoff⟩ := dirWriteEntries_outcome hs hreserved hsectors h hl
        (nameSlots_newSlots hne _ (show ATTR_ARCHIVE ≠ ATTR_LFN by decide) 0)
      rw [newSlots_length] at hfits hoff
      have hcall : fat32CreateFile fs d dir name = some (r, d') := by
        unfold fat32CreateFile
        rw [if_neg hne, hlook]
        simp only [hmake]
        exact hwrite
      have hiff : CreateFits fs d dir l name ↔ RunFits fs d l [] (lfnNeeded name + 1) := by
        unfold CreateFits
        rw [hlook]
        simp [hne]
      rw [hiff, hcall]
      constructor
      · intro hundone
        by_contra hnot
        obtain ⟨rfl, hleft⟩ := hoff hnot
        exact hleft.not_undone h (hundone d' rfl)
      · intro hon d'' hret
        cases hret
        rw [hfits hon rfl]
        exact .refl fs d

/-! ## Mkdir -/

/-- When `fat32_mkdir` has nothing to take back but its cluster, which is the first free
one. -/
def MkdirFits (fs : Fat32Fs) (d : Disk) (dir : Nat) (l : List Nat) (name : CStr) : Prop :=
  name = [] ∨ fat32Lookup fs d dir name ≠ some none ∨
    ∀ cl, IsLeast {x | Free fs d x} cl → RunFits fs d l [cl] (lfnNeeded name + 1)

/-- The cluster `cl` of a new directory has been taken and filled. -/
structure Prepared (fs : Fat32Fs) (d d₁ : Disk) (cl : Nat) : Prop where
  sameDevice : d.SameDevice d₁
  free : Free fs d cl
  entry : fatNextCluster fs d₁ cl = FAT32_EOC
  others : ∀ x < fs.totalClusters + 2, x ≠ cl → fatNextCluster fs d₁ x = fatNextCluster fs d x
  data : ∀ s, fs.dataStart ≤ s → ¬ IsSectorOf fs cl s → d₁.data s = d.data s

theorem Prepared.chain (hp : Prepared fs d d₁ cl) (h : Chain fs d dir l) : Chain fs d₁ dir l :=
  h.congr fun x hx => hp.others x (h.inVolume x hx).2 fun heq => h.not_free hx (heq ▸ hp.free)

theorem Prepared.free_iff (hp : Prepared fs d d₁ cl) : Free fs d₁ c ↔ Free fs d c ∧ c ≠ cl := by
  constructor
  · intro hfree
    have hne : c ≠ cl := by
      rintro rfl
      have hentry := hfree.2
      rw [hp.entry] at hentry
      cases hentry
    exact ⟨⟨hfree.1, (hp.others c hfree.1.2 hne).symm.trans hfree.2⟩, hne⟩
  · rintro ⟨hfree, hne⟩
    exact ⟨hfree.1, (hp.others c hfree.1.2 hne).trans hfree.2⟩

theorem firstRun_congr {ps : List Place} (hsame : ∀ p ∈ ps, slotAt d' p = slotAt d p) (n : Nat)
    (run : List Place) : firstRun d' n run ps = firstRun d n run ps := by
  induction ps generalizing run with
  | nil => rfl
  | cons p ps ih =>
    have hiff : IsFree d' p ↔ IsFree d p := by
      unfold IsFree
      rw [hsame p (by simp)]
    have ih' := ih fun q hq => hsame q (by simp [hq])
    rw [firstRun, firstRun, ih', ih']
    simp only [hiff]

/-- The slots fit after the preparation if they fit without its cluster. -/
theorem Prepared.runFits_iff (hs : Sane fs d) (hp : Prepared fs d d₁ cl) (h : Chain fs d dir l)
    (n : Nat) :
    RunFits fs d₁ l [] n ↔ RunFits fs d l [cl] n := by
  have hset : {x | Free fs d₁ x ∧ x ∉ ([] : List Nat)} = {x | Free fs d x ∧ x ∉ [cl]} := by
    ext x
    simp [hp.free_iff]
  unfold RunFits OnDevice
  rw [firstRun_congr (fun p hmem => slotAt_of_free hs h hp.free hp.data hmem) n [], hset,
    hp.sameDevice.1]

/-- Writes to the cluster itself. -/
theorem Prepared.fill (hs : Sane fs d) (hp : Prepared fs d d₁ cl) (hdev : d₁.SameDevice d')
    (hdata : ∀ s, ¬ IsSectorOf fs cl s → d'.data s = d₁.data s) : Prepared fs d d' cl := by
  have htable : ∀ x < fs.totalClusters + 2, fatNextCluster fs d' x = fatNextCluster fs d₁ x := by
    refine fun x hx => fatNextCluster_congr (hs.of_sameDevice hp.sameDevice) hdev
      (fun s hlt => hdata s ?_) hx
    rintro ⟨k, -, rfl⟩
    have := dataStart_le_firstSector hs hp.free.1
    omega
  refine ⟨hp.sameDevice.trans hdev, hp.free, ?_, fun x hx hne => ?_, fun s hs' hnot => ?_⟩
  · rw [htable cl hp.free.1.2, hp.entry]
  · rw [htable x hx, hp.others x hx hne]
  · rw [hdata s hnot, hp.data s hs' hnot]

theorem Prepared.putAt (hs : Sane fs d) (hp : Prepared fs d d₁ cl) (ei : Nat) (slot : Slot) :
    Prepared fs d (putAt d₁ (firstSector fs cl, ei) slot) cl := by
  refine hp.fill hs (sameDevice_setSector _ _ _) fun s hnot => setSector_data_ne _ _ ?_
  rintro rfl
  exact hnot ⟨0, hs.spc_pos, rfl⟩

theorem prepared_zeroCluster (hs : Sane fs d) (hfree : Free fs d cl)
    (hset : SetEntry fs d d₁ cl FAT32_EOC) : Prepared fs d (zeroCluster fs d₁ cl) cl := by
  have hp : Prepared fs d d₁ cl :=
    ⟨hset.sameData.1, hfree, hset.entry, hset.others, fun s hs' _ => hset.sameData.2 s hs'⟩
  obtain ⟨hdev, -, hother⟩ := zeroCluster_spec (hs.of_sameDevice hset.sameData.1) hfree.1
  exact hp.fill hs hdev fun s hnot => hother s fun k hk heq => hnot ⟨k, hk, heq⟩

theorem Prepared.writeSlot (hs : Sane fs d) (hp : Prepared fs d d₁ cl) (ei : Nat) (slot : Slot) :
    Prepared fs d ((writeSlot d₁ (firstSector fs cl) ei slot).getD d₁) cl := by
  have hs₁ := hs.of_sameDevice hp.sameDevice
  have hin := lt_of_lt_of_le (firstSector_add_lt hs hp.free.1 hs.spc_pos) hs₁.data_inside
  rw [writeSlot_of_works (p := (firstSector fs cl, ei)) hs₁.works hin, Option.getD_some]
  exact hp.putAt hs ei slot

/-- `fat32_mkdir` up to the name of the entry, and what follows. -/
theorem mkdir_prepared (hs : Sane fs d) (hne : name ≠ [])
    (hlook : fat32Lookup fs d dir name = some none) :
    (∃ cl d₁, IsLeast {x | Free fs d x} cl ∧ Prepared fs d d₁ cl ∧
        ∀ name11 r d₂, makeShortName fs d₁ dir name = some name11 →
          dirWriteEntries fs d₁ dir (newSlots name name11 ATTR_DIRECTORY cl) = some (r, d₂) →
          fat32Mkdir fs d dir name = match r with
            | some pos => some (some (cl, pos), d₂)
            | none => (fatFreeChain fs d₂ cl).map fun d => (none, d)) ∨
      (fat32Mkdir fs d dir name = some (none, d) ∧ ∀ c, ¬ Free fs d c) := by
  obtain ⟨halloc, hleast⟩ := fatAllocCluster_cases hs
  unfold fat32Mkdir
  rw [if_neg hne, hlook]
  rcases hres : fatAllocCluster fs d with ⟨cl, d₁⟩
  rw [hres] at halloc hleast
  simp only
  rcases halloc with ⟨hfree, hset⟩ | ⟨heq, hnone⟩
  · have hp := ((prepared_zeroCluster hs hfree hset).writeSlot hs 0 (dotSlot 1 cl)).writeSlot hs 1
      (dotSlot 2 dir)
    refine .inl ⟨cl, _, ⟨hfree, hleast⟩, hp, fun name11 r d₂ hmake hwrite => ?_⟩
    simp only at hmake hwrite
    rw [if_neg (not_le.mpr (hfree.1.isLink hs).2), hmake]
    simp only [hwrite]
    cases r <;> rfl
  · obtain ⟨rfl, rfl⟩ := Prod.mk.inj heq
    exact .inr ⟨if_pos (le_refl _), hnone⟩

/-- Freeing the cluster again takes the preparation back. -/
theorem Prepared.undone_of_freed (hs : Sane fs d) (hp : Prepared fs d d₁ cl)
    (hfreed : Freed fs d₁ d' [cl]) : Undone fs d d' := by
  constructor
  · intro c hc
    by_cases heq : c = cl
    · rw [heq, hfreed.freed cl (by simp)]
      exact hp.free.2.symm
    · rw [hfreed.others c hc (by simpa using heq), hp.others c hc heq]
  · rintro c hc hused s ⟨k, hk, rfl⟩
    have hstart := dataStart_le_firstSector hs hc
    rw [hfreed.sameData.2 _ (by omega), hp.data _ (by omega)]
    rintro ⟨k', hk', heq⟩
    exact hused ((firstSector_add_inj hs hc hp.free.1 hk hk' heq).1 ▸ hp.free)

/-- What was left behind after the preparation is still there when the cluster has been
freed. -/
theorem Prepared.leftBehind_of_freed {d₂ : Disk} (hs : Sane fs d) (hp : Prepared fs d d₁ cl)
    (h : Chain fs d dir l) (hleft : LeftBehind fs d₁ d₂ l) (hfreed : Freed fs d₂ d' [cl]) :
    LeftBehind fs d d' l := by
  have hfree : ∀ x, ¬ Free fs d x → ¬ Free fs d₁ x :=
    fun x hused hfree => hused (hp.free_iff.mp hfree).1
  refine ⟨(hp.sameDevice.trans hleft.sameDevice).trans hfreed.sameData.1,
    fun x hx hnot hused => ?_, ?_⟩
  · have hne : x ≠ cl := fun heq => hused (heq ▸ hp.free)
    rw [hfreed.others x hx (by simpa using hne), hleft.table x hx hnot (hfree x hused),
      hp.others x hx hne]
  · rcases hleft.trace with ⟨p, hmem, hslot⟩ | ⟨c, hc, hentry⟩
    · refine .inl ⟨p, hmem, fun hsame => hslot ?_⟩
      rw [slotAt_of_free hs h hp.free hp.data hmem, ← hsame]
      exact (slotAt_of_sameData (hs.of_sameDevice (hp.sameDevice.trans hleft.sameDevice))
        hfreed.sameData
        h.inVolume hmem).symm
    · obtain ⟨hc', hne⟩ := hp.free_iff.mp hc
      refine .inr ⟨c, hc', ?_⟩
      rwa [hfreed.others c hc'.1.2 (by simpa using hne)]

/-- The cluster of the new directory is freed. -/
theorem freeChain_one (hs : Sane fs d) (hc : InVolume fs c)
    (hentry : fatNextCluster fs d c = FAT32_EOC) :
    ∃ d', fatFreeChain fs d c = some d' ∧ Freed fs d d' [c] := by
  refine fatFreeChain_spec hs
    ⟨⟨⟨rfl, not_not.mpr (hc.isLink hs), ?_⟩, by simpa using hc⟩, fun x hx => ?_⟩
  · show ¬ IsLink (fatNextCluster fs d c)
    rw [hentry]
    exact eoc_not_isLink (le_refl _)
  · rw [List.mem_singleton.mp hx, hentry]
    decide

/-- A failed `fat32_mkdir` has changed nothing exactly if its entry got no slot. -/
theorem mkdir_undone_iff (hs : Sane fs d) (hreserved : 0 < fs.fatStart)
    (hsectors : fs.dataStart + fs.totalClusters * fs.sectorsPerCluster < 2 ^ 32)
    (h : Chain fs d dir l)
    (hl : l ≠ []) (name : CStr) :
    (∀ d', fat32Mkdir fs d dir name = some (none, d') → Undone fs d d') ↔
      MkdirFits fs d dir l name := by
  by_cases hne : name = []
  · exact iff_of_true (undone_of_fails (if_pos hne)) (.inl hne)
  cases hlook : fat32Lookup fs d dir name with
  | none =>
    rw [fat32Lookup_eq hs h.toWalk hne] at hlook
    cases hlook
  | some found =>
    cases found with
    | some f =>
      refine iff_of_true (undone_of_fails ?_) (.inr (.inl (by rw [hlook]; simp)))
      unfold fat32Mkdir
      rw [if_neg hne, hlook]
    | none =>
      rcases mkdir_prepared hs hne hlook with ⟨cl, d₁, hleast, hp, hcall⟩ | ⟨hcall, hnone⟩
      swap
      · exact iff_of_true (undone_of_fails hcall)
          (.inr (.inr fun cl hcl => absurd hcl.1 (hnone cl)))
      have hs₁ := hs.of_sameDevice hp.sameDevice
      have h₁ := hp.chain h
      have hmake := makeShortName_eq (h₁.toWalk.readable hs₁) name
      obtain ⟨r, d₂, hwrite, hfits, hoff⟩ := dirWriteEntries_outcome hs₁ hreserved hsectors h₁ hl
        (nameSlots_newSlots hne _ (show ATTR_DIRECTORY ≠ ATTR_LFN by decide) cl)
      rw [newSlots_length, hp.runFits_iff hs h] at hfits hoff
      have hcall' := hcall _ r d₂ hmake hwrite
      have hiff : MkdirFits fs d dir l name ↔ RunFits fs d l [cl] (lfnNeeded name + 1) := by
        unfold MkdirFits
        rw [hlook]
        simp only [hne, ne_eq, not_true_eq_false, false_or]
        exact ⟨fun hall => hall cl hleast, fun hon x hx => by rwa [hx.unique hleast]⟩
      rw [hiff, hcall']
      constructor
      · intro hundone
        by_contra hnot
        obtain ⟨rfl, hleft⟩ := hoff hnot
        have hcl : cl ∉ l := fun hmem => h.not_free hmem hp.free
        have hentry : fatNextCluster fs d₂ cl = FAT32_EOC := by
          rw [hleft.table cl hp.free.1.2 hcl fun hfree => (hp.free_iff.mp hfree).2 rfl, hp.entry]
        obtain ⟨d', hloop, hfreed⟩ :=
          freeChain_one (hs₁.of_sameDevice hleft.sameDevice) hp.free.1 hentry
        refine (hp.leftBehind_of_freed hs h hleft hfreed).not_undone h (hundone d' ?_)
        simp only [hloop, Option.map_some]
      · intro hon d' hret
        cases r with
        | some pos => cases hret
        | none =>
          obtain rfl := hfits hon rfl
          obtain ⟨d₃, hloop, hfreed⟩ := freeChain_one hs₁ hp.free.1 hp.entry
          simp only [hloop, Option.map_some] at hret
          cases hret
          exact hp.undone_of_freed hs hfreed

/-- **A failed create or mkdir changes nothing** exactly if the call fails before the
first slot or the places of its slots lie on the device. -/
theorem failedCreate_undone_iff (hs : Sane fs d) (hreserved : 0 < fs.fatStart)
    (hsectors : fs.dataStart + fs.totalClusters * fs.sectorsPerCluster < 2 ^ 32)
    (h : Chain fs d dir l)
    (hl : l ≠ []) (name : CStr) :
    ((∀ d', fat32CreateFile fs d dir name = some (none, d') → Undone fs d d') ↔
        CreateFits fs d dir l name) ∧
      ((∀ d', fat32Mkdir fs d dir name = some (none, d') → Undone fs d d') ↔
        MkdirFits fs d dir l name) :=
  ⟨createFile_undone_iff hs hreserved hsectors h hl name,
    mkdir_undone_iff hs hreserved hsectors h hl name⟩

theorem failedCreate_undone_iff_readme :
    ((∀ d', fat32CreateFile smallFs emptyDir 2 readmeName = some (none, d') →
      Undone smallFs emptyDir d') ↔
        CreateFits smallFs emptyDir 2 [2] readmeName) ∧
      ((∀ d', fat32Mkdir smallFs emptyDir 2 readmeName = some (none, d') →
        Undone smallFs emptyDir d') ↔
        MkdirFits smallFs emptyDir 2 [2] readmeName) :=
  failedCreate_undone_iff (sane_smallDisk _) (by decide) (by decide) (chain_smallDisk _)
    (by simp) readmeName

/-! ## A run at the end of the device -/

/-- A directory in clusters 5 and 2; cluster 5 is the end of the device, and its last slot
is free. -/
def lastSlotDisk : Disk :=
  { sectorCount := 6, readFails := fun _ => false, writeFails := fun _ => false
    data := fun s =>
      if s = 1 then wrLE (wrLE (fun _ => 0) 8 4 FAT32_EOC) 20 4 2
      else if s = 5 then fun i => if i < 480 then 65 else 0
      else fun _ => 0 }

theorem sane_lastSlotDisk : Sane smallFs lastSlotDisk :=
  { sane_smallDisk fun _ => 0 with
    works := fun _ => ⟨rfl, rfl⟩
    data_inside := by show 6 ≤ 6; decide }

theorem chain_lastSlotDisk : Chain smallFs lastSlotDisk 5 [5, 2] := by
  have hnext : fatNextCluster smallFs lastSlotDisk 5 = 2 ∧
      fatNextCluster smallFs lastSlotDisk 2 = FAT32_EOC := by decide +kernel
  refine ⟨⟨⟨rfl, by decide, hnext.1, by decide, ?_⟩, by decide⟩, ?_⟩
  · show ¬ IsLink (fatNextCluster smallFs lastSlotDisk 2)
    rw [hnext.2]
    decide
  · intro c hc
    rcases List.mem_pair.mp hc with rfl | rfl
    · rw [hnext.1]
      decide
    · rw [hnext.2]
      decide

/-- `readme` is not created, but the first of its slots stands in the directory. -/
theorem lastSlot_not_undone :
    Sane smallFs lastSlotDisk ∧ Chain smallFs lastSlotDisk 5 [5, 2] ∧
      ∃ d', fat32CreateFile smallFs lastSlotDisk 5 readmeName = some (none, d') ∧
        ¬ Undone smallFs lastSlotDisk d' := by
  refine ⟨sane_lastSlotDisk, chain_lastSlotDisk, ?_⟩
  have hret : (fat32CreateFile smallFs lastSlotDisk 5 readmeName).map
      (fun r => (r.1, r.2.data 5 480)) = some (none, 65) := by decide +kernel
  obtain ⟨⟨r, d'⟩, hcall, hfst⟩ := Option.map_eq_some_iff.mp hret
  obtain ⟨rfl, hbyte⟩ := Prod.mk.inj hfst
  refine ⟨d', hcall, fun hundone => ?_⟩
  have hsame := hundone.data 5 (by decide) (chain_lastSlotDisk.not_free (by simp)) 5
    ⟨0, by decide, rfl⟩
  rw [hsame] at hbyte
  exact absurd hbyte (by decide)

end Lumin.Fs.Fat32
