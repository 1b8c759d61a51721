import Lumin.Fs.Fat32.Create

/-!
# Where new slots are written

A successful `dir_write_entries` has put its slots into free slots of the directory
exactly if the run that it found follows the device, or if there was none and the
slots fit into the new cluster.  Otherwise they spill into sectors that come next on
the device.
-/

namespace Lumin.Fs.Fat32

open Lumin.Lib Lumin.Block

variable {fs : Fat32Fs} {d d' d₁ : Disk} {c dir n : Nat} {l l' : List Nat} {p q t : Place}
  {ps run run' : List Place} {slots : List Slot} {name : CStr}

/-! ## The slots of one name -/

/-- Long-name slots and an entry, as the callers build them: none of them reads as a free
slot, and the number bytes tell them apart. -/
structure NameSlots (slots : List Slot) : Prop where
  isSlot : ∀ slot ∈ slots, IsSlot slot
  used : ∀ slot ∈ slots, slot 0 ≠ 0 ∧ slot 0 ≠ DELETED
  nodup : slots.Nodup
  two_le : 2 ≤ slots.length
  le : slots.length ≤ 21

theorem NameSlots.ne_nil (h : NameSlots slots) : slots ≠ [] := by
  rintro rfl
  exact absurd h.two_le (by decide)

theorem NameSlots.few (h : NameSlots slots) : slots.length < 2 ^ 32 := by
  have := h.le
  omega

/-- What `fat32_create_file` and `fat32_mkdir` hand over. -/
theorem nameSlots_newSlots (hne : name ≠ []) (i : Nat) {attr : UInt8} (hattr : attr ≠ ATTR_LFN)
    (cluster : Nat) : NameSlots (newSlots name (shortCandidate name i) attr cluster) := by
  have hpos : 0 < name.length := List.length_pos_iff.mpr hne
  have hle := lfnNeeded_le name
  have hlen := newSlots_length name (shortCandidate name i) attr cluster
  have hneeded : 0 < lfnNeeded name := by
    unfold lfnNeeded FAT32_MAX_LFN_ENTRIES
    omega
  refine ⟨newSlots_isSlot, fun slot hslot => ?_, ?_, by omega, by omega⟩
  · rcases List.mem_append.mp hslot with hslot | hslot
    · rw [buildLfnEntries_eq] at hslot
      obtain ⟨j, hj, rfl⟩ := List.mem_map.mp hslot
      obtain ⟨-, hseq, hlt, -⟩ := lfnSeq_toNat (List.mem_range.mp hj)
      constructor
      · intro hzero
        have hzero' : lfnSeq name j = 0 := hzero
        rw [hzero'] at hseq
        exact hseq rfl
      · intro hdel
        have hdel' : lfnSeq name j = DELETED := hdel
        rw [hdel'] at hlt
        exact absurd hlt (by decide)
    · rw [List.mem_singleton.mp hslot]
      exact shortCandidate_first name i
  · unfold newSlots
    rw [buildLfnEntries_eq, List.nodup_append]
    refine ⟨List.Nodup.map_on (fun j hj j' hj' heq => ?_) List.nodup_range,
      List.nodup_singleton _, ?_⟩
    · have hj := List.mem_range.mp hj
      have hj' := List.mem_range.mp hj'
      have hseq : lfnSeq name j = lfnSeq name j' := congrFun heq 0
      have hnum := (lfnSeq_toNat hj).1
      rw [hseq, (lfnSeq_toNat hj').1] at hnum
      omega
    · intro slot hslot slot' hslot' heq
      obtain ⟨j, -, rfl⟩ := List.mem_map.mp hslot
      rw [List.mem_singleton.mp hslot'] at heq
      exact hattr (congrFun heq 11).symm

/-! ## Slots in their place -/

/-- The slots stand at `run`, which is a stretch of the directory `l'` after the call:
`l`, or `l` with a new cluster.  A place of `l` in it was free, and outside of the table
no slot has changed but those of `run` and of the new cluster, which has been filled
with zeros. -/
structure PlacedAt (fs : Fat32Fs) (d d' : Disk) (dir : Nat) (l l' : List Nat) (run : List Place)
    (slots : List Slot) : Prop where
  walk : Walk fs d' dir l'
  grown : l' = l ∨ ∃ c, Free fs d c ∧ l' = l ++ [c]
  consecutive : run <:+: dirSlots fs l'
  filled : List.Forall₂ (fun p slot => slotAt d' p = slot) run slots
  free : ∀ p ∈ run, p ∈ dirSlots fs l → IsFree d p
  zeroed : ∀ p ∈ dirSlots fs l', p ∉ dirSlots fs l → p ∉ run → slotAt d' p = fun _ => 0
  others : ∀ p : Place, p.2 < 16 → ¬ InTable fs p.1 → p ∉ run →
    (p ∈ dirSlots fs l' → p ∈ dirSlots fs l) → slotAt d' p = slotAt d p

/-- New slots were written only into free slots of the directory. -/
def Placed (fs : Fat32Fs) (d d' : Disk) (dir : Nat) (l : List Nat) (slots : List Slot) : Prop :=
  ∃ l' run, PlacedAt fs d d' dir l l' run slots

/-- Slots that were free before a write of slots that are in use are its places. -/
theorem Written.eq_of_free (hw : Written d d' ps slots) (hslots : NameSlots slots)
    (hfilled : List.Forall₂ (fun p slot => slotAt d' p = slot) run slots)
    (hfree : ∀ q ∈ run, IsFree d q) : run = ps := by
  have hmap : ∀ qs, List.Forall₂ (fun p slot => slotAt d' p = slot) qs slots →
      qs.map (slotAt d') = slots := by
    intro qs hqs
    rw [← List.forall₂_eq_eq_eq, List.forall₂_map_left_iff]
    exact hqs
  have hrun := hmap run hfilled
  have hps := hmap ps hw.slots
  have hsub : ∀ q ∈ run, q ∈ ps := by
    intro q hq
    by_contra hnot
    have hused := hslots.used (slotAt d' q) (hrun ▸ List.mem_map_of_mem hq)
    rw [hw.others q hnot] at hused
    exact (hfree q hq).elim hused.1 hused.2
  have hnodup : (ps.map (slotAt d')).Nodup := hps ▸ hslots.nodup
  have hlen : run.length = ps.length := by
    rw [← List.length_map (slotAt d'), hrun, ← hps, List.length_map]
  refine List.ext_getElem hlen fun i hi hi' => ?_
  refine List.inj_on_of_nodup_map hnodup (hsub _ (List.getElem_mem hi)) (List.getElem_mem hi') ?_
  have heq : (run.map (slotAt d'))[i]? = (ps.map (slotAt d'))[i]? := by rw [hrun, hps]
  rw [List.getElem?_map, List.getElem?_map, List.getElem?_eq_getElem hi,
    List.getElem?_eq_getElem hi'] at heq
  exact Option.some.inj heq

/-- A stretch of distinct places is known by its first one. -/
theorem prefix_of_stretch {pre rest ys : List Place} (hnodup : (pre ++ p :: rest).Nodup)
    (h : p :: ys <:+: pre ++ p :: rest) : p :: ys <+: p :: rest := by
  obtain ⟨a, b, heq⟩ := h
  have hpre : p ∉ pre := fun hp => (List.nodup_append.mp hnodup).2.2 p hp p (by simp) rfl
  have hrest : p ∉ rest := (List.nodup_cons.mp (List.nodup_append.mp hnodup).2.1).1
  rw [List.append_assoc, List.cons_append] at heq
  obtain ⟨-, -, htail⟩ := (List.append_cons_inj_of_notMem hpre hrest).mp heq.symm
  exact ⟨b, by rw [htail]; rfl⟩

/-! ## The places that are computed -/

/-- The computed places lie in the data area, or in the first sector of a device of
`2 ^ 32` sectors. -/
theorem runPlaces_sector (hsectors : p.1 + 1 < 2 ^ 32) (hn : n ≤ 21) (hq : q ∈ runPlaces p n) :
    p.1 ≤ q.1 ∨ q.1 = 0 := by
  obtain ⟨j, hj, rfl⟩ := List.mem_map.mp hq
  have := List.mem_range.mp hj
  simp only [runPlace, u32]
  omega

theorem runPlace_zero (hp : p.2 < 16) (hsectors : p.1 < 2 ^ 32) : runPlace p.2 p.1 0 = p := by
  rw [runPlace, Nat.add_zero, Nat.add_zero, Nat.mod_eq_of_lt hp, Nat.div_eq_of_lt hp,
    Nat.add_zero,
    u32_of_lt hsectors]

theorem runPlaces_cons (hp : p.2 < 16) (hsectors : p.1 < 2 ^ 32) (hn : 0 < n) :
    ∃ ps, runPlaces p n = p :: ps := by
  obtain ⟨n, rfl⟩ := Nat.exists_eq_add_one_of_ne_zero (show n ≠ 0 by omega)
  refine ⟨(List.range n).map fun j => runPlace p.2 p.1 (j + 1), ?_⟩
  rw [runPlaces, List.range_succ_eq_map, List.map_cons, List.map_map, runPlace_zero hp hsectors]
  rfl

/-- A run whose places are the computed ones follows the device. -/
theorem contiguous_of_runPlaces (hhead : run.head? = some p) (hp : p.2 < 16)
    (hsectors : p.1 + 1 < 2 ^ 32)
    (hlen : run.length ≤ 21) (hpos : ∀ q ∈ run, 0 < q.1)
    (hplaces : runPlaces p run.length = run) : Contiguous run := by
  intro p' hp' j hj
  obtain rfl : p = p' := Option.some.inj (hhead.symm.trans hp')
  have hget : run[j] = runPlace p.2 p.1 j := by
    have heq := congrArg (fun ps : List Place => ps[j]?) hplaces
    simp only [runPlaces, List.getElem?_map, List.getElem?_range hj,
      List.getElem?_eq_getElem hj] at heq
    exact (Option.some.inj heq).symm
  have hsector := hpos _ (List.getElem_mem hj)
  rw [hget] at hsector ⊢
  simp only [runPlace, u32] at hsector ⊢
  refine Prod.ext ?_ rfl
  simp only
  omega

/-- Slots that are written from a place of the data area on leave the table alone. -/
theorem writeRun_nextCluster {r : Option Place} (hs : Sane fs d) (hreserved : 0 < fs.fatStart)
    (hstart : fs.dataStart ≤ p.1) (hsectors : p.1 + 1 < 2 ^ 32) (hslots : NameSlots slots)
    (h : writeRun p.2 p.1 0 slots d = (r, d')) (hc : c < fs.totalClusters + 2) :
    fatNextCluster fs d' c = fatNextCluster fs d c := by
  obtain ⟨hdev, hout, -⟩ := writeRun_frame hslots.isSlot h
  obtain ⟨-, -, hbefore, -⟩ := fatSector_eq hs hc
  rw [fatNextCluster_eq (hs.of_sameDevice hdev) hc, fatNextCluster_eq hs hc, hout]
  intro j hj heq
  have hplace : runPlace p.2 p.1 (0 + j) ∈ runPlaces p slots.length := by
    rw [Nat.zero_add]
    exact List.mem_map_of_mem (List.mem_range.mpr hj)
  have := runPlaces_sector hsectors hslots.le hplace
  omega

/-! ## A run of the directory -/

/-- A run that was written is in place exactly if it follows the device. -/
theorem placed_run_iff (hs : Sane fs d) (hreserved : 0 < fs.fatStart)
    (hsectors : fs.dataStart + fs.totalClusters * fs.sectorsPerCluster < 2 ^ 32)
    (h : Chain fs d dir l)
    (hslots : NameSlots slots) (hrun : firstRun d slots.length [] (dirSlots fs l) = some run)
    (hret : dirWriteEntries fs d dir slots = some (some t, d')) :
    Placed fs d d' dir l slots ↔ Contiguous run := by
  obtain ⟨p, hhead, hwrite⟩ := dirWriteEntries_some hs h.toWalk hrun
  obtain ⟨⟨pre, post, hsplit, -⟩, hlen, hfree⟩ :=
    firstRun_stretch (by simp) (List.length_pos_iff.mpr hslots.ne_nil) hrun
  rw [List.nil_append] at hsplit
  rw [hwrite, Option.some.injEq] at hret
  have hmem : ∀ q ∈ run, q ∈ dirSlots fs l := fun q hq => by
    rw [hsplit, List.mem_append, List.mem_append]
    exact .inl (.inr hq)
  have hpmem := hmem p (List.mem_of_mem_head? hhead)
  obtain ⟨-, -, -, -, -, hp⟩ := mem_dirSlots.mp hpmem
  have hplt := sector_lt_of_mem hs h.inVolume hpmem
  have hstart : ∀ q ∈ dirSlots fs l, fs.dataStart ≤ q.1 :=
    fun q hq => dataStart_le_of_mem hs h.inVolume hq
  have hdata : 0 < fs.dataStart := by
    have := hs.table_before
    omega
  have hwritten := written_of_writeRun hs.works hslots.isSlot hslots.ne_nil hslots.few hret
  have hle := hslots.le
  have htable : ∀ c < fs.totalClusters + 2, fatNextCluster fs d' c = fatNextCluster fs d c :=
    fun c hc =>
    writeRun_nextCluster hs hreserved (hstart p hpmem) (by omega) hslots hret hc
  have hwalk : Walk fs d' dir l := h.toWalk.congr fun x hx => htable x (h.inVolume x hx).2
  obtain ⟨rest, hrest⟩ : ∃ rest, run = p :: rest := by
    cases run with
    | nil => cases hhead
    | cons x rest => exact ⟨rest, by rw [Option.some.inj hhead]⟩
  constructor
  · rintro ⟨l', run', hplaced⟩
    obtain rfl : l' = l := hplaced.walk.linked.unique hwalk.linked
    have heq := hwritten.eq_of_free hslots hplaced.filled fun q hq =>
      hplaced.free q hq (hplaced.consecutive.subset hq)
    obtain ⟨ys, hys⟩ := runPlaces_cons (n := slots.length) hp (by omega)
      (List.length_pos_iff.mpr hslots.ne_nil)
    have hinfix := hplaced.consecutive
    rw [heq, hys, hsplit, hrest, List.append_assoc, List.cons_append] at hinfix
    have hnodup := h.toWalk.dirSlots_nodup hs
    rw [hsplit, hrest, List.append_assoc, List.cons_append] at hnodup
    have hprefix := prefix_of_stretch hnodup hinfix
    rw [← List.cons_append, ← hrest, ← hys] at hprefix
    have hsame : runPlaces p slots.length = run :=
      (List.prefix_of_prefix_length_le hprefix (List.prefix_append run post)
        (by rw [runPlaces_length, hlen])).eq_of_length (by rw [runPlaces_length, hlen])
    refine contiguous_of_runPlaces hhead hp (by omega) (by omega) (fun q hq => ?_) (by rwa [hlen])
    have := hstart q (hmem q hq)
    omega
  · intro hcont
    have hsame := hcont.runPlaces_eq hhead hp fun q hq => lt_of_lt_of_le
      (sector_lt_of_mem hs h.inVolume (hmem q hq)) hsectors.le
    rw [hlen] at hsame
    rw [hsame] at hwritten
    exact ⟨l, run,
      { walk := hwalk
        grown := .inl rfl
        consecutive := ⟨pre, post, hsplit.symm⟩
        filled := hwritten.slots
        free := fun q hq _ => hfree q hq
        zeroed := fun q hq hnot => absurd hq hnot
        others := fun q _ _ hnot _ => hwritten.others q hnot }⟩

/-! ## A new cluster -/

/-- The table after slots were written to a new cluster. -/
theorem writeRun_ext_nextCluster {v v' : Nat} {r : Option Place} (hs : Sane fs d)
    (hreserved : 0 < fs.fatStart)
    (hsectors : fs.dataStart + fs.totalClusters * fs.sectorsPerCluster < 2 ^ 32)
    (hgrown : Grown fs d d₁ v l [c]) (hslots : NameSlots slots)
    (h : writeRun 0 (firstSector fs c) 0 slots (zeroCluster fs d₁ c) = (r, d'))
    (hv : v' < fs.totalClusters + 2) : fatNextCluster fs d' v' = fatNextCluster fs d₁ v' := by
  have hc := (hgrown.free c (by simp)).1
  have hs₁ := hs.of_sameDevice hgrown.sameData.1
  obtain ⟨hdev, -, hother⟩ := zeroCluster_spec hs₁ hc
  have hstart := dataStart_le_firstSector hs hc
  have hlt := firstSector_add_lt hs hc hs.spc_pos
  rw [writeRun_nextCluster (p := (firstSector fs c, 0)) (hs₁.of_sameDevice hdev) hreserved hstart
    (show firstSector fs c + 1 < 2 ^ 32 by omega) hslots h hv]
  refine fatNextCluster_congr hs₁ hdev (fun s hs' => hother s fun k hk heq => ?_) hv
  omega

/-- The slots of the directory are as before. -/
theorem slotAt_zeroCluster (hs : Sane fs d) (h : Chain fs d dir l)
    (hgrown : Grown fs d d₁ dir l [c])
    (hq : q ∈ dirSlots fs l) : slotAt (zeroCluster fs d₁ c) q = slotAt d q := by
  have hfree := hgrown.free c (by simp)
  obtain ⟨-, -, hother⟩ := zeroCluster_spec (hs.of_sameDevice hgrown.sameData.1) hfree.1
  refine slotAt_of_free hs h hfree (fun s hs' hnot => ?_) hq
  rw [hother s fun k hk heq => hnot ⟨k, hk, heq⟩, hgrown.sameData.2 s hs']

/-- Slots that were written to a new cluster are in place exactly if they fit into it. -/
theorem placed_ext_iff (hs : Sane fs d) (hreserved : 0 < fs.fatStart)
    (hsectors : fs.dataStart + fs.totalClusters * fs.sectorsPerCluster < 2 ^ 32)
    (h : Chain fs d dir l)
    (hl : l ≠ []) (hslots : NameSlots slots)
    (hrun : firstRun d slots.length [] (dirSlots fs l) = none)
    (hret : dirWriteEntries fs d dir slots = some (some t, d')) :
    Placed fs d d' dir l slots ↔ slots.length ≤ 16 * fs.sectorsPerCluster := by
  rw [dirWriteEntries_none hs h.toWalk hrun] at hret
  rcases dirWriteEntriesExt_spec hs h hl slots with ⟨c, d₁, ⟨hfree, -⟩, hgrown, hout,
      hwrite⟩ | ⟨hfail, -⟩
  swap
  · rw [hfail] at hret
    cases hret
  rw [hwrite, Option.some.injEq] at hret
  have hs₁ := hs.of_sameDevice hgrown.sameData.1
  obtain ⟨hdev, hzero, hother⟩ := zeroCluster_spec hs₁ hfree.1
  have hs₂ := hs₁.of_sameDevice hdev
  have hin : ∀ x ∈ l ++ [c], InVolume fs x := hgrown.chain.inVolume
  have hspc := hs.spc_pos
  have hlt := firstSector_add_lt hs hfree.1 hspc
  have hwritten :
      Written (zeroCluster fs d₁ c) d' (runPlaces (firstSector fs c, 0) slots.length) slots :=
    written_of_writeRun hs₂.works hslots.isSlot hslots.ne_nil hslots.few hret
  have htable : ∀ x < fs.totalClusters + 2, fatNextCluster fs d' x = fatNextCluster fs d₁ x :=
    fun x hx =>
    writeRun_ext_nextCluster hs hreserved hsectors hgrown hslots hret hx
  have hwalk : Walk fs d' dir (l ++ [c]) :=
    hgrown.chain.toWalk.congr fun x hx => htable x (hin x hx).2
  have hone : (dirSlots fs [c]).length = 16 * fs.sectorsPerCluster := by
    rw [dirSlots_length]
    simp
  have hzeroSlot : ∀ q ∈ dirSlots fs [c], slotAt (zeroCluster fs d₁ c) q = fun _ => 0 := by
    intro q hq
    obtain ⟨x, hx, k, hk, hsec, -⟩ := mem_dirSlots.mp hq
    funext i
    unfold slotAt
    rw [hsec, List.mem_singleton.mp hx, hzero k hk, slotIn]
    split <;> rfl
  have hold : ∀ q ∈ dirSlots fs l, slotAt (zeroCluster fs d₁ c) q = slotAt d q := fun q hq =>
    slotAt_zeroCluster hs h hgrown hq
  have happ : dirSlots fs (l ++ [c]) = dirSlots fs l ++ dirSlots fs [c] := dirSlots_append l [c]
  have hnodup := hwalk.dirSlots_nodup (hs₂.of_sameDevice hwritten.sameDevice)
  constructor
  · rintro ⟨l', run', hplaced⟩
    obtain rfl : l' = l ++ [c] := hplaced.walk.linked.unique hwalk.linked
    have heq := hwritten.eq_of_free hslots hplaced.filled fun q hq => by
      have hmem := hplaced.consecutive.subset hq
      rw [happ, List.mem_append] at hmem
      unfold IsFree
      rcases hmem with hmem | hmem
      · rw [hold q hmem]
        exact hplaced.free q hq hmem
      · rw [hzeroSlot q hmem]
        exact .inl rfl
    obtain ⟨ys, hys⟩ := runPlaces_cons (p := (firstSector fs c, 0)) (n := slots.length)
      (show 0 < 16 by decide) (show firstSector fs c < 2 ^ 32 by omega)
        (List.length_pos_iff.mpr hslots.ne_nil)
    obtain ⟨zs, hzs⟩ : ∃ zs, dirSlots fs [c] = (firstSector fs c, 0) :: zs := by
      have hpos : 0 < (dirSlots fs [c]).length := by omega
      obtain ⟨x, zs, hcons⟩ := List.exists_cons_of_ne_nil (List.ne_nil_of_length_pos hpos)
      have hfirst := dirSlots_one 0 hpos
      simp only [hcons, List.getElem_cons_zero] at hfirst
      exact ⟨zs, by rw [hcons, hfirst]; rfl⟩
    have hinfix := hplaced.consecutive
    rw [heq, hys, happ, hzs] at hinfix
    rw [happ, hzs] at hnodup
    have hprefix := (prefix_of_stretch hnodup hinfix).length_le
    rw [← hys, ← hzs, runPlaces_length, hone] at hprefix
    exact hprefix
  · intro hfit
    have hplaces :
        runPlaces (firstSector fs c, 0) slots.length = (dirSlots fs [c]).take slots.length := by
      refine List.ext_getElem (by rw [runPlaces_length, List.length_take, hone]; omega) fun j hj
        hj' => ?_
      rw [List.getElem_take,
        ← runPlace_cluster hs hfree.1 j (by rw [runPlaces_length] at hj; omega)]
      simp only [runPlaces, List.getElem_map, List.getElem_range]
    rw [hplaces] at hwritten
    refine ⟨l ++ [c], (dirSlots fs [c]).take slots.length,
      { walk := hwalk
        grown := .inr ⟨c, hfree, rfl⟩
        consecutive := ⟨dirSlots fs l, (dirSlots fs [c]).drop slots.length, ?_⟩
        filled := hwritten.slots
        free := fun q hq hmem => ?_
        zeroed := fun q hq hnot hrun' => ?_
        others := fun q hq hnot hrun' himp => ?_ }⟩
    · rw [happ, List.append_assoc, List.take_append_drop]
    · rw [happ] at hnodup
      exact absurd rfl ((List.nodup_append.mp hnodup).2.2 q hmem q (List.mem_of_mem_take hq))
    · rw [happ, List.mem_append] at hq
      rw [hwritten.others q hrun', hzeroSlot q (hq.resolve_left hnot)]
    · rw [hwritten.others q hrun']
      by_cases hmem : q ∈ dirSlots fs l
      · exact hold q hmem
      · have hsec : ∀ k < fs.sectorsPerCluster, q.1 ≠ firstSector fs c + k := by
          intro k hk heq
          refine hmem (himp ?_)
          rw [happ, List.mem_append]
          exact .inr (mem_dirSlots.mpr ⟨c, by simp, k, hk, heq, hq⟩)
        unfold slotAt
        rw [hother q.1 hsec, hout q.1 hnot]

/-- **New slots are written only into free slots of the directory** exactly if the run
follows the device or the slots fit into the new cluster. -/
theorem dirWriteEntries_placed_iff (hs : Sane fs d) (hreserved : 0 < fs.fatStart)
    (hsectors : fs.dataStart + fs.totalClusters * fs.sectorsPerCluster < 2 ^ 32)
    (h : Chain fs d dir l)
    (hl : l ≠ []) (hslots : NameSlots slots)
    (hret : dirWriteEntries fs d dir slots = some (some t, d')) :
    Placed fs d d' dir l slots ↔ InPlace fs d l slots.length := by
  unfold InPlace
  cases hrun : firstRun d slots.length [] (dirSlots fs l) with
  | some run => exact placed_run_iff hs hreserved hsectors h hslots hrun hret
  | none => exact placed_ext_iff hs hreserved hsectors h hl hslots hrun hret

/-- The slots of `readme`. -/
def readmeSlots : List Slot := newSlots readmeName (shortCandidate readmeName 1) ATTR_ARCHIVE 0

theorem nameSlots_readme : NameSlots readmeSlots := nameSlots_newSlots (by decide) 1 (by decide) 0

theorem dirWriteEntries_placed_iff_readme :
    ∃ d', dirWriteEntries smallFs emptyDir 2 readmeSlots = some (some (2, 1), d') ∧
      (Placed smallFs emptyDir d' 2 [2] readmeSlots ↔
        InPlace smallFs emptyDir [2] readmeSlots.length) := by
  have hret : (dirWriteEntries smallFs emptyDir 2 readmeSlots).map Prod.fst =
      some (some (2, 1)) := by
    decide +kernel
  obtain ⟨⟨t, d'⟩, hwrite, rfl⟩ := Option.map_eq_some_iff.mp hret
  exact ⟨d', hwrite, dirWriteEntries_placed_iff (sane_smallDisk _) (by decide) (by decide)
    (chain_smallDisk _)
    (by simp) nameSlots_readme hwrite⟩

/-! ## A fragmented directory -/

/-- A directory in clusters 2 and 4 whose first 15 slots are in use; cluster 3 belongs to
a file. -/
def fragmentedDisk : Disk :=
  { sectorCount := 6, readFails := fun _ => false, writeFails := fun _ => false
    data := fun s =>
      if s = 1 then wrLE (wrLE (wrLE (fun _ => 0) 8 4 4) 12 4 FAT32_EOC) 16 4 FAT32_EOC
      else if s = 2 then fun i => if i < 480 then 65 else 0
      else if s = 3 then fun _ => 65
      else fun _ => 0 }

theorem sane_fragmentedDisk : Sane smallFs fragmentedDisk :=
  { sane_smallDisk fun _ => 0 with
    works := fun _ => ⟨rfl, rfl⟩
    data_inside := by show 6 ≤ 6; decide }

theorem chain_fragmentedDisk : Chain smallFs fragmentedDisk 2 [2, 4] := by
  have hnext : fatNextCluster smallFs fragmentedDisk 2 = 4 ∧
      fatNextCluster smallFs fragmentedDisk 4 = FAT32_EOC := by decide +kernel
  refine ⟨⟨⟨rfl, by decide, hnext.1, by decide, ?_⟩, by decide⟩, ?_⟩
  · show ¬ IsLink (fatNextCluster smallFs fragmentedDisk 4)
    rw [hnext.2]
    decide
  · intro c hc
    rcases List.mem_pair.mp hc with rfl | rfl
    · rw [hnext.1]
      decide
    · rw [hnext.2]
      decide

/-- The entry of `readme` goes to the first slot of cluster 3. -/
theorem fragmented_not_placed :
    Sane smallFs fragmentedDisk ∧ Chain smallFs fragmentedDisk 2 [2, 4] ∧ NameSlots readmeSlots ∧
      ∃ d', dirWriteEntries smallFs fragmentedDisk 2 readmeSlots = some (some (3, 0), d') ∧
        ¬ Placed smallFs fragmentedDisk d' 2 [2, 4] readmeSlots := by
  refine ⟨sane_fragmentedDisk, chain_fragmentedDisk, nameSlots_readme, ?_⟩
  have hret : (dirWriteEntries smallFs fragmentedDisk 2 readmeSlots).map Prod.fst =
      some (some (3, 0)) := by
    decide +kernel
  have hrun : firstRun fragmentedDisk readmeSlots.length [] (dirSlots smallFs [2, 4]) =
      some [(2, 15), (4, 0)] := by decide +kernel
  obtain ⟨⟨t, d'⟩, hwrite, rfl⟩ := Option.map_eq_some_iff.mp hret
  refine ⟨d', hwrite, ?_⟩
  rw [placed_run_iff sane_fragmentedDisk (by decide)
    (by decide) chain_fragmentedDisk nameSlots_readme hrun
    hwrite]
  intro hcont
  have hsecond := hcont (2, 15) rfl 1 (by decide)
  exact absurd hsecond (by decide)

end Lumin.Fs.Fat32
