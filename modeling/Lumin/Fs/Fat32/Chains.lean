import Lumin.Fs.Fat32.AnyTable

/-!
# Cluster chains

What the cluster functions do on a working device whose geometry is sane: the
table is a function from clusters to entries, `fat_set_cluster` and
`fat_alloc_cluster` update it at one cluster, and the walks follow a chain to
its end.

* `Sane` is the geometry: the table lies before the data area, has an entry for
  each cluster, and both lie inside the device.
* `SetEntry` is the effect of one table update.
* `Chain` is a finite chain of clusters inside the volume that are not free.
-/

namespace Lumin.Fs.Fat32

open Lumin.Lib Lumin.Block

/-- A device without I/O errors that holds the table and the data area, with a
table entry for every cluster. -/
structure Sane (fs : Fat32Fs) (d : Disk) : Prop where
  works : d.Works
  spc_pos : 0 < fs.sectorsPerCluster
  spc_le : fs.sectorsPerCluster ≤ 128
  table_before : fs.fatStart + fs.sectorsPerFat ≤ fs.dataStart
  data_inside : fs.dataStart + fs.totalClusters * fs.sectorsPerCluster ≤ d.sectorCount
  data_fits : fs.dataStart + fs.totalClusters * fs.sectorsPerCluster ≤ 2 ^ 32
  table_covers : fs.totalClusters + 2 ≤ 128 * fs.sectorsPerFat
  total_le : fs.totalClusters + 2 ≤ FAT32_EOC

/-- The clusters of the volume. -/
def InVolume (fs : Fat32Fs) (c : Nat) : Prop := 2 ≤ c ∧ c < fs.totalClusters + 2

instance (fs : Fat32Fs) : DecidablePred (InVolume fs) := fun c =>
  inferInstanceAs (Decidable (2 ≤ c ∧ c < fs.totalClusters + 2))

variable {fs : Fat32Fs} {d d' d'' : Disk} {c c' v w s : Nat} {l : List Nat}

theorem Sane.of_sameDevice (h : Sane fs d) (hd : d.SameDevice d') : Sane fs d' :=
  { h with works := hd.works h.works, data_inside := hd.1 ▸ h.data_inside }

theorem InVolume.isLink (hs : Sane fs d) (h : InVolume fs c) : IsLink c :=
  ⟨h.1, lt_of_lt_of_le h.2 hs.total_le⟩

theorem eoc_not_isLink (h : FAT32_EOC ≤ v) : ¬ IsLink v := fun hv => absurd hv.2 (not_lt.mpr h)

/-! ## Sectors -/

/-- Where a sector of a cluster lies. -/
theorem firstSector_eq (hs : Sane fs d) (h : InVolume fs c) :
    firstSector fs c = fs.dataStart + (c - 2) * fs.sectorsPerCluster := by
  have hlt : (c - 2) * fs.sectorsPerCluster < fs.totalClusters * fs.sectorsPerCluster :=
    (Nat.mul_lt_mul_right hs.spc_pos).mpr (by have := h.1; have := h.2; omega)
  have hfits := hs.data_fits
  unfold firstSector
  rw [u32_of_lt (x := (c - 2) * fs.sectorsPerCluster) (by omega), u32_of_lt (by omega)]

theorem firstSector_add_lt (hs : Sane fs d) (h : InVolume fs c) (hlt : s < fs.sectorsPerCluster) :
    firstSector fs c + s < fs.dataStart + fs.totalClusters * fs.sectorsPerCluster := by
  have hle : (c - 2 + 1) * fs.sectorsPerCluster ≤ fs.totalClusters * fs.sectorsPerCluster :=
    Nat.mul_le_mul_right _ (by have := h.1; have := h.2; omega)
  rw [firstSector_eq hs h]
  rw [Nat.succ_mul] at hle
  omega

/-- The sector number of a cluster's sector does not wrap. -/
theorem u32_firstSector_add (hs : Sane fs d) (h : InVolume fs c)
    (hlt : s < fs.sectorsPerCluster) :
    u32 (firstSector fs c + s) = firstSector fs c + s :=
  u32_of_lt (lt_of_lt_of_le (firstSector_add_lt hs h hlt) hs.data_fits)

theorem dataStart_le_firstSector (hs : Sane fs d) (h : InVolume fs c) :
    fs.dataStart ≤ firstSector fs c := by
  rw [firstSector_eq hs h]
  exact Nat.le_add_right _ _

/-- A sector belongs to one cluster. -/
theorem firstSector_add_inj (hs : Sane fs d) (h : InVolume fs c) (h' : InVolume fs c') {s' : Nat}
    (hlt : s < fs.sectorsPerCluster) (hlt' : s' < fs.sectorsPerCluster)
    (heq : firstSector fs c + s = firstSector fs c' + s') : c = c' ∧ s = s' := by
  rw [firstSector_eq hs h, firstSector_eq hs h'] at heq
  have hsum : (c - 2) * fs.sectorsPerCluster + s = (c' - 2) * fs.sectorsPerCluster + s' :=
    by omega
  have hquot := congrArg (· / fs.sectorsPerCluster) hsum
  simp only [Nat.mul_comm _ fs.sectorsPerCluster, Nat.mul_add_div hs.spc_pos,
    Nat.div_eq_of_lt hlt, Nat.div_eq_of_lt hlt'] at hquot
  have hclusters : c = c' := by
    have := h.1
    have := h'.1
    omega
  subst hclusters
  exact ⟨rfl, by omega⟩

/-- The sectors of a cluster. -/
def IsSectorOf (fs : Fat32Fs) (c s : Nat) : Prop :=
  ∃ k < fs.sectorsPerCluster, s = firstSector fs c + k

/-! ## The table -/

/-- The same device and the same data area. -/
def SameData (fs : Fat32Fs) (d d' : Disk) : Prop :=
  d.SameDevice d' ∧ ∀ s, fs.dataStart ≤ s → d'.data s = d.data s

/-- One entry of the table has become `v`, and nothing else has changed that
belongs to a cluster. -/
structure SetEntry (fs : Fat32Fs) (d d' : Disk) (c v : Nat) : Prop where
  sameData : SameData fs d d'
  entry : fatNextCluster fs d' c = v
  others : ∀ c' < fs.totalClusters + 2, c' ≠ c → fatNextCluster fs d' c' = fatNextCluster fs d c'

theorem SameData.refl (fs : Fat32Fs) (d : Disk) : SameData fs d d := ⟨.refl d, fun _ _ => rfl⟩

theorem SameData.trans (h : SameData fs d d') (h' : SameData fs d' d'') : SameData fs d d'' :=
  ⟨h.1.trans h'.1, fun s hs => (h'.2 s hs).trans (h.2 s hs)⟩

/-- The sector of an entry lies in the table, and so inside the device. -/
theorem fatSector_eq (hs : Sane fs d) (h : c < fs.totalClusters + 2) :
    fatSector fs c = fs.fatStart + c / 128 ∧ fatByte c = 4 * (c % 128) ∧
      fs.fatStart + c / 128 < fs.dataStart ∧ fs.fatStart + c / 128 < d.sectorCount := by
  have hcovers := hs.table_covers
  have hbefore := hs.table_before
  have hfits := hs.data_fits
  have hinside := hs.data_inside
  have htotal := hs.total_le
  unfold FAT32_EOC at htotal
  have hbyte : u32 (c * 4) = c * 4 := u32_of_lt (by omega)
  unfold fatSector fatByte
  rw [hbyte, u32_of_lt (by omega)]
  omega

theorem fatNextCluster_eq (hs : Sane fs d) (h : c < fs.totalClusters + 2) :
    fatNextCluster fs d c =
      rdLE (d.data (fs.fatStart + c / 128)) (4 * (c % 128)) 4 % FAT_SPAN := by
  obtain ⟨hsector, hbyte, -, hin⟩ := fatSector_eq hs h
  unfold fatNextCluster
  rw [hsector, hbyte, blockRead_of_works hs.works hin]

/-- A table depends only on the sectors before the data area. -/
theorem fatNextCluster_congr (hs : Sane fs d) (hd : d.SameDevice d')
    (hsame : ∀ s < fs.dataStart, d'.data s = d.data s) (h : c < fs.totalClusters + 2) :
    fatNextCluster fs d' c = fatNextCluster fs d c := by
  rw [fatNextCluster_eq hs h, fatNextCluster_eq (hs.of_sameDevice hd) h,
    hsame _ (fatSector_eq hs h).2.2.1]

theorem lt_span_of_total (hs : Sane fs d) (h : c < fs.totalClusters + 2) : c < FAT_SPAN :=
  h.trans_le (hs.total_le.trans (by decide))

theorem readableEntry_of_sane (hs : Sane fs d) (h : c < fs.totalClusters + 2) :
    ReadableEntry fs d c := by
  obtain ⟨hsector, -, -, hin⟩ := fatSector_eq hs h
  unfold ReadableEntry
  rw [hsector, blockRead_of_works hs.works hin]
  rfl

/-- An update of one word of the table sets one entry. -/
theorem SetsWord.setEntry (hs : Sane fs d) (h : c < fs.totalClusters + 2)
    (hset : SetsWord fs d d' c w)
    (hv : w % FAT_SPAN = v) : SetEntry fs d d' c v := by
  have hs' := hs.of_sameDevice hset.sameDevice
  obtain ⟨hsector, -, hbefore, -⟩ := fatSector_eq hs h
  refine ⟨⟨hset.sameDevice, fun s hsec => ?_⟩, ?_, fun c' h' hne => ?_⟩
  · funext x
    exact hset.frame s x (Or.inl (by omega))
  · rw [fatNextCluster_readable (readableEntry_of_sane hs' h), hset.word, hv]
  · rw [fatNextCluster_readable (readableEntry_of_sane hs' h'),
      fatNextCluster_readable (readableEntry_of_sane hs h'),
      hset.others (lt_span_of_total hs h) (lt_span_of_total hs h') hne]

theorem fatSetCluster_spec (hs : Sane fs d) (h : c < fs.totalClusters + 2) (hv : v < FAT_SPAN) :
    ∃ d', fatSetCluster fs d c v = some d' ∧ SetEntry fs d d' c v := by
  obtain ⟨d', hsome, hset⟩ := fatSetCluster_readable (writesWhereReads_of_works hs.works)
    (readableEntry_of_sane hs h) v
  refine ⟨d', hsome, hset.setEntry hs h ?_⟩
  rw [Nat.mul_add_mod', Nat.mod_mod, Nat.mod_eq_of_lt hv]

/-! ## Allocation -/

/-- A cluster of the volume with a free entry. -/
def Free (fs : Fat32Fs) (d : Disk) (c : Nat) : Prop :=
  InVolume fs c ∧ fatNextCluster fs d c = FAT32_FREE

instance (fs : Fat32Fs) (d : Disk) : DecidablePred (Free fs d) := fun c =>
  inferInstanceAs (Decidable (InVolume fs c ∧ fatNextCluster fs d c = FAT32_FREE))

/-- What an allocation does: it takes a free cluster and marks it as the end of a
chain, or there is no free cluster. -/
def Allocates (fs : Fat32Fs) (d : Disk) (r : Nat × Disk) : Prop :=
  (Free fs d r.1 ∧ SetEntry fs d r.2 r.1 FAT32_EOC) ∨
    (r = (FAT32_EOC, d) ∧ ∀ c, ¬ Free fs d c)

/-- The table of a sane volume covers its clusters. -/
theorem freeEntry_iff (hs : Sane fs d) : FreeEntry fs d c ↔ Free fs d c := by
  have hcovers := hs.table_covers
  constructor
  · intro h
    obtain ⟨hlo, hhi, -, hword⟩ := h
    exact ⟨⟨hlo, hhi⟩, by rw [fatNextCluster_readable (readableEntry_of_sane hs hhi), hword]⟩
  · intro h
    have hhi := h.1.2
    refine ⟨h.1.1, hhi, by omega, ?_⟩
    rw [← fatNextCluster_readable (readableEntry_of_sane hs hhi), h.2]

theorem tableWorks_of_sane (hs : Sane fs d) : TableWorks fs d := by
  intro s hlt
  have hbefore := hs.table_before
  have hfits := hs.data_fits
  have hinside := hs.data_inside
  rw [u32_of_lt (by omega), blockRead_of_works hs.works (by omega)]
  exact ⟨rfl, blockWrite_of_works hs.works (by omega)⟩

theorem fatAllocCluster_cases (hs : Sane fs d) :
    Allocates fs d (fatAllocCluster fs d) ∧ ∀ c, Free fs d c → (fatAllocCluster fs d).1 ≤ c := by
  cases fatAllocCluster_any hs.total_le (tableWorks_of_sane hs) with
  | inl htaken =>
    obtain ⟨hfree, hfirst, hset⟩ := htaken
    rw [freeEntry_iff hs] at hfree
    refine ⟨Or.inl ⟨hfree, hset.setEntry hs hfree.1.2 (by decide)⟩, fun c hc => ?_⟩
    by_contra hlt
    exact hfirst c (not_le.mp hlt) ((freeEntry_iff hs).mpr hc)
  | inr hnone =>
    have hnot : ∀ c, ¬ Free fs d c := fun c hc => hnone.2 c ((freeEntry_iff hs).mpr hc)
    exact ⟨Or.inr ⟨hnone.1, hnot⟩, fun c hc => absurd hc (hnot c)⟩

theorem fatAllocCluster_spec (hs : Sane fs d) : Allocates fs d (fatAllocCluster fs d) :=
  (fatAllocCluster_cases hs).1

/-! ## Chains -/

/-- The clusters that a walk from `v` visits: it ends and stays in the volume. -/
structure Walk (fs : Fat32Fs) (d : Disk) (v : Nat) (l : List Nat) : Prop where
  linked : Linked (fatNextCluster fs d) (fun c => ¬ IsLink c) v l
  inVolume : ∀ c ∈ l, InVolume fs c

/-- A walk that meets no free cluster. -/
structure Chain (fs : Fat32Fs) (d : Disk) (v : Nat) (l : List Nat) : Prop
    extends Walk fs d v l where
  used : ∀ c ∈ l, fatNextCluster fs d c ≠ FAT32_FREE

theorem Walk.tail (h : Walk fs d v (c :: l)) : Walk fs d (fatNextCluster fs d v) l :=
  ⟨h.linked.1 ▸ h.linked.2.2, fun x hx => h.inVolume x (List.mem_cons_of_mem c hx)⟩

theorem Walk.congr (h : Walk fs d v l)
    (hsame : ∀ c ∈ l, fatNextCluster fs d' c = fatNextCluster fs d c) : Walk fs d' v l :=
  ⟨h.linked.congr hsame, h.inVolume⟩

theorem Chain.not_free (h : Chain fs d v l) (hc : c ∈ l) : ¬ Free fs d c :=
  fun hfree => h.used c hc hfree.2

/-- A chain depends only on the entries of its clusters. -/
theorem Chain.congr (h : Chain fs d v l)
    (hsame : ∀ c ∈ l, fatNextCluster fs d' c = fatNextCluster fs d c) : Chain fs d' v l :=
  ⟨h.toWalk.congr hsame, fun c hc => by rw [hsame c hc]; exact h.used c hc⟩

/-- No chain is longer than the volume. -/
theorem Walk.length_le (h : Walk fs d v l) : l.length ≤ fs.totalClusters := by
  have hsub : l ⊆ List.range' 2 fs.totalClusters := by
    intro c hc
    have := h.inVolume c hc
    exact List.mem_range'_1.mpr ⟨this.1, by have := this.2; omega⟩
  have := (List.subperm_of_subset h.linked.nodup hsub).length_le
  rwa [List.length_range'] at this

theorem Walk.length_lt_fuel (hs : Sane fs d) (h : Walk fs d v l) : l.length < 2 ^ 28 := by
  have := h.length_le
  have := hs.total_le
  unfold FAT32_EOC at this
  omega

theorem lastLoop_spec {fuel : Nat}
    (h : Linked (fatNextCluster fs d) (fun c => ¬ IsLink c) v (c :: l))
    (hfuel : l.length < fuel) :
    lastLoop fs d fuel v = some ((c :: l).getLast (List.cons_ne_nil c l)) := by
  induction l generalizing v c fuel with
  | nil =>
    obtain ⟨rfl, -, hstop⟩ := h
    cases fuel with
    | zero => simp at hfuel
    | succ fuel => exact if_neg hstop
  | cons x xs ih =>
    obtain ⟨rfl, -, hrest⟩ := h
    cases fuel with
    | zero => simp at hfuel
    | succ fuel =>
      rw [lastLoop]
      have hlink : IsLink (fatNextCluster fs d v) := by
        obtain ⟨hx, hstop, -⟩ := hrest
        rw [hx]
        exact not_not.mp hstop
      rw [if_pos hlink, ih hrest (by simpa using hfuel),
        List.getLast_cons (List.cons_ne_nil x xs)]

theorem fatChainLast_spec (hs : Sane fs d) (h : Walk fs d v l) :
    fatChainLast fs d v = some (l.getLast?.getD 0) := by
  cases l with
  | nil => exact if_neg h.linked
  | cons c l =>
    have hlt := h.length_lt_fuel hs
    have hlink : IsLink v := by
      rw [h.linked.1]
      exact not_not.mp h.linked.2.1
    rw [fatChainLast, if_pos hlink,
      lastLoop_spec h.linked (by simp at hlt; unfold chainFuel; omega),
      List.getLast?_eq_some_getLast (List.cons_ne_nil c l)]
    rfl

/-- Every entry of a chain is freed, and no other one is changed. -/
structure Freed (fs : Fat32Fs) (d d' : Disk) (l : List Nat) : Prop where
  sameData : SameData fs d d'
  freed : ∀ c ∈ l, fatNextCluster fs d' c = FAT32_FREE
  others : ∀ c < fs.totalClusters + 2, c ∉ l → fatNextCluster fs d' c = fatNextCluster fs d c

theorem freeLoop_spec {fuel : Nat} (hs : Sane fs d) (h : Chain fs d v l)
    (hfuel : l.length < fuel) :
    ∃ d', freeLoop fs fuel d v = some d' ∧ Freed fs d d' l := by
  induction l generalizing d v fuel with
  | nil =>
    cases fuel with
    | zero => simp at hfuel
    | succ fuel => exact ⟨d, if_neg h.linked, .refl fs d, by simp, by simp⟩
  | cons x xs ih =>
    cases fuel with
    | zero => simp at hfuel
    | succ fuel =>
      obtain ⟨rfl, hstop, hrest⟩ := h.linked
      have hnodup := List.nodup_cons.mp h.linked.nodup
      have hx := h.inVolume v (by simp)
      obtain ⟨d₁, hset, hentry⟩ := fatSetCluster_spec hs (v := FAT32_FREE) hx.2 (by decide)
      have hsame : ∀ c ∈ xs, fatNextCluster fs d₁ c = fatNextCluster fs d c := by
        intro c hc
        refine hentry.others c (h.inVolume c (by simp [hc])).2 fun heq => ?_
        exact hnodup.1 (heq ▸ hc)
      have hchain : Chain fs d (fatNextCluster fs d v) xs :=
        ⟨h.toWalk.tail, fun c hc => h.used c (by simp [hc])⟩
      obtain ⟨d', hloop, hfreed⟩ := ih (hs.of_sameDevice hentry.sameData.1) (hchain.congr hsame)
        (show xs.length < fuel by simpa using hfuel)
      refine ⟨d', ?_, hentry.sameData.trans hfreed.sameData, fun c hc => ?_, fun c hlt hc => ?_⟩
      · rw [freeLoop, if_pos (not_not.mp hstop), hset]
        exact hloop
      · rcases List.mem_cons.mp hc with rfl | hc
        · rw [hfreed.others c hx.2 hnodup.1]
          exact hentry.entry
        · exact hfreed.freed c hc
      · rw [List.mem_cons, not_or] at hc
        rw [hfreed.others c hlt hc.2, hentry.others c hlt hc.1]

theorem fatFreeChain_spec (hs : Sane fs d) (h : Chain fs d v l) :
    ∃ d', fatFreeChain fs d v = some d' ∧ Freed fs d d' l :=
  freeLoop_spec hs h (by have := h.toWalk.length_lt_fuel hs; unfold chainFuel; omega)

/-! ## Growing a chain -/

/-- The chain `l` has got the free clusters `new` at its end, and no entry of
another cluster is changed. -/
structure Grown (fs : Fat32Fs) (d d' : Disk) (v' : Nat) (l new : List Nat) : Prop where
  sameData : SameData fs d d'
  free : ∀ c ∈ new, Free fs d c
  chain : Chain fs d' v' (l ++ new)
  others : ∀ c < fs.totalClusters + 2, c ∉ l ++ new →
    fatNextCluster fs d' c = fatNextCluster fs d c

/-- Appending the cluster `c` that an allocation returned and linking the last
cluster to it. -/
theorem grown_of_link (hs : Sane fs d) (h : Chain fs d v l) (hfree : Free fs d c)
    (halloc : SetEntry fs d d' c FAT32_EOC)
    (hsame : SameData fs d' d'')
    (hlast : ∀ x ∈ l.getLast?, fatNextCluster fs d'' x = c)
    (hothers : ∀ x < fs.totalClusters + 2, x ∉ l.getLast? →
      fatNextCluster fs d'' x = fatNextCluster fs d' x) :
    Grown fs d d'' (if l = [] then c else v) l [c] := by
  have hc : c ∉ l := fun hmem => h.not_free hmem hfree
  have hkeep : ∀ x < fs.totalClusters + 2, x ∉ l.getLast? → x ≠ c →
      fatNextCluster fs d'' x = fatNextCluster fs d x := by
    intro x hx hnot hne
    rw [hothers x hx hnot, halloc.others x hx hne]
  have hend : fatNextCluster fs d'' c = FAT32_EOC := by
    rw [hothers c hfree.1.2 fun hmem => hc (List.mem_of_getLast? hmem), halloc.entry]
  have hpre : ∀ x ∈ l.dropLast, x ∉ l.getLast? := by
    intro x hx hmem
    obtain ⟨ys, rfl⟩ := List.getLast?_eq_some_iff.mp hmem
    rw [List.dropLast_concat] at hx
    exact (List.nodup_append.mp h.linked.nodup).2.2 x hx x (by simp) rfl
  have hlinked : Linked (fatNextCluster fs d'') (fun c => ¬ IsLink c) (if l = [] then c else v)
      (l ++ [c]) := by
    have hwalk := h.linked
    rw [← List.append_nil l] at hwalk
    refine hwalk.relink (fun x hx => ?_) hlast ⟨rfl, not_not.mpr (hfree.1.isLink hs), ?_⟩
    · have hmem := List.dropLast_subset l hx
      exact hkeep x (h.inVolume x hmem).2 (hpre x hx) fun heq => hc (heq ▸ hmem)
    · show ¬ IsLink (fatNextCluster fs d'' c)
      rw [hend]
      exact eoc_not_isLink (le_refl _)
  refine ⟨halloc.sameData.trans hsame,
    by simpa using hfree, ⟨⟨hlinked, fun x hx => ?_⟩, fun x hx => ?_⟩,
    fun x hlt hx => ?_⟩
  · rcases List.mem_append.mp hx with hx | hx
    · exact h.inVolume x hx
    · rw [List.mem_singleton.mp hx]
      exact hfree.1
  · rcases List.mem_append.mp hx with hx | hx
    · by_cases hmem : x ∈ l.getLast?
      · rw [hlast x hmem]
        have := hfree.1.1
        unfold FAT32_FREE
        omega
      · rw [hkeep x (h.inVolume x hx).2 hmem fun heq => hc (heq ▸ hx)]
        exact h.used x hx
    · rw [List.mem_singleton.mp hx, hend]
      decide
  · rw [List.mem_append, List.mem_singleton, not_or] at hx
    exact hkeep x hlt (fun hmem => hx.1 (List.mem_of_getLast? hmem)) hx.2

/-- Linking the last cluster of a chain to a new one. -/
theorem link_last (hs : Sane fs d) (h : Chain fs d v l) {last : Nat}
    (hlast : l.getLast? = some last)
    (hfree : Free fs d c) (hset : SetEntry fs d d' c FAT32_EOC) :
    ∃ d'', fatSetCluster fs d' last c = some d'' ∧ Grown fs d d'' v l [c] := by
  have hmem : last ∈ l := List.mem_of_getLast? hlast
  have hne : l ≠ [] := List.ne_nil_of_mem hmem
  obtain ⟨d'', hlinked, hentry⟩ := fatSetCluster_spec (hs.of_sameDevice hset.sameData.1)
    (h.inVolume last hmem).2 (lt_trans (hfree.1.isLink hs).2 (by decide))
  refine ⟨d'', hlinked, ?_⟩
  have hgrown :=
    grown_of_link hs h hfree hset hentry.sameData (fun x hx => ?_) fun x hx hnot => ?_
  · rwa [if_neg hne] at hgrown
  · rw [hlast] at hx
    rw [← Option.mem_some.mp hx]
    exact hentry.entry
  · refine hentry.others x hx fun hxl => hnot ?_
    rw [hlast, hxl]
    rfl

/-- `fat_extend_chain` appends a free cluster, if there is one. -/
theorem fatExtendChain_spec (hs : Sane fs d) (h : Chain fs d v l) (hne : l ≠ []) :
    (∃ c d', fatExtendChain fs d v = some (c, d') ∧ Grown fs d d' v l [c]) ∨
      (fatExtendChain fs d v = some (FAT32_EOC, d) ∧ ∀ c, ¬ Free fs d c) := by
  have halloc := fatAllocCluster_spec hs
  rw [fatExtendChain, fatChainLast_spec hs h.toWalk]
  obtain ⟨last, hlast⟩ := Option.isSome_iff_exists.mp (List.getLast?_isSome.mpr hne)
  have hlink := (h.inVolume last (List.mem_of_getLast? hlast)).isLink hs
  simp only [hlast, Option.getD_some]
  rcases hres : fatAllocCluster fs d with ⟨c, d₁⟩
  rw [hres] at halloc
  rcases halloc with ⟨hfree, hset⟩ | ⟨heq, hnone⟩
  · obtain ⟨d₂, hlinked, hgrown⟩ := link_last hs h hlast hfree hset
    refine .inl ⟨c, d₂, ?_, hgrown⟩
    rw [if_neg (not_le.mpr (hfree.1.isLink hs).2), if_pos hlink, hlinked]
    rfl
  · obtain ⟨rfl, rfl⟩ := Prod.mk.inj heq
    exact .inr ⟨if_pos (le_refl _), hnone⟩

/-- `fat_alloc_cluster` starts the chain of a file that has none. -/
theorem grown_of_alloc (hs : Sane fs d) (h : Chain fs d v []) (hfree : Free fs d c)
    (hset : SetEntry fs d d' c FAT32_EOC) : Grown fs d d' c [] [c] := by
  have := grown_of_link hs h hfree hset (.refl fs d') (by simp) (fun x _ _ => rfl)
  rwa [if_pos rfl] at this

/-- The free clusters of a volume. -/
def freeClusters (fs : Fat32Fs) (d : Disk) : Finset Nat :=
  (Finset.Ico 2 (fs.totalClusters + 2)).filter (Free fs d)

theorem mem_freeClusters : c ∈ freeClusters fs d ↔ Free fs d c := by
  unfold freeClusters
  rw [Finset.mem_filter, Finset.mem_Ico]
  exact ⟨fun h => h.2, fun h => ⟨h.1, h⟩⟩

variable {new : List Nat} {v' : Nat}

theorem freeClusters_congr
    (hsame : ∀ c < fs.totalClusters + 2, fatNextCluster fs d' c = fatNextCluster fs d c) :
    freeClusters fs d' = freeClusters fs d := by
  ext c
  rw [mem_freeClusters, mem_freeClusters]
  refine and_congr_right fun hin => ?_
  rw [hsame c hin.2]

/-- What is free after a chain has grown was free before. -/
theorem Grown.free_iff (h : Grown fs d d' v' l new) (hl : Chain fs d v l) :
    Free fs d' c ↔ Free fs d c ∧ c ∉ new := by
  constructor
  · intro hfree
    have hnot : c ∉ l ++ new := fun hmem => h.chain.not_free hmem hfree
    have hentry := h.others c hfree.1.2 hnot
    exact ⟨⟨hfree.1, hentry ▸ hfree.2⟩, fun hmem => hnot (List.mem_append_right l hmem)⟩
  · rintro ⟨hfree, hnew⟩
    have hnot : c ∉ l ++ new := by
      rw [List.mem_append, not_or]
      exact ⟨fun hmem => hl.not_free hmem hfree, hnew⟩
    refine ⟨hfree.1, ?_⟩
    rw [h.others c hfree.1.2 hnot]
    exact hfree.2

theorem Grown.card_freeClusters (h : Grown fs d d' v' l new) (hl : Chain fs d v l) :
    (freeClusters fs d').card + new.length = (freeClusters fs d).card := by
  have hnodup : new.Nodup := (List.nodup_append.mp h.chain.linked.nodup).2.1
  have hapart : Disjoint (freeClusters fs d') new.toFinset := by
    rw [Finset.disjoint_left]
    intro x hx hmem
    exact ((h.free_iff hl).mp (mem_freeClusters.mp hx)).2 (List.mem_toFinset.mp hmem)
  have hunion : freeClusters fs d = freeClusters fs d' ∪ new.toFinset := by
    ext x
    rw [Finset.mem_union, mem_freeClusters, mem_freeClusters, h.free_iff hl, List.mem_toFinset]
    constructor
    · intro hfree
      by_cases hmem : x ∈ new
      · exact Or.inr hmem
      · exact Or.inl ⟨hfree, hmem⟩
    · intro hx
      cases hx with
      | inl hfree => exact hfree.1
      | inr hmem => exact h.free x hmem
  rw [hunion, Finset.card_union_of_disjoint hapart, List.toFinset_card_of_nodup hnodup]

theorem Grown.trans {v'' : Nat} (hl : Chain fs d v l) (h : Grown fs d d' v' l [c])
    (h' : Grown fs d' d'' v'' (l ++ [c]) new) : Grown fs d d'' v'' l (c :: new) := by
  have happ : l ++ c :: new = l ++ [c] ++ new := by simp
  refine ⟨h.sameData.trans h'.sameData, fun x hx => ?_, happ ▸ h'.chain, fun x hlt hx => ?_⟩
  · rcases List.mem_cons.mp hx with rfl | hx
    · exact h.free x (by simp)
    · exact ((h.free_iff hl).mp (h'.free x hx)).1
  · rw [happ] at hx
    rw [h'.others x hlt hx, h.others x hlt fun hmem => hx (List.mem_append_left new hmem)]

/-! ## A small volume -/

/-- A volume of four clusters, one sector each. -/
def smallFs : Fat32Fs :=
  { fatStart := 1, dataStart := 2, sectorsPerFat := 1, totalClusters := 4, sectorsPerCluster := 1,
    rootCluster := 2 }

/-- Cluster 2 holds `sector` and is a chain of its own, clusters 3 to 5 are free. -/
def smallDisk (sector : Mem) : Disk :=
  { sectorCount := 6, readFails := fun _ => false, writeFails := fun _ => false
    data := fun s => if s = 1 then wrLE (fun _ => 0) 8 4 FAT32_EOC
      else if s = 2 then sector else fun _ => 0 }

theorem sane_smallDisk (sector : Mem) : Sane smallFs (smallDisk sector) where
  works _ := ⟨rfl, rfl⟩
  spc_pos := by decide
  spc_le := by decide
  table_before := by decide
  data_inside := by show 6 ≤ 6; decide
  data_fits := by decide
  table_covers := by decide
  total_le := by decide

theorem chain_smallDisk (sector : Mem) : Chain smallFs (smallDisk sector) 2 [2] := by
  have hnext : fatNextCluster smallFs (smallDisk sector) 2 = FAT32_EOC := by
    rw [fatNextCluster_eq (sane_smallDisk sector) (by decide)]
    show rdLE (wrLE (fun _ => 0) 8 4 FAT32_EOC) 8 4 % FAT_SPAN = FAT32_EOC
    decide
  refine ⟨⟨⟨rfl, by decide, ?_⟩, by decide⟩, ?_⟩
  · show ¬ IsLink (fatNextCluster smallFs (smallDisk sector) 2)
    rw [hnext]
    decide
  · intro c hc
    rw [List.mem_singleton.mp hc, hnext]
    decide

end Lumin.Fs.Fat32
