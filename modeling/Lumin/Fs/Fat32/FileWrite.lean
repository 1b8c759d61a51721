import Mathlib.Data.List.GetD
import Lumin.Fs.Fat32.Chains
import Lumin.Fs.Fat32.File

/-!
# A file write is a byte-array update

The clusters of a chain, one after the other, are an array of bytes; position
`p` is a byte of sector `p / 512`.  `Stored` says that a stretch of this array
has been overwritten and that no other sector has changed.  One turn of the
sector loop stores a chunk, and the loops compose the chunks.
-/

namespace Lumin.Fs.Fat32

open Lumin.Lib Lumin.Block

/-! ## The bytes of a chain -/

/-- The bytes of one cluster. -/
def clusterBytes (fs : Fat32Fs) (d : Disk) (c : Nat) : List UInt8 :=
  (List.range fs.clusterSize).map fun i => d.data (firstSector fs c + i / 512) (i % 512)

/-- The logical content of a file: its clusters, cut to its size. -/
def content (fs : Fat32Fs) (d : Disk) (l : List Nat) (size : Nat) : List UInt8 :=
  (l.flatMap (clusterBytes fs d)).take size

/-- An array with the bytes from `offset` on replaced by `data`. -/
def splice (old : List UInt8) (offset : Nat) (data : List UInt8) : List UInt8 :=
  old.take offset ++ data ++ old.drop (offset + data.length)

/-- Sector `j` of a chain. -/
def chainSector (fs : Fat32Fs) (l : List Nat) (j : Nat) : Nat :=
  firstSector fs (l.getD (j / fs.sectorsPerCluster) 0) + j % fs.sectorsPerCluster

/-- The byte at position `p` of a chain. -/
def chainByte (fs : Fat32Fs) (d : Disk) (l : List Nat) (p : Nat) : UInt8 :=
  d.data (chainSector fs l (p / 512)) (p % 512)

variable {fs : Fat32Fs} {d d' d'' : Disk} {c i j v p q s size offset : Nat} {l : List Nat}
  {data xs ys : List UInt8}

theorem clusterSize_pos (hs : Sane fs d) : 0 < fs.clusterSize := by
  have := hs.spc_pos
  unfold Fat32Fs.clusterSize
  omega

theorem mul_clusterSize (n : Nat) : n * fs.clusterSize = 512 * (n * fs.sectorsPerCluster) := by
  unfold Fat32Fs.clusterSize
  rw [Nat.mul_left_comm]

theorem clusterBytes_length : (clusterBytes fs d c).length = fs.clusterSize := by
  unfold clusterBytes
  rw [List.length_map, List.length_range]

theorem flatMap_clusterBytes_length :
    (l.flatMap (clusterBytes fs d)).length = l.length * fs.clusterSize := by
  induction l with
  | nil => simp
  | cons c l ih =>
    rw [List.flatMap_cons, List.length_append, ih, clusterBytes_length, List.length_cons,
      Nat.succ_mul, Nat.add_comm]

/-- The array of a chain, byte by byte. -/
theorem flatMap_clusterBytes_getElem? (hspc : 0 < fs.sectorsPerCluster)
    (hp : p < l.length * fs.clusterSize) :
    (l.flatMap (clusterBytes fs d))[p]? = some (chainByte fs d l p) := by
  induction l generalizing p with
  | nil => simp at hp
  | cons c l ih =>
    rw [List.flatMap_cons]
    by_cases hlt : p < fs.clusterSize
    · have hsector : p / 512 < fs.sectorsPerCluster := by
        unfold Fat32Fs.clusterSize at hlt
        omega
      rw [List.getElem?_append_left (by rwa [clusterBytes_length])]
      simp [clusterBytes, chainByte, chainSector, hlt, Nat.div_eq_of_lt hsector,
        Nat.mod_eq_of_lt hsector]
    · have hge : fs.clusterSize ≤ p := not_lt.mp hlt
      rw [List.getElem?_append_right (by rwa [clusterBytes_length]), clusterBytes_length,
        ih (by rw [List.length_cons, Nat.succ_mul] at hp; omega)]
      -- Position `p` of the chain is position `p - clusterSize` of its rest.
      unfold Fat32Fs.clusterSize at hge ⊢
      have hsector : (p - 512 * fs.sectorsPerCluster) / 512 = p / 512 - fs.sectorsPerCluster := by
        omega
      have hge' : fs.sectorsPerCluster ≤ p / 512 := by omega
      unfold chainByte chainSector
      rw [hsector, Nat.div_eq_sub_div hspc hge', Nat.mod_eq_sub_mod hge', List.getD_cons_succ]
      congr 2
      omega

theorem getD_mem (hj : j < l.length * fs.sectorsPerCluster) :
    l.getD (j / fs.sectorsPerCluster) 0 ∈ l := by
  have hlt : j / fs.sectorsPerCluster < l.length := Nat.div_lt_of_lt_mul (by rwa [Nat.mul_comm])
  rw [List.getD_eq_getElem l 0 hlt]
  exact List.getElem_mem hlt

theorem isSectorOf_chainSector (hs : Sane fs d) :
    IsSectorOf fs (l.getD (j / fs.sectorsPerCluster) 0) (chainSector fs l j) :=
  ⟨_, Nat.mod_lt _ hs.spc_pos, rfl⟩

/-- The sectors of a chain are distinct. -/
theorem chainSector_inj (hs : Sane fs d) (hl : ∀ c ∈ l, InVolume fs c) (hnodup : l.Nodup)
    (hi : i < l.length * fs.sectorsPerCluster) (hj : j < l.length * fs.sectorsPerCluster)
    (heq : chainSector fs l i = chainSector fs l j) : i = j := by
  obtain ⟨hcluster, hsector⟩ := firstSector_add_inj hs (hl _ (getD_mem hi)) (hl _ (getD_mem hj))
    (Nat.mod_lt _ hs.spc_pos) (Nat.mod_lt _ hs.spc_pos) heq
  have hlt : i / fs.sectorsPerCluster < l.length := Nat.div_lt_of_lt_mul (by rwa [Nat.mul_comm])
  have hlt' : j / fs.sectorsPerCluster < l.length := Nat.div_lt_of_lt_mul (by rwa [Nat.mul_comm])
  rw [List.getD_eq_getElem l 0 hlt, List.getD_eq_getElem l 0 hlt'] at hcluster
  have hindex := hnodup.getElem_inj_iff.mp hcluster
  rw [← Nat.div_add_mod i fs.sectorsPerCluster, ← Nat.div_add_mod j fs.sectorsPerCluster, hindex,
    hsector]

/-! ## Stretches of the array -/

/-- The bytes `data` stand in the array of `l` from `p` on, and no other byte of
the device has changed. -/
structure Stored (fs : Fat32Fs) (d d' : Disk) (l : List Nat) (p : Nat) (data : List UInt8) :
    Prop where
  sameDevice : d.SameDevice d'
  outside : ∀ s, (∀ c ∈ l, ¬ IsSectorOf fs c s) → d'.data s = d.data s
  bytes : ∀ q < l.length * fs.clusterSize, chainByte fs d' l q =
    if p ≤ q ∧ q < p + data.length then data.getD (q - p) 0 else chainByte fs d l q

theorem Stored.nil (fs : Fat32Fs) (d : Disk) (l : List Nat) (p : Nat) : Stored fs d d l p [] :=
  ⟨.refl d, fun _ _ => rfl, fun q _ => (if_neg fun h => by simp at h; omega).symm⟩

theorem Stored.append (h : Stored fs d d' l p xs) (h' : Stored fs d' d'' l (p + xs.length) ys) :
    Stored fs d d'' l p (xs ++ ys) := by
  refine ⟨h.sameDevice.trans h'.sameDevice,
    fun s hout => (h'.outside s hout).trans (h.outside s hout),
    fun q hq => ?_⟩
  rw [h'.bytes q hq, h.bytes q hq, List.length_append]
  by_cases hfirst : p ≤ q ∧ q < p + xs.length
  · rw [if_neg (by omega), if_pos hfirst, if_pos (by omega), List.getD_append _ _ _ _ (by omega)]
  · by_cases hsecond : p + xs.length ≤ q ∧ q < p + xs.length + ys.length
    · rw [if_pos hsecond, if_pos (by omega), List.getD_append_right _ _ _ _ (by omega)]
      congr 1
      omega
    · rw [if_neg hsecond, if_neg hfirst, if_neg (by omega)]

/-- A write to the array leaves the table alone. -/
theorem Stored.fatNextCluster_eq (hs : Sane fs d) (hl : ∀ c ∈ l, InVolume fs c)
    (h : Stored fs d d' l p data) (hc : c < fs.totalClusters + 2) :
    fatNextCluster fs d' c = fatNextCluster fs d c := by
  refine fatNextCluster_congr hs h.sameDevice (fun s hlt => h.outside s ?_) hc
  rintro x hx ⟨k, -, rfl⟩
  have := dataStart_le_firstSector hs (hl x hx)
  omega

/-- One sector written: `data` goes to one block, whose other bytes are kept. -/
theorem stored_setSector (hs : Sane fs d) (hl : ∀ c ∈ l, InVolume fs c) (hnodup : l.Nodup)
    (hp : p < l.length * fs.clusterSize) (buf : Mem) (data : List UInt8)
    (hblock : p % 512 + data.length ≤ 512)
    (hbuf : ∀ i < 512, (i < p % 512 ∨ p % 512 + data.length ≤ i) →
      buf i = d.data (chainSector fs l (p / 512)) i) :
    Stored fs d (d.setSector (chainSector fs l (p / 512)) (wrBytes buf (p % 512) data)) l p
      data := by
  have hpos : p / 512 < l.length * fs.sectorsPerCluster := by
    rw [mul_clusterSize] at hp
    omega
  refine ⟨sameDevice_setSector _ _ _, fun s hout => ?_, fun q hq => ?_⟩
  · refine setSector_data_ne _ _ fun heq => ?_
    rw [heq] at hout
    exact hout _ (getD_mem hpos) (isSectorOf_chainSector hs)
  · unfold chainByte
    by_cases hdiv : q / 512 = p / 512
    · rw [hdiv, setSector_data_same, wrBytes]
      by_cases hin : p ≤ q ∧ q < p + data.length
      · rw [if_pos (by omega), if_pos hin]
        congr 1
        omega
      · rw [if_neg (by omega), if_neg hin, hbuf (q % 512) (by omega) (by omega)]
    · have hne : chainSector fs l (q / 512) ≠ chainSector fs l (p / 512) := by
        intro heq
        rw [mul_clusterSize] at hq
        exact hdiv (chainSector_inj hs hl hnodup (by omega) hpos heq)
      rw [setSector_data_ne _ _ hne, if_neg (by omega)]

/-! ## The write loops -/

/-- Where the byte `startByte` of cluster `k` of a chain lies. -/
theorem position_eq (hspc : 0 < fs.sectorsPerCluster) {k startByte : Nat}
    (hstart : startByte < fs.clusterSize) :
    chainSector fs l ((k * fs.clusterSize + startByte) / 512) =
        firstSector fs (l.getD k 0) + startByte / 512 ∧
      (k * fs.clusterSize + startByte) % 512 = startByte % 512 ∧
      startByte / 512 < fs.sectorsPerCluster := by
  have hlt : startByte / 512 < fs.sectorsPerCluster := by
    unfold Fat32Fs.clusterSize at hstart
    omega
  have hsector : (k * fs.clusterSize + startByte) / 512 =
      fs.sectorsPerCluster * k + startByte / 512 := by
    rw [mul_clusterSize, Nat.mul_add_div (by decide), Nat.mul_comm k]
  refine ⟨?_, by rw [mul_clusterSize]; omega, hlt⟩
  unfold chainSector
  rw [hsector, Nat.mul_add_div hspc, Nat.mul_add_mod, Nat.div_eq_of_lt hlt,
    Nat.mod_eq_of_lt hlt, Nat.add_zero]

/-- One turn of the inner loop: both branches store the bytes up to the end of the
sector, or all that are left. -/
theorem writeSectors_step (hs : Sane fs d) (hl : ∀ c ∈ l, InVolume fs c) (hnodup : l.Nodup)
    (fuel : Nat) {k startByte : Nat} (hk : k < l.length) (hstart : startByte < fs.clusterSize)
    (hdata : 0 < data.length) :
    ∃ d', writeSectors fs (firstSector fs (l.getD k 0)) (fuel + 1) d startByte data =
        writeSectors fs (firstSector fs (l.getD k 0)) fuel d'
          (startByte + min (512 - startByte % 512) data.length)
          (data.drop (min (512 - startByte % 512) data.length)) ∧
      Stored fs d d' l (k * fs.clusterSize + startByte)
        (data.take (min (512 - startByte % 512) data.length)) := by
  obtain ⟨hsector, hbyte, hlt⟩ := position_eq (l := l) hs.spc_pos (k := k) hstart
  have hc : InVolume fs (l.getD k 0) := by
    rw [List.getD_eq_getElem l 0 hk]
    exact hl _ (List.getElem_mem hk)
  have hin : firstSector fs (l.getD k 0) + startByte / 512 < d.sectorCount :=
    lt_of_lt_of_le (firstSector_add_lt hs hc hlt) hs.data_inside
  have hp : k * fs.clusterSize + startByte < l.length * fs.clusterSize :=
    calc k * fs.clusterSize + startByte
      _ < k * fs.clusterSize + fs.clusterSize := by omega
      _ = (k + 1) * fs.clusterSize := by rw [Nat.succ_mul]
      _ ≤ l.length * fs.clusterSize := Nat.mul_le_mul_right _ hk
  have hstored := fun buf => stored_setSector hs hl hnodup hp buf
    (data.take (min (512 - startByte % 512) data.length)) (by rw [hbyte, List.length_take]; omega)
  simp only [hsector, hbyte] at hstored
  rw [writeSectors, if_pos ⟨hstart, hdata⟩]
  simp only [u32_firstSector_add hs hc hlt, blockRead_of_works hs.works hin,
    blockWrite_of_works hs.works hin]
  split
  · exact ⟨_, rfl, hstored _ (fun i _ _ => rfl)⟩
  next hfull =>
    have hchunk : min (512 - startByte % 512) data.length = 512 := by omega
    have hzero : startByte % 512 = 0 := by omega
    rw [hchunk] at hstored ⊢
    refine ⟨_, rfl, ?_⟩
    have hwhole := hstored (fun _ => 0) (fun i hi hout => by
      rw [List.length_take] at hout
      omega)
    rwa [hzero] at hwhole

/-- The inner loop fills the cluster from `startByte` on, or ends with the data. -/
theorem writeSectors_spec (hs : Sane fs d) (hl : ∀ c ∈ l, InVolume fs c) (hnodup : l.Nodup)
    {k fuel startByte : Nat} (hk : k < l.length) (hstart : startByte ≤ fs.clusterSize)
    (hfuel : data.length ≤ fuel) :
    ∃ d', writeSectors fs (firstSector fs (l.getD k 0)) fuel d startByte data =
        (true, d', data.drop (fs.clusterSize - startByte)) ∧
      Stored fs d d' l (k * fs.clusterSize + startByte)
        (data.take (fs.clusterSize - startByte)) := by
  induction fuel generalizing d startByte data with
  | zero =>
    have hnil : data = [] := List.eq_nil_of_length_eq_zero (by omega)
    subst hnil
    exact ⟨d, by simp [writeSectors], by simpa using Stored.nil fs d l _⟩
  | succ fuel ih =>
    by_cases hgo : startByte < fs.clusterSize ∧ 0 < data.length
    · obtain ⟨d₁, hstep, hstored⟩ := writeSectors_step hs hl hnodup fuel hk hgo.1 hgo.2
      generalize hchunk : min (512 - startByte % 512) data.length = chunk at hstep hstored
      have hle : startByte + chunk ≤ fs.clusterSize := by
        have := hgo.1
        unfold Fat32Fs.clusterSize at this ⊢
        omega
      obtain ⟨d', hloop, hrest⟩ := ih (hs.of_sameDevice hstored.sameDevice) hle
        (show (data.drop chunk).length ≤ fuel by rw [List.length_drop]; omega)
      have hsplit :
          fs.clusterSize - startByte = chunk + (fs.clusterSize - (startByte + chunk)) := by
        omega
      refine ⟨d', ?_, ?_⟩
      · rw [hstep, hloop, List.drop_drop, ← hsplit]
      · rw [hsplit, List.take_add]
        refine hstored.append ?_
        rw [List.length_take, Nat.min_eq_left (by omega), Nat.add_assoc]
        exact hrest
    · refine ⟨d, ?_, ?_⟩
      · rw [writeSectors, if_neg hgo]
        by_cases hend : startByte < fs.clusterSize
        · have hnil : data = [] := List.eq_nil_of_length_eq_zero (by omega)
          rw [hnil, List.drop_nil]
        · rw [show fs.clusterSize - startByte = 0 by omega, List.drop_zero]
      · have hnil : data.take (fs.clusterSize - startByte) = [] := by
          rw [List.take_eq_nil_iff]
          by_cases hend : startByte < fs.clusterSize
          · exact .inr (List.eq_nil_of_length_eq_zero (by omega))
          · exact .inl (by omega)
        rw [hnil]
        exact Stored.nil fs d l _

theorem writeClusters_nil (fuel cl startByte : Nat) :
    writeClusters fs fuel d cl startByte [] = (d, []) := by
  cases fuel with
  | zero => rfl
  | succ fuel => exact if_neg fun h => absurd h.2 (lt_irrefl 0)

/-- The outer loop stores as much of the data as the clusters from `cl` on have room
for.  The clusters before `cl` are `l`, those from `cl` on are `rest`. -/
theorem writeClusters_spec {rest : List Nat} {fuel cl startByte : Nat} (hs : Sane fs d)
    (hl : ∀ c ∈ l ++ rest, InVolume fs c) (hnodup : (l ++ rest).Nodup)
    (hwalk : Linked (fatNextCluster fs d) (fun c => ¬ IsLink c) cl rest)
    (hstart : startByte < fs.clusterSize) (hfuel : data.length < fuel) :
    ∃ d', writeClusters fs fuel d cl startByte data =
        (d', data.drop (rest.length * fs.clusterSize - startByte)) ∧
      Stored fs d d' (l ++ rest) (l.length * fs.clusterSize + startByte)
        (data.take (rest.length * fs.clusterSize - startByte)) := by
  obtain ⟨fuel, rfl⟩ := Nat.exists_eq_add_one_of_ne_zero (show fuel ≠ 0 by omega)
  induction rest generalizing d cl l startByte data fuel with
  | nil =>
    rw [List.length_nil, Nat.zero_mul, Nat.zero_sub, List.drop_zero, List.take_zero]
    exact ⟨d, if_neg fun h => hwalk h.1, Stored.nil _ _ _ _⟩
  | cons c rest ih =>
    by_cases hdata : data = []
    · subst hdata
      rw [List.drop_nil, List.take_nil]
      exact ⟨d, writeClusters_nil _ _ _, Stored.nil _ _ _ _⟩
    have hpos : 0 < data.length := List.length_pos_iff.mpr hdata
    obtain ⟨rfl, hstop, hnext⟩ := hwalk
    have hget : (l ++ cl :: rest).getD l.length 0 = cl := by simp
    obtain ⟨d₁, hsectors, hstored⟩ := writeSectors_spec hs hl hnodup (k := l.length)
      (by simp) hstart.le (le_refl data.length)
    rw [hget] at hsectors
    rw [writeClusters, if_pos ⟨not_not.mp hstop, hpos⟩, hsectors]
    simp only
    have hsame : ∀ c ∈ cl :: rest, fatNextCluster fs d₁ c = fatNextCluster fs d c := fun c hc =>
      hstored.fatNextCluster_eq hs hl (hl c (List.mem_append_right l hc)).2
    have happ : l ++ cl :: rest = (l ++ [cl]) ++ rest := by simp
    have hroom : (cl :: rest).length * fs.clusterSize - startByte =
        fs.clusterSize - startByte + rest.length * fs.clusterSize := by
      rw [List.length_cons, Nat.succ_mul]
      omega
    by_cases hmore : data.length ≤ fs.clusterSize - startByte
    · rw [List.drop_of_length_le hmore, writeClusters_nil, List.drop_of_length_le (by omega),
        List.take_of_length_le (by omega)]
      rw [List.take_of_length_le hmore] at hstored
      exact ⟨d₁, rfl, hstored⟩
    rw [happ] at hl hnodup hstored ⊢
    have hfuel' : (data.drop (fs.clusterSize - startByte)).length < fuel := by
      rw [List.length_drop]
      omega
    obtain ⟨fuel, rfl⟩ := Nat.exists_eq_add_one_of_ne_zero (show fuel ≠ 0 by omega)
    obtain ⟨d', hloop, hrest⟩ := ih (hs.of_sameDevice hstored.sameDevice) hl hnodup
      (hnext.congr fun c hc => hsame c (by simp [hc])) (clusterSize_pos hs) fuel hfuel'
    refine ⟨d', ?_, ?_⟩
    · rw [hsame cl (by simp), hloop, List.drop_drop, Nat.sub_zero, hroom]
    · rw [hroom, List.take_add]
      refine hstored.append ?_
      have hplace :
          (l ++ [cl]).length * fs.clusterSize + 0 = l.length * fs.clusterSize + startByte +
          (data.take (fs.clusterSize - startByte)).length := by
        rw [List.length_append, List.length_singleton, Nat.succ_mul, List.length_take]
        omega
      rwa [hplace, Nat.sub_zero] at hrest

/-! ## Before the write -/

theorem countLoop_spec {fuel n : Nat}
    (h : Linked (fatNextCluster fs d) (fun c => ¬ IsLink c) v (c :: l))
    (hfuel : l.length < fuel) :
    countLoop fs d fuel v n = some (n + l.length) := by
  induction l generalizing v c fuel n with
  | nil =>
    obtain ⟨rfl, -, hstop⟩ := h
    obtain ⟨fuel, rfl⟩ := Nat.exists_eq_add_one_of_ne_zero (show fuel ≠ 0 by omega)
    exact if_neg hstop
  | cons x xs ih =>
    obtain ⟨rfl, -, hrest⟩ := h
    obtain ⟨fuel, rfl⟩ := Nat.exists_eq_add_one_of_ne_zero (show fuel ≠ 0 by omega)
    have hlink : IsLink (fatNextCluster fs d v) := hrest.1 ▸ not_not.mp hrest.2.1
    rw [countLoop, if_pos hlink, ih hrest (by simpa using hfuel), List.length_cons]
    congr 1
    omega

theorem chainCount_spec (hs : Sane fs d) (h : Chain fs d v l) :
    chainCount fs d v = some l.length := by
  cases l with
  | nil => exact if_neg h.linked
  | cons c l =>
    have hlt := h.length_lt_fuel hs
    have hlink : IsLink v := h.linked.1 ▸ not_not.mp h.linked.2.1
    rw [chainCount, if_pos hlink,
      countLoop_spec h.linked (by simp at hlt; unfold chainFuel; omega),
      List.length_cons, Nat.add_comm]

/-- A file with clusters starts with a link. -/
theorem Chain.not_start (h : Chain fs d v l) (hl : l ≠ []) : ¬ (v = 0 ∨ FAT32_EOC ≤ v) := by
  obtain ⟨y, ys, rfl⟩ := List.exists_cons_of_ne_nil hl
  have hlink : IsLink v := h.linked.1 ▸ not_not.mp h.linked.2.1
  have := hlink.1
  have := hlink.2
  omega

/-- One turn of the growth loop, for a file with or without clusters. -/
theorem extendLoop_step (n : Nat) (hs : Sane fs d) (h : Chain fs d v l)
    (hstart : l = [] → v = 0 ∨ FAT32_EOC ≤ v) (hfree : ∃ c, Free fs d c) :
    ∃ d' v' c, extendLoop fs (n + 1) d v = extendLoop fs n d' v' ∧ Grown fs d d' v' l [c] := by
  obtain ⟨x, hx⟩ := hfree
  by_cases hl : l = []
  · subst hl
    rw [extendLoop, if_pos (hstart rfl)]
    rcases hres : fatAllocCluster fs d with ⟨c, d₁⟩
    have halloc := fatAllocCluster_spec hs
    rw [hres] at halloc
    rcases halloc with ⟨hc, hset⟩ | ⟨-, hnone⟩
    · exact ⟨d₁, c, c, if_neg (not_le.mpr (hc.1.isLink hs).2), grown_of_alloc hs h hc hset⟩
    · exact absurd hx (hnone x)
  · rw [extendLoop, if_neg (h.not_start hl)]
    rcases fatExtendChain_spec hs h hl with ⟨c, d₁, heq, hgrown⟩ | ⟨-, hnone⟩
    · rw [heq]
      have hc := (hgrown.free c (by simp)).1.isLink hs
      exact ⟨d₁, v, c, if_neg (not_le.mpr hc.2), hgrown⟩
    · exact absurd hx (hnone x)

/-- Nothing is free, and the growth loop gives up: a file without clusters has got
the failed allocation's value. -/
theorem extendLoop_fails (n : Nat) (hs : Sane fs d) (h : Chain fs d v l)
    (hstart : l = [] → v = 0 ∨ FAT32_EOC ≤ v) (hnone : ∀ c, ¬ Free fs d c) :
    extendLoop fs (n + 1) d v = some (false, d, if l = [] then FAT32_EOC else v) := by
  by_cases hl : l = []
  · rw [extendLoop, if_pos (hstart hl), if_pos hl]
    rcases fatAllocCluster_spec hs with ⟨hfree, -⟩ | ⟨heq, -⟩
    · exact absurd hfree (hnone _)
    · rw [heq]
      exact if_pos (le_refl _)
  · rw [extendLoop, if_neg (h.not_start hl), if_neg hl]
    rcases fatExtendChain_spec hs h hl with ⟨c, d₁, -, hgrown⟩ | ⟨heq, -⟩
    · exact absurd (hgrown.free c (by simp)) (hnone c)
    · rw [heq]
      exact if_pos (le_refl _)

/-- The growth loop appends clusters as long as one is free: all `n` of them, or fewer
before it gives up. -/
theorem extendLoop_cases (n : Nat) (hs : Sane fs d) (h : Chain fs d v l)
    (hstart : l = [] → v = 0 ∨ FAT32_EOC ≤ v) :
    ∃ d' v' new, Grown fs d d' v' l new ∧ (new = [] → d' = d ∧ v' = v) ∧
      new.length = min n (freeClusters fs d).card ∧ extendLoop fs n d v =
        if n ≤ (freeClusters fs d).card then some (true, d', v')
        else some (false, d', if l ++ new = [] then FAT32_EOC else v') := by
  induction n generalizing d v l with
  | zero =>
    refine ⟨d, v, [], ⟨.refl fs d, by simp, ?_, fun _ _ _ => rfl⟩, fun _ => ⟨rfl, rfl⟩,
      by simp, ?_⟩
    · rwa [List.append_nil]
    · rw [if_pos (Nat.zero_le _)]
      rfl
  | succ n ih =>
    by_cases hfree : ∃ c, Free fs d c
    · obtain ⟨d₁, v₁, c, hstep, hgrown⟩ := extendLoop_step n hs h hstart hfree
      have hcard := hgrown.card_freeClusters h
      rw [List.length_singleton] at hcard
      obtain ⟨d', v', new, hrest, -, hlen, hloop⟩ := ih (hs.of_sameDevice hgrown.sameData.1)
        hgrown.chain (fun hnil => by simp at hnil)
      refine ⟨d', v', c :: new, hgrown.trans h hrest, fun hnil => by simp at hnil,
        by rw [List.length_cons]; omega, ?_⟩
      rw [hstep, hloop, ← hcard, List.append_assoc, List.singleton_append]
      exact if_congr Nat.succ_le_succ_iff.symm rfl rfl
    · have hcard : (freeClusters fs d).card = 0 := by
        rw [Finset.card_eq_zero, Finset.eq_empty_iff_forall_notMem]
        exact fun c hc => hfree ⟨c, mem_freeClusters.mp hc⟩
      refine ⟨d, v, [], ⟨.refl fs d, by simp, ?_, fun _ _ _ => rfl⟩, fun _ => ⟨rfl, rfl⟩,
        by rw [hcard]; rfl, ?_⟩
      · rwa [List.append_nil]
      · rw [hcard, if_neg (by omega), List.append_nil]
        exact extendLoop_fails n hs h hstart (not_exists.mp hfree)

/-- The skip loop of a write reaches cluster `n` of the chain. -/
theorem skipWrite_spec {n : Nat} (h : Linked (fatNextCluster fs d) (fun c => ¬ IsLink c) v l)
    (hn : n < l.length) :
    ∃ cl, skipWrite fs d n v = some cl ∧
      Linked (fatNextCluster fs d) (fun c => ¬ IsLink c) cl (l.drop n) := by
  induction n generalizing v l with
  | zero => exact ⟨v, rfl, by simpa using h⟩
  | succ n ih =>
    cases l with
    | nil => simp at hn
    | cons x xs =>
      obtain ⟨rfl, hstop, hrest⟩ := h
      rw [skipWrite, if_pos (not_not.mp hstop), List.drop_succ_cons]
      exact ih hrest (by simpa using hn)

/-! ## The whole write -/

/-- What a write leaves alone: the entries and the sectors of every chain that
shares no cluster with `l`. -/
def OthersKept (fs : Fat32Fs) (d d' : Disk) (l : List Nat) : Prop :=
  ∀ v m, Chain fs d v m → m.Disjoint l →
    ∀ c ∈ m, fatNextCluster fs d' c = fatNextCluster fs d c ∧
      ∀ s, IsSectorOf fs c s → d'.data s = d.data s

/-- The part after the growth: it stores the data in a chain that has room. -/
theorem writeAt_spec (size : Nat) (hs : Sane fs d) (h : Chain fs d v l) (hdata : data ≠ [])
    (hoff : offset < 2 ^ 32) (hcount : data.length < 2 ^ 31)
    (hroom : offset + data.length ≤ l.length * fs.clusterSize) :
    ∃ d', writeAt fs d v size offset data = ((data.length : Int), d', v, size) ∧
      Stored fs d d' l offset data := by
  have hpos := clusterSize_pos hs
  have hlen : 0 < data.length := List.length_pos_iff.mpr hdata
  have hidx : offset / fs.clusterSize < l.length :=
    Nat.div_lt_of_lt_mul (by rw [Nat.mul_comm]; omega)
  have hle : offset / fs.clusterSize ≤ offset := Nat.div_le_self _ _
  obtain ⟨cl, hskip, hwalk⟩ := skipWrite_spec h.linked hidx
  have happ : l.take (offset / fs.clusterSize) ++ l.drop (offset / fs.clusterSize) = l :=
    List.take_append_drop _ _
  have htake : (l.take (offset / fs.clusterSize)).length = offset / fs.clusterSize := by
    rw [List.length_take]
    omega
  have hdecomp : offset / fs.clusterSize * fs.clusterSize + offset % fs.clusterSize = offset := by
    rw [Nat.mul_comm]
    exact Nat.div_add_mod _ _
  obtain ⟨d', hloop, hstored⟩ := writeClusters_spec hs (l := l.take (offset / fs.clusterSize))
    (by rw [happ]; exact h.inVolume) (by rw [happ]; exact h.linked.nodup) hwalk
    (Nat.mod_lt offset hpos) (Nat.lt_succ_self data.length)
  have hfits : data.length ≤
      (l.drop (offset / fs.clusterSize)).length * fs.clusterSize - offset % fs.clusterSize := by
    rw [List.length_drop, Nat.sub_mul]
    omega
  rw [List.drop_of_length_le hfits] at hloop
  rw [happ, htake, hdecomp, List.take_of_length_le hfits] at hstored
  refine ⟨d', ?_, hstored⟩
  rw [writeAt, u32_of_lt (by omega), hskip]
  simp only [hloop, List.length_nil, Nat.sub_zero, s32_of_lt hcount]

theorem content_length (hsize : size ≤ l.length * fs.clusterSize) :
    (content fs d l size).length = size := by
  unfold content
  rw [List.length_take, flatMap_clusterBytes_length, Nat.min_eq_left hsize]

theorem content_getElem? (hspc : 0 < fs.sectorsPerCluster)
    (hsize : size ≤ l.length * fs.clusterSize)
    (hq : q < size) : (content fs d l size)[q]? = some (chainByte fs d l q) := by
  unfold content
  rw [List.getElem?_take_of_lt hq, flatMap_clusterBytes_getElem? hspc (by omega)]

/-- Two chains with the same bytes have the same content. -/
theorem content_eq_splice (hspc : 0 < fs.sectorsPerCluster) {l' : List Nat}
    (hsize : size ≤ l.length * fs.clusterSize) (hoff : offset ≤ size)
    (hroom : max size (offset + data.length) ≤ l'.length * fs.clusterSize)
    (hbytes : ∀ q < max size (offset + data.length), chainByte fs d' l' q =
      if offset ≤ q ∧ q < offset + data.length then data.getD (q - offset) 0
      else chainByte fs d l q) :
    content fs d' l' (max size (offset + data.length)) =
      splice (content fs d l size) offset data := by
  have hlen := content_length (d := d) hsize
  have hlen' : (splice (content fs d l size) offset data).length =
      max size (offset + data.length) := by
    unfold splice
    rw [List.length_append, List.length_append, List.length_take, List.length_drop, hlen]
    omega
  refine List.ext_getElem? fun q => ?_
  by_cases hq : q < max size (offset + data.length)
  · rw [content_getElem? hspc hroom hq, hbytes q hq]
    unfold splice
    by_cases hlow : q < offset
    · rw [if_neg (by omega), List.append_assoc, List.getElem?_append_left (by
        rw [List.length_take, hlen]; omega), List.getElem?_take_of_lt hlow,
        content_getElem? hspc hsize (by omega)]
    · have htake : ((content fs d l size).take offset).length = offset := by
        rw [List.length_take, hlen]
        omega
      rw [List.append_assoc, List.getElem?_append_right (by omega), htake]
      by_cases hmid : q < offset + data.length
      · rw [if_pos (by omega), List.getElem?_append_left (by omega),
          List.getD_eq_getElem data 0 (by omega), List.getElem?_eq_getElem (by omega)]
      · rw [if_neg (by omega), List.getElem?_append_right (by omega), List.getElem?_drop,
          show offset + data.length + (q - offset - data.length) = q by omega,
          content_getElem? hspc hsize (by omega)]
  · rw [List.getElem?_eq_none (by rw [content_length hroom]; omega),
      List.getElem?_eq_none (by omega)]

/-- The bytes at the start of a longer chain. -/
theorem chainByte_append (d : Disk) (new : List Nat) (hq : q < l.length * fs.clusterSize) :
    chainByte fs d (l ++ new) q = chainByte fs d l q := by
  rw [mul_clusterSize] at hq
  have hlt : q / 512 / fs.sectorsPerCluster < l.length :=
    Nat.div_lt_of_lt_mul (by rw [Nat.mul_comm]; omega)
  unfold chainByte chainSector
  rw [List.getD_append _ _ _ _ hlt]

/-- The bytes of a chain that has grown, new clusters included, are those that its
clusters held before. -/
theorem Grown.chainByte_same {new : List Nat} {v' : Nat} (hs : Sane fs d)
    (h : Grown fs d d' v' l new)
    (hq : q < (l ++ new).length * fs.clusterSize) :
    chainByte fs d' (l ++ new) q = chainByte fs d (l ++ new) q := by
  rw [mul_clusterSize] at hq
  have hmem :=
    getD_mem (l := l ++ new) (show q / 512 < (l ++ new).length * fs.sectorsPerCluster by omega)
  have := dataStart_le_firstSector hs (h.chain.inVolume _ hmem)
  unfold chainByte chainSector
  rw [h.sameData.2 _ (by omega)]

/-- A grown chain has the old bytes where the old chain had them. -/
theorem Grown.chainByte_eq {new : List Nat} {v' : Nat} (hs : Sane fs d)
    (h : Grown fs d d' v' l new)
    (hq : q < l.length * fs.clusterSize) : chainByte fs d' (l ++ new) q = chainByte fs d l q := by
  have hlonger : l.length ≤ (l ++ new).length := List.length_append ▸ Nat.le_add_right _ _
  rw [h.chainByte_same hs (hq.trans_le (Nat.mul_le_mul_right _ hlonger)),
    chainByte_append d new hq]

theorem le_ceilDiv_mul (hs : Sane fs d) (n : Nat) :
    n ≤ (n + fs.clusterSize - 1) / fs.clusterSize * fs.clusterSize := by
  have hpos := clusterSize_pos hs
  have hdecomp := Nat.div_add_mod (n + fs.clusterSize - 1) fs.clusterSize
  have hrem := Nat.mod_lt (n + fs.clusterSize - 1) hpos
  rw [Nat.mul_comm] at hdecomp
  omega

/-- What happens before the data is stored: the chain gets the clusters it lacks. -/
theorem fat32WriteFile_grows {cluster : Nat} (hs : Sane fs d) (hl : Chain fs d cluster l)
    (hstart : l = [] → cluster = 0) (hsize : size ≤ l.length * fs.clusterSize) (hdata : data ≠ [])
    (hend : offset + data.length < 2 ^ 32)
    (hfree : (offset + data.length + fs.clusterSize - 1) / fs.clusterSize ≤
      l.length + (freeClusters fs d).card) :
    ∃ d' cluster' new, fat32WriteFile fs d cluster size offset data =
        some (writeAt fs d' cluster' (max size (offset + data.length)) offset data) ∧
      Grown fs d d' cluster' l new ∧
      max size (offset + data.length) ≤ (l ++ new).length * fs.clusterSize := by
  have hlen : data.length ≠ 0 := fun h => hdata (List.eq_nil_of_length_eq_zero h)
  have hcs : fs.clusterSize ≤ 65536 := by
    have := hs.spc_le
    unfold Fat32Fs.clusterSize
    omega
  rw [fat32WriteFile, if_neg hlen, u64_of_lt (by omega)]
  simp only
  by_cases hgrow : size < offset + data.length
  · rw [if_pos hgrow, chainCount_spec hs hl]
    simp only
    rw [u64_of_lt (by omega), u32_of_lt (by omega), Nat.max_eq_right hgrow.le]
    generalize hneeded : (offset + data.length + fs.clusterSize - 1) / fs.clusterSize = needed
      at hfree ⊢
    obtain ⟨d', cluster', new, hgrown, -, hnew, hloop⟩ := extendLoop_cases (needed - l.length)
      hs hl fun hnil => .inl (hstart hnil)
    rw [if_pos (by omega)] at hloop
    refine ⟨d', cluster', new, by rw [hloop], hgrown, ?_⟩
    calc offset + data.length
      _ ≤ needed * fs.clusterSize := hneeded ▸ le_ceilDiv_mul hs _
      _ ≤ (l ++ new).length * fs.clusterSize :=
        Nat.mul_le_mul_right _ (by rw [List.length_append, hnew]; omega)
  · rw [if_neg hgrow, Nat.max_eq_left (not_lt.mp hgrow)]
    refine ⟨d, cluster, [], rfl, ⟨.refl fs d, by simp, ?_, fun _ _ _ => rfl⟩, ?_⟩
    · rwa [List.append_nil]
    · rwa [List.append_nil]

/-- Without enough free clusters nothing is written. -/
theorem fat32WriteFile_full {cluster : Nat} (hs : Sane fs d) (hl : Chain fs d cluster l)
    (hstart : l = [] → cluster = 0) (hsize : size ≤ l.length * fs.clusterSize) (hdata : data ≠ [])
    (hend : offset + data.length < 2 ^ 32)
    (hfull : l.length + (freeClusters fs d).card <
      (offset + data.length + fs.clusterSize - 1) / fs.clusterSize) :
    ∃ d' cluster', fat32WriteFile fs d cluster size offset data =
      some (-1, d', cluster', size) := by
  have hlen : data.length ≠ 0 := fun h => hdata (List.eq_nil_of_length_eq_zero h)
  have hpos := clusterSize_pos hs
  have hcs : fs.clusterSize ≤ 65536 := by
    have := hs.spc_le
    unfold Fat32Fs.clusterSize
    omega
  have hgrow : size < offset + data.length := by
    by_contra hle
    have hlt := (Nat.lt_div_iff_mul_lt hpos).mp (lt_of_le_of_lt (Nat.le_add_right _ _) hfull)
    omega
  rw [fat32WriteFile, if_neg hlen, u64_of_lt (by omega)]
  simp only
  rw [if_pos hgrow, chainCount_spec hs hl]
  simp only
  rw [u64_of_lt (by omega)]
  generalize (offset + data.length + fs.clusterSize - 1) / fs.clusterSize = needed at hfull ⊢
  obtain ⟨d', cluster', new, -, -, -, hloop⟩ := extendLoop_cases (needed - l.length) hs hl
    fun hnil => .inl (hstart hnil)
  rw [if_neg (by omega)] at hloop
  exact ⟨d', _, by rw [hloop]⟩

/-- A write that succeeds has grown the chain, if needed, and stored the data in it. -/
theorem fat32WriteFile_inv {cluster cluster' size' : Nat} (hs : Sane fs d)
    (hl : Chain fs d cluster l)
    (hstart : l = [] → cluster = 0) (hsize : size ≤ l.length * fs.clusterSize) (hdata : data ≠ [])
    (hend : offset + data.length < 2 ^ 32) (hcount : data.length < 2 ^ 31)
    (hrun : fat32WriteFile fs d cluster size offset data =
      some ((data.length : Int), d', cluster', size')) :
    ∃ d₁ new, Grown fs d d₁ cluster' l new ∧ Stored fs d₁ d' (l ++ new) offset data ∧
      size' = max size (offset + data.length) ∧ size' ≤ (l ++ new).length * fs.clusterSize := by
  by_cases hfree : (offset + data.length + fs.clusterSize - 1) / fs.clusterSize ≤
      l.length + (freeClusters fs d).card
  · obtain ⟨d₁, v, new, heq, hgrown, hroom⟩ :=
      fat32WriteFile_grows hs hl hstart hsize hdata hend hfree
    obtain ⟨d₂, hwrite, hstored⟩ := writeAt_spec (max size (offset + data.length))
      (hs.of_sameDevice hgrown.sameData.1) hgrown.chain hdata (by omega) hcount
      (le_trans (Nat.le_max_right _ _) hroom)
    rw [heq, hwrite] at hrun
    obtain ⟨-, rfl, rfl, rfl⟩ := Option.some.inj hrun
    exact ⟨d₁, new, hgrown, hstored, rfl, hroom⟩
  · obtain ⟨d₁, v, heq⟩ :=
      fat32WriteFile_full hs hl hstart hsize hdata hend (not_le.mp hfree)
    rw [heq] at hrun
    obtain ⟨hfail, -⟩ := Prod.mk.inj (Option.some.inj hrun)
    omega

/-- Growing a chain and storing data in it touches no other chain. -/
theorem othersKept_of_stored {new : List Nat} {v' : Nat} (hs : Sane fs d)
    (hgrown : Grown fs d d' v' l new) (hstored : Stored fs d' d'' (l ++ new) p data) :
    OthersKept fs d d'' l := by
  intro w m hm hdisj c hc
  have hin := hm.inVolume c hc
  have hs' := hs.of_sameDevice hgrown.sameData.1
  have hnot : c ∉ l ++ new := by
    rw [List.mem_append, not_or]
    exact ⟨fun hmem => hdisj hc hmem, fun hmem => hm.not_free hc (hgrown.free c hmem)⟩
  refine ⟨?_, ?_⟩
  · rw [hstored.fatNextCluster_eq hs' hgrown.chain.inVolume hin.2, hgrown.others c hin.2 hnot]
  · rintro s ⟨k, hk, rfl⟩
    rw [hstored.outside, hgrown.sameData.2]
    · have := dataStart_le_firstSector hs hin
      omega
    · rintro x hx ⟨k', hk', heq⟩
      obtain ⟨rfl, -⟩ := firstSector_add_inj hs hin (hgrown.chain.inVolume x hx) hk hk' heq
      exact hnot hx

/-- **A write is a byte-array update.**  On a sane volume without I/O errors, for a
file with a proper chain, an offset inside the file and enough free clusters,
`fat32_write_file` writes all of the data: the chain keeps its clusters and may
get new ones, the content is spliced, and no other chain is touched. -/
theorem fat32WriteFile_spec {cluster : Nat} (hs : Sane fs d) (hl : Chain fs d cluster l)
    (hstart : l = [] → cluster = 0) (hsize : size ≤ l.length * fs.clusterSize)
    (hoff : offset ≤ size) (hdata : data ≠ []) (hend : offset + data.length < 2 ^ 31)
    (hfree : (offset + data.length + fs.clusterSize - 1) / fs.clusterSize ≤
      l.length + (freeClusters fs d).card) :
    ∃ d' cluster' new, fat32WriteFile fs d cluster size offset data =
        some ((data.length : Int), d', cluster', max size (offset + data.length)) ∧
      Chain fs d' cluster' (l ++ new) ∧
      content fs d' (l ++ new) (max size (offset + data.length)) =
        splice (content fs d l size) offset data ∧
      OthersKept fs d d' l := by
  obtain ⟨d₁, cluster', new, heq, hgrown, hroom⟩ :=
    fat32WriteFile_grows hs hl hstart hsize hdata (by omega) hfree
  have hs₁ := hs.of_sameDevice hgrown.sameData.1
  obtain ⟨d', hwrite, hstored⟩ := writeAt_spec (max size (offset + data.length)) hs₁ hgrown.chain
    hdata (by omega) (by omega) (le_trans (Nat.le_max_right _ _) hroom)
  refine ⟨d', cluster', new, by rw [heq, hwrite], ?_, ?_, othersKept_of_stored hs hgrown hstored⟩
  · exact hgrown.chain.congr fun c hc =>
      hstored.fatNextCluster_eq hs₁ hgrown.chain.inVolume (hgrown.chain.inVolume c hc).2
  · refine content_eq_splice hs.spc_pos hsize hoff hroom
      fun q hq => ?_
    rw [hstored.bytes q (by omega)]
    split
    · rfl
    next hout => exact hgrown.chainByte_eq hs (by omega)

/-- Four bytes at the end of a file of 510 bytes: the file gets a second cluster. -/
theorem fat32WriteFile_spec_grows :
    ∃ d' cluster' new, fat32WriteFile smallFs (smallDisk fun _ => 0) 2 510 510 [1, 2, 3, 4] =
        some (4, d', cluster', 514) ∧
      Chain smallFs d' cluster' ([2] ++ new) ∧
      content smallFs d' ([2] ++ new) 514 =
        splice (content smallFs (smallDisk fun _ => 0) [2] 510) 510 [1, 2, 3, 4] ∧
      OthersKept smallFs (smallDisk fun _ => 0) d' [2] := by
  exact fat32WriteFile_spec (sane_smallDisk _) (chain_smallDisk _) (by decide) (by decide)
    (by decide)
    (by decide) (by decide) (by decide)

end Lumin.Fs.Fat32
