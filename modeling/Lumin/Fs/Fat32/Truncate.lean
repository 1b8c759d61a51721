import Lumin.Fs.Fat32.FileWrite

/-!
# Truncating a file

`fat32_truncate` to a size that is not 0 walks to the last cluster that is kept,
frees the chain behind it and then marks it as the end.
-/

namespace Lumin.Fs.Fat32

open Lumin.Lib Lumin.Block

variable {fs : Fat32Fs} {d d' d'' : Disk} {c n prev size newSize v : Nat} {l : List Nat}

/-- The loop over the clusters that are kept. -/
theorem keepLoop_spec (h : Linked (fatNextCluster fs d) (fun c => ¬ IsLink c) v l)
    (hn : n ≤ l.length) :
    ∃ cl, keepLoop fs d n prev v = some ((l.take n).getLast?.getD prev, cl) ∧
      Linked (fatNextCluster fs d) (fun c => ¬ IsLink c) cl (l.drop n) := by
  induction n generalizing v l prev with
  | zero => exact ⟨v, rfl, by simpa using h⟩
  | succ n ih =>
    cases l with
    | nil => simp at hn
    | cons x xs =>
      obtain ⟨rfl, hstop, hrest⟩ := h
      obtain ⟨cl, hloop, hwalk⟩ := @ih v _ _ hrest (by simpa using hn)
      refine ⟨cl, ?_, hwalk⟩
      rw [keepLoop, if_pos (not_not.mp hstop), hloop, List.take_succ_cons, List.getLast?_cons]
      rfl

/-- The chain `l` has been cut behind its first `n` clusters: they are a chain, the
others are free, and no entry has changed besides those of the others and of the new
last cluster. -/
structure Cut (fs : Fat32Fs) (d d' : Disk) (v : Nat) (l : List Nat) (n : Nat) : Prop where
  sameData : SameData fs d d'
  chain : Chain fs d' v (l.take n)
  freed : ∀ c ∈ l.drop n, Free fs d' c
  others : ∀ c < fs.totalClusters + 2, c ∉ l.drop n → c ∉ (l.take n).getLast? →
    fatNextCluster fs d' c = fatNextCluster fs d c

/-- Freeing the rest of a chain and marking its new last cluster. -/
theorem cut_of_freed {last : Nat} (h : Chain fs d v l)
    (hlast : (l.take n).getLast? = some last) (hfreed : Freed fs d d' (l.drop n))
    (hset : SetEntry fs d' d'' last FAT32_EOC) : Cut fs d d'' v l n := by
  have happ : l.take n ++ l.drop n = l := List.take_append_drop n l
  have hapart : ∀ c ∈ l.take n, c ∉ l.drop n := by
    intro c hc hc'
    have hnodup := h.linked.nodup
    rw [← happ, List.nodup_append] at hnodup
    exact hnodup.2.2 c hc c hc' rfl
  have hmem : last ∈ l.take n := List.mem_of_getLast? hlast
  have hkeep : ∀ c < fs.totalClusters + 2, c ∉ l.drop n → c ≠ last →
      fatNextCluster fs d'' c = fatNextCluster fs d c := by
    intro c hc hnot hne
    rw [hset.others c hc hne, hfreed.others c hc hnot]
  have hin : ∀ c ∈ l.take n, InVolume fs c := fun c hc => h.inVolume c (List.mem_of_mem_take hc)
  refine ⟨hfreed.sameData.trans hset.sameData, ⟨⟨?_, hin⟩, fun c hc => ?_⟩, fun c hc => ?_,
    fun c hc hnot hne => ?_⟩
  · have hwalk := h.linked
    rw [← happ] at hwalk
    have hcut : Linked (fatNextCluster fs d'') (fun c => ¬ IsLink c)
        (if l.take n = [] then FAT32_EOC else v) (l.take n ++ []) := by
      refine hwalk.relink (fun x hx => ?_) (fun x hx => ?_) ?_
      · have hx' := List.dropLast_subset _ hx
        refine hkeep x (hin x hx').2 (hapart x hx') ?_
        rintro rfl
        obtain ⟨ys, hys⟩ := List.getLast?_eq_some_iff.mp hlast
        have hnodup := h.linked.nodup.sublist (List.take_sublist n l)
        rw [hys, List.dropLast_concat] at hx
        rw [hys] at hnodup
        exact (List.nodup_append.mp hnodup).2.2 x hx x (by simp) rfl
      · rw [hlast] at hx
        rw [← Option.mem_some.mp hx]
        exact hset.entry
      · show ¬ IsLink FAT32_EOC
        decide
    rwa [if_neg (List.ne_nil_of_mem hmem), List.append_nil] at hcut
  · by_cases hx : c = last
    · rw [hx, hset.entry]
      decide
    · rw [hkeep c (hin c hc).2 (hapart c hc) hx]
      exact h.used c (List.mem_of_mem_take hc)
  · have hvol := h.inVolume c (List.mem_of_mem_drop hc)
    refine ⟨hvol, ?_⟩
    rw [hset.others c hvol.2 fun heq => hapart last hmem (heq ▸ hc), hfreed.freed c hc]
  · refine hkeep c hc hnot fun heq => hne ?_
    rw [hlast, heq]
    rfl

/-- A prefix of a chain has the bytes of the chain. -/
theorem chainByte_take {q : Nat} (hq : q < (l.take n).length * fs.clusterSize)
    (hsame : ∀ c ∈ l, ∀ s, IsSectorOf fs c s → d'.data s = d.data s)
    (hspc : 0 < fs.sectorsPerCluster) :
    chainByte fs d' (l.take n) q = chainByte fs d l q := by
  rw [mul_clusterSize] at hq
  have hj : q / 512 < (l.take n).length * fs.sectorsPerCluster := by omega
  have hlt : q / 512 / fs.sectorsPerCluster < (l.take n).length :=
    Nat.div_lt_of_lt_mul (by rwa [Nat.mul_comm])
  have hget : (l.take n).getD (q / 512 / fs.sectorsPerCluster) 0 =
      l.getD (q / 512 / fs.sectorsPerCluster) 0 := by
    rw [List.length_take] at hlt
    rw [List.getD_eq_getElem?_getD, List.getElem?_take_of_lt (by omega),
      ← List.getD_eq_getElem?_getD]
  have hmem := getD_mem hj
  rw [hget] at hmem
  unfold chainByte chainSector
  rw [hget, hsame _ (List.mem_of_mem_take hmem) _ ⟨_, Nat.mod_lt _ hspc, rfl⟩]

/-- **Truncation keeps the prefix and frees the rest.** -/
theorem fat32Truncate_spec {cluster : Nat} (hs : Sane fs d) (hl : Chain fs d cluster l)
    (hsize : size ≤ l.length * fs.clusterSize) (hlt : size < 2 ^ 32) (hpos : 0 < newSize)
    (hless : newSize < size) :
    let keep := (newSize + fs.clusterSize - 1) / fs.clusterSize
    ∃ d', fat32Truncate fs d cluster size newSize = some (0, d', cluster, newSize) ∧
      Cut fs d d' cluster l keep ∧ (l.take keep).length = keep ∧
      content fs d' (l.take keep) newSize = (content fs d l size).take newSize := by
  intro keep
  have hcs := clusterSize_pos hs
  have hceil : newSize ≤ keep * fs.clusterSize := le_ceilDiv_mul hs newSize
  have hkeep : keep ≤ l.length := by
    refine (Nat.div_le_iff_le_mul_add_pred hcs).mpr ?_
    rw [Nat.mul_comm]
    omega
  have hkeep_pos : 0 < keep := Nat.pos_of_ne_zero fun hzero => by
    rw [hzero, Nat.zero_mul] at hceil
    omega
  have htake : (l.take keep).length = keep := by rw [List.length_take, Nat.min_eq_left hkeep]
  obtain ⟨last, hlast⟩ := Option.isSome_iff_exists.mp (List.getLast?_isSome.mpr
    (List.ne_nil_of_length_pos (htake.symm ▸ hkeep_pos)))
  have hin := hl.inVolume last (List.mem_of_mem_take (List.mem_of_getLast? hlast))
  obtain ⟨cl, hloop, hwalk⟩ := @keepLoop_spec fs d keep 0 cluster l hl.linked hkeep
  have hrest : Chain fs d cl (l.drop keep) :=
    ⟨⟨hwalk, fun c hc => hl.inVolume c (List.mem_of_mem_drop hc)⟩,
      fun c hc => hl.used c (List.mem_of_mem_drop hc)⟩
  obtain ⟨d₁, hfree, hfreed⟩ := fatFreeChain_spec hs hrest
  obtain ⟨d₂, hmark, hset⟩ :=
    fatSetCluster_spec (hs.of_sameDevice hfreed.sameData.1) (v := FAT32_EOC)
    hin.2 (by decide)
  have hcut := cut_of_freed hl hlast hfreed hset
  have hle : keep ≤ newSize := by
    refine (Nat.div_le_iff_le_mul_add_pred hcs).mpr ?_
    have := Nat.le_mul_of_pos_left newSize hcs
    omega
  refine ⟨d₂, ?_, hcut, htake, ?_⟩
  · rw [fat32Truncate, if_neg (not_le.mpr hless), if_neg (by omega), u32_of_lt (by omega), hloop,
      hlast]
    simp only [Option.getD_some, hfree, if_pos (hin.isLink hs), hmark,
      u32_of_lt (by omega : newSize < 2 ^ 32)]
  · refine List.ext_getElem? fun q => ?_
    by_cases hq : q < newSize
    · rw [content_getElem? hs.spc_pos (htake.symm ▸ hceil) hq, List.getElem?_take_of_lt hq,
        content_getElem? hs.spc_pos hsize (by omega),
        chainByte_take (by rw [htake]; omega) (fun c hc s hsec => ?_) hs.spc_pos]
      obtain ⟨k, -, rfl⟩ := hsec
      have := dataStart_le_firstSector hs (hl.inVolume c hc)
      exact hcut.sameData.2 _ (by omega)
    · rw [List.getElem?_eq_none (by rw [content_length (htake.symm ▸ hceil)]; omega),
        List.getElem?_eq_none (by rw [List.length_take]; omega)]

/-- Three of six bytes are kept. -/
theorem fat32Truncate_spec_six :
    ∃ d', fat32Truncate smallFs (smallDisk fun i => UInt8.ofNat (65 + i)) 2 6 3 =
        some (0, d', 2, 3) ∧
      Cut smallFs (smallDisk fun i => UInt8.ofNat (65 + i)) d' 2 [2] 1 ∧ [2].length = 1 ∧
      content smallFs d' [2] 3 =
        (content smallFs (smallDisk fun i => UInt8.ofNat (65 + i)) [2] 6).take 3 := by
  exact fat32Truncate_spec (sane_smallDisk _) (chain_smallDisk _) (by decide) (by decide)
    (by decide)
    (by decide)

end Lumin.Fs.Fat32
