import Lumin.Fs.Fat32.FileWrite

/-!
# A file read is a stretch of the byte array

`fat32_read_file` returns the bytes of the chain from its offset on, up to the
size of the file.  One turn of the sector loop reads a chunk, and the loops
append the chunks.
-/

namespace Lumin.Fs.Fat32

open Lumin.Lib Lumin.Block

/-- The `n` bytes of a chain from `p` on. -/
def stretch (fs : Fat32Fs) (d : Disk) (l : List Nat) (p n : Nat) : List UInt8 :=
  (List.range n).map fun i => chainByte fs d l (p + i)

variable {fs : Fat32Fs} {d : Disk} {i k m n p v size offset startByte remaining : Nat}
  {l : List Nat}

@[simp] theorem stretch_zero : stretch fs d l p 0 = [] := rfl

@[simp] theorem stretch_length : (stretch fs d l p n).length = n := by simp [stretch]

theorem stretch_add :
    stretch fs d l p (m + n) = stretch fs d l p m ++ stretch fs d l (p + m) n := by
  unfold stretch
  rw [List.range_add, List.map_append, List.map_map]
  congr 1
  refine List.map_congr_left fun i _ => ?_
  rw [Function.comp_apply, Nat.add_assoc]

theorem stretch_getElem? (h : i < n) :
    (stretch fs d l p n)[i]? = some (chainByte fs d l (p + i)) := by
  simp [stretch, h]

/-- The sectors of the clusters `l` can be read, and their numbers do not wrap. -/
def SectorsRead (fs : Fat32Fs) (d : Disk) (l : List Nat) : Prop :=
  ∀ c ∈ l, ∀ s < fs.sectorsPerCluster, firstSector fs c + s < 2 ^ 32 ∧
    (blockRead d (firstSector fs c + s)).isSome

/-- On a sane volume the sectors of every cluster can be read. -/
theorem sectorsRead_of_inVolume (hs : Sane fs d) (hl : ∀ c ∈ l, InVolume fs c) :
    SectorsRead fs d l := by
  intro c hc s hlt
  have hin := firstSector_add_lt hs (hl c hc) hlt
  have hfits := hs.data_fits
  refine ⟨by omega, ?_⟩
  rw [blockRead_of_works hs.works (lt_of_lt_of_le hin hs.data_inside)]
  rfl

/-- One turn of the inner loop reads the bytes up to the end of the sector, or all
that are left. -/
theorem readSectors_step (hspc : 0 < fs.sectorsPerCluster) (hl : SectorsRead fs d l) (fuel : Nat)
    (hk : k < l.length) (hstart : startByte < fs.clusterSize) (hleft : 0 < remaining) :
    readSectors fs d (firstSector fs (l.getD k 0)) (fuel + 1) startByte remaining =
      let chunk := min (512 - startByte % 512) remaining
      let rest := readSectors fs d (firstSector fs (l.getD k 0)) fuel (startByte + chunk)
        (remaining - chunk)
      (rest.1, stretch fs d l (k * fs.clusterSize + startByte) chunk ++ rest.2.1, rest.2.2) := by
  obtain ⟨hsector, hbyte, hlt⟩ := position_eq (l := l) hspc (k := k) hstart
  have hmem : l.getD k 0 ∈ l := by
    rw [List.getD_eq_getElem l 0 hk]
    exact List.getElem_mem hk
  obtain ⟨hfits, hread⟩ := hl _ hmem _ hlt
  have hbytes : stretch fs d l (k * fs.clusterSize + startByte)
      (min (512 - startByte % 512) remaining) =
      (List.range (min (512 - startByte % 512) remaining)).map fun i =>
        d.data (firstSector fs (l.getD k 0) + startByte / 512) (startByte % 512 + i) := by
    refine List.map_congr_left fun i hi => ?_
    -- The chunk does not leave the sector it starts in.
    have hi : i < 512 - startByte % 512 :=
      lt_of_lt_of_le (List.mem_range.mp hi) (Nat.min_le_left _ _)
    unfold chainByte
    rw [show (k * fs.clusterSize + startByte + i) / 512 =
      (k * fs.clusterSize + startByte) / 512 by omega,
      show (k * fs.clusterSize + startByte + i) % 512 = startByte % 512 + i by omega, hsector]
  rw [readSectors, if_pos ⟨hstart, hleft⟩]
  simp only [u32_of_lt hfits, blockRead_eq hread, hbytes]

/-- The inner loop reads the cluster from `startByte` on, or ends with the request. -/
theorem readSectors_spec (hspc : 0 < fs.sectorsPerCluster) (hl : SectorsRead fs d l) {fuel : Nat}
    (hk : k < l.length) (hstart : startByte ≤ fs.clusterSize) (hfuel : remaining ≤ fuel) :
    readSectors fs d (firstSector fs (l.getD k 0)) fuel startByte remaining =
      (true, stretch fs d l (k * fs.clusterSize + startByte)
        (min (fs.clusterSize - startByte) remaining),
        remaining - (fs.clusterSize - startByte)) := by
  induction fuel generalizing startByte remaining with
  | zero =>
    obtain rfl : remaining = 0 := by omega
    simp [readSectors]
  | succ fuel ih =>
    by_cases hgo : startByte < fs.clusterSize ∧ 0 < remaining
    · rw [readSectors_step hspc hl fuel hk hgo.1 hgo.2]
      generalize hchunk : min (512 - startByte % 512) remaining = chunk
      have hle : startByte + chunk ≤ fs.clusterSize := by
        have := hgo.1
        unfold Fat32Fs.clusterSize at this ⊢
        omega
      have hsplit : min (fs.clusterSize - startByte) remaining =
          chunk + min (fs.clusterSize - (startByte + chunk)) (remaining - chunk) := by
        omega
      simp only [ih hle (show remaining - chunk ≤ fuel by omega)]
      rw [hsplit, stretch_add, Nat.add_assoc,
        show remaining - chunk - (fs.clusterSize - (startByte + chunk)) =
          remaining - (fs.clusterSize - startByte) by omega]
    · rw [readSectors, if_neg hgo, show min (fs.clusterSize - startByte) remaining = 0 by omega,
        stretch_zero, show remaining - (fs.clusterSize - startByte) = remaining by omega]

/-- The outer loop reads to the end of the chain, or to the end of the request.  The
clusters before `cl` are `l`, those from `cl` on are `rest`. -/
theorem readClusters_spec {rest : List Nat} {fuel cl : Nat} (hspc : 0 < fs.sectorsPerCluster)
    (hl : SectorsRead fs d (l ++ rest))
    (hwalk : Linked (fatNextCluster fs d) (fun c => ¬ IsLink c) cl rest)
    (hstart : startByte < fs.clusterSize) (hfuel : remaining < fuel) :
    readClusters fs d fuel cl startByte remaining =
      stretch fs d (l ++ rest) (l.length * fs.clusterSize + startByte)
        (min remaining (rest.length * fs.clusterSize - startByte)) := by
  induction rest generalizing cl l startByte remaining fuel with
  | nil =>
    obtain ⟨fuel, rfl⟩ := Nat.exists_eq_add_one_of_ne_zero (show fuel ≠ 0 by omega)
    rw [readClusters, if_neg fun h => hwalk h.1]
    simp
  | cons c rest ih =>
    obtain ⟨fuel, rfl⟩ := Nat.exists_eq_add_one_of_ne_zero (show fuel ≠ 0 by omega)
    by_cases hnone : remaining = 0
    · rw [readClusters, if_neg (by omega), hnone, Nat.zero_min, stretch_zero]
    obtain ⟨rfl, hstop, hnext⟩ := hwalk
    have hget : (l ++ cl :: rest).getD l.length 0 = cl := by simp
    have hsectors :=
      readSectors_spec hspc hl (k := l.length) (by simp) hstart.le (le_refl remaining)
    rw [hget] at hsectors
    have happ : l ++ cl :: rest = l ++ [cl] ++ rest := by simp
    have hcs : 0 < fs.clusterSize := Nat.mul_pos (by decide) hspc
    have hrest : readClusters fs d fuel (fatNextCluster fs d cl) 0
          (remaining - (fs.clusterSize - startByte)) =
        stretch fs d (l ++ [cl] ++ rest) ((l ++ [cl]).length * fs.clusterSize + 0)
          (min (remaining - (fs.clusterSize - startByte)) (rest.length * fs.clusterSize - 0)) :=
      ih (happ ▸ hl) hnext hcs (by omega)
    rw [← happ, List.length_append, List.length_singleton, Nat.succ_mul, Nat.sub_zero] at hrest
    rw [readClusters, if_pos ⟨not_not.mp hstop, Nat.pos_of_ne_zero hnone⟩, hsectors]
    simp only [hrest]
    rw [List.length_cons, Nat.succ_mul]
    -- Either the request ends in this cluster, or the next one is read from its start.
    by_cases hfits : remaining ≤ fs.clusterSize - startByte
    · rw [Nat.min_eq_right hfits, Nat.sub_eq_zero_of_le hfits, Nat.zero_min, stretch_zero,
        List.append_nil, Nat.min_eq_left (by omega)]
    · rw [Nat.min_eq_left (by omega),
        show min remaining (rest.length * fs.clusterSize + fs.clusterSize - startByte) =
          fs.clusterSize - startByte +
            min (remaining - (fs.clusterSize - startByte)) (rest.length * fs.clusterSize) by
              omega,
        stretch_add]
      congr 2
      omega

/-- The skip loop of a read reaches cluster `n` of the chain. -/
theorem skipRead_spec (h : Linked (fatNextCluster fs d) (fun c => ¬ IsLink c) v l)
    (hn : n < l.length) :
    ∃ cl, skipRead fs d n v = some cl ∧
      Linked (fatNextCluster fs d) (fun c => ¬ IsLink c) cl (l.drop n) := by
  induction n generalizing v l with
  | zero => exact ⟨v, rfl, by simpa using h⟩
  | succ n ih =>
    cases l with
    | nil => simp at hn
    | cons x xs =>
      obtain ⟨rfl, -, hrest⟩ := h
      have hn : n < xs.length := by simpa using hn
      obtain ⟨y, ys, rfl⟩ :=
        List.exists_cons_of_ne_nil (List.ne_nil_of_length_pos (Nat.zero_lt_of_lt hn))
      have hlink : IsLink (fatNextCluster fs d v) := by
        rw [hrest.1]
        exact not_not.mp hrest.2.1
      rw [skipRead, List.drop_succ_cons]
      simp only [if_pos hlink]
      exact ih hrest hn

/-- A file whose chain ends and can be read; the start cluster is `v`. -/
structure ReadableFile (fs : Fat32Fs) (d : Disk) (v : Nat) (l : List Nat) : Prop where
  spc_pos : 0 < fs.sectorsPerCluster
  linked : Linked (fatNextCluster fs d) (fun c => ¬ IsLink c) v l
  sectors : SectorsRead fs d l

theorem Chain.readableFile (hs : Sane fs d) (h : Chain fs d v l) : ReadableFile fs d v l :=
  ⟨hs.spc_pos, h.linked, sectorsRead_of_inVolume hs h.inVolume⟩

/-- For a position inside the file, `fat32_read_file` returns the bytes of the chain from
there on: to the end of the chain, if the request is longer. -/
theorem fat32ReadFile_stretch {cluster count : Nat} (h : ReadableFile fs d cluster l)
    (hsize : size ≤ l.length * fs.clusterSize) (hlt : size < 2 ^ 32) (hoff : offset < size)
    (hcount : count ≠ 0) :
    fat32ReadFile fs d cluster size offset count =
      let wanted := if size < u64 (offset + count) then size - offset else count
      let n := min wanted (l.length * fs.clusterSize - offset)
      (s32 n, stretch fs d l offset n) := by
  have hpos : 0 < fs.clusterSize := Nat.mul_pos (by decide) h.spc_pos
  have hidx : offset / fs.clusterSize < l.length :=
    Nat.div_lt_of_lt_mul (by rw [Nat.mul_comm]; omega)
  have hle : offset / fs.clusterSize ≤ offset := Nat.div_le_self _ _
  obtain ⟨cl, hskip, hwalk⟩ := skipRead_spec h.linked hidx
  have happ : l.take (offset / fs.clusterSize) ++ l.drop (offset / fs.clusterSize) = l :=
    List.take_append_drop _ _
  have htake : (l.take (offset / fs.clusterSize)).length = offset / fs.clusterSize := by
    rw [List.length_take]
    omega
  have hdecomp : offset / fs.clusterSize * fs.clusterSize + offset % fs.clusterSize = offset := by
    rw [Nat.mul_comm]
    exact Nat.div_add_mod _ _
  have hroom :
      (l.drop (offset / fs.clusterSize)).length * fs.clusterSize - offset % fs.clusterSize =
      l.length * fs.clusterSize - offset := by
    rw [List.length_drop, Nat.sub_mul]
    omega
  rw [fat32ReadFile, if_neg hcount, if_neg (not_le.mpr hoff), u32_of_lt (by omega), hskip]
  generalize (if size < u64 (offset + count) then size - offset else count) = wanted
  have hread := readClusters_spec h.spc_pos (l := l.take (offset / fs.clusterSize))
    (by rw [happ]; exact h.sectors) hwalk (Nat.mod_lt offset hpos) (Nat.lt_succ_self wanted)
  rw [happ, htake, hdecomp, hroom] at hread
  simp only [hread, stretch_length]

/-- **A read is a stretch of the byte array.**  For a file with a proper chain and a
position inside the file, `fat32_read_file` returns the bytes of the chain from
there on, at least those that are asked for inside the file. -/
theorem fat32ReadFile_spec {cluster count : Nat} (hs : Sane fs d) (hl : Chain fs d cluster l)
    (hsize : size ≤ l.length * fs.clusterSize) (hlt : size < 2 ^ 32) (hoff : offset < size)
    (hcount : count ≠ 0) :
    ∃ n, min count (size - offset) ≤ n ∧ fat32ReadFile fs d cluster size offset count =
      (s32 n, stretch fs d l offset n) := by
  refine ⟨_, ?_, fat32ReadFile_stretch (hl.readableFile hs) hsize hlt hoff hcount⟩
  split <;> omega

/-! ## The slice of the content -/

/-- A stretch inside the file is a slice of its content. -/
theorem stretch_eq_slice (hspc : 0 < fs.sectorsPerCluster)
    (hsize : size ≤ l.length * fs.clusterSize)
    (h : p + n ≤ size) : stretch fs d l p n = ((content fs d l size).drop p).take n := by
  refine List.ext_getElem? fun i => ?_
  by_cases hi : i < n
  · rw [stretch_getElem? hi, List.getElem?_take_of_lt hi, List.getElem?_drop,
      content_getElem? hspc hsize (by omega)]
  · rw [List.getElem?_eq_none (by rw [stretch_length]; omega),
      List.getElem?_eq_none (by rw [List.length_take]; omega)]

/-- `fat32_read_file` returns the slice of the content that is asked for. -/
theorem fat32ReadFile_slice {cluster count : Nat} (h : ReadableFile fs d cluster l)
    (hsize : size ≤ l.length * fs.clusterSize) (hlt : size < 2 ^ 32)
    (hwrap : offset + count < 2 ^ 64)
    (hint : min count (size - offset) < 2 ^ 31) :
    fat32ReadFile fs d cluster size offset count =
      (((min count (size - offset) : Nat) : Int),
        ((content fs d l size).drop offset).take count) := by
  have hlen := content_length (d := d) hsize
  by_cases hnone : count = 0 ∨ size ≤ offset
  · have hempty : ((content fs d l size).drop offset).take count = [] := by
      refine List.eq_nil_of_length_eq_zero ?_
      rw [List.length_take, List.length_drop, hlen]
      omega
    rw [hempty, show min count (size - offset) = 0 by omega, fat32ReadFile]
    by_cases hcount : count = 0
    · exact if_pos hcount
    · rw [if_neg hcount]
      exact if_pos (hnone.resolve_left hcount)
  · rw [not_or, not_le] at hnone
    obtain ⟨hcount, hoff⟩ := hnone
    have hmin : min (if size < u64 (offset + count) then size - offset else count)
        (l.length * fs.clusterSize - offset) = min count (size - offset) := by
      rw [u64_of_lt hwrap]
      split <;> omega
    have hslice : ((content fs d l size).drop offset).take (min count (size - offset)) =
        ((content fs d l size).drop offset).take count := by
      refine List.take_eq_take_iff.mpr ?_
      rw [List.length_drop, hlen]
      omega
    rw [fat32ReadFile_stretch h hsize hlt hoff hcount]
    dsimp only
    rw [hmin, s32_of_lt hint, stretch_eq_slice h.spc_pos hsize (by omega), hslice]

end Lumin.Fs.Fat32
