import Lumin.Fs.Fat32.FileRead
import Lumin.Fs.Fat32.WriteExtent

/-!
# Offsets and counts of 64 bits

`fat32_read_file` and `fat32_write_file` add offset and count in 64 bits, store the
size in 32 and cut the cluster index to 32.  The first sum decides whether a read is
clamped to the file and whether a write grows it.  This module says when a read
stores more bytes than the file has left, and when a write that succeeds leaves
another size than its end in natural numbers.
-/

namespace Lumin.Fs.Fat32

open Lumin.Lib Lumin.Block

variable {fs : Fat32Fs} {d d' : Disk}
  {cl count fuel m n p r start v size offset first remaining : Nat}
  {l : List Nat} {data : List UInt8} {P : Nat → Prop}

/-! ## How far a loop gets -/

/-- Of the `r` positions from `start` on the first `m` satisfy `P`, and position
`start + m` does not, unless all do. -/
structure StopsAt (P : Nat → Prop) (start r m : Nat) : Prop where
  le : m ≤ r
  before : ∀ p, start ≤ p → p < start + m → P p
  stop : m < r → ¬ P (start + m)

theorem StopsAt.zero (P : Nat → Prop) (start : Nat) : StopsAt P start 0 0 :=
  ⟨le_refl 0, fun p hle hlt => by omega, fun h => absurd h (lt_irrefl 0)⟩

theorem StopsAt.le_iff (h : StopsAt P start r m) :
    n ≤ m ↔ n ≤ r ∧ ∀ p, start ≤ p → p < start + n → P p := by
  constructor
  · intro hn
    exact ⟨hn.trans h.le, fun p hle hlt => h.before p hle (by omega)⟩
  · intro hn
    by_contra hgt
    exact h.stop (by omega) (hn.2 (start + m) (by omega) (by omega))

/-- A part in which all positions satisfy `P` comes first. -/
theorem StopsAt.append (hpart : ∀ p, start ≤ p → p < start + n → P p) (hn : n ≤ r)
    (h : StopsAt P (start + n) (r - n) m) : StopsAt P start r (n + m) := by
  have hle := h.le
  refine ⟨by omega, fun p hp hlt => ?_, fun hlt => ?_⟩
  · by_cases hfirst : p < start + n
    · exact hpart p hp hfirst
    · exact h.before p (by omega) (by omega)
  · rw [← Nat.add_assoc]
    exact h.stop (by omega)

/-! ## How many bytes a read stores -/

/-- The sector with byte `p` of a cluster can be read. -/
def SectorReads (d : Disk) (first p : Nat) : Prop := (blockRead d (u32 (first + p / 512))).isSome

/-- The read loops get to byte `p` of the clusters from `cl` on. -/
def ReadsAt (fs : Fat32Fs) (d : Disk) (cl p : Nat) : Prop :=
  (∀ k ≤ p / fs.clusterSize, IsLink ((fatNextCluster fs d)^[k] cl)) ∧
    SectorReads d (firstSector fs ((fatNextCluster fs d)^[p / fs.clusterSize] cl))
      (p % fs.clusterSize)

/-- The inner loop reads the bytes up to the end of the cluster, up to the end of the
request or up to a sector that cannot be read. -/
theorem readSectors_length (d : Disk) (first : Nat) (hstart : start ≤ fs.clusterSize)
    (hfuel : remaining ≤ fuel) :
    ∃ ok bytes, readSectors fs d first fuel start remaining =
        (ok, bytes, remaining - bytes.length) ∧
      StopsAt (SectorReads d first) start (min (fs.clusterSize - start) remaining) bytes.length ∧
      (ok = false → bytes.length < min (fs.clusterSize - start) remaining) ∧
      (ok = true → bytes.length = min (fs.clusterSize - start) remaining) := by
  induction fuel generalizing start remaining with
  | zero =>
    obtain rfl : remaining = 0 := Nat.le_zero.mp hfuel
    exact ⟨true, [], rfl,
      by rw [Nat.min_zero]; exact StopsAt.zero _ _, fun h => Bool.noConfusion h,
      fun _ => (Nat.min_zero _).symm⟩
  | succ fuel ih =>
    rw [readSectors]
    by_cases hgo : start < fs.clusterSize ∧ 0 < remaining
    · rw [if_pos hgo]
      cases hread : blockRead d (u32 (first + start / 512)) with
      | none =>
        refine ⟨false, [], rfl, ⟨Nat.zero_le _, fun p hle hlt => ?_, fun _ h => ?_⟩, fun _ => ?_,
          fun h => Bool.noConfusion h⟩
        · rw [List.length_nil] at hlt
          omega
        · unfold SectorReads at h
          rw [List.length_nil, Nat.add_zero, hread] at h
          cases h
        · rw [List.length_nil]
          omega
      | some tmp =>
        generalize hchunk : min (512 - start % 512) remaining = chunk
        have hle : start + chunk ≤ fs.clusterSize := by
          have := hgo.1
          unfold Fat32Fs.clusterSize at this ⊢
          omega
        obtain ⟨ok, rest, hloop, hstops, hfail, hall⟩ :=
          ih hle (show remaining - chunk ≤ fuel by omega)
        have hlen : ((List.range chunk).map fun i => tmp (start % 512 + i)).length = chunk :=
          by simp
        simp only [hchunk, hloop]
        have hroom : min (fs.clusterSize - (start + chunk)) (remaining - chunk) =
            min (fs.clusterSize - start) remaining - chunk := by omega
        have hstopsLe := hstops.le
        rw [hroom] at hstops hfail hall hstopsLe
        refine ⟨ok, (List.range chunk).map (fun i => tmp (start % 512 + i)) ++ rest, ?_, ?_,
          fun h => ?_,
          fun h => ?_⟩
        · rw [List.length_append, hlen, Nat.sub_sub]
        · rw [List.length_append, hlen]
          refine StopsAt.append (fun p hp hlt => ?_) (by omega) hstops
          -- The chunk lies in one sector.
          unfold SectorReads
          rw [show p / 512 = start / 512 by omega, hread]
          rfl
        · have := hfail h
          rw [List.length_append, hlen]
          omega
        · have := hall h
          rw [List.length_append, hlen]
          omega
    · rw [if_neg hgo]
      have hnone : min (fs.clusterSize - start) remaining = 0 := by omega
      rw [hnone]
      exact ⟨true, [], rfl, StopsAt.zero _ _, fun h => Bool.noConfusion h, fun _ => rfl⟩

theorem readsAt_of_lt (hlink : IsLink cl) (hp : p < fs.clusterSize) :
    ReadsAt fs d cl p ↔ SectorReads d (firstSector fs cl) p := by
  unfold ReadsAt
  rw [Nat.div_eq_of_lt hp, Nat.mod_eq_of_lt hp]
  constructor
  · intro h
    exact h.2
  · intro h
    refine ⟨fun k hk => ?_, h⟩
    rw [Nat.le_zero.mp hk]
    exact hlink

theorem readsAt_add (hlink : IsLink cl) (hcs : 0 < fs.clusterSize) :
    ReadsAt fs d cl (fs.clusterSize + p) ↔ ReadsAt fs d (fatNextCluster fs d cl) p := by
  unfold ReadsAt
  rw [Nat.add_div_left _ hcs, Nat.add_mod_left, Function.iterate_succ_apply]
  refine and_congr_left fun _ => ?_
  constructor
  · intro h k hk
    rw [← Function.iterate_succ_apply]
    exact h (k + 1) (by omega)
  · intro h k hk
    cases k with
    | zero => exact hlink
    | succ k =>
      rw [Function.iterate_succ_apply]
      exact h k (by omega)

theorem readClusters_none (fuel cl start : Nat) : readClusters fs d fuel cl start 0 = [] := by
  cases fuel with
  | zero => rfl
  | succ fuel => exact if_neg fun h => absurd h.2 (lt_irrefl 0)

/-- The outer loop reads up to the first position that it does not get to. -/
theorem readClusters_stopsAt (d : Disk) (cl : Nat) (hcs : 0 < fs.clusterSize)
    (hstart : start < fs.clusterSize)
    (hfuel : remaining < fuel) :
    StopsAt (ReadsAt fs d cl) start remaining
      (readClusters fs d fuel cl start remaining).length := by
  induction fuel generalizing cl start remaining with
  | zero => exact absurd hfuel (Nat.not_lt_zero _)
  | succ fuel ih =>
    rw [readClusters]
    by_cases hgo : IsLink cl ∧ 0 < remaining
    · obtain ⟨hlink, hpos⟩ := hgo
      rw [if_pos ⟨hlink, hpos⟩]
      obtain ⟨ok, bytes, hloop, hstops, hfail, hall⟩ :=
        readSectors_length d (firstSector fs cl) hstart.le (le_refl remaining)
      have hle := hstops.le
      have hcluster : ∀ p, start ≤ p → p < start + bytes.length → ReadsAt fs d cl p :=
        fun p hp hlt =>
        (readsAt_of_lt hlink (by omega)).mpr (hstops.before p hp hlt)
      rw [hloop]
      cases ok with
      | false =>
        have hlt := hfail rfl
        dsimp only
        refine ⟨by omega, hcluster, fun _ h => ?_⟩
        exact hstops.stop hlt ((readsAt_of_lt hlink (by omega)).mp h)
      | true =>
        have hlen := hall rfl
        dsimp only
        rw [List.length_append]
        refine StopsAt.append hcluster (by omega) ?_
        by_cases hmore : remaining - bytes.length = 0
        · rw [hmore, readClusters_none]
          exact StopsAt.zero _ _
        · -- The cluster has been read to its end.
          have hend : start + bytes.length = fs.clusterSize + 0 := by omega
          have hnext :
              StopsAt (ReadsAt fs d (fatNextCluster fs d cl)) 0 (remaining - bytes.length) _ :=
            ih _ hcs (by omega)
          rw [hend]
          refine ⟨hnext.le, fun p hp hlt => ?_, fun hlt h => ?_⟩
          · obtain ⟨q, rfl⟩ := Nat.exists_eq_add_of_le hp
            rw [Nat.add_zero, readsAt_add hlink hcs]
            exact hnext.before q (Nat.zero_le q) (by omega)
          · rw [Nat.add_zero, readsAt_add hlink hcs] at h
            refine hnext.stop hlt ?_
            rwa [Nat.zero_add]
    · rw [if_neg hgo]
      refine ⟨Nat.zero_le _, fun p hp hlt => ?_, fun hlt h => ?_⟩
      · rw [List.length_nil] at hlt
        omega
      · exact hgo ⟨h.1 0 (Nat.zero_le _), hlt⟩

/-- The skip loop looks at all clusters that it comes to, but not at the first one. -/
theorem skipRead_eq (n v : Nat) :
    skipRead fs d n v = if ∀ k ≤ n, 0 < k → IsLink ((fatNextCluster fs d)^[k] v) then
      some ((fatNextCluster fs d)^[n] v) else none := by
  induction n generalizing v with
  | zero => exact (if_pos fun k hk hpos => absurd hk (not_le.mpr hpos)).symm
  | succ n ih =>
    rw [skipRead]
    by_cases hlink : IsLink (fatNextCluster fs d v)
    · rw [if_pos hlink, ih, Function.iterate_succ_apply]
      refine if_congr ?_ rfl rfl
      constructor
      · intro h k hk hpos
        obtain ⟨k, rfl⟩ := Nat.exists_eq_add_one_of_ne_zero hpos.ne'
        rw [Function.iterate_succ_apply]
        cases k with
        | zero => exact hlink
        | succ k => exact h (k + 1) (by omega) (Nat.succ_pos k)
      · intro h k hk _
        rw [← Function.iterate_succ_apply]
        exact h (k + 1) (by omega) (Nat.succ_pos k)
    · rw [if_neg hlink, if_neg fun h => hlink (h 1 (by omega) (by decide))]

/-- A read from `offset` on gets to byte `p` of the chain: the clusters up to there are
links, and the sectors from `offset` on can be read.  The first cluster counts only
if the read begins in it. -/
def ReadsThrough (fs : Fat32Fs) (d : Disk) (cluster offset p : Nat) : Prop :=
  (∀ k ≤ p / fs.clusterSize, 0 < k ∨ offset < fs.clusterSize →
    IsLink ((fatNextCluster fs d)^[k] cluster)) ∧
    ∀ q, offset ≤ q → q ≤ p → SectorReads d
      (firstSector fs ((fatNextCluster fs d)^[q / fs.clusterSize] cluster)) (q % fs.clusterSize)

/-- `fat32_read_file` stores no more bytes than the file has from `offset` on. -/
def StoresInside (fs : Fat32Fs) (d : Disk) (cluster size offset count : Nat) : Prop :=
  (fat32ReadFile fs d cluster size offset count).2.length ≤ size - offset

/-- Behind the skipped clusters the loops get to the bytes up to `size`. -/
theorem readsThrough_iff {cluster : Nat} (hcs : 0 < fs.clusterSize) (hoff : offset < size) :
    ReadsThrough fs d cluster offset size ↔
      (∀ k ≤ offset / fs.clusterSize, 0 < k → IsLink ((fatNextCluster fs d)^[k] cluster)) ∧
        ∀ p, offset % fs.clusterSize ≤ p → p < offset % fs.clusterSize + (size - offset + 1) →
          ReadsAt fs d ((fatNextCluster fs d)^[offset / fs.clusterSize] cluster) p := by
  have hsplit := Nat.div_add_mod offset fs.clusterSize
  generalize hn : offset / fs.clusterSize = n at hsplit ⊢
  generalize hr : offset % fs.clusterSize = r at hsplit ⊢
  have hrlt : r < fs.clusterSize := hr ▸ Nat.mod_lt _ hcs
  have hplace : ∀ p, (fs.clusterSize * n + p) / fs.clusterSize = n + p / fs.clusterSize ∧
      (fs.clusterSize * n + p) % fs.clusterSize = p % fs.clusterSize := fun p =>
    ⟨Nat.mul_add_div hcs n p, Nat.mul_add_mod _ _ _⟩
  have hiter : ∀ k, (fatNextCluster fs d)^[k] ((fatNextCluster fs d)^[n] cluster) =
      (fatNextCluster fs d)^[n + k] cluster := fun k => by
    rw [Nat.add_comm, Function.iterate_add_apply]
  unfold ReadsThrough ReadsAt
  constructor
  · intro h
    obtain ⟨hlinks, hsectors⟩ := h
    have hle : n ≤ size / fs.clusterSize := hn ▸ Nat.div_le_div_right hoff.le
    refine ⟨fun k hk hpos => hlinks k (hk.trans hle) (Or.inl hpos),
      fun p hp hlt => ⟨fun k hk => ?_, ?_⟩⟩
    · rw [hiter]
      refine hlinks (n + k) ?_ ?_
      · calc n + k
          _ ≤ n + p / fs.clusterSize := by omega
          _ = (fs.clusterSize * n + p) / fs.clusterSize := (hplace p).1.symm
          _ ≤ size / fs.clusterSize := Nat.div_le_div_right (by omega)
      · by_cases hfirst : n = 0
        · right
          rw [hfirst] at hsplit
          omega
        · exact Or.inl (by omega)
    · have hread := hsectors (fs.clusterSize * n + p) (by omega) (by omega)
      rwa [(hplace p).1, (hplace p).2, ← hiter] at hread
  · intro h
    obtain ⟨hskip, hreads⟩ := h
    have hback : ∀ q, offset ≤ q → q ≤ size → ∃ p, q = fs.clusterSize * n + p ∧ r ≤ p ∧
        p < r + (size - offset + 1) := fun q hq hle =>
      ⟨q - fs.clusterSize * n, by omega, by omega, by omega⟩
    refine ⟨fun k hk hor => ?_, fun q hq hle => ?_⟩
    · by_cases hlt : k ≤ n ∧ 0 < k
      · exact hskip k hlt.1 hlt.2
      · obtain ⟨p, hp, hpr, hplt⟩ := hback size hoff.le (le_refl size)
        obtain ⟨hlinks, -⟩ := hreads p hpr hplt
        have hge : n ≤ k := by
          cases hor with
          | inl hpos => omega
          | inr hfirst =>
            rw [← hn, Nat.div_eq_of_lt hfirst]
            exact Nat.zero_le k
        obtain ⟨j, rfl⟩ := Nat.exists_eq_add_of_le hge
        rw [← hiter]
        refine hlinks j ?_
        rw [hp, (hplace p).1] at hk
        omega
    · obtain ⟨p, rfl, hpr, hplt⟩ := hback q hq hle
      rw [(hplace p).1, (hplace p).2, ← hiter]
      exact (hreads p hpr hplt).2

/-- A read stores too much exactly if the wrapped end of the request lies inside the
file, so that the count is not clamped, and the chain can be read behind the file. -/
theorem storesInside_iff (fs : Fat32Fs) (d : Disk) (cluster offset count : Nat)
    (hspc : 0 < fs.sectorsPerCluster) (hsize : size < 2 ^ 32) :
    StoresInside fs d cluster size offset count ↔
      size ≤ offset ∨ offset + count < 2 ^ 64 ∨ size < u64 (offset + count) ∨
        ¬ ReadsThrough fs d cluster offset size := by
  have hcs : 0 < fs.clusterSize := Nat.mul_pos (by decide) hspc
  unfold StoresInside
  rw [fat32ReadFile]
  by_cases hcount : count = 0
  · rw [if_pos hcount]
    refine iff_of_true (Nat.zero_le _) ?_
    omega
  by_cases hoff : size ≤ offset
  · rw [if_neg hcount, if_pos hoff]
    exact iff_of_true (Nat.zero_le _) (Or.inl hoff)
  rw [if_neg hcount, if_neg hoff]
  have hidx : u32 (offset / fs.clusterSize) = offset / fs.clusterSize :=
    u32_of_lt (lt_of_le_of_lt (Nat.div_le_self _ _) (by omega))
  have hlarge : offset + count < 2 ^ 64 ∨ size < u64 (offset + count) ↔
      ¬ size - offset < if size < u64 (offset + count) then size - offset else count := by
    by_cases hclamp : size < u64 (offset + count)
    · rw [if_pos hclamp]
      exact iff_of_true (Or.inr hclamp) (lt_irrefl _)
    · rw [if_neg hclamp]
      unfold u64 at hclamp ⊢
      omega
  rw [hidx, skipRead_eq, or_iff_right hoff, ← or_assoc, hlarge,
    readsThrough_iff hcs (not_le.mp hoff),
    ← not_and_or, ← not_lt, not_iff_not]
  dsimp only
  generalize (if size < u64 (offset + count) then size - offset else count) = wanted
  by_cases hskip : ∀ k ≤ offset / fs.clusterSize, 0 < k →
    IsLink ((fatNextCluster fs d)^[k] cluster)
  · rw [if_pos hskip]
    dsimp only
    have hstops :=
      readClusters_stopsAt d ((fatNextCluster fs d)^[offset / fs.clusterSize] cluster) hcs
      (Nat.mod_lt offset hcs) (Nat.lt_succ_self wanted)
    rw [← Nat.succ_le_iff, hstops.le_iff, ← Nat.succ_le_iff]
    exact and_congr_right fun _ => (and_iff_right hskip).symm
  · rw [if_neg hskip]
    refine iff_of_false (Nat.not_lt_zero _) fun h => hskip h.2.1

/-! ## Which size a write leaves -/

/-- A write that succeeds leaves a file that ends where it ended before, or where the
write ends. -/
def SizeExact (fs : Fat32Fs) (d : Disk) (cluster size offset : Nat) (data : List UInt8) : Prop :=
  ∀ r d' cluster' size', fat32WriteFile fs d cluster size offset data =
      some (r, d', cluster', size') →
    0 ≤ r → size' = max size (offset + data.length)

theorem writeAt_size (fs : Fat32Fs) (d : Disk) (v size offset : Nat) (data : List UInt8) :
    (writeAt fs d v size offset data).2.2.2 = size := by
  unfold writeAt
  split <;> rfl

/-- The size after a write that succeeds, whatever the device and the table hold. -/
theorem fat32WriteFile_size {cluster cluster' size' : Nat} {r : Int} (hdata : data.length ≠ 0)
    (hrun : fat32WriteFile fs d cluster size offset data = some (r, d', cluster', size'))
    (hok : 0 ≤ r) :
    size' = if size < writeStop offset data then u32 (writeStop offset data) else size := by
  rw [fat32WriteFile, if_neg hdata] at hrun
  dsimp only at hrun
  unfold writeStop
  by_cases hgrow : size < u64 (offset + data.length)
  · rw [if_pos hgrow] at hrun ⊢
    cases hcount : chainCount fs d cluster with
    | none =>
      rw [hcount] at hrun
      cases hrun
    | some curCount =>
      rw [hcount] at hrun
      dsimp only at hrun
      generalize u64 (u64 (offset + data.length) + fs.clusterSize - 1) / fs.clusterSize -
        curCount = n at hrun
      cases hloop : extendLoop fs n d cluster with
      | none =>
        rw [hloop] at hrun
        cases hrun
      | some result =>
        obtain ⟨ok, d₁, cluster₁⟩ := result
        rw [hloop] at hrun
        cases ok with
        | false =>
          obtain ⟨rfl, -⟩ := Prod.mk.inj (Option.some.inj hrun)
          exact absurd hok (by decide)
        | true =>
          have hsize := writeAt_size fs d₁ cluster₁ (u32 (u64 (offset + data.length))) offset data
          rwa [Option.some.inj hrun] at hsize
  · rw [if_neg hgrow] at hrun ⊢
    have hsize := writeAt_size fs d cluster size offset data
    rwa [Option.some.inj hrun] at hsize

/-- Below 4 GiB the size is exact in every state: a write of nothing must not begin
behind the file. -/
theorem sizeExact_of_lt (fs : Fat32Fs) (d : Disk) (cluster : Nat)
    (hend : offset + data.length < 2 ^ 32)
    (hnone : data.length = 0 → offset ≤ size) : SizeExact fs d cluster size offset data := by
  intro r d' cluster' size' hrun hok
  by_cases hdata : data.length = 0
  · rw [fat32WriteFile, if_pos hdata] at hrun
    have hsize : size = size' := congrArg (fun x => x.2.2.2) (Option.some.inj hrun)
    have := hnone hdata
    omega
  · rw [fat32WriteFile_size hdata hrun hok, writeStop, u64_of_lt (by omega), u32_of_lt hend]
    split <;> omega

/-- A write to a file with the clusters `l` succeeds: it finds the clusters that it needs
and the cluster where it begins, and the number of bytes that it stores is not
negative as an `int`. -/
def WriteSucceeds (fs : Fat32Fs) (d : Disk) (l : List Nat) (size offset : Nat)
    (data : List UInt8) : Prop :=
  writeClusterCount fs l.length size offset data ≤ l.length + (freeClusters fs d).card ∧
    u32 (offset / fs.clusterSize) ≤ writeClusterCount fs l.length size offset data ∧
    0 ≤ s32 (min data.length
      (writeClusterCount fs l.length size offset data * fs.clusterSize - writeStart fs offset))

theorem nonneg_ite_iff {p : Prop} [Decidable p] {x : Int} :
    0 ≤ (if p then x else -1) ↔ p ∧ 0 ≤ x := by
  split
  next hp => exact (and_iff_right hp).symm
  next hp => exact iff_of_false (by decide) fun h => hp h.1

/-- When a write on a well-formed volume succeeds. -/
theorem fat32WriteFile_succeeds {cluster : Nat} (size offset : Nat) (hs : Sane fs d)
    (hl : Chain fs d cluster l)
    (hstart : l = [] → cluster = 0 ∨ FAT32_EOC ≤ cluster) (hdata : data.length ≠ 0) :
    ∃ r, fat32WriteFile fs d cluster size offset data = some r ∧
      (0 ≤ r.1 ↔ WriteSucceeds fs d l size offset data) := by
  obtain ⟨d', cluster', new, hrun, -⟩ := fat32WriteFile_after
    { size := size, clusters := l.length, free := (freeClusters fs d).card } offset hs hl hstart
      hdata rfl rfl
  refine ⟨_, hrun, ?_⟩
  dsimp only
  unfold Extent.result
  rw [nonneg_ite_iff, and_assoc]
  refine and_congr_right fun hgranted => ?_
  rw [Extent.stored_of_granted hgranted, Extent.clustersAfter_of_granted hgranted]

/-- Of a well-formed volume: the size is exact unless a write that ends at 4 GiB or
behind succeeds, or a write of nothing begins behind the file. -/
theorem sizeExact_iff {cluster : Nat} (hs : Sane fs d) (hl : Chain fs d cluster l)
    (hstart : l = [] → cluster = 0 ∨ FAT32_EOC ≤ cluster) (hsize : size < 2 ^ 32) :
    SizeExact fs d cluster size offset data ↔
      if data.length = 0 then offset ≤ size
      else offset + data.length < 2 ^ 32 ∨ ¬ WriteSucceeds fs d l size offset data := by
  by_cases hdata : data.length = 0
  · rw [if_pos hdata]
    constructor
    · intro h
      have hsame := h 0 d cluster size (by rw [fat32WriteFile, if_pos hdata]) (le_refl 0)
      omega
    · intro h r d' cluster' size' hrun _
      rw [fat32WriteFile, if_pos hdata] at hrun
      have hsame : size = size' := congrArg (fun x => x.2.2.2) (Option.some.inj hrun)
      omega
  · rw [if_neg hdata]
    obtain ⟨⟨r, d', cluster', size'⟩, hrun, hok⟩ :=
      fat32WriteFile_succeeds size offset hs hl hstart hdata
    by_cases hend : offset + data.length < 2 ^ 32
    · exact iff_of_true (sizeExact_of_lt fs d cluster hend fun h => absurd h hdata) (Or.inl hend)
    rw [or_iff_right hend, ← hok]
    constructor
    · intro h hpos
      -- The size field has 32 bits, and the end has more.
      have hexact := h r d' cluster' size' hrun hpos
      have hlt : size' < 2 ^ 32 := by
        rw [fat32WriteFile_size hdata hrun hpos]
        split
        · exact u32_lt _
        · exact hsize
      omega
    · intro hneg r₁ d₁ cluster₁ size₁ hrun₁ hpos
      rw [hrun, Option.some.injEq] at hrun₁
      obtain ⟨rfl, -⟩ := Prod.mk.inj hrun₁
      exact absurd hpos hneg

/-- **64-bit offsets and the size checks.**  In every state a read stores no more than
the file has left unless the end of the request wraps to a place inside the file and
the chain can be read behind the file.  The size after a successful write is exact in
every state if the write ends below 4 GiB and does not write nothing behind the file;
on a well-formed volume it is not exact otherwise, unless the write fails. -/
theorem wideOffsets_iff (fs : Fat32Fs) (size offset : Nat) (hspc : 0 < fs.sectorsPerCluster)
    (hsize : size < 2 ^ 32) :
    (∀ d cluster count, StoresInside fs d cluster size offset count ↔
      size ≤ offset ∨ offset + count < 2 ^ 64 ∨ size < u64 (offset + count) ∨
        ¬ ReadsThrough fs d cluster offset size) ∧
    (∀ d cluster data, offset + data.length < 2 ^ 32 → (data.length = 0 → offset ≤ size) →
      SizeExact fs d cluster size offset data) ∧
    ∀ d cluster l data, Sane fs d → Chain fs d cluster l →
      (l = [] → cluster = 0 ∨ FAT32_EOC ≤ cluster) →
      (SizeExact fs d cluster size offset data ↔
        if data.length = 0 then offset ≤ size
        else offset + data.length < 2 ^ 32 ∨ ¬ WriteSucceeds fs d l size offset data) := by
  refine ⟨fun d cluster count => storesInside_iff fs d cluster offset count hspc hsize,
    fun d cluster data hend hnone => sizeExact_of_lt fs d cluster hend hnone, ?_⟩
  intro d cluster l data hs hl hstart
  exact sizeExact_iff hs hl hstart hsize

theorem wideOffsets_iff_small :
    StoresInside smallFs (smallDisk fun _ => 0) 2 2 1 5 ∧
      SizeExact smallFs (smallDisk fun _ => 0) 2 2 1 [65] ∧
      (SizeExact smallFs (smallDisk fun _ => 0) 2 2 1 [65] ↔
        if [65].length = 0 then 1 ≤ 2
        else 1 + [65].length < 2 ^ 32 ∨
          ¬ WriteSucceeds smallFs (smallDisk fun _ => 0) [2] 2 1 ([65] : List UInt8)) := by
  obtain ⟨hread, hwrite, hexact⟩ := wideOffsets_iff smallFs 2 1 (by decide) (by decide)
  refine ⟨(hread (smallDisk fun _ => 0) 2 5).mpr (Or.inr (Or.inl (by decide))),
    hwrite _ _ [65] (by decide) (by decide), ?_⟩
  exact hexact _ _ _ _ (sane_smallDisk _) (chain_smallDisk _) (by simp)

/-- A file of two bytes in one cluster of 512.  A read of 2^64 - 1 bytes from byte 1 on
ends at 0 and returns the rest of the cluster.  A write of 2^41 bytes at
2^64 - 2^41 ends at 0 too, begins at cluster 0 and succeeds without a new size. -/
theorem wideCount_escapes :
    (fat32ReadFile smallFs (smallDisk fun _ => 0) 2 2 1 (2 ^ 64 - 1)).2.length = 511 ∧
      ¬ StoresInside smallFs (smallDisk fun _ => 0) 2 2 1 (2 ^ 64 - 1) ∧
      ¬ SizeExact smallFs (smallDisk fun _ => 0) 2 2 (2 ^ 64 - 2 ^ 41)
        (List.replicate (2 ^ 41) 65) := by
  have hlen :
      (fat32ReadFile smallFs (smallDisk fun _ => 0) 2 2 1 (2 ^ 64 - 1)).2.length = 511 := by
    rw [fat32ReadFile_stretch ((chain_smallDisk _).readableFile (sane_smallDisk _)) (by decide)
      (by decide) (by decide) (by decide)]
    dsimp only
    rw [stretch_length]
    decide
  refine ⟨hlen, fun h => ?_, fun h => ?_⟩
  · unfold StoresInside at h
    omega
  · have hdata : (List.replicate (2 ^ 41) (65 : UInt8)).length = 2 ^ 41 := List.length_replicate
    rw [sizeExact_iff (sane_smallDisk _) (chain_smallDisk _) (by simp) (by decide), hdata,
      if_neg (by decide), or_iff_right (by decide)] at h
    refine h ⟨?_, ?_, ?_⟩
    all_goals
      unfold writeClusterCount writeStop
      rw [hdata, if_neg (by decide)]
    · exact Nat.le_add_right _ _
    · decide
    · decide

end Lumin.Fs.Fat32
