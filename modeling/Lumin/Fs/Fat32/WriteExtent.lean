import Lumin.Fs.Fat32.FailedWrite

/-!
# What a write leaves

What `fat32_write_file` returns and which size and how many clusters the file has
afterwards depend only on the size, the number of clusters and the number of free
clusters before it.  `fat32WriteFile_after` says what it does for every offset and every
data, refused writes included.
-/

namespace Lumin.Fs.Fat32

open Lumin.Lib Lumin.Block

/-! ## Extents -/

/-- The clusters that a file of `n` clusters has during a write. -/
def writeClusterCount (fs : Fat32Fs) (n size offset : Nat) (data : List UInt8) : Nat :=
  if size < writeStop offset data then max n (writeNeeds fs offset data) else n

/-- What the results of the calls depend on besides the bytes: the size of the file, how
many clusters it has and how many are free. -/
@[ext] structure Extent where
  size : Nat
  clusters : Nat
  free : Nat

section

variable (e : Extent) (fs : Fat32Fs) (offset : Nat) (data : List UInt8)

/-- The clusters that the write asks for are there. -/
def Extent.Granted : Prop :=
  writeClusterCount fs e.clusters e.size offset data ≤ e.clusters + e.free

instance : Decidable (e.Granted fs offset data) := inferInstanceAs (Decidable (_ ≤ _))

def Extent.clustersAfter : Nat :=
  min (writeClusterCount fs e.clusters e.size offset data) (e.clusters + e.free)

/-- The extent after a write that is not empty. -/
def Extent.after : Extent :=
  { size := if e.Granted fs offset data ∧ e.size < writeStop offset data then u32 (writeStop
    offset data)
      else e.size
    clusters := e.clustersAfter fs offset data
    free := e.clusters + e.free - e.clustersAfter fs offset data }

/-- The number of bytes that the write stores, from `writeStart` on. -/
def Extent.stored : Nat :=
  if e.Granted fs offset data then
    min data.length (e.clustersAfter fs offset data * fs.clusterSize - writeStart fs offset)
  else 0

def Extent.result : Int :=
  if e.Granted fs offset data ∧
    u32 (offset / fs.clusterSize) ≤ e.clustersAfter fs offset data then
    s32 (e.stored fs offset data)
  else -1

end

variable {fs : Fat32Fs} {d d' d₁ : Disk} {l new : List Nat} {data : List UInt8} {e : Extent}
  {offset p v w : Nat}

theorem Extent.result_of_granted (h : e.Granted fs offset data) : e.result fs offset data =
    if u32 (offset / fs.clusterSize) ≤ e.clustersAfter fs offset data then
      s32 (min data.length
        (e.clustersAfter fs offset data * fs.clusterSize - writeStart fs offset))
    else -1 := by
  unfold Extent.result Extent.stored
  rw [if_pos h]
  exact if_congr (and_iff_right h) rfl rfl

theorem Extent.stored_of_granted (h : e.Granted fs offset data) : e.stored fs offset data =
    min data.length (e.clustersAfter fs offset data * fs.clusterSize - writeStart fs offset) :=
      if_pos h

theorem Extent.size_of_grows (h : e.Granted fs offset data)
    (hgrow : e.size < writeStop offset data) :
    (e.after fs offset data).size = u32 (writeStop offset data) := if_pos ⟨h, hgrow⟩

theorem Extent.size_of_keeps (hgrow : ¬ e.size < writeStop offset data) :
    (e.after fs offset data).size = e.size := if_neg fun h => hgrow h.2

theorem Extent.result_of_refused (h : ¬ e.Granted fs offset data) :
    e.result fs offset data = -1 :=
  if_neg fun hc => h hc.1

theorem Extent.size_of_refused (h : ¬ e.Granted fs offset data) :
    (e.after fs offset data).size = e.size :=
  if_neg fun hc => h hc.1

theorem Extent.clustersAfter_of_granted (h : e.Granted fs offset data) :
    e.clustersAfter fs offset data =
    writeClusterCount fs e.clusters e.size offset data := min_eq_left h

/-- A write that does not grow the file has the clusters that it needs. -/
theorem Extent.keeps (fs : Fat32Fs) (hgrow : ¬ e.size < writeStop offset data) :
    e.Granted fs offset data ∧ e.clustersAfter fs offset data = e.clusters := by
  unfold Extent.Granted Extent.clustersAfter writeClusterCount
  rw [if_neg hgrow]
  omega

/-- A write that grows the file takes what it lacks, as long as there is some. -/
theorem Extent.grows (fs : Fat32Fs) (hgrow : e.size < writeStop offset data) :
    (e.Granted fs offset data ↔ writeNeeds fs offset data - e.clusters ≤ e.free) ∧
      e.clustersAfter fs offset data =
        e.clusters + min (writeNeeds fs offset data - e.clusters) e.free := by
  unfold Extent.Granted Extent.clustersAfter writeClusterCount
  rw [if_pos hgrow]
  omega

theorem Extent.stored_le (e : Extent) (fs : Fat32Fs) (offset : Nat) (data : List UInt8) :
    e.stored fs offset data ≤ data.length := by
  unfold Extent.stored
  split
  · exact Nat.min_le_left _ _
  · exact Nat.zero_le _

theorem Extent.size_lt (e : Extent) (he : e.size < 2 ^ 32) (fs : Fat32Fs) (offset : Nat)
    (data : List UInt8) :
    (e.after fs offset data).size < 2 ^ 32 := by
  unfold Extent.after
  dsimp only
  split
  · exact u32_lt _
  · exact he

/-! ## The write -/

/-- The device and the chain after `fat32_write_file`: the chain has grown by `new`, and
the data is stored in it. -/
structure FileAfter (fs : Fat32Fs) (d d' : Disk) (l new : List Nat) (cluster offset : Nat)
    (data : List UInt8) : Prop where
  grown : ∃ d₁ v, Grown fs d d₁ v l new ∧ Stored fs d₁ d' (l ++ new) (writeStart fs offset) data
  chain : Chain fs d' cluster (l ++ new)
  start : l ++ new = [] → cluster = 0 ∨ FAT32_EOC ≤ cluster

theorem Stored.chain (hs : Sane fs d) (h : Chain fs d v l) (hst : Stored fs d d₁ l p data) :
    Chain fs d₁ v l :=
  h.congr fun c hc => hst.fatNextCluster_eq hs h.inVolume (h.inVolume c hc).2

/-- The table is the one after the growth. -/
theorem FileAfter.table {cluster : Nat} (hs : Sane fs d)
    (ha : FileAfter fs d d' l new cluster offset data) :
    ∃ d₁ v, Grown fs d d₁ v l new ∧
      ∀ c < fs.totalClusters + 2, fatNextCluster fs d' c = fatNextCluster fs d₁ c := by
  obtain ⟨d₁, v, hgrown, hstored⟩ := ha.grown
  have hs₁ := hs.of_sameDevice hgrown.sameData.1
  exact ⟨d₁, v, hgrown, fun c hc => hstored.fatNextCluster_eq hs₁ hgrown.chain.inVolume hc⟩

theorem FileAfter.sameDevice {cluster : Nat} (ha : FileAfter fs d d' l new cluster offset data) :
    d.SameDevice d' := by
  obtain ⟨d₁, v, hgrown, hstored⟩ := ha.grown
  exact hgrown.sameData.1.trans hstored.sameDevice

theorem FileAfter.taken {cluster : Nat} (ha : FileAfter fs d d' l new cluster offset data) :
    ∀ c ∈ new, Free fs d c := by
  obtain ⟨d₁, v, hgrown, -⟩ := ha.grown
  exact hgrown.free

theorem FileAfter.free_iff {cluster : Nat} (hs : Sane fs d) (hl : Chain fs d w l)
    (ha : FileAfter fs d d' l new cluster offset data) {c : Nat} :
    Free fs d' c ↔ Free fs d c ∧ c ∉ new := by
  obtain ⟨d₁, v, hgrown, htable⟩ := ha.table hs
  rw [← hgrown.free_iff hl]
  refine and_congr_right fun hin => ?_
  rw [htable c hin.2]

theorem FileAfter.card_freeClusters {cluster : Nat} (hs : Sane fs d) (hl : Chain fs d w l)
    (ha : FileAfter fs d d' l new cluster offset data) :
    (freeClusters fs d').card + new.length = (freeClusters fs d).card := by
  obtain ⟨d₁, v, hgrown, htable⟩ := ha.table hs
  rw [freeClusters_congr htable, hgrown.card_freeClusters hl]

/-- The bytes of the chain: what has been stored, and otherwise what the clusters held
before. -/
theorem FileAfter.bytes {cluster : Nat} (hs : Sane fs d) {n : Nat}
    (ha : FileAfter fs d d' l new cluster offset (data.take n)) (hn : n ≤ data.length) {q : Nat}
    (hq : q < (l ++ new).length * fs.clusterSize) :
    chainByte fs d' (l ++ new) q =
      if writeStart fs offset ≤ q ∧
        q < writeStart fs offset + n then data.getD (q - writeStart fs offset) 0
      else chainByte fs d (l ++ new) q := by
  obtain ⟨d₁, v, hgrown, hstored⟩ := ha.grown
  rw [hstored.bytes q hq, List.length_take, Nat.min_eq_left hn]
  by_cases hin : writeStart fs offset ≤ q ∧ q < writeStart fs offset + n
  · rw [if_pos hin, if_pos hin, List.getD_eq_getElem?_getD, List.getElem?_take_of_lt (by omega),
      ← List.getD_eq_getElem?_getD]
  · rw [if_neg hin, if_neg hin, hgrown.chainByte_same hs hq]

/-- The part after the growth, when the clusters have been granted. -/
theorem writeAt_after (size : Nat) (hs : Sane fs d) (hgrown : Grown fs d d₁ v l new)
    (hstart : l ++ new = [] → v = 0 ∨ FAT32_EOC ≤ v) (hg : e.Granted fs offset data)
    (hlength : (l ++ new).length = e.clustersAfter fs offset data) :
    ∃ d', writeAt fs d₁ v size offset data = (e.result fs offset data, d', v, size) ∧
      FileAfter fs d d' l new v offset (data.take (e.stored fs offset data)) := by
  have hs₁ := hs.of_sameDevice hgrown.sameData.1
  obtain ⟨d', hwrite, hstored⟩ := writeAt_stores size offset data hs₁ hgrown.chain
  rw [hlength] at hwrite hstored
  refine ⟨d', ?_, ⟨d₁, v, hgrown, ?_⟩, hstored.chain hs₁ hgrown.chain, hstart⟩
  · rw [hwrite, Extent.result_of_granted hg]
  · rwa [Extent.stored_of_granted hg, Nat.min_comm, ← List.take_take, List.take_length]

/-- **What `fat32_write_file` does** on a well-formed volume. -/
theorem fat32WriteFile_after {cluster : Nat} (e : Extent) (offset : Nat) (hs : Sane fs d)
    (hl : Chain fs d cluster l) (hstart : l = [] → cluster = 0 ∨ FAT32_EOC ≤ cluster)
    (hdata : data.length ≠ 0)
    (hclusters : e.clusters = l.length) (hfree : e.free = (freeClusters fs d).card) :
    ∃ d' cluster' new, fat32WriteFile fs d cluster e.size offset data =
        some (e.result fs offset data, d', cluster', (e.after fs offset data).size) ∧
      FileAfter fs d d' l new cluster' offset (data.take (e.stored fs offset data)) ∧
      (l ++ new).length = e.clustersAfter fs offset data := by
  rw [fat32WriteFile, if_neg hdata]
  dsimp only
  rw [show u64 (offset + data.length) = writeStop offset data from rfl]
  by_cases hgrow : e.size < writeStop offset data
  · obtain ⟨d₁, v, new, hgrown, hnone, hlen, hloop⟩ :=
      extendLoop_cases (writeNeeds fs offset data - l.length) hs hl hstart
    obtain ⟨hgranted, hafter⟩ := Extent.grows fs hgrow
    rw [hclusters, hfree] at hgranted hafter
    have hlength : (l ++ new).length = e.clustersAfter fs offset data := by
      rw [List.length_append, hlen, hafter]
    rw [if_pos hgrow, chainCount_spec hs hl]
    dsimp only
    rw [show u64 (writeStop offset data + fs.clusterSize - 1) / fs.clusterSize =
      writeNeeds fs offset data from rfl, hloop]
    by_cases henough : writeNeeds fs offset data - l.length ≤ (freeClusters fs d).card
    · have hg := hgranted.mpr henough
      have hstart' : l ++ new = [] → v = 0 ∨ FAT32_EOC ≤ v := fun hnil => by
        obtain ⟨hl', hnew⟩ := List.append_eq_nil_iff.mp hnil
        rw [(hnone hnew).2]
        exact hstart hl'
      obtain ⟨d₂, hwrite, hafter'⟩ :=
        writeAt_after (u32 (writeStop offset data)) hs hgrown hstart' hg hlength
      rw [if_pos henough]
      refine ⟨d₂, v, new, ?_, hafter', hlength⟩
      dsimp only
      rw [hwrite, Extent.size_of_grows hg hgrow]
    · have hg : ¬ e.Granted fs offset data := fun h => henough (hgranted.mp h)
      rw [if_neg henough]
      refine ⟨d₁, if l ++ new = [] then FAT32_EOC else v, new, ?_, ⟨⟨d₁, v, hgrown, ?_⟩, ?_, ?_⟩,
        hlength⟩
      · dsimp only
        rw [Extent.result_of_refused hg, Extent.size_of_refused hg]
      · rw [Extent.stored, if_neg hg, List.take_zero]
        exact Stored.nil _ _ _ _
      · by_cases hnil : l ++ new = []
        · rw [if_pos hnil, hnil]
          exact ⟨⟨eoc_not_isLink (le_refl _), by simp⟩, by simp⟩
        · rw [if_neg hnil]
          exact hgrown.chain
      · intro hnil
        rw [if_pos hnil]
        exact Or.inr (le_refl _)
  · obtain ⟨hg, hafter⟩ := Extent.keeps fs hgrow
    have hlength : (l ++ []).length = e.clustersAfter fs offset data := by
      rw [List.append_nil, hafter, hclusters]
    obtain ⟨d₂, hwrite, hafter'⟩ :=
      writeAt_after e.size hs (Grown.refl hl) (by rwa [List.append_nil]) hg hlength
    rw [if_neg hgrow, hwrite]
    exact ⟨d₂, cluster, [], by rw [Extent.size_of_keeps hgrow], hafter', hlength⟩

end Lumin.Fs.Fat32
