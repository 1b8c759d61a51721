import Lumin.Fs.Devfs

/-!
# What a failed write of a block device reports

`devfs_blk_write` on a device where some sectors cannot be read or written.  In the head
and in the tail the counter `done` is advanced while the bytes are put into `tmp`, before
`block_write`, so a failure there is reported as if the bytes were on the device.  In the
body the counter follows the write.

`writeHead_cases`, `writeBody_cases` and `writeTail_cases` say how each part can end, and
`devfsBlkWrite_reports_iff` puts them together.
-/

namespace Lumin.Fs.Devfs

open Lumin.Lib Lumin.Block

/-- The sector can be read. -/
def Readable (d : Disk) (sector : Nat) : Prop :=
  sector < d.sectorCount ∧ d.readFails sector = false

/-- The sector can be written. -/
def Writable (d : Disk) (sector : Nat) : Prop :=
  sector < d.sectorCount ∧ d.writeFails sector = false

/-- The device has the data from index `lo` up to `hi` at its place behind `offset`. -/
def HoldsData (d : Disk) (offset : Nat) (src : Mem) (lo hi : Nat) : Prop :=
  ∀ i, lo ≤ i → i < hi → byte d (offset + i) = src i

/-- What the result promises: as many bytes as it counts are on the device. -/
def Reported (d : Disk) (offset size : Nat) (src : Mem) : Prop :=
  ∀ i : Nat, (i : Int) < (devfsBlkWrite d offset size src).1 →
    byte (devfsBlkWrite d offset size src).2 (offset + i) = src i

/-- The transfer begins inside a sector that can be read but not written. -/
structure HeadUnwritten (d : Disk) (offset : Nat) : Prop where
  unaligned : offset % SECTOR_SIZE ≠ 0
  readable : Readable d (offset / SECTOR_SIZE)
  failing : ¬ Writable d (offset / SECTOR_SIZE)

/-- The transfer ends inside another sector that can be read but not written, and nothing fails
before. -/
structure TailUnwritten (d : Disk) (offset total : Nat) : Prop where
  unaligned : (offset + total) % SECTOR_SIZE ≠ 0
  behind : offset ≤ SECTOR_SIZE * ((offset + total) / SECTOR_SIZE)
  head : offset % SECTOR_SIZE ≠ 0 →
    Readable d (offset / SECTOR_SIZE) ∧ Writable d (offset / SECTOR_SIZE)
  whole : ∀ s, offset ≤ SECTOR_SIZE * s → s < (offset + total) / SECTOR_SIZE → Writable d s
  readable : Readable d ((offset + total) / SECTOR_SIZE)
  failing : ¬ Writable d ((offset + total) / SECTOR_SIZE)

variable {d d' : Disk} {offset size total s lo hi n : Nat} {src tmp : Mem} {w : WriteState}

/-! ## One transfer -/

theorem blockRead_of_readable (h : Readable d s) : blockRead d s = some (d.data s) := by
  refine if_neg ?_
  rw [h.2]
  simpa using h.1

theorem blockRead_of_not (h : ¬ Readable d s) : blockRead d s = none := by
  refine if_pos ?_
  by_contra hboth
  rw [not_or, Bool.not_eq_true] at hboth
  exact h ⟨by omega, hboth.2⟩

theorem blockWrite_of_writable (h : Writable d s) (tmp : Mem) :
    blockWrite d s tmp = some (d.setSector s tmp) := by
  refine if_neg ?_
  rw [h.2]
  simpa using h.1

theorem blockWrite_of_not (h : ¬ Writable d s) (tmp : Mem) : blockWrite d s tmp = none := by
  refine if_pos ?_
  by_contra hboth
  rw [not_or, Bool.not_eq_true] at hboth
  exact h ⟨by omega, hboth.2⟩

theorem readable_congr (h : d.SameDevice d') : Readable d' s ↔ Readable d s := by
  rw [Readable, Readable, h.1, h.2.1]

theorem writable_congr (h : d.SameDevice d') : Writable d' s ↔ Writable d s := by
  rw [Writable, Writable, h.1, h.2.2]

theorem clip_le (d : Disk) (offset size : Nat) : clip d offset size ≤ size := by
  unfold clip
  dsimp only
  split_ifs <;> omega

/-! ## How each part ends -/

/-- The first sector is written, cannot be read, or cannot be written. -/
theorem writeHead_cases (d : Disk) (offset total : Nat) (src : Mem) :
    (∃ w, writeHead (offset % SECTOR_SIZE) src ⟨offset / SECTOR_SIZE, total, 0, d⟩ = .ok w ∧
      WriteInv d offset total src w ∧ (∀ s, offset ≤ SECTOR_SIZE * s → w.sector ≤ s) ∧
      (SECTOR_SIZE * w.sector = offset + w.done ∨
        offset % SECTOR_SIZE ≠ 0 ∧ total ≤ SECTOR_SIZE - offset % SECTOR_SIZE) ∧
      (offset % SECTOR_SIZE ≠ 0 → Readable d (offset / SECTOR_SIZE) ∧
        Writable d (offset / SECTOR_SIZE))) ∨
    (offset % SECTOR_SIZE ≠ 0 ∧ ¬ Readable d (offset / SECTOR_SIZE) ∧
      writeHead (offset % SECTOR_SIZE) src ⟨offset / SECTOR_SIZE, total, 0, d⟩ = .error (-1, d)) ∨
    HeadUnwritten d offset ∧
      writeHead (offset % SECTOR_SIZE) src ⟨offset / SECTOR_SIZE, total, 0, d⟩ =
        .error (s32 (headChunk (offset % SECTOR_SIZE) total), d) := by
  unfold writeHead
  by_cases hoff : offset % SECTOR_SIZE = 0
  · rw [if_neg (not_not.mpr hoff)]
    refine Or.inl
      ⟨_, rfl, ⟨placed_of_aligned total hoff, stored_zero d offset src⟩, fun s hs => ?_,
      Or.inl ?_, fun h => absurd hoff h⟩
    · show offset / SECTOR_SIZE ≤ s
      unfold SECTOR_SIZE at *
      omega
    · exact Nat.mul_div_cancel' (Nat.dvd_of_mod_eq_zero hoff)
  rw [if_pos hoff]
  dsimp only
  by_cases hread : Readable d (offset / SECTOR_SIZE)
  · rw [blockRead_of_readable hread]
    dsimp only
    by_cases hwrite : Writable d (offset / SECTOR_SIZE)
    · rw [blockWrite_of_writable hwrite]
      simp only [Nat.zero_add]
      refine Or.inl
        ⟨_, rfl, writeInv_head d offset total src, fun s hs => ?_, ?_, fun _ => ⟨hread, hwrite⟩⟩
      · show offset / SECTOR_SIZE + 1 ≤ s
        unfold SECTOR_SIZE at *
        omega
      · show SECTOR_SIZE * (offset / SECTOR_SIZE + 1) =
            offset + headChunk (offset % SECTOR_SIZE) total ∨ _
        have hdiv := Nat.div_add_mod offset SECTOR_SIZE
        have hmod := Nat.mod_lt offset (show SECTOR_SIZE > 0 by decide)
        obtain ⟨-, hfits, hends⟩ := headChunk_spec (offset % SECTOR_SIZE) total
        rw [Nat.mul_add]
        omega
    · rw [blockWrite_of_not hwrite, Nat.zero_add]
      exact Or.inr (Or.inr ⟨⟨hoff, hread, hwrite⟩, rfl⟩)
  · rw [blockRead_of_not hread]
    exact Or.inr (Or.inl ⟨hoff, hread, rfl⟩)

/-- All whole sectors are written, or one of them cannot be written and what is counted is stored.
-/
theorem writeBody_cases (h : WriteInv d offset total src w) :
    (∃ w', writeBody src w = .ok w' ∧ WriteInv d offset total src w' ∧ w'.left < SECTOR_SIZE ∧
      (SECTOR_SIZE * w.sector = offset + w.done → SECTOR_SIZE * w'.sector = offset + w'.done) ∧
      ∀ s, w.sector ≤ s → s < w'.sector → Writable d s) ∨
    ∃ n d' s, writeBody src w = .error (s32 n, d') ∧ n ≤ total ∧ Stored d offset src n d' ∧
      offset ≤ SECTOR_SIZE * s ∧ s < (offset + total) / SECTOR_SIZE ∧ ¬ Writable d s := by
  induction hn : w.left using Nat.strong_induction_on generalizing w with
  | _ k ih =>
    subst hn
    rw [writeBody]
    split_ifs with hleft
    · have hzero : w.left ≠ 0 := by
        unfold SECTOR_SIZE at hleft
        omega
      have haligned := h.placed.aligned.resolve_left hzero
      have hsum := h.placed.sum
      by_cases hwrite : Writable d w.sector
      · rw [blockWrite_of_writable ((writable_congr h.stored.same).mpr hwrite)]
        dsimp only
        have hless : w.left - SECTOR_SIZE < w.left := by
          unfold SECTOR_SIZE at *
          omega
        rcases ih _ hless
            (h.next hleft) rfl with ⟨w', hbody, hinv, hshort, hplace, hwritten⟩ | hfail
        · refine Or.inl ⟨w', hbody, hinv, hshort, fun _ => hplace ?_, fun s hlo hhi => ?_⟩
          · show SECTOR_SIZE * (w.sector + 1) = offset + (w.done + SECTOR_SIZE)
            rw [Nat.mul_add]
            omega
          rcases Nat.eq_or_lt_of_le hlo with rfl | hlt
          · exact hwrite
          · exact hwritten s hlt hhi
        · exact Or.inr hfail
      · rw [blockWrite_of_not fun hw => hwrite ((writable_congr h.stored.same).mp hw)]
        refine Or.inr ⟨w.done, w.disk, w.sector, rfl, by omega, h.stored, by omega, ?_, hwrite⟩
        unfold SECTOR_SIZE at *
        omega
    · exact Or.inl ⟨w, rfl, h, Nat.lt_of_not_le hleft, id, fun s hlo hhi => absurd hhi (by omega)⟩

/-- The last sector is written, or it cannot be read and what is counted is stored, or it cannot
be written. -/
theorem writeTail_cases (h : WriteInv d offset total src w) (hleft : w.left < SECTOR_SIZE) :
    (∃ w', writeTail src w = .ok w' ∧ w'.done = total ∧ Stored d offset src total w'.disk ∧
      (w.left ≠ 0 → Writable d w.sector)) ∨
    (writeTail src w = .error (s32 w.done, w.disk) ∧ w.left ≠ 0 ∧ ¬ Readable d w.sector) ∨
    writeTail src w = .error (s32 total, w.disk) ∧ w.left ≠ 0 ∧ Readable d w.sector ∧
      ¬ Writable d w.sector := by
  have hsum := h.placed.sum
  unfold writeTail
  by_cases hzero : w.left = 0
  · rw [if_neg (not_not.mpr hzero)]
    have hdone : w.done = total := by omega
    exact Or.inl ⟨w, rfl, hdone, hdone ▸ h.stored, fun hne => absurd hzero hne⟩
  rw [if_pos hzero]
  by_cases hread : Readable d w.sector
  · rw [blockRead_of_readable ((readable_congr h.stored.same).mpr hread)]
    dsimp only
    by_cases hwrite : Writable d w.sector
    · rw [blockWrite_of_writable ((writable_congr h.stored.same).mpr hwrite)]
      exact Or.inl ⟨_, rfl, hsum, h.last hzero hleft, fun _ => hwrite⟩
    · rw [blockWrite_of_not fun hw => hwrite ((writable_congr h.stored.same).mp hw), hsum]
      exact Or.inr (Or.inr ⟨rfl, hzero, hread, hwrite⟩)
  · rw [blockRead_of_not fun hr => hread ((readable_congr h.stored.same).mp hr)]
    exact Or.inr (Or.inl ⟨rfl, hzero, hread⟩)

/-! ## The whole write -/

theorem devfsBlkWrite_of_head_error {ret : WriteReturn}
    (hin : offset / SECTOR_SIZE < d.sectorCount)
    (htotal : clip d offset size = total)
    (h : writeHead (offset % SECTOR_SIZE) src ⟨offset / SECTOR_SIZE, total, 0, d⟩ = .error ret) :
    devfsBlkWrite d offset size src = ret := by
  unfold devfsBlkWrite
  dsimp only
  rw [if_neg (by omega), htotal, h]
  rfl

theorem devfsBlkWrite_of_body_error {ret : WriteReturn}
    (hin : offset / SECTOR_SIZE < d.sectorCount)
    (htotal : clip d offset size = total)
    (h : writeHead (offset % SECTOR_SIZE) src ⟨offset / SECTOR_SIZE, total, 0, d⟩ = .ok w)
    (hbody : writeBody src w = .error ret) : devfsBlkWrite d offset size src = ret := by
  unfold devfsBlkWrite
  dsimp only
  rw [if_neg (by omega), htotal, h]
  simp only [Bind.bind, Except.bind, hbody]

theorem devfsBlkWrite_of_tail {w' : WriteState} (hin : offset / SECTOR_SIZE < d.sectorCount)
    (htotal : clip d offset size = total)
    (h : writeHead (offset % SECTOR_SIZE) src ⟨offset / SECTOR_SIZE, total, 0, d⟩ = .ok w)
    (hbody : writeBody src w = .ok w') :
    devfsBlkWrite d offset size src =
      Except.casesOn (writeTail src w') id fun w'' => (s32 w''.done, w''.disk) := by
  unfold devfsBlkWrite
  dsimp only
  rw [if_neg (by omega), htotal, h]
  simp only [Bind.bind, Except.bind, hbody]
  cases writeTail src w' <;> rfl

/-- How a write can end: with nothing counted but what is stored, or with a partial sector that is
counted but not stored. -/
inductive Outcome (d : Disk) (offset total : Nat) (src : Mem) : WriteReturn → Prop
  | refused (hhead : ¬ HeadUnwritten d offset) (htail : ¬ TailUnwritten d offset total) :
    Outcome d offset total src (-1, d)
  | stored (n : Nat) (d' : Disk) (hn : n ≤ total) (h : Stored d offset src n d')
    (hhead : ¬ HeadUnwritten d offset) (htail : ¬ TailUnwritten d offset total) :
    Outcome d offset total src (s32 n, d')
  | headLost (hhead : HeadUnwritten d offset) :
    Outcome d offset total src (s32 (headChunk (offset % SECTOR_SIZE) total), d)
  | tailLost (d' : Disk) (hhead : ¬ HeadUnwritten d offset) (htail : TailUnwritten d offset total)
    (h : Stored d offset src (SECTOR_SIZE * ((offset + total) / SECTOR_SIZE) - offset) d') :
    Outcome d offset total src (s32 total, d')

theorem HeadUnwritten.not_tail (h : HeadUnwritten d offset) : ¬ TailUnwritten d offset total :=
  fun htail => h.failing (htail.head h.unaligned).2

theorem devfsBlkWrite_outcome (d : Disk) (offset size : Nat) (src : Mem) :
    Outcome d offset (clip d offset size) src (devfsBlkWrite d offset size src) := by
  by_cases hin : offset / SECTOR_SIZE < d.sectorCount
  case neg =>
    rw [devfsBlkWrite_outside (Nat.le_of_not_lt hin)]
    refine .refused (fun h => hin h.readable.1) fun h => hin (lt_of_le_of_lt ?_ h.readable.1)
    exact Nat.div_le_div_right (Nat.le_add_right _ _)
  generalize htotal : clip d offset size = total
  rcases writeHead_cases d offset total src with
    ⟨w₁, hhead, hinv, hfirst, hstart, hwritten⟩ | ⟨hoff, hread, hhead⟩ | ⟨hlost, hhead⟩
  case inr.inl =>
    rw [devfsBlkWrite_of_head_error hin htotal hhead]
    exact .refused (fun h => hread h.readable) fun h => hread (h.head hoff).1
  case inr.inr =>
    rw [devfsBlkWrite_of_head_error hin htotal hhead]
    exact .headLost hlost
  have hnothead : ¬ HeadUnwritten d offset := fun h => h.failing (hwritten h.unaligned).2
  rcases writeBody_cases hinv with
    ⟨w₂, hbody, hinv₂, hleft, hplace, hwhole⟩ | ⟨n, d', s, hbody, hn, hstored, hlo, hhi, hfail⟩
  case inr =>
    rw [devfsBlkWrite_of_body_error hin htotal hhead hbody]
    exact .stored n d' hn hstored hnothead fun h => hfail (h.whole s hlo hhi)
  rw [devfsBlkWrite_of_tail hin htotal hhead hbody]
  have hsum := hinv₂.placed.sum
  -- A tail of its own begins at the sector that the body stopped at.
  have htail : (offset + total) % SECTOR_SIZE ≠ 0 →
      offset ≤ SECTOR_SIZE * ((offset + total) / SECTOR_SIZE) →
      w₂.left ≠ 0 := by
    intro hpart hbehind hzero
    rcases hstart with hstart | ⟨hoff, hshort⟩
    · have := hplace hstart
      unfold SECTOR_SIZE at *
      omega
    · unfold SECTOR_SIZE at *
      omega
  have hlast : w₂.left ≠ 0 → SECTOR_SIZE * w₂.sector = offset + w₂.done ∧
      (offset + total) / SECTOR_SIZE = w₂.sector ∧ (offset + total) % SECTOR_SIZE ≠ 0 := by
    intro hzero
    have haligned := hinv₂.placed.aligned.resolve_left hzero
    unfold SECTOR_SIZE at *
    omega
  rcases writeTail_cases hinv₂ hleft with
    ⟨w₃, hrun, hdone, hstored, hwrite⟩ | ⟨hrun, hzero, hread⟩ | ⟨hrun, hzero, hread, hwrite⟩
  · rw [hrun]
    show Outcome d offset total src (s32 w₃.done, w₃.disk)
    rw [hdone]
    refine .stored total w₃.disk (le_refl _) hstored hnothead fun h => h.failing ?_
    have hzero := htail h.unaligned h.behind
    rw [(hlast hzero).2.1]
    exact hwrite hzero
  · rw [hrun]
    refine .stored w₂.done w₂.disk (by omega) hinv₂.stored hnothead fun h => hread ?_
    rw [← (hlast hzero).2.1]
    exact h.readable
  · obtain ⟨hpos, hsector, hpart⟩ := hlast hzero
    rw [hrun]
    refine .tailLost w₂.disk hnothead
      ⟨hpart, by rw [hsector]; omega, hwritten, fun s hlo hhi => ?_, ?_, ?_⟩ ?_
    · exact hwhole s (hfirst s hlo) (by omega)
    · rwa [hsector]
    · rwa [hsector]
    · rw [hsector, hpos, Nat.add_sub_cancel_left]
      exact hinv₂.stored

/-- A result is truthful unless a partial sector is read but not written: then only if the device
had the data. -/
theorem devfsBlkWrite_reports_iff (hsize : size < 2 ^ 31) (d : Disk) (offset : Nat) (src : Mem) :
    Reported d offset size src ↔
      (HeadUnwritten d offset →
        HoldsData d offset src 0 (headChunk (offset % SECTOR_SIZE) (clip d offset size))) ∧
      (TailUnwritten d offset (clip d offset size) →
        HoldsData d offset src
          (SECTOR_SIZE * ((offset + clip d offset size) / SECTOR_SIZE) - offset)
          (clip d offset size)) := by
  have hclip := clip_le d offset size
  have hout := devfsBlkWrite_outcome d offset size src
  unfold Reported
  generalize clip d offset size = total at hclip hout ⊢
  generalize devfsBlkWrite d offset size src = ret at hout ⊢
  have hs32 : ∀ n ≤ total, s32 n = n := fun n hn => s32_of_lt (by omega)
  cases hout with
  | refused hhead htail =>
    exact iff_of_true (fun i hi => absurd hi (by omega))
      ⟨fun h => absurd h hhead, fun h => absurd h htail⟩
  | stored n d' hn h hhead htail =>
    refine iff_of_true (fun i hi => ?_) ⟨fun h => absurd h hhead, fun h => absurd h htail⟩
    rw [hs32 n hn] at hi
    rw [h.stored, if_pos (by omega), Nat.add_sub_cancel_left]
  | headLost hhead =>
    rw [hs32 _ (headChunk_spec _ _).1]
    constructor
    · intro h
      exact ⟨fun _ i _ hi => h i (by omega), fun ht => absurd ht hhead.not_tail⟩
    · intro h i hi
      exact h.1 hhead i (Nat.zero_le i) (by omega)
  | tailLost d' hhead htail hstored =>
    rw [hs32 total (le_refl _)]
    constructor
    · intro h
      refine ⟨fun hh => absurd hh hhead, fun _ i hlo hhi => ?_⟩
      rw [← h i (by omega), hstored.stored, if_neg (by omega)]
    · intro h i hi
      show byte d' (offset + i) = src i
      rw [hstored.stored]
      by_cases hin : offset ≤ offset + i ∧
          offset + i < offset + (SECTOR_SIZE * ((offset + total) / SECTOR_SIZE) - offset)
      · rw [if_pos hin, Nat.add_sub_cancel_left]
      · rw [if_neg hin]
        exact h.2 htail i (by omega) (by omega)

/-- A device of four sectors where sector 0 can be read but not written. -/
def firstUnwritable : Disk := { fourSectors with writeFails := fun s => s == 0 }

/-- A write that begins at a sector boundary and ends at one. -/
theorem devfsBlkWrite_reports_aligned :
    1024 < 2 ^ 31 ∧ Reported firstUnwritable 512 1024 (fun _ => 7) := by
  refine ⟨by decide,
    (devfsBlkWrite_reports_iff (by decide) firstUnwritable 512 fun _ => 7).mpr ⟨?_, ?_⟩⟩
  · intro h
    exact absurd h.unaligned (by decide)
  · intro h
    exact absurd h.unaligned (by decide)

/-- Four bytes at offset 4 are counted as written, and the device keeps its zeros. -/
theorem headLost_over_reports :
    ¬ ∀ (d : Disk) (offset size : Nat) (src : Mem), size < 2 ^ 31 →
      Reported d offset size src := by
  intro hall
  have h := hall firstUnwritable 4 4 (fun _ => 7) (by decide) 0
  have hhead : writeHead (4 % SECTOR_SIZE) (fun _ => 7) ⟨4 / SECTOR_SIZE, 4, 0, firstUnwritable⟩ =
      .error (4, firstUnwritable) := rfl
  have hret : devfsBlkWrite firstUnwritable 4 4 (fun _ => 7) = (4, firstUnwritable) :=
    devfsBlkWrite_of_head_error (by decide) (by decide) hhead
  rw [hret] at h
  exact absurd (h (by decide)) (by decide)

end Lumin.Fs.Devfs
