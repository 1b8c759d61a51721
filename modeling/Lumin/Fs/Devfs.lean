import Lumin.Block.Device
import Lumin.Lib.Word

/-!
# Block devices as files

`devfs_blk_read` and `devfs_blk_write` of `kernel/fs/vfs.c` on a device with 512-byte
sectors.  Both take a transfer apart into the rest of its first sector, whole sectors and
the start of its last sector; a write reads the two partial sectors first.

`Disk.byte` is the device as one array of bytes.  Each of the three parts moves the
stretch of the array that has been transferred forward, so that a read copies a stretch
of the array and a write replaces one.
-/

namespace Lumin.Fs.Devfs

open Lumin.Lib Lumin.Block

/-- `bdev->sector_size`. -/
def SECTOR_SIZE : Nat := 512

/-- A copying loop: `n` bytes of `src` from `off` on go to `dst` from `pos` on. -/
def copyInto (dst : Mem) (pos n : Nat) (src : Mem) (off : Nat) : Mem := fun i =>
  if pos ≤ i ∧ i < pos + n then src (off + (i - pos)) else dst i

/-- What is left of `size` bytes from `offset` on in the device. -/
def clip (d : Disk) (offset size : Nat) : Nat :=
  let room := sub64 (u64 (d.sectorCount * SECTOR_SIZE)) offset
  if size > room then room else size

/-- The part of a transfer in its first sector. -/
def headChunk (byteOff left : Nat) : Nat :=
  if SECTOR_SIZE - byteOff > left then left else SECTOR_SIZE - byteOff

/-! ## Reading -/

/-- `sector`, `to_read`, `done` and `buf`. -/
structure ReadState where
  sector : Nat
  left : Nat
  done : Nat
  buf : Mem

/-- `return`: the value and the buffer. -/
abbrev ReadReturn := Int × Mem

def readHead (d : Disk) (byteOff : Nat) (r : ReadState) : Except ReadReturn ReadState :=
  if byteOff ≠ 0 then
    match blockRead d r.sector with
    | none => .error (-1, r.buf)
    | some tmp =>
      let chunk := headChunk byteOff r.left
      .ok
        { sector := r.sector + 1, left := r.left - chunk, done := r.done + chunk,
          buf := copyInto r.buf r.done chunk tmp byteOff }
  else .ok r

def readBody (d : Disk) (r : ReadState) : Except ReadReturn ReadState :=
  if _h : r.left ≥ SECTOR_SIZE then
    match blockRead d r.sector with
    | none => .error (s32 r.done, r.buf)
    | some data =>
      readBody d
        { sector := r.sector + 1, left := r.left - SECTOR_SIZE, done := r.done + SECTOR_SIZE,
          buf := copyInto r.buf r.done SECTOR_SIZE data 0 }
  else .ok r
termination_by r.left
decreasing_by
  simp only [SECTOR_SIZE] at _h ⊢
  omega

def readTail (d : Disk) (r : ReadState) : Except ReadReturn ReadState :=
  if r.left ≠ 0 then
    match blockRead d r.sector with
    | none => .error (s32 r.done, r.buf)
    | some tmp => .ok
      { r with left := 0, done := r.done + r.left, buf := copyInto r.buf r.done r.left tmp 0 }
  else .ok r

/-- `devfs_blk_read`. -/
def devfsBlkRead (d : Disk) (offset size : Nat) (buf : Mem) : ReadReturn :=
  let sector := offset / SECTOR_SIZE
  if sector ≥ d.sectorCount then (-1, buf)
  else
    let run := do
      let r ← readHead d (offset % SECTOR_SIZE)
          { sector := sector, left := clip d offset size, done := 0, buf := buf }
      let r ← readBody d r
      readTail d r
    match run with
    | .error ret => ret
    | .ok r => (s32 r.done, r.buf)

/-! ## Writing -/

/-- `sector`, `to_write`, `done` and the device. -/
structure WriteState where
  sector : Nat
  left : Nat
  done : Nat
  disk : Disk

/-- `return`: the value and the device. -/
abbrev WriteReturn := Int × Disk

def writeHead (byteOff : Nat) (src : Mem) (w : WriteState) : Except WriteReturn WriteState :=
  if byteOff ≠ 0 then
    match blockRead w.disk w.sector with
    | none => .error (-1, w.disk)
    | some tmp =>
      let chunk := headChunk byteOff w.left
      match blockWrite w.disk w.sector (copyInto tmp byteOff chunk src w.done) with
      | none => .error (s32 (w.done + chunk), w.disk)
      | some disk => .ok { sector := w.sector + 1, left := w.left - chunk, done := w.done + chunk,
                           disk := disk }
  else .ok w

def writeBody (src : Mem) (w : WriteState) : Except WriteReturn WriteState :=
  if _h : w.left ≥ SECTOR_SIZE then
    match blockWrite w.disk w.sector (fun i => src (w.done + i)) with
    | none => .error (s32 w.done, w.disk)
    | some disk =>
      writeBody src
        { sector := w.sector + 1, left := w.left - SECTOR_SIZE, done := w.done + SECTOR_SIZE,
          disk := disk }
  else .ok w
termination_by w.left
decreasing_by
  simp only [SECTOR_SIZE] at _h ⊢
  omega

def writeTail (src : Mem) (w : WriteState) : Except WriteReturn WriteState :=
  if w.left ≠ 0 then
    match blockRead w.disk w.sector with
    | none => .error (s32 w.done, w.disk)
    | some tmp =>
      match blockWrite w.disk w.sector (copyInto tmp 0 w.left src w.done) with
      | none => .error (s32 (w.done + w.left), w.disk)
      | some disk => .ok { w with left := 0, done := w.done + w.left, disk := disk }
  else .ok w

/-- `devfs_blk_write`. -/
def devfsBlkWrite (d : Disk) (offset size : Nat) (src : Mem) : WriteReturn :=
  let sector := offset / SECTOR_SIZE
  if sector ≥ d.sectorCount then (-1, d)
  else
    let run := do
      let w ← writeHead (offset % SECTOR_SIZE) src
          { sector := sector, left := clip d offset size, done := 0, disk := d }
      let w ← writeBody src w
      writeTail src w
    match run with
    | .error ret => ret
    | .ok w => (s32 w.done, w.disk)

/-! ## The device as an array -/

/-- The byte at position `x` of the device. -/
def byte (d : Disk) (x : Nat) : UInt8 := d.data (x / SECTOR_SIZE) (x % SECTOR_SIZE)

/-- The number of bytes of the device. -/
def bytes (d : Disk) : Nat := d.sectorCount * SECTOR_SIZE

variable {d d' : Disk} {offset size total sector left done n : Nat} {buf src tmp : Mem}
  {r : ReadState} {w : WriteState}

theorem byte_sector (d : Disk) (sector : Nat) {k : Nat} (hk : k < SECTOR_SIZE) :
    byte d (SECTOR_SIZE * sector + k) = d.data sector k := by
  have hdiv : (SECTOR_SIZE * sector + k) / SECTOR_SIZE = sector := by
    unfold SECTOR_SIZE at *
    omega
  have hmod : (SECTOR_SIZE * sector + k) % SECTOR_SIZE = k := by
    unfold SECTOR_SIZE at *
    omega
  rw [byte, hdiv, hmod]

theorem byte_setSector (d : Disk) (sector : Nat) (tmp : Mem) (x : Nat) :
    byte (d.setSector sector tmp) x = if x / SECTOR_SIZE = sector then tmp (x % SECTOR_SIZE)
      else byte d x := by
  unfold byte
  by_cases hx : x / SECTOR_SIZE = sector
  · rw [if_pos hx, hx, setSector_data_same]
  · rw [if_neg hx, setSector_data_ne _ _ hx]

/-- The transfer is clipped to the end of the device. -/
theorem clip_eq (hcount : d.sectorCount < 2 ^ 54) (hin : offset / SECTOR_SIZE < d.sectorCount) :
    clip d offset size = min size (bytes d - offset) := by
  unfold clip bytes SECTOR_SIZE at *
  rw [u64_of_lt (by omega), sub64_of_le (by omega) (by omega)]
  dsimp only
  split_ifs with hgt
  · exact (Nat.min_eq_right (by omega)).symm
  · exact (Nat.min_eq_left (by omega)).symm

/-- The state of a transfer of `total` bytes: unless nothing is left, the next byte is
the first of `sector`. -/
structure Placed (offset total sector left done : Nat) : Prop where
  sum : done + left = total
  aligned : left = 0 ∨ SECTOR_SIZE * sector = offset + done

/-- The sector is in the device while bytes are left. -/
theorem Placed.lt (h : Placed offset total sector left done) (hfit : offset + total ≤ bytes d)
    (hleft : left ≠ 0) :
    sector < d.sectorCount := by
  obtain ⟨hsum, haligned⟩ := h
  unfold bytes SECTOR_SIZE at *
  omega

/-- `headChunk` stays in the sector, and it ends the sector or the transfer. -/
theorem headChunk_spec (byteOff left : Nat) : headChunk byteOff left ≤ left ∧
    headChunk byteOff left ≤ SECTOR_SIZE - byteOff ∧
      (headChunk byteOff left = left ∨ headChunk byteOff left = SECTOR_SIZE - byteOff) := by
  unfold headChunk
  split_ifs <;> omega

/-- After the first sector the transfer is aligned. -/
theorem placed_head (offset total : Nat) :
    Placed offset total (offset / SECTOR_SIZE + 1)
      (total - headChunk (offset % SECTOR_SIZE) total)
      (headChunk (offset % SECTOR_SIZE) total) := by
  obtain ⟨hle, hsector, hends⟩ := headChunk_spec (offset % SECTOR_SIZE) total
  refine ⟨by omega, ?_⟩
  unfold SECTOR_SIZE at *
  omega

theorem placed_of_aligned (total : Nat) (hoff : offset % SECTOR_SIZE = 0) :
    Placed offset total (offset / SECTOR_SIZE) total 0 := by
  refine ⟨Nat.zero_add _, Or.inr ?_⟩
  unfold SECTOR_SIZE at *
  omega

/-- A whole sector further. -/
theorem Placed.next (h : Placed offset total sector left done) (hleft : left ≥ SECTOR_SIZE) :
    Placed offset total (sector + 1) (left - SECTOR_SIZE) (done + SECTOR_SIZE) := by
  obtain ⟨hsum, haligned⟩ := h
  refine ⟨by omega, ?_⟩
  unfold SECTOR_SIZE at *
  omega

/-! ## Reading copies a stretch -/

/-- `buf` is `buf₀` with the first `done` bytes of the stretch from `offset` on. -/
def Copied (d : Disk) (offset done : Nat) (buf₀ buf : Mem) : Prop :=
  ∀ i, buf i = if i < done then byte d (offset + i) else buf₀ i

theorem copied_zero (d : Disk) (offset : Nat) (buf : Mem) : Copied d offset 0 buf buf :=
  fun i => (if_neg (Nat.not_lt_zero i)).symm

/-- Copying the next `n` bytes. -/
theorem Copied.copy {buf₀ : Mem} {off : Nat} (h : Copied d offset done buf₀ buf)
    (hsrc : ∀ j < n, tmp (off + j) = byte d (offset + done + j)) :
    Copied d offset (done + n) buf₀ (copyInto buf done n tmp off) := by
  intro i
  unfold copyInto
  by_cases hnew : done ≤ i ∧ i < done + n
  · rw [if_pos hnew, if_pos hnew.2, hsrc (i - done) (by omega), Nat.add_assoc,
      Nat.add_sub_cancel' hnew.1]
  · rw [if_neg hnew, h i]
    by_cases hold : i < done
    · rw [if_pos hold, if_pos (by omega)]
    · rw [if_neg hold, if_neg (by omega)]

/-- The state of a read that has gone well so far. -/
structure ReadInv (d : Disk) (offset total : Nat) (buf : Mem) (r : ReadState) : Prop where
  placed : Placed offset total r.sector r.left r.done
  copied : Copied d offset r.done buf r.buf

theorem readHead_spec (hw : d.Works) (hin : offset / SECTOR_SIZE < d.sectorCount) (total : Nat)
    (buf : Mem) :
    ∃ r, readHead d (offset % SECTOR_SIZE) ⟨offset / SECTOR_SIZE, total, 0, buf⟩ = .ok r ∧
      ReadInv d offset total buf r := by
  unfold readHead
  by_cases hoff : offset % SECTOR_SIZE = 0
  · rw [if_neg (not_not.mpr hoff)]
    exact ⟨_, rfl, placed_of_aligned total hoff, copied_zero d offset buf⟩
  · rw [if_pos hoff]
    dsimp only
    rw [blockRead_of_works hw hin]
    obtain ⟨-, hsector, -⟩ := headChunk_spec (offset % SECTOR_SIZE) total
    refine ⟨_, rfl, ?_, (copied_zero d offset buf).copy fun j hj => ?_⟩
    · simpa using placed_head offset total
    · rw [← byte_sector d _ (by omega)]
      congr 1
      unfold SECTOR_SIZE
      omega

theorem readBody_spec (hw : d.Works) (hfit : offset + total ≤ bytes d)
    (h : ReadInv d offset total buf r) :
    ∃ r', readBody d r = .ok r' ∧ ReadInv d offset total buf r' ∧ r'.left < SECTOR_SIZE := by
  induction hn : r.left using Nat.strong_induction_on generalizing r with
  | _ k ih =>
    subst hn
    rw [readBody]
    split_ifs with hleft
    · have hsector := h.placed.lt hfit (by unfold SECTOR_SIZE at hleft; omega)
      rw [blockRead_of_works hw hsector]
      refine ih _ ?_ ⟨h.placed.next hleft, h.copied.copy fun j hj => ?_⟩ rfl
      · show r.left - SECTOR_SIZE < r.left
        unfold SECTOR_SIZE at *
        omega
      · rw [Nat.zero_add, ← byte_sector d _ hj]
        congr 1
        have := h.placed.aligned
        unfold SECTOR_SIZE at *
        omega
    · exact ⟨r, rfl, h, Nat.lt_of_not_le hleft⟩

theorem readTail_spec (hw : d.Works) (hfit : offset + total ≤ bytes d)
    (h : ReadInv d offset total buf r)
    (hleft : r.left < SECTOR_SIZE) :
    ∃ r', readTail d r = .ok r' ∧ r'.done = total ∧ Copied d offset total buf r'.buf := by
  have hsum := h.placed.sum
  unfold readTail
  by_cases hzero : r.left = 0
  · rw [if_neg (not_not.mpr hzero)]
    have hdone : r.done = total := by omega
    exact ⟨r, rfl, hdone, hdone ▸ h.copied⟩
  · rw [if_pos hzero, blockRead_of_works hw (h.placed.lt hfit hzero)]
    refine ⟨_, rfl, hsum, ?_⟩
    rw [← hsum]
    refine h.copied.copy fun j hj => ?_
    rw [Nat.zero_add, ← byte_sector d _ (by omega)]
    congr 1
    have := h.placed.aligned
    omega

/-- `devfs_blk_read` copies the bytes from `offset` on, up to the end of the device. -/
theorem devfsBlkRead_spec (hw : d.Works) (hcount : d.sectorCount < 2 ^ 54) (hsize : size < 2 ^ 31)
    (hin : offset / SECTOR_SIZE < d.sectorCount) (buf : Mem) :
    ∃ buf', devfsBlkRead d offset size buf = (((min size (bytes d - offset) : Nat) : Int), buf') ∧
      Copied d offset (min size (bytes d - offset)) buf buf' := by
  have hfit : offset + min size (bytes d - offset) ≤ bytes d := by
    unfold bytes SECTOR_SIZE at *
    omega
  unfold devfsBlkRead
  dsimp only
  rw [if_neg (by omega), clip_eq hcount hin]
  have htotal : min size (bytes d - offset) < 2 ^ 31 := by omega
  generalize min size (bytes d - offset) = total at hfit htotal ⊢
  obtain ⟨r₁, hhead, hinv⟩ := readHead_spec hw hin total buf
  obtain ⟨r₂, hbody, hinv, hleft⟩ := readBody_spec hw hfit hinv
  obtain ⟨r₃, htail, hdone, hcopied⟩ := readTail_spec hw hfit hinv hleft
  refine ⟨r₃.buf, ?_, hcopied⟩
  rw [hhead]
  show (match (readBody d r₁ >>= readTail d) with | .error ret => ret | .ok r => (s32 r.done, r.buf)) = _
  rw [hbody]
  show (match readTail d r₂ with | .error ret => ret | .ok r => (s32 r.done, r.buf)) = _
  rw [htail, ← s32_of_lt htotal, ← hdone]

/-- An offset past the end. -/
theorem devfsBlkRead_outside (hout : d.sectorCount ≤ offset / SECTOR_SIZE) (buf : Mem) :
    devfsBlkRead d offset size buf = (-1, buf) :=
  if_pos hout

/-! ## Writing replaces a stretch -/

/-- `d` is `d₀` with `done` bytes of `src` from `offset` on. -/
structure Stored (d₀ : Disk) (offset : Nat) (src : Mem) (done : Nat) (d : Disk) : Prop where
  same : d₀.SameDevice d
  stored : ∀ x, byte d x = if offset ≤ x ∧ x < offset + done then src (x - offset) else byte d₀ x

theorem stored_zero (d : Disk) (offset : Nat) (src : Mem) : Stored d offset src 0 d where
  same := Disk.SameDevice.refl d
  stored x := (if_neg (by omega)).symm

/-- Storing the next `n` bytes, which all are in `sector`. -/
theorem Stored.store {d₀ : Disk} (h : Stored d₀ offset src done d)
    (hlo : SECTOR_SIZE * sector ≤ offset + done)
    (hhi : offset + done + n ≤ SECTOR_SIZE * (sector + 1))
    (htmp : ∀ k < SECTOR_SIZE, tmp k =
      if offset + done ≤ SECTOR_SIZE * sector + k ∧ SECTOR_SIZE * sector + k < offset + done + n
      then src (SECTOR_SIZE * sector + k - offset) else byte d (SECTOR_SIZE * sector + k)) :
    Stored d₀ offset src (done + n) (d.setSector sector tmp) := by
  refine ⟨h.same.trans (sameDevice_setSector _ _ _), fun x => ?_⟩
  rw [byte_setSector]
  by_cases hx : x / SECTOR_SIZE = sector
  · have hpos : SECTOR_SIZE * sector + x % SECTOR_SIZE = x := by
      unfold SECTOR_SIZE at *
      omega
    rw [if_pos hx, htmp _ (Nat.mod_lt _ (by decide)), hpos]
    by_cases hnew : offset + done ≤ x ∧ x < offset + done + n
    · rw [if_pos hnew, if_pos (by omega)]
    · rw [if_neg hnew, h.stored x]
      by_cases hold : offset ≤ x ∧ x < offset + done
      · rw [if_pos hold, if_pos (by omega)]
      · rw [if_neg hold, if_neg (by omega)]
  · rw [if_neg hx, h.stored x]
    by_cases hold : offset ≤ x ∧ x < offset + done
    · rw [if_pos hold, if_pos (by omega)]
    · rw [if_neg hold, if_neg]
      unfold SECTOR_SIZE at *
      omega

/-- A sector that was read, with `n` bytes replaced. -/
theorem copyInto_sector {off k : Nat} (hpos : SECTOR_SIZE * sector + off = offset + done)
    (hk : k < SECTOR_SIZE) :
    copyInto (d.data sector) off n src done k =
      if offset + done ≤ SECTOR_SIZE * sector + k ∧ SECTOR_SIZE * sector + k < offset + done + n
      then src (SECTOR_SIZE * sector + k - offset) else byte d (SECTOR_SIZE * sector + k) := by
  rw [byte_sector d sector hk]
  unfold copyInto
  by_cases hin : off ≤ k ∧ k < off + n
  · rw [if_pos hin, if_pos (by omega)]
    congr 1
    omega
  · rw [if_neg hin, if_neg (by omega)]

/-- The state of a write that has gone well so far. -/
structure WriteInv (d : Disk) (offset total : Nat) (src : Mem) (w : WriteState) : Prop where
  placed : Placed offset total w.sector w.left w.done
  stored : Stored d offset src w.done w.disk

/-- After the first sector, whose other bytes stay. -/
theorem writeInv_head (d : Disk) (offset total : Nat) (src : Mem) :
    WriteInv d offset total src
      { sector := offset / SECTOR_SIZE + 1,
        left := total - headChunk (offset % SECTOR_SIZE) total,
        done := headChunk (offset % SECTOR_SIZE) total,
        disk := d.setSector (offset / SECTOR_SIZE)
          (copyInto (d.data (offset / SECTOR_SIZE)) (offset % SECTOR_SIZE)
            (headChunk (offset % SECTOR_SIZE) total) src 0) } := by
  obtain ⟨-, hsector, -⟩ := headChunk_spec (offset % SECTOR_SIZE) total
  have hpos : SECTOR_SIZE * (offset / SECTOR_SIZE) + offset % SECTOR_SIZE = offset :=
    Nat.div_add_mod _ _
  have hmod := Nat.mod_lt offset (show SECTOR_SIZE > 0 by decide)
  refine ⟨placed_head offset total, ?_⟩
  have hstore : Stored d offset src (0 + headChunk (offset % SECTOR_SIZE) total)
      (d.setSector (offset / SECTOR_SIZE)
        (copyInto (d.data (offset / SECTOR_SIZE)) (offset % SECTOR_SIZE)
          (headChunk (offset % SECTOR_SIZE) total) src 0)) := by
    refine (stored_zero d offset src).store (by omega) ?_ fun k hk =>
      copyInto_sector (by omega) hk
    rw [Nat.mul_add]
    omega
  rwa [Nat.zero_add] at hstore

/-- After a whole sector. -/
theorem WriteInv.next (h : WriteInv d offset total src w) (hleft : w.left ≥ SECTOR_SIZE) :
    WriteInv d offset total src
      { sector := w.sector + 1, left := w.left - SECTOR_SIZE, done := w.done + SECTOR_SIZE,
        disk := w.disk.setSector w.sector (fun i => src (w.done + i)) } := by
  have hzero : w.left ≠ 0 := by
    unfold SECTOR_SIZE at hleft
    omega
  have haligned := h.placed.aligned.resolve_left hzero
  refine ⟨h.placed.next hleft, h.stored.store (by omega) ?_ fun k hk => ?_⟩
  · rw [Nat.mul_add]
    omega
  · rw [if_pos (by omega)]
    congr 1
    omega

/-- After the last sector, whose other bytes stay. -/
theorem WriteInv.last (h : WriteInv d offset total src w) (hzero : w.left ≠ 0)
    (hleft : w.left < SECTOR_SIZE) :
    Stored d offset src total
      (w.disk.setSector w.sector (copyInto (w.disk.data w.sector) 0 w.left src w.done)) := by
  have haligned := h.placed.aligned.resolve_left hzero
  rw [← h.placed.sum]
  refine h.stored.store (by omega) ?_ fun k hk => copyInto_sector (by omega) hk
  rw [Nat.mul_add]
  omega

theorem writeHead_spec (hw : d.Works) (hin : offset / SECTOR_SIZE < d.sectorCount) (total : Nat)
    (src : Mem) :
    ∃ w, writeHead (offset % SECTOR_SIZE) src ⟨offset / SECTOR_SIZE, total, 0, d⟩ = .ok w ∧
      WriteInv d offset total src w := by
  unfold writeHead
  by_cases hoff : offset % SECTOR_SIZE = 0
  · rw [if_neg (not_not.mpr hoff)]
    exact ⟨_, rfl, placed_of_aligned total hoff, stored_zero d offset src⟩
  · rw [if_pos hoff]
    dsimp only
    rw [blockRead_of_works hw hin]
    dsimp only
    rw [blockWrite_of_works hw hin]
    simp only [Nat.zero_add]
    exact ⟨_, rfl, writeInv_head d offset total src⟩

theorem writeBody_spec (hw : d.Works) (hfit : offset + total ≤ bytes d)
    (h : WriteInv d offset total src w) :
    ∃ w', writeBody src w = .ok w' ∧ WriteInv d offset total src w' ∧ w'.left < SECTOR_SIZE := by
  induction hn : w.left using Nat.strong_induction_on generalizing w with
  | _ k ih =>
    subst hn
    rw [writeBody]
    split_ifs with hleft
    · have hzero : w.left ≠ 0 := by
        unfold SECTOR_SIZE at hleft
        omega
      have hsector := h.placed.lt hfit hzero
      rw [blockWrite_of_works (h.stored.same.works hw) (by rw [h.stored.same.1]; exact hsector)]
      refine ih _ ?_ (h.next hleft) rfl
      show w.left - SECTOR_SIZE < w.left
      unfold SECTOR_SIZE at *
      omega
    · exact ⟨w, rfl, h, Nat.lt_of_not_le hleft⟩

theorem writeTail_spec (hw : d.Works) (hfit : offset + total ≤ bytes d)
    (h : WriteInv d offset total src w)
    (hleft : w.left < SECTOR_SIZE) :
    ∃ w', writeTail src w = .ok w' ∧ w'.done = total ∧ Stored d offset src total w'.disk := by
  have hsum := h.placed.sum
  unfold writeTail
  by_cases hzero : w.left = 0
  · rw [if_neg (not_not.mpr hzero)]
    have hdone : w.done = total := by omega
    exact ⟨w, rfl, hdone, hdone ▸ h.stored⟩
  · have hworks := h.stored.same.works hw
    have hsector : w.sector < w.disk.sectorCount := by
      rw [h.stored.same.1]
      exact h.placed.lt hfit hzero
    rw [if_pos hzero, blockRead_of_works hworks hsector]
    dsimp only
    rw [blockWrite_of_works hworks hsector]
    exact ⟨_, rfl, hsum, h.last hzero hleft⟩

/-- `devfs_blk_write` replaces the bytes from `offset` on, up to the end of the device. -/
theorem devfsBlkWrite_spec (hw : d.Works) (hcount : d.sectorCount < 2 ^ 54)
    (hsize : size < 2 ^ 31)
    (hin : offset / SECTOR_SIZE < d.sectorCount) (src : Mem) :
    ∃ d', devfsBlkWrite d offset size src = (((min size (bytes d - offset) : Nat) : Int), d') ∧
      Stored d offset src (min size (bytes d - offset)) d' := by
  have hfit : offset + min size (bytes d - offset) ≤ bytes d := by
    unfold bytes SECTOR_SIZE at *
    omega
  unfold devfsBlkWrite
  dsimp only
  rw [if_neg (by omega), clip_eq hcount hin]
  have htotal : min size (bytes d - offset) < 2 ^ 31 := by omega
  generalize min size (bytes d - offset) = total at hfit htotal ⊢
  obtain ⟨w₁, hhead, hinv⟩ := writeHead_spec hw hin total src
  obtain ⟨w₂, hbody, hinv, hleft⟩ := writeBody_spec hw hfit hinv
  obtain ⟨w₃, htail, hdone, hstored⟩ := writeTail_spec hw hfit hinv hleft
  refine ⟨w₃.disk, ?_, hstored⟩
  rw [hhead]
  show (match (writeBody src w₁ >>= writeTail src) with | .error ret => ret | .ok w => (s32 w.done, w.disk)) = _
  rw [hbody]
  show (match writeTail src w₂ with | .error ret => ret | .ok w => (s32 w.done, w.disk)) = _
  rw [htail, ← s32_of_lt htotal, ← hdone]

theorem devfsBlkWrite_outside (hout : d.sectorCount ≤ offset / SECTOR_SIZE) (src : Mem) :
    devfsBlkWrite d offset size src = (-1, d) :=
  if_pos hout

/-! ## The device is a flat array of bytes -/

/-- What was written is read back. -/
theorem Stored.copied {m : Nat} {buf' : Mem} (h : Stored d offset src n d')
    (hread : Copied d' offset m buf buf')
    (hle : m ≤ n) {i : Nat} (hi : i < m) : buf' i = src i := by
  rw [hread i, if_pos hi, h.stored, if_pos (by omega), Nat.add_sub_cancel_left]

/-- Through `devfs`, a device is an array of bytes: reads copy a stretch of it and writes
replace one, at every offset and alignment, up to the end of the device. -/
theorem devfs_flat (hw : d.Works) (hcount : d.sectorCount < 2 ^ 54) (hsize : size < 2 ^ 31)
    (offset : Nat)
    (buf src : Mem) :
    (d.sectorCount ≤ offset / SECTOR_SIZE →
      devfsBlkRead d offset size buf = (-1, buf) ∧ devfsBlkWrite d offset size src = (-1, d)) ∧
    (offset / SECTOR_SIZE < d.sectorCount →
      (∃ buf', devfsBlkRead d offset size buf =
        (((min size (bytes d - offset) : Nat) : Int), buf') ∧
        Copied d offset (min size (bytes d - offset)) buf buf') ∧
      ∃ d', devfsBlkWrite d offset size src = (((min size (bytes d - offset) : Nat) : Int), d') ∧
        Stored d offset src (min size (bytes d - offset)) d' ∧
        ∃ buf', devfsBlkRead d' offset size buf =
            (((min size (bytes d - offset) : Nat) : Int), buf') ∧
          ∀ i < min size (bytes d - offset), buf' i = src i) := by
  refine ⟨fun hout => ⟨devfsBlkRead_outside hout buf, devfsBlkWrite_outside hout src⟩,
    fun hin => ?_⟩
  refine ⟨devfsBlkRead_spec hw hcount hsize hin buf, ?_⟩
  obtain ⟨d', hwrite, hstored⟩ := devfsBlkWrite_spec hw hcount hsize hin src
  have hsectors : d'.sectorCount = d.sectorCount := hstored.same.1
  obtain ⟨buf', hread, hcopied⟩ :=
    devfsBlkRead_spec (hstored.same.works hw) (by rw [hsectors]; exact hcount) hsize
    (by rw [hsectors]; exact hin) buf
  have hbytes : bytes d' = bytes d := by rw [bytes, hsectors, bytes]
  rw [hbytes] at hread hcopied
  exact ⟨d', hwrite, hstored, buf', hread, fun i hi => hstored.copied hcopied (le_refl _) hi⟩

/-- A device of four sectors. -/
def fourSectors : Disk where
  sectorCount := 4
  readFails := fun _ => false
  writeFails := fun _ => false
  data := fun _ _ => 0

/-- 1000 bytes from byte 300 on, over three sectors. -/
theorem devfs_flat_fourSectors :
    fourSectors.Works ∧ ∃ d', devfsBlkWrite fourSectors 300 1000 (fun _ => 7) = (1000, d') ∧
      Stored fourSectors 300 (fun _ => 7) 1000 d' := by
  have hw : fourSectors.Works := fun _ => ⟨rfl, rfl⟩
  have hsize : 1000 < 2 ^ 31 := by decide
  obtain ⟨-, d', hwrite, hstored, -⟩ :=
    (devfs_flat hw (by decide) hsize 300 (fun _ => 0) (fun _ => 7)).2 (by decide)
  have hn : min 1000 (bytes fourSectors - 300) = 1000 := by decide
  rw [hn] at hwrite hstored
  exact ⟨hw, d', hwrite, hstored⟩

end Lumin.Fs.Devfs
