import Lumin.Lib.Memory

/-!
# Block devices

A device as `block_read` and `block_write` of `kernel/block/block.c` show it, for
one sector at a time.  Each sector is a memory whose first 512 bytes count.  A
transfer fails when the sector is outside the device or when the driver fails,
and a failed write changes nothing.
-/

namespace Lumin.Block

open Lumin.Lib

/-- A device with 512-byte sectors. -/
structure Disk where
  sectorCount : Nat
  readFails : Nat → Bool
  writeFails : Nat → Bool
  data : Nat → Mem

/-- `block_read(dev, sector, 1, buf)`. -/
def blockRead (d : Disk) (sector : Nat) : Option Mem :=
  if sector + 1 > d.sectorCount ∨ d.readFails sector = true then none else some (d.data sector)

/-- The device with one sector changed. -/
def Disk.setSector (d : Disk) (sector : Nat) (buf : Mem) : Disk :=
  { d with data := fun s => if s = sector then buf else d.data s }

/-- `block_write(dev, sector, 1, buf)`. -/
def blockWrite (d : Disk) (sector : Nat) (buf : Mem) : Option Disk :=
  if sector + 1 > d.sectorCount ∨ d.writeFails sector = true then none
  else some (d.setSector sector buf)

/-- No transfer inside the device fails. -/
def Disk.Works (d : Disk) : Prop :=
  ∀ s, d.readFails s = false ∧ d.writeFails s = false

/-- The same device, with possibly other contents. -/
def Disk.SameDevice (d d' : Disk) : Prop :=
  d'.sectorCount = d.sectorCount ∧ d'.readFails = d.readFails ∧ d'.writeFails = d.writeFails

variable {d d' d'' : Disk} {s t : Nat} {buf : Mem}

@[simp] theorem setSector_data_same (d : Disk) (s : Nat) (buf : Mem) :
    (d.setSector s buf).data s = buf := if_pos rfl

theorem setSector_data_ne (d : Disk) (buf : Mem) (h : t ≠ s) :
    (d.setSector s buf).data t = d.data t := if_neg h

@[simp] theorem setSector_sectorCount (d : Disk) (s : Nat) (buf : Mem) :
    (d.setSector s buf).sectorCount = d.sectorCount := rfl

theorem sameDevice_setSector (d : Disk) (s : Nat) (buf : Mem) :
    d.SameDevice (d.setSector s buf) :=
  ⟨rfl, rfl, rfl⟩

theorem Disk.SameDevice.refl (d : Disk) : d.SameDevice d := ⟨rfl, rfl, rfl⟩

theorem Disk.SameDevice.trans (h : d.SameDevice d') (h' : d'.SameDevice d'') : d.SameDevice d'' :=
  ⟨h'.1.trans h.1, h'.2.1.trans h.2.1, h'.2.2.trans h.2.2⟩

theorem Disk.SameDevice.works (h : d.SameDevice d') (hw : d.Works) : d'.Works := by
  intro s
  rw [h.2.1, h.2.2]
  exact hw s

theorem blockRead_of_works (hw : d.Works) (hs : s < d.sectorCount) :
    blockRead d s = some (d.data s) := by
  refine if_neg ?_
  rw [(hw s).1]
  simp only [Bool.false_eq_true, or_false]
  omega

theorem blockWrite_of_works (hw : d.Works) (hs : s < d.sectorCount) (buf : Mem) :
    blockWrite d s buf = some (d.setSector s buf) := by
  refine if_neg ?_
  rw [(hw s).2]
  simp only [Bool.false_eq_true, or_false]
  omega

end Lumin.Block
