import Lumin.Block.Device
import Lumin.Lib.Word

/-!
# Partitions

`block_read` and `block_write` of `kernel/block/block.c` for transfers of any length, on
disks and on the partitions of an MBR, and the registration of these.  A partition is a
device whose driver hands its transfers to the parent, moved by `start_lba`; the parent
may be a partition itself.

Each level compares `sector + count` with its number of sectors, in 64 bits.  A transfer
whose end is at most that number is inside at all levels below.  A transfer whose end
wraps passes every comparison and leaves the partition.
-/

namespace Lumin.Block.Mbr

open Lumin.Lib

def BLOCK_NAME_MAX : Nat := 16
def BLOCK_MAX_DEVS : Nat := 16
def BLOCK_MAX_PARTS : Nat := 16

/-! ## Devices -/

/-- The fields that every `struct block_device` has. -/
structure Header where
  name : List UInt8
  sectorCount : Nat
  sectorSize : Nat
  registered : Bool

/-- `struct block_ops` of a disk; `none` is a `NULL` member. -/
structure Driver where
  read : Option (Nat → Nat → Mem → Int × Mem)
  write : Option (Nat → Nat → Mem → Int)

/-- `struct partition` without its parent and its device. -/
structure Partition where
  index : Nat
  type : UInt8
  bootable : Bool
  startLba : Nat
  sectorCount : Nat

/-- A device with those that its transfers go through. -/
inductive Device where
  | disk (h : Header) (drv : Driver)
  | part (h : Header) (p : Partition) (parent : Device)

def Device.header : Device → Header
  | .disk h _ => h
  | .part h _ _ => h

inductive Dir where
  | read
  | write
  deriving DecidableEq, Repr

/-- What a transfer comes to: its return value, the buffer after it, and the sectors and
counts that the drivers were called with, from the device down. -/
structure Outcome where
  code : Int
  buf : Mem
  calls : List (Nat × Nat)

/-- `return -1`. -/
def refused (buf : Mem) : Outcome := { code := -1, buf := buf, calls := [] }

/-- `dev->ops->read` or `dev->ops->write` of a disk. -/
def Driver.op (drv : Driver) : Dir → Option (Nat → Nat → Mem → Outcome)
  | .read => drv.read.map fun f sector count buf =>
    { code := (f sector count buf).1, buf := (f sector count buf).2, calls := [] }
  | .write => drv.write.map fun f sector count buf =>
    { code := f sector count buf, buf := buf, calls := [] }

/-- The outcome of a driver that was called with these arguments. -/
def Outcome.through (o : Outcome) (sector count : Nat) : Outcome :=
  { o with calls := (sector, count) :: o.calls }

/-- The checks of `block_read` and `block_write` around a driver. -/
def checked (h : Header) (op : Option (Nat → Nat → Mem → Outcome)) (sector count : Nat)
    (buf : Mem) : Outcome :=
  match op with
  | none => refused buf
  | some f =>
    if h.registered = false then refused buf
    else if u64 (sector + count) > h.sectorCount then refused buf
    else (f sector count buf).through sector count

/-- `part_read` and `part_write` over the transfer of the parent. -/
def partIo (p : Partition) (parent : Nat → Nat → Mem → Outcome) (sector count : Nat) (buf : Mem) :
    Outcome :=
  if u64 (sector + count) > p.sectorCount then refused buf
  else parent (u64 (p.startLba + sector)) count buf

def blockIo (dir : Dir) : Device → Nat → Nat → Mem → Outcome
  | .disk h drv => checked h (drv.op dir)
  | .part h p parent => checked h (some (partIo p (blockIo dir parent)))

def blockRead : Device → Nat → Nat → Mem → Outcome := blockIo .read

def blockWrite : Device → Nat → Nat → Mem → Outcome := blockIo .write

/-- The device has the member of `block_ops`. -/
def Device.hasOp (dir : Dir) : Device → Bool
  | .disk _ drv => (drv.op dir).isSome
  | .part _ _ _ => true

/-! ## The partition table -/

/-- The entry `i` of the MBR in `m`, unless it is skipped. -/
def parseEntry (dev : Device) (m : Mem) (i : Nat) : Option Partition :=
  let entry := 446 + 16 * i
  let lba := rdLE m (entry + 8) 4
  let cnt := rdLE m (entry + 12) 4
  let type := m (entry + 4)
  if type = 0 ∨ lba = 0 ∨ cnt = 0 then none
  else if lba + cnt > dev.header.sectorCount then none
  else
    some { index := i + 1, type := type, bootable := (m entry &&& 0x80) != 0, startLba := lba,
           sectorCount := cnt }

/-- The loop of `block_parse_mbr`, with `n` entries left. -/
def parseLoop (dev : Device) (m : Mem) (maxParts : Nat) : Nat → List Partition → List Partition
  | 0, parts => parts
  | n + 1, parts =>
    if parts.length < maxParts
      then parseLoop dev m maxParts n (parts ++ (parseEntry dev m (3 - n)).toList)
    else parts

/-- `block_parse_mbr`.  `mbrBuf` is what is on the stack. -/
def blockParseMbr (dev : Device) (mbrBuf : Mem) (maxParts : Nat) : Option (List Partition) :=
  if maxParts < 1 then none
  else
    let r := blockRead dev 0 1 mbrBuf
    if r.code ≠ 0 then none
    else if rdLE r.buf 510 2 ≠ 0xAA55 then none
    else some (parseLoop dev r.buf maxParts 4 [])

/-! ## Registration -/

/-- `devices` and the devices of `stored_parts`. -/
structure Layer where
  devices : List Device
  stored : List Device

/-- `dev->registered = 1`. -/
def Device.markRegistered : Device → Device
  | .disk h drv => .disk { h with registered := true } drv
  | .part h p parent => .part { h with registered := true } p parent

/-- `block_register`: the device after it, and the table. -/
def blockRegister (L : Layer) (dev : Device) : Option (Device × Layer) :=
  if L.devices.length ≥ BLOCK_MAX_DEVS then none
  else if dev.header.registered then none
  else if dev.hasOp .read = false then none
  else if dev.header.sectorSize = 0 then none
  else some (dev.markRegistered, { L with devices := L.devices ++ [dev.markRegistered] })

/-- The name of a partition. -/
def partName (name : List UInt8) (index : Nat) : List UInt8 :=
  name.take (BLOCK_NAME_MAX - 3) ++ [112, UInt8.ofNat (48 + index)]

/-- The device of a partition before it is registered. -/
def partDevice (dev : Device) (p : Partition) : Device :=
  .part
    { name := partName dev.header.name p.index, sectorCount := p.sectorCount,
      sectorSize := dev.header.sectorSize,
      registered := false } p dev

/-- The body of the loop of `block_register_partitions`. -/
def storePart (L : Layer) (dev : Device) (p : Partition) : Layer :=
  match blockRegister L (partDevice dev p) with
  | some (d, L') => { L' with stored := L'.stored ++ [d] }
  | none => { L with stored := L.stored ++ [partDevice dev p] }

def storeLoop (dev : Device) : Layer → List Partition → Layer
  | L, [] => L
  | L, p :: parts => if L.stored.length < BLOCK_MAX_PARTS
    then storeLoop dev (storePart L dev p) parts else L

/-- `block_register_partitions`. -/
def blockRegisterPartitions (L : Layer) (dev : Device) (mbrBuf : Mem) : Layer × Nat :=
  match blockParseMbr dev mbrBuf BLOCK_MAX_PARTS with
  | none => (L, 0)
  | some [] => (L, 0)
  | some parts => (storeLoop dev L parts, (storeLoop dev L parts).stored.length)

/-- The devices that `block_register_partitions` registers. -/
def registeredFrom (L : Layer) (dev : Device) (mbrBuf : Mem) : List Device :=
  (blockRegisterPartitions L dev mbrBuf).1.devices.drop L.devices.length

/-! ## Containment -/

/-- A transfer on a partition reaches its parent's driver with sectors of the partition
only, and fails if it ends beyond it. -/
def Contained (dir : Dir) (dev : Device) (sector count : Nat) (buf : Mem) : Prop :=
  match dev with
  | .disk _ _ => True
  | .part _ p _ =>
    (∀ call, (blockIo dir dev sector count buf).calls[1]? = some call →
      ∀ x, call.1 ≤ x → x < call.1 + call.2 → p.startLba ≤ x ∧ x < p.startLba + p.sectorCount) ∧
    (p.sectorCount < sector + count → (blockIo dir dev sector count buf).code = -1)

variable {dir : Dir} {dev parent q : Device} {h : Header} {p : Partition} {L : Layer}
  {buf mbrBuf : Mem}
  {sector count : Nat} {op : Nat → Nat → Mem → Outcome}

theorem checked_of_le (hreg : h.registered = true) (hle : u64 (sector + count) ≤ h.sectorCount) :
    checked h (some op) sector count buf = (op sector count buf).through sector count := by
  have hunreg : ¬ h.registered = false := by simp [hreg]
  exact (if_neg hunreg).trans (if_neg (by omega))

theorem checked_of_gt (hgt : h.sectorCount < u64 (sector + count)) :
    checked h (some op) sector count buf = refused buf := by
  by_cases hreg : h.registered = false
  · exact if_pos hreg
  · exact (if_neg hreg).trans (if_pos hgt)

theorem partIo_of_le {next : Nat → Nat → Mem → Outcome}
    (hle : u64 (sector + count) ≤ p.sectorCount) :
    partIo p next sector count buf = next (u64 (p.startLba + sector)) count buf :=
  if_neg (by omega)

/-- The driver of a device is called if the end, in 64 bits, is in the device. -/
theorem blockIo_calls (hreg : dev.header.registered = true) (hop : dev.hasOp dir = true)
    (hle : u64 (sector + count) ≤ dev.header.sectorCount) :
    (blockIo dir dev sector count buf).calls[0]? = some (sector, count) := by
  cases dev with
  | disk h drv =>
    obtain ⟨f, hf⟩ := Option.isSome_iff_exists.mp hop
    have hrun : blockIo dir (.disk h drv) sector count buf =
        (f sector count buf).through sector count := by
      rw [blockIo, hf]
      exact checked_of_le hreg hle
    rw [hrun]
    rfl
  | part h p parent =>
    have hrun : blockIo dir (.part h p parent) sector count buf =
        (partIo p (blockIo dir parent) sector count buf).through sector count :=
          checked_of_le hreg hle
    rw [hrun]
    rfl

/-- A driver is called with the sector and the count that the device was. -/
theorem blockIo_calls_eq {call : Nat × Nat}
    (hcall : (blockIo dir dev sector count buf).calls[0]? = some call) :
    call = (sector, count) := by
  have hchecked : ∀ (h : Header) (op : Option (Nat → Nat → Mem → Outcome)),
      (checked h op sector count buf).calls[0]? = some call → call = (sector, count) := by
    intro h op hcall
    unfold checked refused at hcall
    split at hcall
    · simp at hcall
    · split_ifs at hcall
      · simp at hcall
      · simp at hcall
      · simpa [Outcome.through, eq_comm] using hcall
  cases dev with
  | disk h drv => exact hchecked h _ hcall
  | part h p parent => exact hchecked h _ hcall

theorem blockIo_of_not_hasOp (hop : dev.hasOp dir = false) :
    blockIo dir dev sector count buf = refused buf := by
  cases dev with
  | disk h drv =>
    have hnone : drv.op dir = none := by simpa [Device.hasOp] using hop
    rw [blockIo, hnone]
    rfl
  | part h p parent => exact absurd hop (by simp [Device.hasOp])

/-- A transfer on a registered partition, when its end is at most `sector_count` in 64
bits, is one on the parent. -/
theorem blockIo_part (hreg : h.registered = true) (hcount : h.sectorCount = p.sectorCount)
    (hle : u64 (sector + count) ≤ p.sectorCount) :
    blockIo dir (.part h p parent) sector count buf =
      (blockIo dir parent (u64 (p.startLba + sector)) count buf).through sector count := by
  rw [blockIo, checked_of_le hreg (by omega), partIo_of_le hle]

/-- Otherwise it is refused. -/
theorem blockIo_part_of_gt (hcount : h.sectorCount = p.sectorCount)
    (hgt : p.sectorCount < u64 (sector + count)) :
    blockIo dir (.part h p parent) sector count buf = refused buf := by
  rw [blockIo]
  exact checked_of_gt (by omega)

/-- What `block_register_partitions` makes sure of when it registers a partition. -/
structure PartitionOf (dev q : Device) (h : Header) (p : Partition) : Prop where
  eq : q = .part h p dev
  registered : h.registered = true
  count : h.sectorCount = p.sectorCount
  inside : p.startLba + p.sectorCount ≤ dev.header.sectorCount
  start_lt : p.startLba < 2 ^ 32
  count_lt : p.sectorCount < 2 ^ 32
  parent_registered : dev.header.registered = true

/-- The end of the transfer wraps and comes to lie in the partition, and the parent has
the operation. -/
def WrapsInto (dir : Dir) (dev : Device) (sectorCount sector count : Nat) : Prop :=
  dev.hasOp dir = true ∧ 2 ^ 64 ≤ sector + count ∧ sector + count ≤ 2 ^ 64 + sectorCount

theorem PartitionOf.contained (hq : PartitionOf dev q h p) (hsector : sector < 2 ^ 64)
    (hcount : count < 256)
    (hwrap : ¬ WrapsInto dir dev p.sectorCount sector count) :
    Contained dir q sector count buf := by
  obtain ⟨rfl, hreg, heq, hinside, hstart, hlt, -⟩ := hq
  unfold Contained
  by_cases hle : u64 (sector + count) ≤ p.sectorCount
  · rw [blockIo_part hreg heq hle]
    unfold WrapsInto at hwrap
    by_cases hend : sector + count < 2 ^ 64
    · rw [u64_of_lt hend] at hle
      refine ⟨fun call hcall => ?_, fun hgt => absurd hgt (by omega)⟩
      -- Nothing wraps, and the parent is called with the sectors moved by `start_lba`.
      obtain rfl := blockIo_calls_eq (by simpa [Outcome.through] using hcall)
      rw [u64_of_lt (by omega)]
      intro x hlo hhi
      simp only at hlo hhi
      omega
    · -- The parent does not have the operation.
      have hsum : u64 (sector + count) = sector + count - 2 ^ 64 := by
        unfold u64
        omega
      have hop : dev.hasOp dir = false := by
        rw [← Bool.not_eq_true]
        intro hop
        exact hwrap ⟨hop, by omega, by omega⟩
      rw [blockIo_of_not_hasOp hop]
      exact ⟨fun call hcall => by simp [Outcome.through, refused] at hcall, fun _ => rfl⟩
  · rw [blockIo_part_of_gt heq (by omega)]
    exact ⟨fun call hcall => by simp [refused] at hcall, fun _ => rfl⟩

/-- A transfer that wraps reaches the driver of the parent outside of the partition. -/
theorem PartitionOf.not_contained (hq : PartitionOf dev q h p) (hsector : sector < 2 ^ 64)
    (hcount : count < 256)
    (hwrap : WrapsInto dir dev p.sectorCount sector count) :
    ¬ Contained dir q sector count buf := by
  obtain ⟨rfl, hreg, heq, hinside, hstart, hlt, hparent⟩ := hq
  obtain ⟨hop, hlo, hhi⟩ := hwrap
  have hsum : u64 (sector + count) = sector + count - 2 ^ 64 := by
    unfold u64
    omega
  rintro ⟨hcalls, -⟩
  rw [blockIo_part hreg heq (by omega)] at hcalls
  have hend : u64 (u64 (p.startLba + sector) + count) ≤ dev.header.sectorCount := by
    unfold u64
    omega
  have hreach : (blockIo dir dev (u64 (p.startLba + sector)) count buf).calls[0]? = some _ :=
    blockIo_calls hparent hop hend
  have hfirst := (hcalls _ (by simpa [Outcome.through] using hreach)) _ (le_refl _) (by
    simp only
    omega)
  simp only [u64] at hfirst
  omega

/-! ## What is registered -/

/-- An entry that is not skipped is inside the device. -/
theorem parseEntry_inside {m : Mem} {i : Nat} (hp : parseEntry dev m i = some p) :
    p.startLba + p.sectorCount ≤ dev.header.sectorCount ∧ p.startLba < 2 ^ 32 ∧
      p.sectorCount < 2 ^ 32 := by
  unfold parseEntry at hp
  dsimp only at hp
  split_ifs at hp with hskip hfit
  obtain rfl := Option.some.inj hp
  exact ⟨Nat.le_of_not_lt hfit, rdLE_lt _ _ _, rdLE_lt _ _ _⟩

theorem mem_parseLoop {m : Mem} {maxParts n : Nat} {parts : List Partition}
    (hp : p ∈ parseLoop dev m maxParts n parts) :
    p ∈ parts ∨ ∃ i, parseEntry dev m i = some p := by
  induction n generalizing parts with
  | zero => exact Or.inl hp
  | succ n ih =>
    rw [parseLoop] at hp
    split_ifs at hp with hroom
    · rcases ih hp with hmem | hentry
      · rcases List.mem_append.mp hmem with hold | hnew
        · exact Or.inl hold
        · exact Or.inr ⟨_, Option.mem_toList.mp hnew⟩
      · exact Or.inr hentry
    · exact Or.inl hp

/-- The parent of what an accepted MBR lists is registered. -/
theorem registered_of_code (hcode : (blockRead dev sector count buf).code = 0) :
    dev.header.registered = true := by
  have hchecked : ∀ (h : Header) (op : Option (Nat → Nat → Mem → Outcome)),
      (checked h op sector count buf).code = 0 → h.registered = true := by
    intro h op hcode
    by_contra hreg
    rw [Bool.not_eq_true] at hreg
    have hrefused : checked h op sector count buf = refused buf := by
      cases op with
      | none => rfl
      | some f => exact if_pos hreg
    rw [hrefused] at hcode
    exact absurd hcode (by simp [refused])
  cases dev with
  | disk h drv => exact hchecked h _ hcode
  | part h p parent => exact hchecked h _ hcode

theorem blockParseMbr_spec {maxParts : Nat} {parts : List Partition}
    (hparse : blockParseMbr dev mbrBuf maxParts = some parts) :
    dev.header.registered = true ∧ ∀ p ∈ parts, ∃ m i, parseEntry dev m i = some p := by
  unfold blockParseMbr at hparse
  dsimp only at hparse
  split_ifs at hparse with hmax hcode hsig
  obtain rfl := Option.some.inj hparse
  refine ⟨registered_of_code (not_not.mp hcode), fun p hp => ?_⟩
  rcases mem_parseLoop hp with hnil | ⟨i, hentry⟩
  · exact absurd hnil (List.not_mem_nil)
  · exact ⟨_, i, hentry⟩

/-- `storePart` registers the device of its partition, or none. -/
theorem storePart_devices (L : Layer) (dev : Device) (p : Partition) :
    (storePart L dev p).devices = L.devices ∨
      (storePart L dev p).devices = L.devices ++ [(partDevice dev p).markRegistered] := by
  unfold storePart blockRegister
  split_ifs
  · exact Or.inl rfl
  · exact Or.inl rfl
  · exact Or.inl rfl
  · exact Or.inl rfl
  · exact Or.inr rfl

theorem storeLoop_devices (dev : Device) (L : Layer) (parts : List Partition) :
    ∃ new, (storeLoop dev L parts).devices = L.devices ++ new ∧
      ∀ q ∈ new, ∃ p ∈ parts, q = (partDevice dev p).markRegistered := by
  induction parts generalizing L with
  | nil => exact ⟨[], (List.append_nil _).symm, fun q hq => absurd hq List.not_mem_nil⟩
  | cons p parts ih =>
    rw [storeLoop]
    split_ifs with hroom
    · obtain ⟨new, hnew, hmem⟩ := ih (storePart L dev p)
      have hrest : ∀ q ∈ new, ∃ p' ∈ p :: parts, q = (partDevice dev p').markRegistered := by
        intro q hq
        obtain ⟨p', hp', hq'⟩ := hmem q hq
        exact ⟨p', List.mem_cons_of_mem _ hp', hq'⟩
      rcases storePart_devices L dev p with hsame | hpush
      · exact ⟨new, by rw [hnew, hsame], hrest⟩
      · refine ⟨(partDevice dev p).markRegistered :: new,
          by rw [hnew, hpush, List.append_assoc]; rfl, ?_⟩
        intro q hq
        rcases List.mem_cons.mp hq with rfl | hq
        · exact ⟨p, List.mem_cons_self, rfl⟩
        · exact hrest q hq
    · exact ⟨[], (List.append_nil _).symm, fun q hq => absurd hq List.not_mem_nil⟩

theorem partitionOf_of_registered (hq : q ∈ registeredFrom L dev mbrBuf) :
    ∃ h p, PartitionOf dev q h p := by
  unfold registeredFrom blockRegisterPartitions at hq
  cases hparse : blockParseMbr dev mbrBuf BLOCK_MAX_PARTS with
  | none => simp [hparse] at hq
  | some parts =>
    obtain ⟨hreg, hentries⟩ := blockParseMbr_spec hparse
    obtain ⟨new, hnew, hmem⟩ := storeLoop_devices dev L parts
    have hq : q ∈ new := by
      cases parts with
      | nil => simp [hparse] at hq
      | cons p parts => simpa [hparse, hnew] using hq
    obtain ⟨p, hp, rfl⟩ := hmem q hq
    obtain ⟨m, i, hentry⟩ := hentries p hp
    obtain ⟨hinside, hstart, hcount⟩ := parseEntry_inside hentry
    exact ⟨_, p, rfl, rfl, rfl, hinside, hstart, hcount, hreg⟩

/-! ## The whole chain -/

/-- Each partition of the chain is inside its parent. -/
def Device.WellNested : Device → Prop
  | .disk h _ => h.sectorCount < 2 ^ 64
  | .part h p parent =>
    h.sectorCount = p.sectorCount ∧ p.startLba + p.sectorCount ≤ parent.header.sectorCount ∧
      parent.WellNested

/-- Where the sectors of the device are on each device of the chain. -/
def Device.offsets : Device → List Nat
  | .disk _ _ => [0]
  | .part _ p parent => 0 :: parent.offsets.map (p.startLba + ·)

/-- Registration keeps the chains nested. -/
theorem wellNested_of_registered (hdev : dev.WellNested) (hq : q ∈ registeredFrom L dev mbrBuf) :
    q.WellNested := by
  obtain ⟨h, p, rfl, -, hcount, hinside, -⟩ := partitionOf_of_registered hq
  exact ⟨hcount, hinside, hdev⟩

theorem Device.WellNested.lt (hdev : dev.WellNested) : dev.header.sectorCount < 2 ^ 64 := by
  induction dev with
  | disk h drv => exact hdev
  | part h p parent ih =>
    obtain ⟨hcount, hinside, hparent⟩ := hdev
    have hlt := ih hparent
    have heq : (Device.part h p parent).header.sectorCount = p.sectorCount := hcount
    omega

/-- A transfer that does not wrap is at its place in the device at each level that it
reaches, however deep. -/
theorem calls_of_wellNested (hdev : dev.WellNested) (hend : sector + count < 2 ^ 64) :
    (blockIo dir dev sector count buf).calls <+:
      dev.offsets.map fun o => (o + sector, count) := by
  induction dev generalizing sector with
  | disk h drv =>
    rw [blockIo]
    unfold checked
    split
    · exact List.nil_prefix
    · rename_i f hf
      split_ifs
      · exact List.nil_prefix
      · exact List.nil_prefix
      · have hnil : (f sector count buf).calls = [] := by
          cases dir with
          | read =>
            obtain ⟨g, -, rfl⟩ := Option.map_eq_some_iff.mp hf
            rfl
          | write =>
            obtain ⟨g, -, rfl⟩ := Option.map_eq_some_iff.mp hf
            rfl
        simp [Outcome.through, hnil, Device.offsets]
  | part h p parent ih =>
    obtain ⟨hcount, hinside, hparent⟩ := hdev
    have hlt := hparent.lt
    by_cases hreg : h.registered = true
    · by_cases hle : sector + count ≤ p.sectorCount
      · have hmoved := @ih (p.startLba + sector) hparent (by omega)
        rw [blockIo_part hreg hcount (by rw [u64_of_lt hend]; exact hle), u64_of_lt (by omega)]
        have htail : (parent.offsets.map (p.startLba + ·)).map (fun o => (o + sector, count)) =
            parent.offsets.map fun o => (o + (p.startLba + sector), count) := by
          rw [List.map_map]
          refine List.map_congr_left fun o _ => ?_
          simp only [Function.comp_apply, Prod.mk.injEq, and_true]
          omega
        rw [Device.offsets, List.map_cons, htail, Nat.zero_add]
        exact (List.prefix_cons_inj _).mpr hmoved
      · rw [blockIo_part_of_gt hcount (by rw [u64_of_lt hend]; omega)]
        exact List.nil_prefix
    · rw [blockIo, checked, if_pos (by simpa using hreg)]
      exact List.nil_prefix

/-! ## A partition is a disk -/

/-- The device shows the sectors of `d`, one at a time. -/
structure Shows (dev : Device) (d : Disk) : Prop where
  count : dev.header.sectorCount = d.sectorCount
  fails : ∀ s buf, s + 1 < 2 ^ 64 → Block.blockRead d s = none → (blockRead dev s 1 buf).code ≠ 0
  reads : ∀ s buf m, s + 1 < 2 ^ 64 → Block.blockRead d s = some m →
    (blockRead dev s 1 buf).code = 0 ∧ ∀ k < 512, (blockRead dev s 1 buf).buf k = m k

/-- The sectors of a disk from `start` on. -/
def window (d : Disk) (start count : Nat) : Disk where
  sectorCount := count
  readFails := fun s => d.readFails (start + s)
  writeFails := fun s => d.writeFails (start + s)
  data := fun s => d.data (start + s)

theorem blockRead_window {d : Disk} {start count s : Nat} (hs : s + 1 ≤ count)
    (hfit : start + count ≤ d.sectorCount) :
    Block.blockRead (window d start count) s = Block.blockRead d (start + s) := by
  unfold Block.blockRead window
  dsimp only
  have hlo : ¬ s + 1 > count := by omega
  have hhi : ¬ start + s + 1 > d.sectorCount := by omega
  simp only [hlo, hhi, false_or]

/-- A partition of a device that shows a disk shows a window of that disk. -/
theorem PartitionOf.shows {d : Disk} (hq : PartitionOf dev q h p) (hdev : Shows dev d) :
    Shows q (window d p.startLba p.sectorCount) := by
  obtain ⟨rfl, hreg, heq, hinside, hstart, hlt, -⟩ := hq
  rw [hdev.count] at hinside
  have hrun : ∀ s buf, s + 1 ≤ p.sectorCount → blockRead (.part h p dev) s 1 buf =
      (blockRead dev (p.startLba + s) 1 buf).through s 1 := by
    intro s buf hs
    rw [blockRead, blockIo_part hreg heq (by rw [u64_of_lt (by omega)]; exact hs),
      u64_of_lt (by omega)]
  refine ⟨heq, fun s buf hwrap hnone => ?_, fun s buf m hwrap hsome => ?_⟩
  · by_cases hs : s + 1 ≤ p.sectorCount
    · rw [blockRead_window hs hinside] at hnone
      rw [hrun s buf hs]
      exact hdev.fails _ buf (by omega) hnone
    · rw [blockRead, blockIo_part_of_gt heq (by rw [u64_of_lt hwrap]; omega)]
      simp [refused]
  · by_cases hs : s + 1 ≤ p.sectorCount
    · rw [blockRead_window hs hinside] at hsome
      rw [hrun s buf hs]
      exact hdev.reads _ buf m (by omega) hsome
    · have hnone : Block.blockRead (window d p.startLba p.sectorCount) s = none :=
        if_pos (Or.inl (by
        simp only [window]
        omega))
      rw [hnone] at hsome
      exact absurd hsome (Option.some_ne_none m).symm

/-! ## The partitions of an MBR -/

/-- A transfer on a registered partition stays inside it exactly if its end does not wrap
into the partition while the parent has the operation. -/
theorem contained_iff (hq : q ∈ registeredFrom L dev mbrBuf) (hsector : sector < 2 ^ 64)
    (hcount : count < 256) :
    Contained dir q sector count buf ↔ ¬ WrapsInto dir dev q.header.sectorCount sector count := by
  obtain ⟨h, p, hpart⟩ := partitionOf_of_registered hq
  have hheader : q.header.sectorCount = p.sectorCount := by
    rw [hpart.eq]
    exact hpart.count
  rw [hheader]
  constructor
  · intro hcontained hwrap
    exact hpart.not_contained hsector hcount hwrap hcontained
  · intro hwrap
    exact hpart.contained hsector hcount hwrap

/-- An MBR with one entry: 100 sectors from sector 63 on. -/
def oneEntry : Mem := fun i =>
  if i = 450 then 0x83 else if i = 454 then 63 else if i = 458 then 100
  else if i = 510 then 0x55 else if i = 511 then 0xAA else 0

/-- A disk with that MBR in each of its 2048 sectors. -/
def smallDisk : Device :=
  .disk { name := [104, 100, 97], sectorCount := 2048, sectorSize := 512, registered := true }
    { read := some fun _ _ _ => (0, oneEntry), write := some fun _ _ _ => 0 }

/-- Its partition. -/
def smallPart : Device :=
  .part { name := [104, 100, 97, 112, 49], sectorCount := 100, sectorSize := 512,
          registered := true }
    { index := 1, type := 0x83, bootable := false, startLba := 63, sectorCount := 100 } smallDisk

theorem registeredFrom_smallDisk :
    registeredFrom { devices := [], stored := [] } smallDisk (fun _ => 0) = [smallPart] := by
  rfl

theorem contained_iff_smallPart :
    smallPart ∈ registeredFrom { devices := [], stored := [] } smallDisk (fun _ => 0) ∧
    (Contained .read smallPart 99 1 (fun _ => 0) ↔
      ¬ WrapsInto .read smallDisk smallPart.header.sectorCount 99 1) := by
  have hmem :
      smallPart ∈ registeredFrom { devices := [], stored := [] } smallDisk (fun _ => 0) := by
    rw [registeredFrom_smallDisk]
    exact List.mem_singleton_self _
  exact ⟨hmem, contained_iff hmem (by decide) (by decide)⟩

/-- Two sectors from the last 64-bit one on: the end is 1, and the disk is read from
sector 62 on. -/
theorem lastSector_not_contained :
    smallPart ∈ registeredFrom { devices := [], stored := [] } smallDisk (fun _ => 0) ∧
      (blockRead smallPart (2 ^ 64 - 1) 2 (fun _ => 0)).calls[1]? = some (62, 2) ∧
      ¬ Contained .read smallPart (2 ^ 64 - 1) 2 (fun _ => 0) := by
  have hmem :
      smallPart ∈ registeredFrom { devices := [], stored := [] } smallDisk (fun _ => 0) := by
    rw [registeredFrom_smallDisk]
    exact List.mem_singleton_self _
  have hcall : (blockRead smallPart (2 ^ 64 - 1) 2 (fun _ => 0)).calls[1]? = some (62, 2) :=
    by decide
  refine ⟨hmem, hcall, fun hcontained => ?_⟩
  have := hcontained.1 _ hcall 62 (by decide) (by decide)
  exact absurd this.1 (by decide)

end Lumin.Block.Mbr
