import Mathlib.Tactic
import Lumin.Lib.Routes

/-!
# PCI enumeration

A model of `pci_create_device`, `pci_scan_bus` and `pci_scan` of `drivers/pci/pci.c`.  A bridge
is scanned as soon as it is found, and nothing records which buses were scanned.

`pci_scan_eq` says that the scan is the walk of `Lib/Routes` over the buses, and
`endsAndListsOnce_iff` on which topologies it ends and lists each function once.
-/

namespace Lumin.Drivers.Pci

open Lumin.Lib.Routes

/-- `PCI_MAX_DEVICES`. -/
def PCI_MAX_DEVICES : Nat := 64

/-! ## Configuration space -/

/-- What the data port answers for the word in the address port. -/
abbrev ConfigSpace := UInt32 → UInt32

/-- The address of a function. -/
structure Function where
  bus : UInt8
  slot : UInt8
  func : UInt8
deriving DecidableEq

/-- `pci_read32`. -/
def pci_read32 (c : ConfigSpace) (bus slot func offset : UInt8) : UInt32 :=
  c ((0x80000000 : UInt32) ||| bus.toUInt32 <<< 16 ||| slot.toUInt32 <<< 11 |||
    func.toUInt32 <<< 8 |||
    (offset &&& 0xFC).toUInt32)

def pci_read_vendor (c : ConfigSpace) (bus slot func : UInt8) : UInt16 :=
  (pci_read32 c bus slot func 0 &&& 0xFFFF).toUInt16

def pci_read_device (c : ConfigSpace) (bus slot func : UInt8) : UInt16 :=
  (pci_read32 c bus slot func 0 >>> 16 &&& 0xFFFF).toUInt16

def pci_read_header_type (c : ConfigSpace) (bus slot func : UInt8) : UInt8 :=
  (pci_read32 c bus slot func 0x0C >>> 16 &&& 0xFF).toUInt8

def pci_read_class (c : ConfigSpace) (bus slot func : UInt8) : UInt8 :=
  (pci_read32 c bus slot func 0x08 >>> 24 &&& 0xFF).toUInt8

def pci_read_subclass (c : ConfigSpace) (bus slot func : UInt8) : UInt8 :=
  (pci_read32 c bus slot func 0x08 >>> 16 &&& 0xFF).toUInt8

def pci_read_prog_if (c : ConfigSpace) (bus slot func : UInt8) : UInt8 :=
  (pci_read32 c bus slot func 0x08 >>> 8 &&& 0xFF).toUInt8

def pci_read_secondary_bus (c : ConfigSpace) (bus slot func : UInt8) : UInt8 :=
  (pci_read32 c bus slot func 0x18 >>> 8 &&& 0xFF).toUInt8

def pci_read_bar (c : ConfigSpace) (bus slot func : UInt8) (bar : Nat) : UInt32 :=
  pci_read32 c bus slot func (0x10 + bar * 4).toUInt8

def pci_read_irq (c : ConfigSpace) (bus slot func : UInt8) : UInt8 :=
  (pci_read32 c bus slot func 0x3C >>> 8 &&& 0xFF).toUInt8

/-! ## The scan -/

/-- `struct pci_device`. -/
structure PciDevice where
  bus : UInt8
  slot : UInt8
  func : UInt8
  vendor : UInt16
  device_id : UInt16
  class_code : UInt8
  subclass : UInt8
  prog_if : UInt8
  bar : List UInt32
  irq : UInt8

/-- `pci_devices`, as many as `pci_num_devices` says.  The code does not count the functions that
found no room. -/
structure DeviceTable where
  devices : List PciDevice
  dropped : Nat
  room : devices.length ≤ PCI_MAX_DEVICES

/-- Before the scan. -/
def DeviceTable.empty : DeviceTable := ⟨[], 0, Nat.zero_le _⟩

/-- `pci_create_device`. -/
def pci_create_device (c : ConfigSpace) (bus slot func : UInt8) (vendor device : UInt16)
    (class_code subclass prog_if : UInt8) (pci : DeviceTable) : DeviceTable :=
  if h : pci.devices.length ≥ PCI_MAX_DEVICES then { pci with dropped := pci.dropped + 1 }
  else
    { pci with
      devices := pci.devices ++
        [{ bus, slot, func, vendor, device_id := device, class_code, subclass, prog_if
           bar := (List.range 6).map (pci_read_bar c bus slot func)
           irq := pci_read_irq c bus slot func }]
      room := by rw [List.length_append, List.length_singleton]; omega }

/-- The numbers below `n`. -/
def bytes (n : Nat) : List UInt8 := (List.range n).map UInt8.ofNat

/-- A turn of the inner loop, behind the test of `vendor`. -/
def visit (c : ConfigSpace) (scan : UInt8 → DeviceTable → Option DeviceTable)
    (bus slot func : UInt8)
    (vendor : UInt16) (pci : DeviceTable) : Option DeviceTable :=
  let device := pci_read_device c bus slot func
  let class_code := pci_read_class c bus slot func
  let subclass := pci_read_subclass c bus slot func
  let prog_if := pci_read_prog_if c bus slot func
  let pci := pci_create_device c bus slot func vendor device class_code subclass prog_if pci
  if class_code = 0x06 ∧ subclass = 0x04 then scan (pci_read_secondary_bus c bus slot func) pci
    else some pci

/-- A turn of the inner loop; function 0 was read by the outer one. -/
def scanFunc (c : ConfigSpace) (scan : UInt8 → DeviceTable → Option DeviceTable)
    (bus slot : UInt8)
    (vendor : UInt16) (pci : DeviceTable) (func : UInt8) : Option DeviceTable :=
  if func > 0 then
    let vendor := pci_read_vendor c bus slot func
    if vendor = 0xFFFF then some pci else visit c scan bus slot func vendor pci
  else visit c scan bus slot func vendor pci

/-- The functions of a slot that are looked at. -/
def max_func (c : ConfigSpace) (bus slot : UInt8) : Nat :=
  if pci_read_header_type c bus slot 0 &&& 0x80 ≠ 0 then 8 else 1

/-- A turn of the outer loop. -/
def scanSlot (c : ConfigSpace) (scan : UInt8 → DeviceTable → Option DeviceTable) (bus : UInt8)
    (pci : DeviceTable) (slot : UInt8) : Option DeviceTable :=
  let vendor := pci_read_vendor c bus slot 0
  if vendor = 0xFFFF then some pci
    else (bytes (max_func c bus slot)).foldlM (scanFunc c scan bus slot vendor) pci

/-- `pci_scan_bus`, `none` when the calls go deeper than `fuel`. -/
def pci_scan_bus (c : ConfigSpace) : Nat → UInt8 → DeviceTable → Option DeviceTable
  | 0, _, _ => none
  | fuel + 1, bus, pci => (bytes 32).foldlM (scanSlot c (pci_scan_bus c fuel) bus) pci

/-- The buses that the scan starts from. -/
def max_bus (c : ConfigSpace) : Nat :=
  if pci_read_header_type c 0 0 0 &&& 0x80 ≠ 0 then 256 else 1

/-- `pci_scan`. -/
def pci_scan (c : ConfigSpace) (fuel : Nat) (pci : DeviceTable) : Option DeviceTable :=
  if pci_read_vendor c 0 0 0 = 0xFFFF then some pci
  else (bytes (max_bus c)).foldlM (fun pci bus => pci_scan_bus c fuel bus pci) pci

/-! ## The topology -/

/-- The functions of a slot that answer. -/
def slotFunctions (c : ConfigSpace) (bus slot : UInt8) : List Function :=
  if pci_read_vendor c bus slot 0 = 0xFFFF then []
  else
    ((bytes (max_func c bus slot)).filter fun func => func = 0 ∨
      pci_read_vendor c bus slot func ≠ 0xFFFF).map
      (⟨bus, slot, ·⟩)

/-- The functions of a bus. -/
def functions (c : ConfigSpace) (bus : UInt8) : List Function :=
  (bytes 32).flatMap (slotFunctions c bus)

/-- The bus behind a bridge. -/
def behindBridge (c : ConfigSpace) (f : Function) : Option UInt8 :=
  if pci_read_class c f.bus f.slot f.func = 0x06 ∧
    pci_read_subclass c f.bus f.slot f.func = 0x04 then
    some (pci_read_secondary_bus c f.bus f.slot f.func)
  else none

/-- The buses that the top-level loop scans. -/
def startBuses (c : ConfigSpace) : List UInt8 :=
  if pci_read_vendor c 0 0 0 = 0xFFFF then [] else bytes (max_bus c)

/-- `pci_create_device` with what the scan reads for a function. -/
def create (c : ConfigSpace) (pci : DeviceTable) (f : Function) : DeviceTable :=
  pci_create_device c f.bus f.slot f.func (pci_read_vendor c f.bus f.slot f.func)
    (pci_read_device c f.bus f.slot f.func) (pci_read_class c f.bus f.slot f.func)
    (pci_read_subclass c f.bus f.slot f.func) (pci_read_prog_if c f.bus f.slot f.func) pci

/-- The function at the end of a route is created. -/
def createLast (c : ConfigSpace) (pci : DeviceTable) : List Function → DeviceTable
  | [] => pci
  | f :: _ => create c pci f

variable {c : ConfigSpace} {bus slot : UInt8} {f : Function} {fuel : Nat} {pci : DeviceTable}

theorem nodup_bytes {n : Nat} (hn : n ≤ 256) : (bytes n).Nodup := by
  refine List.Nodup.map_on (fun i hi j hj h => ?_) List.nodup_range
  have hi' := List.mem_range.1 hi
  have hj' := List.mem_range.1 hj
  have heq := congrArg UInt8.toNat h
  simpa [Nat.mod_eq_of_lt (show i < 256 by omega),
    Nat.mod_eq_of_lt (show j < 256 by omega)] using heq

theorem slotFunctions_addr (h : f ∈ slotFunctions c bus slot) : f.bus = bus ∧ f.slot = slot := by
  unfold slotFunctions at h
  split at h
  · cases h
  · obtain ⟨func, -, rfl⟩ := List.mem_map.1 h
    exact ⟨rfl, rfl⟩

theorem functions_bus (h : f ∈ functions c bus) : f.bus = bus := by
  obtain ⟨slot, -, hf⟩ := List.mem_flatMap.1 h
  exact (slotFunctions_addr hf).1

theorem nodup_slotFunctions : (slotFunctions c bus slot).Nodup := by
  have hmax : max_func c bus slot ≤ 256 := by
    unfold max_func
    split <;> omega
  unfold slotFunctions
  split
  · exact List.nodup_nil
  · refine ((nodup_bytes hmax).filter _).map fun x y h => ?_
    exact congrArg Function.func h

theorem nodup_functions : (functions c bus).Nodup := by
  refine List.nodup_flatMap.2 ⟨fun slot _ => nodup_slotFunctions, ?_⟩
  refine (nodup_bytes (show 32 ≤ 256 by omega)).imp fun hne f hf hf' => hne ?_
  exact (slotFunctions_addr hf).2.symm.trans (slotFunctions_addr hf').2

/-! ## The scan is a walk -/

/-- What the scan does with a function. -/
theorem visit_eq {scan : UInt8 → DeviceTable → Option DeviceTable} :
    visit c scan f.bus f.slot f.func (pci_read_vendor c f.bus f.slot f.func) pci =
      (behindBridge c f).elim (some (create c pci f)) fun b => scan b (create c pci f) := by
  simp only [visit, behindBridge, create]
  split <;> rfl

theorem scanSlot_eq {scan : UInt8 → DeviceTable → Option DeviceTable} :
    scanSlot c scan bus pci slot =
      (slotFunctions c bus slot).foldlM
        (fun pci f => (behindBridge c f).elim (some (create c pci f)) fun b =>
          scan b (create c pci f)) pci := by
  unfold scanSlot slotFunctions
  by_cases hv : pci_read_vendor c bus slot 0 = 0xFFFF
  · simp [hv]
  · simp only [hv, if_false, List.foldlM_map, List.foldlM_filter]
    congr 1
    funext pci func
    rw [← visit_eq]
    by_cases h0 : func = 0
    · subst h0
      simp [scanFunc]
    · have hpos : func > 0 := UInt8.pos_iff_ne_zero.2 h0
      by_cases hf : pci_read_vendor c bus slot func = 0xFFFF
      · simp [scanFunc, hpos, h0, hf]
      · simp [scanFunc, hpos, hf]

/-- One bus: what the walk lists is created in its order. -/
theorem pci_scan_bus_eq (p : List Function) :
    pci_scan_bus c fuel bus pci =
      (walk (functions c) (behindBridge c) fuel p bus).map fun rs =>
        rs.foldl (createLast c) pci := by
  induction fuel generalizing bus pci p with
  | zero => rfl
  | succ fuel ih =>
    unfold pci_scan_bus walk
    have hslot : scanSlot c (pci_scan_bus c fuel) bus = fun pci slot => _ :=
      funext fun pci => funext fun slot => scanSlot_eq
    rw [hslot, ← foldlM_flatMap]
    apply foldlM_eq_gather
    intro pci f _
    unfold behind
    cases hb : behindBridge c f with
    | none => rfl
    | some b =>
      simp only [Option.elim_some, ih (f :: p), Option.map_map]
      rfl

/-- **The scan creates what the walk lists.** -/
theorem pci_scan_eq :
    pci_scan c fuel pci =
      (walkAll (functions c) (behindBridge c) fuel (startBuses c)).map fun rs =>
        rs.foldl (createLast c) pci := by
  unfold pci_scan startBuses
  split
  · rfl
  · unfold walkAll
    apply foldlM_eq_gather
    exact fun pci bus _ => pci_scan_bus_eq []

/-! ## What is listed -/

/-- The function of a device. -/
def PciDevice.function (d : PciDevice) : Function := ⟨d.bus, d.slot, d.func⟩

/-- The table behind the functions `fs`. -/
structure Filled (fs : List Function) (pci : DeviceTable) : Prop where
  devices : pci.devices.map PciDevice.function = fs.take PCI_MAX_DEVICES
  dropped : pci.dropped = fs.length - PCI_MAX_DEVICES

variable {fs : List Function} {rs : List (List Function)}

theorem filled_empty : Filled [] DeviceTable.empty := ⟨rfl, rfl⟩

theorem Filled.create (h : Filled fs pci) : Filled (fs ++ [f]) (create c pci f) := by
  have hlen : pci.devices.length = min PCI_MAX_DEVICES fs.length := by
    rw [← List.length_take, ← h.devices, List.length_map]
  unfold Pci.create pci_create_device
  split
  case isTrue hfull =>
    have hfs : PCI_MAX_DEVICES ≤ fs.length := by omega
    refine ⟨?_, ?_⟩
    · rw [h.devices, List.take_append_of_le_length hfs]
    · have hdrop := h.dropped
      rw [List.length_append, List.length_singleton]
      simp only
      omega
  case isFalse hroom =>
    have hfs : fs.length < PCI_MAX_DEVICES := by omega
    refine ⟨?_, ?_⟩
    · rw [List.map_append, h.devices, List.take_of_length_le hfs.le, List.take_of_length_le]
      · rfl
      · rw [List.length_append, List.length_singleton]
        omega
    · have hdrop := h.dropped
      rw [List.length_append, List.length_singleton]
      simp only
      omega

theorem Filled.createAll (h : Filled fs pci) :
    Filled (fs ++ rs.filterMap List.head?) (rs.foldl (createLast c) pci) := by
  induction rs generalizing fs pci with
  | nil => simpa using h
  | cons r rs ih =>
    cases r with
    | nil => exact ih h
    | cons f p => simpa [createLast] using ih (h.create (c := c) (f := f))

/-- The scan ends, and no function is twice in `pci_devices` when all of them found room. -/
def EndsAndListsOnce (c : ConfigSpace) : Prop :=
  ∃ fuel pci, pci_scan c fuel .empty = some pci ∧
      (pci.dropped = 0 → (pci.devices.map PciDevice.function).Nodup)

/-- A bridge on `bus` leads to `b`. -/
def Bridge (c : ConfigSpace) (bus b : UInt8) : Prop := Edge (functions c) (behindBridge c) bus b

/-- No bus that the scan comes to is behind itself. -/
def NoBridgeCycle (c : ConfigSpace) : Prop :=
  ∀ s ∈ startBuses c, ∀ bus, Relation.ReflTransGen (Bridge c) s bus →
      ¬ Relation.TransGen (Bridge c) bus bus

/-- The ways from a start bus through bridges to a function. -/
def routes (c : ConfigSpace) : Set (List Function) :=
  {r | IsRoute (functions c) (behindBridge c) (startBuses c) r}

/-- No bus with functions is both a start bus and behind a bridge, or behind two bridges. -/
def EnteredOnce (c : ConfigSpace) : Prop :=
  ∀ bus, functions c bus ≠ [] →
      ∀ e e', Enters (functions c) (behindBridge c) (startBuses c) e bus →
    Enters (functions c) (behindBridge c) (startBuses c) e' bus → e = e'

theorem nodup_startBuses : (startBuses c).Nodup := by
  have hmax : max_bus c ≤ 256 := by
    unfold max_bus
    split <;> omega
  unfold startBuses
  split
  · exact List.nodup_nil
  · exact nodup_bytes hmax

theorem functions_home (bus b : UInt8) (f : Function) (h : f ∈ functions c bus)
    (h' : f ∈ functions c b) : bus = b :=
  (functions_bus h).symm.trans (functions_bus h')

/-- The table behind a scan that ends. -/
theorem scan_table (h : walkAll (functions c) (behindBridge c) fuel (startBuses c) = some rs) :
    ((rs.foldl (createLast c) .empty).dropped = 0 ↔ (routes c).encard ≤ PCI_MAX_DEVICES) ∧
      ((rs.foldl (createLast c) .empty).dropped = 0 →
        (((rs.foldl (createLast c) .empty).devices.map PciDevice.function).Nodup ↔
          EnteredOnce c)) := by
  have hnodup :
      rs.Nodup := nodup_walkAll (fun _ => nodup_functions) functions_home nodup_startBuses h
  have hfill : Filled (rs.filterMap List.head?) (rs.foldl (createLast c) .empty) := by
    have hall : Filled ([] ++ rs.filterMap List.head?) (rs.foldl (createLast c) .empty) :=
      filled_empty.createAll
    exact hall
  have hlen : (rs.filterMap List.head?).length = rs.length := by
    refine List.filterMap_length_eq_length.2 fun r hr => ?_
    exact List.isSome_head?.2 (ne_nil_of_walkAll h hr)
  have hfit : (rs.foldl (createLast c) .empty).dropped = 0 ↔ rs.length ≤ PCI_MAX_DEVICES := by
    rw [hfill.dropped, hlen]
    omega
  refine ⟨?_, fun hdrop => ?_⟩
  · rw [hfit, routes, encard_routes h hnodup]
    exact Nat.cast_le.symm
  · have hroom := hfit.1 hdrop
    rw [hfill.devices, List.take_of_length_le (by omega), nodup_heads_iff hnodup]
    simp only [mem_walkAll h]
    exact leads_unique_iff functions_home

/-- The scan ends exactly when no bus that it comes to is behind itself. -/
theorem scan_ends_iff : (∃ fuel pci, pci_scan c fuel .empty = some pci) ↔ NoBridgeCycle c := by
  have : Finite UInt8 := Finite.of_injective UInt8.toFin fun _ _ h => UInt8.toFin_inj.1 h
  have hends : (∃ fuel rs, walkAll (functions c) (behindBridge c) fuel (startBuses c) = some rs) ↔
      NoBridgeCycle c :=
    walkAll_ends_iff
  refine Iff.trans ?_ hends
  simp only [pci_scan_eq, Option.map_eq_some_iff]
  constructor
  · rintro ⟨fuel, -, rs, hrs, -⟩
    exact ⟨fuel, rs, hrs⟩
  · rintro ⟨fuel, rs, hrs⟩
    exact ⟨fuel, _, rs, hrs, rfl⟩

/-- **Enumeration ends and lists each function once exactly when no bus that it comes to is behind
itself and, as far as the table has room, no bus with functions is entered in two ways.** -/
theorem endsAndListsOnce_iff (c : ConfigSpace) :
    EndsAndListsOnce c ↔
      NoBridgeCycle c ∧ ((routes c).encard ≤ PCI_MAX_DEVICES → EnteredOnce c) := by
  constructor
  · rintro ⟨fuel, pci, hscan, honce⟩
    refine ⟨scan_ends_iff.1 ⟨fuel, pci, hscan⟩, fun hfit => ?_⟩
    rw [pci_scan_eq] at hscan
    obtain ⟨rs, hrs, rfl⟩ := Option.map_eq_some_iff.1 hscan
    obtain ⟨hroom, hlist⟩ := scan_table hrs
    have hdrop := hroom.2 hfit
    exact (hlist hdrop).1 (honce hdrop)
  · rintro ⟨hcycle, hentered⟩
    obtain ⟨fuel, pci, hscan⟩ := scan_ends_iff.2 hcycle
    refine ⟨fuel, pci, hscan, fun hdrop => ?_⟩
    rw [pci_scan_eq] at hscan
    obtain ⟨rs, hrs, rfl⟩ := Option.map_eq_some_iff.1 hscan
    obtain ⟨hroom, hlist⟩ := scan_table hrs
    exact (hlist hdrop).2 (hentered (hroom.1 hdrop))

/-- A host bridge at 00:00.0 and a bridge at 00:01.0 whose secondary bus is still 0. -/
def unconfiguredBridge : ConfigSpace := fun address =>
  if address = 0x80000000 then 0x12378086
  else if address = 0x80000008 then 0x06000000
  else if address = 0x8000000C then 0
  else if address = 0x80000800 then 0x00011B36
  else if address = 0x80000808 then 0x06040000
  else if address = 0x8000080C then 0x00010000
  else if address = 0x80000818 then 0
  else 0xFFFFFFFF

theorem unconfigured_never_ends : ¬ EndsAndListsOnce unconfiguredBridge := by
  rintro ⟨fuel, pci, hscan, -⟩
  have hmem : (⟨0, 1, 0⟩ : Function) ∈ functions unconfiguredBridge 0 :=
    List.mem_flatMap.2 ⟨1, by decide, by decide⟩
  have hself : Bridge unconfiguredBridge 0 0 := ⟨⟨0, 1, 0⟩, hmem, by decide⟩
  have hstart : (0 : UInt8) ∈ startBuses unconfiguredBridge := by decide
  exact scan_ends_iff.1 ⟨fuel, pci, hscan⟩ 0 hstart 0 .refl (.single hself)

/-- Behind a multi-function host bridge every bus is a start bus, and each function on the bus
behind a bridge is found twice. -/
theorem not_enteredOnce_of_multi {b : UInt8} (hhost : pci_read_vendor c 0 0 0 ≠ 0xFFFF)
    (hmulti : pci_read_header_type c 0 0 0 &&& 0x80 ≠ 0) (hbus : f ∈ functions c bus)
    (hf : behindBridge c f = some b)
    (hfun : functions c b ≠ []) : ¬ EnteredOnce c := by
  have hall : ∀ x : UInt8, x ∈ startBuses c := by
    intro x
    rw [startBuses, if_neg hhost, max_bus, if_pos hmulti]
    refine List.mem_map.2 ⟨x.toNat, List.mem_range.2 x.toNat_lt, by simp⟩
  intro honce
  have hnone : Enters (functions c) (behindBridge c) (startBuses c) none b :=
    ⟨[], .start b (hall b), rfl⟩
  have hsome : Enters (functions c) (behindBridge c) (startBuses c) (some f) b :=
    ⟨[f], .item [] bus b f (.start bus (hall bus)) hbus hf, rfl⟩
  cases honce b hfun none (some f) hnone hsome

end Lumin.Drivers.Pci
