import Lumin.Lib.Memory
import Lumin.Mm.Pmm

/-!
# Page tables

A model of `kernel/mm/vmm.c` on physical memory.  The kernel runs with low memory
mapped to itself, so that a pointer is a physical address.  `Machine` is the memory
with the page allocator.  A free frame keeps the link of its list in its first word:
`freeFrame` stores it, and the lists themselves are those of `Pmm`.  A page-table entry
is a 64-bit word, and `NULL` is `0`.
-/

namespace Lumin.Mm

open Lumin.Lib

def PAGE_SIZE : Nat := 0x1000
def PAGE_TABLE_ENTRIES : Nat := 512

def PAGE_PRESENT : Nat := 1
def PAGE_WRITE : Nat := 2
def PAGE_USER : Nat := 4
def PAGE_HUGE : Nat := 0x80

def PAGE_TABLE_FLAGS : Nat := PAGE_PRESENT ||| PAGE_WRITE

/-- Physical memory and the page allocator. -/
structure Machine where
  mem : Mem
  pmm : Pmm

/-- Store a 64-bit word. -/
def Machine.store (m : Machine) (addr v : Nat) : Machine := { m with mem := wrLE m.mem addr 8 v }

/-! ## The allocator on memory -/

/-- `pmm_alloc`. -/
def allocFrame (m : Machine) : Nat × Machine :=
  let (page, pmm) := pmmAlloc m.pmm
  (page, { m with pmm := pmm })

/-- `page_free_internal`: the frame is linked in front of its list. -/
def linkFrame (m : Machine) (addr : Nat) : Machine where
  mem := wrLE m.mem addr 8 ((m.pmm.free (zoneOf addr)).headD 0)
  pmm := pageFreeInternal m.pmm addr

/-- `pmm_free`. -/
def freeFrame (m : Machine) (page : Nat) : Machine := if page = 0 then m else linkFrame m page

/-- `pmm_free_pages`. -/
def freeFrames (m : Machine) (addr n : Nat) : Machine :=
  if addr = 0 then m
  else (List.range n).foldl (fun m i => linkFrame m (u64 (addr + i * 0x1000))) m

/-- The loop of `pmm_alloc_pages`, as `allocRest` with the memory. -/
def allocRestOn (highest : Nat) : (left i : Nat) → Machine → Bool × Machine
  | 0, _, m => (true, m)
  | left + 1, i, m =>
    let (page, m) := allocFrame m
    if page = 0 then
      (false, (List.range i).foldl (fun m j => linkFrame m (sub64 highest (j * 0x1000))) m)
    else allocRestOn highest left (i + 1) m

/-- `pmm_alloc_pages`. -/
def allocFrames (m : Machine) (n : Nat) : Nat × Machine :=
  if n = 0 then (0, m)
  else
    let (highest, m) := allocFrame m
    if highest = 0 then (0, m)
    else
      let m := { m with pmm := { m.pmm with freePagesTotal := sub64 m.pmm.freePagesTotal (n -
          1) } }
      match allocRestOn highest (n - 1) 1 m with
      | (true, m) => (sub64 highest ((n - 1) * 0x1000), m)
      | (false, m) =>
        (0, { m with pmm := { m.pmm with freePagesTotal := u64 (m.pmm.freePagesTotal +
          (n - 1)) } })

/-! ## Entries -/

/-- Clear `n` bytes. -/
def zeroFill (mem : Mem) (a n : Nat) : Mem := fun x => if a ≤ x ∧ x < a + n then 0 else mem x

/-- The loop `dst[i] = src[i]` over `n` words. -/
def copyWords (mem : Mem) (dst src n : Nat) : Mem :=
  (List.range n).foldl (fun mem i => wrLE mem (dst + 8 * i) 8 (rdLE mem (src + 8 * i) 8)) mem

/-- `table[idx]`. -/
def entryAt (mem : Mem) (table idx : Nat) : Nat := rdLE mem (table + 8 * idx) 8

/-- `e & PAGE_PRESENT`. -/
def isPresent (e : Nat) : Bool := e % 2 = 1

/-- `e & PAGE_HUGE`. -/
def isHuge (e : Nat) : Bool := e / 0x80 % 2 = 1

/-- `(virt >> shift) & 0x1FF` with the shift of `level`, where the PML4 has level 0. -/
def tableIdx (level virt : Nat) : Nat := virt / 2 ^ (39 - level * 9) % 512

/-- `vmm_create_pml4` with the value of CR3: the low slot and the upper half are
shared. -/
def vmmCreatePml4 (m : Machine) (cr3 : Nat) : Nat × Machine :=
  let (page, m) := allocFrame m
  if page = 0 then (0, m)
  else
    let mem := copyWords m.mem page cr3 PAGE_TABLE_ENTRIES
    (page, { m with mem := zeroFill mem (page + 8) (8 * 255) })

def walkOrCreate (m : Machine) (table level virt entryFlags : Nat) : Nat × Machine :=
  let idx := tableIdx level virt
  let e := entryAt m.mem table idx
  if isPresent e then
    if isHuge e ∧ level < 3 then (0, m) else (pageDown e, m)
  else
    let (page, m) := allocFrame m
    if page = 0 then (0, m)
    else
      let m := { m with mem := zeroFill m.mem page (8 * PAGE_TABLE_ENTRIES) }
      (page, m.store (table + 8 * idx) (page ||| entryFlags ||| PAGE_PRESENT))

/-- The flags that the tables on the way to a leaf get. -/
def tableFlags (leafFlags : Nat) : Nat :=
  if leafFlags &&& PAGE_USER ≠ 0 then PAGE_TABLE_FLAGS ||| PAGE_USER else PAGE_TABLE_FLAGS

def vmmMapPage (m : Machine) (pml4 virt phys leafFlags : Nat) : Int × Machine :=
  let flags := tableFlags leafFlags
  let (pdpt, m) := walkOrCreate m pml4 0 virt flags
  if pdpt = 0 then (-1, m)
  else
    let (pd, m) := walkOrCreate m pdpt 1 virt flags
    if pd = 0 then (-1, m)
    else
      let (pt, m) := walkOrCreate m pd 2 virt flags
      if pt = 0 then (-1, m)
      else
        let idx := tableIdx 3 virt
        if isPresent (entryAt m.mem pt idx) then (-1, m)
        else (0, m.store (pt + 8 * idx) (phys ||| leafFlags ||| PAGE_PRESENT))

end Lumin.Mm
