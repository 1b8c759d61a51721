import Lumin.Lib.Transition
import Lumin.Lib.Word

/-!
# The physical page allocator

A model of `kernel/mm/pmm.c`.  A frame is its 64-bit address.  The three free
lists are Lean lists with the head of the C list first.  The address `0` is
`NULL`.  The lock is left out: every public function takes it on entry and
gives it back on exit, so the functions run one after the other.
-/

namespace Lumin.Mm

open Lumin.Lib

def MIN_ADDR : Nat := 0x200000
def DMA_ZONE_LIMIT : Nat := 0x1000000
def DMA32_ZONE_LIMIT : Nat := 0x100000000
def E820_AVAILABLE : Nat := 1

/-- The zones, each with its free list. -/
inductive Zone where
  | dma | dma32 | normal
  deriving DecidableEq, Repr

/-- The three free lists and `free_pages_total`. -/
structure Pmm where
  free : Zone → List Nat
  freePagesTotal : Nat

/-- `struct e820_entry`. -/
structure E820Entry where
  base : Nat
  length : Nat
  type : Nat
  deriving DecidableEq, Repr

/-! ## The lists -/

/-- The list that `page_free_internal` picks. -/
def zoneOf (addr : Nat) : Zone :=
  if addr < DMA32_ZONE_LIMIT then
    if addr < DMA_ZONE_LIMIT then .dma else .dma32
  else .normal

/-- `page_free_internal`. -/
def pageFreeInternal (s : Pmm) (addr : Nat) : Pmm where
  free := Function.update s.free (zoneOf addr) (addr :: s.free (zoneOf addr))
  freePagesTotal := u64 (s.freePagesTotal + 1)

/-- `zone_alloc` on the list of a zone. -/
def zoneAlloc (s : Pmm) (z : Zone) : Nat × Pmm :=
  match s.free z with
  | [] => (0, s)
  | p :: ps =>
    (p, { free := Function.update s.free z ps, freePagesTotal := sub64 s.freePagesTotal 1 })

/-- The search through the zones that `pmm_alloc` and `pmm_alloc_pages` share:
the normal list first, then the lists below it. -/
def zoneAllocAny (s : Pmm) : Nat × Pmm :=
  let (p, s) := zoneAlloc s .normal
  if p ≠ 0 then (p, s)
  else
    let (p, s) := zoneAlloc s .dma32
    if p ≠ 0 then (p, s) else zoneAlloc s .dma

/-! ## Initialisation -/

/-- Round down to a page, `x & ~0xFFFULL`. -/
def pageDown (x : Nat) : Nat := x / 0x1000 * 0x1000

/-- `add_range`. -/
def addRange (s : Pmm) (start stop : Nat) : Pmm :=
  let start := pageDown (u64 (start + 0xFFF))
  let stop := pageDown stop
  (List.range ((stop - start) / 0x1000)).foldl
    (fun s i => pageFreeInternal s (start + i * 0x1000)) s

/-- One round of the loop of `pmm_init`. -/
def addEntry (s : Pmm) (e : E820Entry) : Pmm :=
  if e.type ≠ E820_AVAILABLE then s
  else
    let stop := u64 (e.base + e.length)
    if stop ≤ MIN_ADDR then s
    else addRange s (if e.base < MIN_ADDR then MIN_ADDR else e.base) stop

def emptyPmm : Pmm := { free := fun _ => [], freePagesTotal := 0 }

/-- `pmm_init` on the table the boot loader left. -/
def pmmInit (table : List E820Entry) : Pmm :=
  if table.length = 0 ∨ table.length > 100 then addRange emptyPmm MIN_ADDR 0x400000
  else
    let s := table.foldl addEntry emptyPmm
    if s.freePagesTotal = 0 then addRange s MIN_ADDR 0x400000 else s

/-! ## The public functions -/

def pmmAlloc (s : Pmm) : Nat × Pmm := zoneAllocAny s

def pmmAllocDma (s : Pmm) : Nat × Pmm := zoneAlloc s .dma

/-- `pmm_free`. -/
def pmmFree (s : Pmm) (page : Nat) : Pmm :=
  if page = 0 then s else pageFreeInternal s page

/-- The undo loop of `pmm_alloc_pages`: it gives back `i` frames from `highest`
downwards. -/
def freeDown (s : Pmm) (highest i : Nat) : Pmm :=
  (List.range i).foldl (fun s j => pageFreeInternal s (sub64 highest (j * 0x1000))) s

/-- The loop of `pmm_alloc_pages` with `left` frames to go and `i` frames taken.
The flag tells whether all were found. -/
def allocRest (highest : Nat) : (left i : Nat) → Pmm → Bool × Pmm
  | 0, _, s => (true, s)
  | left + 1, i, s =>
    let (page, s) := zoneAllocAny s
    if page = 0 then (false, freeDown s highest i)
    else allocRest highest left (i + 1) s

/-- `pmm_alloc_pages`. -/
def pmmAllocPages (s : Pmm) (n : Nat) : Nat × Pmm :=
  if n = 0 then (0, s)
  else
    let (highest, s) := zoneAllocAny s
    if highest = 0 then (0, s)
    else
      let s := { s with freePagesTotal := sub64 s.freePagesTotal (n - 1) }
      match allocRest highest (n - 1) 1 s with
      | (true, s) => (sub64 highest ((n - 1) * 0x1000), s)
      | (false, s) => (0, { s with freePagesTotal := u64 (s.freePagesTotal + (n - 1)) })

/-- `pmm_free_pages`. -/
def pmmFreePages (s : Pmm) (addr n : Nat) : Pmm :=
  if addr = 0 then s
  else (List.range n).foldl (fun s i => pageFreeInternal s (u64 (addr + i * 0x1000))) s

/-! ## Callers -/

/-- The allocator and the frames its callers hold.  An element `(c, f)` of
`held` says that caller `c` holds frame `f`. -/
structure PmmWorld where
  pmm : Pmm
  held : List (Nat × Nat)

/-- A call of the allocator by caller `c`. -/
inductive PmmOp where
  | alloc (c : Nat)
  | allocDma (c : Nat)
  | allocPages (c n : Nat)
  | free (c page : Nat)
  | freePages (c addr n : Nat)
  deriving DecidableEq, Repr

/-- The `n` frames from `addr` upwards. -/
def framesFrom (addr n : Nat) : List Nat :=
  (List.range n).map fun i => u64 (addr + i * 0x1000)

/-- Take the frames back from caller `c`.  `none` when `c` does not hold one of
them. -/
def giveBack (c : Nat) : List Nat → List (Nat × Nat) → Option (List (Nat × Nat))
  | [], held => some held
  | f :: fs, held => if (c, f) ∈ held then giveBack c fs (held.erase (c, f)) else none

/-- One call.  `none` is a call that frees a frame its caller does not hold,
which the callers are assumed not to make. -/
def pmmStep (w : PmmWorld) : PmmOp → Option PmmWorld
  | .alloc c =>
    let (p, s) := pmmAlloc w.pmm
    some { pmm := s, held := if p = 0 then w.held else (c, p) :: w.held }
  | .allocDma c =>
    let (p, s) := pmmAllocDma w.pmm
    some { pmm := s, held := if p = 0 then w.held else (c, p) :: w.held }
  | .allocPages c n =>
    let (p, s) := pmmAllocPages w.pmm n
    some { pmm := s
           held := if p = 0 then w.held else (framesFrom p n).map (fun f => (c, f)) ++ w.held }
  | .free c page =>
    if page = 0 then some w
    else (giveBack c [page] w.held).map fun held => { pmm := pmmFree w.pmm page, held := held }
  | .freePages c addr n =>
    if addr = 0 then some w
    else (giveBack c (framesFrom addr n) w.held).map fun held =>
      { pmm := pmmFreePages w.pmm addr n, held := held }

end Lumin.Mm
