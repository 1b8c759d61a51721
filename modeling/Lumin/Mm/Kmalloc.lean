import Lumin.Lib.Transition
import Lumin.Lib.Word

/-!
# The kernel heap

A model of `kernel/mm/kmalloc.c`.  The heap is the list of its block headers in
list order, which is the order in which `heap_add_pages` appended them, not
address order.  The pages that `pmm_alloc` returns are inputs of the operations, and
`0` is `NULL`.

A size near `2 ^ 64` wraps to a request for 0 or 16 bytes, less than a header.  A
split after 16 bytes puts the magic of the new header where `cur->free` is, and
`cur->free = 0` then clears a byte of it.  A split after 0 bytes makes the new
header of the old one: its next pointer leads to itself, and no walk over the list
ends any more (`HeapWorld.circle`).
-/

namespace Lumin.Mm

open Lumin.Lib

/-- `sizeof(struct heap_block)`. -/
def HEADER : Nat := 24

/-- `struct heap_block` together with its address.  The `next` pointer is the
position in the list, and `magic` says that the magic is `HEAP_MAGIC`. -/
structure HeapBlock where
  addr : Nat
  size : Nat
  free : Bool
  magic : Bool := true
  deriving DecidableEq, Repr

/-- The block that `heap_add_pages` puts at the end of the list. -/
def pageBlock (page : Nat) : HeapBlock := { addr := page, size := 0x1000, free := true }

def heapAddPages (heap : List HeapBlock) (page : Nat) : List HeapBlock :=
  heap ++ [pageBlock page]

/-- `heap_coalesce` from `cur` on: a free block absorbs the free blocks that
follow it in the list, whatever their addresses are. -/
def coalesceFrom (cur : HeapBlock) : List HeapBlock → List HeapBlock
  | [] => [cur]
  | next :: rest =>
    if cur.free ∧ next.free then
      coalesceFrom { cur with size := u32 (cur.size + next.size) } rest
    else cur :: coalesceFrom next rest

def heapCoalesce : List HeapBlock → List HeapBlock
  | [] => []
  | root :: rest => coalesceFrom root rest

/-- The bytes a request needs, header included, rounded up to `HEAP_ALIGN`. -/
def neededBytes (size : Nat) : Nat :=
  let needed := u64 (size + HEADER)
  let needed := if needed < 16 then 16 else needed
  u64 (needed + 15) / 16 * 16

/-- The search loop of `kmalloc`: the first free block that is large enough,
split when the rest can hold a header and 16 bytes.  The result is the payload
address and the new list. -/
def takeBlock (needed : Nat) : List HeapBlock → Option (Nat × List HeapBlock)
  | [] => none
  | cur :: rest =>
    if cur.free ∧ cur.size ≥ needed then
      if cur.size ≥ u64 (needed + HEADER + 16) then
        if needed = 0 then
          some (cur.addr + HEADER, { cur with size := 0, free := false, magic := true } :: rest)
        else
          some (cur.addr + HEADER,
            { cur with size := u32 needed, free := false } ::
              { addr := cur.addr + needed
                size := u32 (cur.size - needed)
                free := true
                magic := needed ≠ 16 } :: rest)
      else some (cur.addr + HEADER, { cur with free := false } :: rest)
    else (takeBlock needed rest).map fun r => (r.1, cur :: r.2)

/-- The search takes a block and splits it after 0 bytes. -/
def splitsAtZero (needed : Nat) : List HeapBlock → Bool
  | [] => false
  | cur :: rest =>
    if cur.free ∧ cur.size ≥ needed then needed = 0 ∧ cur.size ≥ HEADER + 16
    else splitsAtZero needed rest

/-- What `kmalloc` does: the pointer (`0` is `NULL`), the new list, and the page
it took from `pmm_alloc`, if it asked for one.  `page` is what `pmm_alloc`
would return. -/
def kmalloc (heap : List HeapBlock) (size page : Nat) : Nat × List HeapBlock × Option Nat :=
  if size = 0 then (0, heap, none)
  else
    let heap := heapCoalesce heap
    match takeBlock (neededBytes size) heap with
    | some (ptr, heap) => (ptr, heap, none)
    | none =>
      if page = 0 then (0, heap, none)
      else
        let heap := heapCoalesce (heapAddPages heap page)
        match takeBlock (neededBytes size) heap with
        | some (ptr, heap) => (ptr, heap, some page)
        | none => (0, heap, some page)

/-- The `extra` branch of `kfree`: a large free block gives one page back. -/
def giveExtra (cur : HeapBlock) : HeapBlock × List Nat :=
  let extra := (cur.size - 0x1000) / 0x1000 * 0x1000
  if extra ≥ 0x1000 then
    ({ cur with size := cur.size - extra }, [cur.addr + (cur.size - extra)])
  else (cur, [])

/-- The second loop of `kfree`: the new list and the addresses passed to
`pmm_free`. -/
def trimHeap : List HeapBlock → List HeapBlock × List Nat
  | [] => ([], [])
  | [cur] =>
    if cur.free ∧ cur.size = 0x1000 then ([], [cur.addr])
    else if cur.free ∧ cur.size ≥ 0x2000 then
      let (cur, back) := giveExtra cur
      ([cur], back)
    else ([cur], [])
  | cur :: next :: rest =>
    if cur.free ∧ cur.size = 0x1000 ∧ next.free then
      let cur := { cur with size := u32 (cur.size + next.size) }
      let (cur, back) :=
        if cur.free ∧ cur.size ≥ 0x2000 ∧ (rest.head?.all fun b => !b.free) then giveExtra cur
        else (cur, [])
      let (rest, back') := trimHeap rest
      (cur :: rest, back ++ back')
    else
      let (cur, back) :=
        if cur.free ∧ cur.size ≥ 0x2000 ∧ ¬ next.free then giveExtra cur else (cur, [])
      let (rest, back') := trimHeap (next :: rest)
      (cur :: rest, back ++ back')

/-- `block->free = 1` for the block with payload `ptr`. -/
def markFree (ptr : Nat) (heap : List HeapBlock) : List HeapBlock :=
  heap.map fun b => if b.addr + HEADER = ptr then { b with free := true } else b

/-- `block->magic` of the block with payload `ptr` is `HEAP_MAGIC`. -/
def hasMagic (heap : List HeapBlock) (ptr : Nat) : Bool :=
  heap.all fun b => b.addr + HEADER = ptr → b.magic

/-- `kfree`: the new list and the addresses passed to `pmm_free`. -/
def kfree (heap : List HeapBlock) (ptr : Nat) : List HeapBlock × List Nat :=
  if ptr = 0 ∨ ¬ hasMagic heap ptr then (heap, [])
  else trimHeap (heapCoalesce (markFree ptr heap))

/-! ## The heap and its users -/

/-- A page the heap got from `pmm_alloc`, or an address it passed to
`pmm_free`. -/
inductive PageEvent where
  | got (page : Nat)
  | gave (addr : Nat)
  deriving DecidableEq, Repr

/-- The byte at `x` belongs to a page that the heap has and has not given back.
The newest event comes first. -/
def OwnedByte : List PageEvent → Nat → Bool
  | [], _ => false
  | .got p :: log, x => (p ≤ x && x < p + 0x1000) || OwnedByte log x
  | .gave a :: log, x => !(a ≤ x && x < a + 0x1000) && OwnedByte log x

/-- The heap, the exchange of pages with `pmm`, and the live allocations as
pairs of pointer and requested size.  `circle` says that the list does not end, since
a block was split after 0 bytes. -/
structure HeapWorld where
  heap : List HeapBlock
  log : List PageEvent
  live : List (Nat × Nat)
  circle : Bool := false
  deriving DecidableEq, Repr

inductive HeapOp where
  | kmalloc (size page : Nat)
  | kfree (ptr : Nat)
  deriving DecidableEq, Repr

/-- `kmalloc` splits a block after 0 bytes, in its first or in its second search. -/
def closesCircle (heap : List HeapBlock) (size page : Nat) : Bool :=
  let heap := heapCoalesce heap
  splitsAtZero (neededBytes size) heap ||
    ((takeBlock (neededBytes size) heap).isNone && page ≠ 0 &&
      splitsAtZero (neededBytes size) (heapCoalesce (heapAddPages heap page)))

/-- One call.  `none` is a call that walks over a list without end and never comes
back, or a `kfree` of a pointer that is not live, which the callers are assumed not
to make. -/
def heapStep (w : HeapWorld) : HeapOp → Option HeapWorld
  | .kmalloc size page =>
    if size ≠ 0 ∧ w.circle then none
    else
      let (ptr, heap, got) := kmalloc w.heap size page
      some
        { heap := heap
          log := (got.map PageEvent.got).toList ++ w.log
          live := if ptr = 0 then w.live else (ptr, size) :: w.live
          circle := w.circle || closesCircle w.heap size page }
  | .kfree ptr =>
    if ptr = 0 then some w
    else if ptr ∈ w.live.map Prod.fst ∧ ¬ (w.circle ∧ hasMagic w.heap ptr) then
      let (heap, back) := kfree w.heap ptr
      some
        { w with
          heap := heap
          log := (back.map PageEvent.gave).reverse ++ w.log
          live := w.live.filter fun a => a.1 ≠ ptr }
    else none

/-- `kmalloc_init` with the pages that `pmm_alloc` returned, up to 64. -/
def kmallocInit (pages : List Nat) : HeapWorld where
  heap := pages.foldl heapAddPages []
  log := pages.reverse.map PageEvent.got
  live := []

end Lumin.Mm
