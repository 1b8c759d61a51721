import Lumin.Lib.Memory
import Lumin.Lib.Word

/-!
# The user heap

A model of `libc/src/stdlib/malloc.c` over byte memory.  A block is a size word
followed by the payload; the low bit of the size says that the block is free,
and a free block keeps the next free block in the first word of its payload.
`free_list` and the break are kept beside the memory.  Sizes are 64-bit words that wrap,
and pointers do not.

A list walk that has not ended after `2 ^ 64` nodes has met a node twice, and
since a walk writes nothing it then never ends.  Such a call is `none`.

`sbrk` is the one of `libc/src/unistd/unistd.c` over `SYS_BRK` of
`kernel/proc/syscall.c`.  Its increment is a `long`: one of `2 ^ 63` and more is
negative and moves the break down.  Whether the kernel finds the pages for a break
that moves up is an input, `grant`.
-/

namespace Lumin.Libc

open Lumin.Lib

def HDR_SZ : Nat := 8

/-- `HDR_SZ + sizeof(void*) + 8`. -/
def MIN_BLOCK : Nat := 24

/-- The heap of one process. -/
structure UserHeap where
  mem : Mem
  freeList : Nat
  brk : Nat

/-- `ALIGN8`. -/
def align8 (x : Nat) : Nat := u64 (x + 7) / 8 * 8

/-- `x | 1`. -/
def setLowBit (x : Nat) : Nat := x / 2 * 2 + 1

def blockFromPtr (ptr : Nat) : Nat := ptr - HDR_SZ

/-- `b->size`. -/
def sizeWord (h : UserHeap) (b : Nat) : Nat := rdLE h.mem b 8

def isFree (h : UserHeap) (b : Nat) : Bool := sizeWord h b % 2 = 1

def blockRealSize (h : UserHeap) (b : Nat) : Nat := sizeWord h b / 2 * 2

/-- `*free_next_ptr(b)`. -/
def freeNext (h : UserHeap) (b : Nat) : Nat := rdLE h.mem (b + HDR_SZ) 8

/-- `b->size = v`. -/
def setSize (h : UserHeap) (b v : Nat) : UserHeap := { h with mem := wrLE h.mem b 8 v }

/-- `*free_next_ptr(b) = v`. -/
def setNext (h : UserHeap) (b v : Nat) : UserHeap := { h with mem := wrLE h.mem (b + HDR_SZ) 8 v }

/-- `*pp`, where `pp` is `&free_list` or the link of a block. -/
def loadLink (h : UserHeap) : Option Nat → Nat
  | none => h.freeList
  | some b => freeNext h b

/-- `*pp = v`. -/
def storeLink (h : UserHeap) (pp : Option Nat) (v : Nat) : UserHeap :=
  match pp with
  | none => { h with freeList := v }
  | some b => setNext h b v

/-- Where the kernel lets the heap begin. -/
def USER_HEAP_START : Nat := 0x8100000000

/-- `sbrk(n)`: the old break, with the break moved to `brk + n`.  The system call with
the argument 0 only says where the break is. -/
def sbrk (h : UserHeap) (n : Nat) (grant : Bool) : Option (Nat × UserHeap) :=
  let new := u64 (h.brk + n)
  if n = 0 ∨ new = 0 then some (h.brk, h)
  else if new < USER_HEAP_START then none
  else if new < h.brk ∨ grant then some (h.brk, { h with brk := new })
  else none

/-- `sbrk(n)` does not move the break down: the new break does not wrap, or the kernel
refuses the one it wraps to. -/
def Contiguous (h : UserHeap) (n : Nat) : Prop :=
  h.brk + n < 2 ^ 64 ∨ (u64 (h.brk + n) ≠ 0 ∧ u64 (h.brk + n) < USER_HEAP_START)

instance (h : UserHeap) (n : Nat) : Decidable (Contiguous h n) :=
  inferInstanceAs (Decidable (_ ∨ _))

/-! ## malloc -/

/-- The number of nodes after which a walk is known not to end. -/
abbrev walkFuel : Nat := 2 ^ 64 + 1

/-- The walk of `malloc` over the free list: the link to the first block that is
large enough. -/
def findFit (h : UserHeap) (total : Nat) : Nat → Option Nat → Option (Option (Option Nat))
  | 0, _ => none
  | fuel + 1, pp =>
    if loadLink h pp = 0 then some none
    else if blockRealSize h (loadLink h pp) ≥ total then some (some pp)
    else findFit h total fuel (some (loadLink h pp))

/-- Take the block that `pp` links to, splitting it when the rest can be a block. -/
def takeLinked (h : UserHeap) (pp : Option Nat) (total : Nat) : Nat × UserHeap :=
  let b := loadLink h pp
  let bsize := blockRealSize h b
  let remainder := bsize - total
  if remainder ≥ MIN_BLOCK then
    let nb := b + total
    let h := setSize h nb (setLowBit remainder)
    let h := setNext h nb (freeNext h b)
    let h := storeLink h pp nb
    let h := setSize h b total
    (b + HDR_SZ, h)
  else
    let h := storeLink h pp (freeNext h b)
    let h := setSize h b bsize
    (b + HDR_SZ, h)

/-- `malloc`: the pointer, `0` for `NULL`, and the heap after the call. -/
def malloc (h : UserHeap) (size : Nat) (grant : Bool) : Option (Nat × UserHeap) :=
  if size = 0 then some (0, h)
  else
    let total := u64 (HDR_SZ + align8 size)
    match findFit h total walkFuel none with
    | none => none
    | some (some pp) => some (takeLinked h pp total)
    | some none =>
      match sbrk h total grant with
      | none => some (0, h)
      | some (b, h) => some (b + HDR_SZ, setSize h b total)

/-! ## free -/

/-- `free`.  A merge with the next block only takes over its link: the size of
the freed block stays as it is. -/
def free (h : UserHeap) (ptr : Nat) : UserHeap :=
  if ptr = 0 then h
  else
    let b := blockFromPtr ptr
    let bsize := blockRealSize h b
    let h := setSize h b (setLowBit bsize)
    let nb := b + bsize
    let h :=
      if nb ≤ h.brk ∧ isFree h nb ∧ nb ≠ b then setNext h b (freeNext h nb)
      else setNext h b h.freeList
    { h with freeList := b }

/-! ## calloc and realloc -/

/-- The loop that clears `n` bytes. -/
def zeroBytes (m : Mem) (p : Nat) : Nat → Mem
  | 0 => m
  | n + 1 => setByte (zeroBytes m p n) (p + n) 0

/-- The loop that copies `n` bytes upwards. -/
def copyBytes (m : Mem) (dst src : Nat) : Nat → Mem
  | 0 => m
  | n + 1 =>
    let m := copyBytes m dst src n
    setByte m (dst + n) (m (src + n))

def calloc (h : UserHeap) (nmemb size : Nat) (grant : Bool) : Option (Nat × UserHeap) :=
  if nmemb = 0 ∨ size = 0 then some (0, h)
  else if nmemb > (2 ^ 64 - 1) / size then some (0, h)
  else
    let total := u64 (nmemb * size)
    (malloc h total grant).map fun (ptr, h) =>
      if ptr = 0 then (ptr, h) else (ptr, { h with mem := zeroBytes h.mem ptr total })

/-- The walk of `realloc` that takes `nb` off the free list. -/
def unlinkBlock (h : UserHeap) (nb : Nat) : Nat → Option Nat → Option UserHeap
  | 0, _ => none
  | fuel + 1, pp =>
    if loadLink h pp = 0 then some h
    else if loadLink h pp = nb then some (storeLink h pp (freeNext h nb))
    else unlinkBlock h nb fuel (some (loadLink h pp))

/-- `realloc` when the next block `nb` is free and large enough: the rest of it
becomes a block of its own, or all of it is taken. -/
def growInPlace (h : UserHeap) (b nb size combined : Nat) : Option UserHeap :=
  let remainder := combined - u64 (HDR_SZ + size)
  if remainder ≥ MIN_BLOCK then
    let split := b + HDR_SZ + size
    let h := setSize h split (setLowBit remainder)
    let h := setNext h split (freeNext h nb)
    let h := { h with freeList := split }
    some (setSize h b (u64 (HDR_SZ + size)))
  else unlinkBlock (setSize h b combined) nb walkFuel none

/-- `realloc` when the block cannot grow in place. -/
def moveBlock (h : UserHeap) (ptr oldSize size : Nat) (grant : Bool) : Option (Nat × UserHeap) :=
  (malloc h size grant).map fun (new, h) =>
    if new = 0 then (0, h)
    else (new, free { h with mem := copyBytes h.mem new ptr oldSize } ptr)

def realloc (h : UserHeap) (ptr size : Nat) (grant : Bool) : Option (Nat × UserHeap) :=
  if ptr = 0 then malloc h size grant
  else if size = 0 then some (0, free h ptr)
  else
    let size := align8 size
    let b := blockFromPtr ptr
    let oldSize := sub64 (blockRealSize h b) HDR_SZ
    if size ≤ oldSize then some (ptr, h)
    else
      let nb := b + blockRealSize h b
      let combined := u64 (blockRealSize h b + blockRealSize h nb)
      if nb ≤ h.brk ∧ isFree h nb ∧ combined ≥ u64 (HDR_SZ + size) then
        (growInPlace h b nb size combined).map fun h => (ptr, h)
      else moveBlock h ptr oldSize size grant

/-! ## A program and its heap -/

/-- The heap together with the live allocations, as pairs of pointer and
requested size. -/
structure HeapUser where
  heap : UserHeap
  live : List (Nat × Nat)

/-- What a program does with its heap.  `store` writes one byte of a live
allocation. -/
inductive UserOp where
  | malloc (size : Nat) (grant : Bool)
  | calloc (nmemb size : Nat) (grant : Bool)
  | realloc (ptr size : Nat) (grant : Bool)
  | free (ptr : Nat)
  | store (addr : Nat) (value : UInt8)

/-- Forget a pointer. -/
def dropLive (live : List (Nat × Nat)) (ptr : Nat) : List (Nat × Nat) :=
  live.filter fun a => a.1 ≠ ptr

/-- Note the result of an allocation of `size` bytes. -/
def noteLive (live : List (Nat × Nat)) (ptr size : Nat) : List (Nat × Nat) :=
  if ptr = 0 then live else (ptr, size) :: live

/-- One call or store.  `none` is a call that does not come back, or one that
the program is assumed not to make: a size of `2 ^ 32` or more, a pointer that
is not live, a store outside the live allocations.  The heap is assumed to grow
contiguously: no request is larger than what is left of the address space. -/
def userStep (w : HeapUser) : UserOp → Option HeapUser
  | .malloc size grant =>
    if size < 2 ^ 32 ∧ Contiguous w.heap (u64 (HDR_SZ + align8 size)) then
      (malloc w.heap size grant).map fun (ptr, h) =>
        { heap := h, live := noteLive w.live ptr size }
    else none
  | .calloc nmemb size grant =>
    if nmemb < 2 ^ 32 ∧ size < 2 ^ 32 ∧
        Contiguous w.heap (u64 (HDR_SZ + align8 (nmemb * size))) then
      (calloc w.heap nmemb size grant).map fun (ptr, h) =>
        { heap := h, live := noteLive w.live ptr (nmemb * size) }
    else none
  | .realloc ptr size grant =>
    if (size < 2 ^ 32 ∧ Contiguous w.heap (u64 (HDR_SZ + align8 size))) ∧
        (ptr = 0 ∨ ptr ∈ w.live.map Prod.fst) then
      (realloc w.heap ptr size grant).map fun (q, h) =>
        if q = 0 then { heap := h, live := if size = 0 then dropLive w.live ptr else w.live }
        else { heap := h, live := (q, size) :: dropLive w.live ptr }
    else none
  | .free ptr =>
    if ptr = 0 ∨ ptr ∈ w.live.map Prod.fst then
      some { heap := free w.heap ptr, live := dropLive w.live ptr }
    else none
  | .store addr value =>
    if ∃ a ∈ w.live, a.1 ≤ addr ∧ addr < a.1 + a.2 then
      some { w with heap := { w.heap with mem := setByte w.heap.mem addr value } }
    else none

/-- A process before its first allocation, with whatever bytes it finds. -/
def freshHeap (mem : Mem) (base : Nat) : HeapUser :=
  { heap := { mem := mem, freeList := 0, brk := base }, live := [] }

end Lumin.Libc
