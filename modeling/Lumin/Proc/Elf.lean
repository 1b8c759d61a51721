import Lumin.Mm.AddressSpace

/-!
# The ELF loader

A model of `kernel/proc/elf.c`.  The loader maps the pages of each segment one after
the other and keeps a list of them, from which it takes everything back when it fails.

* A file is what `vfs_read` gives at an offset: the value it returns and the bytes it
  stores.
* The nodes of the page list come from the kernel heap.  The heap is a parameter: a
  state and what `kmalloc` and `kfree` do to it and to the machine.  The list itself
  is a Lean list.
* The messages on the serial line are left out.
-/

namespace Lumin.Proc

open Lumin.Lib Lumin.Mm

def ELF_MAGIC : Nat := 0x464C457F
def ELF_64 : Nat := 2
def ELF_LE : Nat := 1
def ELF_EXEC : Nat := 2
def PT_LOAD : Nat := 1
def PF_W : Nat := 2
def ELF_MAX_PAGES : Nat := 1024

/-- `sizeof(struct elf64_hdr)`. -/
def EHDR_SIZE : Nat := 64

/-- `sizeof(struct elf64_phdr)`. -/
def PHDR_SIZE : Nat := 56

/-- `vfs_read` of an open file, by offset and size. -/
structure ElfFile where
  read : Nat → Nat → Int × List UInt8
  read_le : ∀ offset size, (read offset size).2.length ≤ size

/-- The kernel heap as the loader uses it, for nodes of one size. -/
structure NodeHeap (η : Type) where
  kmalloc : η → Machine → Nat × η × Machine
  kfree : η → Nat → Machine → η × Machine

/-- `struct elf64_hdr`, as far as it is read. -/
structure ElfHdr where
  magic : Nat
  ident4 : Nat
  ident5 : Nat
  e_type : Nat
  e_entry : Nat
  e_phoff : Nat
  e_phentsize : Nat
  e_phnum : Nat
  deriving DecidableEq, Repr

/-- `struct elf64_phdr`, as far as it is read. -/
structure ElfPhdr where
  p_type : Nat
  p_flags : Nat
  p_offset : Nat
  p_vaddr : Nat
  p_filesz : Nat
  p_memsz : Nat
  deriving DecidableEq, Repr

/-- The bytes of a buffer. -/
def bufferMem (bs : List UInt8) : Mem := fun x => bs.getD x 0

def parseHdr (bs : List UInt8) : ElfHdr where
  magic := rdLE (bufferMem bs) 0 4
  ident4 := rdLE (bufferMem bs) 4 1
  ident5 := rdLE (bufferMem bs) 5 1
  e_type := rdLE (bufferMem bs) 16 2
  e_entry := rdLE (bufferMem bs) 24 8
  e_phoff := rdLE (bufferMem bs) 32 8
  e_phentsize := rdLE (bufferMem bs) 54 2
  e_phnum := rdLE (bufferMem bs) 56 2

def parsePhdr (bs : List UInt8) : ElfPhdr where
  p_type := rdLE (bufferMem bs) 0 4
  p_flags := rdLE (bufferMem bs) 4 4
  p_offset := rdLE (bufferMem bs) 8 8
  p_vaddr := rdLE (bufferMem bs) 16 8
  p_filesz := rdLE (bufferMem bs) 32 8
  p_memsz := rdLE (bufferMem bs) 40 8

/-- `struct elf_page` with the address of the node. -/
structure ElfPage where
  node : Nat
  vaddr : Nat
  phys : Nat
  deriving DecidableEq, Repr

/-! ## Giving up -/

section Heap

variable {η : Type} (K : NodeHeap η)

/-- `elf_free_nodes`. -/
def elfFreeNodes (h : η) (m : Machine) : List ElfPage → η × Machine
  | [] => (h, m)
  | ep :: rest =>
    let (h, m) := K.kfree h ep.node m
    elfFreeNodes h m rest

/-- The walk of `elf_cleanup` down to the entry of a page, which it clears.  It takes
each present entry for a table. -/
def clearEntry (m : Machine) (pml4 vaddr : Nat) : Machine :=
  let pml4e := entryAt m.mem pml4 (tableIdx 0 vaddr)
  if isPresent pml4e then
    let pdpte := entryAt m.mem (pageDown pml4e) (tableIdx 1 vaddr)
    if isPresent pdpte then
      let pde := entryAt m.mem (pageDown pdpte) (tableIdx 2 vaddr)
      if isPresent pde then
        if isPresent (entryAt m.mem (pageDown pde) (tableIdx 3 vaddr)) then
          m.store (pageDown pde + 8 * tableIdx 3 vaddr) 0
        else m
      else m
    else m
  else m

/-- One page of `elf_cleanup`. -/
def dropPage (m : Machine) (pml4 : Nat) (ep : ElfPage) : Machine :=
  if ep.phys ≠ 0 then
    freeFrame (if ep.vaddr ≠ 0 then clearEntry m pml4 ep.vaddr else m) ep.phys
  else m

/-- `elf_cleanup`. -/
def elfCleanup (pml4 : Nat) (h : η) (m : Machine) : List ElfPage → η × Machine
  | [] => (h, m)
  | ep :: rest =>
    let m := dropPage m pml4 ep
    let (h, m) := K.kfree h ep.node m
    elfCleanup pml4 h m rest

/-! ## Loading -/

/-- The locals of `elf_load` and the machine. -/
structure LoadState (η : Type) where
  heap : η
  machine : Machine
  pages : List ElfPage
  pageCount : Nat

def ElfPhdr.pageStart (ph : ElfPhdr) : Nat := pageDown ph.p_vaddr

def ElfPhdr.pageEnd (ph : ElfPhdr) : Nat := pageDown (u64 (u64 (ph.p_vaddr + ph.p_memsz) + 0xFFF))

def ElfPhdr.pagesNeeded (ph : ElfPhdr) : Nat := sub64 ph.pageEnd ph.pageStart / PAGE_SIZE

/-- The flags of the pages of a segment. -/
def ElfPhdr.flags (ph : ElfPhdr) : Nat :=
  if ph.p_flags &&& PF_W ≠ 0 then PAGE_USER ||| PAGE_WRITE else PAGE_USER

/-- The address of page `p` of a segment. -/
def ElfPhdr.pageVaddr (ph : ElfPhdr) (p : Nat) : Nat := u64 (ph.pageStart + p * PAGE_SIZE)

/-- The part of the file that goes into a page: offset and size, if there is one. -/
def ElfPhdr.chunk (ph : ElfPhdr) (pageVaddr : Nat) : Option (Nat × Nat) :=
  let fileEnd := u64 (ph.p_vaddr + ph.p_filesz)
  if pageVaddr ≥ ph.p_vaddr ∧ pageVaddr < fileEnd then
    let fileOff := u64 (ph.p_offset + (pageVaddr - ph.p_vaddr))
    let copySize :=
      if u64 (pageVaddr + PAGE_SIZE) > fileEnd then fileEnd - pageVaddr else PAGE_SIZE
    if copySize > 0 then some (fileOff, copySize) else none
  else none

/-- A page is cleared, and what belongs into it is read. -/
def fillPage (file : ElfFile) (ph : ElfPhdr) (mem : Mem) (pageVaddr phys : Nat) : Mem :=
  let mem := zeroFill mem phys PAGE_SIZE
  match ph.chunk pageVaddr with
  | some (offset, size) => wrBytes mem phys (file.read offset size).2
  | none => mem

/-- Page `p` of a segment: whether it is mapped now. -/
def loadPage (file : ElfFile) (pml4 : Nat) (ph : ElfPhdr) (p : Nat) (s : LoadState η) :
    Bool × LoadState η :=
  let (ep, heap, m) := K.kmalloc s.heap s.machine
  if ep = 0 then (false, { s with heap := heap, machine := m })
  else
    let (phys, m) := allocFrame m
    if phys = 0 then
      let (heap, m) := K.kfree heap ep m
      (false, { s with heap := heap, machine := m })
    else
      let pageVaddr := ph.pageVaddr p
      let m := { m with mem := fillPage file ph m.mem pageVaddr phys }
      let (r, m) := vmmMapPage m pml4 pageVaddr phys ph.flags
      (decide (r = 0),
        { heap := heap, machine := m,
          pages := { node := ep, vaddr := pageVaddr, phys := phys } :: s.pages,
          pageCount := s.pageCount + 1 })

/-- The loop over the pages of a segment, with `n` pages to go, and whether it has got
through. -/
def loadPages (file : ElfFile) (pml4 : Nat) (ph : ElfPhdr) :
    (n p : Nat) → LoadState η → Bool × LoadState η
  | 0, _, s => (true, s)
  | n + 1, p, s =>
    match loadPage K file pml4 ph p s with
    | (false, s) => (false, s)
    | (true, s) => loadPages file pml4 ph n (p + 1) s

/-- `vfs_read` of program header `i`. -/
def readPhdr (file : ElfFile) (hdr : ElfHdr) (i : Nat) : Option ElfPhdr :=
  let (r, bs) := file.read (u64 (hdr.e_phoff + i * PHDR_SIZE)) PHDR_SIZE
  if r ≠ PHDR_SIZE then none else some (parsePhdr bs)

/-- The loop over the program headers, with `n` headers to go. -/
def loadSegments (file : ElfFile) (pml4 : Nat) (hdr : ElfHdr) :
    (n i : Nat) → LoadState η → Bool × LoadState η
  | 0, _, s => (true, s)
  | n + 1, i, s =>
    match readPhdr file hdr i with
    | none => (false, s)
    | some ph =>
      if ph.p_type ≠ PT_LOAD then loadSegments file pml4 hdr n (i + 1) s
      else if s32 (s.pageCount + ph.pagesNeeded) > ELF_MAX_PAGES then (false, s)
      else
        match loadPages K file pml4 ph ph.pagesNeeded 0 s with
        | (false, s) => (false, s)
        | (true, s) => loadSegments file pml4 hdr n (i + 1) s

/-- The header, if `elf_load` accepts it. -/
def readHdr (file : ElfFile) : Option ElfHdr :=
  let (r, bs) := file.read 0 EHDR_SIZE
  if r ≠ EHDR_SIZE then none
  else
    let hdr := parseHdr bs
    if hdr.magic ≠ ELF_MAGIC then none
    else if hdr.ident4 ≠ ELF_64 ∨ hdr.ident5 ≠ ELF_LE then none
    else if hdr.e_type ≠ ELF_EXEC then none
    else if hdr.e_phentsize ≠ PHDR_SIZE then none
    else some hdr

/-- `elf_load`: the entry point, or `0`. -/
def elfLoad (file : ElfFile) (pml4 : Nat) (h : η) (m : Machine) : Nat × η × Machine :=
  if pml4 = 0 then (0, h, m)
  else
    match readHdr file with
    | none => (0, h, m)
    | some hdr =>
      match loadSegments K file pml4 hdr hdr.e_phnum 0
        { heap := h, machine := m, pages := [], pageCount := 0 } with
      | (false, s) => (0, elfCleanup K pml4 s.heap s.machine s.pages)
      | (true, s) => (hdr.e_entry, elfFreeNodes K s.heap s.machine s.pages)

end Heap

end Lumin.Proc
