import Mathlib.Data.List.GetD
import Lumin.Proc.ElfLoading

/-!
# The image of a program

What the memory of a program holds after `elf_load`.  A page is filled only when it
starts at or above `p_vaddr`.  The first page of a segment whose `p_vaddr` is not at
the start of a page starts below it, and stays zero.
-/

namespace Lumin.Proc

open Lumin.Lib Lumin.Mm

/-- The physical address behind a leaf entry at a level. -/
def physAddr (l e virt : Nat) : Nat :=
  e / 2 ^ (12 + 9 * l) * 2 ^ (12 + 9 * l) + virt % 2 ^ (12 + 9 * l)

/-- The byte at a virtual address. -/
def readVirt (mem : Mem) (pml4 virt : Nat) : Option UInt8 :=
  (translate mem pml4 virt).map fun le => mem (physAddr le.1 le.2 virt)

/-- The segment is in the user half and in the file. -/
structure UserSegment (ph : ElfPhdr) : Prop where
  memory : ph.p_vaddr + ph.p_memsz ≤ 2 ^ 47
  sizes : ph.p_filesz ≤ ph.p_memsz
  inFile : ph.p_offset + ph.p_filesz ≤ 2 ^ 64

/-- The header at `i` is that of a segment to load. -/
def LoadHeader (file : ElfFile) (hdr : ElfHdr) (i : Nat) (ph : ElfPhdr) : Prop :=
  i < hdr.e_phnum ∧ readPhdr file hdr i = some ph ∧ ph.p_type = PT_LOAD

/-- The reads of the segment's pages give the bytes of the file. -/
def ReadsComplete (file : ElfFile) (bytes : Nat → UInt8) (ph : ElfPhdr) : Prop :=
  ∀ p < ph.pagesNeeded, ∀ offset size, ph.chunk (ph.pageVaddr p) = some (offset, size) →
    (file.read offset size).2 = (List.range size).map fun j => bytes (offset + j)

/-- The segment is in memory: the bytes of the file, then zeros. -/
def SegmentImage (bytes : Nat → UInt8) (ph : ElfPhdr) (mem : Mem) (pml4 : Nat) : Prop :=
  (∀ k < ph.p_filesz, readVirt mem pml4 (ph.p_vaddr + k) = some (bytes (ph.p_offset + k))) ∧
    ∀ k, ph.p_filesz ≤ k → k < ph.p_memsz → readVirt mem pml4 (ph.p_vaddr + k) = some 0

/-- The file has only zeros for the part of the segment before the first page that
starts in it. -/
def ZeroHead (bytes : Nat → UInt8) (ph : ElfPhdr) : Prop :=
  ∀ k < ph.p_filesz, pageDown (ph.p_vaddr + k) < ph.p_vaddr → bytes (ph.p_offset + k) = 0

variable {η : Type} {K : NodeHeap η} {own : η → List Nat} {file : ElfFile} {bytes : Nat → UInt8}
  {ph : ElfPhdr}
  {m m' : Machine} {held : List Nat} {pml4 k : Nat}

/-- The page of an address of the segment is one of its pages. -/
theorem UserSegment.page (h : UserSegment ph) (hk : k < ph.p_memsz) :
    (pageDown (ph.p_vaddr + k) - pageDown ph.p_vaddr) / 0x1000 < ph.pagesNeeded ∧
      ph.pageVaddr ((pageDown (ph.p_vaddr + k) - pageDown ph.p_vaddr) / 0x1000) =
        pageDown (ph.p_vaddr + k) := by
  have hmem := h.memory
  have hend : u64 (u64 (ph.p_vaddr + ph.p_memsz) + 0xFFF) = ph.p_vaddr + ph.p_memsz + 0xFFF := by
    unfold u64
    omega
  constructor
  · unfold ElfPhdr.pagesNeeded ElfPhdr.pageEnd ElfPhdr.pageStart PAGE_SIZE
    rw [hend]
    unfold sub64 u64 pageDown
    omega
  · unfold ElfPhdr.pageVaddr ElfPhdr.pageStart PAGE_SIZE u64 pageDown
    omega

/-- The part of the file that belongs into a page that starts in the segment. -/
theorem UserSegment.chunk {v : Nat} (h : UserSegment ph) (hlo : ph.p_vaddr ≤ v)
    (hhi : v < 2 ^ 47) :
    ph.chunk v =
      if v < ph.p_vaddr + ph.p_filesz then
        some (ph.p_offset + (v - ph.p_vaddr), min 0x1000 (ph.p_vaddr + ph.p_filesz - v))
      else none := by
  have hmem := h.memory
  have hsizes := h.sizes
  have hfile := h.inFile
  have hend : u64 (ph.p_vaddr + ph.p_filesz) = ph.p_vaddr + ph.p_filesz := u64_of_lt (by omega)
  have hnext : u64 (v + PAGE_SIZE) = v + 0x1000 := by
    unfold PAGE_SIZE
    exact u64_of_lt (by omega)
  unfold ElfPhdr.chunk
  dsimp only
  rw [hend, hnext]
  by_cases hin : v < ph.p_vaddr + ph.p_filesz
  · rw [if_pos ⟨hlo, hin⟩, if_pos hin, u64_of_lt (by omega)]
    by_cases hlast : v + 0x1000 > ph.p_vaddr + ph.p_filesz
    · rw [if_pos hlast, if_pos (by omega), Nat.min_eq_right (by omega)]
    · rw [if_neg hlast, if_pos (by decide), Nat.min_eq_left (by omega)]
      rfl
  · rw [if_neg fun hmem => hin hmem.2, if_neg hin]

theorem chunk_below {v : Nat} (h : v < ph.p_vaddr) : ph.chunk v = none := by
  unfold ElfPhdr.chunk
  dsimp only
  rw [if_neg fun hmem => by omega]

/-- A byte of a page that is filled. -/
theorem fillPage_byte {mem : Mem} {v phys o : Nat} (ho : o < 0x1000) :
    fillPage file ph mem v phys (phys + o) =
      match ph.chunk v with
      | some (offset, size) => (file.read offset size).2.getD o 0
      | none => 0 := by
  have hzero : zeroFill mem phys PAGE_SIZE (phys + o) = 0 :=
    zeroFill_of_mem (by unfold PAGE_SIZE; omega)
  unfold fillPage
  cases ph.chunk v with
  | none => exact hzero
  | some c =>
    obtain ⟨offset, size⟩ := c
    dsimp only
    unfold wrBytes
    by_cases hin : o < (file.read offset size).2.length
    · rw [if_pos (by omega), Nat.add_sub_cancel_left]
    · rw [if_neg (by omega), hzero, List.getD_eq_default _ _ (by omega)]

/-- The byte of a loaded page at an address. -/
theorem Loaded.readVirt {p virt : Nat} (h : Loaded file ph m pml4 p held)
    (hpage : ph.pageVaddr p = pageDown virt) :
    readVirt m.mem pml4 virt =
      some (match ph.chunk (pageDown virt) with
        | some (offset, size) => (file.read offset size).2.getD (virt % 0x1000) 0
        | none => 0) := by
  obtain ⟨phys, mem, -, hframe, htranslate, hbytes⟩ := h
  rw [hpage, translate_pageDown] at htranslate
  have haddr : physAddr 0 (phys ||| ph.flags ||| PAGE_PRESENT) virt = phys + virt % 0x1000 := by
    have hdown := pageDown_or hframe.1 (flags_lt ph)
    unfold pageDown at hdown
    show (phys ||| ph.flags ||| PAGE_PRESENT) / 0x1000 * 0x1000 + virt % 0x1000 =
        phys + virt % 0x1000
    rw [hdown]
  have hoff : virt % 0x1000 < 0x1000 := Nat.mod_lt _ (by decide)
  have hphys := hframe.1
  unfold Proc.readVirt
  rw [htranslate, Option.map_some, haddr,
    hbytes _ (pageDown_of_mem_page hphys (by omega) (by omega)), hpage,
    fillPage_byte hoff]

/-- What a segment holds after the load: what lies in pages that start in the segment
comes from the file, the rest is zero. -/
theorem SegmentLoaded.readVirt (h : SegmentLoaded file ph m pml4 held) (huser : UserSegment ph)
    (hreads : ReadsComplete file bytes ph) (hk : k < ph.p_memsz) :
    readVirt m.mem pml4 (ph.p_vaddr + k) =
      some (if k < ph.p_filesz ∧ ph.p_vaddr ≤ pageDown (ph.p_vaddr + k)
        then bytes (ph.p_offset + k) else 0) := by
  have hmem := huser.memory
  obtain ⟨hp, hvaddr⟩ := huser.page hk
  rw [(h _ hp).readVirt hvaddr]
  have hdown := pageDown_le (ph.p_vaddr + k)
  have hnext := lt_pageDown_add (ph.p_vaddr + k)
  have hmod : ph.p_vaddr + k = pageDown (ph.p_vaddr + k) + (ph.p_vaddr + k) % 0x1000 := by
    unfold pageDown
    omega
  congr 1
  by_cases hlo : ph.p_vaddr ≤ pageDown (ph.p_vaddr + k)
  · rw [huser.chunk hlo (by omega)]
    by_cases hin : pageDown (ph.p_vaddr + k) < ph.p_vaddr + ph.p_filesz
    · have hread := hreads _ hp (ph.p_offset + (pageDown (ph.p_vaddr + k) - ph.p_vaddr))
        (min 0x1000 (ph.p_vaddr + ph.p_filesz - pageDown (ph.p_vaddr + k)))
        (by rw [hvaddr, huser.chunk hlo (by omega), if_pos hin])
      rw [if_pos hin]
      dsimp only
      rw [hread]
      by_cases hfile : k < ph.p_filesz
      · rw [if_pos ⟨hfile, hlo⟩, List.getD_eq_getElem _ _ (by simp; omega), List.getElem_map,
          List.getElem_range]
        congr 1
        omega
      · rw [if_neg fun hmem => hfile hmem.1, List.getD_eq_default _ _ (by simp; omega)]
    · rw [if_neg hin, if_neg fun hmem => by omega]
  · rw [chunk_below (by omega), if_neg fun hmem => hlo hmem.2]

/-- The image of a segment is right exactly when its head is zero in the file. -/
theorem SegmentLoaded.image_iff (h : SegmentLoaded file ph m pml4 held) (huser : UserSegment ph)
    (hreads : ReadsComplete file bytes ph) :
    SegmentImage bytes ph m.mem pml4 ↔ ZeroHead bytes ph := by
  have hsizes := huser.sizes
  constructor
  · rintro ⟨himage, -⟩ k hk hhead
    have hbyte := himage k hk
    rw [h.readVirt huser hreads (by omega), if_neg fun hmem => by omega] at hbyte
    exact (Option.some.inj hbyte).symm
  · intro hhead
    refine ⟨fun k hk => ?_, fun k hlo hhi => ?_⟩
    · rw [h.readVirt huser hreads (by omega)]
      by_cases hlow : ph.p_vaddr ≤ pageDown (ph.p_vaddr + k)
      · rw [if_pos ⟨hk, hlow⟩]
      · rw [if_neg fun hmem => hlow hmem.2, hhead k hk (not_le.mp hlow)]
    · rw [h.readVirt huser hreads hhi, if_neg fun hmem => by omega]

/-- After a load that is accepted, every segment is in memory if and only if the part
of each segment before the first page that starts in it is zero in the file. -/
theorem elfLoad_image_iff (K : NodeHeap η) (own : η → List Nat) (hsound : K.Sound own)
    (file : ElfFile)
    (bytes : Nat → UInt8) (pml4 : Nat) (h h' : η) (m m' : Machine) (held : List Nat) (entry : Nat)
    (hdr : ElfHdr)
    (hspace : Space m pml4 (own h) held) (hhdr : readHdr file = some hdr)
    (huser : ∀ i ph, LoadHeader file hdr i ph → UserSegment ph)
    (hreads : ∀ i ph, LoadHeader file hdr i ph → ReadsComplete file bytes ph)
    (hload : elfLoad K file pml4 h m = (entry, h', m')) (hentry : entry ≠ 0) :
    (∀ i ph, LoadHeader file hdr i ph → SegmentImage bytes ph m'.mem pml4) ↔
      ∀ i ph, LoadHeader file hdr i ph → ZeroHead bytes ph := by
  obtain ⟨hdr', held', -, -, hhdr', -, -, hsegments⟩ :=
    elfLoad_loaded (P := fun _ _ => True) hsound
      (fun _ => ⟨fun _ _ _ _ => trivial, fun _ _ _ => trivial⟩) hspace
      trivial hentry hload
  rw [hhdr] at hhdr'
  cases hhdr'
  have hiff : ∀ i ph, LoadHeader file hdr i ph →
      (SegmentImage bytes ph m'.mem pml4 ↔ ZeroHead bytes ph) :=
    fun i ph hph => (hsegments i ph hph.1 hph.2.1 hph.2.2).image_iff (huser i ph hph)
      (hreads i ph hph)
  constructor
  · intro himage i ph hph
    exact (hiff i ph hph).mp (himage i ph hph)
  · intro hhead i ph hph
    exact (hiff i ph hph).mpr (hhead i ph hph)

/-! ## A small program -/

/-- The bytes of a file. -/
def bytesOf (bs : List UInt8) : Nat → UInt8 := fun k => bs.getD k 0

theorem tiny_loadHeader {v i : Nat}
    (hread : readPhdr (elfFileOf (tinyElf v)) tinyHdr 0 = some (tinyPhdr v))
    (h : LoadHeader (elfFileOf (tinyElf v)) tinyHdr i ph) : ph = tinyPhdr v := by
  obtain ⟨hi, hph, -⟩ := h
  obtain rfl : i = 0 := Nat.lt_one_iff.mp hi
  rw [hread] at hph
  exact (Option.some.inj hph).symm

theorem tiny_userSegment {v : Nat} (hv : v ≤ 0x8000000800) : UserSegment (tinyPhdr v) := by
  refine ⟨?_, le_refl 4, show 0 + 4 ≤ 2 ^ 64 by decide⟩
  show v + 4 ≤ 2 ^ 47
  omega

/-- A segment at the start of a page is loaded. -/
theorem elfLoad_image_iff_aligned :
    (elfLoad pageHeap (elfFileOf (tinyElf 0x8000000000)) 0x1000 0 loadMachine).1 = 0x8000000000 ∧
      ∀ i ph, LoadHeader (elfFileOf (tinyElf 0x8000000000)) tinyHdr i ph →
        SegmentImage (bytesOf (tinyElf 0x8000000000)) ph
          (elfLoad pageHeap (elfFileOf (tinyElf 0x8000000000)) 0x1000 0 loadMachine).2.2.mem
            0x1000 := by
  have hentry :
      (elfLoad pageHeap (elfFileOf (tinyElf 0x8000000000)) 0x1000 0 loadMachine).1 =
      0x8000000000 := by decide +kernel
  have hread :
      readPhdr (elfFileOf (tinyElf 0x8000000000)) tinyHdr 0 = some (tinyPhdr 0x8000000000) :=
      by decide +kernel
  have hspace : Space loadMachine 0x1000 [0x300000] [] :=
    space_empty (by decide) (by decide +kernel) (by decide)
  refine ⟨hentry,
    (elfLoad_image_iff pageHeap (fun _ => [0x300000]) (pageHeap_sound _)
    (elfFileOf (tinyElf 0x8000000000))
    (bytesOf (tinyElf 0x8000000000)) 0x1000 0 _ loadMachine _ [] 0x8000000000 tinyHdr hspace
      (by decide +kernel) ?_ ?_
    (Prod.ext hentry rfl) (by decide)).mpr ?_⟩
  · intro i ph hph
    rw [tiny_loadHeader hread hph]
    exact tiny_userSegment (by decide)
  · intro i ph hph
    rw [tiny_loadHeader hread hph]
    have hchunk : ∀ p < (tinyPhdr 0x8000000000).pagesNeeded,
        (tinyPhdr 0x8000000000).chunk ((tinyPhdr 0x8000000000).pageVaddr p) = some (0, 4) :=
          by decide +kernel
    intro p hp offset size hsome
    rw [hchunk p hp] at hsome
    cases hsome
    decide +kernel
  · intro i ph hph k hk hhead
    rw [tiny_loadHeader hread hph] at hk hhead
    exact absurd hhead (by revert k; decide +kernel)

/-- At `0x800` in a page, the segment is not: its first byte is zero in memory. -/
theorem offset_not_image :
    (elfLoad pageHeap (elfFileOf (tinyElf 0x8000000800)) 0x1000 0 loadMachine).1 ≠ 0 ∧
      LoadHeader (elfFileOf (tinyElf 0x8000000800)) tinyHdr 0 (tinyPhdr 0x8000000800) ∧
      UserSegment (tinyPhdr 0x8000000800) ∧
      ReadsComplete (elfFileOf (tinyElf 0x8000000800)) (bytesOf (tinyElf 0x8000000800))
        (tinyPhdr 0x8000000800) ∧
      ¬ SegmentImage (bytesOf (tinyElf 0x8000000800)) (tinyPhdr 0x8000000800)
        (elfLoad pageHeap (elfFileOf (tinyElf 0x8000000800)) 0x1000 0 loadMachine).2.2.mem
          0x1000 := by
  refine ⟨by decide +kernel, ⟨by decide, by decide +kernel, rfl⟩, tiny_userSegment (le_refl _),
    ?_, ?_⟩
  · have hchunk : ∀ p < (tinyPhdr 0x8000000800).pagesNeeded,
        (tinyPhdr 0x8000000800).chunk ((tinyPhdr 0x8000000800).pageVaddr p) = none :=
          by decide +kernel
    intro p hp offset size hsome
    rw [hchunk p hp] at hsome
    cases hsome
  · rintro ⟨himage, -⟩
    have hbyte := himage 0 (by decide)
    have hzero :
        readVirt (elfLoad pageHeap (elfFileOf (tinyElf 0x8000000800)) 0x1000 0
        loadMachine).2.2.mem 0x1000
        ((tinyPhdr 0x8000000800).p_vaddr + 0) = some 0 := by decide +kernel
    rw [hzero] at hbyte
    revert hbyte
    decide +kernel

end Lumin.Proc
