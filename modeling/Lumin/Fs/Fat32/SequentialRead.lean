import Lumin.Fs.Fat32.FileRead
import Lumin.Fs.Fat32.Inode
import Lumin.Fs.Files

/-!
# Reading a file from its start

Calls of `vfs_read` on an open file of a FAT32 volume, one after the other.
Whatever the sizes are, the calls return the content of the file piece by piece,
and the first one that returns 0 comes when all of it has been read.
-/

namespace Lumin.Fs.Fat32

open Lumin.Lib Lumin.Block Lumin.Fs

/-- `fat32_vfs_read` as an operation of an inode; the device does not change. -/
def vfsReadOp (fs : Fat32Fs) (inode : FatInode) (d : Disk) (offset size : Nat) :
    Int × List UInt8 × Disk :=
  ((fat32VfsRead fs d inode offset size).1, (fat32VfsRead fs d inode offset size).2, d)

/-- Calls of `vfs_read` with these sizes: the results with the bytes, and the state. -/
def readCalls {σ ι : Type} (ops : InodeOps σ ι) (s : VfsState σ ι) (file buf : Nat) :
    List Nat → List (Int × List UInt8) × VfsState σ ι
  | [] => ([], s)
  | n :: ns =>
    let (r, bytes, s) := vfsRead ops s file n buf
    let (calls, s) := readCalls ops s file buf ns
    ((r, bytes) :: calls, s)

/-- The sizes that may be asked for from `offset` on: positive, without a wrap of the
offset, and such that the number of bytes fits in the result. -/
def Chunks (size : Nat) : Nat → List Nat → Prop
  | _, [] => True
  | offset, n :: ns => 0 < n ∧ offset + n < 2 ^ 64 ∧ min n (size - offset) < 2 ^ 31 ∧
    Chunks size (offset + min n (size - offset)) ns

/-- The file can be read at `offset`. -/
structure OpenAt {ι : Type} (ops : InodeOps Disk ι) (fs : Fat32Fs) (d : Disk) (inode : FatInode)
    (file offset : Nat) (s : VfsState Disk ι) : Prop where
  disk : s.fs = d
  inode : ∃ i, (s.files file).inode = some i ∧ ops.read i = some (vfsReadOp fs inode)
  offset : (s.files file).offset = offset
  readable : (s.files file).flags &&& VFS_O_READ ≠ 0

variable {ι : Type} {ops : InodeOps Disk ι} {fs : Fat32Fs} {d : Disk} {inode : FatInode}
  {file buf n offset : Nat} {l ns : List Nat} {s : VfsState Disk ι}

/-- The content of the file of an inode. -/
abbrev FatInode.content (fs : Fat32Fs) (d : Disk) (inode : FatInode) (l : List Nat) :
    List UInt8 :=
  Fat32.content fs d l inode.size

/-- An inode of a file whose chain can be read and holds its size. -/
structure FileOf (fs : Fat32Fs) (d : Disk) (inode : FatInode) (l : List Nat) : Prop where
  isFile : inode.isDir = false
  readable : ReadableFile fs d inode.cluster l
  room : inode.size ≤ l.length * fs.clusterSize
  size_lt : inode.size < 2 ^ 32

/-- A call moves the offset and leaves the rest of the file alone. -/
theorem advance_eq (f : VfsFile ι) {m : Nat} (hwrap : offset + m < 2 ^ 64)
    (hoff : f.offset = offset) :
    ((advance f m).inode = f.inode ∧ (advance f m).flags = f.flags) ∧
      (advance f m).offset = offset + m := by
  unfold advance
  split
  next hpos =>
    refine ⟨⟨rfl, rfl⟩, ?_⟩
    show u64 (f.offset + (m : Int).toNat) = offset + m
    rw [Int.toNat_natCast, hoff, u64_of_lt hwrap]
  · refine ⟨⟨rfl, rfl⟩, ?_⟩
    omega

/-- One call returns the next piece and moves the offset behind it. -/
theorem vfsRead_next (h : FileOf fs d inode l) (hopen : OpenAt ops fs d inode file offset s)
    (hbuf : buf ≠ 0) (hwrap : offset + n < 2 ^ 64)
    (hint : min n (inode.size - offset) < 2 ^ 31) :
    ∃ s', vfsRead ops s file n buf = (((min n (inode.size - offset) : Nat) : Int),
        ((inode.content fs d l).drop offset).take n, s') ∧
      OpenAt ops fs d inode file (offset + min n (inode.size - offset)) s' := by
  obtain ⟨i, hinode, hread⟩ := hopen.inode
  have hslice := fat32ReadFile_slice h.readable h.room h.size_lt hwrap hint
  have hnot : ¬ (buf = 0 ∨ (s.files file).flags &&& VFS_O_READ = 0) :=
    not_or.mpr ⟨hbuf, hopen.readable⟩
  have hwrap' : offset + min n (inode.size - offset) < 2 ^ 64 := by omega
  unfold vfsRead
  rw [hinode]
  dsimp only
  rw [if_neg hnot, hread]
  dsimp only
  unfold vfsReadOp fat32VfsRead
  rw [if_neg (Bool.eq_false_iff.mp h.isFile), hopen.disk, hopen.offset, hslice]
  obtain ⟨hsame, hmoved⟩ := advance_eq (s.files file) hwrap' hopen.offset
  have hfile : ∀ (t : VfsState Disk ι) (f : VfsFile ι), (t.setFile file f).files file = f :=
    fun _ _ => if_pos rfl
  refine ⟨_, rfl, ⟨rfl, ⟨i, ?_, hread⟩, ?_, ?_⟩⟩
  · rw [hfile, hsame.1, hinode]
  · rw [hfile, hmoved]
  · rw [hfile, hsame.2]
    exact hopen.readable

/-- The slice behind a prefix makes the prefix longer. -/
theorem take_append_slice (xs : List UInt8) (hoff : offset ≤ xs.length) :
    xs.take offset ++ (xs.drop offset).take n =
      xs.take (offset + min n (xs.length - offset)) := by
  rw [← List.take_add]
  rcases le_total n (xs.length - offset) with hle | hge
  · rw [Nat.min_eq_left hle]
  · rw [Nat.min_eq_right hge, List.take_of_length_le (by omega),
      List.take_of_length_le (by omega)]

/-- What a call finds read before it, and what it returns. -/
structure CallAt (content : List UInt8) (before : List UInt8) (call : Int × List UInt8) :
    Prop where
  place : ∃ offset n, offset ≤ content.length ∧ 0 < n ∧ before = content.take offset ∧
    call.1 = ((min n (content.length - offset) : Nat) : Int) ∧
      call.2 = (content.drop offset).take n

/-- The pieces that the calls before return make a prefix of the content. -/
theorem readCalls_front (h : FileOf fs d inode l) (hopen : OpenAt ops fs d inode file offset s)
    (hbuf : buf ≠ 0) (hoff : offset ≤ inode.size) (hns : Chunks inode.size offset ns)
    {pre post : List (Int × List UInt8)} {call : Int × List UInt8}
    (hcalls : (readCalls ops s file buf ns).1 = pre ++ call :: post) :
    CallAt (inode.content fs d l) ((inode.content fs d l).take offset ++ pre.flatMap Prod.snd)
      call := by
  have hlen : (inode.content fs d l).length = inode.size := content_length h.room
  induction ns generalizing s offset pre with
  | nil => simp [readCalls] at hcalls
  | cons n ns ih =>
    obtain ⟨hpos, hwrap, hint, hrest⟩ := hns
    obtain ⟨s', hcall, hopen'⟩ := vfsRead_next h hopen hbuf hwrap hint
    rw [readCalls, hcall] at hcalls
    dsimp only at hcalls
    cases pre with
    | nil =>
      obtain ⟨rfl, -⟩ := List.cons_eq_cons.mp hcalls
      refine ⟨offset, n, hlen ▸ hoff, hpos, by simp, by rw [hlen], rfl⟩
    | cons x pre =>
      obtain ⟨rfl, htail⟩ := List.cons_eq_cons.mp hcalls
      have hnext := ih hopen' (by omega) hrest htail
      rwa [← hlen, ← take_append_slice _ (hlen ▸ hoff), List.append_assoc] at hnext

/-- **Reads return the right slice.**  `fat32_read_file` returns 0 for an empty request
or one behind the file, and else the bytes that are asked for and inside the file;
and whatever positive sizes are asked for, calls of `vfs_read` from the start return
the content piece by piece, the first 0 when it has been read as a whole. -/
theorem fat32Read_slices (ops : InodeOps Disk ι) (file : Nat) (h : FileOf fs d inode l) :
    (∀ offset count, offset + count < 2 ^ 64 → min count (inode.size - offset) < 2 ^ 31 →
      fat32ReadFile fs d inode.cluster inode.size offset count =
        if count = 0 ∨ inode.size ≤ offset then (0, [])
        else (((min count (inode.size - offset) : Nat) : Int),
          ((inode.content fs d l).drop offset).take (min count (inode.size - offset)))) ∧
    ∀ s buf, OpenAt ops fs d inode file 0 s → buf ≠ 0 → ∀ ns, Chunks inode.size 0 ns →
      ∀ pre call post, (readCalls ops s file buf ns).1 = pre ++ call :: post →
        call.1 = call.2.length ∧ (call.1 = 0 ↔ pre.flatMap Prod.snd = inode.content fs d l) := by
  have hlen : (inode.content fs d l).length = inode.size := content_length h.room
  constructor
  · intro offset count hwrap hint
    rw [fat32ReadFile_slice h.readable h.room h.size_lt hwrap hint]
    split
    next hnone =>
      have hempty : ((inode.content fs d l).drop offset).take count = [] := by
        refine List.eq_nil_of_length_eq_zero ?_
        rw [List.length_take, List.length_drop, hlen]
        omega
      rw [hempty, show min count (inode.size - offset) = 0 by omega]
      rfl
    · refine Prod.ext rfl (List.take_eq_take_iff.mpr ?_)
      rw [List.length_drop, hlen]
      omega
  · intro s buf hopen hbuf ns hns pre call post hcalls
    obtain ⟨offset, n, hoff, hpos, hbefore, hresult, hbytes⟩ :=
      (readCalls_front h hopen hbuf (Nat.zero_le _) hns hcalls).place
    rw [List.take_zero, List.nil_append] at hbefore
    refine ⟨?_, ?_⟩
    · rw [hresult, hbytes, List.length_take, List.length_drop]
    · rw [hresult, hbefore]
      constructor
      · intro hzero
        exact List.take_of_length_le (by omega)
      · intro hall
        have := congrArg List.length hall
        rw [List.length_take] at this
        omega

/-- A file of six bytes in cluster 2. -/
def sixBytes : FatInode :=
  { cluster := 2, size := 6, isDir := false, parentCluster := 0, dirSector := 0, dirOffset := 0,
    ino := 2, inodeSize := 6 }

def sixDisk : Disk := smallDisk fun i => UInt8.ofNat (65 + i)

def sixOps : InodeOps Disk Unit :=
  { isDir := fun _ _ => false, size := fun _ _ => 6, lookup := fun _ _ _ => none,
    create := fun _ => none,
    read := fun _ => some (vfsReadOp smallFs sixBytes), write := fun _ => none }

/-- The file opened for reading. -/
def sixOpen : VfsState Disk Unit :=
  { fs := sixDisk, mounts := [],
    files := fun _ => { inode := some (), offset := 0, flags := VFS_O_READ },
    fileCount := 1 }

theorem fileOf_sixBytes : FileOf smallFs sixDisk sixBytes [2] where
  isFile := rfl
  readable := (chain_smallDisk _).readableFile (sane_smallDisk _)
  room := by decide
  size_lt := by decide

theorem fat32Read_slices_six :
    fat32ReadFile smallFs sixDisk 2 6 4 4 =
      (2, ((sixBytes.content smallFs sixDisk [2]).drop 4).take 2) ∧
      ∀ pre call post, (readCalls sixOps sixOpen 0 1 [4, 4, 4]).1 = pre ++ call :: post →
        call.1 = call.2.length ∧
          (call.1 = 0 ↔ pre.flatMap Prod.snd = sixBytes.content smallFs sixDisk [2]) := by
  obtain ⟨hslice, hcalls⟩ := fat32Read_slices sixOps 0 fileOf_sixBytes
  exact ⟨hslice 4 4 (by decide) (by decide),
    hcalls sixOpen 1 ⟨rfl, ⟨(), rfl, rfl⟩, rfl, by decide⟩ (by decide) [4, 4, 4]
      ⟨by decide, by decide, by decide, by decide, by decide, by decide, by decide, by decide,
        by decide, trivial⟩⟩

end Lumin.Fs.Fat32
