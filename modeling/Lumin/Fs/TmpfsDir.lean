import Lumin.Fs.Vfs
import Lumin.Lib.Table
import Lumin.Lib.Transition

/-!
# Directories of tmpfs

A model of `tmpfs_readdir`, `tmpfs_lookup`, `tmpfs_create`, `tmpfs_unlink` and
`tmpfs_mkdir` of `kernel/fs/tmpfs.c` on one directory.  An inode is its address, with 0
for `NULL`, and what `kmalloc` returns comes with the call.

The abstract directory is a list of names and inodes.  `tmpfs_dir_refines` says that the
table is this list in every run.
-/

namespace Lumin.Fs

open Lumin.Lib Lumin.Lib.Table

def TMPFS_MAX_ENTRIES : Nat := 64

/-- The fields of `struct vfs_inode` that a directory reads and writes. -/
structure TmpInode where
  ino : Nat
  type : InodeType
  size : Nat
  refcount : Nat

structure TmpChild where
  name : CStr
  inode : Nat

structure TmpDir where
  children : Nat → TmpChild
  childCount : Nat

/-- The directory and the inodes in memory. -/
structure TmpMem where
  dir : TmpDir
  inodes : Nat → TmpInode

/-- The loop over `a` and `b`, and `*a != *b` after it. -/
def nameMatch : CStr → CStr → Bool
  | a :: as, b :: bs => if a = b then nameMatch as bs else false
  | [], [] => true
  | _ :: _, [] => false
  | [], _ :: _ => false

/-- The name that the copy loop leaves in a field of `VFS_NAME_MAX` bytes. -/
def copyName (name : CStr) : CStr := name.take (VFS_NAME_MAX - 1)

/-- The loop over the children, up to the first with this name. -/
def findChild (d : TmpDir) (name : CStr) : Option Nat :=
  firstIndex d.children d.childCount fun c => nameMatch c.name name

/-- `tmpfs_readdir`.  `none` is `-1`. -/
def tmpfsReaddir (m : TmpMem) (index : Nat) : Option Dentry :=
  if index ≥ m.dir.childCount then none
  else
    let child := (m.dir.children index).inode
    some { name := copyName (m.dir.children index).name
           ino := if child ≠ 0 then (m.inodes child).ino else 0
           type := if child ≠ 0 then (m.inodes child).type else .file
           size := if child ≠ 0 then (m.inodes child).size else 0 }

/-- `tmpfs_lookup`: the inode, which has one more reference. -/
def tmpfsLookup (m : TmpMem) (name : CStr) : Option Nat × TmpMem :=
  match findChild m.dir name with
  | none => (none, m)
  | some i =>
    let child := (m.dir.children i).inode
    (some child,
      if child ≠ 0 then
        { m with inodes := Function.update m.inodes child
                             { m.inodes child with refcount := (m.inodes child).refcount + 1 } }
      else m)

/-- `d->children[d->child_count++]`, with the name and the inode. -/
def addChild (d : TmpDir) (name : CStr) (inode : Nat) : TmpDir :=
  { children := Function.update d.children d.childCount { name := copyName name, inode := inode }
    childCount := d.childCount + 1 }

/-- `inode->ino` is the address. -/
def newInode (inode : Nat) (type : InodeType) : TmpInode :=
  { ino := inode, type := type, size := 0, refcount := 1 }

/-- `tmpfs_create`; `inode` and `file` are what `kmalloc` returns for them. -/
def tmpfsCreate (m : TmpMem) (name : CStr) (inode file : Nat) : Int × TmpMem :=
  if m.dir.childCount ≥ TMPFS_MAX_ENTRIES then (-1, m)
  else if inode = 0 then (-1, m)
  else if file = 0 then (-1, m)
  else
    (0, { dir := addChild m.dir name inode
          inodes := Function.update m.inodes inode (newInode inode .file) })

/-- `tmpfs_mkdir`. -/
def tmpfsMkdir (m : TmpMem) (name : CStr) (childDir inode : Nat) : Int × TmpMem :=
  if m.dir.childCount ≥ TMPFS_MAX_ENTRIES then (-1, m)
  else if childDir = 0 then (-1, m)
  else if inode = 0 then (-1, m)
  else
    (0, { dir := addChild m.dir name inode
          inodes := Function.update m.inodes inode (newInode inode .dir) })

/-- `tmpfs_unlink`.  The memory of the inode is free after it. -/
def tmpfsUnlink (m : TmpMem) (name : CStr) : Int × TmpMem :=
  match findChild m.dir name with
  | none => (-1, m)
  | some i =>
    (0, { m with
          dir := { children := shiftDown (m.dir.childCount - 1 - i) i m.dir.children
                   childCount := m.dir.childCount - 1 } })

/-! ## Runs -/

inductive DirOp where
  | create (name : CStr) (inode file : Nat)
  | mkdir (name : CStr) (childDir inode : Nat)
  | unlink (name : CStr)
  | lookup (name : CStr)

/-- What a call returns, and the memory after it. -/
def dirCall (m : TmpMem) : DirOp → Int × TmpMem
  | .create name inode file => tmpfsCreate m name inode file
  | .mkdir name childDir inode => tmpfsMkdir m name childDir inode
  | .unlink name => tmpfsUnlink m name
  | .lookup name => (if (tmpfsLookup m name).1.isSome then 0 else -1, (tmpfsLookup m name).2)

/-- The abstract directory after a call that succeeds. -/
def listAfter (l : List (CStr × Nat)) : DirOp → List (CStr × Nat)
  | .create name inode _ => l ++ [(name, inode)]
  | .mkdir name _ inode => l ++ [(name, inode)]
  | .unlink name => l.eraseP fun e => e.1 = name
  | .lookup _ => l

/-- The memory, and beside it the abstract directory. -/
structure DirRun where
  mem : TmpMem
  list : List (CStr × Nat)

def dirStep (s : DirRun) (o : DirOp) : Option DirRun :=
  some { mem := (dirCall s.mem o).2
         list := if (dirCall s.mem o).1 = 0 then listAfter s.list o else s.list }

/-- The names of at most 255 bytes. -/
def DirOp.Fits (_ : DirRun) : DirOp → Prop
  | .create name _ _ => name.length ≤ 255
  | .mkdir name _ _ => name.length ≤ 255
  | .unlink name => name.length ≤ 255
  | .lookup name => name.length ≤ 255

/-- The directory of `tmpfs_alloc_dir`, in memory that holds anything. -/
def dirStart (children : Nat → TmpChild) (inodes : Nat → TmpInode) : DirRun :=
  { mem := { dir := { children := children, childCount := 0 }, inodes := inodes }, list := [] }

/-- The list that a directory stands for. -/
def dirEntries (d : TmpDir) :
    List (CStr × Nat) := (entries d.children d.childCount).map fun c => (c.name, c.inode)

/-- An element as `tmpfs_readdir` hands it out. -/
def dentryOf (inodes : Nat → TmpInode) (e : CStr × Nat) : Dentry :=
  { name := e.1, ino := (inodes e.2).ino, type := (inodes e.2).type, size := (inodes e.2).size }

/-- The table is the list, and no element is `NULL` or has a name that is too long. -/
structure DirInv (s : DirRun) : Prop where
  entries : dirEntries s.mem.dir = s.list
  count_le : s.mem.dir.childCount ≤ TMPFS_MAX_ENTRIES
  elems : ∀ e ∈ s.list, e.1.length ≤ 255 ∧ e.2 ≠ 0

variable {s s' : DirRun} {m : TmpMem} {d : TmpDir} {o : DirOp} {name : CStr}
  {inode file childDir index : Nat}

/-! ## The operations on the list -/

theorem nameMatch_iff (a b : CStr) : nameMatch a b = true ↔ a = b := by
  induction a, b using nameMatch.induct with
  | case1 a as bs ih => simp [nameMatch, ih]
  | case2 a as b bs hne => simp [nameMatch, hne]
  | case3 => simp [nameMatch]
  | case4 => simp [nameMatch]
  | case5 => simp [nameMatch]

theorem nameMatch_eq (a b : CStr) : nameMatch a b = decide (a = b) := by
  rw [Bool.eq_iff_iff, nameMatch_iff, decide_eq_true_iff]

theorem copyName_of_le (hname : name.length ≤ 255) : copyName name = name :=
  List.take_of_length_le hname

@[simp] theorem length_dirEntries (d : TmpDir) : (dirEntries d).length = d.childCount := by
  simp [dirEntries]

theorem findChild_eq (d : TmpDir) (name : CStr) :
    findChild d name = (dirEntries d).findIdx? fun e => e.1 = name := by
  unfold findChild dirEntries
  rw [firstIndex_entries, List.findIdx?_map]
  congr 1
  funext c
  exact nameMatch_eq c.name name

theorem getElem?_dirEntries (d : TmpDir) (i : Nat) :
    (dirEntries d)[i]? = if i < d.childCount then some ((d.children i).name, (d.children i).inode)
      else none := by
  rw [dirEntries, List.getElem?_map, getElem?_entries]
  split <;> rfl

theorem dirEntries_addChild (hname : name.length ≤ 255) :
    dirEntries (addChild d name inode) = dirEntries d ++ [(name, inode)] := by
  simp only [dirEntries, addChild, entries_push, List.map_append, List.map_singleton,
    copyName_of_le hname]

/-- The loop of `tmpfs_unlink` removes the first element with the name. -/
theorem dirEntries_unlink {i : Nat} (hi : findChild d name = some i) :
    dirEntries { children := shiftDown (d.childCount - 1 - i) i d.children,
                 childCount := d.childCount - 1 } =
      (dirEntries d).eraseP fun e => e.1 = name := by
  rw [List.eraseP_eq_eraseIdx, ← findChild_eq, hi]
  have hlt : i < d.childCount := by
    rw [findChild_eq] at hi
    obtain ⟨h, -, -⟩ := List.findIdx?_eq_some_iff_getElem.mp hi
    simpa using h
  unfold dirEntries
  rw [entries_shiftDown hlt]
  exact (List.eraseIdx_map _ _ _).symm

theorem findChild_eq_none_iff : findChild d name = none ↔ ∀ e ∈ dirEntries d, e.1 ≠ name := by
  rw [findChild_eq, List.findIdx?_eq_none_iff]
  simp

/-! ## One call -/

/-- What the two functions that add an element do. -/
structure Added (m : TmpMem) (name : CStr) (inode : Nat) (r : Int × TmpMem) : Prop where
  ok : r.1 = 0
  room : m.dir.childCount < TMPFS_MAX_ENTRIES
  inode_ne : inode ≠ 0
  dir : r.2.dir = addChild m.dir name inode

theorem tmpfsCreate_cases (m : TmpMem) (name : CStr) (inode file : Nat) :
    tmpfsCreate m name inode file = (-1, m) ∨
      Added m name inode (tmpfsCreate m name inode file) := by
  unfold tmpfsCreate
  split
  · exact .inl rfl
  next hroom =>
    split
    · exact .inl rfl
    next hinode =>
      split
      · exact .inl rfl
      · exact .inr ⟨rfl, by omega, hinode, rfl⟩

theorem tmpfsMkdir_cases (m : TmpMem) (name : CStr) (childDir inode : Nat) :
    tmpfsMkdir m name childDir inode = (-1, m) ∨
      Added m name inode (tmpfsMkdir m name childDir inode) := by
  unfold tmpfsMkdir
  split
  · exact .inl rfl
  next hroom =>
    split
    · exact .inl rfl
    · split
      · exact .inl rfl
      next hinode => exact .inr ⟨rfl, by omega, hinode, rfl⟩

theorem tmpfsUnlink_cases (m : TmpMem) (name : CStr) :
    tmpfsUnlink m name = (-1, m) ∨
      ∃ i, findChild m.dir name = some i ∧
        tmpfsUnlink m name =
          (0, { m with
                dir := { children := shiftDown (m.dir.childCount - 1 - i) i m.dir.children
                         childCount := m.dir.childCount - 1 } }) := by
  unfold tmpfsUnlink
  split
  · exact .inl rfl
  next i hfound => exact .inr ⟨i, hfound, rfl⟩

theorem tmpfsLookup_dir (m : TmpMem) (name : CStr) : (tmpfsLookup m name).2.dir = m.dir := by
  unfold tmpfsLookup
  split
  · rfl
  · dsimp only
    split <;> rfl

theorem tmpfsLookup_fst (m : TmpMem) (name : CStr) :
    (tmpfsLookup m name).1 = ((dirEntries m.dir).find? fun e => e.1 = name).map Prod.snd := by
  rw [List.find?_eq_bind_findIdx?_getElem?, ← findChild_eq]
  unfold tmpfsLookup
  rcases hfound : findChild m.dir name with _ | i
  · rfl
  · have hlt : i < m.dir.childCount := by
      rw [findChild_eq] at hfound
      obtain ⟨h, -, -⟩ := List.findIdx?_eq_some_iff_getElem.mp hfound
      simpa using h
    rw [Option.bind_some, getElem?_dirEntries, if_pos hlt]
    rfl

theorem DirInv.start (children : Nat → TmpChild) (inodes : Nat → TmpInode) :
    DirInv (dirStart children inodes) where
  entries := rfl
  count_le := Nat.zero_le _
  elems := by simp [dirStart]

/-- A call that fails, or adds an element, keeps the invariant. -/
theorem DirInv.add {r : Int × TmpMem} (hinv : DirInv s) (hname : name.length ≤ 255)
    (hr : r = (-1, s.mem) ∨ Added s.mem name inode r) :
    DirInv { mem := r.2, list := if r.1 = 0 then s.list ++ [(name, inode)] else s.list } := by
  rcases hr with rfl | hadd
  · exact hinv
  · rw [if_pos hadd.ok]
    exact {
      entries := by rw [hadd.dir, dirEntries_addChild hname, hinv.entries]
      count_le := by
        rw [hadd.dir]
        exact hadd.room
      elems := by
        intro e he
        rcases List.mem_append.mp he with hold | hnew
        · exact hinv.elems e hold
        · rw [List.mem_singleton.mp hnew]
          exact ⟨hname, hadd.inode_ne⟩ }

theorem DirInv.step (hinv : DirInv s) (hfits : o.Fits s) (hs : dirStep s o = some s') :
    DirInv s' := by
  obtain rfl := Option.some.inj hs
  cases o with
  | create name inode file => exact hinv.add hfits (tmpfsCreate_cases s.mem name inode file)
  | mkdir name childDir inode => exact hinv.add hfits (tmpfsMkdir_cases s.mem name childDir inode)
  | unlink name =>
    rcases tmpfsUnlink_cases s.mem name with hfail | ⟨i, hfound, hok⟩
    · rw [dirCall, hfail]
      exact hinv
    · rw [dirCall, hok]
      exact {
        entries := by
          show dirEntries _ = s.list.eraseP _
          rw [← hinv.entries, dirEntries_unlink hfound]
        count_le := Nat.le_trans (Nat.sub_le _ _) hinv.count_le
        elems := fun e he => hinv.elems e (List.mem_of_mem_eraseP he) }
  | lookup name =>
    rw [listAfter, ite_self, dirCall]
    exact {
      entries := by rw [tmpfsLookup_dir, hinv.entries]
      count_le := by
        rw [tmpfsLookup_dir]
        exact hinv.count_le
      elems := hinv.elems }

theorem tmpfsReaddir_eq (hinv : DirInv s) (index : Nat) :
    tmpfsReaddir s.mem index = s.list[index]?.map (dentryOf s.mem.inodes) := by
  rw [← hinv.entries, getElem?_dirEntries]
  unfold tmpfsReaddir
  by_cases hindex : index < s.mem.dir.childCount
  · have helem := hinv.elems ((s.mem.dir.children index).name, (s.mem.dir.children index).inode)
      (by
        rw [← hinv.entries]
        apply List.mem_of_getElem? (i := index)
        rw [getElem?_dirEntries, if_pos hindex])
    rw [if_neg (by omega), if_pos hindex]
    simp only [copyName_of_le helem.1, if_pos helem.2, Option.map_some, dentryOf]
  · rw [if_pos (by omega), if_neg hindex]
    rfl

/-- A directory is an ordered list, in every run. -/
theorem tmpfs_dir_refines (children : Nat → TmpChild) (inodes : Nat → TmpInode) (s : DirRun)
    (hr : Reach dirStep DirOp.Fits (dirStart children inodes) s) :
    dirEntries s.mem.dir = s.list ∧ s.list.length ≤ 64 ∧
      (s.list.length = 64 → ∀ name a b, (tmpfsCreate s.mem name a b).1 = -1 ∧
        (tmpfsMkdir s.mem name a b).1 = -1) ∧
      (∀ name, (tmpfsUnlink s.mem name).1 = -1 ↔ ∀ e ∈ s.list, e.1 ≠ name) ∧
      (∀ name, (tmpfsLookup s.mem name).1 = none ↔ ∀ e ∈ s.list, e.1 ≠ name) ∧
      (∀ name, (tmpfsLookup s.mem name).1 = (s.list.find? fun e => e.1 = name).map Prod.snd) ∧
      ∀ index, tmpfsReaddir s.mem index = s.list[index]?.map (dentryOf s.mem.inodes) := by
  have hinv : DirInv s :=
    Reach.invariant DirInv (DirInv.start children inodes)
      (fun _ _ _ h hfits hs => h.step hfits hs) hr
  have hlength : s.list.length = s.mem.dir.childCount := by rw [← hinv.entries, length_dirEntries]
  refine ⟨hinv.entries, hlength ▸ hinv.count_le, ?_, ?_, ?_, ?_, tmpfsReaddir_eq hinv⟩
  · intro hfull name a b
    have hcount : s.mem.dir.childCount ≥ TMPFS_MAX_ENTRIES := by
      show 64 ≤ s.mem.dir.childCount
      omega
    simp [tmpfsCreate, tmpfsMkdir, hcount]
  · intro name
    rw [← hinv.entries, ← findChild_eq_none_iff]
    unfold tmpfsUnlink
    rcases findChild s.mem.dir name with _ | i <;> simp
  · intro name
    rw [← hinv.entries, ← findChild_eq_none_iff]
    unfold tmpfsLookup
    rcases findChild s.mem.dir name with _ | i <;> simp
  · intro name
    rw [tmpfsLookup_fst, hinv.entries]

/-- Two names, the first of them twice, and one of the two removed. -/
def twiceAndRemove : List DirOp :=
  [.create [97] 8 9, .mkdir [98] 10 11, .create [97] 12 13, .unlink [97]]

theorem tmpfs_dir_refines_twiceAndRemove :
    ∃ s, run dirStep (dirStart (fun _ => ⟨[], 0⟩) (fun _ => newInode 0 .file)) twiceAndRemove =
        some s ∧
      dirEntries s.mem.dir = [([98], 11), ([97], 12)] ∧ (tmpfsLookup s.mem [97]).1 = some 12 ∧
      tmpfsReaddir s.mem 0 = some { name := [98], ino := 11, type := .dir, size := 0 } := by
  have hrun : run dirStep (dirStart (fun _ => ⟨[], 0⟩) (fun _ => newInode 0 .file)) twiceAndRemove
      = some _ := rfl
  have hguarded :
      Guarded dirStep DirOp.Fits (dirStart (fun _ => ⟨[], 0⟩) (fun _ => newInode 0 .file))
      twiceAndRemove := by
    refine ⟨?_, ?_, ?_, ?_, trivial⟩ <;> exact Nat.le_of_ble_eq_true rfl
  obtain ⟨hentries, -, -, -, -, hlookup, hreaddir⟩ :=
    tmpfs_dir_refines _ _ _ (reach_of_guarded hguarded hrun)
  exact ⟨_, hrun, hentries, hlookup [97], hreaddir 0⟩

end Lumin.Fs
