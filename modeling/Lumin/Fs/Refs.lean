import Lumin.Fs.Files
import Lumin.Lib.Transition

/-!
# Reference counts of the VFS

A model of the functions of `kernel/fs/vfs.c` that take and drop references:
`vfs_inode_ref`, `vfs_inode_unref`, `resolve_full`, `resolve_parent` and the calls over
them.  The filesystems are a parameter.  `Filesystems.Lawful` is what is assumed of
them: a lookup hands out one reference or changes no count, and the other operations
change a count only together with the permanent references.

A call holds references of its own while it walks.  `Rules` says what a property of the
world and of these references has to keep in order to hold through path resolution.
`Account fs w₀ w held` is such a property: the state of the books in the middle of a call
that began in `w₀` and holds `held`.  `refs_conserved` is the result for every run.
-/

namespace Lumin.Fs.Refs

open Lumin.Lib

/-- The counts of the inodes, and whatever else the filesystems keep.  `perm` is the
number of mounts and directory entries that refer to an inode. -/
structure Heap (σ ι : Type) where
  refcount : ι → Nat
  perm : ι → Nat
  fs : σ

/-- The members of `struct vfs_inode_ops` that path calls use. -/
inductive InodeOp where
  | lookup
  | readdir
  | truncate
  | create
  | unlink
  | mkdir

/-- The mounted filesystems.  `has` says that `inode->ops` has the member, `destroys`
that the superblock of the inode has a `destroy_inode`. -/
structure Filesystems (σ ι : Type) where
  ino : σ → ι → Nat
  type : σ → ι → InodeType
  size : σ → ι → Nat
  bdev : σ → ι → Nat
  has : σ → ι → InodeOp → Bool
  destroys : ι → Bool
  lookup : Heap σ ι → ι → CStr → Option ι × Heap σ ι
  readdir : Heap σ ι → ι → Nat → Option Dentry × Heap σ ι
  truncate : Heap σ ι → ι → Nat → Int × Heap σ ι
  create : Heap σ ι → ι → CStr → Int × Heap σ ι
  unlink : Heap σ ι → ι → CStr → Int × Heap σ ι
  mkdir : Heap σ ι → ι → CStr → Int × Heap σ ι
  destroyInode : Heap σ ι → ι → Heap σ ι

/-- The VFS.  `destroyed` counts the calls of `destroy_inode` on each inode, and `begun`
how often its count left zero. -/
structure World (σ ι : Type) where
  vfs : VfsState (Heap σ ι) ι
  destroyed : ι → Nat
  begun : ι → Nat

variable {σ ι : Type} [DecidableEq ι]

abbrev World.heap (w : World σ ι) : Heap σ ι := w.vfs.fs

def World.setHeap (w : World σ ι) (h : Heap σ ι) : World σ ι :=
  { w with
    vfs := { w.vfs with fs := h }
    begun := fun i => w.begun i + if w.heap.refcount i = 0 ∧ h.refcount i ≠ 0 then 1 else 0 }

def Heap.setCount (h : Heap σ ι) (i : ι) (n : Nat) : Heap σ ι :=
  { h with refcount := Function.update h.refcount i n }

/-- `vfs_inode_ref`. -/
def vfsInodeRef (w : World σ ι) (inode : ι) : World σ ι :=
  w.setHeap (w.heap.setCount inode (w.heap.refcount inode + 1))

/-- `vfs_inode_unref`. -/
def vfsInodeUnref (fs : Filesystems σ ι) (w : World σ ι) (inode : ι) : World σ ι :=
  if w.heap.refcount inode = 0 then w
  else
    let w := w.setHeap (w.heap.setCount inode (w.heap.refcount inode - 1))
    if w.heap.refcount inode = 0 ∧ fs.destroys inode then
      { w.setHeap (fs.destroyInode w.heap inode) with
        destroyed := Function.update w.destroyed inode (w.destroyed inode + 1) }
    else w

/-- The mount that the walk enters at `full`: the first one after the root. -/
def mountRoot (w : World σ ι) (full : CStr) : Option ι :=
  (w.vfs.mounts.tail.find? fun m => m.path = full).map Mount.root

/-- The loop of `resolve_full`, which holds a reference to `cur`. -/
def resolveWalk (fs : Filesystems σ ι) :
    Nat → CStr → CStr → ι → World σ ι → Option (ι × CStr) × World σ ι
  | 0, _, full, cur, w => (some (cur, full), w)
  | fuel + 1, path, full, cur, w =>
    if path = [] then (some (cur, full), w)
    else
      let full := pushFull full (path.takeWhile (· = SLASH))
      let path := path.dropWhile (· = SLASH)
      if path = [] then (some (cur, full), w)
      else
        let name := (path.takeWhile (· ≠ SLASH)).take (VFS_NAME_MAX - 1)
        let full := pushFull full name
        match mountRoot w full with
        | some root =>
          resolveWalk fs fuel (path.drop name.length) full root
            (vfsInodeRef (vfsInodeUnref fs w cur) root)
        | none =>
          if fs.type w.heap.fs cur ≠ .dir ∨ fs.has w.heap.fs cur .lookup = false
            then (none, vfsInodeUnref fs w cur)
          else
            match fs.lookup w.heap cur name with
            | (none, h) => (none, vfsInodeUnref fs (w.setHeap h) cur)
            | (some next, h) =>
              resolveWalk fs fuel (path.drop name.length) full next
                (vfsInodeUnref fs (w.setHeap h) cur)

/-- The last mount with exactly this path takes the place of `cur`. -/
def overrideMount (fs : Filesystems σ ι) (w : World σ ι) (full : CStr) (cur : ι) :
    ι × World σ ι :=
  match w.vfs.mounts.reverse.find? fun m => m.path = full with
  | some m => if m.root ≠ cur then (m.root, vfsInodeRef (vfsInodeUnref fs w cur) m.root)
    else (cur, w)
  | none => (cur, w)

/-- `resolve_full`.  `none` is `-1`. -/
def resolveFull (fs : Filesystems σ ι) (w : World σ ι) (path : CStr) : Option ι × World σ ι :=
  if path = [] then (none, w)
  else
    match w.vfs.mounts with
    | [] => (none, w)
    | rootMount :: _ =>
      let start := if path.head? = some SLASH then [] else [SLASH]
      match resolveWalk fs path.length path start rootMount.root
        (vfsInodeRef w rootMount.root) with
      | (none, w) => (none, w)
      | (some (cur, full), w) =>
        ((overrideMount fs w full cur).1, (overrideMount fs w full cur).2)

/-- `resolve_parent`: the directory and the name of the child. -/
def resolveParent (fs : Filesystems σ ι) (w : World σ ι) (path : CStr) :
    Option (ι × CStr) × World σ ι :=
  if path.head? ≠ some SLASH then (none, w)
  else
    let parent := parentPath path
    let name := (((path.drop parent.length).dropWhile (· = SLASH)).takeWhile (· ≠ SLASH)).take
        (VFS_NAME_MAX - 1)
    match resolveFull fs w parent with
    | (none, w) => (none, w)
    | (some dir, w) => (some (dir, name), w)

/-- `vfs_create`, `vfs_unlink` and `vfs_mkdir`, with the operation of the parent that they
call. -/
def inParent (fs : Filesystems σ ι) (op : InodeOp) (act : Heap σ ι → ι → CStr → Int × Heap σ ι)
    (w : World σ ι)
    (path : CStr) : Int × World σ ι :=
  match resolveParent fs w path with
  | (none, w) => (-1, w)
  | (some (parent, name), w) =>
    if fs.type w.heap.fs parent ≠ .dir ∨
      fs.has w.heap.fs parent op = false then (-1, vfsInodeUnref fs w parent)
    else ((act w.heap parent name).1,
      vfsInodeUnref fs (w.setHeap (act w.heap parent name).2) parent)

def vfsCreate (fs : Filesystems σ ι) : World σ ι → CStr → Int × World σ ι :=
  inParent fs .create fs.create

def vfsUnlink (fs : Filesystems σ ι) : World σ ι → CStr → Int × World σ ι :=
  inParent fs .unlink fs.unlink

def vfsMkdir (fs : Filesystems σ ι) : World σ ι → CStr → Int × World σ ι :=
  inParent fs .mkdir fs.mkdir

/-- The inode that `vfs_open` finds or creates. -/
def openInode (fs : Filesystems σ ι) (w : World σ ι) (path : CStr) (flags : Nat) :
    Option ι × World σ ι :=
  match resolveFull fs w path with
  | (some inode, w) => (some inode, w)
  | (none, w) =>
    if flags &&& VFS_O_CREAT ≠ 0 then
      match vfsCreate fs w path with
      | (r, w) => if r = 0 then resolveFull fs w path else (none, w)
    else (none, w)

/-- `vfs_open`: the file, `none` for `NULL`. -/
def vfsOpen (fs : Filesystems σ ι) (w : World σ ι) (path : CStr) (flags : Nat) :
    Option Nat × World σ ι :=
  match openInode fs w path flags with
  | (none, w) => (none, w)
  | (some inode, w) =>
    match freeSlot w.vfs with
    | none => (none, vfsInodeUnref fs w inode)
    | some idx =>
      (some idx, { w with vfs := installFile w.vfs idx { inode := some inode, offset := 0,
                                                         flags := flags } })

/-- `vfs_dup`. -/
def vfsDup (w : World σ ι) (file : Nat) : Option Nat × World σ ι :=
  match (w.vfs.files file).inode, freeSlot w.vfs with
  | some inode, some idx =>
    (some idx, { vfsInodeRef w inode with
      vfs := installFile (vfsInodeRef w inode).vfs idx (w.vfs.files file) })
  | _, _ => (none, w)

/-- `vfs_close`. -/
def vfsClose (fs : Filesystems σ ι) (w : World σ ι) (file : Nat) : Int × World σ ι :=
  match (w.vfs.files file).inode with
  | none => (-1, w)
  | some inode =>
    let w := vfsInodeUnref fs w inode
    (0, { w with vfs := w.vfs.setFile file { inode := none, offset := 0, flags := 0 } })

/-- `vfs_stat`: the fields of the entry that it fills. -/
def vfsStat (fs : Filesystems σ ι) (w : World σ ι) (path : CStr) :
    Option (Nat × InodeType × Nat) × World σ ι :=
  match resolveFull fs w path with
  | (none, w) => (none, w)
  | (some inode, w) =>
    (some (fs.ino w.heap.fs inode, fs.type w.heap.fs inode, fs.size w.heap.fs inode),
      vfsInodeUnref fs w inode)

/-- The loop that counts the entries; `none` if it takes more than `turns`. -/
def countEntries (fs : Filesystems σ ι) (inode : ι) :
    Nat → Nat → World σ ι → Option (Nat × World σ ι)
  | 0, _, _ => none
  | turns + 1, fsCount, w =>
    match fs.readdir w.heap inode fsCount with
    | (none, h) => some (fsCount, w.setHeap h)
    | (some _, h) => countEntries fs inode turns (fsCount + 1) (w.setHeap h)

/-- The name of the mount directly below `path`. -/
def directChild (path : CStr) (m : Mount ι) : Option CStr :=
  let child := (m.path.drop path.length).dropWhile (· = SLASH)
  if path.isPrefixOf m.path ∧ child ≠ [] ∧ SLASH ∉ child then some child else none

/-- `vfs_readdir`.  The outer `none` is a call that does not come back within `turns`. -/
def vfsReaddir (fs : Filesystems σ ι) (w : World σ ι) (path : CStr) (index turns : Nat) :
    Option (Option Dentry × World σ ι) :=
  match resolveFull fs w path with
  | (none, w) => some (none, w)
  | (some inode, w) =>
    if fs.type w.heap.fs inode ≠ .dir ∨ fs.has w.heap.fs inode .readdir = false then
      some (none, vfsInodeUnref fs w inode)
    else
      match countEntries fs inode turns 0 w with
      | none => none
      | some (fsCount, w) =>
        if index < fsCount then
          match fs.readdir w.heap inode index with
          | (entry, h) => some (entry, vfsInodeUnref fs (w.setHeap h) inode)
        else
          some ((w.vfs.mounts.tail.filterMap (directChild path))[index - fsCount]?.map
            fun child =>
              { name := child.take (VFS_NAME_MAX - 1), ino := 0, type := .dir, size := 0 },
            vfsInodeUnref fs w inode)

/-- `vfs_truncate`. -/
def vfsTruncate (fs : Filesystems σ ι) (w : World σ ι) (path : CStr) (size : Nat) :
    Int × World σ ι :=
  match resolveFull fs w path with
  | (none, w) => (-1, w)
  | (some inode, w) =>
    if fs.has w.heap.fs inode .truncate = false then (-1, vfsInodeUnref fs w inode)
    else
      match fs.truncate w.heap inode size with
      | (r, h) => (r, vfsInodeUnref fs (w.setHeap h) inode)

/-- `vfs_get_block_device`: the device, `none` for `NULL`. -/
def vfsGetBlockDevice (fs : Filesystems σ ι) (w : World σ ι) (path : CStr) :
    Option Nat × World σ ι :=
  match resolveFull fs w path with
  | (none, w) => (none, w)
  | (some inode, w) =>
    if fs.type w.heap.fs inode ≠ .blkdev then (none, vfsInodeUnref fs w inode)
    else (some (fs.bdev w.heap.fs inode), vfsInodeUnref fs w inode)

/-! ## The invariant -/

/-- The slots of `file_table` that point to the inode. -/
def World.slots (w : World σ ι) (i : ι) : Nat :=
  (List.range VFS_FILE_MAX).countP fun j => (w.vfs.files j).inode = some i

/-- The references that the inode should have between two calls. -/
def World.sum (w : World σ ι) (i : ι) : Nat := w.heap.perm i + w.slots i

def World.Balanced (w : World σ ι) : Prop := ∀ i, w.heap.refcount i = w.sum i

/-- What is assumed of the filesystems.  A new directory entry comes with its reference. -/
structure Filesystems.Lawful (fs : Filesystems σ ι) : Prop where
  lookup_some : ∀ h d name i h', fs.lookup h d name = (some i, h') →
    h'.perm = h.perm ∧ h'.refcount = Function.update h.refcount i (h.refcount i + 1)
  lookup_none : ∀ h d name h', fs.lookup h d name = (none, h') →
    h'.perm = h.perm ∧ h'.refcount = h.refcount
  readdir : ∀ h d index, (fs.readdir h d index).2.perm = h.perm ∧
    (fs.readdir h d index).2.refcount = h.refcount
  truncate : ∀ h i size, (fs.truncate h i size).2.perm = h.perm ∧
    (fs.truncate h i size).2.refcount = h.refcount
  create : ∀ h d name i, h.perm i ≤ (fs.create h d name).2.perm i ∧
    (fs.create h d name).2.refcount i + h.perm i = h.refcount i + (fs.create h d name).2.perm i
  mkdir : ∀ h d name i, h.perm i ≤ (fs.mkdir h d name).2.perm i ∧
    (fs.mkdir h d name).2.refcount i + h.perm i = h.refcount i + (fs.mkdir h d name).2.perm i
  destroyInode :
    ∀ h i, (fs.destroyInode h i).perm = h.perm ∧ (fs.destroyInode h i).refcount = h.refcount

/-- The books in the middle of a call that began in `w₀`: each count is the permanent
references, the slots and what the call holds.  A `destroy_inode` stands against each
time that a count left zero and came back, and no inode in use at the start began anew. -/
structure Account (fs : Filesystems σ ι) (w₀ w : World σ ι) (held : List ι) : Prop where
  mounts : w.vfs.mounts = w₀.vfs.mounts
  files : w.vfs.files = w₀.vfs.files
  perm_le : ∀ i, w₀.heap.perm i ≤ w.heap.perm i
  count : ∀ i, w.heap.refcount i = w.sum i + held.count i
  begun : ∀ i, w₀.sum i ≠ 0 → w.begun i = w₀.begun i
  ledger : ∀ i, fs.destroys i = true →
    w.destroyed i + min (w.heap.refcount i) 1 + w₀.begun i = w.begun i + w₀.destroyed i +
      min (w₀.sum i) 1

variable {fs : Filesystems σ ι} {w w₀ w' : World σ ι} {h : Heap σ ι} {held held' : List ι}
  {cur inode : ι}
  {path full name : CStr} {op : InodeOp}

/-! ## Taking and dropping references -/

theorem Account.start (fs : Filesystems σ ι) (hw : w.Balanced) : Account fs w w [] where
  mounts := rfl
  files := rfl
  perm_le := fun _ => Nat.le_refl _
  count := hw
  begun := fun _ _ => rfl
  ledger := fun i _ => by
    rw [hw i]
    omega

theorem Account.sum_le (ha : Account fs w₀ w held) (i : ι) : w₀.sum i ≤ w.sum i := by
  have hperm := ha.perm_le i
  unfold World.sum World.slots
  rw [ha.files]
  omega

theorem Account.perm (ha : Account fs w₀ w held) (hperm : held.Perm held') :
    Account fs w₀ w held' :=
  { ha with count := fun i => by rw [ha.count i, hperm.count_eq] }

/-- A change of the heap after which no count is lower. -/
theorem Account.setHeap (ha : Account fs w₀ w held) (hperm : ∀ i, w.heap.perm i ≤ h.perm i)
    (hgrow : ∀ i, w.heap.refcount i ≤ h.refcount i)
    (hcount : ∀ i, h.refcount i = h.perm i + w.slots i + held'.count i) :
    Account fs w₀ (w.setHeap h) held' where
  mounts := ha.mounts
  files := ha.files
  perm_le := fun i => Nat.le_trans (ha.perm_le i) (hperm i)
  count := hcount
  begun := by
    intro i hi
    have hcur := ha.count i
    have hle := ha.sum_le i
    show w.begun i + (if w.heap.refcount i = 0 ∧ h.refcount i ≠ 0 then 1 else 0) = w₀.begun i
    rw [if_neg (by omega), ha.begun i hi, Nat.add_zero]
  ledger := by
    intro i hi
    have hold := ha.ledger i hi
    have hle := hgrow i
    show w.destroyed i + min (h.refcount i) 1 + w₀.begun i =
      w.begun i + (if w.heap.refcount i = 0 ∧ h.refcount i ≠ 0 then 1 else 0) + w₀.destroyed i +
        min (w₀.sum i) 1
    split <;> omega

/-- An operation that changes no count. -/
theorem Account.quiet (ha : Account fs w₀ w held)
    (hh : h.perm = w.heap.perm ∧ h.refcount = w.heap.refcount) :
    Account fs w₀ (w.setHeap h) held := by
  refine ha.setHeap (fun i => by rw [hh.1]) (fun i => by rw [hh.2]) fun i => ?_
  rw [hh.1, hh.2, ha.count i]
  rfl

/-- An inode that gets one reference more. -/
theorem Account.gain (ha : Account fs w₀ w held)
    (hh : h.perm = w.heap.perm ∧
      h.refcount = Function.update w.heap.refcount inode (w.heap.refcount inode + 1)) :
    Account fs w₀ (w.setHeap h) (inode :: held) := by
  have hrefs : ∀ i, h.refcount i = w.heap.refcount i + if inode = i then 1 else 0 := by
    intro i
    rw [hh.2, Function.update_apply]
    split
    next heq => rw [heq, if_pos rfl]
    next hne => rw [if_neg (fun heq => hne heq.symm), Nat.add_zero]
  refine ha.setHeap (fun i => by rw [hh.1]) (fun i => by rw [hrefs i]; omega) fun i => ?_
  rw [hrefs i, hh.1, ha.count i, List.count_cons]
  unfold World.sum
  simp only [beq_iff_eq]
  omega

theorem Account.ref (ha : Account fs w₀ w held) (inode : ι) :
    Account fs w₀ (vfsInodeRef w inode) (inode :: held) :=
  ha.gain ⟨rfl, rfl⟩

/-- What `vfs_inode_unref` does to an inode in use. -/
structure Dropped (fs : Filesystems σ ι) (w w' : World σ ι) (inode : ι) : Prop where
  vfs : w'.vfs.mounts = w.vfs.mounts ∧ w'.vfs.files = w.vfs.files
  perm : w'.heap.perm = w.heap.perm
  refcount : ∀ i, w'.heap.refcount i = w.heap.refcount i - if inode = i then 1 else 0
  begun : w'.begun = w.begun
  destroyed : ∀ i, w'.destroyed i =
    w.destroyed i + if inode = i ∧ w.heap.refcount inode = 1 ∧
      fs.destroys inode = true then 1 else 0

omit [DecidableEq ι] in
theorem setHeap_begun (hle : ∀ i, w.heap.refcount i = 0 → h.refcount i = 0) :
    (w.setHeap h).begun = w.begun := by
  funext i
  show w.begun i + (if w.heap.refcount i = 0 ∧ h.refcount i ≠ 0 then 1 else 0) = w.begun i
  rw [if_neg (fun hi => hi.2 (hle i hi.1)), Nat.add_zero]

theorem vfsInodeUnref_dropped (hfs : fs.Lawful) (hw : w.heap.refcount inode ≠ 0) :
    Dropped fs w (vfsInodeUnref fs w inode) inode := by
  have hcount : ∀ i, (w.heap.setCount inode (w.heap.refcount inode - 1)).refcount i =
      w.heap.refcount i - if inode = i then 1 else 0 := by
    intro i
    show Function.update w.heap.refcount inode (w.heap.refcount inode - 1) i = _
    rw [Function.update_apply]
    split
    next heq => rw [heq, if_pos rfl]
    next hne => rw [if_neg (fun heq => hne heq.symm), Nat.sub_zero]
  have hbegun :
      (w.setHeap (w.heap.setCount inode (w.heap.refcount inode - 1))).begun = w.begun := by
    apply setHeap_begun
    intro i hi
    rw [hcount i, hi, Nat.zero_sub]
  unfold vfsInodeUnref
  rw [if_neg hw]
  dsimp only
  generalize hnew : w.heap.setCount inode (w.heap.refcount inode - 1) = new at hcount hbegun ⊢
  have hzero : new.refcount inode = 0 ↔ w.heap.refcount inode = 1 := by
    rw [hcount inode, if_pos rfl]
    omega
  split
  next hlast =>
    have hdestroy := hfs.destroyInode new inode
    exact {
      vfs := ⟨rfl, rfl⟩
      perm := by
        show (fs.destroyInode new inode).perm = w.heap.perm
        rw [hdestroy.1, ← hnew]
        rfl
      refcount := by
        intro i
        show (fs.destroyInode new inode).refcount i = _
        rw [hdestroy.2, hcount i]
      begun := by
        rw [← hbegun]
        apply setHeap_begun
        intro i hi
        show (fs.destroyInode new inode).refcount i = 0
        rw [hdestroy.2]
        exact hi
      destroyed := by
        intro i
        show Function.update w.destroyed inode (w.destroyed inode + 1) i = _
        rw [Function.update_apply]
        split
        next heq => rw [heq, if_pos ⟨rfl, hzero.mp hlast.1, hlast.2⟩]
        next hne => rw [if_neg (fun hi => hne hi.1.symm), Nat.add_zero] }
  next hmore =>
    exact {
      vfs := ⟨rfl, rfl⟩
      perm := by
        show new.perm = w.heap.perm
        rw [← hnew]
        rfl
      refcount := hcount
      begun := hbegun
      destroyed := by
        intro i
        rw [if_neg (fun hi => hmore ⟨hzero.mpr hi.2.1, hi.2.2⟩), Nat.add_zero]
        rfl }

theorem Account.unref (hfs : fs.Lawful) (ha : Account fs w₀ w (inode :: held)) :
    Account fs w₀ (vfsInodeUnref fs w inode) held := by
  have hheld : ∀ i, (inode :: held).count i = held.count i + if inode = i then 1 else 0 := by
    intro i
    rw [List.count_cons]
    simp only [beq_iff_eq]
  have huse : w.heap.refcount inode ≠ 0 := by
    rw [ha.count inode, hheld inode, if_pos rfl]
    omega
  have hdrop := vfsInodeUnref_dropped hfs huse
  exact {
    mounts := hdrop.vfs.1.trans ha.mounts
    files := hdrop.vfs.2.trans ha.files
    perm_le := by
      rw [hdrop.perm]
      exact ha.perm_le
    count := by
      intro i
      rw [hdrop.refcount i, ha.count i, hheld i]
      unfold World.sum World.slots
      rw [hdrop.perm, hdrop.vfs.2]
      omega
    begun := by
      rw [hdrop.begun]
      exact ha.begun
    ledger := by
      intro i hi
      have hold := ha.ledger i hi
      rw [hdrop.begun, hdrop.destroyed i, hdrop.refcount i]
      by_cases heq : inode = i
      · subst heq
        simp only [hi, if_true, true_and, and_true]
        split <;> omega
      · simp only [heq, if_false, false_and]
        omega }

/-! ## Path resolution -/

@[simp] theorem vfsInodeUnref_mounts (fs : Filesystems σ ι) (w : World σ ι) (inode : ι) :
    (vfsInodeUnref fs w inode).vfs.mounts = w.vfs.mounts := by
  unfold vfsInodeUnref
  split
  · rfl
  · dsimp only
    split <;> rfl

/-- What a property of the world and of the references that a call holds has to keep in
order to hold through path resolution. -/
structure Rules (fs : Filesystems σ ι) (P : World σ ι → List ι → Prop) : Prop where
  perm : ∀ {w held held'}, P w held → held.Perm held' → P w held'
  ref : ∀ {w held m}, P w held → m ∈ w.vfs.mounts → P (vfsInodeRef w m.root) (m.root :: held)
  unref : ∀ {w held inode}, P w (inode :: held) → P (vfsInodeUnref fs w inode) held
  lookup : ∀ {w cur held}, P w (cur :: held) → fs.type w.heap.fs cur = .dir →
    fs.has w.heap.fs cur .lookup = true →
    ∀ name, P (w.setHeap (fs.lookup w.heap cur name).2)
        ((fs.lookup w.heap cur name).1.toList ++ cur :: held)

variable {P : World σ ι → List ι → Prop}

/-- The walk ends with a reference to the inode that it returns, and with none if it fails. -/
theorem Rules.resolveWalk (hP : Rules fs P) (fuel : Nat) (path full : CStr) (hw : P w [cur]) :
    P (resolveWalk fs fuel path full cur w).2
      ((resolveWalk fs fuel path full cur w).1.map Prod.fst).toList := by
  induction fuel generalizing path full cur w with
  | zero => exact hw
  | succ fuel ih =>
    rw [Refs.resolveWalk]
    split
    · exact hw
    · dsimp only
      split
      · exact hw
      · split
        next root hroot =>
          obtain ⟨m, hm, rfl⟩ := Option.map_eq_some_iff.mp hroot
          have hmem : m ∈ (vfsInodeUnref fs w cur).vfs.mounts := by
            rw [vfsInodeUnref_mounts]
            exact List.mem_of_mem_tail (List.mem_of_find?_eq_some hm)
          exact ih _ _ (hP.ref (hP.unref hw) hmem)
        next =>
          split
          · exact hP.unref hw
          next hdir =>
            rw [not_or, not_not, Bool.not_eq_false] at hdir
            have hlooked := hP.lookup hw hdir.1 hdir.2
              (((path.dropWhile (· = SLASH)).takeWhile (· ≠ SLASH)).take (VFS_NAME_MAX - 1))
            split
            next h hlookup =>
              rw [hlookup] at hlooked
              exact hP.unref hlooked
            next next h hlookup =>
              rw [hlookup] at hlooked
              -- the reference to `cur` is dropped from behind the new one
              exact ih _ _ (hP.unref (hP.perm hlooked (List.Perm.swap _ _ _)))

theorem Rules.overrideMount (hP : Rules fs P) (hw : P w [cur]) :
    P (overrideMount fs w full cur).2 [(overrideMount fs w full cur).1] := by
  unfold Refs.overrideMount
  split
  next m hm =>
    have hmem : m ∈ (vfsInodeUnref fs w cur).vfs.mounts := by
      rw [vfsInodeUnref_mounts]
      exact List.mem_reverse.mp (List.mem_of_find?_eq_some hm)
    split
    · exact hP.ref (hP.unref hw) hmem
    · exact hw
  · exact hw

theorem Rules.resolveFull (hP : Rules fs P) (hw : P w []) (path : CStr) :
    P (resolveFull fs w path).2 (resolveFull fs w path).1.toList := by
  unfold Refs.resolveFull
  split
  · exact hw
  · split
    · exact hw
    next rootMount rest hmounts =>
      dsimp only
      have hroot := hP.ref hw (m := rootMount) (by rw [hmounts]; exact List.mem_cons_self)
      have hwalk :=
        hP.resolveWalk path.length path (if path.head? = some SLASH then [] else [SLASH]) hroot
      split
      next w' hres =>
        rw [hres] at hwalk
        exact hwalk
      next cur full w' hres =>
        rw [hres] at hwalk
        exact hP.overrideMount hwalk

theorem Rules.resolveParent (hP : Rules fs P) (hw : P w []) (path : CStr) :
    P (resolveParent fs w path).2 ((resolveParent fs w path).1.map Prod.fst).toList := by
  unfold Refs.resolveParent
  split
  · exact hw
  · dsimp only
    have hfull := hP.resolveFull hw (parentPath path)
    split
    next w' hres =>
      rw [hres] at hfull
      exact hfull
    next dir w' hres =>
      rw [hres] at hfull
      exact hfull

theorem Rules.inParent {act : Heap σ ι → ι → CStr → Int × Heap σ ι} (hP : Rules fs P)
    (hact : ∀ {w parent held}, P w (parent :: held) → fs.type w.heap.fs parent = .dir →
      ∀ name, P (w.setHeap (act w.heap parent name).2) (parent :: held))
    (hw : P w []) (path : CStr) : P (inParent fs op act w path).2 [] := by
  unfold Refs.inParent
  have hparent := hP.resolveParent hw path
  split
  next w' hres =>
    rw [hres] at hparent
    exact hparent
  next parent name w' hres =>
    rw [hres] at hparent
    split
    · exact hP.unref hparent
    next hdir =>
      rw [not_or, not_not] at hdir
      exact hP.unref (hact hparent hdir.1 name)

theorem Rules.openInode (hP : Rules fs P)
    (hcreate : ∀ {w parent held}, P w (parent :: held) → fs.type w.heap.fs parent = .dir →
      ∀ name, P (w.setHeap (fs.create w.heap parent name).2) (parent :: held))
    (hw : P w []) (path : CStr) (flags : Nat) :
    P (openInode fs w path flags).2 (openInode fs w path flags).1.toList := by
  unfold Refs.openInode
  have hfull := hP.resolveFull hw path
  split
  next inode w' hres =>
    rw [hres] at hfull
    exact hfull
  next w' hres =>
    rw [hres] at hfull
    split
    · split
      next r w'' hres' =>
        have hadd : P (vfsCreate fs w' path).2 [] := hP.inParent hcreate hfull path
        rw [hres'] at hadd
        split
        · exact hP.resolveFull hadd path
        · exact hadd
    · exact hfull

/-- The books are kept through path resolution. -/
theorem account_rules (hfs : fs.Lawful) (w₀ : World σ ι) : Rules fs (Account fs w₀) where
  perm := Account.perm
  ref := fun ha _ => ha.ref _
  unref := Account.unref hfs
  lookup := by
    intro w cur held ha _ _ name
    rcases hlookup : fs.lookup w.heap cur name with ⟨_ | i, h⟩
    · exact ha.quiet (hfs.lookup_none _ _ _ _ hlookup)
    · exact ha.gain (hfs.lookup_some _ _ _ _ _ hlookup)

/-! ## The calls -/

/-- A new directory entry comes with its reference. -/
theorem Account.add {act : Heap σ ι → ι → CStr → Int × Heap σ ι}
    (hact : ∀ h d name i, h.perm i ≤ (act h d name).2.perm i ∧
      (act h d name).2.refcount i + h.perm i = h.refcount i + (act h d name).2.perm i)
    (ha : Account fs w₀ w held) (d : ι) (name : CStr) :
    Account fs w₀ (w.setHeap (act w.heap d name).2) held := by
  refine ha.setHeap (fun i => (hact w.heap d name i).1) (fun i => ?_) fun i => ?_
  · have hi := hact w.heap d name i
    omega
  · have hi := hact w.heap d name i
    have hcount : w.heap.refcount i = w.heap.perm i + w.slots i + held.count i := ha.count i
    omega

theorem Account.countEntries (hfs : fs.Lawful) {turns n m : Nat} (ha : Account fs w₀ w held)
    (hcount : countEntries fs inode turns n w = some (m, w')) : Account fs w₀ w' held := by
  induction turns generalizing n w with
  | zero => contradiction
  | succ turns ih =>
    rw [Refs.countEntries] at hcount
    have hquiet := ha.quiet (hfs.readdir w.heap inode n)
    split at hcount
    next h hres =>
      rw [hres] at hquiet
      obtain ⟨rfl, rfl⟩ := Prod.mk.inj (Option.some.inj hcount)
      exact hquiet
    next h hres =>
      rw [hres] at hquiet
      exact ih hquiet hcount

/-! ## Runs -/

inductive RefOp where
  | open (path : CStr) (flags : Nat)
  | dup (file : Fin VFS_FILE_MAX)
  | close (file : Fin VFS_FILE_MAX)
  | stat (path : CStr)
  | readdir (path : CStr) (index turns : Nat)
  | truncate (path : CStr) (size : Nat)
  | create (path : CStr)
  | mkdir (path : CStr)
  | getBlockDevice (path : CStr)

/-- One call.  `none` is a `vfs_readdir` that does not come back. -/
def refStep (fs : Filesystems σ ι) (w : World σ ι) : RefOp → Option (World σ ι)
  | .open path flags => some (vfsOpen fs w path flags).2
  | .dup file => some (vfsDup w file).2
  | .close file => some (vfsClose fs w file).2
  | .stat path => some (vfsStat fs w path).2
  | .readdir path index turns => (vfsReaddir fs w path index turns).map Prod.snd
  | .truncate path size => some (vfsTruncate fs w path size).2
  | .create path => some (vfsCreate fs w path).2
  | .mkdir path => some (vfsMkdir fs w path).2
  | .getBlockDevice path => some (vfsGetBlockDevice fs w path).2

/-- The books after a call that began in `w₀`. -/
structure Settled (fs : Filesystems σ ι) (w₀ w : World σ ι) : Prop where
  balanced : w.Balanced
  begun : ∀ i, w₀.sum i ≠ 0 → w.begun i = w₀.begun i
  ledger : ∀ i, fs.destroys i = true →
    w.destroyed i + min (w.sum i) 1 + w₀.begun i = w.begun i + w₀.destroyed i + min (w₀.sum i) 1

variable {s : VfsState (Heap σ ι) ι} {file : VfsFile ι} {idx : Nat} {o : RefOp}

theorem Account.settled (ha : Account fs w₀ w []) : Settled fs w₀ w where
  balanced := ha.count
  begun := ha.begun
  ledger := by
    intro i hi
    have hledger := ha.ledger i hi
    rwa [ha.count i] at hledger

/-- A count over a range in which one place changes. -/
theorem countP_range_change {p q : Nat → Bool} {n k : Nat} (hk : k < n)
    (hpq : ∀ j, j ≠ k → p j = q j) :
    (List.range n).countP p + (q k).toNat = (List.range n).countP q + (p k).toNat := by
  induction n with
  | zero => omega
  | succ n ih =>
    rw [List.range_succ, List.countP_append, List.countP_append, List.countP_singleton,
      List.countP_singleton]
    rcases Nat.lt_succ_iff_lt_or_eq.mp hk with hlt | rfl
    · have hlast := hpq n (by omega)
      have hrest := ih hlt
      rw [hlast]
      omega
    · have hrest : (List.range k).countP p = (List.range k).countP q := by
        apply List.countP_congr
        intro j hj
        rw [hpq j (by have := List.mem_range.mp hj; omega)]
      rw [hrest]
      cases p k <;> cases q k <;> simp

theorem slots_setFile (w : World σ ι) (file : VfsFile ι) (hidx : idx < VFS_FILE_MAX) (i : ι) :
    ({ w with vfs := w.vfs.setFile idx file } : World σ ι).slots i +
        (if (w.vfs.files idx).inode = some i then 1 else 0) =
      w.slots i + if file.inode = some i then 1 else 0 := by
  have hchange := countP_range_change hidx
    (p := fun j => decide (((w.vfs.setFile idx file).files j).inode = some i))
    (q := fun j => decide ((w.vfs.files j).inode = some i))
    (by
      intro j hj
      show decide ((if j = idx then file else w.vfs.files j).inode = some i) = _
      rw [if_neg hj])
  have hself : (w.vfs.setFile idx file).files idx = file := if_pos rfl
  have htoNat : ∀ x : Option ι, (decide (x = some i)).toNat = if x = some i then 1 else 0 := by
    intro x
    by_cases hx : x = some i <;> simp [hx]
  rw [hself, htoNat, htoNat] at hchange
  exact hchange

/-- The reference that the call holds becomes that of the slot. -/
theorem Account.install (ha : Account fs w₀ w [inode]) (hslot : freeSlot w.vfs = some idx)
    (hfile : file.inode = some inode) :
    Settled fs w₀ { w with vfs := installFile w.vfs idx file } := by
  obtain ⟨hidx, hnone⟩ := freeSlot_some hslot
  have hsum : ∀ i, ({ w with vfs := installFile w.vfs idx file } : World σ ι).sum i =
      w.heap.refcount i := by
    intro i
    have hslots := slots_setFile w file hidx i
    rw [hnone, hfile, if_neg (by simp), Nat.add_zero] at hslots
    have hcount := ha.count i
    rw [List.count_singleton] at hcount
    show w.heap.perm i + World.slots _ i = w.heap.refcount i
    unfold World.sum at hcount
    simp only [Option.some.injEq, beq_iff_eq] at hslots hcount
    have hinst : ({ w with vfs := installFile w.vfs idx file } : World σ ι).slots i =
        ({ w with vfs := w.vfs.setFile idx file } : World σ ι).slots i := rfl
    omega
  exact {
    balanced := fun i => (hsum i).symm
    begun := ha.begun
    ledger := by
      intro i hi
      rw [hsum i]
      exact ha.ledger i hi }

theorem settled_open (hfs : fs.Lawful) (hw : w.Balanced) (path : CStr) (flags : Nat) :
    Settled fs w (vfsOpen fs w path flags).2 := by
  unfold vfsOpen
  have hopen :=
    (account_rules hfs w).openInode (fun ha _ => ha.add hfs.create _)
    (Account.start fs hw) path flags
  split
  next w' hres =>
    rw [hres] at hopen
    exact Account.settled hopen
  next inode w' hres =>
    rw [hres] at hopen
    split
    · exact (Account.unref hfs hopen).settled
    next idx hslot => exact Account.install hopen hslot rfl

theorem settled_dup (hw : w.Balanced) (file : Nat) : Settled fs w (vfsDup w file).2 := by
  unfold vfsDup
  have hstart := Account.start fs hw
  split
  next inode idx hinode hslot => exact Account.install (hstart.ref inode) hslot hinode
  · exact hstart.settled

theorem settled_close (hfs : fs.Lawful) (hw : w.Balanced) {file : Nat}
    (hfile : file < VFS_FILE_MAX) : Settled fs w (vfsClose fs w file).2 := by
  unfold vfsClose
  split
  · exact (Account.start fs hw).settled
  next inode hinode =>
    dsimp only
    have hslots := fun i => slots_setFile (vfsInodeUnref fs w inode)
      ({ inode := none, offset := 0, flags := 0 } : VfsFile ι) hfile i
    have hone : 0 < w.slots inode := by
      apply List.countP_pos_iff.mpr
      exact ⟨file, List.mem_range.mpr hfile, by rw [hinode]; exact decide_eq_true rfl⟩
    have huse : w.heap.refcount inode ≠ 0 := by
      rw [hw inode]
      unfold World.sum
      omega
    have hdrop := vfsInodeUnref_dropped hfs huse
    have hsame : ∀ i, (vfsInodeUnref fs w inode).slots i = w.slots i := by
      intro i
      unfold World.slots
      rw [hdrop.vfs.2]
    -- the slot and the count give up the same reference
    have hsum : ∀ i, World.sum
        ⟨(vfsInodeUnref fs w inode).vfs.setFile file { inode := none, offset := 0, flags := 0 },
          (vfsInodeUnref fs w inode).destroyed, (vfsInodeUnref fs w inode).begun⟩ i =
        w.sum i - if inode = i then 1 else 0 := by
      intro i
      have hi := hslots i
      rw [hdrop.vfs.2, hinode, hsame i] at hi
      simp only [Option.some.injEq, reduceCtorEq, if_false] at hi
      show (vfsInodeUnref fs w inode).heap.perm i + _ = w.heap.perm i + w.slots i - _
      rw [hdrop.perm]
      split at hi
      next heq =>
        rw [if_pos heq]
        omega
      next hne =>
        rw [if_neg hne]
        omega
    exact {
      balanced := by
        intro i
        rw [hsum i]
        show (vfsInodeUnref fs w inode).heap.refcount i = _
        rw [hdrop.refcount i, hw i]
      begun := fun i _ => congrFun hdrop.begun i
      ledger := by
        intro i hi
        show (vfsInodeUnref fs w inode).destroyed i + _ + w.begun i =
            (vfsInodeUnref fs w inode).begun i + _ + _
        rw [hsum i, hdrop.begun, hdrop.destroyed i]
        by_cases heq : inode = i
        · subst heq
          rw [hw inode]
          rw [hw inode] at huse
          simp only [hi, if_true, true_and, and_true]
          split <;> omega
        · simp only [heq, if_false, false_and]
          omega }

theorem settled_stat (hfs : fs.Lawful) (hw : w.Balanced) (path : CStr) :
    Settled fs w (vfsStat fs w path).2 := by
  unfold vfsStat
  have hfull := (account_rules hfs w).resolveFull (Account.start fs hw) path
  split
  next w' hres =>
    rw [hres] at hfull
    exact Account.settled hfull
  next inode w' hres =>
    rw [hres] at hfull
    exact (Account.unref hfs hfull).settled

theorem settled_readdir (hfs : fs.Lawful) (hw : w.Balanced) {index turns : Nat}
    (hcall : (vfsReaddir fs w path index turns).map Prod.snd = some w') : Settled fs w w' := by
  unfold vfsReaddir at hcall
  have hfull := (account_rules hfs w).resolveFull (Account.start fs hw) path
  split at hcall
  next w₁ hres =>
    rw [hres] at hfull
    obtain rfl := Option.some.inj hcall
    exact Account.settled hfull
  next inode w₁ hres =>
    rw [hres] at hfull
    split at hcall
    · obtain rfl := Option.some.inj hcall
      exact (Account.unref hfs hfull).settled
    · split at hcall
      · contradiction
      next fsCount w₂ hcount =>
        have hcounted := Account.countEntries hfs hfull hcount
        split at hcall
        · split at hcall
          next entry h hread =>
            obtain rfl := Option.some.inj hcall
            have hquiet := hcounted.quiet (hfs.readdir w₂.heap inode index)
            rw [hread] at hquiet
            exact (Account.unref hfs hquiet).settled
        · obtain rfl := Option.some.inj hcall
          exact (Account.unref hfs hcounted).settled

theorem settled_truncate (hfs : fs.Lawful) (hw : w.Balanced) (path : CStr) (size : Nat) :
    Settled fs w (vfsTruncate fs w path size).2 := by
  unfold vfsTruncate
  have hfull := (account_rules hfs w).resolveFull (Account.start fs hw) path
  split
  next w' hres =>
    rw [hres] at hfull
    exact Account.settled hfull
  next inode w' hres =>
    rw [hres] at hfull
    split
    · exact (Account.unref hfs hfull).settled
    · split
      next r h htrunc =>
        have hquiet := Account.quiet hfull (hfs.truncate w'.heap inode size)
        rw [htrunc] at hquiet
        exact (Account.unref hfs hquiet).settled

theorem settled_getBlockDevice (hfs : fs.Lawful) (hw : w.Balanced) (path : CStr) :
    Settled fs w (vfsGetBlockDevice fs w path).2 := by
  unfold vfsGetBlockDevice
  have hfull := (account_rules hfs w).resolveFull (Account.start fs hw) path
  split
  next w' hres =>
    rw [hres] at hfull
    exact Account.settled hfull
  next inode w' hres =>
    rw [hres] at hfull
    split
    · exact (Account.unref hfs hfull).settled
    · exact (Account.unref hfs hfull).settled

theorem settled_step (hfs : fs.Lawful) (hw : w.Balanced) (hstep : refStep fs w o = some w') :
    Settled fs w w' := by
  have hstart := Account.start fs hw
  cases o with
  | readdir path index turns => exact settled_readdir hfs hw hstep
  | «open» path flags => exact Option.some.inj hstep ▸ settled_open hfs hw path flags
  | dup file => exact Option.some.inj hstep ▸ settled_dup hw file
  | close file => exact Option.some.inj hstep ▸ settled_close hfs hw file.isLt
  | stat path => exact Option.some.inj hstep ▸ settled_stat hfs hw path
  | truncate path size => exact Option.some.inj hstep ▸ settled_truncate hfs hw path size
  | create path =>
    exact Option.some.inj hstep ▸
      ((account_rules hfs w).inParent (fun ha _ => ha.add hfs.create _) hstart path).settled
  | mkdir path =>
    exact Option.some.inj hstep ▸
      ((account_rules hfs w).inParent (fun ha _ => ha.add hfs.mkdir _) hstart path).settled
  | getBlockDevice path => exact Option.some.inj hstep ▸ settled_getBlockDevice hfs hw path

/-- In every run each count is the permanent references and the slots.  A call on an
inode in use calls `destroy_inode` once if the sum is zero after it and not at all else,
and an inode that was not in use is destroyed as often as it was taken into use, but for
the use that lasts. -/
theorem refs_conserved (fs : Filesystems σ ι) (hfs : fs.Lawful) (w₀ : World σ ι)
    (hw₀ : w₀.Balanced)
    (w : World σ ι) (hr : Reach (refStep fs) (fun _ _ => True) w₀ w) :
    (∀ i, w.heap.refcount i = w.heap.perm i + w.slots i) ∧
      ∀ o w', refStep fs w o = some w' → ∀ i, fs.destroys i = true →
        (w.sum i ≠ 0 → w'.destroyed i = w.destroyed i + if w'.sum i = 0 then 1 else 0) ∧
          (w.sum i = 0 → w'.destroyed i + (if w'.sum i = 0 then 0 else 1) + w.begun i =
            w.destroyed i + w'.begun i) := by
  have hw : w.Balanced :=
    Reach.invariant World.Balanced hw₀
      (fun _ _ _ hw _ hstep => (settled_step hfs hw hstep).balanced) hr
  refine ⟨hw, ?_⟩
  intro o w' hstep i hi
  have hsettled := settled_step hfs hw hstep
  have hledger := hsettled.ledger i hi
  constructor
  · intro huse
    have hbegun := hsettled.begun i huse
    split <;> omega
  · intro hfree
    split <;> omega

/-- A small filesystem.  Its root has a node `a`, for which each lookup takes the inode 1
into use, as in `devfs`, and it can get a file `b`, the inode 2, as in `tmpfs`: the state
says whether the file is there. -/
def smallFs : Filesystems Bool Nat where
  ino := fun _ i => i
  type := fun _ i => if i = 0 then .dir else if i = 1 then .chrdev else .file
  size := fun _ _ => 0
  bdev := fun _ _ => 0
  has := fun _ i op =>
    match op with
    | .lookup | .readdir | .create => i = 0
    | _ => false
  destroys := fun _ => true
  lookup := fun h d name =>
    if d = 0 ∧ name = [97] then (some 1, h.setCount 1 (h.refcount 1 + 1))
    else if d = 0 ∧ name = [98] ∧ h.fs = true then (some 2, h.setCount 2 (h.refcount 2 + 1))
    else (none, h)
  readdir := fun h _ index =>
    (if index = 0 then some { name := [97], ino := 1, type := .chrdev, size := 0 }
      else if index = 1 ∧ h.fs = true then
        some { name := [98], ino := 2, type := .file, size := 0 }
      else none, h)
  truncate := fun h _ _ => (-1, h)
  create := fun h d name =>
    if d = 0 ∧ name = [98] ∧ h.fs = false then
      (0, { refcount := Function.update h.refcount 2 (h.refcount 2 + 1)
            perm := Function.update h.perm 2 (h.perm 2 + 1)
            fs := true })
    else (-1, h)
  unlink := fun h _ _ => (-1, h)
  mkdir := fun h _ _ => (-1, h)
  destroyInode := fun h _ => h

/-- It is mounted at the root, without the file, and no file is open. -/
def smallWorld : World Bool Nat where
  vfs :=
    { fs := { refcount := fun i => if i = 0 then 1 else 0,
              perm := fun i => if i = 0 then 1 else 0, fs := false }
      mounts := [{ path := [SLASH], root := 0 }]
      files := fun _ => { inode := none, offset := 0, flags := 0 }
      fileCount := 0 }
  destroyed := fun _ => 0
  begun := fun _ => 0

theorem smallFs_lawful : smallFs.Lawful where
  lookup_some := by
    intro h d name i h' hlookup
    simp only [smallFs] at hlookup
    split at hlookup
    · obtain ⟨hi, rfl⟩ := Prod.mk.inj hlookup
      obtain rfl := Option.some.inj hi
      exact ⟨rfl, rfl⟩
    · split at hlookup
      · obtain ⟨hi, rfl⟩ := Prod.mk.inj hlookup
        obtain rfl := Option.some.inj hi
        exact ⟨rfl, rfl⟩
      · cases hlookup
  lookup_none := by
    intro h d name h' hlookup
    simp only [smallFs] at hlookup
    split at hlookup
    · cases hlookup
    · split at hlookup
      · cases hlookup
      · obtain ⟨-, rfl⟩ := Prod.mk.inj hlookup
        exact ⟨rfl, rfl⟩
  readdir := fun _ _ _ => ⟨rfl, rfl⟩
  truncate := fun _ _ _ => ⟨rfl, rfl⟩
  create := by
    intro h d name i
    simp only [smallFs]
    split
    · by_cases hi : i = 2
      · subst hi
        simp only [Function.update_self]
        omega
      · simp only [Function.update_of_ne hi]
        exact ⟨Nat.le_refl _, trivial⟩
    · exact ⟨Nat.le_refl _, rfl⟩
  mkdir := fun _ _ _ _ => ⟨Nat.le_refl _, rfl⟩
  destroyInode := fun _ _ => ⟨rfl, rfl⟩

theorem smallWorld_balanced : smallWorld.Balanced := by
  intro i
  have hnone : smallWorld.slots i = 0 := by
    apply List.countP_eq_zero.mpr
    intro j _
    simp [smallWorld]
  rw [World.sum, hnone]
  rfl

/-- The file is created by an open and stays when it is closed; the node is given up. -/
theorem refs_conserved_small :
    ∃ w w', run (refStep smallFs) smallWorld
        [.open [SLASH, 98] VFS_O_CREAT, .close ⟨0, by decide⟩, .open [SLASH, 97] VFS_O_READ] =
          some w ∧
      refStep smallFs w (.close ⟨0, by decide⟩) = some w' ∧
      w.heap.perm 2 = 1 ∧ w.heap.refcount 2 = w.heap.perm 2 + w.slots 2 ∧
      w.heap.refcount 1 = 1 ∧ w.heap.refcount 1 = w.heap.perm 1 + w.slots 1 ∧
      w'.destroyed 1 = w.destroyed 1 + 1 ∧ w'.destroyed 2 = w.destroyed 2 := by
  let created := (vfsOpen smallFs smallWorld [SLASH, 98] VFS_O_CREAT).2
  let closed := (vfsClose smallFs created 0).2
  let opened := (vfsOpen smallFs closed [SLASH, 97] VFS_O_READ).2
  have hrun : run (refStep smallFs) smallWorld
      [.open [SLASH, 98] VFS_O_CREAT, .close ⟨0, by decide⟩, .open [SLASH, 97] VFS_O_READ] =
        some opened := rfl
  have hclose : refStep smallFs opened (.close ⟨0, by decide⟩) =
      some (vfsClose smallFs opened 0).2 := rfl
  obtain ⟨hcount, hdestroy⟩ :=
    refs_conserved smallFs smallFs_lawful smallWorld smallWorld_balanced _ (reach_of_run hrun)
  have hstate : opened.heap.perm 2 = 1 ∧ opened.heap.refcount 1 = 1 ∧ opened.sum 1 = 1 ∧
      opened.sum 2 = 1 ∧ (vfsClose smallFs opened 0).2.sum 1 = 0 ∧
      (vfsClose smallFs opened 0).2.sum 2 = 1 := by
    decide +kernel
  obtain ⟨hperm, hheld, hone, htwo, hone', htwo'⟩ := hstate
  have hnode := (hdestroy _ _ hclose 1 rfl).1 (by omega)
  have hfile := (hdestroy _ _ hclose 2 rfl).1 (by omega)
  rw [hone', if_pos rfl] at hnode
  rw [htwo', if_neg (by decide), Nat.add_zero] at hfile
  exact ⟨opened, _, hrun, hclose, hperm, hcount 2, hheld, hcount 1, hnode, hfile⟩

end Lumin.Fs.Refs
