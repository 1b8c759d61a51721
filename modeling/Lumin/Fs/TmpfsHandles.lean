import Lumin.Fs.TmpfsTree

/-!
# Open files of tmpfs

Runs of `vfs_open`, `vfs_dup`, `vfs_close`, `vfs_unlink` and `vfs_mkdir` on tmpfs.
`HandleInv` is the shape of the heap together with the reference counts.
`handles_safe_iff` says that a run is safe exactly if no `vfs_unlink` of it removes an
inode that a slot of `file_table` points to.
-/

namespace Lumin.Fs.Tmpfs

open Lumin.Lib Refs

inductive HandleOp where
  | open (path : CStr) (flags : Nat)
  | dup (file : Fin VFS_FILE_MAX)
  | close (file : Fin VFS_FILE_MAX)
  | unlink (path : CStr)
  | mkdir (path : CStr)

section

variable (kmalloc : TmpHeap → Nat) (staleOps : TmpHeap → Bool)

def handleStep (w : World TmpHeap Nat) : HandleOp → Option (World TmpHeap Nat)
  | .open path flags => some (Refs.vfsOpen (tmpfs kmalloc staleOps) w path flags).2
  | .dup file => some (Refs.vfsDup w file).2
  | .close file => some (Refs.vfsClose (tmpfs kmalloc staleOps) w file).2
  | .unlink path => some (Refs.vfsUnlink (tmpfs kmalloc staleOps) w path).2
  | .mkdir path => some (Refs.vfsMkdir (tmpfs kmalloc staleOps) w path).2

/-- The inode that the last component of the path names in its directory. -/
def named (w : World TmpHeap Nat) (path : CStr) : Option Nat :=
  match Refs.resolveParent (tmpfs kmalloc staleOps) w path with
  | (some (parent, name), w) =>
    if inodeType w.heap.fs parent = .dir ∧ hasOp w.heap.fs parent .unlink = true then
      match dirAt w.heap.fs parent with
      | some (_, d) => (findChild d name).map fun k => (d.children k).inode
      | none => none
    else none
  | (none, _) => none

/-- An unlink does not remove an inode that a slot points to. -/
def NotOpen (w : World TmpHeap Nat) : HandleOp → Prop
  | .unlink path => ∀ i, named kmalloc staleOps w path = some i → w.slots i = 0
  | _ => True

end

/-- Every slot points to an inode in use, which has its file, and nothing was freed twice. -/
def Safe (w : World TmpHeap Nat) : Prop :=
  w.heap.fs.doubleFreed = false ∧
    ∀ j < VFS_FILE_MAX, ∀ i, (w.vfs.files j).inode = some i →
      ∃ type ops priv, w.heap.fs.objs i = some (.inode type ops priv) ∧
        (type = .file → w.heap.fs.objs priv = some .file)

/-- The mount table has the two roots at any paths; no file is open. -/
def mountedWorld (mounts : List (Mount Nat)) : World TmpHeap Nat where
  vfs :=
    { fs :=
        { refcount := fun i => if i = ROOT ∨ i = OTHER_ROOT then 1 else 0
          perm := fun i => if i = ROOT ∨ i = OTHER_ROOT then 1 else 0
          fs := mountedHeap }
      mounts := mounts
      files := fun _ => { inode := none, offset := 0, flags := 0 }
      fileCount := 0 }
  destroyed := fun _ => 0
  begun := fun _ => 0

/-! ## The counts -/

/-- In the middle of a call that holds `held`: the heap is in shape, and every inode has
the reference of its entry or mount, those of the slots and those that are held. -/
structure HandleInv (files : Nat → VfsFile Nat) (w : World TmpHeap Nat) (held : List Nat) :
    Prop where
  files : w.vfs.files = files
  clean : w.heap.fs.doubleFreed = false
  shape : Shape w.heap.fs
  roots : ∀ m ∈ w.vfs.mounts, IsInode w.heap.fs m.root ∧ ∀ a d, w.heap.fs.objs a = some (.dir d) →
    m.root ∉ kids d
  refs : ∀ i, IsInode w.heap.fs i → w.heap.refcount i = 1 + w.slots i + held.count i
  used : ∀ i, 0 < w.slots i + held.count i → IsInode w.heap.fs i

variable {s : TmpHeap} {a c i k : Nat} {d : TmpDir} {name : CStr} {w w' : World TmpHeap Nat}
  {h : Heap TmpHeap Nat} {held held' : List Nat} {files : Nat → VfsFile Nat}
  {kmalloc : TmpHeap → Nat} {staleOps : TmpHeap → Bool} {inode idx : Nat} {file : VfsFile Nat}

/-- Between two calls. -/
def Whole (w : World TmpHeap Nat) : Prop := HandleInv w.vfs.files w []

theorem HandleInv.whole (hw : HandleInv files w []) : Whole w :=
  { hw with files := rfl }

theorem HandleInv.safe (hw : HandleInv files w []) : Safe w := by
  refine ⟨hw.clean, fun j hj i hi => ?_⟩
  have hslot : 0 < w.slots i := by
    apply List.countP_pos_iff.mpr
    exact ⟨j, List.mem_range.mpr hj, decide_eq_true hi⟩
  obtain ⟨type, ops, priv, hinode⟩ := hw.used i (by omega)
  refine ⟨type, ops, priv, hinode, ?_⟩
  rintro rfl
  exact hw.shape.file i ops priv hinode

/-- Only counts change. -/
theorem HandleInv.setCounts (hw : HandleInv files w held) (hfs : h.fs = w.heap.fs)
    (hrefs : ∀ i, IsInode w.heap.fs i → h.refcount i = 1 + w.slots i + held'.count i)
    (hheld : ∀ i ∈ held', IsInode w.heap.fs i) : HandleInv files (w.setHeap h) held' where
  files := hw.files
  clean := by
    show h.fs.doubleFreed = false
    rw [hfs, hw.clean]
  shape := by
    show Shape h.fs
    rw [hfs]
    exact hw.shape
  roots := by
    show ∀ m ∈ w.vfs.mounts, IsInode h.fs m.root ∧ ∀ a d, h.fs.objs a = some (.dir d) →
        m.root ∉ kids d
    rw [hfs]
    exact hw.roots
  refs := by
    show ∀ i, IsInode h.fs i → h.refcount i = 1 + w.slots i + held'.count i
    rw [hfs]
    exact hrefs
  used := by
    intro i hi
    show IsInode h.fs i
    rw [hfs]
    by_cases hmem : i ∈ held'
    · exact hheld i hmem
    · have hzero := List.count_eq_zero.mpr hmem
      have hslot : 0 < w.slots i := by
        have : 0 < w.slots i + held'.count i := hi
        omega
      exact hw.used i (by omega)

theorem HandleInv.held_isInode (hw : HandleInv files w held) (hi : i ∈ held) :
    IsInode w.heap.fs i := by
  apply hw.used
  have := List.count_pos_iff.mpr hi
  omega

/-- The count of an inode that a call takes. -/
theorem count_gain (f : Nat → Nat) (inode i : Nat) (held : List Nat) :
    Function.update f inode (f inode + 1) i + held.count i = f i + (inode :: held).count i := by
  by_cases heq : i = inode
  · rw [heq, Function.update_self, List.count_cons_self]
    omega
  · rw [Function.update_of_ne heq, List.count_cons_of_ne (Ne.symm heq)]

/-- The count of an inode that a call gives back. -/
theorem count_loss (i : Nat) {f : Nat → Nat} (hpos : 0 < f inode) (held : List Nat) :
    Function.update f inode (f inode - 1) i + (inode :: held).count i = f i + held.count i := by
  by_cases heq : i = inode
  · rw [heq, Function.update_self, List.count_cons_self]
    omega
  · rw [Function.update_of_ne heq, List.count_cons_of_ne (Ne.symm heq)]

theorem HandleInv.gain (hw : HandleInv files w held) (hi : IsInode w.heap.fs inode) :
    HandleInv files (vfsInodeRef w inode) (inode :: held) := by
  refine hw.setCounts rfl ?_ ?_
  · intro i hinode
    have hcount := hw.refs i hinode
    have hgain := count_gain w.heap.refcount inode i held
    show Function.update w.heap.refcount inode (w.heap.refcount inode + 1) i = _
    omega
  · intro i hmem
    rcases List.mem_cons.mp hmem with rfl | hold
    · exact hi
    · exact hw.held_isInode hold

/-- A count of two or more is only lowered. -/
theorem vfsInodeUnref_of_two {fs : Filesystems TmpHeap Nat} (htwo : 2 ≤ w.heap.refcount inode) :
    vfsInodeUnref fs w inode = w.setHeap (w.heap.setCount inode (w.heap.refcount inode - 1)) := by
  have hpos : (w.heap.setCount inode (w.heap.refcount inode - 1)).refcount inode ≠ 0 := by
    show Function.update w.heap.refcount inode (w.heap.refcount inode - 1) inode ≠ 0
    rw [Function.update_self]
    omega
  unfold vfsInodeUnref
  rw [if_neg (by omega)]
  dsimp only
  exact if_neg fun hzero => hpos hzero.1

theorem HandleInv.two_le (hw : HandleInv files w (inode :: held)) :
    2 ≤ w.heap.refcount inode := by
  rw [hw.refs inode (hw.held_isInode List.mem_cons_self), List.count_cons_self]
  omega

theorem HandleInv.unref (hw : HandleInv files w (inode :: held)) {fs : Filesystems TmpHeap Nat} :
    HandleInv files (vfsInodeUnref fs w inode) held := by
  rw [vfsInodeUnref_of_two hw.two_le]
  refine hw.setCounts rfl ?_ ?_
  · intro i hinode
    have hcount := hw.refs i hinode
    have hloss := count_loss i (show 0 < w.heap.refcount inode by have := hw.two_le; omega) held
    show Function.update w.heap.refcount inode (w.heap.refcount inode - 1) i = _
    omega
  · exact fun i hi => hw.held_isInode (List.mem_cons_of_mem _ hi)

theorem HandleInv.lookup (hw : HandleInv files w held) (dir : Nat) (name : CStr) :
    HandleInv files (w.setHeap (tmpfsLookup w.heap dir name).2)
      ((tmpfsLookup w.heap dir name).1.toList ++ held) := by
  have hsame : HandleInv files (w.setHeap w.heap) held :=
    hw.setCounts rfl hw.refs fun i hi => hw.held_isInode hi
  unfold tmpfsLookup
  split
  · exact hsame
  next a d hd =>
    split
    · exact hsame
    next k hk =>
      dsimp only
      split
      · exact hsame
      · exact hw.gain (hw.shape.child _ _ _ (dirAt_eq hd).2 (findChild_kid hk)).2

theorem handle_rules (files : Nat → VfsFile Nat) (kmalloc : TmpHeap → Nat)
    (staleOps : TmpHeap → Bool) : Rules (tmpfs kmalloc staleOps) (HandleInv files) where
  perm := fun hw hperm =>
    { hw with
      refs := fun i hi => by rw [hw.refs i hi, hperm.count_eq]
      used := fun i hi => hw.used i (by rwa [hperm.count_eq]) }
  ref := fun hw hm => hw.gain (hw.roots _ hm).1
  unref := fun hw => hw.unref
  lookup := fun hw _ _ name => hw.lookup _ name

theorem HandleInv.add (hw : HandleInv files w held) (hadd : AddsEntry w.heap h) :
    HandleInv files (w.setHeap h) held := by
  rcases hadd with rfl | ⟨place, d, type, inode, priv, hins, hrefs, hclean⟩
  · exact hw.setCounts rfl hw.refs fun i hi => hw.held_isInode hi
  · exact {
      files := hw.files
      clean := hclean.trans hw.clean
      shape := hw.shape.insert hins
      roots := fun m hm => hins.outside (hw.roots m hm).1 (hw.roots m hm).2
      refs := by
        rintro i ⟨t, o, p, hinode⟩
        show h.refcount i = 1 + w.slots i + held.count i
        rw [hrefs]
        rcases hins.inode_cases hinode with ⟨rfl, -, -⟩ | hold
        · -- nothing refers to the new inode
          have hunused : ¬ 0 < w.slots i + held.count i :=
            fun hi => hins.ne_inode (hw.used i hi) rfl
          rw [Function.update_self]
          omega
        · rw [Function.update_of_ne (hins.ne_inode ⟨t, o, p, hold⟩), hw.refs i ⟨t, o, p, hold⟩]
      used := fun i hi => hins.isInode (hw.used i hi) }

theorem HandleInv.remove {place : Nat} (hw : HandleInv files w held)
    (hr : Removed w.heap.fs h.fs place d k c)
    (hrefs : h.refcount = w.heap.refcount) (hclean : h.fs.doubleFreed = w.heap.fs.doubleFreed)
    (hslots : w.slots c = 0) (hheld : c ∉ held) : HandleInv files (w.setHeap h) held where
  files := hw.files
  clean := hclean.trans hw.clean
  shape := hw.shape.remove hr
  roots := fun m hm => hr.outside hw.shape (hw.roots m hm).1 (hw.roots m hm).2
  refs := by
    intro i hi
    show h.refcount i = 1 + w.slots i + held.count i
    rw [hrefs]
    exact hw.refs i (hr.isInode_of hi)
  used := by
    intro i hi
    have hi' : 0 < w.slots i + held.count i := hi
    apply hr.isInode hw.shape (hw.used i hi)
    intro heq
    rw [heq, List.count_eq_zero.mpr hheld] at hi'
    omega

/-! ## The calls -/

theorem HandleInv.install (hw : HandleInv files w [inode]) (hslot : freeSlot w.vfs = some idx)
    (hfile : file.inode = some inode) :
    Whole { w with vfs := installFile w.vfs idx file } := by
  obtain ⟨hidx, hnone⟩ := freeSlot_some hslot
  have hslots : ∀ i, ({ w with vfs := installFile w.vfs idx file } : World TmpHeap Nat).slots i =
      w.slots i + [inode].count i := by
    intro i
    have hset := slots_setFile w file hidx i
    rw [hnone, hfile, if_neg (by simp), Nat.add_zero] at hset
    rw [List.count_singleton]
    simp only [Option.some.injEq, beq_iff_eq] at hset ⊢
    exact hset
  exact {
    files := rfl
    clean := hw.clean
    shape := hw.shape
    roots := hw.roots
    refs := by
      intro i hi
      rw [hslots i, List.count_nil]
      have hcount : w.heap.refcount i = 1 + w.slots i + [inode].count i := hw.refs i hi
      show w.heap.refcount i = _
      omega
    used := by
      intro i hi
      rw [hslots i, List.count_nil] at hi
      exact hw.used i hi }

theorem whole_open (hk : Sound kmalloc) (hw : Whole w) (path : CStr) (flags : Nat) :
    Whole (Refs.vfsOpen (tmpfs kmalloc staleOps) w path flags).2 := by
  have hopen := (handle_rules w.vfs.files kmalloc staleOps).openInode
    (fun hw _ name => hw.add (tmpfsCreate_adds hk _ _ name)) hw path flags
  unfold Refs.vfsOpen
  split
  next w' hres =>
    rw [hres] at hopen
    exact HandleInv.whole hopen
  next inode w' hres =>
    rw [hres] at hopen
    split
    · exact (HandleInv.unref hopen).whole
    next idx hslot => exact HandleInv.install hopen hslot rfl

theorem whole_dup (hw : Whole w) {file : Nat} (hfile : file < VFS_FILE_MAX) :
    Whole (Refs.vfsDup w file).2 := by
  unfold Refs.vfsDup
  split
  next inode idx hinode hslot =>
    have hused : 0 < w.slots inode := by
      apply List.countP_pos_iff.mpr
      exact ⟨file, List.mem_range.mpr hfile, decide_eq_true hinode⟩
    exact (hw.gain (hw.used inode (by omega))).install hslot hinode
  · exact hw

/-- A slot gives up the reference that is missing from the count. -/
theorem whole_clear {idx : Nat} (hidx : idx < VFS_FILE_MAX)
    (hinode : (w.vfs.files idx).inode = some inode)
    (hw : Whole w) (hfs : w'.heap.fs = w.heap.fs)
    (hvfs : w'.vfs.files = w.vfs.files ∧ w'.vfs.mounts = w.vfs.mounts)
    (hrefs : ∀ i, w'.heap.refcount i + (if inode = i then 1 else 0) = w.heap.refcount i) :
    Whole ⟨w'.vfs.setFile idx { inode := none, offset := 0, flags := 0 }, w'.destroyed,
      w'.begun⟩ := by
  have hslots : ∀ i, World.slots
      ⟨w'.vfs.setFile idx { inode := none, offset := 0, flags := 0 }, w'.destroyed, w'.begun⟩ i +
        (if inode = i then 1 else 0) = w.slots i := by
    intro i
    have hset :=
      slots_setFile w' ({ inode := none, offset := 0, flags := 0 } : VfsFile Nat) hidx i
    have hsame : w'.slots i = w.slots i := by
      unfold World.slots
      rw [hvfs.1]
    rw [hvfs.1, hinode, hsame] at hset
    simp only [Option.some.injEq, reduceCtorEq, if_false, Nat.add_zero] at hset
    exact hset
  exact {
    files := rfl
    clean := by
      show w'.heap.fs.doubleFreed = false
      rw [hfs, hw.clean]
    shape := by
      show Shape w'.heap.fs
      rw [hfs]
      exact hw.shape
    roots := by
      show ∀ m ∈ w'.vfs.mounts, IsInode w'.heap.fs m.root ∧
        ∀ a d, w'.heap.fs.objs a = some (.dir d) → m.root ∉ kids d
      rw [hfs, hvfs.2]
      exact hw.roots
    refs := by
      intro i (hi : IsInode w'.heap.fs i)
      have hcount := hw.refs i (hfs ▸ hi)
      have hslot := hslots i
      have href := hrefs i
      show w'.heap.refcount i = _
      rw [List.count_nil] at hcount ⊢
      omega
    used := by
      intro i hi
      show IsInode w'.heap.fs i
      rw [hfs]
      apply hw.used i
      have hslot := hslots i
      rw [List.count_nil] at hi ⊢
      omega }

theorem whole_close (hw : Whole w) {file : Nat} (hfile : file < VFS_FILE_MAX)
    {fs : Filesystems TmpHeap Nat} : Whole (Refs.vfsClose fs w file).2 := by
  unfold Refs.vfsClose
  split
  · exact hw
  next inode hinode =>
    have hused : 0 < w.slots inode := by
      apply List.countP_pos_iff.mpr
      exact ⟨file, List.mem_range.mpr hfile, decide_eq_true hinode⟩
    have htwo : 2 ≤ w.heap.refcount inode := by
      rw [hw.refs inode (hw.used inode (by omega))]
      omega
    rw [vfsInodeUnref_of_two htwo]
    refine whole_clear hfile hinode hw rfl ⟨rfl, rfl⟩ fun i => ?_
    show Function.update w.heap.refcount inode (w.heap.refcount inode - 1) i + _ = _
    rw [Function.update_apply]
    split
    next heq =>
      subst heq
      rw [if_pos rfl]
      omega
    next hne => rw [if_neg (Ne.symm hne), Nat.add_zero]

theorem whole_mkdir (hk : Sound kmalloc) (hw : Whole w) (path : CStr) :
    Whole (Refs.vfsMkdir (tmpfs kmalloc staleOps) w path).2 :=
  HandleInv.whole ((handle_rules w.vfs.files kmalloc staleOps).inParent
    (fun hw _ name => hw.add (tmpfsMkdir_adds hk _ _ name)) hw path)

/-- `vfs_unlink` finds nothing to remove, or removes the inode that the path names. -/
theorem vfsUnlink_cases (hw : Whole w) (path : CStr) :
    (named kmalloc staleOps w path = none ∧
      Whole (Refs.vfsUnlink (tmpfs kmalloc staleOps) w path).2) ∨
      ∃ w₁ h parent place d k c, named kmalloc staleOps w path = some c ∧ c ≠ parent ∧
        HandleInv w.vfs.files w₁ [parent] ∧ Removed w₁.heap.fs h.fs place d k c ∧
        h.refcount = w₁.heap.refcount ∧ h.fs.doubleFreed = w₁.heap.fs.doubleFreed ∧
        (Refs.vfsUnlink (tmpfs kmalloc staleOps) w path).2 =
          vfsInodeUnref (tmpfs kmalloc staleOps) (w₁.setHeap h) parent := by
  have hparent := (handle_rules w.vfs.files kmalloc staleOps).resolveParent hw path
  unfold named Refs.vfsUnlink Refs.inParent
  rcases hres : Refs.resolveParent (tmpfs kmalloc staleOps) w path with ⟨_ | ⟨parent, name⟩, w₁⟩
  · rw [hres] at hparent
    exact .inl ⟨rfl, HandleInv.whole hparent⟩
  · rw [hres] at hparent
    have hheld : HandleInv w.vfs.files w₁ [parent] := hparent
    by_cases hdir : inodeType w₁.heap.fs parent = .dir ∧ hasOp w₁.heap.fs parent .unlink = true
    · have hops : ¬ ((tmpfs kmalloc staleOps).type w₁.heap.fs parent ≠ .dir ∨
          (tmpfs kmalloc staleOps).has w₁.heap.fs parent .unlink = false) := by
        rw [not_or, not_not, Bool.not_eq_false]
        exact hdir
      have hsame : HandleInv w.vfs.files (w₁.setHeap w₁.heap) [parent] :=
        hheld.setCounts rfl hheld.refs fun i hi => hheld.held_isInode hi
      dsimp only
      rw [if_pos hdir, if_neg hops]
      rcases hd : dirAt w₁.heap.fs parent with _ | ⟨place, d⟩
      · have hunlink : (tmpfs kmalloc staleOps).unlink w₁.heap parent name = (-1, w₁.heap) := by
          show tmpfsUnlink w₁.heap parent name = _
          rw [tmpfsUnlink, hd]
        rw [hunlink]
        exact .inl ⟨rfl, hsame.unref.whole⟩
      · rcases hk : findChild d name with _ | k
        · have hunlink : (tmpfs kmalloc staleOps).unlink w₁.heap parent name = (-1, w₁.heap) := by
            show tmpfsUnlink w₁.heap parent name = _
            simp only [tmpfsUnlink, hd, hk]
          rw [hunlink]
          exact .inl ⟨by simp only [hk, Option.map_none], hsame.unref.whole⟩
        · obtain ⟨hrem, hrefs, hclean⟩ := tmpfsUnlink_removed hheld.shape hd hk
          refine .inr ⟨w₁, _, parent, place, d, k, (d.children k).inode, ?_, ?_, hheld, hrem,
            hrefs, hclean, rfl⟩
          · simp only [hk, Option.map_some]
          · exact hheld.shape.ne_parent hdir.1 hd (findChild_kid hk)
    · have hops : (tmpfs kmalloc staleOps).type w₁.heap.fs parent ≠ .dir ∨
          (tmpfs kmalloc staleOps).has w₁.heap.fs parent .unlink = false := by
        rw [not_and_or, Bool.not_eq_true] at hdir
        exact hdir
      dsimp only
      rw [if_neg hdir, if_pos hops]
      exact .inl ⟨rfl, hheld.unref.whole⟩

theorem whole_unlink (hw : Whole w) (path : CStr)
    (hguard : ∀ i, named kmalloc staleOps w path = some i → w.slots i = 0) :
    Whole (Refs.vfsUnlink (tmpfs kmalloc staleOps) w path).2 := by
  rcases vfsUnlink_cases hw path with ⟨-, hnone⟩ |
    ⟨w₁, h, parent, place, d, k, c, hnamed, hne, hheld, hrem, hrefs, hclean, heq⟩
  · exact hnone
  · rw [heq]
    have hslots : w₁.slots c = 0 := by
      rw [← hguard c hnamed]
      unfold World.slots
      rw [hheld.files]
    exact (hheld.remove hrem hrefs hclean hslots (by simpa using hne)).unref.whole

/-- The slot of a removed inode is left with freed memory. -/
theorem not_safe_unlink (hw : Whole w) (path : CStr)
    (hnamed : named kmalloc staleOps w path = some c)
    (hslots : w.slots c ≠ 0) : ¬ Safe (Refs.vfsUnlink (tmpfs kmalloc staleOps) w path).2 := by
  rcases vfsUnlink_cases hw path with ⟨hnone, -⟩ |
    ⟨w₁, h, parent, place, d, k, c', hnamed', -, hheld, hrem, hrefs, -, heq⟩
  · rw [hnone] at hnamed
    cases hnamed
  · obtain rfl : c = c' := Option.some.inj (hnamed.symm.trans hnamed')
    have htwo : 2 ≤ (w₁.setHeap h).heap.refcount parent := by
      show 2 ≤ h.refcount parent
      rw [hrefs]
      exact hheld.two_le
    rw [heq, vfsInodeUnref_of_two htwo]
    rintro ⟨-, hsafe⟩
    obtain ⟨j, hj, hfile⟩ := List.countP_pos_iff.mp (Nat.pos_of_ne_zero hslots)
    obtain ⟨t, o, p, hinode, -⟩ := hsafe j (List.mem_range.mp hj) c (by
      show (w₁.vfs.files j).inode = some c
      rw [hheld.files]
      exact of_decide_eq_true hfile)
    have hgone : h.fs.objs c = some (.inode t o p) := hinode
    rw [hrem.gone] at hgone
    cases hgone

/-! ## Runs -/

theorem whole_mounted {mounts : List (Mount Nat)}
    (hm : ∀ m ∈ mounts, m.root = ROOT ∨ m.root = OTHER_ROOT) : Whole (mountedWorld mounts) := by
  have hslots : ∀ i, (mountedWorld mounts).slots i = 0 := by
    intro i
    apply List.countP_eq_zero.mpr
    intro j _
    simp [mountedWorld]
  exact {
    files := rfl
    clean := rfl
    shape := Shape.mounted
    roots := by
      intro m hmem
      refine ⟨?_, fun a d ha => ?_⟩
      · rcases hm m hmem with heq | heq
        · rw [heq]
          exact ⟨_, _, _, rfl⟩
        · rw [heq]
          exact ⟨_, _, _, rfl⟩
      · rw [mountedHeap_kids ha]
        exact List.not_mem_nil
    refs := by
      rintro i ⟨t, o, p, hinode⟩
      have hroot : i = ROOT ∨ i = OTHER_ROOT := by
        simp only [mountedWorld, mountedHeap] at hinode
        split at hinode
        next heq => exact .inl heq
        next =>
          split at hinode
          · cases hinode
          · split at hinode
            next heq => exact .inr heq
            next =>
              split at hinode <;> cases hinode
      rw [hslots i]
      exact if_pos hroot
    used := by
      intro i hi
      rw [hslots i, List.count_nil] at hi
      omega }

theorem whole_step (hk : Sound kmalloc) (hw : Whole w) {o : HandleOp}
    (hguard : NotOpen kmalloc staleOps w o)
    (hstep : handleStep kmalloc staleOps w o = some w') : Whole w' := by
  cases o with
  | «open» path flags => exact Option.some.inj hstep ▸ whole_open hk hw path flags
  | dup file => exact Option.some.inj hstep ▸ whole_dup hw file.isLt
  | close file => exact Option.some.inj hstep ▸ whole_close hw file.isLt
  | unlink path => exact Option.some.inj hstep ▸ whole_unlink hw path hguard
  | mkdir path => exact Option.some.inj hstep ▸ whole_mkdir hk hw path

/-- A run is safe in every state exactly if none of its unlinks removes an inode that a
slot points to. -/
theorem handles_safe_iff (kmalloc : TmpHeap → Nat) (staleOps : TmpHeap → Bool)
    (hk : Sound kmalloc)
    (mounts : List (Mount Nat)) (hm : ∀ m ∈ mounts, m.root = ROOT ∨ m.root = OTHER_ROOT)
    (os : List HandleOp) :
    (∀ w ∈ visited (handleStep kmalloc staleOps) (mountedWorld mounts) os, Safe w) ↔
      Guarded (handleStep kmalloc staleOps) (NotOpen kmalloc staleOps)
        (mountedWorld mounts) os := by
  refine visited_iff_guarded (fun w hw => HandleInv.safe hw)
    (fun w o w' hw => whole_step hk hw) ?_
    (whole_mounted hm) os
  intro w o w' hw hguard hstep
  cases o with
  | unlink path =>
    simp only [NotOpen, not_forall] at hguard
    obtain ⟨c, hnamed, hslots⟩ := hguard
    exact Option.some.inj hstep ▸ not_safe_unlink hw path hnamed hslots
  | «open» path flags => exact absurd trivial hguard
  | dup file => exact absurd trivial hguard
  | close file => exact absurd trivial hguard
  | mkdir path => exact absurd trivial hguard

/-- The first free one of ten blocks. -/
def firstFit (s : TmpHeap) : Nat :=
  (((List.range 10).map (· + 5)).find? fun a => (s.objs a).isNone).getD 0

theorem firstFit_sound : Sound firstFit := by
  intro s hne
  unfold firstFit at hne ⊢
  rcases hfound : ((List.range 10).map (· + 5)).find? fun a => (s.objs a).isNone with _ | a
  · rw [hfound] at hne
    exact absurd rfl hne
  · rw [Option.getD_some]
    have hfree := List.find?_some hfound
    exact Option.isNone_iff_eq_none.mp hfree

/-- `/f` is created, opened, closed and only then removed. -/
def closeThenUnlink : List HandleOp :=
  [.open [SLASH, 102] (VFS_O_READ + VFS_O_CREAT), .close ⟨0, by decide⟩, .unlink [SLASH, 102]]

theorem handles_safe_iff_closeThenUnlink :
    Guarded (handleStep firstFit fun _ => false) (NotOpen firstFit fun _ => false)
        (mountedWorld [{ path := [SLASH], root := ROOT }]) closeThenUnlink ∧
      ∀ w ∈ visited (handleStep firstFit fun _ => false)
          (mountedWorld [{ path := [SLASH], root := ROOT }])
        closeThenUnlink, Safe w := by
  have hsafe :=
    handles_safe_iff firstFit (fun _ => false) firstFit_sound [{ path := [SLASH], root := ROOT }]
    (by simp) closeThenUnlink
  suffices hguarded :
      Guarded (handleStep firstFit fun _ => false) (NotOpen firstFit fun _ => false)
      (mountedWorld [{ path := [SLASH], root := ROOT }]) closeThenUnlink
        from ⟨hguarded, hsafe.mpr hguarded⟩
  refine ⟨trivial, trivial, ?_, trivial⟩
  intro i _
  have hclosed : ∀ j ∈ List.range VFS_FILE_MAX, ((Refs.vfsClose (tmpfs firstFit fun _ => false)
      (Refs.vfsOpen (tmpfs firstFit fun _ => false)
        (mountedWorld [{ path := [SLASH], root := ROOT }])
        [SLASH, 102] (VFS_O_READ + VFS_O_CREAT)).2 0).2.vfs.files j).inode = none := by
    decide +kernel
  apply List.countP_eq_zero.mpr
  intro j hj
  rw [decide_eq_true_iff]
  intro hopen
  have hnone := (hclosed j hj).symm.trans hopen
  cases hnone

/-- The file is removed while it is open. -/
theorem openThenUnlink_not_safe :
    ¬ ∀ w ∈ visited (handleStep firstFit fun _ => false)
      (mountedWorld [{ path := [SLASH], root := ROOT }])
      [.open [SLASH, 102] (VFS_O_READ + VFS_O_CREAT), .unlink [SLASH, 102]], Safe w := by
  intro hsafe
  obtain ⟨-, hslots⟩ :=
    hsafe _ (List.mem_cons_of_mem _ (List.mem_cons_of_mem _ (List.mem_singleton.mpr rfl)))
  obtain ⟨type, ops, priv, hinode, -⟩ := hslots 0 (by decide) 5 (by decide +kernel)
  have hgone : ((Refs.vfsUnlink (tmpfs firstFit fun _ => false)
      (Refs.vfsOpen (tmpfs firstFit fun _ => false)
        (mountedWorld [{ path := [SLASH], root := ROOT }])
        [SLASH, 102] (VFS_O_READ + VFS_O_CREAT)).2 [SLASH, 102]).2.heap.fs.objs 5).isNone =
          true := by
    decide +kernel
  rw [Option.isNone_iff_eq_none] at hgone
  have hboth := hgone.symm.trans hinode
  cases hboth

end Lumin.Fs.Tmpfs
