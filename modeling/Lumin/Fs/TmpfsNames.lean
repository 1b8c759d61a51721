import Lumin.Fs.TmpfsHandles

/-!
# The names in a tmpfs directory

Runs of `vfs_create`, `vfs_mkdir`, `vfs_open` and `vfs_unlink` on tmpfs.  Only
`vfs_open` looks for the path before it creates a file, and neither `tmpfs_create` nor
`tmpfs_mkdir` looks at the names that the directory has.  `namesUnique_iff` says that
the names stay unique and non-empty exactly as long as every call that adds an entry
brings a new name.
-/

namespace Lumin.Fs.Tmpfs

open Lumin.Lib Lumin.Lib.Table Refs

/-- The names of the entries. -/
def names (d : TmpDir) : List CStr := (entries d.children d.childCount).map TmpChild.name

/-- No directory holds two entries of one name, or one without a name. -/
def NamesUnique (s : TmpHeap) : Prop :=
  ∀ a d, s.objs a = some (.dir d) → (names d).Nodup ∧ [] ∉ names d

inductive NameOp where
  | create (path : CStr)
  | mkdir (path : CStr)
  | open (path : CStr) (flags : Nat)
  | unlink (path : CStr)

section

variable (kmalloc : TmpHeap → Nat) (staleOps : TmpHeap → Bool)

def nameStep (w : World TmpHeap Nat) : NameOp → Option (World TmpHeap Nat)
  | .create path => some (Refs.vfsCreate (tmpfs kmalloc staleOps) w path).2
  | .mkdir path => some (Refs.vfsMkdir (tmpfs kmalloc staleOps) w path).2
  | .open path flags => some (Refs.vfsOpen (tmpfs kmalloc staleOps) w path flags).2
  | .unlink path => some (Refs.vfsUnlink (tmpfs kmalloc staleOps) w path).2

/-- The directory in which a call works, and the last component of its path: nothing if
there is no such directory, or one without operations. -/
def target (w : World TmpHeap Nat) (path : CStr) : Option (TmpDir × CStr) :=
  match Refs.resolveParent (tmpfs kmalloc staleOps) w path with
  | (some (parent, name), w) =>
    if inodeType w.heap.fs parent = .dir ∧ hasOp w.heap.fs parent .create = true then
      (dirAt w.heap.fs parent).map fun place => (place.2, name)
    else none
  | (none, _) => none

/-- If the path leads to a directory with room, its last component is not empty and no
name of this directory. -/
def NewName (first : Obj) (w : World TmpHeap Nat) (path : CStr) : Prop :=
  ∀ d name, target kmalloc staleOps w path = some (d, name) → Room kmalloc w.heap.fs d first →
    name ≠ [] ∧ name ∉ names d

/-- A call that adds an entry adds a new name.  `vfs_open` adds one only for a path that
does not resolve. -/
def AddsNewName (w : World TmpHeap Nat) : NameOp → Prop
  | .create path => NewName kmalloc staleOps .raw w path
  | .mkdir path => NewName kmalloc staleOps (.dir emptyDir) w path
  | .open path flags =>
    match Refs.resolveFull (tmpfs kmalloc staleOps) w path with
    | (some _, _) => True
    | (none, w) => flags &&& VFS_O_CREAT ≠ 0 → NewName kmalloc staleOps .raw w path
  | .unlink _ => True

end

variable {s s' : TmpHeap} {a c i k place inode priv parent : Nat} {d : TmpDir} {name : CStr}
  {type : InodeType}
  {first : Obj} {w w' : World TmpHeap Nat} {h h' : Heap TmpHeap Nat} {held held' : List Nat}
    {op : InodeOp}
  {kmalloc : TmpHeap → Nat} {staleOps : TmpHeap → Bool} {mounts : List (Mount Nat)}

/-! ## Names of a directory -/

theorem names_addChild (d : TmpDir) (name : CStr) (inode : Nat) :
    names (addChild d name inode) = names d ++ [copyName name] := by
  simp only [names, addChild, entries_push, List.map_append, List.map_singleton]

theorem names_emptyDir : names emptyDir = [] := rfl

theorem names_shifted (hk : k < d.childCount) :
    names { children := shiftDown (d.childCount - 1 - k) k d.children,
            childCount := d.childCount - 1 } =
      (names d).eraseIdx k := by
  unfold names
  rw [entries_shiftDown hk]
  exact (List.eraseIdx_map _ _ _).symm

/-- A new entry keeps the names unique exactly if its name is new. -/
theorem namesUnique_insert (hi : Inserted s s' place d type inode priv)
    (hplace : s'.objs place = some (.dir (addChild d name inode))) (hs : NamesUnique s) :
    NamesUnique s' ↔ copyName name ≠ [] ∧ copyName name ∉ names d := by
  obtain ⟨hnodup, hnonempty⟩ := hs _ _ hi.parent
  have hadded : (names (addChild d name inode)).Nodup ∧ [] ∉ names (addChild d name inode) ↔
      copyName name ≠ [] ∧ copyName name ∉ names d := by
    rw [names_addChild, List.nodup_append, List.mem_append, List.mem_singleton, not_or]
    constructor
    · intro h
      obtain ⟨⟨-, -, hapart⟩, -, hne⟩ := h
      exact ⟨Ne.symm hne, fun hmem => hapart _ hmem _ (List.mem_singleton.mpr rfl) rfl⟩
    · intro h
      obtain ⟨hne, hnot⟩ := h
      refine ⟨⟨hnodup, List.nodup_singleton _, fun x hx y hy heq => ?_⟩, hnonempty, Ne.symm hne⟩
      rw [heq, List.mem_singleton.mp hy] at hx
      exact hnot hx
  rw [← hadded]
  constructor
  · intro h
    exact h _ _ hplace
  · intro h x e hx
    by_cases h₁ : x = place
    · rw [h₁, hplace] at hx
      cases hx
      exact h
    by_cases h₂ : x = inode
    · obtain ⟨ops, hinode⟩ := hi.inode'
      rw [h₂, hinode] at hx
      cases hx
    by_cases h₃ : x = priv
    · cases hi.priv' with
      | inl hfile =>
        rw [h₃, hfile.2] at hx
        cases hx
      | inr hdir =>
        rw [h₃, hdir.2] at hx
        cases hx
        rw [names_emptyDir]
        exact ⟨List.nodup_nil, List.not_mem_nil⟩
    rw [hi.others x h₁ h₂ h₃] at hx
    exact hs x e hx

/-- A removed entry takes its name away. -/
theorem namesUnique_remove {e : TmpDir} (hr : Removed s s' place d k c)
    (hplace : s'.objs place = some (.dir e))
    (hnames : names e = (names d).eraseIdx k) (hs : NamesUnique s) : NamesUnique s' := by
  intro x e' hx
  by_cases heq : x = place
  · rw [heq, hplace] at hx
    cases hx
    obtain ⟨hnodup, hnonempty⟩ := hs _ _ hr.parent
    rw [hnames]
    exact ⟨hnodup.sublist (List.eraseIdx_sublist _ _),
      fun hmem => hnonempty (List.mem_of_mem_eraseIdx hmem)⟩
  · exact hs x e' (hr.less x _ heq hx)

/-! ## Inside a call -/

/-- In the middle of a call that holds `held`, with `s` in memory: every inode has a
reference for its entry or mount and those that are held.  It may have more: the slots
of removed files are not counted. -/
structure NameInv (s : TmpHeap) (w : World TmpHeap Nat) (held : List Nat) : Prop where
  fs : w.heap.fs = s
  shape : Shape s
  roots : ∀ m ∈ w.vfs.mounts, IsInode s m.root ∧ ∀ a d, s.objs a = some (.dir d) → m.root ∉ kids d
  refs : ∀ i, IsInode s i → 1 + held.count i ≤ w.heap.refcount i
  held : ∀ i ∈ held, IsInode s i

/-- Only counts change. -/
theorem NameInv.setCounts (hw : NameInv s w held) (hfs : h.fs = s)
    (hrefs : ∀ i, IsInode s i → 1 + held'.count i ≤ h.refcount i)
    (hheld : ∀ i ∈ held', IsInode s i) : NameInv s (w.setHeap h) held' :=
  { hw with fs := hfs, refs := hrefs, held := hheld }

theorem NameInv.gain (hw : NameInv s w held) (hi : IsInode s inode) :
    NameInv s (vfsInodeRef w inode) (inode :: held) := by
  refine hw.setCounts hw.fs ?_ ?_
  · intro i hinode
    have hcount := hw.refs i hinode
    have hgain := count_gain w.heap.refcount inode i held
    show _ ≤ Function.update w.heap.refcount inode (w.heap.refcount inode + 1) i
    omega
  · intro i hmem
    cases List.mem_cons.mp hmem with
    | inl heq => exact heq ▸ hi
    | inr hold => exact hw.held i hold

theorem NameInv.unref (fs : Filesystems TmpHeap Nat) (hw : NameInv s w (inode :: held)) :
    NameInv s (vfsInodeUnref fs w inode) held := by
  have htwo : 2 ≤ w.heap.refcount inode := by
    have hcount := hw.refs inode (hw.held inode List.mem_cons_self)
    rw [List.count_cons_self] at hcount
    omega
  rw [vfsInodeUnref_of_two htwo]
  refine hw.setCounts hw.fs ?_ fun i hi => hw.held i (List.mem_cons_of_mem _ hi)
  intro i hinode
  have hcount := hw.refs i hinode
  have hloss := count_loss i (show 0 < w.heap.refcount inode by omega) held
  show _ ≤ Function.update w.heap.refcount inode (w.heap.refcount inode - 1) i
  omega

theorem NameInv.lookup (hw : NameInv s w held) (dir : Nat) (name : CStr) :
    NameInv s (w.setHeap (tmpfsLookup w.heap dir name).2)
      ((tmpfsLookup w.heap dir name).1.toList ++ held) := by
  have hsame : NameInv s (w.setHeap w.heap) held := hw.setCounts hw.fs hw.refs hw.held
  unfold tmpfsLookup
  split
  · exact hsame
  next a d hd =>
    split
    · exact hsame
    next k hk =>
      dsimp only
      split
      · exact hsame
      · rw [hw.fs] at hd
        exact hw.gain (hw.shape.child _ _ _ (dirAt_eq hd).2 (findChild_kid hk)).2

/-- Path resolution changes counts only. -/
theorem name_rules (s : TmpHeap) (kmalloc : TmpHeap → Nat) (staleOps : TmpHeap → Bool) :
    Rules (tmpfs kmalloc staleOps) (NameInv s) where
  perm := fun hw hperm =>
    { hw with
      refs := fun i hi => by
        rw [← hperm.count_eq]
        exact hw.refs i hi
      held := fun i hi => hw.held i (hperm.mem_iff.mpr hi) }
  ref := fun hw hm => hw.gain (hw.roots _ hm).1
  unref := fun hw => hw.unref _
  lookup := fun hw _ _ name => hw.lookup _ name

/-- A slot takes over the reference that a call holds. -/
theorem NameInv.install (hw : NameInv s w held) (idx : Nat) (file : VfsFile Nat) :
    NameInv s { w with vfs := installFile w.vfs idx file } [] where
  fs := hw.fs
  shape := hw.shape
  roots := hw.roots
  refs := by
    intro i hi
    have hcount : 1 + held.count i ≤ w.heap.refcount i := hw.refs i hi
    show 1 + List.count i [] ≤ w.heap.refcount i
    rw [List.count_nil]
    omega
  held := fun i hi => absurd hi List.not_mem_nil

theorem NameInv.insert (hw : NameInv s w held) (hins : Inserted s h.fs place d type inode priv)
    (hrefs : h.refcount = Function.update w.heap.refcount inode 1) :
    NameInv h.fs (w.setHeap h) held where
  fs := rfl
  shape := hw.shape.insert hins
  roots := fun m hm => hins.outside (hw.roots m hm).1 (hw.roots m hm).2
  refs := by
    intro i hi
    obtain ⟨t, o, p, hinode⟩ := hi
    show 1 + held.count i ≤ h.refcount i
    rw [hrefs]
    cases hins.inode_cases hinode with
    | inl hnew =>
      -- nothing holds the new inode
      rw [hnew.1, Function.update_self,
        List.count_eq_zero.mpr fun hmem => hins.ne_inode (hw.held _ hmem) rfl]
    | inr hold =>
      rw [Function.update_of_ne (hins.ne_inode ⟨t, o, p, hold⟩)]
      exact hw.refs i ⟨t, o, p, hold⟩
  held := fun i hi => hins.isInode (hw.held i hi)

theorem NameInv.remove (hw : NameInv s w held) (hr : Removed s h.fs place d k c)
    (hrefs : h.refcount = w.heap.refcount) (hheld : c ∉ held) :
    NameInv h.fs (w.setHeap h) held where
  fs := rfl
  shape := hw.shape.remove hr
  roots := fun m hm => hr.outside hw.shape (hw.roots m hm).1 (hw.roots m hm).2
  refs := by
    intro i hi
    show 1 + held.count i ≤ h.refcount i
    rw [hrefs]
    exact hw.refs i (hr.isInode_of hi)
  held := by
    intro i hi
    apply hr.isInode hw.shape (hw.held i hi)
    intro heq
    exact hheld (heq ▸ hi)

/-! ## The calls -/

/-- The names after a call, with an invariant for the next one. -/
def NamesAfter (w : World TmpHeap Nat) (P : Prop) : Prop :=
  NameInv w.heap.fs w [] ∧ (NamesUnique w.heap.fs ↔ P)

theorem NameInv.same {P : Prop} (hw : NameInv s w []) (hs : NamesUnique s) (hP : P) :
    NamesAfter w P := by
  unfold NamesAfter
  rw [hw.fs]
  exact ⟨hw, iff_of_true hs hP⟩

/-- The last component of a path fits into an entry. -/
theorem copyName_resolveParent {fs : Filesystems TmpHeap Nat} {path : CStr}
    (hres : Refs.resolveParent fs w path = (some (parent, name), w')) : copyName name = name := by
  unfold Refs.resolveParent at hres
  split at hres
  · cases hres
  · dsimp only at hres
    split at hres
    · cases hres
    · cases hres
      unfold copyName
      rw [List.take_take, Nat.min_self]

theorem hasOp_mkdir (s : TmpHeap) (i : Nat) : hasOp s i .mkdir = hasOp s i .create := by
  unfold hasOp
  cases s.objs i with
  | none => rfl
  | some x => cases x <;> rfl

/-- The constructor has run in the directory of the path, and the directory is given
back. -/
theorem NameInv.enter (fs : Filesystems TmpHeap Nat) (hw : NameInv s w [parent])
    (hs : NamesUnique s)
    (henters : Enters kmalloc first w.heap h parent name) (hname : copyName name = name) :
    NamesAfter (vfsInodeUnref fs (w.setHeap h) parent)
      (∀ d, (dirAt s parent).map Prod.snd = some d → Room kmalloc s d first →
        name ≠ [] ∧ name ∉ names d) := by
  have hsame : NameInv s (w.setHeap w.heap) [parent] := hw.setCounts hw.fs hw.refs hw.held
  unfold Enters at henters
  rw [hw.fs] at henters
  cases hd : dirAt s parent with
  | none =>
    rw [hd] at henters
    rw [henters]
    refine (hsame.unref fs).same hs ?_
    intro d hplace
    cases hplace
  | some found =>
    obtain ⟨place, d⟩ := found
    rw [hd] at henters
    have hcond :
        (∀ d', Option.map Prod.snd (some (place, d)) = some d' → Room kmalloc s d' first →
        name ≠ [] ∧ name ∉ names d') ↔ (Room kmalloc s d first → name ≠ [] ∧ name ∉ names d) := by
      constructor
      · intro h
        exact h d rfl
      · intro h d' heq
        cases heq
        exact h
    rw [hcond]
    cases henters with
    | inl hfull =>
      rw [hfull.2]
      exact (hsame.unref fs).same hs fun hroom => absurd hroom hfull.1
    | inr hadded =>
      obtain ⟨hroom, type, inode, priv, hins, hplace, hrefs, -⟩ := hadded
      have hafter := (hw.insert hins hrefs).unref fs
      unfold NamesAfter
      rw [hafter.fs, namesUnique_insert hins hplace hs, hname]
      exact ⟨hafter, fun hnew _ => hnew, fun hnew => hnew hroom⟩

/-- `vfs_create` and `vfs_mkdir`. -/
theorem names_inParent {act : Heap TmpHeap Nat → Nat → CStr → Int × Heap TmpHeap Nat}
    (hact : ∀ h dir name, Enters kmalloc first h (act h dir name).2 dir name)
    (hop : ∀ s i, hasOp s i op = hasOp s i .create) (hw : NameInv s w []) (hs : NamesUnique s)
    (path : CStr) :
    NamesAfter (Refs.inParent (tmpfs kmalloc staleOps) op act w path).2
      (NewName kmalloc staleOps first w path) := by
  have hparent := (name_rules s kmalloc staleOps).resolveParent hw path
  unfold NewName
  rw [hw.fs]
  unfold target Refs.inParent
  cases hres : Refs.resolveParent (tmpfs kmalloc staleOps) w path with
  | mk found w₁ =>
    rw [hres] at hparent
    cases found with
    | none => exact hparent.same hs fun d name htarget => by cases htarget
    | some place =>
      obtain ⟨parent, name⟩ := place
      have hheld : NameInv s w₁ [parent] := hparent
      dsimp only
      by_cases hdir : inodeType w₁.heap.fs parent = .dir ∧ hasOp w₁.heap.fs parent .create = true
      · have hops : ¬ ((tmpfs kmalloc staleOps).type w₁.heap.fs parent ≠ .dir ∨
            (tmpfs kmalloc staleOps).has w₁.heap.fs parent op = false) := by
          rw [not_or, not_not, Bool.not_eq_false]
          exact ⟨hdir.1, (hop _ _).trans hdir.2⟩
        rw [if_pos hdir, if_neg hops, hheld.fs]
        obtain ⟨hafter, hiff⟩ :=
          hheld.enter (tmpfs kmalloc staleOps) hs (hact w₁.heap parent name)
          (copyName_resolveParent hres)
        refine ⟨hafter, hiff.trans ?_⟩
        cases dirAt s parent with
        | none => simp
        | some found => simp
      · have hops : (tmpfs kmalloc staleOps).type w₁.heap.fs parent ≠ .dir ∨
            (tmpfs kmalloc staleOps).has w₁.heap.fs parent op = false := by
          rw [not_and_or, Bool.not_eq_true, ← hop] at hdir
          exact hdir
        rw [if_neg hdir, if_pos hops]
        exact (hheld.unref _).same hs fun d name htarget => by cases htarget

theorem names_unlink (hw : NameInv s w []) (hs : NamesUnique s) (path : CStr) :
    NamesAfter (Refs.vfsUnlink (tmpfs kmalloc staleOps) w path).2 True := by
  have hparent := (name_rules s kmalloc staleOps).resolveParent hw path
  unfold Refs.vfsUnlink Refs.inParent
  cases hres : Refs.resolveParent (tmpfs kmalloc staleOps) w path with
  | mk found w₁ =>
    rw [hres] at hparent
    cases found with
    | none => exact hparent.same hs trivial
    | some place =>
      obtain ⟨parent, name⟩ := place
      have hheld : NameInv s w₁ [parent] := hparent
      dsimp only
      split
      · exact (hheld.unref _).same hs trivial
      next hops =>
        rw [not_or, not_not] at hops
        show NamesAfter (vfsInodeUnref _ (w₁.setHeap (tmpfsUnlink w₁.heap parent name).2) parent)
            True
        have hsame : NameInv s (w₁.setHeap w₁.heap) [parent] :=
          hheld.setCounts hheld.fs hheld.refs hheld.held
        cases hd : dirAt w₁.heap.fs parent with
        | none =>
          have hunlink : tmpfsUnlink w₁.heap parent name = (-1, w₁.heap) :=
            by rw [tmpfsUnlink, hd]
          rw [hunlink]
          exact (hsame.unref _).same hs trivial
        | some found =>
          obtain ⟨place, d⟩ := found
          cases hk : findChild d name with
          | none =>
            have hunlink : tmpfsUnlink w₁.heap parent name = (-1, w₁.heap) := by
              simp only [tmpfsUnlink, hd, hk]
            rw [hunlink]
            exact (hsame.unref _).same hs trivial
          | some k =>
            have hshape : Shape w₁.heap.fs := hheld.fs ▸ hheld.shape
            obtain ⟨hrem, hrefs, -⟩ := tmpfsUnlink_removed hshape hd hk
            have hplace := tmpfsUnlink_place hd hk
            have hne := hshape.ne_parent hops.1 hd (findChild_kid hk)
            rw [hheld.fs] at hrem
            have hafter :=
              (hheld.remove hrem hrefs (by simpa using hne)).unref (tmpfs kmalloc staleOps)
            exact hafter.same
              (namesUnique_remove hrem hplace (names_shifted (findChild_lt hk)) hs) trivial

/-- The inode that `vfs_open` finds or creates: a path that resolves adds nothing. -/
theorem names_openInode (staleOps : TmpHeap → Bool) (hk : Sound kmalloc) (hw : NameInv s w [])
    (hs : NamesUnique s) (path : CStr)
    (flags : Nat) :
    ∃ s', NameInv s' (Refs.openInode (tmpfs kmalloc staleOps) w path flags).2
        (Refs.openInode (tmpfs kmalloc staleOps) w path flags).1.toList ∧
      (NamesUnique s' ↔ AddsNewName kmalloc staleOps w (.open path flags)) := by
  have hfull := (name_rules s kmalloc staleOps).resolveFull hw path
  unfold Refs.openInode
  cases hres : Refs.resolveFull (tmpfs kmalloc staleOps) w path with
  | mk found w₁ =>
    rw [hres] at hfull
    cases found with
    | some inode =>
      refine ⟨s, hfull, iff_of_true hs ?_⟩
      unfold AddsNewName
      dsimp only
      rw [hres]
      trivial
    | none =>
      have hguard : AddsNewName kmalloc staleOps w (.open path flags) ↔
          (flags &&& VFS_O_CREAT ≠ 0 → NewName kmalloc staleOps .raw w₁ path) := by
        unfold AddsNewName
        dsimp only
        rw [hres]
      dsimp only
      rw [hguard]
      by_cases hcreat : flags &&& VFS_O_CREAT ≠ 0
      · rw [if_pos hcreat, forall_prop_of_true hcreat]
        have hadds : NamesAfter
            (Refs.inParent (tmpfs kmalloc staleOps) .create
              (tmpfsCreate kmalloc staleOps) w₁ path).2
            (NewName kmalloc staleOps .raw w₁ path) :=
          names_inParent (tmpfsCreate_enters hk) (fun _ _ => rfl) hfull hs path
        obtain ⟨hadded, hiff⟩ := hadds
        refine ⟨_, ?_, hiff⟩
        split
        · exact (name_rules _ kmalloc staleOps).resolveFull hadded path
        · exact hadded
      · rw [if_neg hcreat]
        exact ⟨s, hfull, iff_of_true hs fun h => absurd h hcreat⟩

theorem names_open (hk : Sound kmalloc) (hw : NameInv s w []) (hs : NamesUnique s) (path : CStr)
    (flags : Nat) :
    NamesAfter (Refs.vfsOpen (tmpfs kmalloc staleOps) w path flags).2
      (AddsNewName kmalloc staleOps w (.open path flags)) := by
  obtain ⟨s', hinode, hiff⟩ := names_openInode staleOps hk hw hs path flags
  unfold Refs.vfsOpen
  cases hres : Refs.openInode (tmpfs kmalloc staleOps) w path flags with
  | mk found w₁ =>
    rw [hres] at hinode
    unfold NamesAfter
    cases found with
    | none =>
      rw [show w₁.heap.fs = s' from hinode.fs]
      exact ⟨hinode, hiff⟩
    | some inode =>
      dsimp only
      split
      · have hdropped := NameInv.unref (tmpfs kmalloc staleOps) hinode
        rw [hdropped.fs]
        exact ⟨hdropped, hiff⟩
      next idx _ =>
        have hslot := hinode.install idx { inode := some inode, offset := 0, flags := flags }
        rw [hslot.fs]
        exact ⟨hslot, hiff⟩

/-! ## Runs -/

theorem names_step (hk : Sound kmalloc) (hw : NameInv w.heap.fs w []) (hs : NamesUnique w.heap.fs)
    {o : NameOp}
    (hstep : nameStep kmalloc staleOps w o = some w') :
    NamesAfter w' (AddsNewName kmalloc staleOps w o) := by
  cases o with
  | create path =>
    cases hstep
    exact names_inParent (tmpfsCreate_enters hk) (fun _ _ => rfl) hw hs path
  | mkdir path =>
    cases hstep
    exact names_inParent (tmpfsMkdir_enters hk) hasOp_mkdir hw hs path
  | «open» path flags =>
    cases hstep
    exact names_open hk hw hs path flags
  | unlink path =>
    cases hstep
    exact names_unlink hw hs path

theorem NameInv.mounted (hm : ∀ m ∈ mounts, m.root = ROOT ∨ m.root = OTHER_ROOT) :
    NameInv mountedHeap (mountedWorld mounts) [] := by
  have hwhole := whole_mounted hm
  exact {
    fs := rfl
    shape := Shape.mounted
    roots := hwhole.roots
    refs := by
      intro i hi
      rw [hwhole.refs i hi]
      omega
    held := fun i hi => absurd hi List.not_mem_nil }

theorem NamesUnique.mounted : NamesUnique mountedHeap := by
  intro a d ha
  cases mountedHeap_cases ha with
  | inl h =>
    cases h
    rw [names_emptyDir]
    exact ⟨List.nodup_nil, List.not_mem_nil⟩
  | inr h =>
    obtain ⟨ops, p, hinode, -⟩ := h
    cases hinode

/-- **Names of tmpfs.**  The names of every directory are unique and not empty in every
state of a run exactly if each of its calls that adds an entry adds a new name. -/
theorem namesUnique_iff (kmalloc : TmpHeap → Nat) (staleOps : TmpHeap → Bool) (hk : Sound kmalloc)
    (mounts : List (Mount Nat)) (hm : ∀ m ∈ mounts, m.root = ROOT ∨ m.root = OTHER_ROOT)
    (os : List NameOp) :
    (∀ w ∈ visited (nameStep kmalloc staleOps) (mountedWorld mounts) os, NamesUnique w.heap.fs) ↔
      Guarded (nameStep kmalloc staleOps) (AddsNewName kmalloc staleOps)
        (mountedWorld mounts) os := by
  refine visited_iff_guarded (fun w (hw : NameInv w.heap.fs w [] ∧ NamesUnique w.heap.fs) => hw.2)
    ?_ ?_ ⟨NameInv.mounted hm, NamesUnique.mounted⟩ os
  · intro w o w' hw hguard hstep
    obtain ⟨hinv, hiff⟩ := names_step hk hw.1 hw.2 hstep
    exact ⟨hinv, hiff.mpr hguard⟩
  · intro w o w' hw hguard hstep hgood
    obtain ⟨-, hiff⟩ := names_step hk hw.1 hw.2 hstep
    exact hguard (hiff.mp hgood)

/-- `/f` is created, removed, created again with `vfs_open`, and opened once more. -/
def removeThenOpen : List NameOp :=
  [.create [SLASH, 102], .unlink [SLASH, 102], .open [SLASH, 102] VFS_O_CREAT, .open
    [SLASH, 102] VFS_O_CREAT]

theorem newName_of_target {path : CStr} (l : List CStr) (name : CStr)
    (htarget : (target kmalloc staleOps w path).map (fun t => (names t.1, t.2)) = some (l, name))
    (hne : name ≠ []) (hnot : name ∉ l) : NewName kmalloc staleOps first w path := by
  intro d name' h _
  rw [h] at htarget
  cases htarget
  exact ⟨hne, hnot⟩

theorem namesUnique_iff_removeThenOpen :
    Guarded (nameStep firstFit fun _ => false) (AddsNewName firstFit fun _ => false)
        (mountedWorld [{ path := [SLASH], root := ROOT }]) removeThenOpen ∧
      ∀ w ∈ visited (nameStep firstFit fun _ => false)
          (mountedWorld [{ path := [SLASH], root := ROOT }])
        removeThenOpen, NamesUnique w.heap.fs := by
  have hunique :=
    namesUnique_iff firstFit (fun _ => false) firstFit_sound [{ path := [SLASH], root := ROOT }]
    (by simp) removeThenOpen
  suffices hguarded :
      Guarded (nameStep firstFit fun _ => false) (AddsNewName firstFit fun _ => false)
      (mountedWorld [{ path := [SLASH], root := ROOT }]) removeThenOpen
        from ⟨hguarded, hunique.mpr hguarded⟩
  refine ⟨?_, trivial, ?_, ?_, trivial⟩
  · exact newName_of_target [] [102] (by decide +kernel) (by decide) (by decide)
  · exact fun _ => newName_of_target [] [102] (by decide +kernel) (by decide) (by decide)
  · exact trivial

/-- The names in a block of the heap. -/
def namesAt (s : TmpHeap) (a : Nat) : List CStr :=
  match s.objs a with
  | some (.dir d) => names d
  | _ => []

theorem NamesUnique.block (hs : NamesUnique s) (a : Nat) :
    (namesAt s a).Nodup ∧ [] ∉ namesAt s a := by
  unfold namesAt
  split
  next d hd => exact hs a d hd
  · exact ⟨List.nodup_nil, List.not_mem_nil⟩

/-- `vfs_create("/f")` twice makes two files `f`, and `vfs_create("/")` one without a
name. -/
theorem createTwice_not_unique :
    (¬ ∀ w ∈ visited (nameStep firstFit fun _ => false)
      (mountedWorld [{ path := [SLASH], root := ROOT }])
      [.create [SLASH, 102], .create [SLASH, 102]], NamesUnique w.heap.fs) ∧
    ¬ ∀ w ∈ visited (nameStep firstFit fun _ => false)
      (mountedWorld [{ path := [SLASH], root := ROOT }])
      [.create [SLASH]], NamesUnique w.heap.fs := by
  refine ⟨fun h => ?_, fun h => ?_⟩
  · have hlast :=
      h _ (List.mem_cons_of_mem _ (List.mem_cons_of_mem _ (List.mem_singleton.mpr rfl)))
    exact absurd (hlast.block ROOT_DIR).1 (by decide +kernel)
  · have hlast := h _ (List.mem_cons_of_mem _ (List.mem_singleton.mpr rfl))
    exact absurd (hlast.block ROOT_DIR).2 (by decide +kernel)

end Lumin.Fs.Tmpfs
