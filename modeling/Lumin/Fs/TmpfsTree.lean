import Lumin.Fs.Refs
import Lumin.Fs.TmpfsDir

/-!
# The tree of tmpfs

The inodes, files and directories of tmpfs in the kernel heap, and its operations as a
filesystem for the calls of `Lumin.Fs.Refs`.  `tmpfs_unlink` frees the inode and its file
whatever the reference count is.

`Shape` is the invariant of the heap: every inode has its file or directory, and every
directory entry has an inode of its own.  `Inserted` and `Removed` are what the operations
change, and `Shape.insert` and `Shape.remove` say that they keep the shape.
-/

namespace Lumin.Fs.Tmpfs

open Lumin.Lib Lumin.Lib.Table Refs

/-- What a block of the heap holds.  The buffer of a file is left out. -/
inductive Obj where
  | raw
  | inode (type : InodeType) (ops : Bool) (priv : Nat)
  | file
  | dir (d : TmpDir)

/-- The blocks in use, and whether `kfree` was called on one that was not. -/
structure TmpHeap where
  objs : Nat → Option Obj
  doubleFreed : Bool

def TmpHeap.put (s : TmpHeap) (a : Nat) (x : Obj) : TmpHeap :=
  { s with objs := Function.update s.objs a (some x) }

def kfree (s : TmpHeap) (a : Nat) : TmpHeap :=
  match s.objs a with
  | none => { s with doubleFreed := true }
  | some _ => { s with objs := Function.update s.objs a none }

/-- The static `tmpfs_root_inode`, and its directory. -/
def ROOT : Nat := 1
def ROOT_DIR : Nat := 2

/-- The root of another filesystem, in which no path goes on. -/
def OTHER_ROOT : Nat := 3
def OTHER_DIR : Nat := 4

def inodeType (s : TmpHeap) (i : Nat) : InodeType :=
  match s.objs i with
  | some (.inode type _ _) => type
  | _ => .file

/-- `tmpfs_dir_ops` has no `truncate`. -/
def hasOp (s : TmpHeap) (i : Nat) (op : InodeOp) : Bool :=
  match s.objs i, op with
  | _, .truncate => false
  | some (.inode _ ops _), _ => ops
  | _, _ => false

/-- The directory in `inode->private`, with its address. -/
def dirAt (s : TmpHeap) (i : Nat) : Option (Nat × TmpDir) :=
  match s.objs i with
  | some (.inode _ _ p) =>
    match s.objs p with
    | some (.dir d) => some (p, d)
    | _ => none
  | _ => none

/-- The directory that `tmpfs_alloc_dir` returns; the names are left as they are. -/
def emptyDir : TmpDir := { children := fun _ => { name := [], inode := 0 }, childCount := 0 }

/-- `tmpfs_lookup`. -/
def tmpfsLookup (h : Heap TmpHeap Nat) (dir : Nat) (name : CStr) :
    Option Nat × Heap TmpHeap Nat :=
  match dirAt h.fs dir with
  | none => (none, h)
  | some (_, d) =>
    match findChild d name with
    | none => (none, h)
    | some k =>
      let child := (d.children k).inode
      if child = 0 then (none, h) else (some child, h.setCount child (h.refcount child + 1))

/-- `tmpfs_readdir`. -/
def tmpfsReaddir (h : Heap TmpHeap Nat) (dir index : Nat) : Option Dentry × Heap TmpHeap Nat :=
  match dirAt h.fs dir with
  | none => (none, h)
  | some (_, d) =>
    if index ≥ d.childCount then (none, h)
    else
      let child := (d.children index).inode
      (some { name := copyName (d.children index).name
              ino := child
              type := if child ≠ 0 then inodeType h.fs child else .file
              size := 0 }, h)

section

-- What `kmalloc` returns, 0 for `NULL`, and whether the memory of the new inode happens
-- to hold the address of `tmpfs_dir_ops`: the field `ops` is never assigned.
variable (kmalloc : TmpHeap → Nat) (staleOps : TmpHeap → Bool)

/-- The new inode, with its entry in the directory. -/
def addEntry (h : Heap TmpHeap Nat) (s : TmpHeap) (place : Nat) (d : TmpDir) (name : CStr)
    (type : InodeType)
    (inode priv : Nat) : Heap TmpHeap Nat :=
  { refcount := Function.update h.refcount inode 1
    perm := Function.update h.perm inode 1
    fs := (s.put inode (.inode type (staleOps h.fs) priv)).put place
      (.dir (addChild d name inode)) }

/-- `tmpfs_create`. -/
def tmpfsCreate (h : Heap TmpHeap Nat) (dir : Nat) (name : CStr) : Int × Heap TmpHeap Nat :=
  match dirAt h.fs dir with
  | none => (-1, h)
  | some (place, d) =>
    if d.childCount ≥ TMPFS_MAX_ENTRIES then (-1, h)
    else
      let inode := kmalloc h.fs
      if inode = 0 then (-1, h)
      else
        let s := h.fs.put inode .raw
        let file := kmalloc s
        if file = 0 then (-1, { h with fs := kfree s inode })
        else (0, addEntry staleOps h (s.put file .file) place d name .file inode file)

/-- `tmpfs_mkdir`. -/
def tmpfsMkdir (h : Heap TmpHeap Nat) (dir : Nat) (name : CStr) : Int × Heap TmpHeap Nat :=
  match dirAt h.fs dir with
  | none => (-1, h)
  | some (place, d) =>
    if d.childCount ≥ TMPFS_MAX_ENTRIES then (-1, h)
    else
      let childDir := kmalloc h.fs
      if childDir = 0 then (-1, h)
      else
        let s := h.fs.put childDir (.dir emptyDir)
        let inode := kmalloc s
        if inode = 0 then (-1, { h with fs := kfree s childDir })
        else (0, addEntry staleOps h s place d name .dir inode childDir)

/-- The part of `tmpfs_unlink` and `tmpfs_destroy_inode` that frees a file. -/
def freeFile (s : TmpHeap) (inode : Nat) : TmpHeap :=
  match s.objs inode with
  | some (.inode .file _ priv) => if priv ≠ 0 then kfree s priv else s
  | _ => s

/-- `tmpfs_unlink`. -/
def tmpfsUnlink (h : Heap TmpHeap Nat) (dir : Nat) (name : CStr) : Int × Heap TmpHeap Nat :=
  match dirAt h.fs dir with
  | none => (-1, h)
  | some (place, d) =>
    match findChild d name with
    | none => (-1, h)
    | some k =>
      let inode := (d.children k).inode
      let s := if inode ≠ 0 then kfree (freeFile h.fs inode) inode else h.fs
      let shifted : TmpDir :=
        { children := shiftDown (d.childCount - 1 - k) k d.children,
          childCount := d.childCount - 1 }
      (0, { h with perm := Function.update h.perm inode 0, fs := s.put place (.dir shifted) })

/-- `tmpfs_destroy_inode`. -/
def tmpfsDestroyInode (h : Heap TmpHeap Nat) (inode : Nat) : Heap TmpHeap Nat :=
  if inode = ROOT then h
  else
    match h.fs.objs inode with
    | some (.inode .dir _ priv) =>
      { h with fs := kfree (if priv ≠ 0 then kfree h.fs priv else h.fs) inode }
    | _ => { h with fs := kfree (freeFile h.fs inode) inode }

/-- tmpfs as the VFS sees it.  No inode is given `tmpfs_file_ops`: every size stays 0, and
there is no `truncate`. -/
def tmpfs : Filesystems TmpHeap Nat where
  ino := fun _ i => i
  type := inodeType
  size := fun _ _ => 0
  bdev := fun _ _ => 0
  has := hasOp
  destroys := fun _ => true
  lookup := tmpfsLookup
  readdir := tmpfsReaddir
  truncate := fun h _ _ => (-1, h)
  create := tmpfsCreate kmalloc staleOps
  unlink := tmpfsUnlink
  mkdir := tmpfsMkdir kmalloc staleOps
  destroyInode := tmpfsDestroyInode

end

def IsInode (s : TmpHeap) (i : Nat) : Prop :=
  ∃ type ops priv, s.objs i = some (.inode type ops priv)

/-- tmpfs after `vfs_mount_tmpfs`, beside another filesystem. -/
def mountedHeap : TmpHeap where
  objs := fun i =>
    if i = ROOT then some (.inode .dir true ROOT_DIR)
    else if i = ROOT_DIR then some (.dir emptyDir)
    else if i = OTHER_ROOT then some (.inode .dir false OTHER_DIR)
    else if i = OTHER_DIR then some (.dir emptyDir)
    else none
  doubleFreed := false

/-! ## The shape of the heap -/

/-- The inodes of a directory. -/
def kids (d : TmpDir) : List Nat := (entries d.children d.childCount).map TmpChild.inode

/-- Every inode has its file or directory, and every entry an inode of its own.  The rank
says that no directory is below itself. -/
structure Shape (s : TmpHeap) : Prop where
  file : ∀ i ops p, s.objs i = some (.inode .file ops p) → s.objs p = some .file
  dir : ∀ i ops p, s.objs i = some (.inode .dir ops p) → ∃ d, s.objs p = some (.dir d)
  child : ∀ a d c, s.objs a = some (.dir d) → c ∈ kids d → c ≠ 0 ∧ IsInode s c
  nodup : ∀ a d, s.objs a = some (.dir d) → (kids d).Nodup
  owner : ∀ a d b e c, s.objs a = some (.dir d) → s.objs b = some (.dir e) → c ∈ kids d →
    c ∈ kids e → a = b
  filed : ∀ i j ops ops' p, s.objs i = some (.inode .file ops p) →
    s.objs j = some (.inode .file ops' p) → i = j
  ranked : ∃ rank : Nat → Nat, ∀ a d c ops b, s.objs a = some (.dir d) → c ∈ kids d →
    s.objs c = some (.inode .dir ops b) → rank a < rank b

variable {s s' : TmpHeap} {a b c i p k : Nat} {d : TmpDir} {name : CStr} {type : InodeType}
  {ops : Bool}

theorem kids_addChild (d : TmpDir) (name : CStr) (inode : Nat) :
    kids (addChild d name inode) = kids d ++ [inode] := by
  simp only [kids, addChild, entries_push, List.map_append, List.map_singleton]

theorem kids_emptyDir : kids emptyDir = [] := rfl

theorem findChild_lt (hk : findChild d name = some k) : k < d.childCount := by
  rw [findChild_eq] at hk
  obtain ⟨h, -, -⟩ := List.findIdx?_eq_some_iff_getElem.mp hk
  simpa using h

theorem getElem?_kids (hk : k < d.childCount) : (kids d)[k]? = some (d.children k).inode := by
  rw [kids, List.getElem?_map, getElem?_entries, if_pos hk]
  rfl

theorem kids_shifted (hk : k < d.childCount) :
    kids { children := shiftDown (d.childCount - 1 - k) k d.children,
           childCount := d.childCount - 1 } =
      (kids d).eraseIdx k := by
  unfold kids
  rw [entries_shiftDown hk]
  exact (List.eraseIdx_map _ _ _).symm

/-- What a new entry changes. -/
structure Inserted (s s' : TmpHeap) (place : Nat) (d : TmpDir) (type : InodeType)
    (inode priv : Nat) : Prop where
  parent : s.objs place = some (.dir d)
  inode_free : s.objs inode = none
  priv_free : s.objs priv = none
  ne : inode ≠ priv
  inode_ne : inode ≠ 0
  parent' : ∃ e, s'.objs place = some (.dir e) ∧ kids e = kids d ++ [inode]
  inode' : ∃ ops, s'.objs inode = some (.inode type ops priv)
  priv' : type = .file ∧ s'.objs priv = some .file ∨ type = .dir ∧
    s'.objs priv = some (.dir emptyDir)
  others : ∀ x, x ≠ place → x ≠ inode → x ≠ priv → s'.objs x = s.objs x

section

variable {place inode priv : Nat}

theorem Inserted.keep (hi : Inserted s s' place d type inode priv) {x : Nat} {y : Obj}
    (hx : s.objs x = some y)
    (hne : x ≠ place) : s'.objs x = some y := by
  rw [hi.others x hne, hx]
  · rintro rfl
    rw [hi.inode_free] at hx
    cases hx
  · rintro rfl
    rw [hi.priv_free] at hx
    cases hx

theorem Inserted.keepInode (hi : Inserted s s' place d type inode priv) {x p : Nat}
    {t : InodeType} {o : Bool}
    (hx : s.objs x = some (.inode t o p)) : s'.objs x = some (.inode t o p) := by
  apply hi.keep hx
  rintro rfl
  rw [hi.parent] at hx
  cases hx

theorem Inserted.inode_cases (hi : Inserted s s' place d type inode priv) {x p : Nat}
    {t : InodeType} {o : Bool}
    (hx : s'.objs x = some (.inode t o p)) :
    x = inode ∧ t = type ∧ p = priv ∨ s.objs x = some (.inode t o p) := by
  obtain ⟨e, he, -⟩ := hi.parent'
  obtain ⟨ops, hnew⟩ := hi.inode'
  by_cases h₁ : x = place
  · rw [h₁, he] at hx
    cases hx
  · by_cases h₂ : x = inode
    · rw [h₂, hnew] at hx
      cases hx
      exact .inl ⟨h₂, rfl, rfl⟩
    · by_cases h₃ : x = priv
      · rcases hi.priv' with ⟨-, hpriv⟩ | ⟨-, hpriv⟩ <;>
        · rw [h₃, hpriv] at hx
          cases hx
      · rw [hi.others x h₁ h₂ h₃] at hx
        exact .inr hx

theorem Inserted.kid_cases (hi : Inserted s s' place d type inode priv) {x c : Nat} {e : TmpDir}
    (hx : s'.objs x = some (.dir e)) (hc : c ∈ kids e) :
    x = place ∧ c = inode ∨ ∃ e₀, s.objs x = some (.dir e₀) ∧ c ∈ kids e₀ := by
  obtain ⟨e', he', hkids⟩ := hi.parent'
  obtain ⟨ops, hnew⟩ := hi.inode'
  by_cases h₁ : x = place
  · subst h₁
    rw [he'] at hx
    cases hx
    rw [hkids, List.mem_append, List.mem_singleton] at hc
    rcases hc with hold | rfl
    · exact .inr ⟨d, hi.parent, hold⟩
    · exact .inl ⟨rfl, rfl⟩
  · by_cases h₂ : x = inode
    · rw [h₂, hnew] at hx
      cases hx
    · by_cases h₃ : x = priv
      · rcases hi.priv' with ⟨-, hpriv⟩ | ⟨-, hpriv⟩
        · rw [h₃, hpriv] at hx
          cases hx
        · rw [h₃, hpriv] at hx
          cases hx
          rw [kids_emptyDir] at hc
          cases hc
      · rw [hi.others x h₁ h₂ h₃] at hx
        exact .inr ⟨e, hx, hc⟩

theorem Inserted.isInode (hi : Inserted s s' place d type inode priv) {i : Nat}
    (h : IsInode s i) : IsInode s' i := by
  obtain ⟨t, o, p, hinode⟩ := h
  exact ⟨t, o, p, hi.keepInode hinode⟩

theorem Inserted.ne_inode (hi : Inserted s s' place d type inode priv) {i : Nat}
    (h : IsInode s i) : i ≠ inode := by
  obtain ⟨t, o, p, hinode⟩ := h
  intro heq
  rw [heq, hi.inode_free] at hinode
  cases hinode

/-- An inode outside of all directories stays outside. -/
theorem Inserted.outside (hi : Inserted s s' place d type inode priv) {i : Nat} (h : IsInode s i)
    (hnot : ∀ a e, s.objs a = some (.dir e) → i ∉ kids e) :
    IsInode s' i ∧ ∀ a e, s'.objs a = some (.dir e) → i ∉ kids e := by
  refine ⟨hi.isInode h, fun a e ha hmem => ?_⟩
  cases hi.kid_cases ha hmem with
  | inl hnew => exact hi.ne_inode h hnew.2
  | inr hold =>
    obtain ⟨e₀, ha₀, hmem₀⟩ := hold
    exact hnot a e₀ ha₀ hmem₀

theorem Inserted.nodup (hi : Inserted s s' place d type inode priv) (hs : Shape s) {x : Nat}
    {e : TmpDir}
    (hx : s'.objs x = some (.dir e)) : (kids e).Nodup := by
  obtain ⟨e', he', hkids⟩ := hi.parent'
  obtain ⟨ops, hnew⟩ := hi.inode'
  by_cases h₁ : x = place
  · subst h₁
    rw [he'] at hx
    cases hx
    rw [hkids, List.nodup_append]
    refine ⟨hs.nodup _ _ hi.parent, List.nodup_singleton _, ?_⟩
    rintro c hc _ hlast rfl
    obtain ⟨-, t, o, p, hinode⟩ := hs.child _ _ c hi.parent hc
    rw [List.mem_singleton.mp hlast, hi.inode_free] at hinode
    cases hinode
  · by_cases h₂ : x = inode
    · rw [h₂, hnew] at hx
      cases hx
    · by_cases h₃ : x = priv
      · rcases hi.priv' with ⟨-, hpriv⟩ | ⟨-, hpriv⟩
        · rw [h₃, hpriv] at hx
          cases hx
        · rw [h₃, hpriv] at hx
          cases hx
          exact List.nodup_nil
      · rw [hi.others x h₁ h₂ h₃] at hx
        exact hs.nodup _ _ hx

theorem Shape.notKid_of_free (hs : Shape s) {x : Nat} {e : TmpDir} (hc : s.objs c = none)
    (hx : s.objs x = some (.dir e)) : c ∉ kids e := by
  intro hmem
  obtain ⟨-, t, o, p, hinode⟩ := hs.child _ _ c hx hmem
  rw [hc] at hinode
  cases hinode

theorem Shape.insert (hs : Shape s) (hi : Inserted s s' place d type inode priv) : Shape s' where
  file := by
    intro i o p hinode
    rcases hi.inode_cases hinode with ⟨-, htype, rfl⟩ | hold
    · rcases hi.priv' with ⟨-, hfile⟩ | ⟨hdir, -⟩
      · exact hfile
      · rw [hdir] at htype
        cases htype
    · have hfile := hs.file i o p hold
      apply hi.keep hfile
      rintro rfl
      rw [hi.parent] at hfile
      cases hfile
  dir := by
    intro i o p hinode
    rcases hi.inode_cases hinode with ⟨-, htype, rfl⟩ | hold
    · rcases hi.priv' with ⟨hfile, -⟩ | ⟨-, hdir⟩
      · rw [hfile] at htype
        cases htype
      · exact ⟨_, hdir⟩
    · obtain ⟨e, he⟩ := hs.dir i o p hold
      by_cases hp : p = place
      · obtain ⟨e', he', -⟩ := hi.parent'
        exact ⟨e', hp ▸ he'⟩
      · exact ⟨e, hi.keep he hp⟩
  child := by
    intro x e c hx hc
    rcases hi.kid_cases hx hc with ⟨-, rfl⟩ | ⟨e₀, hx₀, hc₀⟩
    · obtain ⟨o, hinode⟩ := hi.inode'
      exact ⟨hi.inode_ne, _, o, _, hinode⟩
    · obtain ⟨hne, t, o, p, hinode⟩ := hs.child x e₀ c hx₀ hc₀
      exact ⟨hne, t, o, p, hi.keepInode hinode⟩
  nodup := fun _ _ hx => hi.nodup hs hx
  owner := by
    intro x e y e' c hx hy hcx hcy
    rcases hi.kid_cases hx hcx with ⟨rfl, rfl⟩ | ⟨e₀, hx₀, hc₀⟩
    · rcases hi.kid_cases hy hcy with ⟨rfl, -⟩ | ⟨e₁, hy₁, hc₁⟩
      · rfl
      · exact absurd hc₁ (hs.notKid_of_free hi.inode_free hy₁)
    · rcases hi.kid_cases hy hcy with ⟨-, rfl⟩ | ⟨e₁, hy₁, hc₁⟩
      · exact absurd hc₀ (hs.notKid_of_free hi.inode_free hx₀)
      · exact hs.owner x e₀ y e₁ c hx₀ hy₁ hc₀ hc₁
  filed := by
    have hfresh : ∀ i o, s.objs i ≠ some (.inode .file o priv) := by
      intro i o hold
      have hfile := hs.file i o priv hold
      rw [hi.priv_free] at hfile
      cases hfile
    intro i j o o' p hx hy
    rcases hi.inode_cases hx with ⟨rfl, -, rfl⟩ | hx₀
    · rcases hi.inode_cases hy with ⟨rfl, -, -⟩ | hy₀
      · rfl
      · exact absurd hy₀ (hfresh j o')
    · rcases hi.inode_cases hy with ⟨-, -, rfl⟩ | hy₀
      · exact absurd hx₀ (hfresh i o)
      · exact hs.filed i j o o' p hx₀ hy₀
  ranked := by
    obtain ⟨rank, hrank⟩ := hs.ranked
    -- a new directory comes right below the one that it is entered in
    refine ⟨Function.update rank priv (rank place + 1), ?_⟩
    intro x e c o b hx hc hinode
    have hlive :
        ∀ y e, s.objs y = some (.dir e) →
          Function.update rank priv (rank place + 1) y = rank y := by
      intro y e hy
      apply Function.update_of_ne
      rintro rfl
      rw [hi.priv_free] at hy
      cases hy
    rcases hi.kid_cases hx hc with ⟨rfl, rfl⟩ | ⟨e₀, hx₀, hc₀⟩
    · rcases hi.inode_cases hinode with ⟨-, -, rfl⟩ | hold
      · rw [hlive _ _ hi.parent, Function.update_self]
        omega
      · rw [hi.inode_free] at hold
        cases hold
    · rcases hi.inode_cases hinode with ⟨rfl, -, -⟩ | hold
      · exact absurd hc₀ (hs.notKid_of_free hi.inode_free hx₀)
      · obtain ⟨e₁, hb⟩ := hs.dir c o b hold
        rw [hlive _ _ hx₀, hlive _ _ hb]
        exact hrank x e₀ c o b hx₀ hc₀ hold

end

/-- What the removal of the entry `k` changes: the inode `c` goes, and its file with it. -/
structure Removed (s s' : TmpHeap) (place : Nat) (d : TmpDir) (k c : Nat) : Prop where
  parent : s.objs place = some (.dir d)
  kid : (kids d)[k]? = some c
  parent' : ∃ e, s'.objs place = some (.dir e) ∧ kids e = (kids d).eraseIdx k
  gone : s'.objs c = none
  others : ∀ x, x ≠ place → x ≠ c → (∀ ops, s.objs c ≠ some (.inode .file ops x)) →
    s'.objs x = s.objs x
  less : ∀ x y, x ≠ place → s'.objs x = some y → s.objs x = some y

section

variable {place : Nat}

theorem Removed.inode_of (hr : Removed s s' place d k c) {x p : Nat} {t : InodeType} {o : Bool}
    (hx : s'.objs x = some (.inode t o p)) : x ≠ c ∧ s.objs x = some (.inode t o p) := by
  refine ⟨?_, hr.less x _ ?_ hx⟩
  · rintro rfl
    rw [hr.gone] at hx
    cases hx
  · rintro rfl
    obtain ⟨e, he, -⟩ := hr.parent'
    rw [he] at hx
    cases hx

/-- The removed inode is no longer in any directory. -/
theorem Removed.kid_of (hr : Removed s s' place d k c) (hs : Shape s) {x c' : Nat} {e : TmpDir}
    (hx : s'.objs x = some (.dir e)) (hc : c' ∈ kids e) :
    c' ≠ c ∧ ∃ e₀, s.objs x = some (.dir e₀) ∧ c' ∈ kids e₀ := by
  have hmem : c ∈ kids d := List.mem_of_getElem? hr.kid
  by_cases hplace : x = place
  · obtain ⟨e', he', hkids⟩ := hr.parent'
    rw [hplace, he'] at hx
    cases hx
    rw [hkids] at hc
    refine ⟨?_, d, hplace ▸ hr.parent, List.mem_of_mem_eraseIdx hc⟩
    rintro rfl
    obtain ⟨j, hj, hget⟩ := List.mem_eraseIdx_iff_getElem?.mp hc
    have hlt : j < (kids d).length := List.getElem?_eq_some_iff.mp hget |>.1
    exact hj ((List.getElem?_inj hlt (hs.nodup _ _ hr.parent)).mp (hget.trans hr.kid.symm))
  · have hx₀ := hr.less x _ hplace hx
    refine ⟨?_, e, hx₀, hc⟩
    rintro rfl
    exact hplace (hs.owner _ _ _ _ _ hx₀ hr.parent hc hmem)

/-- An inode other than `c` stays. -/
theorem Removed.keepInode (hr : Removed s s' place d k c) (hs : Shape s) {x p : Nat}
    {t : InodeType} {o : Bool}
    (hx : s.objs x = some (.inode t o p)) (hne : x ≠ c) : s'.objs x = some (.inode t o p) := by
  rw [hr.others x ?_ hne ?_, hx]
  · rintro rfl
    rw [hr.parent] at hx
    cases hx
  · intro o' hfile
    rw [hs.file _ _ _ hfile] at hx
    cases hx

theorem Removed.isInode (hr : Removed s s' place d k c) (hs : Shape s) {i : Nat} (h : IsInode s i)
    (hne : i ≠ c) : IsInode s' i := by
  obtain ⟨t, o, p, hinode⟩ := h
  exact ⟨t, o, p, hr.keepInode hs hinode hne⟩

theorem Removed.isInode_of (hr : Removed s s' place d k c) {i : Nat} (h : IsInode s' i) :
    IsInode s i := by
  obtain ⟨t, o, p, hinode⟩ := h
  exact ⟨t, o, p, (hr.inode_of hinode).2⟩

/-- An inode outside of all directories stays outside. -/
theorem Removed.outside (hr : Removed s s' place d k c) (hs : Shape s) {i : Nat} (h : IsInode s i)
    (hnot : ∀ a e, s.objs a = some (.dir e) → i ∉ kids e) :
    IsInode s' i ∧ ∀ a e, s'.objs a = some (.dir e) → i ∉ kids e := by
  refine ⟨hr.isInode hs h fun heq => ?_, fun a e ha hmem => ?_⟩
  · exact hnot _ _ hr.parent (heq ▸ List.mem_of_getElem? hr.kid)
  · obtain ⟨-, e₀, ha₀, hmem₀⟩ := hr.kid_of hs ha hmem
    exact hnot a e₀ ha₀ hmem₀

theorem Removed.keepDir (hr : Removed s s' place d k c) (hs : Shape s) {x : Nat} {e : TmpDir}
    (hx : s.objs x = some (.dir e)) : ∃ e', s'.objs x = some (.dir e') := by
  by_cases hplace : x = place
  · obtain ⟨e', he', -⟩ := hr.parent'
    exact ⟨e', hplace ▸ he'⟩
  · refine ⟨e, ?_⟩
    rw [hr.others x hplace ?_ ?_, hx]
    · rintro rfl
      obtain ⟨-, t, o, p, hinode⟩ := hs.child _ _ x hr.parent (List.mem_of_getElem? hr.kid)
      rw [hx] at hinode
      cases hinode
    · intro o hfile
      rw [hs.file _ _ _ hfile] at hx
      cases hx

theorem Removed.keepFile (hr : Removed s s' place d k c) (hs : Shape s) {x p : Nat} {o : Bool}
    (hx : s.objs x = some (.inode .file o p)) (hne : x ≠ c) : s'.objs p = some .file := by
  have hfile := hs.file x o p hx
  rw [hr.others p ?_ ?_ ?_, hfile]
  · rintro rfl
    rw [hr.parent] at hfile
    cases hfile
  · rintro rfl
    obtain ⟨-, t, o, p', hinode⟩ := hs.child _ _ p hr.parent (List.mem_of_getElem? hr.kid)
    rw [hfile] at hinode
    cases hinode
  · intro o' hc
    exact hne (hs.filed x c o o' p hx hc)

theorem Shape.remove (hs : Shape s) (hr : Removed s s' place d k c) : Shape s' where
  file := by
    intro i o p hinode
    obtain ⟨hne, hold⟩ := hr.inode_of hinode
    exact hr.keepFile hs hold hne
  dir := by
    intro i o p hinode
    obtain ⟨e, he⟩ := hs.dir i o p (hr.inode_of hinode).2
    exact hr.keepDir hs he
  child := by
    intro x e c' hx hc
    obtain ⟨hne, e₀, hx₀, hc₀⟩ := hr.kid_of hs hx hc
    obtain ⟨hzero, t, o, p, hinode⟩ := hs.child x e₀ c' hx₀ hc₀
    exact ⟨hzero, t, o, p, hr.keepInode hs hinode hne⟩
  nodup := by
    intro x e hx
    by_cases hplace : x = place
    · obtain ⟨e', he', hkids⟩ := hr.parent'
      rw [hplace, he'] at hx
      cases hx
      rw [hkids]
      exact (hs.nodup _ _ hr.parent).sublist (List.eraseIdx_sublist _ _)
    · exact hs.nodup x e (hr.less x _ hplace hx)
  owner := by
    intro x e y e' c' hx hy hcx hcy
    obtain ⟨-, e₀, hx₀, hc₀⟩ := hr.kid_of hs hx hcx
    obtain ⟨-, e₁, hy₁, hc₁⟩ := hr.kid_of hs hy hcy
    exact hs.owner x e₀ y e₁ c' hx₀ hy₁ hc₀ hc₁
  filed := fun i j o o' p hx hy => hs.filed i j o o' p (hr.inode_of hx).2 (hr.inode_of hy).2
  ranked := by
    obtain ⟨rank, hrank⟩ := hs.ranked
    refine ⟨rank, ?_⟩
    intro x e c' o b hx hc hinode
    obtain ⟨-, e₀, hx₀, hc₀⟩ := hr.kid_of hs hx hc
    exact hrank x e₀ c' o b hx₀ hc₀ (hr.inode_of hinode).2

end

/-- The heap after mounting has no entries and no files. -/
theorem mountedHeap_cases {x : Obj} (hx : mountedHeap.objs i = some x) :
    x = .dir emptyDir ∨ ∃ ops p, x = .inode .dir ops p ∧
      mountedHeap.objs p = some (.dir emptyDir) := by
  simp only [mountedHeap] at hx
  split at hx
  · cases hx
    exact .inr ⟨_, _, rfl, rfl⟩
  · split at hx
    · cases hx
      exact .inl rfl
    · split at hx
      · cases hx
        exact .inr ⟨_, _, rfl, rfl⟩
      · split at hx
        · cases hx
          exact .inl rfl
        · cases hx

theorem mountedHeap_kids (hx : mountedHeap.objs a = some (.dir d)) : kids d = [] := by
  rcases mountedHeap_cases hx with h | ⟨_, _, h, -⟩
  · cases h
    exact kids_emptyDir
  · cases h

theorem Shape.mounted : Shape mountedHeap where
  file := by
    intro i o p hx
    rcases mountedHeap_cases hx with h | ⟨_, _, h, -⟩ <;> cases h
  dir := by
    intro i o p hx
    rcases mountedHeap_cases hx with h | ⟨_, _, h, hdir⟩
    · cases h
    · cases h
      exact ⟨_, hdir⟩
  child := by
    intro a d c hx hc
    rw [mountedHeap_kids hx] at hc
    cases hc
  nodup := by
    intro a d hx
    rw [mountedHeap_kids hx]
    exact List.nodup_nil
  owner := by
    intro a d b e c hx _ hc
    rw [mountedHeap_kids hx] at hc
    cases hc
  filed := by
    intro i j o o' p hx
    rcases mountedHeap_cases hx with h | ⟨_, _, h, -⟩ <;> cases h
  ranked := by
    refine ⟨fun _ => 0, ?_⟩
    intro a d c o b hx hc
    rw [mountedHeap_kids hx] at hc
    cases hc

theorem dirAt_eq (hd : dirAt s i = some (a, d)) :
    (∃ type ops, s.objs i = some (.inode type ops a)) ∧ s.objs a = some (.dir d) := by
  unfold dirAt at hd
  split at hd
  next type ops p hinode =>
    split at hd
    next d' hdir =>
      obtain ⟨rfl, rfl⟩ := Prod.mk.inj (Option.some.inj hd)
      exact ⟨⟨type, ops, hinode⟩, hdir⟩
    · contradiction
  · contradiction

theorem findChild_kid (hk : findChild d name = some k) : (d.children k).inode ∈ kids d :=
  List.mem_of_getElem? (getElem?_kids (findChild_lt hk))

/-- A directory is not an entry of its own. -/
theorem Shape.ne_parent {parent : Nat} (hs : Shape s) (htype : inodeType s parent = .dir)
    (hd : dirAt s parent = some (a, d)) (hc : c ∈ kids d) : c ≠ parent := by
  rintro rfl
  obtain ⟨⟨t, o, hinode⟩, hdir⟩ := dirAt_eq hd
  rw [inodeType, hinode] at htype
  obtain ⟨rank, hrank⟩ := hs.ranked
  have := hrank a d c o a hdir hc (htype ▸ hinode)
  omega

/-! ## New entries -/

variable {h h' : Heap TmpHeap Nat} {first : Obj} {kmalloc : TmpHeap → Nat}
  {staleOps : TmpHeap → Bool}

/-- `kmalloc` returns memory that is not in use. -/
def Sound (kmalloc : TmpHeap → Nat) : Prop := ∀ s, kmalloc s ≠ 0 → s.objs (kmalloc s) = none

theorem put_objs_self (s : TmpHeap) (a : Nat) (x : Obj) : (s.put a x).objs a = some x :=
  Function.update_self _ _ _

theorem put_objs_of_ne (x : Obj) (hne : b ≠ a) : (s.put a x).objs b = s.objs b :=
  Function.update_of_ne hne _ _

theorem kfree_of_some {x : Obj} (ha : s.objs a = some x) :
    kfree s a = { s with objs := Function.update s.objs a none } := by
  rw [kfree, ha]

/-- Freeing a block right after it was allocated restores the heap. -/
theorem kfree_put (ha : s.objs a = none) (x : Obj) : kfree (s.put a x) a = s := by
  rw [kfree_of_some (put_objs_self s a x)]
  show ({ s with objs := Function.update (Function.update s.objs a (some x)) a none } : TmpHeap) =
      s
  rw [Function.update_idem, ← ha, Function.update_eq_self]

/-- Two blocks allocated one after the other are two blocks. -/
theorem Sound.second (hk : Sound kmalloc) {x : Obj} (hne : kmalloc (s.put a x) ≠ 0) :
    kmalloc (s.put a x) ≠ a ∧ s.objs (kmalloc (s.put a x)) = none := by
  have hfree := hk _ hne
  have hne' : kmalloc (s.put a x) ≠ a := by
    intro heq
    rw [heq, put_objs_self] at hfree
    cases hfree
  rw [put_objs_of_ne x hne'] at hfree
  exact ⟨hne', hfree⟩

/-- The heap is the same, or there is a new entry. -/
def AddsEntry (h h' : Heap TmpHeap Nat) : Prop :=
  h' = h ∨ ∃ place d type inode priv, Inserted h.fs h'.fs place d type inode priv ∧
    h'.refcount = Function.update h.refcount inode 1 ∧ h'.fs.doubleFreed = h.fs.doubleFreed

/-- The last assignments of the two functions, on a heap with the two new blocks. -/
theorem addEntry_inserted {place inode priv : Nat} (h : Heap TmpHeap Nat) (s : TmpHeap)
    (name : CStr)
    (hplace : h.fs.objs place = some (.dir d)) (hinode : h.fs.objs inode = none)
    (hpriv : h.fs.objs priv = none)
    (hne : inode ≠ priv) (hzero : inode ≠ 0)
    (hnew : type = .file ∧ s.objs priv = some .file ∨ type = .dir ∧
      s.objs priv = some (.dir emptyDir))
    (hrest : ∀ x, x ≠ inode → x ≠ priv → s.objs x = h.fs.objs x) :
    Inserted h.fs (addEntry staleOps h s place d name type inode priv).fs place d type inode
      priv := by
  have hplace_inode : place ≠ inode := by
    rintro rfl
    rw [hinode] at hplace
    cases hplace
  have hplace_priv : place ≠ priv := by
    rintro rfl
    rw [hpriv] at hplace
    cases hplace
  have hobjs : ∀ x, x ≠ place → x ≠ inode →
      (addEntry staleOps h s place d name type inode priv).fs.objs x = s.objs x := by
    intro x h₁ h₂
    show ((s.put inode _).put place _).objs x = _
    rw [put_objs_of_ne _ h₁, put_objs_of_ne _ h₂]
  exact {
    parent := hplace
    inode_free := hinode
    priv_free := hpriv
    ne := hne
    inode_ne := hzero
    parent' := ⟨_, put_objs_self _ _ _, kids_addChild _ _ _⟩
    inode' := by
      refine ⟨staleOps h.fs, ?_⟩
      show ((s.put inode _).put place _).objs inode = _
      rw [put_objs_of_ne _ hplace_inode.symm, put_objs_self]
    priv' := by
      rw [hobjs priv hplace_priv.symm hne.symm]
      exact hnew
    others := by
      intro x h₁ h₂ h₃
      rw [hobjs x h₁ h₂, hrest x h₂ h₃] }

/-- There is room for an entry and memory for its two blocks, of which the first will
hold `first`. -/
def Room (kmalloc : TmpHeap → Nat) (s : TmpHeap) (d : TmpDir) (first : Obj) : Prop :=
  d.childCount < TMPFS_MAX_ENTRIES ∧ kmalloc s ≠ 0 ∧ kmalloc (s.put (kmalloc s) first) ≠ 0

/-- An operation that adds an entry of this name if there is room, and else nothing. -/
def Enters (kmalloc : TmpHeap → Nat) (first : Obj) (h h' : Heap TmpHeap Nat) (dir : Nat)
    (name : CStr) : Prop :=
  match dirAt h.fs dir with
  | none => h' = h
  | some (place, d) =>
    (¬ Room kmalloc h.fs d first ∧ h' = h) ∨
      (Room kmalloc h.fs d first ∧
        ∃ type inode priv, Inserted h.fs h'.fs place d type inode priv ∧
        h'.fs.objs place = some (.dir (addChild d name inode)) ∧
        h'.refcount = Function.update h.refcount inode 1 ∧ h'.fs.doubleFreed = h.fs.doubleFreed)

theorem tmpfsCreate_enters (hk : Sound kmalloc) (h : Heap TmpHeap Nat) (dir : Nat) (name : CStr) :
    Enters kmalloc .raw h (tmpfsCreate kmalloc staleOps h dir name).2 dir name := by
  unfold Enters tmpfsCreate Room
  cases hd : dirAt h.fs dir with
  | none => rfl
  | some found =>
    obtain ⟨place, d⟩ := found
    dsimp only
    by_cases hfull : d.childCount ≥ TMPFS_MAX_ENTRIES
    · rw [if_pos hfull]
      exact Or.inl ⟨fun hroom => absurd hroom.1 (not_lt.mpr hfull), rfl⟩
    rw [if_neg hfull]
    by_cases hinode : kmalloc h.fs = 0
    · rw [if_pos hinode]
      exact Or.inl ⟨fun hroom => hroom.2.1 hinode, rfl⟩
    rw [if_neg hinode]
    have hfree := hk _ hinode
    by_cases hfile : kmalloc (h.fs.put (kmalloc h.fs) .raw) = 0
    · rw [if_pos hfile, kfree_put hfree]
      exact Or.inl ⟨fun hroom => hroom.2.2 hfile, rfl⟩
    rw [if_neg hfile]
    obtain ⟨hne, hfile_free⟩ := hk.second hfile
    refine Or.inr
      ⟨⟨not_le.mp hfull, hinode, hfile⟩, .file, _, _,
      addEntry_inserted h _ name (dirAt_eq hd).2 hfree
      hfile_free hne.symm hinode (Or.inl ⟨rfl, put_objs_self _ _ _⟩) ?_, put_objs_self _ _ _, rfl,
        rfl⟩
    intro x h₁ h₂
    rw [put_objs_of_ne _ h₂, put_objs_of_ne _ h₁]

theorem tmpfsMkdir_enters (hk : Sound kmalloc) (h : Heap TmpHeap Nat) (dir : Nat) (name : CStr) :
    Enters kmalloc (.dir emptyDir) h (tmpfsMkdir kmalloc staleOps h dir name).2 dir name := by
  unfold Enters tmpfsMkdir Room
  cases hd : dirAt h.fs dir with
  | none => rfl
  | some found =>
    obtain ⟨place, d⟩ := found
    dsimp only
    by_cases hfull : d.childCount ≥ TMPFS_MAX_ENTRIES
    · rw [if_pos hfull]
      exact Or.inl ⟨fun hroom => absurd hroom.1 (not_lt.mpr hfull), rfl⟩
    rw [if_neg hfull]
    by_cases hdir : kmalloc h.fs = 0
    · rw [if_pos hdir]
      exact Or.inl ⟨fun hroom => hroom.2.1 hdir, rfl⟩
    rw [if_neg hdir]
    have hfree := hk _ hdir
    by_cases hinode : kmalloc (h.fs.put (kmalloc h.fs) (.dir emptyDir)) = 0
    · rw [if_pos hinode, kfree_put hfree]
      exact Or.inl ⟨fun hroom => hroom.2.2 hinode, rfl⟩
    rw [if_neg hinode]
    obtain ⟨hne, hinode_free⟩ := hk.second hinode
    refine Or.inr
      ⟨⟨not_le.mp hfull, hdir, hinode⟩, .dir, _, _, addEntry_inserted h _ name (dirAt_eq hd).2
      hinode_free hfree hne hinode (Or.inr ⟨rfl, put_objs_self _ _ _⟩) ?_, put_objs_self _ _ _,
        rfl, rfl⟩
    intro x _ h₂
    rw [put_objs_of_ne _ h₂]

theorem Enters.adds {dir : Nat} (he : Enters kmalloc first h h' dir name) : AddsEntry h h' := by
  unfold Enters at he
  split at he
  · exact .inl he
  next place d hd =>
    cases he with
    | inl hsame => exact .inl hsame.2
    | inr hnew =>
      obtain ⟨-, type, inode, priv, hins, -, hrefs, hclean⟩ := hnew
      exact .inr ⟨place, d, type, inode, priv, hins, hrefs, hclean⟩

theorem tmpfsCreate_adds (hk : Sound kmalloc) (h : Heap TmpHeap Nat) (dir : Nat) (name : CStr) :
    AddsEntry h (tmpfsCreate kmalloc staleOps h dir name).2 :=
  (tmpfsCreate_enters hk h dir name).adds

theorem tmpfsMkdir_adds (hk : Sound kmalloc) (h : Heap TmpHeap Nat) (dir : Nat) (name : CStr) :
    AddsEntry h (tmpfsMkdir kmalloc staleOps h dir name).2 :=
  (tmpfsMkdir_enters hk h dir name).adds

/-! ## Removed entries -/

/-- What is left after an inode is freed, with its file. -/
structure Freed (s s' : TmpHeap) (c : Nat) : Prop where
  gone : s'.objs c = none
  others : ∀ x, x ≠ c → (∀ ops, s.objs c ≠ some (.inode .file ops x)) → s'.objs x = s.objs x
  less : ∀ x y, s'.objs x = some y → s.objs x = some y
  clean : s'.doubleFreed = s.doubleFreed

theorem kfree_freed {x : Obj} (hc : s.objs c = some x) : Freed s (kfree s c) c := by
  rw [kfree_of_some hc]
  exact {
    gone := Function.update_self _ _ _
    others := fun y hy _ => Function.update_of_ne hy _ _
    less := by
      intro y z (hy : Function.update s.objs c none y = some z)
      rw [Function.update_apply] at hy
      split at hy
      · cases hy
      · exact hy
    clean := rfl }

theorem freeFile_freed (hs : Shape s) (hc : IsInode s c) :
    Freed s (kfree (freeFile s c) c) c := by
  obtain ⟨t, o, p, hinode⟩ := hc
  unfold freeFile
  split
  next o' p' hfile =>
    split
    next hp =>
      have hobj := hs.file c o' p' hfile
      have hne : c ≠ p' := by
        rintro rfl
        rw [hobj] at hfile
        cases hfile
      have hfirst := kfree_freed hobj
      have hstill : (kfree s p').objs c = some (.inode .file o' p') := by
        rw [hfirst.others c hne fun ops => by rw [hobj]; simp, hfile]
      have hsecond := kfree_freed hstill
      exact {
        gone := hsecond.gone
        others := by
          intro x hx hnot
          have hxp : x ≠ p' := by
            rintro rfl
            exact hnot o' hfile
          rw [hsecond.others x hx fun ops heq => ?_,
            hfirst.others x hxp fun ops => by rw [hobj]; simp]
          rw [hstill] at heq
          cases heq
          exact hxp rfl
        less := fun x y hx => hfirst.less x y (hsecond.less x y hx)
        clean := hsecond.clean.trans hfirst.clean }
    · exact kfree_freed hinode
  · exact kfree_freed hinode

/-- The heap after `tmpfs_unlink` of an entry. -/
theorem tmpfsUnlink_removed {dir : Nat} (hs : Shape h.fs) (hd : dirAt h.fs dir = some (a, d))
    (hk : findChild d name = some k) :
    Removed h.fs (tmpfsUnlink h dir name).2.fs a d k (d.children k).inode ∧
      (tmpfsUnlink h dir name).2.refcount = h.refcount ∧
      (tmpfsUnlink h dir name).2.fs.doubleFreed = h.fs.doubleFreed := by
  have hdir := (dirAt_eq hd).2
  have hlt := findChild_lt hk
  obtain ⟨hzero, hinode⟩ := hs.child _ _ _ hdir (findChild_kid hk)
  have hfreed := freeFile_freed hs hinode
  unfold tmpfsUnlink
  simp only [hd, hk, if_pos hzero]
  refine ⟨?_, trivial, hfreed.clean⟩
  exact {
    parent := hdir
    kid := getElem?_kids hlt
    parent' := ⟨_, put_objs_self _ _ _, kids_shifted hlt⟩
    gone := by
      rw [put_objs_of_ne, hfreed.gone]
      rintro heq
      obtain ⟨t, o, p, hinode⟩ := hinode
      rw [heq, hdir] at hinode
      cases hinode
    others := by
      intro x h₁ h₂ h₃
      rw [put_objs_of_ne _ h₁, hfreed.others x h₂ h₃]
    less := by
      intro x y h₁ hx
      rw [put_objs_of_ne _ h₁] at hx
      exact hfreed.less x y hx }

theorem tmpfsUnlink_place {dir : Nat} (hd : dirAt h.fs dir = some (a, d))
    (hk : findChild d name = some k) :
    (tmpfsUnlink h dir name).2.fs.objs a = some (.dir
      { children := shiftDown (d.childCount - 1 - k) k d.children,
        childCount := d.childCount - 1 }) := by
  unfold tmpfsUnlink
  simp only [hd, hk]
  exact put_objs_self _ _ _

end Lumin.Fs.Tmpfs
