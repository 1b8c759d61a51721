import Lumin.Fs.Vfs
import Lumin.Lib.Transition

/-!
# The proc filesystem

A model of `kernel/fs/procfs.c`.  Every lookup makes an inode of its own, but the
operations of all file inodes are in one static variable of `procfs_dir_lookup`, and
each lookup of a file stores the read function of its entry there.  The result is
`identity_iff`: the open files keep their identity along a run exactly if no lookup
of another file comes between.

The texts that the read functions build are left out: the model says which function
`vfs_read` calls.
-/

namespace Lumin.Fs

open Lumin.Lib

/-- The read functions of the entries. -/
inductive ProcRead where
  | stat | uptime | maps
  deriving DecidableEq, Repr

/-- `struct procfs_entry`.  A file has a read function and a directory has none. -/
structure ProcEntry where
  name : CStr
  ino : Nat
  isDir : Bool
  read : Option ProcRead
  deriving DecidableEq, Repr

/-- `procfs_data` as `vfs_mount_procfs` fills it: `.`, `..`, `stat`, `uptime`, `self` and
`maps`. -/
def procfsEntries : List ProcEntry :=
  [{ name := [46], ino := 0, isDir := true, read := none },
    { name := [46, 46], ino := 0, isDir := true, read := none },
    { name := [115, 116, 97, 116], ino := 1, isDir := false, read := some .stat },
    { name := [117, 112, 116, 105, 109, 101], ino := 2, isDir := false, read := some .uptime },
    { name := [115, 101, 108, 102], ino := 3, isDir := true, read := none },
    { name := [109, 97, 112, 115], ino := 4, isDir := false, read := some .maps }]

/-- The two static variables that `inode->ops` can point to. -/
inductive ProcOps where
  | dirOps | fileOps
  deriving DecidableEq, Repr

/-- What a lookup stores in a new inode. -/
structure ProcInode where
  ino : Nat
  isDir : Bool
  size : Nat
  ops : ProcOps
  deriving DecidableEq, Repr

/-- `file_ops.read`, and the inodes in use, each with the entry that it was obtained
for.  The other functions of the two variables never change. -/
structure Procfs where
  fileRead : Option ProcRead
  inodes : List (ProcInode × ProcEntry)

/-- The state after `vfs_mount_procfs`. -/
def procfsMounted : Procfs := { fileRead := none, inodes := [] }

/-- The entry that `procfs_dir_lookup` takes for a name. -/
def procfsFind (name : CStr) : Option ProcEntry := procfsEntries.find? fun e => e.name = name

/-- `procfs_dir_lookup`; `alloc` says whether `kmalloc` gives an inode.  Every directory
has the same entries. -/
def procfsDirLookup (s : Procfs) (name : CStr) (alloc : Bool) : Option ProcInode × Procfs :=
  match procfsFind name with
  | none => (none, s)
  | some e =>
    if !alloc then (none, s)
    else if e.isDir then
      let inode := { ino := e.ino, isDir := e.isDir, size := 4096, ops := .dirOps }
      (some inode, { s with inodes := s.inodes ++ [(inode, e)] })
    else
      let inode := { ino := e.ino, isDir := e.isDir, size := 4096, ops := .fileOps }
      (some inode, { s with fileRead := e.read, inodes := s.inodes ++ [(inode, e)] })

/-- The function that `vfs_read` calls for an inode; `none` is a read that fails. -/
def procRead (s : Procfs) (inode : ProcInode) : Option ProcRead :=
  match inode.ops with
  | .dirOps => none
  | .fileOps => s.fileRead

/-! ## Runs -/

/-- A lookup, a read of inode `i` of those in use, or the last close of it. -/
inductive ProcOp where
  | lookup (name : CStr) (alloc : Bool)
  | read (i : Nat)
  | destroy (i : Nat)

/-- One call. -/
def procStep (s : Procfs) : ProcOp → Option Procfs
  | .lookup name alloc => some (procfsDirLookup s name alloc).2
  | .read _ => some s
  | .destroy i => some { s with inodes := s.inodes.eraseIdx i }

/-- A read of any inode in use calls the function of its entry. -/
def KeepsIdentity (s : Procfs) : Prop := ∀ x ∈ s.inodes, procRead s x.1 = x.2.read

/-- A lookup that succeeds finds no file, or one with the read function of every file
in use. -/
def SameRead (s : Procfs) : ProcOp → Prop
  | .lookup name alloc =>
    ∀ e, procfsFind name = some e → alloc = true → e.isDir = false →
      ∀ x ∈ s.inodes, x.2.isDir = false → x.2.read = e.read
  | _ => True

/-- The inodes in use are those of entries, and what a read of a file calls. -/
structure ProcInv (s : Procfs) : Prop where
  entries : ∀ x ∈ s.inodes, x.2 ∈ procfsEntries ∧
    x.1.ops = if x.2.isDir then .dirOps else .fileOps
  files : ∀ x ∈ s.inodes, x.2.isDir = false → s.fileRead = x.2.read

variable {s s' : Procfs} {o : ProcOp} {e : ProcEntry} {name : CStr}

/-- The directories are the entries without a read function. -/
theorem read_eq_none_of_isDir (he : e ∈ procfsEntries) (hdir : e.isDir = true) :
    e.read = none := by
  have hall : ∀ e ∈ procfsEntries, e.isDir = true → e.read = none := by decide
  exact hall e he hdir

/-- What a read calls, from the entry. -/
theorem procRead_eq {x : ProcInode × ProcEntry}
    (hops : x.1.ops = if x.2.isDir then .dirOps else .fileOps) :
    procRead s x.1 = if x.2.isDir then none else s.fileRead := by
  unfold procRead
  rw [hops]
  cases x.2.isDir <;> rfl

theorem ProcInv.keepsIdentity (h : ProcInv s) : KeepsIdentity s := by
  intro x hx
  obtain ⟨hentry, hops⟩ := h.entries x hx
  rw [procRead_eq hops]
  cases hdir : x.2.isDir with
  | true => exact (read_eq_none_of_isDir hentry hdir).symm
  | false => exact h.files x hx hdir

theorem procInv_mounted : ProcInv procfsMounted where
  entries := fun _ hx => absurd hx List.not_mem_nil
  files := fun _ hx => absurd hx List.not_mem_nil

/-- What a lookup does, in its three cases. -/
theorem procfsDirLookup_cases (s : Procfs) (name : CStr) (alloc : Bool) :
    (procfsDirLookup s name alloc).2 = s ∨
      ∃ e inode, procfsFind name = some e ∧ alloc = true ∧
        inode.ops = (if e.isDir then .dirOps else .fileOps) ∧
        (procfsDirLookup s name alloc).2 =
          { fileRead := if e.isDir then s.fileRead else e.read,
            inodes := s.inodes ++ [(inode, e)] } := by
  unfold procfsDirLookup
  cases hfind : procfsFind name with
  | none => exact .inl rfl
  | some e =>
    cases alloc with
    | false => exact .inl rfl
    | true =>
      cases hdir : e.isDir with
      | true =>
        refine .inr ⟨e, { ino := e.ino, isDir := true, size := 4096, ops := .dirOps }, rfl, rfl,
          ?_, ?_⟩
        · rw [hdir]
          rfl
        · simp [hdir]
      | false =>
        refine .inr ⟨e, { ino := e.ino, isDir := false, size := 4096, ops := .fileOps }, rfl, rfl,
          ?_, ?_⟩
        · rw [hdir]
          rfl
        · simp [hdir]

theorem ProcInv.step (h : ProcInv s) (hguard : SameRead s o) (hstep : procStep s o = some s') :
    ProcInv s' := by
  cases o with
  | read i =>
    cases hstep
    exact h
  | destroy i =>
    cases hstep
    exact ⟨fun x hx => h.entries x (List.mem_of_mem_eraseIdx hx),
      fun x hx => h.files x (List.mem_of_mem_eraseIdx hx)⟩
  | lookup name alloc =>
    cases hstep
    rcases procfsDirLookup_cases s name alloc with heq | ⟨e, inode, hfind, halloc, hops, heq⟩
    · rw [heq]
      exact h
    · have hentry : e ∈ procfsEntries := List.mem_of_find?_eq_some hfind
      rw [heq]
      constructor
      · intro x hx
        rcases List.mem_append.mp hx with hx | hx
        · exact h.entries x hx
        · obtain rfl := List.mem_singleton.mp hx
          exact ⟨hentry, hops⟩
      · intro x hx hfile
        dsimp only
        rcases List.mem_append.mp hx with hx | hx
        · cases hdir : e.isDir with
          | true => exact h.files x hx hfile
          | false => exact (hguard e hfind halloc hdir x hx hfile).symm
        · obtain rfl := List.mem_singleton.mp hx
          have hne : ¬ e.isDir = true := by
            rw [show e.isDir = false from hfile]
            decide
          exact if_neg hne

/-- A lookup of another file takes the identity of those in use away. -/
theorem ProcInv.break (h : ProcInv s) (hguard : ¬ SameRead s o) (hstep : procStep s o = some s') :
    ¬ KeepsIdentity s' := by
  cases o with
  | read i => exact absurd trivial hguard
  | destroy i => exact absurd trivial hguard
  | lookup name alloc =>
    cases hstep
    simp only [SameRead, not_forall] at hguard
    obtain ⟨e, hfind, halloc, hdir, x, hx, hfile, hne⟩ := hguard
    have hlook : (procfsDirLookup s name alloc).2 =
        { fileRead := e.read, inodes := s.inodes ++
          [({ ino := e.ino, isDir := e.isDir, size := 4096, ops := .fileOps }, e)] } := by
      unfold procfsDirLookup
      simp [hfind, halloc, hdir]
    rw [hlook]
    intro hkeeps
    have hread := hkeeps x (List.mem_append_left _ hx)
    rw [procRead_eq (h.entries x hx).2, if_neg (by simp [hfile])] at hread
    exact hne hread.symm

/-- **An open proc file keeps its identity.**  In every state that a run from the mount
visits each read calls the function of its own entry exactly if no lookup of the run
finds a file with another read function than a file in use. -/
theorem identity_iff (os : List ProcOp) :
    (∀ t ∈ visited procStep procfsMounted os, KeepsIdentity t) ↔
      Guarded procStep SameRead procfsMounted os :=
  visited_iff_guarded (fun _ h => h.keepsIdentity)
    (fun _ _ _ h hguard hstep => h.step hguard hstep)
    (fun _ _ _ h hguard hstep => h.break hguard hstep) procInv_mounted os

/-- After `stat` and `uptime` have been looked up, a read of the first inode calls the
function of the second. -/
theorem statThenUptime_not_keepsIdentity :
    ∃ s inode e, run procStep procfsMounted
        [.lookup [115, 116, 97, 116] true, .lookup [117, 112, 116, 105, 109, 101] true] = some s ∧
      s.inodes[0]? = some (inode, e) ∧ e.read = some .stat ∧ procRead s inode = some .uptime ∧
        ¬ KeepsIdentity s := by
  refine ⟨_, _, _, rfl, rfl, rfl, rfl, ?_⟩
  intro hkeeps
  have hfirst := hkeeps _ (List.mem_cons_self)
  exact absurd hfirst (by decide)

end Lumin.Fs
