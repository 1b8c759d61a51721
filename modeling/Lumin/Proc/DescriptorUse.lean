import Lumin.Proc.Descriptors

/-!
# What a descriptor designates

A descriptor that `SYS_OPEN` returned keeps its file until it is closed or
replaced, and `SYS_READ` on it is `vfs_read` on that file, except for descriptor
0.  `SYS_WRITE` on it is never `vfs_write`: it reports every byte as written and
leaves the file alone.
-/

namespace Lumin.Proc

open Lumin.Fs Lumin.Lib

variable {σ ι : Type} {ops : InodeOps σ ι}

/-! ## The file behind a descriptor -/

/-- The calls that neither close nor replace the descriptor `fd`. -/
def KeepsFd (fd : Int) : FdOp → Prop
  | .close fd' => fd' ≠ fd
  | .dup2 _ newfd => newfd ≠ fd
  | _ => True

/-- As long as `fd` is kept, `SYS_READ` on it is `vfs_read` on the file `f`. -/
def ReadsFile (ops : InodeOps σ ι) (w : FdWorld σ ι) (fd : Int) (f : Nat) : Prop :=
  ∀ w', Reach (fdStep ops) (fun _ o => KeepsFd fd o) w w' → ∀ buf count keys,
    sysRead ops w' fd buf count keys =
      let (r, bytes, vfs) := vfsRead ops w'.vfs f count buf
      some (r, bytes, { w' with vfs := vfs })

/-- As long as `fd` is kept, `SYS_WRITE` on it is `vfs_write` on the file `f`. -/
def WritesFile (ops : InodeOps σ ι) (w : FdWorld σ ι) (fd : Int) (f : Nat) : Prop :=
  ∀ w', Reach (fdStep ops) (fun _ o => KeepsFd fd o) w w' → ∀ buf data,
    sysWrite w' fd data =
      let (r, vfs) := vfsWrite ops w'.vfs f buf data
      (r, { w' with vfs := vfs })

/-- The descriptor `fd` designates the file `f`. -/
def Designates (ops : InodeOps σ ι) (w : FdWorld σ ι) (fd : Int) (f : Nat) : Prop :=
  ReadsFile ops w fd f ∧ WritesFile ops w fd f

/-! ## A transfer of one byte moves the offset -/

theorem advance_one_ne (f : VfsFile ι) : advance f 1 ≠ f := by
  intro h
  have hoff := congrArg VfsFile.offset h
  simp only [advance, gt_iff_lt, Int.zero_lt_one, if_true, u64, Int.toNat_one] at hoff
  omega

theorem setFile_files (s : VfsState σ ι) (idx : Nat) (f : VfsFile ι) :
    (s.setFile idx f).files idx = f := if_pos rfl

/-- `vfs_write` does not report one byte without a trace. -/
theorem vfsWrite_one_ne (s : VfsState σ ι) (f buf : Nat) (data : List UInt8) :
    vfsWrite ops s f buf data ≠ (1, s) := by
  intro h
  unfold vfsWrite at h
  split at h
  · cases h
  split at h
  · cases h
  split at h
  · cases h
  obtain ⟨hr, hs⟩ := Prod.mk.inj h
  rw [hr] at hs
  have hfile := congrFun (congrArg VfsState.files hs) f
  rw [setFile_files] at hfile
  exact advance_one_ne _ hfile

/-- `vfs_read` does not report one byte without a trace. -/
theorem vfsRead_one_ne (s : VfsState σ ι) (f size buf : Nat) (bytes : List UInt8) :
    vfsRead ops s f size buf ≠ (1, bytes, s) := by
  intro h
  unfold vfsRead at h
  split at h
  · cases h
  split at h
  · cases h
  split at h
  · cases h
  obtain ⟨hr, hrest⟩ := Prod.mk.inj h
  obtain ⟨-, hs⟩ := Prod.mk.inj hrest
  rw [hr] at hs
  have hfile := congrFun (congrArg VfsState.files hs) f
  rw [setFile_files] at hfile
  exact advance_one_ne _ hfile

/-! ## Descriptors stay -/

theorem setFd_of_ne (w : FdWorld σ ι) {fd i : Nat} (f : Option Nat) (h : i ≠ fd) :
    (w.setFd fd f).fds i = w.fds i := if_neg h

theorem freeFd_some {w : FdWorld σ ι} {fd : Nat} (h : freeFd w = some fd) :
    w.fds fd = none ∧ fd < MAX_FDS := by
  refine ⟨?_, ?_⟩
  · simpa using List.find?_some h
  · simpa using List.mem_of_find?_eq_some h

/-- A call that keeps `fd` leaves its file and the task as they are. -/
theorem fdStep_keeps {w w' : FdWorld σ ι} {o : FdOp} {fd : Int} {f : Nat} (hpos : 0 ≤ fd)
    (hfd : w.fds fd.toNat = some f) (hkeep : KeepsFd fd o) (hstep : fdStep ops w o = some w') :
    w'.fds fd.toNat = some f ∧ w'.pid = w.pid := by
  -- A free descriptor is another one.
  have hfree : ∀ i, w.fds i = none → fd.toNat ≠ i := by
    rintro i hi rfl
    rw [hfd] at hi
    cases hi
  cases o with
  | openPath path userFlags =>
    cases hstep
    unfold sysOpen
    split
    · exact ⟨hfd, rfl⟩
    split
    · exact ⟨hfd, rfl⟩
    split
    · exact ⟨hfd, rfl⟩
    · rename_i i hi
      exact ⟨(setFd_of_ne _ _ (hfree i (freeFd_some hi).1)).trans hfd, rfl⟩
  | close fd' =>
    cases hstep
    have hne : fd' ≠ fd := hkeep
    unfold sysClose
    split
    · exact ⟨hfd, rfl⟩
    · rename_i g hg
      have hpos' : 0 ≤ fd' := by
        unfold fileOf at hg
        split at hg
        · cases hg
        · omega
      exact ⟨(setFd_of_ne _ _ (by omega)).trans hfd, rfl⟩
  | read fd' buf count keys =>
    obtain ⟨r, hr, rfl⟩ := Option.map_eq_some_iff.mp hstep
    unfold sysRead at hr
    split at hr
    · obtain ⟨bytes, -, rfl⟩ := Option.map_eq_some_iff.mp hr
      exact ⟨hfd, rfl⟩
    split at hr
    · cases hr
      exact ⟨hfd, rfl⟩
    · cases hr
      exact ⟨hfd, rfl⟩
  | write fd' data =>
    cases hstep
    unfold sysWrite
    split <;> exact ⟨hfd, rfl⟩
  | dup oldfd =>
    cases hstep
    unfold sysDup
    split
    · exact ⟨hfd, rfl⟩
    split
    · exact ⟨hfd, rfl⟩
    · rename_i i hi
      exact ⟨(setFd_of_ne _ _ (hfree i (freeFd_some hi).1)).trans hfd, rfl⟩
  | dup2 oldfd newfd =>
    cases hstep
    have hne : newfd ≠ fd := hkeep
    unfold sysDup2
    split
    · exact ⟨hfd, rfl⟩
    rename_i hrange
    have hnat : fd.toNat ≠ newfd.toNat := by omega
    split
    · exact ⟨hfd, rfl⟩
    cases hold : w.fds newfd.toNat with
    | none =>
      dsimp only
      split <;> exact ⟨(setFd_of_ne _ _ hnat).trans hfd, rfl⟩
    | some g =>
      dsimp only
      split
      · exact ⟨(setFd_of_ne _ _ hnat).trans ((setFd_of_ne _ _ hnat).trans hfd), rfl⟩
      · exact ⟨(setFd_of_ne _ _ hnat).trans ((setFd_of_ne _ _ hnat).trans hfd), rfl⟩
  | lseek fd' offset whence =>
    cases hstep
    unfold sysLseek
    split <;> exact ⟨hfd, rfl⟩

/-- What a successful `SYS_OPEN` leaves behind. -/
theorem sysOpen_ok {w w' : FdWorld σ ι} {path : CStr} {userFlags : Nat} {fd : Int}
    (h : sysOpen ops w path userFlags = (fd, w')) (hfd : 0 ≤ fd) :
    ∃ f, (vfsOpen ops w.vfs (rawPath path) (openFlags userFlags)).1 = some f ∧
      w'.fds fd.toNat = some f ∧ w'.pid.isNone = false ∧ fd < MAX_FDS := by
  unfold sysOpen at h
  split at h
  · cases h
    cases hfd
  rename_i htask
  split at h
  · cases h
    cases hfd
  rename_i f vfs hopen
  split at h
  · cases h
    cases hfd
  rename_i i hi
  cases h
  have hlt := (freeFd_some hi).2
  refine ⟨f, by rw [hopen], if_pos rfl, ?_, by exact_mod_cast hlt⟩
  have hsome : w.pid.isNone ≠ true := fun hnone => htask (Or.inl hnone)
  exact Bool.eq_false_iff.mpr hsome

/-- `SYS_WRITE` leaves the VFS alone and reports every byte. -/
theorem sysWrite_vfs (w : FdWorld σ ι) (fd : Int) (data : List UInt8) :
    (sysWrite w fd data).2.vfs = w.vfs ∧ (sysWrite w fd data).1 = data.length := by
  unfold sysWrite
  split <;> exact ⟨rfl, rfl⟩

/-- No descriptor that `SYS_OPEN` returns designates its file: a write through it
never is a write of the file.  Reads are reads of the file exactly when the
descriptor is not 0. -/
theorem open_not_designates (ops : InodeOps σ ι) (w w' : FdWorld σ ι) (path : CStr)
    (userFlags : Nat) (fd : Int) (h : sysOpen ops w path userFlags = (fd, w')) (hfd : 0 ≤ fd) :
    ∃ f, (vfsOpen ops w.vfs (rawPath path) (openFlags userFlags)).1 = some f ∧
      ¬ Designates ops w' fd f ∧ (ReadsFile ops w' fd f ↔ fd ≠ 0) := by
  obtain ⟨f, hopen, hslot, htask, hmax⟩ := sysOpen_ok h hfd
  refine ⟨f, hopen, ?_, ?_, ?_⟩
  · rintro ⟨-, hwrites⟩
    obtain ⟨hr, hw⟩ := Prod.mk.inj (hwrites w' .start 1 [0] : sysWrite w' fd [0] = (_, _))
    obtain ⟨hsame, hcount⟩ := sysWrite_vfs w' fd [0]
    refine vfsWrite_one_ne w'.vfs f 1 [0] (Prod.ext (hr.symm.trans hcount) ?_)
    exact (congrArg FdWorld.vfs hw).symm.trans hsame
  · rintro hreads rfl
    have hone := hreads w' .start 1 1 [65]
    obtain ⟨hr, hrest⟩ := Prod.mk.inj (Option.some.inj hone)
    refine vfsRead_one_ne w'.vfs f 1 1 _ (Prod.ext hr.symm (Prod.ext rfl ?_))
    exact (congrArg (fun r => r.2.vfs) hrest).symm
  · intro hne w₁ hrun buf count keys
    have hkeep : w₁.fds fd.toNat = some f ∧ w₁.pid = w'.pid := by
      refine hrun.invariant (fun w₁ => w₁.fds fd.toNat = some f ∧ w₁.pid = w'.pid) ⟨hslot, rfl⟩ ?_
      intro s o s' hs hkeep hstep
      obtain ⟨hfile, hpid⟩ := fdStep_keeps hfd hs.1 hkeep hstep
      exact ⟨hfile, hpid.trans hs.2⟩
    have hfile : fileOf w₁ fd = some f := by
      rw [fileOf, if_neg, hkeep.1]
      have hlt : ¬ fd ≥ (MAX_FDS : Int) := not_le.mpr hmax
      rw [hkeep.2, htask]
      simp only [Bool.false_eq_true, hlt, or_false, false_or, not_lt]
      exact hfd
    rw [sysRead, if_neg hne, hfile]

/-- A filesystem with one file that keeps the bytes written to it.  The root is
`false` and the file is `true`. -/
def oneFile : InodeOps (List UInt8) Bool where
  isDir _ inode := !inode
  size s _ := s.length
  lookup _ _ _ := some true
  create _ := none
  read inode :=
    if inode then some fun s off n => ((min n (s.length - off) : Nat), (s.drop off).take n, s)
    else none
  write inode := if inode then some fun s _ data => (data.length, s ++ data) else none

/-- A task with its three standard descriptors in use. -/
def shellWorld : FdWorld (List UInt8) Bool where
  vfs :=
    { fs := []
      mounts := [{ path := [SLASH], root := false }]
      files := fun i => { inode := if i < 3 then some true else none, offset := 0, flags := 0 }
      fileCount := 3 }
  fds i := if i < 3 then some i else none
  pid := some 1
  console := []

/-- The world after the task opened `/f` for reading and writing. -/
def openedWorld : FdWorld (List UInt8) Bool := (sysOpen oneFile shellWorld [SLASH, 102] 2).2

theorem shellWorld_open : sysOpen oneFile shellWorld [SLASH, 102] 2 = (3, openedWorld) :=
  Prod.ext (by decide) rfl

theorem open_not_designates_shell :
    0 ≤ (3 : Int) ∧ ∃ f, ¬ Designates oneFile openedWorld 3 f ∧
      (ReadsFile oneFile openedWorld 3 f ↔ (3 : Int) ≠ 0) := by
  obtain ⟨f, -, hnot, hreads⟩ :=
    open_not_designates oneFile shellWorld openedWorld [SLASH, 102] 2 3
    shellWorld_open (by decide)
  exact ⟨by decide, f, hnot, hreads⟩

/-- `SYS_OPEN` returns 3, and a write to 3 reports one byte that the file never
gets. -/
theorem write_lost : sysOpen oneFile shellWorld [SLASH, 102] 2 = (3, openedWorld) ∧
    openedWorld.fds 3 = some 3 ∧ ¬ Designates oneFile openedWorld 3 3 := by
  refine ⟨shellWorld_open, by decide, fun hdes => ?_⟩
  have hone := hdes.2 openedWorld .start 1 [7]
  have hfs : (sysWrite openedWorld 3 [7]).2.vfs.fs =
      (vfsWrite oneFile openedWorld.vfs 3 1 [7]).2.fs :=
    congrArg (fun r => r.2.vfs.fs) hone
  revert hfs
  decide

end Lumin.Proc
