import Lumin.Fs.Pipe
import Lumin.Proc.DescriptorTables

/-!
# The ends of a pipe

`vfs_pipe_create` sets `readers` and `writers` to 1, and nothing changes them after
that: the files of a pipe are duplicated and closed by `vfs_dup` and `vfs_close`, which
know nothing of pipes.  Moreover both ends are one file: `vfs_alloc_file` leaves the
slot that it returns free, so that its second call returns the same slot, and the flags
that remain are those of the write end.  There is no read end from the start.
-/

namespace Lumin.Proc

open Lumin.Fs Lumin.Lib

variable {σ ι : Type} [DecidableEq ι]

/-- The file table and one pipe with its inode. -/
structure PipeEnds (σ ι : Type) where
  vfs : VfsState σ ι
  inode : ι
  pipe : PipeInode

/-- The pipe of `vfs_pipe_create`. -/
def newPipe : PipeInode :=
  { buf := fun _ => 0, readPos := 0, writePos := 0, readers := 1, writers := 1 }

/-- The state after `vfs_pipe_create` has returned 0. -/
def pipeCreated (w : FdWorld σ ι) (inode : ι) : PipeEnds σ ι :=
  { vfs := (sysPipe w true (some inode)).2.vfs, inode := inode, pipe := newPipe }

/-- `vfs_dup` or `vfs_close` of a file. -/
inductive EndOp where
  | dup (file : Nat)
  | close (file : Nat)

def endStep (s : PipeEnds σ ι) : EndOp → Option (PipeEnds σ ι)
  | .dup file => some { s with vfs := (vfsDup s.vfs file).2 }
  | .close file => some { s with vfs := vfsClose s.vfs file }

/-- The slots of `file_table` that refer to the pipe with one of the flags. -/
def endsWith (s : PipeEnds σ ι) (flag : Nat) : List Nat :=
  (List.range VFS_FILE_MAX).filter fun i =>
    (s.vfs.files i).inode = some s.inode ∧ (s.vfs.files i).flags &&& flag ≠ 0

/-- A call alone on the pipe. -/
def aloneOn (p : PipeInode) (call : PipeCall) : PipeSys :=
  { pipe := p, calls := [call], puts := [], takes := [] }

/-- The counts are those of the open ends, and so what an empty and a full pipe report. -/
structure EndCounts (s : PipeEnds σ ι) : Prop where
  writers : s.pipe.writers = (endsWith s VFS_O_WRITE).length
  readers : s.pipe.readers = (endsWith s VFS_O_READ).length
  eof : pipeTake s.pipe = none →
    ((readTurn (aloneOn s.pipe (.read 1 [])) 0 1 []).calls = [.returned 0 []] ↔
      endsWith s VFS_O_WRITE = [])
  broken : ∀ c, pipePut s.pipe c = none →
    ((writeTurn (aloneOn s.pipe (.write [c] 0)) 0 [c] 0).calls = [.returned (-1) []] ↔
      endsWith s VFS_O_READ = [])

/-- The pipe has one reader on record, and no slot reads from it. -/
structure WriteOnly (s : PipeEnds σ ι) : Prop where
  readers : s.pipe.readers = 1
  flags : ∀ i, (s.vfs.files i).inode = some s.inode → (s.vfs.files i).flags = VFS_O_WRITE

variable {s s' : PipeEnds σ ι} {o : EndOp}

theorem WriteOnly.not_endCounts (h : WriteOnly s) : ¬ EndCounts s := by
  intro hcounts
  have hnone : endsWith s VFS_O_READ = [] := by
    refine List.filter_eq_nil_iff.mpr fun i _ => ?_
    simp only [decide_eq_true_eq, not_and, not_not]
    intro hinode
    rw [h.flags i hinode]
    decide
  have hreaders := hcounts.readers
  rw [hnone, h.readers] at hreaders
  exact absurd hreaders (by decide)

omit [DecidableEq ι] in
theorem WriteOnly.step (h : WriteOnly s) (hstep : endStep s o = some s') : WriteOnly s' := by
  cases o with
  | dup file =>
    cases hstep
    refine ⟨h.readers, fun i hinode => ?_⟩
    dsimp only at hinode ⊢
    unfold vfsDup at hinode ⊢
    split at hinode
    next hnone =>
      rw [if_pos hnone]
      exact h.flags i hinode
    next hsome =>
      rw [if_neg hsome]
      cases hslot : freeSlot s.vfs with
      | none =>
        rw [hslot] at hinode
        exact h.flags i hinode
      | some idx =>
        rw [hslot] at hinode
        simp only [installFile, VfsState.setFile] at hinode ⊢
        split
        next heq =>
          rw [if_pos heq] at hinode
          exact h.flags file hinode
        next hne =>
          rw [if_neg hne] at hinode
          exact h.flags i hinode
  | close file =>
    cases hstep
    refine ⟨h.readers, fun i hinode => ?_⟩
    dsimp only at hinode ⊢
    unfold vfsClose at hinode ⊢
    split at hinode
    next hnone =>
      rw [if_pos hnone]
      exact h.flags i hinode
    next hsome =>
      rw [if_neg hsome]
      simp only [VfsState.setFile] at hinode ⊢
      split
      next heq =>
        rw [if_pos heq] at hinode
        cases hinode
      next hne =>
        rw [if_neg hne] at hinode
        exact h.flags i hinode

omit [DecidableEq ι] in
/-- `vfs_alloc_file` changes the slot that it returns. -/
theorem vfsAllocFile_files {vfs vfs' : VfsState σ ι} {idx i : Nat}
    (h : vfsAllocFile vfs = (some idx, vfs'))
    (hne : i ≠ idx) : vfs'.files i = vfs.files i := by
  unfold vfsAllocFile at h
  split at h
  · cases h
  next hslot =>
    simp only [Prod.mk.injEq, Option.some.injEq] at h
    obtain ⟨rfl, rfl⟩ := h
    exact if_neg hne

omit [DecidableEq ι] in
/-- Both files of a new pipe are the slot `idx`, and it is a write end. -/
theorem sysPipe_files {w : FdWorld σ ι} {inode : ι}
    (hcreate : (sysPipe w true (some inode)).1 = 0) :
    ∃ idx, ∀ i, (sysPipe w true (some inode)).2.vfs.files i =
      if i = idx then { inode := some inode, offset := 0, flags := VFS_O_WRITE }
        else w.vfs.files i := by
  cases hslot : freeSlot w.vfs with
  | none =>
    have halloc : vfsAllocFile w.vfs = (none, w.vfs) := by
      unfold vfsAllocFile
      rw [hslot]
    unfold sysPipe at hcreate
    dsimp only at hcreate
    rw [halloc] at hcreate
    dsimp only at hcreate
    exact absurd hcreate (by decide)
  | some idx =>
    obtain ⟨vfs₁, halloc, hagain, -, -⟩ := vfsAllocFile_twice hslot
    rcases halloc₂ : vfsAllocFile vfs₁ with ⟨f1, vfs₂⟩
    rw [halloc₂] at hagain
    dsimp only at hagain
    subst hagain
    have hpipe :
        sysPipe w true (some inode) = installPipe { w with vfs := vfs₂ } inode idx idx := by
      unfold sysPipe
      dsimp only
      rw [halloc]
      dsimp only
      rw [halloc₂]
    refine ⟨idx, fun i => ?_⟩
    rw [hpipe] at hcreate ⊢
    unfold installPipe at hcreate ⊢
    dsimp only at hcreate ⊢
    split
    · show (if i = idx then _ else if i = idx then _ else vfs₂.files i) = _
      split
      · rfl
      next hne => rw [vfsAllocFile_files halloc₂ hne, vfsAllocFile_files halloc hne]
    next hfd =>
      rw [hfd] at hcreate
      exact absurd (show (-1 : Int) = 0 from hcreate) (by decide)
    next hfd =>
      rw [hfd] at hcreate
      exact absurd (show (-1 : Int) = 0 from hcreate) (by decide)

/-- **The counts of a pipe are never those of its ends.**  After `vfs_pipe_create` has
returned 0, no sequence of `vfs_dup` and `vfs_close` makes them so. -/
theorem not_endCounts_of_reach (w : FdWorld σ ι) (inode : ι)
    (hfresh : ∀ i, (w.vfs.files i).inode ≠ some inode)
    (hcreate : (sysPipe w true (some inode)).1 = 0)
    (hrun : Reach endStep (fun _ _ => True) (pipeCreated w inode) s) : ¬ EndCounts s := by
  have hstart : WriteOnly (pipeCreated w inode) := by
    obtain ⟨idx, hfiles⟩ := sysPipe_files hcreate
    refine ⟨rfl, fun i hinode => ?_⟩
    change ((sysPipe w true (some inode)).2.vfs.files i).inode = some inode at hinode
    show ((sysPipe w true (some inode)).2.vfs.files i).flags = VFS_O_WRITE
    rw [hfiles i] at hinode ⊢
    split
    · rfl
    next hne =>
      rw [if_neg hne] at hinode
      exact absurd hinode (hfresh i)
  have hinv : WriteOnly s :=
    Reach.invariant WriteOnly hstart (fun _ _ _ h _ hstep => h.step hstep) hrun
  exact hinv.not_endCounts

/-- A task without open files, and no open files at all. -/
def idleWorld : FdWorld Unit Nat where
  vfs := { fs := (), mounts := [], files := fun _ => { inode := none, offset := 0, flags := 0 },
           fileCount := 0 }
  fds := fun _ => none
  pid := some 1
  console := []

/-- A pipe whose file is duplicated once. -/
theorem not_endCounts_of_reach_dup :
    (sysPipe idleWorld true (some 7)).1 = 0 ∧
      ∃ s, run endStep (pipeCreated idleWorld 7) [.dup 0] = some s ∧
          (endsWith s VFS_O_WRITE).length = 2 ∧
        ¬ EndCounts s := by
  refine ⟨by decide, _, rfl, by decide +kernel, ?_⟩
  have hrun : run endStep (pipeCreated idleWorld 7) [.dup 0] = some _ := rfl
  exact not_endCounts_of_reach idleWorld 7 (fun i hi => by cases hi) (by decide)
    (reach_of_run hrun)

/-- A pipe that has just been made has one reader on record and no read end. -/
theorem newPipe_not_endCounts :
    (sysPipe idleWorld true (some 7)).1 = 0 ∧ (pipeCreated idleWorld 7).pipe.readers = 1 ∧
      endsWith (pipeCreated idleWorld 7) VFS_O_READ = [] ∧
        ¬ EndCounts (pipeCreated idleWorld 7) := by
  have hnone : endsWith (pipeCreated idleWorld 7) VFS_O_READ = [] := by decide +kernel
  refine ⟨by decide, rfl, hnone, fun hcounts => ?_⟩
  have hreaders := hcounts.readers
  rw [hnone] at hreaders
  exact absurd hreaders (by decide)

end Lumin.Proc
