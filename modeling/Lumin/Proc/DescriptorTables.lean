import Lumin.Proc.DescriptorUse

/-!
# Descriptor tables over several tasks

All tasks share one `file_table`.  `vfs_close` frees the slot at once, so the table
is sound only if each slot is referred to by one descriptor.  This module follows
`SYS_OPEN`, `SYS_CLOSE`, `SYS_DUP`, `SYS_DUP2`, `SYS_PIPE` and `SYS_FORK` over any
number of tasks.

`Refs` is the general part: keys that refer to the used cells of a pool, no two of
them to the same cell.  The descriptor calls bind a key to a fresh cell or release a
key with its cell.  `SYS_PIPE` does neither.  Its two calls of `vfs_alloc_file` return
the same slot, because the first one leaves the inode of the slot `NULL`.
-/

namespace Lumin.Proc

open Lumin.Fs Lumin.Lib

/-! ## References into a pool -/

section Refs

variable {κ : Type} {used used' : Nat → Prop} {refs refs' : κ → Option Nat} {a : κ} {f : Nat}

/-- Every reference is to a used cell, and no cell is referred to twice. -/
structure Refs (used : Nat → Prop) (refs : κ → Option Nat) : Prop where
  used : ∀ a f, refs a = some f → used f
  distinct : ∀ a b f, refs a = some f → refs b = some f → a = b

theorem Refs.congr (h : Refs used refs) (hused : ∀ f, used f → used' f) (hrefs : refs' = refs) :
    Refs used' refs' := by
  subst hrefs
  exact ⟨fun a f ha => hused f (h.used a f ha), h.distinct⟩

/-- A key may refer to a cell that was not used before. -/
theorem Refs.bind (h : Refs used refs) (hfresh : ¬ used f) (hused : ∀ g, used g → used' g)
    (hf : used' f) (ha : refs' a = some f) (hother : ∀ b, b ≠ a → refs' b = refs b) :
    Refs used' refs' := by
  have hold : ∀ b g, b ≠ a → refs' b = some g → refs b = some g ∧ g ≠ f := by
    intro b g hb hg
    rw [hother b hb] at hg
    exact ⟨hg, fun heq => hfresh (heq ▸ h.used b g hg)⟩
  constructor
  · intro b g hg
    by_cases hb : b = a
    · rw [hb, ha, Option.some.injEq] at hg
      exact hg ▸ hf
    · exact hused g (h.used b g (hold b g hb hg).1)
  · intro b c g hbg hcg
    by_cases hb : b = a
    · by_cases hc : c = a
      · rw [hb, hc]
      · rw [hb, ha, Option.some.injEq] at hbg
        exact absurd hbg.symm (hold c g hc hcg).2
    · by_cases hc : c = a
      · rw [hc, ha, Option.some.injEq] at hcg
        exact absurd hcg.symm (hold b g hb hbg).2
      · exact h.distinct b c g (hold b g hb hbg).1 (hold c g hc hcg).1

/-- A key and its cell are released together. -/
theorem Refs.release (h : Refs used refs) (hf : refs a = some f) (hused : ∀ g, g ≠ f → used g →
    used' g)
    (ha : refs' a = none) (hother : ∀ b, b ≠ a → refs' b = refs b) : Refs used' refs' := by
  have hold : ∀ b g, refs' b = some g → b ≠ a ∧ refs b = some g := by
    intro b g hg
    have hb : b ≠ a := by
      rintro rfl
      rw [ha] at hg
      cases hg
    exact ⟨hb, hother b hb ▸ hg⟩
  constructor
  · intro b g hg
    obtain ⟨hb, hg⟩ := hold b g hg
    refine hused g ?_ (h.used b g hg)
    rintro rfl
    exact hb (h.distinct b a g hg hf)
  · intro b c g hbg hcg
    exact h.distinct b c g (hold b g hbg).2 (hold c g hcg).2

end Refs

/-! ## The tasks and their tables -/

variable {σ ι : Type} {ops : InodeOps σ ι}

/-- The descriptor tables of all slots, the VFS they share, and the current task. -/
structure FdSystem (σ ι : Type) where
  vfs : VfsState σ ι
  live : Fin MAX_TASKS → Bool
  pid : Fin MAX_TASKS → Int
  fds : Fin MAX_TASKS → Nat → Option Nat
  current : Fin MAX_TASKS
  console : List UInt8

/-- What a call of the current task works on. -/
def FdSystem.world (s : FdSystem σ ι) : FdWorld σ ι where
  vfs := s.vfs
  fds := s.fds s.current
  pid := some (s.pid s.current)
  console := s.console

/-- The system after a call of the current task. -/
def FdSystem.put (s : FdSystem σ ι) (w : FdWorld σ ι) : FdSystem σ ι :=
  { s with vfs := w.vfs, fds := Function.update s.fds s.current w.fds, console := w.console }

/-- The child's copy of a descriptor. -/
def dupFd (vfs : VfsState σ ι) : Option Nat → Option Nat × VfsState σ ι
  | some f => vfsDup vfs f
  | none => (none, vfs)

/-- The loop of `task_fork` that fills the table of the child: the entries from `i`
on, and the VFS. -/
def dupAll (fds : Nat → Option Nat) : Nat → Nat → VfsState σ ι → (Nat → Option Nat) × VfsState σ ι
  | 0, _, vfs => (fun _ => none, vfs)
  | n + 1, i, vfs =>
    let (g, vfs) := dupFd vfs (fds i)
    let (rest, vfs) := dupAll fds n (i + 1) vfs
    (fun j => if j = i then g else rest j, vfs)

/-- `SYS_FORK`: the first free slot gets a copy of every descriptor.  `copied` tells
whether the pages for the child could be had, and `pid` is what `alloc_pid` returns. -/
def sysFork (s : FdSystem σ ι) (copied : Bool) (pid : Int) : Int × FdSystem σ ι :=
  match (List.finRange MAX_TASKS).find? fun t => !s.live t with
  | none => (-1, s)
  | some t =>
    if !copied then (-1, s)
    else
      let (fds, vfs) := dupAll (s.fds s.current) MAX_FDS 0 s.vfs
      (pid, { s with
        vfs := vfs
        live := Function.update s.live t true
        pid := Function.update s.pid t pid
        fds := Function.update s.fds t fds })

inductive FdSysOp (ι : Type) where
  | openPath (path : CStr) (userFlags : Nat)
  | close (fd : Int)
  | dup (oldfd : Int)
  | dup2 (oldfd newfd : Int)
  | pipe (page : Bool) (inode : Option ι)
  | fork (copied : Bool) (pid : Int)
  | switchTo (t : Fin MAX_TASKS)

/-- One system call of the current task, or a switch to another live task. -/
def fdSysStep (ops : InodeOps σ ι) (s : FdSystem σ ι) : FdSysOp ι → Option (FdSystem σ ι)
  | .openPath path userFlags => some (s.put (sysOpen ops s.world path userFlags).2)
  | .close fd => some (s.put (sysClose s.world fd).2)
  | .dup oldfd => some (s.put (sysDup s.world oldfd).2)
  | .dup2 oldfd newfd => some (s.put (sysDup2 s.world oldfd newfd).2)
  | .pipe page inode => some (s.put (sysPipe s.world page inode).2)
  | .fork copied pid => some (sysFork s copied pid).2
  | .switchTo t => if s.live t then some { s with current := t } else none

/-! ## Soundness -/

/-- A descriptor: the slot of the task and the index in its table. -/
abbrev FdKey := Fin MAX_TASKS × Nat

/-- The slots of `file_table` with an inode. -/
def InUse (vfs : VfsState σ ι) (f : Nat) : Prop :=
  f < VFS_FILE_MAX ∧ (vfs.files f).inode.isSome = true

/-- The descriptors of the live tasks, with the table `fds` for the current one. -/
def FdSystem.refsWith (s : FdSystem σ ι) (fds : Nat → Option Nat) (a : FdKey) : Option Nat :=
  if s.live a.1 = true ∧ a.2 < MAX_FDS then
    if a.1 = s.current then fds a.2 else s.fds a.1 a.2
  else none

/-- The descriptors of the live tasks. -/
def FdSystem.refs (s : FdSystem σ ι) (a : FdKey) : Option Nat :=
  if s.live a.1 = true ∧ a.2 < MAX_FDS then s.fds a.1 a.2 else none

/-- Every descriptor of a live task is open, and no two share a slot of
`file_table`. -/
def TablesSound (s : FdSystem σ ι) : Prop := Refs (InUse s.vfs) s.refs

variable {s s' : FdSystem σ ι} {w : FdWorld σ ι} {vfs : VfsState σ ι} {f g fd idx : Nat}
  {inode : ι}

theorem refs_eq_refsWith (s : FdSystem σ ι) : s.refs = s.refsWith s.world.fds := by
  funext a
  unfold FdSystem.refs FdSystem.refsWith
  by_cases ha : a.1 = s.current
  · rw [if_pos ha, ha]
    rfl
  · rw [if_neg ha]

theorem refs_put (s : FdSystem σ ι) (w : FdWorld σ ι) : (s.put w).refs = s.refsWith w.fds := by
  funext a
  show (if s.live a.1 = true ∧ a.2 < MAX_FDS then Function.update s.fds s.current w.fds a.1 a.2
      else none) = _
  unfold FdSystem.refsWith
  by_cases ha : a.1 = s.current
  · rw [if_pos ha, ha, Function.update_self]
  · rw [if_neg ha, Function.update_of_ne ha]

/-- The descriptors with those of the world `w` for the current task are sound. -/
def WorldSound (s : FdSystem σ ι) (w : FdWorld σ ι) : Prop :=
  Refs (InUse w.vfs) (s.refsWith w.fds)

theorem tablesSound_iff_world : TablesSound s ↔ WorldSound s s.world := by
  unfold TablesSound WorldSound
  rw [refs_eq_refsWith]
  exact Iff.rfl

theorem tablesSound_put : TablesSound (s.put w) ↔ WorldSound s w := by
  unfold TablesSound WorldSound
  rw [refs_put]
  exact Iff.rfl

/-- The key of a descriptor of the current task. -/
def FdSystem.key (s : FdSystem σ ι) (fd : Nat) : FdKey := (s.current, fd)

theorem refsWith_key (hlive : s.live s.current = true) (hfd : fd < MAX_FDS)
    (fds : Nat → Option Nat) :
    s.refsWith fds (s.key fd) = fds fd := by
  unfold FdSystem.refsWith FdSystem.key
  rw [if_pos ⟨hlive, hfd⟩, if_pos rfl]

theorem refsWith_setFd_ne {a : FdKey} (g : Option Nat) (ha : a ≠ s.key fd) :
    s.refsWith (w.setFd fd g).fds a = s.refsWith w.fds a := by
  unfold FdSystem.refsWith
  by_cases hcur : a.1 = s.current
  · have hne : a.2 ≠ fd := fun h => ha (Prod.ext hcur h)
    rw [setFd_of_ne w g hne]
  · rw [if_neg hcur, if_neg hcur]

theorem setFd_same (w : FdWorld σ ι) (fd : Nat) (g : Option Nat) : (w.setFd fd g).fds fd = g :=
  if_pos rfl

/-! ## The file table -/

theorem freeSlot_not_inUse (h : freeSlot vfs = some idx) : ¬ InUse vfs idx := by
  rintro ⟨-, hsome⟩
  rw [(freeSlot_some h).2] at hsome
  cases hsome

theorem setFile_ne (vfs : VfsState σ ι) (file : VfsFile ι) (h : g ≠ f) :
    (vfs.setFile f file).files g = vfs.files g := if_neg h

theorem inUse_setFile_ne (file : VfsFile ι) (h : g ≠ f) :
    InUse (vfs.setFile f file) g ↔ InUse vfs g := by
  unfold InUse
  rw [setFile_ne vfs file h]

theorem inUse_setFile (file : VfsFile ι) (hf : f < VFS_FILE_MAX)
    (hinode : file.inode.isSome = true) :
    InUse (vfs.setFile f file) f := ⟨hf, by rw [setFile_files]; exact hinode⟩

theorem not_inUse_setFile (file : VfsFile ι) (hinode : file.inode = none) :
    ¬ InUse (vfs.setFile f file) f := by
  rintro ⟨-, hsome⟩
  rw [setFile_files, hinode] at hsome
  cases hsome

theorem inUse_vfsClose (h : InUse vfs g) (hne : g ≠ f) : InUse (vfsClose vfs f) g := by
  unfold vfsClose
  split
  · exact h
  · exact (inUse_setFile_ne _ hne).mpr h

theorem not_inUse_vfsClose (vfs : VfsState σ ι) (f : Nat) : ¬ InUse (vfsClose vfs f) f := by
  unfold vfsClose
  split
  next hnone =>
    rintro ⟨-, hsome⟩
    rw [Option.isNone_iff_eq_none.mp hnone] at hsome
    cases hsome
  · exact not_inUse_setFile _ rfl

/-- Finding or creating the inode does not touch the table. -/
theorem openInode_files (ops : InodeOps σ ι) (vfs : VfsState σ ι) (path : CStr) (flags : Nat) :
    (openInode ops vfs path flags).2.files = vfs.files := by
  have hcreate : (vfsCreate ops vfs path).2.files = vfs.files := by
    unfold vfsCreate
    split
    · rfl
    split <;> rfl
  unfold openInode
  split
  · rfl
  split
  · dsimp only
    split
    · exact hcreate
    · exact hcreate
  · rfl

/-- What `vfs_dup` does: a fresh slot with an inode, or nothing. -/
theorem vfsDup_spec (vfs : VfsState σ ι) (f : Nat) :
    vfsDup vfs f = (none, vfs) ∨ ∃ idx vfs', vfsDup vfs f = (some idx, vfs') ∧ ¬ InUse vfs idx ∧
      InUse vfs' idx ∧ ∀ g, InUse vfs g → InUse vfs' g := by
  unfold vfsDup
  split
  · exact .inl rfl
  next hsome =>
    split
    · exact .inl rfl
    next idx hidx =>
      refine .inr ⟨idx, _, rfl, freeSlot_not_inUse hidx, ?_, fun g hg => ?_⟩
      · exact inUse_setFile _ (freeSlot_some hidx).1
          (by simpa [Option.isSome_iff_ne_none] using hsome)
      · have hne : g ≠ idx := fun heq => freeSlot_not_inUse hidx (heq ▸ hg)
        exact (inUse_setFile_ne _ hne).mpr hg

/-- What `vfs_open` does. -/
theorem vfsOpen_spec (ops : InodeOps σ ι) (vfs : VfsState σ ι) (path : CStr) (flags : Nat) :
    (∃ vfs', vfsOpen ops vfs path flags = (none, vfs') ∧ vfs'.files = vfs.files) ∨
      ∃ idx vfs', vfsOpen ops vfs path flags = (some idx, vfs') ∧ ¬ InUse vfs idx ∧
        InUse vfs' idx ∧ ∀ g, InUse vfs g → InUse vfs' g := by
  have hfiles := openInode_files ops vfs path flags
  have hsame : ∀ g, InUse vfs g ↔ InUse (openInode ops vfs path flags).2 g := by
    intro g
    unfold InUse
    rw [hfiles]
  unfold vfsOpen
  rcases hopen : openInode ops vfs path flags with ⟨inode, vfs₁⟩
  rw [hopen] at hfiles hsame
  cases inode with
  | none => exact .inl ⟨vfs₁, rfl, hfiles⟩
  | some inode =>
    dsimp only
    split
    · exact .inl ⟨vfs₁, rfl, hfiles⟩
    next idx hidx =>
      have hfresh : ¬ InUse vfs idx := fun h => freeSlot_not_inUse hidx ((hsame idx).mp h)
      refine .inr ⟨idx, _, rfl, hfresh, ?_, fun g hg => ?_⟩
      · exact inUse_setFile _ (freeSlot_some hidx).1 rfl
      · have hne : g ≠ idx := fun heq => hfresh (heq ▸ hg)
        exact (inUse_setFile_ne _ hne).mpr ((hsame g).mp hg)

/-! ## The calls -/

section Calls

variable (hlive : s.live s.current = true)

include hlive

/-- A free descriptor gets a fresh file. -/
theorem WorldSound.bind (h : WorldSound s w) (hfd : fd < MAX_FDS) (hfresh : ¬ InUse w.vfs f)
    (hused : ∀ g, InUse w.vfs g → InUse vfs g) (hf : InUse vfs f) :
    WorldSound s ({ w with vfs := vfs }.setFd fd (some f)) := by
  refine Refs.bind (a := s.key fd) h hfresh hused hf ?_ fun b hb => ?_
  · rw [refsWith_key hlive hfd, setFd_same]
  · exact refsWith_setFd_ne (w := { w with vfs := vfs }) (some f) hb

/-- A descriptor that is free stays so. -/
theorem WorldSound.setFd_none (h : WorldSound s w) (hfd : fd < MAX_FDS)
    (hnone : w.fds fd = none) : WorldSound s (w.setFd fd none) := by
  refine Refs.congr h (fun g hg => hg) (funext fun a => ?_)
  by_cases ha : a = s.key fd
  · rw [ha, refsWith_key hlive hfd, refsWith_key hlive hfd, setFd_same, hnone]
  · exact refsWith_setFd_ne none ha

/-- A descriptor is closed with its file. -/
theorem WorldSound.close (h : WorldSound s w) (hfd : fd < MAX_FDS) (hf : w.fds fd = some f) :
    WorldSound s ({ w with vfs := vfsClose w.vfs f }.setFd fd none) := by
  refine Refs.release (a := s.key fd) (f := f) h ?_ (fun g hne hg => inUse_vfsClose hg hne) ?_
    fun b hb => ?_
  · rw [refsWith_key hlive hfd, hf]
  · rw [refsWith_key hlive hfd, setFd_same]
  · exact refsWith_setFd_ne (w := { w with vfs := vfsClose w.vfs f }) none hb

/-- A copy of a file goes to a free descriptor. -/
theorem WorldSound.dup (h : WorldSound s w) (hfd : fd < MAX_FDS) (hnone : w.fds fd = none)
    (f : Nat) :
    WorldSound s ({ w with vfs := (vfsDup w.vfs f).2 }.setFd fd (vfsDup w.vfs f).1) := by
  rcases vfsDup_spec w.vfs f with heq | ⟨idx, vfs', heq, hfresh, hnew, hused⟩
  · rw [heq]
    exact h.setFd_none hlive hfd hnone
  · rw [heq]
    exact h.bind hlive hfd hfresh hused hnew

omit hlive in
theorem WorldSound.same_fds (h : WorldSound s w) (hused : ∀ g, InUse w.vfs g → InUse vfs g) :
    WorldSound s { w with vfs := vfs } := Refs.congr h hused rfl

theorem WorldSound.sysOpen (h : WorldSound s w) (path : CStr) (userFlags : Nat) :
    WorldSound s (sysOpen ops w path userFlags).2 := by
  unfold Proc.sysOpen
  split
  · exact h
  rcases vfsOpen_spec ops w.vfs (rawPath path) (openFlags userFlags)
    with ⟨vfs', heq, hfiles⟩ | ⟨idx, vfs', heq, hfresh, hnew, hused⟩
  · rw [heq]
    refine h.same_fds fun g hg => ?_
    unfold InUse
    rw [hfiles]
    exact hg
  · rw [heq]
    dsimp only
    split
    · refine h.same_fds fun g hg => inUse_vfsClose (hused g hg) ?_
      rintro rfl
      exact hfresh hg
    next fd hfree => exact h.bind hlive (freeFd_some hfree).2 hfresh hused hnew

omit hlive in
theorem fileOf_some {fd : Int} (h : fileOf w fd = some f) :
    fd.toNat < MAX_FDS ∧ 0 ≤ fd ∧ w.fds fd.toNat = some f := by
  unfold fileOf at h
  split at h
  · cases h
  next hrange =>
    push Not at hrange
    exact ⟨by omega, by omega, h⟩

theorem WorldSound.sysClose (h : WorldSound s w) (fd : Int) : WorldSound s (sysClose w fd).2 := by
  unfold Proc.sysClose
  split
  · exact h
  next f hfile =>
    obtain ⟨hlt, -, hf⟩ := fileOf_some hfile
    exact h.close hlive hlt hf

theorem WorldSound.sysDup (h : WorldSound s w) (oldfd : Int) :
    WorldSound s (sysDup w oldfd).2 := by
  unfold Proc.sysDup
  split
  · exact h
  split
  · exact h
  next fd hfree => exact h.dup hlive (freeFd_some hfree).2 (freeFd_some hfree).1 _

theorem WorldSound.sysDup2 (h : WorldSound s w) (oldfd newfd : Int) :
    WorldSound s (sysDup2 w oldfd newfd).2 := by
  unfold Proc.sysDup2
  split
  · exact h
  next hrange =>
    push Not at hrange
    have hlt : newfd.toNat < MAX_FDS := by omega
    split
    · exact h
    -- The descriptor is free when the copy is made.
    cases hnew : w.fds newfd.toNat with
    | none =>
      dsimp only
      split
      · exact h.setFd_none hlive hlt hnew
      next f _ => exact h.dup hlive hlt hnew f
    | some g =>
      have hclosed := h.close hlive hlt hnew
      dsimp only
      split
      · exact hclosed.setFd_none hlive hlt (setFd_same _ _ _)
      next f _ => exact hclosed.dup hlive hlt (setFd_same _ _ _) f

end Calls

/-! ## The pipe -/

/-- A slot that `vfs_alloc_file` returns is returned again by the next call. -/
theorem vfsAllocFile_twice (h : freeSlot vfs = some idx) :
    ∃ vfs', vfsAllocFile vfs = (some idx, vfs') ∧ (vfsAllocFile vfs').1 = some idx ∧
      (∀ g, InUse vfs' g ↔ InUse vfs g) ∧ ∀ g, InUse (vfsAllocFile vfs').2 g ↔ InUse vfs g := by
  have hnone := (freeSlot_some h).2
  have hput : ∀ v : VfsState σ ι, (v.files idx).inode = none →
      ∀ g, ((installFile v idx { inode := none, offset := 0, flags := 0 }).files g).inode =
        (v.files g).inode := by
    intro v hv g
    by_cases hg : g = idx
    · rw [hg, hv]
      exact congrArg VfsFile.inode (setFile_files _ _ _)
    · exact congrArg VfsFile.inode (setFile_ne v _ hg)
  have hinodes := hput vfs hnone
  have hagain :
      freeSlot (installFile vfs idx { inode := none, offset := 0, flags := 0 }) = some idx := by
    rw [← h]
    unfold freeSlot
    simp only [hinodes]
  have hsame : ∀ v v' : VfsState σ ι, (∀ g, (v'.files g).inode = (v.files g).inode) →
      ∀ g, InUse v' g ↔ InUse v g := by
    intro v v' hv g
    unfold InUse
    rw [hv g]
  refine ⟨installFile vfs idx { inode := none, offset := 0, flags := 0 }, ?_, ?_,
    hsame _ _ hinodes, ?_⟩
  · unfold vfsAllocFile
    rw [h]
  · unfold vfsAllocFile
    rw [hagain]
  · refine hsame _ _ fun g => ?_
    unfold vfsAllocFile
    rw [hagain]
    dsimp only
    rw [hput _ (by rw [hinodes, hnone]) g, hinodes]

/-- The call of `SYS_PIPE` ends before it sets a descriptor. -/
def PipeStops (s : FdSystem σ ι) : FdSysOp ι → Prop
  | .pipe page inode =>
    page = false ∨ inode = none ∨ freeSlot s.vfs = none ∨ freeFd s.world = none
  | _ => True

theorem freeFd_eq_head (w : FdWorld σ ι) :
    freeFd w = ((List.range MAX_FDS).filter fun i => (w.fds i).isNone).head? := by
  unfold freeFd
  rw [List.head?_filter]

/-- With a free slot and a free descriptor, `SYS_PIPE` breaks the tables: two
descriptors share the slot, or one is left with the slot closed. -/
theorem sysPipe_breaks (hlive : s.live s.current = true) (hslot : freeSlot s.vfs = some idx)
    (hfd : freeFd s.world = some fd) : ¬ WorldSound s (sysPipe s.world true (some inode)).2 := by
  obtain ⟨vfs₁, halloc, hagain, -, -⟩ := vfsAllocFile_twice hslot
  have hpipe : (sysPipe s.world true (some inode)).2 =
      (installPipe { s.world with vfs := (vfsAllocFile vfs₁).2 } inode idx idx).2 := by
    unfold sysPipe
    dsimp only
    rw [show s.world.vfs = s.vfs from rfl, halloc]
    dsimp only
    rw [hagain]
  rw [hpipe]
  intro h
  rw [freeFd_eq_head] at hfd
  unfold installPipe at h
  have hmem : ∀ i ∈ (List.range MAX_FDS).filter fun i => (s.world.fds i).isNone, i < MAX_FDS := by
    intro i hi
    exact List.mem_range.mp (List.mem_filter.mp hi).1
  have hnodup : ((List.range MAX_FDS).filter fun i => (s.world.fds i).isNone).Nodup :=
    List.nodup_range.filter _
  dsimp only at h
  rcases hlist :
      (List.range MAX_FDS).filter (fun i => (s.world.fds i).isNone) with _ | ⟨a, _ | ⟨b, rest⟩⟩
  · rw [hlist] at hfd
    cases hfd
  · rw [hlist] at h hmem
    have hused := h.used (s.key a) idx (by rw [refsWith_key hlive (hmem a (by simp)), setFd_same])
    exact not_inUse_vfsClose _ idx hused
  · rw [hlist] at h hmem hnodup
    have hne : a ≠ b := by
      rintro rfl
      simp at hnodup
    have hfirst : s.refsWith ((({ s.world with
        vfs := ((vfsAllocFile vfs₁).2.setFile idx
          { inode := some inode, offset := 0, flags := VFS_O_READ }).setFile
          idx { inode := some inode, offset := 0, flags := VFS_O_WRITE } } : FdWorld σ ι).setFd a
          (some idx)).setFd b (some idx)).fds (s.key a) = some idx := by
      rw [refsWith_key hlive (hmem a (by simp)), setFd_of_ne _ _ hne, setFd_same]
    have hsecond := h.distinct (s.key a) (s.key b) idx hfirst
      (by rw [refsWith_key hlive (hmem b (by simp)), setFd_same])
    exact hne (congrArg Prod.snd hsecond)

/-- A call of `SYS_PIPE` that stops keeps the tables. -/
theorem sysPipe_stops (h : WorldSound s s.world) {page : Bool} {inode : Option ι}
    (hstops : PipeStops s (.pipe page inode)) : WorldSound s (sysPipe s.world page inode).2 := by
  unfold sysPipe
  cases page with
  | false => exact h
  | true =>
    cases inode with
    | none => exact h
    | some inode =>
      dsimp only
      cases hslot : freeSlot s.vfs with
      | none =>
        have hnone : vfsAllocFile s.vfs = (none, s.vfs) := by
          unfold vfsAllocFile
          rw [hslot]
        rw [show s.world.vfs = s.vfs from rfl, hnone]
        dsimp only
        rw [hnone]
        exact h
      | some idx =>
        have hfull : freeFd s.world = none := by
          rcases hstops with h | h | h | h
          · cases h
          · cases h
          · rw [hslot] at h
            cases h
          · exact h
        obtain ⟨vfs₁, halloc, hagain, -, hsame⟩ := vfsAllocFile_twice hslot
        rw [show s.world.vfs = s.vfs from rfl, halloc]
        dsimp only
        rw [hagain]
        dsimp only
        unfold installPipe
        dsimp only
        rw [freeFd_eq_head, List.head?_eq_none_iff] at hfull
        rw [hfull]
        refine h.same_fds fun g hg => ?_
        have hne : g ≠ idx := fun heq => freeSlot_not_inUse hslot (heq ▸ hg)
        refine inUse_vfsClose (inUse_vfsClose ?_ hne) hne
        rw [inUse_setFile_ne _ hne, inUse_setFile_ne _ hne, hsame]
        exact hg

/-! ## The fork -/

/-- The descriptors of the live tasks, with `row` for those of the new task `t`. -/
def FdSystem.refsFork (s : FdSystem σ ι) (t : Fin MAX_TASKS) (row : Nat → Option Nat)
    (a : FdKey) : Option Nat :=
  if a.1 = t then if a.2 < MAX_FDS then row a.2 else none else s.refs a

/-- Filling the table of the child entry by entry. -/
theorem dupAll_sound {t : Fin MAX_TASKS} (fds row : Nat → Option Nat) (n i : Nat)
    (h : Refs (InUse vfs) (s.refsFork t row)) (hrow : ∀ j, i ≤ j → row j = none) :
    Refs (InUse (dupAll fds n i vfs).2)
      (s.refsFork t fun j => if i ≤ j then (dupAll fds n i vfs).1 j else row j) := by
  induction n generalizing i row vfs with
  | zero =>
    refine h.congr (fun g hg => hg) ?_
    congr 1
    funext j
    by_cases hj : i ≤ j
    · rw [if_pos hj, hrow j hj]
      rfl
    · rw [if_neg hj]
  | succ n ih =>
    rw [dupAll]
    -- One entry: `g` is what the descriptor becomes.
    have hentry : ∀ g vfs₁, dupFd vfs (fds i) = (g, vfs₁) →
        Refs (InUse vfs₁) (s.refsFork t fun j => if j = i then g else row j) := by
      intro g vfs₁ heq
      have hkeep : Refs (InUse vfs) (s.refsFork t fun j => if j = i then none else row j) := by
        refine h.congr (fun g hg => hg) ?_
        congr 1
        funext j
        by_cases hj : j = i
        · rw [if_pos hj, hrow j (by omega)]
        · rw [if_neg hj]
      cases hfd : fds i with
      | none =>
        rw [hfd] at heq
        cases heq
        exact hkeep
      | some f =>
        rw [hfd] at heq
        rcases vfsDup_spec vfs f with hdup | ⟨idx, vfs', hdup, hfresh, hnew, hused⟩
        · cases hdup.symm.trans heq
          exact hkeep
        · cases hdup.symm.trans heq
          by_cases hi : i < MAX_FDS
          · refine Refs.bind (a := (t, i)) h hfresh hused hnew ?_ fun b hb => ?_
            · simp [FdSystem.refsFork, hi]
            · unfold FdSystem.refsFork
              by_cases hbt : b.1 = t
              · have hne : b.2 ≠ i := fun heq => hb (Prod.ext hbt heq)
                simp only [hbt, if_true, if_neg hne]
              · rw [if_neg hbt, if_neg hbt]
          · refine h.congr hused (funext fun a => ?_)
            unfold FdSystem.refsFork
            by_cases ha : a.2 < MAX_FDS
            · simp only [if_neg (show a.2 ≠ i by omega)]
            · rw [if_neg ha, if_neg ha]
    rcases heq : dupFd vfs (fds i) with ⟨g, vfs₁⟩
    have habove : ∀ j, i + 1 ≤ j → (if j = i then g else row j) = none := by
      intro j hj
      rw [if_neg (by omega)]
      exact hrow j (by omega)
    have hnext := ih _ (i + 1) (hentry g vfs₁ heq) habove
    refine hnext.congr (fun g hg => hg) ?_
    congr 1
    funext j
    dsimp only
    by_cases hj : j = i
    · subst hj
      simp
    · by_cases hle : i ≤ j
      · rw [if_pos hle, if_neg hj, if_pos (show i + 1 ≤ j by omega)]
      · rw [if_neg hle, if_neg (show ¬ i + 1 ≤ j by omega), if_neg hj]

theorem TablesSound.fork (h : TablesSound s) (copied : Bool) (pid : Int) :
    TablesSound (sysFork s copied pid).2 := by
  unfold sysFork
  split
  · exact h
  next t hfind =>
    have hdead : s.live t = false := by simpa using List.find?_some hfind
    split
    · exact h
    · have hstart : Refs (InUse s.vfs) (s.refsFork t fun _ => none) := by
        refine Refs.congr h (fun g hg => hg) (funext fun a => ?_)
        unfold FdSystem.refsFork
        by_cases ha : a.1 = t
        · unfold FdSystem.refs
          simp [ha, hdead]
        · rw [if_neg ha]
      have hall := dupAll_sound (s.fds s.current) (fun _ => none) MAX_FDS 0 hstart fun _ _ => rfl
      refine Refs.congr hall (fun g hg => hg) (funext fun a => ?_)
      unfold FdSystem.refsFork FdSystem.refs
      by_cases ha : a.1 = t
      · simp [ha]
      · simp [ha]

/-! ## Whole runs -/

/-- The tables are sound and the current task is live. -/
def FdInv (s : FdSystem σ ι) : Prop := s.live s.current = true ∧ TablesSound s

/-- A call other than a pipe that goes through keeps the tables sound. -/
theorem FdInv.step (h : FdInv s) {o : FdSysOp ι} (hstops : PipeStops s o)
    (hstep : fdSysStep ops s o = some s') : FdInv s' := by
  obtain ⟨hlive, hsound⟩ := h
  have hworld := tablesSound_iff_world.mp hsound
  cases o with
  | openPath path userFlags =>
    cases hstep
    exact ⟨hlive, tablesSound_put.mpr (hworld.sysOpen hlive path userFlags)⟩
  | close fd =>
    cases hstep
    exact ⟨hlive, tablesSound_put.mpr (hworld.sysClose hlive fd)⟩
  | dup oldfd =>
    cases hstep
    exact ⟨hlive, tablesSound_put.mpr (hworld.sysDup hlive oldfd)⟩
  | dup2 oldfd newfd =>
    cases hstep
    exact ⟨hlive, tablesSound_put.mpr (hworld.sysDup2 hlive oldfd newfd)⟩
  | pipe page inode =>
    cases hstep
    exact ⟨hlive, tablesSound_put.mpr (sysPipe_stops hworld hstops)⟩
  | fork copied pid =>
    cases hstep
    refine ⟨?_, hsound.fork copied pid⟩
    unfold sysFork
    split
    · exact hlive
    split
    · exact hlive
    · dsimp only
      by_cases ht : s.current = ‹Fin MAX_TASKS›
      · rw [← ht, Function.update_self]
      · rw [Function.update_of_ne ht, hlive]
  | switchTo t =>
    have hstep' : (if s.live t then some { s with current := t } else none) = some s' := hstep
    split at hstep'
    next ht =>
      cases hstep'
      exact ⟨ht, hsound⟩
    · cases hstep'

theorem FdInv.breaks (h : FdInv s) {o : FdSysOp ι} (hgoes : ¬ PipeStops s o)
    (hstep : fdSysStep ops s o = some s') : ¬ TablesSound s' := by
  cases o with
  | pipe page inode =>
    unfold PipeStops at hgoes
    push Not at hgoes
    obtain ⟨hpage, hinode, hslot, hfd⟩ := hgoes
    obtain ⟨idx, hidx⟩ := Option.ne_none_iff_exists'.mp hslot
    obtain ⟨fd, hfd⟩ := Option.ne_none_iff_exists'.mp hfd
    obtain ⟨inode, rfl⟩ := Option.ne_none_iff_exists'.mp hinode
    obtain rfl : page = true := by simpa using hpage
    cases hstep
    rw [tablesSound_put]
    exact sysPipe_breaks h.1 hidx hfd
  | _ => exact absurd trivial hgoes

/-- From empty descriptor tables on, the tables of a run are sound exactly if every
`SYS_PIPE` stops before it sets a descriptor. -/
theorem tablesSound_run_iff (ops : InodeOps σ ι) (s : FdSystem σ ι)
    (hlive : s.live s.current = true)
    (hempty : ∀ t fd, s.fds t fd = none) (os : List (FdSysOp ι)) :
    (∀ s' ∈ visited (fdSysStep ops) s os, TablesSound s') ↔
      Guarded (fdSysStep ops) PipeStops s os := by
  have hnone : ∀ a, s.refs a = none := by
    intro a
    unfold FdSystem.refs
    rw [hempty, ite_self]
  have hstart : TablesSound s := by
    refine ⟨fun a f ha => ?_, fun a b f ha => ?_⟩
    · rw [hnone] at ha
      cases ha
    · rw [hnone] at ha
      cases ha
  have hinv : FdInv s := ⟨hlive, hstart⟩
  exact visited_iff_guarded (fun _ h => h.2)
    (fun _ _ _ (h : FdInv _) hstops hstep => h.step hstops hstep)
    (fun _ _ _ h hgoes hstep => h.breaks hgoes hstep) hinv os

/-- A filesystem without files. -/
def noFiles : InodeOps Unit Unit where
  isDir _ _ := true
  size _ _ := 0
  lookup _ _ _ := none
  create _ := none
  read _ := none
  write _ := none

/-- One user task with nothing open. -/
def oneTask : FdSystem Unit Unit where
  vfs := { fs := (), mounts := [], files := fun _ => { inode := none, offset := 0, flags := 0 },
           fileCount := 0 }
  live t := t = 1
  pid _ := 1
  fds _ _ := none
  current := 1
  console := []

/-- The task with a root directory. -/
def rootTask : FdSystem Unit Unit :=
  { oneTask with vfs := { oneTask.vfs with mounts := [⟨[47], ()⟩] } }

/-- The task opens the root, duplicates the descriptor and forks. -/
theorem tablesSound_run_iff_forked :
    (∃ s, run (fdSysStep noFiles) rootTask [.openPath [47] 0, .dup 0, .fork true 2] = some s ∧
      s.fds 1 1 = some 1 ∧ s.fds 0 1 = some 3) ∧
    ∀ s' ∈ visited (fdSysStep noFiles) rootTask [.openPath [47] 0, .dup 0, .fork true 2],
      TablesSound s' := by
  refine ⟨⟨_, rfl, by decide +kernel, by decide +kernel⟩, ?_⟩
  exact (tablesSound_run_iff noFiles rootTask rfl (fun _ _ => rfl) _).mpr
    ⟨trivial, trivial, trivial, trivial⟩

/-- The first `SYS_PIPE` of a task makes its descriptors 0 and 1 the same file. -/
theorem pipe_not_sound :
    ∃ s, fdSysStep noFiles oneTask (.pipe true (some ())) = some s ∧
      s.fds 1 0 = some 0 ∧ s.fds 1 1 = some 0 ∧ ¬ TablesSound s := by
  refine ⟨_, rfl, by decide +kernel, by decide +kernel, fun h => ?_⟩
  have hsame := h.distinct (1, 0) (1, 1) 0 (by decide +kernel) (by decide +kernel)
  cases hsame

end Lumin.Proc
