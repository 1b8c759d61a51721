import Lumin.Proc.DescriptorTables

/-!
# `SYS_DUP` and `SYS_DUP2`

What `SYS_DUP` and `SYS_DUP2` of `kernel/proc/syscall.c` leave in the descriptor table.
Neither looks at the result of `vfs_dup`: when the file table is full, a descriptor is
returned behind which there is no file.  `SYS_DUP2` closes the target first, also when
the target is the file that is to be duplicated.

* `duplicated_iff` says when `vfs_dup` into another descriptor duplicates the file.
* `dup_clean_iff` is the result for the two calls.
-/

namespace Lumin.Proc

open Lumin.Fs Lumin.Lib

variable {σ ι : Type} {w w' : FdWorld σ ι} {old new f g : Nat}

/-- The old descriptor has the file it had, and the new one a file with the same inode,
offset and flags. -/
def Duplicated (w w' : FdWorld σ ι) (old new : Nat) : Prop :=
  ∃ f g, w.fds old = some f ∧ w'.fds old = some f ∧ (w.vfs.files f).inode.isSome ∧
    w'.vfs.files f = w.vfs.files f ∧ w'.fds new = some g ∧ w'.vfs.files g = w'.vfs.files f

/-- The call duplicates the descriptor or leaves the table as it was. -/
def CleanDup (w : FdWorld σ ι) (oldfd : Int) (r : Int × FdWorld σ ι) : Prop :=
  (0 ≤ r.1 → Duplicated w r.2 oldfd.toNat r.1.toNat) ∧ (r.1 = -1 → r.2.fds = w.fds)

/-- `SYS_DUP` fails, or there is a file to duplicate and a slot for it. -/
def DupRoom (w : FdWorld σ ι) (oldfd : Int) : Prop :=
  fileOf w oldfd = none ∨ freeFd w = none ∨
    (∃ f, w.fds oldfd.toNat = some f ∧ (w.vfs.files f).inode.isSome) ∧ freeSlot w.vfs ≠ none

/-- `SYS_DUP2` fails, or the target is another file, and there is a slot or the target
gives one. -/
def Dup2Room (w : FdWorld σ ι) (oldfd newfd : Int) : Prop :=
  (w.pid.isNone ∨ newfd < 0 ∨ newfd ≥ MAX_FDS ∨ fileOf w oldfd = none) ∨
    (oldfd ≠ newfd ∧ w.fds oldfd.toNat ≠ w.fds newfd.toNat ∧
      (∃ f, w.fds oldfd.toNat = some f ∧ (w.vfs.files f).inode.isSome) ∧
      (freeSlot w.vfs ≠ none ∨ ∃ g < VFS_FILE_MAX, w.fds newfd.toNat = some g))

/-! ## `vfs_dup` into a descriptor -/

/-- `current_task->fds[new] = vfs_dup(f)`. -/
def dupInto (w : FdWorld σ ι) (f new : Nat) : FdWorld σ ι :=
  { w with vfs := (vfsDup w.vfs f).2 }.setFd new (vfsDup w.vfs f).1

/-- Without a file or a slot, `vfs_dup` gives `NULL`. -/
theorem dupInto_null (h : (w.vfs.files f).inode.isNone ∨ freeSlot w.vfs = none) :
    (dupInto w f new).fds new = none := by
  unfold dupInto
  rw [setFd_same]
  unfold vfsDup
  rcases h with hinode | hslot
  · rw [if_pos hinode]
  · split_ifs
    · rfl
    · rw [hslot]

theorem duplicated_iff (hold : w.fds old = some f) (hne : old ≠ new) :
    Duplicated w (dupInto w f new) old new ↔ (w.vfs.files f).inode.isSome ∧
      freeSlot w.vfs ≠ none := by
  constructor
  · rintro ⟨f', g, hold', -, hinode, -, hnew, -⟩
    rw [hold] at hold'
    cases hold'
    refine ⟨hinode, fun hslot => ?_⟩
    rw [dupInto_null (.inr hslot)] at hnew
    cases hnew
  · rintro ⟨hinode, hslot⟩
    obtain ⟨idx, hidx⟩ := Option.ne_none_iff_exists'.mp hslot
    have hdup : vfsDup w.vfs f = (some idx, installFile w.vfs idx (w.vfs.files f)) := by
      unfold vfsDup
      rw [if_neg (by simpa [Option.isSome_iff_ne_none] using hinode), hidx]
    -- The slot is another one: it has no inode.
    have hother : f ≠ idx := by
      rintro rfl
      rw [(freeSlot_some hidx).2] at hinode
      cases hinode
    refine ⟨f, idx, hold, ?_, hinode, ?_, ?_, ?_⟩
    · unfold dupInto
      rw [setFd_of_ne _ _ hne]
      exact hold
    · unfold dupInto
      rw [hdup]
      exact setFile_ne _ _ hother
    · unfold dupInto
      rw [setFd_same, hdup]
    · unfold dupInto
      rw [hdup]
      exact (setFile_files _ _ _).trans (setFile_ne _ _ hother).symm

/-! ## The target of `SYS_DUP2` -/

theorem freeSlot_ne_none_iff {vfs : VfsState σ ι} :
    freeSlot vfs ≠ none ↔ ∃ i < VFS_FILE_MAX, (vfs.files i).inode = none := by
  unfold freeSlot
  rw [Ne, List.find?_eq_none]
  simp

/-- A close gives its slot. -/
theorem freeSlot_vfsClose (vfs : VfsState σ ι) (g : Nat) :
    freeSlot (vfsClose vfs g) ≠ none ↔ freeSlot vfs ≠ none ∨ g < VFS_FILE_MAX := by
  have hclosed : ∀ i, ((vfsClose vfs g).files i).inode = none ↔ (vfs.files i).inode = none ∨
      i = g := by
    intro i
    unfold vfsClose
    by_cases hg : i = g
    · subst hg
      refine iff_of_true ?_ (.inr rfl)
      split_ifs with hnone
      · exact Option.isNone_iff_eq_none.mp hnone
      · rw [setFile_files]
    · rw [or_iff_left hg]
      split_ifs
      · rfl
      · rw [setFile_ne _ _ hg]
  rw [freeSlot_ne_none_iff, freeSlot_ne_none_iff]
  constructor
  · rintro ⟨i, hi, hnone⟩
    rcases (hclosed i).mp hnone with hnone | rfl
    · exact .inl ⟨i, hi, hnone⟩
    · exact .inr hi
  · rintro (⟨i, hi, hnone⟩ | hg)
    · exact ⟨i, hi, (hclosed i).mpr (.inl hnone)⟩
    · exact ⟨g, hg, (hclosed g).mpr (.inr rfl)⟩

/-- The target is closed and its entry emptied. -/
def closeTarget (w : FdWorld σ ι) (new g : Nat) : FdWorld σ ι :=
  { w with vfs := vfsClose w.vfs g }.setFd new none

/-- The target is another file: the old one is not touched. -/
theorem duplicated_closeTarget (hold : w.fds old = some f) (hne : old ≠ new) (hfile : f ≠ g) :
    Duplicated w (dupInto (closeTarget w new g) f new) old new ↔
      (w.vfs.files f).inode.isSome ∧ (freeSlot w.vfs ≠ none ∨ g < VFS_FILE_MAX) := by
  have hold' : (closeTarget w new g).fds old = some f := (setFd_of_ne _ _ hne).trans hold
  have hkept : (closeTarget w new g).vfs.files f = w.vfs.files f := by
    show (vfsClose w.vfs g).files f = _
    unfold vfsClose
    split_ifs
    · rfl
    · exact setFile_ne _ _ hfile
  have hsame : Duplicated w (dupInto (closeTarget w new g) f new) old new ↔
      Duplicated (closeTarget w new g) (dupInto (closeTarget w new g) f new) old new := by
    constructor
    · rintro ⟨f', g', h, hrest⟩
      rw [hold] at h
      cases h
      refine ⟨f, g', hold', ?_⟩
      rw [hkept]
      exact hrest
    · rintro ⟨f', g', h, hrest⟩
      rw [hold'] at h
      cases h
      rw [hkept] at hrest
      exact ⟨f, g', hold, hrest⟩
  rw [hsame, duplicated_iff hold' hne, hkept]
  exact and_congr_right fun _ => freeSlot_vfsClose w.vfs g

/-- The target is the file to be duplicated: it is closed, and there is nothing left. -/
theorem not_duplicated_self : ¬ Duplicated w (dupInto (closeTarget w new f) f new) old new := by
  rintro ⟨-, g, -, -, -, -, hnew, -⟩
  have hclosed : ((closeTarget w new f).vfs.files f).inode.isNone := by
    show ((vfsClose w.vfs f).files f).inode.isNone
    unfold vfsClose
    split_ifs with hnone
    · exact hnone
    · rw [setFile_files]
      rfl
  rw [dupInto_null (.inl hclosed)] at hnew
  cases hnew

/-! ## The calls -/

/-- A call that fails with the table as it was is clean. -/
theorem cleanDup_fail (w : FdWorld σ ι) (oldfd : Int) : CleanDup w oldfd (-1, w) :=
  ⟨fun h => absurd (show (0 : Int) ≤ -1 from h) (by decide), fun _ => rfl⟩

/-- A descriptor that is returned has to be a duplicate. -/
theorem cleanDup_iff {oldfd newfd : Int} (hpos : 0 ≤ newfd) :
    CleanDup w oldfd (newfd, w') ↔ Duplicated w w' oldfd.toNat newfd.toNat := by
  refine ⟨fun h => h.1 hpos, fun h => ⟨fun _ => h, fun hneg => ?_⟩⟩
  dsimp only at hneg
  omega

theorem sysDup_clean_iff (w : FdWorld σ ι) (oldfd : Int) :
    CleanDup w oldfd (sysDup w oldfd) ↔ DupRoom w oldfd := by
  unfold sysDup DupRoom
  cases hfile : fileOf w oldfd with
  | none => exact iff_of_true (cleanDup_fail w oldfd) (.inl rfl)
  | some f =>
    obtain ⟨-, -, hold⟩ := fileOf_some hfile
    cases hfree : freeFd w with
    | none => exact iff_of_true (cleanDup_fail w oldfd) (.inr (.inl rfl))
    | some newfd =>
      have hne : oldfd.toNat ≠ newfd := by
        intro heq
        rw [heq, (freeFd_some hfree).1] at hold
        cases hold
      have hcall : CleanDup w oldfd ((newfd : Int), dupInto w f newfd) ↔
          (w.vfs.files f).inode.isSome ∧ freeSlot w.vfs ≠ none := by
        rw [cleanDup_iff (Int.natCast_nonneg newfd), Int.toNat_natCast]
        exact duplicated_iff hold hne
      refine hcall.trans ?_
      constructor
      · rintro ⟨hinode, hslot⟩
        exact .inr (.inr ⟨⟨f, hold, hinode⟩, hslot⟩)
      · rintro (h | h | ⟨⟨f', hold', hinode⟩, hslot⟩)
        · cases h
        · cases h
        · rw [hold] at hold'
          cases hold'
          exact ⟨hinode, hslot⟩

theorem sysDup2_clean_iff (w : FdWorld σ ι) (oldfd newfd : Int) :
    CleanDup w oldfd (sysDup2 w oldfd newfd) ↔ Dup2Room w oldfd newfd := by
  unfold sysDup2 Dup2Room
  by_cases hbad : w.pid.isNone ∨ newfd < 0 ∨ newfd ≥ MAX_FDS
  · rw [if_pos hbad]
    refine iff_of_true (cleanDup_fail w oldfd) (.inl ?_)
    rcases hbad with h | h | h
    · exact .inl h
    · exact .inr (.inl h)
    · exact .inr (.inr (.inl h))
  · rw [if_neg hbad]
    cases hfile : fileOf w oldfd with
    | none => exact iff_of_true (cleanDup_fail w oldfd) (.inl (.inr (.inr (.inr rfl))))
    | some f =>
      obtain ⟨-, holdpos, hold⟩ := fileOf_some hfile
      have hpos : 0 ≤ newfd := by
        by_contra hneg
        exact hbad (.inr (.inl (not_le.mp hneg)))
      have hnobad : ¬ (w.pid.isNone ∨ newfd < 0 ∨ newfd ≥ MAX_FDS ∨ some f = none) := by
        rintro (h | h | h | h)
        · exact hbad (.inl h)
        · exact hbad (.inr (.inl h))
        · exact hbad (.inr (.inr h))
        · cases h
      rw [or_iff_right hnobad]
      dsimp only
      cases hnew : w.fds newfd.toNat with
      | none =>
        -- The target is free, and so it is not the old descriptor.
        have hne : oldfd.toNat ≠ newfd.toNat := by
          intro heq
          rw [heq, hnew] at hold
          cases hold
        have hcall : CleanDup w oldfd (newfd, dupInto w f newfd.toNat) ↔
            (w.vfs.files f).inode.isSome ∧ freeSlot w.vfs ≠ none := by
          rw [cleanDup_iff hpos]
          exact duplicated_iff hold hne
        dsimp only
        rw [hold]
        refine hcall.trans ?_
        constructor
        · rintro ⟨hinode, hslot⟩
          exact ⟨fun heq => hne (congrArg Int.toNat heq), Option.some_ne_none f,
            ⟨f, rfl, hinode⟩, .inl hslot⟩
        · rintro ⟨-, -, ⟨f', hf', hinode⟩, hslot | ⟨g, -, hg⟩⟩
          · cases hf'
            exact ⟨hinode, hslot⟩
          · cases hg
      | some g =>
        dsimp only
        by_cases hsame : oldfd = newfd
        · -- The entry has just been emptied.
          subst hsame
          have hgone :
              ({ w with vfs := vfsClose w.vfs g }.setFd oldfd.toNat none).fds oldfd.toNat =
              none :=
            setFd_same _ _ _
          rw [hgone]
          dsimp only
          rw [cleanDup_iff hpos]
          refine iff_of_false ?_ (fun h => h.1 rfl)
          rintro ⟨-, g', -, -, -, -, hnull, -⟩
          rw [setFd_same] at hnull
          cases hnull
        · have hne : oldfd.toNat ≠ newfd.toNat := by omega
          have hold' :
              ({ w with vfs := vfsClose w.vfs g }.setFd newfd.toNat none).fds oldfd.toNat =
              some f :=
            (setFd_of_ne _ _ hne).trans hold
          rw [hold']
          change CleanDup w oldfd (newfd, dupInto (closeTarget w newfd.toNat g) f newfd.toNat) ↔ _
          rw [cleanDup_iff hpos]
          by_cases hfg : f = g
          · subst hfg
            refine iff_of_false not_duplicated_self ?_
            rintro ⟨-, hdiff, -⟩
            exact hdiff hold
          · rw [duplicated_closeTarget hold hne hfg, hold]
            constructor
            · rintro ⟨hinode, hroom⟩
              refine ⟨hsame, ?_, ⟨f, rfl, hinode⟩, hroom.imp_right fun hg => ⟨g, hg, rfl⟩⟩
              simpa using hfg
            · rintro ⟨-, -, ⟨f', hf', hinode⟩, hroom⟩
              cases hf'
              refine ⟨hinode, hroom.imp_right ?_⟩
              rintro ⟨g', hlt, hg'⟩
              cases hg'
              exact hlt

/-- `SYS_DUP` and `SYS_DUP2` duplicate or fail cleanly where there is room for the file and
the target is another one. -/
theorem dup_clean_iff (w : FdWorld σ ι) (oldfd newfd : Int) :
    (CleanDup w oldfd (sysDup w oldfd) ↔ DupRoom w oldfd) ∧
      (CleanDup w oldfd (sysDup2 w oldfd newfd) ↔ Dup2Room w oldfd newfd) :=
  ⟨sysDup_clean_iff w oldfd, sysDup2_clean_iff w oldfd newfd⟩

/-- A task with one open file on descriptor 0. -/
def oneFd : FdWorld Unit Unit where
  vfs :=
    { fs := ()
      mounts := []
      files := fun i =>
        { inode := if i = 0 then some () else none, offset := 0, flags := VFS_O_READ }
      fileCount := 1 }
  fds := fun i => if i = 0 then some 0 else none
  pid := some 1
  console := []

/-- `dup2(0, 0)` returns 0 and closes the descriptor. -/
theorem dup2_self_not_clean : (sysDup2 oneFd 0 0).1 = 0 ∧ (sysDup2 oneFd 0 0).2.fds 0 = none ∧
    ¬ CleanDup oneFd 0 (sysDup2 oneFd 0 0) := by
  refine ⟨rfl, rfl, fun h => ?_⟩
  obtain ⟨-, g, -, -, -, -, hnew, -⟩ := h.1 (le_refl 0)
  cases hnew

end Lumin.Proc
