import Lumin.Fs.Refs
import Lumin.Fs.SlashRuns

/-!
# The child mounts of a directory listing

After the entries of the filesystem `vfs_readdir` lists the mounts directly below the
path.  It takes a mount whose path begins with the text of the path, skips slashes and
asks for a rest without one.  It does not ask for a slash between the two, so that a mount
at `/dev` is listed in `/d`, with the name `ev`.
-/

namespace Lumin.Fs.Refs

variable {σ ι : Type} [DecidableEq ι]

/-! ## What the listing is for -/

/-- The parent path and the last component of a mount path; `none` if it ends in a slash. -/
def splitMount (mp : CStr) : Option (CStr × CStr) :=
  let name := (mp.reverse.takeWhile (· ≠ SLASH)).reverse
  let dir := (mp.reverse.dropWhile (· ≠ SLASH)).reverse
  if name = [] then none
  else some (if dropTrailing dir = [] then dir.take 1 else dropTrailing dir, name)

/-- The last component of the mount's path, if its parent path is `p`. -/
def childOf (p : CStr) (m : Mount ι) : Option CStr :=
  match splitMount m.path with
  | some (dir, name) => if dir = p then some name else none
  | none => none

/-- The entry of a mount. -/
def mountEntry (name : CStr) : Dentry := { name := name, ino := 0, type := .dir, size := 0 }

/-- The mount is listed in `p` exactly if it is a child of `p`, and under its whole name: its
path is not that of `p` with more letters, and the name fits the entry. -/
def ListedRight (p : CStr) (m : Mount ι) : Prop :=
  (p ≠ [SLASH] → ∀ c, m.path = p ++ c → c ≠ [] → SLASH ∈ c) ∧ ∀ c, childOf p m = some c →
    c.length ≤ 255

/-- A path without trailing slash, or the root. -/
def DirPath (p : CStr) : Prop := p = [SLASH] ∨ (p ≠ [] ∧ p.getLast? ≠ some SLASH)

/-! ## The two tests for a child -/

variable {p c : CStr} {m : Mount ι}

/-- A name, a single component. -/
def IsName (c : CStr) : Prop := c ≠ [] ∧ SLASH ∉ c

theorem IsName.head (h : IsName c) : c.head? ≠ some SLASH := by
  intro hhead
  obtain ⟨rest, rfl⟩ := List.head?_eq_some_iff.mp hhead
  exact h.2 List.mem_cons_self

omit [DecidableEq ι] in
/-- The test of `vfs_readdir`. -/
theorem directChild_eq_some_iff :
    directChild p m = some c ↔ IsName c ∧ ∃ k, m.path = p ++ (List.replicate k SLASH ++ c) := by
  unfold directChild
  dsimp only
  constructor
  · intro h
    split at h
    · rename_i hchild
      obtain ⟨hbegins, hne, hslash⟩ := hchild
      obtain ⟨rest, hrest⟩ := List.isPrefixOf_iff_prefix.mp hbegins
      rw [← hrest, List.drop_left] at h hne hslash
      obtain rfl := Option.some.inj h
      refine ⟨⟨hne, hslash⟩, (rest.takeWhile (· = SLASH)).length, ?_⟩
      have hslashes :
          rest.takeWhile (· = SLASH) = List.replicate (rest.takeWhile (· = SLASH)).length SLASH :=
        List.eq_replicate_of_mem fun b hb => by simpa using List.mem_takeWhile_imp hb
      rw [← hslashes, List.takeWhile_append_dropWhile, hrest]
    · cases h
  · rintro ⟨hname, k, hpath⟩
    have hdrop : (m.path.drop p.length).dropWhile (· = SLASH) = c := by
      rw [hpath, List.drop_left, (takeWhile_slashes k hname.head).2]
    have hbegins : p.isPrefixOf m.path = true := by
      rw [List.isPrefixOf_iff_prefix, hpath]
      exact List.prefix_append _ _
    rw [hdrop, if_pos ⟨hbegins, hname.1, hname.2⟩]

/-- The text that a child mount of `p` begins with. -/
def baseOf (p : CStr) : CStr := if p = [SLASH] then [] else p

theorem exists_dropTrailing (x : CStr) :
    (∃ k, x = dropTrailing x ++ List.replicate k SLASH) ∧
      (dropTrailing x).getLast? ≠ some SLASH := by
  have hsplit :=
    List.takeWhile_append_dropWhile (p := fun b : UInt8 => decide (b = SLASH)) (l := x.reverse)
  have hslashes :
      x.reverse.takeWhile (· = SLASH) =
      List.replicate (x.reverse.takeWhile (· = SLASH)).length SLASH :=
    List.eq_replicate_of_mem fun b hb => by simpa using List.mem_takeWhile_imp hb
  refine ⟨⟨(x.reverse.takeWhile (· = SLASH)).length, ?_⟩, ?_⟩
  · have hback := congrArg List.reverse hsplit
    rw [List.reverse_append, List.reverse_reverse] at hback
    rw [← List.reverse_replicate, ← hslashes, dropTrailing]
    exact hback.symm
  · rw [dropTrailing, List.getLast?_reverse]
    have hhead := List.head?_dropWhile_not (fun b : UInt8 => decide (b = SLASH)) x.reverse
    intro h
    rw [h] at hhead
    simp at hhead

/-- Splitting a path whose last component is `c`. -/
theorem splitMount_append (hc : IsName c) {dir : CStr}
    (hdir : dir = [] ∨ dir.getLast? = some SLASH) :
    splitMount (dir ++ c) =
      some (if dropTrailing dir = [] then dir.take 1 else dropTrailing dir, c) := by
  have hall : ∀ b ∈ c.reverse, decide (b ≠ SLASH) = true := fun b hb => by
    have hne : b ≠ SLASH := fun h => hc.2 (h ▸ List.mem_reverse.mp hb)
    simpa using hne
  have hstop :
      dir.reverse.takeWhile (· ≠ SLASH) = [] ∧
        dir.reverse.dropWhile (· ≠ SLASH) = dir.reverse := by
    cases hdir with
    | inl hnil => rw [hnil]; exact ⟨rfl, rfl⟩
    | inr hlast =>
      obtain ⟨front, rfl⟩ := List.getLast?_eq_some_iff.mp hlast
      rw [List.reverse_append, List.reverse_singleton, List.singleton_append,
        List.takeWhile_cons_of_neg (by simp), List.dropWhile_cons_of_neg (by simp)]
      exact ⟨rfl, rfl⟩
  rw [splitMount, List.reverse_append, List.takeWhile_append_of_pos hall,
    List.dropWhile_append_of_pos hall,
    hstop.1, hstop.2, List.append_nil, List.reverse_reverse, List.reverse_reverse, if_neg hc.1]

/-- Every path is cut behind its last slash. -/
theorem exists_splitMount {mp dir : CStr} (h : splitMount mp = some (dir, c)) :
    ∃ front, mp = front ++ c ∧ IsName c ∧ (front = [] ∨ front.getLast? = some SLASH) := by
  have hsplit :=
    List.takeWhile_append_dropWhile (p := fun b : UInt8 => decide (b ≠ SLASH)) (l := mp.reverse)
  have hback := congrArg List.reverse hsplit
  rw [List.reverse_append, List.reverse_reverse] at hback
  unfold splitMount at h
  dsimp only at h
  split at h
  · cases h
  · rename_i hne
    obtain ⟨-, rfl⟩ := Prod.mk.inj (Option.some.inj h)
    refine ⟨(mp.reverse.dropWhile (· ≠ SLASH)).reverse, hback.symm, ⟨hne, fun hmem => ?_⟩, ?_⟩
    · simpa using List.mem_takeWhile_imp (List.mem_reverse.mp hmem)
    · have hhead := List.head?_dropWhile_not (fun b : UInt8 => decide (b ≠ SLASH)) mp.reverse
      cases hdrop : mp.reverse.dropWhile (· ≠ SLASH) with
      | nil => exact Or.inl rfl
      | cons b rest =>
        rw [hdrop] at hhead
        right
        rw [List.getLast?_reverse]
        simpa using hhead

omit [DecidableEq ι] in
theorem childOf_eq_some_iff (hp : DirPath p) :
    childOf p m = some c ↔
      IsName c ∧ ∃ k, m.path = baseOf p ++ (List.replicate (k + 1) SLASH ++ c) := by
  have hparent : ∀ dir : CStr, dir = [] ∨ dir.getLast? = some SLASH →
      ((if dropTrailing dir = [] then dir.take 1 else dropTrailing dir) = p ↔
        ∃ k, dir = baseOf p ++ List.replicate (k + 1) SLASH) := by
    intro dir hdir
    obtain ⟨⟨j, hj⟩, hlast⟩ := exists_dropTrailing dir
    have hne : p ≠ [] := by
      rcases hp with rfl | ⟨hne, -⟩
      · exact List.cons_ne_nil _ _
      · exact hne
    constructor
    · intro heq
      split at heq
      · rename_i hnil
        rw [hnil, List.nil_append] at hj
        cases j with
        | zero =>
          rw [hj] at heq
          exact absurd heq.symm hne
        | succ j =>
          rw [hj] at heq
          have hroot : p = [SLASH] := heq.symm
          exact ⟨j, by rw [baseOf, if_pos hroot, List.nil_append, hj]⟩
      · rename_i hsome
        rw [heq] at hj hlast
        have hroot : p ≠ [SLASH] := fun h => hlast (by rw [h]; rfl)
        cases j with
        | zero =>
          rw [List.replicate_zero, List.append_nil] at hj
          rw [hj] at hdir
          rcases hdir with hnil | hslash
          · exact absurd hnil hne
          · exact absurd hslash hlast
        | succ j => exact ⟨j, by rw [baseOf, if_neg hroot]; exact hj⟩
    · rintro ⟨k, hk⟩
      by_cases hroot : p = [SLASH]
      · rw [baseOf, if_pos hroot] at hk
        have hdrop : dropTrailing dir = [] := by rw [hk]; exact dropTrailing_append (by simp) _
        rw [if_pos hdrop, hk, hroot]
        rfl
      · rw [baseOf, if_neg hroot] at hk
        have hend := (hp.resolve_left hroot).2
        have hdrop : dropTrailing dir = p := by rw [hk]; exact dropTrailing_append hend _
        rw [hdrop, if_neg hne]
  rw [childOf]
  constructor
  · intro h
    split at h
    · rename_i dir name hsplit
      split at h
      · rename_i heq
        obtain rfl := Option.some.inj h
        obtain ⟨front, hpath, hname, hfront⟩ := exists_splitMount hsplit
        rw [hpath, splitMount_append hname hfront] at hsplit
        obtain ⟨k, hk⟩ :=
          (hparent front hfront).mp ((Prod.mk.inj (Option.some.inj hsplit)).1.trans heq)
        exact ⟨hname, k, by rw [hpath, hk, List.append_assoc]⟩
      · cases h
    · cases h
  · rintro ⟨hname, k, hpath⟩
    have hfront : baseOf p ++ List.replicate (k + 1) SLASH = [] ∨
        (baseOf p ++ List.replicate (k + 1) SLASH).getLast? = some SLASH := by
      right
      rw [List.replicate_succ', ← List.append_assoc]
      exact List.getLast?_concat
    rw [hpath, ← List.append_assoc, splitMount_append hname hfront]
    exact if_pos ((hparent _ hfront).mpr ⟨k, rfl⟩)

/-! ## The two lists -/

omit [DecidableEq ι] in
/-- A child is found by the test of `vfs_readdir`, and that test finds no other mount
unless its path is `p` with more letters. -/
theorem directChild_cases (hp : DirPath p) :
    directChild p m = childOf p m ∨
      (childOf p m = none ∧ p ≠ [SLASH] ∧ ∃ c, m.path = p ++ c ∧ IsName c ∧
        directChild p m = some c) := by
  have hsub : ∀ c, childOf p m = some c → directChild p m = some c := by
    intro c hc
    obtain ⟨hname, k, hpath⟩ := (childOf_eq_some_iff hp).mp hc
    rw [directChild_eq_some_iff]
    by_cases hroot : p = [SLASH]
    · rw [baseOf, if_pos hroot, List.nil_append] at hpath
      exact ⟨hname, k, by rw [hpath, hroot]; rfl⟩
    · rw [baseOf, if_neg hroot] at hpath
      exact ⟨hname, k + 1, hpath⟩
  cases hd : directChild p m with
  | none =>
    cases hc : childOf p m with
    | none => exact Or.inl rfl
    | some c => exact absurd (hsub c hc) (by rw [hd]; simp)
  | some c =>
    obtain ⟨hname, k, hpath⟩ := directChild_eq_some_iff.mp hd
    by_cases hroot : p = [SLASH]
    · left
      symm
      rw [childOf_eq_some_iff hp, baseOf, if_pos hroot]
      exact ⟨hname, k, by rw [hpath, hroot]; rfl⟩
    · cases k with
      | succ k =>
        left
        symm
        rw [childOf_eq_some_iff hp, baseOf, if_neg hroot]
        exact ⟨hname, k, hpath⟩
      | zero =>
        rw [List.replicate_zero, List.nil_append] at hpath
        refine Or.inr ⟨?_, hroot, c, hpath, hname, rfl⟩
        cases hc : childOf p m with
        | none => rfl
        | some c' =>
          obtain ⟨-, k, hpath'⟩ := (childOf_eq_some_iff hp).mp hc
          rw [baseOf, if_neg hroot, hpath] at hpath'
          have hslash : SLASH ∈ c := by
            rw [List.append_cancel_left hpath']
            exact List.mem_append_left _ List.mem_cons_self
          exact absurd hslash hname.2

/-- `f` picks what `g` picks and maybe more: the lists agree exactly when it picks no more
and `t` changes nothing. -/
theorem filterMap_eq_iff {α β : Type} {f g : α → Option β} {t : β → β} {l : List α}
    (h : ∀ x ∈ l, f x = g x ∨ g x = none) :
    (l.filterMap f).map t = l.filterMap g ↔ ∀ x ∈ l, f x = g x ∧ ∀ b, g x = some b → t b = b := by
  have hlength : ∀ l : List α, (∀ x ∈ l, f x = g x ∨ g x = none) →
      (l.filterMap g).length ≤ (l.filterMap f).length := by
    intro l hl
    induction l with
    | nil => exact le_refl _
    | cons x l ih =>
      have hrest := ih fun y hy => hl y (List.mem_cons_of_mem _ hy)
      rw [List.filterMap_cons, List.filterMap_cons]
      rcases hl x List.mem_cons_self with heq | hnone
      · rw [heq]
        cases g x with
        | none => exact hrest
        | some b => exact Nat.succ_le_succ hrest
      · rw [hnone]
        cases f x with
        | none => exact hrest
        | some b => exact Nat.le_succ_of_le hrest
  induction l with
  | nil => simp
  | cons x l ih =>
    have hl : ∀ y ∈ l, f y = g y ∨ g y = none := fun y hy => h y (List.mem_cons_of_mem _ hy)
    have hrest := ih hl
    rw [List.forall_mem_cons, List.filterMap_cons, List.filterMap_cons]
    cases hf : f x with
    | none =>
      have hg : g x = none := by
        rcases h x List.mem_cons_self with heq | hnone
        · rw [← heq, hf]
        · exact hnone
      simpa [hg] using hrest
    | some b =>
      cases hg : g x with
      | none =>
        -- One entry more, so the lists are not equally long.
        refine iff_of_false (fun heq => ?_) fun hboth => by simp at hboth
        have hle := hlength l hl
        have hsize := congrArg List.length heq
        simp only [List.length_map, List.length_cons] at hsize
        omega
      | some b' =>
        obtain rfl : b = b' := by
          rcases h x List.mem_cons_self with heq | hnone
          · rw [hf, hg] at heq
            exact Option.some.inj heq
          · rw [hg] at hnone
            cases hnone
        simpa using and_congr_right fun _ => hrest

/-! ## The listing -/

/-- The calls of `vfs_readdir` from the index `n` on list these names, each once. -/
def Lists (fs : Filesystems σ ι) (w : World σ ι) (p : CStr) (n turns : Nat) (names : List CStr) :
    Prop :=
  ∀ k, (vfsReaddir fs w p (n + k) turns).map Prod.fst = some (names[k]?.map mountEntry)

variable {fs : Filesystems σ ι} {w w₁ w₂ : World σ ι} {inode : ι} {n turns : Nat}

/-- Path resolution leaves the mount table as it is. -/
theorem keepsMounts (fs : Filesystems σ ι) (ms : List (Mount ι)) :
    Rules fs fun (w : World σ ι) _ => w.vfs.mounts = ms where
  perm hw _ := hw
  ref hw _ := hw
  unref hw := (vfsInodeUnref_mounts fs _ _).trans hw
  lookup hw _ _ _ := hw

omit [DecidableEq ι] in
theorem countEntries_mounts {first : Nat}
    (h : countEntries fs inode turns first w = some (n, w₂)) :
    w₂.vfs.mounts = w.vfs.mounts := by
  induction turns generalizing first w with
  | zero => cases h
  | succ turns ih =>
    rw [countEntries] at h
    split at h
    · obtain ⟨-, rfl⟩ := Prod.mk.inj (Option.some.inj h)
      rfl
    · have hrest := ih h
      exact hrest

/-- A call with an index behind the entries of the filesystem. -/
theorem vfsReaddir_mount (hres : resolveFull fs w p = (some inode, w₁))
    (htype : fs.type w₁.heap.fs inode = .dir)
    (hhas : fs.has w₁.heap.fs inode .readdir = true)
    (hcount : countEntries fs inode turns 0 w₁ = some (n, w₂))
    (k : Nat) :
    (vfsReaddir fs w p (n + k) turns).map Prod.fst =
      some ((((w.vfs.mounts.tail.filterMap (directChild p)).map fun c => c.take 255)[k]?).map
        mountEntry) := by
  have hmounts : w₂.vfs.mounts = w.vfs.mounts := by
    have hwalk := (keepsMounts fs w.vfs.mounts).resolveFull (w := w) rfl p
    rw [hres] at hwalk
    exact (countEntries_mounts hcount).trans hwalk
  have hdir : ¬ (fs.type w₁.heap.fs inode ≠ .dir ∨ fs.has w₁.heap.fs inode .readdir = false) := by
    simp [htype, hhas]
  have hindex : ¬ n + k < n := by omega
  rw [vfsReaddir, hres]
  dsimp only
  rw [if_neg hdir, hcount]
  dsimp only
  rw [if_neg hindex, Option.map_some, hmounts, Nat.add_sub_cancel_left, List.getElem?_map,
    Option.map_map]
  rfl

theorem mountEntry_injective : Function.Injective mountEntry :=
  fun _ _ h => congrArg Dentry.name h

/-- For every mount table and every directory path without trailing slash, or the root: the
entries behind those of the filesystem are exactly the child mounts, in mount order, if
and only if each mount after the first is listed right. -/
theorem vfsReaddir_lists_iff (hp : DirPath p) (hres : resolveFull fs w p = (some inode, w₁))
    (htype : fs.type w₁.heap.fs inode = .dir) (hhas : fs.has w₁.heap.fs inode .readdir = true)
    (hcount : countEntries fs inode turns 0 w₁ = some (n, w₂)) :
    Lists fs w p n turns (w.vfs.mounts.tail.filterMap (childOf p)) ↔
      ∀ m ∈ w.vfs.mounts.tail, ListedRight p m := by
  have hlists : Lists fs w p n turns (w.vfs.mounts.tail.filterMap (childOf p)) ↔
      (w.vfs.mounts.tail.filterMap (directChild p)).map (fun c => c.take 255) =
        w.vfs.mounts.tail.filterMap (childOf p) := by
    constructor
    · intro h
      refine List.ext_getElem? fun k => ?_
      have hk := h k
      rw [vfsReaddir_mount hres htype hhas hcount, Option.some.injEq] at hk
      exact Option.map_injective mountEntry_injective hk
    · intro h k
      rw [vfsReaddir_mount hres htype hhas hcount, h]
  rw [hlists, filterMap_eq_iff fun m _ => (directChild_cases (m := m) hp).imp id And.left]
  refine forall₂_congr fun m _ => ?_
  have htake : (∀ c, childOf p m = some c → c.take 255 = c) ↔ ∀ c, childOf p m = some c →
      c.length ≤ 255 := by
    refine forall₂_congr fun c _ => ?_
    exact List.take_eq_self_iff c
  rw [htake, ListedRight]
  refine and_congr ?_ Iff.rfl
  constructor
  · intro hsame hroot c hpath hne
    by_contra hslash
    have hlisted : directChild p m = some c :=
      directChild_eq_some_iff.mpr ⟨⟨hne, hslash⟩, 0, hpath⟩
    rw [hsame, childOf_eq_some_iff hp, baseOf, if_neg hroot] at hlisted
    obtain ⟨-, k, hpath'⟩ := hlisted
    rw [hpath] at hpath'
    exact hslash
      (by rw [List.append_cancel_left hpath']; exact List.mem_append_left _ List.mem_cons_self)
  · intro h
    rcases directChild_cases (m := m) hp with heq | ⟨-, hroot, c, hpath, hname, -⟩
    · exact heq
    · exact absurd (h hroot c hpath hname.1) hname.2

/-- A filesystem of empty directories, in which every name leads to the directory 1. -/
def emptyDirs : Filesystems Bool Nat :=
  { smallFs with
    type := fun _ _ => .dir
    has := fun _ _ _ => true
    lookup := fun h _ _ => (some 1, h)
    readdir := fun h _ _ => (none, h) }

/-- It is mounted at the root, and another one at `/dev`. -/
def devWorld : World Bool Nat :=
  { smallWorld with
    vfs := { smallWorld.vfs with mounts := [{ path := [SLASH], root := 0 },
      { path := [47, 100, 101, 118], root := 2 }] } }

/-- The root has the one entry `dev`. -/
theorem vfsReaddir_lists_iff_dev :
    DirPath [SLASH] ∧ Lists emptyDirs devWorld [SLASH] 0 1 [[100, 101, 118]] ∧
      ∀ m ∈ devWorld.vfs.mounts.tail, ListedRight [SLASH] m := by
  have hp : DirPath [SLASH] := Or.inl rfl
  have hchild : childOf [SLASH] { path := [47, 100, 101, 118], root := 2 : Mount Nat } =
      some [100, 101, 118] := by
    decide
  have hright : ∀ m ∈ devWorld.vfs.mounts.tail, ListedRight [SLASH] m := by
    intro m hm
    obtain rfl : m = { path := [47, 100, 101, 118], root := 2 } := List.mem_singleton.mp hm
    refine ⟨fun h => absurd rfl h, fun c hc => ?_⟩
    obtain rfl := Option.some.inj (hchild.symm.trans hc)
    decide
  have hlists : Lists emptyDirs devWorld [SLASH] 0 1
      (devWorld.vfs.mounts.tail.filterMap (childOf [SLASH])) :=
    (vfsReaddir_lists_iff hp rfl rfl rfl rfl).mpr hright
  have hnames : devWorld.vfs.mounts.tail.filterMap (childOf [SLASH]) = [[100, 101, 118]] :=
    List.filterMap_cons_some hchild
  exact ⟨hp, hnames ▸ hlists, hright⟩

/-- In the directory `/d` the mount `/dev` is listed with the name `ev`. -/
theorem dev_listed_in_d :
    ¬ ∀ (σ ι : Type) (_ : DecidableEq ι) (fs : Filesystems σ ι) (w w₁ w₂ : World σ ι) (p : CStr)
      (inode : ι)
      (n turns : Nat), DirPath p → resolveFull fs w p = (some inode, w₁) →
        fs.type w₁.heap.fs inode = .dir →
      fs.has w₁.heap.fs inode .readdir = true → countEntries fs inode turns 0 w₁ = some (n, w₂) →
      Lists fs w p n turns (w.vfs.mounts.tail.filterMap (childOf p)) := by
  intro h
  have hlists :=
    h Bool Nat inferInstance emptyDirs devWorld _ _ [47, 100] 1 0 1
    (Or.inr (by decide)) rfl rfl rfl
    rfl 0
  rw [vfsReaddir_mount rfl (show emptyDirs.type _ 1 = .dir from rfl) rfl
    (show countEntries emptyDirs 1 1 0 _ = some (0, _) from rfl)] at hlists
  revert hlists
  decide

end Lumin.Fs.Refs
