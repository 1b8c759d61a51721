import Lumin.Fs.SlashRuns

/-!
# `resolve_parent` and `resolve_full`

`resolve_parent` resolves the path up to its last component with the slash in front of it,
and `vfs_create`, `vfs_unlink` and `vfs_mkdir` look the component up there.
`resolve_full` walks the same components and looks the last one up itself, in the inode
where it is by then.  The two differ where the parent path is `/`: `resolve_full` begins
at the root of the first mount, but for the path `/` the last mount with that path counts.
-/

namespace Lumin.Fs

open Lumin.Proc

variable {ι : Type} {s : Part} {ss : List Part}

/-- The lookup of `c` in `d`, if `d` is a directory. -/
def lookupIn (v : Vfs ι) (d : ι) (c : CStr) : Option ι := if v.isDir d then v.lookup d c else none

/-- The name that `resolve_parent` gives to the child. -/
def childName (p : CStr) : CStr :=
  (((p.drop (parentPath p).length).dropWhile (· = SLASH)).takeWhile (· ≠ SLASH)).take
    (VFS_NAME_MAX - 1)

/-- `resolve_full` finds `x` exactly when `resolve_parent` finds a directory in which the
child is `x`. -/
def ParentAgrees (v : Vfs ι) (p : CStr) : Prop :=
  ∀ x, resolveFull v p = some x ↔
    ∃ d c, resolveParent v p = some (d, c) ∧ v.isDir d = true ∧ v.lookup d c = some x

/-- Where the parent path is `/`, the last mount with this path and the first mount of all
answer alike for the child. -/
def RootsAgree (v : Vfs ι) (p : CStr) : Prop :=
  parentPath p = [SLASH] → ∀ m, v.mounts.head? = some m →
    lookupIn v (override v [SLASH] m.root) (childName p) = lookupIn v m.root (childName p)

/-! ## The last component -/

theorem parentPath_spell (hs : s.Ok) (e : Nat) :
    parentPath (spell (ss ++ [s]) ++ List.replicate e SLASH) =
      spell ss ++ List.replicate s.slashes SLASH := by
  obtain ⟨k, hk⟩ : ∃ k, s.slashes = k + 1 := ⟨s.slashes - 1, Nat.eq_add_of_sub_eq hs.slashes rfl⟩
  have hname : s.name.reverse.head? ≠ some SLASH := by
    rw [List.head?_reverse]
    exact fun h => hs.noSlash (List.mem_of_getLast? h)
  have hback : (spell (ss ++ [s]) ++ List.replicate e SLASH).reverse =
      List.replicate e SLASH ++
        (s.name.reverse ++ (List.replicate s.slashes SLASH ++ (spell ss).reverse)) := by
    simp [Part.text]
  have hhead :
      (s.name.reverse ++ (List.replicate s.slashes SLASH ++ (spell ss).reverse)).head? ≠
      some SLASH := by
    rw [List.head?_append_of_ne_nil _ (by simpa using hs.ne_nil)]
    exact hname
  have hdrop :
      (s.name.reverse ++ (List.replicate s.slashes SLASH ++ (spell ss).reverse)).dropWhile
      (· ≠ SLASH) = List.replicate s.slashes SLASH ++ (spell ss).reverse := by
    rw [List.dropWhile_append_of_pos, hk, List.replicate_succ, List.cons_append,
      List.dropWhile_cons_of_neg (by simp)]
    intro b hb
    have hne : b ≠ SLASH := fun h => hs.noSlash (h ▸ List.mem_reverse.mp hb)
    simpa using hne
  have hne : List.replicate s.slashes SLASH ++ (spell ss).reverse ≠ [] := by
    rw [hk]
    exact List.cons_ne_nil _ _
  rw [parentPath, hback, (takeWhile_slashes e hhead).2, hdrop, if_neg hne]
  simp

theorem childName_spell (hs : s.Ok) (e : Nat) :
    childName (spell (ss ++ [s]) ++ List.replicate e SLASH) = s.name := by
  have hsplit : spell (ss ++ [s]) ++ List.replicate e SLASH =
      (spell ss ++ List.replicate s.slashes SLASH) ++ (s.name ++ List.replicate e SLASH) := by
    simp [Part.text]
  have hafter : AfterName (List.replicate e SLASH) := by
    have h := afterName_spell (show ∀ t ∈ ([] : List Part), t.Ok by simp) e
    rwa [spell_nil, List.nil_append] at h
  have hscan := takeWhile_slashes 0 (hs.head (List.replicate e SLASH))
  rw [List.replicate_zero, List.nil_append] at hscan
  rw [childName, parentPath_spell hs, hsplit, List.drop_left, hscan.2,
    takeWhile_name hs.noSlash hafter]
  exact List.take_of_length_le hs.length_le

/-! ## Both resolutions -/

theorem bind_lookupIn (v : Vfs ι) (r : Option (ι × CStr)) (x : ι) :
    (∃ d c, r = some (d, c) ∧ v.isDir d = true ∧ v.lookup d c = some x) ↔
      (r.bind fun y => lookupIn v y.1 y.2) = some x := by
  cases r with
  | none => simp
  | some y =>
    obtain ⟨d, c⟩ := y
    rw [Option.bind_some, lookupIn]
    by_cases hd : v.isDir d = true <;> simp [hd]

/-- `resolve_full` of a path that is no mount: the walk of all components but the last
one, and the lookup of that one. -/
theorem resolveFull_last (v : Vfs ι) (hok : ∀ t ∈ ss ++ [s], t.Ok) {e : Nat}
    (hlen : (spell (ss ++ [s]) ++ List.replicate e SLASH).length < VFS_PATH_MAX)
    (hname : spell (ss ++ [s]) ∉ v.mounts.map Mount.path)
    (hfull : spell (ss ++ [s]) ++ List.replicate e SLASH ∉ v.mounts.map Mount.path) :
    resolveFull v (spell (ss ++ [s]) ++ List.replicate e SLASH) =
      v.mounts.head?.bind fun m =>
        (walkSteps v (stepsFrom [] ss) m.root).bind fun d => lookupIn v d s.name := by
  have hcut : (spell ss ++ s.text).take (VFS_PATH_MAX - 1) = spell (ss ++ [s]) := by
    rw [List.length_append] at hlen
    rw [spell_append, spell_cons, spell_nil, List.append_nil] at hlen ⊢
    exact List.take_of_length_le (by omega)
  have hmount : mountAt v (spell (ss ++ [s])) = none :=
    (mountAt_eq_none_iff v _).mpr fun h => hname (List.mem_of_mem_tail h)
  rw [resolveFull_spell v hok (Or.inl (by simp)), List.take_of_length_le (by omega)]
  congr 1
  funext m
  have hid : override v (spell (ss ++ [s]) ++ List.replicate e SLASH) = id :=
    funext fun cur => override_of_notMem hfull cur
  rw [hid, Option.map_id, id_eq, stepsFrom_append, List.nil_append, walkSteps_append]
  congr 1
  funext d
  rw [stepsFrom, stepsFrom, hcut, walkSteps, enter, hmount]
  show (lookupIn v d s.name).bind (walkSteps v []) = _
  cases lookupIn v d s.name with
  | none => rfl
  | some x => rfl

theorem resolveParent_eq (v : Vfs ι) {p : CStr} (habs : p.head? = some SLASH) :
    resolveParent v p = (resolveFull v (parentPath p)).map fun dir => (dir, childName p) := by
  rw [resolveParent, if_neg (fun h => h habs)]
  rfl

/-- `resolve_parent` and the lookup of the child. -/
theorem resolveParent_last (v : Vfs ι) (hok : ∀ t ∈ ss ++ [s], t.Ok) (e : Nat)
    (hlen : (spell (ss ++ [s]) ++ List.replicate e SLASH).length < VFS_PATH_MAX) :
    ((resolveParent v (spell (ss ++ [s]) ++ List.replicate e SLASH)).bind fun y =>
      lookupIn v y.1 y.2) =
      v.mounts.head?.bind fun m =>
        (walkSteps v (stepsFrom [] ss) m.root).bind fun d =>
          lookupIn v (override v (spell ss ++ List.replicate s.slashes SLASH) d) s.name := by
  have hs : s.Ok := hok s (by simp)
  have hhead : (spell (ss ++ [s]) ++ List.replicate e SLASH).head? = some SLASH := by
    cases afterName_spell hok e with
    | inl hnil => simp [Part.text, hs.ne_nil] at hnil
    | inr hslash => exact hslash
  have hparent : (spell ss ++ List.replicate s.slashes SLASH).length ≤ VFS_PATH_MAX - 1 := by
    have htext : s.text.length = s.slashes + s.name.length := by simp [Part.text]
    rw [spell_append, spell_cons, spell_nil, List.append_nil, List.length_append,
      List.length_append, htext] at hlen
    rw [List.length_append, List.length_replicate]
    omega
  rw [resolveParent_eq v hhead, childName_spell hs, parentPath_spell hs,
    resolveFull_spell v (fun t ht => hok t (List.mem_append_left _ ht)) (Or.inr hs.slashes),
    List.take_of_length_le hparent]
  cases v.mounts.head? with
  | none => rfl
  | some m =>
    rw [Option.bind_some, Option.bind_some]
    cases walkSteps v (stepsFrom [] ss) m.root with
    | none => rfl
    | some d => rfl

/-- For every mount table whose mount paths other than the root do not end in a slash, and
every absolute path with a component that is no mount path without its trailing slashes:
the two resolutions agree exactly when the parent path is not `/`, or the two roots answer
alike. -/
theorem parentAgrees_iff (v : Vfs ι) {p : CStr}
    (hmounts : ∀ m ∈ v.mounts, m.path = [SLASH] ∨ m.path.getLast? ≠ some SLASH)
    (habs : p.head? = some SLASH) (hlen : p.length < VFS_PATH_MAX) (hcomp : ∃ b ∈ p, b ≠ SLASH)
    (hnames : ∀ c ∈ p.splitOn SLASH, c.length ≤ 255)
    (hp : dropTrailing p ∉ v.mounts.map Mount.path) :
    ParentAgrees v p ↔ RootsAgree v p := by
  obtain ⟨ss, e, rfl, hok⟩ := exists_spell (Or.inr habs) hnames
  obtain ⟨ss, s, rfl⟩ : ∃ init s, ss = init ++ [s] := by
    rcases List.eq_nil_or_concat' ss with hnil | hlast
    · obtain ⟨b, hb, hne⟩ := hcomp
      rw [hnil, spell_nil, List.nil_append] at hb
      exact absurd (List.eq_of_mem_replicate hb) hne
    · exact hlast
  have hs : s.Ok := hok s (by simp)
  -- The path itself is no mount path either.
  rw [dropTrailing_append (getLast?_spell hok)] at hp
  have hfull : spell (ss ++ [s]) ++ List.replicate e SLASH ∉ v.mounts.map Mount.path := by
    intro hmem
    cases e with
    | zero =>
      rw [List.replicate_zero, List.append_nil] at hmem
      exact hp hmem
    | succ e =>
      obtain ⟨m, hm, hpath⟩ := List.mem_map.mp hmem
      have hlast : m.path.getLast? = some SLASH := by
        rw [hpath, List.replicate_succ', ← List.append_assoc]
        exact List.getLast?_concat
      have hroot := (hmounts m hm).resolve_right fun h => h hlast
      have hsize := congrArg List.length (hpath.symm.trans hroot)
      have htext : s.text.length = s.slashes + s.name.length := by simp [Part.text]
      have hpos := List.length_pos_of_ne_nil hs.ne_nil
      rw [spell_append, spell_cons, spell_nil, List.append_nil, List.length_append,
        List.length_append, htext] at hsize
      simp at hsize
      omega
  have hboth : ParentAgrees v (spell (ss ++ [s]) ++ List.replicate e SLASH) ↔
      resolveFull v (spell (ss ++ [s]) ++ List.replicate e SLASH) =
        (resolveParent v (spell (ss ++ [s]) ++ List.replicate e SLASH)).bind fun y =>
          lookupIn v y.1 y.2 := by
    constructor
    · intro h
      refine Option.ext fun x => ?_
      rw [h x, bind_lookupIn]
    · intro h x
      rw [h, bind_lookupIn]
  rw [hboth, resolveFull_last v hok hlen hp hfull, resolveParent_last v hok e hlen, RootsAgree,
    parentPath_spell hs, childName_spell hs]
  by_cases hparent : spell ss ++ List.replicate s.slashes SLASH = [SLASH]
  · -- The parent is the root: no component is walked.
    have hnil : ss = [] := by
      by_contra hne
      have hpos :=
        List.length_pos_of_ne_nil
        (spell_ne_nil (fun t ht => hok t (List.mem_append_left _ ht)) hne)
      have hsize := congrArg List.length hparent
      have := hs.slashes
      rw [List.length_append, List.length_replicate, List.length_singleton] at hsize
      omega
    rw [hparent, hnil]
    cases v.mounts.head? with
    | none => simp
    | some m =>
      simp only [stepsFrom, walkSteps, Option.bind_some, Option.some.injEq, forall_eq',
        true_implies]
      exact eq_comm
  · refine iff_of_true ?_ fun h => absurd h hparent
    have hno : spell ss ++ List.replicate s.slashes SLASH ∉ v.mounts.map Mount.path := by
      intro hmem
      obtain ⟨m, hm, hpath⟩ := List.mem_map.mp hmem
      refine (hmounts m hm).elim (fun h => hparent (hpath.symm.trans h)) fun h => h ?_
      obtain ⟨k, hk⟩ : ∃ k, s.slashes = k + 1 :=
        ⟨s.slashes - 1, Nat.eq_add_of_sub_eq hs.slashes rfl⟩
      rw [hpath, hk, List.replicate_succ', ← List.append_assoc]
      exact List.getLast?_concat
    have hid : override v (spell ss ++ List.replicate s.slashes SLASH) = id :=
      funext fun cur => override_of_notMem hno cur
    rw [hid]
    rfl

/-- Without a second mount at `/` the two always agree. -/
theorem rootsAgree_of_single {v : Vfs ι} (h : [SLASH] ∉ (v.mounts.map Mount.path).tail)
    (p : CStr) : RootsAgree v p := by
  intro _ m hm
  rw [override_root hm h]

theorem parentAgrees_iff_file :
    ParentAgrees (mountOnly [47, 109]) [47, 97] ↔ RootsAgree (mountOnly [47, 109]) [47, 97] :=
  parentAgrees_iff (mountOnly [47, 109]) (by decide) rfl (by decide) (by decide) (by decide)
    (by decide)

/-- A second filesystem mounted at `/`: the file `/a` of the first one is looked up in the
second one when it is to be removed. -/
def overmounted : Vfs Nat where
  mounts := [⟨[SLASH], 0⟩, ⟨[SLASH], 1⟩]
  isDir := fun _ => true
  lookup := fun d name => if d = 0 ∧ name = [97] then some 2 else none

theorem overmounted_not_agrees :
    ¬ ∀ (ι : Type) (v : Vfs ι) (p : CStr),
      (∀ m ∈ v.mounts, m.path = [SLASH] ∨ m.path.getLast? ≠ some SLASH) → p.head? = some SLASH →
      p.length < VFS_PATH_MAX → (∃ b ∈ p, b ≠ SLASH) → (∀ c ∈ p.splitOn SLASH, c.length ≤ 255) →
      dropTrailing p ∉ v.mounts.map Mount.path → ParentAgrees v p := by
  intro h
  have hagrees :=
    h Nat overmounted [47, 97] (by decide) rfl (by decide) (by decide) (by decide) (by decide)
  obtain ⟨d, c, hparent, -, hlookup⟩ := (hagrees 2).mp (by decide)
  have hroot : resolveParent overmounted [47, 97] = some (1, [97]) := by decide
  rw [hroot] at hparent
  obtain ⟨rfl, rfl⟩ := Prod.mk.inj (Option.some.inj hparent)
  revert hlookup
  decide

end Lumin.Fs
