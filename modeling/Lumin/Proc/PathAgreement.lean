import Lumin.Proc.Path

/-!
# Do the path system calls name the same object?

`SYS_OPEN`, `SYS_STAT` and `SYS_READDIR` hand the user's string to the VFS as it
is, and `resolve_full` reads a path without a leading slash from the root.  The
other path calls normalise the string against `cwd` first.  The two paths lead
to the same inode on every mount table and every filesystem exactly when they
are the same text, a missing leading slash apart (`slashed`).
-/

namespace Lumin.Proc

open Lumin.Fs

variable {ι : Type}

/-! ## What `resolve_full` depends on -/

/-- The absolute path that `resolve_full` walks, if the path is not empty. -/
def slashed (p : CStr) : Option CStr :=
  if p = [] then none else if p.head? = some SLASH then some p else some (SLASH :: p)

theorem dropWhile_head {p : CStr} (h : p.dropWhile (· = SLASH) ≠ []) :
    ∃ c rest, p.dropWhile (· = SLASH) = c :: rest ∧ c ≠ SLASH := by
  obtain ⟨c, rest, hc⟩ := List.exists_cons_of_ne_nil h
  refine ⟨c, rest, hc, ?_⟩
  have := List.head_dropWhile_not (fun c : UInt8 => decide (c = SLASH)) h
  simpa [hc] using this

/-- One turn of the loop leaves fewer bytes. -/
theorem drop_name_length {p : CStr} (h : p.dropWhile (· = SLASH) ≠ []) :
    ((p.dropWhile (· = SLASH)).drop
      (((p.dropWhile (· = SLASH)).takeWhile (· ≠ SLASH)).take (VFS_NAME_MAX - 1)).length).length <
      p.length := by
  obtain ⟨c, rest, hc, hne⟩ := dropWhile_head h
  have hle := (List.dropWhile_sublist (l := p) (fun c : UInt8 => decide (c = SLASH))).length_le
  have htake : 0 < (((c :: rest).takeWhile (· ≠ SLASH)).take (VFS_NAME_MAX - 1)).length := by
    rw [List.takeWhile_cons_of_pos (by simpa using hne)]
    simp [VFS_NAME_MAX]
  rw [hc] at hle ⊢
  rw [List.length_drop]
  have : 0 < (c :: rest).length := by simp
  omega

/-- The loop has enough turns when it has one for each byte. -/
theorem resolveWalk_fuel (v : Vfs ι) (fuel : Nat) :
    ∀ fuel' path full cur, path.length ≤ fuel → path.length ≤ fuel' →
      resolveWalk v fuel path full cur = resolveWalk v fuel' path full cur := by
  induction fuel with
  | zero =>
    intro fuel' path full cur h _
    have hnil : path = [] := List.eq_nil_of_length_eq_zero (Nat.le_zero.mp h)
    cases fuel' with
    | zero => rfl
    | succ fuel' => rw [resolveWalk, resolveWalk, if_pos hnil]
  | succ fuel ih =>
    intro fuel' path full cur h h'
    by_cases hnil : path = []
    · cases fuel' with
      | zero => rw [resolveWalk, resolveWalk, if_pos hnil]
      | succ fuel' => rw [resolveWalk, resolveWalk, if_pos hnil, if_pos hnil]
    · have hpos := List.length_pos_of_ne_nil hnil
      obtain ⟨fuel', rfl⟩ : ∃ n, fuel' = n + 1 := ⟨fuel' - 1, by omega⟩
      rw [resolveWalk, resolveWalk, if_neg hnil, if_neg hnil]
      dsimp only
      split
      · rfl
      · rename_i hrest
        have hlt := drop_name_length hrest
        split
        · rfl
        · exact ih _ _ _ _ (by omega) (by omega)

theorem resolveFull_slash (v : Vfs ι) {p : CStr} (hne : p ≠ []) (hhead : p.head? ≠ some SLASH) :
    resolveFull v p = resolveFull v (SLASH :: p) := by
  obtain ⟨c, rest, rfl⟩ := List.exists_cons_of_ne_nil hne
  have hc : c ≠ SLASH := fun h => hhead (by rw [h]; rfl)
  unfold resolveFull
  rw [if_neg hne, if_neg (List.cons_ne_nil _ _)]
  cases v.mounts with
  | nil => rfl
  | cons rootMount mounts =>
    have hstep : ∀ r, resolveWalk v (c :: rest).length (c :: rest) [SLASH] r =
        resolveWalk v (SLASH :: c :: rest).length (SLASH :: c :: rest) [] r := by
      intro r
      rw [resolveWalk_fuel v _ (c :: rest).length.succ _ _ _ (le_refl _) (Nat.le_succ _)]
      rw [List.length_cons (a := SLASH), resolveWalk, resolveWalk]
      simp [hc, pushFull, VFS_PATH_MAX]
    dsimp only
    rw [if_neg hhead, if_pos (List.head?_cons ..), hstep]

theorem slashed_none {p : CStr} (h : slashed p = none) : p = [] := by
  unfold slashed at h
  split at h
  · assumption
  · split at h <;> cases h

theorem slashed_head {p s : CStr} (h : slashed p = some s) : s.head? = some SLASH := by
  unfold slashed at h
  split at h
  · cases h
  · split at h
    · cases h
      assumption
    · cases h
      rfl

theorem slashed_length {p s : CStr} (h : slashed p = some s) : s.length ≤ p.length + 1 := by
  unfold slashed at h
  split at h
  · cases h
  · split at h <;> cases h <;> simp

theorem resolveFull_of_slashed (v : Vfs ι) {p s : CStr} (h : slashed p = some s) :
    resolveFull v p = resolveFull v s := by
  unfold slashed at h
  split at h
  · cases h
  · rename_i hne
    split at h
    · cases h
      rfl
    · rename_i hhead
      cases h
      exact resolveFull_slash v hne hhead

/-- `resolve_full` sees a path only through `slashed`. -/
theorem resolveFull_congr (v : Vfs ι) {p q : CStr} (h : slashed p = slashed q) :
    resolveFull v p = resolveFull v q := by
  cases hp : slashed p with
  | none =>
    have hq : slashed q = none := h ▸ hp
    rw [slashed_none hp, slashed_none hq]
  | some s =>
    have hq : slashed q = some s := h ▸ hp
    rw [resolveFull_of_slashed v hp, resolveFull_of_slashed v hq]

/-! ## A mount table that tells two paths apart -/

/-- A root directory in which every name leads back to it, and a second
filesystem mounted at `x`. -/
def mountOnly (x : CStr) : Vfs Bool where
  mounts := [{ path := [SLASH], root := false }, { path := x, root := true }]
  isDir _ := true
  lookup _ _ := some false

theorem mountAt_mountOnly (x full : CStr) :
    mountAt (mountOnly x) full = if x = full then some true else none := by
  unfold mountAt mountOnly
  by_cases h : x = full <;> simp [h]

theorem enter_mountOnly (x name full : CStr) (cur : Bool) :
    enter (mountOnly x) cur name full = some (decide (x = full)) := by
  unfold enter
  rw [mountAt_mountOnly]
  by_cases h : x = full <;> simp [h, mountOnly]

theorem pushFull_of_le {full s : CStr} (h : full.length + s.length < VFS_PATH_MAX) :
    pushFull full s = full ++ s := by
  rw [pushFull, List.take_of_length_le (by omega)]

/-- The walk of a path of at most `x`'s length ends in the root directory, unless
the path is `x`. -/
theorem resolveWalk_mountOnly (x : CStr) (fuel : Nat) :
    ∀ path full cur, path.length ≤ fuel → full.length + path.length < VFS_PATH_MAX →
      ∃ c, resolveWalk (mountOnly x) fuel path full cur = some (c, full ++ path) ∧
        (full.length + path.length ≤ x.length → full ++ path ≠ x → cur = false → c = false) := by
  induction fuel with
  | zero =>
    intro path full cur h _
    have hnil : path = [] := List.eq_nil_of_length_eq_zero (Nat.le_zero.mp h)
    exact ⟨cur, by rw [resolveWalk, hnil, List.append_nil], fun _ _ hcur => hcur⟩
  | succ fuel ih =>
    intro path full cur h hmax
    rw [resolveWalk]
    by_cases hnil : path = []
    · rw [if_pos hnil]
      exact ⟨cur, by rw [hnil, List.append_nil], fun _ _ hcur => hcur⟩
    rw [if_neg hnil]
    dsimp only
    have hsplit :=
      List.takeWhile_append_dropWhile (p := fun c : UInt8 => decide (c = SLASH)) (l := path)
    have hlen := congrArg List.length hsplit
    rw [List.length_append] at hlen
    rw [pushFull_of_le (by omega)]
    by_cases hrest : path.dropWhile (· = SLASH) = []
    · rw [if_pos hrest]
      rw [hrest, List.append_nil] at hsplit
      exact ⟨cur, by rw [hsplit], fun _ _ hcur => hcur⟩
    rw [if_neg hrest, enter_mountOnly]
    have hlt := drop_name_length hrest
    -- The name that this turn takes, and the path up to it.
    generalize hname :
      ((path.dropWhile (· = SLASH)).takeWhile (· ≠ SLASH)).take (VFS_NAME_MAX - 1) =
      name at hlt ⊢
    have hjoin : name ++ (path.dropWhile (· = SLASH)).drop name.length =
        path.dropWhile (· = SLASH) := by
      rw [← hname]
      exact List.prefix_iff_eq_append.mp
        (( List.take_prefix _ _).trans ( List.takeWhile_prefix _))
    have hjlen := congrArg List.length hjoin
    rw [List.length_append] at hjlen
    rw [pushFull_of_le (by rw [List.length_append]; omega)]
    have hall : full ++ path.takeWhile (· = SLASH) ++ name ++
        (path.dropWhile (· = SLASH)).drop name.length = full ++ path := by
      rw [List.append_assoc, hjoin, List.append_assoc, hsplit]
    obtain ⟨c, hc, hfalse⟩ := ih ((path.dropWhile (· = SLASH)).drop name.length)
      (full ++ path.takeWhile (· = SLASH) ++ name)
      (decide (x = full ++ path.takeWhile (· = SLASH) ++ name)) (by omega)
      (by rw [List.length_append, List.length_append]; omega)
    rw [hall] at hc hfalse
    refine ⟨c, hc, fun hle hne _ => hfalse ?_ hne ?_⟩
    · rw [List.length_append, List.length_append]
      omega
    · rw [decide_eq_false_iff_not]
      intro hx
      -- A proper first part of the path is shorter than `x`.
      have hxlen := congrArg List.length hx
      rw [List.length_append, List.length_append] at hxlen
      have hend : (path.dropWhile (· = SLASH)).drop name.length = [] :=
        List.eq_nil_of_length_eq_zero (by omega)
      rw [hend, List.append_nil] at hall
      exact hne (hall.symm.trans hx.symm)

theorem resolveFull_mountOnly {x p s : CStr} (hs : slashed p = some s)
    (hmax : s.length < VFS_PATH_MAX) (hle : s.length ≤ x.length) :
    resolveFull (mountOnly x) p = some (decide (s = x)) := by
  have hhead := slashed_head hs
  have hne : s ≠ [] := by
    rintro rfl
    cases hhead
  rw [resolveFull_of_slashed _ hs, resolveFull, if_neg hne]
  obtain ⟨c, hc, hfalse⟩ := resolveWalk_mountOnly x s.length s [] false (le_refl _)
    (by simpa using hmax)
  rw [List.nil_append] at hc hfalse
  have hroot : (mountOnly x).mounts =
      [{ path := [SLASH], root := false }, { path := x, root := true }] := rfl
  simp only [hroot, if_pos hhead, hc]
  by_cases hx : s = x
  · simp [hx]
  · have hc := hfalse (by simpa using hle) hx rfl
    have hxs : ¬ x = s := fun h => hx h.symm
    by_cases hslash : [SLASH] = s
    · simp [hxs, hslash, hx]
    · simp [hxs, hslash, hc, hx]

/-! ## The two kinds of path -/

/-- For a given `cwd` and user path the two kinds of call reach the same inode, or
both fail, whatever is mounted. -/
def SameObject (stray : UInt8) (cwd p : CStr) : Prop :=
  ∀ (ι : Type) (v : Vfs ι), resolveFull v (rawPath p) = resolveFull v (cwdPath stray cwd p)

theorem rawPath_length (p : CStr) : (rawPath p).length ≤ 255 := List.length_take_le _ _

theorem cwdPath_length (stray : UInt8) (cwd p : CStr) : (cwdPath stray cwd p).length ≤ 255 :=
  List.length_take_le _ _

/-- The calls name the same object exactly when the user's path, with a leading
slash put in front of it where it has none, is not empty and is the normalised
path. -/
theorem sameObject_iff (stray : UInt8) (cwd p : CStr) :
    SameObject stray cwd p ↔ slashed (rawPath p) = slashed (cwdPath stray cwd p) := by
  constructor
  · intro h
    have hlen : VFS_PATH_MAX = 512 := rfl
    have hraw := rawPath_length p
    have hcwd := cwdPath_length stray cwd p
    cases hr : slashed (rawPath p) with
    | none =>
      cases hn : slashed (cwdPath stray cwd p) with
      | none => rfl
      | some t =>
        have := slashed_length hn
        have hres := h Bool (mountOnly t)
        rw [slashed_none hr, resolveFull_mountOnly hn (by omega) (le_refl _)] at hres
        cases hres
    | some s =>
      have := slashed_length hr
      cases hn : slashed (cwdPath stray cwd p) with
      | none =>
        have hres := h Bool (mountOnly s)
        rw [slashed_none hn, resolveFull_mountOnly hr (by omega) (le_refl _)] at hres
        cases hres
      | some t =>
        have := slashed_length hn
        -- A filesystem mounted at the longer of the two paths tells them apart.
        rcases Nat.le_total s.length t.length with hle | hle
        · have hres := h Bool (mountOnly t)
          rw [resolveFull_mountOnly hr (by omega) hle,
            resolveFull_mountOnly hn (by omega) (le_refl _)] at hres
          simpa using hres
        · have hres := h Bool (mountOnly s)
          rw [resolveFull_mountOnly hr (by omega) (le_refl _),
            resolveFull_mountOnly hn (by omega) hle] at hres
          simpa [eq_comm] using hres
  · intro h ι v
    exact resolveFull_congr v h

/-- With working directory `/a` the path `b` is `/b` for `SYS_OPEN` and `/a/b` for
`SYS_UNLINK`. -/
theorem relative_not_sameObject : ¬ SameObject 0 [SLASH, 97] [98] := by
  intro h
  have hres := h Bool (mountOnly [SLASH, 97, SLASH, 98])
  revert hres
  decide

end Lumin.Proc
