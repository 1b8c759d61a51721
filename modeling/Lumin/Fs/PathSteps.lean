import Lumin.Proc.PathAgreement
import Mathlib.Data.List.TakeWhile

/-!
# The steps of `resolve_full`

A path as its components, each with the slashes in front of it, and what `resolve_full`
does with it: one step for each component, with the text of the path up to there, and at
the end the mount whose path is the whole text.
-/

namespace Lumin.Fs

open Lumin.Proc

variable {ι : Type}

/-- A component and the number of slashes in front of it. -/
structure Part where
  slashes : Nat
  name : CStr

/-- The text of the part. -/
def Part.text (s : Part) : CStr := List.replicate s.slashes SLASH ++ s.name

/-- The text of the parts. -/
def spell (ss : List Part) : CStr := ss.flatMap Part.text

/-- A part that `resolve_full` takes in one turn of its loop. -/
structure Part.Ok (s : Part) : Prop where
  slashes : 0 < s.slashes
  ne_nil : s.name ≠ []
  noSlash : SLASH ∉ s.name
  length_le : s.name.length ≤ 255

/-- The component and `fullpath` of each step, from the text `full` on. -/
def stepsFrom (full : CStr) : List Part → List (CStr × CStr)
  | [] => []
  | s :: ss => (s.name, (full ++ s.text).take (VFS_PATH_MAX - 1)) :: stepsFrom (full ++ s.text) ss

/-- The component and `fullpath` of each turn of the loop of `resolve_full`, and `fullpath`
at the end. -/
def stepsOf : Nat → CStr → CStr → List (CStr × CStr) × CStr
  | 0, _, full => ([], full)
  | fuel + 1, path, full =>
    if path = [] then ([], full)
    else
      let full := pushFull full (path.takeWhile (· = SLASH))
      let path := path.dropWhile (· = SLASH)
      if path = [] then ([], full)
      else
        let name := (path.takeWhile (· ≠ SLASH)).take (VFS_NAME_MAX - 1)
        let full := pushFull full name
        let rest := stepsOf fuel (path.drop name.length) full
        ((name, full) :: rest.1, rest.2)

/-- The steps of the walk, one after the other. -/
def walkSteps (v : Vfs ι) : List (CStr × CStr) → ι → Option ι
  | [], cur => some cur
  | (name, full) :: steps, cur => (enter v cur name full).bind (walkSteps v steps)

/-- The end of `resolve_full`: the last mount with the path `full`, or else `cur`. -/
def override (v : Vfs ι) (full : CStr) (cur : ι) : ι :=
  match v.mounts.reverse.find? fun m => m.path = full with
  | some m => m.root
  | none => cur

variable {s : Part} {ss : List Part}

@[simp] theorem spell_nil : spell [] = [] := rfl

@[simp] theorem spell_cons (s : Part) (ss : List Part) : spell (s :: ss) = s.text ++ spell ss :=
  rfl

@[simp] theorem spell_append (ss ss' : List Part) : spell (ss ++ ss') = spell ss ++ spell ss' :=
  List.flatMap_append

theorem walkSteps_append (v : Vfs ι) (xs ys : List (CStr × CStr)) (cur : ι) :
    walkSteps v (xs ++ ys) cur = (walkSteps v xs cur).bind (walkSteps v ys) := by
  induction xs generalizing cur with
  | nil => rfl
  | cons x xs ih =>
    rw [List.cons_append, walkSteps, walkSteps, Option.bind_assoc]
    congr 1
    funext next
    exact ih next

theorem stepsFrom_append (full : CStr) (ss ss' : List Part) :
    stepsFrom full (ss ++ ss') = stepsFrom full ss ++ stepsFrom (full ++ spell ss) ss' := by
  induction ss generalizing full with
  | nil => simp [stepsFrom]
  | cons s ss ih =>
    rw [List.cons_append, stepsFrom, stepsFrom, ih, List.cons_append, spell_cons,
      List.append_assoc]

/-! ## The loop takes the parts -/

theorem pushFull_take (full s : CStr) :
    pushFull (full.take (VFS_PATH_MAX - 1)) s = (full ++ s).take (VFS_PATH_MAX - 1) := by
  rw [pushFull, List.take_append, List.length_take]
  congr 2
  omega

/-- The rest of a path after a component. -/
def AfterName (rest : CStr) : Prop := rest = [] ∨ rest.head? = some SLASH

theorem afterName_spell (hok : ∀ s ∈ ss, s.Ok) (e : Nat) :
    AfterName (spell ss ++ List.replicate e SLASH) := by
  cases ss with
  | nil =>
    cases e with
    | zero => exact Or.inl rfl
    | succ e => exact Or.inr rfl
  | cons s ss =>
    have hpos := (hok s List.mem_cons_self).slashes
    obtain ⟨k, hk⟩ : ∃ k, s.slashes = k + 1 := ⟨s.slashes - 1, by omega⟩
    refine Or.inr ?_
    rw [spell_cons, Part.text, hk]
    rfl

theorem takeWhile_name {name rest : CStr} (h : SLASH ∉ name) (hrest : AfterName rest) :
    (name ++ rest).takeWhile (· ≠ SLASH) = name := by
  have hall : ∀ b ∈ name, decide (b ≠ SLASH) = true := fun b hb => by
    simpa using fun heq : b = SLASH => h (heq ▸ hb)
  rw [List.takeWhile_append_of_pos hall]
  cases hrest with
  | inl hnil => rw [hnil, List.takeWhile_nil, List.append_nil]
  | inr hslash =>
    cases rest with
    | nil => cases hslash
    | cons b rest =>
      rw [List.head?_cons, Option.some.injEq] at hslash
      rw [hslash, List.takeWhile_cons_of_neg (by simp), List.append_nil]

theorem takeWhile_slashes (k : Nat) {x : CStr} (hx : x.head? ≠ some SLASH) :
    (List.replicate k SLASH ++ x).takeWhile (· = SLASH) = List.replicate k SLASH ∧
      (List.replicate k SLASH ++ x).dropWhile (· = SLASH) = x := by
  have hall : ∀ b ∈ List.replicate k SLASH, decide (b = SLASH) = true := fun b hb => by
    simpa using List.eq_of_mem_replicate hb
  rw [List.takeWhile_append_of_pos hall, List.dropWhile_append_of_pos hall]
  cases x with
  | nil => simp
  | cons b x =>
    have hb : b ≠ SLASH := by simpa using hx
    rw [List.takeWhile_cons_of_neg (by simpa using hb),
      List.dropWhile_cons_of_neg (by simpa using hb),
      List.append_nil]
    exact ⟨rfl, rfl⟩

theorem Part.Ok.head (h : s.Ok) (rest : CStr) : (s.name ++ rest).head? ≠ some SLASH := by
  obtain ⟨b, name, hname⟩ := List.exists_cons_of_ne_nil h.ne_nil
  have hslash := h.noSlash
  rw [hname, List.mem_cons, not_or] at hslash
  rw [hname, List.cons_append, List.head?_cons]
  simpa using fun heq : b = SLASH => hslash.1 heq.symm

/-- The loop of `resolve_full` makes its steps. -/
theorem resolveWalk_eq (v : Vfs ι) (fuel : Nat) (path full : CStr) (cur : ι) :
    resolveWalk v fuel path full cur =
      (walkSteps v (stepsOf fuel path full).1 cur).map
        fun c => (c, (stepsOf fuel path full).2) := by
  induction fuel generalizing path full cur with
  | zero => rfl
  | succ fuel ih =>
    rw [resolveWalk, stepsOf]
    split
    · rfl
    · dsimp only
      split
      · rfl
      · rw [walkSteps]
        split
        · rename_i henter
          rw [henter]
          rfl
        · rename_i next henter
          rw [henter]
          exact ih _ _ next

/-- The steps of a path of parts. -/
theorem stepsOf_spell (hok : ∀ s ∈ ss, s.Ok) (e fuel : Nat) (full : CStr)
    (hfuel : (spell ss ++ List.replicate e SLASH).length ≤ fuel) :
    stepsOf fuel (spell ss ++ List.replicate e SLASH) (full.take (VFS_PATH_MAX - 1)) =
      (stepsFrom full ss,
        (full ++ (spell ss ++ List.replicate e SLASH)).take (VFS_PATH_MAX - 1)) := by
  induction ss generalizing full fuel with
  | nil =>
    rw [spell_nil, List.nil_append] at hfuel ⊢
    cases fuel with
    | zero =>
      rw [List.eq_nil_of_length_eq_zero (Nat.le_zero.mp hfuel), List.append_nil]
      rfl
    | succ fuel =>
      have hscan := takeWhile_slashes e (x := []) (by simp)
      rw [List.append_nil] at hscan
      rw [stepsOf]
      by_cases hnil : List.replicate e SLASH = []
      · rw [if_pos hnil, hnil, List.append_nil]
        rfl
      · rw [if_neg hnil, hscan.1, hscan.2, if_pos rfl, pushFull_take]
        rfl
  | cons s ss ih =>
    have hs := hok s List.mem_cons_self
    have hrest :=
      afterName_spell (show ∀ t ∈ ss, t.Ok from fun t ht => hok t (List.mem_cons_of_mem _ ht)) e
    have hsplit : spell (s :: ss) ++ List.replicate e SLASH =
        List.replicate s.slashes SLASH ++ (s.name ++ (spell ss ++ List.replicate e SLASH)) := by
      rw [spell_cons, Part.text, List.append_assoc, List.append_assoc]
    have hscan := takeWhile_slashes s.slashes (hs.head (spell ss ++ List.replicate e SLASH))
    have hpos := hs.slashes
    rw [hsplit] at hfuel ⊢
    have hlong := hfuel
    rw [List.length_append, List.length_append, List.length_replicate] at hlong
    obtain ⟨fuel, rfl⟩ : ∃ n, fuel = n + 1 := ⟨fuel - 1, by omega⟩
    have hne : List.replicate s.slashes SLASH ++ (s.name ++ (spell ss ++ List.replicate e SLASH))
        ≠ [] := by
      simp [hs.ne_nil]
    rw [stepsOf, if_neg hne, hscan.1, hscan.2, if_neg (by simp [hs.ne_nil]),
      takeWhile_name hs.noSlash hrest,
      List.take_of_length_le (show s.name.length ≤ VFS_NAME_MAX - 1 from hs.length_le)]
    dsimp only
    have htext : full ++ List.replicate s.slashes SLASH ++ s.name = full ++ s.text := by
      rw [Part.text, List.append_assoc]
    rw [List.drop_left, pushFull_take, pushFull_take, htext,
      ih (fun t ht => hok t (List.mem_cons_of_mem _ ht)) fuel (full ++ s.text) (by omega),
        stepsFrom, Part.text]
    simp only [List.append_assoc]

/-- `resolve_full` of a path of parts. -/
theorem resolveFull_spell (v : Vfs ι) (hok : ∀ s ∈ ss, s.Ok) {e : Nat} (hne : ss ≠ [] ∨ 0 < e) :
    resolveFull v (spell ss ++ List.replicate e SLASH) =
      v.mounts.head?.bind fun rootMount =>
        (walkSteps v (stepsFrom [] ss) rootMount.root).map
          (override v ((spell ss ++ List.replicate e SLASH).take (VFS_PATH_MAX - 1))) := by
  have hpath : spell ss ++ List.replicate e SLASH ≠ [] ∧
      (spell ss ++ List.replicate e SLASH).head? = some SLASH := by
    cases hafter : afterName_spell hok e with
    | inl hnil =>
      cases ss with
      | nil =>
        have he : 0 < e := hne.resolve_left (fun h => h rfl)
        rw [spell_nil, List.nil_append, List.replicate_eq_nil_iff] at hnil
        omega
      | cons s ss => simp [spell_cons, Part.text, (hok s List.mem_cons_self).ne_nil] at hnil
    | inr hslash =>
      refine ⟨fun hnil => ?_, hslash⟩
      rw [hnil] at hslash
      cases hslash
  unfold resolveFull
  rw [if_neg hpath.1]
  cases hm : v.mounts with
  | nil => rfl
  | cons rootMount mounts =>
    have hsteps := stepsOf_spell hok e _ [] (le_refl _)
    rw [List.take_nil, List.nil_append] at hsteps
    dsimp only
    rw [if_pos hpath.2, resolveWalk_eq, hsteps, List.head?_cons, Option.bind_some]
    cases walkSteps v (stepsFrom [] ss) rootMount.root with
    | none => rfl
    | some cur =>
      rw [Option.map_some, Option.map_some, override, hm]
      dsimp only
      cases (rootMount :: mounts).reverse.find? fun m =>
          m.path = (spell ss ++ List.replicate e SLASH).take (VFS_PATH_MAX - 1) with
      | none => rfl
      | some m => rfl

/-! ## Every path is made of parts -/

theorem splitOn_slash (x : CStr) : (SLASH :: x).splitOn SLASH = [] :: x.splitOn SLASH :=
  List.splitOn_append_cons_self [] x

theorem mem_splitOn_replicate {c x : CStr} (k : Nat) (h : c ∈ x.splitOn SLASH) :
    c ∈ (List.replicate k SLASH ++ x).splitOn SLASH := by
  induction k with
  | zero => exact h
  | succ k ih =>
    rw [List.replicate_succ, List.cons_append, splitOn_slash]
    exact List.mem_cons_of_mem _ ih

/-- The components of a name and what comes after it. -/
theorem splitOn_name {name rest : CStr} (h : SLASH ∉ name) (hrest : AfterName rest) :
    (name ++ rest).splitOn SLASH = name :: (rest.splitOn SLASH).tail := by
  cases hrest with
  | inl hnil =>
    rw [hnil, List.append_nil, List.splitOn_eq_singleton h, List.splitOn_nil, List.tail_cons]
  | inr hslash =>
    cases rest with
    | nil => cases hslash
    | cons b rest =>
      rw [List.head?_cons, Option.some.injEq] at hslash
      rw [hslash, List.splitOn_append_cons_self, List.splitOn_eq_singleton h, splitOn_slash,
        List.tail_cons]
      rfl

/-- A path that is empty or absolute, with components of at most 255 bytes. -/
theorem exists_spell {p : CStr} (hp : AfterName p)
    (hlen : ∀ c ∈ p.splitOn SLASH, c.length ≤ 255) :
    ∃ ss e, p = spell ss ++ List.replicate e SLASH ∧ ∀ s ∈ ss, s.Ok := by
  induction hn : p.length using Nat.strong_induction_on generalizing p with
  | _ n ih =>
    have hsplit :=
      List.takeWhile_append_dropWhile (p := fun b : UInt8 => decide (b = SLASH)) (l := p)
    have hslashes :
        p.takeWhile (· = SLASH) = List.replicate (p.takeWhile (· = SLASH)).length SLASH :=
      List.eq_replicate_of_mem fun b hb => by simpa using List.mem_takeWhile_imp hb
    by_cases hend : p.dropWhile (· = SLASH) = []
    · refine ⟨[], (p.takeWhile (· = SLASH)).length, ?_, by simp⟩
      rw [hend, List.append_nil] at hsplit
      rw [spell_nil, List.nil_append, ← hslashes, hsplit]
    obtain ⟨b, x, hx, hb⟩ := dropWhile_head hend
    generalize (p.takeWhile (· = SLASH)).length = k at hslashes
    rw [hx, hslashes] at hsplit
    -- The first component, and the rest of the path.
    have hpos : 0 < k := by
      cases hp with
      | inl hnil => rw [hnil] at hx; cases hx
      | inr hhead =>
        rw [← hsplit] at hhead
        cases k with
        | zero => exact absurd (by simpa using hhead) hb
        | succ k => exact Nat.succ_pos k
    have hname :=
      List.takeWhile_append_dropWhile (p := fun a : UInt8 => decide (a ≠ SLASH)) (l := b :: x)
    have hnoslash : SLASH ∉ (b :: x).takeWhile (· ≠ SLASH) := fun hmem => by
      simpa using List.mem_takeWhile_imp hmem
    have hne : (b :: x).takeWhile (· ≠ SLASH) ≠ [] := by
      rw [List.takeWhile_cons_of_pos (by simpa using hb)]
      exact List.cons_ne_nil _ _
    have hrest : AfterName ((b :: x).dropWhile (· ≠ SLASH)) := by
      have hhead := List.head?_dropWhile_not (fun a : UInt8 => decide (a ≠ SLASH)) (b :: x)
      cases hdrop : (b :: x).dropWhile (· ≠ SLASH) with
      | nil => exact Or.inl rfl
      | cons a r =>
        rw [hdrop] at hhead
        exact Or.inr (by simpa using hhead)
    generalize (b :: x).takeWhile (· ≠ SLASH) = name at hname hnoslash hne
    generalize (b :: x).dropWhile (· ≠ SLASH) = rest at hname hrest
    rw [← hname] at hsplit
    have hcomp := splitOn_name hnoslash hrest
    have hmem : ∀ c ∈ name :: (rest.splitOn SLASH).tail, c.length ≤ 255 := fun c hc => by
      refine hlen c ?_
      rw [← hsplit]
      exact mem_splitOn_replicate k (hcomp ▸ hc)
    have hless : rest.length < n := by
      rw [← hn, ← hsplit, List.length_append, List.length_append, List.length_replicate]
      omega
    obtain ⟨ss, e, hss, hok⟩ := ih rest.length hless hrest (fun c hc => by
      cases hrest with
      | inl hnil => rw [hnil, List.splitOn_nil] at hc; simp [List.mem_singleton.mp hc]
      | inr hslash =>
        cases rest with
        | nil => cases hslash
        | cons a r =>
          rw [List.head?_cons, Option.some.injEq] at hslash
          rw [hslash, splitOn_slash] at hc hmem
          cases List.mem_cons.mp hc with
          | inl heq => simp [heq]
          | inr hold => exact hmem c (List.mem_cons_of_mem _ hold)) rfl
    refine ⟨⟨k, name⟩ :: ss, e, ?_, fun s hs => ?_⟩
    · rw [spell_cons, Part.text, List.append_assoc, List.append_assoc, ← hss, hsplit]
    · cases List.mem_cons.mp hs with
      | inl heq => exact heq ▸ ⟨hpos, hne, hnoslash, hmem name List.mem_cons_self⟩
      | inr hold => exact hok s hold

end Lumin.Fs
