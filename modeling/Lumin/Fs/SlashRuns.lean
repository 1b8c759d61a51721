import Lumin.Fs.PathSteps

/-!
# Repeated slashes in a path

`resolve_full` skips a run of slashes when it takes the next component, but it copies the
whole run to `fullpath`, and mounts are recognised by comparing `fullpath` with the path
of the mount.  `RunsHarmless` says for which mount paths and which path the two spellings
of the path meet the same mounts.
-/

namespace Lumin.Fs

open Lumin.Proc

variable {ι : Type}

/-! ## The two spellings -/

/-- Every run of slashes replaced by one slash. -/
def singleSlashes : CStr → CStr
  | [] => []
  | c :: s => if c = SLASH ∧ s.head? = some SLASH then singleSlashes s else c :: singleSlashes s

/-- Trailing slashes removed. -/
def dropTrailing (p : CStr) : CStr := (p.reverse.dropWhile (· = SLASH)).reverse

/-- Single slashes, and none at the end.  The root keeps its slash. -/
def squeeze (p : CStr) : CStr :=
  let q := dropTrailing (singleSlashes p)
  if q = [] then p.take 1 else q

/-- The absolute path that `resolve_full` walks. -/
def absolute (p : CStr) : CStr := if p.head? = some SLASH then p else SLASH :: p

/-- `fullpath` after each component. -/
def texts (p : CStr) : List CStr := (stepsOf (absolute p).length (absolute p) []).1.map Prod.snd

/-- `fullpath` at the end. -/
def fullText (p : CStr) : CStr := (stepsOf (absolute p).length (absolute p) []).2

/-- The mounts `ms` met by two spellings of a walk: the same steps of both end at a mount,
and a mount from which the walk goes on is the same one. -/
def MountsAgree (ms : List CStr) : List (CStr × CStr) → Prop
  | [] => True
  | [(t, q)] => t ∈ ms ↔ q ∈ ms
  | (t, q) :: (t', q') :: rest =>
    (t ∈ ms ↔ q ∈ ms) ∧ (t ∈ ms → t' ∉ ms → t = q) ∧ MountsAgree ms ((t', q') :: rest)

/-- Exactly one mount after the root has the path `g`. -/
def MountedOnce (ms : List CStr) (g : CStr) : Prop := ∃ a b, ms = a ++ g :: b ∧ g ∉ a ∧ g ∉ b

/-- The mounts `ps` met at the end of the paths with the texts `f` and `g`, where `last` is
the text of the last component.  The root mount comes first in `ps`. -/
def EndsAgree (ps : List CStr) (last : Option CStr) (f g : CStr) : Prop :=
  f = g ∨
    match last with
    | none => f ∉ ps.tail ∧ g ∉ ps.tail
    | some t => f ∉ ps ∧ (g ∉ ps ∨ (t = g ∧ MountedOnce ps.tail g))

/-- The spelling of `p` meets the same mounts as the one with single slashes. -/
structure RunsHarmless (ps : List CStr) (p : CStr) : Prop where
  steps : MountsAgree ps.tail ((texts p).zip (texts (squeeze p)))
  ends : EndsAgree ps (texts p).getLast? (fullText p) (fullText (squeeze p))

/-! ## The spelling with single slashes -/

/-- The part with one slash. -/
def Part.one (s : Part) : Part := ⟨1, s.name⟩

variable {s : Part} {ss : List Part}

theorem Part.Ok.one (h : s.Ok) : s.one.Ok := ⟨Nat.one_pos, h.ne_nil, h.noSlash, h.length_le⟩

theorem ok_one (hok : ∀ s ∈ ss, s.Ok) : ∀ s ∈ ss.map Part.one, s.Ok := by
  intro t ht
  obtain ⟨s, hs, rfl⟩ := List.mem_map.mp ht
  exact (hok s hs).one

theorem singleSlashes_replicate {k : Nat} (hk : 0 < k) {y : CStr} (hy : y.head? ≠ some SLASH) :
    singleSlashes (List.replicate k SLASH ++ y) = SLASH :: singleSlashes y := by
  induction k with
  | zero => cases hk
  | succ k ih =>
    rw [List.replicate_succ, List.cons_append, singleSlashes]
    cases k with
    | zero =>
      rw [List.replicate_zero, List.nil_append, if_neg fun h => hy h.2]
    | succ k =>
      rw [if_pos ⟨rfl, rfl⟩]
      exact ih (Nat.succ_pos k)

theorem singleSlashes_name {name : CStr} (h : SLASH ∉ name) (rest : CStr) :
    singleSlashes (name ++ rest) = name ++ singleSlashes rest := by
  induction name with
  | nil => rfl
  | cons b name ih =>
    rw [List.mem_cons, not_or] at h
    rw [List.cons_append, singleSlashes, if_neg fun heq => h.1 heq.1.symm, ih h.2,
      List.cons_append]

theorem singleSlashes_spell (hok : ∀ s ∈ ss, s.Ok) (e : Nat) :
    singleSlashes (spell ss ++ List.replicate e SLASH) =
      spell (ss.map Part.one) ++ List.replicate (min e 1) SLASH := by
  induction ss with
  | nil =>
    rw [spell_nil, List.nil_append]
    cases e with
    | zero => rfl
    | succ e =>
      have h := singleSlashes_replicate (Nat.succ_pos e) (y := []) (by simp)
      rw [List.append_nil] at h
      rw [h, show min (e + 1) 1 = 1 by omega]
      rfl
  | cons s ss ih =>
    have hs := hok s List.mem_cons_self
    rw [spell_cons, Part.text, List.append_assoc, List.append_assoc,
      singleSlashes_replicate hs.slashes (hs.head _), singleSlashes_name hs.noSlash,
      ih fun t ht => hok t (List.mem_cons_of_mem _ ht), List.map_cons, spell_cons, Part.text,
        Part.one]
    simp

theorem dropTrailing_append {x : CStr} (hx : x.getLast? ≠ some SLASH) (k : Nat) :
    dropTrailing (x ++ List.replicate k SLASH) = x := by
  have hscan := takeWhile_slashes k (x := x.reverse) (by rwa [List.head?_reverse])
  rw [dropTrailing, List.reverse_append, List.reverse_replicate, hscan.2, List.reverse_reverse]

theorem getLast?_spell (hok : ∀ s ∈ ss, s.Ok) : (spell ss).getLast? ≠ some SLASH := by
  induction ss using List.reverseRecOn with
  | nil => simp
  | append_singleton ss s ih =>
    have hs := hok s (by simp)
    rw [spell_append, spell_cons, spell_nil, List.append_nil, Part.text, ← List.append_assoc,
      List.getLast?_append_of_ne_nil _ hs.ne_nil]
    intro hlast
    exact hs.noSlash (List.mem_of_getLast? hlast)

theorem spell_ne_nil (hok : ∀ s ∈ ss, s.Ok) (hne : ss ≠ []) : spell ss ≠ [] := by
  obtain ⟨s, ss, rfl⟩ := List.exists_cons_of_ne_nil hne
  simp [spell_cons, Part.text, (hok s List.mem_cons_self).ne_nil]

theorem squeeze_spell (hok : ∀ s ∈ ss, s.Ok) (hne : ss ≠ []) (e : Nat) :
    squeeze (spell ss ++ List.replicate e SLASH) = spell (ss.map Part.one) := by
  have hone := ok_one hok
  rw [squeeze, singleSlashes_spell hok, dropTrailing_append (getLast?_spell hone)]
  exact if_neg (spell_ne_nil hone (by simpa using hne))

theorem squeeze_root {e : Nat} (he : 0 < e) : squeeze (List.replicate e SLASH) = [SLASH] := by
  have h := singleSlashes_spell (show ∀ s ∈ ([] : List Part), s.Ok by simp) e
  rw [spell_nil, List.nil_append, List.map_nil, spell_nil, List.nil_append,
    show min e 1 = 1 by omega] at h
  obtain ⟨e, rfl⟩ : ∃ n, e = n + 1 := ⟨e - 1, by omega⟩
  rw [squeeze, h]
  rfl

theorem dropTrailing_cons {a : UInt8} {y : CStr} (h : dropTrailing y ≠ []) :
    dropTrailing (a :: y) = a :: dropTrailing y := by
  have hne : y.reverse.dropWhile (· = SLASH) ≠ [] :=
    fun hnil => h (by rw [dropTrailing, hnil]; rfl)
  rw [dropTrailing, List.reverse_cons, List.dropWhile_append, if_neg (by simpa using hne),
    List.reverse_append, dropTrailing]
  rfl

theorem dropTrailing_cons_ne {a : UInt8} (ha : a ≠ SLASH) (y : CStr) :
    dropTrailing (a :: y) = a :: dropTrailing y := by
  by_cases h : dropTrailing y = []
  · have hnil : y.reverse.dropWhile (· = SLASH) = [] := by simpa [dropTrailing] using h
    rw [h, dropTrailing, List.reverse_cons, List.dropWhile_append, if_pos (by rw [hnil]; rfl),
      List.dropWhile_cons_of_neg (by simpa using ha)]
    rfl
  · exact dropTrailing_cons h

theorem absolute_head (p : CStr) : (absolute p).head? = some SLASH := by
  unfold absolute
  split
  · assumption
  · rfl

theorem resolveFull_absolute (v : Vfs ι) {p : CStr} (hne : p ≠ []) :
    resolveFull v p = resolveFull v (absolute p) := by
  unfold absolute
  split
  · rfl
  · rename_i hrel
    exact resolveFull_slash v hne hrel

/-- A relative path and the absolute one have the same components. -/
theorem squeeze_cons {b : UInt8} (hb : b ≠ SLASH) (x : CStr) :
    squeeze (b :: x) = b :: dropTrailing (singleSlashes x) ∧
      squeeze (SLASH :: b :: x) = SLASH :: squeeze (b :: x) := by
  have hsingle : singleSlashes (b :: x) = b :: singleSlashes x := by
    rw [singleSlashes, if_neg fun h => hb h.1]
  have hslash : singleSlashes (SLASH :: b :: x) = SLASH :: singleSlashes (b :: x) := by
    rw [singleSlashes, if_neg fun h => hb (by simpa using h.2)]
  have hdrop := dropTrailing_cons_ne hb (singleSlashes x)
  have hne : dropTrailing (b :: singleSlashes x) ≠ [] := by rw [hdrop]; exact List.cons_ne_nil _ _
  have hrel : squeeze (b :: x) = dropTrailing (b :: singleSlashes x) := by
    rw [squeeze, hsingle]
    exact if_neg hne
  refine ⟨hrel.trans hdrop, ?_⟩
  rw [hrel, squeeze, hslash, hsingle, dropTrailing_cons hne]
  exact if_neg (List.cons_ne_nil _ _)

/-- An absolute path of parts, and its spelling with single slashes. -/
theorem exists_parts {p : CStr} (hlen : ∀ c ∈ p.splitOn SLASH, c.length ≤ 255) :
    ∃ ss e, absolute p = spell ss ++ List.replicate e SLASH ∧ (∀ s ∈ ss, s.Ok) ∧
        (ss ≠ [] ∨ 0 < e) := by
  have hcomp : ∀ c ∈ (absolute p).splitOn SLASH, c.length ≤ 255 := by
    unfold absolute
    split
    · exact hlen
    · intro c hc
      rw [splitOn_slash] at hc
      cases List.mem_cons.mp hc with
      | inl heq => simp [heq]
      | inr hmem => exact hlen c hmem
  obtain ⟨ss, e, hp, hok⟩ := exists_spell (Or.inr (absolute_head p)) hcomp
  refine ⟨ss, e, hp, hok, ?_⟩
  by_contra hno
  rw [not_or, not_not] at hno
  have hhead := absolute_head p
  rw [hp, hno.1, Nat.eq_zero_of_not_pos hno.2] at hhead
  cases hhead

theorem absolute_squeeze {p : CStr} (hne : p ≠ [])
    (hlen : ∀ c ∈ p.splitOn SLASH, c.length ≤ 255) :
    absolute (squeeze p) = squeeze (absolute p) ∧ squeeze p ≠ [] := by
  by_cases habs : p.head? = some SLASH
  · have hp : absolute p = p := if_pos habs
    obtain ⟨ss, e, hparts, hok, hsome⟩ := exists_parts hlen
    have hhead : (squeeze p).head? = some SLASH := by
      rw [← hp, hparts]
      by_cases hss : ss = []
      · rw [hss, spell_nil, List.nil_append, squeeze_root (hsome.resolve_left (fun h => h hss))]
        rfl
      · rw [squeeze_spell hok hss]
        obtain ⟨s, ss, rfl⟩ := List.exists_cons_of_ne_nil hss
        rfl
    refine ⟨?_, fun hnil => ?_⟩
    · rw [hp]
      exact if_pos hhead
    · rw [hnil] at hhead
      cases hhead
  · obtain ⟨b, x, rfl⟩ := List.exists_cons_of_ne_nil hne
    have hb : b ≠ SLASH := by simpa using habs
    obtain ⟨hrel, hslash⟩ := squeeze_cons hb x
    have hhead : ¬ (squeeze (b :: x)).head? = some SLASH := by
      rw [hrel]
      simpa using hb
    rw [absolute, if_neg hhead, absolute, if_neg habs, hslash, hrel]
    exact ⟨rfl, List.cons_ne_nil _ _⟩

/-! ## The texts -/

theorem texts_of_parts {p : CStr} {e : Nat} (hok : ∀ s ∈ ss, s.Ok)
    (hp : absolute p = spell ss ++ List.replicate e SLASH) :
    texts p = (stepsFrom [] ss).map Prod.snd ∧
      fullText p = (spell ss ++ List.replicate e SLASH).take (VFS_PATH_MAX - 1) := by
  have hsteps := stepsOf_spell hok e _ [] (le_refl _)
  rw [List.take_nil, List.nil_append] at hsteps
  rw [texts, fullText, hp, hsteps]
  exact ⟨rfl, rfl⟩

/-- A step of the walk in the two spellings. -/
structure Twin where
  name : CStr
  text : CStr
  plain : CStr

/-- The steps of the two spellings. -/
def twins (full plain : CStr) : List Part → List Twin
  | [] => []
  | s :: ss =>
    ⟨s.name, (full ++ s.text).take (VFS_PATH_MAX - 1),
      (plain ++ s.one.text).take (VFS_PATH_MAX - 1)⟩ ::
      twins (full ++ s.text) (plain ++ s.one.text) ss

theorem twins_text (full plain : CStr) (ss : List Part) :
    (twins full plain ss).map (fun x => (x.name, x.text)) = stepsFrom full ss := by
  induction ss generalizing full plain with
  | nil => rfl
  | cons s ss ih => rw [twins, List.map_cons, ih, stepsFrom]

theorem twins_plain (full plain : CStr) (ss : List Part) :
    (twins full plain ss).map (fun x => (x.name, x.plain)) =
      stepsFrom plain (ss.map Part.one) := by
  induction ss generalizing full plain with
  | nil => rfl
  | cons s ss ih =>
    rw [twins, List.map_cons, ih, List.map_cons, stepsFrom]
    rfl

theorem twins_last {full plain : CStr} {x : Twin} (h : (twins full plain ss).getLast? = some x) :
    x.text = (full ++ spell ss).take (VFS_PATH_MAX - 1) ∧
      x.plain = (plain ++ spell (ss.map Part.one)).take (VFS_PATH_MAX - 1) := by
  induction ss generalizing full plain with
  | nil => cases h
  | cons s ss ih =>
    rw [spell_cons, List.map_cons, spell_cons, ← List.append_assoc, ← List.append_assoc]
    cases ss with
    | nil =>
      obtain rfl := Option.some.inj h
      rw [List.map_nil, spell_nil, List.append_nil, List.append_nil]
      exact ⟨rfl, rfl⟩
    | cons t ss => exact ih h

/-- A step before the last one. -/
theorem mem_twins_dropLast {full plain : CStr} {x : Twin}
    (h : x ∈ (twins full plain ss).dropLast) :
    ∃ before after, ss = before ++ after ∧ after ≠ [] ∧
      x.text = (full ++ spell before).take (VFS_PATH_MAX - 1) ∧
      x.plain = (plain ++ spell (before.map Part.one)).take (VFS_PATH_MAX - 1) := by
  induction ss generalizing full plain with
  | nil => cases h
  | cons s ss ih =>
    cases ss with
    | nil => cases h
    | cons t ss =>
      cases List.mem_cons.mp h with
      | inl heq =>
        refine ⟨[s], t :: ss, rfl, List.cons_ne_nil _ _, ?_⟩
        rw [heq, spell_cons, spell_nil, List.append_nil, List.map_singleton, spell_cons,
          spell_nil, List.append_nil]
        exact ⟨rfl, rfl⟩
      | inr hmem =>
        obtain ⟨before, after, hss, hafter, htext, hplain⟩ := ih hmem
        refine ⟨s :: before, after, by rw [hss, List.cons_append], hafter, ?_, ?_⟩
        · rw [htext, spell_cons, List.append_assoc]
        · rw [hplain, List.map_cons, spell_cons, List.append_assoc]

/-! ## Spellings that meet the same mounts -/

theorem mountAt_eq_none_iff (v : Vfs ι) (t : CStr) :
    mountAt v t = none ↔ t ∉ (v.mounts.map Mount.path).tail := by
  rw [mountAt, Option.map_eq_none_iff, List.find?_eq_none, ← List.map_tail, List.mem_map]
  constructor
  · intro h ⟨m, hm, hpath⟩
    exact h m hm (by simpa using hpath)
  · intro h m hm hpath
    exact h ⟨m, hm, by simpa using hpath⟩

theorem enter_of_mounted {v : Vfs ι} {t : CStr} {r : ι} (h : mountAt v t = some r) (cur : ι)
    (name : CStr) :
    enter v cur name t = some r := by
  rw [enter, h]

theorem enter_of_unmounted {v : Vfs ι} {t q : CStr} (ht : mountAt v t = none)
    (hq : mountAt v q = none)
    (cur : ι) (name : CStr) : enter v cur name t = enter v cur name q := by
  rw [enter, enter, ht, hq]

/-- The steps of the spelling as it is, and those of the one with single slashes. -/
def textSteps (xs : List Twin) : List (CStr × CStr) := xs.map fun x => (x.name, x.text)

def plainSteps (xs : List Twin) : List (CStr × CStr) := xs.map fun x => (x.name, x.plain)

def pairs (xs : List Twin) : List (CStr × CStr) := xs.map fun x => (x.text, x.plain)

/-- Both walks fail, or both end, and at the same inode unless the last step of each is a
mount and they are different ones. -/
theorem walks_agree (v : Vfs ι) {xs : List Twin}
    (h : MountsAgree (v.mounts.map Mount.path).tail (pairs xs)) (cur : ι) :
    (walkSteps v (textSteps xs) cur = none ∧ walkSteps v (plainSteps xs) cur = none) ∨
      ∃ a b, walkSteps v (textSteps xs) cur = some a ∧ walkSteps v (plainSteps xs) cur = some b ∧
        (a = b ∨ ∃ x, xs.getLast? = some x ∧ x.text ∈ (v.mounts.map Mount.path).tail ∧
          x.text ≠ x.plain) := by
  induction xs generalizing cur with
  | nil => exact Or.inr ⟨cur, cur, rfl, rfl, Or.inl rfl⟩
  | cons x xs ih =>
    have hiff : x.text ∈ (v.mounts.map Mount.path).tail ↔
        x.plain ∈ (v.mounts.map Mount.path).tail := by
      cases xs with
      | nil => exact h
      | cons y ys => exact h.1
    have hrest : MountsAgree (v.mounts.map Mount.path).tail (pairs xs) := by
      cases xs with
      | nil => trivial
      | cons y ys => exact h.2.2
    have hlast : ∀ y, xs.getLast? = some y → (x :: xs).getLast? = some y := fun y hy => by
      rw [List.getLast?_cons, hy, Option.getD_some]
    rw [show walkSteps v (textSteps (x :: xs)) cur =
        (enter v cur x.name x.text).bind (walkSteps v (textSteps xs)) from rfl,
      show walkSteps v (plainSteps (x :: xs)) cur =
        (enter v cur x.name x.plain).bind (walkSteps v (plainSteps xs)) from rfl]
    -- From one inode the rest of the walks agree.
    have hnext : ∀ next : Option ι,
        (next.bind (walkSteps v (textSteps xs)) = none ∧
          next.bind (walkSteps v (plainSteps xs)) = none) ∨
          ∃ a b, next.bind (walkSteps v (textSteps xs)) = some a ∧
            next.bind (walkSteps v (plainSteps xs)) = some b ∧
            (a = b ∨ ∃ y, (x :: xs).getLast? = some y ∧ y.text ∈ (v.mounts.map Mount.path).tail ∧
              y.text ≠ y.plain) := by
      intro next
      cases next with
      | none => exact Or.inl ⟨rfl, rfl⟩
      | some next =>
        cases ih hrest next with
        | inl hnone => exact Or.inl hnone
        | inr hsome =>
          obtain ⟨a, b, ha, hb, hab⟩ := hsome
          refine Or.inr ⟨a, b, ha, hb, hab.imp id ?_⟩
          rintro ⟨y, hy, hmem, hne⟩
          exact ⟨y, hlast y hy, hmem, hne⟩
    by_cases heq : x.text = x.plain
    · rw [heq]
      exact hnext _
    cases ht : mountAt v x.text with
    | none =>
      have hq : mountAt v x.plain = none := by
        rw [mountAt_eq_none_iff] at ht ⊢
        exact fun hmem => ht (hiff.mpr hmem)
      rw [enter_of_unmounted ht hq]
      exact hnext _
    | some r =>
      have hmem : x.text ∈ (v.mounts.map Mount.path).tail := by
        by_contra hno
        rw [← mountAt_eq_none_iff, ht] at hno
        cases hno
      obtain ⟨r', hq⟩ : ∃ r', mountAt v x.plain = some r' := by
        cases hq : mountAt v x.plain with
        | none => exact absurd (hiff.mp hmem) ((mountAt_eq_none_iff v _).mp hq)
        | some r' => exact ⟨r', rfl⟩
      rw [enter_of_mounted ht, enter_of_mounted hq]
      cases xs with
      | nil => exact Or.inr ⟨r, r', rfl, rfl, Or.inr ⟨x, rfl, hmem, heq⟩⟩
      | cons y ys =>
        -- The walks go on from different mounts, so the next step is a mount too.
        have hy : y.text ∈ (v.mounts.map Mount.path).tail := by
          by_contra hno
          exact heq (h.2.1 hmem hno)
        obtain ⟨ry, hry⟩ : ∃ ry, mountAt v y.text = some ry := by
          cases hry : mountAt v y.text with
          | none => exact absurd hy ((mountAt_eq_none_iff v _).mp hry)
          | some ry => exact ⟨ry, rfl⟩
        have hsame :
            walkSteps v (textSteps (y :: ys)) r = walkSteps v (textSteps (y :: ys)) r' := by
          show (enter v r y.name y.text).bind _ = (enter v r' y.name y.text).bind _
          rw [enter_of_mounted hry, enter_of_mounted hry]
        rw [Option.bind_some, Option.bind_some, hsame]
        exact hnext (some r')

/-- A walk that ends at a mount ends at its root. -/
theorem walk_ends_at_mount {v : Vfs ι} {xs : List (CStr × CStr)} {x : CStr × CStr} {cur b r : ι}
    (hlast : xs.getLast? = some x) (hr : mountAt v x.2 = some r)
    (hb : walkSteps v xs cur = some b) : b = r := by
  obtain ⟨ys, rfl⟩ := List.getLast?_eq_some_iff.mp hlast
  rw [walkSteps_append] at hb
  cases hw : walkSteps v ys cur with
  | none =>
    rw [hw] at hb
    cases hb
  | some c =>
    rw [hw, Option.bind_some, walkSteps, enter_of_mounted hr] at hb
    exact (Option.some.inj hb).symm

theorem override_of_notMem {v : Vfs ι} {full : CStr} (h : full ∉ v.mounts.map Mount.path)
    (cur : ι) :
    override v full cur = cur := by
  have hnone : (v.mounts.reverse.find? fun m => m.path = full) = none := by
    rw [List.find?_eq_none]
    intro m hm hpath
    exact h (List.mem_map.mpr ⟨m, List.mem_reverse.mp hm, by simpa using hpath⟩)
  rw [override, hnone]

/-- Where only one mount after the root has the path, the first and the last one are the
same. -/
theorem override_of_mountedOnce {v : Vfs ι} {g : CStr} {r : ι}
    (h : MountedOnce (v.mounts.map Mount.path).tail g) (hr : mountAt v g = some r) (cur : ι) :
    override v g cur = r := by
  obtain ⟨a, b, htail, ha, hb⟩ := h
  cases hm : v.mounts with
  | nil =>
    rw [hm] at htail
    simp at htail
  | cons rootMount mounts =>
    rw [hm, List.map_cons, List.tail_cons] at htail
    obtain ⟨before, later, rfl, hbefore, hlater⟩ := List.map_eq_append_iff.mp htail
    obtain ⟨m, after, rfl, hpath, hafter⟩ := List.map_eq_cons_iff.mp hlater
    have hfirst : (before ++ m :: after).find? (fun m => m.path = g) = some m := by
      rw [List.find?_eq_some_iff_append]
      refine ⟨by simpa using hpath, before, after, rfl, fun x hx => ?_⟩
      have hne : x.path ≠ g := fun h => ha (hbefore ▸ h ▸ List.mem_map_of_mem hx)
      simpa using hne
    have hlast :
        (rootMount :: (before ++ m :: after)).reverse.find? (fun m => m.path = g) = some m := by
      rw [List.find?_eq_some_iff_append]
      refine ⟨by simpa using hpath, after.reverse, (rootMount :: before).reverse, by simp,
        fun x hx => ?_⟩
      have hne : x.path ≠ g :=
        fun h => hb (hafter ▸ h ▸ List.mem_map_of_mem (List.mem_reverse.mp hx))
      simpa using hne
    rw [mountAt, hm, List.tail_cons, hfirst, Option.map_some] at hr
    rw [override, hm, hlast]
    exact Option.some.inj hr

/-- The steps of a path in the two spellings, and what `resolve_full` does with them. -/
structure Spelled (p : CStr) (xs : List Twin) : Prop where
  texts : texts p = xs.map Twin.text
  plain : Fs.texts (squeeze p) = xs.map Twin.plain
  last : ∀ x, xs.getLast? = some x → fullText (squeeze p) = x.plain
  resolve : ∀ (ι : Type) (v : Vfs ι), resolveFull v p =
    v.mounts.head?.bind fun m => (walkSteps v (textSteps xs) m.root).map (override v (fullText p))
  resolvePlain : ∀ (ι : Type) (v : Vfs ι), resolveFull v (squeeze p) =
    v.mounts.head?.bind fun m => (walkSteps v (plainSteps xs) m.root).map
      (override v (fullText (squeeze p)))

theorem spelled_of_parts {p : CStr} (hne : p ≠ []) (hlen : ∀ c ∈ p.splitOn SLASH, c.length ≤ 255)
    {e : Nat}
    (hp : absolute p = spell ss ++ List.replicate e SLASH) (hok : ∀ s ∈ ss, s.Ok)
    (hsome : ss ≠ [] ∨ 0 < e) :
    Spelled p (twins [] [] ss) := by
  obtain ⟨habs, hsq⟩ := absolute_squeeze hne hlen
  obtain ⟨htexts, hfull⟩ := texts_of_parts hok hp
  have hone := ok_one hok
  -- The other spelling is one of parts too.
  obtain ⟨k, hplain, hk⟩ :
      ∃ k, absolute (squeeze p) = spell (ss.map Part.one) ++ List.replicate k SLASH ∧
      (k = 0 ∧ ss ≠ [] ∨ k = 1 ∧ ss = []) := by
    rw [habs, hp]
    by_cases hss : ss = []
    · refine ⟨1, ?_, Or.inr ⟨rfl, hss⟩⟩
      rw [hss, spell_nil, List.nil_append, squeeze_root (hsome.resolve_left fun h => h hss)]
      rfl
    · exact ⟨0, by rw [squeeze_spell hok hss, List.replicate_zero, List.append_nil],
        Or.inl ⟨rfl, hss⟩⟩
  obtain ⟨hptexts, hpfull⟩ := texts_of_parts hone hplain
  have hksome : ss.map Part.one ≠ [] ∨ 0 < k := by
    cases hk with
    | inl h => exact Or.inl (by simpa using h.2)
    | inr h => exact Or.inr (by omega)
  constructor
  · rw [htexts, ← twins_text [] [], List.map_map]
    rfl
  · rw [hptexts, ← twins_plain [] [], List.map_map]
    rfl
  · intro x hx
    cases hk with
    | inr h =>
      rw [h.2] at hx
      cases hx
    | inl h =>
      rw [hpfull, h.1, List.replicate_zero, List.append_nil, (twins_last hx).2, List.nil_append]
  · intro ι v
    rw [resolveFull_absolute v hne, hp, resolveFull_spell v hok hsome, hfull, ← twins_text [] []]
    rfl
  · intro ι v
    rw [resolveFull_absolute v hsq, hplain, resolveFull_spell v hone hksome, hpfull,
      ← twins_plain [] []]
    rfl

theorem Spelled.zip {p : CStr} {xs : List Twin} (h : Spelled p xs) :
    (Fs.texts p).zip (Fs.texts (squeeze p)) = pairs xs := by
  rw [h.texts, h.plain, List.zip_map', pairs]

theorem Spelled.getLast {p : CStr} {xs : List Twin} (h : Spelled p xs) :
    (Fs.texts p).getLast? = xs.getLast?.map Twin.text := by
  rw [h.texts, List.getLast?_map]

theorem mountsAgree_last {ms : List CStr} {xs : List Twin} {x : Twin}
    (h : MountsAgree ms (pairs xs))
    (hx : xs.getLast? = some x) : x.text ∈ ms ↔ x.plain ∈ ms := by
  induction xs with
  | nil => cases hx
  | cons y xs ih =>
    cases xs with
    | nil =>
      obtain rfl := Option.some.inj hx
      exact h
    | cons z xs => exact ih h.2.2 hx

theorem override_of_mem {v : Vfs ι} {g : CStr} (h : g ∈ v.mounts.map Mount.path) (a b : ι) :
    override v g a = override v g b := by
  obtain ⟨m, hm, hpath⟩ := List.mem_map.mp h
  have hfound : (v.mounts.reverse.find? fun m => m.path = g).isSome := by
    rw [List.find?_isSome]
    exact ⟨m, List.mem_reverse.mpr hm, by simpa using hpath⟩
  obtain ⟨m', hm'⟩ := Option.isSome_iff_exists.mp hfound
  rw [override, override, hm']

/-- The root mount changes nothing at the root. -/
theorem override_root {v : Vfs ι} {g : CStr} {m : Mount ι} (hhead : v.mounts.head? = some m)
    (h : g ∉ (v.mounts.map Mount.path).tail) : override v g m.root = m.root := by
  cases hm : v.mounts with
  | nil =>
    rw [hm] at hhead
    cases hhead
  | cons rootMount mounts =>
    rw [hm] at hhead h
    obtain rfl := Option.some.inj hhead
    rw [override, hm, List.reverse_cons, List.find?_append]
    have hnone : (mounts.reverse.find? fun m => m.path = g) = none := by
      rw [List.find?_eq_none]
      intro x hx hpath
      exact h (List.mem_map.mpr ⟨x, List.mem_reverse.mp hx, by simpa using hpath⟩)
    rw [hnone, Option.none_or, List.find?_singleton]
    split <;> rename_i hfound
    · split at hfound
      · exact congrArg Mount.root (Option.some.inj hfound).symm
      · cases hfound
    · rfl

/-- Spellings that meet the same mounts lead to the same inode. -/
theorem resolveFull_of_harmless {p : CStr} {xs : List Twin} (hp : Spelled p xs) (v : Vfs ι)
    (h : RunsHarmless (v.mounts.map Mount.path) p) :
    resolveFull v p = resolveFull v (squeeze p) := by
  have hsteps := h.steps
  have hends := h.ends
  rw [hp.zip] at hsteps
  rw [hp.getLast] at hends
  rw [hp.resolve ι v, hp.resolvePlain ι v]
  cases hhead : v.mounts.head? with
  | none => rfl
  | some m =>
    rw [Option.bind_some, Option.bind_some]
    cases walks_agree v hsteps m.root with
    | inl hnone => rw [hnone.1, hnone.2]; rfl
    | inr hsome =>
      obtain ⟨a, b, ha, hb, hab⟩ := hsome
      rw [ha, hb, Option.map_some, Option.map_some, Option.some.injEq]
      have hmem : ∀ x, xs.getLast? = some x → x.text ∈ (v.mounts.map Mount.path).tail →
          fullText (squeeze p) ∈ (v.mounts.map Mount.path).tail := fun x hx htext => by
        rw [hp.last x hx]
        exact (mountsAgree_last hsteps hx).mp htext
      rcases hends with hfg | hends
      · rw [hfg]
        rcases hab with rfl | ⟨x, hx, htext, -⟩
        · rfl
        · exact override_of_mem (List.mem_of_mem_tail (hmem x hx htext)) a b
      cases hx : xs.getLast? with
      | none =>
        rw [hx, Option.map_none] at hends
        have hnil : xs = [] := List.getLast?_eq_none_iff.mp hx
        subst hnil
        obtain rfl := Option.some.inj ha
        obtain rfl := Option.some.inj hb
        rw [override_root hhead hends.1, override_root hhead hends.2]
      | some x =>
        rw [hx, Option.map_some] at hends
        obtain ⟨hf, hg⟩ := hends
        rw [override_of_notMem hf]
        cases hg with
        | inl hg =>
          rw [override_of_notMem hg]
          rcases hab with hab | ⟨y, hy, htext, -⟩
          · exact hab
          · exact absurd (List.mem_of_mem_tail (hmem y hy htext)) hg
        | inr honce =>
          obtain ⟨htext, honce⟩ := honce
          have hplain := hp.last x hx
          have hmount : fullText (squeeze p) ∈ (v.mounts.map Mount.path).tail := by
            obtain ⟨before, after, htail, -⟩ := honce
            rw [htail]
            exact List.mem_append_right _ List.mem_cons_self
          obtain ⟨r, hr⟩ : ∃ r, mountAt v (fullText (squeeze p)) = some r := by
            cases hr : mountAt v (fullText (squeeze p)) with
            | none => exact absurd hmount ((mountAt_eq_none_iff v _).mp hr)
            | some r => exact ⟨r, rfl⟩
          have hlast : (plainSteps xs).getLast? = some (x.name, x.plain) := by
            rw [plainSteps, List.getLast?_map, hx]
            rfl
          have hbr : b = r := walk_ends_at_mount hlast (by rw [← hplain]; exact hr) hb
          rw [override_of_mountedOnce honce hr, ← hbr]
          rcases hab with hab | ⟨y, hy, -, hne⟩
          · exact hab
          · obtain rfl := Option.some.inj (hx.symm.trans hy)
            exact absurd (htext.trans hplain) hne

/-! ## A filesystem that tells the mounts apart -/

/-- The number of components of a path. -/
def nameCount (p : CStr) : Nat := ((p.splitOn SLASH).filter (· ≠ [])).length

/-- Mounts at the paths `ps`.  An inode is the number of the mount below which it is and
its depth; every name is found, but for one step below one mount at most. -/
def labelled (ps : List CStr) (bad : Option (Nat × Nat)) : Vfs (Nat × Nat) where
  mounts := ps.zipIdx.map fun x => ⟨x.1, x.2, if x.2 = 0 then 0 else nameCount x.1⟩
  isDir _ := true
  lookup cur _ := if bad = some (cur.1, cur.2 + 1) then none else some (cur.1, cur.2 + 1)

/-- The steps at which a walk looks a name up: the mount and the depth of the inode found. -/
def lookups (ps : List CStr) : Nat → Nat → List CStr → List (Nat × Nat)
  | _, _, [] => []
  | m, k, t :: ts =>
    match mountAt (labelled ps none) t with
    | some r => lookups ps r.1 (k + 1) ts
    | none => (m, k + 1) :: lookups ps m (k + 1) ts

/-- The texts of all steps but the last have the depth of their step. -/
def DepthsFrom : Nat → List CStr → Prop
  | k, t :: t' :: ts => nameCount t = k + 1 ∧ DepthsFrom (k + 1) (t' :: ts)
  | _, _ => True

variable {ps : List CStr} {bad : Option (Nat × Nat)}

variable (ps bad) in
theorem labelled_paths : (labelled ps bad).mounts.map Mount.path = ps := by
  rw [labelled, List.map_map]
  exact List.zipIdx_map_fst 0 ps

theorem mem_labelled {m : Mount (Nat × Nat)} (h : m ∈ (labelled ps bad).mounts) :
    ps[m.root.1]? = some m.path ∧ (m.root.1 = 0 → m.root.2 = 0) ∧
      (m.root.1 ≠ 0 → m.root.2 = nameCount m.path) := by
  obtain ⟨x, hx, rfl⟩ := List.mem_map.mp h
  refine ⟨List.mem_zipIdx_iff_getElem?.mp hx, fun hzero => if_pos hzero, fun hne => if_neg hne⟩

variable (bad) in
theorem labelled_head {path : CStr} (h : ps.head? = some path) :
    ∃ m, (labelled ps bad).mounts.head? = some m ∧ m.root = (0, 0) := by
  obtain ⟨rest, rfl⟩ := List.head?_eq_some_iff.mp h
  exact ⟨_, rfl, rfl⟩

/-- A mount after the root is labelled with its place in the table. -/
theorem mountAt_labelled {t : CStr} {r : Nat × Nat} (h : mountAt (labelled ps bad) t = some r) :
    ps[r.1]? = some t ∧ r.1 ≠ 0 ∧ r.2 = nameCount t := by
  rw [mountAt, Option.map_eq_some_iff] at h
  obtain ⟨m, hm, rfl⟩ := h
  have hpath : m.path = t := by simpa using List.find?_some hm
  have hmem := List.mem_of_find?_eq_some hm
  have hpos : m.root.1 ≠ 0 := by
    cases ps with
    | nil => cases hmem
    | cons p ps =>
      have htail : (labelled (p :: ps) bad).mounts.tail =
          (ps.zipIdx 1).map fun x => ⟨x.1, x.2, if x.2 = 0 then 0 else nameCount x.1⟩ := rfl
      rw [htail] at hmem
      obtain ⟨x, hx, rfl⟩ := List.mem_map.mp hmem
      have := List.le_snd_of_mem_zipIdx hx
      exact Nat.ne_of_gt this
  obtain ⟨hget, -, hdepth⟩ := mem_labelled (List.mem_of_mem_tail hmem)
  exact ⟨hpath ▸ hget, hpos, hpath ▸ hdepth hpos⟩

theorem mountAt_labelled_none {t : CStr} : mountAt (labelled ps bad) t = none ↔ t ∉ ps.tail := by
  rw [mountAt_eq_none_iff, labelled_paths]

theorem enter_labelled {m k : Nat} {t : CStr} (ht : mountAt (labelled ps none) t = none)
    (name : CStr) :
    enter (labelled ps bad) (m, k) name t = if bad = some (m, k + 1) then none
      else some (m, k + 1) := by
  have hsame : mountAt (labelled ps bad) t = none := ht
  rw [enter, hsame]
  rfl

theorem enter_labelled_mount {t : CStr} {r : Nat × Nat}
    (ht : mountAt (labelled ps none) t = some r)
    (cur : Nat × Nat) (name : CStr) : enter (labelled ps bad) cur name t = some r :=
  enter_of_mounted (v := labelled ps bad) ht cur name

/-- What a step leaves for the next ones: the mount of the inode, at the depth of the step. -/
theorem DepthsFrom.mount {k : Nat} {t : CStr} {ts : List CStr} (h : DepthsFrom k (t :: ts))
    (hne : ts ≠ [])
    {r : Nat × Nat} (hr : mountAt (labelled ps none) t = some r) : r = (r.1, k + 1) := by
  obtain ⟨t', ts, rfl⟩ := List.exists_cons_of_ne_nil hne
  rw [← h.1, ← (mountAt_labelled hr).2.2]

theorem DepthsFrom.tail {k : Nat} {t : CStr} {ts : List CStr} (h : DepthsFrom k (t :: ts)) :
    DepthsFrom (k + 1) ts := by
  cases ts with
  | nil => trivial
  | cons t' ts => exact h.2

variable (ps bad) in
/-- The walk fails at the step that is marked, if it looks a name up there. -/
theorem walk_labelled_none (steps : List (CStr × CStr)) (m k : Nat)
    (hdepth : DepthsFrom k (steps.map Prod.snd)) :
    walkSteps (labelled ps bad) steps (m, k) = none ↔
      ∃ x ∈ lookups ps m k (steps.map Prod.snd), bad = some x := by
  induction steps generalizing m k with
  | nil => simp [walkSteps, lookups]
  | cons x steps ih =>
    obtain ⟨name, t⟩ := x
    rw [List.map_cons] at hdepth ⊢
    rw [walkSteps, lookups]
    cases ht : mountAt (labelled ps none) t with
    | some r =>
      rw [enter_labelled_mount ht, Option.bind_some]
      cases steps with
      | nil => simp [walkSteps, lookups]
      | cons y steps =>
        rw [hdepth.mount (List.cons_ne_nil _ _) ht]
        exact ih _ _ hdepth.tail
    | none =>
      rw [enter_labelled ht]
      by_cases hbad : bad = some (m, k + 1)
      · rw [if_pos hbad]
        exact iff_of_true rfl ⟨(m, k + 1), List.mem_cons_self, hbad⟩
      · rw [if_neg hbad, Option.bind_some, ih _ _ hdepth.tail]
        constructor
        · rintro ⟨x, hx, heq⟩
          exact ⟨x, List.mem_cons_of_mem _ hx, heq⟩
        · rintro ⟨x, hx, heq⟩
          cases List.mem_cons.mp hx with
          | inl hhere => exact absurd (hhere ▸ heq) hbad
          | inr hmem => exact ⟨x, hmem, heq⟩

/-- Where the walk ends: at the root of the last mount it meets, or below it. -/
theorem walk_labelled_end {steps : List (CStr × CStr)} {m k : Nat} {x : CStr × CStr}
    {c : Nat × Nat}
    (hdepth : DepthsFrom k (steps.map Prod.snd)) (hlast : steps.getLast? = some x)
    (h : walkSteps (labelled ps bad) steps (m, k) = some c) :
    mountAt (labelled ps none) x.2 = some c ∨
      (mountAt (labelled ps none) x.2 = none ∧ c.2 = k + steps.length ∧
        (c.1 = m ∨ ∃ y ∈ steps.dropLast, ps[c.1]? = some y.2)) := by
  induction steps generalizing m k with
  | nil => cases hlast
  | cons y steps ih =>
    obtain ⟨name, t⟩ := y
    rw [List.map_cons] at hdepth
    rw [walkSteps] at h
    cases steps with
    | nil =>
      obtain rfl := Option.some.inj hlast
      cases ht : mountAt (labelled ps none) t with
      | some r =>
        rw [enter_labelled_mount ht] at h
        exact Or.inl (ht.trans h)
      | none =>
        rw [enter_labelled ht] at h
        split at h
        · cases h
        · obtain rfl := Option.some.inj h
          exact Or.inr ⟨ht, rfl, Or.inl rfl⟩
    | cons z steps =>
      have hrest : (z :: steps).getLast? = some x := hlast
      have hdrop : ((name, t) :: z :: steps).dropLast = (name, t) :: (z :: steps).dropLast := rfl
      rw [hdrop]
      cases ht : mountAt (labelled ps none) t with
      | some r =>
        rw [enter_labelled_mount ht, Option.bind_some, hdepth.mount (by simp) ht] at h
        rcases ih hdepth.tail hrest h with hmount | ⟨hnone, hlen, hlabel⟩
        · exact Or.inl hmount
        · refine Or.inr ⟨hnone, by rw [hlen, List.length_cons (a := (name, t))]; omega, Or.inr ?_⟩
          cases hlabel with
          | inl heq => exact ⟨(name, t), List.mem_cons_self, heq ▸ (mountAt_labelled ht).1⟩
          | inr hmem =>
            obtain ⟨y, hy, hget⟩ := hmem
            exact ⟨y, List.mem_cons_of_mem _ hy, hget⟩
      | none =>
        rw [enter_labelled ht] at h
        split at h
        · cases h
        · rcases ih hdepth.tail hrest h with hmount | ⟨hnone, hlen, hlabel⟩
          · exact Or.inl hmount
          · refine Or.inr
              ⟨hnone, by rw [hlen, List.length_cons (a := (name, t))]; omega, hlabel.imp id ?_⟩
            rintro ⟨y, hy, hget⟩
            exact ⟨y, List.mem_cons_of_mem _ hy, hget⟩

/-! ## Spellings that always lead to the same inode -/

theorem depth_of_lookups {m k : Nat} {ts : List CStr} : ∀ x ∈ lookups ps m k ts, k < x.2 := by
  induction ts generalizing m k with
  | nil => simp [lookups]
  | cons t ts ih =>
    intro x hx
    rw [lookups] at hx
    split at hx
    · exact Nat.lt_of_succ_lt (ih x hx)
    · cases List.mem_cons.mp hx with
      | inl heq => rw [heq]; exact Nat.lt_succ_self k
      | inr hmem => exact Nat.lt_of_succ_lt (ih x hmem)

/-- Walks that look names up at the same steps meet the same mounts. -/
theorem mountsAgree_of_lookups {xs : List Twin} {m m' k : Nat}
    (h : ∀ x, x ∈ lookups ps m k (xs.map Twin.text) ↔ x ∈ lookups ps m' k (xs.map Twin.plain)) :
    MountsAgree ps.tail (pairs xs) ∧ ∀ x, xs.head? = some x → x.text ∉ ps.tail → m = m' := by
  induction xs generalizing m m' k with
  | nil => exact ⟨trivial, fun x hx => by cases hx⟩
  | cons x xs ih =>
    have hget : ∀ {t r}, mountAt (labelled ps none) t = some r → t ∈ ps.tail := fun {t r} hr => by
      by_contra hno
      have hnone : mountAt (labelled ps none) t = none := mountAt_labelled_none.mpr hno
      rw [hnone] at hr
      cases hr
    rw [List.map_cons, List.map_cons] at h
    cases ht : mountAt (labelled ps none) x.text with
    | some r =>
      cases hq : mountAt (labelled ps none) x.plain with
      | some r' =>
        rw [lookups, lookups, ht, hq] at h
        obtain ⟨hagree, hsame⟩ := ih h
        refine ⟨?_, fun y hy hno => ?_⟩
        · cases xs with
          | nil => exact iff_of_true (hget ht) (hget hq)
          | cons y ys =>
            refine ⟨iff_of_true (hget ht) (hget hq), fun _ hy => ?_, hagree⟩
            have hlabel := (mountAt_labelled ht).1
            rw [hsame y rfl hy, (mountAt_labelled hq).1] at hlabel
            exact (Option.some.inj hlabel).symm
        · obtain rfl := Option.some.inj hy
          exact absurd (hget ht) hno
      | none =>
        rw [lookups, lookups, ht, hq] at h
        exact absurd (depth_of_lookups _ ((h (m', k + 1)).mpr List.mem_cons_self))
          (Nat.lt_irrefl _)
    | none =>
      cases hq : mountAt (labelled ps none) x.plain with
      | some r' =>
        rw [lookups, lookups, ht, hq] at h
        exact absurd (depth_of_lookups _ ((h (m, k + 1)).mp List.mem_cons_self)) (Nat.lt_irrefl _)
      | none =>
        rw [lookups, lookups, ht, hq] at h
        have hm : m = m' := by
          cases List.mem_cons.mp ((h (m, k + 1)).mp List.mem_cons_self) with
          | inl heq => exact congrArg Prod.fst heq
          | inr hmem => exact absurd (depth_of_lookups _ hmem) (Nat.lt_irrefl _)
        have hrest : ∀ y, y ∈ lookups ps m (k + 1) (xs.map Twin.text) ↔
            y ∈ lookups ps m' (k + 1) (xs.map Twin.plain) := by
          intro y
          constructor
          · intro hy
            cases List.mem_cons.mp ((h y).mp (List.mem_cons_of_mem _ hy)) with
            | inl heq => exact absurd (heq ▸ depth_of_lookups y hy) (Nat.lt_irrefl _)
            | inr hmem => exact hmem
          · intro hy
            cases List.mem_cons.mp ((h y).mpr (List.mem_cons_of_mem _ hy)) with
            | inl heq => exact absurd (heq ▸ depth_of_lookups y hy) (Nat.lt_irrefl _)
            | inr hmem => exact hmem
        have hboth : x.text ∈ ps.tail ↔ x.plain ∈ ps.tail :=
          iff_of_false (mountAt_labelled_none.mp ht) (mountAt_labelled_none.mp hq)
        refine ⟨?_, fun _ _ _ => hm⟩
        cases xs with
        | nil => exact hboth
        | cons y ys =>
          exact ⟨hboth, fun hmem => absurd hmem (mountAt_labelled_none.mp ht), (ih hrest).1⟩

/-- What tells the texts of the two spellings apart. -/
structure Distinct (p : CStr) (xs : List Twin) : Prop where
  textDepth : DepthsFrom 0 (xs.map Twin.text)
  plainDepth : DepthsFrom 0 (xs.map Twin.plain)
  text_ne : ∀ x ∈ xs.dropLast, x.text ≠ fullText (squeeze p)
  plain_ne : ∀ x ∈ xs.dropLast, x.plain ≠ fullText p

variable (bad) in
theorem override_labelled {g : CStr} (hg : g ∈ ps) (cur : Nat × Nat) :
    ps[(override (labelled ps bad) g cur).1]? = some g ∧
      ((override (labelled ps bad) g cur).1 = 0 → (override (labelled ps bad) g cur).2 = 0) := by
  rw [← labelled_paths ps bad] at hg
  obtain ⟨m, hm, hpath⟩ := List.mem_map.mp hg
  have hfound : ((labelled ps bad).mounts.reverse.find? fun m => m.path = g).isSome := by
    rw [List.find?_isSome]
    exact ⟨m, List.mem_reverse.mpr hm, by simpa using hpath⟩
  obtain ⟨m', hm'⟩ := Option.isSome_iff_exists.mp hfound
  have hpath' : m'.path = g := by simpa using List.find?_some hm'
  obtain ⟨hget, hzero, -⟩ := mem_labelled (List.mem_reverse.mp (List.mem_of_find?_eq_some hm'))
  rw [override, hm']
  exact ⟨hpath' ▸ hget, hzero⟩

variable (ps bad) in
theorem labels_increase : (labelled ps bad).mounts.Pairwise fun a b => a.root.1 < b.root.1 := by
  have hlabels : (labelled ps bad).mounts.map (fun m => m.root.1) = List.range' 0 ps.length := by
    rw [labelled, List.map_map]
    exact List.zipIdx_map_snd 0 ps
  have hlt : (List.range' 0 ps.length).Pairwise (· < ·) := List.pairwise_lt_range'
  rw [← hlabels] at hlt
  exact List.pairwise_map.mp hlt

/-- If the first and the last mount with a path are the same, it is mounted once. -/
theorem mountedOnce_of_same {g : CStr} {r : Nat × Nat} (hr : mountAt (labelled ps bad) g = some r)
    {cur : Nat × Nat} (hlast : override (labelled ps bad) g cur = r) : MountedOnce ps.tail g := by
  have horder := labels_increase ps bad
  have hpaths := labelled_paths ps bad
  rw [mountAt, Option.map_eq_some_iff] at hr
  obtain ⟨m, hfirst, rfl⟩ := hr
  obtain ⟨hpath, before, after, htail, hbefore⟩ := List.find?_eq_some_iff_append.mp hfirst
  have hpath' : m.path = g := by simpa using hpath
  refine ⟨before.map Mount.path, after.map Mount.path, ?_, fun hmem => ?_, fun hmem => ?_⟩
  · rw [← hpaths, ← List.map_tail, htail, List.map_append, List.map_cons, hpath']
  · obtain ⟨x, hx, heq⟩ := List.mem_map.mp hmem
    have hno := hbefore x hx
    simp [heq] at hno
  · -- A later mount with the path would be the last one.
    obtain ⟨x, hx, heq⟩ := List.mem_map.mp hmem
    have hfound : (after.reverse.find? fun m => m.path = g).isSome := by
      rw [List.find?_isSome]
      exact ⟨x, List.mem_reverse.mpr hx, by simpa using heq⟩
    obtain ⟨y, hy⟩ := Option.isSome_iff_exists.mp hfound
    have hymem : y ∈ after := List.mem_reverse.mp (List.mem_of_find?_eq_some hy)
    cases hm : (labelled ps bad).mounts with
    | nil =>
      rw [hm] at htail
      simp at htail
    | cons rootMount mounts =>
      rw [hm, List.tail_cons] at htail
      subst htail
      have hreverse : (rootMount :: (before ++ m :: after)).reverse =
          after.reverse ++ (m :: before.reverse ++ [rootMount]) := by simp
      rw [override, hm, hreverse, List.find?_append, hy, Option.some_or] at hlast
      rw [hm, List.pairwise_cons, List.pairwise_append, List.pairwise_cons] at horder
      have hlt := horder.2.2.1.1 y hymem
      have hsame : y.root = m.root := hlast
      rw [hsame] at hlt
      exact Nat.lt_irrefl _ hlt

variable (bad) in
/-- A path of a mount after the root is that of the last one of these. -/
theorem override_labelled_tail {g : CStr} (hg : g ∈ ps.tail) (cur : Nat × Nat) :
    (override (labelled ps bad) g cur).1 ≠ 0 := by
  have horder := labels_increase ps bad
  rw [← labelled_paths ps bad, ← List.map_tail] at hg
  cases hm : (labelled ps bad).mounts with
  | nil =>
    rw [hm] at hg
    simp at hg
  | cons rootMount mounts =>
    rw [hm, List.tail_cons] at hg
    obtain ⟨x, hx, hpath⟩ := List.mem_map.mp hg
    have hfound : (mounts.reverse.find? fun m => m.path = g).isSome := by
      rw [List.find?_isSome]
      exact ⟨x, List.mem_reverse.mpr hx, by simpa using hpath⟩
    obtain ⟨y, hy⟩ := Option.isSome_iff_exists.mp hfound
    have hymem : y ∈ mounts := List.mem_reverse.mp (List.mem_of_find?_eq_some hy)
    rw [hm, List.pairwise_cons] at horder
    have hlt := horder.1 y hymem
    rw [override, hm, List.reverse_cons, List.find?_append, hy, Option.some_or]
    exact Nat.ne_of_gt (Nat.lt_of_le_of_lt (Nat.zero_le _) hlt)

theorem mountsAgree_same (ms ts : List CStr) : MountsAgree ms (ts.zip ts) := by
  induction ts with
  | nil => trivial
  | cons t ts ih =>
    cases ts with
    | nil => exact Iff.rfl
    | cons t' ts => exact ⟨Iff.rfl, fun _ _ => rfl, ih⟩

theorem mountsAgree_nil (xs : List Twin) : MountsAgree [] (pairs xs) := by
  induction xs with
  | nil => trivial
  | cons x xs ih =>
    cases xs with
    | nil => exact iff_of_false (List.not_mem_nil) (List.not_mem_nil)
    | cons y ys =>
      exact ⟨iff_of_false (List.not_mem_nil) (List.not_mem_nil),
        fun h => absurd h List.not_mem_nil, ih⟩

/-- Spellings that lead to the same inode whatever is in the filesystems look names up at
the same steps. -/
theorem lookups_of_resolveFull {p path : CStr} {xs : List Twin} (hp : Spelled p xs)
    (hd : Distinct p xs)
    (hhead : ps.head? = some path)
    (h : ∀ bad, resolveFull (labelled ps bad) p = resolveFull (labelled ps bad) (squeeze p))
    (x : Nat × Nat) :
    x ∈ lookups ps 0 0 (xs.map Twin.text) ↔ x ∈ lookups ps 0 0 (xs.map Twin.plain) := by
  obtain ⟨m, hm, hroot⟩ := labelled_head (some x) hhead
  have hres := h (some x)
  rw [hp.resolve, hp.resolvePlain, hm, Option.bind_some, Option.bind_some, hroot] at hres
  have htext : (textSteps xs).map Prod.snd = xs.map Twin.text := by
    rw [textSteps, List.map_map]
    rfl
  have hplain : (plainSteps xs).map Prod.snd = xs.map Twin.plain := by
    rw [plainSteps, List.map_map]
    rfl
  have hfail := walk_labelled_none ps (some x) (textSteps xs) 0 0 (htext ▸ hd.textDepth)
  have hfail' := walk_labelled_none ps (some x) (plainSteps xs) 0 0 (hplain ▸ hd.plainDepth)
  have hboth : walkSteps (labelled ps (some x)) (textSteps xs) (0, 0) = none ↔
      walkSteps (labelled ps (some x)) (plainSteps xs) (0, 0) = none := by
    rw [← Option.map_eq_none_iff (f := override (labelled ps (some x)) (fullText p)), hres,
      Option.map_eq_none_iff]
  rw [htext] at hfail
  rw [hplain] at hfail'
  rw [hfail, hfail'] at hboth
  simpa using hboth

variable (ps) in
theorem walk_labelled_some (steps : List (CStr × CStr)) (m k : Nat)
    (hdepth : DepthsFrom k (steps.map Prod.snd)) :
    ∃ c, walkSteps (labelled ps none) steps (m, k) = some c := by
  cases hw : walkSteps (labelled ps none) steps (m, k) with
  | some c => exact ⟨c, rfl⟩
  | none =>
    obtain ⟨x, -, hx⟩ := (walk_labelled_none ps none steps m k hdepth).mp hw
    cases hx

/-- Two paths that the same mount overrides are one. -/
theorem override_labelled_inj {f g : CStr} {c d : Nat × Nat} (hf : f ∈ ps) (hg : g ∈ ps)
    (h : override (labelled ps bad) f c = override (labelled ps bad) g d) : f = g := by
  have hget := (override_labelled bad hf c).1
  rw [h, (override_labelled bad hg d).1] at hget
  exact (Option.some.inj hget).symm

/-- The end of a path without components. -/
theorem ends_without_components {f g : CStr} (hfg : f ≠ g)
    (h : override (labelled ps none) f (0, 0) = override (labelled ps none) g (0, 0)) :
    f ∉ ps.tail := by
  intro hf
  have hlabel := override_labelled_tail none hf (0, 0)
  by_cases hg : g ∈ ps
  · exact hfg (override_labelled_inj (List.mem_of_mem_tail hf) hg h)
  · rw [h, override_of_notMem (by rw [labelled_paths]; exact hg)] at hlabel
    exact hlabel rfl

/-- The inode where a walk ends below a mount is not the root of another one. -/
theorem not_overridden {steps : List (CStr × CStr)} {g : CStr} {c d : Nat × Nat} {x : CStr × CStr}
    (hdepth : DepthsFrom 0 (steps.map Prod.snd)) (hlast : steps.getLast? = some x)
    (hwalk : walkSteps (labelled ps none) steps (0, 0) = some c)
    (hne : ∀ y ∈ steps.dropLast, y.2 ≠ g)
    (hg : g ∈ ps) (h : override (labelled ps none) g d = c) :
    mountAt (labelled ps none) x.2 = some c := by
  obtain ⟨hget, hzero⟩ := override_labelled none hg d
  rw [h] at hget hzero
  rcases walk_labelled_end hdepth hlast hwalk with hmount | ⟨-, hlen, hlabel⟩
  · exact hmount
  · cases hlabel with
    | inl hroot =>
      have hdepth0 := hzero hroot
      have hpos : steps ≠ [] := fun hnil => by
        rw [hnil] at hlast
        cases hlast
      have := List.length_pos_of_ne_nil hpos
      omega
    | inr hmem =>
      obtain ⟨y, hy, hy'⟩ := hmem
      rw [hget] at hy'
      exact absurd (Option.some.inj hy').symm (hne y hy)

/-- Spellings that lead to the same inode whatever is in the filesystems meet the same
mounts. -/
theorem harmless_of_resolveFull {p : CStr} {xs : List Twin} (hp : Spelled p xs)
    (hd : Distinct p xs)
    (h : ∀ bad, resolveFull (labelled ps bad) p = resolveFull (labelled ps bad) (squeeze p)) :
    RunsHarmless ps p := by
  cases hps : ps.head? with
  | none =>
    rw [List.head?_eq_none_iff] at hps
    subst hps
    refine ⟨by rw [hp.zip]; exact mountsAgree_nil xs, Or.inr ?_⟩
    cases (texts p).getLast? with
    | none => exact ⟨List.not_mem_nil, List.not_mem_nil⟩
    | some t => exact ⟨List.not_mem_nil, Or.inl List.not_mem_nil⟩
  | some path =>
    have hagree := (mountsAgree_of_lookups (lookups_of_resolveFull hp hd hps h)).1
    refine ⟨by rw [hp.zip]; exact hagree, ?_⟩
    by_cases hfg : fullText p = fullText (squeeze p)
    · exact Or.inl hfg
    refine Or.inr ?_
    obtain ⟨m, hm, hroot⟩ := labelled_head none hps
    have hres := h none
    have htext : (textSteps xs).map Prod.snd = xs.map Twin.text := by
      rw [textSteps, List.map_map]
      rfl
    have hplain : (plainSteps xs).map Prod.snd = xs.map Twin.plain := by
      rw [plainSteps, List.map_map]
      rfl
    obtain ⟨c, hc⟩ := walk_labelled_some ps (textSteps xs) 0 0 (htext ▸ hd.textDepth)
    obtain ⟨d, hd'⟩ := walk_labelled_some ps (plainSteps xs) 0 0 (hplain ▸ hd.plainDepth)
    rw [hp.resolve, hp.resolvePlain, hm, Option.bind_some, Option.bind_some, hroot, hc, hd',
      Option.map_some,
      Option.map_some, Option.some.injEq] at hres
    rw [hp.getLast]
    cases hx : xs.getLast? with
    | none =>
      have hnil : xs = [] := List.getLast?_eq_none_iff.mp hx
      subst hnil
      obtain rfl := Option.some.inj hc
      obtain rfl := Option.some.inj hd'
      exact ⟨ends_without_components hfg hres,
        ends_without_components (fun h => hfg h.symm) hres.symm⟩
    | some x =>
      have hlast : (textSteps xs).getLast? = some (x.name, x.text) := by
        rw [textSteps, List.getLast?_map, hx]
        rfl
      have hlast' : (plainSteps xs).getLast? = some (x.name, x.plain) := by
        rw [plainSteps, List.getLast?_map, hx]
        rfl
      have hne : ∀ y ∈ (textSteps xs).dropLast, y.2 ≠ fullText (squeeze p) := fun y hy => by
        rw [textSteps, ← List.map_dropLast] at hy
        obtain ⟨z, hz, rfl⟩ := List.mem_map.mp hy
        exact hd.text_ne z hz
      have hne' : ∀ y ∈ (plainSteps xs).dropLast, y.2 ≠ fullText p := fun y hy => by
        rw [plainSteps, ← List.map_dropLast] at hy
        obtain ⟨z, hz, rfl⟩ := List.mem_map.mp hy
        exact hd.plain_ne z hz
      have hf : fullText p ∉ ps := by
        intro hf
        by_cases hg : fullText (squeeze p) ∈ ps
        · exact hfg (override_labelled_inj hf hg hres)
        have hid : override (labelled ps none) (fullText (squeeze p)) d = d :=
          override_of_notMem (by rw [labelled_paths]; exact hg) d
        rw [hid] at hres
        have hmount := not_overridden (hplain ▸ hd.plainDepth) hlast' hd' hne' hf hres
        have hget := (mountAt_labelled hmount).1
        rw [← hp.last x hx] at hget
        exact hg (List.mem_of_getElem? hget)
      refine ⟨hf, ?_⟩
      by_cases hg : fullText (squeeze p) ∈ ps
      · have hid : override (labelled ps none) (fullText p) c = c :=
          override_of_notMem (by rw [labelled_paths]; exact hf) c
        rw [hid] at hres
        have hmount := not_overridden (htext ▸ hd.textDepth) hlast hc hne hg hres.symm
        have hget := (override_labelled none hg d).1
        rw [← hres, (mountAt_labelled hmount).1] at hget
        have hsame : x.text = fullText (squeeze p) := Option.some.inj hget
        have hfirst : mountAt (labelled ps none) (fullText (squeeze p)) = some c := by
          rw [← hsame]
          exact hmount
        exact Or.inr ⟨hsame, mountedOnce_of_same hfirst hres.symm⟩
      · exact Or.inl hg

/-! ## The depth of a text -/

theorem filter_splitOn_rest {rest : CStr} (h : AfterName rest) :
    (rest.splitOn SLASH).tail.filter (· ≠ []) = (rest.splitOn SLASH).filter (· ≠ []) := by
  cases h with
  | inl hnil => rw [hnil]; rfl
  | inr hslash =>
    cases rest with
    | nil => cases hslash
    | cons b rest =>
      rw [List.head?_cons, Option.some.injEq] at hslash
      rw [hslash, splitOn_slash, List.tail_cons, List.filter_cons_of_neg (by simp)]

theorem filter_splitOn_replicate (k : Nat) (x : CStr) :
    ((List.replicate k SLASH ++ x).splitOn SLASH).filter (· ≠ []) =
      (x.splitOn SLASH).filter (· ≠ []) := by
  induction k with
  | zero => rfl
  | succ k ih =>
    rw [List.replicate_succ, List.cons_append, splitOn_slash, List.filter_cons_of_neg (by simp),
      ih]

/-- The components of a path of parts. -/
theorem names_spell (hok : ∀ s ∈ ss, s.Ok) (e : Nat) :
    ((spell ss ++ List.replicate e SLASH).splitOn SLASH).filter (· ≠ []) = ss.map Part.name := by
  induction ss with
  | nil =>
    have h := filter_splitOn_replicate e []
    rw [List.append_nil] at h
    rw [spell_nil, List.nil_append, h]
    rfl
  | cons s ss ih =>
    have hs := hok s List.mem_cons_self
    have hlater : ∀ t ∈ ss, t.Ok := fun t ht => hok t (List.mem_cons_of_mem _ ht)
    have hrest := afterName_spell hlater e
    rw [spell_cons, Part.text, List.append_assoc, List.append_assoc, filter_splitOn_replicate,
      splitOn_name hs.noSlash hrest, List.filter_cons_of_pos (by simpa using hs.ne_nil),
      filter_splitOn_rest hrest, ih hlater, List.map_cons]

theorem nameCount_spell (hok : ∀ s ∈ ss, s.Ok) (e : Nat) :
    nameCount (spell ss ++ List.replicate e SLASH) = ss.length := by
  rw [nameCount, names_spell hok, List.length_map]

theorem length_spell_one_le (hok : ∀ s ∈ ss, s.Ok) :
    (spell (ss.map Part.one)).length ≤ (spell ss).length ∧
      ((spell (ss.map Part.one)).length = (spell ss).length →
        spell (ss.map Part.one) = spell ss) := by
  induction ss with
  | nil => exact ⟨le_refl _, fun _ => rfl⟩
  | cons s ss ih =>
    obtain ⟨hle, heq⟩ := ih fun t ht => hok t (List.mem_cons_of_mem _ ht)
    have hpos := (hok s List.mem_cons_self).slashes
    have htext : s.text.length = s.slashes + s.name.length := by simp [Part.text]
    have hone : s.one.text.length = 1 + s.name.length :=
      by simp [Part.text, Part.one, Nat.add_comm]
    rw [List.map_cons, spell_cons, spell_cons, List.length_append, List.length_append, htext,
      hone]
    refine ⟨by omega, fun hlen => ?_⟩
    have hslashes : s.slashes = 1 := by omega
    rw [heq (by omega), Part.text, Part.text, Part.one, hslashes]

/-- The texts of a path are as deep as their steps. -/
theorem depthsFrom_stepsFrom (before : List Part) (hok : ∀ s ∈ before ++ ss, s.Ok)
    (hlen : (spell (before ++ ss)).length ≤ VFS_PATH_MAX) :
    DepthsFrom before.length ((stepsFrom (spell before) ss).map Prod.snd) := by
  induction ss generalizing before with
  | nil => trivial
  | cons s ss ih =>
    have hassoc : before ++ s :: ss = (before ++ [s]) ++ ss := by simp
    have hnext : spell (before ++ [s]) = spell before ++ s.text := by
      rw [spell_append, spell_cons, spell_nil, List.append_nil]
    rw [hassoc] at hok hlen
    have hrest := ih _ hok hlen
    rw [List.length_append, List.length_singleton, hnext] at hrest
    cases ss with
    | nil => trivial
    | cons t ss =>
      refine ⟨?_, hrest⟩
      -- A text before the last one is not cut.
      have hshort : (spell before ++ s.text).length ≤ VFS_PATH_MAX - 1 := by
        have htpos := List.length_pos_of_ne_nil (hok t (by simp)).ne_nil
        have httext : t.text.length = t.slashes + t.name.length := by simp [Part.text]
        rw [spell_append, hnext, spell_cons, List.length_append, List.length_append,
          List.length_append,
          httext] at hlen
        rw [List.length_append]
        omega
      have hcount :=
        nameCount_spell
        (show ∀ u ∈ before ++ [s], u.Ok from fun u hu => hok u (List.mem_append_left _ hu)) 0
      rw [List.replicate_zero, List.append_nil, hnext, List.length_append,
        List.length_singleton] at hcount
      show nameCount ((spell before ++ s.text).take (VFS_PATH_MAX - 1)) = _
      rw [List.take_of_length_le hshort, hcount]

theorem length_spell_before {before after : List Part} (hok : ∀ s ∈ before ++ after, s.Ok)
    (hne : after ≠ []) :
    (spell before).length < (spell (before ++ after)).length := by
  obtain ⟨s, after, rfl⟩ := List.exists_cons_of_ne_nil hne
  have hpos := List.length_pos_of_ne_nil (hok s (by simp)).ne_nil
  have htext : s.text.length = s.slashes + s.name.length := by simp [Part.text]
  rw [spell_append, spell_cons, List.length_append, List.length_append, htext]
  omega

theorem distinct_of_parts {p : CStr} {e : Nat} (hlen : p.length < VFS_PATH_MAX)
    (hp : absolute p = spell ss ++ List.replicate e SLASH) (hok : ∀ s ∈ ss, s.Ok)
    (habs : absolute (squeeze p) = squeeze (absolute p))
    (hne : absolute p ≠ squeeze (absolute p)) :
    Distinct p (twins [] [] ss) := by
  have hone := ok_one hok
  have hmax : (absolute p).length ≤ VFS_PATH_MAX := by
    unfold absolute
    split
    · exact Nat.le_of_lt hlen
    · exact hlen
  have hplength := congrArg List.length hp
  rw [List.length_append, List.length_replicate] at hplength
  obtain ⟨hle, heq⟩ := length_spell_one_le hok
  have hfull := (texts_of_parts hok hp).2
  have htext : (twins [] [] ss).map Twin.text = (stepsFrom [] ss).map Prod.snd := by
    rw [← twins_text [] [], List.map_map]
    rfl
  have hplain :
      (twins [] [] ss).map Twin.plain = (stepsFrom [] (ss.map Part.one)).map Prod.snd := by
    rw [← twins_plain [] [], List.map_map]
    rfl
  -- The other spelling is shorter, so nothing of it is cut.
  have hshort : ss ≠ [] → (spell (ss.map Part.one)).length ≤ VFS_PATH_MAX - 1 ∧
      fullText (squeeze p) = spell (ss.map Part.one) := by
    intro hss
    have hsq : squeeze (absolute p) = spell (ss.map Part.one) := by rw [hp, squeeze_spell hok hss]
    have hlt : (spell (ss.map Part.one)).length < (absolute p).length := by
      refine Nat.lt_of_le_of_ne (by omega) fun hsame => hne ?_
      have he : e = 0 := by omega
      rw [hsq, hp, he, List.replicate_zero, List.append_nil, heq (by omega)]
    have hparts : absolute (squeeze p) = spell (ss.map Part.one) ++ List.replicate 0 SLASH := by
      rw [habs, hsq, List.replicate_zero, List.append_nil]
    refine ⟨by omega, ?_⟩
    rw [(texts_of_parts hone hparts).2, List.replicate_zero, List.append_nil,
      List.take_of_length_le (by omega)]
  constructor
  · rw [htext]
    exact depthsFrom_stepsFrom [] hok (show (spell ss).length ≤ _ by omega)
  · rw [hplain]
    exact depthsFrom_stepsFrom [] hone (show (spell (ss.map Part.one)).length ≤ _ by omega)
  · intro x hx hsame
    obtain ⟨before, after, rfl, hafter, hxtext, -⟩ := mem_twins_dropLast hx
    obtain ⟨-, hg⟩ := hshort (by simp [hafter])
    have hlt := length_spell_before hok hafter
    rw [List.nil_append, List.take_of_length_le (by omega)] at hxtext
    have hcount :=
      nameCount_spell (show ∀ s ∈ before, s.Ok from fun s hs => hok s (List.mem_append_left _ hs))
      0
    have hcount' := nameCount_spell hone 0
    rw [List.replicate_zero, List.append_nil] at hcount hcount'
    have := List.length_pos_of_ne_nil hafter
    rw [hxtext, hg] at hsame
    rw [hsame, hcount', List.length_map, List.length_append] at hcount
    omega
  · intro x hx hsame
    obtain ⟨before, after, rfl, hafter, -, hxplain⟩ := mem_twins_dropLast hx
    obtain ⟨hle', -⟩ := hshort (by simp [hafter])
    rw [List.map_append] at hone hle'
    have hlt := length_spell_before hone (by simpa using hafter)
    rw [List.nil_append, List.take_of_length_le (by omega)] at hxplain
    rw [hxplain, hfull] at hsame
    by_cases hcut : (absolute p).length ≤ VFS_PATH_MAX - 1
    · rw [← hp, List.take_of_length_le hcut, hp] at hsame
      have hcount := nameCount_spell
        (show ∀ s ∈ before.map Part.one, s.Ok from fun s hs => hone s (List.mem_append_left _ hs))
          0
      have hcount' := nameCount_spell hok e
      have := List.length_pos_of_ne_nil hafter
      rw [List.replicate_zero, List.append_nil, hsame, hcount', List.length_map,
        List.length_append] at hcount
      omega
    · have hsize := congrArg List.length hsame
      rw [List.length_take, ← hp] at hsize
      omega

/-! ## Repeated slashes -/

/-- For all mount paths and every path: the path and its spelling with single slashes lead
to the same inode, whatever is in the filesystems, exactly when the two spellings meet
the same mounts. -/
theorem resolveFull_squeeze_iff (ps : List CStr) {p : CStr} (hlen : p.length < VFS_PATH_MAX)
    (hcomp : ∀ c ∈ p.splitOn SLASH, c.length ≤ 255) :
    (∀ (ι : Type) (v : Vfs ι), v.mounts.map Mount.path = ps →
      resolveFull v p = resolveFull v (squeeze p)) ↔
      RunsHarmless ps p := by
  by_cases hne : p = []
  · subst hne
    refine iff_of_true (fun ι v _ => rfl) ⟨trivial, Or.inl rfl⟩
  obtain ⟨ss, e, hp, hok, hsome⟩ := exists_parts hcomp
  have hspelled := spelled_of_parts hne hcomp hp hok hsome
  have habs := (absolute_squeeze hne hcomp).1
  constructor
  · intro h
    by_cases hsame : absolute p = squeeze (absolute p)
    · -- The two spellings are one.
      rw [← habs] at hsame
      have htexts : texts p = texts (squeeze p) := by rw [texts, texts, ← hsame]
      have hfull : fullText p = fullText (squeeze p) := by rw [fullText, fullText, ← hsame]
      exact ⟨by rw [← htexts]; exact mountsAgree_same _ _, Or.inl hfull⟩
    · have hdistinct := distinct_of_parts hlen hp hok habs hsame
      exact harmless_of_resolveFull hspelled hdistinct fun bad => h _ _ (labelled_paths _ bad)
  · intro h ι v hv
    exact resolveFull_of_harmless hspelled v (hv ▸ h)

theorem resolveFull_squeeze_iff_slashes :
    (∀ (ι : Type) (v : Vfs ι), v.mounts.map Mount.path = [[SLASH]] →
        resolveFull v [47, 47, 97, 47] = resolveFull v (squeeze [47, 47, 97, 47])) ↔
      RunsHarmless [[SLASH]] [47, 47, 97, 47] :=
  resolveFull_squeeze_iff [[SLASH]] (by decide) (by decide)

/-- With a filesystem mounted at `/m`, the path `//m` does not reach it. -/
theorem doubleSlash_misses_mount :
    ¬ ∀ (ι : Type) (v : Vfs ι) (p : CStr), p.length < VFS_PATH_MAX →
      (∀ c ∈ p.splitOn SLASH, c.length ≤ 255) →
      resolveFull v p = resolveFull v (squeeze p) := by
  intro h
  have hres := h Bool (mountOnly [47, 109]) [47, 47, 109] (by decide) (by decide)
  revert hres
  decide

end Lumin.Fs
