import Lumin.Proc.Path
import Mathlib.Data.List.TakeWhile

/-!
# What `normalize_path` computes

`normalize_path` keeps a stack of path components as one flat string.  The stack
itself is `stackStep`, with its top at the head of the list, and `joined` is the
string that stands for it.  `turn_joined` is the simulation of one turn of the
loop, `foldl_turn_joined` that of a whole run.

A relative path starts from `cwd` and a slash, which stands for no stack.  The
last section says for which inputs this makes no difference.
-/

namespace Lumin.Proc

open Lumin.Fs

/-! ## The component stack -/

/-- What one component of a path does to the stack. -/
def stackStep (st : List CStr) (c : CStr) : List CStr :=
  if c = [] ∨ c = [DOT] then st
  else if c = [DOT, DOT] then st.tail
  else c :: st

/-- The stack after the components `cs`, from left to right. -/
def componentStack (cs : List CStr) : List CStr := cs.foldl stackStep []

/-- A slash and the components, the top one last, with slashes between them. -/
def joined (st : List CStr) : CStr := SLASH :: [SLASH].intercalate st.reverse

/-- A component that is pushed. -/
structure Ordinary (c : CStr) : Prop where
  ne_nil : c ≠ []
  ne_dot : c ≠ [DOT]
  ne_dots : c ≠ [DOT, DOT]
  noSlash : SLASH ∉ c

/-- The string of a stack that is not empty. -/
def flat : List CStr → CStr
  | [] => []
  | c :: st => flat st ++ SLASH :: c

theorem intercalate_append {cs : List CStr} (hne : cs ≠ []) (c : CStr) :
    [SLASH].intercalate (cs ++ [c]) = [SLASH].intercalate cs ++ SLASH :: c := by
  induction cs with
  | nil => exact absurd rfl hne
  | cons d cs ih =>
    cases cs with
    | nil => simp
    | cons e cs =>
      have := ih (List.cons_ne_nil _ _)
      simp_all

theorem joined_eq_flat {st : List CStr} (hne : st ≠ []) : joined st = flat st := by
  induction st with
  | nil => exact absurd rfl hne
  | cons c st ih =>
    cases st with
    | nil => simp [joined, flat]
    | cons d st =>
      have htail := ih (List.cons_ne_nil _ _)
      have hne' : (d :: st).reverse ≠ [] := by simp
      rw [flat, ← htail, joined, joined, List.reverse_cons (a := c), intercalate_append hne',
        List.cons_append]

@[simp] theorem joined_nil : joined [] = [SLASH] := by simp [joined]

@[simp] theorem joined_cons (c : CStr) (st : List CStr) :
    joined (c :: st) = flat st ++ SLASH :: c :=
  joined_eq_flat (List.cons_ne_nil _ _)

theorem joined_length_le (st : List CStr) : (joined st).length ≤ max 1 (flat st).length := by
  cases st with
  | nil => simp
  | cons c st => simp [flat]

/-- The components can be read off the string. -/
theorem splitOn_joined {st : List CStr} (h : ∀ c ∈ st, SLASH ∉ c) (hne : st ≠ []) :
    (joined st).tail.splitOn SLASH = st.reverse := by
  rw [joined, List.tail_cons]
  exact List.splitOn_intercalate SLASH (fun c hc => h c (List.mem_reverse.mp hc))
    (by simpa using hne)

theorem joined_inj {st st' : List CStr} (h : ∀ c ∈ st, Ordinary c) (h' : ∀ c ∈ st', Ordinary c)
    (heq : joined st = joined st') : st = st' := by
  cases st with
  | nil =>
    cases st' with
    | nil => rfl
    | cons c st' =>
      -- A string with a component has a byte after its slash.
      have hlen := congrArg List.length heq
      have hpos := List.length_pos_of_ne_nil (h' c List.mem_cons_self).ne_nil
      simp at hlen
      omega
  | cons c st =>
    cases st' with
    | nil =>
      have hlen := congrArg List.length heq
      have hpos := List.length_pos_of_ne_nil (h c List.mem_cons_self).ne_nil
      simp at hlen
      omega
    | cons c' st' =>
      have hsplit := splitOn_joined (fun d hd => (h d hd).noSlash) (List.cons_ne_nil c st)
      have hsplit' := splitOn_joined (fun d hd => (h' d hd).noSlash) (List.cons_ne_nil c' st')
      rw [heq, hsplit'] at hsplit
      exact (List.reverse_injective hsplit).symm

/-- `c` is no component that the stack ignores or pops on. -/
theorem stackStep_ordinary {c : CStr} (h : Ordinary c) (st : List CStr) :
    stackStep st c = c :: st := by
  rw [stackStep, if_neg (by simp [h.ne_nil, h.ne_dot]), if_neg h.ne_dots]

theorem mem_stackStep {st : List CStr} {c d : CStr} (h : d ∈ stackStep st c) (hc : SLASH ∉ c)
    (hst : ∀ e ∈ st, Ordinary e) : Ordinary d := by
  unfold stackStep at h
  split at h
  · exact hst d h
  · rename_i hign
    rw [not_or] at hign
    split at h
    · exact hst d (List.mem_of_mem_tail h)
    · rename_i hdots
      cases List.mem_cons.mp h with
      | inl heq => exact heq ▸ ⟨hign.1, hign.2, hdots, hc⟩
      | inr hmem => exact hst d hmem

theorem foldl_stackStep_ordinary {cs : List CStr} (hcs : ∀ c ∈ cs, SLASH ∉ c) {st : List CStr}
    (hst : ∀ e ∈ st, Ordinary e) : ∀ d ∈ cs.foldl stackStep st, Ordinary d := by
  induction cs generalizing st with
  | nil => exact hst
  | cons c cs ih =>
    have hc := hcs c List.mem_cons_self
    exact ih (fun d hd => hcs d (List.mem_cons_of_mem _ hd)) fun d hd => mem_stackStep hd hc hst

theorem foldl_stackStep_filter (cs st : List CStr) :
    (cs.filter (· ≠ [])).foldl stackStep st = cs.foldl stackStep st := by
  induction cs generalizing st with
  | nil => rfl
  | cons c cs ih =>
    by_cases hc : c = []
    · have hskip : stackStep st c = st := by rw [stackStep, if_pos (Or.inl hc)]
      rw [List.filter_cons_of_neg (by simpa using hc), List.foldl_cons, hskip, ih]
    · rw [List.filter_cons_of_pos (by simpa using hc), List.foldl_cons, List.foldl_cons, ih]

theorem foldl_stackStep_pushes {cs st : List CStr} (h : ∀ c ∈ cs, Ordinary c) :
    cs.foldl stackStep st = cs.reverse ++ st := by
  induction cs generalizing st with
  | nil => rfl
  | cons c cs ih =>
    rw [List.foldl_cons, stackStep_ordinary (h c List.mem_cons_self),
      ih fun d hd => h d (List.mem_cons_of_mem _ hd), List.reverse_cons, List.append_assoc]
    rfl

/-! ## The segments of an input -/

/-- The segments that the loop takes from the input, a longer component in pieces of
`sizeof(segment) - 1` bytes. -/
def segmentsOf : Nat → CStr → List CStr
  | 0, _ => []
  | _ + 1, [] => []
  | fuel + 1, c :: input =>
    if c = SLASH then segmentsOf fuel input
    else
      let segment := ((c :: input).takeWhile (· ≠ SLASH)).take (SEGMENT_BUF - 1)
      segment :: segmentsOf fuel ((c :: input).drop segment.length)

def segments (input : CStr) : List CStr := segmentsOf input.length input

/-- The turn of the loop for one segment. -/
def turn (temp segment : CStr) : CStr :=
  if segment = [DOT] then temp
  else if segment = [DOT, DOT] then popSegment temp
  else pushSegment temp segment

theorem normalizeSegments_eq (fuel : Nat) (input temp : CStr) :
    normalizeSegments fuel input temp = (segmentsOf fuel input).foldl turn temp := by
  induction fuel generalizing input temp with
  | zero => rfl
  | succ fuel ih =>
    cases input with
    | nil => rfl
    | cons c input =>
      rw [normalizeSegments, segmentsOf]
      split
      · exact ih _ _
      · dsimp only
        rw [List.foldl_cons, turn]
        split
        · exact ih _ _
        · split
          · exact ih _ _
          · exact ih _ _

/-- The first segment of an input that does not begin with a slash. -/
theorem segment_cons {c : UInt8} (hc : c ≠ SLASH) (s : CStr) :
    ((c :: s).takeWhile (· ≠ SLASH)).take (SEGMENT_BUF - 1) =
      c :: (s.takeWhile (· ≠ SLASH)).take (SEGMENT_BUF - 2) := by
  rw [List.takeWhile_cons_of_pos (by simpa using hc)]
  rfl

/-- The loop has enough turns when it has one for each byte. -/
theorem segmentsOf_fuel (fuel : Nat) (s : CStr) (h : s.length ≤ fuel) :
    segmentsOf fuel s = segments s := by
  suffices hgen : ∀ n fuel s, s.length ≤ n → s.length ≤ fuel →
      segmentsOf fuel s = segmentsOf n s from
    hgen _ _ _ (le_refl _) h
  intro n
  induction n with
  | zero =>
    intro fuel s hs _
    rw [List.eq_nil_of_length_eq_zero (Nat.le_zero.mp hs)]
    cases fuel <;> rfl
  | succ n ih =>
    intro fuel s hs hfuel
    cases s with
    | nil => cases fuel <;> rfl
    | cons c s =>
      rw [List.length_cons] at hs hfuel
      obtain ⟨fuel, rfl⟩ : ∃ k, fuel = k + 1 := ⟨fuel - 1, by omega⟩
      rw [segmentsOf, segmentsOf]
      split
      · exact ih _ _ (by omega) (by omega)
      · rename_i hc
        dsimp only
        rw [segment_cons hc, List.length_cons, List.drop_succ_cons]
        have hdrop := List.length_drop
          (i := ((s.takeWhile (· ≠ SLASH)).take (SEGMENT_BUF - 2)).length) (l := s)
        rw [ih _ _ (by omega) (by omega)]

@[simp] theorem segments_nil : segments [] = [] := rfl

@[simp] theorem segments_slash (s : CStr) : segments (SLASH :: s) = segments s := by
  rw [segments, List.length_cons, segmentsOf, if_pos rfl]
  rfl

theorem segments_cons {c : UInt8} (hc : c ≠ SLASH) (s : CStr) :
    segments (c :: s) = (c :: (s.takeWhile (· ≠ SLASH)).take (SEGMENT_BUF - 2)) ::
      segments (s.drop ((s.takeWhile (· ≠ SLASH)).take (SEGMENT_BUF - 2)).length) := by
  rw [segments, List.length_cons, segmentsOf, if_neg hc]
  dsimp only
  rw [segment_cons hc, List.length_cons, List.drop_succ_cons, segmentsOf_fuel _ _ (by simp)]

/-- Induction along the segments of an input. -/
theorem segments_induction {motive : CStr → Prop} (nil : motive [])
    (slash : ∀ s, motive s → motive (SLASH :: s))
    (cons : ∀ c s, c ≠ SLASH →
      motive (s.drop ((s.takeWhile (· ≠ SLASH)).take (SEGMENT_BUF - 2)).length) → motive (c :: s))
    (s : CStr) : motive s := by
  induction hn : s.length using Nat.strong_induction_on generalizing s with
  | _ n ih =>
    cases s with
    | nil => exact nil
    | cons c s =>
      rw [List.length_cons] at hn
      by_cases hc : c = SLASH
      · rw [hc]
        exact slash s (ih s.length (by omega) s rfl)
      · refine cons c s hc (ih _ ?_ _ rfl)
        rw [List.length_drop]
        omega

/-- A slash ends a segment, whatever comes before it. -/
theorem segments_append (a b : CStr) : segments (a ++ SLASH :: b) = segments a ++ segments b := by
  induction a using segments_induction with
  | nil => simp
  | slash s ih => simpa using ih
  | cons c s hc ih =>
    have htake : (s ++ SLASH :: b).takeWhile (· ≠ SLASH) = s.takeWhile (· ≠ SLASH) := by
      rw [List.takeWhile_append, List.takeWhile_cons_of_neg (by simp)]
      split
      · rename_i hall
        rw [List.append_nil]
        exact (( List.takeWhile_prefix _).eq_of_length hall).symm
      · rfl
    rw [List.cons_append, segments_cons hc, segments_cons hc, htake, List.cons_append, ← ih,
      List.drop_append_of_le_length]
    exact ( List.length_take_le' ..).trans ( List.takeWhile_prefix _).length_le

theorem segments_noSlash (s : CStr) : ∀ c ∈ segments s, SLASH ∉ c ∧ c ≠ [] := by
  induction s using segments_induction with
  | nil => simp
  | slash s ih => simpa using ih
  | cons c s hc ih =>
    intro d hd
    rw [segments_cons hc] at hd
    cases List.mem_cons.mp hd with
    | inl heq =>
      subst heq
      refine ⟨fun hmem => ?_, List.cons_ne_nil _ _⟩
      cases List.mem_cons.mp hmem with
      | inl h => exact hc h.symm
      | inr h => simpa using List.mem_takeWhile_imp (List.mem_of_mem_take h)
    | inr hmem => exact ih d hmem

/-- A component of at most `sizeof(segment) - 1` bytes is one segment. -/
theorem segments_short {c : CStr} (hne : c ≠ []) (hslash : SLASH ∉ c)
    (hlen : c.length < SEGMENT_BUF) :
    segments c = [c] := by
  obtain ⟨b, s, rfl⟩ := List.exists_cons_of_ne_nil hne
  rw [List.mem_cons, not_or] at hslash
  have hall : s.takeWhile (· ≠ SLASH) = s := by
    rw [List.takeWhile_eq_self_iff]
    intro d hd
    simpa using fun h : d = SLASH => hslash.2 (h ▸ hd)
  have htake : s.take (SEGMENT_BUF - 2) = s :=
    List.take_of_length_le (by rw [List.length_cons] at hlen; omega)
  rw [segments_cons (fun h => hslash.1 h.symm), hall, htake, List.drop_length, segments_nil]

theorem splitOn_noSlash (s : CStr) : ∀ c ∈ s.splitOn SLASH, SLASH ∉ c := by
  induction s with
  | nil => simp
  | cons b s ih =>
    rw [List.splitOn_cons_eq_if_modifyHead]
    obtain ⟨c, cs, hcs⟩ := List.exists_cons_of_ne_nil ( List.splitOn_ne_nil SLASH s)
    rw [hcs] at ih ⊢
    by_cases hb : b = SLASH
    · rw [if_pos (by simpa using hb)]
      intro d hd
      cases List.mem_cons.mp hd with
      | inl heq => simp [heq]
      | inr hmem => exact ih d hmem
    · rw [if_neg (by simpa using hb), List.modifyHead_cons]
      intro d hd
      cases List.mem_cons.mp hd with
      | inl heq =>
        rw [heq, List.mem_cons, not_or]
        exact ⟨fun h => hb h.symm, ih c List.mem_cons_self⟩
      | inr hmem => exact ih d (List.mem_cons_of_mem _ hmem)

theorem segments_intercalate {cs : List CStr} (hslash : ∀ c ∈ cs, SLASH ∉ c)
    (hlen : ∀ c ∈ cs, c.length < SEGMENT_BUF) :
    segments ([SLASH].intercalate cs) = cs.filter (· ≠ []) := by
  induction cs with
  | nil => rfl
  | cons c cs ih =>
    have hone : segments c = [c].filter (· ≠ []) := by
      by_cases hc : c = []
      · simp [hc]
      · rw [segments_short hc (hslash c List.mem_cons_self) (hlen c List.mem_cons_self),
          List.filter_cons_of_pos (by simpa using hc), List.filter_nil]
    cases cs with
    | nil => rw [List.intercalate_singleton, hone]
    | cons d cs =>
      have htail := ih (fun e he => hslash e (List.mem_cons_of_mem _ he))
        fun e he => hlen e (List.mem_cons_of_mem _ he)
      rw [List.intercalate_cons_cons, List.append_assoc, List.singleton_append, segments_append,
        hone,
        htail, ← List.filter_append, List.singleton_append]

/-- The segments of an input without long components are its components that are not empty. -/
theorem segments_eq_filter {s : CStr} (hlen : ∀ c ∈ s.splitOn SLASH, c.length < SEGMENT_BUF) :
    segments s = (s.splitOn SLASH).filter (· ≠ []) := by
  have h := segments_intercalate (splitOn_noSlash s) hlen
  rwa [List.intercalate_splitOn] at h

/-! ## The room that a stack takes -/

/-- The bytes that the components take in the buffer, each with its slash. -/
def room (cs : List CStr) : Nat := (cs.map fun c => c.length + 1).sum

@[simp] theorem room_nil : room [] = 0 := rfl

@[simp] theorem room_cons (c : CStr) (cs : List CStr) : room (c :: cs) = c.length + 1 + room cs :=
  rfl

@[simp] theorem flat_length (st : List CStr) : (flat st).length = room st := by
  induction st with
  | nil => rfl
  | cons c st ih =>
    rw [flat, List.length_append, ih, room_cons, List.length_cons]
    omega

theorem room_filter_le (p : CStr → Bool) (cs : List CStr) : room (cs.filter p) ≤ room cs := by
  induction cs with
  | nil => exact le_refl _
  | cons c cs ih =>
    rw [List.filter_cons]
    split
    · exact Nat.add_le_add_left ih _
    · exact ih.trans (Nat.le_add_left _ _)

theorem room_intercalate {cs : List CStr} (hne : cs ≠ []) :
    room cs = ([SLASH].intercalate cs).length + 1 := by
  induction cs with
  | nil => exact absurd rfl hne
  | cons c cs ih =>
    cases cs with
    | nil => simp
    | cons d cs =>
      rw [List.intercalate_cons_cons, room_cons, ih (List.cons_ne_nil _ _)]
      simp
      omega

theorem room_splitOn (s : CStr) : room (s.splitOn SLASH) = s.length + 1 := by
  rw [room_intercalate ( List.splitOn_ne_nil _ _), List.intercalate_splitOn]

theorem room_stackStep_le (st : List CStr) (c : CStr) :
    room (stackStep st c) ≤ room st + (c.length + 1) := by
  unfold stackStep
  split
  · exact Nat.le_add_right _ _
  · split
    · cases st with
      | nil => exact Nat.zero_le _
      | cons d st =>
        rw [List.tail_cons, room_cons]
        omega
    · rw [room_cons, Nat.add_comm]

theorem room_foldl_stackStep_le (cs st : List CStr) :
    room (cs.foldl stackStep st) ≤ room st + room cs := by
  induction cs generalizing st with
  | nil => exact Nat.le_add_right _ _
  | cons c cs ih =>
    have hstep := room_stackStep_le st c
    have hrest := ih (stackStep st c)
    rw [List.foldl_cons, room_cons]
    omega

/-! ## One turn of the loop -/

theorem popSegment_joined {c : CStr} {st : List CStr} (hne : c ≠ []) (hc : SLASH ∉ c) :
    popSegment (joined (c :: st)) = joined st := by
  have hdrop : (joined (c :: st)).reverse.dropWhile (· ≠ SLASH) = SLASH :: (flat st).reverse := by
    rw [joined_cons, List.reverse_append, List.reverse_cons, List.append_assoc,
      List.singleton_append,
      List.dropWhile_append_of_pos, List.dropWhile_cons_of_neg (by simp)]
    intro b hb
    have : b ≠ SLASH := fun h => hc (h ▸ List.mem_reverse.mp hb)
    simpa using this
  have hpos := List.length_pos_of_ne_nil hne
  have hlen : (joined (c :: st)).length > 1 := by simp; omega
  rw [popSegment, if_pos hlen, hdrop]
  cases st with
  | nil => simp [flat]
  | cons d st =>
    obtain ⟨b, rest, hrev⟩ := List.exists_cons_of_ne_nil
      (show (flat (d :: st)).reverse ≠ [] by simp [flat])
    have hback : (b :: rest).reverse = flat (d :: st) := by rw [← hrev, List.reverse_reverse]
    rw [hrev]
    dsimp only
    rw [hback, joined_eq_flat (List.cons_ne_nil _ _)]

theorem pushTemp_of_le {temp s : CStr} (h : temp.length + s.length ≤ PATH_BUF - 1) :
    pushTemp temp s = temp ++ s := by
  rw [pushTemp, List.take_of_length_le (by omega)]

theorem getLast_joined {c : CStr} {st : List CStr} (h : Ordinary c) :
    (joined (c :: st)).getLast? ≠ some SLASH := by
  rw [joined_cons, List.getLast?_append_cons, List.getLast?_cons_of_ne_nil h.ne_nil]
  intro hlast
  exact h.noSlash (List.mem_of_getLast? hlast)

theorem pushSegment_joined {c : CStr} {st : List CStr} (hst : ∀ d ∈ st, Ordinary d)
    (hroom : room (c :: st) ≤ PATH_BUF - 1) : pushSegment (joined st) c = joined (c :: st) := by
  rw [room_cons] at hroom
  cases st with
  | nil =>
    rw [room_nil] at hroom
    rw [pushSegment, joined_nil, if_neg (by simp), pushTemp_of_le (by simp; omega), joined_cons,
      flat]
    rfl
  | cons d st =>
    have hlong : (joined (d :: st)).length > 1 := by
      have := List.length_pos_of_ne_nil (hst d List.mem_cons_self).ne_nil
      simp
      omega
    have hflat : joined (d :: st) = flat (d :: st) := joined_eq_flat (List.cons_ne_nil _ _)
    have hsize : (joined (d :: st)).length = room (d :: st) := by rw [hflat, flat_length]
    have hsep : pushTemp (joined (d :: st)) [SLASH] = joined (d :: st) ++ [SLASH] :=
      pushTemp_of_le (by rw [hsize, List.length_singleton]; omega)
    rw [pushSegment, if_pos ⟨hlong, getLast_joined (hst d List.mem_cons_self)⟩, hsep,
      pushTemp_of_le (by rw [List.length_append, hsize, List.length_singleton]; omega),
      joined_cons c, hflat, List.append_assoc, List.singleton_append]

/-- One turn of the loop is one step of the stack. -/
theorem turn_joined {c : CStr} {st : List CStr} (hst : ∀ d ∈ st, Ordinary d) (hne : c ≠ [])
    (hroom : room (c :: st) ≤ PATH_BUF - 1) : turn (joined st) c = joined (stackStep st c) := by
  by_cases hdot : c = [DOT]
  · have hskip : stackStep st c = st := by rw [stackStep, if_pos (Or.inr hdot)]
    rw [turn, if_pos hdot, hskip]
  · have hkeep : ¬ (c = [] ∨ c = [DOT]) := by simp [hne, hdot]
    rw [turn, if_neg hdot, stackStep, if_neg hkeep]
    by_cases hdots : c = [DOT, DOT]
    · rw [if_pos hdots, if_pos hdots]
      cases st with
      | nil => simp [popSegment]
      | cons d st =>
        have hd := hst d List.mem_cons_self
        exact popSegment_joined hd.ne_nil hd.noSlash
    · rw [if_neg hdots, if_neg hdots]
      exact pushSegment_joined hst hroom

/-- A run of the loop is a run of the stack. -/
theorem foldl_turn_joined {cs st : List CStr} (hcs : ∀ c ∈ cs, SLASH ∉ c ∧ c ≠ [])
    (hst : ∀ d ∈ st, Ordinary d) (hroom : room st + room cs ≤ PATH_BUF - 1) :
    cs.foldl turn (joined st) = joined (cs.foldl stackStep st) := by
  induction cs generalizing st with
  | nil => rfl
  | cons c cs ih =>
    obtain ⟨hslash, hne⟩ := hcs c List.mem_cons_self
    rw [room_cons] at hroom
    have hstep := room_stackStep_le st c
    rw [List.foldl_cons, List.foldl_cons, turn_joined hst hne (by rw [room_cons]; omega)]
    exact ih (fun d hd => hcs d (List.mem_cons_of_mem _ hd))
      (fun d hd => mem_stackStep hd hslash hst)
      (by omega)

/-! ## Absolute paths -/

/-- The root, or a slash and components that each name something, with slashes
between them and none at the end. -/
def Canonical (p : CStr) : Prop :=
  p = [SLASH] ∨
    (p.head? = some SLASH ∧ p.getLast? ≠ some SLASH ∧
      ∀ c ∈ p.tail.splitOn SLASH, c ≠ [] ∧ c ≠ [DOT] ∧ c ≠ [DOT, DOT])

theorem canonical_joined {st : List CStr} (h : ∀ c ∈ st, Ordinary c) : Canonical (joined st) := by
  cases st with
  | nil => exact Or.inl joined_nil
  | cons c st =>
    refine Or.inr ⟨rfl, getLast_joined (h c List.mem_cons_self), fun d hd => ?_⟩
    rw [splitOn_joined (fun e he => (h e he).noSlash) (List.cons_ne_nil _ _)] at hd
    have := h d (List.mem_reverse.mp hd)
    exact ⟨this.ne_nil, this.ne_dot, this.ne_dots⟩

/-- The components of a canonical path, the last one first. -/
theorem canonical_stack {p : CStr} (h : Canonical p) :
    ∃ st, (∀ c ∈ st, Ordinary c) ∧ p = joined st := by
  cases h with
  | inl hroot => exact ⟨[], by simp, by rw [hroot, joined_nil]⟩
  | inr hne =>
    obtain ⟨hhead, -, hcs⟩ := hne
    obtain ⟨b, p, rfl⟩ : ∃ b s, p = b :: s := by
      cases p with
      | nil => cases hhead
      | cons b s => exact ⟨b, s, rfl⟩
    rw [List.head?_cons, Option.some.injEq] at hhead
    rw [List.tail_cons] at hcs
    refine ⟨(p.splitOn SLASH).reverse, fun c hc => ?_, ?_⟩
    · have hmem := List.mem_reverse.mp hc
      obtain ⟨h1, h2, h3⟩ := hcs c hmem
      exact ⟨h1, h2, h3, splitOn_noSlash p c hmem⟩
    · rw [joined, List.reverse_reverse, List.intercalate_splitOn, hhead]

theorem normalizePath_slash (stray : UInt8) (cwd input : CStr) (maxLen : Nat) :
    normalizePath stray cwd (SLASH :: input) maxLen =
      ((segments input).foldl turn [SLASH]).take (maxLen - 1) := by
  rw [normalizePath, if_pos rfl, normalizeSegments_eq]
  rfl

/-- The run of the loop from the stack `st`, when its segments fit the buffer. -/
theorem foldl_turn_take {cs st : List CStr} (hcs : ∀ c ∈ cs, SLASH ∉ c ∧ c ≠ [])
    (hst : ∀ d ∈ st, Ordinary d) (hroom : room st + room cs ≤ PATH_BUF - 1) :
    (cs.foldl turn (joined st)).take (PATH_BUF - 1) = joined (cs.foldl stackStep st) := by
  rw [foldl_turn_joined hcs hst hroom, List.take_of_length_le]
  have hlen := joined_length_le (cs.foldl stackStep st)
  have hfold := room_foldl_stackStep_le cs st
  rw [flat_length] at hlen
  have : PATH_BUF = 256 := rfl
  omega

/-- The components of an absolute path, one by one, for an input whose components each
fit the segment buffer. -/
theorem normalizePath_components (stray : UInt8) (cwd : CStr) {input : CStr}
    (habs : input.head? = some SLASH) (hlen : input.length ≤ PATH_BUF - 1)
    (hshort : ∀ c ∈ input.splitOn SLASH, c.length < SEGMENT_BUF) :
    normalizePath stray cwd input PATH_BUF = joined (componentStack (input.splitOn SLASH)) := by
  obtain ⟨b, input, rfl⟩ : ∃ b s, input = b :: s := by
    cases input with
    | nil => cases habs
    | cons b s => exact ⟨b, s, rfl⟩
  rw [List.head?_cons, Option.some.injEq] at habs
  subst habs
  have hsplit : (SLASH :: input).splitOn SLASH = [] :: input.splitOn SLASH := by
    rw [List.splitOn_cons_eq_if_modifyHead, if_pos (by simp)]
  rw [hsplit] at hshort ⊢
  have hseg := segments_eq_filter fun c hc => hshort c (List.mem_cons_of_mem _ hc)
  have hroom : room (segments input) ≤ input.length + 1 := by
    rw [hseg, ← room_splitOn]
    exact room_filter_le _ _
  rw [List.length_cons] at hlen
  rw [normalizePath_slash, ← joined_nil,
    foldl_turn_take (segments_noSlash input) (by simp) (by rw [room_nil]; omega), hseg,
    foldl_stackStep_filter, componentStack, List.foldl_cons, stackStep, if_pos (Or.inl rfl)]

theorem splitOn_slash_joined {c : CStr} {st : List CStr} (h : ∀ d ∈ c :: st, SLASH ∉ d) :
    (joined (c :: st)).splitOn SLASH = [] :: (c :: st).reverse := by
  rw [← splitOn_joined h (List.cons_ne_nil _ _), joined, List.splitOn_cons_eq_if_modifyHead,
    if_pos (by simp), List.tail_cons]

/-- A canonical path of short components is left as it is. -/
theorem normalizePath_canonical (stray : UInt8) (cwd : CStr) {p : CStr} (hcan : Canonical p)
    (hlen : p.length ≤ PATH_BUF - 1) (hshort : ∀ c ∈ p.splitOn SLASH, c.length < SEGMENT_BUF) :
    normalizePath stray cwd p PATH_BUF = p := by
  obtain ⟨st, hst, rfl⟩ := canonical_stack hcan
  rw [normalizePath_components stray cwd rfl hlen hshort]
  cases st with
  | nil => decide
  | cons c st =>
    rw [splitOn_slash_joined fun d hd => (hst d hd).noSlash, componentStack, List.foldl_cons,
      stackStep,
      if_pos (Or.inl rfl), foldl_stackStep_pushes fun d hd => hst d (List.mem_reverse.mp hd),
      List.reverse_reverse, List.append_nil]

theorem mem_foldl_stackStep {cs st : List CStr} {d : CStr} (h : d ∈ cs.foldl stackStep st) :
    d ∈ st ∨ d ∈ cs := by
  induction cs generalizing st with
  | nil => exact Or.inl h
  | cons c cs ih =>
    cases ih h with
    | inr hmem => exact Or.inr (List.mem_cons_of_mem _ hmem)
    | inl hmem =>
      unfold stackStep at hmem
      split at hmem
      · exact Or.inl hmem
      · split at hmem
        · exact Or.inl (List.mem_of_mem_tail hmem)
        · cases List.mem_cons.mp hmem with
          | inl heq => exact Or.inr (heq ▸ List.mem_cons_self)
          | inr hold => exact Or.inl hold

/-- An absolute path of at most 255 bytes whose components have at most 63 bytes: the
result is the stack of its components, it is canonical, and normalising it again
changes nothing. -/
theorem normalizePath_absolute (stray : UInt8) (cwd input : CStr)
    (habs : input.head? = some SLASH) (hlen : input.length ≤ 255)
    (hshort : ∀ c ∈ input.splitOn SLASH, c.length ≤ 63) :
    normalizePath stray cwd input 256 = joined (componentStack (input.splitOn SLASH)) ∧
      Canonical (normalizePath stray cwd input 256) ∧
      ∀ stray' cwd', normalizePath stray' cwd' (normalizePath stray cwd input 256) 256 =
        normalizePath stray cwd input 256 := by
  have hcomp :
      normalizePath stray cwd input 256 = joined (componentStack (input.splitOn SLASH)) :=
    normalizePath_components stray cwd habs hlen fun c hc => Nat.lt_succ_of_le (hshort c hc)
  have hst : ∀ c ∈ componentStack (input.splitOn SLASH), Ordinary c :=
    foldl_stackStep_ordinary (splitOn_noSlash input) (by simp)
  have hcan := canonical_joined hst
  have hout : (normalizePath stray cwd input 256).length ≤ 255 := List.length_take_le _ _
  rw [hcomp] at hout ⊢
  refine ⟨rfl, hcan, fun stray' cwd' => normalizePath_canonical stray' cwd' hcan hout fun d hd =>
    ?_⟩
  -- The components of the result are components of the input.
  have hsub : ∀ d ∈ componentStack (input.splitOn SLASH), d.length < SEGMENT_BUF := by
    intro d hd
    cases mem_foldl_stackStep hd with
    | inl h => cases h
    | inr h => exact Nat.lt_succ_of_le (hshort d h)
  generalize componentStack (input.splitOn SLASH) = st at hst hd hsub
  cases st with
  | nil =>
    have hroot : [SLASH].splitOn SLASH = [[], []] := by decide
    rw [joined_nil, hroot] at hd
    have hnil : d = [] := by simpa using hd
    rw [hnil]
    decide
  | cons c st =>
    rw [splitOn_slash_joined fun e he => (hst e he).noSlash] at hd
    cases List.mem_cons.mp hd with
    | inl hnil =>
      rw [hnil]
      decide
    | inr hmem => exact hsub d (List.mem_reverse.mp hmem)

/-- `/a/./b//../c/` gives `/a/c`. -/
theorem normalizePath_absolute_dots :
    normalizePath 0 [] [47, 97, 47, 46, 47, 98, 47, 47, 46, 46, 47, 99, 47] 256 =
      joined (componentStack
        ([47, 97, 47, 46, 47, 98, 47, 47, 46, 46, 47, 99, 47].splitOn SLASH)) :=
  (normalizePath_absolute 0 [] _ (by decide) (by decide) (by decide)).1

/-! ## Relative paths -/

/-- A canonical path whose components each fit the segment buffer: what
`normalizePath_canonical` leaves as it is. -/
structure Normalised (p : CStr) : Prop where
  canonical : Canonical p
  short : ∀ c ∈ p.splitOn SLASH, c.length ≤ 63

/-- From a stack of `depth` components, the segments empty it at some point. -/
def EmptiesStack : Nat → List CStr → Prop
  | 0, _ => True
  | _ + 1, [] => False
  | depth + 1, c :: cs =>
    if c = [DOT] then EmptiesStack (depth + 1) cs
    else if c = [DOT, DOT] then EmptiesStack depth cs
    else EmptiesStack (depth + 2) cs

/-- The trailing slash that `cwd` gets in the buffer does no harm: there is none, or
the first segment other than `.` is pushed after it, or that segment is `..` and the
ones after it take the stack to the root all the same. -/
def SlashHarmless (cwd input : CStr) : Prop :=
  cwd = [SLASH] ∨
    match (segments input).dropWhile (· = [DOT]) with
    | [] => False
    | c :: cs => c = [DOT, DOT] → EmptiesStack (cwd.tail.splitOn SLASH).length cs

/-- Two stacks that differ in one component below `top` come together exactly when the
shorter one is popped at the root. -/
theorem foldl_stackStep_eq_iff {cs : List CStr} (hcs : ∀ c ∈ cs, c ≠ []) (top st : List CStr)
    (d : CStr) :
    cs.foldl stackStep (top ++ d :: st) = cs.foldl stackStep (top ++ st) ↔
      EmptiesStack (top.length + st.length + 1) cs := by
  induction cs generalizing top st d with
  | nil =>
    rw [EmptiesStack, iff_false]
    intro heq
    have := congrArg List.length heq
    simp at this
  | cons c cs ih =>
    have hne := hcs c List.mem_cons_self
    have hrest : ∀ e ∈ cs, e ≠ [] := fun e he => hcs e (List.mem_cons_of_mem _ he)
    rw [List.foldl_cons, List.foldl_cons, EmptiesStack]
    by_cases hdot : c = [DOT]
    · have hskip : ∀ s, stackStep s c = s := fun s => by rw [stackStep, if_pos (Or.inr hdot)]
      rw [hskip, hskip, if_pos hdot]
      exact ih hrest top st d
    rw [if_neg hdot]
    have hkeep : ¬ (c = [] ∨ c = [DOT]) := by simp [hne, hdot]
    by_cases hdots : c = [DOT, DOT]
    · have hpop : ∀ s, stackStep s c = s.tail :=
        fun s => by rw [stackStep, if_neg hkeep, if_pos hdots]
      rw [hpop, hpop, if_pos hdots]
      cases top with
      | cons t top =>
        have := ih hrest top st d
        rw [List.length_cons, show top.length + 1 + st.length = top.length + st.length +
          1 by omega]
        exact this
      | nil =>
        cases st with
        | nil => simp [EmptiesStack]
        | cons e st => simpa using ih hrest [] st e
    · have hpush : ∀ s, stackStep s c = c :: s :=
        fun s => by rw [stackStep, if_neg hkeep, if_neg hdots]
      rw [hpush, hpush, if_neg hdots]
      have := ih hrest (c :: top) st d
      rw [List.length_cons, show top.length + 1 + st.length + 1 = top.length + st.length +
        2 by omega]
        at this
      exact this

/-- After a segment that is not full the input is at its end or at a slash. -/
theorem rest_of_segment (s : CStr) :
    ((s.takeWhile (· ≠ SLASH)).take (SEGMENT_BUF - 2)).length = SEGMENT_BUF - 2 ∨
      ∀ b, (s.drop ((s.takeWhile (· ≠ SLASH)).take (SEGMENT_BUF - 2)).length).head? = some b →
        b = SLASH := by
  rcases Nat.lt_or_ge (s.takeWhile (· ≠ SLASH)).length (SEGMENT_BUF - 2) with hlt | hge
  · right
    intro b hb
    have hdrop : s.drop (s.takeWhile (· ≠ SLASH)).length = s.dropWhile (· ≠ SLASH) := by
      nth_rewrite 2
        [← List.takeWhile_append_dropWhile (p := fun c : UInt8 => decide (c ≠ SLASH)) (l := s)]
      exact List.drop_left
    rw [List.take_of_length_le (Nat.le_of_lt hlt), hdrop] at hb
    have := List.head?_dropWhile_not (fun c : UInt8 => decide (c ≠ SLASH)) s
    rw [hb] at this
    simpa using this
  · exact Or.inl (List.length_take_of_le hge)

/-- The number of segments that fill the segment buffer. -/
def fullCount (cs : List CStr) : Nat := cs.countP fun c => c.length = 63

theorem fullCount_cons (c : CStr) (cs : List CStr) :
    fullCount (c :: cs) = fullCount cs + if c.length = 63 then 1 else 0 := by
  simp [fullCount, List.countP_cons]

/-- Only a full segment can take more bytes in the buffer than in the input, and only one. -/
theorem room_segments_le (s : CStr) :
    room (segments s) ≤ s.length + 1 + fullCount (segments s) ∧
      ((∀ b, s.head? = some b → b = SLASH) →
        room (segments s) ≤ s.length + fullCount (segments s)) := by
  induction s using segments_induction with
  | nil => simp
  | slash s ih =>
    rw [segments_slash, List.length_cons]
    exact ⟨by omega, fun _ => ih.1⟩
  | cons c s hc ih =>
    refine ⟨?_, fun h => absurd (h c rfl) hc⟩
    have hrest := rest_of_segment s
    have hle : ((s.takeWhile (· ≠ SLASH)).take (SEGMENT_BUF - 2)).length ≤ s.length :=
      ( List.length_take_le' ..).trans ( List.takeWhile_prefix _).length_le
    have hlen := List.length_drop
      (i := ((s.takeWhile (· ≠ SLASH)).take (SEGMENT_BUF - 2)).length) (l := s)
    rw [segments_cons hc, room_cons, fullCount_cons, List.length_cons, List.length_cons]
    generalize (s.takeWhile (· ≠ SLASH)).take (SEGMENT_BUF - 2) = run at *
    cases hrest with
    | inl hfull =>
      have : run.length + 1 = 63 := by rw [hfull]; rfl
      rw [if_pos this]
      omega
    | inr hend =>
      have := ih.2 hend
      omega

theorem lengths_segments_le (s : CStr) : ((segments s).map List.length).sum ≤ s.length := by
  induction s using segments_induction with
  | nil => simp
  | slash s ih =>
    rw [segments_slash, List.length_cons]
    omega
  | cons c s hc ih =>
    have hle : ((s.takeWhile (· ≠ SLASH)).take (SEGMENT_BUF - 2)).length ≤ s.length :=
      ( List.length_take_le' ..).trans ( List.takeWhile_prefix _).length_le
    rw [segments_cons hc, List.map_cons, List.sum_cons, List.length_cons, List.length_cons]
    rw [List.length_drop] at ih
    omega

theorem fullCount_le (cs : List CStr) : 63 * fullCount cs ≤ (cs.map List.length).sum := by
  induction cs with
  | nil => simp [fullCount]
  | cons c cs ih =>
    rw [fullCount_cons, List.map_cons, List.sum_cons]
    split <;> omega

/-- What follows a first `..` fits beside `cwd`. -/
theorem room_after_dots {cwd input : CStr} {dots cs : List CStr} (hdots : ∀ c ∈ dots, c = [DOT])
    (hsplit : segments input = dots ++ [DOT, DOT] :: cs) (hcwd : 2 ≤ cwd.length)
    (hlen : cwd.length + input.length + 1 ≤ 255) : cwd.length + room cs ≤ PATH_BUF - 1 := by
  have hroom := (room_segments_le input).1
  have hsum := lengths_segments_le input
  have hfull := fullCount_le cs
  have hnone : fullCount (dots ++ [DOT, DOT] :: cs) = fullCount cs := by
    rw [fullCount, List.countP_append, ← fullCount, ← fullCount, fullCount_cons,
      if_neg (by decide),
      Nat.add_zero, Nat.add_eq_right, fullCount, List.countP_eq_zero]
    intro c hc
    rw [hdots c hc]
    decide
  have hrest : room (dots ++ [DOT, DOT] :: cs) = room dots + 3 + room cs := by
    simp [room]
    omega
  rw [hsplit, hnone, hrest] at hroom
  rw [hsplit, List.map_append, List.sum_append, List.map_cons, List.sum_cons] at hsum
  have : [DOT, DOT].length = 2 := rfl
  have : PATH_BUF = 256 := rfl
  omega

/-- The components of a normalised path are the segments that the loop takes from it. -/
theorem segments_joined {st : List CStr} (hst : ∀ c ∈ st, Ordinary c)
    (hshort : ∀ c ∈ (joined st).splitOn SLASH, c.length < SEGMENT_BUF) :
    segments (joined st) = st.reverse := by
  rw [segments_eq_filter hshort]
  cases st with
  | nil => decide
  | cons c st =>
    rw [splitOn_slash_joined fun d hd => (hst d hd).noSlash, List.filter_cons_of_neg (by simp),
      List.filter_eq_self]
    intro d hd
    simpa using (hst d (List.mem_reverse.mp hd)).ne_nil

/-- The loop over a normalised path builds that path. -/
theorem foldl_turn_normalised {st : List CStr} (hst : ∀ c ∈ st, Ordinary c)
    (hlen : (joined st).length ≤ PATH_BUF - 1) : st.reverse.foldl turn [SLASH] = joined st := by
  have hroom : room st.reverse ≤ PATH_BUF - 1 := by
    cases st with
    | nil => exact Nat.zero_le _
    | cons c st =>
      rw [joined_eq_flat (List.cons_ne_nil _ _), flat_length] at hlen
      rwa [room, List.map_reverse, List.sum_reverse]
  rw [← joined_nil, foldl_turn_joined, foldl_stackStep_pushes, List.reverse_reverse,
    List.append_nil]
  · exact fun c hc => hst c (List.mem_reverse.mp hc)
  · exact fun c hc =>
      ⟨(hst c (List.mem_reverse.mp hc)).noSlash, (hst c (List.mem_reverse.mp hc)).ne_nil⟩
  · simp
  · rwa [room_nil, Nat.zero_add]

/-- `normalize_path` on `cwd`, a slash and the input. -/
theorem normalizePath_under {st : List CStr} (hst : ∀ c ∈ st, Ordinary c)
    (hshort : ∀ c ∈ (joined st).splitOn SLASH, c.length < SEGMENT_BUF)
    (hlen : (joined st).length ≤ PATH_BUF - 1) (stray : UInt8) (cwd input : CStr) (maxLen : Nat) :
    normalizePath stray cwd (joined st ++ SLASH :: input) maxLen =
      ((segments input).foldl turn (joined st)).take (maxLen - 1) := by
  have hsegs := segments_append (joined st) input
  rw [segments_joined hst hshort, joined, List.cons_append, segments_slash] at hsegs
  rw [joined, List.cons_append, normalizePath_slash, hsegs, List.foldl_append,
    foldl_turn_normalised hst hlen, joined]

/-- `normalize_path` on a relative input. -/
theorem normalizePath_relative (stray : UInt8) (cwd : CStr) {input : CStr} (hne : input ≠ [])
    (hrel : input.head? ≠ some SLASH) (maxLen : Nat) :
    normalizePath stray cwd input maxLen =
      ((segments input).foldl turn (cwdTemp stray cwd)).take (maxLen - 1) := by
  obtain ⟨b, input, rfl⟩ := List.exists_cons_of_ne_nil hne
  have hb : b ≠ SLASH := fun h => hrel (by rw [h]; rfl)
  rw [normalizePath, if_neg hb, normalizeSegments_eq]
  rfl

theorem cwdTemp_joined (stray : UInt8) {c : CStr} {st : List CStr}
    (hst : ∀ d ∈ c :: st, Ordinary d)
    (hlen : (joined (c :: st)).length ≤ PATH_BUF - 1) :
    cwdTemp stray (joined (c :: st)) = joined (c :: st) ++ [SLASH] := by
  have hlast : (joined (c :: st)).getLast? ≠ some SLASH :=
    getLast_joined (hst c List.mem_cons_self)
  rw [cwdTemp, List.take_of_length_le hlen, if_pos]
  cases hget : (joined (c :: st)).getLast? with
  | none => simp at hget
  | some b =>
    rw [hget] at hlast
    simpa using hlast

/-- Leading `.` segments change nothing. -/
theorem foldl_turn_dropWhile (cs : List CStr) (temp : CStr) :
    cs.foldl turn temp = (cs.dropWhile (· = [DOT])).foldl turn temp := by
  induction cs generalizing temp with
  | nil => rfl
  | cons c cs ih =>
    by_cases hc : c = [DOT]
    · rw [List.dropWhile_cons_of_pos (by simpa using hc), List.foldl_cons, turn, if_pos hc, ih]
    · rw [List.dropWhile_cons_of_neg (by simpa using hc)]

/-- `..` after the trailing slash takes only the slash away. -/
theorem popSegment_trailing (c : CStr) (st : List CStr) :
    popSegment (joined (c :: st) ++ [SLASH]) = joined (c :: st) := by
  have hne : (joined (c :: st)).reverse ≠ [] := by simp
  obtain ⟨b, rest, hrev⟩ := List.exists_cons_of_ne_nil hne
  have hback : (b :: rest).reverse = joined (c :: st) := by rw [← hrev, List.reverse_reverse]
  rw [popSegment, if_pos (by simp; omega), List.reverse_append, List.reverse_singleton,
    List.singleton_append,
    List.dropWhile_cons_of_neg (by simp), hrev]
  exact hback

/-- An ordinary segment after the trailing slash. -/
theorem pushSegment_trailing {c : CStr} {st : List CStr} (hst : ∀ d ∈ c :: st, Ordinary d)
    (hlen : (joined (c :: st)).length < PATH_BUF - 1) (d : CStr) :
    pushSegment (joined (c :: st) ++ [SLASH]) d = pushSegment (joined (c :: st)) d := by
  have hlong : (joined (c :: st)).length > 1 := by
    have := List.length_pos_of_ne_nil (hst c List.mem_cons_self).ne_nil
    simp
    omega
  have hend : (joined (c :: st) ++ [SLASH]).getLast? = some SLASH := List.getLast?_concat
  rw [pushSegment, pushSegment, if_neg (fun h => h.2 hend),
    if_pos ⟨hlong, getLast_joined (hst c List.mem_cons_self)⟩,
    pushTemp_of_le (s := [SLASH])]
  rw [List.length_singleton]
  omega

/-- Segments after a `..` that took only the slash away, and after one that took the last
component. -/
theorem foldl_turn_eq_iff {c : CStr} {st cs : List CStr} (hst : ∀ d ∈ c :: st, Ordinary d)
    (hcs : ∀ e ∈ cs, SLASH ∉ e ∧ e ≠ []) (hroom : room (c :: st) + room cs ≤ PATH_BUF - 1) :
    (cs.foldl turn (joined (c :: st))).take (PATH_BUF - 1) =
      (cs.foldl turn (joined st)).take (PATH_BUF - 1) ↔
      EmptiesStack ((joined (c :: st)).tail.splitOn SLASH).length cs := by
  have hst' : ∀ e ∈ st, Ordinary e := fun e he => hst e (List.mem_cons_of_mem _ he)
  have hnoslash : ∀ e ∈ cs, SLASH ∉ e := fun e he => (hcs e he).1
  have hsplit := splitOn_joined (fun e he => (hst e he).noSlash) (List.cons_ne_nil c st)
  have hiff := foldl_stackStep_eq_iff (fun e he => (hcs e he).2) [] st c
  rw [List.length_nil, Nat.zero_add, List.nil_append, List.nil_append] at hiff
  rw [foldl_turn_take hcs hst hroom, foldl_turn_take hcs hst' (by rw [room_cons] at hroom; omega),
    hsplit,
    List.length_reverse, List.length_cons, ← hiff]
  constructor
  · intro heq
    exact joined_inj (foldl_stackStep_ordinary hnoslash hst)
      (foldl_stackStep_ordinary hnoslash hst') heq
  · intro heq
    rw [heq]

/-- `cwd` below the root: the two forms of the path give the same result exactly when
the trailing slash does no harm. -/
theorem normalizePath_below_root {c : CStr} {st : List CStr} (hst : ∀ d ∈ c :: st, Ordinary d)
    {input : CStr} (hlen : (joined (c :: st)).length + input.length + 1 ≤ 255) :
    ((segments input).foldl turn (joined (c :: st) ++ [SLASH])).take (PATH_BUF - 1) =
        ((segments input).foldl turn (joined (c :: st))).take (PATH_BUF - 1) ↔
      SlashHarmless (joined (c :: st)) input := by
  have hbuf : PATH_BUF = 256 := rfl
  have hclen := List.length_pos_of_ne_nil (hst c List.mem_cons_self).ne_nil
  have hflat : joined (c :: st) = flat (c :: st) := joined_eq_flat (List.cons_ne_nil _ _)
  have hsize : (joined (c :: st)).length = room (c :: st) := by rw [hflat, flat_length]
  have hlong : 2 ≤ (joined (c :: st)).length := by
    rw [hsize, room_cons]
    omega
  have hnotroot : joined (c :: st) ≠ [SLASH] := fun h => by
    rw [h, List.length_singleton] at hlong
    omega
  have hsegs := List.takeWhile_append_dropWhile (p := fun c : CStr => decide (c = [DOT]))
    (l := segments input)
  have hmem : ∀ d ∈ (segments input).dropWhile (· = [DOT]), SLASH ∉ d ∧ d ≠ [] := fun d hd =>
    segments_noSlash input d (( List.dropWhile_suffix _).subset hd)
  rw [foldl_turn_dropWhile, foldl_turn_dropWhile (segments input) (joined _), SlashHarmless,
    or_iff_right hnotroot]
  cases hdw : (segments input).dropWhile (· = [DOT]) with
  | nil =>
    -- Nothing but `.`: the slash stays.
    rw [iff_false]
    intro heq
    have := congrArg List.length heq
    simp [hbuf] at this
    simp at hlen
    omega
  | cons d cs =>
    rw [hdw] at hmem
    have hd : d ≠ [DOT] := by
      have := List.head_dropWhile_not (fun c : CStr => decide (c = [DOT]))
        (l := segments input) (by rw [hdw]; exact List.cons_ne_nil _ _)
      simpa [hdw] using this
    dsimp only
    rw [List.foldl_cons, List.foldl_cons, turn, turn, if_neg hd, if_neg hd]
    by_cases hdots : d = [DOT, DOT]
    · have hpop : popSegment (joined (c :: st)) = joined st :=
        popSegment_joined (hst c List.mem_cons_self).ne_nil (hst c List.mem_cons_self).noSlash
      have hfirst : ∀ e ∈ (segments input).takeWhile (· = [DOT]), e = [DOT] := fun e he => by
        simpa using List.mem_takeWhile_imp he
      have hroom : (joined (c :: st)).length + room cs ≤ PATH_BUF - 1 :=
        room_after_dots hfirst (by rw [← hdots, ← hdw]; exact hsegs.symm) hlong hlen
      have hcs : ∀ e ∈ cs, SLASH ∉ e ∧ e ≠ [] := fun e he => hmem e (List.mem_cons_of_mem _ he)
      rw [if_pos hdots, if_pos hdots, popSegment_trailing, hpop, forall_prop_of_true hdots]
      exact foldl_turn_eq_iff hst hcs (by rwa [hsize] at hroom)
    · rw [if_neg hdots, if_neg hdots, pushSegment_trailing hst (by omega)]
      exact ⟨fun _ h => absurd h hdots, fun _ => rfl⟩

/-- A relative path against a normalised `cwd`: it gives what the absolute path
`cwd/input` gives exactly when the trailing slash of `cwd` does no harm. -/
theorem normalizePath_relative_iff (stray : UInt8) (cwd input : CStr) (hcwd : Normalised cwd)
    (hne : input ≠ []) (hrel : input.head? ≠ some SLASH)
    (hlen : (cwd ++ SLASH :: input).length ≤ 255) :
    normalizePath stray cwd input 256 = normalizePath stray cwd (cwd ++ SLASH :: input) 256 ↔
      SlashHarmless cwd input := by
  obtain ⟨st, hst, rfl⟩ := canonical_stack hcwd.canonical
  have hshort : ∀ c ∈ (joined st).splitOn SLASH, c.length < SEGMENT_BUF := fun c hc =>
    Nat.lt_succ_of_le (hcwd.short c hc)
  rw [List.length_append, List.length_cons] at hlen
  have hfit : (joined st).length ≤ PATH_BUF - 1 := by
    have : PATH_BUF = 256 := rfl
    omega
  rw [normalizePath_relative stray (joined st) hne hrel, normalizePath_under hst hshort hfit]
  cases st with
  | nil =>
    have hroot : cwdTemp stray [SLASH] = [SLASH] := by simp [cwdTemp, PATH_BUF]
    rw [joined_nil, hroot]
    exact ⟨fun _ => Or.inl rfl, fun _ => rfl⟩
  | cons c st =>
    rw [cwdTemp_joined stray hst hfit]
    exact normalizePath_below_root hst (by omega)

/-- From `/a` the path `b/..` is `/a`, as it is for `/a/b/..`. -/
theorem normalizePath_relative_ordinary :
    normalizePath 0 [47, 97] [98, 47, 46, 46] 256 =
        normalizePath 0 [47, 97] ([47, 97] ++ SLASH :: [98, 47, 46, 46]) 256 ↔
      SlashHarmless [47, 97] [98, 47, 46, 46] :=
  normalizePath_relative_iff 0 [47, 97] [98, 47, 46, 46] ⟨Or.inr (by decide), by decide⟩
    (by decide)
    (by decide) (by decide)

/-- From `/a` the path `..` stays at `/a`, where `/a/..` is the root. -/
theorem dotdot_keeps_cwd :
    ¬ ∀ (stray : UInt8) (cwd input : CStr), Normalised cwd → input ≠ [] →
      input.head? ≠ some SLASH →
      (cwd ++ SLASH :: input).length ≤ 255 →
      normalizePath stray cwd input 256 =
        normalizePath stray cwd (cwd ++ SLASH :: input) 256 := by
  intro h
  have hsame :=
    h 0 [47, 97] [46, 46] ⟨Or.inr (by decide), by decide⟩ (by decide) (by decide) (by decide)
  revert hsame
  decide

end Lumin.Proc
