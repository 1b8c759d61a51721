import Lumin.Proc.PathBuffers

/-!
# Where the components of a normalised path come from

The segment buffer takes a longer component in pieces, and each piece is pushed as a
component of its own.  The text in `temp` is followed as a stack of all its parts, the
empty ones included (`Tracked`).  A piece that is no component shows in the output unless
later segments pop it.
-/

namespace Lumin.Proc

open Lumin.Fs

/-- The components of a path. -/
def components (p : CStr) : List CStr := (p.splitOn SLASH).filter (· ≠ [])

/-- Every component of `out` is one of `cwd` or of `input`, or it is the last one, cut
where the 256 bytes of the buffer end. -/
def NoInvented (cwd input out : CStr) : Prop :=
  ∀ c ∈ components out,
    (c ∈ components cwd ∨ c ∈ components input) ∨
      (out.length = 255 ∧ (components out).getLast? = some c ∧
        ∃ d, (d ∈ components cwd ∨ d ∈ components input) ∧ c <+: d)

/-- Each segment is known, or it is not pushed, or the segments after it pop it. -/
def PiecesGo (known : CStr → Prop) : List CStr → Prop
  | [] => True
  | c :: cs => (known c ∨ c = [DOT] ∨ c = [DOT, DOT] ∨ EmptiesStack 1 cs) ∧ PiecesGo known cs

/-- The condition on `cwd` and the input: each piece that the segment buffer takes is a
component, or it goes again. -/
def SplitsGo (cwd input : CStr) : Prop :=
  PiecesGo (fun c => c ∈ components cwd ∨ c ∈ components input) (segments input)

/-- `temp` before the segments. -/
def startText (stray : UInt8) (cwd input : CStr) : CStr :=
  if input.head? = some SLASH then [SLASH] else cwdTemp stray cwd

theorem normalizePath_eq (stray : UInt8) (cwd input : CStr) (maxLen : Nat) :
    normalizePath stray cwd input maxLen =
      ((segments input).foldl turn (startText stray cwd input)).take (maxLen - 1) := by
  by_cases habs : input.head? = some SLASH
  · cases input with
    | nil => cases habs
    | cons c rest =>
      rw [startText, if_pos habs]
      rw [List.head?_cons, Option.some.injEq] at habs
      rw [habs, normalizePath_slash, segments_slash]
  · rw [startText, if_neg habs, normalizePath_of_relative stray cwd habs]

/-! ## The parts of a text -/

variable {st rest : List CStr} {c d : CStr} {known : CStr → Prop}

theorem components_joined (h : ∀ e ∈ st, SLASH ∉ e) :
    components (joined st) = st.reverse.filter (· ≠ []) := by
  cases st with
  | nil => decide
  | cons e st =>
    rw [components, splitOn_slash_joined h, List.filter_cons_of_neg (by simp)]

theorem mem_components_joined (h : ∀ e ∈ st, SLASH ∉ e) :
    c ∈ components (joined st) ↔ c ∈ st ∧ c ≠ [] := by
  rw [components_joined h, List.mem_filter, List.mem_reverse]
  simp

/-- A text that begins with a slash is that of its parts. -/
theorem joined_splitOn {p : CStr} (h : p.head? = some SLASH) :
    p = joined (p.tail.splitOn SLASH).reverse := by
  cases p with
  | nil => cases h
  | cons b p =>
    rw [List.head?_cons, Option.some.injEq] at h
    rw [joined, List.reverse_reverse, List.tail_cons, List.intercalate_splitOn, h]

theorem length_joined_cons (c : CStr) (st : List CStr) :
    (joined (c :: st)).length = room st + 1 + c.length := by
  rw [joined_cons, List.length_append, flat_length, List.length_cons]
  omega

theorem length_of_empty_top (h : st.headD [] = []) : (joined st).length = room st.tail + 1 := by
  cases st with
  | nil => rfl
  | cons d st =>
    rw [List.headD_cons] at h
    rw [h, length_joined_cons, List.length_nil, List.tail_cons]

theorem room_of_ne_nil (h : st ≠ []) : room st = (joined st).length := by
  rw [joined_eq_flat h, flat_length]

/-- A pop takes the last part. -/
theorem popSegment_parts (h : ∀ e ∈ st, SLASH ∉ e) : popSegment (joined st) = joined st.tail := by
  cases st with
  | nil => decide
  | cons c st =>
    by_cases hc : c = []
    · subst hc
      cases st with
      | nil => decide
      | cons d st =>
        have htext : joined ([] :: d :: st) = joined (d :: st) ++ [SLASH] := by
          rw [joined_cons [], joined_eq_flat (List.cons_ne_nil d st)]
        rw [htext, popSegment_trailing, List.tail_cons]
    · exact popSegment_joined hc (h c List.mem_cons_self)

theorem last_joined (hc : c ≠ []) (h : SLASH ∉ c) : (joined (c :: st)).getLast? ≠ some SLASH := by
  rw [joined_cons, List.getLast?_append_cons, List.getLast?_cons_of_ne_nil hc]
  intro hlast
  exact h (List.mem_of_getLast? hlast)

/-- A push onto an empty last part fills it. -/
theorem pushSegment_fills (hst : st.headD [] = []) (c : CStr) :
    pushSegment (joined st) c = joined (c.take (255 - (joined st).length) :: st.tail) := by
  cases st with
  | nil =>
    rw [joined_nil, pushSegment, if_neg (by simp), pushTemp, joined_cons]
    rfl
  | cons d st =>
    rw [List.headD_cons] at hst
    subst hst
    have hno :
        ¬ ((joined ([] :: st)).length > 1 ∧ (joined ([] :: st)).getLast? ≠ some SLASH) := by
      rw [joined_cons, List.getLast?_append_cons]
      simp
    rw [pushSegment, if_neg hno, pushTemp, joined_cons, joined_cons, List.tail_cons,
      List.append_assoc]
    rfl

/-- A push onto a last part that is not empty makes a new one, if there is room. -/
theorem pushSegment_adds (hd : d ≠ []) (hslash : SLASH ∉ d)
    (hroom : (joined (d :: st)).length < 255)
    (c : CStr) :
    pushSegment (joined (d :: st)) c =
      joined (c.take (254 - (joined (d :: st)).length) :: d :: st) := by
  have hlong : (joined (d :: st)).length > 1 := by
    have := List.length_pos_of_ne_nil hd
    rw [length_joined_cons]
    omega
  have hsep : pushTemp (joined (d :: st)) [SLASH] = joined (d :: st) ++ [SLASH] :=
    pushTemp_of_le (by rw [List.length_singleton]; exact hroom)
  rw [pushSegment, if_pos ⟨hlong, last_joined hd hslash⟩, hsep, pushTemp,
    joined_cons (List.take _ _),
    joined_eq_flat (List.cons_ne_nil d st), List.append_assoc, List.length_append,
      List.length_singleton]
  rw [show PATH_BUF - 1 - ((flat (d :: st)).length + 1) = 254 - (flat (d :: st)).length from by
    show 255 - _ = _
    omega]
  rfl

theorem pushSegment_full (hroom : 255 ≤ (joined st).length) (c : CStr) :
    pushSegment (joined st) c = joined st := by
  have hnone : ∀ s : CStr, pushTemp (joined st) s = joined st := fun s => by
    rw [pushTemp, show PATH_BUF - 1 - (joined st).length = 0 by show 255 - _ = 0; omega]
    simp
  rw [pushSegment]
  split
  · rw [hnone, hnone]
  · rw [hnone]

/-! ## A stack that is left alone -/

theorem EmptiesStack.fewer {n : Nat} {cs : List CStr} (h : EmptiesStack (n + 1) cs) :
    EmptiesStack n cs := by
  induction cs generalizing n with
  | nil => cases h
  | cons c cs ih =>
    cases n with
    | zero => trivial
    | succ n =>
      rw [EmptiesStack] at h ⊢
      split
      · rename_i hdot
        rw [if_pos hdot] at h
        exact ih h
      · rename_i hdot
        rw [if_neg hdot] at h
        split
        · rename_i hdots
          rw [if_pos hdots] at h
          exact ih h
        · rename_i hdots
          rw [if_neg hdots] at h
          exact ih h

theorem emptiesStack_zero (cs : List CStr) : EmptiesStack 0 cs := by
  cases cs with
  | nil => trivial
  | cons c cs => trivial

theorem emptiesStack_dot (n : Nat) (cs : List CStr) :
    EmptiesStack (n + 1) ([DOT] :: cs) ↔ EmptiesStack (n + 1) cs := by
  rw [EmptiesStack, if_pos rfl]

theorem emptiesStack_dots (n : Nat) (cs : List CStr) :
    EmptiesStack (n + 1) ([DOT, DOT] :: cs) ↔ EmptiesStack n cs := by
  rw [EmptiesStack, if_neg (by decide), if_pos rfl]

theorem emptiesStack_push (hdot : c ≠ [DOT]) (hdots : c ≠ [DOT, DOT]) (n : Nat) (cs : List CStr) :
    EmptiesStack (n + 1) (c :: cs) ↔ EmptiesStack (n + 2) cs := by
  rw [EmptiesStack, if_neg hdot, if_neg hdots]

/-! ## Nothing is invented -/

/-- The parts of a text before the segments `rest`: each is known, or popped by `rest`, or
it is the last one of a full buffer and a known one was cut to it. -/
structure Tracked (known : CStr → Prop) (st rest : List CStr) : Prop where
  noSlash : ∀ d ∈ st, SLASH ∉ d
  fits : (joined st).length ≤ 255 ∨ ∃ below, st = [] :: below ∧ (joined below).length = 255
  kept : ∀ j d, st[j]? = some d → d ≠ [] →
    known d ∨ EmptiesStack (j + 1) rest ∨
      (j = 0 ∧ (joined st).length = 255 ∧ ∃ e, known e ∧ d <+: e)

theorem length_joined_tail_le (st : List CStr) :
    (joined st.tail).length ≤ (joined st).length := by
  cases st with
  | nil => exact le_refl _
  | cons c st =>
    have := joined_length_le st
    rw [flat_length] at this
    rw [List.tail_cons, length_joined_cons]
    omega

theorem Tracked.dot (h : Tracked known st ([DOT] :: rest)) : Tracked known st rest := by
  refine ⟨h.noSlash, h.fits, fun j d hj hd => ?_⟩
  rcases h.kept j d hj hd with hknown | hpop | hcut
  · exact Or.inl hknown
  · exact Or.inr (Or.inl ((emptiesStack_dot _ _).mp hpop))
  · exact Or.inr (Or.inr hcut)

theorem Tracked.dots (h : Tracked known st ([DOT, DOT] :: rest)) :
    Tracked known st.tail rest := by
  refine ⟨fun d hd => h.noSlash d (List.mem_of_mem_tail hd), Or.inl ?_, fun j d hj hd => ?_⟩
  · cases h.fits with
    | inl hle => exact (length_joined_tail_le st).trans hle
    | inr htop =>
      obtain ⟨below, hst, hlen⟩ := htop
      rw [hst, List.tail_cons, hlen]
  · rw [List.getElem?_tail] at hj
    rcases h.kept (j + 1) d hj hd with hknown | hpop | ⟨hzero, -⟩
    · exact Or.inl hknown
    · exact Or.inr (Or.inl ((emptiesStack_dots _ _).mp hpop))
    · cases hzero

/-- A segment of which `k` bytes become the part above `below`. -/
theorem Tracked.push (hc : known c ∨ EmptiesStack 1 rest) (hslash : SLASH ∉ c) {below : List CStr}
    {k : Nat}
    (hbelow : ∀ j d, below[j]? = some d → d ≠ [] → known d ∨ EmptiesStack (j + 2) rest)
    (hnoslash : ∀ d ∈ below, SLASH ∉ d)
    (hfits : (joined (c.take k :: below)).length ≤ 255 ∨ (k = 0 ∧ (joined below).length = 255))
    (hcut : k < c.length → k ≠ 0 → (joined (c.take k :: below)).length = 255) :
    Tracked known (c.take k :: below) rest := by
  refine ⟨fun d hd => ?_, ?_, fun j d hj hd => ?_⟩
  · cases List.mem_cons.mp hd with
    | inl heq => exact fun hmem => hslash (List.mem_of_mem_take (heq ▸ hmem))
    | inr hmem => exact hnoslash d hmem
  · cases hfits with
    | inl hle => exact Or.inl hle
    | inr hzero => exact Or.inr ⟨below, by rw [hzero.1, List.take_zero], hzero.2⟩
  · cases j with
    | succ j =>
      cases hbelow j d (by simpa using hj) hd with
      | inl hknown => exact Or.inl hknown
      | inr hpop => exact Or.inr (Or.inl hpop)
    | zero =>
      obtain rfl : c.take k = d := by simpa using hj
      cases hc with
      | inr hpop => exact Or.inr (Or.inl hpop)
      | inl hknown =>
        by_cases hk : k < c.length
        · have hpos : k ≠ 0 := fun hzero => hd (by rw [hzero, List.take_zero])
          exact Or.inr (Or.inr ⟨rfl, hcut hk hpos, c, hknown, List.take_prefix k c⟩)
        · rw [List.take_of_length_le (Nat.le_of_not_lt hk)]
          exact Or.inl hknown

/-- One turn of the loop. -/
theorem Tracked.step (h : Tracked known st (c :: rest)) (hslash : SLASH ∉ c)
    (hc : known c ∨ c = [DOT] ∨ c = [DOT, DOT] ∨ EmptiesStack 1 rest) :
    ∃ st', turn (joined st) c = joined st' ∧ Tracked known st' rest := by
  by_cases hdot : c = [DOT]
  · subst hdot
    exact ⟨st, by rw [turn, if_pos rfl], h.dot⟩
  by_cases hdots : c = [DOT, DOT]
  · subst hdots
    exact ⟨st.tail,
      by rw [turn, if_neg (by decide), if_pos rfl, popSegment_parts h.noSlash], h.dots⟩
  have hpush : turn (joined st) c = pushSegment (joined st) c := by
    rw [turn, if_neg hdot, if_neg hdots]
  have hnew : known c ∨ EmptiesStack 1 rest := by
    rcases hc with hknown | hbad | hbad | hpop
    · exact Or.inl hknown
    · exact absurd hbad hdot
    · exact absurd hbad hdots
    · exact Or.inr hpop
  have hold : ∀ j d, st[j]? = some d → d ≠ [] →
      known d ∨ EmptiesStack (j + 2) rest ∨
        (j = 0 ∧ (joined st).length = 255 ∧ ∃ e, known e ∧ d <+: e) := by
    intro j d hj hd
    rcases h.kept j d hj hd with hknown | hpop | hcut
    · exact Or.inl hknown
    · exact Or.inr (Or.inl ((emptiesStack_push hdot hdots j rest).mp hpop))
    · exact Or.inr (Or.inr hcut)
  rw [hpush]
  by_cases htop : st.headD [] = []
  · -- The last part is empty, and the segment fills it.
    refine ⟨_, pushSegment_fills htop c, Tracked.push hnew hslash (fun j d hj hd => ?_)
      (fun d hd => h.noSlash d (List.mem_of_mem_tail hd)) ?_ ?_⟩
    · rw [List.getElem?_tail] at hj
      rcases hold (j + 1) d hj hd with hknown | hpop | ⟨hzero, -⟩
      · exact Or.inl hknown
      · exact Or.inr hpop.fewer
      · cases hzero
    · cases h.fits with
      | inl hle =>
        refine Or.inl ?_
        rw [length_joined_cons, List.length_take, length_of_empty_top htop] at *
        omega
      | inr hlast =>
        obtain ⟨below, rfl, hlen⟩ := hlast
        have hne : below ≠ [] := fun hnil => by
          rw [hnil] at hlen
          cases hlen
        rw [length_of_empty_top htop, List.tail_cons, room_of_ne_nil hne, hlen]
        exact Or.inr ⟨rfl, rfl⟩
    · intro hk hpos
      rw [length_joined_cons, List.length_take]
      rw [length_of_empty_top htop] at hk hpos ⊢
      omega
  · obtain ⟨d, st, rfl⟩ :=
      List.exists_cons_of_ne_nil (show st ≠ [] from fun hnil => htop (by rw [hnil]; rfl))
    rw [List.headD_cons] at htop
    by_cases hroom : (joined (d :: st)).length < 255
    · refine ⟨_, pushSegment_adds htop (h.noSlash d List.mem_cons_self) hroom c,
        Tracked.push hnew hslash (fun j e hj he => ?_) h.noSlash (Or.inl ?_) fun hk _ => ?_⟩
      · rcases hold j e hj he with hknown | hpop | ⟨-, hfull, -⟩
        · exact Or.inl hknown
        · exact Or.inr hpop
        · omega
      · rw [length_joined_cons, room_of_ne_nil (List.cons_ne_nil d st), List.length_take]
        omega
      · rw [length_joined_cons, room_of_ne_nil (List.cons_ne_nil d st), List.length_take]
        omega
    · -- No room for another part.
      refine ⟨_, pushSegment_full (Nat.le_of_not_lt hroom) c, h.noSlash, h.fits,
        fun j e hj he => ?_⟩
      rcases hold j e hj he with hknown | hpop | hcut
      · exact Or.inl hknown
      · exact Or.inr (Or.inl hpop.fewer)
      · exact Or.inr (Or.inr hcut)

/-- A run of the loop. -/
theorem Tracked.run (h : Tracked known st rest) (hslash : ∀ c ∈ rest, SLASH ∉ c)
    (hgo : PiecesGo known rest) :
    ∃ st', rest.foldl turn (joined st) = joined st' ∧ Tracked known st' [] := by
  induction rest generalizing st with
  | nil => exact ⟨st, rfl, h⟩
  | cons c rest ih =>
    obtain ⟨st', hturn, hst'⟩ := h.step (hslash c List.mem_cons_self) hgo.1
    rw [List.foldl_cons, hturn]
    exact ih hst' (fun d hd => hslash d (List.mem_cons_of_mem _ hd)) hgo.2

/-- What the buffer keeps of the parts at the end. -/
theorem Tracked.out (h : Tracked known st []) {out : CStr} (hout : out = (joined st).take 255) :
    ∀ c ∈ components out, known c ∨
      (out.length = 255 ∧ (components out).getLast? = some c ∧ ∃ e, known e ∧ c <+: e) := by
  intro c hc
  cases h.fits with
  | inr htop =>
    obtain ⟨below, rfl, hlen⟩ := htop
    have hne : below ≠ [] := fun hnil => by
      rw [hnil] at hlen
      cases hlen
    have hcut : out = joined below := by
      rw [hout, joined_cons, ← joined_eq_flat hne, ← hlen, List.take_left]
    rw [hcut, mem_components_joined fun e he => h.noSlash e (List.mem_cons_of_mem _ he)] at hc
    obtain ⟨j, hj⟩ := List.getElem?_of_mem hc.1
    rcases h.kept (j + 1) c (by simpa using hj) hc.2 with hknown | hpop | ⟨hzero, -⟩
    · exact Or.inl hknown
    · cases hpop
    · cases hzero
  | inl hle =>
    have hall : out = joined st := by rw [hout, List.take_of_length_le hle]
    rw [hall] at hc ⊢
    rw [mem_components_joined h.noSlash] at hc
    obtain ⟨j, hj⟩ := List.getElem?_of_mem hc.1
    rcases h.kept j c hj hc.2 with hknown | hpop | ⟨hzero, hfull, hcut⟩
    · exact Or.inl hknown
    · cases hpop
    · refine Or.inr ⟨hfull, ?_, hcut⟩
      rw [components_joined h.noSlash]
      cases st with
      | nil => cases hj
      | cons d st =>
        rw [hzero] at hj
        obtain rfl : d = c := by simpa using hj
        rw [List.reverse_cons, List.filter_append, List.filter_cons_of_pos (by simpa using hc.2),
          List.filter_nil, List.getLast?_concat]

/-! ## The start -/

/-- `cwd` in `temp` is tracked with its own components. -/
theorem tracked_start (known : CStr → Prop) (stray : UInt8) {cwd : CStr}
    (hhead : cwd.head? = some SLASH) (hlen : cwd.length ≤ 255)
    (input : CStr) (hknown : ∀ c ∈ components cwd, known c) (rest : List CStr) :
    ∃ st, startText stray cwd input = joined st ∧ Tracked known st rest := by
  have hparts := joined_splitOn hhead
  have hslash : ∀ d ∈ (cwd.tail.splitOn SLASH).reverse, SLASH ∉ d := fun d hd =>
    splitOn_noSlash _ d (List.mem_reverse.mp hd)
  generalize hst : (cwd.tail.splitOn SLASH).reverse = st at hparts hslash
  have hne : st ≠ [] := by
    rw [← hst]
    simp [List.splitOn_ne_nil]
  have hkept : ∀ (j : Nat) d, st[j]? = some d → d ≠ [] → known d := fun j d hj hd =>
    hknown d (by
      rw [hparts, mem_components_joined hslash]
      exact ⟨List.mem_of_getElem? hj, hd⟩)
  rw [startText]
  split
  · exact ⟨[], joined_nil.symm, by simp, Or.inl (by simp), by simp⟩
  · have hall : cwd.take (PATH_BUF - 1) = cwd := List.take_of_length_le hlen
    rw [cwdTemp, hall]
    split
    · refine ⟨[] :: st, ?_, ?_, ?_, ?_⟩
      · rw [joined_cons, ← joined_eq_flat hne, ← hparts]
      · intro d hd
        cases List.mem_cons.mp hd with
        | inl heq => simp [heq]
        | inr hmem => exact hslash d hmem
      · rw [length_joined_cons, room_of_ne_nil hne, ← hparts, List.length_nil]
        rcases Nat.lt_or_eq_of_le hlen with hlt | heq
        · exact Or.inl (by omega)
        · exact Or.inr ⟨st, rfl, by rw [← hparts, heq]⟩
      · intro j d hj hd
        cases j with
        | zero =>
          have hnil : [] = d := by simpa using hj
          exact absurd hnil.symm hd
        | succ j => exact Or.inl (hkept j d (by simpa using hj) hd)
    · have hle : (joined st).length ≤ 255 := by rw [← hparts]; exact hlen
      exact ⟨st, hparts, hslash, Or.inl hle, fun j d hj hd => Or.inl (hkept j d hj hd)⟩

/-! ## A piece that stays -/

/-- `cwd` and the segments, each with its slash, end before the buffers do. -/
def Fits (stray : UInt8) (cwd input : CStr) : Prop :=
  (startText stray cwd input).length + room (segments input) ≤ 254

/-- A push with room for the segment and its slash. -/
theorem pushSegment_room (hst : ∀ d ∈ st, SLASH ∉ d)
    (hroom : (joined st).length + (c.length + 1) ≤ 254) :
    ∃ below, pushSegment (joined st) c = joined (c :: below) ∧ (∀ d ∈ below, SLASH ∉ d) ∧
      (st.headD [] ≠ [] → below = st) ∧
      (joined (c :: below)).length ≤ (joined st).length + (c.length + 1) := by
  by_cases htop : st.headD [] = []
  · refine ⟨st.tail, ?_, fun d hd => hst d (List.mem_of_mem_tail hd), fun h => absurd htop h, ?_⟩
    · rw [pushSegment_fills htop, List.take_of_length_le (by omega)]
    · rw [length_joined_cons, length_of_empty_top htop]
      omega
  · obtain ⟨d, st, rfl⟩ :=
      List.exists_cons_of_ne_nil (show st ≠ [] from fun hnil => htop (by rw [hnil]; rfl))
    refine ⟨d :: st, ?_, hst, fun _ => rfl, ?_⟩
    · rw [List.headD_cons] at htop
      rw [pushSegment_adds htop (hst d List.mem_cons_self) (by omega),
        List.take_of_length_le (by omega)]
    · rw [length_joined_cons, room_of_ne_nil (List.cons_ne_nil d st)]
      omega

/-- A run that fits the buffer. -/
theorem run_room (hst : ∀ d ∈ st, SLASH ∉ d) (hrest : ∀ d ∈ rest, SLASH ∉ d) {later : Nat}
    (hroom : (joined st).length + (room rest + later) ≤ 254) :
    ∃ st', rest.foldl turn (joined st) = joined st' ∧ (∀ d ∈ st', SLASH ∉ d) ∧
      (joined st').length + later ≤ 254 := by
  induction rest generalizing st with
  | nil => exact ⟨st, rfl, hst, by rw [room_nil] at hroom; omega⟩
  | cons c rest ih =>
    rw [room_cons] at hroom
    have hlater : ∀ d ∈ rest, SLASH ∉ d := fun d hd => hrest d (List.mem_cons_of_mem _ hd)
    rw [List.foldl_cons, turn]
    split
    · exact ih hst hlater (by omega)
    · split
      · have htail := length_joined_tail_le st
        rw [popSegment_parts hst]
        exact ih (fun d hd => hst d (List.mem_of_mem_tail hd)) hlater (by omega)
      · obtain ⟨below, hpush, hbelow, -, hlen⟩ := pushSegment_room hst (c := c) (by omega)
        rw [hpush]
        refine ih (fun d hd => ?_) hlater (by omega)
        cases List.mem_cons.mp hd with
        | inl heq => exact heq ▸ hrest c List.mem_cons_self
        | inr hmem => exact hbelow d hmem

/-- A part that the later segments do not pop is there at the end. -/
theorem part_stays {top below : List CStr} (hne : ∀ d ∈ top ++ [c], d ≠ [])
    (hst : ∀ d ∈ top ++ c :: below, SLASH ∉ d) (hrest : ∀ d ∈ rest, SLASH ∉ d ∧ d ≠ [])
    (hroom : (joined (top ++ c :: below)).length + room rest ≤ 254)
    (hstay : ¬ EmptiesStack (top.length + 1) rest) :
    ∃ st', rest.foldl turn (joined (top ++ c :: below)) = joined st' ∧ c ∈ st' ∧
        (∀ d ∈ st', SLASH ∉ d) ∧
      (joined st').length ≤ 254 := by
  induction rest generalizing top with
  | nil =>
    exact ⟨_, rfl, List.mem_append_right _ List.mem_cons_self, hst,
      by rw [room_nil] at hroom; exact hroom⟩
  | cons e rest ih =>
    have hlater : ∀ d ∈ rest, SLASH ∉ d ∧ d ≠ [] :=
      fun d hd => hrest d (List.mem_cons_of_mem _ hd)
    obtain ⟨heslash, hene⟩ := hrest e List.mem_cons_self
    rw [room_cons] at hroom
    rw [List.foldl_cons, turn]
    by_cases hdot : e = [DOT]
    · rw [if_pos hdot]
      rw [hdot, emptiesStack_dot] at hstay
      exact ih hne hst hlater (by omega) hstay
    by_cases hdots : e = [DOT, DOT]
    · rw [if_neg hdot, if_pos hdots, popSegment_parts hst]
      rw [hdots, emptiesStack_dots] at hstay
      cases top with
      | nil => exact absurd (emptiesStack_zero rest) hstay
      | cons t top =>
        have htail := length_joined_tail_le (t :: top ++ c :: below)
        exact ih (fun d hd => hne d (List.mem_cons_of_mem _ hd))
          (fun d hd => hst d (List.mem_cons_of_mem _ hd)) hlater
          (by rw [List.cons_append] at htail hroom; rw [List.tail_cons] at htail; omega) hstay
    · rw [if_neg hdot, if_neg hdots]
      rw [emptiesStack_push hdot hdots] at hstay
      obtain ⟨under, hpush, -, hunder, hlen⟩ := pushSegment_room hst (c := e) (by omega)
      have hhead : (top ++ c :: below).headD [] ≠ [] := by
        cases top with
        | nil => exact hne c (by simp)
        | cons t top => exact hne t (by simp)
      rw [hpush, hunder hhead]
      rw [hunder hhead] at hlen
      have hroom' : (joined (e :: top ++ c :: below)).length + room rest ≤ 254 := by
        rw [List.cons_append]
        omega
      refine ih (fun d hd => ?_) (fun d hd => ?_) hlater hroom' hstay
      · cases List.mem_cons.mp hd with
        | inl heq => exact heq ▸ hene
        | inr hmem => exact hne d hmem
      · cases List.mem_cons.mp hd with
        | inl heq => exact heq ▸ heslash
        | inr hmem => exact hst d hmem

/-- A list of segments with one that stays. -/
theorem exists_of_not_piecesGo {cs : List CStr} (h : ¬ PiecesGo known cs) :
    ∃ pre c post, cs = pre ++ c :: post ∧ ¬ known c ∧ c ≠ [DOT] ∧ c ≠ [DOT, DOT] ∧
        ¬ EmptiesStack 1 post := by
  induction cs with
  | nil => exact absurd trivial h
  | cons c cs ih =>
    by_cases hc : known c ∨ c = [DOT] ∨ c = [DOT, DOT] ∨ EmptiesStack 1 cs
    · obtain ⟨pre, d, post, hcs, hd⟩ := ih fun hgo => h ⟨hc, hgo⟩
      exact ⟨c :: pre, d, post, by rw [hcs, List.cons_append], hd⟩
    · rw [not_or, not_or, not_or] at hc
      exact ⟨[], c, cs, rfl, hc⟩

/-! ## The components of the output -/

/-- For every `cwd` that a task can have and every input: when each piece of a longer
component that is no component itself is popped again, `normalize_path` invents no
component.  Where the buffers do not end before the input, the converse holds too. -/
theorem normalizePath_noInvented (stray : UInt8) {cwd : CStr} (hcwd : StoredCwd cwd)
    (input : CStr) :
    (SplitsGo cwd input → NoInvented cwd input (normalizePath stray cwd input 256)) ∧
      (Fits stray cwd input → NoInvented cwd input (normalizePath stray cwd input 256) →
        SplitsGo cwd input) := by
  have hinv := hcwd.inv
  have hslash : ∀ c ∈ segments input, SLASH ∉ c := fun c hc => (segments_noSlash input c hc).1
  obtain ⟨st, hst, htracked⟩ := tracked_start (fun c => c ∈ components cwd ∨ c ∈ components input)
    stray hinv.head hinv.length_le input (fun c hc => Or.inl hc) (segments input)
  rw [normalizePath_eq, hst]
  constructor
  · intro hgo
    obtain ⟨st', hrun, hst'⟩ := htracked.run hslash hgo
    exact hst'.out (by rw [hrun])
  · intro hfits hout
    by_contra hgo
    obtain ⟨pre, c, post, hcs, hunknown, hdot, hdots, hstay⟩ := exists_of_not_piecesGo hgo
    rw [Fits, hst, hcs] at hfits
    rw [hcs] at hout hslash
    have hne : ∀ d ∈ pre ++ c :: post, d ≠ [] :=
      fun d hd => (segments_noSlash input d (hcs ▸ hd)).2
    have hroom : room (pre ++ c :: post) = room pre + (c.length + 1 + room post) := by
      rw [room, List.map_append, List.sum_append, ← room, List.map_cons, List.sum_cons, ← room]
    -- The segments before the piece, the piece, and the segments after it.
    obtain ⟨mid, hpre, hmid, hlen⟩ := run_room htracked.noSlash
      (fun d hd => hslash d (List.mem_append_left _ hd))
      (show _ + (room pre + (c.length + 1 + room post)) ≤ 254 by omega)
    obtain ⟨below, hpush, hbelow, -, hpushed⟩ := pushSegment_room hmid (c := c) (by omega)
    obtain ⟨last, hpost, hmem, hlast, hshort⟩ := part_stays
      (show ∀ d ∈ [] ++ [c], d ≠ [] by simpa using hne c (by simp)) (fun d hd => by
        cases List.mem_cons.mp hd with
        | inl heq => exact heq ▸ hslash c (by simp)
        | inr hold => exact hbelow d hold)
      (show ∀ d ∈ post, SLASH ∉ d ∧
        d ≠ [] from fun d hd => ⟨hslash d (by simp [hd]), hne d (by simp [hd])⟩)
      (by rw [List.nil_append]; omega) hstay
    have hturn : turn (joined mid) c = joined (c :: below) := by
      rw [turn, if_neg hdot, if_neg hdots, hpush]
    rw [List.nil_append] at hpost
    rw [List.foldl_append, hpre, List.foldl_cons, hturn, hpost,
      List.take_of_length_le (by omega)] at hout
    rcases hout c
        ((mem_components_joined hlast).mpr ⟨hmem, hne c (by simp)⟩) with hknown | ⟨hfull, -⟩
    · exact hunknown hknown
    · omega

/-- With components of at most 63 bytes there is nothing to pop. -/
theorem splitsGo_of_short (cwd : CStr) {input : CStr}
    (h : ∀ c ∈ components input, c.length ≤ 63) : SplitsGo cwd input := by
  have hshort : ∀ c ∈ input.splitOn SLASH, c.length < SEGMENT_BUF := fun c hc => by
    by_cases hne : c = []
    · rw [hne]
      decide
    · exact Nat.lt_succ_of_le (h c (List.mem_filter.mpr ⟨hc, by simpa using hne⟩))
  have hseg : ∀ c ∈ segments input, c ∈ components input := fun c hc => by
    rw [segments_eq_filter hshort] at hc
    exact hc
  unfold SplitsGo
  generalize segments input = cs at hseg
  induction cs with
  | nil => trivial
  | cons c cs ih =>
    exact ⟨Or.inl (Or.inr (hseg c List.mem_cons_self)),
      ih fun d hd => hseg d (List.mem_cons_of_mem _ hd)⟩

/-- A name of 64 bytes, and back over both of its pieces. -/
def poppedName : CStr := List.replicate 64 97 ++ [SLASH, DOT, DOT, SLASH, DOT, DOT]

theorem splitsGo_poppedName : SplitsGo [SLASH] poppedName := by
  have hsegments : segments poppedName =
      [List.replicate 63 97, [97], [DOT, DOT], [DOT, DOT]] := by decide +kernel
  unfold SplitsGo
  rw [hsegments]
  refine ⟨.inr (.inr (.inr ?_)), .inr (.inr (.inr ?_)), .inr (.inr (.inl rfl)),
    .inr (.inr (.inl rfl)), trivial⟩
  · simp [EmptiesStack, DOT]
  · simp [EmptiesStack, DOT]

theorem normalizePath_noInvented_popped :
    NoInvented [SLASH] poppedName (normalizePath 0 [SLASH] poppedName 256) ∧
      NoInvented [SLASH] [97] (normalizePath 0 [SLASH] [97] 256) :=
  ⟨(normalizePath_noInvented 0 StoredCwd.init poppedName).1 splitsGo_poppedName,
    (normalizePath_noInvented 0 StoredCwd.init [97]).1
      (splitsGo_of_short [SLASH] (by decide +kernel))⟩

/-- A name of 64 bytes becomes one of 63 bytes and one of 1 byte. -/
theorem longName_invents :
    ¬ ∀ cwd, StoredCwd cwd → ∀ (stray : UInt8) (input : CStr), input.length ≤ 255 →
      NoInvented cwd input (normalizePath stray cwd input 256) := by
  intro h
  have hout : normalizePath 0 [SLASH] (List.replicate 64 97) 256 =
      SLASH :: (List.replicate 63 97 ++ [SLASH, 97]) := by decide +kernel
  have hno := h [SLASH] StoredCwd.init 0 (List.replicate 64 97) (by decide +kernel) [97]
  rw [hout] at hno
  rcases hno (by decide +kernel) with (hcwd | hinput) | ⟨hfull, -⟩
  · revert hcwd
    decide +kernel
  · revert hinput
    decide +kernel
  · revert hfull
    decide +kernel

end Lumin.Proc
