import Lumin.Libc.Strtok

/-!
# The words of a command line

A model of `tokenize` of `user/shell.c`.  The array with the line is the list of its bytes, a
pointer into it is an index, and a read past its end is a fault, as in the model of `strtok_r`.

`Words` is the grammar of a command line: words between spaces, and words in quotation marks.
`tokenize_words` is the result.  `argv` points to the words of the line, up to the bound, and
nothing of the array changes but spaces and quotation marks.
-/

namespace Lumin.User

open Libc.Strtok (StringAt drop_append_length getElem?_append_length set_append_length)

def MAX_ARGS : Nat := 16

/-- `argv[0]` up to `argv[argc - 1]`, and the array with the line. -/
structure Tokenized where
  argv : List Nat
  buf : List UInt8
  deriving DecidableEq

/-- The loop over spaces, with the bytes from `line` on. -/
def skipSpaces (line : Nat) : List UInt8 → Option Nat
  | [] => none
  | c :: rest => if c = 32 then skipSpaces (line + 1) rest else some line

/-- The loop up to `stop` and the store behind it, with the bytes from `line` on. -/
def endWord (stop : UInt8) (buf : List UInt8) (line : Nat) :
    List UInt8 → Option (List UInt8 × Nat)
  | [] => none
  | c :: rest =>
    if c = 0 then some (buf, line)
    else if c = stop then some (buf.set line 0, line + 1)
    else endWord stop buf (line + 1) rest

/-- The loop of `tokenize`. -/
def tokenizeLoop (max : Nat) : Nat → List Nat → List UInt8 → Nat → Option Tokenized
  | 0, _, _, _ => none
  | fuel + 1, argv, buf, line =>
    if buf[line]? = some 0 then some ⟨argv, buf⟩
    else (skipSpaces line (buf.drop line)).bind fun line =>
      if buf[line]? = some 0 then some ⟨argv, buf⟩
      else if argv.length ≥ max then some ⟨argv, buf⟩
      else if buf[line]? = some 34 then
        (endWord 34 buf (line + 1) (buf.drop (line + 1))).bind fun r =>
          tokenizeLoop max fuel (argv ++ [line + 1]) r.1 r.2
      else
        (endWord 32 buf line (buf.drop line)).bind fun r =>
          tokenizeLoop max fuel (argv ++ [line]) r.1 r.2

/-- `tokenize`.  A turn goes past a byte of the array at least. -/
def tokenize (buf : List UInt8) (line max : Nat) : Option Tokenized :=
  tokenizeLoop max (buf.length + 1) [] buf line

/-! ## Words -/

/-- The words of a line.  Nothing but its end and a space ends a word without quotation marks,
and a second quotation mark may be missing at the end of the line. -/
inductive Words : List UInt8 → List (List UInt8) → Prop
  | nil : Words [] []
  | space {s : List UInt8} {ws : List (List UInt8)} (h : Words s ws) : Words (32 :: s) ws
  | last {c : UInt8} {w : List UInt8} (hc : c ≠ 34) (hw : 32 ∉ c :: w) : Words (c :: w) [c :: w]
  | word {c : UInt8} {w s : List UInt8} {ws : List (List UInt8)} (hc : c ≠ 34) (hw : 32 ∉ c :: w)
    (h : Words s ws) :
    Words (c :: w ++ 32 :: s) ((c :: w) :: ws)
  | unclosed {w : List UInt8} (hw : 34 ∉ w) : Words (34 :: w) [w]
  | quoted {w s : List UInt8} {ws : List (List UInt8)} (hw : 34 ∉ w) (h : Words s ws) :
    Words (34 :: (w ++ 34 :: s)) (w :: ws)

variable {s w r buf : List UInt8} {ws : List (List UInt8)} {argv : List Nat} {c stop : UInt8}
  {max line fuel : Nat}

/-- Every line has words. -/
theorem exists_words (s : List UInt8) : ∃ ws, Words s ws := by
  induction hn : s.length using Nat.strongRecOn generalizing s with
  | ind n ih =>
    cases s with
    | nil => exact ⟨[], .nil⟩
    | cons c s =>
      rw [List.length_cons] at hn
      by_cases hspace : c = 32
      · subst hspace
        obtain ⟨ws, h⟩ := ih s.length (by omega) s rfl
        exact ⟨ws, .space h⟩
      · by_cases hquote : c = 34
        · subst hquote
          by_cases hmem : 34 ∈ s
          · obtain ⟨w, r, rfl, hw⟩ := List.eq_append_cons_of_mem hmem
            rw [List.length_append, List.length_cons] at hn
            obtain ⟨ws, h⟩ := ih r.length (by omega) r rfl
            exact ⟨w :: ws, .quoted hw h⟩
          · exact ⟨[s], .unclosed hmem⟩
        · by_cases hmem : 32 ∈ s
          · obtain ⟨w, r, rfl, hw⟩ := List.eq_append_cons_of_mem hmem
            rw [List.length_append, List.length_cons] at hn
            obtain ⟨ws, h⟩ := ih r.length (by omega) r rfl
            have hword : 32 ∉ c :: w := List.not_mem_cons_of_ne_of_not_mem (Ne.symm hspace) hw
            exact ⟨(c :: w) :: ws, .word hquote hword h⟩
          · exact ⟨[c :: s], .last hquote
              (List.not_mem_cons_of_ne_of_not_mem (Ne.symm hspace) hmem)⟩

/-! ## One turn -/

theorem endWord_append (hstop : stop ∉ w) (hzero : 0 ∉ w) (line : Nat) (r : List UInt8) :
    endWord stop buf line (w ++ r) = endWord stop buf (line + w.length) r := by
  induction w generalizing line with
  | nil => rfl
  | cons c w ih =>
    rw [List.mem_cons, not_or] at hstop hzero
    rw [List.cons_append, endWord, if_neg (Ne.symm hzero.1), if_neg (Ne.symm hstop.1),
      ih hstop.2 hzero.2, List.length_cons]
    congr 1
    omega

/-- A word that ends with the line. -/
theorem endWord_last (hstop : stop ∉ w) (hzero : 0 ∉ w) (pre post : List UInt8) :
    endWord stop (pre ++ (w ++ 0 :: post)) pre.length ((pre ++ (w ++ 0 :: post)).drop pre.length)
      =
      some (pre ++ (w ++ 0 :: post), (pre ++ w).length) := by
  rw [List.drop_left, endWord_append hstop hzero, endWord, if_pos rfl, List.length_append]

/-- A word that ends with the byte `stop`. -/
theorem endWord_stop (hstop : stop ∉ w) (hzero : 0 ∉ w) (hne : stop ≠ 0) (pre r : List UInt8) :
    endWord stop (pre ++ (w ++ stop :: r)) pre.length ((pre ++ (w ++ stop :: r)).drop pre.length)
      =
      some (pre ++ w ++ [0] ++ r, (pre ++ w ++ [0]).length) := by
  have hset := set_append_length (pre ++ w) r stop 0
  rw [List.length_append, List.append_assoc] at hset
  rw [List.drop_left, endWord_append hstop hzero, endWord, if_neg hne, if_pos rfl, hset]
  simp [Nat.add_assoc]

/-- A turn at a space does what it does at the next byte. -/
theorem tokenizeLoop_space (h : buf[line]? = some 32) :
    tokenizeLoop max (fuel + 1) argv buf line =
      tokenizeLoop max (fuel + 1) argv buf (line + 1) := by
  obtain ⟨hlt, hspace⟩ := List.getElem?_eq_some_iff.mp h
  have hskip : skipSpaces line (buf.drop line) = skipSpaces (line + 1) (buf.drop (line + 1)) := by
    rw [List.drop_eq_getElem_cons hlt, hspace, skipSpaces, if_pos rfl]
  rw [tokenizeLoop, if_neg (by rw [h]; decide), hskip, tokenizeLoop]
  by_cases hend : buf[line + 1]? = some 0
  · obtain ⟨hlt', hzero⟩ := List.getElem?_eq_some_iff.mp hend
    rw [if_pos hend, List.drop_eq_getElem_cons hlt', hzero, skipSpaces, if_neg (by decide),
      Option.bind_some, if_pos hend]
  · rw [if_neg hend]

/-- A turn at the first byte of a word. -/
theorem tokenizeLoop_word (h : buf[line]? = some c) (hzero : c ≠ 0) (hspace : c ≠ 32) :
    tokenizeLoop max (fuel + 1) argv buf line =
      if argv.length ≥ max then some ⟨argv, buf⟩
      else if c = 34 then
        (endWord 34 buf (line + 1) (buf.drop (line + 1))).bind fun r =>
          tokenizeLoop max fuel (argv ++ [line + 1]) r.1 r.2
      else
        (endWord 32 buf line (buf.drop line)).bind fun r =>
          tokenizeLoop max fuel (argv ++ [line]) r.1 r.2 := by
  obtain ⟨hlt, hc⟩ := List.getElem?_eq_some_iff.mp h
  have hne : ¬ buf[line]? = some 0 := by
    rw [h]
    exact fun heq => hzero (Option.some.inj heq)
  have hquote : buf[line]? = some 34 ↔ c = 34 := by rw [h, Option.some.injEq]
  have hskip : skipSpaces line (buf.drop line) = some line := by
    rw [List.drop_eq_getElem_cons hlt, hc, skipSpaces, if_neg hspace]
  rw [tokenizeLoop, if_neg hne, hskip, Option.bind_some, if_neg hne]
  simp only [hquote]

/-! ## All turns -/

/-- The line as it is left: zeros behind words. -/
abbrev Cut (s s' : List UInt8) : Prop :=
  List.Forall₂ (fun c d => d = c ∨ (c = 32 ∨ c = 34) ∧ d = 0) s s'

/-- What the loop returns for the words `ws` of the line `s`, with `argv` so far. -/
def Cuts (max : Nat) (argv : List Nat) (pre s post : List UInt8) (ws : List (List UInt8))
    (r : Option Tokenized) : Prop :=
  ∃ ptrs s', r = some ⟨argv ++ ptrs, pre ++ (s' ++ 0 :: post)⟩ ∧
    List.Forall₂ (StringAt (pre ++ (s' ++ 0 :: post))) ptrs (ws.take (max - argv.length)) ∧
      Cut s s'

variable {pre post lead : List UInt8} {result : Option Tokenized}

theorem cut_refl (s : List UInt8) : Cut s s := List.forall₂_same.mpr fun _ _ => .inl rfl

theorem stringAt_append (hzero : 0 ∉ w) (pre r : List UInt8) :
    StringAt (pre ++ (w ++ 0 :: r)) pre.length w where
  chars := by
    intro k hk
    rw [getElem?_append_length, List.getElem?_append_left hk]
  terminated := by
    rw [getElem?_append_length, List.getElem?_append_right (le_refl _), Nat.sub_self]
    rfl
  nonzero := hzero

/-- No place is left in `argv`, or no word in the line. -/
theorem Cuts.done (h : ws.take (max - argv.length) = []) :
    Cuts max argv pre s post ws (some ⟨argv, pre ++ (s ++ 0 :: post)⟩) := by
  refine ⟨[], s, by rw [List.append_nil], ?_, cut_refl s⟩
  rw [h]
  exact .nil

/-- A word that ends with the line. -/
theorem Cuts.last (pre lead post : List UInt8) (hroom : argv.length < max) (hzero : 0 ∉ w) :
    Cuts max argv pre (lead ++ w) post [w]
      (some ⟨argv ++ [(pre ++ lead).length], pre ++ (lead ++ w ++ 0 :: post)⟩) := by
  refine ⟨[(pre ++ lead).length], lead ++ w, rfl, ?_, cut_refl _⟩
  have hstring := stringAt_append hzero (pre ++ lead) post
  rw [List.append_assoc, ← List.append_assoc lead] at hstring
  rw [List.take_of_length_le (by rw [List.length_singleton]; omega)]
  exact .cons hstring .nil

/-- A word and what follows. -/
theorem Cuts.cons (lead : List UInt8) (hroom : argv.length < max) (hzero : 0 ∉ w)
    (hstop : stop = 32 ∨ stop = 34)
    (h : Cuts max (argv ++ [(pre ++ lead).length]) (pre ++ lead ++ w ++ [0]) s post ws result) :
    Cuts max argv pre (lead ++ (w ++ stop :: s)) post (w :: ws) result := by
  obtain ⟨ptrs, s', hresult, hptrs, hcut⟩ := h
  have hbuf : pre ++ lead ++ w ++ [0] ++ (s' ++ 0 :: post) =
      pre ++ (lead ++ (w ++ 0 :: s') ++ 0 :: post) := by simp
  have hstring := stringAt_append hzero (pre ++ lead) (s' ++ 0 :: post)
  rw [show pre ++ lead ++ (w ++ 0 :: (s' ++ 0 :: post)) =
    pre ++ (lead ++ (w ++ 0 :: s') ++ 0 :: post) by simp] at hstring
  rw [hbuf] at hresult hptrs
  rw [List.length_append, List.length_singleton] at hptrs
  refine ⟨(pre ++ lead).length :: ptrs, lead ++ (w ++ 0 :: s'), ?_, ?_, ?_⟩
  · rw [hresult, List.append_assoc argv, List.singleton_append]
  · obtain ⟨n, hn⟩ := Nat.exists_eq_add_of_lt hroom
    rw [show max - argv.length = max - (argv.length + 1) + 1 by omega, List.take_succ_cons]
    exact .cons hstring hptrs
  · exact List.rel_append (cut_refl lead)
      (List.rel_append (cut_refl w) (.cons (.inr ⟨hstop, rfl⟩) hcut))

/-- Bytes in front of the line that stay. -/
theorem Cuts.behind (h : Cuts max argv (pre ++ lead) s post ws result) :
    Cuts max argv pre (lead ++ s) post ws result := by
  obtain ⟨ptrs, s', hresult, hptrs, hcut⟩ := h
  rw [List.append_assoc, ← List.append_assoc lead] at hresult hptrs
  exact ⟨ptrs, lead ++ s', hresult, hptrs, List.rel_append (cut_refl lead) hcut⟩

theorem getElem?_line (pre s r : List UInt8) (c : UInt8) :
    (pre ++ (c :: s ++ r))[pre.length]? = some c := by
  rw [List.getElem?_append_right (le_refl _), Nat.sub_self]
  rfl

/-- The loop at a word without quotation marks. -/
theorem tokenizeLoop_bare (hc : c ≠ 34) (hw : 32 ∉ c :: w) (hzero : 0 ∉ c :: w)
    (hroom : argv.length < max)
    (pre r : List UInt8) :
    tokenizeLoop max (fuel + 1) argv (pre ++ (c :: w ++ r)) pre.length =
      (endWord 32 (pre ++ (c :: w ++ r)) pre.length ((pre ++ (c :: w ++ r)).drop pre.length)).bind
        fun r =>
        tokenizeLoop max fuel (argv ++ [pre.length]) r.1 r.2 := by
  have hc0 : c ≠ 0 := fun h => hzero (h ▸ List.mem_cons_self)
  have hc32 : c ≠ 32 := fun h => hw (h ▸ List.mem_cons_self)
  rw [tokenizeLoop_word (getElem?_line pre w r c) hc0 hc32, if_neg (Nat.not_le_of_lt hroom),
    if_neg hc]

/-- The loop at a quotation mark. -/
theorem tokenizeLoop_quote (hroom : argv.length < max) (pre r : List UInt8) :
    tokenizeLoop max (fuel + 1) argv (pre ++ (34 :: r)) pre.length =
      (endWord 34 (pre ++ [34] ++ r) (pre ++ [34]).length
        ((pre ++ [34] ++ r).drop (pre ++ [34]).length)).bind fun r =>
        tokenizeLoop max fuel (argv ++ [(pre ++ [34]).length]) r.1 r.2 := by
  have hlength : (pre ++ [34]).length = pre.length + 1 := List.length_append
  have hquote : (pre ++ 34 :: r)[pre.length]? = some 34 := getElem?_line pre [] r 34
  rw [tokenizeLoop_word hquote (by decide) (by decide), if_neg (Nat.not_le_of_lt hroom),
    if_pos rfl, hlength,
    List.append_assoc, List.singleton_append]

/-- The loop with no place left in `argv`. -/
theorem tokenizeLoop_full (hc0 : c ≠ 0) (hc32 : c ≠ 32) (hfull : max ≤ argv.length)
    (ws : List (List UInt8)) :
    Cuts max argv pre (c :: w) post ws
      (tokenizeLoop max (fuel + 1) argv (pre ++ (c :: w ++ 0 :: post)) pre.length) := by
  rw [tokenizeLoop_word (getElem?_line pre w (0 :: post) c) hc0 hc32, if_pos hfull]
  refine .done ?_
  rw [Nat.sub_eq_zero_of_le hfull, List.take_zero]

/-- The loop at the end of the line. -/
theorem tokenizeLoop_end (argv : List Nat) (pre post : List UInt8) :
    tokenizeLoop max (fuel + 1) argv (pre ++ 0 :: post) pre.length =
      some ⟨argv, pre ++ 0 :: post⟩ := by
  have hend : (pre ++ 0 :: post)[pre.length]? = some 0 := getElem?_line pre [] post 0
  rw [tokenizeLoop, if_pos hend]

/-- The loop takes the words of the line. -/
theorem tokenizeLoop_spec (max fuel : Nat) (h : Words s ws) (hzero : 0 ∉ s)
    (hfuel : s.length < fuel) (argv : List Nat)
    (pre post : List UInt8) :
    Cuts max argv pre s post ws
      (tokenizeLoop max fuel argv (pre ++ (s ++ 0 :: post)) pre.length) := by
  obtain ⟨fuel, rfl⟩ := Nat.exists_eq_add_one_of_ne_zero (Nat.ne_of_gt (Nat.zero_lt_of_lt hfuel))
  induction h generalizing fuel argv pre with
  | nil =>
    rw [List.nil_append, tokenizeLoop_end]
    exact .done List.take_nil
  | @space s ws h ih =>
    rw [List.mem_cons, not_or] at hzero
    rw [List.length_cons] at hfuel
    have hrest := ih hzero.2 argv (pre ++ [32]) fuel (by omega)
    rw [List.append_assoc, List.length_append, List.length_singleton] at hrest
    rw [tokenizeLoop_space (getElem?_line pre s (0 :: post) 32)]
    exact hrest.behind
  | @last c w hc hw =>
    have hc0 : c ≠ 0 := fun h => hzero (h ▸ List.mem_cons_self)
    have hc32 : c ≠ 32 := fun h => hw (h ▸ List.mem_cons_self)
    rcases Nat.lt_or_ge argv.length max with hroom | hfull
    · obtain ⟨fuel, rfl⟩ :=
        Nat.exists_eq_add_one_of_ne_zero (n := fuel) (by rw [List.length_cons] at hfuel; omega)
      have hend := Cuts.last pre [] post hroom hzero
      rw [List.append_nil, List.nil_append] at hend
      rw [tokenizeLoop_bare hc hw hzero hroom, endWord_last hw hzero, Option.bind_some,
        ← List.append_assoc, tokenizeLoop_end,
        List.append_assoc]
      exact hend
    · exact tokenizeLoop_full hc0 hc32 hfull _
  | @word c w s ws hc hw h ih =>
    have hc0 : c ≠ 0 := fun h => hzero (h ▸ List.mem_cons_self)
    have hc32 : c ≠ 32 := fun h => hw (h ▸ List.mem_cons_self)
    rcases Nat.lt_or_ge argv.length max with hroom | hfull
    · rw [List.mem_append, not_or] at hzero
      simp only [List.length_append, List.length_cons] at hfuel
      obtain ⟨fuel, rfl⟩ := Nat.exists_eq_add_one_of_ne_zero (n := fuel) (by omega)
      have hrest :=
        ih (fun h => hzero.2 (List.mem_cons_of_mem _ h)) (argv ++ [pre.length])
        (pre ++ (c :: w) ++ [0]) fuel
        (by omega)
      have hcons := Cuts.cons [] hroom hzero.1 (.inl rfl) (by rwa [List.append_nil])
      rw [List.append_assoc (c :: w), List.cons_append (a := 32),
        tokenizeLoop_bare hc hw hzero.1 hroom,
        endWord_stop hw hzero.1 (by decide)]
      exact hcons
    · exact tokenizeLoop_full hc0 hc32 hfull _
  | @unclosed w hw =>
    rw [List.mem_cons, not_or] at hzero
    rcases Nat.lt_or_ge argv.length max with hroom | hfull
    · obtain ⟨fuel, rfl⟩ :=
        Nat.exists_eq_add_one_of_ne_zero (n := fuel) (by rw [List.length_cons] at hfuel; omega)
      rw [List.cons_append, tokenizeLoop_quote hroom, endWord_last hw hzero.2, Option.bind_some,
        ← List.append_assoc,
        tokenizeLoop_end, List.append_assoc, List.append_assoc]
      exact Cuts.last pre [34] post hroom hzero.2
    · exact tokenizeLoop_full (by decide) (by decide) hfull _
  | @quoted w s ws hw h ih =>
    rw [List.mem_cons, not_or, List.mem_append, not_or, List.mem_cons, not_or] at hzero
    rcases Nat.lt_or_ge argv.length max with hroom | hfull
    · simp only [List.length_append, List.length_cons] at hfuel
      obtain ⟨fuel, rfl⟩ := Nat.exists_eq_add_one_of_ne_zero (n := fuel) (by omega)
      have hrest :=
        ih hzero.2.2.2 (argv ++ [(pre ++ [34]).length]) (pre ++ [34] ++ w ++ [0]) fuel (by omega)
      rw [List.cons_append, List.append_assoc w, List.cons_append, tokenizeLoop_quote hroom,
        endWord_stop hw hzero.2.1 (by decide)]
      exact Cuts.cons [34] hroom hzero.2.1 (.inr rfl) hrest
    · exact tokenizeLoop_full (by decide) (by decide) hfull _

/-! ## The words of a line are its own -/

/-- A pointer points to one string. -/
theorem stringAt_unique {a : Nat} {t t' : List UInt8} (h : StringAt buf a t)
    (h' : StringAt buf a t') : t = t' := by
  have hle :
      ∀ {t t' : List UInt8}, StringAt buf a t → StringAt buf a t' → t'.length ≤ t.length := by
    intro t t' h h'
    by_contra hlt
    have hzero := h'.chars t.length (by omega)
    rw [h.terminated] at hzero
    exact h'.nonzero (List.mem_of_getElem? hzero.symm)
  have hlength := Nat.le_antisymm (hle h' h) (hle h h')
  apply List.ext_getElem? fun k => ?_
  by_cases hk : k < t.length
  · rw [← h.chars k hk, h'.chars k (by omega)]
  · rw [List.getElem?_eq_none (by omega), List.getElem?_eq_none (by omega)]

theorem forall₂_unique {ptrs : List Nat} {ws ws' : List (List UInt8)}
    (h : List.Forall₂ (StringAt buf) ptrs ws)
    (h' : List.Forall₂ (StringAt buf) ptrs ws') : ws = ws' := by
  induction h generalizing ws' with
  | nil =>
    cases h'
    rfl
  | cons hfirst hrest ih =>
    cases h' with
    | cons hfirst' hrest' => rw [stringAt_unique hfirst hfirst', ih hrest']

/-- The grammar gives a line one list of words. -/
theorem Words.unique {ws' : List (List UInt8)} (h : Words s ws) (h' : Words s ws')
    (hzero : 0 ∉ s) : ws = ws' := by
  have hrun := tokenizeLoop_spec (ws.length + ws'.length) _ h hzero (Nat.lt_succ_self _) [] [] []
  have hrun' :=
    tokenizeLoop_spec (ws.length + ws'.length) _ h' hzero (Nat.lt_succ_self _) [] [] []
  obtain ⟨ptrs, s₁, hresult, hptrs, -⟩ := hrun
  obtain ⟨ptrs', s₂, hresult', hptrs', -⟩ := hrun'
  rw [hresult, Option.some.injEq, Tokenized.mk.injEq] at hresult'
  rw [List.length_nil, List.take_of_length_le (by omega)] at hptrs hptrs'
  rw [hresult'.2, show ptrs = ptrs' from hresult'.1] at hptrs
  exact forall₂_unique hptrs hptrs'

/-- `argv` gets the words of the line in order, up to `max` of them. -/
theorem tokenize_words (max : Nat) (pre s post : List UInt8) (hzero : 0 ∉ s) :
    ∃ ws ptrs s', (∀ ws', Words s ws' ↔ ws' = ws) ∧
      tokenize (pre ++ (s ++ 0 :: post)) pre.length max = some ⟨ptrs, pre ++ (s' ++ 0 :: post)⟩ ∧
      ptrs.length = min max ws.length ∧
        List.Forall₂ (StringAt (pre ++ (s' ++ 0 :: post))) ptrs (ws.take max) ∧ Cut s s' := by
  obtain ⟨ws, hws⟩ := exists_words s
  have hunique : ∀ ws', Words s ws' ↔ ws' = ws := by
    intro ws'
    constructor
    · intro h
      exact h.unique hws hzero
    · intro h
      rwa [h]
  obtain ⟨ptrs, s', hrun, hptrs, hcut⟩ :=
    tokenizeLoop_spec max ((pre ++ (s ++ 0 :: post)).length + 1)
    hws hzero (by simp only [List.length_append]; omega) [] pre post
  refine ⟨ws, ptrs, s', hunique, hrun, ?_, hptrs, hcut⟩
  rw [hptrs.length_eq, List.length_take]
  rfl

/-- A line with a word and a quoted word, of which `argv` has room for one. -/
theorem tokenize_words_quoted :
    0 ∉ ([97, 32, 34, 98, 32, 99, 34] : List UInt8) ∧
      ∃ ws ptrs s', (∀ ws', Words [97, 32, 34, 98, 32, 99, 34] ws' ↔ ws' = ws) ∧
        tokenize ([] ++ ([97, 32, 34, 98, 32, 99, 34] ++ [0])) 0 1 =
          some ⟨ptrs, [] ++ (s' ++ [0])⟩ ∧
        ptrs.length = min 1 ws.length ∧
          List.Forall₂ (StringAt ([] ++ (s' ++ [0]))) ptrs (ws.take 1) ∧
        Cut [97, 32, 34, 98, 32, 99, 34] s' :=
  ⟨by decide, tokenize_words 1 [] [97, 32, 34, 98, 32, 99, 34] [] (by decide)⟩

example : tokenize [97, 32, 34, 98, 32, 99, 34, 0] 0 MAX_ARGS =
    some ⟨[0, 3], [97, 0, 34, 98, 32, 99, 0, 0]⟩ := by decide

end Lumin.User
