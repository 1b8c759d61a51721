import Lumin.Lib.Runs

/-!
# Cutting a string into tokens

A model of `strtok_r` of `libc/src/string/str.c`.  The array that holds the string is the
list of its bytes, a pointer into it is an index, and a read past its end is a fault.  The
delimiters are the bytes in front of their terminating zero.

`Pending` says which tokens the pointer in `*saveptr` still stands for, and `next_spec`
that a call takes the first of them.  `strtok_r_enumerates` is the result.
-/

namespace Lumin.Libc.Strtok

open Lumin.Lib

/-- The loop over the delimiters. -/
def isDelim : List UInt8 → UInt8 → Bool
  | [], _ => false
  | d :: delim, c => if c = d then true else isDelim delim c

/-- What a call leaves: its result, the array and `*saveptr`. -/
structure Called where
  ret : Option Nat
  buf : List UInt8
  save : Option Nat
deriving DecidableEq

/-- The loop over leading delimiters, with the bytes from `str` on. -/
def skipLoop (delim : List UInt8) (str : Nat) : List UInt8 → Option Nat
  | [] => none
  | c :: rest =>
    if c = 0 then some str
    else if isDelim delim c then skipLoop delim (str + 1) rest
    else some str

/-- The loop over the token that begins at `start`, with the bytes from `str` on. -/
def tokenLoop (delim buf : List UInt8) (start str : Nat) : List UInt8 → Option Called
  | [] => none
  | c :: rest =>
    if c = 0 then some ⟨some start, buf, none⟩
    else if isDelim delim c then some ⟨some start, buf.set str 0, some (str + 1)⟩
    else tokenLoop delim buf start (str + 1) rest

/-- `strtok_r`. -/
def strtok_r (str : Option Nat) (delim buf : List UInt8) (save : Option Nat) : Option Called :=
  match str.or save with
  | none => some ⟨none, buf, save⟩
  | some p =>
    match skipLoop delim p (buf.drop p) with
    | none => none
    | some start =>
      if buf[start]? = some 0 then some ⟨none, buf, none⟩
      else tokenLoop delim buf start start (buf.drop start)

/-- The call number `k`: the first one with the string, the others with `NULL`. -/
def call (str : Nat) (delim buf : List UInt8) (save : Option Nat) : Nat → Option Called
  | 0 => strtok_r (some str) delim buf save
  | k + 1 => (call str delim buf save k).bind fun r => strtok_r none delim r.buf r.save

/-! ## Tokens -/

/-- The `n` characters of `s` from index `i` on are a token. -/
def IsToken (delim s : List UInt8) (i n : Nat) : Prop := IsRun (fun c => c ∈ delim) s i n

/-- The string in the array from index `a` on is `t`. -/
structure StringAt (buf : List UInt8) (a : Nat) (t : List UInt8) : Prop where
  chars : ∀ k < t.length, buf[a + k]? = t[k]?
  terminated : buf[a + t.length]? = some 0
  nonzero : 0 ∉ t

/-- Zeros behind tokens. -/
def cut (buf : List UInt8) (ts : List (Nat × Nat)) : List UInt8 :=
  ts.foldl (fun buf t => buf.set (t.1 + t.2) 0) buf

variable {delim buf pre s u r post : List UInt8} {ts : List (Nat × Nat)} {c : UInt8}
  {p : Option Nat} {start str x : Nat}

theorem isDelim_eq (delim : List UInt8) : isDelim delim = fun c => decide (c ∈ delim) := by
  funext c
  induction delim with
  | nil => rfl
  | cons d delim ih =>
    rw [isDelim, ih]
    by_cases hc : c = d
    · simp [hc]
    · simp [hc]

theorem cut_cons (buf : List UInt8) (t : Nat × Nat) (ts : List (Nat × Nat)) :
    cut buf (t :: ts) = cut (buf.set (t.1 + t.2) 0) ts := rfl

/-! ## One call -/

/-- The tokens that are left when `*saveptr` is `p`. -/
inductive Pending (delim : List UInt8) : List UInt8 → Option Nat → List (Nat × Nat) → Prop
  | done (buf : List UInt8) : Pending delim buf none []
  | string (pre s post : List UInt8) (h : 0 ∉ s) :
    Pending delim (pre ++ (s ++ 0 :: post)) (some pre.length)
      (runs (isDelim delim) pre.length 0 s)

theorem skipLoop_append (hu : ∀ c ∈ u, isDelim delim c = true) (hzero : 0 ∉ u) (str : Nat)
    (r : List UInt8) :
    skipLoop delim str (u ++ r) = skipLoop delim (str + u.length) r := by
  induction u generalizing str with
  | nil => rfl
  | cons c u ih =>
    rw [List.mem_cons, not_or] at hzero
    rw [List.cons_append, skipLoop, if_neg fun h => hzero.1 h.symm,
      if_pos (hu c List.mem_cons_self),
      ih (fun d hd => hu d (List.mem_cons_of_mem c hd)) hzero.2, List.length_cons]
    congr 1
    omega

theorem tokenLoop_append (hu : ∀ c ∈ u, isDelim delim c = false) (hzero : 0 ∉ u) (str : Nat)
    (r : List UInt8) :
    tokenLoop delim buf start str (u ++ r) = tokenLoop delim buf start (str + u.length) r := by
  induction u generalizing str with
  | nil => rfl
  | cons c u ih =>
    have hc : ¬ isDelim delim c = true := Bool.eq_false_iff.mp (hu c List.mem_cons_self)
    rw [List.mem_cons, not_or] at hzero
    rw [List.cons_append, tokenLoop, if_neg fun h => hzero.1 h.symm, if_neg hc,
      ih (fun d hd => hu d (List.mem_cons_of_mem c hd)) hzero.2, List.length_cons]
    congr 1
    omega

/-- Positions in an array made of two parts. -/
theorem drop_append_length (a b : List UInt8) (n : Nat) :
    (a ++ b).drop (a.length + n) = b.drop n := by
  rw [List.drop_append, List.drop_of_length_le (by omega), List.nil_append,
    Nat.add_sub_cancel_left]

theorem getElem?_append_length (a b : List UInt8) (n : Nat) :
    (a ++ b)[a.length + n]? = b[n]? := by
  rw [List.getElem?_append_right (by omega), Nat.add_sub_cancel_left]

theorem set_append_length (a b : List UInt8) (c d : UInt8) :
    (a ++ c :: b).set a.length d = a ++ d :: b := by
  rw [List.set_append_right _ _ (le_refl _), Nat.sub_self]
  rfl

/-- A call on delimiters alone. -/
theorem strtok_r_delimiters (hall : ∀ c ∈ s, isDelim delim c = true) (hzero : 0 ∉ s)
    (pre post : List UInt8) :
    strtok_r none delim (pre ++ (s ++ 0 :: post)) (some pre.length) =
      some ⟨none, pre ++ (s ++ 0 :: post), none⟩ := by
  have hskip : skipLoop delim pre.length ((pre ++ (s ++ 0 :: post)).drop pre.length) =
      some (pre.length + s.length) := by
    rw [List.drop_left, skipLoop_append hall hzero, skipLoop, if_pos rfl]
  have hend : (pre ++ (s ++ 0 :: post))[pre.length + s.length]? = some 0 := by
    rw [getElem?_append_length, List.getElem?_append_right (le_refl _), Nat.sub_self]
    rfl
  simp only [strtok_r, Option.none_or, hskip, hend, if_true]

/-- A call on delimiters and a token goes on at the end of the token. -/
theorem strtok_r_token (hlead : ∀ c ∈ u, isDelim delim c = true)
    (htoken : ∀ c ∈ s, isDelim delim c = false)
    (hne : s ≠ []) (hzu : 0 ∉ u) (hzs : 0 ∉ s) (pre r : List UInt8) :
    strtok_r none delim (pre ++ (u ++ (s ++ r))) (some pre.length) =
      tokenLoop delim (pre ++ (u ++ (s ++ r))) (pre.length + u.length)
        (pre.length + u.length + s.length) r := by
  obtain ⟨c, s, rfl⟩ := List.exists_cons_of_ne_nil hne
  have hc : ¬ isDelim delim c = true := Bool.eq_false_iff.mp (htoken c List.mem_cons_self)
  have hc0 : c ≠ 0 := fun h => hzs (h ▸ List.mem_cons_self)
  have hskip : skipLoop delim pre.length ((pre ++ (u ++ (c :: s ++ r))).drop pre.length) =
      some (pre.length + u.length) := by
    rw [List.drop_left, skipLoop_append hlead hzu, List.cons_append, skipLoop, if_neg hc0,
      if_neg hc]
  have hfirst : (pre ++ (u ++ (c :: s ++ r)))[pre.length + u.length]? = some c := by
    rw [getElem?_append_length, List.getElem?_append_right (le_refl _), Nat.sub_self]
    rfl
  have hfrom : (pre ++ (u ++ (c :: s ++ r))).drop (pre.length + u.length) = c :: s ++ r := by
    rw [drop_append_length, List.drop_left]
  rw [← tokenLoop_append htoken hzs]
  simp only [strtok_r, Option.none_or, hskip, hfirst, hfrom, Option.some.injEq, hc0, if_false]

/-- A call takes the first of the tokens that are left. -/
theorem next_spec (h : Pending delim buf p ts) :
    ∃ r, strtok_r none delim buf p = some r ∧ r.ret = ts.head?.map Prod.fst ∧
      Pending delim r.buf r.save ts.tail ∧ r.buf = cut buf (ts.take 1) := by
  cases h with
  | done buf => exact ⟨⟨none, buf, none⟩, rfl, rfl, .done buf, rfl⟩
  | string pre s post hzero =>
    rcases split_first (isDelim delim) s with hall | ⟨lead, token, rest, rfl, hlead, hne, htoken,
        hrest⟩
    · have htokens : runs (isDelim delim) pre.length 0 s = [] := by
        have h := runs_separators (r := []) pre.length hall
        rwa [List.append_nil] at h
      rw [htokens]
      exact ⟨_, strtok_r_delimiters hall hzero pre post, rfl, .done _, rfl⟩
    · simp only [List.mem_append, not_or] at hzero
      obtain ⟨hzlead, hztoken, hzrest⟩ := hzero
      have hcall := strtok_r_token hlead htoken hne hzlead hztoken pre (rest ++ 0 :: post)
      have hbuf : pre ++ (lead ++ (token ++ (rest ++ 0 :: post))) =
          pre ++ lead ++ token ++ (rest ++ 0 :: post) := by
        simp only [List.append_assoc]
      have hlength : (pre ++ lead ++ token).length = pre.length + lead.length + token.length := by
        rw [List.length_append, List.length_append]
      rw [hbuf] at hcall
      rw [runs_separators pre.length hlead,
        show pre ++ (lead ++ (token ++ rest) ++ 0 :: post) =
            pre ++ lead ++ token ++ (rest ++ 0 :: post) by simp, hcall]
      cases rest with
      | nil =>
        -- The token ends with the string, and the zero behind it is already there.
        have hcut := set_append_length (pre ++ lead ++ token) post 0 0
        rw [hlength] at hcut
        rw [List.append_nil, runs_last _ htoken hne]
        exact ⟨_, rfl, rfl, .done _, hcut.symm⟩
      | cons d r =>
        have hd := hrest d r rfl
        have hd0 : d ≠ 0 := fun h => hzrest (h ▸ List.mem_cons_self)
        have hcut := set_append_length (pre ++ lead ++ token) (r ++ 0 :: post) d 0
        have hleft := @Pending.string delim (pre ++ lead ++ token ++ [0]) r post
          fun h => hzrest (List.mem_cons_of_mem d h)
        rw [hlength] at hcut
        rw [List.length_append, hlength, List.length_singleton,
          List.append_assoc (pre ++ lead ++ token),
          List.singleton_append] at hleft
        rw [runs_run _ htoken hne hd, List.cons_append, tokenLoop, if_neg hd0, if_pos hd, hcut]
        exact ⟨_, rfl, rfl, hleft, hcut.symm⟩

/-! ## All calls -/

/-- The call number `k` takes the token number `k`. -/
theorem call_spec (h : Pending delim buf (some str) ts) (save : Option Nat) (k : Nat) :
    ∃ r, call str delim buf save k = some r ∧ r.ret = ts[k]?.map Prod.fst ∧
      Pending delim r.buf r.save (ts.drop (k + 1)) ∧ r.buf = cut buf (ts.take (k + 1)) := by
  induction k with
  | zero =>
    obtain ⟨r, hcall, hret, hpending, hbuf⟩ := next_spec h
    rw [List.head?_eq_getElem?] at hret
    rw [← List.drop_one] at hpending
    exact ⟨r, hcall, hret, hpending, hbuf⟩
  | succ k ih =>
    obtain ⟨r, hcall, -, hpending, hbuf⟩ := ih
    obtain ⟨r', hcall', hret', hpending', hbuf'⟩ := next_spec hpending
    rw [List.head?_drop] at hret'
    rw [List.tail_drop] at hpending'
    refine ⟨r', ?_, hret', hpending', ?_⟩
    · rw [call, hcall]
      exact hcall'
    · rw [hbuf', hbuf, cut, cut, cut, ← List.foldl_append]
      congr 1
      rw [List.take_add (i := k + 1) (j := 1)]

/-- The bytes after the cuts. -/
theorem getElem?_cut (buf : List UInt8) (ts : List (Nat × Nat)) (x : Nat) :
    (cut buf ts)[x]? = if ∃ t ∈ ts, t.1 + t.2 = x then buf[x]?.map fun _ => 0 else buf[x]? := by
  induction ts generalizing buf with
  | nil => simp [cut]
  | cons t ts ih =>
    have hset : (buf.set (t.1 + t.2) 0)[x]? = if t.1 + t.2 = x then buf[x]?.map fun _ => 0
        else buf[x]? := by
      by_cases hx : t.1 + t.2 = x
      · rw [if_pos hx, hx, List.getElem?_set_self']
        rfl
      · rw [if_neg hx, List.getElem?_set_ne hx]
    rw [cut_cons, ih, hset]
    by_cases hx : t.1 + t.2 = x
    · simp [hx, Function.comp_def]
    · simp only [List.mem_cons, exists_eq_or_imp, hx, false_or, if_false]

/-- `strtok_r` yields the tokens in order, each of them once. -/
theorem strtok_r_enumerates (delim pre s post : List UInt8) (h : 0 ∉ s) (save : Option Nat) :
    ∃ ts : List (Nat × Nat),
      ts.Pairwise (fun t t' => t.1 + t.2 < t'.1) ∧ (∀ i n, (i, n) ∈ ts ↔ IsToken delim s i n) ∧
        ∀ k, ∃ r, call pre.length delim (pre ++ (s ++ 0 :: post)) save k = some r ∧
          r.ret = ts[k]?.map (fun t => pre.length + t.1) ∧
          (∀ t ∈ ts.take (k + 1), StringAt r.buf (pre.length + t.1) ((s.drop t.1).take t.2)) ∧
          ∀ x, (∀ t ∈ ts.take (k + 1), x ≠ pre.length + t.1 + t.2) →
              r.buf[x]? = (pre ++ (s ++ 0 :: post))[x]? := by
  have hshift := runs_shift (isDelim delim) pre.length 0 0 s
  rw [Nat.add_zero] at hshift
  have hpending := @Pending.string delim pre s post h
  have htoken : ∀ i n, (i, n) ∈ runs (isDelim delim) 0 0 s ↔ IsToken delim s i n := by
    intro i n
    rw [mem_runs, isDelim_eq]
    rfl
  have hsorted := (runs_sorted (isDelim delim) 0 0 s).2
  rw [hshift] at hpending
  generalize runs (isDelim delim) 0 0 s = ts at hpending htoken hsorted
  refine ⟨ts, hsorted, htoken, fun k => ?_⟩
  obtain ⟨r, hcall, hret, -, hbuf⟩ := call_spec hpending save k
  rw [← List.map_take] at hbuf
  have hbyte : ∀ x, r.buf[x]? = if ∃ t ∈ ts.take (k + 1), pre.length + t.1 + t.2 = x then
      (pre ++ (s ++ 0 :: post))[x]?.map fun _ => 0 else (pre ++ (s ++ 0 :: post))[x]? := by
    intro x
    rw [hbuf, getElem?_cut]
    simp only [List.mem_map, exists_exists_and_eq_and]
  refine ⟨r, hcall, ?_, ?_, ?_⟩
  · rw [hret, List.getElem?_map, Option.map_map]
    rfl
  · intro t ht
    have hrun : IsToken delim s t.1 t.2 := (htoken t.1 t.2).mp (List.mem_of_mem_take ht)
    have hend := hrun.end_le
    have hpos := hrun.pos
    have hlength : ((s.drop t.1).take t.2).length = t.2 := by
      rw [List.length_take, List.length_drop]
      omega
    refine ⟨fun x hx => ?_, ?_, fun hmem => h (List.mem_of_mem_drop (List.mem_of_mem_take hmem))⟩
    · -- No cut is inside of the token.
      rw [hlength] at hx
      have hnocut :
          ¬ ∃ t' ∈ ts.take (k + 1), pre.length + t'.1 + t'.2 = pre.length + t.1 + x := by
        rintro ⟨t', ht', hcut⟩
        have hrun' : IsToken delim s t'.1 t'.2 := (htoken t'.1 t'.2).mp (List.mem_of_mem_take ht')
        obtain ⟨c, hc, hsep⟩ := hrun.inside x hx
        rw [show t.1 + x = t'.1 + t'.2 by omega] at hc
        rw [hrun'.after c hc] at hsep
        cases hsep
      rw [hbyte, if_neg hnocut, Nat.add_assoc, getElem?_append_length,
        List.getElem?_append_left (by omega),
        List.getElem?_take_of_lt hx, List.getElem?_drop]
    · have hlt : pre.length + t.1 + t.2 < (pre ++ (s ++ 0 :: post)).length := by
        simp only [List.length_append, List.length_cons]
        omega
      rw [hlength, hbyte, if_pos ⟨t, ht, rfl⟩, List.getElem?_eq_getElem hlt]
      rfl
  · intro x hx
    rw [hbyte, if_neg]
    rintro ⟨t, ht, hend⟩
    exact hx t ht hend.symm

/-- A comma, a token, two commas and a token. -/
theorem strtok_r_enumerates_commas :
    0 ∉ ([44, 97, 98, 44, 44, 99] : List UInt8) ∧
      ∃ ts : List (Nat × Nat),
        ts.Pairwise (fun t t' => t.1 + t.2 < t'.1) ∧
          (∀ i n, (i, n) ∈ ts ↔ IsToken [44] [44, 97, 98, 44, 44, 99] i n) ∧
          ∀ k, ∃ r, call 0 [44] [44, 97, 98, 44, 44, 99, 0] none k = some r ∧
            r.ret = ts[k]?.map (fun t => 0 + t.1) ∧
            (∀ t ∈ ts.take (k + 1),
              StringAt r.buf (0 + t.1) (([44, 97, 98, 44, 44, 99].drop t.1).take t.2)) ∧
            ∀ x, (∀ t ∈ ts.take (k + 1), x ≠ 0 + t.1 + t.2) →
                r.buf[x]? = [44, 97, 98, 44, 44, 99, 0][x]? :=
  ⟨by decide, strtok_r_enumerates [44] [] [44, 97, 98, 44, 44, 99] [] (by decide) none⟩

example : (List.range 4).map
    (fun k => (call 0 [44] [44, 97, 98, 44, 44, 99, 0] none k).map Called.ret) =
    [some (some 1), some (some 5), some none, some none] := by decide

end Lumin.Libc.Strtok
