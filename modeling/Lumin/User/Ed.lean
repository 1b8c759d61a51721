import Mathlib.Data.List.TakeWhile
import Lumin.Lib.Lines
import Lumin.Lib.Transition
import Lumin.Libc.MemFunctions

/-!
# The line editor

A model of the buffer of `user/coreutils/ed.c`: `rebuild_lines`, `read_file`, `insert_line`,
`delete_line` and the commands of `main` that change something.  Addresses are counted from
the start of `buf`.  The tables are functions, so that what an earlier call left in their
unused part is there to be read.

`Editor` is the list of lines that the buffer stands for.  `Matches` relates the two, and
`run_matches` says that careful commands keep them together.
-/

namespace Lumin.User.Ed

open Lumin.Lib Lumin.Libc

def BUF_SIZE : Nat := 65536
def MAX_LINES : Nat := 1024

/-- `'\n'`. -/
def newline : UInt8 := 10

/-- The static variables. -/
structure EdState where
  buf : Mem
  buf_len : Nat
  num_lines : Nat
  line_offsets : Nat → Nat
  line_lens : Nat → Nat
  cur_line : Int

/-! ## The table of lines -/

/-- The inner loop of `rebuild_lines`: the end of the line from `pos` on. -/
def scanLine (buf : Mem) (buf_len pos : Nat) : Nat :=
  if pos < buf_len ∧ buf pos ≠ newline then scanLine buf buf_len (pos + 1) else pos
termination_by buf_len - pos

/-- The outer loop of `rebuild_lines` with `room` entries left. -/
def rebuildLoop : Nat → Nat → EdState → EdState
  | 0, _, ed => ed
  | room + 1, pos, ed =>
    if pos < ed.buf_len then
      let start := pos
      let pos := scanLine ed.buf ed.buf_len pos
      rebuildLoop room (if pos < ed.buf_len ∧ ed.buf pos = newline then pos + 1 else pos)
        { ed with
          line_offsets := fun k => if k = ed.num_lines then start else ed.line_offsets k
          line_lens := fun k => if k = ed.num_lines then pos - start else ed.line_lens k
          num_lines := ed.num_lines + 1 }
    else ed

def rebuild_lines (ed : EdState) : EdState :=
  let ed := rebuildLoop MAX_LINES 0 { ed with num_lines := 0 }
  let cur_line := if ed.cur_line ≥ ed.num_lines then (ed.num_lines : Int) - 1 else ed.cur_line
  { ed with cur_line := if cur_line < 0 then 0 else cur_line }

/-- `read_file` of a file with at most `BUF_SIZE` bytes. -/
def read_file (content : List UInt8) (ed : EdState) : EdState :=
  rebuild_lines
    { ed with buf := wrBytes ed.buf 0 content, buf_len := content.length, cur_line := 0 }

/-! ## Editing -/

/-- `memmove(buf + dst, buf + src, n)`: a negative `n` is a length of nearly `2 ^ 64` bytes, and
the copy leaves the address space. -/
def moveBytes (buf : Mem) (dst src : Nat) (n : Int) : Option Mem :=
  if n < 0 then none else some (MemFunctions.memmove buf dst src n.toNat).2

def insert_line (after : Int) (text : List UInt8) (ed : EdState) : Option EdState :=
  if ed.num_lines ≥ MAX_LINES then some ed
  else
    let pos :=
      if after < 0 then 0
      else if after ≥ ed.num_lines then ed.buf_len
      else ed.line_offsets (after + 1).toNat
    if ed.buf_len + text.length + 1 > BUF_SIZE then some ed
    else
      match moveBytes ed.buf (pos + text.length + 1) pos (ed.buf_len - pos) with
      | none => none
      | some buf =>
        some (rebuild_lines
          { ed with
            buf := setByte (wrBytes buf pos text) (pos + text.length) newline
            buf_len := ed.buf_len + (text.length + 1)
            cur_line := after + 1 })

def delete_line (idx : Int) (ed : EdState) : Option EdState :=
  if idx < 0 ∨ idx ≥ ed.num_lines then some ed
  else
    let pos := ed.line_offsets idx.toNat
    let remove_len := ed.line_lens idx.toNat + 1
    match moveBytes ed.buf pos (pos + remove_len) (ed.buf_len - pos - remove_len) with
    | none => none
    | some buf => some (rebuild_lines { ed with buf := buf, buf_len := ed.buf_len - remove_len })

/-- The commands that change something: a line number, and the letters with the text that was
typed. -/
inductive Command
  | goto (n : Nat)
  | i (input : List UInt8)
  | a (input : List UInt8)
  | d

/-- One turn of the loop of `main`. -/
def command (ed : EdState) : Command → Option EdState
  | .goto n => some (if 1 ≤ n ∧ n ≤ ed.num_lines then { ed with cur_line := n - 1 } else ed)
  | .i input => if input.length > 0 then insert_line (ed.cur_line - 1) input ed else some ed
  | .a input => if input.length > 0 then insert_line ed.cur_line input ed else some ed
  | .d => delete_line ed.cur_line ed

/-! ## The lines -/

/-- The bytes in the buffer. -/
def contents (buf : Mem) (buf_len : Nat) : List UInt8 := (List.range buf_len).map buf

/-- An editor of lines: each has its newline, except perhaps the last one. -/
structure Editor where
  lines : List (List UInt8)
  cur : Nat

/-- The lines of a text, the last one ended as well. -/
def textLines (text : List UInt8) : List (List UInt8) :=
  if text.getLast? = some newline then splitLines newline text
  else splitLines newline (text ++ [newline])

/-- Put the lines of a text in front of line `k`. -/
def Editor.put (e : Editor) (k : Nat) (text : List UInt8) : Editor :=
  let lines := e.lines.take k ++ textLines text ++ e.lines.drop k
  { lines := lines, cur := min k (lines.length - 1) }

def Editor.command (e : Editor) : Command → Editor
  | .goto n => if 1 ≤ n ∧ n ≤ e.lines.length then { e with cur := n - 1 } else e
  | .i input => if input.length > 0 then e.put e.cur input else e
  | .a input => if input.length > 0 then e.put (e.cur + 1) input else e
  | .d =>
    if e.cur < e.lines.length then
      { lines := e.lines.eraseIdx e.cur, cur := min e.cur ((e.lines.eraseIdx e.cur).length - 1) }
    else e

/-- The table describes the lines. -/
structure Table (ed : EdState) (ls : List (List UInt8)) : Prop where
  num : ed.num_lines = ls.length
  offsets : ∀ k < ls.length, ed.line_offsets k = (ls.take k).flatten.length
  lens : ∀ (k : Nat) (l : List UInt8), ls[k]? = some l →
    ed.line_lens k = (l.takeWhile (· ≠ newline)).length

/-- The buffer stands for the lines. -/
structure Matches (ed : EdState) (e : Editor) : Prop where
  len_le : ed.buf_len ≤ BUF_SIZE
  lines : splitLines newline (contents ed.buf ed.buf_len) = e.lines
  table : Table ed e.lines
  cur : ed.cur_line = e.cur
  cur_lt : e.cur = 0 ∨ e.cur < e.lines.length
  few : e.lines.length ≤ MAX_LINES

variable {ed ed' : EdState} {e : Editor} {buf : Mem} {len pos k n : Nat}
  {pre b rest l text s : List UInt8}
  {ls : List (List UInt8)}

theorem contents_length (buf : Mem) (len : Nat) : (contents buf len).length = len := by
  rw [contents, List.length_map, List.length_range]

theorem getElem?_contents (buf : Mem) (h : k < len) : (contents buf len)[k]? = some (buf k) := by
  rw [contents, List.getElem?_map, List.getElem?_range h]
  rfl

/-- A list is the contents if it has their length and their bytes. -/
theorem eq_contents (hlen : s.length = len) (h : ∀ k < len, s[k]? = some (buf k)) :
    contents buf len = s := by
  refine List.ext_getElem? fun k => ?_
  rcases Nat.lt_or_ge k len with hk | hk
  · rw [getElem?_contents buf hk, h k hk]
  · rw [List.getElem?_eq_none (by rw [contents_length]; exact hk),
      List.getElem?_eq_none (by omega)]

/-- The byte behind a part of the contents. -/
theorem buf_of_contents {c : UInt8} (h : contents buf len = pre ++ c :: rest) :
    pre.length < len ∧ buf pre.length = c := by
  have hlen := congrArg List.length h
  rw [contents_length, List.length_append, List.length_cons] at hlen
  have hlt : pre.length < len := by omega
  have hget := getElem?_contents buf hlt
  rw [h, List.getElem?_append_right (le_refl _), Nat.sub_self, List.getElem?_cons_zero] at hget
  exact ⟨hlt, (Option.some.inj hget).symm⟩

/-! ## Rebuilding the table -/

/-- The scan stops at the newline or at the end. -/
theorem scanLine_eq (h : contents buf len = pre ++ (b ++ rest)) (hb : newline ∉ b)
    (hrest : rest = [] ∨ ∃ t, rest = newline :: t) :
    scanLine buf len pre.length = pre.length + b.length := by
  induction b generalizing pre with
  | nil =>
    rw [scanLine, if_neg]
    · rfl
    rintro ⟨hlt, hne⟩
    rcases hrest with rfl | ⟨t, rfl⟩
    · have := congrArg List.length h
      simp only [contents_length, List.append_nil] at this
      omega
    · exact hne (buf_of_contents h).2
  | cons c b ih =>
    rw [List.mem_cons, not_or] at hb
    obtain ⟨hlt, hbyte⟩ := buf_of_contents h
    have hnext := @ih (pre ++ [c]) (by rw [h]; simp) hb.2
    rw [List.length_append, List.length_singleton] at hnext
    rw [scanLine, if_pos ⟨hlt, fun heq => hb.1 (heq.symm.trans hbyte)⟩, hnext, List.length_cons]
    omega

/-- The characters of a line, without its newline. -/
def chars (l : List UInt8) : Nat := (l.takeWhile (· ≠ newline)).length

theorem takeWhile_of_not_mem (h : newline ∉ b) : b.takeWhile (· ≠ newline) = b := by
  rw [List.takeWhile_eq_self_iff]
  intro c hc
  rw [decide_eq_true_eq]
  exact fun heq => h (heq ▸ hc)

theorem takeWhile_ended (h : newline ∉ b) : (b ++ [newline]).takeWhile (· ≠ newline) = b := by
  rw [List.takeWhile_append_of_pos, List.takeWhile_cons_of_neg (by simp), List.append_nil]
  intro c hc
  rw [decide_eq_true_eq]
  exact fun heq => h (heq ▸ hc)

/-- An entry of the table. -/
def EdState.addLine (ed : EdState) (start n : Nat) : EdState :=
  { ed with
    line_offsets := fun k => if k = ed.num_lines then start else ed.line_offsets k
    line_lens := fun k => if k = ed.num_lines then n else ed.line_lens k
    num_lines := ed.num_lines + 1 }

/-- One turn takes one line. -/
theorem rebuildLoop_line (h : contents ed.buf ed.buf_len = pre ++ (l ++ rest))
    (hl : Ended newline l ∨ l ≠ [] ∧ newline ∉ l ∧ rest = []) (room : Nat) :
    rebuildLoop (room + 1) pre.length ed =
      rebuildLoop room (pre ++ l).length (ed.addLine pre.length (chars l)) := by
  have hlt : pre.length < ed.buf_len := by
    have hlen := congrArg List.length h
    have hpos : 0 < l.length := by
      rcases hl with ⟨b, -, rfl⟩ | ⟨hne, -⟩
      · simp
      · exact List.length_pos_iff.mpr hne
    rw [contents_length, List.length_append, List.length_append] at hlen
    omega
  rw [rebuildLoop, if_pos hlt]
  dsimp only
  rcases hl with ⟨b, hb, rfl⟩ | ⟨hne, hnl, rfl⟩
  · have hscan :=
      @scanLine_eq ed.buf ed.buf_len pre b (newline :: rest) (by rw [h]; simp) hb
      (Or.inr ⟨rest, rfl⟩)
    have hend := @buf_of_contents ed.buf ed.buf_len (pre ++ b) rest newline (by rw [h]; simp)
    rw [List.length_append] at hend
    rw [hscan, if_pos ⟨hend.1, hend.2⟩, chars, takeWhile_ended hb, Nat.add_sub_cancel_left]
    simp only [List.length_append, List.length_singleton, Nat.add_assoc]
    rfl
  · have hscan := @scanLine_eq ed.buf ed.buf_len pre l [] h hnl (Or.inl rfl)
    have hlen := congrArg List.length h
    rw [contents_length, List.append_nil, List.length_append] at hlen
    rw [hscan, if_neg (by omega), chars, takeWhile_of_not_mem hnl, Nat.add_sub_cancel_left,
      List.length_append]
    rfl

/-- What the loop leaves, from a position in front of the lines `ls` on. -/
structure Rebuilt (ed ed' : EdState) (start : Nat) (ls : List (List UInt8)) : Prop where
  buf : ed'.buf = ed.buf
  buf_len : ed'.buf_len = ed.buf_len
  cur_line : ed'.cur_line = ed.cur_line
  num : ed'.num_lines = ed.num_lines + ls.length
  before : ∀ k < ed.num_lines, ed'.line_offsets k = ed.line_offsets k ∧
    ed'.line_lens k = ed.line_lens k
  offsets : ∀ k < ls.length, ed'.line_offsets (ed.num_lines + k) =
    start + (ls.take k).flatten.length
  lens : ∀ (k : Nat) (l : List UInt8), ls[k]? = some l →
    ed'.line_lens (ed.num_lines + k) = chars l
  beyond : ∀ k, ed.num_lines + ls.length ≤ k → ed'.line_offsets k = ed.line_offsets k

theorem rebuilt_nil (ed : EdState) (start : Nat) : Rebuilt ed ed start [] where
  buf := rfl
  buf_len := rfl
  cur_line := rfl
  num := rfl
  before _ _ := ⟨rfl, rfl⟩
  offsets _ hk := absurd hk (Nat.not_lt_zero _)
  lens _ _ hl := by simp at hl
  beyond _ _ := rfl

theorem Rebuilt.cons {start : Nat}
    (h : Rebuilt (ed.addLine start (chars l)) ed' (start + l.length) ls) :
    Rebuilt ed ed' start (l :: ls) := by
  have hfirst := h.before ed.num_lines (Nat.lt_succ_self _)
  constructor
  · exact h.buf
  · exact h.buf_len
  · exact h.cur_line
  · rw [h.num, List.length_cons]
    show ed.num_lines + 1 + ls.length = _
    omega
  · intro k hk
    have hold := h.before k (Nat.lt_succ_of_lt hk)
    have hne : k ≠ ed.num_lines := Nat.ne_of_lt hk
    exact ⟨hold.1.trans (if_neg hne), hold.2.trans (if_neg hne)⟩
  · intro k hk
    cases k with
    | zero => exact hfirst.1.trans (if_pos rfl)
    | succ k =>
      have hnext := h.offsets k (by simpa using hk)
      rw [show ed.num_lines + (k + 1) = ed.num_lines + 1 + k by omega]
      refine hnext.trans ?_
      rw [List.take_succ_cons, List.flatten_cons, List.length_append, Nat.add_assoc]
  · intro k l' hl'
    cases k with
    | zero =>
      cases hl'
      exact hfirst.2.trans (if_pos rfl)
    | succ k =>
      rw [show ed.num_lines + (k + 1) = ed.num_lines + 1 + k by omega]
      exact h.lens k l' hl'
  · intro k hk
    rw [List.length_cons] at hk
    have hbeyond := h.beyond k (show ed.num_lines + 1 + ls.length ≤ k by omega)
    exact hbeyond.trans (if_neg (by omega))

theorem rebuildLoop_end (ed : EdState) (room : Nat) : rebuildLoop room ed.buf_len ed = ed := by
  cases room with
  | zero => rfl
  | succ room => rw [rebuildLoop, if_neg (lt_irrefl _)]

theorem rebuildLoop_spec {room : Nat} (hls : IsLines newline ls) (hroom : ls.length ≤ room)
    (h : contents ed.buf ed.buf_len = pre ++ ls.flatten) :
    Rebuilt ed (rebuildLoop room pre.length ed) pre.length ls := by
  induction hls generalizing room pre ed with
  | nil =>
    have hlen := congrArg List.length h
    rw [contents_length, List.flatten_nil, List.append_nil] at hlen
    rw [← hlen, rebuildLoop_end]
    exact rebuilt_nil ed ed.buf_len
  | last l hne hnl =>
    have hlen := congrArg List.length h
    rw [contents_length, List.flatten_singleton] at hlen
    obtain ⟨room, rfl⟩ :
        ∃ r, room = r + 1 := ⟨room - 1, by rw [List.length_singleton] at hroom; omega⟩
    rw [rebuildLoop_line h (Or.inr ⟨hne, hnl, rfl⟩), ← hlen]
    refine Rebuilt.cons ?_
    rw [show ed.buf_len = (ed.addLine pre.length (chars l)).buf_len from rfl, rebuildLoop_end]
    exact rebuilt_nil _ _
  | line l ls hl hrest ih =>
    obtain ⟨room, rfl⟩ : ∃ r, room = r + 1 := ⟨room - 1, by rw [List.length_cons] at hroom; omega⟩
    rw [rebuildLoop_line h (Or.inl hl)]
    refine Rebuilt.cons ?_
    rw [← List.length_append]
    exact ih (by simpa using hroom) (by rw [List.append_assoc]; exact h)

/-- `rebuild_lines` fills the table with the lines of the buffer if it has room for them. -/
theorem rebuild_matches (hlen : ed.buf_len ≤ BUF_SIZE)
    (hls : splitLines newline (contents ed.buf ed.buf_len) = ls)
    (hfew : ls.length ≤ MAX_LINES) (hcur : ed.cur_line = k) :
    Matches (rebuild_lines ed) ⟨ls, min k (ls.length - 1)⟩ := by
  have hsplit : contents ed.buf ed.buf_len = [] ++ ls.flatten := by
    rw [← hls, flatten_splitLines, List.nil_append]
  have hr : Rebuilt { ed with num_lines := 0 }
      (rebuildLoop MAX_LINES 0 { ed with num_lines := 0 }) 0 ls :=
    @rebuildLoop_spec _ [] ls MAX_LINES (hls ▸ isLines_splitLines newline _) hfew hsplit
  unfold rebuild_lines
  dsimp only
  generalize rebuildLoop MAX_LINES 0 { ed with num_lines := 0 } = ed' at hr ⊢
  have hnum : ed'.num_lines = ls.length := hr.num.trans (Nat.zero_add _)
  have hcur' : ed'.cur_line = k := hr.cur_line.trans hcur
  refine ⟨hr.buf_len.trans_le hlen, ?_, ⟨hnum, fun j hj => ?_, fun j l hl => ?_⟩, ?_, ?_, hfew⟩
  · show splitLines newline (contents ed'.buf ed'.buf_len) = ls
    rw [hr.buf, hr.buf_len]
    exact hls
  · have := hr.offsets j hj
    rwa [Nat.zero_add, Nat.zero_add] at this
  · have := hr.lens j l hl
    rwa [Nat.zero_add] at this
  · dsimp only
    rw [hnum, hcur']
    split_ifs <;> omega
  · dsimp only
    omega

/-! ## Inserting -/

/-- Room is made at `pos`, and the text and a newline are put there. -/
theorem contents_insert {buf' : Mem} (hpos : pos ≤ len) (hlen : len + text.length + 1 ≤ BUF_SIZE)
    (hmove : moveBytes buf (pos + text.length + 1) pos (len - pos) = some buf') :
    contents (setByte (wrBytes buf' pos text) (pos + text.length) newline)
      (len + (text.length + 1)) =
      (contents buf len).take pos ++ (text ++ [newline]) ++ (contents buf len).drop pos := by
  have hmoved : ∀ k, buf' k = if pos + text.length + 1 ≤ k ∧ k < len + text.length + 1
      then buf (k - (text.length + 1)) else buf k := by
    intro k
    rw [moveBytes, if_neg (by omega)] at hmove
    unfold BUF_SIZE at hlen
    have hn : ((len : Int) - pos).toNat = len - pos := by omega
    rw [← Option.some.inj hmove, hn, MemFunctions.memmove_apply _ (by omega) (by omega)]
    by_cases hk : pos + text.length + 1 ≤ k ∧ k < len + text.length + 1
    · rw [if_pos (by omega), if_pos hk]
      congr 1
      omega
    · rw [if_neg (by omega), if_neg hk]
  have htake : ((contents buf len).take pos).length = pos := by
    rw [List.length_take, contents_length]
    omega
  refine eq_contents ?_ fun k hk => ?_
  · simp only [List.length_append, htake, List.length_drop, contents_length,
      List.length_singleton]
    omega
  rcases Nat.lt_or_ge k pos with hlo | hlo
  · rw [List.append_assoc, List.getElem?_append_left (by omega), List.getElem?_take_of_lt hlo,
      getElem?_contents buf (by omega), setByte_of_ne _ (by omega), wrBytes, if_neg (by omega),
        hmoved, if_neg (by omega)]
  rw [List.append_assoc, List.getElem?_append_right (by omega), htake]
  rcases Nat.lt_or_ge k (pos + text.length) with htext | htext
  · rw [List.append_assoc, List.getElem?_append_left (by omega), setByte_of_ne _ (by omega),
      wrBytes,
      if_pos (by omega), List.getD_eq_getElem?_getD, List.getElem?_eq_getElem (by omega),
        Option.getD_some]
  rw [List.append_assoc, List.getElem?_append_right (by omega)]
  rcases Nat.eq_or_lt_of_le htext with rfl | hbehind
  · rw [show pos + text.length - pos - text.length = 0 by omega, setByte, if_pos rfl]
    rfl
  · rw [List.getElem?_append_right (by simp; omega), List.length_singleton, List.getElem?_drop,
      getElem?_contents buf (by omega), setByte_of_ne _ (by omega), wrBytes, if_neg (by omega),
        hmoved,
      if_pos (by omega)]
    congr 2
    omega

/-! ## Deleting -/

/-- What is behind the bytes comes to their place. -/
theorem contents_delete {buf' : Mem} (hend : pos + n ≤ len) (hlen : len ≤ BUF_SIZE)
    (hmove : moveBytes buf pos (pos + n) (len - pos - n) = some buf') :
    contents buf' (len - n) =
      (contents buf len).take pos ++ (contents buf len).drop (pos + n) := by
  have hmoved : ∀ k, buf' k = if pos ≤ k ∧ k < len - n then buf (k + n) else buf k := by
    intro k
    rw [moveBytes, if_neg (by omega)] at hmove
    unfold BUF_SIZE at hlen
    have hn : ((len : Int) - pos - n).toNat = len - pos - n := by omega
    rw [← Option.some.inj hmove, hn, MemFunctions.memmove_apply _ (by omega) (by omega)]
    by_cases hk : pos ≤ k ∧ k < len - n
    · rw [if_pos (by omega), if_pos hk]
      congr 1
      omega
    · rw [if_neg (by omega), if_neg hk]
  have htake : ((contents buf len).take pos).length = pos := by
    rw [List.length_take, contents_length]
    omega
  refine eq_contents ?_ fun k hk => ?_
  · simp only [List.length_append, htake, List.length_drop, contents_length]
    omega
  rcases Nat.lt_or_ge k pos with hlo | hlo
  · rw [List.getElem?_append_left (by omega), List.getElem?_take_of_lt hlo,
      getElem?_contents buf (by omega), hmoved,
      if_neg (by omega)]
  · rw [List.getElem?_append_right (by omega), htake, List.getElem?_drop,
      getElem?_contents buf (by omega), hmoved,
      if_pos (by omega)]
    congr 2
    omega

/-! ## Commands -/

theorem Matches.flatten (h : Matches ed e) : contents ed.buf ed.buf_len = e.lines.flatten := by
  rw [← h.lines, flatten_splitLines]

theorem Matches.isLines (h : Matches ed e) : IsLines newline e.lines :=
  h.lines ▸ isLines_splitLines newline _

/-- The contents in front of and behind the place of line `k`. -/
theorem Matches.split (h : Matches ed e) (k : Nat) :
    (e.lines.take k).flatten.length ≤ ed.buf_len ∧
      (contents ed.buf ed.buf_len).take (e.lines.take k).flatten.length =
        (e.lines.take k).flatten ∧
      (contents ed.buf ed.buf_len).drop (e.lines.take k).flatten.length =
        (e.lines.drop k).flatten := by
  have hsplit :
      contents ed.buf ed.buf_len = (e.lines.take k).flatten ++ (e.lines.drop k).flatten := by
    rw [h.flatten, ← List.flatten_append, List.take_append_drop]
  have hlen := congrArg List.length hsplit
  rw [contents_length, List.length_append] at hlen
  rw [hsplit, List.take_left, List.drop_left]
  exact ⟨by omega, rfl, rfl⟩

/-- A buffer whose last byte is a newline has ended lines. -/
theorem Matches.all_ended (h : Matches ed e) (hlast : ed.buf (ed.buf_len - 1) = newline) :
    ∀ l ∈ e.lines, Ended newline l := by
  rcases Nat.eq_zero_or_pos ed.buf_len with hzero | hpos
  · have hnil : e.lines = [] := by
      rw [← h.lines, hzero]
      rfl
    simp [hnil]
  · refine h.isLines.all_ended ?_
    rw [← h.flatten, List.getLast?_eq_getElem?, contents_length,
      getElem?_contents ed.buf (by omega), hlast]

/-- There is room for the text in the buffer and for its lines in the table, and the text has no
newline at its end: `insert_line` adds one in any case. -/
structure Room (ed : EdState) (text : List UInt8) : Prop where
  unended : text.getLast? ≠ some newline
  entry : ed.num_lines < MAX_LINES
  bytes : ed.buf_len + text.length + 1 ≤ BUF_SIZE
  entries : ed.num_lines + (splitLines newline (text ++ [newline])).length ≤ MAX_LINES

/-- A call that finds the place of line `k`, with ended lines in front of it, puts the text there.
-/
theorem insert_matches {after : Int} (h : Matches ed e) (hroom : Room ed text)
    (hk : after + 1 = k)
    (hpos : (if after < 0 then 0 else if after ≥ ed.num_lines then ed.buf_len
      else ed.line_offsets (after + 1).toNat) =
      (e.lines.take k).flatten.length)
    (hended : ∀ l ∈ e.lines.take k, Ended newline l) :
    ∃ ed', insert_line after text ed = some ed' ∧ Matches ed' (e.put k text) := by
  obtain ⟨hle, htake, hdrop⟩ := h.split k
  have hbytes := hroom.bytes
  have hentries := hroom.entries
  have hlines : textLines text = splitLines newline (text ++ [newline]) := if_neg hroom.unended
  unfold insert_line
  rw [if_neg (Nat.not_le.mpr hroom.entry)]
  dsimp only
  rw [hpos, if_neg (Nat.not_lt.mpr hbytes)]
  generalize (e.lines.take k).flatten.length = pos at hle htake hdrop ⊢
  cases hmove : moveBytes ed.buf (pos + text.length + 1) pos (ed.buf_len - pos) with
  | none =>
    rw [moveBytes, if_neg (by omega)] at hmove
    cases hmove
  | some buf =>
    have hcontents := contents_insert hle hbytes hmove
    rw [htake, hdrop] at hcontents
    refine ⟨_, rfl,
      rebuild_matches (show ed.buf_len + (text.length + 1) ≤ BUF_SIZE from hbytes) ?_ ?_ hk⟩
    · dsimp only
      rw [hcontents, hlines]
      conv_lhs => rw [← flatten_splitLines newline (text ++ [newline]), ← List.flatten_append,
        ← List.flatten_append]
      refine splitLines_flatten (IsLines.append ?_ (h.isLines.drop k))
      intro l hl
      rcases List.mem_append.mp hl with hl | hl
      · exact hended l hl
      · exact splitLines_concat_ended text l hl
    · have hnum := h.table.num
      simp only [List.length_append, List.length_take, List.length_drop, hlines]
      omega

theorem chars_ended (h : Ended newline l) : chars l + 1 = l.length := by
  obtain ⟨b, hb, rfl⟩ := h
  rw [chars, takeWhile_ended hb, List.length_append, List.length_singleton]

/-- A line that is ended is removed. -/
theorem delete_matches (h : Matches ed e) (hk : e.cur < e.lines.length)
    (hended : ∀ l ∈ e.lines.take (e.cur + 1), Ended newline l) :
    ∃ ed', delete_line ed.cur_line ed = some ed' ∧ Matches ed' (e.command .d) := by
  have hget := List.getElem?_eq_getElem hk
  have htake : e.lines.take (e.cur + 1) = e.lines.take e.cur ++ [e.lines[e.cur]] :=
    (List.take_append_getElem hk).symm
  rw [htake] at hended
  have hline := hended _ (List.mem_append_right _ List.mem_cons_self)
  have hpos := h.table.offsets e.cur hk
  have hremove : ed.line_lens e.cur + 1 = e.lines[e.cur].length := by
    rw [h.table.lens e.cur _ hget]
    exact chars_ended hline
  have hnext :
      (e.lines.take e.cur).flatten.length + e.lines[e.cur].length =
      (e.lines.take (e.cur + 1)).flatten.length := by
    rw [htake, List.flatten_append, List.length_append, List.flatten_singleton]
  obtain ⟨-, hfront, -⟩ := h.split e.cur
  obtain ⟨hend, -, hback⟩ := h.split (e.cur + 1)
  have hlen := h.len_le
  unfold delete_line
  rw [h.cur, h.table.num, if_neg (by omega)]
  dsimp only
  rw [Int.toNat_natCast, hpos, hremove]
  cases hmove : moveBytes ed.buf (e.lines.take e.cur).flatten.length
      ((e.lines.take e.cur).flatten.length + e.lines[e.cur].length)
      (ed.buf_len - (e.lines.take e.cur).flatten.length - e.lines[e.cur].length) with
  | none =>
    rw [moveBytes, if_neg (by omega)] at hmove
    cases hmove
  | some buf =>
    have hcontents := contents_delete (by omega) hlen hmove
    rw [hfront, hnext, hback] at hcontents
    refine ⟨_, rfl, ?_⟩
    rw [Editor.command, if_pos hk]
    refine rebuild_matches (show ed.buf_len - e.lines[e.cur].length ≤ BUF_SIZE by omega) ?_ ?_ rfl
    · dsimp only
      rw [hcontents, ← List.flatten_append, List.eraseIdx_eq_take_drop_succ]
      exact splitLines_flatten (IsLines.append (h.isLines.take_ended hk) (h.isLines.drop _))
    · exact le_trans (List.length_eraseIdx_le _ _) h.few

/-- The state in which a command does to the lines what it is for. -/
def Careful (ed : EdState) : Command → Prop
  | .goto _ => True
  | .i input => input ≠ [] → Room ed input
  | .a input => input ≠ [] → Room ed input ∧ (ed.cur_line + 1 = ed.num_lines →
      ed.line_offsets ed.num_lines = ed.buf_len ∧ ed.buf (ed.buf_len - 1) = newline)
  | .d => ed.cur_line + 1 = ed.num_lines → ed.buf (ed.buf_len - 1) = newline

theorem goto_matches (h : Matches ed e) (n : Nat) :
    ∃ ed', command ed (.goto n) = some ed' ∧ Matches ed' (e.command (.goto n)) := by
  have hnum := h.table.num
  refine ⟨_, rfl, ?_⟩
  by_cases hn : 1 ≤ n ∧ n ≤ e.lines.length
  · rw [Editor.command, if_pos hn, if_pos (by omega)]
    refine ⟨h.len_le, h.lines, ⟨hnum, h.table.offsets, h.table.lens⟩, ?_, Or.inr ?_, h.few⟩
    · dsimp only
      omega
    · dsimp only
      omega
  · rwa [Editor.command, if_neg hn, if_neg (by omega)]

/-- Lines in front of the current one. -/
theorem insert_before_matches (h : Matches ed e) {input : List UInt8}
    (hcareful : Careful ed (.i input)) :
    ∃ ed', command ed (.i input) = some ed' ∧ Matches ed' (e.command (.i input)) := by
  have hnum := h.table.num
  have hcur := h.cur
  rw [command, Editor.command]
  split_ifs with hne
  case neg => exact ⟨ed, rfl, h⟩
  have hroom := hcareful (List.length_pos_iff.mp hne)
  rcases h.cur_lt with hzero | hlt
  · refine insert_matches h hroom (by omega) ?_ ?_
    · rw [if_pos (by omega), hzero]
      rfl
    · simp [hzero]
  · refine insert_matches h hroom (by omega) ?_ (h.isLines.take_ended hlt)
    rw [← h.table.offsets e.cur hlt]
    split_ifs with hneg hpast
    · rw [h.table.offsets e.cur hlt, show e.cur = 0 by omega]
      rfl
    · omega
    · congr 1
      omega

/-- Lines behind the current one. -/
theorem append_matches (h : Matches ed e) {input : List UInt8}
    (hcareful : Careful ed (.a input)) :
    ∃ ed', command ed (.a input) = some ed' ∧ Matches ed' (e.command (.a input)) := by
  have hnum := h.table.num
  have hcur := h.cur
  rw [command, Editor.command]
  split_ifs with hne
  case neg => exact ⟨ed, rfl, h⟩
  obtain ⟨hroom, hlast⟩ := hcareful (List.length_pos_iff.mp hne)
  rcases Nat.lt_or_ge (e.cur + 1) e.lines.length with hlt | hge
  · refine insert_matches h hroom (by omega) ?_ (h.isLines.take_ended hlt)
    rw [if_neg (by omega), if_neg (by omega), ← h.table.offsets _ hlt]
    congr 1
    omega
  -- Behind the last line: the end of the buffer, if the unused entry of the table says so.
  have htake : e.lines.take (e.cur + 1) = e.lines := List.take_of_length_le hge
  have hlen : e.lines.flatten.length = ed.buf_len := by
    rw [← h.flatten, contents_length]
  refine insert_matches h hroom (by omega) ?_ ?_
  · rw [htake, hlen, if_neg (by omega)]
    split_ifs with hpast
    · rfl
    · rw [show (ed.cur_line + 1).toNat = ed.num_lines by omega]
      exact (hlast (by omega)).1
  · rw [htake]
    by_cases hnil : e.lines = []
    · simp [hnil]
    · have hpos := List.length_pos_iff.mpr hnil
      have hcur_lt := h.cur_lt
      exact h.all_ended (hlast (by omega)).2

theorem delete_current_matches (h : Matches ed e) (hcareful : Careful ed .d) :
    ∃ ed', command ed .d = some ed' ∧ Matches ed' (e.command .d) := by
  have hnum := h.table.num
  have hcur := h.cur
  by_cases hk : e.cur < e.lines.length
  case neg =>
    refine ⟨ed, ?_, ?_⟩
    · rw [command, delete_line, if_pos (Or.inr (by omega))]
    · rwa [Editor.command, if_neg hk]
  refine delete_matches h hk ?_
  rcases Nat.lt_or_ge (e.cur + 1) e.lines.length with hlt | hge
  · exact h.isLines.take_ended hlt
  · intro l hl
    exact h.all_ended (hcareful (by omega)) l (List.mem_of_mem_take hl)

theorem command_matches (h : Matches ed e) (c : Command) (hcareful : Careful ed c) :
    ∃ ed', command ed c = some ed' ∧ Matches ed' (e.command c) := by
  cases c with
  | goto n => exact goto_matches h n
  | i input => exact insert_before_matches h hcareful
  | a input => exact append_matches h hcareful
  | d => exact delete_current_matches h hcareful

/-! ## Runs -/

/-- Every command of the run is careful. -/
def CarefulRun : EdState → List Command → Prop
  | _, [] => True
  | ed, c :: cs => Careful ed c ∧ ∀ ed', command ed c = some ed' → CarefulRun ed' cs

theorem run_matches_from (h : Matches ed e) (cs : List Command) (hcareful : CarefulRun ed cs) :
    ∃ ed', run command ed cs = some ed' ∧ Matches ed' (cs.foldl Editor.command e) := by
  induction cs generalizing ed e with
  | nil => exact ⟨ed, rfl, h⟩
  | cons c cs ih =>
    obtain ⟨hc, hrest⟩ := hcareful
    obtain ⟨ed₁, hstep, hmatches⟩ := command_matches h c hc
    obtain ⟨ed', hrun, hmatches'⟩ := ih hmatches (hrest ed₁ hstep)
    refine ⟨ed', ?_, hmatches'⟩
    rw [run, hstep]
    exact hrun

theorem contents_wrBytes (buf : Mem) (content : List UInt8) :
    contents (wrBytes buf 0 content) content.length = content := by
  refine eq_contents rfl fun k hk => ?_
  rw [wrBytes, if_pos (by omega), Nat.sub_zero, List.getD_eq_getElem?_getD,
    List.getElem?_eq_getElem hk,
    Option.getD_some]

/-- A file that fits is read line by line, whatever the tables had. -/
theorem read_file_matches (ed : EdState) {content : List UInt8} (hlen : content.length ≤ BUF_SIZE)
    (hfew : (splitLines newline content).length ≤ MAX_LINES) :
    Matches (read_file content ed) ⟨splitLines newline content, 0⟩ := by
  have h := @rebuild_matches
      { ed with buf := wrBytes ed.buf 0 content, buf_len := content.length, cur_line := 0 } 0
    (splitLines newline content) hlen (by dsimp only; rw [contents_wrBytes]) hfew rfl
  rwa [Nat.zero_min] at h

/-- Careful commands keep the buffer and the editor of lines together. -/
theorem run_matches (ed₀ : EdState) {content : List UInt8} (hlen : content.length ≤ BUF_SIZE)
    (hfew : (splitLines newline content).length ≤ MAX_LINES) (cs : List Command)
    (hcareful : CarefulRun (read_file content ed₀) cs) :
    ∃ ed, run command (read_file content ed₀) cs = some ed ∧
      Matches ed (cs.foldl Editor.command ⟨splitLines newline content, 0⟩) :=
  run_matches_from (read_file_matches ed₀ hlen hfew) cs hcareful

theorem Matches.buf_len_eq (h : Matches ed e) : ed.buf_len = e.lines.flatten.length := by
  rw [← h.flatten, contents_length]

/-- A line is put in front of the line of a file and selected. -/
theorem run_matches_put :
    let e : Editor :=
      [Command.i [98], .goto 2].foldl Editor.command ⟨splitLines newline [97, 10], 0⟩
    e.lines = [[98, 10], [97, 10]] ∧ ∀ ed₀ : EdState, ∃ ed,
      run command (read_file [97, 10] ed₀) [.i [98], .goto 2] = some ed ∧ Matches ed e := by
  refine ⟨by decide, fun ed₀ => run_matches ed₀ (by decide) (by decide) _
    ⟨fun _ => ?_, fun _ _ => ⟨trivial, fun _ _ => trivial⟩⟩⟩
  have h := @read_file_matches ed₀ [97, 10] (by decide) (by decide)
  have hnum := h.table.num
  have hlen := h.buf_len_eq
  constructor
  · decide
  · rw [hnum]
    decide
  · rw [hlen]
    decide
  · rw [hnum]
    decide

/-- The part of the table that is not used keeps what it had. -/
theorem read_file_beyond (ed : EdState) {content : List UInt8}
    (hfew : (splitLines newline content).length ≤ MAX_LINES)
    (hk : (splitLines newline content).length ≤ k) :
    (read_file content ed).line_offsets k = ed.line_offsets k := by
  have h := @rebuildLoop_spec
    { ed with buf := wrBytes ed.buf 0 content, buf_len := content.length, cur_line := 0,
              num_lines := 0 } []
    (splitLines newline content) MAX_LINES (isLines_splitLines newline content) hfew
    (by rw [flatten_splitLines]; exact contents_wrBytes ed.buf content)
  exact h.beyond k (by simpa using hk)

/-- The static variables before `main`. -/
def zeroed : EdState := ⟨fun _ => 0, 0, 0, fun _ => 0, fun _ => 0, 0⟩

/-- A line that is appended to the only line of a file goes in front of it. -/
theorem append_goes_first :
    ¬ ∀ (ed₀ : EdState) (content : List UInt8) (cs : List Command), content.length ≤ BUF_SIZE →
      (splitLines newline content).length ≤ MAX_LINES →
        ∃ ed, run command (read_file content ed₀) cs = some ed ∧
          Matches ed (cs.foldl Editor.command ⟨splitLines newline content, 0⟩) := by
  intro hall
  obtain ⟨ed', hrun, hmatches⟩ := hall zeroed [97, 10] [.a [98, 10]] (by decide) (by decide)
  have h := @read_file_matches zeroed [97, 10] (by decide) (by decide)
  have hnum : (read_file [97, 10] zeroed).num_lines = 1 := h.table.num
  have hlen : (read_file [97, 10] zeroed).buf_len = 2 := h.buf_len_eq
  have hcur : (read_file [97, 10] zeroed).cur_line = 0 := h.cur
  have hcontents := h.flatten
  have hstale : (read_file [97, 10] zeroed).line_offsets 1 = 0 :=
    @read_file_beyond 1 zeroed [97, 10] (by decide) (by decide)
  generalize read_file [97, 10] zeroed = ed at hrun hnum hlen hcur hcontents hstale
  rw [hlen] at hcontents
  rw [run, command, if_pos (by decide), insert_line, hnum, hcur, if_neg (by decide)] at hrun
  dsimp only at hrun
  rw [hlen, if_neg (by decide), if_neg (by decide), show ((0 : Int) + 1).toNat = 1 from rfl,
    hstale,
    if_neg (by decide)] at hrun
  cases hmove :
    moveBytes ed.buf (0 + [(98 : UInt8), 10].length + 1) 0 ((2 : Nat) - (0 : Nat)) with
  | none =>
    rw [moveBytes, if_neg (by decide)] at hmove
    cases hmove
  | some buf =>
    have hput := contents_insert (by decide) (by decide) hmove
    rw [hcontents] at hput
    rw [hmove] at hrun
    obtain rfl := Option.some.inj hrun
    have hfirst := @rebuild_matches
      { ed with
        buf := setByte (wrBytes buf 0 [98, 10]) (0 + [(98 : UInt8), 10].length) newline
        buf_len := 2 + ([(98 : UInt8), 10].length + 1)
        num_lines := 1
        cur_line := 0 + 1 } 1 _ (show 2 + 3 ≤ BUF_SIZE by decide) rfl (by rw [hput]; decide) rfl
    have hlines := hfirst.lines.symm.trans hmatches.lines
    rw [hput] at hlines
    exact absurd hlines (by decide)

end Lumin.User.Ed
