import Lumin.Proc.Normalize
import Lumin.Lib.Word

/-!
# The buffers of `normalize_path`

`normalize_path` over the bytes of `temp` and `output`.  Every index of `temp` that is
read or written is recorded, and every index of `output` that is written.  `temp_text`
and `output_text` connect the buffers to the strings of `normalizePath`.
-/

namespace Lumin.Proc

open Lumin.Fs Lumin.Lib

/-! ## The buffers -/

/-- `temp` and `t_idx`, with the indices that the code has used. -/
structure Temp where
  bytes : Nat → UInt8
  tIdx : Nat
  used : List Nat

/-- `output`, with the indices that the code has written. -/
structure Output where
  bytes : Nat → UInt8
  written : List Nat

namespace Temp

/-- A read of `temp[i]`. -/
def touch (t : Temp) (i : Nat) : Temp := { t with used := i :: t.used }

/-- `temp[i] = b`. -/
def write (t : Temp) (i : Nat) (b : UInt8) : Temp :=
  { t with bytes := Function.update t.bytes i b, used := i :: t.used }

/-- `temp[t_idx++] = b`. -/
def append (t : Temp) (b : UInt8) : Temp := { t.write t.tIdx b with tIdx := t.tIdx + 1 }

/-- `temp[t_idx] = '\0'`. -/
def terminate (t : Temp) : Temp := t.write t.tIdx 0

/-- The loops that copy `cwd` and a segment while `t_idx < sizeof(temp) - 1`. -/
def copy (t : Temp) : CStr → Temp
  | [] => t
  | b :: s => if t.tIdx < PATH_BUF - 1 then (t.append b).copy s else t

/-- The loop of the `..` case that moves `t_idx` back to a slash. -/
def back (t : Temp) : Nat → Temp
  | 0 => { t with tIdx := 0 }
  | n + 1 =>
    let t := t.touch (n + 1)
    if t.bytes (n + 1) ≠ SLASH then t.back n else { t with tIdx := n + 1 }

/-- The `..` case. -/
def pop (t : Temp) : Temp :=
  if t.tIdx > 1 then
    let t := t.back (t.tIdx - 1)
    let t := if t.tIdx = 0 then { t with tIdx := 1 } else t
    t.terminate
  else t

/-- The slash in front of an ordinary segment. -/
def separate (t : Temp) : Temp :=
  if t.tIdx > 1 then
    let s := t.touch (t.tIdx - 1)
    if t.bytes (t.tIdx - 1) ≠ SLASH ∧ t.tIdx < PATH_BUF - 1 then s.append SLASH else s
  else t

/-- The case of an ordinary segment. -/
def push (t : Temp) (segment : CStr) : Temp := (t.separate.copy segment).terminate

/-- One segment. -/
def turn (t : Temp) (segment : CStr) : Temp :=
  if segment = [DOT] then t
  else if segment = [DOT, DOT] then t.pop
  else t.push segment

/-- The loop over the input. -/
def loop : Nat → CStr → Temp → Temp
  | 0, _, t => t
  | _ + 1, [], t => t
  | fuel + 1, c :: input, t =>
    if c = SLASH then loop fuel input t
    else
      let segment := ((c :: input).takeWhile (· ≠ SLASH)).take (SEGMENT_BUF - 1)
      loop fuel ((c :: input).drop segment.length) (t.turn segment)

/-- `temp` before the loop for a relative path.  `t_idx - 1` is a `uint64_t`. -/
def startRelative (t : Temp) (cwd : CStr) : Temp :=
  let t := t.copy cwd
  let s := t.touch (sub64 t.tIdx 1)
  if t.bytes (sub64 t.tIdx 1) ≠ SLASH then s.append SLASH else s

/-- `temp` when the input is consumed. -/
def fill (t : Temp) (cwd input : CStr) : Temp :=
  match input with
  | c :: rest =>
    if c = SLASH then loop rest.length rest (t.append SLASH).terminate
    else loop input.length input (t.startRelative cwd).terminate
  | [] => (t.startRelative cwd).terminate

end Temp

/-- `output[i] = b`. -/
def Output.write (o : Output) (i : Nat) (b : UInt8) : Output :=
  { bytes := Function.update o.bytes i b, written := i :: o.written }

/-- The last loop of `normalize_path` from the index `i` on, with `left` the value of
`max_len - 1 - i`. -/
def copyOut : Nat → Nat → Temp → Output → Temp × Output
  | 0, i, t, o => (t.touch i, o.write i 0)
  | left + 1, i, t, o =>
    let t := t.touch i
    if t.bytes i = 0 then (t, o.write i 0) else copyOut left (i + 1) t (o.write i (t.bytes i))

/-- `normalize_path` with the bytes that its buffers hold before. -/
def normalizeBuffers (temp output : Nat → UInt8) (cwd input : CStr) (maxLen : Nat) :
    Temp × Output :=
  copyOut (maxLen - 1) 0 (Temp.fill ⟨temp, 0, []⟩ cwd input) ⟨output, []⟩

/-- The string that the first `n` bytes hold. -/
def Output.text (o : Output) (n : Nat) : CStr := ((List.range n).map o.bytes).takeWhile (· ≠ 0)

/-- `SYS_CHDIR` of the user's string `p`, with what `vfs_stat` says about the path. -/
def sysChdir (temp output : Nat → UInt8) (stat : CStr → Bool) (cwd p : CStr) : CStr :=
  let target :=
    (normalizeBuffers temp output cwd (strncpyFromUser p PATH_BUF) PATH_BUF).2.text PATH_BUF
  if stat target then target.take 511 else cwd

/-- The values of `cwd` that `SYS_CHDIR` can have stored, from the `/` that
`task_create_user` gives to a task. -/
inductive StoredCwd : CStr → Prop
  | init : StoredCwd [SLASH]
  | chdir {cwd p : CStr} (temp output : Nat → UInt8) (stat : CStr → Bool) (hp : 0 ∉ p) :
      StoredCwd cwd → StoredCwd (sysChdir temp output stat cwd p)

/-- Every index of `temp` that the call uses and every index of `output` that it writes
is one of the buffer. -/
def InBuffers (r : Temp × Output) (maxLen : Nat) : Prop :=
  (∀ i ∈ r.1.used, i < PATH_BUF) ∧ ∀ i ∈ r.2.written, i < maxLen

/-! ## The text in `temp` -/

namespace Temp

variable {t : Temp} {i n : Nat} {b : UInt8} {s : CStr}

/-- The bytes before `t_idx`. -/
def text (t : Temp) : CStr := (List.range t.tIdx).map t.bytes

@[simp] theorem text_length (t : Temp) : t.text.length = t.tIdx := by simp [text]

@[simp] theorem text_touch (t : Temp) (i : Nat) : (t.touch i).text = t.text := rfl

theorem text_write (h : t.tIdx ≤ i) (b : UInt8) : (t.write i b).text = t.text := by
  refine List.map_congr_left fun j hj => ?_
  have hlt : j < t.tIdx := List.mem_range.mp hj
  exact Function.update_of_ne (by omega) _ _

@[simp] theorem text_terminate (t : Temp) : t.terminate.text = t.text := text_write (le_refl _) 0

@[simp] theorem text_append (t : Temp) (b : UInt8) : (t.append b).text = t.text ++ [b] := by
  have hold : (List.range t.tIdx).map (t.write t.tIdx b).bytes = t.text :=
    text_write (le_refl _) b
  rw [text, append, List.range_succ, List.map_append]
  show (List.range t.tIdx).map (t.write t.tIdx b).bytes ++ _ = _
  rw [hold]
  simp [write]

theorem text_succ {t : Temp} (h : t.tIdx = n + 1) :
    t.text = { t with tIdx := n }.text ++ [t.bytes n] := by
  rw [text, h, List.range_succ, List.map_append]
  rfl

theorem getLast?_text (h : 0 < t.tIdx) : t.text.getLast? = some (t.bytes (t.tIdx - 1)) := by
  rw [text_succ (n := t.tIdx - 1) (by omega)]
  simp

theorem text_copy (t : Temp) (s : CStr) : (t.copy s).text = pushTemp t.text s := by
  induction s generalizing t with
  | nil => simp [copy, pushTemp]
  | cons b s ih =>
    rw [copy]
    split
    · rename_i hlt
      have hroom : PATH_BUF - 1 - t.tIdx = PATH_BUF - 1 - (t.tIdx + 1) + 1 := by omega
      rw [ih, pushTemp, pushTemp, text_append, List.append_assoc, List.length_append, text_length,
        hroom]
      rfl
    · rename_i hfull
      have hnone : PATH_BUF - 1 - t.tIdx = 0 := by omega
      rw [pushTemp, text_length, hnone, List.take_zero, List.append_nil]

/-- The scan for a slash leaves the text in front of it. -/
theorem text_back (t : Temp) (n : Nat) :
    (t.back n).text =
      (({ t with tIdx := n + 1 }.text.reverse).dropWhile (· ≠ SLASH)).tail.reverse := by
  induction n generalizing t with
  | zero =>
    show [] = _
    rw [text_succ (t := { t with tIdx := 0 + 1 }) rfl]
    by_cases hb : t.bytes 0 = SLASH <;> simp [text, hb]
  | succ n ih =>
    rw [back, text_succ (t := { t with tIdx := n + 1 + 1 }) rfl, List.reverse_append,
      List.reverse_singleton,
      List.singleton_append]
    by_cases hb : t.bytes (n + 1) = SLASH
    · rw [if_neg (by simpa [touch] using hb), List.dropWhile_cons_of_neg (by simpa using hb),
        List.tail_cons,
        List.reverse_reverse]
      rfl
    · rw [if_pos (by simpa [touch] using hb), List.dropWhile_cons_of_pos (by simpa using hb), ih]
      rfl

@[simp] theorem back_bytes (t : Temp) (n : Nat) : (t.back n).bytes = t.bytes := by
  induction n generalizing t with
  | zero => rfl
  | succ n ih =>
    rw [back]
    split
    · rw [ih, touch]
    · rfl

theorem text_pop (t : Temp) : t.pop.text = popSegment t.text := by
  rw [pop, popSegment, text_length]
  split
  · rename_i hlong
    have hback := text_back t (t.tIdx - 1)
    rw [show { t with tIdx := t.tIdx - 1 + 1 } = t by rw [Nat.sub_add_cancel (by omega)]] at hback
    have hidx := congrArg List.length hback
    rw [text_length] at hidx
    -- Without a slash after the first byte `t_idx` ends at zero and is put at one.
    have hone : { t.back (t.tIdx - 1) with tIdx := 1 }.text = t.text.take 1 := by
      obtain ⟨n, hn⟩ : ∃ n, t.tIdx = n + 1 := ⟨t.tIdx - 1, by omega⟩
      rw [text, text, hn, back_bytes, ← List.map_take, List.take_range,
        Nat.min_eq_left (by omega)]
    dsimp only
    rw [text_terminate]
    generalize t.text.reverse.dropWhile (· ≠ SLASH) = d at hback hidx
    rcases d with _ | ⟨_, _ | ⟨c, rest⟩⟩
    · have hzero : (t.back (t.tIdx - 1)).tIdx = 0 := hidx
      rw [if_pos hzero]
      exact hone
    · have hzero : (t.back (t.tIdx - 1)).tIdx = 0 := hidx
      rw [if_pos hzero]
      exact hone
    · rw [if_neg (by simp at hidx; omega), hback]
      rfl
  · rfl

theorem text_separate (t : Temp) :
    t.separate.text =
      if t.text.length > 1 ∧ t.text.getLast? ≠ some SLASH then pushTemp t.text [SLASH]
        else t.text := by
  rw [separate, text_length]
  by_cases hlong : t.tIdx > 1
  · rw [if_pos hlong, getLast?_text (by omega)]
    by_cases hlast : t.bytes (t.tIdx - 1) = SLASH
    · have hno : ¬ (t.bytes (t.tIdx - 1) ≠ SLASH ∧ t.tIdx < PATH_BUF - 1) := fun h => h.1 hlast
      rw [if_neg hno, if_neg (by simp [hlast]), text_touch]
    · have hsep : t.tIdx > 1 ∧ some (t.bytes (t.tIdx - 1)) ≠ some SLASH :=
        ⟨hlong, by simpa using hlast⟩
      rw [if_pos hsep, pushTemp, text_length]
      by_cases hroom : t.tIdx < PATH_BUF - 1
      · rw [if_pos ⟨hlast, hroom⟩, text_append, text_touch,
          List.take_of_length_le (by simp; omega)]
      · rw [if_neg fun h => hroom h.2, show PATH_BUF - 1 - t.tIdx =
          0 by omega, text_touch, List.take_zero,
          List.append_nil]
  · rw [if_neg hlong, if_neg fun h => hlong h.1]

theorem text_push (t : Temp) (segment : CStr) :
    (t.push segment).text = pushSegment t.text segment := by
  rw [push, text_terminate, text_copy, text_separate, pushSegment]

theorem text_turn (t : Temp) (segment : CStr) :
    (t.turn segment).text = Proc.turn t.text segment := by
  unfold turn Proc.turn
  split
  · rfl
  · split
    · exact text_pop t
    · exact text_push t segment

/-- The loop over the input is the loop over its segments. -/
theorem loop_eq (fuel : Nat) (input : CStr) (t : Temp) :
    loop fuel input t = (segmentsOf fuel input).foldl turn t := by
  induction fuel generalizing input t with
  | zero => rfl
  | succ fuel ih =>
    cases input with
    | nil => rfl
    | cons c input =>
      rw [loop, segmentsOf]
      split
      · exact ih _ _
      · exact ih _ _

theorem text_foldl_turn (t : Temp) (cs : List CStr) :
    (cs.foldl turn t).text = cs.foldl Proc.turn t.text := by
  induction cs generalizing t with
  | nil => rfl
  | cons c cs ih => rw [List.foldl_cons, List.foldl_cons, ih, text_turn]

theorem text_startRelative (temp : Nat → UInt8) (used : List Nat) (cwd : CStr) :
    (startRelative ⟨temp, 0, used⟩ cwd).text = cwdTemp (temp (2 ^ 64 - 1)) cwd := by
  have hcopy : (copy ⟨temp, 0, used⟩ cwd).text = cwd.take (PATH_BUF - 1) := by
    rw [text_copy, pushTemp]
    rfl
  have hlast : (cwd.take (PATH_BUF - 1)).getLast?.getD (temp (2 ^ 64 - 1)) =
      (copy ⟨temp, 0, used⟩ cwd).bytes (sub64 (copy ⟨temp, 0, used⟩ cwd).tIdx 1) := by
    have hlen := text_length (copy ⟨temp, 0, used⟩ cwd)
    rw [← hcopy]
    cases cwd with
    | nil =>
      show temp (2 ^ 64 - 1) = temp (sub64 0 1)
      rw [show sub64 0 1 = 2 ^ 64 - 1 by decide]
    | cons b cwd =>
      have hpos : 0 < (copy ⟨temp, 0, used⟩ (b :: cwd)).tIdx := by
        rw [← hlen, hcopy]
        simp [PATH_BUF]
      have hle : (copy ⟨temp, 0, used⟩ (b :: cwd)).tIdx ≤ 255 := by
        rw [← hlen, hcopy]
        exact List.length_take_le _ _
      rw [getLast?_text hpos, sub64_of_le (by omega) hpos]
      rfl
  rw [startRelative, cwdTemp, hlast, ← hcopy]
  split
  · rw [text_append, text_touch]
  · rfl

/-- `temp` holds a string that ends at `t_idx`. -/
def Terminated (t : Temp) : Prop := t.bytes t.tIdx = 0

theorem terminated_terminate (t : Temp) : t.terminate.Terminated := Function.update_self ..

theorem Terminated.pop (ht : t.Terminated) : t.pop.Terminated := by
  unfold Temp.pop
  split
  · exact terminated_terminate _
  · exact ht

theorem Terminated.turn (ht : t.Terminated) (segment : CStr) : (t.turn segment).Terminated := by
  unfold Temp.turn
  split
  · exact ht
  · split
    · exact ht.pop
    · exact terminated_terminate _

theorem Terminated.foldl_turn (ht : t.Terminated) (cs : List CStr) :
    (cs.foldl Temp.turn t).Terminated := by
  induction cs generalizing t with
  | nil => exact ht
  | cons c cs ih => exact ih (ht.turn c)

/-- The segments that the loop takes after the first slash of an absolute path. -/
theorem fill_eq (t : Temp) (cwd input : CStr) :
    t.fill cwd input =
      if input.head? = some SLASH then (segments input).foldl turn (t.append SLASH).terminate
      else (segments input).foldl turn (t.startRelative cwd).terminate := by
  cases input with
  | nil => rfl
  | cons c rest =>
    rw [fill, loop_eq, loop_eq]
    by_cases hc : c = SLASH
    · rw [if_pos hc, if_pos (by rw [hc, List.head?_cons]), hc, segments_slash]
      rfl
    · rw [if_neg hc, if_neg (by simpa using hc)]
      rfl

theorem terminated_fill (t : Temp) (cwd input : CStr) : (t.fill cwd input).Terminated := by
  rw [fill_eq]
  split
  · exact Terminated.foldl_turn (terminated_terminate _) _
  · exact Terminated.foldl_turn (terminated_terminate _) _

/-- The text of `temp` is that of `normalizePath`. -/
theorem take_text_fill (temp : Nat → UInt8) (cwd input : CStr) (maxLen : Nat) :
    (fill ⟨temp, 0, []⟩ cwd input).text.take (maxLen - 1) =
      normalizePath (temp (2 ^ 64 - 1)) cwd input maxLen := by
  have hstart := text_startRelative temp [] cwd
  rw [fill_eq]
  cases input with
  | nil =>
    rw [if_neg (by simp), segments_nil, List.foldl_nil, text_terminate, hstart]
    rfl
  | cons c rest =>
    by_cases hc : c = SLASH
    · rw [hc, if_pos List.head?_cons, segments_slash, text_foldl_turn, text_terminate,
        text_append,
        normalizePath_slash]
      rfl
    · rw [if_neg (by simpa using hc), text_foldl_turn, text_terminate, hstart, normalizePath,
        if_neg hc,
        normalizeSegments_eq]
      rfl

/-! ## The indices of `temp` -/

/-- `t_idx` and all indices so far are indices of the buffer. -/
structure Inside (t : Temp) : Prop where
  tIdx : t.tIdx < PATH_BUF
  used : ∀ i ∈ t.used, i < PATH_BUF

theorem Inside.touch (ht : t.Inside) (hi : i < PATH_BUF) : (t.touch i).Inside := by
  refine ⟨ht.tIdx, fun j hj => ?_⟩
  cases List.mem_cons.mp hj with
  | inl heq => exact heq ▸ hi
  | inr hmem => exact ht.used j hmem

theorem Inside.write (ht : t.Inside) (hi : i < PATH_BUF) (b : UInt8) : (t.write i b).Inside :=
  ⟨ht.tIdx, (ht.touch hi).used⟩

theorem Inside.terminate (ht : t.Inside) : t.terminate.Inside := ht.write ht.tIdx 0

theorem Inside.append (ht : t.Inside) (hroom : t.tIdx < PATH_BUF - 1) (b : UInt8) :
    (t.append b).Inside :=
  ⟨Nat.add_lt_of_lt_sub hroom, (ht.write ht.tIdx b).used⟩

theorem Inside.copy (ht : t.Inside) (s : CStr) : (t.copy s).Inside := by
  induction s generalizing t with
  | nil => exact ht
  | cons b s ih =>
    rw [Temp.copy]
    split
    · rename_i hroom
      exact ih (ht.append hroom b)
    · exact ht

theorem Inside.back (ht : t.Inside) (hn : n < PATH_BUF) : (t.back n).Inside := by
  induction n generalizing t with
  | zero => exact ⟨hn, ht.used⟩
  | succ n ih =>
    have hread := ht.touch hn
    rw [Temp.back]
    split
    · exact ih hread (Nat.lt_of_succ_lt hn)
    · exact ⟨hn, hread.used⟩

theorem Inside.pop (ht : t.Inside) : t.pop.Inside := by
  unfold Temp.pop
  split
  · have hback := ht.back (Nat.lt_of_le_of_lt (Nat.sub_le _ 1) ht.tIdx)
    refine Inside.terminate ?_
    split
    · exact ⟨show 1 < PATH_BUF by decide, hback.used⟩
    · exact hback
  · exact ht

theorem Inside.separate (ht : t.Inside) : t.separate.Inside := by
  unfold Temp.separate
  split
  · have hread := ht.touch (Nat.lt_of_le_of_lt (Nat.sub_le _ 1) ht.tIdx)
    dsimp only
    split
    · rename_i hsep
      exact hread.append hsep.2 SLASH
    · exact hread
  · exact ht

theorem Inside.turn (ht : t.Inside) (segment : CStr) : (t.turn segment).Inside := by
  unfold Temp.turn
  split
  · exact ht
  · split
    · exact ht.pop
    · exact (ht.separate.copy segment).terminate

theorem Inside.foldl_turn (ht : t.Inside) (cs : List CStr) : (cs.foldl Temp.turn t).Inside := by
  induction cs generalizing t with
  | nil => exact ht
  | cons c cs ih => exact ih (ht.turn c)

/-! ## An index that is used stays used -/

theorem used_copy (h : i ∈ t.used) (s : CStr) : i ∈ (t.copy s).used := by
  induction s generalizing t with
  | nil => exact h
  | cons b s ih =>
    rw [copy]
    split
    · exact ih (List.mem_cons_of_mem _ h)
    · exact h

theorem used_back (h : i ∈ t.used) (n : Nat) : i ∈ (t.back n).used := by
  induction n generalizing t with
  | zero => exact h
  | succ n ih =>
    rw [back]
    split
    · exact ih (List.mem_cons_of_mem _ h)
    · exact List.mem_cons_of_mem _ h

theorem used_separate (h : i ∈ t.used) : i ∈ t.separate.used := by
  unfold separate
  dsimp only
  split
  · split
    · exact List.mem_cons_of_mem _ (List.mem_cons_of_mem _ h)
    · exact List.mem_cons_of_mem _ h
  · exact h

theorem used_turn (h : i ∈ t.used) (segment : CStr) : i ∈ (t.turn segment).used := by
  unfold turn
  split
  · exact h
  · split
    · unfold pop
      split
      · refine List.mem_cons_of_mem _ ?_
        split
        · exact used_back h _
        · exact used_back h _
      · exact h
    · exact List.mem_cons_of_mem _ (used_copy (used_separate h) segment)

theorem used_foldl_turn (h : i ∈ t.used) (cs : List CStr) : i ∈ (cs.foldl turn t).used := by
  induction cs generalizing t with
  | nil => exact h
  | cons c cs ih => exact ih (used_turn h c)

end Temp

/-! ## The output -/

section CopyOut

variable {t : Temp} {o : Output} {i j left : Nat}

/-- The loop stops at the end of the string in `temp`. -/
theorem used_copyOut (ht : t.Terminated) (hi : i ≤ t.tIdx) :
    ∀ j ∈ (copyOut left i t o).1.used, j ∈ t.used ∨ j ≤ t.tIdx := by
  have hread : ∀ j ∈ (t.touch i).used, j ∈ t.used ∨ j ≤ t.tIdx := fun j hj => by
    cases List.mem_cons.mp hj with
    | inl heq => exact Or.inr (heq ▸ hi)
    | inr hmem => exact Or.inl hmem
  induction left generalizing i t o with
  | zero => exact hread
  | succ left ih =>
    rw [copyOut]
    split
    · exact hread
    · rename_i hb
      have hlt : i < t.tIdx := Nat.lt_of_le_of_ne hi fun heq => hb (heq ▸ ht)
      intro j hj
      have hnext : ∀ k ∈ ((t.touch i).touch (i + 1)).used, k ∈ (t.touch i).used ∨ k ≤ t.tIdx :=
        fun k hk => by
        cases List.mem_cons.mp hk with
        | inl heq => exact Or.inr (heq ▸ hlt)
        | inr hmem => exact Or.inl hmem
      cases ih (t := t.touch i) ht hlt hnext j hj with
      | inl hmem => exact hread j hmem
      | inr hle => exact Or.inr hle

theorem copyOut_keeps (h : j ∈ t.used) : j ∈ (copyOut left i t o).1.used := by
  induction left generalizing i t o with
  | zero => exact List.mem_cons_of_mem _ h
  | succ left ih =>
    rw [copyOut]
    split
    · exact List.mem_cons_of_mem _ h
    · exact ih (List.mem_cons_of_mem _ h)

theorem written_copyOut : ∀ j ∈ (copyOut left i t o).2.written, j ∈ o.written ∨ j ≤ i + left := by
  induction left generalizing i t o with
  | zero =>
    intro j hj
    cases List.mem_cons.mp hj with
    | inl heq => exact Or.inr (Nat.le_of_eq heq)
    | inr hmem => exact Or.inl hmem
  | succ left ih =>
    intro j hj
    have hhere : ∀ b, j ∈ (o.write i b).written → j ∈ o.written ∨ j ≤ i + (left + 1) :=
      fun b hmem => by
      cases List.mem_cons.mp hmem with
      | inl heq => exact Or.inr (by omega)
      | inr hold => exact Or.inl hold
    rw [copyOut] at hj
    split at hj
    · exact hhere _ hj
    · cases ih j hj with
      | inl hmem => exact hhere _ hmem
      | inr hle => exact Or.inr (by omega)

/-- The bytes that the loop has left in the output. -/
theorem bytes_copyOut (left : Nat) (o : Output) (ht : t.Terminated)
    (hnz : ∀ j < t.tIdx, t.bytes j ≠ 0) (hi : i ≤ t.tIdx) :
    (copyOut left i t o).2.bytes (min (i + left) t.tIdx) = 0 ∧
      ∀ j < min (i + left) t.tIdx,
        (copyOut left i t o).2.bytes j = if i ≤ j then t.bytes j else o.bytes j := by
  induction left generalizing i t o with
  | zero =>
    rw [Nat.add_zero, Nat.min_eq_left hi]
    refine ⟨Function.update_self .., fun j hj => ?_⟩
    rw [if_neg (by omega)]
    exact Function.update_of_ne (by omega) _ _
  | succ left ih =>
    rw [copyOut]
    split
    · rename_i hb
      have heq : i = t.tIdx := by
        rcases Nat.lt_or_eq_of_le hi with hlt | heq
        · exact absurd hb (hnz i hlt)
        · exact heq
      rw [Nat.min_eq_right (by omega), ← heq]
      refine ⟨Function.update_self .., fun j hj => ?_⟩
      rw [if_neg (by omega)]
      exact Function.update_of_ne (by omega) _ _
    · rename_i hb
      have hlt : i < t.tIdx := Nat.lt_of_le_of_ne hi fun heq => hb (heq ▸ ht)
      obtain ⟨hzero, hbytes⟩ :=
        ih (t := t.touch i) (o := o.write i ((t.touch i).bytes i)) ht hnz hlt
      rw [show i + 1 + left = i + (left + 1) by omega] at hzero hbytes
      refine ⟨hzero, fun j hj => ?_⟩
      rw [hbytes j hj]
      by_cases hij : i = j
      · rw [if_neg (by omega), if_pos (by omega), hij]
        exact Function.update_self ..
      · by_cases hlt' : i + 1 ≤ j
        · rw [if_pos hlt', if_pos (by omega)]
          rfl
        · rw [if_neg hlt', if_neg (by omega)]
          exact Function.update_of_ne (fun h => hij h.symm) _ _

end CopyOut

/-- The output is the text of `temp`, cut to `max_len - 1` bytes. -/
theorem text_copyOut {t : Temp} (ht : t.Terminated) (hnz : 0 ∉ t.text) (o : Output) {maxLen : Nat}
    (hmax : 0 < maxLen) :
    (copyOut (maxLen - 1) 0 t o).2.text maxLen = t.text.take (maxLen - 1) := by
  have hbyte : ∀ j < t.tIdx, t.bytes j ≠ 0 := fun j hj hzero =>
    hnz (List.mem_map.mpr ⟨j, List.mem_range.mpr hj, hzero⟩)
  obtain ⟨hend, hcopy⟩ := bytes_copyOut (maxLen - 1) o ht hbyte (Nat.zero_le _)
  rw [Nat.zero_add] at hend hcopy
  generalize (copyOut (maxLen - 1) 0 t o).2 = r at hend hcopy
  have hcut : (List.range (min (maxLen - 1) t.tIdx)).map r.bytes = t.text.take (maxLen - 1) := by
    rw [Temp.text, ← List.map_take, List.take_range]
    refine List.map_congr_left fun j hj => ?_
    rw [hcopy j (List.mem_range.mp hj), if_pos (Nat.zero_le _)]
  obtain ⟨k, hk⟩ : ∃ k, maxLen = min (maxLen - 1) t.tIdx + (k + 1) :=
    ⟨maxLen - 1 - min (maxLen - 1) t.tIdx, by omega⟩
  rw [Output.text]
  conv => lhs; rw [hk]
  rw [List.range_add, List.map_append, hcut, List.takeWhile_append_of_pos, List.range_succ_eq_map,
    List.map_cons, List.map_cons, Nat.add_zero, hend, List.takeWhile_cons_of_neg (by simp),
      List.append_nil]
  intro b hb
  have hmem : b ∈ t.text := List.mem_of_mem_take hb
  simpa using fun h : b = 0 => hnz (h ▸ hmem)

/-! ## The bytes of a path -/

theorem mem_segments {s c : CStr} {b : UInt8} (hc : c ∈ segments s) (hb : b ∈ c) : b ∈ s := by
  induction s using segments_induction with
  | nil => cases hc
  | slash s ih => exact List.mem_cons_of_mem _ (ih (by simpa using hc))
  | cons a s ha ih =>
    rw [segments_cons ha] at hc
    cases List.mem_cons.mp hc with
    | inl heq =>
      rw [heq] at hb
      cases List.mem_cons.mp hb with
      | inl h => exact h ▸ List.mem_cons_self
      | inr h =>
        have hmem := (List.takeWhile_sublist _).subset (List.mem_of_mem_take h)
        exact List.mem_cons_of_mem _ hmem
    | inr hmem => exact List.mem_cons_of_mem _ (List.mem_of_mem_drop (ih hmem))

/-- The `..` case leaves the first byte, and nothing that was not there. -/
theorem popSegment_isPrefix (temp : CStr) :
    popSegment temp <+: temp ∧ (temp ≠ [] → popSegment temp ≠ []) := by
  unfold popSegment
  split
  · rename_i hlong
    have hsuffix :=
      List.dropWhile_suffix (l := temp.reverse) (fun b : UInt8 => decide (b ≠ SLASH))
    split
    · rename_i a c rest heq
      rw [heq] at hsuffix
      refine ⟨?_, fun _ => by simp⟩
      rw [← List.reverse_suffix, List.reverse_reverse]
      exact (List.suffix_cons a _).trans hsuffix
    · refine ⟨List.take_prefix 1 temp, fun hne hnil => ?_⟩
      have := congrArg List.length hnil
      simp at this
      exact hne this
  · exact ⟨List.prefix_rfl, id⟩

theorem mem_pushTemp {temp s : CStr} {b : UInt8} (h : b ∈ pushTemp temp s) :
    b ∈ temp ∨ b ∈ s := by
  cases List.mem_append.mp h with
  | inl hold => exact Or.inl hold
  | inr hnew => exact Or.inr (List.mem_of_mem_take hnew)

theorem mem_turn {temp c : CStr} {b : UInt8} (h : b ∈ turn temp c) :
    b ∈ temp ∨ b = SLASH ∨ b ∈ c := by
  unfold turn at h
  split at h
  · exact Or.inl h
  · split at h
    · exact Or.inl ((popSegment_isPrefix temp).1.subset h)
    · unfold pushSegment at h
      cases mem_pushTemp h with
      | inr hnew => exact Or.inr (Or.inr hnew)
      | inl hold =>
        split at hold
        · cases mem_pushTemp hold with
          | inl h => exact Or.inl h
          | inr h => exact Or.inr (Or.inl (List.mem_singleton.mp h))
        · exact Or.inl hold

theorem mem_foldl_turn {cs : List CStr} {temp : CStr} {b : UInt8} (h : b ∈ cs.foldl turn temp) :
    b ∈ temp ∨ b = SLASH ∨ ∃ c ∈ cs, b ∈ c := by
  induction cs generalizing temp with
  | nil => exact Or.inl h
  | cons c cs ih =>
    rcases ih h with htemp | hslash | ⟨d, hd, hb⟩
    · rcases mem_turn htemp with hold | hslash | hc
      · exact Or.inl hold
      · exact Or.inr (Or.inl hslash)
      · exact Or.inr (Or.inr ⟨c, List.mem_cons_self, hc⟩)
    · exact Or.inr (Or.inl hslash)
    · exact Or.inr (Or.inr ⟨d, List.mem_cons_of_mem _ hd, hb⟩)

theorem head_pushTemp {temp : CStr} (s : CStr) (h : temp.head? = some SLASH) :
    (pushTemp temp s).head? = some SLASH := by
  rw [pushTemp, List.head?_append, h]
  rfl

/-- The slash at the front of `temp` stays. -/
theorem head_turn {temp : CStr} (c : CStr) (h : temp.head? = some SLASH) :
    (turn temp c).head? = some SLASH := by
  unfold turn
  split
  · exact h
  · split
    · obtain ⟨hbegins, hne⟩ := popSegment_isPrefix temp
      have htemp : temp ≠ [] := fun hnil => by rw [hnil] at h; cases h
      obtain ⟨a, s, hpop⟩ := List.exists_cons_of_ne_nil (hne htemp)
      obtain ⟨rest, hrest⟩ := hbegins
      rw [← hrest, hpop] at h
      rw [hpop]
      exact h
    · unfold pushSegment
      dsimp only
      split
      · exact head_pushTemp _ (head_pushTemp _ h)
      · exact head_pushTemp _ h

theorem head_foldl_turn {temp : CStr} (cs : List CStr) (h : temp.head? = some SLASH) :
    (cs.foldl turn temp).head? = some SLASH := by
  induction cs generalizing temp with
  | nil => exact h
  | cons c cs ih => exact ih (head_turn c h)

/-- `normalize_path` for an empty or relative input. -/
theorem normalizePath_of_relative (stray : UInt8) (cwd : CStr) {input : CStr}
    (hrel : input.head? ≠ some SLASH) (maxLen : Nat) :
    normalizePath stray cwd input maxLen =
      ((segments input).foldl turn (cwdTemp stray cwd)).take (maxLen - 1) := by
  cases input with
  | nil => rfl
  | cons c rest => exact normalizePath_relative stray cwd (List.cons_ne_nil _ _) hrel maxLen

theorem mem_cwdTemp {stray b : UInt8} {cwd : CStr} (h : b ∈ cwdTemp stray cwd) :
    b ∈ cwd ∨ b = SLASH := by
  unfold cwdTemp at h
  dsimp only at h
  split at h
  · cases List.mem_append.mp h with
    | inl hold => exact Or.inl (List.mem_of_mem_take hold)
    | inr hnew => exact Or.inr (List.mem_singleton.mp hnew)
  · exact Or.inl (List.mem_of_mem_take h)

theorem mem_normalizePath {stray b : UInt8} {cwd input : CStr} {maxLen : Nat}
    (h : b ∈ normalizePath stray cwd input maxLen) : b ∈ cwd ∨ b = SLASH ∨ b ∈ input := by
  have hloop : ∀ temp, (∀ a ∈ temp, a ∈ cwd ∨ a = SLASH) → b ∈ (segments input).foldl turn temp →
      b ∈ cwd ∨ b = SLASH ∨ b ∈ input := by
    intro temp htemp hb
    rcases mem_foldl_turn hb with hold | hslash | ⟨c, hc, hbc⟩
    · cases htemp b hold with
      | inl hcwd => exact Or.inl hcwd
      | inr hslash => exact Or.inr (Or.inl hslash)
    · exact Or.inr (Or.inl hslash)
    · exact Or.inr (Or.inr (mem_segments hc hbc))
  by_cases habs : input.head? = some SLASH
  · cases input with
    | nil => cases habs
    | cons c rest =>
      rw [List.head?_cons, Option.some.injEq] at habs
      subst habs
      rw [normalizePath_slash] at h
      rw [segments_slash] at hloop
      exact hloop _ (fun a ha => Or.inr (List.mem_singleton.mp ha)) (List.mem_of_mem_take h)
  · rw [normalizePath_of_relative stray cwd habs] at h
    exact hloop _ (fun a ha => mem_cwdTemp ha) (List.mem_of_mem_take h)

/-- The output buffer holds what `normalizePath` computes from the strings. -/
theorem output_text (temp output : Nat → UInt8) {cwd input : CStr} (hcwd : 0 ∉ cwd)
    (hinput : 0 ∉ input)
    {maxLen : Nat} (hmax : 0 < maxLen) :
    (normalizeBuffers temp output cwd input maxLen).2.text maxLen =
      normalizePath (temp (2 ^ 64 - 1)) cwd input maxLen := by
  have hnz : 0 ∉ (Temp.fill ⟨temp, 0, []⟩ cwd input).text := by
    intro hzero
    -- With room for the whole text the output is the text.
    have htake :=
      Temp.take_text_fill temp cwd input ((Temp.fill ⟨temp, 0, []⟩ cwd input).text.length + 1)
    rw [Nat.add_sub_cancel, List.take_length] at htake
    rw [htake] at hzero
    rcases mem_normalizePath hzero with h | h | h
    · exact hcwd h
    · exact absurd h (by decide)
    · exact hinput h
  rw [normalizeBuffers, text_copyOut ( Temp.terminated_fill _ _ _) hnz _ hmax,
    Temp.take_text_fill]

/-! ## The values that `SYS_CHDIR` stores -/

/-- What holds of `cwd` after any number of `SYS_CHDIR` calls. -/
structure CwdInv (cwd : CStr) : Prop where
  head : cwd.head? = some SLASH
  length_le : cwd.length ≤ 255
  noZero : 0 ∉ cwd

theorem CwdInv.normalizePath {cwd input : CStr} (h : CwdInv cwd) (hinput : 0 ∉ input)
    (stray : UInt8) : CwdInv (normalizePath stray cwd input PATH_BUF) := by
  have hstart : (cwdTemp stray cwd).head? = some SLASH := by
    obtain ⟨b, rest, rfl⟩ := List.exists_cons_of_ne_nil (show cwd ≠ [] from fun hnil => by
      have := h.head
      rw [hnil] at this
      cases this)
    unfold cwdTemp
    dsimp only
    split
    · exact h.head
    · exact h.head
  have hhead : ∀ temp :
      CStr, temp.head? = some SLASH → (temp.take (PATH_BUF - 1)).head? = some SLASH := by
    intro temp htemp
    rw [List.head?_take, if_neg (by decide)]
    exact htemp
  refine ⟨?_, ?_, fun hzero => ?_⟩
  · by_cases habs : input.head? = some SLASH
    · cases input with
      | nil => cases habs
      | cons c rest =>
        rw [List.head?_cons, Option.some.injEq] at habs
        subst habs
        rw [normalizePath_slash]
        exact hhead _ (head_foldl_turn _ rfl)
    · rw [normalizePath_of_relative stray cwd habs]
      exact hhead _ (head_foldl_turn _ hstart)
  · exact List.length_take_le _ _
  · rcases mem_normalizePath hzero with hc | hs | hi
    · exact h.noZero hc
    · exact absurd hs (by decide)
    · exact hinput hi

theorem StoredCwd.inv {cwd : CStr} (h : StoredCwd cwd) : CwdInv cwd := by
  induction h with
  | init => exact ⟨rfl, by decide, by decide⟩
  | @chdir cwd p temp output stat hp _ ih =>
    have hinput : 0 ∉ strncpyFromUser p PATH_BUF := fun h => hp (List.mem_of_mem_take h)
    have htext := output_text temp output ih.noZero hinput (show 0 < PATH_BUF by decide)
    have hinv := ih.normalizePath hinput (temp (2 ^ 64 - 1))
    unfold sysChdir
    rw [htext]
    dsimp only
    split
    · rw [List.take_of_length_le (hinv.length_le.trans (by decide))]
      exact hinv
    · exact ih

/-! ## Where the buffers end -/

/-- The condition under which the start of `temp` fits. -/
def StartFits (cwd input : CStr) : Prop :=
  input.head? = some SLASH ∨ cwd.length < 255 ∨ cwd.getLast? = some SLASH

namespace Temp

/-- The copy of a `cwd` that fits is all of it. -/
theorem text_copy_cwd {cwd : CStr} (temp : Nat → UInt8) (hlen : cwd.length ≤ 255) :
    (copy ⟨temp, 0, []⟩ cwd).text = cwd := by
  rw [text_copy, pushTemp]
  exact List.take_of_length_le hlen

theorem inside_new (temp : Nat → UInt8) :
    Inside ⟨temp, 0, []⟩ := ⟨show 0 < PATH_BUF by decide, by simp⟩

theorem inside_startRelative {cwd : CStr} (temp : Nat → UInt8) (h : CwdInv cwd)
    (hfit : cwd.length < 255 ∨ cwd.getLast? = some SLASH) :
    (startRelative ⟨temp, 0, []⟩ cwd).Inside := by
  have hcopy := (inside_new temp).copy cwd
  have htext := text_copy_cwd temp h.length_le
  have hidx : (copy ⟨temp, 0, []⟩ cwd).tIdx = cwd.length := by rw [← text_length, htext]
  have hpos : 0 < cwd.length := by
    cases cwd with
    | nil => exact absurd h.head (by simp)
    | cons b rest => exact Nat.succ_pos _
  have hlast : sub64 (copy ⟨temp, 0, []⟩ cwd).tIdx 1 = cwd.length - 1 := by
    have := h.length_le
    rw [hidx, sub64_of_le (by omega) hpos]
  have hread := hcopy.touch (i := sub64 (copy ⟨temp, 0, []⟩ cwd).tIdx 1) (by
    have := h.length_le
    rw [hlast]
    show cwd.length - 1 < 256
    omega)
  rw [startRelative]
  split
  · rename_i hne
    refine hread.append ?_ SLASH
    show (copy ⟨temp, 0, []⟩ cwd).tIdx < 255
    rw [hidx]
    cases hfit with
    | inl hlt => exact hlt
    | inr hslash =>
      -- A `cwd` that ends in a slash gets no other.
      have hbyte := getLast?_text (t := copy ⟨temp, 0, []⟩ cwd) (by omega)
      rw [htext, hslash, hidx] at hbyte
      rw [hlast] at hne
      exact absurd (Option.some.inj hbyte).symm hne
  · exact hread

/-- Without room for the slash behind `cwd` the terminating zero is stored at 256. -/
theorem used_startRelative {cwd : CStr} (temp : Nat → UInt8) (hlen : cwd.length = 255)
    (hlast : cwd.getLast? ≠ some SLASH) :
    PATH_BUF ∈ (startRelative ⟨temp, 0, []⟩ cwd).terminate.used := by
  have htext := text_copy_cwd temp (Nat.le_of_eq hlen)
  have hidx : (copy ⟨temp, 0, []⟩ cwd).tIdx = 255 := by rw [← text_length, htext, hlen]
  have hbyte := getLast?_text (t := copy ⟨temp, 0, []⟩ cwd) (by omega)
  have hsub : sub64 255 1 = 254 := by decide
  rw [htext, hidx] at hbyte
  rw [hbyte] at hlast
  rw [startRelative, hidx, hsub, if_pos (by simpa using hlast)]
  show PATH_BUF ∈ ((copy ⟨temp, 0, []⟩ cwd).tIdx + 1) :: _
  rw [hidx]
  exact List.mem_cons_self

end Temp

theorem used_normalizeBuffers (temp output : Nat → UInt8) {cwd input : CStr} {maxLen : Nat}
    (habs : input.head? ≠ some SLASH) (hlen : cwd.length = 255)
    (hlast : cwd.getLast? ≠ some SLASH) :
    PATH_BUF ∈ (normalizeBuffers temp output cwd input maxLen).1.used := by
  refine copyOut_keeps ?_
  rw [Temp.fill_eq, if_neg habs]
  exact Temp.used_foldl_turn (Temp.used_startRelative temp hlen hlast) _

/-- For every `cwd` that `SYS_CHDIR` can have stored and every user path, `normalize_path`
stays in its buffers exactly when the path is absolute, or `cwd` is shorter than 255
bytes or ends in a slash. -/
theorem normalizePath_inBuffers_iff {cwd : CStr} (hcwd : StoredCwd cwd)
    (temp output : Nat → UInt8)
    (input : CStr) {maxLen : Nat} (hmax : 0 < maxLen) :
    InBuffers (normalizeBuffers temp output cwd input maxLen) maxLen ↔ StartFits cwd input := by
  have hinv := hcwd.inv
  have hwritten :
      ∀ j ∈ (normalizeBuffers temp output cwd input maxLen).2.written, j < maxLen := by
    intro j hj
    cases written_copyOut j hj with
    | inl hmem => cases hmem
    | inr hle => omega
  constructor
  · intro hin
    rw [StartFits]
    by_contra hno
    rw [not_or, not_or] at hno
    obtain ⟨habs, hlong, hlast⟩ := hno
    have hlen : cwd.length = 255 := by
      have := hinv.length_le
      omega
    exact Nat.lt_irrefl _ (hin.1 PATH_BUF (used_normalizeBuffers temp output habs hlen hlast))
  · intro hfit
    have hinside : (Temp.fill ⟨temp, 0, []⟩ cwd input).Inside := by
      rw [Temp.fill_eq]
      split
      · exact ((( Temp.inside_new temp).append
          (show 0 < PATH_BUF - 1 by decide) SLASH).terminate).foldl_turn _
      · rename_i habs
        exact (( Temp.inside_startRelative temp hinv
          (hfit.resolve_left habs)).terminate).foldl_turn _
    refine ⟨fun j hj => ?_, hwritten⟩
    cases used_copyOut ( Temp.terminated_fill _ _ _) (Nat.zero_le _) j hj with
    | inl hmem => exact hinside.used j hmem
    | inr hle => exact Nat.lt_of_le_of_lt hle hinside.tIdx

theorem normalizePath_inBuffers_iff_root :
    InBuffers (normalizeBuffers (fun _ => 0) (fun _ => 0) [SLASH] [97] 256) 256 ↔
      StartFits [SLASH] [97] :=
  normalizePath_inBuffers_iff StoredCwd.init _ _ [97] (by decide)

/-! ## A `cwd` of 255 bytes -/

/-- Three names of 63 bytes and one of 62, each with its slash. -/
def deepPath : CStr :=
  (List.replicate 3 (SLASH :: List.replicate 63 97)).flatten ++ SLASH :: List.replicate 62 97

/-- Directories inside each other, each with the two names of `deepPath`. -/
def deepVfs : Vfs Nat where
  mounts := [⟨[SLASH], 0⟩]
  isDir := fun _ => true
  lookup := fun d name =>
    if d < 4 ∧ (name = List.replicate 63 97 ∨ name = List.replicate 62 97) then some (d + 1)
      else none

theorem storedCwd_deepPath : StoredCwd deepPath := by
  have hnz : 0 ∉ deepPath := by decide
  have hcan : Canonical deepPath := Or.inr (by decide +kernel)
  have htarget :
      (normalizeBuffers (fun _ => 0) (fun _ => 0) [SLASH] (strncpyFromUser deepPath PATH_BUF)
      PATH_BUF).2.text PATH_BUF = deepPath := by
    rw [show strncpyFromUser deepPath PATH_BUF = deepPath from List.take_of_length_le
      (by decide +kernel),
      output_text _ _ (by decide) hnz (by decide)]
    exact normalizePath_canonical _ _ hcan (by decide +kernel) (by decide +kernel)
  have hstep :=
    StoredCwd.chdir (fun _ => 0) (fun _ => 0) (fun p => (resolveFull deepVfs p).isSome) hnz
    StoredCwd.init
  have hstat : (resolveFull deepVfs deepPath).isSome := by decide +kernel
  rwa [sysChdir, htarget, if_pos hstat, List.take_of_length_le (by decide +kernel)] at hstep

/-- In a directory whose path has 255 bytes every relative path makes `normalize_path`
store behind `temp`. -/
theorem deepPath_not_inBuffers :
    ¬ ∀ cwd, StoredCwd cwd → ∀ (temp output : Nat → UInt8) (input : CStr), input.length ≤ 255 →
      InBuffers (normalizeBuffers temp output cwd input 256) 256 := by
  intro h
  have hin := h deepPath storedCwd_deepPath (fun _ => 0) (fun _ => 0) [97] (by decide)
  have hlen : deepPath.length = 255 := by decide +kernel
  have hlast : deepPath.getLast? ≠ some SLASH := by decide +kernel
  have hused : PATH_BUF ∈ (normalizeBuffers (fun _ => 0) (fun _ => 0) deepPath [97] 256).1.used :=
    used_normalizeBuffers _ _ (by decide) hlen hlast
  exact Nat.lt_irrefl _ (hin.1 PATH_BUF hused)

end Lumin.Proc
