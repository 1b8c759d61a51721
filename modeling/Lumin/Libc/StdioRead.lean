import Lumin.Lib.Transition
import Lumin.Libc.Stdio

/-!
# Reading a file through a stream

The calls of `fgetc`, `fgets` and `fread` on one stream.  While the end has not been seen,
what has been delivered followed by what is in the buffer is what `read` has given.

A refill that finds the end resets `pos` and leaves `len`, so that the last chunk of the
file looks unread.  The next call that asks for a byte gets it again.
-/

namespace Lumin.Libc.Stdio

open Lumin.Lib

inductive ReadCall where
  | fgetc
  | fgets (n : Int)
  | fread (size nmemb : Nat)

/-- The call asks for a byte at least. -/
def ReadCall.asks : ReadCall → Bool
  | .fgetc => true
  | .fgets n => decide (2 ≤ n)
  | .fread size nmemb => decide (u64 (size * nmemb) ≠ 0)

/-- The bytes that a call delivers. -/
def readCall (split : Nat → Nat) (f : File) (k : Input) : ReadCall → List UInt8 × File × Input
  | .fgetc =>
    match Stdio.fgetc split f k with
    | (c, f, k) => (c.toList, f, k)
  | .fgets n =>
    match Stdio.fgets split n f k with
    | (s, f, k) => (s.getD [], f, k)
  | .fread size nmemb =>
    match Stdio.fread split size nmemb f k with
    | ((p, _), f, k) => (p, f, k)

/-- A stream with its file, all bytes delivered so far, and how many these were when a
call first hit the end. -/
structure Reader where
  f : File
  k : Input
  out : List UInt8
  mark : Option Nat
  deriving DecidableEq

def readStep (split : Nat → Nat) (w : Reader) (call : ReadCall) : Option Reader :=
  match readCall split w.f w.k call with
  | (bytes, f, k) =>
    let out := w.out ++ bytes
    some { f := f, k := k, out := out,
           mark := w.mark.or (if f.eof then some out.length else none) }

/-- A stream that was opened for reading, with a buffer of `bufsiz` bytes. -/
def openedFor (content : List UInt8) (bufsiz : Nat) : Reader where
  f :=
    { buf := List.replicate bufsiz 0, bufsiz := bufsiz, pos := 0, len := 0, reading := true,
      writing := false,
      eof := false, error := false, unbuffered := false, linebuf := false, ungot := none }
  k := { content := content, offset := 0, reads := 0 }
  out := []
  mark := none

/-- What was delivered is the start of the file, and nothing was delivered after the
end. -/
def ReadsOnce (content : List UInt8) (w : Reader) : Prop :=
  w.out <+: content ∧ ∀ n, w.mark = some n → w.out.length = n

/-- The call does not ask for a byte after the end, unless the file is empty. -/
def BeforeEnd (w : Reader) (call : ReadCall) : Prop :=
  w.f.eof = true → call.asks = false ∨ w.k.content = []

variable {split : Nat → Nat} {f f' : File} {k k' : Input} {out p s : List UInt8} {c : UInt8}
  {n m left : Nat}

theorem fgetc_eq (hreading : f.reading = true) (hungot : f.ungot = none) :
    fgetc split f k =
      match ready split f k with
      | (false, f, k) => (none, f, k)
      | (true, f, k) => (some (f.buf.getD f.pos 0), { f with pos := f.pos + 1 }, k) := by
  rcases hready : ready split f k with ⟨ok, f', k'⟩
  cases ok <;> simp [fgetc, hreading, hungot, hready]

theorem readCall_fread {size nmemb : Nat} (hreading : f.reading = true) :
    readCall split f k (.fread size nmemb) =
      freadLoop split (u64 (size * nmemb)) (u64 (size * nmemb)) [] f k := by
  rw [readCall, Stdio.fread, if_neg (by simp [hreading])]

/-! ## Before the end -/

/-- What is in the buffer. -/
def File.rest (f : File) : List UInt8 := (f.buf.drop f.pos).take (f.len - f.pos)

/-- The stream has not seen the end: `out` and what is in the buffer are what `read` has
given. -/
structure Live (out : List UInt8) (f : File) (k : Input) : Prop where
  reading : f.reading = true
  ungot : f.ungot = none
  bufsiz_pos : 0 < f.bufsiz
  eof : f.eof = false
  pos_le : f.pos ≤ f.len
  len_le : f.len ≤ f.buf.length
  len_offset : f.len ≤ k.offset
  offset_len : f.len = 0 → k.offset = 0
  offset_le : k.offset ≤ k.content.length
  given : out ++ f.rest = k.content.take k.offset

/-- The stream has seen the end, when everything was delivered.  `len` still has the size
of the last chunk. -/
structure Ended (out : List UInt8) (f : File) (k : Input) : Prop where
  reading : f.reading = true
  ungot : f.ungot = none
  eof : f.eof = true
  pos_eq : f.pos = 0
  len_le : f.len ≤ f.buf.length
  len_zero : f.len = 0 ↔ k.content = []
  all : out = k.content

theorem live_openedFor (content : List UInt8) {bufsiz : Nat} (hpos : 0 < bufsiz) :
    Live [] (openedFor content bufsiz).f (openedFor content bufsiz).k where
  reading := rfl
  ungot := rfl
  bufsiz_pos := hpos
  eof := rfl
  pos_le := le_refl _
  len_le := Nat.zero_le _
  len_offset := le_refl _
  offset_len _ := rfl
  offset_le := Nat.zero_le _
  given := by simp [File.rest, openedFor]

/-- Taking `n` bytes out of the buffer. -/
theorem Live.take (h : Live out f k) (hn : n ≤ f.len - f.pos) :
    Live (out ++ (f.buf.drop f.pos).take n) { f with pos := f.pos + n } k := by
  have hpos := h.pos_le
  refine { h with pos_le := ?_, given := ?_ }
  · show f.pos + n ≤ f.len
    omega
  · rw [← h.given, List.append_assoc]
    congr 1
    unfold File.rest
    dsimp only
    rw [← List.drop_drop, ← List.take_add]
    congr 1
    omega

/-- A refill before the end of the file fills the buffer; at the end it ends the
stream. -/
theorem Live.refill (h : Live out f k) (split : Nat → Nat) (hempty : f.len ≤ f.pos) :
    (∃ f' k', refill split f k = (true, f', k') ∧ Live out f' k' ∧ f'.pos < f'.len ∧
      k'.content = k.content) ∨
      ∃ f' k', refill split f k = (false, f', k') ∧ Ended out f' k' ∧ k'.content = k.content := by
  have hrest : f.rest = [] := by
    unfold File.rest
    rw [Nat.sub_eq_zero_of_le hempty, List.take_zero]
  have hout : out = k.content.take k.offset := by
    rw [← h.given, hrest, List.append_nil]
  have hle := h.offset_le
  have hbufsiz := h.bufsiz_pos
  generalize hn : min (max 1 (split k.reads)) (min f.bufsiz (k.content.length - k.offset)) = n
  have hread : sysRead split k f.bufsiz =
      (some ((k.content.drop k.offset).take n),
        { k with offset := k.offset + n, reads := k.reads + 1 }) := by
    rw [← hn]
    rfl
  unfold Stdio.refill
  rw [hread]
  have hlen : ((k.content.drop k.offset).take n).length = n := by
    rw [List.length_take, List.length_drop]
    omega
  cases hdata : (k.content.drop k.offset).take n with
  | nil =>
    -- The file is at its end.
    rw [hdata, List.length_nil] at hlen
    have hend : k.offset = k.content.length := by omega
    refine Or.inr ⟨_, _, rfl, ?_, rfl⟩
    refine ⟨h.reading, h.ungot, rfl, rfl, h.len_le, ?_, ?_⟩
    · constructor
      · intro hzero
        have := h.offset_len hzero
        refine List.length_eq_zero_iff.mp ?_
        show k.content.length = 0
        omega
      · intro hnil
        have hzero : k.content.length = 0 := by rw [hnil]; rfl
        have := h.len_offset
        show f.len = 0
        omega
    · rw [hout, hend, List.take_length]
  | cons b data =>
    have hsize : data.length + 1 = n := by rw [← hlen, hdata, List.length_cons]
    refine Or.inl ⟨_, _, rfl, ?_, by simp, rfl⟩
    refine { h with
      pos_le := by simp
      len_le := ?_
      len_offset := ?_
      offset_len := ?_
      offset_le := ?_
      given := ?_ }
    · simp
    · show data.length + 1 ≤ k.offset + n
      omega
    · simp
    · show k.offset + n ≤ k.content.length
      omega
    · have hbuf : (b :: data ++ f.buf.drop (data.length + 1)).take (data.length + 1) =
          b :: data := by
        rw [← List.length_cons (a := b)]
        exact List.take_left
      show out ++ ((b :: data ++ f.buf.drop (data.length + 1)).drop 0).take
          (data.length + 1 - 0) = _
      rw [List.drop_zero, Nat.sub_zero, hbuf, hout, ← hdata, ← List.take_add]

/-- There is a byte, or the stream has ended. -/
theorem Live.ready (h : Live out f k) (split : Nat → Nat) :
    (∃ f' k', ready split f k = (true, f', k') ∧ Live out f' k' ∧ f'.pos < f'.len ∧
      k'.content = k.content) ∨
      ∃ f' k', ready split f k = (false, f', k') ∧ Ended out f' k' ∧ k'.content = k.content := by
  unfold Stdio.ready
  by_cases hempty : f.pos ≥ f.len
  · rw [if_pos hempty, h.eof, if_neg Bool.false_ne_true]
    exact h.refill split hempty
  · rw [if_neg hempty]
    exact Or.inl ⟨f, k, rfl, h, by omega, rfl⟩

/-- Before or after the end. -/
def Streams (out : List UInt8) (f : File) (k : Input) : Prop := Live out f k ∨ Ended out f k

theorem Live.fgetc (h : Live out f k) (split : Nat → Nat) :
    (∃ c f' k', Stdio.fgetc split f k = (some c, f', k') ∧ Live (out ++ [c]) f' k' ∧
      k'.content = k.content) ∨
      ∃ f' k', Stdio.fgetc split f k = (none, f', k') ∧ Ended out f' k' ∧
          k'.content = k.content := by
  rw [fgetc_eq h.reading h.ungot]
  rcases h.ready split with ⟨f', k', hready, hlive, hlt, hsame⟩ | ⟨f', k', hready, hended, hsame⟩
  · rw [hready]
    refine Or.inl ⟨_, _, _, rfl, ?_, hsame⟩
    have hin : f'.pos < f'.buf.length := lt_of_lt_of_le hlt hlive.len_le
    have hbyte : [f'.buf.getD f'.pos 0] = (f'.buf.drop f'.pos).take 1 := by
      rw [List.drop_eq_getElem_cons hin, List.take_succ_cons, List.take_zero,
        List.getD_eq_getElem?_getD,
        List.getElem?_eq_getElem hin, Option.getD_some]
    rw [hbyte]
    exact hlive.take (by omega)
  · rw [hready]
    exact Or.inr ⟨_, _, rfl, hended, hsame⟩

/-- `fgets` delivers the bytes of its calls of `fgetc`, up to the first that has none. -/
theorem Live.fgetsLoop (h : Live out f k) (split : Nat → Nat) (m : Nat) (s : List UInt8) :
    ∃ t b f' k', Stdio.fgetsLoop split m s f k = ((s ++ t, b), f', k') ∧
        Streams (out ++ t) f' k' ∧
      k'.content = k.content := by
  induction m generalizing out f k s with
  | zero =>
    exact ⟨[], false, f, k, by rw [List.append_nil]; rfl, Or.inl (by rwa [List.append_nil]), rfl⟩
  | succ m ih =>
    rw [Stdio.fgetsLoop]
    rcases h.fgetc split with ⟨c, f₁, k₁, hget, hlive, hsame⟩ | ⟨f₁, k₁, hget, hended, hsame⟩
    · rw [hget]
      dsimp only
      split_ifs with hnewline
      · exact ⟨[c], false, f₁, k₁, rfl, Or.inl hlive, hsame⟩
      · obtain ⟨t, b, f', k', hrun, hstreams, hcontent⟩ := ih hlive (s ++ [c])
        refine ⟨c :: t, b, f', k', ?_, ?_, hcontent.trans hsame⟩
        · rw [hrun, List.append_assoc]
          rfl
        · rwa [List.append_assoc] at hstreams
    · rw [hget]
      exact ⟨[], true, f₁, k₁, by rw [List.append_nil], Or.inr (by rwa [List.append_nil]), hsame⟩

theorem Live.freadLoop (h : Live out f k) (split : Nat → Nat) (fuel left : Nat) (p : List UInt8) :
    ∃ t f' k', Stdio.freadLoop split fuel left p f k = (p ++ t, f', k') ∧
        Streams (out ++ t) f' k' ∧
      k'.content = k.content := by
  induction fuel generalizing out f k left p with
  | zero => exact ⟨[], f, k, by rw [List.append_nil]; rfl, Or.inl (by rwa [List.append_nil]), rfl⟩
  | succ fuel ih =>
    rw [Stdio.freadLoop]
    split_ifs with hleft
    · exact ⟨[], f, k, by rw [List.append_nil], Or.inl (by rwa [List.append_nil]), rfl⟩
    · rcases h.ready split with ⟨f₁, k₁, hready, hlive, hlt, hsame⟩ | ⟨f₁, k₁, hready, hended,
          hsame⟩
      · rw [hready]
        dsimp only
        obtain ⟨t, f', k', hrun, hstreams, hcontent⟩ := ih (hlive.take (Nat.min_le_right left _))
          (left - min left (f₁.len - f₁.pos))
            (p ++ (f₁.buf.drop f₁.pos).take (min left (f₁.len - f₁.pos)))
        refine ⟨(f₁.buf.drop f₁.pos).take (min left (f₁.len - f₁.pos)) ++ t, f', k', ?_, ?_,
          hcontent.trans hsame⟩
        · rw [hrun, List.append_assoc]
        · rwa [List.append_assoc] at hstreams
      · rw [hready]
        exact ⟨[], f₁, k₁, by rw [List.append_nil], Or.inr (by rwa [List.append_nil]), hsame⟩

/-- Before the end every call delivers the next bytes of the file. -/
theorem Live.readCall (h : Live out f k) (split : Nat → Nat) (call : ReadCall) :
    ∃ t f' k', Stdio.readCall split f k call = (t, f', k') ∧ Streams (out ++ t) f' k' ∧
        k'.content = k.content := by
  cases call with
  | fgetc =>
    rw [Stdio.readCall]
    rcases h.fgetc split with ⟨c, f', k', hget, hlive, hsame⟩ | ⟨f', k', hget, hended, hsame⟩
    · exact ⟨[c], f', k', by rw [hget]; rfl, Or.inl hlive, hsame⟩
    · exact ⟨[], f', k', by rw [hget]; rfl, Or.inr (by rwa [List.append_nil]), hsame⟩
  | fgets n =>
    rw [Stdio.readCall, Stdio.fgets]
    split_ifs with hn
    · exact ⟨[], f, k, rfl, Or.inl (by rwa [List.append_nil]), rfl⟩
    · obtain ⟨t, b, f', k', hrun, hstreams, hsame⟩ := h.fgetsLoop split (n - 1).toNat []
      refine ⟨t, f', k', ?_, hstreams, hsame⟩
      rw [hrun]
      cases b <;> cases t <;> rfl
  | fread size nmemb =>
    rw [readCall_fread h.reading]
    obtain ⟨t, f', k', hrun, hstreams, hsame⟩ :=
      h.freadLoop split (u64 (size * nmemb)) (u64 (size * nmemb)) []
    exact ⟨t, f', k', hrun, hstreams, hsame⟩

/-- After `ready` there is a byte in the buffer. -/
theorem ready_lt (h : ready split f k = (true, f', k')) : f'.pos < f'.len := by
  unfold ready refill at h
  split_ifs at h with hempty
  · simp at h
  · split at h
    · simp at h
    · simp at h
    · obtain ⟨-, rfl, -⟩ := h
      exact Nat.succ_pos _
  · obtain ⟨-, rfl, -⟩ := h
    omega

/-- More than `left` turns do not change what `fread` does. -/
theorem freadLoop_fuel (fuel : Nat) (hfuel : left ≤ fuel) (p : List UInt8) (f : File)
    (k : Input) :
    freadLoop split (fuel + 1) left p f k = freadLoop split fuel left p f k := by
  induction fuel generalizing left p f k with
  | zero => exact if_pos (Nat.le_zero.mp hfuel)
  | succ fuel ih =>
    rw [freadLoop, freadLoop]
    split_ifs with hleft
    · rfl
    · split
      · rfl
      · rename_i f' k' hready
        have hlt := ready_lt hready
        exact ih (by omega) _ _ _

/-! ## After the end -/

/-- After the end of an empty file there is nothing to deliver. -/
theorem Ended.ready_of_empty (h : Ended out f k) (hnil : k.content = []) :
    ready split f k = (false, f, k) := by
  have hlen := h.len_zero.mpr hnil
  unfold Stdio.ready
  rw [if_pos (by omega), if_pos h.eof]

/-- After the end of any other file, the last chunk is in the buffer. -/
theorem Ended.ready (h : Ended out f k) (split : Nat → Nat) (hne : k.content ≠ []) :
    Stdio.ready split f k = (true, f, k) ∧ f.pos < f.len := by
  have hlen : f.len ≠ 0 := fun hzero => hne (h.len_zero.mp hzero)
  have hpos := h.pos_eq
  refine ⟨?_, by omega⟩
  unfold Stdio.ready
  rw [if_neg (by omega)]

theorem Ended.fgetc_of_empty (h : Ended out f k) (hnil : k.content = []) :
    fgetc split f k = (none, f, k) := by
  rw [fgetc_eq h.reading h.ungot, h.ready_of_empty hnil]

theorem Ended.fgetc (h : Ended out f k) (split : Nat → Nat) (hne : k.content ≠ []) :
    ∃ c, Stdio.fgetc split f k = (some c, { f with pos := f.pos + 1 }, k) := by
  rw [fgetc_eq h.reading h.ungot, (h.ready split hne).1]
  exact ⟨_, rfl⟩

/-- A call that asks for nothing, or of an empty file, changes nothing. -/
theorem Ended.quiet (h : Ended out f k) {call : ReadCall}
    (hcall : call.asks = false ∨ k.content = []) :
    readCall split f k call = ([], f, k) := by
  cases call with
  | fgetc =>
    rcases hcall with hasks | hnil
    · exact absurd hasks (by simp [ReadCall.asks])
    · rw [readCall, h.fgetc_of_empty hnil]
      rfl
  | fgets n =>
    rw [readCall, Stdio.fgets]
    split_ifs with hn
    · rfl
    · rcases hcall with hasks | hnil
      · have hone : (n - 1).toNat = 0 := by
          have : ¬ 2 ≤ n := by simpa [ReadCall.asks] using hasks
          omega
        rw [hone]
        rfl
      · cases (n - 1).toNat with
        | zero => rfl
        | succ m =>
          rw [Stdio.fgetsLoop, h.fgetc_of_empty hnil]
          rfl
  | fread size nmemb =>
    rw [readCall_fread h.reading]
    rcases hcall with hasks | hnil
    · have hzero : u64 (size * nmemb) = 0 := by simpa [ReadCall.asks] using hasks
      rw [hzero]
      rfl
    · cases u64 (size * nmemb) with
      | zero => rfl
      | succ m => rw [Stdio.freadLoop, if_neg (Nat.succ_ne_zero m), h.ready_of_empty hnil]

/-- The loops keep what they have. -/
theorem fgetsLoop_keeps (split : Nat → Nat) (m : Nat) (s : List UInt8) (f : File) (k : Input) :
    s <+: (fgetsLoop split m s f k).1.1 := by
  induction m generalizing s f k with
  | zero => exact List.prefix_refl s
  | succ m ih =>
    rw [fgetsLoop]
    split
    · exact List.prefix_refl s
    · split_ifs
      · exact List.prefix_append s _
      · exact (List.prefix_append s _).trans (ih _ _ _)

theorem freadLoop_keeps (split : Nat → Nat) (fuel left : Nat) (p : List UInt8) (f : File)
    (k : Input) :
    p <+: (freadLoop split fuel left p f k).1 := by
  induction fuel generalizing left p f k with
  | zero => exact List.prefix_refl p
  | succ fuel ih =>
    rw [freadLoop]
    split_ifs
    · exact List.prefix_refl p
    · split
      · exact List.prefix_refl p
      · exact (List.prefix_append p _).trans (ih _ _ _ _)

/-- A call that asks for a byte gets one, although the end was seen. -/
theorem Ended.loud (h : Ended out f k) (split : Nat → Nat) {call : ReadCall}
    (hasks : call.asks = true)
    (hne : k.content ≠ []) :
    (readCall split f k call).1 ≠ [] := by
  cases call with
  | fgetc =>
    obtain ⟨c, hget⟩ := h.fgetc split hne
    rw [readCall, hget]
    exact List.cons_ne_nil _ _
  | fgets n =>
    obtain ⟨c, hget⟩ := h.fgetc split hne
    have hn : 2 ≤ n := by simpa [ReadCall.asks] using hasks
    obtain ⟨m, hm⟩ : ∃ m, (n - 1).toNat = m + 1 := ⟨(n - 2).toNat, by omega⟩
    have hfirst : [c] <+: (fgetsLoop split (n - 1).toNat [] f k).1.1 := by
      rw [hm, fgetsLoop, hget]
      dsimp only
      split_ifs
      · exact List.prefix_refl _
      · exact fgetsLoop_keeps split m _ _ _
    rw [readCall, Stdio.fgets, if_neg (by omega)]
    generalize fgetsLoop split (n - 1).toNat [] f k = r at hfirst
    obtain ⟨⟨s, b⟩, f', k'⟩ := r
    obtain ⟨t, rfl⟩ := hfirst
    simp
  | fread size nmemb =>
    have htotal : u64 (size * nmemb) ≠ 0 := by simpa [ReadCall.asks] using hasks
    obtain ⟨m, hm⟩ := Nat.exists_eq_succ_of_ne_zero htotal
    obtain ⟨hready, hlt⟩ := h.ready split hne
    rw [readCall_fread h.reading, hm]
    have hfirst : (f.buf.drop f.pos).take (min (m + 1) (f.len - f.pos)) <+:
        (Stdio.freadLoop split (m + 1) (m + 1) [] f k).1 := by
      rw [Stdio.freadLoop, if_neg (Nat.succ_ne_zero m), hready]
      exact freadLoop_keeps split m _ _ _ _
    intro hnil
    rw [hnil, List.prefix_nil] at hfirst
    have hlen := congrArg List.length hfirst
    have hbuf := h.len_le
    rw [List.length_take, List.length_drop, List.length_nil] at hlen
    omega

/-! ## Runs -/

/-- The states of runs that do not ask after the end. -/
def ReadInv (content : List UInt8) (w : Reader) : Prop :=
  w.k.content = content ∧
    (Live w.out w.f w.k ∧ w.mark = none ∨ Ended w.out w.f w.k ∧ w.mark = some w.out.length)

variable {content : List UInt8} {w w' : Reader} {call : ReadCall}

theorem ReadInv.readsOnce (h : ReadInv content w) : ReadsOnce content w := by
  obtain ⟨rfl, ⟨hlive, hmark⟩ | ⟨hended, hmark⟩⟩ := h
  · refine ⟨?_, fun n hn => by simp [hmark] at hn⟩
    have hgiven := hlive.given
    exact (List.prefix_append _ _).trans (hgiven ▸ List.take_prefix _ _)
  · refine ⟨hended.all ▸ List.prefix_refl _, fun n hn => ?_⟩
    rw [hmark] at hn
    exact Option.some.inj hn

theorem ReadInv.step (h : ReadInv content w) (hguard : BeforeEnd w call)
    (hstep : readStep split w call = some w') : ReadInv content w' := by
  unfold readStep at hstep
  obtain ⟨hcontent, ⟨hlive, hmark⟩ | ⟨hended, hmark⟩⟩ := h
  · obtain ⟨t, f', k', hcall, hstreams, hsame⟩ := hlive.readCall split call
    rw [hcall] at hstep
    obtain rfl := Option.some.inj hstep
    refine ⟨hsame.trans hcontent, ?_⟩
    rcases hstreams with hlive' | hended'
    · exact Or.inl ⟨hlive', by simp [hmark, hlive'.eof]⟩
    · exact Or.inr ⟨hended', by simp [hmark, hended'.eof]⟩
  · rw [hended.quiet (hguard hended.eof)] at hstep
    obtain rfl := Option.some.inj hstep
    exact ⟨hcontent, Or.inr ⟨by simpa using hended, by simp [hmark]⟩⟩

/-- A call that asks after the end gets bytes of the file a second time. -/
theorem ReadInv.breaks (h : ReadInv content w) (hguard : ¬ BeforeEnd w call)
    (hstep : readStep split w call = some w') : ¬ ReadsOnce content w' := by
  rw [BeforeEnd, Classical.not_imp, not_or, Bool.not_eq_false] at hguard
  obtain ⟨heof, hasks, hne⟩ := hguard
  obtain ⟨-, ⟨hlive, -⟩ | ⟨hended, hmark⟩⟩ := h
  · exact absurd (hlive.eof.symm.trans heof) Bool.false_ne_true
  · have hbytes := hended.loud split hasks hne
    unfold readStep at hstep
    generalize readCall split w.f w.k call = r at hstep hbytes
    obtain rfl := Option.some.inj hstep
    rintro ⟨-, hlen⟩
    have hsame := hlen w.out.length (by simp [hmark])
    rw [List.length_append] at hsame
    exact hbytes (List.length_eq_zero_iff.mp (by omega))

/-- Every call sequence delivers the file once, in order, and nothing after the end, exactly
if no call asks for a byte after one that has hit the end of a non-empty file. -/
theorem readsOnce_iff (split : Nat → Nat) (content : List UInt8) {bufsiz : Nat}
    (hbufsiz : 0 < bufsiz)
    (calls : List ReadCall) :
    (∀ w ∈ visited (readStep split) (openedFor content bufsiz) calls, ReadsOnce content w) ↔
      Guarded (readStep split) BeforeEnd (openedFor content bufsiz) calls :=
  visited_iff_guarded (fun _ => ReadInv.readsOnce) (fun _ _ _ => ReadInv.step)
    (fun _ _ _ => ReadInv.breaks)
    ⟨rfl, Or.inl ⟨live_openedFor content hbufsiz, rfl⟩⟩ calls

/-- Two bytes, and a line of them. -/
theorem readsOnce_iff_twoBytes :
    0 < 1024 ∧ ((∀ w ∈ visited (readStep fun _ => 1) (openedFor [65, 66] 1024) [.fgetc, .fgets 8],
        ReadsOnce [65, 66] w) ↔
      Guarded (readStep fun _ => 1) BeforeEnd (openedFor [65, 66] 1024) [.fgetc, .fgets 8]) :=
  ⟨by decide, readsOnce_iff (fun _ => 1) [65, 66] (by decide) [.fgetc, .fgets 8]⟩

/-- A file of one byte: the third `fgetc` delivers it again. -/
theorem thirdByte_not_readsOnce :
    ¬ ∀ w ∈ visited (readStep fun _ => 1) (openedFor [65] 1024) [.fgetc, .fgetc, .fgetc],
      ReadsOnce [65] w := by
  intro h
  have hout : ∃ w ∈ visited (readStep fun _ => 1) (openedFor [65] 1024) [.fgetc, .fgetc, .fgetc],
      w.out = [65, 65] ∧ w.mark = some 1 := by decide
  obtain ⟨w, hw, hout, hmark⟩ := hout
  have hlen := (h w hw).2 1 hmark
  rw [hout] at hlen
  exact absurd hlen (by decide)

end Lumin.Libc.Stdio
