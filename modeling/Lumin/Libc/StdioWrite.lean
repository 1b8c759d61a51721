import Lumin.Lib.Transition
import Lumin.Libc.Stdio

/-!
# Writing through a stream

The calls of `fputc`, `fputs`, `fwrite` and `fflush` on one stream.  What `write` has taken
followed by what is in the buffer is to be what the calls have accepted.

`fputc` on an unbuffered stream calls `write` at once.  `fwrite` fills the buffer in every
mode, so that on such a stream bytes can wait in the buffer, and a later `fputc` passes
them.
-/

namespace Lumin.Libc.Stdio

open Lumin.Lib

inductive WriteCall where
  | fputc (c : Int)
  | fputs (s : List UInt8)
  | fwrite (ptr : Mem) (size nmemb : Nat)
  | fflush

/-- The bytes that a call accepts. -/
def writeCall (split : Nat → Nat) (f : File) (k : Output) : WriteCall → List UInt8 × File × Output
  | .fputc c =>
    match Stdio.fputc split c f k with
    | (ok, f, k) => (if ok then [toByte c] else [], f, k)
  | .fputs s =>
    match Stdio.fputs split s f k with
    | ((done, _), f, k) => (done, f, k)
  | .fwrite ptr size nmemb =>
    match Stdio.fwrite split ptr size nmemb f k with
    | ((done, _), f, k) => (done, f, k)
  | .fflush =>
    match Stdio.fflush split f k with
    | (_, f, k) => ([], f, k)

/-- A stream with what `write` has taken and all bytes accepted so far. -/
structure Writer where
  f : File
  k : Output
  accepted : List UInt8

def writeStep (split : Nat → Nat) (w : Writer) (call : WriteCall) : Option Writer :=
  match writeCall split w.f w.k call with
  | (bytes, f, k) => some { f := f, k := k, accepted := w.accepted ++ bytes }

/-- A stream that was opened for writing in one of the modes. -/
def openedForWriting (bufsiz : Nat) (unbuffered linebuf : Bool) : Writer where
  f :=
    { buf := List.replicate bufsiz 0, bufsiz := bufsiz, pos := 0, len := 0, reading := false,
      writing := true,
      eof := false, error := false, unbuffered := unbuffered, linebuf := linebuf, ungot := none }
  k := { bytes := [], writes := 0 }
  accepted := []

/-- What waits in the buffer. -/
def File.pending (f : File) : List UInt8 := f.buf.take f.pos

/-- What was taken and what waits is what was accepted, in order. -/
def KeepsOrder (w : Writer) : Prop := w.k.bytes ++ w.f.pending = w.accepted

/-- The bytes that a call hands to `write` at once on an unbuffered stream. -/
def WriteCall.direct : WriteCall → List UInt8
  | .fputc c => [toByte c]
  | .fputs s => s
  | .fwrite _ _ _ => []
  | .fflush => []

/-- On an unbuffered stream, it does not matter whether the bytes that wait are before or
after those that are written at once. -/
def NotOvertaking (w : Writer) (call : WriteCall) : Prop :=
  w.f.unbuffered = true → w.f.pending ++ call.direct = call.direct ++ w.f.pending

variable {split : Nat → Nat} {f f' f'' : File} {k k' k'' : Output} {data data' s : List UInt8}
  {fuel : Nat}

/-! ## The buffer -/

/-- The stream can take a byte. -/
structure Writable (f : File) : Prop where
  writing : f.writing = true
  length : f.buf.length = f.bufsiz
  room : f.pos < f.bufsiz

/-- From one state to the next, `data` has come to what was taken and what waits. -/
structure Puts (f : File) (k : Output) (data : List UInt8) (f' : File) (k' : Output) : Prop where
  writable : Writable f'
  mode : f'.unbuffered = f.unbuffered
  bytes : k'.bytes ++ f'.pending = k.bytes ++ f.pending ++ data

theorem Puts.refl (h : Writable f) (k : Output) : Puts f k [] f k :=
  ⟨h, rfl, (List.append_nil _).symm⟩

theorem Puts.trans (h : Puts f k data f' k') (h' : Puts f' k' data' f'' k'') :
    Puts f k (data ++ data') f'' k'' :=
  ⟨h'.writable, h'.mode.trans h.mode, by rw [h'.bytes, h.bytes, List.append_assoc]⟩

theorem sysWrite_spec (split : Nat → Nat) (k : Output) (hne : data ≠ []) :
    ∃ n k', sysWrite split k data = (n + 1, k') ∧ n + 1 ≤ data.length ∧
        k'.bytes = k.bytes ++ data.take (n + 1) := by
  have hlen : 0 < data.length := List.length_pos_iff.mpr hne
  obtain ⟨n, hn⟩ : ∃ n, min (max 1 (split k.writes)) data.length = n + 1 :=
    ⟨min (max 1 (split k.writes)) data.length - 1, by omega⟩
  refine ⟨n, _, by rw [sysWrite, hn], by omega, rfl⟩

theorem flushLoop_spec (split : Nat → Nat) (k : Output) (hfuel : data.length ≤ fuel) :
    ∃ k', flushLoop split fuel data k = (true, k') ∧ k'.bytes = k.bytes ++ data := by
  induction fuel generalizing data k with
  | zero =>
    obtain rfl := List.length_eq_zero_iff.mp (Nat.le_zero.mp hfuel)
    exact ⟨k, rfl, (List.append_nil _).symm⟩
  | succ fuel ih =>
    rw [flushLoop]
    split_ifs with hnil
    · exact ⟨k, rfl, by rw [hnil, List.append_nil]⟩
    · obtain ⟨n, k₁, hwrite, hle, hbytes⟩ := sysWrite_spec split k hnil
      rw [hwrite]
      have hdrop : (data.drop (n + 1)).length ≤ fuel := by
        rw [List.length_drop]
        omega
      obtain ⟨k', hrun, hrest⟩ := ih k₁ hdrop
      exact ⟨k', hrun, by rw [hrest, hbytes, List.append_assoc, List.take_append_drop]⟩

/-- `fflush` empties the buffer, whatever `write` takes at a time. -/
theorem fflush_spec (split : Nat → Nat) (k : Output) (hwriting : f.writing = true) :
    ∃ k', fflush split f k = (true, { f with pos := 0 }, k') ∧
      k'.bytes = k.bytes ++ f.pending := by
  unfold fflush File.pending
  by_cases hzero : f.pos = 0
  · rw [if_pos (Or.inr hzero), hzero]
    refine ⟨k, ?_, (List.append_nil _).symm⟩
    rw [← hzero]
  · rw [if_neg (by simp [hwriting, hzero])]
    have hfuel : (f.buf.take f.pos).length ≤ f.pos := by
      rw [List.length_take]
      exact Nat.min_le_left _ _
    obtain ⟨k', hrun, hbytes⟩ := flushLoop_spec split k hfuel
    exact ⟨k', by rw [hrun], hbytes⟩

/-- A buffer that may be full, flushed. -/
theorem puts_flush (hwriting : f'.writing = true) (hlength : f'.buf.length = f'.bufsiz)
    (hpos : 0 < f'.bufsiz)
    (hmode : f'.unbuffered = f.unbuffered) (hbytes : k'.bytes = k.bytes ++ f.pending ++ data) :
    Puts f k data { f' with pos := 0 } k' :=
  ⟨⟨hwriting, hlength, hpos⟩, hmode,
    by rw [File.pending, List.take_zero, List.append_nil, hbytes]⟩

theorem take_set_succ {buf : List UInt8} {pos : Nat} (c : UInt8) (hpos : pos < buf.length) :
    (buf.set pos c).take (pos + 1) = buf.take pos ++ [c] := by
  rw [List.take_succ_eq_append_getElem (by rw [List.length_set]; exact hpos),
    List.getElem_set_self,
    List.take_set_of_le (le_refl _)]

/-! ## The calls -/

/-- `fputc` on a stream with a buffer. -/
theorem Writable.fputc (h : Writable f) (split : Nat → Nat) (k : Output) (c : Int)
    (hmode : f.unbuffered = false) :
    ∃ f' k', Stdio.fputc split c f k = (true, f', k') ∧ Puts f k [toByte c] f' k' := by
  have hroom := h.room
  have htake : (f.buf.set f.pos (toByte c)).take (f.pos + 1) = f.pending ++ [toByte c] :=
    take_set_succ _ (by rw [h.length]; exact hroom)
  unfold Stdio.fputc
  rw [if_neg (by simp [h.writing]), if_neg (by simp [hmode])]
  dsimp only
  split_ifs with hflush
  · obtain ⟨k', hrun, hbytes⟩ := fflush_spec split k
      (f := { f with buf := f.buf.set f.pos (toByte c), pos := f.pos + 1 }) h.writing
    refine ⟨_, k', hrun, puts_flush h.writing (by rw [List.length_set]; exact h.length)
      (by dsimp only; omega) rfl ?_⟩
    rw [hbytes, List.append_assoc]
    exact congrArg (k.bytes ++ ·) htake
  · rw [not_or] at hflush
    refine ⟨_, k, rfl,
      ⟨h.writing, by rw [List.length_set]; exact h.length, Nat.lt_of_not_le hflush.1⟩, rfl, ?_⟩
    rw [List.append_assoc]
    exact congrArg (k.bytes ++ ·) htake

/-- `fputc` on a stream without one. -/
theorem fputc_unbuffered (split : Nat → Nat) (k : Output) (c : Int) (hwriting : f.writing = true)
    (hmode : f.unbuffered = true) :
    ∃ k', fputc split c f k = (true, f, k') ∧ k'.bytes = k.bytes ++ [toByte c] := by
  obtain ⟨n, k', hwrite, hle, hbytes⟩ := sysWrite_spec split k (List.cons_ne_nil (toByte c) [])
  rw [List.length_singleton] at hle
  obtain rfl : n = 0 := by omega
  refine ⟨k', ?_, hbytes⟩
  unfold Stdio.fputc
  rw [if_neg (by simp [hwriting]), if_pos hmode, hwrite]
  rfl

theorem toByte_toNat (c : UInt8) : toByte c.toNat = c := by
  have hlt := c.toNat_lt
  unfold toByte
  rw [show ((c.toNat : Int) % 256).toNat = c.toNat by omega]
  exact UInt8.ofNat_toNat

theorem Writable.fputs (h : Writable f) (split : Nat → Nat) (k : Output) (s : List UInt8)
    (hmode : f.unbuffered = false) :
    ∃ f' k', Stdio.fputs split s f k = ((s, true), f', k') ∧ Puts f k s f' k' := by
  induction s generalizing f k with
  | nil => exact ⟨f, k, rfl, Puts.refl h k⟩
  | cons c s ih =>
    obtain ⟨f₁, k₁, hput, hputs⟩ := h.fputc split k c.toNat hmode
    rw [toByte_toNat] at hputs
    obtain ⟨f', k', hrest, hputs'⟩ := ih hputs.writable k₁ (hputs.mode.trans hmode)
    exact ⟨f', k', by rw [Stdio.fputs, hput]; dsimp only; rw [hrest], hputs.trans hputs'⟩

theorem fputs_unbuffered (split : Nat → Nat) (k : Output) (s : List UInt8)
    (hwriting : f.writing = true)
    (hmode : f.unbuffered = true) :
    ∃ k', fputs split s f k = ((s, true), f, k') ∧ k'.bytes = k.bytes ++ s := by
  induction s generalizing k with
  | nil => exact ⟨k, rfl, (List.append_nil _).symm⟩
  | cons c s ih =>
    obtain ⟨k₁, hput, hbytes⟩ := fputc_unbuffered split k c.toNat hwriting hmode
    rw [toByte_toNat] at hbytes
    obtain ⟨k', hrest, hbytes'⟩ := ih k₁
    refine ⟨k', by rw [Stdio.fputs, hput]; dsimp only; rw [hrest], ?_⟩
    rw [hbytes', hbytes, List.append_assoc]
    rfl

theorem putBytes_take {buf : List UInt8} {pos : Nat} (hpos : pos ≤ buf.length) :
    (putBytes buf pos data).take (pos + data.length) = buf.take pos ++ data := by
  unfold putBytes
  rw [List.take_left' (by rw [List.length_append, List.length_take, Nat.min_eq_left hpos])]

theorem putBytes_length {buf : List UInt8} {pos : Nat} (hpos : pos + data.length ≤ buf.length) :
    (putBytes buf pos data).length = buf.length := by
  unfold putBytes
  rw [List.length_append, List.length_append, List.length_take, List.length_drop]
  omega

/-- `fwrite` takes all of its bytes, whatever the mode. -/
theorem Writable.fwriteLoop (h : Writable f) (split : Nat → Nat) (k : Output) (written : Nat)
    (hfuel : data.length ≤ fuel) :
    ∃ f' k', Stdio.fwriteLoop split fuel data written f k =
        ((written + data.length, true), f', k') ∧
      Puts f k data f' k' := by
  induction fuel generalizing f k data written with
  | zero =>
    obtain rfl := List.length_eq_zero_iff.mp (Nat.le_zero.mp hfuel)
    exact ⟨f, k, rfl, Puts.refl h k⟩
  | succ fuel ih =>
    rw [Stdio.fwriteLoop]
    split_ifs with hnil
    · rw [hnil]
      exact ⟨f, k, rfl, Puts.refl h k⟩
    · have hroom := h.room
      have hlen : 0 < data.length := List.length_pos_iff.mpr hnil
      generalize hchunk : min data.length (f.bufsiz - f.pos) = chunk
      have hfirst : (data.take chunk).length = chunk := by
        rw [List.length_take]
        omega
      have hrest : (data.drop chunk).length ≤ fuel := by
        rw [List.length_drop]
        omega
      have hbuf : (putBytes f.buf f.pos (data.take chunk)).length = f.bufsiz := by
        rw [putBytes_length (by rw [hfirst, h.length]; omega), h.length]
      have htake :
          (putBytes f.buf f.pos (data.take chunk)).take (f.pos + chunk) =
          f.pending ++ data.take chunk := by
        have hpos : f.pos ≤ f.buf.length := by
          rw [h.length]
          omega
        have hput : (putBytes f.buf f.pos (data.take chunk)).take
            (f.pos + (data.take chunk).length) = _ :=
          putBytes_take hpos
        rwa [hfirst] at hput
      have hwritten : written + chunk + (data.drop chunk).length = written + data.length := by
        rw [List.length_drop]
        omega
      obtain ⟨f₁, hf₁⟩ : ∃ f₁ : File,
          f₁ = { f with buf := putBytes f.buf f.pos (data.take chunk), pos := f.pos + chunk } :=
            ⟨_, rfl⟩
      have hwriting : f₁.writing = true := by rw [hf₁, h.writing]
      have hlength : f₁.buf.length = f₁.bufsiz := by rw [hf₁, hbuf]
      have hmode : f₁.unbuffered = f.unbuffered := by rw [hf₁]
      have hpending : f₁.pending = f.pending ++ data.take chunk :=
        by rw [hf₁, File.pending, htake]
      have hbufsiz : f₁.bufsiz = f.bufsiz := by rw [hf₁]
      have hpos : f₁.pos = f.pos + chunk := by rw [hf₁]
      dsimp only
      split_ifs with hfull
      · -- The buffer is full.
        rw [← hf₁]
        obtain ⟨k₁, hflush, hbytes⟩ := fflush_spec split k hwriting
        rw [hpending, ← List.append_assoc] at hbytes
        have hputs := puts_flush hwriting hlength (by omega) hmode hbytes
        obtain ⟨f', k', hrun, hputs'⟩ := ih hputs.writable k₁ (written + chunk) hrest
        refine ⟨f', k', by rw [hflush, ← hwritten]; exact hrun, ?_⟩
        have hall := hputs.trans hputs'
        rwa [List.take_append_drop] at hall
      · -- The data ends before the buffer does.
        rw [← hf₁]
        have hputs : Puts f k (data.take chunk) f₁ k :=
          ⟨⟨hwriting, hlength, by omega⟩, hmode, by rw [hpending, List.append_assoc]⟩
        obtain ⟨f', k', hrun, hputs'⟩ := ih hputs.writable k (written + chunk) hrest
        refine ⟨f', k', by rw [← hwritten]; exact hrun, ?_⟩
        have hall := hputs.trans hputs'
        rwa [List.take_append_drop] at hall

theorem Writable.fwrite (h : Writable f) (split : Nat → Nat) (k : Output) (ptr : Mem)
    (size nmemb : Nat) :
    ∃ f' k', Stdio.fwrite split ptr size nmemb f k =
        (((List.range (u64 (size * nmemb))).map ptr, nmemb), f', k') ∧
      Puts f k ((List.range (u64 (size * nmemb))).map ptr) f' k' := by
  unfold Stdio.fwrite
  rw [if_neg (by simp [h.writing])]
  generalize (List.range (u64 (size * nmemb))).map ptr = data
  obtain ⟨f', k', hrun, hputs⟩ := h.fwriteLoop split k 0 (le_refl data.length)
  refine ⟨f', k', ?_, hputs⟩
  dsimp only
  rw [hrun]
  simp

/-! ## Runs -/

/-- A call accepts its bytes.  They come after what waits, or, where the stream is
unbuffered and the call writes at once, before it. -/
theorem Writable.writeCall (h : Writable f) (split : Nat → Nat) (k : Output) (call : WriteCall) :
    ∃ data f' k', Stdio.writeCall split f k call = (data, f', k') ∧ Writable f' ∧
        f'.unbuffered = f.unbuffered ∧
      (k'.bytes ++ f'.pending = k.bytes ++ f.pending ++ data ∧
        (f.unbuffered = true → call.direct = []) ∨
        f.unbuffered = true ∧ data = call.direct ∧
          k'.bytes ++ f'.pending = k.bytes ++ data ++ f.pending) := by
  cases call with
  | fputc c =>
    rw [Stdio.writeCall]
    cases hmode : f.unbuffered with
    | false =>
      obtain ⟨f', k', hrun, hputs⟩ := h.fputc split k c hmode
      exact ⟨[toByte c], f', k', by rw [hrun]; rfl, hputs.writable, hputs.mode.trans hmode,
        Or.inl ⟨hputs.bytes, fun hfalse => absurd hfalse Bool.false_ne_true⟩⟩
    | true =>
      obtain ⟨k', hrun, hbytes⟩ := fputc_unbuffered split k c h.writing hmode
      exact ⟨[toByte c], f, k', by rw [hrun]; rfl, h, hmode, Or.inr ⟨rfl, rfl, by rw [hbytes]⟩⟩
  | fputs s =>
    rw [Stdio.writeCall]
    cases hmode : f.unbuffered with
    | false =>
      obtain ⟨f', k', hrun, hputs⟩ := h.fputs split k s hmode
      exact ⟨s, f', k', by rw [hrun], hputs.writable, hputs.mode.trans hmode,
        Or.inl ⟨hputs.bytes, fun hfalse => absurd hfalse Bool.false_ne_true⟩⟩
    | true =>
      obtain ⟨k', hrun, hbytes⟩ := fputs_unbuffered split k s h.writing hmode
      exact ⟨s, f, k', by rw [hrun], h, hmode, Or.inr ⟨rfl, rfl, by rw [hbytes]⟩⟩
  | fwrite ptr size nmemb =>
    obtain ⟨f', k', hrun, hputs⟩ := h.fwrite split k ptr size nmemb
    exact ⟨_, f', k',
      by rw [Stdio.writeCall, hrun], hputs.writable, hputs.mode,
      Or.inl ⟨hputs.bytes, fun _ => rfl⟩⟩
  | fflush =>
    obtain ⟨k', hrun, hbytes⟩ := fflush_spec split k h.writing
    have hroom := h.room
    have hputs : Puts f k [] { f with pos := 0 } k' :=
      puts_flush h.writing h.length (by omega) rfl (by rw [hbytes, List.append_nil])
    exact ⟨[], _, k',
      by rw [Stdio.writeCall, hrun], hputs.writable, hputs.mode,
      Or.inl ⟨hputs.bytes, fun _ => rfl⟩⟩

/-- The states of runs in which no call passes what waits. -/
def WriteInv (w : Writer) : Prop := Writable w.f ∧ KeepsOrder w

/-- The next state is in order exactly if the call does not pass what waits. -/
theorem WriteInv.step_iff {w w' : Writer} {call : WriteCall} (h : WriteInv w)
    (hstep : writeStep split w call = some w') :
    Writable w'.f ∧ (KeepsOrder w' ↔ NotOvertaking w call) := by
  obtain ⟨hwritable, horder⟩ := h
  unfold KeepsOrder at horder
  obtain ⟨data, f', k', hcall, hwritable', -, hcase⟩ := hwritable.writeCall split w.k call
  rw [writeStep, hcall] at hstep
  obtain rfl := Option.some.inj hstep
  refine ⟨hwritable', ?_⟩
  unfold KeepsOrder NotOvertaking
  dsimp only
  rcases hcase with ⟨hbytes, hdirect⟩ | ⟨hmode, rfl, hbytes⟩
  · rw [hbytes, horder]
    refine iff_of_true rfl fun hmode => ?_
    rw [hdirect hmode, List.append_nil, List.nil_append]
  · rw [hbytes, ← horder, List.append_assoc, List.append_assoc, List.append_cancel_left_eq]
    exact ⟨fun h _ => h.symm, fun h => (h hmode).symm⟩

/-- Every call sequence keeps the order of the bytes, in every mode, exactly if no `fputc` or
`fputs` on an unbuffered stream passes bytes that wait and differ from its own. -/
theorem keepsOrder_iff (split : Nat → Nat) {bufsiz : Nat} (hbufsiz : 0 < bufsiz)
    (unbuffered linebuf : Bool)
    (calls : List WriteCall) :
    (∀ w ∈ visited (writeStep split) (openedForWriting bufsiz unbuffered linebuf) calls,
      KeepsOrder w) ↔
      Guarded (writeStep split) NotOvertaking (openedForWriting bufsiz unbuffered linebuf)
        calls := by
  have hstart : WriteInv (openedForWriting bufsiz unbuffered linebuf) :=
    ⟨⟨rfl, List.length_replicate, hbufsiz⟩, rfl⟩
  refine visited_iff_guarded (fun _ h => h.2) ?_ ?_ hstart calls
  · intro w call w' h hguard hstep
    obtain ⟨hwritable, hiff⟩ := h.step_iff hstep
    exact ⟨hwritable, hiff.mpr hguard⟩
  · intro w call w' h hguard hstep hkeeps
    exact hguard ((h.step_iff hstep).2.mp hkeeps)

/-- `fwrite` and `fputs` on a stream with a buffer of four bytes. -/
theorem keepsOrder_iff_buffered :
    0 < 4 ∧ ((∀ w ∈ visited (writeStep fun _ => 1) (openedForWriting 4 false false)
        [.fwrite (fun _ => 65) 1 3, .fputs [66, 67]], KeepsOrder w) ↔
      Guarded (writeStep fun _ => 1) NotOvertaking (openedForWriting 4 false false)
        [.fwrite (fun _ => 65) 1 3, .fputs [66, 67]]) :=
  ⟨by decide, keepsOrder_iff (fun _ => 1) (by decide) false false
    [.fwrite (fun _ => 65) 1 3, .fputs [66, 67]]⟩

/-- An unbuffered stream: `fwrite` of `A`, then `fputc` of `B`, which is written first. -/
theorem unbuffered_not_keepsOrder :
    ¬ ∀ w ∈ visited (writeStep fun _ => 1) (openedForWriting 1024 true false)
        [.fwrite (fun _ => 65) 1 1, .fputc 66], KeepsOrder w := by
  intro h
  have hlast : ∃ w ∈ visited (writeStep fun _ => 1) (openedForWriting 1024 true false)
      [.fwrite (fun _ => 65) 1 1, .fputc 66], w.k.bytes ++ w.f.pending = [66, 65] ∧
        w.accepted = [65, 66] := by decide
  obtain ⟨w, hw, hbytes, haccepted⟩ := hlast
  have hkeeps : w.k.bytes ++ w.f.pending = w.accepted := h w hw
  rw [hbytes, haccepted] at hkeeps
  exact absurd hkeeps (by decide)

end Lumin.Libc.Stdio
