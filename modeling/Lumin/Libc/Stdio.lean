import Lumin.Lib.Memory
import Lumin.Lib.Word

/-!
# Streams

`FILE` of `libc/include/stdio.h` and the entry points of `libc/src/stdio` that move bytes:
`fgetc`, `fgets`, `fread`, `fputc`, `fputs`, `fwrite` and `fflush`.

The kernel is what the system calls answer.  `read` gives the next bytes of a file, as
many as `split` says, but at least one before the end and none at the end.  `write` takes
as many of the bytes that it is offered as `split` says, but at least one.
-/

namespace Lumin.Libc.Stdio

open Lumin.Lib

/-- `struct _FILE`.  `buf` is the array of `bufsiz` bytes, and the flags are one field
each. -/
structure File where
  buf : List UInt8
  bufsiz : Nat
  pos : Nat
  len : Nat
  reading : Bool
  writing : Bool
  eof : Bool
  error : Bool
  unbuffered : Bool
  linebuf : Bool
  /-- `last_ungetc`, if `has_ungetc` is set. -/
  ungot : Option UInt8
  deriving DecidableEq, Repr

/-! ## Reading -/

/-- An open file: what is in it, the position of the descriptor, and the number of calls
of `read` so far. -/
structure Input where
  content : List UInt8
  offset : Nat
  reads : Nat
  deriving DecidableEq, Repr

/-- `read`; `none` is a negative return value. -/
def sysRead (split : Nat → Nat) (k : Input) (count : Nat) : Option (List UInt8) × Input :=
  let n := min (max 1 (split k.reads)) (min count (k.content.length - k.offset))
  (some ((k.content.drop k.offset).take n),
    { k with offset := k.offset + n, reads := k.reads + 1 })

/-- The code of `fgetc` and `fread` for an empty buffer; `false` where they give up. -/
def refill (split : Nat → Nat) (f : File) (k : Input) : Bool × File × Input :=
  match sysRead split k f.bufsiz with
  | (none, k) => (false, { f with pos := 0, error := true }, k)
  | (some [], k) => (false, { f with pos := 0, eof := true }, k)
  | (some (b :: data), k) =>
    (true, { f with pos := 0, len := data.length + 1,
                    buf := b :: data ++ f.buf.drop (data.length + 1) }, k)

/-- There is a byte in the buffer, after a refill where needed. -/
def ready (split : Nat → Nat) (f : File) (k : Input) : Bool × File × Input :=
  if f.pos ≥ f.len then
    if f.eof then (false, f, k) else refill split f k
  else (true, f, k)

/-- `fgetc`; `none` is `EOF`. -/
def fgetc (split : Nat → Nat) (f : File) (k : Input) : Option UInt8 × File × Input :=
  if f.reading = false then (none, f, k)
  else
    match f.ungot with
    | some c => (some c, { f with ungot := none }, k)
    | none =>
      match ready split f k with
      | (false, f, k) => (none, f, k)
      | (true, f, k) => (some (f.buf.getD f.pos 0), { f with pos := f.pos + 1 }, k)

/-- The loop of `fgets` for `m` bytes more: what is in `s`, and whether `EOF` ended it. -/
def fgetsLoop (split : Nat → Nat) :
    Nat → List UInt8 → File → Input → (List UInt8 × Bool) × File × Input
  | 0, s, f, k => ((s, false), f, k)
  | m + 1, s, f, k =>
    match fgetc split f k with
    | (none, f, k) => ((s, true), f, k)
    | (some c, f, k) => if c = 10 then ((s ++ [c], false), f, k)
      else fgetsLoop split m (s ++ [c]) f k

/-- `fgets`; `none` is `NULL`. -/
def fgets (split : Nat → Nat) (n : Int) (f : File) (k : Input) :
    Option (List UInt8) × File × Input :=
  if n ≤ 0 then (none, f, k)
  else
    match fgetsLoop split (n - 1).toNat [] f k with
    | ((s, sawEof), f, k) => (if sawEof && s.isEmpty then none else some s, f, k)

/-- The loop of `fread` for `left` bytes more.  Each turn of it but the last copies a byte
at least, so that `left` turns are enough. -/
def freadLoop (split : Nat → Nat) : Nat → Nat → List UInt8 → File → Input →
    List UInt8 × File × Input
  | 0, _, p, f, k => (p, f, k)
  | fuel + 1, left, p, f, k =>
    if left = 0 then (p, f, k)
    else
      match ready split f k with
      | (false, f, k) => (p, f, k)
      | (true, f, k) =>
        let chunk := min left (f.len - f.pos)
        freadLoop split fuel (left - chunk) (p ++ (f.buf.drop f.pos).take chunk)
          { f with pos := f.pos + chunk } k

/-- `fread`: the bytes that go to `ptr`, and the return value. -/
def fread (split : Nat → Nat) (size nmemb : Nat) (f : File) (k : Input) :
    (List UInt8 × Nat) × File × Input :=
  if f.reading = false then (([], 0), f, k)
  else
    let total := u64 (size * nmemb)
    match freadLoop split total total [] f k with
    | (p, f, k) => ((p, if size > 0 then p.length / size else 0), f, k)

/-! ## Writing -/

/-- What `write` has taken so far, and how often it was called. -/
structure Output where
  bytes : List UInt8
  writes : Nat
  deriving DecidableEq, Repr

/-- `write`: how many of the bytes it takes. -/
def sysWrite (split : Nat → Nat) (k : Output) (data : List UInt8) : Nat × Output :=
  let n := min (max 1 (split k.writes)) data.length
  (n, { bytes := k.bytes ++ data.take n, writes := k.writes + 1 })

/-- The loop of `fflush`.  Each turn of it takes a byte at least. -/
def flushLoop (split : Nat → Nat) : Nat → List UInt8 → Output → Bool × Output
  | 0, data, k => (data.isEmpty, k)
  | fuel + 1, data, k =>
    if data = [] then (true, k)
    else
      match sysWrite split k data with
      | (0, k) => (false, k)
      | (n + 1, k) => flushLoop split fuel (data.drop (n + 1)) k

/-- `fflush`; `false` is `EOF`. -/
def fflush (split : Nat → Nat) (f : File) (k : Output) : Bool × File × Output :=
  if f.writing = false ∨ f.pos = 0 then (true, f, k)
  else
    match flushLoop split f.pos (f.buf.take f.pos) k with
    | (false, k) => (false, { f with error := true }, k)
    | (true, k) => (true, { f with pos := 0 }, k)

/-- `(unsigned char)c`. -/
def toByte (c : Int) : UInt8 := UInt8.ofNat (c % 256).toNat

/-- `fputc`; `false` is `EOF`. -/
def fputc (split : Nat → Nat) (c : Int) (f : File) (k : Output) : Bool × File × Output :=
  if f.writing = false then (false, f, k)
  else if f.unbuffered then
    match sysWrite split k [toByte c] with
    | (n, k) => if n ≠ 1 then (false, { f with error := true }, k) else (true, f, k)
  else
    let f := { f with buf := f.buf.set f.pos (toByte c), pos := f.pos + 1 }
    if f.pos ≥ f.bufsiz ∨ (f.linebuf = true ∧ c = 10) then fflush split f k else (true, f, k)

/-- `fputs`: the bytes that it put, and `false` for `EOF`. -/
def fputs (split : Nat → Nat) : List UInt8 → File → Output → (List UInt8 × Bool) × File × Output
  | [], f, k => (([], true), f, k)
  | c :: s, f, k =>
    match fputc split c.toNat f k with
    | (false, f, k) => (([], false), f, k)
    | (true, f, k) =>
      match fputs split s f k with
      | ((done, ok), f, k) => ((c :: done, ok), f, k)

/-- The copying loop of `fwrite`: `data` goes into the buffer from `pos` on. -/
def putBytes (buf : List UInt8) (pos : Nat) (data : List UInt8) : List UInt8 :=
  buf.take pos ++ data ++ buf.drop (pos + data.length)

/-- The loop of `fwrite` for `data`.  A turn of it that does not end it fills the buffer, so
that `data.length` turns are enough.  The result is the number of bytes that were copied
and whether a flush failed. -/
def fwriteLoop (split : Nat → Nat) : Nat → List UInt8 → Nat → File → Output →
    (Nat × Bool) × File × Output
  | 0, _, written, f, k => ((written, true), f, k)
  | fuel + 1, data, written, f, k =>
    if data = [] then ((written, true), f, k)
    else
      let chunk := min data.length (f.bufsiz - f.pos)
      let f := { f with buf := putBytes f.buf f.pos (data.take chunk), pos := f.pos + chunk }
      if f.pos ≥ f.bufsiz then
        match fflush split f k with
        | (false, f, k) => ((written + chunk, false), f, k)
        | (true, f, k) => fwriteLoop split fuel (data.drop chunk) (written + chunk) f k
      else fwriteLoop split fuel (data.drop chunk) (written + chunk) f k

/-- `fwrite` of the bytes at `ptr`: the bytes that it accepted, and the return value. -/
def fwrite (split : Nat → Nat) (ptr : Mem) (size nmemb : Nat) (f : File) (k : Output) :
    (List UInt8 × Nat) × File × Output :=
  if f.writing = false then (([], 0), f, k)
  else
    let data := (List.range (u64 (size * nmemb))).map ptr
    match fwriteLoop split data.length data 0 f k with
    | ((written, ok), f, k) =>
      ((data.take written, if ok then nmemb else if size > 0 then written / size else 0), f, k)

end Lumin.Libc.Stdio
