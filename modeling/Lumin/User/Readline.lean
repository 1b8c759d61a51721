import Lumin.Lib.Memory

/-!
# The line editor of the shell

`readline` of `user/shell.c`.  The line is edited in place in the buffer of the caller;
`history` and `hist_count` are static and stay from one call to the next.  A key arrives
as one byte or as an escape sequence, and the source has the code of each key twice, once
for either form.  Here a key has one definition and `turn` has the two forms.

One turn of the loop takes the bytes that it reads off the input.  The terminal output is
left out: no branch of the editor reads it back.
-/

namespace Lumin.User

open Lumin.Lib

def LINE_MAX : Nat := 256
def HISTORY_MAX : Nat := 64

/-- The buffer, the locals and the static variables of `readline`. -/
structure Editor where
  buf : Mem
  idx : Nat
  cursor : Nat
  saved : Mem
  browsing : Int
  history : Nat → Mem
  histCount : Nat

/-- The locals of a new call. -/
def Editor.newCall (e : Editor) : Editor := { e with idx := 0, cursor := 0, browsing := -1 }

/-! ## Loops over the buffer -/

/-- `buf[i - 1] = buf[i]` for `n` values of `i` upwards. -/
def moveLeft : Nat → Nat → Mem → Mem
  | _, 0, buf => buf
  | i, n + 1, buf => moveLeft (i + 1) n (setByte buf (i - 1) (buf i))

/-- `buf[i] = buf[i - 1]` for the `n` values of `i` above `cursor`, downwards. -/
def moveRight (cursor : Nat) : Nat → Mem → Mem
  | 0, buf => buf
  | n + 1, buf => moveRight cursor n (setByte buf (cursor + (n + 1)) (buf (cursor + n)))

/-- `while (h[idx] && idx < max - 1) { buf[idx] = h[idx]; idx++; }`, with `room` places left. -/
def recallLoop (h : Mem) : Nat → Nat → Mem → Mem × Nat
  | 0, idx, buf => (buf, idx)
  | room + 1, idx, buf => if h idx ≠ 0 then recallLoop h room (idx + 1) (setByte buf idx (h idx))
    else (buf, idx)

/-- The first `n` bytes of `src`, in `dst`. -/
def copyFirst (dst src : Mem) (n : Nat) : Mem := fun i => if i < n then src i else dst i

/-- The loop of `hist_strcmp`, from byte `i` on. -/
def strcmpLoop (a b : Mem) : Nat → Nat → Int
  | 0, i => (a i).toNat - (b i).toNat
  | fuel + 1, i =>
    if a i ≠ 0 ∧ b i ≠ 0 ∧ a i = b i then strcmpLoop a b fuel (i + 1)
      else (a i).toNat - (b i).toNat

/-- `hist_strcmp` of strings in arrays of `LINE_MAX` bytes. -/
def histStrcmp (a b : Mem) : Int := strcmpLoop a b LINE_MAX 0

/-! ## Keys -/

/-- Put a line of the history, or the saved one, into the buffer. -/
def Editor.recall (max : Nat) (e : Editor) (h : Mem) : Editor :=
  let r := recallLoop h (max - 1) 0 e.buf
  { e with buf := r.1, idx := r.2, cursor := r.2 }

/-- Copy the line to `saved`. -/
def Editor.saveLine (e : Editor) : Editor :=
  { e with saved := setByte (copyFirst e.saved e.buf (min e.idx (LINE_MAX - 1))) e.idx 0 }

/-- `0x80` and `ESC [ A`. -/
def keyUp (max : Nat) (e : Editor) : Editor :=
  if e.histCount = 0 then e
  else if e.browsing = -1 then
    let e := { e.saveLine with browsing := (e.histCount : Int) - 1 }
    e.recall max (e.history e.browsing.toNat)
  else if e.browsing > 0 then
    let e := { e with browsing := e.browsing - 1 }
    e.recall max (e.history e.browsing.toNat)
  else e

/-- `0x81` and `ESC [ B`. -/
def keyDown (max : Nat) (e : Editor) : Editor :=
  if e.browsing = -1 then e
  else if e.browsing < (e.histCount : Int) - 1 then
    let e := { e with browsing := e.browsing + 1 }
    e.recall max (e.history e.browsing.toNat)
  else
    let e := { e with browsing := -1 }
    e.recall max e.saved

/-- `0x82` and `ESC [ D`. -/
def keyLeft (e : Editor) : Editor := if e.cursor > 0 then { e with cursor := e.cursor - 1 } else e

/-- `0x83` and `ESC [ C`. -/
def keyRight (e : Editor) : Editor :=
  if e.cursor < e.idx then { e with cursor := e.cursor + 1 } else e

/-- `0x84` and `ESC [ H`. -/
def keyHome (e : Editor) : Editor := { e with cursor := 0 }

/-- `0x85` and `ESC [ F`. -/
def keyEnd (e : Editor) : Editor := { e with cursor := e.idx }

/-- `0x86` and `ESC [ 3 ~`. -/
def keyDelete (e : Editor) : Editor :=
  if e.cursor < e.idx then
    { e with buf := moveLeft (e.cursor + 1) (e.idx - e.cursor) e.buf, idx := e.idx - 1 }
  else e

/-- `'\b'` and 127. -/
def keyBackspace (e : Editor) : Editor :=
  if e.cursor > 0 then
    { e with buf := moveLeft e.cursor (e.idx - e.cursor) e.buf, idx := e.idx - 1,
             cursor := e.cursor - 1 }
  else e

/-- Any other byte from 32 on. -/
def insertByte (max : Nat) (c : UInt8) (e : Editor) : Editor :=
  if e.idx < max - 1 then
    { e with
      buf := setByte (moveRight e.cursor (e.idx - e.cursor) e.buf) e.cursor c
      idx := e.idx + 1
      cursor := e.cursor + 1 }
  else e

/-- The lines of a full history, moved down by one. -/
def shiftHistory (history : Nat → Mem) : Nat → Mem := fun r =>
  if r + 1 < HISTORY_MAX then copyFirst (history r) (history (r + 1)) LINE_MAX else history r

/-- The line goes into the history, after its oldest line has gone where that is full. -/
def Editor.pushHistory (e : Editor) : Editor :=
  let e := if e.histCount = HISTORY_MAX then
    { e with history := shiftHistory e.history, histCount := e.histCount - 1 } else e
  let n := min e.idx (LINE_MAX - 1)
  let line := setByte (copyFirst (e.history e.histCount) e.buf n) n 0
  { e with history := fun r => if r = e.histCount then line else e.history r,
           histCount := e.histCount + 1 }

/-- `'\n'`, up to `return idx`. -/
def keyNewline (e : Editor) : Editor :=
  let e := { e with buf := setByte e.buf e.idx 0 }
  if e.idx > 0 ∧ (e.histCount = 0 ∨ histStrcmp (e.history (e.histCount - 1)) e.buf ≠ 0)
    then e.pushHistory else e

/-! ## The loop -/

/-- One turn of the loop: it goes on, it returns, or it waits for a byte that has not come
yet. -/
inductive Turn where
  | next (e : Editor) (rest : List UInt8)
  | returned (value : Nat) (e : Editor) (rest : List UInt8)
  | waits

def isLetter (d : UInt8) : Bool := (65 ≤ d && d ≤ 90) || (97 ≤ d && d ≤ 122)

/-- Read up to the end of an unknown escape sequence. -/
def drain (e : Editor) : List UInt8 → Turn
  | [] => .waits
  | d :: rest => if isLetter d || d == 126 then .next e rest else drain e rest

/-- The keys from `0x80` on. -/
def byteKey (max : Nat) (c : UInt8) (e : Editor) : Editor :=
  if c = 0x80 then keyUp max e
  else if c = 0x81 then keyDown max e
  else if c = 0x82 then keyLeft e
  else if c = 0x83 then keyRight e
  else if c = 0x84 then keyHome e
  else if c = 0x85 then keyEnd e
  else if c = 0x86 then keyDelete e
  else e

/-- After `ESC`. -/
def escape (max : Nat) (e : Editor) : List UInt8 → Turn
  | 91 :: c :: rest =>
    if c = 65 then .next (keyUp max e) rest
    else if c = 66 then .next (keyDown max e) rest
    else if c = 67 then .next (keyRight e) rest
    else if c = 68 then .next (keyLeft e) rest
    else if c = 72 then .next (keyHome e) rest
    else if c = 70 then .next (keyEnd e) rest
    else if c = 51 then
      match rest with
      | [] => .waits
      | tilde :: rest => .next (if tilde = 126 then keyDelete e else e) rest
    else drain e rest
  | _ :: d :: rest => if isLetter d then .next e rest else drain e rest
  | _ => .waits

def turn (max : Nat) (e : Editor) : List UInt8 → Turn
  | [] => .waits
  | c :: rest =>
    if c = 10 then .returned e.idx (keyNewline e) rest
    else if c ≥ 0x80 then .next (byteKey max c e) rest
    else if c = 0x1B then escape max e rest
    else if c = 8 ∨ c = 127 then .next (keyBackspace e) rest
    else if c < 32 then .next e rest
    else .next (insertByte max c e) rest

/-- Successive calls of `readline(buf, max)`: what they return, with the buffer, and the
editor where the input ends.  Each turn reads a byte at least. -/
def readlines (max : Nat) : Nat → Editor → List UInt8 → List (Nat × Mem) × Editor × List UInt8
  | 0, e, input => ([], e, input)
  | fuel + 1, e, input =>
    match turn max e input with
    | .waits => ([], e, input)
    | .next e rest => readlines max fuel e rest
    | .returned value e rest =>
      match readlines max fuel e.newCall rest with
      | (returns, e', rest') => ((value, e.buf) :: returns, e', rest')

end Lumin.User
