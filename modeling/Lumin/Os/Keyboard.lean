import Lumin.Lib.Ring

/-!
# The key queue

A model of the keyboard driver `os/keyboard.c` up to the line editor.  An interrupt reads
one scancode, and `decode` says what it does to the flags and which character it puts on
the queue.  The serial bytes that `keyboard_readline` fetches go on the same queue, and
`keyboard_dequeue` and `keyboard_readline` take characters off it.

* `KeyInv` is the invariant: the accepted characters are those taken followed by a queue
  that the ring holds.
* `keyQueue_fifo` is the result for every interleaving.
-/

namespace Lumin.Os

open Lumin.Lib

def KEYBUF_SIZE : Nat := 256

def KEY_UP : UInt8 := 0x80
def KEY_DOWN : UInt8 := 0x81
def KEY_LEFT : UInt8 := 0x82
def KEY_RIGHT : UInt8 := 0x83
def KEY_HOME : UInt8 := 0x84
def KEY_END : UInt8 := 0x85
def KEY_DEL : UInt8 := 0x86

/-! ## Scancodes -/

structure Flags where
  shift_pressed : Bool
  ctrl_pressed : Bool
  caps_locked : Bool
  extended : Bool
  deriving DecidableEq, Repr

/-- `keymap`, up to its last key.  The other places are zero. -/
def keymap : List UInt8 :=
  -- `1234567890-=`
  [0, 0, 49, 50, 51, 52, 53, 54, 55, 56, 57, 48, 45, 61, 0, 0,
  -- `qwertyuiop[]`, newline, `as`
   113, 119, 101, 114, 116, 121, 117, 105, 111, 112, 91, 93, 10, 0, 97, 115,
  -- `dfghjkl;'`, grave accent, `\zxcv`
   100, 102, 103, 104, 106, 107, 108, 59, 39, 96, 0, 92, 122, 120, 99, 118,
  -- `bnm,./`, `*`, space
   98, 110, 109, 44, 46, 47, 0, 42, 0, 32]

/-- `keymap_shift`, up to its last key. -/
def keymap_shift : List UInt8 :=
  -- `!@#$%^&*()_+`
  [0, 0, 33, 64, 35, 36, 37, 94, 38, 42, 40, 41, 95, 43, 0, 0,
  -- `QWERTYUIOP{}`, `AS`
   81, 87, 69, 82, 84, 89, 85, 73, 79, 80, 123, 125, 0, 0, 65, 83,
  -- `DFGHJKL:"~`, `|ZXCV`
   68, 70, 71, 72, 74, 75, 76, 58, 34, 126, 0, 124, 90, 88, 67, 86,
  -- `BNM<>?`
   66, 78, 77, 60, 62, 63]

/-- `special`, for the byte after a prefix. -/
def special (scancode : UInt8) : UInt8 :=
  if scancode = 0x48 then KEY_UP
  else if scancode = 0x50 then KEY_DOWN
  else if scancode = 0x4B then KEY_LEFT
  else if scancode = 0x4D then KEY_RIGHT
  else if scancode = 0x47 then KEY_HOME
  else if scancode = 0x4F then KEY_END
  else if scancode = 0x53 then KEY_DEL
  else 0

/-- `upper`. -/
def upper (f : Flags) (scancode : UInt8) : Bool :=
  if f.caps_locked ∧ 0x10 ≤ scancode ∧ scancode ≤ 0x32 then
    if (0x10 ≤ scancode ∧ scancode ≤ 0x19) ∨ (0x1E ≤ scancode ∧ scancode ≤ 0x26) ∨
        (0x2C ≤ scancode ∧ scancode ≤ 0x32) then !f.shift_pressed
    else f.shift_pressed
  else f.shift_pressed

/-- The character of a key without a prefix. -/
def keyChar (f : Flags) (scancode : UInt8) : UInt8 :=
  let c := (if upper f scancode then keymap_shift else keymap).getD scancode.toNat 0
  let c := if f.ctrl_pressed ∧ 97 ≤ c ∧ c ≤ 122 then c &&& 0x1F else c
  if f.ctrl_pressed ∧ 65 ≤ c ∧ c ≤ 90 then c &&& 0x1F else c

/-- The part of `keyboard_handler` before the queue: the flags, and the character for the queue.
-/
def decode (f : Flags) (scancode : UInt8) : Flags × Option UInt8 :=
  if scancode = 0x2A ∨ scancode = 0x36 then ({ f with shift_pressed := true }, none)
  else if scancode = 0xAA ∨ scancode = 0xB6 then ({ f with shift_pressed := false }, none)
  else if scancode = 0x1D then ({ f with ctrl_pressed := true }, none)
  else if scancode = 0x9D then ({ f with ctrl_pressed := false }, none)
  else if scancode = 0x3A then ({ f with caps_locked := !f.caps_locked }, none)
  else if scancode = 0xE0 then ({ f with extended := true }, none)
  else if f.extended then
    let f := { f with extended := false }
    if scancode &&& 0x80 ≠ 0 then (f, none)
    else if special scancode = 0 then (f, none)
    else (f, some (special scancode))
  else if scancode &&& 0x80 ≠ 0 then (f, none)
  else if scancode = 0x0E then (f, some 8)
  else if keyChar f scancode = 0 then (f, none)
  else (f, some (keyChar f scancode))

/-! ## The ring -/

structure KeyQueue where
  keybuf : Nat → UInt8
  keybuf_head : Nat
  keybuf_tail : Nat

/-- The code that each of the three producers has: store `c`, or drop it when the queue is full.
-/
def enqueue (q : KeyQueue) (c : UInt8) : Option KeyQueue :=
  let next := (q.keybuf_head + 1) &&& (KEYBUF_SIZE - 1)
  if next ≠ q.keybuf_tail then
    some { q with keybuf := fun i => if i = q.keybuf_head then c else q.keybuf i,
                  keybuf_head := next }
  else none

/-- `keyboard_avail`. -/
def keyboard_avail (q : KeyQueue) : Bool := q.keybuf_tail ≠ q.keybuf_head

/-- `keyboard_dequeue`. -/
def keyboard_dequeue (q : KeyQueue) : Int × KeyQueue :=
  if q.keybuf_tail = q.keybuf_head then (-1, q)
  else
    ((q.keybuf q.keybuf_tail).toNat,
      { q with keybuf_tail := (q.keybuf_tail + 1) &&& (KEYBUF_SIZE - 1) })

/-- A turn of the loop of `keyboard_readline` over the queue: the character, if there is one. -/
def readlineTake (q : KeyQueue) : Option UInt8 × KeyQueue :=
  if q.keybuf_tail ≠ q.keybuf_head then
    (some (q.keybuf q.keybuf_tail),
      { q with keybuf_tail := (q.keybuf_tail + 1) &&& (KEYBUF_SIZE - 1) })
  else (none, q)

/-- `keyboard_init`. -/
def keyboard_init (q : KeyQueue) : KeyQueue := { q with keybuf_head := 0, keybuf_tail := 0 }

/-- The driver, with the characters that its queue took in and gave out. -/
structure Keyboard where
  flags : Flags
  queue : KeyQueue
  accepted : List UInt8
  dequeued : List UInt8

/-- What happens to the driver.  `serial c` is a turn of the loop that fetches serial bytes. -/
inductive KeyOp where
  | handler (scancode : UInt8)
  | serial (c : UInt8)
  | dequeue
  | take
  | avail

/-- The character that an operation wants to put on the queue. -/
def offered (k : Keyboard) : KeyOp → Option UInt8
  | .handler scancode => (decode k.flags scancode).2
  | .serial c => some c
  | _ => none

/-- A character for the queue. -/
def put (k : Keyboard) (c : UInt8) : Keyboard :=
  match enqueue k.queue c with
  | some q => { k with queue := q, accepted := k.accepted ++ [c] }
  | none => k

/-- `keyboard_handler`. -/
def keyboard_handler (k : Keyboard) (scancode : UInt8) : Keyboard :=
  let k' := { k with flags := (decode k.flags scancode).1 }
  match (decode k.flags scancode).2 with
  | none => k'
  | some c => put k' c

def keyStep (k : Keyboard) : KeyOp → Keyboard
  | .handler scancode => keyboard_handler k scancode
  | .serial c => put k c
  | .dequeue =>
    let r := keyboard_dequeue k.queue
    { k with queue := r.2,
             dequeued := if r.1 < 0 then k.dequeued else k.dequeued ++ [UInt8.ofNat r.1.toNat] }
  | .take =>
    let r := readlineTake k.queue
    { k with queue := r.2, dequeued := k.dequeued ++ r.1.toList }
  | .avail => k

/-- The driver after `keyboard_init`. -/
def keyStart (f : Flags) (q : KeyQueue) : Keyboard :=
  { flags := f, queue := keyboard_init q, accepted := [], dequeued := [] }

/-- The characters in the ring, from the tail to the head. -/
def queued (q : KeyQueue) : List UInt8 :=
  (List.range ((q.keybuf_head + KEYBUF_SIZE - q.keybuf_tail) % KEYBUF_SIZE)).map fun i =>
    q.keybuf ((q.keybuf_tail + i) % KEYBUF_SIZE)

/-! ## The invariant -/

/-- The characters accepted are those taken and the queue in the ring. -/
structure KeyInv (k : Keyboard) : Prop where
  queue : ∃ l, k.accepted = k.dequeued ++ l ∧ l.length < KEYBUF_SIZE ∧
    Ring.Holds KEYBUF_SIZE k.queue.keybuf k.dequeued.length l
  head : k.queue.keybuf_head = k.accepted.length % KEYBUF_SIZE
  tail : k.queue.keybuf_tail = k.dequeued.length % KEYBUF_SIZE

variable {k : Keyboard} {l : List UInt8} {c : UInt8}

theorem next_eq (n : Nat) : (n + 1) &&& (KEYBUF_SIZE - 1) = (n + 1) % KEYBUF_SIZE :=
  Nat.and_two_pow_sub_one_eq_mod (n + 1) 8

theorem keyInv_start (f : Flags) (q : KeyQueue) : KeyInv (keyStart f q) where
  queue := ⟨[], rfl, by decide, Ring.holds_nil _ _ _⟩
  head := rfl
  tail := rfl

/-- The ring holds what has been accepted and not taken. -/
theorem KeyInv.queued_spec (h : KeyInv k) : k.accepted = k.dequeued ++ queued k.queue ∧
    (queued k.queue).length < KEYBUF_SIZE ∧
      Ring.Holds KEYBUF_SIZE k.queue.keybuf k.dequeued.length (queued k.queue) := by
  obtain ⟨l, hl, hlength, hholds⟩ := h.queue
  have hcount :
      (k.queue.keybuf_head + KEYBUF_SIZE - k.queue.keybuf_tail) % KEYBUF_SIZE = l.length := by
    rw [h.head, h.tail, hl, List.length_append]
    unfold KEYBUF_SIZE at hlength ⊢
    omega
  have hqueued : queued k.queue = l := by
    unfold queued
    rw [hcount]
    apply List.ext_getElem
    · rw [List.length_map, List.length_range]
    · intro i hi hi'
      rw [List.getElem_map, List.getElem_range, h.tail, Nat.mod_add_mod]
      exact hholds i l[i] (List.getElem?_eq_getElem hi')
  rw [hqueued]
  exact ⟨hl, hlength, hholds⟩

/-- The queue is full exactly when it has 255 characters. -/
theorem KeyInv.full_iff (h : KeyInv k) :
    (k.queue.keybuf_head + 1) &&& (KEYBUF_SIZE - 1) = k.queue.keybuf_tail ↔
      (queued k.queue).length = 255 := by
  obtain ⟨hl, hlength, -⟩ := h.queued_spec
  rw [next_eq, h.head, h.tail, hl, List.length_append]
  unfold KEYBUF_SIZE at hlength ⊢
  omega

/-- The head meets the tail exactly when the queue is empty. -/
theorem KeyInv.empty_iff (h : KeyInv k) : k.queue.keybuf_tail = k.queue.keybuf_head ↔
    queued k.queue = [] := by
  obtain ⟨hl, hlength, -⟩ := h.queued_spec
  rw [← List.length_eq_zero_iff, h.head, h.tail, hl, List.length_append]
  unfold KEYBUF_SIZE at hlength ⊢
  omega

/-! ## One operation -/

theorem put_full (h : KeyInv k) (hfull : (queued k.queue).length = 255) (c : UInt8) :
    put k c = k := by
  have hnext := h.full_iff.mpr hfull
  simp only [put, enqueue, hnext, ne_eq, not_true, if_false]

theorem put_accepts (h : KeyInv k) (hroom : (queued k.queue).length < 255) (c : UInt8) :
    KeyInv (put k c) ∧ (put k c).accepted = k.accepted ++ [c] := by
  obtain ⟨hl, hlength, hholds⟩ := h.queued_spec
  have hnext : ¬ (k.queue.keybuf_head + 1) &&& (KEYBUF_SIZE - 1) = k.queue.keybuf_tail :=
    fun heq => by
    have := h.full_iff.mp heq
    omega
  have hhead :
      k.queue.keybuf_head = (k.dequeued.length + (queued k.queue).length) % KEYBUF_SIZE := by
    rw [h.head, hl, List.length_append]
  simp only [put, enqueue, hnext, ne_eq, not_false_eq_true, if_true]
  refine ⟨⟨⟨queued k.queue ++ [c], ?_, ?_, ?_⟩, ?_, h.tail⟩, trivial⟩
  · rw [← List.append_assoc, ← hl]
  · rw [List.length_append, List.length_singleton]
    unfold KEYBUF_SIZE
    omega
  · rw [hhead]
    exact hholds.push hlength c
  · dsimp only
    rw [next_eq, h.head, List.length_append, List.length_singleton, Nat.mod_add_mod]

/-- A character is put on the queue unless 255 are on it. -/
theorem put_spec (h : KeyInv k) (c : UInt8) :
    KeyInv (put k c) ∧
      (put k c).accepted = k.accepted ++ if (queued k.queue).length < 255 then [c] else [] := by
  by_cases hroom : (queued k.queue).length < 255
  · rw [if_pos hroom]
    exact put_accepts h hroom c
  · obtain ⟨-, hlength, -⟩ := h.queued_spec
    unfold KEYBUF_SIZE at hlength
    rw [if_neg hroom, List.append_nil, put_full h (by omega)]
    exact ⟨h, rfl⟩

/-- Taking a character off a queue that has one. -/
theorem take_keeps (h : KeyInv k) (hne : ¬ k.queue.keybuf_tail = k.queue.keybuf_head) :
    KeyInv { k with
      queue := { k.queue with keybuf_tail := (k.queue.keybuf_tail + 1) &&& (KEYBUF_SIZE - 1) }
      dequeued := k.dequeued ++ [k.queue.keybuf k.queue.keybuf_tail] } := by
  obtain ⟨hl, hlength, hholds⟩ := h.queued_spec
  obtain ⟨c, l, hcons⟩ := List.exists_cons_of_ne_nil fun hnil => hne (h.empty_iff.mpr hnil)
  rw [hcons] at hl hlength hholds
  obtain ⟨hfirst, hrest⟩ := hholds.pop
  rw [← h.tail] at hfirst
  refine ⟨⟨l, ?_, ?_, ?_⟩, h.head, ?_⟩
  · dsimp only
    rw [hfirst, hl, List.append_assoc, List.singleton_append]
  · rw [List.length_cons] at hlength
    omega
  · dsimp only
    rw [List.length_append, List.length_singleton]
    exact hrest
  · dsimp only
    rw [next_eq, h.tail, List.length_append, List.length_singleton, Nat.mod_add_mod]

/-- What one operation does. -/
theorem keyStep_spec (h : KeyInv k) (o : KeyOp) :
    KeyInv (keyStep k o) ∧
      (keyStep k o).accepted = k.accepted ++ if (queued k.queue).length < 255
        then (offered k o).toList else [] := by
  cases o with
  | handler scancode =>
    have hflags : KeyInv { k with flags := (decode k.flags scancode).1 } :=
      ⟨h.queue, h.head, h.tail⟩
    show KeyInv (keyboard_handler k scancode) ∧ (keyboard_handler k scancode).accepted =
      k.accepted ++ if (queued k.queue).length < 255 then (decode k.flags scancode).2.toList
        else []
    unfold keyboard_handler
    cases (decode k.flags scancode).2 with
    | none => exact ⟨hflags, by simp⟩
    | some c => exact put_spec hflags c
  | serial c => exact put_spec h c
  | dequeue =>
    unfold keyStep offered keyboard_dequeue
    by_cases hempty : k.queue.keybuf_tail = k.queue.keybuf_head
    · simp only [if_pos hempty]
      exact ⟨h, by simp⟩
    · have hchar : ¬ ((k.queue.keybuf k.queue.keybuf_tail).toNat : Int) < 0 := by omega
      simp only [if_neg hempty, if_neg hchar, Int.toNat_natCast, UInt8.ofNat_toNat]
      exact ⟨take_keeps h hempty, by simp⟩
  | take =>
    unfold keyStep offered readlineTake
    by_cases hempty : k.queue.keybuf_tail = k.queue.keybuf_head
    · simp only [ne_eq, hempty, not_true, if_false, Option.toList_none, List.append_nil, ite_self]
      exact ⟨h, trivial⟩
    · simp only [ne_eq, hempty, not_false_eq_true, if_true, Option.toList_some]
      exact ⟨take_keeps h hempty, by simp⟩
  | avail => exact ⟨h, by simp [keyStep, offered]⟩

/-! ## All operations -/

theorem keyInv_run (h : KeyInv k) (os : List KeyOp) : KeyInv (os.foldl keyStep k) := by
  induction os generalizing k with
  | nil => exact h
  | cons o os ih => exact ih (keyStep_spec h o).1

/-- Every interleaving leaves a queue of at most 255 characters that lost none of those accepted.
-/
theorem keyQueue_fifo (f : Flags) (q : KeyQueue) (os : List KeyOp) :
    let k := os.foldl keyStep (keyStart f q)
    k.queue.keybuf_head < KEYBUF_SIZE ∧ k.queue.keybuf_tail < KEYBUF_SIZE ∧
      (queued k.queue).length ≤ 255 ∧
      k.dequeued ++ queued k.queue = k.accepted ∧
      (∀ o, (keyStep k o).accepted =
        k.accepted ++ if (queued k.queue).length = 255 then [] else (offered k o).toList) ∧
      (keyboard_avail k.queue = true ↔ queued k.queue ≠ []) := by
  intro k
  have h : KeyInv k := keyInv_run (keyInv_start f q) os
  obtain ⟨hl, hlength, -⟩ := h.queued_spec
  have hcap : (queued k.queue).length ≤ 255 := Nat.le_of_lt_succ hlength
  refine ⟨?_, ?_, hcap, hl.symm, ?_, ?_⟩
  · rw [h.head]
    exact Nat.mod_lt _ (by decide)
  · rw [h.tail]
    exact Nat.mod_lt _ (by decide)
  · intro o
    rw [(keyStep_spec h o).2]
    by_cases hfull : (queued k.queue).length = 255
    · rw [if_pos hfull, if_neg (by omega)]
    · rw [if_neg hfull, if_pos (by omega)]
  · rw [ne_eq, ← h.empty_iff]
    unfold keyboard_avail
    exact decide_eq_true_iff

end Lumin.Os
