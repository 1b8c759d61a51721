import Lumin.Lib.Ring
import Lumin.Lib.Transition
import Lumin.Lib.Word

/-!
# Pipes

A model of `pipe_read` and `pipe_write` of `kernel/fs/pipefs.c`.  The calls of all
tasks run side by side, and one step is one turn of the loop of one call: it moves a
byte, waits or returns.  The system keeps the bytes put and taken so far, each with
the call that moved it.

* `PipeInv` is the invariant: the bytes put are those taken followed by a queue that the
  ring holds.
* `pipe_fifo` is the result for every interleaving.
-/

namespace Lumin.Fs

open Lumin.Lib

def PIPE_BUF_SIZE : Nat := 4096

/-- `struct pipe_inode`.  The positions are the 32 bits of an `int`. -/
structure PipeInode where
  buf : Nat → UInt8
  readPos : Nat
  writePos : Nat
  readers : Int
  writers : Int

/-- `pos % PIPE_BUF_SIZE` of an `int`, as a place in the buffer. -/
def pipeCell (pos : Nat) : Nat := ((s32 pos).tmod PIPE_BUF_SIZE).toNat

/-- `write_pos - read_pos` of two `int`s. -/
def pipeUsed (p : PipeInode) : Int := s32 (p.writePos + (2 ^ 32 - p.readPos))

/-- The byte that `pipe_read` takes, if there is one. -/
def pipeTake (p : PipeInode) : Option (UInt8 × PipeInode) :=
  if p.readPos ≠ p.writePos
    then some (p.buf (pipeCell p.readPos), { p with readPos := u32 (p.readPos + 1) })
  else none

/-- `pipe_write` puts a byte, if there is room. -/
def pipePut (p : PipeInode) (c : UInt8) : Option PipeInode :=
  if pipeUsed p < PIPE_BUF_SIZE then
    some { p with
      buf := fun i => if i = pipeCell p.writePos then c else p.buf i
      writePos := u32 (p.writePos + 1) }
  else none

/-- A call in progress, or what it returned.  `got` is what `pipe_read` has stored in its
buffer, and `total` how much `pipe_write` has written of its data. -/
inductive PipeCall where
  | read (count : Nat) (got : List UInt8)
  | write (data : List UInt8) (total : Nat)
  | returned (result : Int) (moved : List UInt8)

/-- A pipe with the calls on it.  `puts` and `takes` are the bytes moved so far, each
with the number of its call. -/
structure PipeSys where
  pipe : PipeInode
  calls : List PipeCall
  puts : List (Nat × UInt8)
  takes : List (Nat × UInt8)

/-- A turn of the loop of `pipe_read`. -/
def readTurn (s : PipeSys) (i count : Nat) (got : List UInt8) : PipeSys :=
  if got.length < count then
    match pipeTake s.pipe with
    | some (c, pipe) =>
      { s with pipe := pipe, calls := s.calls.set i (.read count (got ++ [c])),
               takes := s.takes ++ [(i, c)] }
    | none =>
      if s.pipe.writers = 0 ∧
        got.length > 0 then { s with calls := s.calls.set i (.returned (s32 got.length) got) }
      else if s.pipe.writers = 0 then { s with calls := s.calls.set i (.returned 0 got) }
      else s
  else { s with calls := s.calls.set i (.returned (s32 got.length) got) }

/-- A turn of the loop of `pipe_write`. -/
def writeTurn (s : PipeSys) (i : Nat) (data : List UInt8) (total : Nat) : PipeSys :=
  match data[total]? with
  | some c =>
    match pipePut s.pipe c with
    | some pipe =>
      { s with pipe := pipe, calls := s.calls.set i (.write data (total + 1)),
               puts := s.puts ++ [(i, c)] }
    | none =>
      if s.pipe.readers = 0
        then { s with calls := s.calls.set i (.returned (-1) (data.take total)) }
      else s
  | none => { s with calls := s.calls.set i (.returned (s32 total) (data.take total)) }

/-- A new call, or a turn of call `i`. -/
inductive PipeOp where
  | read (count : Nat)
  | write (data : List UInt8)
  | turn (i : Nat)

def pipeStep (s : PipeSys) : PipeOp → Option PipeSys
  | .read count => some { s with calls := s.calls ++ [.read count []] }
  | .write data => some { s with calls := s.calls ++ [.write data 0] }
  | .turn i =>
    match s.calls[i]? with
    | some (.read count got) => some (readTurn s i count got)
    | some (.write data total) => some (writeTurn s i data total)
    | _ => some s

/-- An empty pipe without calls. -/
def pipeStart (buf : Nat → UInt8) (readers writers : Int) : PipeSys where
  pipe := { buf := buf, readPos := 0, writePos := 0, readers := readers, writers := writers }
  calls := []
  puts := []
  takes := []

/-! ## The queue -/

/-- The bytes of a history. -/
def bytesOf (events : List (Nat × UInt8)) : List UInt8 := events.map Prod.snd

/-- The bytes that call `i` has moved. -/
def movedBy (events : List (Nat × UInt8)) (i : Nat) : List UInt8 :=
  bytesOf (events.filter fun e => e.1 = i)

/-- What a call has moved. -/
def CallInv (s : PipeSys) (i : Nat) : PipeCall → Prop
  | .read _ got => movedBy s.takes i = got ∧ movedBy s.puts i = []
  | .write data total => movedBy s.takes i = [] ∧ movedBy s.puts i = data.take total ∧
    total ≤ data.length
  | .returned result moved => movedBy s.takes i ++ movedBy s.puts i = moved ∧
    (0 < result → result = moved.length)

/-- The bytes put are the bytes taken and the queue in the ring. -/
structure PipeInv (s : PipeSys) : Prop where
  queue : ∃ q, bytesOf s.puts = bytesOf s.takes ++ q ∧ q.length ≤ PIPE_BUF_SIZE ∧
    Ring.Holds PIPE_BUF_SIZE s.pipe.buf s.takes.length q
  readPos : s.pipe.readPos = s.takes.length
  writePos : s.pipe.writePos = s.puts.length
  takers : ∀ e ∈ s.takes, e.1 < s.calls.length
  putters : ∀ e ∈ s.puts, e.1 < s.calls.length
  calls : ∀ i c, s.calls[i]? = some c → CallInv s i c

variable {s s' : PipeSys} {i count total : Nat} {got data : List UInt8} {c : UInt8} {o : PipeOp}

theorem bytesOf_length (events : List (Nat × UInt8)) :
    (bytesOf events).length = events.length := by
  simp [bytesOf]

theorem bytesOf_concat (events : List (Nat × UInt8)) :
    bytesOf (events ++ [(i, c)]) = bytesOf events ++ [c] := by
  simp [bytesOf]

theorem movedBy_concat_self (events : List (Nat × UInt8)) :
    movedBy (events ++ [(i, c)]) i = movedBy events i ++ [c] := by
  simp [movedBy, bytesOf]

theorem movedBy_concat_ne (events : List (Nat × UInt8)) {j : Nat} (h : j ≠ i) :
    movedBy (events ++ [(i, c)]) j = movedBy events j := by
  simp [movedBy, bytesOf, Ne.symm h]

theorem movedBy_of_lt {events : List (Nat × UInt8)} {n : Nat} (h : ∀ e ∈ events, e.1 < n) :
    movedBy events n = [] := by
  have hnone : events.filter (fun e => e.1 = n) = [] := by
    refine List.filter_eq_nil_iff.mpr fun e he => ?_
    have := h e he
    simp only [decide_eq_true_eq]
    omega
  rw [movedBy, hnone]
  rfl

theorem movedBy_length_le (events : List (Nat × UInt8)) (i : Nat) :
    (movedBy events i).length ≤ events.length := by
  rw [movedBy, bytesOf_length]
  exact List.length_filter_le _ _

/-- Below `2 ^ 31` the place is that of the ring. -/
theorem pipeCell_of_lt {pos : Nat} (h : pos < 2 ^ 31) : pipeCell pos = pos % PIPE_BUF_SIZE := by
  unfold pipeCell
  rw [s32_of_lt h, ← Int.ofNat_tmod, Int.toNat_natCast]

theorem pipeUsed_of_le {p : PipeInode} (hle : p.readPos ≤ p.writePos)
    (hlt : p.writePos < 2 ^ 31) :
    pipeUsed p = (p.writePos - p.readPos : Nat) := by
  have hword : u32 (p.writePos + (2 ^ 32 - p.readPos)) = p.writePos - p.readPos := by
    unfold u32
    omega
  unfold pipeUsed s32
  rw [hword, if_pos (by omega)]

theorem PipeInv.takes_le (h : PipeInv s) : s.takes.length ≤ s.puts.length := by
  obtain ⟨q, hq, -, -⟩ := h.queue
  have hlen := congrArg List.length hq
  rw [List.length_append, bytesOf_length, bytesOf_length] at hlen
  omega

/-- What a take does: the first byte of the queue goes. -/
theorem pipeTake_spec (h : PipeInv s) (hlt : s.puts.length < 2 ^ 31) :
    pipeTake s.pipe = none ∨
      ∃ c q, bytesOf s.puts = bytesOf s.takes ++ c :: q ∧ q.length < PIPE_BUF_SIZE ∧
        Ring.Holds PIPE_BUF_SIZE s.pipe.buf (s.takes.length + 1) q ∧
        pipeTake s.pipe = some (c, { s.pipe with readPos := s.takes.length + 1 }) := by
  obtain ⟨q, hq, hroom, hring⟩ := h.queue
  have hlen := congrArg List.length hq
  rw [List.length_append, bytesOf_length, bytesOf_length] at hlen
  unfold pipeTake
  cases q with
  | nil =>
    left
    rw [List.length_nil] at hlen
    rw [if_neg (not_not_intro (by rw [h.readPos, h.writePos]; omega))]
  | cons c q =>
    right
    rw [List.length_cons] at hlen hroom
    obtain ⟨hbyte, hrest⟩ := hring.pop
    refine ⟨c, q, hq, by omega, hrest, ?_⟩
    rw [if_pos (by rw [h.readPos, h.writePos]; omega), h.readPos, pipeCell_of_lt (by omega),
      hbyte, u32_of_lt (by omega)]

/-- What a put does: the byte comes to the end of the queue. -/
theorem pipePut_spec (h : PipeInv s) (hlt : s.puts.length < 2 ^ 31) (c : UInt8) :
    pipePut s.pipe c = none ∨
      ∃ q p, bytesOf s.puts = bytesOf s.takes ++ q ∧ q.length < PIPE_BUF_SIZE ∧
        Ring.Holds PIPE_BUF_SIZE p.buf s.takes.length (q ++ [c]) ∧
        pipePut s.pipe c = some p ∧ p.readPos = s.takes.length ∧
          p.writePos = s.puts.length + 1 := by
  obtain ⟨q, hq, hroom, hring⟩ := h.queue
  have hlen := congrArg List.length hq
  rw [List.length_append, bytesOf_length, bytesOf_length] at hlen
  have hused : pipeUsed s.pipe = (q.length : Nat) := by
    rw [pipeUsed_of_le (by rw [h.readPos, h.writePos]; omega) (by rw [h.writePos]; omega),
      h.readPos, h.writePos]
    congr 1
    omega
  unfold pipePut
  rw [hused]
  by_cases hfull : q.length < PIPE_BUF_SIZE
  · right
    rw [if_pos (by exact_mod_cast hfull)]
    refine ⟨q, _, hq, hfull, ?_, rfl, h.readPos, ?_⟩
    · have hcell : pipeCell s.pipe.writePos = (s.takes.length + q.length) % PIPE_BUF_SIZE := by
        rw [h.writePos, pipeCell_of_lt hlt, hlen]
      rw [hcell]
      exact hring.push hfull c
    · show u32 (s.pipe.writePos + 1) = _
      rw [h.writePos, u32_of_lt (by omega)]
  · left
    rw [if_neg (by exact_mod_cast hfull)]

/-! ## Turns -/

/-- Another call has moved what it had moved before. -/
theorem CallInv.congr {j : Nat} {call : PipeCall} (h : CallInv s j call)
    (htakes : movedBy s'.takes j = movedBy s.takes j)
    (hputs : movedBy s'.puts j = movedBy s.puts j) : CallInv s' j call := by
  cases call with
  | read count got => exact ⟨htakes.trans h.1, hputs.trans h.2⟩
  | write data total => exact ⟨htakes.trans h.1, hputs.trans h.2.1, h.2.2⟩
  | returned result moved => exact ⟨by rw [htakes, hputs]; exact h.1, h.2⟩

/-- The calls after one of them is replaced. -/
theorem callInv_set {new : PipeCall} (hinv : PipeInv s) (hcalls : s'.calls = s.calls.set i new)
    (hnew : CallInv s' i new) (htakes : ∀ j, j ≠ i → movedBy s'.takes j = movedBy s.takes j)
    (hputs : ∀ j, j ≠ i → movedBy s'.puts j = movedBy s.puts j) :
    ∀ j call, s'.calls[j]? = some call → CallInv s' j call := by
  intro j call hj
  rw [hcalls, List.getElem?_set] at hj
  by_cases hij : i = j
  · rw [if_pos hij] at hj
    split at hj
    · obtain rfl := Option.some.inj hj
      exact hij ▸ hnew
    · cases hj
  · rw [if_neg hij] at hj
    exact (hinv.calls j call hj).congr (htakes j (Ne.symm hij)) (hputs j (Ne.symm hij))

/-- A call returns, and nothing is moved. -/
theorem PipeInv.return {result : Int} {moved : List UInt8} (h : PipeInv s)
    (hmoved : movedBy s.takes i ++ movedBy s.puts i = moved)
    (hresult : 0 < result → result = moved.length) :
    PipeInv { s with calls := s.calls.set i (.returned result moved) } where
  queue := h.queue
  readPos := h.readPos
  writePos := h.writePos
  takers := by simpa using h.takers
  putters := by simpa using h.putters
  calls := callInv_set h rfl ⟨hmoved, hresult⟩ (fun _ _ => rfl) fun _ _ => rfl

theorem PipeInv.readTurn (h : PipeInv s) (hlt : s.puts.length < 2 ^ 31)
    (hcall : s.calls[i]? = some (.read count got)) : PipeInv (readTurn s i count got) := by
  obtain ⟨htook, hput⟩ := h.calls i _ hcall
  have hi : i < s.calls.length := (List.getElem?_eq_some_iff.mp hcall).1
  have hmoved : movedBy s.takes i ++ movedBy s.puts i = got :=
    by rw [htook, hput, List.append_nil]
  have hgot : s32 got.length = got.length := by
    have htakes := movedBy_length_le s.takes i
    have hputs := h.takes_le
    rw [htook] at htakes
    exact s32_of_lt (by omega)
  unfold Fs.readTurn
  split
  · rcases pipeTake_spec h hlt with hnone | ⟨c, q, hq, hroom, hring, hsome⟩
    · rw [hnone]
      dsimp only
      split
      · exact h.return hmoved fun _ => hgot
      · split
        · exact h.return hmoved fun hpos => absurd hpos (lt_irrefl _)
        · exact h
    · rw [hsome]
      refine ⟨⟨q, ?_, hroom.le, ?_⟩, ?_, h.writePos, ?_, by simpa using h.putters, ?_⟩
      · rw [bytesOf_concat, List.append_assoc]
        exact hq
      · rw [List.length_append]
        exact hring
      · rw [List.length_append]
        rfl
      · intro e he
        rw [List.length_set]
        rcases List.mem_append.mp he with he | he
        · exact h.takers e he
        · rw [List.mem_singleton.mp he]
          exact hi
      · refine callInv_set h rfl ⟨?_, hput⟩ (fun j hj => movedBy_concat_ne s.takes hj) fun _ _ =>
          rfl
        rw [movedBy_concat_self, htook]
  · exact h.return hmoved fun _ => hgot

theorem PipeInv.writeTurn (h : PipeInv s) (hcall : s.calls[i]? = some (.write data total))
    (hlt : (writeTurn s i data total).puts.length < 2 ^ 31) :
    PipeInv (writeTurn s i data total) := by
  obtain ⟨htook, hput, htotal⟩ := h.calls i _ hcall
  have hi : i < s.calls.length := (List.getElem?_eq_some_iff.mp hcall).1
  have hmoved : movedBy s.takes i ++ movedBy s.puts i = data.take total :=
    by rw [htook, hput, List.nil_append]
  unfold Fs.writeTurn at hlt ⊢
  cases hbyte : data[total]? with
  | none =>
    rw [hbyte] at hlt
    dsimp only at hlt ⊢
    refine h.return hmoved fun hpos => ?_
    have hlen := movedBy_length_le s.puts i
    rw [hput, List.length_take, min_eq_left htotal] at hlen
    rw [List.length_take, min_eq_left htotal, s32_of_lt (by omega)]
  | some c =>
    rw [hbyte] at hlt
    dsimp only at hlt ⊢
    have hlt' : s.puts.length < 2 ^ 31 := by
      revert hlt
      split
      · simp
        omega
      · split <;> exact id
    rcases pipePut_spec h hlt' c with hnone | ⟨q, p, hq, hroom, hring, hsome, hread, hwrite⟩
    · rw [hnone]
      dsimp only
      split
      · exact h.return hmoved fun hpos => absurd hpos (by decide)
      · exact h
    · rw [hsome]
      refine ⟨⟨q ++ [c], ?_, ?_, hring⟩, hread, ?_, by simpa using h.takers, ?_, ?_⟩
      · rw [bytesOf_concat, hq, List.append_assoc]
      · rw [List.length_append]
        exact hroom
      · rw [List.length_append]
        exact hwrite
      · intro e he
        rw [List.length_set]
        rcases List.mem_append.mp he with he | he
        · exact h.putters e he
        · rw [List.mem_singleton.mp he]
          exact hi
      · refine callInv_set h rfl ⟨htook, ?_, ?_⟩ (fun _ _ => rfl) fun j hj =>
          movedBy_concat_ne s.puts hj
        · rw [movedBy_concat_self, hput, List.take_add_one, hbyte]
          rfl
        · exact (List.getElem?_eq_some_iff.mp hbyte).1

/-! ## Runs -/

theorem pipeInv_start (buf : Nat → UInt8) (readers writers : Int) :
    PipeInv (pipeStart buf readers writers) where
  queue := ⟨[], rfl, Nat.zero_le _, Ring.holds_nil _ _ _⟩
  readPos := rfl
  writePos := rfl
  takers := fun _ he => absurd he List.not_mem_nil
  putters := fun _ he => absurd he List.not_mem_nil
  calls := fun _ _ hcall => by cases hcall

/-- A new call has moved nothing. -/
theorem PipeInv.call {call : PipeCall} (h : PipeInv s) (hcall : CallInv s s.calls.length call) :
    PipeInv { s with calls := s.calls ++ [call] } where
  queue := h.queue
  readPos := h.readPos
  writePos := h.writePos
  takers := fun e he => lt_of_lt_of_le (h.takers e he) (by simp)
  putters := fun e he => lt_of_lt_of_le (h.putters e he) (by simp)
  calls := by
    intro j c hj
    rcases lt_trichotomy j s.calls.length with hlt | rfl | hgt
    · rw [List.getElem?_append_left hlt] at hj
      exact (h.calls j c hj).congr rfl rfl
    · rw [List.getElem?_concat_length] at hj
      obtain rfl := Option.some.inj hj
      exact hcall.congr rfl rfl
    · rw [List.getElem?_eq_none (by simp; omega)] at hj
      cases hj

/-- The bytes put are only added to. -/
theorem pipeStep_puts_le (hstep : pipeStep s o = some s') : s.puts.length ≤ s'.puts.length := by
  cases o with
  | read count =>
    cases hstep
    exact le_rfl
  | write data =>
    cases hstep
    exact le_rfl
  | turn i =>
    rw [pipeStep] at hstep
    split at hstep
    · cases hstep
      unfold readTurn
      split
      · split
        · exact le_rfl
        · split
          · exact le_rfl
          · split <;> exact le_rfl
      · exact le_rfl
    · cases hstep
      unfold writeTurn
      split
      · split
        · simp
        · split <;> exact le_rfl
      · exact le_rfl
    · cases hstep
      exact le_rfl

theorem PipeInv.step (h : PipeInv s) (hstep : pipeStep s o = some s')
    (hlt : s'.puts.length < 2 ^ 31) : PipeInv s' := by
  have hputs := pipeStep_puts_le hstep
  cases o with
  | read count =>
    cases hstep
    exact h.call ⟨movedBy_of_lt h.takers, movedBy_of_lt h.putters⟩
  | write data =>
    cases hstep
    exact h.call ⟨movedBy_of_lt h.takers, movedBy_of_lt h.putters, Nat.zero_le _⟩
  | turn i =>
    rw [pipeStep] at hstep
    split at hstep
    next count got hcall =>
      cases hstep
      exact h.readTurn (by omega) hcall
    next data total hcall =>
      cases hstep
      exact h.writeTurn hcall hlt
    next =>
      cases hstep
      exact h

/-- **Pipes are queues.**  In every interleaving of calls that puts fewer than `2 ^ 31`
bytes, the bytes taken are a prefix of the bytes put, at most `PIPE_BUF_SIZE` are
missing from it, and a call that returns a positive number has moved that many. -/
theorem pipe_fifo (buf : Nat → UInt8) (readers writers : Int)
    (hrun : Reach pipeStep (fun _ _ => True) (pipeStart buf readers writers) s)
    (hlt : s.puts.length < 2 ^ 31) :
    bytesOf s.takes <+: bytesOf s.puts ∧ s.puts.length - s.takes.length ≤ PIPE_BUF_SIZE ∧
      ∀ i (result : Int) moved, s.calls[i]? = some (.returned result moved) → 0 < result →
        result = (movedBy s.takes i ++ movedBy s.puts i).length := by
  -- The bound on the bytes put holds of every earlier state too.
  have hinv : s.puts.length < 2 ^ 31 → PipeInv s := by
    refine Reach.invariant (fun s => s.puts.length < 2 ^ 31 → PipeInv s)
      (fun _ => pipeInv_start buf readers writers)
      (fun t o t' ih _ hstep hlt' => ?_) hrun
    have hle := pipeStep_puts_le hstep
    exact (ih (by omega)).step hstep hlt'
  obtain ⟨q, hq, hroom, -⟩ := (hinv hlt).queue
  refine ⟨⟨q, hq.symm⟩, ?_, fun i result moved hcall hpos => ?_⟩
  · have hlen := congrArg List.length hq
    rw [List.length_append, bytesOf_length, bytesOf_length] at hlen
    omega
  · obtain ⟨hmoved, hresult⟩ := (hinv hlt).calls i _ hcall
    rw [hmoved]
    exact hresult hpos

/-- Two bytes are written, and a call reads one of them. -/
theorem pipe_fifo_twoBytes :
    ∃ s, run pipeStep (pipeStart (fun _ => 0) 1 1)
        [.write [7, 8], .turn 0, .read 1, .turn 1, .turn 0, .turn 1] = some s ∧
      bytesOf s.takes = [7] ∧ bytesOf s.puts = [7, 8] ∧ s.calls[1]? = some (.returned 1 [7]) ∧
      bytesOf s.takes <+: bytesOf s.puts ∧
        (1 : Int) = (movedBy s.takes 1 ++ movedBy s.puts 1).length := by
  refine ⟨_, rfl, rfl, rfl, rfl, ?_⟩
  have hrun : run pipeStep (pipeStart (fun _ => 0) 1 1)
      [.write [7, 8], .turn 0, .read 1, .turn 1, .turn 0, .turn 1] = some _ := rfl
  obtain ⟨horder, -, hmoved⟩ := pipe_fifo (fun _ => 0) 1 1 (reach_of_run hrun) (by decide)
  exact ⟨horder, hmoved 1 1 [7] rfl (by decide)⟩

end Lumin.Fs
