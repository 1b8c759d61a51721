import Lumin.Fs.Pipe

/-!
# The page of a pipe

The bytes of `struct pipe_inode` that `vfs_pipe_create`, `pipe_read` and `pipe_write` of
`kernel/fs/pipefs.c` touch.  The buffer of the structure is as large as the frame it is
put into, so its counters lie behind the frame.

* `PipeAccess` is an access to an element of the buffer or to a counter, and
  `runAccesses` lists those of a run.
* `Counts` is what a step preserves, however often the counters have wrapped.
* `pipe_inside_iff` is the result: only a pipe that is not created stays inside, and the
  index of an element leaves the buffer with the byte number `2 ^ 31 + 2`.
-/

namespace Lumin.Fs

open Lumin.Lib

/-- The counters of `struct pipe_inode`. -/
inductive PipeField where
  | readPos | writePos | readers | writers | refcount
  deriving DecidableEq, Repr

/-- The offset of a counter: four bytes each, behind the buffer. -/
def PipeField.offset : PipeField → Nat
  | .readPos => PIPE_BUF_SIZE
  | .writePos => PIPE_BUF_SIZE + 4
  | .readers => PIPE_BUF_SIZE + 8
  | .writers => PIPE_BUF_SIZE + 12
  | .refcount => PIPE_BUF_SIZE + 16

/-- An element of the buffer by its index, or a counter. -/
inductive PipeAccess where
  | elem (index : Int)
  | counter (field : PipeField)
  deriving DecidableEq, Repr

def PipeAccess.offset : PipeAccess → Int
  | .elem index => index
  | .counter field => field.offset

def PipeAccess.size : PipeAccess → Nat
  | .elem _ => 1
  | .counter _ => 4

/-- The access to the pipe at `page` stays within the frame. -/
def InFrame (page : Nat) (a : PipeAccess) : Prop :=
  page ≤ page + a.offset ∧ page + a.offset + a.size ≤ page + 0x1000

/-- The index is one of the buffer. -/
def IndexOk (a : PipeAccess) : Prop :=
  ∀ index, a = .elem index → 0 ≤ index ∧ index < PIPE_BUF_SIZE

/-- `pos % PIPE_BUF_SIZE` of an `int`. -/
def pipeIndex (pos : Nat) : Int := (s32 pos).tmod PIPE_BUF_SIZE

/-! ## The accesses -/

/-- The stores of `vfs_pipe_create`. -/
def createAccesses : List PipeAccess :=
  (List.range PIPE_BUF_SIZE).map (fun i => .elem i) ++
    [.counter .readPos, .counter .writePos, .counter .readers, .counter .writers,
      .counter .refcount]

/-- A turn of the loop of `pipe_read`. -/
def readAccesses (p : PipeInode) (count : Nat) (got : List UInt8) : List PipeAccess :=
  if got.length < count then
    [.counter .readPos, .counter .writePos] ++
      if p.readPos ≠ p.writePos
        then [.counter .readPos, .elem (pipeIndex p.readPos), .counter .readPos]
      else [.counter .writers]
  else []

/-- A turn of the loop of `pipe_write`. -/
def writeAccesses (p : PipeInode) (data : List UInt8) (total : Nat) : List PipeAccess :=
  if total < data.length then
    [.counter .writePos, .counter .writePos, .counter .readPos] ++
      if pipeUsed p < PIPE_BUF_SIZE then [.elem (pipeIndex p.writePos), .counter .writePos]
        else [.counter .readers]
  else []

def stepAccesses (s : PipeSys) : PipeOp → List PipeAccess
  | .turn i =>
    match s.calls[i]? with
    | some (.read count got) => readAccesses s.pipe count got
    | some (.write data total) => writeAccesses s.pipe data total
    | _ => []
  | _ => []

def nextPipe (s : PipeSys) (o : PipeOp) : PipeSys := (pipeStep s o).getD s

/-- The accesses of a run. -/
def runAccesses (s : PipeSys) : List PipeOp → List PipeAccess
  | [] => []
  | o :: ops => stepAccesses s o ++ runAccesses (nextPipe s o) ops

/-- The pipe that `vfs_pipe_create` leaves. -/
def createdPipe : PipeSys := pipeStart (fun _ => 0) 1 1

/-- The accesses of `vfs_pipe_create` and of the calls after it.  Without a frame there are
no accesses, and no calls. -/
def pipeAccesses (page : Option Nat) (ops : List PipeOp) : List PipeAccess :=
  match page with
  | none => []
  | some _ => createAccesses ++ runAccesses createdPipe ops

variable {s : PipeSys} {o : PipeOp} {ops : List PipeOp} {k : Nat}

/-! ## The counters -/

/-- The counters are those of the bytes moved, and the ring is not overfull. -/
structure Counts (s : PipeSys) : Prop where
  readPos : s.pipe.readPos = u32 s.takes.length
  writePos : s.pipe.writePos = u32 s.puts.length
  takes_le : s.takes.length ≤ s.puts.length
  puts_le : s.puts.length ≤ s.takes.length + PIPE_BUF_SIZE

theorem Counts.used (h : Counts s) :
    pipeUsed s.pipe = (s.puts.length - s.takes.length : Nat) := by
  have hsize : PIPE_BUF_SIZE = 4096 := rfl
  have hle := h.takes_le
  have hfull := h.puts_le
  have hword :
      u32 (u32 s.puts.length + (2 ^ 32 - u32 s.takes.length)) =
        s.puts.length - s.takes.length := by
    unfold u32
    omega
  unfold pipeUsed s32
  rw [h.readPos, h.writePos, hword, if_pos (by omega)]

/-- A byte is there exactly when the counters differ. -/
theorem Counts.pos_ne_iff (h : Counts s) :
    s.pipe.readPos ≠ s.pipe.writePos ↔ s.takes.length < s.puts.length := by
  have hsize : PIPE_BUF_SIZE = 4096 := rfl
  have hle := h.takes_le
  have hfull := h.puts_le
  rw [h.readPos, h.writePos]
  unfold u32
  omega

theorem u32_succ (n : Nat) : u32 (u32 n + 1) = u32 (n + 1) := by
  unfold u32
  omega

/-- A turn of `pipe_read` takes a byte or moves none. -/
theorem readTurn_counts (h : Counts s) (i count : Nat) (got : List UInt8) :
    Counts (readTurn s i count got) ∧ (readTurn s i count got).puts = s.puts := by
  unfold readTurn pipeTake
  by_cases hcount : got.length < count
  · rw [if_pos hcount]
    by_cases hpos : s.pipe.readPos ≠ s.pipe.writePos
    · have hlt := h.pos_ne_iff.mp hpos
      rw [if_pos hpos]
      refine ⟨⟨?_, h.writePos, ?_, ?_⟩, rfl⟩
      · show u32 (s.pipe.readPos + 1) = u32 (s.takes ++ [_]).length
        rw [h.readPos, u32_succ, List.length_append, List.length_singleton]
      · show (s.takes ++ [_]).length ≤ s.puts.length
        rw [List.length_append, List.length_singleton]
        exact hlt
      · show s.puts.length ≤ (s.takes ++ [_]).length + PIPE_BUF_SIZE
        have hfull := h.puts_le
        rw [List.length_append, List.length_singleton]
        omega
    · rw [if_neg hpos]
      dsimp only
      split_ifs
      · exact ⟨⟨h.readPos, h.writePos, h.takes_le, h.puts_le⟩, rfl⟩
      · exact ⟨⟨h.readPos, h.writePos, h.takes_le, h.puts_le⟩, rfl⟩
      · exact ⟨h, rfl⟩
  · rw [if_neg hcount]
    exact ⟨⟨h.readPos, h.writePos, h.takes_le, h.puts_le⟩, rfl⟩

/-- A turn of `pipe_write` with room and data puts a byte, and another one none. -/
theorem writeTurn_counts (h : Counts s) (i : Nat) (data : List UInt8) (total : Nat) :
    Counts (writeTurn s i data total) ∧
      ((total < data.length ∧ pipeUsed s.pipe < PIPE_BUF_SIZE ∧
          (writeTurn s i data total).puts.length = s.puts.length + 1) ∨
        (¬ (total < data.length ∧ pipeUsed s.pipe < PIPE_BUF_SIZE) ∧
          (writeTurn s i data total).puts = s.puts)) := by
  unfold writeTurn pipePut
  by_cases htotal : total < data.length
  · rw [List.getElem?_eq_getElem htotal]
    dsimp only
    by_cases hused : pipeUsed s.pipe < PIPE_BUF_SIZE
    · have hroom := hused
      rw [h.used] at hroom
      rw [if_pos hused]
      refine ⟨⟨h.readPos, ?_, ?_, ?_⟩, .inl ⟨htotal, hused, List.length_append⟩⟩
      · show u32 (s.pipe.writePos + 1) = u32 (s.puts ++ [_]).length
        rw [h.writePos, u32_succ, List.length_append, List.length_singleton]
      · show s.takes.length ≤ (s.puts ++ [_]).length
        have hle := h.takes_le
        rw [List.length_append, List.length_singleton]
        omega
      · show (s.puts ++ [_]).length ≤ s.takes.length + PIPE_BUF_SIZE
        rw [List.length_append, List.length_singleton]
        omega
    · rw [if_neg hused]
      dsimp only
      have hno : ¬ (total < data.length ∧ pipeUsed s.pipe < PIPE_BUF_SIZE) :=
        fun hboth => hused hboth.2
      split_ifs
      · exact ⟨⟨h.readPos, h.writePos, h.takes_le, h.puts_le⟩, .inr ⟨hno, rfl⟩⟩
      · exact ⟨h, .inr ⟨hno, rfl⟩⟩
  · rw [List.getElem?_eq_none (not_lt.mp htotal)]
    exact ⟨⟨h.readPos, h.writePos, h.takes_le, h.puts_le⟩, .inr
      ⟨fun hboth => htotal hboth.1, rfl⟩⟩

/-- What a turn does: nothing, or a turn of the loop of one of the calls. -/
theorem turn_cases (s : PipeSys) (i : Nat) :
    (nextPipe s (.turn i) = s ∧ stepAccesses s (.turn i) = []) ∨
      (∃ count got, nextPipe s (.turn i) = readTurn s i count got ∧
        stepAccesses s (.turn i) = readAccesses s.pipe count got) ∨
      ∃ data total, nextPipe s (.turn i) = writeTurn s i data total ∧
        stepAccesses s (.turn i) = writeAccesses s.pipe data total := by
  unfold nextPipe pipeStep stepAccesses
  dsimp only
  cases s.calls[i]? with
  | none => exact .inl ⟨rfl, rfl⟩
  | some call =>
    cases call with
    | returned result moved => exact .inl ⟨rfl, rfl⟩
    | read count got => exact .inr (.inl ⟨count, got, rfl, rfl⟩)
    | write data total => exact .inr (.inr ⟨data, total, rfl, rfl⟩)

/-- A step keeps the counters, and no byte put is lost. -/
theorem Counts.next (h : Counts s) (o : PipeOp) :
    Counts (nextPipe s o) ∧ s.puts.length ≤ (nextPipe s o).puts.length := by
  cases o with
  | read count => exact ⟨⟨h.readPos, h.writePos, h.takes_le, h.puts_le⟩, le_refl _⟩
  | write data => exact ⟨⟨h.readPos, h.writePos, h.takes_le, h.puts_le⟩, le_refl _⟩
  | turn i =>
    rcases turn_cases s i with ⟨hnext, -⟩ | ⟨count, got, hnext, -⟩ | ⟨data, total, hnext, -⟩
    · rw [hnext]
      exact ⟨h, le_refl _⟩
    · obtain ⟨hcounts, hputs⟩ := readTurn_counts h i count got
      rw [hnext]
      exact ⟨hcounts, (congrArg List.length hputs).ge⟩
    · obtain ⟨hcounts, ⟨-, -, hputs⟩ | ⟨-, hputs⟩⟩ := writeTurn_counts h i data total
      · rw [hnext]
        exact ⟨hcounts, (Nat.le_succ _).trans hputs.ge⟩
      · rw [hnext]
        exact ⟨hcounts, (congrArg List.length hputs).ge⟩

/-- The bytes put never get fewer. -/
theorem Counts.puts_mono (h : Counts s) (ops : List PipeOp) :
    s.puts.length ≤ (ops.foldl nextPipe s).puts.length := by
  induction ops generalizing s with
  | nil => exact le_refl _
  | cons o ops ih =>
    obtain ⟨hnext, hle⟩ := h.next o
    exact hle.trans (ih hnext)

/-! ## The indices -/

/-- The first `2 ^ 31 + 1` positions are indices of the buffer. -/
theorem pipeIndex_ok (h : k ≤ 2 ^ 31) : IndexOk (.elem (pipeIndex (u32 k))) := by
  have hsize : PIPE_BUF_SIZE = 4096 := rfl
  rintro index hindex
  cases hindex
  unfold pipeIndex
  rw [hsize]
  refine ⟨?_, Int.tmod_lt_of_pos _ (by decide)⟩
  by_cases hlast : k = 2 ^ 31
  · subst hlast
    decide
  · rw [u32_of_lt (by omega), s32_of_lt (by omega)]
    exact Int.tmod_nonneg _ (Int.natCast_nonneg k)

/-- The next one is negative. -/
theorem pipeIndex_wrapped : ¬ IndexOk (.elem (pipeIndex (u32 (2 ^ 31 + 1)))) := by
  intro h
  have := (h _ rfl).1
  revert this
  decide

theorem indexOk_counter (field : PipeField) : IndexOk (.counter field) := by
  rintro index hindex
  cases hindex

/-- The accesses of a turn of `pipe_read` are in the buffer: the byte that is taken has been
put before. -/
theorem readAccesses_ok (h : Counts s) (hle : s.puts.length ≤ 2 ^ 31 + 1) (count : Nat)
    (got : List UInt8) :
    ∀ a ∈ readAccesses s.pipe count got, IndexOk a := by
  intro a ha
  unfold readAccesses at ha
  split_ifs at ha with hcount hpos
  · have hlt := h.pos_ne_iff.mp hpos
    have helem : IndexOk (.elem (pipeIndex s.pipe.readPos)) := by
      rw [h.readPos]
      exact pipeIndex_ok (by omega)
    simp only [List.cons_append, List.nil_append, List.mem_cons, List.not_mem_nil, or_false] at ha
    rcases ha with rfl | rfl | rfl | rfl | rfl
    · exact indexOk_counter _
    · exact indexOk_counter _
    · exact indexOk_counter _
    · exact helem
    · exact indexOk_counter _
  · simp only [List.cons_append, List.nil_append, List.mem_cons, List.not_mem_nil, or_false] at ha
    rcases ha with rfl | rfl | rfl <;> exact indexOk_counter _
  · exact absurd ha List.not_mem_nil

/-- Those of a turn of `pipe_write` are, unless it puts byte number `2 ^ 31 + 2`. -/
theorem writeAccesses_ok_iff (h : Counts s) (hle : s.puts.length ≤ 2 ^ 31 + 1) (data : List UInt8)
    (total : Nat) :
    (∀ a ∈ writeAccesses s.pipe data total, IndexOk a) ↔
      ¬ (total < data.length ∧ pipeUsed s.pipe < PIPE_BUF_SIZE) ∨ s.puts.length ≤ 2 ^ 31 := by
  unfold writeAccesses
  split_ifs with htotal hused
  · rw [h.writePos]
    constructor
    · intro hall
      refine .inr ?_
      by_contra hover
      have hlast : s.puts.length = 2 ^ 31 + 1 := by omega
      rw [hlast] at hall
      exact pipeIndex_wrapped (hall _ (by simp))
    · intro hroom a ha
      have hlt := hroom.resolve_left fun hno => hno ⟨htotal, hused⟩
      simp only [List.cons_append, List.nil_append, List.mem_cons, List.not_mem_nil,
        or_false] at ha
      rcases ha with rfl | rfl | rfl | rfl | rfl
      · exact indexOk_counter _
      · exact indexOk_counter _
      · exact indexOk_counter _
      · exact pipeIndex_ok hlt
      · exact indexOk_counter _
  · refine iff_of_true (fun a ha => ?_) (.inl fun hboth => hused hboth.2)
    simp only [List.cons_append, List.nil_append, List.mem_cons, List.not_mem_nil, or_false] at ha
    rcases ha with rfl | rfl | rfl | rfl <;> exact indexOk_counter _
  · exact iff_of_true (fun a ha => absurd ha List.not_mem_nil) (.inl fun hboth => htotal hboth.1)

/-- The step lemma: the indices are in the buffer as long as at most `2 ^ 31 + 1` bytes
have been put. -/
theorem step_indices (h : Counts s) (hle : s.puts.length ≤ 2 ^ 31 + 1) (o : PipeOp) :
    (∀ a ∈ stepAccesses s o, IndexOk a) ↔ (nextPipe s o).puts.length ≤ 2 ^ 31 + 1 := by
  have hnone : ∀ a ∈ ([] : List PipeAccess), IndexOk a := fun a ha => absurd ha List.not_mem_nil
  cases o with
  | read count => exact iff_of_true hnone hle
  | write data => exact iff_of_true hnone hle
  | turn i =>
    rcases turn_cases s i with ⟨hnext, haccess⟩ | ⟨count, got, hnext, haccess⟩ | ⟨data, total,
        hnext, haccess⟩
    · rw [hnext, haccess]
      exact iff_of_true hnone hle
    · obtain ⟨-, hputs⟩ := readTurn_counts h i count got
      rw [hnext, haccess, hputs]
      exact iff_of_true (readAccesses_ok h hle count got) hle
    · rw [hnext, haccess, writeAccesses_ok_iff h hle]
      obtain ⟨-, ⟨htotal, hused, hputs⟩ | ⟨hno, hputs⟩⟩ := writeTurn_counts h i data total
      · rw [hputs, or_iff_right (not_not.mpr ⟨htotal, hused⟩)]
        omega
      · rw [hputs]
        exact iff_of_true (.inl hno) hle

/-- The run lemma. -/
theorem run_indices (h : Counts s) (hle : s.puts.length ≤ 2 ^ 31 + 1) (ops : List PipeOp) :
    (∀ a ∈ runAccesses s ops, IndexOk a) ↔ (ops.foldl nextPipe s).puts.length ≤ 2 ^ 31 + 1 := by
  induction ops generalizing s with
  | nil => exact iff_of_true (fun a ha => absurd ha List.not_mem_nil) hle
  | cons o ops ih =>
    obtain ⟨hcounts, -⟩ := h.next o
    rw [List.foldl_cons, runAccesses, List.forall_mem_append, step_indices h hle o]
    constructor
    · rintro ⟨hnext, hrest⟩
      exact (ih hcounts hnext).mp hrest
    · intro hend
      have hnext := (hcounts.puts_mono ops).trans hend
      exact ⟨hnext, (ih hcounts hnext).mpr hend⟩

/-! ## The result -/

theorem createdPipe_counts : Counts createdPipe := ⟨rfl, rfl, le_refl _, Nat.zero_le _⟩

theorem createAccesses_ok : ∀ a ∈ createAccesses, IndexOk a := by
  intro a ha
  unfold createAccesses at ha
  rcases List.mem_append.mp ha with helem | hcounter
  · obtain ⟨i, hi, rfl⟩ := List.mem_map.mp helem
    rintro index hindex
    cases hindex
    exact ⟨Int.natCast_nonneg i, Int.ofNat_lt.mpr (List.mem_range.mp hi)⟩
  · simp only [List.mem_cons, List.not_mem_nil, or_false] at hcounter
    rcases hcounter with rfl | rfl | rfl | rfl | rfl <;> exact indexOk_counter _

/-- The first store to a counter is behind the frame. -/
theorem readPos_outside (page : Nat) : ¬ InFrame page (.counter .readPos) := by
  rintro ⟨-, hend⟩
  simp only [PipeAccess.offset, PipeAccess.size, PipeField.offset, PIPE_BUF_SIZE] at hend
  omega

/-- The accesses of a pipe stay inside its frame and its buffer only if the pipe is not
created.  Of the two, the index of the buffer is right until `2 ^ 31 + 1` bytes are put. -/
theorem pipe_inside_iff (page : Option Nat) (ops : List PipeOp) :
    ((∀ a ∈ pipeAccesses page ops, IndexOk a ∧ ∀ p ∈ page, InFrame p a) ↔ page = none) ∧
      ((∀ a ∈ pipeAccesses page ops, IndexOk a) ↔
        page = none ∨ (ops.foldl nextPipe createdPipe).puts.length ≤ 2 ^ 31 + 1) := by
  cases page with
  | none =>
    have hnone : ∀ a, a ∉ pipeAccesses none ops := fun a => List.not_mem_nil
    exact ⟨iff_of_true (fun a ha => absurd ha (hnone a)) rfl,
      iff_of_true (fun a ha => absurd ha (hnone a)) (.inl rfl)⟩
  | some page =>
    constructor
    · refine iff_of_false (fun h => ?_) (Option.some_ne_none page)
      have hmem : PipeAccess.counter .readPos ∈ pipeAccesses (some page) ops := by
        refine List.mem_append_left _ (List.mem_append_right _ ?_)
        exact List.mem_cons_self
      exact readPos_outside page ((h _ hmem).2 page rfl)
    · rw [or_iff_right (Option.some_ne_none page)]
      show (∀ a ∈ createAccesses ++ runAccesses createdPipe ops, IndexOk a) ↔ _
      rw [List.forall_mem_append, and_iff_right createAccesses_ok]
      exact run_indices createdPipe_counts (Nat.zero_le _) ops

/-- Creating a pipe is enough to leave the frame. -/
theorem created_not_inside :
    ¬ ∀ a ∈ pipeAccesses (some 0x200000) [], IndexOk a ∧ ∀ p ∈ some 0x200000, InFrame p a := by
  intro h
  have hmem : PipeAccess.counter .readPos ∈ pipeAccesses (some 0x200000) [] :=
    List.mem_append_left _ (List.mem_append_right _ List.mem_cons_self)
  exact readPos_outside 0x200000 ((h _ hmem).2 0x200000 rfl)

end Lumin.Fs
