import Lumin.Libc.StdioWrite

/-!
# Write errors of a stream

`fputc`, `fwrite` and `fflush` of `libc/src/stdio` where `write` may fail.  `accept k` is
how many bytes the `k`-th call of `write` takes of those that it is offered, and 0 is an
error.

After an error `fflush` leaves `pos` as it was, also if a part of the buffer was taken.
So a later flush writes this part again, and `fputc` goes on behind a buffer that is full.
`writesOnce_iff` says that these two are the only ways to write a byte twice or to store
behind the buffer.
-/

namespace Lumin.Libc.StdioErrors

open Lumin.Lib Stdio

/-- The fields of `struct _FILE` that these functions use.  `buf` is the memory from the
buffer on, also behind it. -/
structure Stream where
  buf : Mem
  bufsiz : Nat
  pos : Nat
  writing : Bool
  error : Bool
  unbuffered : Bool
  linebuf : Bool

/-- A call of `write`: the bytes that it is handed, where each of them is (the filling of
the buffer and the offset in it), and how many of them it accepts. -/
structure Write where
  bytes : List UInt8
  slots : List (Nat × Nat)
  taken : Nat

/-- The slots of the bytes that are accepted. -/
def Write.accepted (c : Write) : List (Nat × Nat) := c.slots.take c.taken

/-- A stream with its history: how often the buffer was emptied, the offsets stored to, and
the calls of `write`. -/
structure World where
  f : Stream
  filling : Nat
  stores : List Nat
  writes : List Write

/-! ## The functions -/

/-- `write`. -/
def sysWrite (accept : Nat → Nat) (w : World) (bytes : List UInt8) (slots : List (Nat × Nat)) :
    Nat × World :=
  let n := min (accept w.writes.length) bytes.length
  (n, { w with writes := w.writes ++ [{ bytes, slots, taken := n }] })

/-- The loop of `fflush`: `p` is at the offset `start`.  Each turn of it takes a byte at
least. -/
def flushLoop (accept : Nat → Nat) : Nat → Nat → Nat → World → Bool × World
  | 0, _, total, w => (decide (total = 0), w)
  | fuel + 1, start, total, w =>
    if total = 0 then (true, w)
    else
      match sysWrite accept w ((List.range' start total).map w.f.buf)
        ((List.range' start total).map fun i => (w.filling, i)) with
      | (0, w) => (false, w)
      | (n + 1, w) => flushLoop accept fuel (start + (n + 1)) (total - (n + 1)) w

/-- `fflush`; `false` is `EOF`. -/
def fflush (accept : Nat → Nat) (w : World) : Bool × World :=
  if w.f.writing = false ∨ w.f.pos = 0 then (true, w)
  else
    match flushLoop accept w.f.pos 0 w.f.pos w with
    | (false, w) => (false, { w with f := { w.f with error := true } })
    | (true, w) => (true, { w with f := { w.f with pos := 0 }, filling := w.filling + 1 })

/-- The stores of `bytes` from `pos` on. -/
def World.put (w : World) (bytes : List UInt8) : World :=
  { w with
    f := { w.f with buf := wrBytes w.f.buf w.f.pos bytes, pos := w.f.pos + bytes.length }
    stores := w.stores ++ List.range' w.f.pos bytes.length }

/-- `fputc`; `false` is `EOF`. -/
def fputc (accept : Nat → Nat) (c : Int) (w : World) : Bool × World :=
  if w.f.writing = false then (false, w)
  else if w.f.unbuffered then
    match sysWrite accept w [toByte c] [] with
    | (n, w) => if n ≠ 1 then (false, { w with f := { w.f with error := true } }) else (true, w)
  else
    let w := w.put [toByte c]
    if w.f.pos ≥ w.f.bufsiz ∨ (w.f.linebuf = true ∧ c = 10) then fflush accept w else (true, w)

/-- The loop of `fwrite`: the number of bytes copied, and whether a flush failed.  `none` is
for a loop that needs more turns than there is fuel. -/
def fwriteLoop (accept : Nat → Nat) :
    Nat → List UInt8 → Nat → World → Option ((Nat × Bool) × World)
  | 0, data, written, w => if data = [] then some ((written, true), w) else none
  | fuel + 1, data, written, w =>
    if data = [] then some ((written, true), w)
    else
      let chunk := min data.length (sub64 w.f.bufsiz w.f.pos)
      let w := w.put (data.take chunk)
      if w.f.pos ≥ w.f.bufsiz then
        match fflush accept w with
        | (false, w) => some ((written + chunk, false), w)
        | (true, w) => fwriteLoop accept fuel (data.drop chunk) (written + chunk) w
      else fwriteLoop accept fuel (data.drop chunk) (written + chunk) w

/-- `fwrite` of the bytes at `ptr`, with its return value.  A turn that copies nothing
flushes, so that one turn more than there are bytes is enough. -/
def fwrite (accept : Nat → Nat) (ptr : Mem) (size nmemb : Nat) (w : World) :
    Option (Nat × World) :=
  if w.f.writing = false then some (0, w)
  else
    let data := (List.range (u64 (size * nmemb))).map ptr
    (fwriteLoop accept (data.length + 1) data 0 w).map fun ((written, ok), w) =>
      (if ok then nmemb else if size > 0 then written / size else 0, w)

/-! ## Runs -/

inductive Call where
  | fputc (c : Int)
  | fwrite (ptr : Mem) (size nmemb : Nat)
  | fflush

/-- One call; `none` if it does not come back. -/
def step (accept : Nat → Nat) (w : World) : Call → Option World
  | .fputc c => some (fputc accept c w).2
  | .fwrite ptr size nmemb => (fwrite accept ptr size nmemb w).map Prod.snd
  | .fflush => some (StdioErrors.fflush accept w).2

/-- A buffered stream that was opened for writing. -/
def opened (buf : Mem) (bufsiz : Nat) (linebuf : Bool) : World where
  f := { buf, bufsiz, pos := 0, writing := true, error := false, unbuffered := false, linebuf }
  filling := 0
  stores := []
  writes := []

/-- No byte that was accepted is handed to `write` again. -/
def NoRepeat (writes : List Write) : Prop :=
  writes.Pairwise fun c d => ∀ x ∈ c.accepted, x ∉ d.slots

/-- Nothing is stored behind the buffer, and nothing is written twice. -/
def WritesOnce (w : World) : Prop := (∀ i ∈ w.stores, i < w.f.bufsiz) ∧ NoRepeat w.writes

/-- Of what is in the buffer `write` has accepted something. -/
def PartWritten (w : World) : Prop := ∃ c ∈ w.writes, ∃ x ∈ c.accepted, x.1 = w.filling

/-- The bytes at `ptr`. -/
def Call.data : Call → List UInt8
  | .fputc c => [toByte c]
  | .fwrite ptr size nmemb => (List.range (u64 (size * nmemb))).map ptr
  | .fflush => []

/-- The call flushes the buffer. -/
def Flushes (f : Stream) : Call → Prop
  | .fputc c => f.bufsiz ≤ f.pos + 1 ∨ (f.linebuf = true ∧ c = 10)
  | .fwrite ptr size nmemb =>
    (Call.fwrite ptr size nmemb).data ≠ [] ∧
      f.bufsiz ≤ f.pos + (Call.fwrite ptr size nmemb).data.length
  | .fflush => 0 < f.pos

/-- `fputc` finds room in the buffer, and no call flushes a buffer of which a part was
accepted. -/
def Careful (w : World) (call : Call) : Prop :=
  (∀ c, call = .fputc c → w.f.pos < w.f.bufsiz) ∧ (Flushes w.f call → ¬ PartWritten w)

/-! ## A flush -/

/-- The calls of `write` of a flush from the offset `start` on. -/
structure Flushed (filling start : Nat) (new : List Write) : Prop where
  once : NoRepeat new
  slots : ∀ c ∈ new, ∀ x ∈ c.slots, x.1 = filling ∧ start ≤ x.2
  front : (∃ c ∈ new, ∃ x, x ∈ c.accepted) → ∃ c ∈ new, (filling, start) ∈ c.accepted

variable {accept : Nat → Nat} {w w' : World} {fuel start total filling : Nat}
  {new writes : List Write} {call : Call}
  {data : List UInt8}

theorem noRepeat_append : NoRepeat (writes ++ new) ↔
    NoRepeat writes ∧ NoRepeat new ∧ ∀ c ∈ writes, ∀ d ∈ new, ∀ x ∈ c.accepted, x ∉ d.slots := by
  unfold NoRepeat
  rw [List.pairwise_append]

theorem mem_slots {total : Nat} {x : Nat × Nat} :
    x ∈ (List.range' start total).map (fun i => (filling, i)) ↔ x.1 = filling ∧ start ≤ x.2 ∧
      x.2 < start + total := by
  rw [List.mem_map]
  constructor
  · rintro ⟨i, hi, rfl⟩
    exact ⟨rfl, List.mem_range'_1.mp hi⟩
  · rintro ⟨rfl, hi⟩
    exact ⟨x.2, List.mem_range'_1.mpr hi, rfl⟩

/-- The first `n` slots of a call. -/
theorem take_slots (filling start : Nat) {n : Nat} (hn : n ≤ total) :
    ((List.range' start total).map fun i => (filling, i)).take n =
      (List.range' start n).map fun i => (filling, i) := by
  rw [← List.map_take, List.take_range'_of_length_ge hn]

/-- The loop changes nothing but the history, and writes each byte once. -/
theorem flushLoop_spec (accept : Nat → Nat) (hfuel : total ≤ fuel) (start : Nat) (w : World) :
    ∃ ok new, flushLoop accept fuel start total w = (ok, { w with writes := w.writes ++ new }) ∧
      Flushed w.filling start new ∧ (0 < total → ∃ c ∈ new, (w.filling, start) ∈ c.slots) := by
  induction fuel generalizing start total w with
  | zero =>
    refine ⟨decide (total = 0), [], ?_, ⟨List.Pairwise.nil, by simp, by simp⟩, by omega⟩
    rw [List.append_nil]
    rfl
  | succ fuel ih =>
    rw [flushLoop]
    by_cases hzero : total = 0
    · rw [if_pos hzero]
      refine ⟨true, [], ?_, ⟨List.Pairwise.nil, by simp, by simp⟩, by omega⟩
      rw [List.append_nil]
    · rw [if_neg hzero]
      unfold sysWrite
      dsimp only
      rw [List.length_map, List.length_range']
      have hin : (w.filling, start) ∈ (List.range' start total).map fun i => (w.filling, i) :=
        mem_slots.mpr ⟨rfl, le_refl _, by show start < _; omega⟩
      have hmem : ∀ x ∈ (List.range' start total).map (fun i => (w.filling, i)), x.1 = w.filling ∧
          start ≤ x.2 :=
        fun x hx => ⟨(mem_slots.mp hx).1, (mem_slots.mp hx).2.1⟩
      generalize hbytes : (List.range' start total).map w.f.buf = bytes
      match hn : min (accept w.writes.length) total with
      | 0 =>
        refine ⟨false, _, rfl, ⟨List.pairwise_singleton _ _, ?_, ?_⟩, fun _ => ?_⟩
        · intro c hc x hx
          rw [List.mem_singleton.mp hc] at hx
          exact hmem x hx
        · rintro ⟨c, hc, x, hx⟩
          rw [List.mem_singleton.mp hc] at hx
          exact absurd hx List.not_mem_nil
        · exact ⟨_, List.mem_singleton_self _, hin⟩
      | n + 1 =>
        obtain ⟨ok, new, hrun, hflushed, -⟩ := @ih (total - (n + 1)) (by omega) (start + (n + 1))
          { w with writes := w.writes ++ [⟨bytes, (List.range' start total).map fun i =>
            (w.filling, i), n + 1⟩] }
        rw [List.append_assoc] at hrun
        have haccepted := take_slots w.filling start (show n + 1 ≤ total by omega)
        refine ⟨ok, _, hrun, ⟨List.pairwise_cons.mpr ⟨?_, hflushed.once⟩, ?_, fun _ => ?_⟩,
          fun _ => ⟨_, List.mem_cons_self, hin⟩⟩
        · intro d hd x hx hx'
          rw [Write.accepted, haccepted] at hx
          have hlt := (mem_slots.mp hx).2.2
          have hge := (hflushed.slots d hd x hx').2
          omega
        · intro c hc x hx
          rcases List.mem_cons.mp hc with rfl | hc
          · exact hmem x hx
          · obtain ⟨hfilling, hge⟩ := hflushed.slots c hc x hx
            exact ⟨hfilling, by omega⟩
        · refine ⟨_, List.mem_cons_self, ?_⟩
          rw [Write.accepted, haccepted]
          exact mem_slots.mpr ⟨rfl, le_refl _, by show start < _; omega⟩

/-- The stream after a flush that wrote something. -/
def World.flushed (w : World) (ok : Bool) (new : List Write) : World :=
  if ok then { w with f := { w.f with pos := 0 }, filling := w.filling + 1,
                      writes := w.writes ++ new }
  else { w with f := { w.f with error := true }, writes := w.writes ++ new }

theorem fflush_pos (accept : Nat → Nat) (hwriting : w.f.writing = true) (hpos : 0 < w.f.pos) :
    ∃ ok new, fflush accept w = (ok, w.flushed ok new) ∧ Flushed w.filling 0 new ∧
      ∃ c ∈ new, (w.filling, 0) ∈ c.slots := by
  obtain ⟨ok, new, hrun, hflushed, hfirst⟩ := flushLoop_spec accept (le_refl w.f.pos) 0 w
  refine ⟨ok, new, ?_, hflushed, hfirst hpos⟩
  unfold fflush
  rw [if_neg (by rw [hwriting]; simpa using hpos.ne'), hrun]
  cases ok with
  | false => rfl
  | true => rfl

/-! ## The invariant -/

/-- The states of a run that is careful. -/
structure Inv (w : World) : Prop where
  writing : w.f.writing = true
  buffered : w.f.unbuffered = false
  size : 0 < w.f.bufsiz
  word : w.f.bufsiz < 2 ^ 64
  room : w.f.pos ≤ w.f.bufsiz
  once : WritesOnce w
  slots : ∀ c ∈ w.writes, ∀ x ∈ c.slots, x.1 ≤ w.filling
  front : PartWritten w → ∃ c ∈ w.writes, (w.filling, 0) ∈ c.accepted

/-- A flush of bytes that were not accepted yet. -/
theorem Inv.flush (h : Inv w) (accept : Nat → Nat) (hpart : ¬ PartWritten w)
    (hpos : 0 < w.f.pos) :
    ∃ ok w', fflush accept w = (ok, w') ∧ Inv w' ∧ w'.f.bufsiz = w.f.bufsiz ∧
      (ok = true → w'.f.pos = 0 ∧ ¬ PartWritten w') := by
  obtain ⟨ok, new, hrun, hflushed, -⟩ := fflush_pos accept h.writing hpos
  have hmem : ∀ c ∈ w.writes ++ new, ∀ x ∈ c.slots, x.1 ≤ w.filling := by
    intro c hc x hx
    rcases List.mem_append.mp hc with hc | hc
    · exact h.slots c hc x hx
    · exact (hflushed.slots c hc x hx).1.le
  have honce : NoRepeat (w.writes ++ new) := by
    refine noRepeat_append.mpr ⟨h.once.2, hflushed.once, fun c hc d hd x hx hx' => ?_⟩
    exact hpart ⟨c, hc, x, hx, (hflushed.slots d hd x hx').1⟩
  refine ⟨ok, _, hrun, ?_⟩
  cases ok with
  | false =>
    refine ⟨⟨h.writing, h.buffered, h.size, h.word, h.room, ⟨h.once.1, honce⟩, hmem, ?_⟩, rfl,
      fun hok => by cases hok⟩
    rintro ⟨c, hc, x, hx, hfilling⟩
    rcases List.mem_append.mp hc with hold | hnew
    · exact absurd ⟨c, hold, x, hx, hfilling⟩ hpart
    · obtain ⟨c₀, hc₀, hfront⟩ := hflushed.front ⟨c, hnew, x, hx⟩
      exact ⟨c₀, List.mem_append_right _ hc₀, hfront⟩
  | true =>
    -- The next filling has no slots yet.
    have hnone : ¬ PartWritten (w.flushed true new) := by
      rintro ⟨c, hc, x, hx, hfilling⟩
      have hle := hmem c hc x (List.mem_of_mem_take hx)
      change x.1 = w.filling + 1 at hfilling
      omega
    refine ⟨⟨h.writing, h.buffered, h.size, h.word, Nat.zero_le _, ⟨h.once.1, honce⟩, ?_,
      fun hpart => absurd hpart hnone⟩,
      rfl, fun _ => ⟨rfl, hnone⟩⟩
    exact fun c hc x hx => Nat.le_succ_of_le (hmem c hc x hx)

/-- Stores that there is room for. -/
theorem Inv.put (h : Inv w) (hroom : w.f.pos + data.length ≤ w.f.bufsiz) : Inv (w.put data) := by
  refine ⟨h.writing, h.buffered, h.size, h.word, hroom, ⟨fun i hi => ?_, h.once.2⟩, h.slots,
    h.front⟩
  rcases List.mem_append.mp hi with hi | hi
  · exact h.once.1 i hi
  · have hlt := (List.mem_range'_1.mp hi).2
    show i < w.f.bufsiz
    omega

/-! ## Careful calls -/

theorem Inv.fputc (h : Inv w) {c : Int} (hcareful : Careful w (.fputc c)) :
    Inv (fputc accept c w).2 := by
  have hroom := hcareful.1 c rfl
  have hput : Inv (w.put [toByte c]) := h.put hroom
  unfold StdioErrors.fputc
  rw [if_neg (by rw [h.writing]; decide), if_neg (by rw [h.buffered]; decide)]
  dsimp only
  split
  next hflush =>
    obtain ⟨ok, w', hrun, hinv, -⟩ := hput.flush accept (hcareful.2 hflush) (Nat.succ_pos _)
    rw [hrun]
    exact hinv
  next => exact hput

/-- `fwrite` comes back, and keeps the invariant. -/
theorem Inv.fwriteLoop (h : Inv w) (hcareful : data ≠ [] → w.f.bufsiz ≤ w.f.pos + data.length →
    ¬ PartWritten w)
    (hfuel : data.length + (if w.f.pos = w.f.bufsiz then 1 else 0) ≤ fuel) (written : Nat) :
    ∃ r w', fwriteLoop accept fuel data written w = some (r, w') ∧ Inv w' := by
  induction fuel generalizing data w written with
  | zero =>
    have hnil : data = [] := List.length_eq_zero_iff.mp (by omega)
    exact ⟨_, w, by rw [StdioErrors.fwriteLoop, if_pos hnil], h⟩
  | succ fuel ih =>
    rw [StdioErrors.fwriteLoop]
    by_cases hnil : data = []
    · rw [if_pos hnil]
      exact ⟨_, w, rfl, h⟩
    · have hlen := List.length_pos_of_ne_nil hnil
      have hroom := h.room
      rw [if_neg hnil, sub64_of_le h.word hroom]
      dsimp only
      generalize hchunk : min data.length (w.f.bufsiz - w.f.pos) = chunk
      have htake : (data.take chunk).length = chunk := List.length_take_of_le (by omega)
      have hput : Inv (w.put (data.take chunk)) := h.put (by omega)
      have hdrop : (data.drop chunk).length = data.length - chunk := List.length_drop
      have hsize := h.size
      split
      next hfull =>
        have hpos : w.f.pos + (data.take chunk).length ≥ w.f.bufsiz := hfull
        obtain ⟨ok, w', hrun, hinv, hbufsiz, hclean⟩ := hput.flush accept
          (hcareful hnil (by omega)) (by show 0 < w.f.pos + _; omega)
        rw [hrun]
        cases ok with
        | false => exact ⟨_, w', rfl, hinv⟩
        | true =>
          obtain ⟨hzero, hnone⟩ := hclean rfl
          have hsame : w'.f.bufsiz = w.f.bufsiz := hbufsiz
          refine ih hinv (fun _ _ => hnone) ?_ _
          rw [hzero, hsame, hdrop, if_neg (by omega)]
          split_ifs at hfuel <;> omega
      next hspace =>
        have hpos : ¬ w.f.pos + (data.take chunk).length ≥ w.f.bufsiz := hspace
        have hend : data.drop chunk = [] := by
          apply List.length_eq_zero_iff.mp
          omega
        rw [hend]
        refine ih hput (fun hne => absurd rfl hne) ?_ _
        show 0 + (if w.f.pos + _ = w.f.bufsiz then 1 else 0) ≤ fuel
        rw [if_neg (by omega)]
        omega

/-- `fwrite` on a stream for writing is its loop. -/
theorem step_fwrite (accept : Nat → Nat) (hwriting : w.f.writing = true) (ptr : Mem)
    (size nmemb : Nat) :
    step accept w (.fwrite ptr size nmemb) =
      (fwriteLoop accept ((Call.fwrite ptr size nmemb).data.length + 1)
        (Call.fwrite ptr size nmemb).data 0 w).map
        Prod.snd := by
  show Option.map Prod.snd (fwrite accept ptr size nmemb w) = _
  unfold fwrite
  rw [if_neg (by rw [hwriting]; decide)]
  show Option.map Prod.snd
      (Option.map _ (fwriteLoop accept _ (Call.fwrite ptr size nmemb).data 0 w)) = _
  rw [Option.map_map]
  rfl

theorem Inv.step (h : Inv w) (hcareful : Careful w call) :
    ∃ w', step accept w call = some w' ∧ Inv w' := by
  cases call with
  | fputc c => exact ⟨_, rfl, h.fputc hcareful⟩
  | fwrite ptr size nmemb =>
    have hcalm : (Call.fwrite ptr size nmemb).data ≠ [] →
        w.f.bufsiz ≤ w.f.pos + (Call.fwrite ptr size nmemb).data.length → ¬ PartWritten w :=
      fun hne hlen => hcareful.2 ⟨hne, hlen⟩
    rw [step_fwrite accept h.writing]
    generalize (Call.fwrite ptr size nmemb).data = data at hcalm ⊢
    have hfuel : data.length + (if w.f.pos = w.f.bufsiz then 1 else 0) ≤ data.length + 1 := by
      split_ifs <;> omega
    obtain ⟨r, w', hrun, hinv⟩ := @Inv.fwriteLoop accept w _ data h hcalm hfuel 0
    exact ⟨w', by rw [hrun]; rfl, hinv⟩
  | fflush =>
    show ∃ w', some (StdioErrors.fflush accept w).2 = some w' ∧ Inv w'
    by_cases hzero : w.f.pos = 0
    · refine ⟨w, ?_, h⟩
      unfold StdioErrors.fflush
      rw [if_pos (.inr hzero)]
    · obtain ⟨ok, w', hrun, hinv, -⟩ := h.flush accept
        (hcareful.2 (Nat.pos_of_ne_zero hzero)) (Nat.pos_of_ne_zero hzero)
      exact ⟨w', by rw [hrun], hinv⟩

/-! ## Careless calls -/

/-- From `w` to `w'` the history only grows. -/
structure Grows (w w' : World) : Prop where
  bufsiz : w'.f.bufsiz = w.f.bufsiz
  stores : w.stores <+: w'.stores
  writes : w.writes <+: w'.writes

theorem Grows.refl (w : World) : Grows w w := ⟨rfl, List.prefix_refl _, List.prefix_refl _⟩

theorem Grows.trans {w₁ w₂ w₃ : World} (h : Grows w₁ w₂) (h' : Grows w₂ w₃) : Grows w₁ w₃ :=
  ⟨h'.bufsiz.trans h.bufsiz, h.stores.trans h'.stores, h.writes.trans h'.writes⟩

/-- What went wrong stays in the history. -/
theorem Grows.writesOnce (h : Grows w w') (hw : WritesOnce w') : WritesOnce w := by
  refine ⟨fun i hi => ?_, List.Pairwise.sublist h.writes.sublist hw.2⟩
  rw [← h.bufsiz]
  exact hw.1 i (h.stores.subset hi)

theorem grows_put (w : World) (data : List UInt8) : Grows w (w.put data) :=
  ⟨rfl, List.prefix_append _ _, List.prefix_refl _⟩

theorem grows_flush (accept : Nat → Nat) (w : World) : Grows w (fflush accept w).2 := by
  by_cases hnone : w.f.writing = false ∨ w.f.pos = 0
  · unfold fflush
    rw [if_pos hnone]
    exact Grows.refl w
  · obtain ⟨hwriting, hpos⟩ := not_or.mp hnone
    obtain ⟨ok, new, hrun, -⟩ :=
      fflush_pos accept (Bool.not_eq_false _ ▸ hwriting) (Nat.pos_of_ne_zero hpos)
    rw [hrun]
    cases ok with
    | false => exact ⟨rfl, List.prefix_refl _, List.prefix_append _ _⟩
    | true => exact ⟨rfl, List.prefix_refl _, List.prefix_append _ _⟩

theorem grows_fwriteLoop {written : Nat} {r : Nat × Bool}
    (hrun : fwriteLoop accept fuel data written w = some (r, w')) : Grows w w' := by
  induction fuel generalizing data written w with
  | zero =>
    rw [fwriteLoop] at hrun
    split_ifs at hrun
    cases hrun
    exact Grows.refl _
  | succ fuel ih =>
    rw [fwriteLoop] at hrun
    by_cases hnil : data = []
    · rw [if_pos hnil] at hrun
      cases hrun
      exact Grows.refl _
    · rw [if_neg hnil] at hrun
      dsimp only at hrun
      have hput := grows_put w (data.take (min data.length (sub64 w.f.bufsiz w.f.pos)))
      split at hrun
      · have hflush :=
          grows_flush accept (w.put (data.take (min data.length (sub64 w.f.bufsiz w.f.pos))))
        rcases hres :
            fflush accept
            (w.put (data.take (min data.length (sub64 w.f.bufsiz w.f.pos)))) with ⟨ok, w₁⟩
        rw [hres] at hrun hflush
        cases ok with
        | false =>
          cases hrun
          exact hput.trans hflush
        | true => exact (hput.trans hflush).trans (ih hrun)
      · exact hput.trans (ih hrun)

/-- A flush of a buffer of which a part was accepted writes this part again. -/
theorem not_writesOnce_flush (accept : Nat → Nat) (hwriting : w.f.writing = true)
    (hpos : 0 < w.f.pos)
    (hfront : ∃ c ∈ w.writes, (w.filling, 0) ∈ c.accepted) :
    ¬ WritesOnce (fflush accept w).2 := by
  obtain ⟨c, hc, hc'⟩ := hfront
  obtain ⟨ok, new, hrun, -, d, hd, hd'⟩ := fflush_pos accept hwriting hpos
  rw [hrun]
  rintro ⟨-, honce⟩
  have hrepeat : NoRepeat (w.writes ++ new) := by
    cases ok with
    | false => exact honce
    | true => exact honce
  exact (noRepeat_append.mp hrepeat).2.2 c hc d hd _ hc' hd'

/-- A call that is not careful goes wrong. -/
theorem Inv.careless (h : Inv w) (hcareless : ¬ Careful w call)
    (hstep : StdioErrors.step accept w call = some w') :
    ¬ WritesOnce w' := by
  have hnot : (∃ c, call = .fputc c ∧ w.f.bufsiz ≤ w.f.pos) ∨
      (Flushes w.f call ∧ PartWritten w) := by
    by_contra hno
    refine hcareless ⟨fun c hc => ?_, fun hflush hpart => hno (.inr ⟨hflush, hpart⟩)⟩
    by_contra hroom
    exact hno (.inl ⟨c, hc, not_lt.mp hroom⟩)
  have hsize := h.size
  cases call with
  | fputc c =>
    cases hstep
    unfold StdioErrors.fputc
    rw [if_neg (by rw [h.writing]; decide), if_neg (by rw [h.buffered]; decide)]
    dsimp only
    rcases hnot with ⟨-, -, hfull⟩ | ⟨hflush, hpart⟩
    · -- The byte is stored behind the buffer.
      have hbad : ¬ WritesOnce (w.put [toByte c]) := by
        rintro ⟨hstores, -⟩
        have := hstores w.f.pos
            (List.mem_append_right _ (List.mem_range'_1.mpr ⟨le_refl _, Nat.lt_succ_self _⟩))
        exact absurd this (not_lt.mpr hfull)
      split
      · exact fun hgood => hbad ((grows_flush accept _).writesOnce hgood)
      · exact hbad
    · have hcond : (w.put [toByte c]).f.pos ≥ (w.put [toByte c]).f.bufsiz ∨
          ((w.put [toByte c]).f.linebuf = true ∧ c = 10) := hflush
      rw [if_pos hcond]
      exact not_writesOnce_flush accept h.writing (Nat.succ_pos _) (h.front hpart)
  | fwrite ptr size nmemb =>
    rcases hnot with ⟨c, hc, -⟩ | ⟨⟨hne, hlen⟩, hpart⟩
    · cases hc
    · rw [step_fwrite accept h.writing] at hstep
      generalize (Call.fwrite ptr size nmemb).data = data at hne hlen hstep
      rw [StdioErrors.fwriteLoop, if_neg hne, sub64_of_le h.word h.room] at hstep
      dsimp only at hstep
      have hroom := h.room
      generalize hchunk : min data.length (w.f.bufsiz - w.f.pos) = chunk at hstep
      have htake : (data.take chunk).length = chunk := List.length_take_of_le (by omega)
      have hfull : (w.put (data.take chunk)).f.pos ≥ (w.put (data.take chunk)).f.bufsiz := by
        show w.f.pos + (data.take chunk).length ≥ w.f.bufsiz
        omega
      have hbad := not_writesOnce_flush accept (w := w.put (data.take chunk)) h.writing
        (Nat.lt_of_lt_of_le hsize hfull) (h.front hpart)
      rw [if_pos hfull] at hstep
      rcases hres : StdioErrors.fflush accept (w.put (data.take chunk)) with ⟨ok, w₁⟩
      rw [hres] at hstep hbad
      cases ok with
      | false =>
        cases hstep
        exact hbad
      | true =>
        dsimp only at hstep
        rcases hrest :
            StdioErrors.fwriteLoop accept data.length (data.drop chunk)
            (0 + chunk) w₁ with _ | ⟨r, w₂⟩
        · rw [hrest] at hstep
          cases hstep
        · rw [hrest] at hstep
          cases hstep
          exact fun hgood => hbad ((grows_fwriteLoop hrest).writesOnce hgood)
  | fflush =>
    cases hstep
    rcases hnot with ⟨c, hc, -⟩ | ⟨hpos, hpart⟩
    · cases hc
    · exact not_writesOnce_flush accept h.writing hpos (h.front hpart)

/-! ## The result -/

theorem inv_opened (buf : Mem) {bufsiz : Nat} (hsize : 0 < bufsiz) (hword : bufsiz < 2 ^ 64)
    (linebuf : Bool) : Inv (opened buf bufsiz linebuf) := by
  refine ⟨rfl, rfl, hsize, hword, Nat.zero_le _, ⟨by simp [opened], List.Pairwise.nil⟩,
    by simp [opened], ?_⟩
  rintro ⟨c, hc, -⟩
  exact absurd hc List.not_mem_nil

/-- In a run on a buffered stream nothing is stored behind the buffer and no byte is
written twice exactly if its calls are careful. -/
theorem writesOnce_iff (accept : Nat → Nat) (buf : Mem) {bufsiz : Nat} (hsize : 0 < bufsiz)
    (hword : bufsiz < 2 ^ 64)
    (linebuf : Bool) (calls : List Call) :
    (∀ w ∈ visited (step accept) (opened buf bufsiz linebuf) calls, WritesOnce w) ↔
      Guarded (step accept) Careful (opened buf bufsiz linebuf) calls := by
  refine visited_iff_guarded (fun w (h : Inv w) => h.once) ?_ ?_
    (inv_opened buf hsize hword linebuf) calls
  · intro w call w' h hcareful hstep
    obtain ⟨w₁, hstep₁, hinv⟩ := h.step hcareful
    rw [hstep] at hstep₁
    exact Option.some.inj hstep₁ ▸ hinv
  · exact fun w call w' h hcareless hstep => h.careless hcareless hstep

/-- Two bytes through a buffer of two, all accepted at once. -/
theorem writesOnce_twoBytes : (0 < 2 ∧ 2 < 2 ^ 64) ∧
    ∀ w ∈ visited (step fun _ => 2) (opened (fun _ => 0) 2 false) [.fputc 97, .fputc 98],
        WritesOnce w := by
  refine ⟨by decide, (writesOnce_iff _ _ (by decide) (by decide) _ _).mpr ?_⟩
  have hcareful : ∀ (w : World) (c : Int), w.f.pos < w.f.bufsiz → w.writes = [] →
      Careful w (.fputc c) := by
    intro w c hroom hnone
    refine ⟨fun _ _ => hroom, fun _ hpart => ?_⟩
    obtain ⟨d, hd, -⟩ := hpart
    rw [hnone] at hd
    exact absurd hd List.not_mem_nil
  exact ⟨hcareful _ _ (by decide) rfl, hcareful _ _ (by decide) rfl, trivial⟩

/-- A flush of two bytes fails after the first one, and the next byte is stored behind the
buffer. -/
theorem writeError_overruns :
    ¬ ∀ (accept : Nat → Nat) (buf : Mem) (bufsiz : Nat) (linebuf : Bool) (calls : List Call),
    0 < bufsiz → bufsiz < 2 ^ 64 →
      ∀ w ∈ visited (step accept) (opened buf bufsiz linebuf) calls, WritesOnce w := by
  intro h
  have hlast :
      ∃ w ∈ visited (step fun k => 1 - k) (opened (fun _ => 0) 2 false)
      [.fputc 97, .fputc 98, .fputc 99],
      ∃ i ∈ w.stores, ¬ i < w.f.bufsiz := by decide
  obtain ⟨w, hw, i, hi, hover⟩ := hlast
  exact hover ((h (fun k => 1 - k) (fun _ => 0) 2 false _ (by decide) (by decide) w hw).1 i hi)

end Lumin.Libc.StdioErrors
