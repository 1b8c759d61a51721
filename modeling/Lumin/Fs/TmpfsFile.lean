import Lumin.Lib.Transition
import Lumin.Lib.Word

/-!
# Files of tmpfs

A model of `tmpfs_read`, `tmpfs_write` and `tmpfs_truncate` of `kernel/fs/tmpfs.c` on one
file.  A block of the heap is the function of its bytes.  What `kmalloc` returns comes
with the call: a block with whatever it held before, or `none`.

`TmpInv` is the invariant: the buffer covers the size, and every byte written since the
last truncation that cut it off is in the buffer.  `tmpfs_file_spec` is the result for
every sequence of calls.
-/

namespace Lumin.Fs

open Lumin.Lib

def TMPFS_MAX_FILE_SIZE : Nat := 65536

/-- A block of the heap. -/
abbrev Block := Nat → UInt8

/-- `struct tmpfs_file`, with `inode->size`. -/
structure TmpFile where
  data : Option Block
  size : Nat
  capacity : Nat
  inodeSize : Nat

/-- The file of `tmpfs_create`. -/
def TmpFile.new : TmpFile := { data := none, size := 0, capacity := 0, inodeSize := 0 }

/-- The doubling loop.  It runs at most sixteen times from a capacity above 0. -/
def growLoop : Nat → Nat → Nat → Nat
  | 0, newCap, _ => newCap
  | fuel + 1, newCap, needed =>
    if newCap < needed ∧ newCap < TMPFS_MAX_FILE_SIZE then growLoop fuel (u64 (newCap * 2)) needed
      else newCap

/-- `new_cap` after the loop and the cap. -/
def newCapacity (f : TmpFile) (needed : Nat) : Nat :=
  min (growLoop 16 (if f.capacity ≠ 0 then f.capacity else 64) needed) TMPFS_MAX_FILE_SIZE

/-- Copy the first `n` bytes of the old buffer, if there is one. -/
def copyFrom (old : Option Block) (n : Nat) (new : Block) : Block :=
  match old with
  | none => new
  | some old => fun i => if i < n then old i else new i

/-- Make room for `needed` bytes and keep the first `keep`; `none` is `return -1`. -/
def growBuffer (f : TmpFile) (needed keep : Nat) (alloc : Option Block) : Option TmpFile :=
  if needed > f.capacity then
    if newCapacity f needed < needed then none
    else
      match alloc with
      | none => none
      | some new =>
        some { f with data := some (copyFrom f.data keep new), capacity := newCapacity f needed }
  else some f

/-- `tmpfs_read`: the result and the bytes stored in the buffer. -/
def tmpfsRead (f : TmpFile) (offset size : Nat) : Int × List UInt8 :=
  match f.data with
  | none => (-1, [])
  | some data =>
    if offset ≥ f.size then (0, [])
    else
      let avail := min (f.size - offset) size
      (s32 avail, (List.range avail).map fun i => data (offset + i))

/-- The block with the bytes `buf` stored from `offset` on.  The index `offset + i` is
a `uint64_t`. -/
def storeBytes (data : Block) (offset : Nat) (buf : List UInt8) : Block := fun i =>
  if i < 2 ^ 64 ∧ sub64 i offset < buf.length then buf.getD (sub64 i offset) 0 else data i

/-- `tmpfs_write`. -/
def tmpfsWrite (f : TmpFile) (offset : Nat) (buf : List UInt8) (alloc : Option Block) :
    Int × TmpFile :=
  let needed := u64 (offset + buf.length)
  match growBuffer f needed f.size alloc with
  | none => (-1, f)
  | some g =>
    (s32 buf.length,
      { g with
        data := g.data.map fun data => storeBytes data offset buf
        size := if needed > g.size then needed else g.size
        inodeSize := if needed > g.inodeSize then needed else g.inodeSize })

/-- `tmpfs_truncate`. -/
def tmpfsTruncate (f : TmpFile) (size : Nat) (alloc : Option Block) : Int × TmpFile :=
  match growBuffer f size (if f.size < size then f.size else size) alloc with
  | none => (-1, f)
  | some g => (0, { g with size := size, inodeSize := size })

/-! ## Runs -/

/-- A file, and for each position the last byte written there since the last truncation
to this position or less. -/
structure TmpRun where
  file : TmpFile
  written : Nat → Option UInt8

inductive TmpOp where
  | read (offset size : Nat)
  | write (offset : Nat) (buf : List UInt8) (alloc : Option Block)
  | truncate (size : Nat) (alloc : Option Block)

/-- What a call returns, and the file after it. -/
def tmpCall (f : TmpFile) : TmpOp → Int × TmpFile
  | .read offset size => ((tmpfsRead f offset size).1, f)
  | .write offset buf alloc => tmpfsWrite f offset buf alloc
  | .truncate size alloc => tmpfsTruncate f size alloc

/-- The bytes written after a call that succeeds. -/
def writtenAfter (written : Nat → Option UInt8) : TmpOp → Nat → Option UInt8
  | .read _ _ => written
  | .write offset buf _ => fun i => if offset ≤ i ∧ i < offset + buf.length then buf[i - offset]?
    else written i
  | .truncate size _ => fun i => if size ≤ i then none else written i

def tmpStep (s : TmpRun) (o : TmpOp) : Option TmpRun :=
  some { file := (tmpCall s.file o).2
         written := if (tmpCall s.file o).1 = -1 then s.written else writtenAfter s.written o }

/-- The calls that the VFS makes: the range does not wrap, and a write is not empty. -/
def TmpOp.Fits (_ : TmpRun) : TmpOp → Prop
  | .read offset size => offset + size < 2 ^ 64
  | .write offset buf _ => offset + buf.length < 2 ^ 64 ∧ buf ≠ []
  | .truncate size _ => size < 2 ^ 64

/-- A new file. -/
def tmpStart : TmpRun := { file := .new, written := fun _ => none }

/-- The buffer covers the size and holds what was written. -/
structure TmpInv (s : TmpRun) : Prop where
  size_le : s.file.size ≤ s.file.capacity
  capacity_le : s.file.capacity ≤ TMPFS_MAX_FILE_SIZE
  inodeSize : s.file.inodeSize = s.file.size
  data : s.file.data = none → s.file.capacity = 0
  written_lt : ∀ i b, s.written i = some b → i < s.file.size
  written : ∀ i b data, s.written i = some b → s.file.data = some data → data i = b

variable {s s' : TmpRun} {f g : TmpFile} {o : TmpOp} {needed keep offset size : Nat}
  {alloc : Option Block}
  {buf : List UInt8}

/-! ## Growing the buffer -/

/-- The loop stops at the need or at the limit. -/
theorem growLoop_reaches (fuel newCap needed : Nat)
    (hfuel : TMPFS_MAX_FILE_SIZE ≤ newCap * 2 ^ fuel)
    (hcap : newCap < 2 ^ 63) :
    needed ≤ growLoop fuel newCap needed ∨ TMPFS_MAX_FILE_SIZE ≤ growLoop fuel newCap needed := by
  induction fuel generalizing newCap with
  | zero =>
    right
    simpa [growLoop] using hfuel
  | succ fuel ih =>
    rw [growLoop]
    split
    next hless =>
      have hdouble : u64 (newCap * 2) = newCap * 2 := u64_of_lt (by omega)
      have hlimit := hless.2
      unfold TMPFS_MAX_FILE_SIZE at hlimit
      rw [hdouble]
      refine ih (newCap * 2) ?_ (by omega)
      rw [Nat.pow_succ] at hfuel
      calc TMPFS_MAX_FILE_SIZE ≤ newCap * (2 ^ fuel * 2) := hfuel
        _ = newCap * 2 * 2 ^ fuel := by ring
    next hdone => omega

/-- The new capacity is enough exactly if the need is below the limit. -/
theorem newCapacity_spec (hcap : f.capacity ≤ TMPFS_MAX_FILE_SIZE)
    (hneeded : needed ≤ TMPFS_MAX_FILE_SIZE) :
    needed ≤ newCapacity f needed := by
  have hstart : 0 < (if f.capacity ≠ 0 then f.capacity else 64) ∧
      (if f.capacity ≠ 0 then f.capacity else 64) ≤ TMPFS_MAX_FILE_SIZE := by
    unfold TMPFS_MAX_FILE_SIZE at hcap ⊢
    split <;> omega
  have hreach := growLoop_reaches 16 (if f.capacity ≠ 0 then f.capacity else 64) needed
    (by unfold TMPFS_MAX_FILE_SIZE at hstart ⊢; omega)
    (by unfold TMPFS_MAX_FILE_SIZE at hstart; omega)
  unfold newCapacity
  omega

/-- Growing changes the buffer and the capacity, and keeps the first bytes. -/
structure Grown (f g : TmpFile) (needed keep : Nat) : Prop where
  size : g.size = f.size
  inodeSize : g.inodeSize = f.inodeSize
  needed_le : needed ≤ g.capacity
  capacity_le : g.capacity ≤ TMPFS_MAX_FILE_SIZE
  mono : f.capacity ≤ g.capacity
  data : g.data = none → g.capacity = 0
  kept : ∀ i old new, i < keep → f.data = some old → g.data = some new → new i = old i

theorem growBuffer_spec (hcap : f.capacity ≤ TMPFS_MAX_FILE_SIZE) (hdata : f.data = none →
    f.capacity = 0)
    (hg : growBuffer f needed keep alloc = some g) : Grown f g needed keep := by
  unfold growBuffer at hg
  split at hg
  next hmore =>
    split at hg
    · contradiction
    next henough =>
      split at hg
      · contradiction
      next new =>
        obtain rfl := Option.some.inj hg
        exact {
          size := rfl
          inodeSize := rfl
          needed_le := by show needed ≤ newCapacity f needed; omega
          capacity_le := Nat.min_le_right _ _
          mono := by show f.capacity ≤ newCapacity f needed; omega
          data := by simp
          kept := by
            intro i old _ hi hold hnew
            obtain rfl := Option.some.inj hnew
            simp [hold, copyFrom, hi] }
  next hroom =>
    obtain rfl := Option.some.inj hg
    exact {
      size := rfl
      inodeSize := rfl
      needed_le := by omega
      capacity_le := hcap
      mono := Nat.le_refl _
      data := hdata
      kept := by
        intro i old new _ hold hnew
        rw [hold] at hnew
        exact congrFun (Option.some.inj hnew).symm i }

/-! ## One call -/

theorem tmpfsWrite_cases (f : TmpFile) (offset : Nat) (buf : List UInt8) (alloc : Option Block)
    (hfits : offset + buf.length < 2 ^ 64) (hcap : f.capacity ≤ TMPFS_MAX_FILE_SIZE)
    (hdata : f.data = none → f.capacity = 0) (hinode : f.inodeSize = f.size) :
    tmpfsWrite f offset buf alloc = (-1, f) ∨
      ∃ g, Grown f g (offset + buf.length) f.size ∧
        tmpfsWrite f offset buf alloc = ((buf.length : Int),
          { g with
            data := g.data.map fun data => storeBytes data offset buf
            size := max f.size (offset + buf.length)
            inodeSize := max f.size (offset + buf.length) }) := by
  simp only [tmpfsWrite, u64_of_lt hfits]
  rcases hgrow : growBuffer f (offset + buf.length) f.size alloc with _ | g
  · exact .inl rfl
  · right
    have hgrown := growBuffer_spec hcap hdata hgrow
    have hlen : buf.length ≤ TMPFS_MAX_FILE_SIZE := by
      have h₁ := hgrown.needed_le
      have h₂ := hgrown.capacity_le
      omega
    have hmax : ∀ size, (if offset + buf.length > size then offset + buf.length else size) =
        max size (offset + buf.length) := by
      intro size
      split <;> omega
    refine ⟨g, hgrown, ?_⟩
    show (s32 buf.length, _) = _
    rw [s32_of_lt (by unfold TMPFS_MAX_FILE_SIZE at hlen; omega)]
    simp only [hmax, hgrown.size, hgrown.inodeSize, hinode]

theorem tmpfsTruncate_cases (f : TmpFile) (size : Nat) (alloc : Option Block)
    (hcap : f.capacity ≤ TMPFS_MAX_FILE_SIZE) (hdata : f.data = none → f.capacity = 0) :
    tmpfsTruncate f size alloc = (-1, f) ∨
      ∃ g, Grown f g size (min f.size size) ∧
        tmpfsTruncate f size alloc = (0, { g with size := size, inodeSize := size }) := by
  have hmin : (if f.size < size then f.size else size) = min f.size size := by
    split <;> omega
  unfold tmpfsTruncate
  rw [hmin]
  rcases hgrow : growBuffer f size (min f.size size) alloc with _ | g
  · exact .inl rfl
  · exact .inr ⟨g, growBuffer_spec hcap hdata hgrow, rfl⟩

theorem TmpInv.start : TmpInv tmpStart := by
  constructor <;> simp [tmpStart, TmpFile.new, TMPFS_MAX_FILE_SIZE]

/-- Where the index does not wrap, the bytes are stored one after the other. -/
theorem storeBytes_of_fits {data : Block} {i : Nat} (hfits : offset + buf.length < 2 ^ 64) :
    storeBytes data offset buf i =
      if offset ≤ i ∧ i < offset + buf.length then buf.getD (i - offset) 0 else data i := by
  unfold storeBytes
  by_cases hin : offset ≤ i ∧ i < offset + buf.length
  · have hsub : sub64 i offset = i - offset := sub64_of_le (by omega) hin.1
    rw [if_pos hin, hsub, if_pos (by omega)]
  · rw [if_neg hin, if_neg]
    unfold sub64 u64
    omega

/-- The bytes of a write are in the buffer after it. -/
theorem storeBytes_written {data : Block} {i : Nat} {b : UInt8}
    (hfits : offset + buf.length < 2 ^ 64)
    (hb : (if offset ≤ i ∧ i < offset + buf.length then buf[i - offset]? else some (data i)) =
      some b) :
    storeBytes data offset buf i = b := by
  rw [storeBytes_of_fits hfits]
  split at hb
  next hin => rw [if_pos hin, List.getD_eq_getElem?_getD, hb, Option.getD_some]
  next hout => rw [if_neg hout, Option.some.inj hb]

theorem TmpInv.write (hinv : TmpInv s) (hfits : offset + buf.length < 2 ^ 64)
    (hs : tmpStep s (.write offset buf alloc) = some s') : TmpInv s' := by
  obtain rfl := Option.some.inj hs
  have hcases :=
    tmpfsWrite_cases s.file offset buf alloc hfits hinv.capacity_le hinv.data hinv.inodeSize
  rcases hcases with hfail | ⟨g, hgrown, hok⟩
  · rw [tmpCall, hfail, if_pos rfl]
    exact hinv
  · rw [tmpCall, hok, if_neg (by omega)]
    have hneeded := hgrown.needed_le
    have hmono := hgrown.mono
    have hsize := hinv.size_le
    exact {
      size_le := by
        show max s.file.size (offset + buf.length) ≤ g.capacity
        omega
      capacity_le := hgrown.capacity_le
      inodeSize := rfl
      data := by
        intro hnone
        exact hgrown.data (Option.map_eq_none_iff.mp hnone)
      written_lt := by
        intro i b hb
        show i < max s.file.size (offset + buf.length)
        simp only [writtenAfter] at hb
        split at hb
        · omega
        · have := hinv.written_lt i b hb
          omega
      written := by
        intro i b data hb hdata
        obtain ⟨old, hold, rfl⟩ := Option.map_eq_some_iff.mp hdata
        apply storeBytes_written hfits
        simp only [writtenAfter] at hb
        split at hb
        next hin => rw [if_pos hin, hb]
        next hout =>
          -- a byte written before was below the size, so the old buffer was there
          rw [if_neg hout]
          have hlt := hinv.written_lt i b hb
          rcases hfile : s.file.data with _ | before
          · have := hinv.data hfile
            omega
          · rw [hgrown.kept i before old hlt hfile hold, hinv.written i b before hb hfile] }

theorem TmpInv.truncate (hinv : TmpInv s) (hs : tmpStep s (.truncate size alloc) = some s') :
    TmpInv s' := by
  obtain rfl := Option.some.inj hs
  rcases tmpfsTruncate_cases s.file size alloc hinv.capacity_le
      hinv.data with hfail | ⟨g, hgrown, hok⟩
  · rw [tmpCall, hfail, if_pos rfl]
    exact hinv
  · rw [tmpCall, hok, if_neg (by omega)]
    -- the positions from the new size on are forgotten
    have hbelow : ∀ i b, writtenAfter s.written (.truncate size alloc) i = some b →
        s.written i = some b ∧ i < size := by
      intro i b hb
      simp only [writtenAfter] at hb
      split at hb
      · contradiction
      · exact ⟨hb, by omega⟩
    exact {
      size_le := hgrown.needed_le
      capacity_le := hgrown.capacity_le
      inodeSize := rfl
      data := hgrown.data
      written_lt := fun i b hb => (hbelow i b hb).2
      written := by
        intro i b data hb hdata
        obtain ⟨hb, hi⟩ := hbelow i b hb
        have hlt := hinv.written_lt i b hb
        rcases hfile : s.file.data with _ | before
        · have hzero := hinv.data hfile
          have hsize := hinv.size_le
          omega
        · rw [hgrown.kept i before data (by omega) hfile hdata,
            hinv.written i b before hb hfile] }

theorem TmpInv.step (hinv : TmpInv s) (hfits : o.Fits s) (hs : tmpStep s o = some s') :
    TmpInv s' := by
  cases o with
  | read offset size =>
    obtain rfl := Option.some.inj hs
    rw [tmpCall]
    simp only [writtenAfter, ite_self]
    exact hinv
  | write offset buf alloc => exact hinv.write hfits.1 hs
  | truncate size alloc => exact hinv.truncate hs

theorem TmpInv.of_reach (hr : Reach tmpStep TmpOp.Fits tmpStart s) : TmpInv s :=
  Reach.invariant TmpInv TmpInv.start (fun _ _ _ hinv hfits hs => hinv.step hfits hs) hr

/-! ## Every sequence of calls -/

/-- A read returns the bytes up to the end, and each byte written is among them. -/
theorem tmpfsRead_spec {data : Block} (hinv : TmpInv s) (hdata : s.file.data = some data)
    (offset n : Nat) :
    (tmpfsRead s.file offset n).1 = (min n (s.file.size - offset) : Nat) ∧
      (tmpfsRead s.file offset n).2.length = min n (s.file.size - offset) ∧
      ∀ i b, i < min n (s.file.size - offset) → s.written (offset + i) = some b →
        (tmpfsRead s.file offset n).2[i]? = some b := by
  have hsize : s.file.size ≤ TMPFS_MAX_FILE_SIZE := Nat.le_trans hinv.size_le hinv.capacity_le
  unfold TMPFS_MAX_FILE_SIZE at hsize
  simp only [tmpfsRead, hdata]
  split
  next hpast =>
    have hzero : min n (s.file.size - offset) = 0 := by omega
    simp [hzero]
  next hbefore =>
    rw [Nat.min_comm (s.file.size - offset) n]
    refine ⟨s32_of_lt (by omega), by simp, ?_⟩
    intro i b hi hb
    rw [List.getElem?_map, List.getElem?_range hi, Option.map_some,
      hinv.written _ b data hb hdata]

/-- A file is an array of bytes, in every sequence of calls. -/
theorem tmpfs_file_spec (s : TmpRun) (hr : Reach tmpStep TmpOp.Fits tmpStart s) :
    (s.file.size ≤ s.file.capacity ∧ s.file.capacity ≤ 65536 ∧ s.file.inodeSize = s.file.size) ∧
      (∀ o : TmpOp, o.Fits s → (tmpCall s.file o).1 = -1 → (tmpCall s.file o).2 = s.file) ∧
      (∀ offset buf alloc, TmpOp.Fits s (.write offset buf alloc) →
        (tmpfsWrite s.file offset buf alloc).1 ≠ -1 →
        (tmpfsWrite s.file offset buf alloc).1 = (buf.length : Int) ∧
          (tmpfsWrite s.file offset buf alloc).2.size = max s.file.size (offset + buf.length)) ∧
      (s.file.data.isSome → ∀ offset n, offset + n < 2 ^ 64 →
        (tmpfsRead s.file offset n).1 = (min n (s.file.size - offset) : Nat) ∧
          (tmpfsRead s.file offset n).2.length = min n (s.file.size - offset) ∧
          ∀ i b, i < min n (s.file.size - offset) → s.written (offset + i) = some b →
            (tmpfsRead s.file offset n).2[i]? = some b) := by
  have hinv := TmpInv.of_reach hr
  refine ⟨⟨hinv.size_le, hinv.capacity_le, hinv.inodeSize⟩, ?_, ?_, ?_⟩
  · intro o hfits hfail
    cases o with
    | read offset size => rfl
    | write offset buf alloc =>
      rcases tmpfsWrite_cases s.file offset buf alloc hfits.1 hinv.capacity_le hinv.data
          hinv.inodeSize with
        hsame | ⟨g, hgrown, hok⟩
      · rw [tmpCall, hsame]
      · rw [tmpCall, hok] at hfail
        omega
    | truncate size alloc =>
      rcases tmpfsTruncate_cases s.file size alloc hinv.capacity_le
          hinv.data with hsame | ⟨g, hgrown, hok⟩
      · rw [tmpCall, hsame]
      · rw [tmpCall, hok] at hfail
        contradiction
  · intro offset buf alloc hfits hok
    rcases tmpfsWrite_cases s.file offset buf alloc hfits.1 hinv.capacity_le hinv.data
        hinv.inodeSize with
      hfail | ⟨g, hgrown, hres⟩
    · rw [hfail] at hok
      contradiction
    · rw [hres]
      exact ⟨rfl, rfl⟩
  · intro hsome offset n _
    obtain ⟨data, hdata⟩ := Option.isSome_iff_exists.mp hsome
    exact tmpfsRead_spec hinv hdata offset n

/-- Two bytes, cut to one, then a byte after a hole. -/
def cutAndWrite : List TmpOp :=
  [.write 0 [5, 6] (some fun _ => 0), .truncate 1 none, .write 2 [9] none]

theorem tmpfs_file_spec_cutAndWrite :
    ∃ s, run tmpStep tmpStart cutAndWrite = some s ∧ s.file.size = 3 ∧ s.file.data.isSome ∧
      (tmpfsRead s.file 0 5).1 = 3 ∧ (tmpfsRead s.file 0 5).2[0]? = some 5 ∧
      (tmpfsRead s.file 0 5).2[2]? = some 9 := by
  have hrun : run tmpStep tmpStart cutAndWrite = some _ := rfl
  have hguarded : Guarded tmpStep TmpOp.Fits tmpStart cutAndWrite := by
    refine ⟨⟨by decide, by decide⟩, ?_, ⟨by decide, by decide⟩, trivial⟩
    show 1 < 2 ^ 64
    decide
  obtain ⟨-, -, -, hread⟩ := tmpfs_file_spec _ (reach_of_guarded hguarded hrun)
  obtain ⟨hres, -, hbytes⟩ := hread rfl 0 5 (by decide)
  exact ⟨_, hrun, rfl, rfl, hres, hbytes 0 5 (by decide) rfl, hbytes 2 9 (by decide) rfl⟩

end Lumin.Fs
