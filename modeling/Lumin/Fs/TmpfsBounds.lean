import Lumin.Fs.TmpfsFile

/-!
# Where `tmpfs_write` stores

The one bound check of `tmpfs_write` is on `offset + size`, a `uint64_t`, and offsets come
unchecked from `SYS_LSEEK`.  The runs here are those of all 64-bit arguments.
-/

namespace Lumin.Fs

open Lumin.Lib

/-- The arguments are 64-bit values. -/
def TmpOp.Words (_ : TmpRun) : TmpOp → Prop
  | .read offset size => offset < 2 ^ 64 ∧ size < 2 ^ 64
  | .write offset buf _ => offset < 2 ^ 64 ∧ buf.length < 2 ^ 64
  | .truncate size _ => size < 2 ^ 64

/-- The indices at which the loop of `tmpfs_write` stores, in its order. -/
def storedIndices (offset size : Nat) : List Nat :=
  (List.range size).map fun i => u64 (offset + i)

/-- The indices at which a call of `tmpfs_write` stores: none when it returns before the
loop. -/
def tmpfsWriteStores (f : TmpFile) (offset : Nat) (buf : List UInt8) (alloc : Option Block) :
    List Nat :=
  match growBuffer f (u64 (offset + buf.length)) f.size alloc with
  | none => []
  | some _ => storedIndices offset buf.length

/-- The stores of the call are below the capacity that it leaves, and a write that ends
beyond the largest file fails. -/
def StaysInside (f : TmpFile) (offset : Nat) (buf : List UInt8) (alloc : Option Block) : Prop :=
  (∀ i ∈ tmpfsWriteStores f offset buf alloc, i < (tmpfsWrite f offset buf alloc).2.capacity) ∧
    (65536 < offset + buf.length → (tmpfsWrite f offset buf alloc).1 = -1)

/-- What holds of a file after calls with any arguments. -/
structure Buffered (f : TmpFile) : Prop where
  size_le : f.size ≤ f.capacity
  capacity_le : f.capacity ≤ TMPFS_MAX_FILE_SIZE
  data : f.data = none → f.capacity = 0

variable {s s' : TmpRun} {f g : TmpFile} {o : TmpOp} {needed keep offset size : Nat}
  {alloc : Option Block}
  {buf : List UInt8}

/-- `storeBytes` changes the block only at the indices of the loop. -/
theorem storeBytes_frame {data : Block} {i : Nat} (hi : i ∉ storedIndices offset buf.length) :
    storeBytes data offset buf i = data i := by
  refine if_neg fun hin => hi ?_
  rw [storedIndices, List.mem_map]
  refine ⟨sub64 i offset, List.mem_range.mpr hin.2, ?_⟩
  unfold sub64 u64
  omega

/-! ## Growing the buffer -/

/-- Growth fails for what does not fit the largest file, and where there is no memory. -/
theorem growBuffer_eq_none_iff (keep : Nat) (hcap : f.capacity ≤ TMPFS_MAX_FILE_SIZE) :
    growBuffer f needed keep alloc = none ↔
      65536 < needed ∨ (f.capacity < needed ∧ alloc = none) := by
  unfold growBuffer
  have hmax : TMPFS_MAX_FILE_SIZE = 65536 := rfl
  by_cases hmore : needed > f.capacity
  · rw [if_pos hmore]
    by_cases hbig : 65536 < needed
    · have : newCapacity f needed ≤ TMPFS_MAX_FILE_SIZE := Nat.min_le_right _ _
      rw [if_pos (by omega)]
      exact iff_of_true rfl (Or.inl hbig)
    · have : needed ≤ newCapacity f needed := newCapacity_spec hcap (by omega)
      rw [if_neg (by omega)]
      cases alloc with
      | none => exact iff_of_true rfl (Or.inr ⟨hmore, rfl⟩)
      | some block => simp [hbig]
  · rw [if_neg hmore]
    refine iff_of_false (by simp) fun h => ?_
    omega

/-! ## Runs -/

theorem Buffered.write (hf : Buffered f) (offset : Nat) (buf : List UInt8)
    (alloc : Option Block) : Buffered (tmpfsWrite f offset buf alloc).2 := by
  unfold tmpfsWrite
  dsimp only
  cases hgrow : growBuffer f (u64 (offset + buf.length)) f.size alloc with
  | none => exact hf
  | some g =>
    have hgrown := growBuffer_spec hf.capacity_le hf.data hgrow
    have hneeded := hgrown.needed_le
    have hmono := hgrown.mono
    have hsize := hgrown.size
    have hold := hf.size_le
    exact {
      size_le := by
        show (if u64 (offset + buf.length) > g.size then _ else g.size) ≤ g.capacity
        split <;> omega
      capacity_le := hgrown.capacity_le
      data := fun hnone => hgrown.data (Option.map_eq_none_iff.mp hnone) }

theorem Buffered.truncate (hf : Buffered f) (size : Nat) (alloc : Option Block) :
    Buffered (tmpfsTruncate f size alloc).2 := by
  rcases tmpfsTruncate_cases f size alloc hf.capacity_le hf.data with hfail | ⟨g, hgrown, hok⟩
  · rw [hfail]
    exact hf
  · rw [hok]
    exact { size_le := hgrown.needed_le, capacity_le := hgrown.capacity_le, data := hgrown.data }

theorem Buffered.step (hf : Buffered s.file) (hs : tmpStep s o = some s') : Buffered s'.file := by
  obtain rfl := Option.some.inj hs
  cases o with
  | read offset size => exact hf
  | write offset buf alloc => exact hf.write offset buf alloc
  | truncate size alloc => exact hf.truncate size alloc

theorem Buffered.of_reach (hr : Reach tmpStep TmpOp.Words tmpStart s) : Buffered s.file := by
  refine Reach.invariant (fun t => Buffered t.file) ?_ (fun _ _ _ hf _ hs => hf.step hs) hr
  constructor <;> simp [tmpStart, TmpFile.new]

/-! ## One write -/

/-- A range that wraps has an index at or above every possible capacity. -/
theorem wrapped_escapes (hoff : offset < 2 ^ 64) (hlen : buf.length < 2 ^ 64)
    (hwrap : 2 ^ 64 ≤ offset + buf.length) :
    ∃ i ∈ storedIndices offset buf.length, 65536 ≤ i := by
  have hpos : 0 < buf.length := by omega
  by_cases hhigh : 65536 ≤ offset
  · refine ⟨u64 (offset + 0), List.mem_map.mpr ⟨0, List.mem_range.mpr hpos, rfl⟩, ?_⟩
    rwa [Nat.add_zero, u64_of_lt hoff]
  · -- A low offset reaches index 65536 on its way.
    refine ⟨u64 (offset + (65536 - offset)), List.mem_map.mpr ⟨65536 - offset, ?_, rfl⟩, ?_⟩
    · exact List.mem_range.mpr (by omega)
    · rw [show offset + (65536 - offset) = 65536 by omega]
      decide

/-- In every state that calls with 64-bit arguments reach, a write stores below the
capacity and fails beyond the largest file exactly when `offset + size` does not wrap,
or wraps to a sum at which the call gives up all the same. -/
theorem tmpfsWrite_inside_iff (s : TmpRun) (hr : Reach tmpStep TmpOp.Words tmpStart s)
    (offset : Nat)
    (buf : List UInt8) (alloc : Option Block) (hoff : offset < 2 ^ 64)
    (hlen : buf.length < 2 ^ 64) :
    StaysInside s.file offset buf alloc ↔
      offset + buf.length < 2 ^ 64 ∨ 65536 < u64 (offset + buf.length) ∨
        (s.file.capacity < u64 (offset + buf.length) ∧ alloc = none) := by
  have hf := Buffered.of_reach hr
  unfold StaysInside tmpfsWriteStores tmpfsWrite
  dsimp only
  cases hgrow : growBuffer s.file (u64 (offset + buf.length)) s.file.size alloc with
  | none =>
    have hwhy := (growBuffer_eq_none_iff s.file.size hf.capacity_le).mp hgrow
    refine iff_of_true ⟨by simp, fun _ => rfl⟩ (Or.inr hwhy)
  | some g =>
    have hgo : ¬ (65536 < u64 (offset + buf.length) ∨
        (s.file.capacity < u64 (offset + buf.length) ∧ alloc = none)) := fun hfail => by
      rw [← growBuffer_eq_none_iff s.file.size hf.capacity_le, hgrow] at hfail
      cases hfail
    have hgrown := growBuffer_spec hf.capacity_le hf.data hgrow
    have hneeded := hgrown.needed_le
    have hcap := hgrown.capacity_le
    have hmax : TMPFS_MAX_FILE_SIZE = 65536 := rfl
    rw [or_iff_left hgo]
    constructor
    · intro hin
      by_contra hwrap
      obtain ⟨i, hi, hbig⟩ := wrapped_escapes hoff hlen (by omega)
      have : i < g.capacity := hin.1 i hi
      omega
    · intro hfits
      rw [u64_of_lt hfits] at hneeded
      refine ⟨fun i hi => ?_, fun hbig => by omega⟩
      obtain ⟨k, hk, rfl⟩ := List.mem_map.mp hi
      have hk := List.mem_range.mp hk
      show u64 (offset + k) < g.capacity
      rw [u64_of_lt (by omega)]
      omega

theorem tmpfsWrite_inside_iff_start :
    StaysInside tmpStart.file 3 [7, 8] none ↔
      3 + [(7 : UInt8), 8].length < 2 ^ 64 ∨ 65536 < u64 (3 + [(7 : UInt8), 8].length) ∨
        (tmpStart.file.capacity < u64 (3 + [(7 : UInt8), 8].length) ∧
          none = (none : Option Block)) :=
  tmpfsWrite_inside_iff tmpStart .start 3 [7, 8] none (by decide) (by decide)

/-- One byte at offset `2 ^ 64 - 1` of a new file: nothing is allocated, and the byte goes
to index `2 ^ 64 - 1` of a null pointer. -/
theorem lastOffset_escapes :
    ¬ ∀ (s : TmpRun), Reach tmpStep TmpOp.Words tmpStart s → ∀ (offset : Nat) (buf : List UInt8)
      (alloc : Option Block), offset < 2 ^ 64 → buf.length < 2 ^ 64 → buf ≠ [] →
        StaysInside s.file offset buf alloc := by
  intro h
  have hin := (h tmpStart .start (2 ^ 64 - 1) [7] none (by decide) (by decide) (by decide)).1
  have := hin (2 ^ 64 - 1) (by decide)
  revert this
  decide

end Lumin.Fs
