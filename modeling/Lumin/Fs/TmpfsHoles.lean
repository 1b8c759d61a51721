import Lumin.Fs.TmpfsBounds

/-!
# What a tmpfs file shows where nothing was written

`tmpfs_write` and `tmpfs_truncate` lengthen a file without touching the bytes between its
old end and its new one: they are what the buffer held there.  `holesZero_iff` says for
which runs these bytes are all zero.
-/

namespace Lumin.Fs

open Lumin.Lib

/-- The range of a write does not wrap. -/
def TmpOp.InRange : TmpOp → Prop
  | .read _ _ => True
  | .write offset buf _ => offset + buf.length < 2 ^ 64
  | .truncate size _ => size < 2 ^ 64

/-- A call whose range does not wrap. -/
abbrev TmpCall := { o : TmpOp // o.InRange }

def tmpCallStep (s : TmpRun) (o : TmpCall) : Option TmpRun := tmpStep s o.1

/-- Each position below the size that was not written since it came into the file reads
as zero. -/
def HolesZero (s : TmpRun) : Prop :=
  ∀ offset n i, i < n → offset + i < s.file.size → s.written (offset + i) = none →
    (tmpfsRead s.file offset n).2[i]? = some 0

/-- The block that holds the file after a call that needs `needed` bytes: the old buffer
where they fit, else what `kmalloc` returns.  A call for more than the largest file
fails. -/
def landing (f : TmpFile) (needed : Nat) (alloc : Option Block) : Option Block :=
  if needed ≤ f.capacity then f.data
  else if needed ≤ TMPFS_MAX_FILE_SIZE then alloc
  else none

/-- The bytes from the end of the file up to `limit` are zero in the block `block`. -/
def ZeroFrom (f : TmpFile) (limit : Nat) (block : Option Block) : Prop :=
  ∀ data, block = some data → ∀ i, f.size ≤ i → i < limit → data i = 0

/-- The call lengthens the file over no byte that it does not write, unless that byte is
zero in the block where it comes to lie. -/
def ShowsZeros (s : TmpRun) (o : TmpCall) : Prop :=
  match o.1 with
  | .read _ _ => True
  | .write offset buf alloc => ZeroFrom s.file offset (landing s.file (offset + buf.length) alloc)
  | .truncate size alloc => ZeroFrom s.file size (landing s.file size alloc)

/-- The invariant of a run whose holes are zero. -/
structure HoleInv (s : TmpRun) : Prop where
  base : TmpInv s
  zero : ∀ i data, i < s.file.size → s.written i = none → s.file.data = some data → data i = 0

variable {s s' : TmpRun} {f g : TmpFile} {o : TmpCall} {needed keep offset size limit : Nat}
  {alloc : Option Block} {buf : List UInt8}

/-! ## The block after a call -/

/-- What a successful growth leaves outside the kept bytes is the block where the file
comes to lie. -/
theorem growBuffer_landing (hg : growBuffer f needed keep alloc = some g) {data : Block}
    (hdata : g.data = some data) :
    ∃ block, landing f needed alloc = some block ∧ ∀ i, keep ≤ i → data i = block i := by
  unfold growBuffer at hg
  unfold landing
  split at hg
  next hmore =>
    rw [if_neg (by omega)]
    split at hg
    · contradiction
    next henough =>
      have : newCapacity f needed ≤ TMPFS_MAX_FILE_SIZE := Nat.min_le_right _ _
      rw [if_pos (by omega)]
      cases alloc with
      | none => contradiction
      | some new =>
        obtain rfl := Option.some.inj hg
        refine ⟨new, rfl, fun i hi => ?_⟩
        rw [← Option.some.inj hdata]
        unfold copyFrom
        cases f.data with
        | none => rfl
        | some old => exact if_neg (by omega)
  next hroom =>
    obtain rfl := Option.some.inj hg
    rw [if_pos (by omega)]
    exact ⟨data, hdata, fun _ _ => rfl⟩

/-- A call that has a block to lie in succeeds, and the file comes to lie there. -/
theorem growBuffer_of_landing (keep : Nat) (hcap : f.capacity ≤ TMPFS_MAX_FILE_SIZE)
    {block : Block}
    (hland : landing f needed alloc = some block) :
    ∃ g data, growBuffer f needed keep alloc = some g ∧ g.data = some data ∧
      ∀ i, keep ≤ i → data i = block i := by
  have hgrows : ∃ g data, growBuffer f needed keep alloc = some g ∧ g.data = some data := by
    unfold landing at hland
    unfold growBuffer
    split at hland
    next hroom => exact ⟨f, block, if_neg (by omega), hland⟩
    next hmore =>
      split at hland
      next hsmall =>
        have := newCapacity_spec hcap hsmall
        rw [if_pos (by omega), if_neg (by omega), hland]
        exact ⟨_, _, rfl, rfl⟩
      next => contradiction
  obtain ⟨g, data, hg, hdata⟩ := hgrows
  obtain ⟨block', hblock, hsame⟩ := growBuffer_landing hg hdata
  rw [hland] at hblock
  cases hblock
  exact ⟨g, data, hg, hdata, hsame⟩

/-- A byte of the file as a read returns it. -/
theorem tmpfsRead_getElem {data : Block} (hdata : f.data = some data) {n i : Nat} (hn : i < n)
    (hi : offset + i < f.size) : (tmpfsRead f offset n).2[i]? = some (data (offset + i)) := by
  have hlt : i < min (f.size - offset) n := by omega
  simp only [tmpfsRead, hdata]
  rw [if_neg (by omega), List.getElem?_map, List.getElem?_range hlt, Option.map_some]

theorem HoleInv.holesZero (hinv : HoleInv s) : HolesZero s := by
  intro offset n i hn hi hnone
  cases hdata : s.file.data with
  | none =>
    have hcap := hinv.base.data hdata
    have := hinv.base.size_le
    omega
  | some data => rw [tmpfsRead_getElem hdata hn hi, hinv.zero _ data hi hnone hdata]

theorem HolesZero.byte (h : HolesZero s) {data : Block} (hdata : s.file.data = some data)
    {i : Nat}
    (hi : i < s.file.size) (hnone : s.written i = none) : data i = 0 := by
  have hread := h i 1 0 (by decide) hi hnone
  rw [tmpfsRead_getElem hdata (by decide) hi, Option.some.injEq] at hread
  exact hread

/-- Nothing behind the end of the file has been written. -/
theorem TmpInv.unwritten (hinv : TmpInv s) {i : Nat} (hi : s.file.size ≤ i) :
    s.written i = none := by
  cases hw : s.written i with
  | none => rfl
  | some b =>
    have := hinv.written_lt i b hw
    omega

theorem HoleInv.start : HoleInv tmpStart :=
  ⟨TmpInv.start, fun _ _ hi => absurd hi (Nat.not_lt_zero _)⟩

/-! ## One call -/

/-- What a write can do: nothing, or grow the buffer and store. -/
theorem tmpStep_write (hinv : TmpInv s) (hrange : offset + buf.length < 2 ^ 64)
    (hs : tmpStep s (.write offset buf alloc) = some s') :
    (growBuffer s.file (offset + buf.length) s.file.size alloc = none ∧ s' = s) ∨
      ∃ g, growBuffer s.file (offset + buf.length) s.file.size alloc = some g ∧
        s'.file.data = g.data.map (fun data => storeBytes data offset buf) ∧
        s'.file.size = max s.file.size (offset + buf.length) ∧
        s'.written = writtenAfter s.written (.write offset buf alloc) := by
  obtain rfl := Option.some.inj hs
  cases hgrow : growBuffer s.file (offset + buf.length) s.file.size alloc with
  | none =>
    left
    simp only [tmpCall, tmpfsWrite, u64_of_lt hrange, hgrow, if_true, and_self]
  | some g =>
    right
    have hgrown := growBuffer_spec hinv.capacity_le hinv.data hgrow
    have hneeded := hgrown.needed_le
    have hcap := hgrown.capacity_le
    unfold TMPFS_MAX_FILE_SIZE at hcap
    have hres : s32 buf.length ≠ -1 := by
      rw [s32_of_lt (by omega)]
      omega
    refine ⟨g, rfl, ?_, ?_, ?_⟩
    · simp only [tmpCall, tmpfsWrite, u64_of_lt hrange, hgrow]
    · simp only [tmpCall, tmpfsWrite, u64_of_lt hrange, hgrow, hgrown.size]
      split <;> omega
    · simp only [tmpCall, tmpfsWrite, u64_of_lt hrange, hgrow, if_neg hres]

/-- What a truncation can do: nothing, or grow the buffer and set the size. -/
theorem tmpStep_truncate (hs : tmpStep s (.truncate size alloc) = some s') :
    (growBuffer s.file size (min s.file.size size) alloc = none ∧ s' = s) ∨
      ∃ g, growBuffer s.file size (min s.file.size size) alloc = some g ∧
        s'.file.data = g.data ∧ s'.file.size = size ∧
        s'.written = writtenAfter s.written (.truncate size alloc) := by
  obtain rfl := Option.some.inj hs
  have hmin : (if s.file.size < size then s.file.size else size) = min s.file.size size := by
    split <;> omega
  cases hgrow : growBuffer s.file size (min s.file.size size) alloc with
  | none =>
    left
    simp only [tmpCall, tmpfsTruncate, hmin, hgrow, if_true, and_self]
  | some g =>
    right
    have hres : ¬ (0 : Int) = -1 := by decide
    refine ⟨g, rfl, ?_, ?_, ?_⟩ <;> simp only [tmpCall, tmpfsTruncate, hmin, hgrow, if_neg hres]

theorem TmpInv.callStep (hinv : TmpInv s) (hs : tmpCallStep s o = some s') : TmpInv s' := by
  obtain ⟨o, hrange⟩ := o
  cases o with
  | read offset size =>
    obtain rfl := Option.some.inj hs
    rw [show (if (tmpCall s.file (.read offset size)).1 = -1 then s.written
      else writtenAfter s.written (.read offset size)) = s.written from ite_self _]
    exact hinv
  | write offset buf alloc => exact hinv.write hrange hs
  | truncate size alloc => exact hinv.truncate hs

/-- A byte of the file that is unwritten after a write was unwritten before it, and is not
in its range. -/
theorem unwritten_after_write {w : Nat → Option UInt8} {i : Nat}
    (h : writtenAfter w (.write offset buf alloc) i = none) :
    w i = none ∧ ¬ (offset ≤ i ∧ i < offset + buf.length) := by
  simp only [writtenAfter] at h
  split at h
  next hin =>
    rw [List.getElem?_eq_none_iff] at h
    omega
  next hout => exact ⟨h, hout⟩

theorem unwritten_after_truncate {w : Nat → Option UInt8} {i : Nat} (hi : i < size)
    (h : writtenAfter w (.truncate size alloc) i = none) : w i = none := by
  simpa only [writtenAfter, if_neg (Nat.not_le.mpr hi)] using h

/-- An unwritten byte of a lengthened file is an unwritten byte of the file before, or a
byte of the block where the file comes to lie. -/
theorem unwritten_zero (hinv : HoleInv s) (hg : growBuffer s.file needed keep alloc = some g)
    (hkeep : keep ≤ s.file.size) (hzero : ZeroFrom s.file limit (landing s.file needed alloc))
    {i : Nat}
    {data : Block} (hdata : g.data = some data) (hnone : s.written i = none)
    (hi : i < keep ∨ s.file.size ≤ i ∧ i < limit) : data i = 0 := by
  cases hi with
  | inl hlow =>
    have hgrown := growBuffer_spec hinv.base.capacity_le hinv.base.data hg
    cases hold : s.file.data with
    | none =>
      have := hinv.base.data hold
      have := hinv.base.size_le
      omega
    | some old =>
      rw [hgrown.kept i old data hlow hold hdata]
      exact hinv.zero i old (by omega) hnone hold
  | inr hhigh =>
    obtain ⟨block, hblock, hsame⟩ := growBuffer_landing hg hdata
    rw [hsame i (by omega)]
    exact hzero block hblock i hhigh.1 hhigh.2

theorem HoleInv.callStep (hinv : HoleInv s) (hguard : ShowsZeros s o)
    (hs : tmpCallStep s o = some s') : HoleInv s' := by
  refine ⟨hinv.base.callStep hs, fun i data hi hnone hdata => ?_⟩
  obtain ⟨o, hrange⟩ := o
  cases o with
  | read offset size =>
    obtain rfl := Option.some.inj hs
    exact hinv.zero i data hi (by simpa [writtenAfter] using hnone) hdata
  | write offset buf alloc =>
    rcases tmpStep_write hinv.base hrange hs with ⟨-, rfl⟩ | ⟨g, hg, hdata', hsize, hwritten⟩
    · exact hinv.zero i data hi hnone hdata
    · rw [hwritten] at hnone
      obtain ⟨hnone, hout⟩ := unwritten_after_write hnone
      rw [hdata', Option.map_eq_some_iff] at hdata
      obtain ⟨old, hold, rfl⟩ := hdata
      rw [storeBytes_of_fits hrange, if_neg hout]
      refine unwritten_zero hinv hg (le_refl _) hguard hold hnone ?_
      omega
  | truncate size alloc =>
    rcases tmpStep_truncate hs with ⟨-, rfl⟩ | ⟨g, hg, hdata', hsize, hwritten⟩
    · exact hinv.zero i data hi hnone hdata
    · rw [hsize] at hi
      rw [hwritten] at hnone
      have hnone := unwritten_after_truncate hi hnone
      refine unwritten_zero hinv hg (Nat.min_le_left _ _) hguard (hdata' ▸ hdata) hnone ?_
      omega

/-- A call that lengthens the file over a byte that is not zero shows it. -/
theorem not_holesZero_of_callStep (hinv : HoleInv s) (hguard : ¬ ShowsZeros s o)
    (hs : tmpCallStep s o = some s') : ¬ HolesZero s' := by
  obtain ⟨o, hrange⟩ := o
  intro hgood
  apply hguard
  cases o with
  | read offset size => trivial
  | write offset buf alloc =>
    intro block hblock i hlo hhi
    obtain ⟨g, data, hg, hdata, hsame⟩ :=
      growBuffer_of_landing s.file.size hinv.base.capacity_le hblock
    cases tmpStep_write hinv.base hrange hs with
    | inl hfail =>
      rw [hg] at hfail
      cases hfail.1
    | inr hok =>
      obtain ⟨g', hg', hdata', hsize, hwritten⟩ := hok
      rw [hg] at hg'
      cases hg'
      have hout : ¬ (offset ≤ i ∧ i < offset + buf.length) := by omega
      have hnone : s'.written i = none := by
        rw [hwritten]
        simp only [writtenAfter, if_neg hout]
        exact hinv.base.unwritten hlo
      rw [hdata, Option.map_some] at hdata'
      have hzero := hgood.byte hdata' (by rw [hsize]; omega) hnone
      rw [storeBytes_of_fits hrange, if_neg hout] at hzero
      rw [← hsame i hlo, hzero]
  | truncate size alloc =>
    intro block hblock i hlo hhi
    obtain ⟨g, data, hg, hdata, hsame⟩ :=
      growBuffer_of_landing (min s.file.size size) hinv.base.capacity_le hblock
    cases tmpStep_truncate hs with
    | inl hfail =>
      rw [hg] at hfail
      cases hfail.1
    | inr hok =>
      obtain ⟨g', hg', hdata', hsize, hwritten⟩ := hok
      rw [hg] at hg'
      cases hg'
      have hnone : s'.written i = none := by
        rw [hwritten]
        simp only [writtenAfter, if_neg (Nat.not_le.mpr hhi)]
        exact hinv.base.unwritten hlo
      rw [hdata] at hdata'
      rw [← hsame i (by omega)]
      exact hgood.byte hdata' (by rw [hsize]; exact hhi) hnone

/-! ## Every sequence of calls -/

/-- In every state that a sequence of calls visits the unwritten bytes read as zero,
exactly when no call of it lengthens the file over a byte that is not zero. -/
theorem holesZero_iff (os : List TmpCall) :
    (∀ t ∈ visited tmpCallStep tmpStart os, HolesZero t) ↔
      Guarded tmpCallStep ShowsZeros tmpStart os :=
  visited_iff_guarded (fun _ (hinv : HoleInv _) => hinv.holesZero)
    (fun _ _ _ hinv hguard hs => hinv.callStep hguard hs)
    (fun _ _ _ hinv hguard hs => not_holesZero_of_callStep hinv hguard hs) HoleInv.start os

/-- A byte written at offset 1 of a new file, in a block that held the byte 9. -/
def staleBlock : TmpCall := ⟨.write 1 [5] (some fun _ => 9), show 2 < 2 ^ 64 by decide⟩

/-- The byte before it reads as 9. -/
theorem staleBlock_not_holesZero :
    ¬ ∀ os : List TmpCall, ∀ t ∈ visited tmpCallStep tmpStart os, HolesZero t := by
  intro h
  have hread :=
    h [staleBlock] _ (List.mem_cons_of_mem _ List.mem_cons_self) 0 1 0 (by decide) (by decide)
    (by decide)
  revert hread
  decide

end Lumin.Fs
