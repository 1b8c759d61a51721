import Mathlib.Tactic

/-!
# Copying and moving files

A model of `user/coreutils/cp.c` and `user/coreutils/mv.c` for regular files.  `src` and `dst`
are the bytes of the source and of the destination, which may be one file under two names or
under the same name.  `cp` then writes each byte where it has read it (`cp_same`), and `mv`
removes the file (`same`).  The system calls behave as in POSIX: `open` with flag 1 keeps what the destination has and
starts at offset 0, `read` and `write` may transfer less than they are asked for, and every
call may fail.  `Answers` fixes what they do; since each transfer is at another offset, the
answers of `read` and `write` are given by the offset.

Both programs put the first bytes of the source in front of what the destination had behind
them (`cp_dst`, `mv_dst`); how many these are is `readEnd`.
-/

namespace Lumin.User.CopyMove

/-! ## System calls -/

/-- What the calls answer: `none` is a failure, and a number of bytes is brought into the range
that the call allows. -/
structure Answers where
  openSrc : Bool
  openDst : Bool
  malloc : Bool
  read : Nat → Option Nat
  write : Nat → Option Nat
  unlink : Bool

/-- The result of `read` for `count` bytes of a file of `len` bytes at offset `off`. -/
def readResult (read : Nat → Option Nat) (len off count : Nat) : Int :=
  let avail := min count (len - off)
  match read off with
  | none => -1
  | some k => if avail = 0 then 0 else (1 + k % avail : Nat)

/-- A file with `bs` written at offset `off`. -/
def pwrite (file : List UInt8) (off : Nat) (bs : List UInt8) : List UInt8 :=
  file.take off ++ List.replicate (off - file.length) 0 ++ bs ++ file.drop (off + bs.length)

/-- A `read` that transfers bytes. -/
theorem readResult_pos {read : Nat → Option Nat} {len off count : Nat}
    (h : readResult read len off count > 0) :
    0 < (readResult read len off count).toNat ∧
      off + (readResult read len off count).toNat ≤ len ∧
      (readResult read len off count).toNat ≤ count := by
  unfold readResult at h ⊢
  cases hread : read off with
  | none =>
    simp only [hread] at h
    omega
  | some k =>
    simp only [hread] at h ⊢
    by_cases havail : min count (len - off) = 0
    · rw [if_pos havail] at h
      exact absurd h (by decide)
    · have hmod := Nat.mod_lt k (Nat.pos_of_ne_zero havail)
      rw [if_neg havail, Int.toNat_natCast]
      omega

/-- The offset at which a loop of reads that asks for `want off` bytes gets none. -/
def readEnd (read : Nat → Option Nat) (want : Nat → Nat) (len off : Nat) : Nat :=
  if _h : readResult read len off (want off) > 0 then
    readEnd read want len (off + (readResult read len off (want off)).toNat)
  else off
termination_by len - off
decreasing_by
  obtain ⟨hpos, hle, -⟩ := readResult_pos _h
  omega

/-- What a program leaves: its exit status, its output, the destination, if it is there, and
whether the source is gone. -/
structure Outcome where
  exit : Int
  out : String
  dst : Option (List UInt8)
  unlinked : Bool
deriving DecidableEq

/-! ## The programs -/

/-- The inner loop of `cp` and the write loop of `mv`, from `off` on: whether all is written, the
destination and its offset. -/
def writeLoop (write : Nat → Option Nat) (buf : List UInt8) (off : Nat) (dst : List UInt8)
    (dstOff : Nat) :
    Bool × List UInt8 × Nat :=
  if _h : off < buf.length then
    match write dstOff with
    | none => (false, dst, dstOff)
    | some k =>
      let w := 1 + k % (buf.length - off)
      writeLoop write buf (off + w) (pwrite dst dstOff ((buf.drop off).take w)) (dstOff + w)
  else (true, dst, dstOff)
termination_by buf.length - off

/-- The outer loop of `cp`, with the source at `off`. -/
def cpLoop (a : Answers) (src : List UInt8) (off : Nat) (dst : List UInt8) (dstOff : Nat) :
    Bool × List UInt8 :=
  if _h : readResult a.read src.length off 512 > 0 then
    let n := (readResult a.read src.length off 512).toNat
    match writeLoop a.write ((src.drop off).take n) 0 dst dstOff with
    | (false, dst, _) => (false, dst)
    | (true, dst, dstOff) => cpLoop a src (off + n) dst dstOff
  else (true, dst)
termination_by src.length - off
decreasing_by
  obtain ⟨hpos, hle, -⟩ := readResult_pos _h
  omega

/-- `main` of `cp`. -/
def cp (argc : Nat) (argv1 argv2 : String) (a : Answers) (src dst : List UInt8) : Outcome :=
  if argc < 3 then ⟨1, "Usage: cp <source> <dest>\n", some dst, false⟩
  else if ¬ a.openSrc then ⟨1, "cp: " ++ argv1 ++ ": no such file\n", some dst, false⟩
  else if ¬ a.openDst then ⟨1, "cp: " ++ argv2 ++ ": cannot open\n", some dst, false⟩
  else
    match cpLoop a src 0 dst 0 with
    | (false, dst) => ⟨1, "cp: write error\n", some dst, false⟩
    | (true, dst) => ⟨0, "", some dst, false⟩

/-- The read loop of `mv`: the first `total` bytes of its buffer. -/
def mvReadLoop (a : Answers) (src buf : List UInt8) : List UInt8 :=
  if _h : readResult a.read src.length buf.length (65536 - buf.length) > 0 then
    let n := (readResult a.read src.length buf.length (65536 - buf.length)).toNat
    mvReadLoop a src (buf ++ (src.drop buf.length).take n)
  else buf
termination_by src.length - buf.length
decreasing_by
  obtain ⟨hpos, hle, -⟩ := readResult_pos _h
  simp only [List.length_append, List.length_take, List.length_drop]
  omega

/-- `main` of `mv`.  `same` tells whether both names are of one file. -/
def mv (argc : Nat) (argv1 argv2 : String) (same : Bool) (a : Answers) (src dst : List UInt8) :
    Outcome :=
  if argc < 3 then ⟨1, "Usage: mv <source> <dest>\n", some dst, false⟩
  else if ¬ a.openSrc then ⟨1, "mv: " ++ argv1 ++ ": no such file\n", some dst, false⟩
  else if ¬ a.malloc then ⟨1, "mv: out of memory\n", some dst, false⟩
  else
    let buf := mvReadLoop a src []
    if ¬ a.openDst then ⟨1, "mv: " ++ argv2 ++ ": cannot create\n", some dst, false⟩
    else
      match writeLoop a.write buf 0 dst 0 with
      | (false, dst, _) => ⟨1, "mv: write error\n", some dst, false⟩
      | (true, dst, _) =>
        ⟨0, if ¬ a.unlink then "mv: " ++ argv1 ++ ": cannot remove\n" else "",
          if a.unlink ∧ same then none else some dst, a.unlink⟩

/-! ## What the files have -/

/-- Whenever `cp` exits with 0, the destination is the source. -/
def CpKeeps (read : Nat → Option Nat) (src old : List UInt8) : Prop :=
  ∀ argc argv1 argv2 a, a.read = read → (cp argc argv1 argv2 a src old).exit = 0 →
    (cp argc argv1 argv2 a src old).dst = some src

/-- Whenever `mv` removes the source, the destination has what the source had. -/
def MvKeeps (read : Nat → Option Nat) (same : Bool) (src old : List UInt8) : Prop :=
  ∀ argc argv1 argv2 a, a.read = read → (mv argc argv1 argv2 same a src old).unlinked = true →
    (mv argc argv1 argv2 same a src old).dst = some src

variable {read write : Nat → Option Nat} {want : Nat → Nat} {src old dst buf xs ys : List UInt8}
  {off dstOff len n : Nat}
  {a : Answers}

theorem pwrite_zero (old bs : List UInt8) : pwrite old 0 bs = bs ++ old.drop bs.length := by
  rw [pwrite, List.take_zero, Nat.zero_sub, List.replicate_zero, Nat.zero_add]
  rfl

theorem pwrite_nil (h : off ≤ dst.length) : pwrite dst off [] = dst := by
  rw [pwrite, Nat.sub_eq_zero_of_le h, List.replicate_zero, List.append_nil, List.append_nil,
    List.length_nil,
    Nat.add_zero, List.take_append_drop]

/-- One write behind the other. -/
theorem pwrite_append (dst : List UInt8) (off : Nat) (xs ys : List UInt8) :
    pwrite (pwrite dst off xs) (off + xs.length) ys = pwrite dst off (xs ++ ys) := by
  have hhead :
      (dst.take off ++ List.replicate (off - dst.length) 0 ++ xs).length = off + xs.length := by
    simp only [List.length_append, List.length_take, List.length_replicate]
    omega
  have htake :
      (pwrite dst off xs).take (off + xs.length) =
      dst.take off ++ List.replicate (off - dst.length) 0 ++ xs := by
    rw [pwrite, ← hhead, List.take_left]
  have hdrop :
      (pwrite dst off xs).drop (off + xs.length + ys.length) =
      dst.drop (off + (xs ++ ys).length) := by
    rw [pwrite, List.drop_append, List.drop_of_length_le (by rw [hhead]; omega), List.nil_append,
      List.drop_drop,
      hhead, List.length_append]
    congr 1
    omega
  have hlen : off + xs.length - (pwrite dst off xs).length = 0 := by
    rw [pwrite, List.length_append, hhead]
    omega
  conv_lhs => rw [pwrite]
  rw [htake, hdrop, hlen, List.replicate_zero, List.append_nil, pwrite]
  simp only [List.append_assoc]

theorem pwrite_length_ge (dst : List UInt8) (off : Nat) (xs : List UInt8) :
    off + xs.length ≤ (pwrite dst off xs).length := by
  simp only [pwrite, List.length_append, List.length_take, List.length_replicate]
  omega

/-- A loop of writes that all succeed. -/
theorem writeLoop_done (hoff : dstOff ≤ dst.length) (hle : off ≤ buf.length)
    (h : (writeLoop write buf off dst dstOff).1 = true) :
    (writeLoop write buf off dst dstOff).2 =
      (pwrite dst dstOff (buf.drop off), dstOff + (buf.length - off)) := by
  induction hn : buf.length - off using Nat.strongRecOn generalizing off dst dstOff with
  | _ m ih =>
    rw [writeLoop] at h ⊢
    rcases Nat.eq_or_lt_of_le hle with rfl | hlt
    · rw [dif_neg (lt_irrefl _), List.drop_length, pwrite_nil hoff, ← hn, Nat.sub_self]
      rfl
    rw [dif_pos hlt] at h ⊢
    cases hwrite : write dstOff with
    | none =>
      rw [hwrite] at h
      cases h
    | some k =>
      simp only [hwrite] at h ⊢
      have hmod := Nat.mod_lt k (show buf.length - off > 0 by omega)
      obtain ⟨w, hw⟩ : ∃ w, 1 + k % (buf.length - off) = w := ⟨_, rfl⟩
      rw [hw] at h ⊢
      have hchunk : ((buf.drop off).take w).length = w := by
        rw [List.length_take, List.length_drop]
        omega
      have hlong := pwrite_length_ge dst dstOff ((buf.drop off).take w)
      rw [hchunk] at hlong
      have hwhole : (buf.drop off).take w ++ buf.drop (off + w) = buf.drop off := by
        rw [← List.drop_drop, List.take_append_drop]
      have happend := pwrite_append dst dstOff ((buf.drop off).take w) (buf.drop (off + w))
      rw [hchunk, hwhole] at happend
      rw [ih _ (by omega) hlong (by omega) h rfl, happend]
      congr 1
      omega

/-- With answers that never fail a loop of writes succeeds. -/
theorem writeLoop_succeeds (h : ∀ off, write off ≠ none) (buf : List UInt8) (off : Nat)
    (dst : List UInt8)
    (dstOff : Nat) : (writeLoop write buf off dst dstOff).1 = true := by
  induction hn : buf.length - off using Nat.strongRecOn generalizing off dst dstOff with
  | _ m ih =>
    rw [writeLoop]
    split_ifs with hlt
    · cases hwrite : write dstOff with
      | none => exact absurd hwrite (h dstOff)
      | some k => exact ih _ (by omega) _ _ _ rfl
    · rfl

/-! ## Reading -/

theorem readEnd_le (want : Nat → Nat) (h : off ≤ len) : readEnd read want len off ≤ len := by
  induction hn : len - off using Nat.strongRecOn generalizing off with
  | _ m ih =>
    rw [readEnd]
    split_ifs with hread
    · obtain ⟨hpos, hle, -⟩ := readResult_pos hread
      exact ih _ (by omega) hle rfl
    · exact h

theorem le_readEnd (want : Nat → Nat) (len off : Nat) : off ≤ readEnd read want len off := by
  induction hn : len - off using Nat.strongRecOn generalizing off with
  | _ m ih =>
    rw [readEnd]
    split_ifs with hread
    · obtain ⟨hpos, hle, -⟩ := readResult_pos hread
      exact le_trans (by omega) (ih _ (by omega) _ rfl)
    · exact le_refl _

/-- A loop that asks for what is left of a buffer of `cap` bytes does not go past it. -/
theorem readEnd_le_cap {cap : Nat} (h : off ≤ cap) (len : Nat) :
    readEnd read (cap - ·) len off ≤ cap := by
  induction hn : len - off using Nat.strongRecOn generalizing off with
  | _ m ih =>
    rw [readEnd]
    split_ifs with hread
    · obtain ⟨hpos, hle, hcount⟩ := readResult_pos hread
      exact ih _ (by omega) (by omega) rfl
    · exact h

/-- Reads that do not fail stop where nothing is left or nothing is asked for. -/
theorem readEnd_of_works (h : ∀ off, read off ≠ none) (hle : off ≤ len) :
    min (want (readEnd read want len off)) (len - readEnd read want len off) = 0 := by
  induction hn : len - off using Nat.strongRecOn generalizing off with
  | _ m ih =>
    rw [readEnd]
    split_ifs with hread
    · obtain ⟨hpos, hle', -⟩ := readResult_pos hread
      exact ih _ (by omega) hle' rfl
    · unfold readResult at hread
      cases hans : read off with
      | none => exact absurd hans (h off)
      | some k =>
        rw [hans] at hread
        dsimp only at hread
        by_contra hne
        rw [if_neg hne] at hread
        omega

/-- `mv` has the start of the source in its buffer. -/
theorem mvReadLoop_eq (a : Answers) (src : List UInt8) (h : off ≤ src.length) :
    mvReadLoop a src (src.take off) = src.take (readEnd a.read (65536 - ·) src.length off) := by
  induction hn : src.length - off using Nat.strongRecOn generalizing off with
  | _ m ih =>
    have hlen : (src.take off).length = off := List.length_take_of_le h
    rw [mvReadLoop, readEnd, hlen]
    split_ifs with hread
    · obtain ⟨hpos, hle, -⟩ := readResult_pos hread
      dsimp only
      rw [← List.take_add]
      exact ih _ (by omega) hle rfl
    · rfl

/-- `cp` that does not fail writes the start of the source, from where it is on. -/
theorem cpLoop_done (hoff : off ≤ src.length) (hdst : dstOff ≤ dst.length)
    (h : (cpLoop a src off dst dstOff).1 = true) :
    (cpLoop a src off dst dstOff).2 =
      pwrite dst dstOff ((src.take (readEnd a.read (fun _ => 512) src.length off)).drop off) := by
  induction hn : src.length - off using Nat.strongRecOn generalizing off dst dstOff with
  | _ m ih =>
    rw [cpLoop] at h ⊢
    rw [readEnd]
    by_cases hread : readResult a.read src.length off 512 > 0
    case neg =>
      rw [dif_neg hread, dif_neg hread, List.drop_of_length_le (by rw [List.length_take]; omega),
        pwrite_nil hdst]
    rw [dif_pos hread] at h ⊢
    rw [dif_pos hread]
    obtain ⟨hpos, hle, -⟩ := readResult_pos hread
    generalize (readResult a.read src.length off 512).toNat = n at h hpos hle ⊢
    have hchunk : ((src.drop off).take n).length = n := by
      rw [List.length_take, List.length_drop]
      omega
    have hwritten :=
      @writeLoop_done a.write dst ((src.drop off).take n) 0 dstOff hdst (Nat.zero_le _)
    dsimp only at h ⊢
    generalize writeLoop a.write ((src.drop off).take n) 0 dst dstOff = r at h hwritten ⊢
    obtain ⟨ok, dst', dstOff'⟩ := r
    cases ok with
    | false => cases h
    | true =>
      obtain ⟨rfl, rfl⟩ := Prod.mk.inj (hwritten rfl)
      rw [List.drop_zero, Nat.sub_zero, hchunk] at h ⊢
      have hlong := pwrite_length_ge dst dstOff ((src.drop off).take n)
      have happend := pwrite_append dst dstOff ((src.drop off).take n)
        ((src.take (readEnd a.read (fun _ => 512) src.length (off + n))).drop (off + n))
      rw [hchunk] at hlong happend
      -- The chunk and what is written behind it are consecutive in the source.
      have hwhole : (src.drop off).take n ++
          (src.take (readEnd a.read (fun _ => 512) src.length (off + n))).drop (off + n) =
          (src.take (readEnd a.read (fun _ => 512) src.length (off + n))).drop off := by
        have hend := @le_readEnd a.read (fun _ => 512) src.length (off + n)
        generalize readEnd a.read (fun _ => 512) src.length (off + n) = e at hend ⊢
        have hfirst : (src.drop off).take n = ((src.take e).drop off).take n := by
          rw [List.drop_take, List.take_take, Nat.min_eq_left (by omega)]
        rw [hfirst, ← List.drop_drop, List.take_append_drop]
      rw [hwhole] at happend
      exact (ih _ (by omega) hle hlong h rfl).trans happend

/-- With answers of `write` that never fail `cp` reaches its end. -/
theorem cpLoop_succeeds (h : ∀ off, a.write off ≠ none) (src : List UInt8) (off : Nat)
    (dst : List UInt8)
    (dstOff : Nat) : (cpLoop a src off dst dstOff).1 = true := by
  induction hn : src.length - off using Nat.strongRecOn generalizing off dst dstOff with
  | _ m ih =>
    rw [cpLoop]
    split_ifs with hread
    · obtain ⟨hpos, hle, -⟩ := readResult_pos hread
      have hwritten :=
        writeLoop_succeeds h ((src.drop off).take (readResult a.read src.length off 512).toNat) 0
        dst dstOff
      dsimp only
      generalize writeLoop a.write
        ((src.drop off).take (readResult a.read src.length off 512).toNat) 0 dst dstOff = r
        at hwritten ⊢
      obtain ⟨ok, dst', dstOff'⟩ := r
      cases hwritten
      exact ih _ (by omega) _ _ _ rfl
    · rfl

/-! ## One file -/

/-- A part of a file written over itself. -/
theorem pwrite_self (h : off ≤ src.length) (n : Nat) :
    pwrite src off ((src.drop off).take n) = src := by
  have hnext : src.drop (off + ((src.drop off).take n).length) = (src.drop off).drop n := by
    rw [← List.drop_drop, List.length_take]
    rcases Nat.le_total n (src.drop off).length with hn | hn
    · rw [Nat.min_eq_left hn]
    · rw [Nat.min_eq_right hn, List.drop_length, List.drop_of_length_le hn]
  rw [pwrite, Nat.sub_eq_zero_of_le h, List.replicate_zero, List.append_nil, hnext,
    List.append_assoc, List.take_append_drop, List.take_append_drop]

theorem writeLoop_same (hle : dstOff + (buf.length - off) ≤ src.length)
    (hbuf : buf.drop off = (src.drop dstOff).take (buf.length - off)) :
    (writeLoop write buf off src dstOff).2.1 = src := by
  induction hn : buf.length - off using Nat.strongRecOn generalizing off dstOff with
  | _ m ih =>
    rw [writeLoop]
    split_ifs with hlt
    · cases write dstOff with
      | none => rfl
      | some k =>
        have hmod := Nat.mod_lt k (show buf.length - off > 0 by omega)
        dsimp only
        generalize hw : 1 + k % (buf.length - off) = w
        have hchunk : (buf.drop off).take w = (src.drop dstOff).take w := by
          rw [hbuf, List.take_take, Nat.min_eq_left (by omega)]
        rw [hchunk, pwrite_self (by omega)]
        refine ih _ (by omega) (by omega) ?_ rfl
        rw [← List.drop_drop, hbuf, List.drop_take, List.drop_drop]
        congr 1
        omega
    · rfl

theorem cpLoop_same (h : off ≤ src.length) : (cpLoop a src off src off).2 = src := by
  induction hn : src.length - off using Nat.strongRecOn generalizing off with
  | _ m ih =>
    rw [cpLoop]
    split_ifs with hread
    · obtain ⟨hpos, hle, -⟩ := readResult_pos hread
      generalize (readResult a.read src.length off 512).toNat = n at hpos hle ⊢
      have hlen : ((src.drop off).take n).length = n := by
        rw [List.length_take, List.length_drop]
        omega
      have hsame : (writeLoop a.write ((src.drop off).take n) 0 src off).2.1 = src :=
        writeLoop_same (by omega) (by rw [List.drop_zero, hlen, Nat.sub_zero])
      have hdone := @writeLoop_done a.write src ((src.drop off).take n) 0 off h (Nat.zero_le _)
      dsimp only
      generalize writeLoop a.write ((src.drop off).take n) 0 src off = r at hsame hdone ⊢
      obtain ⟨ok, dst, dstOff⟩ := r
      cases ok with
      | false => exact hsame
      | true =>
        obtain rfl : dst = src := hsame
        have hoff : dstOff = off + n := by
          rw [← hlen]
          exact congrArg Prod.snd (hdone rfl)
        dsimp only
        rw [hoff]
        exact ih _ (by omega) hle rfl
    · rfl

/-- A file that `cp` copies to itself stays as it is, also when a call fails. -/
theorem cp_same (argc : Nat) (argv1 argv2 : String) (a : Answers) (src : List UInt8) :
    (cp argc argv1 argv2 a src src).dst = some src := by
  have hsame := @cpLoop_same src 0 a (Nat.zero_le _)
  unfold cp
  generalize cpLoop a src 0 src 0 = r at hsame ⊢
  obtain ⟨ok, dst⟩ := r
  obtain rfl : dst = src := hsame
  cases ok <;> split_ifs <;> rfl

/-! ## The two programs -/

/-- What is left of the old destination decides. -/
theorem take_append_drop_eq_iff (src old : List UInt8) (p : Nat) (h : p ≤ src.length) :
    pwrite old 0 (src.take p) = src ↔ old.drop p = src.drop p := by
  rw [pwrite_zero, List.length_take_of_le h]
  conv_lhs =>
    rhs
    rw [← List.take_append_drop p src]
  rw [List.append_right_inj]

theorem cp_dst {argc : Nat} {argv1 argv2 : String}
    (h : (cp argc argv1 argv2 a src old).exit = 0) :
    (cp argc argv1 argv2 a src old).dst =
      some (pwrite old 0 (src.take (readEnd a.read (fun _ => 512) src.length 0))) := by
  unfold cp at h ⊢
  split_ifs at h ⊢ with hargc hsrc hdst
  -- An early return is not with 0.
  case' neg => cases h
  case' neg => cases h
  case' pos => cases h
  have hdone := @cpLoop_done src old 0 0 a (Nat.zero_le _) (Nat.zero_le _)
  generalize cpLoop a src 0 old 0 = r at h hdone ⊢
  obtain ⟨ok, dst⟩ := r
  cases ok with
  | false => cases h
  | true => exact congrArg some (hdone rfl)

theorem mv_dst {argc : Nat} {argv1 argv2 : String} {same : Bool}
    (h : (mv argc argv1 argv2 same a src old).unlinked = true) :
    (mv argc argv1 argv2 same a src old).dst = if same then none
      else some (pwrite old 0 (src.take (readEnd a.read (65536 - ·) src.length 0))) := by
  have hbuf := mvReadLoop_eq a src (Nat.zero_le _)
  rw [List.take_zero] at hbuf
  unfold mv at h ⊢
  rw [hbuf] at h ⊢
  by_cases hargc : argc < 3
  case pos =>
    rw [if_pos hargc] at h
    cases h
  by_cases hsrc : a.openSrc = true
  case neg =>
    rw [if_neg hargc, if_pos hsrc] at h
    cases h
  by_cases hmalloc : a.malloc = true
  case neg =>
    rw [if_neg hargc, if_neg (not_not.mpr hsrc), if_pos hmalloc] at h
    cases h
  by_cases hopen : a.openDst = true
  case neg =>
    rw [if_neg hargc, if_neg (not_not.mpr hsrc), if_neg (not_not.mpr hmalloc)] at h
    dsimp only at h
    rw [if_pos hopen] at h
    cases h
  rw [if_neg hargc, if_neg (not_not.mpr hsrc), if_neg (not_not.mpr hmalloc)] at h ⊢
  dsimp only at h ⊢
  rw [if_neg (not_not.mpr hopen)] at h ⊢
  have hdone :=
    @writeLoop_done a.write old (src.take (readEnd a.read (65536 - ·) src.length 0)) 0 0
    (Nat.zero_le _) (Nat.zero_le _)
  generalize writeLoop a.write (src.take (readEnd a.read (65536 - ·) src.length 0)) 0 old 0 =
    r at h hdone ⊢
  obtain ⟨ok, dst, dstOff⟩ := r
  cases ok with
  | false => cases h
  | true =>
    have hunlink : a.unlink = true := h
    have hdst : dst = _ := congrArg Prod.fst (hdone rfl)
    show (if a.unlink = true ∧ same = true then none else some dst) = _
    rw [hunlink, hdst]
    simp only [true_and]
    rfl

/-- Calls that all succeed, with these answers of `read`. -/
def allWell (read : Nat → Option Nat) : Answers := ⟨true, true, true, read, fun _ => some 0, true⟩

theorem cp_allWell (read : Nat → Option Nat) (src old : List UInt8) :
    (cp 3 "" "" (allWell read) src old).exit = 0 := by
  have hdone := @cpLoop_succeeds (allWell read) (fun _ => by simp [allWell]) src 0 old 0
  unfold cp
  rw [if_neg (by decide), if_neg (by simp [allWell]), if_neg (by simp [allWell])]
  generalize cpLoop (allWell read) src 0 old 0 = r at hdone ⊢
  obtain ⟨ok, dst⟩ := r
  cases hdone
  rfl

theorem mv_allWell (read : Nat → Option Nat) (same : Bool) (src old : List UInt8) :
    (mv 3 "" "" same (allWell read) src old).unlinked = true := by
  have hdone := @writeLoop_succeeds (allWell read).write (fun _ => by simp [allWell])
    (mvReadLoop (allWell read) src []) 0 old 0
  unfold mv
  rw [if_neg (by decide), if_neg (by simp [allWell]), if_neg (by simp [allWell])]
  dsimp only
  rw [if_neg (by simp [allWell])]
  generalize writeLoop (allWell read).write (mvReadLoop (allWell read) src []) 0 old 0 =
    r at hdone ⊢
  obtain ⟨ok, dst, dstOff⟩ := r
  cases hdone
  rfl

theorem cpKeeps_iff (read : Nat → Option Nat) (src old : List UInt8) :
    CpKeeps read src old ↔ old.drop (readEnd read (fun _ => 512) src.length 0) =
      src.drop (readEnd read (fun _ => 512) src.length 0) := by
  rw [← take_append_drop_eq_iff src old _ (readEnd_le _ (Nat.zero_le _))]
  constructor
  · intro h
    have hexit := cp_allWell read src old
    exact Option.some.inj ((cp_dst hexit).symm.trans (h 3 "" "" (allWell read) rfl hexit))
  · intro h argc argv1 argv2 a hread hexit
    rw [cp_dst hexit, hread, h]

/-- One file that `mv` removes is gone. -/
theorem mvKeeps_iff (read : Nat → Option Nat) (same : Bool) (src old : List UInt8) :
    MvKeeps read same src old ↔ same = false ∧ old.drop (readEnd read (65536 - ·) src.length 0) =
      src.drop (readEnd read (65536 - ·) src.length 0) := by
  rw [← take_append_drop_eq_iff src old _ (readEnd_le _ (Nat.zero_le _))]
  constructor
  · intro h
    have hunlinked := mv_allWell read same src old
    have hdst := (mv_dst hunlinked).symm.trans (h 3 "" "" (allWell read) rfl hunlinked)
    cases same with
    | true => cases hdst
    | false => exact ⟨rfl, Option.some.inj hdst⟩
  · rintro ⟨rfl, h⟩ argc argv1 argv2 a hread hunlinked
    rw [mv_dst hunlinked, hread, h]
    rfl

/-- Both programs keep the data exactly if the old destination has the bytes of the source from
where reading stops on and, for `mv`, is another file. -/
theorem copies_keep_iff (read : Nat → Option Nat) (same : Bool) (src old : List UInt8) :
    (CpKeeps read src old ↔ old.drop (readEnd read (fun _ => 512) src.length 0) =
      src.drop (readEnd read (fun _ => 512) src.length 0)) ∧
    (MvKeeps read same src old ↔
      same = false ∧ old.drop (readEnd read (65536 - ·) src.length 0) =
        src.drop (readEnd read (65536 - ·) src.length 0)) :=
  ⟨cpKeeps_iff read src old, mvKeeps_iff read same src old⟩

/-- When no read fails, `cp` keeps the data exactly if the old destination is not longer than the
source. -/
theorem cpKeeps_of_works (h : ∀ off, read off ≠ none) (src old : List UInt8) :
    CpKeeps read src old ↔ old.length ≤ src.length := by
  have hend : readEnd read (fun _ => 512) src.length 0 = src.length := by
    have hstop := @readEnd_of_works read (fun _ => 512) 0 src.length h (Nat.zero_le _)
    have hle := @readEnd_le read 0 src.length (fun _ => 512) (Nat.zero_le _)
    omega
  rw [cpKeeps_iff, hend, List.drop_length, List.drop_eq_nil_iff]

/-- When no read fails, `mv` moves at most the first 65536 bytes. -/
theorem mvKeeps_of_works (h : ∀ off, read off ≠ none) (src old : List UInt8) :
    MvKeeps read false src old ↔
      old.drop (min src.length 65536) = src.drop (min src.length 65536) := by
  have hend : readEnd read (65536 - ·) src.length 0 = min src.length 65536 := by
    have hstop := @readEnd_of_works read (65536 - ·) 0 src.length h (Nat.zero_le _)
    have hle := @readEnd_le read 0 src.length (65536 - ·) (Nat.zero_le _)
    have hcap := @readEnd_le_cap read 0 65536 (Nat.zero_le _) src.length
    omega
  rw [mvKeeps_iff, hend, eq_self_iff_true, true_and]

/-- A shorter file copied or moved over a longer one is followed by the rest of that. -/
theorem copy_over_longer_loses :
    ¬ ∀ read src old, CpKeeps read src old ∧ MvKeeps read false src old := by
  intro hall
  have h := (hall (fun _ => some 0) [1] [2, 3]).1
  rw [cpKeeps_of_works fun _ => by simp] at h
  exact absurd h (by decide)

end Lumin.User.CopyMove
