import Mathlib.Algebra.BigOperators.Fin
import Mathlib.Tactic

/-!
# Byte arrays over a pool of blocks

A store of byte arrays that take whole blocks of `b` bytes from a common pool.  An array can be
read, overwritten from a place inside of it, so that it may grow, and cut.  Only the pool connects
the arrays: a write that asks for more blocks than there are gets all that are left and changes
no array.

`BlockStore.Room` says that the blocks of an array hold it; `total_call` says that no block is
lost.
-/

namespace Lumin.Lib

variable {ι : Type} [DecidableEq ι]

/-- The calls on an array. -/
inductive ByteOp (ι : Type) where
  | read (i : ι) (offset count : Nat)
  | write (i : ι) (offset : Nat) (data : List UInt8)
  | truncate (i : ι) (size : Nat)
  deriving DecidableEq, Repr

/-- The arrays, the number of blocks that each has and the number of blocks in the pool. -/
@[ext] structure BlockStore (ι : Type) where
  content : ι → List UInt8
  blocks : ι → Nat
  spare : Nat

/-- The number of blocks of `b` bytes for `n` bytes. -/
def blocksFor (b n : Nat) : Nat := (n + b - 1) / b

/-- An array with `data` at `offset`. -/
def overwrite (old : List UInt8) (offset : Nat) (data : List UInt8) : List UInt8 :=
  old.take offset ++ data ++ old.drop (offset + data.length)

/-- The store with other bytes and blocks for one array. -/
def BlockStore.set (s : BlockStore ι) (i : ι) (bytes : List UInt8) (blocks spare : Nat) :
    BlockStore ι :=
  { content := Function.update s.content i bytes, blocks := Function.update s.blocks i blocks,
    spare }

/-- A call: the answer with the bytes that are read, and the store after it. -/
def BlockStore.call (b : Nat) (s : BlockStore ι) : ByteOp ι → (Int × List UInt8) × BlockStore ι
  | .read i offset count =>
    let part := ((s.content i).drop offset).take count
    (((part.length : Int), part), s)
  | .write i offset data =>
    let needs := max (s.blocks i) (blocksFor b (offset + data.length))
    if data = [] then ((0, []), s)
    else if needs ≤ s.blocks i + s.spare then
      (((data.length : Int), []),
        s.set i (overwrite (s.content i) offset data) needs (s.blocks i + s.spare - needs))
    else ((-1, []), s.set i (s.content i) (s.blocks i + s.spare) 0)
  | .truncate i size =>
    if (s.content i).length ≤ size then ((0, []), s)
    else
      ((0, []), s.set i ((s.content i).take size) (blocksFor b size)
        (s.spare + (s.blocks i - blocksFor b size)))

/-- A write begins inside of its array, and it ends and a read counts below the limits. -/
def ByteOp.Fits (size : ι → Nat) : ByteOp ι → Prop
  | .read _ offset count => offset + count < 2 ^ 64 ∧ count < 2 ^ 31
  | .write i offset data => offset ≤ size i ∧ offset + data.length < 2 ^ 32 ∧ data.length < 2 ^ 31
  | .truncate _ _ => True

instance (size : ι → Nat) : DecidablePred (ByteOp.Fits size) := fun o =>
  match o with
  | .read _ offset count => inferInstanceAs (Decidable (offset + count < 2 ^ 64 ∧ count < 2 ^ 31))
  | .write i offset data =>
    inferInstanceAs
      (Decidable (offset ≤ size i ∧ offset + data.length < 2 ^ 32 ∧ data.length < 2 ^ 31))
  | .truncate _ _ => isTrue trivial

/-- The blocks of every array hold it. -/
def BlockStore.Room (b : Nat) (s : BlockStore ι) : Prop :=
  ∀ i, blocksFor b (s.content i).length ≤ s.blocks i

section Calls

variable {b offset count size : Nat} {data : List UInt8} {s : BlockStore ι} {i : ι}

/-- Setting an array to what it is changes nothing. -/
theorem BlockStore.set_self (s : BlockStore ι) (i : ι) :
    s.set i (s.content i) (s.blocks i) s.spare = s :=
  BlockStore.ext (Function.update_eq_self i s.content) (Function.update_eq_self i s.blocks) rfl

theorem call_read : s.call b (.read i offset count) =
    ((((((s.content i).drop offset).take count).length : Int),
      ((s.content i).drop offset).take count), s) := rfl

theorem call_write_nil : s.call b (.write i offset []) = ((0, []), s) := rfl

theorem call_write_granted (hdata : data ≠ [])
    (h : max (s.blocks i) (blocksFor b (offset + data.length)) ≤ s.blocks i + s.spare) :
    s.call b (.write i offset data) =
      (((data.length : Int), []), s.set i (overwrite (s.content i) offset data)
      (max (s.blocks i) (blocksFor b (offset + data.length)))
      (s.blocks i + s.spare - max (s.blocks i) (blocksFor b (offset + data.length)))) :=
  (if_neg hdata).trans (if_pos h)

theorem call_write_refused (hdata : data ≠ [])
    (h : ¬ max (s.blocks i) (blocksFor b (offset + data.length)) ≤ s.blocks i + s.spare) :
    s.call b (.write i offset data) =
      ((-1, []), s.set i (s.content i) (s.blocks i + s.spare) 0) :=
  (if_neg hdata).trans (if_neg h)

theorem call_truncate_above (h : (s.content i).length ≤ size) :
    s.call b (.truncate i size) = ((0, []), s) := if_pos h

theorem call_truncate_below (h : ¬ (s.content i).length ≤ size) :
    s.call b (.truncate i size) =
      ((0, []), s.set i ((s.content i).take size) (blocksFor b size)
        (s.spare + (s.blocks i - blocksFor b size))) :=
  if_neg h

end Calls

theorem blocksFor_le_iff {b n k : Nat} (hb : 0 < b) : blocksFor b n ≤ k ↔ n ≤ k * b := by
  unfold blocksFor
  rw [Nat.div_le_iff_le_mul_add_pred hb, Nat.mul_comm b k]
  omega

theorem blocksFor_mono {b m n : Nat} (h : m ≤ n) : blocksFor b m ≤ blocksFor b n :=
  Nat.div_le_div_right (by omega)

/-- No block is lost or counted twice. -/
theorem total_call [Fintype ι] {b : Nat} {s : BlockStore ι} (hroom : s.Room b) (o : ByteOp ι) :
    ∑ i, (s.call b o).2.blocks i + (s.call b o).2.spare = ∑ i, s.blocks i + s.spare := by
  have hset : ∀ i bytes blocks spare, blocks + spare = s.blocks i + s.spare →
      ∑ j, (s.set i bytes blocks spare).blocks j + (s.set i bytes blocks spare).spare =
        ∑ j, s.blocks j + s.spare := by
    intro i bytes blocks spare heq
    have hsum := Finset.sum_update_of_mem (Finset.mem_univ i) s.blocks blocks
    have hall := Finset.add_sum_erase Finset.univ s.blocks (Finset.mem_univ i)
    rw [Finset.sdiff_singleton_eq_erase] at hsum
    show ∑ j, Function.update s.blocks i blocks j + spare = _
    omega
  unfold BlockStore.call
  cases o with
  | read i offset count => rfl
  | write i offset data =>
    dsimp only
    split_ifs with hnil hgranted
    · rfl
    · exact hset _ _ _ _ (by omega)
    · exact hset _ _ _ _ (by omega)
  | truncate i size =>
    dsimp only
    split_ifs with hle
    · rfl
    · have hmono : blocksFor b size ≤ s.blocks i :=
        (blocksFor_mono (not_le.mp hle).le).trans (hroom i)
      exact hset _ _ _ _ (by omega)

end Lumin.Lib
