import Lumin.Proc.Ownership

/-!
# The first stack of a program

`setup_user_stack` of `kernel/proc/task.c` and `_start` of `libc/crt/crt0.asm` are the two
ends of one convention: the kernel packs the strings, the pointers to them and their
number into the page of the stack, and `_start` takes `argc` and `argv` from there.

The kernel packs the strings downwards without any padding and hands out the address of
the count as it comes.  `_start` aligns `rsp` to 16 before it reads.  The two meet only
where the packed bytes are a multiple of 16.
-/

namespace Lumin.Proc

open Lumin.Lib Lumin.Mm

/-! ## The program's side -/

/-- What a program runs in besides the bytes of its stack: the frame of the stack, the
bytes outside of it, the addresses that are mapped for writing and the symbols that the
linker sets. -/
structure UserSpace where
  phys : Nat
  image : Mem
  mapped : Nat → Bool
  bssStart : Nat
  bssEnd : Nat
  /-- The address after `call main`. -/
  afterCall : Nat

/-- The page of the stack is mapped and the one below it is not; the program and its
`.bss` are elsewhere. -/
structure UserSpace.Sound (U : UserSpace) : Prop where
  frame : IsFrame U.phys
  stack : ∀ v, STACK_VADDR ≤ v → v < US_VADDR → U.mapped v = true
  below : ∀ v, STACK_VADDR - 0x1000 ≤ v → v < STACK_VADDR → U.mapped v = false
  bss_le : U.bssStart ≤ U.bssEnd
  bss_lt : U.bssEnd < 2 ^ 64
  bss_mapped : ∀ v, U.bssStart ≤ v → v < U.bssEnd → U.mapped v = true
  bss_apart : U.bssEnd ≤ STACK_VADDR ∨ US_VADDR ≤ U.bssStart

/-- The bytes at user addresses: the page of the stack shows its frame. -/
def UserSpace.view (U : UserSpace) (mem : Mem) : Mem := fun v =>
  if STACK_VADDR ≤ v ∧ v < US_VADDR then mem (U.phys + (v - STACK_VADDR)) else U.image v

/-- All bytes of a word are mapped. -/
def wordMapped (mapped : Nat → Bool) (a : Nat) : Bool :=
  (List.range 8).all fun i => mapped (u64 (a + i))

/-- `mov reg, [a]`; `none` is a page fault. -/
def loadWord (mapped : Nat → Bool) (mem : Mem) (a : Nat) : Option Nat :=
  if wordMapped mapped a then some (rdLE mem a 8) else none

/-- `push` at `a`. -/
def storeWord (mapped : Nat → Bool) (mem : Mem) (a v : Nat) : Option Mem :=
  if wordMapped mapped a then some (wrLE mem a 8 v) else none

/-- `rep stosb` with `al = 0`. -/
def repStosb (mapped : Nat → Bool) (mem : Mem) (rdi : Nat) : Nat → Option Mem
  | 0 => some mem
  | rcx + 1 =>
    if mapped rdi then repStosb mapped (setByte mem rdi 0) (u64 (rdi + 1)) rcx else none

/-- What `main` finds when it is entered. -/
structure MainEntry where
  rdi : Nat
  rsi : Nat
  mem : Mem

/-- `_start`, up to the first instruction of `main`. -/
def crt0Start (U : UserSpace) (mem : Mem) (rsp : Nat) : Option MainEntry := do
  let mem ← repStosb U.mapped mem U.bssStart (sub64 U.bssEnd U.bssStart)
  -- and rsp, -16
  let rsp := rsp - rsp % 16
  let rdi ← loadWord U.mapped mem rsp
  let rsi := u64 (rsp + 8)
  let mem ← storeWord U.mapped mem (sub64 rsp 8) U.afterCall
  some { rdi := rdi, rsi := rsi, mem := mem }

/-! ## What the two agree on -/

/-- `main` has the number of the strings, pointers to copies of them with their
terminators, and `NULL` after the pointers. -/
structure EntersMainWith (args : List (List UInt8)) (c : MainEntry) : Prop where
  argc : s32 c.rdi = args.length
  argv : ∀ i (hi : i < args.length), ∀ k (hk : k < (args[i] ++ [0]).length),
    c.mem (rdLE c.mem (c.rsi + 8 * i) 8 + k) = (args[i] ++ [0])[k]
  null : rdLE c.mem (c.rsi + 8 * args.length) 8 = 0

/-- A program that starts on the stack that `setup_user_stack` makes, in a frame with
the bytes of `mem`, calls `main` with the strings. -/
def MeetsKernel (U : UserSpace) (mem : Mem) (args : List (List UInt8)) : Prop :=
  ∃ c, crt0Start U (U.view (setupUserStack mem U.phys args).1)
      (setupUserStack mem U.phys args).2 = some c ∧
    EntersMainWith args c

/-- The strings with the pointers to them and the `NULL` after these. -/
def vectorBytes (args : List (List UInt8)) : Nat := argBytes args + 8 * (args.length + 1)

variable {U : UserSpace} {mem : Mem} {phys rsp : Nat} {args : List (List UInt8)}

/-! ## What the kernel leaves in the page -/

theorem argBytes_cons (s : List UInt8) (args : List (List UInt8)) :
    argBytes (s :: args) = s.length + 1 + argBytes args := by
  simp [argBytes]

theorem argBytes_drop_le (args : List (List UInt8)) (i : Nat) :
    argBytes (args.drop i) ≤ argBytes args := by
  induction args generalizing i with
  | nil => simp [argBytes]
  | cons s args ih =>
    cases i with
    | zero => exact le_refl _
    | succ i =>
      rw [List.drop_succ_cons, argBytes_cons]
      exact (ih i).trans (Nat.le_add_left _ _)

/-- The string before the others goes right under them. -/
theorem pushStrings_cons (mem : Mem) (hphys : IsFrame phys) {s : List UInt8}
    (hfit : argBytes (s :: args) ≤ 0x1000) :
    pushStrings mem phys (s :: args) =
      (wrBytes (pushStrings mem phys args).1 (phys + (0x1000 - argBytes (s :: args))) (s ++ [0]),
        0x1000 - argBytes (s :: args),
          u64 (US_VADDR - 0x1000 + (0x1000 - argBytes (s :: args))) ::
          (pushStrings mem phys args).2.2) := by
  have hbytes := argBytes_cons s args
  rw [hbytes] at hfit
  obtain ⟨hoff, -, -⟩ := pushStrings_spec mem args hphys (by omega)
  have hsub : sub64 (pushStrings mem phys args).2.1 (s.length + 1) =
      0x1000 - argBytes (s :: args) := by
    rw [hoff, hbytes, sub64_of_le (by omega) (by omega)]
    omega
  rw [← hsub, ← frame_offset hphys (by rw [hsub]; omega)]
  rfl

/-- String `i` lies under those after it, and its address is the entry `i`. -/
theorem pushStrings_string (mem : Mem) (hphys : IsFrame phys) (hfit : argBytes args ≤ 0x1000)
    {i : Nat}
    (hi : i < args.length) :
    (pushStrings mem phys args).2.2[i]? = some (US_VADDR - argBytes (args.drop i)) ∧
      ∀ k (hk : k < (args[i] ++ [0]).length),
        (pushStrings mem phys args).1 (phys + (0x1000 - argBytes (args.drop i)) + k) =
          (args[i] ++ [0])[k] := by
  induction args generalizing i with
  | nil => exact absurd hi (Nat.not_lt_zero _)
  | cons s args ih =>
    rw [pushStrings_cons mem hphys hfit]
    have hbytes := argBytes_cons s args
    rw [hbytes] at hfit
    cases i with
    | zero =>
      simp only [List.drop_zero, List.getElem?_cons_zero, List.getElem_cons_zero]
      refine ⟨?_, fun k hk => ?_⟩
      · rw [hbytes]
        unfold u64 US_VADDR USER_BASE_VADDR
        rw [Option.some_inj]
        omega
      · unfold wrBytes
        rw [if_pos ⟨by omega, by omega⟩, Nat.add_sub_cancel_left, List.getD_eq_getElem?_getD,
          List.getElem?_eq_getElem hk, Option.getD_some]
    | succ i =>
      have hi' : i < args.length := Nat.lt_of_succ_lt_succ hi
      obtain ⟨hptr, hbyte⟩ := ih (by omega) hi'
      simp only [List.drop_succ_cons, List.getElem?_cons_succ, List.getElem_cons_succ]
      refine ⟨hptr, fun k hk => ?_⟩
      -- The new string ends where the string `i + 1` can start at the lowest.
      have hle := argBytes_drop_le args i
      rw [← hbyte k hk]
      unfold wrBytes
      rw [if_neg]
      simp only [List.length_append, List.length_singleton, hbytes]
      omega

/-- The bytes under the strings stay. -/
theorem pushStrings_below (mem : Mem) (hphys : IsFrame phys) (hfit : argBytes args ≤ 0x1000)
    {x : Nat}
    (hx : x < phys + (0x1000 - argBytes args)) : (pushStrings mem phys args).1 x = mem x := by
  induction args with
  | nil => rfl
  | cons s args ih =>
    rw [pushStrings_cons mem hphys hfit]
    have hbytes := argBytes_cons s args
    rw [hbytes] at hfit hx
    rw [← ih (by omega) (by omega)]
    dsimp only
    unfold wrBytes
    rw [if_neg]
    rw [hbytes]
    omega

/-- The words pushed from an offset on, the last one first: each is in its place, and the
bytes on both sides stay. -/
theorem pushWords_read {r : Mem × Nat} (hphys : IsFrame phys) (ws : List Nat)
    (hlo : 8 * ws.length ≤ r.2)
    (hhi : r.2 ≤ 0x1000) :
    (∀ j (hj : j < ws.length), rdLE (ws.foldr (fun v r => pushWord phys r v) r).1
        (phys + (r.2 - 8 * (ws.length - j))) 8 = ws[j] % 2 ^ 64) ∧
      ∀ x, x < phys + (r.2 - 8 * ws.length) ∨ phys + r.2 ≤ x →
        (ws.foldr (fun v r => pushWord phys r v) r).1 x = r.1 x := by
  induction ws with
  | nil => exact ⟨fun j hj => absurd hj (Nat.not_lt_zero _), fun _ _ => rfl⟩
  | cons w ws ih =>
    rw [List.length_cons] at hlo
    obtain ⟨hoff, -⟩ := pushWords_spec hphys ws (by omega) hhi
    obtain ⟨hread, hmem⟩ := ih (by omega)
    have hstep : ((w :: ws).foldr (fun v r => pushWord phys r v) r).1 =
        wrLE (ws.foldr (fun v r => pushWord phys r v) r).1 (phys + (r.2 - 8 * (ws.length + 1))) 8
          w := by
      rw [List.foldr_cons]
      generalize ws.foldr (fun v r => pushWord phys r v) r = r' at hoff
      have hsub : sub64 r'.2 8 = r.2 - 8 * (ws.length + 1) := by
        rw [hoff, sub64_of_le (by omega) (by omega)]
        omega
      unfold pushWord
      dsimp only
      rw [hsub, frame_offset hphys (by omega)]
    rw [hstep]
    simp only [List.length_cons]
    refine ⟨fun j hj => ?_, fun x hx => ?_⟩
    · cases j with
      | zero =>
        rw [Nat.sub_zero, rdLE_wrLE_same]
        rfl
      | succ j =>
        have hj' : j < ws.length := Nat.lt_of_succ_lt_succ hj
        rw [rdLE_wrLE_apart (Or.inr (by omega)), List.getElem_cons_succ, ← hread j hj']
        congr 2
        omega
    · rw [← hmem x (by omega)]
      rcases hx with hx | hx
      · exact wrLE_of_lt hx
      · exact wrLE_of_ge (by omega)

/-- The stack of `args` in the page at `base`: the count, the pointers, `NULL` and the
strings. -/
structure LaidOut (args : List (List UInt8)) (m : Mem) (base : Nat) : Prop where
  count : rdLE m (base + (0x1000 - (vectorBytes args + 8))) 8 = args.length
  pointer : ∀ i < args.length,
    rdLE m (base + (0x1000 - vectorBytes args + 8 * i)) 8 = US_VADDR - argBytes (args.drop i)
  null : rdLE m (base + (0x1000 - vectorBytes args + 8 * args.length)) 8 = 0
  string : ∀ i (hi : i < args.length), ∀ k (hk : k < (args[i] ++ [0]).length),
    m (base + (0x1000 - argBytes (args.drop i) + k)) = (args[i] ++ [0])[k]

theorem pushWord_snd (r : Mem × Nat) (v : Nat) : (pushWord phys r v).2 = sub64 r.2 8 := rfl

/-- The words of the stack are pushed in one run. -/
theorem setupUserStack_eq (mem : Mem) (phys : Nat) (hlen : args.length ≤ 64) :
    let p := pushStrings mem phys args
    let r := (args.length :: (p.2.2 ++ [0])).foldr (fun v r => pushWord phys r v) (p.1, p.2.1)
    setupUserStack mem phys args = (r.1, u64 (US_VADDR - 0x1000 + r.2)) := by
  unfold setupUserStack
  simp only [List.take_of_length_le hlen, List.foldr_cons, List.foldr_append, List.foldr_nil]

/-- The stack pointer lies right under what is on the stack, also where the count has no
room left. -/
theorem setupUserStack_rsp (mem : Mem) (hphys : IsFrame phys) (hlen : args.length ≤ 64)
    (hfit : vectorBytes args ≤ 0x1000) :
    (setupUserStack mem phys args).2 = US_VADDR - (vectorBytes args + 8) := by
  unfold vectorBytes at hfit ⊢
  obtain ⟨hoff, hptrs, -⟩ := pushStrings_spec mem args hphys (by omega)
  have hpush :=
    pushWords_spec (r := ((pushStrings mem phys args).1, (pushStrings mem phys args).2.1)) hphys
    ((pushStrings mem phys args).2.2 ++ [0])
    (by simp only [List.length_append, List.length_singleton, hptrs, hoff]; omega)
    (by rw [hoff]; omega)
  have hbelow := hpush.1
  simp only [List.length_append, List.length_singleton, hptrs, hoff] at hbelow
  rw [setupUserStack_eq mem phys hlen]
  dsimp only
  rw [List.foldr_cons, pushWord_snd, hoff, hbelow]
  unfold sub64 u64 US_VADDR USER_BASE_VADDR
  omega

/-- `setup_user_stack` lays out the strings and leaves what is below them. -/
theorem setupUserStack_laidOut (mem : Mem) (hphys : IsFrame phys) (hlen : args.length ≤ 64)
    (hfit : vectorBytes args + 8 ≤ 0x1000) :
    LaidOut args (setupUserStack mem phys args).1 phys ∧
      ∀ x < phys + (0x1000 - (vectorBytes args + 8)), (setupUserStack mem phys args).1 x =
          mem x := by
  have hbytes : vectorBytes args = argBytes args + 8 * (args.length + 1) := rfl
  obtain ⟨hoff, hptrs, -⟩ := pushStrings_spec mem args hphys (by omega)
  have hpush :=
    pushWords_read (r := ((pushStrings mem phys args).1, (pushStrings mem phys args).2.1)) hphys
    (args.length :: ((pushStrings mem phys args).2.2 ++ [0]))
    (by simp only [List.length_cons, List.length_append, List.length_nil, hptrs, hoff]; omega)
    (by rw [hoff]; omega)
  rw [setupUserStack_eq mem phys hlen]
  dsimp only
  generalize List.foldr (fun v r => pushWord phys r v) _ _ = r at hpush ⊢
  simp only [List.length_cons, List.length_append, List.length_nil, hptrs, hoff] at hpush
  obtain ⟨hread, hmem⟩ := hpush
  refine ⟨{ count := ?_, pointer := ?_, null := ?_, string := ?_ }, ?_⟩
  · have hword := hread 0 (by omega)
    rw [List.getElem_cons_zero, Nat.mod_eq_of_lt (by omega)] at hword
    rw [show 0x1000 - (vectorBytes args + 8) = 0x1000 - argBytes args - 8 *
      (args.length + (0 + 1) + 1 - 0) from by omega]
    exact hword
  · intro i hi
    have hword := hread (i + 1) (by omega)
    obtain ⟨hptr, -⟩ := pushStrings_string mem hphys (by omega) hi
    have hget : ((pushStrings mem phys args).2.2 ++ [0])[i]? =
        some (US_VADDR - argBytes (args.drop i)) := by
      rw [List.getElem?_append_left (by omega), hptr]
    rw [List.getElem_cons_succ, (List.getElem?_eq_some_iff.mp hget).2, Nat.mod_eq_of_lt] at hword
    · rw [show 0x1000 - vectorBytes args + 8 * i =
        0x1000 - argBytes args - 8 * (args.length + (0 + 1) + 1 - (i + 1)) from by omega]
      exact hword
    · unfold US_VADDR USER_BASE_VADDR
      omega
  · have hword := hread (args.length + 1) (by omega)
    rw [List.getElem_cons_succ, List.getElem_append_right (by omega)] at hword
    simp only [hptrs, Nat.sub_self, List.getElem_cons_zero, Nat.zero_mod] at hword
    rw [show 0x1000 - vectorBytes args + 8 * args.length =
      0x1000 - argBytes args - 8 * (args.length + (0 + 1) + 1 - (args.length + 1)) from by omega]
    exact hword
  · intro i hi k hk
    obtain ⟨-, hbyte⟩ := pushStrings_string mem hphys (by omega) hi
    have hle := argBytes_drop_le args i
    rw [← hbyte k hk, ← Nat.add_assoc]
    exact hmem _ (Or.inr (by omega))
  · intro x hx
    rw [hmem x (Or.inl (by omega))]
    exact pushStrings_below mem hphys (by omega) (by omega)

/-- The layout depends on the bytes from the count on. -/
theorem LaidOut.move {m m' : Mem} {base base' : Nat} (h : LaidOut args m base)
    (hfit : vectorBytes args + 8 ≤ 0x1000)
    (hsame : ∀ o, 0x1000 - (vectorBytes args + 8) ≤ o → o < 0x1000 →
      m' (base' + o) = m (base + o)) : LaidOut args m' base' := by
  have hbytes : vectorBytes args = argBytes args + 8 * (args.length + 1) := rfl
  have hword : ∀ o, 0x1000 - (vectorBytes args + 8) ≤ o → o + 8 ≤ 0x1000 →
      rdLE m' (base' + o) 8 = rdLE m (base + o) 8 := by
    intro o hlo hhi
    refine rdLE_move fun i hi => ?_
    rw [Nat.add_assoc, Nat.add_assoc]
    exact hsame (o + i) (by omega) (by omega)
  refine { count := ?_, pointer := ?_, null := ?_, string := ?_ }
  · rw [hword _ (le_refl _) (by omega)]
    exact h.count
  · intro i hi
    rw [hword _ (by omega) (by omega)]
    exact h.pointer i hi
  · rw [hword _ (by omega) (by omega)]
    exact h.null
  · intro i hi k hk
    have hle := argBytes_drop_le args i
    have hlen : (args[i] ++ [0]).length ≤ argBytes (args.drop i) := by
      rw [List.drop_eq_getElem_cons hi, argBytes_cons, List.length_append, List.length_singleton]
      exact Nat.le_add_right _ _
    rw [hsame _ (by omega) (by omega)]
    exact h.string i hi k hk

/-! ## What `_start` makes of it -/

theorem wordMapped_of_all {mapped : Nat → Bool} {a : Nat}
    (h : ∀ i < 8, mapped (u64 (a + i)) = true) :
    wordMapped mapped a = true :=
  List.all_eq_true.mpr fun i hi => h i (List.mem_range.mp hi)

theorem wordMapped_of_stack (hU : U.Sound) {a : Nat} (hlo : STACK_VADDR ≤ a)
    (hhi : a + 8 ≤ US_VADDR) :
    wordMapped U.mapped a = true := by
  refine wordMapped_of_all fun i hi => ?_
  have hlt : US_VADDR < 2 ^ 64 := by decide
  rw [u64_of_lt (by omega)]
  exact hU.stack _ (by omega) (by omega)

/-- There is nothing to read or to write under the page. -/
theorem wordMapped_of_below (hU : U.Sound) {a : Nat} (hlo : STACK_VADDR - 0x1000 ≤ a)
    (hhi : a < STACK_VADDR) :
    wordMapped U.mapped a = false := by
  have hlt : STACK_VADDR < 2 ^ 64 := by decide
  refine List.all_eq_false.mpr ⟨0, by decide, ?_⟩
  rw [Nat.add_zero, u64_of_lt (by omega), hU.below a hlo hhi]
  decide

/-- `rep stosb` clears its range, if all of it is mapped. -/
theorem repStosb_eq {mapped : Nat → Bool} (m : Mem) (rdi rcx : Nat)
    (hmapped : ∀ v, rdi ≤ v → v < rdi + rcx → mapped v = true) (hlt : rdi + rcx < 2 ^ 64) :
    ∃ m', repStosb mapped m rdi rcx = some m' ∧ ∀ x, x < rdi ∨ rdi + rcx ≤ x → m' x = m x := by
  induction rcx generalizing m rdi with
  | zero => exact ⟨m, rfl, fun _ _ => rfl⟩
  | succ rcx ih =>
    obtain ⟨m', hrun, hmem⟩ := ih (setByte m rdi 0) (rdi + 1)
      (fun v hlo hhi => hmapped v (by omega) (by omega)) (by omega)
    refine ⟨m', ?_, fun x hx => ?_⟩
    · rw [repStosb, if_pos (hmapped rdi (le_refl _) (by omega)), u64_of_lt (by omega)]
      exact hrun
    · rw [hmem x (by omega)]
      exact setByte_of_ne 0 (by omega)

/-- The `.bss` is not in the page of the stack. -/
theorem repStosb_bss (hU : U.Sound) (m : Mem) :
    ∃ m', repStosb U.mapped m U.bssStart (sub64 U.bssEnd U.bssStart) = some m' ∧
      ∀ v, STACK_VADDR ≤ v → v < US_VADDR → m' v = m v := by
  have hle := hU.bss_le
  have hcount : sub64 U.bssEnd U.bssStart = U.bssEnd - U.bssStart := sub64_of_le hU.bss_lt hle
  have hend := hU.bss_lt
  obtain ⟨m', hrun, hmem⟩ := repStosb_eq m U.bssStart (U.bssEnd - U.bssStart)
    (fun v hlo hhi => hU.bss_mapped v hlo (by omega)) (by omega)
  refine ⟨m', by rw [hcount]; exact hrun, fun v hlo hhi => hmem v ?_⟩
  have := hU.bss_apart
  omega

/-- With room for a return address, `main` is entered with the word at the aligned `rsp`
and the address after it. -/
theorem crt0Start_enters (hU : U.Sound) (m : Mem) (rsp : Nat)
    (hlo : STACK_VADDR + 8 ≤ rsp - rsp % 16) (hhi : rsp + 8 ≤ US_VADDR) :
    ∃ c, crt0Start U m rsp = some c ∧ c.rdi = rdLE m (rsp - rsp % 16) 8 ∧
        c.rsi = rsp - rsp % 16 + 8 ∧
      ∀ v, rsp - rsp % 16 ≤ v → v < US_VADDR → c.mem v = m v := by
  obtain ⟨m', hbss, hmem⟩ := repStosb_bss hU m
  have hlt : US_VADDR < 2 ^ 64 := by decide
  have hload := wordMapped_of_stack hU (a := rsp - rsp % 16) (by omega) (by omega)
  have hstore := wordMapped_of_stack hU (a := rsp - rsp % 16 - 8) (by omega) (by omega)
  have hpush : sub64 (rsp - rsp % 16) 8 = rsp - rsp % 16 - 8 := sub64_of_le (by omega) (by omega)
  refine ⟨⟨rdLE m' (rsp - rsp % 16) 8, u64 (rsp - rsp % 16 + 8),
    wrLE m' (rsp - rsp % 16 - 8) 8 U.afterCall⟩,
    ?_, ?_, ?_, ?_⟩
  · simp [crt0Start, loadWord, storeWord, hbss, hload, hpush, hstore]
  · exact rdLE_congr fun x hlo hhi => hmem x (by omega) (by omega)
  · exact u64_of_lt (by omega)
  · intro v hlo hhi
    rw [← hmem v (by omega) hhi]
    exact wrLE_of_ge (by omega)

/-- Without it, the program faults. -/
theorem crt0Start_faults (hU : U.Sound) (m : Mem) (hlo : STACK_VADDR - 16 ≤ rsp - rsp % 16)
    (hhi : rsp - rsp % 16 < STACK_VADDR + 8) : crt0Start U m rsp = none := by
  obtain ⟨m', hbss, -⟩ := repStosb_bss hU m
  have hlt : US_VADDR < 2 ^ 64 := by decide
  have hbig : 0x1000 ≤ STACK_VADDR := by decide
  have htop : STACK_VADDR + 0x1000 = US_VADDR := by decide
  have hstore := wordMapped_of_below hU (a := rsp - rsp % 16 - 8) (by omega) (by omega)
  have hpush : sub64 (rsp - rsp % 16) 8 = rsp - rsp % 16 - 8 := sub64_of_le (by omega) (by omega)
  simp [crt0Start, loadWord, storeWord, hbss, hpush, hstore]

/-! ## Where they meet -/

/-- The page of the stack shows its frame. -/
theorem view_stack (U : UserSpace) (m : Mem) {o : Nat} (ho : o < 0x1000) :
    U.view m (STACK_VADDR + o) = m (U.phys + o) := by
  have htop : STACK_VADDR + 0x1000 = US_VADDR := by decide
  unfold UserSpace.view
  rw [if_pos ⟨by omega, by omega⟩, Nat.add_sub_cancel_left]

/-- `main` reads the layout from its registers. -/
theorem LaidOut.enters {c : MainEntry} (h : LaidOut args c.mem STACK_VADDR)
    (hfit : vectorBytes args + 8 ≤ 0x1000)
    (hlen : args.length ≤ 64) (hrdi : c.rdi = args.length)
    (hrsi : c.rsi = STACK_VADDR + (0x1000 - vectorBytes args)) : EntersMainWith args c := by
  have hbytes : vectorBytes args = argBytes args + 8 * (args.length + 1) := rfl
  have htop : STACK_VADDR + 0x1000 = US_VADDR := by decide
  refine { argc := ?_, argv := ?_, null := ?_ }
  · rw [hrdi]
    exact s32_of_lt (by omega)
  · intro i hi k hk
    have hle := argBytes_drop_le args i
    rw [hrsi, Nat.add_assoc, h.pointer i hi, ← h.string i hi k hk]
    congr 1
    omega
  · rw [hrsi, Nat.add_assoc]
    exact h.null

/-- On an aligned stack with room for a return address `main` gets the strings. -/
theorem meetsKernel_of_aligned (hU : U.Sound) (hlen : args.length ≤ 64)
    (haligned : 16 ∣ vectorBytes args + 8)
    (hroom : vectorBytes args + 8 < 0x1000) (mem : Mem) : MeetsKernel U mem args := by
  have htop : STACK_VADDR + 0x1000 = US_VADDR := by decide
  have hbase : 16 ∣ US_VADDR := by decide
  have hbytes : vectorBytes args = argBytes args + 8 * (args.length + 1) := rfl
  have hrsp := setupUserStack_rsp mem hU.frame hlen (by omega)
  obtain ⟨hlaid, -⟩ := setupUserStack_laidOut mem hU.frame hlen (by omega)
  unfold MeetsKernel
  generalize setupUserStack mem U.phys args = r at hrsp hlaid
  have halign : r.2 - r.2 % 16 = STACK_VADDR + (0x1000 - (vectorBytes args + 8)) := by omega
  obtain ⟨c, hrun, hrdi, hrsi, hmem⟩ := crt0Start_enters hU (U.view r.1) r.2 (by omega) (by omega)
  rw [halign] at hrdi hrsi hmem
  have hview : LaidOut args (U.view r.1) STACK_VADDR :=
    hlaid.move (by omega) fun o _ ho => view_stack U r.1 ho
  have hentry : LaidOut args c.mem STACK_VADDR :=
    hview.move (by omega) fun o hlo hhi => hmem _ (by omega) (by omega)
  refine ⟨c, hrun, hentry.enters (by omega) hlen ?_ (by omega)⟩
  rw [hrdi]
  exact hview.count

/-- On a stack that is not aligned `main` gets a count with a byte of what was in the
frame before. -/
theorem not_meetsKernel_of_stale (hU : U.Sound) (hlen : args.length ≤ 64)
    (hfit : vectorBytes args ≤ 0x1000)
    (hbad : ¬ (16 ∣ vectorBytes args + 8 ∧ vectorBytes args + 8 < 0x1000)) :
    ¬ MeetsKernel U (fun _ => 0xFF) args := by
  rintro ⟨c, hrun, hc⟩
  have htop : STACK_VADDR + 0x1000 = US_VADDR := by decide
  have hbig : 0x2000 ≤ STACK_VADDR := by decide
  have hbase : 16 ∣ US_VADDR := by decide
  have hrsp := setupUserStack_rsp (fun _ => 0xFF) hU.frame hlen hfit
  by_cases hroom :
    STACK_VADDR + 8 ≤ US_VADDR - (vectorBytes args + 8) - (US_VADDR - (vectorBytes args + 8)) % 16
  · -- The count starts above the aligned `rsp`, and the frame is as it was there.
    obtain ⟨-, hstale⟩ := setupUserStack_laidOut (fun _ => 0xFF) hU.frame hlen (by omega)
    generalize setupUserStack (fun _ => 0xFF) U.phys args = r at hrsp hstale hrun
    obtain ⟨c', hrun', hrdi, -, -⟩ := crt0Start_enters hU (U.view r.1) r.2 (by omega) (by omega)
    obtain rfl : c' = c := by
      rw [hrun] at hrun'
      exact (Option.some.inj hrun').symm
    obtain ⟨o, ho⟩ : ∃ o, r.2 - r.2 % 16 = STACK_VADDR + o :=
      ⟨_, (Nat.add_sub_cancel' (by omega)).symm⟩
    have hlow : U.view r.1 (r.2 - r.2 % 16) = 0xFF := by
      rw [ho, view_stack U r.1 (by omega)]
      exact hstale _ (by omega)
    have hargc := hc.argc
    rw [hrdi, rdLE, hlow] at hargc
    have hbyte : (0xFF : UInt8).toNat = 255 := rfl
    unfold s32 u32 at hargc
    omega
  · rw [crt0Start_faults hU _ (by rw [hrsp]; omega) (by rw [hrsp]; omega)] at hrun
    exact Option.some_ne_none c hrun.symm

/-- The kernel and `_start` agree on the stack of `args`, whatever the frame held before,
exactly if what is on it is a multiple of 16 bytes and leaves room in the page. -/
theorem meetsKernel_iff (hU : U.Sound) (hlen : args.length ≤ 64)
    (hfit : vectorBytes args ≤ 0x1000) :
    (∀ mem, MeetsKernel U mem args) ↔
      16 ∣ vectorBytes args + 8 ∧ vectorBytes args + 8 < 0x1000 := by
  constructor
  · intro h
    by_contra hbad
    exact not_meetsKernel_of_stale hU hlen hfit hbad (h _)
  · rintro ⟨haligned, hroom⟩
    exact meetsKernel_of_aligned hU hlen haligned hroom

/-- A program of one page with a `.bss` of 16 bytes. -/
def onePage : UserSpace where
  phys := 0x200000
  image := fun _ => 0
  mapped := fun v =>
    decide (USER_BASE_VADDR ≤ v ∧ v < USER_BASE_VADDR + 0x1000) ||
      decide (STACK_VADDR ≤ v ∧ v < US_VADDR)
  bssStart := USER_BASE_VADDR + 0x800
  bssEnd := USER_BASE_VADDR + 0x810
  afterCall := USER_BASE_VADDR + 0x20

theorem onePage_mapped {v : Nat} : onePage.mapped v = true ↔
    (USER_BASE_VADDR ≤ v ∧ v < USER_BASE_VADDR + 0x1000) ∨ (STACK_VADDR ≤ v ∧ v < US_VADDR) := by
  unfold onePage
  rw [Bool.or_eq_true, decide_eq_true_iff, decide_eq_true_iff]

theorem onePage_sound : onePage.Sound where
  frame := by decide
  stack v hlo hhi := onePage_mapped.mpr (Or.inr ⟨hlo, hhi⟩)
  below v hlo hhi := by
    rw [← Bool.not_eq_true, onePage_mapped]
    unfold STACK_VADDR US_VADDR USER_BASE_VADDR at *
    omega
  bss_le := by decide
  bss_lt := by decide
  bss_mapped v hlo hhi := by
    have hbss : USER_BASE_VADDR + 0x800 ≤ v ∧ v < USER_BASE_VADDR + 0x810 := ⟨hlo, hhi⟩
    clear hlo hhi
    exact onePage_mapped.mpr (Or.inl ⟨by omega, by omega⟩)
  bss_apart := by decide

/-- `argv = { "prog-x1" }` takes 32 bytes with its words. -/
theorem meetsKernel_iff_prog :
    onePage.Sound ∧ ((∀ mem, MeetsKernel onePage mem [[112, 114, 111, 103, 45, 120, 49]]) ↔
      16 ∣ vectorBytes [[112, 114, 111, 103, 45, 120, 49]] + 8 ∧
        vectorBytes [[112, 114, 111, 103, 45, 120, 49]] + 8 < 0x1000) :=
  ⟨onePage_sound, meetsKernel_iff onePage_sound (by decide) (by decide)⟩

/-- `argv = { "a" }` in a frame of `0xFF` bytes: `main` does not get it. -/
theorem shortName_not_meetsKernel :
    onePage.Sound ∧ vectorBytes [[97]] ≤ 0x1000 ∧ ¬ MeetsKernel onePage (fun _ => 0xFF) [[97]] :=
  ⟨onePage_sound,
    by decide, not_meetsKernel_of_stale onePage_sound (by decide) (by decide) (by decide)⟩

end Lumin.Proc
