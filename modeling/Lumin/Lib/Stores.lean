import Lumin.Lib.Memory
import Lumin.Lib.Word

/-!
# Traces of byte stores

What a piece of code writes, as the list of its byte stores in their order.  Addresses
are 64-bit words and wrap around.

* `storesAt` are the stores of a buffer, and `runStores` is the memory after a trace.
* `pushAll` are the stores of code that pushes buffers downwards from an offset, each
  right under the one before it, without a look at the room that is left.
  `pushAll_inside_iff` says when they stay in their window, and `runStores_pushAll` what
  is in the window then.
-/

namespace Lumin.Lib

/-- A store of one byte. -/
abbrev ByteStore := Nat × UInt8

/-- The stores of the bytes `bs` from `a` on. -/
def storesAt (a : Nat) : List UInt8 → List ByteStore
  | [] => []
  | b :: bs => (a, b) :: storesAt (u64 (a + 1)) bs

/-- The memory after the stores. -/
def runStores (m : Mem) (ws : List ByteStore) : Mem := ws.foldl (fun m w => setByte m w.1 w.2) m

/-- The bytes of a 64-bit word. -/
def wordBytes (v : Nat) : List UInt8 := (List.range 8).map fun k => UInt8.ofNat (v / 256 ^ k)

/-- The stores of buffers that are pushed from `base + off` downwards. -/
def pushAll (base : Nat) : Nat → List (List UInt8) → List ByteStore
  | _, [] => []
  | off, bs :: rest => storesAt (u64 (base + sub64 off bs.length)) bs ++ pushAll base
    (sub64 off bs.length) rest

/-- The offset after the pushes. -/
def pushEnd (off : Nat) (items : List (List UInt8)) : Nat :=
  items.foldl (fun off bs => sub64 off bs.length) off

/-- The bytes that are pushed. -/
def pushedBytes (items : List (List UInt8)) : Nat := (items.map List.length).sum

variable {m : Mem} {a base size off x k : Nat} {bs : List UInt8} {items xs ys : List (List UInt8)}
  {ws : List ByteStore}

/-! ## Traces -/

theorem runStores_append (m : Mem) (ws ws' : List ByteStore) :
    runStores m (ws ++ ws') = runStores (runStores m ws) ws' :=
  List.foldl_append

/-- A byte that no store is to stays. -/
theorem runStores_of_ne (h : ∀ w ∈ ws, w.1 ≠ x) : runStores m ws x = m x := by
  induction ws generalizing m with
  | nil => rfl
  | cons w ws ih =>
    show runStores (setByte m w.1 w.2) ws x = m x
    rw [ih fun v hv => h v (List.mem_cons_of_mem w hv)]
    exact setByte_of_ne w.2 (h w List.mem_cons_self).symm

theorem storesAt_concat (h : a + bs.length < 2 ^ 64) (b : UInt8) :
    storesAt a (bs ++ [b]) = storesAt a bs ++ [(a + bs.length, b)] := by
  induction bs generalizing a with
  | nil => rfl
  | cons c bs ih =>
    rw [List.length_cons] at h ⊢
    rw [List.cons_append, storesAt, storesAt, u64_of_lt (by omega), ih (by omega),
      List.cons_append,
      Nat.add_right_comm a 1]
    rfl

/-- The stores of a buffer that does not wrap are in its range. -/
theorem range_of_mem_storesAt (hend : a + bs.length ≤ 2 ^ 64) {w : ByteStore}
    (hw : w ∈ storesAt a bs) :
    a ≤ w.1 ∧ w.1 < a + bs.length := by
  induction bs generalizing a with
  | nil => exact absurd hw List.not_mem_nil
  | cons b bs ih =>
    rw [List.length_cons] at hend ⊢
    rcases List.mem_cons.mp hw with rfl | hw
    · exact ⟨le_refl _, Nat.lt_add_of_pos_right (Nat.succ_pos _)⟩
    · cases bs with
      | nil => exact absurd hw List.not_mem_nil
      | cons c bs =>
        rw [List.length_cons] at hend ih ⊢
        rw [u64_of_lt (by omega)] at hw
        have := ih (by omega) hw
        omega

/-- Each byte of a buffer is stored, wrapped around or not. -/
theorem mem_storesAt (ha : a < 2 ^ 64) (hk : k < bs.length) :
    (u64 (a + k), bs[k]) ∈ storesAt a bs := by
  induction bs generalizing a k with
  | nil => exact absurd hk (Nat.not_lt_zero _)
  | cons b bs ih =>
    cases k with
    | zero =>
      rw [Nat.add_zero, u64_of_lt ha]
      exact List.mem_cons_self
    | succ k =>
      have hwrap : u64 (a + (k + 1)) = u64 (u64 (a + 1) + k) := by
        unfold u64
        omega
      rw [hwrap, List.getElem_cons_succ]
      exact List.mem_cons_of_mem _ (ih (Nat.mod_lt _ (by decide)) (Nat.lt_of_succ_lt_succ hk))

/-- The stores of a buffer that does not wrap write it. -/
theorem runStores_storesAt (hend : a + bs.length ≤ 2 ^ 64) (hk : k < bs.length) :
    runStores m (storesAt a bs) (a + k) = bs[k] := by
  induction bs generalizing m a k with
  | nil => exact absurd hk (Nat.not_lt_zero _)
  | cons b bs ih =>
    rw [List.length_cons] at hend hk
    show runStores (setByte m a b) (storesAt (u64 (a + 1)) bs) (a + k) = (b :: bs)[k]
    cases k with
    | zero =>
      rw [runStores_of_ne]
      · exact if_pos rfl
      · intro w hw
        cases bs with
        | nil => exact absurd hw List.not_mem_nil
        | cons c bs =>
          rw [List.length_cons] at hend
          rw [u64_of_lt (by omega)] at hw
          have := range_of_mem_storesAt (by rw [List.length_cons]; omega) hw
          omega
    | succ k =>
      rw [u64_of_lt (by omega), List.getElem_cons_succ, show a + (k + 1) = a + 1 + k by omega]
      exact ih (by omega) (Nat.lt_of_succ_lt_succ hk)

theorem runStores_eq_wrBytes (hend : a + bs.length ≤ 2 ^ 64) :
    runStores m (storesAt a bs) = wrBytes m a bs := by
  funext x
  unfold wrBytes
  by_cases hx : a ≤ x ∧ x < a + bs.length
  · obtain ⟨k, rfl⟩ : ∃ k, x = a + k := ⟨x - a, by omega⟩
    have hk : k < bs.length := by omega
    rw [if_pos hx, runStores_storesAt hend hk, Nat.add_sub_cancel_left,
      List.getD_eq_getElem?_getD,
      List.getElem?_eq_getElem hk, Option.getD_some]
  · rw [if_neg hx]
    refine runStores_of_ne fun w hw heq => hx ?_
    rw [← heq]
    exact range_of_mem_storesAt hend hw

/-! ## Words -/

theorem length_wordBytes (v : Nat) : (wordBytes v).length = 8 := by
  unfold wordBytes
  rw [List.length_map, List.length_range]

/-- A word reads back from its bytes. -/
theorem rdLE_of_wordBytes {v : Nat}
    (h : ∀ k (hk : k < (wordBytes v).length), m (a + k) = (wordBytes v)[k]) :
    rdLE m a 8 = v % 2 ^ 64 := by
  have hsame : rdLE m a 8 = rdLE (wrLE m a 8 v) a 8 := by
    refine rdLE_move fun k hk => ?_
    rw [h k (by rw [length_wordBytes]; exact hk)]
    unfold wordBytes wrLE
    rw [List.getElem_map, List.getElem_range, if_pos ⟨by omega, by omega⟩,
      Nat.add_sub_cancel_left]
  rw [hsame, rdLE_wrLE_same]
  rfl

theorem wrBytes_wordBytes (m : Mem) (a v : Nat) : wrBytes m a (wordBytes v) = wrLE m a 8 v := by
  funext x
  unfold wrBytes wrLE
  rw [length_wordBytes]
  by_cases hx : a ≤ x ∧ x < a + 8
  · have hk : x - a < 8 := by omega
    rw [if_pos hx, if_pos hx, List.getD_eq_getElem?_getD]
    unfold wordBytes
    rw [List.getElem?_map, List.getElem?_range hk]
    rfl
  · rw [if_neg hx, if_neg hx]

/-! ## Pushes -/

theorem pushAll_nil (base off : Nat) : pushAll base off [] = [] := rfl

theorem pushEnd_nil (off : Nat) : pushEnd off [] = off := rfl

theorem pushAll_cons (base off : Nat) (bs : List UInt8) (items : List (List UInt8)) :
    pushAll base off (bs :: items) =
      storesAt (u64 (base + sub64 off bs.length)) bs ++ pushAll base
        (sub64 off bs.length) items := rfl

theorem pushEnd_cons (off : Nat) (bs : List UInt8) (items : List (List UInt8)) :
    pushEnd off (bs :: items) = pushEnd (sub64 off bs.length) items := rfl

theorem pushedBytes_cons (bs : List UInt8) (items : List (List UInt8)) :
    pushedBytes (bs :: items) = bs.length + pushedBytes items := rfl

theorem pushedBytes_append (xs ys : List (List UInt8)) :
    pushedBytes (xs ++ ys) = pushedBytes xs + pushedBytes ys := by
  unfold pushedBytes
  rw [List.map_append, List.sum_append]

theorem pushAll_append (base off : Nat) (xs ys : List (List UInt8)) :
    pushAll base off (xs ++ ys) = pushAll base off xs ++ pushAll base (pushEnd off xs) ys := by
  induction xs generalizing off with
  | nil => rfl
  | cons bs xs ih =>
    rw [List.cons_append, pushAll_cons, ih, pushAll_cons, List.append_assoc, pushEnd_cons]

theorem pushEnd_append (off : Nat) (xs ys : List (List UInt8)) :
    pushEnd off (xs ++ ys) = pushEnd (pushEnd off xs) ys :=
  List.foldl_append

/-- With room for all of it, the offset goes down by what is pushed. -/
theorem pushEnd_of_le (hoff : off < 2 ^ 64) (hfit : pushedBytes items ≤ off) :
    pushEnd off items = off - pushedBytes items := by
  induction items generalizing off with
  | nil => rfl
  | cons bs items ih =>
    rw [pushedBytes_cons] at hfit ⊢
    rw [pushEnd_cons, sub64_of_le hoff (by omega), ih (by omega) (by omega)]
    omega

/-- A buffer without room for it is stored to the byte before the window as well. -/
theorem exists_store_below (hbase : 0 < base) (hend : base + off ≤ 2 ^ 64)
    (hroom : off < bs.length) :
    ∃ w ∈ storesAt (u64 (base + sub64 off bs.length)) bs, w.1 = base - 1 := by
  refine ⟨_, mem_storesAt (k := bs.length - off - 1) (Nat.mod_lt _ (by decide)) (by omega), ?_⟩
  show u64 (u64 (base + sub64 off bs.length) + (bs.length - off - 1)) = base - 1
  unfold sub64 u64
  omega

/-- The stores stay in the window exactly if there is room for all buffers. -/
theorem pushAll_inside_iff (hbase : 0 < base) (hend : base + size ≤ 2 ^ 64) (hoff : off ≤ size)
    (hne : ∀ bs ∈ items, bs ≠ []) :
    (∀ w ∈ pushAll base off items, base ≤ w.1 ∧ w.1 < base + size) ↔ pushedBytes items ≤ off := by
  induction items generalizing off with
  | nil => exact ⟨fun _ => Nat.zero_le _, fun _ w hw => absurd hw List.not_mem_nil⟩
  | cons bs items ih =>
    have hpos : 0 < bs.length := List.length_pos_iff.mpr (hne bs List.mem_cons_self)
    rw [pushAll_cons, pushedBytes_cons]
    by_cases hroom : bs.length ≤ off
    · have hsub : sub64 off bs.length = off - bs.length := sub64_of_le (by omega) hroom
      have haddr : u64 (base + (off - bs.length)) = base + (off - bs.length) :=
        u64_of_lt (by omega)
      have hrest :=
        @ih (off - bs.length) (by omega) fun cs hcs => hne cs (List.mem_cons_of_mem bs hcs)
      rw [hsub, haddr]
      constructor
      · intro h
        have := hrest.mp fun w hw => h w (List.mem_append_right _ hw)
        omega
      · intro hfit w hw
        rcases List.mem_append.mp hw with hw | hw
        · have := range_of_mem_storesAt (by omega) hw
          omega
        · exact hrest.mpr (by omega) w hw
    · constructor
      · intro h
        obtain ⟨w, hw, hbelow⟩ := exists_store_below hbase (by omega) (Nat.lt_of_not_le hroom)
        have := h w (List.mem_append_left _ hw)
        omega
      · intro hfit
        omega

/-- With room for all buffers, each is in its place afterwards, and the bytes under them and
above the offset stay. -/
theorem runStores_pushAll (hend : base + off ≤ 2 ^ 64) (hbase : 0 < base)
    (hne : ∀ bs ∈ items, bs ≠ [])
    (hfit : pushedBytes items ≤ off) :
    (∀ xs bs ys, items = xs ++ bs :: ys → ∀ k (hk : k < bs.length),
        runStores m (pushAll base off items) (base + (off - pushedBytes (xs ++ [bs])) + k) =
          bs[k]) ∧
      ∀ x, x < base + (off - pushedBytes items) ∨ base + off ≤ x →
          runStores m (pushAll base off items) x = m x := by
  induction items generalizing m off with
  | nil => exact ⟨fun xs bs ys h => absurd h (by simp), fun _ _ => rfl⟩
  | cons cs items ih =>
    have hpos : 0 < cs.length := List.length_pos_iff.mpr (hne cs List.mem_cons_self)
    rw [pushedBytes_cons] at hfit ⊢
    have hsub : sub64 off cs.length = off - cs.length := sub64_of_le (by omega) (by omega)
    have haddr : u64 (base + (off - cs.length)) = base + (off - cs.length) := u64_of_lt (by omega)
    obtain ⟨hplace, hstay⟩ :=
      @ih (runStores m (storesAt (base + (off - cs.length)) cs)) (off - cs.length)
      (by omega) (fun bs hbs => hne bs (List.mem_cons_of_mem cs hbs)) (by omega)
    rw [pushAll_cons, hsub, haddr, runStores_append]
    refine ⟨fun xs bs ys hitems k hk => ?_, fun x hx => ?_⟩
    · cases xs with
      | nil =>
        rw [List.nil_append, List.cons.injEq] at hitems
        obtain ⟨rfl, -⟩ := hitems
        -- The buffers after it lie under it.
        rw [List.nil_append, show pushedBytes [cs] = cs.length from rfl,
          hstay _ (Or.inr (by omega))]
        exact runStores_storesAt (by omega) hk
      | cons ds xs =>
        rw [List.cons_append, List.cons.injEq] at hitems
        obtain ⟨rfl, hitems⟩ := hitems
        rw [List.cons_append, pushedBytes_cons, ← Nat.sub_sub]
        exact hplace xs bs ys hitems k hk
    · rw [hstay x (by omega)]
      refine runStores_of_ne fun w hw => ?_
      have := range_of_mem_storesAt (by omega) hw
      omega

end Lumin.Lib
