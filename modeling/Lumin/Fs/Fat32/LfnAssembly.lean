import Lumin.Fs.Fat32.Dir

/-!
# Long names are assembled from the slots in front of their entry

The scanners of `fat32_read_dir` and `fat32_lookup` collect long-name slots in `lfn_buf`
and never clear it.  `LfnInv` ties the count, the expected number and the buffer to the
slots that were read last, over any sequence of slots.

`collect_lfn` appends the parts with `lfn_to_ascii`, which stores a terminator after each
of them.  Its stores are modelled one by one; `collectStores_leaves` says that they leave
the string `collectLfn`.
-/

namespace Lumin.Fs.Fat32

open Lumin.Lib

variable {σ ρ α : Type} {slots pre part : List Slot} {st st' : LfnState} {slot : Slot}
  {count : Nat}

/-! ## What the scanners have collected -/

/-- Long-name slots numbered downwards from `count`, of which the first one alone is flagged as
the last of its name. -/
structure Descending (part : List Slot) (count : Nat) : Prop where
  kind : ∀ (j : Nat) (slot : Slot), part[j]? = some slot → slotKind slot = .lfn
  number : ∀ (j : Nat) (slot : Slot), part[j]? = some slot → (slot 0).toNat % 32 + j = count
  flagged : ∀ (j : Nat) (slot : Slot), part[j]? = some slot →
    ((slot 0).toNat / 64 % 2 = 1 ↔ j = 0)

/-- The slots that were read last, from the flagged one on, are where their numbers say. -/
structure Collected (slots : List Slot) (st : LfnState) (part : List Slot) : Prop where
  suffix : part <:+ slots
  descending : Descending part st.lfnCount
  length : part.length + st.lfnSeq = st.lfnCount + 1
  seq_pos : 1 ≤ st.lfnSeq
  seq_le : st.lfnSeq ≤ st.lfnCount
  stored : ∀ (j : Nat) (slot : Slot), part[j]? = some slot →
    st.lfnBuf (st.lfnCount - 1 - j) = slot

/-- Either no name has begun, or one is being collected. -/
def LfnInv (slots : List Slot) (st : LfnState) : Prop :=
  st.lfnCount = 0 ∧ st.lfnSeq = 0 ∨ ∃ part, Collected slots st part

/-- At a short entry: the long name in the buffer is made of the slots right in front of it. -/
def Assembled (slots : List Slot) (st : LfnState) : Prop :=
  st.lfnCount > 0 ∧ st.lfnSeq = 1 →
    ∃ part, part <:+ slots ∧ part.length = st.lfnCount ∧ Descending part st.lfnCount ∧
      ∀ (j : Nat) (slot : Slot), part[j]? = some slot → st.lfnBuf (st.lfnCount - 1 - j) = slot

theorem lfnInv_reset (slots : List Slot) (st : LfnState) : LfnInv slots (resetLfn st) :=
  Or.inl ⟨rfl, rfl⟩

theorem LfnInv.assembled (h : LfnInv slots st) : Assembled slots st := by
  rintro ⟨hcount, hseq⟩
  rcases h with ⟨hzero, -⟩ | ⟨part, hpart⟩
  · omega
  · have hlength := hpart.length
    exact ⟨part, hpart.suffix, by omega, hpart.descending, hpart.stored⟩

/-- A flagged slot starts a name. -/
theorem descending_single (hkind : slotKind slot = .lfn) (hflag : (slot 0).toNat / 64 % 2 = 1)
    (hnumber : (slot 0).toNat % 32 = count) : Descending [slot] count := by
  have hzero : ∀ (j : Nat) (s : Slot), [slot][j]? = some s → j = 0 ∧ s = slot := by
    intro j s hj
    cases j with
    | zero => exact ⟨rfl, (Option.some.inj hj).symm⟩
    | succ j => simp at hj
  constructor
  · intro j s hj
    rw [(hzero j s hj).2, hkind]
  · intro j s hj
    rw [(hzero j s hj).1, (hzero j s hj).2]
    omega
  · intro j s hj
    rw [(hzero j s hj).1, (hzero j s hj).2]
    exact iff_of_true hflag rfl

/-- A slot without the flag goes on with a name. -/
theorem Descending.concat (h : Descending part count) (hne : part ≠ [])
    (hkind : slotKind slot = .lfn)
    (hflag : (slot 0).toNat / 64 % 2 ≠ 1) (hnumber : (slot 0).toNat % 32 + part.length = count) :
    Descending (part ++ [slot]) count := by
  have hcases : ∀ (j : Nat) (s : Slot), (part ++ [slot])[j]? = some s →
      part[j]? = some s ∨ j = part.length ∧ s = slot := by
    intro j s hj
    rcases Nat.lt_trichotomy j part.length with hlt | rfl | hgt
    · rw [List.getElem?_append_left hlt] at hj
      exact Or.inl hj
    · rw [List.getElem?_concat_length] at hj
      exact Or.inr ⟨rfl, (Option.some.inj hj).symm⟩
    · rw [List.getElem?_eq_none (by simp; omega)] at hj
      exact absurd hj (by simp)
  have hpos := List.length_pos_iff.mpr hne
  constructor
  · intro j s hj
    rcases hcases j s hj with hold | ⟨rfl, rfl⟩
    · exact h.kind j s hold
    · exact hkind
  · intro j s hj
    rcases hcases j s hj with hold | ⟨rfl, rfl⟩
    · exact h.number j s hold
    · exact hnumber
  · intro j s hj
    rcases hcases j s hj with hold | ⟨rfl, rfl⟩
    · exact h.flagged j s hold
    · exact iff_of_false hflag (by omega)

/-- A long-name slot starts a name, goes on with one, or discards what there is. -/
theorem lfnInv_add (h : LfnInv slots st) (hkind : slotKind slot = .lfn) :
    LfnInv (slots ++ [slot]) (addLfnEntry st slot) := by
  unfold addLfnEntry
  by_cases hseq : (slot 0).toNat % 32 = 0 ∨ (slot 0).toNat % 32 > FAT32_MAX_LFN_ENTRIES
  · simp only [if_pos hseq]
    exact lfnInv_reset _ _
  simp only [if_neg hseq]
  rw [not_or] at hseq
  by_cases hflag : (slot 0).toNat / 64 % 2 = 1
  · simp only [if_pos hflag]
    refine Or.inr ⟨[slot], List.suffix_append slots [slot], descending_single hkind hflag rfl, ?_,
      ?_, ?_, ?_⟩
    · exact Nat.add_comm _ _
    · exact Nat.pos_of_ne_zero hseq.1
    · exact le_refl _
    · intro j s hj
      cases j with
      | zero =>
        rw [← Option.some.inj hj]
        exact if_pos rfl
      | succ j => simp at hj
  simp only [if_neg hflag]
  by_cases hnext : (slot 0).toNat % 32 + 1 = st.lfnSeq
  · rw [if_neg (not_not.mpr hnext)]
    rcases h with ⟨-, hzero⟩ | ⟨part, hpart⟩
    · omega
    have hlength := hpart.length
    have hle := hpart.seq_le
    have hne : part ≠ [] := List.length_pos_iff.mp (by omega)
    refine Or.inr ⟨part ++ [slot], ?_, hpart.descending.concat hne hkind hflag ?_, ?_, ?_, ?_, ?_⟩
    · obtain ⟨pre, rfl⟩ := hpart.suffix
      rw [List.append_assoc]
      exact List.suffix_append pre _
    · show (slot 0).toNat % 32 + part.length = st.lfnCount
      omega
    · show (part ++ [slot]).length + (slot 0).toNat % 32 = st.lfnCount + 1
      rw [List.length_append, List.length_singleton]
      omega
    · exact Nat.pos_of_ne_zero hseq.1
    · show (slot 0).toNat % 32 ≤ st.lfnCount
      omega
    · intro j s hj
      show (if st.lfnCount - 1 - j = (slot 0).toNat % 32 - 1 then slot
          else st.lfnBuf (st.lfnCount - 1 - j)) = s
      rcases Nat.lt_or_ge j part.length with hlt | hge
      · rw [List.getElem?_append_left hlt] at hj
        rw [if_neg (by omega), hpart.stored j s hj]
      · have hlast : j = part.length := by
          have := (List.getElem?_eq_some_iff.mp hj).1
          rw [List.length_append, List.length_singleton] at this
          omega
        rw [hlast, List.getElem?_concat_length] at hj
        rw [if_pos (by omega), Option.some.inj hj]
  · rw [if_pos hnext]
    exact lfnInv_reset _ _

/-! ## The scans -/

/-- What one turn keeps of the elements so far and the state holds behind all turns. -/
theorem foldlM_prefix_invariant {f : σ → α → Except ρ σ} {Inv : List α → σ → Prop}
    (hstep : ∀ l s x s', Inv l s → f s x = .ok s' → Inv (l ++ [x]) s') {pre l : List α} {s s' : σ}
    (h : Inv pre s) (hfold : l.foldlM f s = .ok s') : Inv (pre ++ l) s' := by
  induction l generalizing pre s with
  | nil =>
    rw [List.append_nil]
    cases hfold
    exact h
  | cons x l ih =>
    rw [List.foldlM_cons] at hfold
    cases hx : f s x with
    | error r =>
      rw [hx] at hfold
      cases hfold
    | ok t =>
      rw [hx] at hfold
      have := ih (hstep pre s x t h hx) hfold
      rwa [List.append_assoc] at this

/-- What a slot that is not the end of the scan makes of the state. -/
def nextLfn (st : LfnState) (slot : Slot) : LfnState :=
  if slotKind slot = .lfn then addLfnEntry st slot else resetLfn st

theorem lfnInv_next (h : LfnInv slots st) (slot : Slot) :
    LfnInv (slots ++ [slot]) (nextLfn st slot) := by
  unfold nextLfn
  split_ifs with hkind
  · exact lfnInv_add h hkind
  · exact lfnInv_reset _ _

theorem readDirSlot_ok {index : Nat} {x x' : LfnState × Nat} {pos : Nat × Nat}
    (h : readDirSlot index x pos slot = .ok x') : x'.1 = nextLfn x.1 slot := by
  unfold readDirSlot at h
  unfold nextLfn
  cases hkind : slotKind slot <;> simp only [hkind] at h ⊢
  case last => cases h
  case entry =>
    split_ifs at h
    cases h
    rfl
  all_goals
    cases h
    rfl

theorem lookupSlot_ok {name : CStr} {pos : Nat × Nat}
    (h : lookupSlot name st pos slot = .ok st') :
    st' = nextLfn st slot := by
  unfold lookupSlot at h
  unfold nextLfn
  cases hkind : slotKind slot <;> simp only [hkind] at h ⊢
  case last => cases h
  case entry =>
    split_ifs at h
    cases h
    rfl
  all_goals
    cases h
    rfl

/-! ## The stores of `collect_lfn` -/

/-- The stores of `lfn_to_ascii` into the buffer at `base` and its result, with `o` characters
stored. -/
def asciiStores (base : Nat) (outMax : Int) : List Nat → Nat → List (Nat × UInt8) × Nat
  | [], o => ([(base + o, 0)], o)
  | c :: cs, o =>
    if (o : Int) < outMax - 1 then
      if c = 0xFFFF ∨ c = 0xFFFE then ([(base + o, 0)], o)
      else if 0x20 ≤ c ∧ c ≤ 0x7E then
        let rest := asciiStores base outMax cs (o + 1)
        ((base + o, UInt8.ofNat c) :: rest.1, rest.2)
      else if c = 0 then ([(base + o, 0)], o)
      else
        let rest := asciiStores base outMax cs (o + 1)
        ((base + o, 63) :: rest.1, rest.2)
    else ([(base + o, 0)], o)

/-- The stores of `collect_lfn` over the slots `lfns`, with `o` characters stored. -/
def collectStores (outMax : Int) : List Slot → Nat → List (Nat × UInt8)
  | [], _ => []
  | lfn :: lfns, o =>
    let part := asciiStores o (outMax - o) (lfnUnits lfn) 0
    part.1 ++ collectStores outMax lfns (o + part.2)

/-- The buffer after the stores. -/
def applyStores (out : Mem) (stores : List (Nat × UInt8)) : Mem :=
  stores.foldl (fun out s => setByte out s.1 s.2) out

/-- The characters of `s` lie at the start of the buffer. -/
def StartsWith (out : Mem) (s : CStr) : Prop := ∀ (i : Nat) (c : UInt8), s[i]? = some c →
    out i = c

/-- The buffer holds a C string. -/
def HoldsString (out : Mem) (s : CStr) : Prop := StartsWith out s ∧ out s.length = 0

variable {base o room : Nat} {outMax : Int} {out : Mem} {s : CStr}

/-- `lfn_to_ascii` stores in front of the end that it is given, and its result leaves room for the
terminator. -/
theorem asciiStores_bound (h : (o : Int) < outMax) (units : List Nat) :
    (∀ w ∈ (asciiStores base outMax units o).1, (w.1 : Int) < base + outMax) ∧
      ((asciiStores base outMax units o).2 : Int) < outMax := by
  have hend : ∀ {o : Nat}, (o : Int) < outMax →
      (∀ w ∈ [(base + o, (0 : UInt8))], (w.1 : Int) < base + outMax) ∧ (o : Int) < outMax := by
    intro o h
    refine ⟨fun w hw => ?_, h⟩
    rw [List.mem_singleton.mp hw]
    dsimp only
    omega
  induction units generalizing o with
  | nil => exact hend h
  | cons c cs ih =>
    rw [asciiStores]
    by_cases hroom : (o : Int) < outMax - 1
    case neg =>
      rw [if_neg hroom]
      exact hend h
    obtain ⟨hrest, hlt⟩ := @ih (o + 1) (by omega)
    rw [if_pos hroom]
    split_ifs
    · exact hend h
    · refine ⟨fun w hw => ?_, hlt⟩
      rcases List.mem_cons.mp hw with rfl | hw
      · dsimp only
        omega
      · exact hrest w hw
    · exact hend h
    · refine ⟨fun w hw => ?_, hlt⟩
      rcases List.mem_cons.mp hw with rfl | hw
      · dsimp only
        omega
      · exact hrest w hw

/-- `collect_lfn` stores inside its buffer, whatever the slots are. -/
theorem collectStores_bound (h : (o : Int) < outMax) (lfns : List Slot) :
    ∀ w ∈ collectStores outMax lfns o, (w.1 : Int) < outMax := by
  induction lfns generalizing o with
  | nil =>
    intro w hw
    cases hw
  | cons lfn lfns ih =>
    intro w hw
    have hpart := @asciiStores_bound o 0 (outMax - o) (by push_cast; omega) (lfnUnits lfn)
    rcases List.mem_append.mp hw with hw | hw
    · have := hpart.1 w hw
      omega
    · exact ih (by push_cast; omega) w hw

/-! ## The string that is left -/

theorem StartsWith.store (h : StartsWith out s) {n : Nat} (hn : s.length = n) (c : UInt8) :
    StartsWith (setByte out n c) (s ++ [c]) := by
  intro i d hi
  rcases Nat.lt_trichotomy i s.length with hlt | rfl | hgt
  · rw [List.getElem?_append_left hlt] at hi
    rw [setByte_of_ne _ (by omega), h i d hi]
  · rw [List.getElem?_concat_length] at hi
    rw [setByte, if_pos hn, Option.some.inj hi]
  · rw [List.getElem?_eq_none (by simp; omega)] at hi
    exact absurd hi (by simp)

theorem StartsWith.terminate (h : StartsWith out s) {n : Nat} (hn : s.length = n) :
    HoldsString (setByte out n 0) s := by
  refine ⟨fun i c hi => ?_, if_pos hn⟩
  have hlt := (List.getElem?_eq_some_iff.mp hi).1
  rw [setByte_of_ne _ (by omega), h i c hi]

/-- A part that ends here. -/
theorem asciiStores_stop (hs : s.length = base + o) (h : StartsWith out s) :
    HoldsString (applyStores out [(base + o, 0)]) (s ++ []) ∧ o = o + ([] : CStr).length := by
  rw [List.append_nil]
  exact ⟨h.terminate hs, rfl⟩

/-- One part is appended, as far as there is room for it and the terminator. -/
theorem asciiStores_leaves (units : List Nat) (hroom : outMax = (o : Int) + room + 1)
    (hs : s.length = base + o)
    (h : StartsWith out s) :
    HoldsString (applyStores out (asciiStores base outMax units o).1)
      (s ++ lfnToAscii units room) ∧
      (asciiStores base outMax units o).2 = o + (lfnToAscii units room).length := by
  induction units generalizing o room s out with
  | nil => exact asciiStores_stop hs h
  | cons c cs ih =>
    cases room with
    | zero =>
      rw [asciiStores, if_neg (by omega), lfnToAscii]
      · exact asciiStores_stop hs h
      · simp
    | succ room =>
      have hnext : ∀ c : UInt8,
          HoldsString (applyStores (setByte out (base + o) c)
            (asciiStores base outMax cs (o + 1)).1)
            (s ++ c :: lfnToAscii cs room) ∧
          (asciiStores base outMax cs (o + 1)).2 = o + (c :: lfnToAscii cs room).length := by
        intro c
        have hlen : (s ++ [c]).length = base + (o + 1) := by
          rw [List.length_append, hs, List.length_singleton]
          rfl
        obtain ⟨hholds, hcount⟩ :=
          @ih (o + 1) room _ (s ++ [c]) (by push_cast at hroom ⊢; omega) hlen (h.store hs c)
        rw [List.append_assoc] at hholds
        refine ⟨hholds, ?_⟩
        rw [hcount, List.length_cons]
        omega
      rw [asciiStores, lfnToAscii, if_pos (by push_cast at hroom; omega)]
      split_ifs
      · exact asciiStores_stop hs h
      · exact hnext (UInt8.ofNat c)
      · exact asciiStores_stop hs h
      · exact hnext 63

theorem lfnToAscii_length_le (units : List Nat) (room : Nat) :
    (lfnToAscii units room).length ≤ room := by
  induction units generalizing room with
  | nil => exact Nat.zero_le _
  | cons c cs ih =>
    cases room with
    | zero => simp [lfnToAscii]
    | succ room =>
      have := ih room
      rw [lfnToAscii]
      split_ifs <;> simp only [List.length_nil, List.length_cons] <;> omega

/-- The part of one slot. -/
theorem collectPart_leaves (lfn : Slot) (hlt : s.length < VFS_NAME_MAX) (h : StartsWith out s) :
    HoldsString (applyStores out
      (asciiStores s.length (VFS_NAME_MAX - s.length) (lfnUnits lfn) 0).1)
        (s ++ lfnToAscii (lfnUnits lfn) (VFS_NAME_MAX - s.length - 1)) ∧
      s.length + (asciiStores s.length (VFS_NAME_MAX - s.length) (lfnUnits lfn) 0).2 =
        (s ++ lfnToAscii (lfnUnits lfn) (VFS_NAME_MAX - s.length - 1)).length ∧
      (s ++ lfnToAscii (lfnUnits lfn) (VFS_NAME_MAX - s.length - 1)).length < VFS_NAME_MAX := by
  have hle := lfnToAscii_length_le (lfnUnits lfn) (VFS_NAME_MAX - s.length - 1)
  obtain ⟨hholds, hcount⟩ := @asciiStores_leaves s.length 0 (VFS_NAME_MAX - s.length - 1)
    (VFS_NAME_MAX - s.length) out s (lfnUnits lfn) (by omega) rfl h
  rw [hcount, Nat.zero_add, List.length_append]
  exact ⟨hholds, rfl, by omega⟩

/-- The slots are appended one after the other. -/
theorem collectStores_append (lfns : List Slot) (hlt : s.length < VFS_NAME_MAX)
    (h : HoldsString out s) :
    HoldsString (applyStores out (collectStores VFS_NAME_MAX lfns s.length))
      (collectLoop lfns s) := by
  induction lfns generalizing s out with
  | nil => exact h
  | cons lfn lfns ih =>
    obtain ⟨hholds, hlen, hlt'⟩ := collectPart_leaves lfn hlt h.1
    rw [collectStores, collectLoop, applyStores, List.foldl_append, hlen]
    exact ih hlt' hholds

/-- `collect_lfn` over at least one slot leaves the long name in the buffer. -/
theorem collectStores_leaves (lfnBuf : Nat → Slot) (hcount : 0 < count) (out : Mem) :
    HoldsString (applyStores out (collectStores VFS_NAME_MAX ((List.range count).map lfnBuf) 0))
      (collectLfn lfnBuf count) := by
  obtain ⟨k, rfl⟩ := Nat.exists_eq_add_of_le' hcount
  have hstart : StartsWith out [] := fun i c hi => by simp at hi
  rw [collectLfn, List.range_succ_eq_map, List.map_cons]
  obtain ⟨hholds, hlen, hlt⟩ := collectPart_leaves (lfnBuf 0) (by decide) hstart
  rw [collectStores, collectLoop, applyStores, List.foldl_append]
  rw [List.length_nil] at hlen
  rw [hlen]
  exact collectStores_append _ hlt hholds

/-! ## Long names -/

/-- The long name in front of a short entry is assembled from its own slots, in both scans, and
`collect_lfn` keeps to its buffer. -/
theorem lfn_assembled (st₀ : LfnState) (placed : List ((Nat × Nat) × Slot)) :
    (∀ index n st n',
      placed.foldlM (fun x p => readDirSlot index x p.1 p.2) (resetLfn st₀, n) = .ok (st, n') →
      Assembled (placed.map Prod.snd) st) ∧
    (∀ name st, placed.foldlM (fun x p => lookupSlot name x p.1 p.2) (resetLfn st₀) = .ok st →
      Assembled (placed.map Prod.snd) st) ∧
    ∀ (lfnBuf : Nat → Slot) (count : Nat),
      ∀ w ∈ collectStores VFS_NAME_MAX ((List.range count).map lfnBuf) 0, w.1 < VFS_NAME_MAX := by
  refine ⟨fun index n st n' h => ?_, fun name st h => ?_, fun lfnBuf count w hw => ?_⟩
  · refine LfnInv.assembled ?_
    refine @foldlM_prefix_invariant _ _ _ _ (fun l x => LfnInv (l.map Prod.snd) x.1) ?_
      [] placed _ _
      (lfnInv_reset _ st₀) h
    intro l x p x' hinv hstep
    rw [List.map_append, readDirSlot_ok hstep]
    exact lfnInv_next hinv p.2
  · refine LfnInv.assembled ?_
    refine @foldlM_prefix_invariant _ _ _ _ (fun l x => LfnInv (l.map Prod.snd) x) ?_
      [] placed _ _
      (lfnInv_reset _ st₀) h
    intro l x p x' hinv hstep
    rw [List.map_append, lookupSlot_ok hstep]
    exact lfnInv_next hinv p.2
  · have := collectStores_bound (by decide) _ w hw
    omega

/-- A slot of a long name with the byte `seq` in front. -/
def numbered (seq : UInt8) : Slot :=
  fun i => if i = 0 then seq else if i = 11 then ATTR_LFN else 0

/-- A name of two slots behind a deleted one. -/
theorem lfn_assembled_two :
    let st := addLfnEntry (addLfnEntry (resetLfn .init) (numbered 0x42)) (numbered 1)
    (st.lfnCount > 0 ∧ st.lfnSeq = 1) ∧
      Assembled [numbered DELETED, numbered 0x42, numbered 1] st := by
  refine ⟨⟨by decide, by decide⟩, ?_⟩
  exact (lfn_assembled .init
    [((0, 0), numbered DELETED), ((0, 1), numbered 0x42), ((0, 2), numbered 1)]).2.1
    [] _ rfl

end Lumin.Fs.Fat32
