import Mathlib.Tactic

/-!
# Radix trees in a store

A radix tree of a fixed depth whose nodes live in a store, such as a page-table
tree in physical memory.  `E l a i` is what slot `i` of node `a` holds when `a` is
met at level `l`: nothing, a leaf or another node.  Level `0` is the lowest.

* `walk` follows one path from a node down to a leaf.
* `nodes` and `leaves` list what a subtree holds.  A node that can be reached in two
  ways is listed twice, so a store that really holds a tree is one whose `nodes`
  have no duplicates.
* An update of the store shows below a node only if it touches the node or the
  subtree.  `nodes_update`, `leaves_update` and `walk_update` are the rules for an
  update below one slot.
-/

namespace Lumin.Lib.Radix

/-- What a slot of a node holds. -/
inductive Slot (α β : Type) where
  | absent
  | leaf (b : β)
  | node (a : α)
  deriving DecidableEq, Repr

/-- The slots of all nodes, by level, node and index. -/
abbrev Store (α ι β : Type) := Nat → α → ι → Slot α β

variable {α ι β : Type}

/-- The leaf on a path below a node at level `l`, with its level. -/
def walk (E : Store α ι β) (path : Nat → ι) : Nat → α → Option (Nat × β)
  | 0, a =>
    match E 0 a (path 0) with
    | .leaf b => some (0, b)
    | _ => none
  | l + 1, a =>
    match E (l + 1) a (path (l + 1)) with
    | .absent => none
    | .leaf b => some (l + 1, b)
    | .node c => walk E path l c

/-- The nodes of the subtree of a node at level `l`, each as often as it is reached. -/
def nodes (E : Store α ι β) (idxs : List ι) : Nat → α → List α
  | 0, a => [a]
  | l + 1, a =>
    a :: idxs.flatMap fun i =>
      match E (l + 1) a i with
      | .node c => nodes E idxs l c
      | _ => []

/-- The leaves of the subtree. -/
def leaves (E : Store α ι β) (idxs : List ι) : Nat → α → List β
  | 0, a =>
    idxs.flatMap fun i =>
      match E 0 a i with
      | .leaf b => [b]
      | _ => []
  | l + 1, a =>
    idxs.flatMap fun i =>
      match E (l + 1) a i with
      | .absent => []
      | .leaf b => [b]
      | .node c => leaves E idxs l c

/-- The nodes that a path meets. -/
def onPath (E : Store α ι β) (path : Nat → ι) : Nat → α → List α
  | 0, a => [a]
  | l + 1, a =>
    a ::
      match E (l + 1) a (path (l + 1)) with
      | .node c => onPath E path l c
      | _ => []

/-- What a traversal meets below a node, a node after its subtree, with `g b` for a leaf
`b`. -/
def drain (E : Store α ι β) (idxs : List ι) (g : β → α) : Nat → α → List α
  | 0, a =>
    idxs.flatMap fun i =>
      match E 0 a i with
      | .leaf b => [g b]
      | _ => []
  | l + 1, a =>
    idxs.flatMap fun i =>
      match E (l + 1) a i with
      | .absent => []
      | .leaf b => [g b]
      | .node c => drain E idxs g l c ++ [c]

/-- What it meets below a slot of a node at level `l`. -/
def slotDrain (E : Store α ι β) (idxs : List ι) (g : β → α) : Nat → Slot α β → List α
  | _, .leaf b => [g b]
  | l + 1, .node c => drain E idxs g l c ++ [c]
  | _, _ => []

/-- The node of level `0` on a path, if it gets that far. -/
def leafNode (E : Store α ι β) (path : Nat → ι) : Nat → α → Option α
  | 0, a => some a
  | l + 1, a =>
    match E (l + 1) a (path (l + 1)) with
    | .node c => leafNode E path l c
    | _ => none

/-- The nodes below a slot of a node at level `l`. -/
def slotNodes (E : Store α ι β) (idxs : List ι) : Nat → Slot α β → List α
  | l + 1, .node c => nodes E idxs l c
  | _, _ => []

/-- The leaves below a slot of a node at level `l`. -/
def slotLeaves (E : Store α ι β) (idxs : List ι) : Nat → Slot α β → List β
  | _, .leaf b => [b]
  | l + 1, .node c => leaves E idxs l c
  | _, _ => []

/-- The leaf on a path below a slot of a node at level `l`. -/
def slotWalk (E : Store α ι β) (path : Nat → ι) : Nat → Slot α β → Option (Nat × β)
  | l, .leaf b => some (l, b)
  | l + 1, .node c => walk E path l c
  | _, _ => none

variable {E E' : Store α ι β} {idxs is : List ι} {path : Nat → ι} {l : Nat} {a c x : α} {i j : ι}
  {new : List α}

theorem nodes_eq (E : Store α ι β) (idxs : List ι) (l : Nat) (a : α) :
    nodes E idxs l a = a :: idxs.flatMap fun i => slotNodes E idxs l (E l a i) := by
  cases l with
  | zero =>
    have hnone : (idxs.flatMap fun i => slotNodes E idxs 0 (E 0 a i)) = [] := by
      rw [List.flatMap_eq_nil_iff]
      intro i _
      cases E 0 a i <;> rfl
    rw [hnone, nodes]
  | succ l =>
    rw [nodes]
    congr 1
    refine List.flatMap_congr fun i _ => ?_
    cases E (l + 1) a i <;> rfl

/-- A tree of a given depth has only so many nodes. -/
theorem length_nodes_le (E : Store α ι β) (idxs : List ι) (l : Nat) (a : α) :
    (nodes E idxs l a).length ≤ (idxs.length + 1) ^ l := by
  induction l generalizing a with
  | zero => exact le_refl 1
  | succ l ih =>
    have hslot : ∀ n ∈ idxs.map fun i => (slotNodes E idxs (l + 1) (E (l + 1) a i)).length,
        n ≤ (idxs.length + 1) ^ l := by
      intro n hn
      obtain ⟨i, -, rfl⟩ := List.mem_map.mp hn
      cases E (l + 1) a i with
      | node c => exact ih c
      | absent => exact Nat.zero_le _
      | leaf b => exact Nat.zero_le _
    have hsum := List.sum_le_card_nsmul _ _ hslot
    have hpos : 1 ≤ (idxs.length + 1) ^ l := Nat.one_le_pow _ _ (Nat.succ_pos _)
    rw [List.length_map, smul_eq_mul] at hsum
    rw [nodes_eq, List.length_cons, List.length_flatMap, pow_succ', Nat.succ_mul]
    exact Nat.add_le_add hsum hpos

theorem leaves_eq (E : Store α ι β) (idxs : List ι) (l : Nat) (a : α) :
    leaves E idxs l a = idxs.flatMap fun i => slotLeaves E idxs l (E l a i) := by
  cases l with
  | zero =>
    rw [leaves]
    refine List.flatMap_congr fun i _ => ?_
    cases E 0 a i <;> rfl
  | succ l =>
    rw [leaves]
    refine List.flatMap_congr fun i _ => ?_
    cases E (l + 1) a i <;> rfl

theorem drain_eq (E : Store α ι β) (idxs : List ι) (g : β → α) (l : Nat) (a : α) :
    drain E idxs g l a = idxs.flatMap fun i => slotDrain E idxs g l (E l a i) := by
  cases l with
  | zero =>
    rw [drain]
    refine List.flatMap_congr fun i _ => ?_
    cases E 0 a i <;> rfl
  | succ l =>
    rw [drain]
    refine List.flatMap_congr fun i _ => ?_
    cases E (l + 1) a i <;> rfl

/-- A traversal meets the leaves and the nodes, each once. -/
theorem drain_perm (E : Store α ι β) (idxs : List ι) (g : β → α) (l : Nat) (a : α) :
    (drain E idxs g l a ++ [a]).Perm ((leaves E idxs l a).map g ++ nodes E idxs l a) := by
  induction l generalizing a with
  | zero =>
    have hsame : drain E idxs g 0 a = (leaves E idxs 0 a).map g := by
      rw [drain, leaves, List.map_flatMap]
      refine List.flatMap_congr fun i _ => ?_
      cases E 0 a i <;> rfl
    rw [hsame, nodes]
  | succ l ih =>
    have hslots : (drain E idxs g (l + 1) a).Perm ((leaves E idxs (l + 1) a).map g ++
        idxs.flatMap fun i => slotNodes E idxs (l + 1) (E (l + 1) a i)) := by
      rw [drain_eq, leaves_eq, List.map_flatMap]
      refine List.Perm.trans ?_ (List.flatMap_append_perm _ _ _).symm
      refine List.Perm.flatMap_left _ fun i _ => ?_
      cases E (l + 1) a i with
      | absent => exact List.Perm.refl _
      | leaf b => exact List.Perm.refl _
      | node c => exact ih c
    rw [nodes_eq]
    refine (hslots.append_right [a]).trans ?_
    rw [List.append_assoc]
    exact List.perm_append_comm.append_left _

theorem slotDrain_leaf (E : Store α ι β) (idxs : List ι) (g : β → α) (l : Nat) (b : β) :
    slotDrain E idxs g l (.leaf b) = [g b] := by
  cases l <;> rfl

theorem slotDrain_absent (E : Store α ι β) (idxs : List ι) (g : β → α) (l : Nat) :
    slotDrain E idxs g l .absent = [] := by
  cases l <;> rfl

theorem slotDrain_perm (E : Store α ι β) (idxs : List ι) (g : β → α) (l : Nat) (s : Slot α β) :
    (slotDrain E idxs g l s).Perm ((slotLeaves E idxs l s).map g ++ slotNodes E idxs l s) := by
  cases s with
  | absent => cases l <;> exact List.Perm.refl _
  | leaf b => cases l <;> exact List.Perm.refl _
  | node c =>
    cases l with
    | zero => exact List.Perm.refl _
    | succ l => exact drain_perm E idxs g l c

theorem walk_eq (E : Store α ι β) (path : Nat → ι) (l : Nat) (a : α) :
    walk E path l a = slotWalk E path l (E l a (path l)) := by
  cases l with
  | zero =>
    rw [walk]
    cases E 0 a (path 0) <;> rfl
  | succ l =>
    rw [walk]
    cases E (l + 1) a (path (l + 1)) <;> rfl

theorem mem_nodes_self (E : Store α ι β) (idxs : List ι) (l : Nat) (a : α) :
    a ∈ nodes E idxs l a := by
  rw [nodes_eq]
  exact List.mem_cons_self

theorem mem_nodes_of_slot (hi : i ∈ idxs) (hx : x ∈ slotNodes E idxs l (E l a i)) :
    x ∈ nodes E idxs l a := by
  rw [nodes_eq]
  exact List.mem_cons_of_mem a (List.mem_flatMap.mpr ⟨i, hi, hx⟩)

theorem onPath_subset (hpath : ∀ l, path l ∈ idxs) : onPath E path l a ⊆ nodes E idxs l a := by
  induction l generalizing a with
  | zero => exact fun x hx => hx
  | succ l ih =>
    intro x hx
    rw [onPath] at hx
    rcases List.mem_cons.mp hx with rfl | hx
    · exact mem_nodes_self E idxs (l + 1) x
    · refine mem_nodes_of_slot (hpath (l + 1)) ?_
      cases hE : E (l + 1) a (path (l + 1)) with
      | node c =>
        rw [hE] at hx
        exact ih hx
      | absent =>
        rw [hE] at hx
        cases hx
      | leaf b =>
        rw [hE] at hx
        cases hx

/-! ## Stores that agree -/

/-- Two stores agree on the slots of a node. -/
def Agree (E E' : Store α ι β) (x : α) : Prop := ∀ l i, E' l x i = E l x i

/-- A subtree depends only on the slots of its nodes. -/
theorem nodes_congr (h : ∀ x ∈ nodes E idxs l a, Agree E E' x) :
    nodes E' idxs l a = nodes E idxs l a := by
  induction l generalizing a with
  | zero => rfl
  | succ l ih =>
    rw [nodes, nodes]
    congr 1
    refine List.flatMap_congr fun i hi => ?_
    rw [h a (mem_nodes_self E idxs (l + 1) a) (l + 1) i]
    cases hE : E (l + 1) a i with
    | absent => rfl
    | leaf b => rfl
    | node c =>
      refine ih fun x hx => h x (mem_nodes_of_slot hi ?_)
      rw [hE]
      exact hx

theorem leaves_congr (h : ∀ x ∈ nodes E idxs l a, Agree E E' x) :
    leaves E' idxs l a = leaves E idxs l a := by
  induction l generalizing a with
  | zero =>
    rw [leaves, leaves]
    refine List.flatMap_congr fun i _ => ?_
    rw [h a (mem_nodes_self E idxs 0 a) 0 i]
  | succ l ih =>
    rw [leaves, leaves]
    refine List.flatMap_congr fun i hi => ?_
    rw [h a (mem_nodes_self E idxs (l + 1) a) (l + 1) i]
    cases hE : E (l + 1) a i with
    | absent => rfl
    | leaf b => rfl
    | node c =>
      refine ih fun x hx => h x (mem_nodes_of_slot hi ?_)
      rw [hE]
      exact hx

theorem walk_congr (hpath : ∀ l, path l ∈ idxs) (h : ∀ x ∈ nodes E idxs l a, Agree E E' x) :
    walk E' path l a = walk E path l a := by
  induction l generalizing a with
  | zero => rw [walk, walk, h a (mem_nodes_self E idxs 0 a) 0 (path 0)]
  | succ l ih =>
    rw [walk, walk, h a (mem_nodes_self E idxs (l + 1) a) (l + 1) (path (l + 1))]
    cases hE : E (l + 1) a (path (l + 1)) with
    | absent => rfl
    | leaf b => rfl
    | node c =>
      refine ih fun x hx => h x (mem_nodes_of_slot (hpath (l + 1)) ?_)
      rw [hE]
      exact hx

theorem onPath_cons (E : Store α ι β) (path : Nat → ι) (l : Nat) (a : α) :
    ∃ rest, onPath E path l a = a :: rest := by
  cases l <;> exact ⟨_, rfl⟩

/-- A path that meets the same nodes in two stores goes on through the same slot. -/
theorem slot_of_onPath (h : onPath E' path (l + 1) a = onPath E path (l + 1) a)
    (hslot : E (l + 1) a (path (l + 1)) = .node c) : E' (l + 1) a (path (l + 1)) = .node c := by
  obtain ⟨rest, hrest⟩ := onPath_cons E path l c
  rw [onPath, onPath, hslot] at h
  dsimp only at h
  rw [hrest] at h
  cases hnow : E' (l + 1) a (path (l + 1)) with
  | node c' =>
    obtain ⟨rest', hrest'⟩ := onPath_cons E' path l c'
    rw [hnow] at h
    dsimp only at h
    rw [hrest'] at h
    rw [(List.cons.inj (List.cons.inj h).2).1]
  | absent =>
    rw [hnow] at h
    cases (List.cons.inj h).2
  | leaf b =>
    rw [hnow] at h
    cases (List.cons.inj h).2

theorem onPath_congr (hpath : ∀ l, path l ∈ idxs) (h : ∀ x ∈ nodes E idxs l a, Agree E E' x) :
    onPath E' path l a = onPath E path l a := by
  induction l generalizing a with
  | zero => rfl
  | succ l ih =>
    rw [onPath, onPath, h a (mem_nodes_self E idxs (l + 1) a) (l + 1) (path (l + 1))]
    cases hE : E (l + 1) a (path (l + 1)) with
    | absent => rfl
    | leaf b => rfl
    | node c =>
      congr 1
      refine ih fun x hx => h x (mem_nodes_of_slot (hpath (l + 1)) ?_)
      rw [hE]
      exact hx

theorem slotNodes_congr {s : Slot α β} (h : ∀ x ∈ slotNodes E idxs l s, Agree E E' x) :
    slotNodes E' idxs l s = slotNodes E idxs l s := by
  cases l with
  | zero => cases s <;> rfl
  | succ l =>
    cases s with
    | node c => exact nodes_congr h
    | _ => rfl

theorem slotLeaves_congr {s : Slot α β} (h : ∀ x ∈ slotNodes E idxs l s, Agree E E' x) :
    slotLeaves E' idxs l s = slotLeaves E idxs l s := by
  cases l with
  | zero => cases s <;> rfl
  | succ l =>
    cases s with
    | node c => exact leaves_congr h
    | _ => rfl

theorem slotWalk_congr {s : Slot α β} (hpath : ∀ l, path l ∈ idxs)
    (h : ∀ x ∈ slotNodes E idxs l s, Agree E E' x) :
    slotWalk E' path l s = slotWalk E path l s := by
  cases l with
  | zero => cases s <;> rfl
  | succ l =>
    cases s with
    | node c => exact walk_congr hpath h
    | _ => rfl

/-! ## Trees -/

/-- Distinct slots have disjoint subtrees. -/
theorem slotNodes_disjoint (hnodup : (nodes E idxs l a).Nodup) (hi : i ∈ idxs)
    (hj : j ∈ idxs) (hne : i ≠ j) (hx : x ∈ slotNodes E idxs l (E l a i)) :
    x ∉ slotNodes E idxs l (E l a j) := by
  rw [nodes_eq] at hnodup
  have hbelow := (List.nodup_cons.mp hnodup).2
  rw [List.nodup_flatMap] at hbelow
  have hsymm : Std.Symm (Function.onFun List.Disjoint fun i => slotNodes E idxs l (E l a i)) :=
    ⟨fun _ _ h => h.symm⟩
  exact fun hx' => hbelow.2.forall hi hj hne hx hx'

theorem not_mem_slotNodes_self (hnodup : (nodes E idxs l a).Nodup) (hi : i ∈ idxs) :
    a ∉ slotNodes E idxs l (E l a i) := by
  rw [nodes_eq] at hnodup
  exact fun h => (List.nodup_cons.mp hnodup).1 (List.mem_flatMap.mpr ⟨i, hi, h⟩)

theorem slotNodes_nodup (hnodup : (nodes E idxs l a).Nodup) (hi : i ∈ idxs) :
    (slotNodes E idxs l (E l a i)).Nodup := by
  rw [nodes_eq] at hnodup
  have hbelow := (List.nodup_cons.mp hnodup).2
  rw [List.nodup_flatMap] at hbelow
  exact hbelow.1 i hi

/-- A node whose slots are some of those of `a` is the root of a part of its tree. -/
theorem nodes_select {a' : α} (hnodup : (nodes E idxs l a).Nodup) (hnew : a' ∉ nodes E idxs l a)
    (hslot : ∀ i ∈ idxs, E' l a' i = .absent ∨ E' l a' i = E l a i)
    (hagree : ∀ x ∈ nodes E idxs l a, Agree E E' x) :
    (nodes E' idxs l a').Nodup ∧ nodes E' idxs l a' ⊆ a' :: nodes E idxs l a ∧
      a ∉ nodes E' idxs l a' := by
  have hbelow : ∀ i ∈ idxs, slotNodes E' idxs l (E' l a' i) = [] ∨
      slotNodes E' idxs l (E' l a' i) = slotNodes E idxs l (E l a i) := by
    intro i hi
    rcases hslot i hi with h | h
    · rw [h]
      cases l <;> exact .inl rfl
    · rw [h]
      exact .inr (slotNodes_congr fun x hx => hagree x (mem_nodes_of_slot hi hx))
  have hsub : ∀ i ∈ idxs, ∀ x ∈ slotNodes E' idxs l (E' l a' i),
      x ∈ slotNodes E idxs l (E l a i) := by
    intro i hi x hx
    rcases hbelow i hi with h | h
    · rw [h] at hx
      cases hx
    · rw [← h]
      exact hx
  rw [nodes_eq E' idxs l a']
  refine ⟨?_, ?_, ?_⟩
  · rw [List.nodup_cons, List.nodup_flatMap]
    refine ⟨fun hx => ?_, fun i hi => ?_, ?_⟩
    · obtain ⟨i, hi, hx⟩ := List.mem_flatMap.mp hx
      exact hnew (mem_nodes_of_slot hi (hsub i hi _ hx))
    · rcases hbelow i hi with h | h
      · rw [h]
        exact List.nodup_nil
      · rw [h]
        exact slotNodes_nodup hnodup hi
    · rw [nodes_eq, List.nodup_cons, List.nodup_flatMap] at hnodup
      refine hnodup.2.2.imp_of_mem fun hi hj hdisj x hx hx' => ?_
      exact hdisj (hsub _ hi x hx) (hsub _ hj x hx')
  · refine List.cons_subset_cons a' fun x hx => ?_
    obtain ⟨i, hi, hx⟩ := List.mem_flatMap.mp hx
    exact mem_nodes_of_slot hi (hsub i hi x hx)
  · intro ha
    rcases List.mem_cons.mp ha with rfl | ha
    · exact hnew (mem_nodes_self E idxs l a)
    · obtain ⟨i, hi, hx⟩ := List.mem_flatMap.mp ha
      exact not_mem_slotNodes_self hnodup hi (hsub i hi a hx)

/-- A walk uses the indices up to the level where it starts. -/
theorem walk_path_congr {path' : Nat → ι} (h : ∀ k ≤ l, path' k = path k) :
    walk E path' l a = walk E path l a := by
  induction l generalizing a with
  | zero => rw [walk, walk, h 0 (le_refl 0)]
  | succ l ih =>
    rw [walk, walk, h (l + 1) (le_refl _)]
    cases E (l + 1) a (path (l + 1)) with
    | absent => rfl
    | leaf b => rfl
    | node c => exact ih fun k hk => h k (by omega)

/-- A walk ends at the level where it starts or further down. -/
theorem walk_le {k : Nat} {b : β} (h : walk E path l a = some (k, b)) : k ≤ l := by
  induction l generalizing a with
  | zero =>
    rw [walk_eq] at h
    cases hE : E 0 a (path 0) with
    | leaf b' =>
      rw [hE] at h
      cases h
      exact le_refl 0
    | _ =>
      rw [hE] at h
      cases h
  | succ l ih =>
    rw [walk_eq] at h
    cases hE : E (l + 1) a (path (l + 1)) with
    | absent =>
      rw [hE] at h
      cases h
    | leaf b' =>
      rw [hE] at h
      cases h
      exact le_refl _
    | node c =>
      rw [hE] at h
      exact (ih h).trans (Nat.le_succ l)

/-- A walk that ends where it starts has found a leaf. -/
theorem walk_leaf {b : β} (h : walk E path l a = some (l, b)) : E l a (path l) = .leaf b := by
  rw [walk_eq] at h
  cases hE : E l a (path l) with
  | absent =>
    rw [hE] at h
    cases l <;> cases h
  | leaf b' =>
    rw [hE] at h
    cases l <;> cases h <;> rfl
  | node c =>
    rw [hE] at h
    cases l with
    | zero => cases h
    | succ l => exact absurd (walk_le h) (by omega)

theorem onPath_path_congr {path' : Nat → ι} (h : ∀ k ≤ l, path' k = path k) :
    onPath E path' l a = onPath E path l a := by
  induction l generalizing a with
  | zero => rfl
  | succ l ih =>
    rw [onPath, onPath, h (l + 1) (le_refl _)]
    cases E (l + 1) a (path (l + 1)) with
    | absent => rfl
    | leaf b => rfl
    | node c => exact congrArg (a :: ·) (ih fun k hk => h k (by omega))

/-- Every node is on some path. -/
theorem exists_onPath (start : Nat → ι) (hx : x ∈ nodes E idxs l a) :
    ∃ path, x ∈ onPath E path l a := by
  induction l generalizing a with
  | zero => exact ⟨start, hx⟩
  | succ l ih =>
    rw [nodes_eq] at hx
    rcases List.mem_cons.mp hx with rfl | hx
    · exact ⟨start, List.mem_cons_self⟩
    · obtain ⟨i, -, hx⟩ := List.mem_flatMap.mp hx
      cases hE : E (l + 1) a i with
      | node c =>
        rw [hE] at hx
        obtain ⟨path, hpath⟩ := ih hx
        have hsame :
            onPath E (fun k => if k = l + 1 then i else path k) l c = onPath E path l c :=
          onPath_path_congr fun k hk => if_neg (by omega)
        refine ⟨fun k => if k = l + 1 then i else path k, ?_⟩
        rw [onPath, if_pos rfl, hE]
        dsimp only
        rw [hsame]
        exact List.mem_cons_of_mem a hpath
      | absent =>
        rw [hE] at hx
        cases hx
      | leaf b =>
        rw [hE] at hx
        cases hx

/-- The leaves are what the walks find. -/
theorem mem_leaves_iff {b : β} :
    b ∈ leaves E idxs l a ↔ ∃ path k, (∀ l, path l ∈ idxs) ∧ walk E path l a = some (k, b) := by
  induction l generalizing a with
  | zero =>
    rw [leaves_eq, List.mem_flatMap]
    constructor
    · rintro ⟨i, hi, hb⟩
      refine ⟨fun _ => i, 0, fun _ => hi, ?_⟩
      rw [walk_eq]
      cases hE : E 0 a i with
      | leaf b' =>
        rw [hE] at hb
        rw [List.mem_singleton.mp hb]
        rfl
      | _ =>
        rw [hE] at hb
        cases hb
    · rintro ⟨path, k, hpath, hwalk⟩
      refine ⟨path 0, hpath 0, ?_⟩
      rw [walk_eq] at hwalk
      cases hE : E 0 a (path 0) with
      | leaf b' =>
        rw [hE] at hwalk
        cases hwalk
        exact List.mem_singleton.mpr rfl
      | _ =>
        rw [hE] at hwalk
        cases hwalk
  | succ l ih =>
    rw [leaves_eq, List.mem_flatMap]
    constructor
    · rintro ⟨i, hi, hb⟩
      cases hE : E (l + 1) a i with
      | absent =>
        rw [hE] at hb
        cases hb
      | leaf b' =>
        rw [hE] at hb
        refine ⟨fun _ => i, l + 1, fun _ => hi, ?_⟩
        rw [walk_eq, hE, List.mem_singleton.mp hb]
        rfl
      | node c =>
        rw [hE] at hb
        obtain ⟨path, k, hpath, hwalk⟩ := ih.mp hb
        refine ⟨fun j => if j = l + 1 then i else path j, k, fun j => ?_, ?_⟩
        · dsimp only
          split
          · exact hi
          · exact hpath j
        · rw [walk_eq, if_pos rfl, hE, ← hwalk]
          exact walk_path_congr fun j hj => if_neg (by omega)
    · rintro ⟨path, k, hpath, hwalk⟩
      refine ⟨path (l + 1), hpath (l + 1), ?_⟩
      rw [walk_eq] at hwalk
      cases hE : E (l + 1) a (path (l + 1)) with
      | absent =>
        rw [hE] at hwalk
        cases hwalk
      | leaf b' =>
        rw [hE] at hwalk
        cases hwalk
        exact List.mem_singleton.mpr rfl
      | node c =>
        rw [hE] at hwalk
        exact ih.mpr ⟨path, k, hpath, hwalk⟩

/-! ## Updates below one slot -/

/-- Of the tree of `a`, the store changes only slot `i` of `a` and the subtree there. -/
structure Below (E E' : Store α ι β) (idxs : List ι) (l : Nat) (a : α) (i : ι) : Prop where
  root : ∀ j, j ≠ i → E' l a j = E l a j
  others : ∀ x ∈ nodes E idxs l a, x ≠ a → x ∉ slotNodes E idxs l (E l a i) → Agree E E' x

/-- Every other slot has the same subtree as before. -/
theorem Below.agree (h : Below E E' idxs l a i) (hnodup : (nodes E idxs l a).Nodup)
    (hi : i ∈ idxs)
    (hj : j ∈ idxs) (hne : j ≠ i) :
    E' l a j = E l a j ∧ ∀ x ∈ slotNodes E idxs l (E l a j), Agree E E' x := by
  refine ⟨h.root j hne, fun x hx => h.others x (mem_nodes_of_slot hj hx) ?_ ?_⟩
  · rintro rfl
    exact not_mem_slotNodes_self hnodup hj hx
  · exact slotNodes_disjoint hnodup hj hi hne hx

/-- Replacing what one element contributes to a concatenation. -/
theorem flatMap_update_perm {γ : Type} {f f' : ι → List γ} {extra : List γ} (hidxs : idxs.Nodup)
    (hi : i ∈ idxs)
    (hother : ∀ j ∈ idxs, j ≠ i → f' j = f j) (hsub : (f' i).Perm (f i ++ extra)) :
    (idxs.flatMap f').Perm (idxs.flatMap f ++ extra) := by
  obtain ⟨pre, post, rfl⟩ := List.append_of_mem hi
  have hmid := List.nodup_middle.mp hidxs
  have hnot : i ∉ pre ++ post := (List.nodup_cons.mp hmid).1
  have hside : ∀ s : List ι, (∀ j ∈ s, j ∈ pre ++ post) → (∀ j ∈ s, j ∈ pre ++ i :: post) →
      s.flatMap f' = s.flatMap f := by
    intro s hs hs'
    refine List.flatMap_congr fun j hj => hother j (hs' j hj) ?_
    rintro rfl
    exact hnot (hs j hj)
  rw [List.flatMap_append, List.flatMap_append, List.flatMap_cons, List.flatMap_cons,
    hside pre (fun j hj => List.mem_append_left _ hj) (fun j hj => List.mem_append_left _ hj),
    hside post (fun j hj => List.mem_append_right _ hj)
      (fun j hj => List.mem_append_right _ (List.mem_cons_of_mem i hj)), List.append_assoc]
  refine List.Perm.append_left _ ?_
  rw [List.append_assoc]
  refine (hsub.append_right _).trans ?_
  rw [List.append_assoc]
  exact List.perm_append_comm.append_left _

/-- The nodes after an update below one slot. -/
theorem nodes_update (h : Below E E' idxs l a i) (hnodup : (nodes E idxs l a).Nodup)
    (hidxs : idxs.Nodup)
    (hi : i ∈ idxs)
    (hsub : (slotNodes E' idxs l (E' l a i)).Perm (slotNodes E idxs l (E l a i) ++ new)) :
    (nodes E' idxs l a).Perm (nodes E idxs l a ++ new) := by
  rw [nodes_eq, nodes_eq, List.cons_append]
  refine (flatMap_update_perm hidxs hi (fun j hj hne => ?_) hsub).cons a
  obtain ⟨hslot, hagree⟩ := h.agree hnodup hi hj hne
  rw [hslot]
  exact slotNodes_congr hagree

/-- The leaves after an update below one slot. -/
theorem leaves_update {extra : List β} (h : Below E E' idxs l a i)
    (hnodup : (nodes E idxs l a).Nodup)
    (hidxs : idxs.Nodup) (hi : i ∈ idxs)
    (hsub : (slotLeaves E' idxs l (E' l a i)).Perm (slotLeaves E idxs l (E l a i) ++ extra)) :
    (leaves E' idxs l a).Perm (leaves E idxs l a ++ extra) := by
  rw [leaves_eq, leaves_eq]
  refine flatMap_update_perm hidxs hi (fun j hj hne => ?_) hsub
  obtain ⟨hslot, hagree⟩ := h.agree hnodup hi hj hne
  rw [hslot]
  exact slotLeaves_congr hagree

/-- Paths that do not go through the slot find what they found before. -/
theorem walk_update (h : Below E E' idxs l a i) (hnodup : (nodes E idxs l a).Nodup)
    (hi : i ∈ idxs) (hpath : ∀ l, path l ∈ idxs) (hne : path l ≠ i) :
    walk E' path l a = walk E path l a := by
  obtain ⟨hslot, hagree⟩ := h.agree hnodup hi (hpath l) hne
  rw [walk_eq, walk_eq, hslot]
  exact slotWalk_congr hpath hagree

/-- So they also meet the nodes that they met before. -/
theorem onPath_update (h : Below E E' idxs l a i) (hnodup : (nodes E idxs l a).Nodup)
    (hi : i ∈ idxs) (hpath : ∀ l, path l ∈ idxs) (hne : path l ≠ i) :
    onPath E' path l a = onPath E path l a := by
  obtain ⟨hslot, hagree⟩ := h.agree hnodup hi (hpath l) hne
  cases l with
  | zero => rfl
  | succ l =>
    rw [onPath, onPath, hslot]
    cases hE : E (l + 1) a (path (l + 1)) with
    | absent => rfl
    | leaf b => rfl
    | node c =>
      rw [hE] at hagree
      congr 1
      exact onPath_congr hpath hagree

/-- The node of level `0` is on the path. -/
theorem leafNode_mem {pt : α} (h : leafNode E path l a = some pt) : pt ∈ onPath E path l a := by
  induction l generalizing a with
  | zero =>
    cases h
    exact List.mem_cons_self
  | succ l ih =>
    rw [leafNode] at h
    rw [onPath]
    cases hE : E (l + 1) a (path (l + 1)) with
    | node c =>
      rw [hE] at h
      exact List.mem_cons_of_mem a (ih h)
    | _ =>
      rw [hE] at h
      cases h

/-- Emptying the last slot of a path: the nodes and the paths stay, the path finds
nothing any more, and every other path finds what it found before. -/
theorem leafNode_clear {pt : α} (hnodup : (nodes E idxs l a).Nodup) (hpath : ∀ l, path l ∈ idxs)
    (hpt : leafNode E path l a = some pt) (hother : ∀ x ∈ nodes E idxs l a, x ≠ pt → Agree E E' x)
    (hslots : ∀ k j, j ≠ path 0 → E' k pt j = E k pt j) (hclear : E' 0 pt (path 0) = .absent) :
    nodes E' idxs l a = nodes E idxs l a ∧
      ∀ path' : Nat → ι, (∀ l, path' l ∈ idxs) →
        onPath E' path' l a = onPath E path' l a ∧
          ((∀ k ≤ l, path' k = path k) ∧ walk E' path' l a = none ∨
            (∃ k ≤ l, path' k ≠ path k) ∧ walk E' path' l a = walk E path' l a) := by
  induction l generalizing a with
  | zero =>
    cases hpt
    refine ⟨rfl, fun path' _ => ⟨rfl, ?_⟩⟩
    by_cases hsame : path' 0 = path 0
    · left
      rw [walk, hsame, hclear]
      exact ⟨fun k hk => Nat.le_zero.mp hk ▸ hsame, rfl⟩
    · right
      rw [walk, walk, hslots 0 (path' 0) hsame]
      exact ⟨⟨0, le_refl 0, hsame⟩, rfl⟩
  | succ l ih =>
    rw [leafNode] at hpt
    cases hE : E (l + 1) a (path (l + 1)) with
    | node c =>
      rw [hE] at hpt
      have hslot : slotNodes E idxs (l + 1) (E (l + 1) a (path (l + 1))) = nodes E idxs l c := by
        rw [hE]
        rfl
      have hsub : ∀ x ∈ nodes E idxs l c, x ∈ nodes E idxs (l + 1) a :=
        fun x hx => mem_nodes_of_slot (hpath (l + 1)) (hslot ▸ hx)
      have hpt' : pt ∈ nodes E idxs l c := onPath_subset hpath (leafNode_mem hpt)
      have hroot : Agree E E' a := by
        refine hother a (mem_nodes_self _ _ _ _) ?_
        rintro rfl
        exact not_mem_slotNodes_self hnodup (hpath (l + 1)) (hslot ▸ hpt')
      obtain ⟨hnodes, hpaths⟩ :=
        ih (by rw [← hslot]; exact slotNodes_nodup hnodup (hpath (l + 1))) hpt
        fun x hx => hother x (hsub x hx)
      -- The subtrees of the other slots do not have the node.
      have hapart :
          ∀ i ∈ idxs, i ≠ path (l + 1) →
          ∀ x ∈ slotNodes E idxs (l + 1) (E (l + 1) a i), Agree E E' x := by
        intro i hi hne x hx
        refine hother x (mem_nodes_of_slot hi hx) ?_
        rintro rfl
        exact slotNodes_disjoint hnodup hi (hpath (l + 1)) hne hx (hslot ▸ hpt')
      constructor
      · rw [nodes_eq, nodes_eq]
        congr 1
        refine List.flatMap_congr fun i hi => ?_
        rw [hroot (l + 1) i]
        by_cases hi' : i = path (l + 1)
        · rw [hi', hE]
          exact hnodes
        · exact slotNodes_congr (hapart i hi hi')
      · intro path' hpath'
        by_cases hroute : path' (l + 1) = path (l + 1)
        · rw [onPath, onPath, walk, walk, hroot, hroute, hE]
          dsimp only
          rw [(hpaths path' hpath').1]
          refine ⟨rfl, ?_⟩
          rcases (hpaths path' hpath').2 with ⟨hsame, hnone⟩ | ⟨⟨k, hk, hne⟩, hkeep⟩
          · left
            refine ⟨fun k hk => ?_, hnone⟩
            rcases Nat.le_succ_iff.mp hk with hk | rfl
            · exact hsame k hk
            · exact hroute
          · right
            exact ⟨⟨k, Nat.le_succ_of_le hk, hne⟩, hkeep⟩
        · have hagree := hapart (path' (l + 1)) (hpath' (l + 1)) hroute
          refine ⟨?_, .inr ⟨⟨l + 1, le_refl _, hroute⟩, ?_⟩⟩
          · rw [onPath, onPath, hroot]
            cases hE' : E (l + 1) a (path' (l + 1)) with
            | node c' =>
              rw [hE'] at hagree
              congr 1
              exact onPath_congr hpath' hagree
            | _ => rfl
          · rw [walk_eq, walk_eq, hroot]
            exact slotWalk_congr hpath' hagree
    | _ =>
      rw [hE] at hpt
      cases hpt

end Lumin.Lib.Radix
