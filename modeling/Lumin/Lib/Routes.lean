import Mathlib.Tactic

/-!
# A walk without a record of what it visited

Each node has `items` in order, and an item can have a node behind it (`next`).  `walk` visits the
items of a node one by one and each node behind an item at once, however often it came there
before.  What it lists are routes: the items that lead from a start to a node and one item of
that node, the last one first.

`walkAll_ends_iff` says that the walk ends exactly when no cycle is reached, `mem_walkAll` that it
lists the routes, `nodup_walkAll` each of them once, and `leads_unique_iff` that an item is on one
route only exactly when no node that has items is entered in two ways.
-/

namespace Lumin.Lib.Routes

variable {α β γ σ : Type}

/-! ## Lists put together -/

/-- The lists of all elements one behind the other, `none` when one of them is missing. -/
def gather (f : β → Option (List γ)) : List β → Option (List γ)
  | [] => some []
  | x :: xs => (f x).bind fun l => (gather f xs).map (l ++ ·)

variable {f g : β → Option (List γ)} {x : β} {xs : List β} {l : List γ} {c : γ}

theorem gather_cons_eq_some :
    gather f (x :: xs) = some l ↔ ∃ m k, f x = some m ∧ gather f xs = some k ∧ l = m ++ k := by
  simp only [gather, Option.bind_eq_some_iff, Option.map_eq_some_iff]
  constructor
  · rintro ⟨m, hm, k, hk, rfl⟩
    exact ⟨m, k, hm, hk, rfl⟩
  · rintro ⟨m, k, hm, hk, rfl⟩
    exact ⟨m, hm, k, hk, rfl⟩

theorem gather_elem (h : gather f xs = some l) (hx : x ∈ xs) :
    ∃ m, f x = some m ∧ ∀ c ∈ m, c ∈ l := by
  induction xs generalizing l with
  | nil => cases hx
  | cons y ys ih =>
    obtain ⟨m, k, hm, hk, rfl⟩ := gather_cons_eq_some.1 h
    cases hx with
    | head => exact ⟨m, hm, fun c hc => List.mem_append_left k hc⟩
    | tail _ hx =>
      obtain ⟨m', hm', hsub⟩ := ih hk hx
      exact ⟨m', hm', fun c hc => List.mem_append_right m (hsub c hc)⟩

theorem gather_mem (h : gather f xs = some l) (hc : c ∈ l) :
    ∃ x ∈ xs, ∃ m, f x = some m ∧ c ∈ m := by
  induction xs generalizing l with
  | nil =>
    cases h
    cases hc
  | cons y ys ih =>
    obtain ⟨m, k, hm, hk, rfl⟩ := gather_cons_eq_some.1 h
    rcases List.mem_append.1 hc with hc | hc
    · exact ⟨y, List.mem_cons_self, m, hm, hc⟩
    · obtain ⟨x, hx, hrest⟩ := ih hk hc
      exact ⟨x, List.mem_cons_of_mem y hx, hrest⟩

theorem gather_mono (hfg : ∀ x ∈ xs, ∀ m, f x = some m → g x = some m)
    (h : gather f xs = some l) :
    gather g xs = some l := by
  induction xs generalizing l with
  | nil => exact h
  | cons y ys ih =>
    obtain ⟨m, k, hm, hk, rfl⟩ := gather_cons_eq_some.1 h
    refine gather_cons_eq_some.2 ⟨m, k, hfg y List.mem_cons_self m hm, ?_, rfl⟩
    exact ih (fun x hx => hfg x (List.mem_cons_of_mem y hx)) hk

theorem gather_nodup (hxs : xs.Nodup) (hone : ∀ x ∈ xs, ∀ m, f x = some m → m.Nodup)
    (htwo : ∀ x ∈ xs, ∀ y ∈ xs, ∀ m k, f x = some m → f y = some k → ∀ c ∈ m, c ∈ k → x = y)
    (h : gather f xs = some l) : l.Nodup := by
  induction xs generalizing l with
  | nil =>
    cases h
    exact List.nodup_nil
  | cons y ys ih =>
    obtain ⟨m, k, hm, hk, rfl⟩ := gather_cons_eq_some.1 h
    rw [List.nodup_cons] at hxs
    have hys : k.Nodup := ih hxs.2 (fun x hx => hone x (List.mem_cons_of_mem y hx))
      (fun x hx z hz => htwo x (List.mem_cons_of_mem y hx) z (List.mem_cons_of_mem y hz)) hk
    refine (hone y List.mem_cons_self m hm).append hys fun c hc hc' => ?_
    obtain ⟨x, hx, m', hm', hcm⟩ := gather_mem hk hc'
    have heq := htwo y List.mem_cons_self x (List.mem_cons_of_mem y hx) m m' hm hm' c hc hcm
    exact hxs.1 (heq ▸ hx)

/-- Enough fuel for each element is enough for all of them. -/
theorem gather_total {f : Nat → β → Option (List γ)} (hmono : ∀ n n' x m, n ≤ n' →
    f n x = some m → f n' x = some m)
    (h : ∀ x ∈ xs, ∃ n m, f n x = some m) : ∃ n l, gather (f n) xs = some l := by
  induction xs with
  | nil => exact ⟨0, [], rfl⟩
  | cons y ys ih =>
    obtain ⟨n, m, hm⟩ := h y List.mem_cons_self
    obtain ⟨n', k, hk⟩ := ih fun x hx => h x (List.mem_cons_of_mem y hx)
    refine ⟨max n n', m ++ k, gather_cons_eq_some.2 ⟨m, k, ?_, ?_, rfl⟩⟩
    · exact hmono n _ y m (le_max_left n n') hm
    · exact gather_mono (fun x _ m hm => hmono n' _ x m (le_max_right n n') hm) hk

/-- A loop that adds the lists of its elements to a state. -/
theorem foldlM_eq_gather {step : σ → β → Option σ} {add : σ → γ → σ}
    (h : ∀ s x, x ∈ xs → step s x = (f x).map fun l => l.foldl add s) (s : σ) :
    xs.foldlM step s = (gather f xs).map fun l => l.foldl add s := by
  induction xs generalizing s with
  | nil => rfl
  | cons y ys ih =>
    rw [List.foldlM_cons, h s y List.mem_cons_self]
    cases hy : f y with
    | none => simp [gather, hy]
    | some m =>
      simp only [Option.map_some, Option.bind_eq_bind, Option.bind_some, gather, hy,
        Option.map_map]
      rw [ih fun s x hx => h s x (List.mem_cons_of_mem y hx)]
      congr 1
      funext k
      simp

theorem foldlM_flatMap {g : α → List β} {step : σ → β → Option σ} (ys : List α) (s : σ) :
    (ys.flatMap g).foldlM step s = ys.foldlM (fun s y => (g y).foldlM step s) s := by
  induction ys generalizing s with
  | nil => rfl
  | cons y ys ih => simp [List.flatMap_cons, List.foldlM_append, ih]

/-! ## The walk -/

variable (items : α → List β) (next : β → Option α)

/-- Item `j` behind the items `p`, and what is behind it. -/
def behind (walk : List β → α → Option (List (List β))) (p : List β) (j : β) :
    Option (List (List β)) :=
  match next j with
  | none => some [j :: p]
  | some b => (walk (j :: p) b).map ((j :: p) :: ·)

/-- The walk of node `a`, where the items `p` lead, `none` out of fuel. -/
def walk : Nat → List β → α → Option (List (List β))
  | 0, _, _ => none
  | n + 1, p, a => gather (behind next (walk n) p) (items a)

/-- One walk behind the other. -/
def walkAll (n : Nat) (starts : List α) : Option (List (List β)) :=
  gather (walk items next n []) starts

/-- The items `p`, the last one first, lead from a start to a node. -/
inductive Leads (starts : List α) : List β → α → Prop
  | start (a : α) (ha : a ∈ starts) : Leads starts [] a
  | item (p : List β) (a b : α) (i : β) (h : Leads starts p a) (hi : i ∈ items a)
    (hb : next i = some b) :
      Leads starts (i :: p) b

/-- The items that lead to a node, with one item of that node. -/
def IsRoute (starts : List α) (r : List β) : Prop :=
  ∃ p a j, Leads items next starts p a ∧ j ∈ items a ∧ r = j :: p

/-- The last item on the way to a node, `none` when the walk starts there. -/
def Enters (starts : List α) (e : Option β) (a : α) : Prop :=
  ∃ p, Leads items next starts p a ∧ p.head? = e

/-- An item of `a` has `b` behind it. -/
def Edge (a b : α) : Prop := ∃ i ∈ items a, next i = some b

variable {items next} {starts : List α} {p : List β} {a b : α} {n : Nat} {ls : List (List β)}
  {r : List β} {j : β}

theorem behind_eq_some {walk : List β → α → Option (List (List β))}
    (h : behind next walk p j = some ls) :
    (next j = none ∧ ls = [j :: p]) ∨ ∃ b m, next j = some b ∧ walk (j :: p) b = some m ∧
      ls = (j :: p) :: m := by
  unfold behind at h
  split at h
  next hj => exact .inl ⟨hj, (Option.some.inj h).symm⟩
  next b hj =>
    obtain ⟨m, hm, rfl⟩ := Option.map_eq_some_iff.1 h
    exact .inr ⟨b, m, hj, hm, rfl⟩

theorem behind_some {walk : List β → α → Option (List (List β))} (hj : next j = some b)
    (h : behind next walk p j = some ls) :
    ∃ m, walk (j :: p) b = some m ∧ ls = (j :: p) :: m := by
  rcases behind_eq_some h with ⟨hno, -⟩ | ⟨b', m, hb', hm, rfl⟩
  · rw [hj] at hno
    cases hno
  · obtain rfl : b = b' := Option.some.inj (hj.symm.trans hb')
    exact ⟨m, hm, rfl⟩

theorem mem_behind {walk : List β → α → Option (List (List β))}
    (h : behind next walk p j = some ls) : j :: p ∈ ls := by
  rcases behind_eq_some h with ⟨-, rfl⟩ | ⟨b, m, -, -, rfl⟩ <;> exact List.mem_cons_self

theorem walk_succ_mono {n : Nat} (h : walk items next n p a = some ls) :
    walk items next (n + 1) p a = some ls := by
  induction n generalizing p a ls with
  | zero => cases h
  | succ n ih =>
    refine gather_mono (fun j _ m hm => ?_) h
    rcases behind_eq_some hm with ⟨hj, rfl⟩ | ⟨b, k, hj, hk, rfl⟩
    · simp [behind, hj]
    · simp [behind, hj, ih hk]

theorem walk_mono {n n' : Nat} (hn : n ≤ n') (h : walk items next n p a = some ls) :
    walk items next n' p a = some ls := by
  induction hn with
  | refl => exact h
  | step _ ih => exact walk_succ_mono ih

/-! ## When it ends -/

theorem acc_of_walk (h : walk items next n p a = some ls) :
    Acc (Function.swap (Edge items next)) a := by
  induction n generalizing p a ls with
  | zero => cases h
  | succ n ih =>
    refine Acc.intro a ?_
    rintro b ⟨i, hi, hb⟩
    obtain ⟨m, hm, -⟩ := gather_elem h hi
    obtain ⟨k, hk, -⟩ := behind_some hb hm
    exact ih hk

theorem walk_of_acc (h : Acc (Function.swap (Edge items next)) a) (p : List β) :
    ∃ n ls, walk items next n p a = some ls := by
  induction h generalizing p with
  | intro a _ ih =>
    obtain ⟨n, l, hl⟩ : ∃ n l, gather (behind next (walk items next n) p) (items a) = some l := by
      refine gather_total (f := fun n => behind next (walk items next n) p) ?_ ?_
      · intro n n' j m hn hm
        rcases behind_eq_some hm with ⟨hj, rfl⟩ | ⟨b, k, hj, hk, rfl⟩
        · simp [behind, hj]
        · simp [behind, hj, walk_mono hn hk]
      · intro j hj
        cases hb : next j with
        | none => exact ⟨0, [j :: p], by simp [behind, hb]⟩
        | some b =>
          obtain ⟨n, m, hm⟩ := ih b ⟨j, hj, hb⟩ (j :: p)
          exact ⟨n, (j :: p) :: m, by simp [behind, hb, hm]⟩
    exact ⟨n + 1, l, hl⟩

theorem not_self_of_acc {r : α → α → Prop} (h : Acc r a) : ¬ r a a := by
  induction h with
  | intro a _ ih => exact fun haa => ih a haa haa

/-- Among finitely many nodes a run goes on for ever only on a cycle. -/
theorem acc_iff_no_cycle [Finite α] {r : α → α → Prop} {a : α} :
    Acc (Function.swap r) a ↔ ∀ b, Relation.ReflTransGen r a b → ¬ Relation.TransGen r b b := by
  constructor
  · intro h b hab
    have hb : Acc (Function.swap r) b := by
      induction hab with
      | refl => exact h
      | tail _ hstep ih => exact ih.inv hstep
    intro hcycle
    exact not_self_of_acc hb.transGen (Relation.transGen_swap.2 hcycle)
  · intro h
    -- Strictly later than another reached node.
    let later : α → α → Prop := fun y x => Relation.ReflTransGen r a x ∧ Relation.TransGen r x y
    have : IsTrans α later := ⟨fun x y z hxy hyz => ⟨hyz.1, hyz.2.trans hxy.2⟩⟩
    have : Std.Irrefl later := ⟨fun x hx => h x hx.1 hx.2⟩
    have hwf : WellFounded later := Finite.wellFounded_of_trans_of_irrefl later
    suffices hall : ∀ x, Relation.ReflTransGen r a x → Acc (Function.swap r) x from hall a .refl
    intro x
    induction x using hwf.induction with
    | _ x ih =>
      intro hx
      exact Acc.intro x fun y hy => ih y ⟨hx, .single hy⟩ (hx.tail hy)

/-- **The walk ends exactly when it reaches no cycle.** -/
theorem walkAll_ends_iff [Finite α] :
    (∃ n ls, walkAll items next n starts = some ls) ↔
      ∀ a ∈ starts, ∀ b, Relation.ReflTransGen (Edge items next) a b →
          ¬ Relation.TransGen (Edge items next) b b := by
  constructor
  · rintro ⟨n, ls, h⟩ a ha
    obtain ⟨m, hm, -⟩ := gather_elem h ha
    exact acc_iff_no_cycle.1 (acc_of_walk hm)
  · intro h
    refine gather_total (f := fun n => walk items next n [])
      (fun n n' a m hn hm => walk_mono hn hm) fun a ha => ?_
    exact walk_of_acc (acc_iff_no_cycle.2 (h a ha)) []

/-! ## What it lists -/

theorem isRoute_of_behind {walk : List β → α → Option (List (List β))}
    (hp : Leads items next starts p a)
    (hj : j ∈ items a)
    (hwalk : ∀ b m, next j = some b → walk (j :: p) b = some m →
      ∀ r ∈ m, IsRoute items next starts r)
    (h : behind next walk p j = some ls) : ∀ r ∈ ls, IsRoute items next starts r := by
  have hself : IsRoute items next starts (j :: p) := ⟨p, a, j, hp, hj, rfl⟩
  rcases behind_eq_some h with ⟨-, rfl⟩ | ⟨b, m, hb, hm, rfl⟩
  · intro r hr
    rw [List.mem_singleton.1 hr]
    exact hself
  · intro r hr
    rcases List.mem_cons.1 hr with rfl | hr
    · exact hself
    · exact hwalk b m hb hm r hr

theorem isRoute_of_walk (hp : Leads items next starts p a) (h : walk items next n p a = some ls) :
    ∀ r ∈ ls, IsRoute items next starts r := by
  induction n generalizing p a ls with
  | zero => cases h
  | succ n ih =>
    intro r hr
    obtain ⟨j, hj, m, hm, hrm⟩ := gather_mem h hr
    exact isRoute_of_behind hp hj (fun b k hb hk => ih (hp.item p a b j hj hb) hk) hm r hrm

/-- Behind an item that the walk lists it lists the items of the node there. -/
theorem walk_closed {i : β} (h : walk items next n p a = some ls) (hr : i :: r ∈ ls)
    (hb : next i = some b)
    (hj : j ∈ items b) :
    j :: i :: r ∈ ls := by
  induction n generalizing p a ls with
  | zero => cases h
  | succ n ih =>
    obtain ⟨x, hx, m, hm, hrm⟩ := gather_mem h hr
    obtain ⟨m', hm', hsub⟩ := gather_elem h hx
    obtain rfl : m = m' := Option.some.inj (hm.symm.trans hm')
    apply hsub
    rcases behind_eq_some hm with ⟨hx, rfl⟩ | ⟨b', k, hx, hk, rfl⟩
    · -- the route ends at `x`, behind which there is nothing
      obtain ⟨rfl, -⟩ := List.cons.inj (List.mem_singleton.1 hrm)
      rw [hb] at hx
      cases hx
    · apply List.mem_cons_of_mem
      rcases List.mem_cons.1 hrm with heq | hrk
      · obtain ⟨rfl, rfl⟩ := List.cons.inj heq
        obtain rfl : b = b' := Option.some.inj (hb.symm.trans hx)
        cases n with
        | zero => cases hk
        | succ n =>
          obtain ⟨y, hy, hsub'⟩ := gather_elem hk hj
          exact hsub' _ (mem_behind hy)
      · exact ih hk hrk

/-- **The walk lists the routes.** -/
theorem mem_walkAll (h : walkAll items next n starts = some ls) :
    r ∈ ls ↔ IsRoute items next starts r := by
  constructor
  · intro hr
    obtain ⟨a, ha, m, hm, hrm⟩ := gather_mem h hr
    exact isRoute_of_walk (.start a ha) hm r hrm
  · rintro ⟨p, a, j, hp, hj, rfl⟩
    induction hp generalizing j with
    | start a ha =>
      obtain ⟨m, hm, hsub⟩ := gather_elem h ha
      apply hsub
      cases n with
      | zero => cases hm
      | succ n =>
        obtain ⟨k, hk, hsub'⟩ := gather_elem hm hj
        exact hsub' _ (mem_behind hk)
    | item p a b i _ hi hb ih =>
      obtain ⟨s, hs, m, hm, hrm⟩ := gather_mem h (ih i hi)
      obtain ⟨m', hm', hsub⟩ := gather_elem h hs
      obtain rfl : m = m' := Option.some.inj (hm.symm.trans hm')
      exact hsub _ (walk_closed hm hrm hb hj)

theorem walk_elem (h : walk items next n p a = some ls) (hr : r ∈ ls) :
    ∃ q j, j ∈ items a ∧ r = q ++ j :: p := by
  induction n generalizing p a ls with
  | zero => cases h
  | succ n ih =>
    obtain ⟨j, hj, m, hm, hrm⟩ := gather_mem h hr
    rcases behind_eq_some hm with ⟨-, rfl⟩ | ⟨b, k, -, hk, rfl⟩
    · exact ⟨[], j, hj, List.mem_singleton.1 hrm⟩
    · rcases List.mem_cons.1 hrm with rfl | hrk
      · exact ⟨[], j, hj, rfl⟩
      · obtain ⟨q, j', -, rfl⟩ := ih hk hrk
        exact ⟨q ++ [j'], j, hj, by simp⟩

theorem behind_elem (h : behind next (walk items next n) p j = some ls) (hr : r ∈ ls) :
    ∃ q, r = q ++ j :: p := by
  rcases behind_eq_some h with ⟨-, rfl⟩ | ⟨b, k, -, hk, rfl⟩
  · exact ⟨[], List.mem_singleton.1 hr⟩
  · rcases List.mem_cons.1 hr with rfl | hrk
    · exact ⟨[], rfl⟩
    · obtain ⟨q, j', -, rfl⟩ := walk_elem hk hrk
      exact ⟨q ++ [j'], by simp⟩

theorem walk_nodup (hitems : ∀ a, (items a).Nodup) (h : walk items next n p a = some ls) :
    ls.Nodup := by
  induction n generalizing p a ls with
  | zero => cases h
  | succ n ih =>
    refine gather_nodup (hitems a) (fun j _ m hm => ?_) (fun j _ j' _ m k hm hk r hr hr' => ?_) h
    · rcases behind_eq_some hm with ⟨-, rfl⟩ | ⟨b, k, -, hk, rfl⟩
      · exact List.nodup_singleton _
      · rw [List.nodup_cons]
        refine ⟨fun hself => ?_, ih hk⟩
        obtain ⟨q, j', -, heq⟩ := walk_elem hk hself
        have hlen := congrArg List.length heq
        simp only [List.length_append, List.length_cons] at hlen
        omega
    · obtain ⟨q, hq⟩ := behind_elem hm hr
      obtain ⟨q', hq'⟩ := behind_elem hk hr'
      have htail := List.append_inj_right' (hq.symm.trans hq') rfl
      exact (List.cons.inj htail).1

/-- **It lists each route once.** -/
theorem nodup_walkAll (hitems : ∀ a, (items a).Nodup) (hhome : ∀ a b j, j ∈ items a →
    j ∈ items b → a = b)
    (hstarts : starts.Nodup) (h : walkAll items next n starts = some ls) : ls.Nodup := by
  refine gather_nodup hstarts (fun a _ m hm => walk_nodup hitems hm)
    (fun a _ b _ m k hm hk r hr hr' => ?_) h
  obtain ⟨q, j, hj, hq⟩ := walk_elem hm hr
  obtain ⟨q', j', hj', hq'⟩ := walk_elem hk hr'
  obtain ⟨rfl, -⟩ := List.cons.inj (List.append_inj_right' (hq.symm.trans hq') rfl)
  exact hhome a b j hj hj'

theorem ne_nil_of_walkAll (h : walkAll items next n starts = some ls) (hr : r ∈ ls) : r ≠ [] := by
  obtain ⟨p, a, j, -, -, rfl⟩ := (mem_walkAll h).1 hr
  exact List.cons_ne_nil j p

/-- The last items of routes that are listed once each. -/
theorem nodup_heads_iff (h : ls.Nodup) :
    (ls.filterMap List.head?).Nodup ↔ ∀ j r r', j :: r ∈ ls → j :: r' ∈ ls → r = r' := by
  rw [List.Nodup, List.pairwise_filterMap]
  constructor
  · intro hpair j r r' hr hr'
    by_contra hne
    have hsymm : Std.Symm fun a a' : List β => ∀ b, a.head? = some b → ∀ b', a'.head? = some b' →
        b ≠ b' :=
      ⟨fun a a' haa b hb b' hb' => (haa b' hb' b hb).symm⟩
    exact hpair.forall hr hr' (fun heq => hne (List.cons.inj heq).2) j rfl j rfl rfl
  · intro hone
    refine h.pairwise_of_forall_ne ?_
    rintro a ha a' ha' hne b hb b' hb' rfl
    obtain ⟨r, rfl⟩ := List.head?_eq_some_iff.1 hb
    obtain ⟨r', rfl⟩ := List.head?_eq_some_iff.1 hb'
    exact hne (by rw [hone b r r' ha ha'])

theorem encard_routes (h : walkAll items next n starts = some ls) (hnodup : ls.Nodup) :
    {r | IsRoute items next starts r}.encard = ls.length := by
  classical
  have hset : {r | IsRoute items next starts r} = (ls.toFinset : Set (List β)) := by
    ext r
    simp [mem_walkAll h]
  rw [hset, Set.encard_coe_eq_coe_finsetCard, List.toFinset_card_of_nodup hnodup]

/-- **An item is on one route only, exactly when no node with items is entered in two ways.** -/
theorem leads_unique_iff (hhome : ∀ a b j, j ∈ items a → j ∈ items b → a = b) :
    (∀ j r r', IsRoute items next starts (j :: r) → IsRoute items next starts (j :: r') →
      r = r') ↔
      ∀ a, items a ≠ [] → ∀ e e', Enters items next starts e a → Enters items next starts e' a →
          e = e' := by
  constructor
  · rintro h a ha e e' ⟨p, hp, rfl⟩ ⟨p', hp', rfl⟩
    obtain ⟨j, hj⟩ := List.exists_mem_of_ne_nil _ ha
    rw [h j p p' ⟨p, a, j, hp, hj, rfl⟩ ⟨p', a, j, hp', hj, rfl⟩]
  · intro h
    have hleads : ∀ p a, Leads items next starts p a → ∀ p', items a ≠ [] →
        Leads items next starts p' a → p = p' := by
      intro p a hp
      induction hp with
      | start a ha =>
        intro p' hne hp'
        have hhead := h a hne none p'.head? ⟨[], .start a ha, rfl⟩ ⟨p', hp', rfl⟩
        exact (List.head?_eq_none_iff.1 hhead.symm).symm
      | item p a b i hp hi hb ih =>
        intro p' hne hp'
        have hhead :=
          h b hne (some i) p'.head? ⟨i :: p, .item p a b i hp hi hb, rfl⟩ ⟨p', hp', rfl⟩
        cases hp' with
        | start _ hb' => cases hhead
        | item q c _ i' hq hi' hc =>
          obtain rfl : i = i' := Option.some.inj hhead
          obtain rfl := hhome a c i hi hi'
          rw [ih q (List.ne_nil_of_mem hi) hq]
    rintro j r r' ⟨p, a, x, hp, hx, heq⟩ ⟨p', a', x', hp', hx', heq'⟩
    obtain ⟨rfl, rfl⟩ := List.cons.inj heq
    obtain ⟨rfl, rfl⟩ := List.cons.inj heq'
    obtain rfl := hhome a a' j hx hx'
    exact hleads r a hp r' (List.ne_nil_of_mem hx) hp'

end Lumin.Lib.Routes
