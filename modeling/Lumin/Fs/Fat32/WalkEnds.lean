import Lumin.Fs.Fat32.Listing
import Mathlib.Data.List.Iterate

/-!
# When a walk over a directory ends

The cluster loops of `fat32_lookup`, `fat32_read_dir` and `short_name_exists` follow the
table without a bound.  A loop ends when some number of turns is enough for it
(`ScanEnds`).  `scanEnds_iff` reduces this to the first clusters of the chain, whatever
the table holds; the results below say what must stand in them.
-/

namespace Lumin.Fs.Fat32

open Lumin.Lib Lumin.Block

/-- The first `n` clusters of a chain. -/
def firstClusters (fs : Fat32Fs) (d : Disk) (v n : Nat) : List Nat :=
  List.iterate (fatNextCluster fs d) v n

/-- The chain leaves the cluster numbers `2` to `FAT32_EOC - 1` after some number of links. -/
def LeavesLinks (fs : Fat32Fs) (d : Disk) (v : Nat) : Prop :=
  ∃ n, ¬ IsLink ((fatNextCluster fs d)^[n] v)

/-- The sectors of the clusters `l` can be read. -/
def ReadsAll (fs : Fat32Fs) (d : Disk) (l : List Nat) : Prop :=
  ∀ c ∈ l, ∀ s < fs.sectorsPerCluster, (blockRead d (u32 (firstSector fs c + s))).isSome

/-- A sector of the clusters cannot be read, or one of their slots is an end mark. -/
def BreaksOff (fs : Fat32Fs) (d : Disk) (l : List Nat) : Prop :=
  ¬ ReadsAll fs d l ∨ ∃ p ∈ scanPlaces fs l, slotKind (slotAt d p) = .last

/-- A slot of the clusters, in a sector that can be read, is an entry with the short name. -/
def HasShortName (fs : Fat32Fs) (d : Disk) (l : List Nat) (name11 : List UInt8) : Prop :=
  ∃ p ∈ scanPlaces fs l, (blockRead d p.1).isSome ∧ slotKind (slotAt d p) = .entry ∧
    slotName (slotAt d p) = name11

section Scan

variable {σ ρ : Type} {fs : Fat32Fs} {d : Disk} {onFail : σ → Except ρ σ}
  {visit : σ → Place → Slot → Except ρ σ} {st : σ} {c v : Nat} {l : List Nat}

/-- Some number of turns is enough for the loop over the clusters. -/
def ScanEnds (fs : Fat32Fs) (d : Disk) (onFail : σ → Except ρ σ) (visit : σ → Place → Slot →
    Except ρ σ)
    (st : σ) (v : Nat) : Prop :=
  ∃ fuel, (scanLoop fs d onFail visit fuel st v).isSome

/-- The scan of the clusters `l` returns before their end. -/
def Returns (fs : Fat32Fs) (d : Disk) (onFail : σ → Except ρ σ) (visit : σ → Place → Slot →
    Except ρ σ)
    (st : σ) (l : List Nat) : Prop :=
  ∃ r, l.foldlM (scanCluster fs d onFail visit) st = .error r

theorem returns_cons_ok {st' : σ} (h : scanCluster fs d onFail visit st c = .ok st') :
    Returns fs d onFail visit st (c :: l) ↔ Returns fs d onFail visit st' l := by
  unfold Returns
  rw [List.foldlM_cons, h]
  rfl

theorem returns_cons_error {r : ρ} (h : scanCluster fs d onFail visit st c = .error r) :
    Returns fs d onFail visit st (c :: l) := by
  refine ⟨r, ?_⟩
  rw [List.foldlM_cons, h]
  rfl

theorem not_returns_nil : ¬ Returns fs d onFail visit st [] := by
  intro h
  obtain ⟨r, hr⟩ := h
  cases hr

/-- A loop ends exactly when its chain leaves the links, or the scan of its first
clusters returns. -/
theorem scanEnds_iff :
    ScanEnds fs d onFail visit st v ↔
      LeavesLinks fs d v ∨ ∃ n, Returns fs d onFail visit st (firstClusters fs d v n) := by
  constructor
  · intro h
    obtain ⟨fuel, hsome⟩ := h
    induction fuel generalizing st v with
    | zero => cases hsome
    | succ fuel ih =>
      rw [scanLoop] at hsome
      by_cases hlink : IsLink v
      · rw [if_pos hlink] at hsome
        cases hscan : scanCluster fs d onFail visit st v with
        | error r => exact Or.inr ⟨1, returns_cons_error hscan⟩
        | ok st' =>
          rw [hscan] at hsome
          cases ih hsome with
          | inl hleaves =>
            obtain ⟨n, hn⟩ := hleaves
            exact Or.inl ⟨n + 1, hn⟩
          | inr hreturns =>
            obtain ⟨n, hn⟩ := hreturns
            exact Or.inr ⟨n + 1, (returns_cons_ok hscan).mpr hn⟩
      · exact Or.inl ⟨0, hlink⟩
  · intro h
    -- One turn more than the links, or than the clusters scanned, is enough.
    have hturns : ∀ n st v, (¬ IsLink ((fatNextCluster fs d)^[n] v) ∨
        Returns fs d onFail visit st (firstClusters fs d v n)) →
          (scanLoop fs d onFail visit (n + 1) st v).isSome := by
      intro n
      induction n with
      | zero =>
        intro st v h
        have hstop : ¬ IsLink v := h.resolve_right not_returns_nil
        rw [scanLoop, if_neg hstop]
        rfl
      | succ n ih =>
        intro st v h
        rw [scanLoop]
        split
        · cases hscan : scanCluster fs d onFail visit st v with
          | error r => rfl
          | ok st' =>
            refine ih st' _ (h.imp id fun hreturns => ?_)
            exact (returns_cons_ok hscan).mp hreturns
        · rfl
    cases h with
    | inl hleaves =>
      obtain ⟨n, hn⟩ := hleaves
      exact ⟨n + 1, hturns n st v (Or.inl hn)⟩
    | inr hreturns =>
      obtain ⟨n, hn⟩ := hreturns
      exact ⟨n + 1, hturns n st v (Or.inr hn)⟩

theorem scanPlaces_cons (fs : Fat32Fs) (c : Nat) (l : List Nat) :
    scanPlaces fs (c :: l) = scanPlaces fs [c] ++ scanPlaces fs l := by
  simp [scanPlaces]

/-- A scan of clusters that can be read is a fold over their slots. -/
theorem foldlM_scanCluster_eq (h : ReadsAll fs d l) (st : σ) :
    l.foldlM (scanCluster fs d onFail visit) st =
      (scanPlaces fs l).foldlM (fun st p => visit st p (slotAt d p)) st := by
  induction l generalizing st with
  | nil => rfl
  | cons c l ih =>
    rw [scanPlaces_cons, List.foldlM_append, List.foldlM_cons,
      scanCluster_eq (h c List.mem_cons_self)]
    exact bind_congr fun st' => ih (fun x hx => h x (List.mem_cons_of_mem _ hx)) st'

/-- A fold that fails at one of its elements in every state fails. -/
theorem foldlM_error_of_mem {β : Type} {f : σ → β → Except ρ σ} {xs : List β} {x : β}
    (hx : x ∈ xs)
    (hfail : ∀ st, ∃ r, f st x = .error r) (st : σ) : ∃ r, xs.foldlM f st = .error r := by
  induction xs generalizing st with
  | nil => cases hx
  | cons y ys ih =>
    rw [List.foldlM_cons]
    cases hy : f st y with
    | error r => exact ⟨r, rfl⟩
    | ok st' =>
      cases List.mem_cons.mp hx with
      | inl heq =>
        obtain ⟨r, hr⟩ := hfail st
        rw [heq, hy] at hr
        cases hr
      | inr hmem => exact ih hmem st'

/-- Where a failed read makes the function return, a sector that cannot be read ends the
loop. -/
theorem returns_of_unreadable (hfail : ∀ st, ∃ r, onFail st = .error r) (h : ¬ ReadsAll fs d l)
    (st : σ) : Returns fs d onFail visit st l := by
  simp only [ReadsAll, not_forall] at h
  obtain ⟨c, hc, s, hs, hread⟩ := h
  rw [Option.not_isSome_iff_eq_none] at hread
  refine foldlM_error_of_mem hc (fun st => ?_) st
  refine foldlM_error_of_mem (List.mem_range.mpr hs) (fun st => ?_) st
  rw [scanSector, hread]
  exact hfail st

/-- A fold without a state fails exactly when it fails at one of its elements. -/
theorem foldlM_unit_error_iff {β : Type} {f : Unit → β → Except Unit Unit} {P : β → Prop}
    {xs : List β}
    (h : ∀ x ∈ xs, f () x = .error () ↔ P x) : xs.foldlM f () = .error () ↔ ∃ x ∈ xs, P x := by
  induction xs with
  | nil => simp [pure, Except.pure]
  | cons x xs ih =>
    have hx := h x List.mem_cons_self
    rw [List.foldlM_cons, List.exists_mem_cons_iff]
    cases hfx : f () x with
    | error r => exact iff_of_true rfl (Or.inl (hx.mp hfx))
    | ok st' =>
      have hnot : ¬ P x := fun hp => by
        rw [hx.mpr hp] at hfx
        cases hfx
      rw [or_iff_right hnot]
      exact ih fun y hy => h y (List.mem_cons_of_mem _ hy)

end Scan

variable {fs : Fat32Fs} {d : Disk} {v : Nat} {l : List Nat} {name : CStr} {name11 : List UInt8}
  {x : LongName}
  {ps : List Place} {index n : Nat}

/-! ## The three loops -/

/-- The cluster loop of `fat32_read_dir` ends. -/
def ReadDirEnds (fs : Fat32Fs) (d : Disk) (cluster index : Nat) : Prop :=
  ScanEnds fs d (fun _ => .error none) (readDirSlot index) (LfnState.init, 0) cluster

/-- The cluster loop of `fat32_lookup` ends. -/
def LookupEnds (fs : Fat32Fs) (d : Disk) (cluster : Nat) (name : CStr) : Prop :=
  ScanEnds fs d (fun _ => .error none) (lookupSlot name) LfnState.init cluster

/-- The cluster loop of `short_name_exists` ends. -/
def ShortNameEnds (fs : Fat32Fs) (d : Disk) (cluster : Nat) (name11 : List UInt8) : Prop :=
  ScanEnds fs d .ok (shortNameSlot name11) () cluster

theorem last_cons_iff {p : Place} (h : slotKind (slotAt d p) ≠ .last) :
    (∃ q ∈ p :: ps, slotKind (slotAt d q) = .last) ↔ ∃ q ∈ ps, slotKind (slotAt d q) = .last := by
  rw [List.exists_mem_cons_iff, or_iff_right h]

/-- `fat32_read_dir` returns at an end mark, or at the entry with the index. -/
theorem readDir_error_iff (hn : n ≤ index) :
    (∃ r, ps.foldlM (fun st p => readDirSlot index st p (slotAt d p)) (x.st, n) = .error r) ↔
      (∃ p ∈ ps, slotKind (slotAt d p) = .last) ∨ index - n < (visible d x ps).length := by
  induction ps generalizing x n with
  | nil => simp [visible, pure, Except.pure]
  | cons p ps ih =>
    rw [List.foldlM_cons, readDirSlot, visible]
    cases hkind : slotKind (slotAt d p) with
    | last => exact iff_of_true ⟨_, rfl⟩ (Or.inl ⟨p, List.mem_cons_self, hkind⟩)
    | deleted =>
      rw [last_cons_iff (by rw [hkind]; decide)]
      exact ih hn (x := x.reset)
    | lfn =>
      rw [last_cons_iff (by rw [hkind]; decide)]
      exact ih hn (x := x.add p (slotAt d p))
    | volume =>
      rw [last_cons_iff (by rw [hkind]; decide)]
      exact ih hn (x := x.reset)
    | entry =>
      rw [last_cons_iff (by rw [hkind]; decide)]
      simp only
      by_cases hidx : n = index
      · rw [if_pos hidx]
        refine iff_of_true ⟨_, rfl⟩ (Or.inr ?_)
        rw [List.length_cons]
        omega
      · rw [if_neg hidx, List.length_cons, show index - n = index - (n + 1) + 1 by omega,
          Nat.add_lt_add_iff_right]
        exact ih (by omega) (x := x.reset)

/-- `fat32_lookup` returns at an end mark, or at an entry that matches. -/
theorem lookup_error_iff :
    (∃ r, ps.foldlM (fun st p => lookupSlot name st p (slotAt d p)) x.st = .error r) ↔
      (∃ p ∈ ps, slotKind (slotAt d p) = .last) ∨
        ∃ e ∈ visible d x ps, e.matches d name = true := by
  induction ps generalizing x with
  | nil => simp [visible, pure, Except.pure]
  | cons p ps ih =>
    rw [List.foldlM_cons, lookupSlot, visible]
    cases hkind : slotKind (slotAt d p) with
    | last => exact iff_of_true ⟨_, rfl⟩ (Or.inl ⟨p, List.mem_cons_self, hkind⟩)
    | deleted =>
      rw [last_cons_iff (by rw [hkind]; decide)]
      exact ih (x := x.reset)
    | lfn =>
      rw [last_cons_iff (by rw [hkind]; decide)]
      exact ih (x := x.add p (slotAt d p))
    | volume =>
      rw [last_cons_iff (by rw [hkind]; decide)]
      exact ih (x := x.reset)
    | entry =>
      rw [last_cons_iff (by rw [hkind]; decide), List.exists_mem_cons_iff]
      simp only
      rw [show Visible.matches d name ⟨p, x⟩ = entryMatches name x.st (slotAt d p) from rfl]
      cases hmatch : entryMatches name x.st (slotAt d p) with
      | true => exact iff_of_true ⟨_, rfl⟩ (Or.inr (Or.inl rfl))
      | false =>
        simp only [Bool.false_eq_true, if_false, false_or]
        exact ih (x := x.reset)

theorem readDir_returns_iff :
    Returns fs d (fun _ => .error none) (readDirSlot index) (LfnState.init, 0) l ↔
      BreaksOff fs d l ∨ index < (listed fs d l).length := by
  by_cases hread : ReadsAll fs d l
  · unfold Returns BreaksOff listed
    rw [foldlM_scanCluster_eq hread, or_iff_right (not_not_intro hread)]
    exact readDir_error_iff (x := .none) (Nat.zero_le index)
  · exact iff_of_true (returns_of_unreadable (fun _ => ⟨none, rfl⟩) hread _)
      (Or.inl (Or.inl hread))

theorem lookup_returns_iff :
    Returns fs d (fun _ => .error none) (lookupSlot name) LfnState.init l ↔
      BreaksOff fs d l ∨ ∃ e ∈ listed fs d l, e.matches d name = true := by
  by_cases hread : ReadsAll fs d l
  · unfold Returns BreaksOff listed
    rw [foldlM_scanCluster_eq hread, or_iff_right (not_not_intro hread)]
    exact lookup_error_iff (x := .none)
  · exact iff_of_true (returns_of_unreadable (fun _ => ⟨none, rfl⟩) hread _)
      (Or.inl (Or.inl hread))

theorem shortNameSlot_error_iff (p : Place) (slot : Slot) :
    shortNameSlot name11 () p slot = .error () ↔ slotKind slot = .entry ∧
      slotName slot = name11 := by
  unfold shortNameSlot
  split <;> simp_all

theorem shortName_returns_iff :
    Returns fs d .ok (shortNameSlot name11) () l ↔ HasShortName fs d l name11 := by
  have hsector : ∀ s, scanSector d .ok (shortNameSlot name11) () s = .error () ↔
      ∃ ei ∈ List.range 16, (blockRead d s).isSome ∧ slotKind (slotAt d (s, ei)) = .entry ∧
        slotName (slotAt d (s, ei)) = name11 := by
    intro s
    rw [scanSector]
    cases hread : blockRead d s with
    | none => simp
    | some buf =>
      have hbuf : buf = d.data s := by
        rw [blockRead_eq (by rw [hread]; rfl)] at hread
        exact (Option.some.inj hread).symm
      simp only
      rw [foldlM_unit_error_iff fun ei _ => shortNameSlot_error_iff (s, ei) (slotIn buf ei), hbuf]
      simp [slotAt]
  have hcluster : ∀ c, scanCluster fs d .ok (shortNameSlot name11) () c = .error () ↔
      ∃ s ∈ List.range fs.sectorsPerCluster, ∃ ei ∈ List.range 16,
        (blockRead d (u32 (firstSector fs c + s))).isSome ∧
          slotKind (slotAt d (u32 (firstSector fs c + s), ei)) = .entry ∧
            slotName (slotAt d (u32 (firstSector fs c + s), ei)) = name11 :=
    fun c => foldlM_unit_error_iff fun s _ => hsector _
  have hreturns : Returns fs d .ok (shortNameSlot name11) () l ↔
      l.foldlM (scanCluster fs d .ok (shortNameSlot name11)) () = .error () :=
    ⟨fun h => h.choose_spec, fun h => ⟨(), h⟩⟩
  rw [hreturns, foldlM_unit_error_iff fun c _ => hcluster c]
  unfold HasShortName scanPlaces
  simp only [List.mem_flatMap, List.mem_map]
  constructor
  · intro h
    obtain ⟨c, hc, s, hs, ei, hei, hslot⟩ := h
    exact ⟨_, ⟨c, hc, s, hs, ei, hei, rfl⟩, hslot⟩
  · intro h
    obtain ⟨-, ⟨c, hc, s, hs, ei, hei, rfl⟩, hslot⟩ := h
    exact ⟨c, hc, s, hs, ei, hei, hslot⟩

/-- On every image each of the three loops ends exactly when the chain leaves the links, or
its first clusters hold what makes the loop return: for `fat32_read_dir` and
`fat32_lookup` a sector that cannot be read, an end mark, an entry with the index or one
that matches, and for `short_name_exists` an entry with the short name. -/
theorem walks_end_iff (fs : Fat32Fs) (d : Disk) (cluster : Nat) :
    (∀ index, ReadDirEnds fs d cluster index ↔
      LeavesLinks fs d cluster ∨ ∃ n, BreaksOff fs d (firstClusters fs d cluster n) ∨
        index < (listed fs d (firstClusters fs d cluster n)).length) ∧
    (∀ name, LookupEnds fs d cluster name ↔
      LeavesLinks fs d cluster ∨ ∃ n, BreaksOff fs d (firstClusters fs d cluster n) ∨
        ∃ e ∈ listed fs d (firstClusters fs d cluster n), e.matches d name = true) ∧
    ∀ name11, ShortNameEnds fs d cluster name11 ↔
      LeavesLinks fs d cluster ∨
        ∃ n, HasShortName fs d (firstClusters fs d cluster n) name11 := by
  refine ⟨fun index => ?_, fun name => ?_, fun name11 => ?_⟩
  · unfold ReadDirEnds
    rw [scanEnds_iff]
    exact or_congr_right (exists_congr fun n => readDir_returns_iff)
  · unfold LookupEnds
    rw [scanEnds_iff]
    exact or_congr_right (exists_congr fun n => lookup_returns_iff)
  · unfold ShortNameEnds
    rw [scanEnds_iff]
    exact or_congr_right (exists_congr fun n => shortName_returns_iff)

/-- A directory in clusters 2 and 3, linked in a circle, with nothing but deleted slots. -/
def deletedCircle : Disk :=
  { circleDisk with data := fun s => if s = 1 then circleDisk.data 1 else fun _ => DELETED }

theorem iterate_deletedCircle (n : Nat) :
    (fatNextCluster circleFs deletedCircle)^[n] 2 = 2 ∨
      (fatNextCluster circleFs deletedCircle)^[n] 2 = 3 := by
  induction n with
  | zero => exact Or.inl rfl
  | succ n ih =>
    rw [Function.iterate_succ_apply']
    cases ih with
    | inl h =>
      rw [h]
      decide +kernel
    | inr h =>
      rw [h]
      decide +kernel

theorem slotKind_deletedCircle {n : Nat} {p : Place}
    (hp : p ∈ scanPlaces circleFs (firstClusters circleFs deletedCircle 2 n)) :
    slotKind (slotAt deletedCircle p) = .deleted := by
  obtain ⟨c, hc, hrest⟩ := List.mem_flatMap.mp hp
  obtain ⟨s, hs, hplace⟩ := List.mem_flatMap.mp hrest
  obtain ⟨ei, -, rfl⟩ := List.mem_map.mp hplace
  obtain ⟨m, -, rfl⟩ := List.mem_iterate.mp hc
  have hzero : s = 0 := Nat.lt_one_iff.mp (List.mem_range.mp hs)
  -- Sector 1 is the table, and every other one is full of deleted slots.
  have hsector :
      u32 (firstSector circleFs ((fatNextCluster circleFs deletedCircle)^[m] 2) + s) ≠ 1 := by
    rw [hzero]
    cases iterate_deletedCircle m with
    | inl h =>
      rw [h]
      decide
    | inr h =>
      rw [h]
      decide
  refine slotKind_of_deleted ?_
  show deletedCircle.data _ _ = DELETED
  exact congrFun (if_neg hsector) _

theorem readsAll_deletedCircle (n : Nat) :
    ReadsAll circleFs deletedCircle (firstClusters circleFs deletedCircle 2 n) := by
  intro c hc s hs
  obtain ⟨m, -, rfl⟩ := List.mem_iterate.mp hc
  have hzero : s = 0 := Nat.lt_one_iff.mp hs
  rw [hzero]
  cases iterate_deletedCircle m with
  | inl h =>
    rw [h]
    decide
  | inr h =>
    rw [h]
    decide

theorem visible_of_deleted (h : ∀ p ∈ ps, slotKind (slotAt d p) = .deleted) :
    visible d x ps = [] := by
  induction ps generalizing x with
  | nil => rfl
  | cons p ps ih =>
    rw [visible, h p List.mem_cons_self]
    exact ih fun q hq => h q (List.mem_cons_of_mem _ hq)

/-- None of the three loops ends there. -/
theorem deletedCircle_never_ends :
    ¬ ReadDirEnds circleFs deletedCircle 2 0 ∧ ¬ LookupEnds circleFs deletedCircle 2 [97] ∧
      ¬ ShortNameEnds circleFs deletedCircle 2 (pad 11 [65]) := by
  have hstays : ¬ LeavesLinks circleFs deletedCircle 2 := by
    intro h
    obtain ⟨n, hn⟩ := h
    cases iterate_deletedCircle n with
    | inl h =>
      rw [h] at hn
      exact hn (by decide)
    | inr h =>
      rw [h] at hn
      exact hn (by decide)
  have hkind := fun n p hp => slotKind_deletedCircle (n := n) (p := p) hp
  have hgoes :
      ∀ n, ¬ BreaksOff circleFs deletedCircle (firstClusters circleFs deletedCircle 2 n) := by
    intro n h
    cases h with
    | inl hread => exact hread (readsAll_deletedCircle n)
    | inr hlast =>
      obtain ⟨p, hp, hlast⟩ := hlast
      rw [hkind n p hp] at hlast
      cases hlast
  have hempty :
      ∀ n, listed circleFs deletedCircle (firstClusters circleFs deletedCircle 2 n) = [] :=
    fun n => visible_of_deleted (hkind n)
  refine ⟨fun h => ?_, fun h => ?_, fun h => ?_⟩
  · obtain ⟨n, hn⟩ := (scanEnds_iff.mp h).resolve_left hstays
    have := (readDir_returns_iff.mp hn).resolve_left (hgoes n)
    rw [hempty n] at this
    exact Nat.not_lt_zero _ this
  · obtain ⟨n, hn⟩ := (scanEnds_iff.mp h).resolve_left hstays
    obtain ⟨e, he, -⟩ := (lookup_returns_iff.mp hn).resolve_left (hgoes n)
    rw [hempty n] at he
    cases he
  · obtain ⟨n, hn⟩ := (scanEnds_iff.mp h).resolve_left hstays
    obtain ⟨p, hp, -, hentry, -⟩ := shortName_returns_iff.mp hn
    rw [hkind n p hp] at hentry
    cases hentry

end Lumin.Fs.Fat32
