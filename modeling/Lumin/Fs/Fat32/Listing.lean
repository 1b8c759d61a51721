import Lumin.Fs.Fat32.Unlink

/-!
# Listing and lookup

`fat32_read_dir` and `fat32_lookup` classify the slots of a directory in loops of
their own.  On a chain that ends both are questions to one list, the visible entries:
the first asks for the entry at an index, the second for the first entry that
matches.  An entry matches the name that it is listed under, so that the two agree,
whatever the slots hold.
-/

namespace Lumin.Fs.Fat32

open Lumin.Lib Lumin.Block

variable {fs : Fat32Fs} {d : Disk} {v : Nat} {l : List Nat}

/-- The entries of a directory with the clusters `l`, wherever its sectors lie. -/
def listed (fs : Fat32Fs) (d : Disk) (l : List Nat) : List Visible :=
  visible d .none (scanPlaces fs l)

theorem fat32ReadDir_listed (h : Readable fs d v l) (index : Nat) :
    fat32ReadDir fs d v index = some (((listed fs d l)[index]?).map (Visible.dentry d)) := by
  rw [fat32ReadDir, scanDir_readable h, Option.map_some]
  exact congrArg some (readDir_fold index 0 (Nat.zero_le _) .none (scanPlaces fs l))

theorem fat32Lookup_listed (h : Readable fs d v l) {name : CStr} (hname : name ≠ []) :
    fat32Lookup fs d v name =
      some (((listed fs d l).find? (Visible.matches d name)).map (Visible.found d)) := by
  rw [fat32Lookup, if_neg hname, scanDir_readable h, Option.map_some]
  exact congrArg some (lookup_fold name .none (scanPlaces fs l))

theorem strcmpCi_self (name : CStr) : strcmpCi name name = true := by
  induction name with
  | nil => rfl
  | cons c cs ih =>
    rw [strcmpCi, if_neg (not_not_intro rfl)]
    exact ih

/-- An entry matches the name that it is listed under: the long name, if
`scan_sector` takes that one, or the short name. -/
theorem entryMatches_entryName (st : LfnState) (slot : Slot) :
    entryMatches (entryName st slot) st slot = true := by
  unfold entryMatches entryName
  cases useLfn st slot with
  | true =>
    rw [if_pos rfl, strcmpCi_self]
    rfl
  | false =>
    rw [if_neg (by decide), strcmpCi_self, Bool.or_true]

/-- The cluster, the size and the type that `fat32_lookup` reports are those of a
listed entry. -/
def Found.Describes (f : Found) (e : Dentry) : Prop :=
  f.cluster = e.ino ∧ f.size = e.size ∧ f.isDir = e.isDir

theorem found_describes (d : Disk) (e : Visible) : (e.found d).Describes (e.dentry d) :=
  ⟨rfl, rfl, rfl⟩

/-- **Listing and lookup agree.**  A name that is listed is found, and what is found is
listed at this index or before it; and everything that is found is listed. -/
theorem readDir_lookup_agree (h : Readable fs d v l) :
    (∀ i e, fat32ReadDir fs d v i = some (some e) → e.name ≠ [] →
      ∃ f, fat32Lookup fs d v e.name = some (some f) ∧
        ∃ j ≤ i, ∃ e', fat32ReadDir fs d v j = some (some e') ∧ f.Describes e') ∧
    ∀ name f, fat32Lookup fs d v name = some (some f) →
      ∃ j e', fat32ReadDir fs d v j = some (some e') ∧ f.Describes e' := by
  constructor
  · intro i e hread hname
    rw [fat32ReadDir_listed h, Option.some.injEq, Option.map_eq_some_iff] at hread
    obtain ⟨x, hx, rfl⟩ := hread
    obtain ⟨hi, hget⟩ := List.getElem?_eq_some_iff.mp hx
    have hmatch : Visible.matches d (x.dentry d).name x = true := entryMatches_entryName _ _
    -- The search ends at the entry itself or before it.
    cases hfind : (listed fs d l).find? (Visible.matches d (x.dentry d).name) with
    | none =>
      have hmem : x ∈ listed fs d l := hget ▸ List.getElem_mem hi
      exact absurd hmatch (List.find?_eq_none.mp hfind x hmem)
    | some y =>
      obtain ⟨-, j, hj, hyj, hbefore⟩ := List.find?_eq_some_iff_getElem.mp hfind
      refine ⟨y.found d, ?_, j, ?_, y.dentry d, ?_, found_describes d y⟩
      · rw [fat32Lookup_listed h hname, hfind, Option.map_some]
      · by_contra hlt
        have hno := hbefore i (not_le.mp hlt)
        rw [hget, hmatch] at hno
        exact absurd hno (by decide)
      · rw [fat32ReadDir_listed h, List.getElem?_eq_getElem hj, hyj, Option.map_some]
  · intro name f hlook
    have hname : name ≠ [] := by
      rintro rfl
      cases hlook
    rw [fat32Lookup_listed h hname, Option.some.injEq, Option.map_eq_some_iff] at hlook
    obtain ⟨y, hfind, rfl⟩ := hlook
    obtain ⟨j, hj, hyj⟩ := List.getElem_of_mem (List.mem_of_find?_eq_some hfind)
    refine ⟨j, y.dentry d, ?_, found_describes d y⟩
    rw [fat32ReadDir_listed h, List.getElem?_eq_getElem hj, hyj, Option.map_some]

/-- The directory of the two files `alphabet` and `betamax`. -/
theorem readDir_lookup_agree_twoFiles :
    (fat32ReadDir smallFs twoFiles 2 1).map (·.map Dentry.name) = some (some nameB) ∧
      ∃ f, fat32Lookup smallFs twoFiles 2 nameB = some (some f) ∧
        ∃ j ≤ 1, ∃ e', fat32ReadDir smallFs twoFiles 2 j = some (some e') ∧ f.Describes e' := by
  have hread :
      (fat32ReadDir smallFs twoFiles 2 1).map (·.map Dentry.name) = some (some nameB) := by
    decide +kernel
  obtain ⟨e?, he, hmap⟩ := Option.map_eq_some_iff.mp hread
  obtain ⟨e, rfl, hname⟩ := Option.map_eq_some_iff.mp hmap
  refine ⟨hread, ?_⟩
  rw [← hname]
  refine (readDir_lookup_agree ((chain_smallDisk _).toWalk.readable (sane_smallDisk _))).1 1 e he
    ?_
  rw [hname]
  decide

end Lumin.Fs.Fat32
