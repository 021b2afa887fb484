import RemoteMenu.Proofs.Update.Unchanged

/-!
# The comparisons of an update

An update compares two levels, and then what is below the nodes that it keeps, where there is anything on either
side. `Comparison.walk` lists what is compared; it reaches the levels that stand opposite each other
(`Comparison.mem_walk_iff`).
-/

namespace RemoteMenu

/-- An old level and the new one that it is compared with. -/
structure Comparison where
  old : Menu
  new : Menu

namespace Comparison

def matching (c : Comparison) : Matching := (Matching.ofMenus c.old c.new).getD ⟨[], [], []⟩

def pair? (c : Comparison) : Nat × Nat → Option (Node × Node)
  | (i, j) => do return (← c.old[i]?, ← c.new[j]?)

def kept (c : Comparison) : List (Node × Node) := c.matching.pairs.filterMap c.pair?

def removed (c : Comparison) : List Node := c.matching.removed.filterMap (c.old[·]?)

def added (c : Comparison) : Menu := c.matching.added.filterMap (c.new[·]?)

def HasBelow (p : Node × Node) : Bool := !(p.1.children.isEmpty && p.2.children.isEmpty)

def belowPairs (c : Comparison) (pairs : List (Nat × Nat)) : List Comparison :=
  ((pairs.filterMap c.pair?).filter HasBelow).map fun p => ⟨p.1.children, p.2.children⟩

def below (c : Comparison) : List Comparison := c.belowPairs c.matching.pairs

theorem exists_of_mem_below {c c' : Comparison} (h : c' ∈ c.below) :
    ∃ o n, (o, n) ∈ c.kept ∧ HasBelow (o, n) = true ∧ c' = ⟨o.children, n.children⟩ := by
  obtain ⟨⟨o, n⟩, member, rfl⟩ := List.mem_map.mp h
  obtain ⟨pair, some⟩ := List.mem_filter.mp member
  exact ⟨o, n, pair, some, rfl⟩

theorem pair?_eq_some {c : Comparison} {p : Nat × Nat} {o n : Node} :
    c.pair? p = some (o, n) ↔ c.old[p.1]? = some o ∧ c.new[p.2]? = some n := by
  simp only [pair?, bind, pure, Option.bind_eq_some_iff, Option.some.injEq, Prod.mk.injEq]
  constructor
  · rintro ⟨o', ho, n', hn, rfl, rfl⟩
    exact ⟨ho, hn⟩
  · rintro ⟨ho, hn⟩
    exact ⟨o, ho, n, hn, rfl, rfl⟩

theorem belowPairs_cons {c : Comparison} {i j : Nat} {o n : Node} (pairs : List (Nat × Nat)) (ho : c.old[i]? = some o)
    (hn : c.new[j]? = some n) : c.belowPairs ((i, j) :: pairs) =
      (if HasBelow (o, n) then [⟨o.children, n.children⟩] else []) ++ c.belowPairs pairs := by
  rw [belowPairs, List.filterMap_cons_some (pair?_eq_some.mpr ⟨ho, hn⟩)]
  by_cases some : HasBelow (o, n) = true
  · rw [List.filter_cons_of_pos some, if_pos some]
    rfl
  · rw [List.filter_cons_of_neg some, if_neg some]
    rfl

theorem mem_of_kept {c : Comparison} {o n : Node} (h : (o, n) ∈ c.kept) : o ∈ c.old ∧ n ∈ c.new := by
  obtain ⟨p, -, here⟩ := List.mem_filterMap.mp h
  obtain ⟨ho, hn⟩ := pair?_eq_some.mp here
  exact ⟨List.mem_of_getElem? ho, List.mem_of_getElem? hn⟩

theorem sizeOf_new_of_mem_below {c c' : Comparison} (h : c' ∈ c.below) : sizeOf c'.new < sizeOf c.new := by
  obtain ⟨o, n, pair, -, rfl⟩ := exists_of_mem_below h
  have inside := List.sizeOf_lt_of_mem (mem_of_kept pair).2
  have children : sizeOf n.children < sizeOf n := by
    cases n
    simp
    omega
  exact children.trans inside

/-- A comparison and all those below it. -/
def walk (c : Comparison) : List Comparison :=
  c :: c.below.attach.flatMap fun ⟨c', _⟩ => walk c'
termination_by sizeOf c.new
decreasing_by exact sizeOf_new_of_mem_below ‹_›

theorem walk_eq (c : Comparison) : c.walk = c :: c.below.flatMap walk := by
  rw [walk]
  simp

/-- What holds of a comparison if it does of those below it holds of all. -/
theorem below_induction {P : Comparison → Prop} (level : ∀ c, (∀ c' ∈ c.below, P c') → P c) (c : Comparison) : P c :=
  level c fun c' _ => below_induction level c'
termination_by sizeOf c.new
decreasing_by exact sizeOf_new_of_mem_below ‹_›

/-! ### Kept nodes -/

theorem matching_of_found {c : Comparison} {m : Matching} (found : Matching.ofMenus c.old c.new = some m) :
    c.matching = m := by
  rw [matching, found, Option.getD_some]

/-- There is a matching, unless there is nothing on either side. -/
theorem matching_cases (c : Comparison) : (c = ⟨[], []⟩ ∧ c.matching = ⟨[], [], []⟩) ∨
    (Matching.ofMenus c.old c.new = some c.matching ∧
      c.matching.Fits (c.old.map Node.contentKey) (c.new.map Node.contentKey)) := by
  cases found : Matching.ofMenus c.old c.new with
  | none =>
    obtain ⟨noOld, noNew⟩ := Matching.ofKeys_eq_none found
    obtain ⟨old, new⟩ := c
    obtain rfl := List.map_eq_nil_iff.mp noOld
    obtain rfl := List.map_eq_nil_iff.mp noNew
    exact .inl ⟨rfl, by rw [matching, found]; rfl⟩
  | some m =>
    have same := matching_of_found found
    exact .inr ⟨by rw [same], same ▸ Matching.fits_of_ofKeys found⟩

/-- The kept nodes are those of the same rank on either side. -/
theorem mem_kept_iff {c : Comparison} {o n : Node} : (o, n) ∈ c.kept ↔ SameRank c.old c.new o n := by
  constructor
  · intro member
    obtain ⟨⟨i, j⟩, pair, here⟩ := List.mem_filterMap.mp member
    obtain ⟨ho, hn⟩ := pair?_eq_some.mp here
    rcases c.matching_cases with ⟨-, none⟩ | ⟨found, -⟩
    · rw [none] at pair
      cases pair
    · exact Matching.sameRank_of_pair found pair ho hn
  · intro same
    obtain ⟨m, i, j, found, pair, ho, hn⟩ := same.exists_pair
    rw [← matching_of_found found] at pair
    exact List.mem_filterMap.mpr ⟨(i, j), pair, pair?_eq_some.mpr ⟨ho, hn⟩⟩

theorem hasBelow_iff {o n : Node} : HasBelow (o, n) = true ↔ o.children ≠ [] ∨ n.children ≠ [] := by
  simp [HasBelow, Classical.or_iff_not_imp_left]

/-- What is compared are the levels that stand opposite each other. -/
theorem mem_walk_iff {c c' : Comparison} : c' ∈ c.walk ↔ Counterparts c.old c.new c'.old c'.new := by
  constructor
  · induction c using below_induction with
    | level c ih =>
      rw [walk_eq, List.mem_cons, List.mem_flatMap]
      rintro (rfl | ⟨inner, member, further⟩)
      · exact .top _ _
      · obtain ⟨o, n, pair, some, rfl⟩ := exists_of_mem_below member
        exact .under (mem_kept_iff.mp pair) (hasBelow_iff.mp some) (ih _ member further)
  · intro levels
    generalize hold : c.old = old, hnew : c.new = new, hold' : c'.old = old', hnew' : c'.new = new' at levels
    induction levels generalizing c with
    | top =>
      obtain rfl : c' = c := by
        cases c; cases c'
        simp_all
      rw [walk_eq]
      exact List.mem_cons_self ..
    | @under old new old' new' o n same some _ ih =>
      subst hold hnew
      rw [walk_eq]
      refine List.mem_cons_of_mem _ (List.mem_flatMap.mpr ⟨⟨o.children, n.children⟩, ?_, ih rfl rfl hold' hnew'⟩)
      exact List.mem_map.mpr ⟨(o, n), List.mem_filter.mpr ⟨mem_kept_iff.mpr same, hasBelow_iff.mpr some⟩, rfl⟩

/-! ### Lengths -/

/-- All indices of a matching are inside the levels. -/
theorem lengths_matching (c : Comparison) : c.kept.length = c.matching.pairs.length ∧
    c.removed.length = c.matching.removed.length ∧ c.added.length = c.matching.added.length := by
  rcases c.matching_cases with ⟨rfl, -⟩ | ⟨-, fits⟩
  · exact ⟨rfl, rfl, rfl⟩
  · refine ⟨?_, ?_, ?_⟩
    · apply List.filterMap_length_eq_length.mpr
      rintro ⟨i, j⟩ pair
      obtain ⟨o, n, ho, hn, -⟩ := fits.inside pair
      rw [pair?_eq_some.mpr ⟨ho, hn⟩]
      rfl
    · apply List.filterMap_length_eq_length.mpr
      intro i hi
      have inside := fits.old_perm.mem_iff.mp (List.mem_append_right _ hi)
      simpa using inside
    · apply List.filterMap_length_eq_length.mpr
      intro j hj
      have inside := fits.new_perm.mem_iff.mp (List.mem_append_right _ hj)
      simpa using inside

/-- Nothing is left out of either level. -/
theorem lengths (c : Comparison) : c.kept.length + c.removed.length = c.old.length ∧
    c.kept.length + c.added.length = c.new.length := by
  rcases c.matching_cases with ⟨rfl, -⟩ | ⟨-, fits⟩
  · exact ⟨rfl, rfl⟩
  · obtain ⟨kept, removed, added⟩ := c.lengths_matching
    obtain ⟨olds, news⟩ := fits.lengths
    rw [fits.keptCount_eq, List.length_map] at olds news
    omega

/-- The comparisons below the top one are of the kept pairs with anything below them. -/
theorem length_walk (c : Comparison) :
    c.walk.length = 1 + (c.walk.map fun c' => (c'.kept.filter HasBelow).length).sum := by
  induction c using below_induction with
  | level c ih =>
    have inner (cs : List Comparison) (sub : cs ⊆ c.below) : (cs.flatMap walk).length =
        cs.length + ((cs.flatMap walk).map fun c' => (c'.kept.filter HasBelow).length).sum := by
      induction cs with
      | nil => rfl
      | cons c' cs rest =>
        have own := ih c' (sub (List.mem_cons_self ..))
        have others := rest fun x hx => sub (List.mem_cons_of_mem _ hx)
        rw [List.flatMap_cons, List.length_append, List.map_append, List.sum_append, own, others, List.length_cons]
        omega
    have whole := inner c.below (List.Subset.refl _)
    rw [walk_eq, List.length_cons, List.map_cons, List.sum_cons, whole]
    rw [below, belowPairs, List.length_map]
    change _ = 1 + ((c.kept.filter HasBelow).length + _)
    rw [kept]
    omega

end Comparison

end RemoteMenu
