import Mathlib.Combinatorics.Enumerative.DoubleCounting
import RemoteMenu.Proofs.Update.Ranks

/-!
# Pairings of equal keys

A matching pairs the occurrences of each key on the two sides in their order (`Matching.ofKeys_ranks`). No other way
to pair equal keys one to one has more pairs, so a change of a level that keeps entries for equal keys only never
deletes or creates fewer (`Matching.ofKeys_optimal`). Every entry stays just where the keys are the same in some order
(`Matching.isUnchanged_iff_perm`).
-/

namespace RemoteMenu

/-- Whether a key occurs at an index, with so many occurrences in front of it. -/
def Occurs {κ : Type} [DecidableEq κ] (keys : List κ) (key : κ) (rank i : Nat) : Prop :=
  keys[i]? = some key ∧ (keys.take i).count key = rank

/-- What a matching by rank is: of each key as many are kept as there are on both sides, the first ones, and these are
paired rank by rank. -/
structure Matching.ByRank {κ : Type} [DecidableEq κ] (m : Matching) (old new : List κ) : Prop where
  old_length : m.oldStates.length = old.length
  new_length : m.newStates.length = new.length
  oldState : ∀ i key, old[i]? = some key →
    m.oldStates[i]? = some (if (old.take i).count key < new.count key then .kept else .removed)
  newState : ∀ j key, new[j]? = some key →
    m.newStates[j]? = some (if (new.take j).count key < old.count key then .kept else .added)
  pairs : ∃ pairs, m.keptPairs = .ok pairs ∧ (pairs.map Prod.fst).Pairwise (· < ·) ∧
    ∀ i j, (i, j) ∈ pairs ↔ ∃ key rank, Occurs old key rank i ∧ Occurs new key rank j

/-- Equal keys of two lists, paired one to one. -/
structure Pairing {κ : Type} (old new : List κ) where
  pairs : Finset (Nat × Nat)
  same : ∀ p ∈ pairs, ∃ key, old[p.1]? = some key ∧ new[p.2]? = some key
  once_old : ∀ p ∈ pairs, ∀ q ∈ pairs, p.1 = q.1 → p = q
  once_new : ∀ p ∈ pairs, ∀ q ∈ pairs, p.2 = q.2 → p = q

/-- A way to make a level what it is to be: old entries stay for new ones with the same key, and all others are
deleted or created. -/
structure LevelChange {κ : Type} (old new : List κ) extends Pairing old new where
  deleted : Finset Nat
  created : Finset Nat
  old_done : ∀ i < old.length, (∃ p ∈ pairs, p.1 = i) ∨ i ∈ deleted
  new_done : ∀ j < new.length, (∃ p ∈ pairs, p.2 = j) ∨ j ∈ created

/-! ### Changes of a level -/

section
variable {κ : Type} {old new : List κ} {m : Matching}

theorem Matching.Fits.keptCount_eq (fits : m.Fits old new) : m.keptCount = m.pairs.length := by
  have kept := fits.keptPairs
  unfold Matching.keptPairs at kept
  dsimp only at kept
  split at kept
  · next same => exact same.2
  · cases kept

theorem Matching.Fits.lengths (fits : m.Fits old new) :
    m.keptCount + m.removed.length = old.length ∧ m.keptCount + m.added.length = new.length := by
  have olds := fits.old_perm.length_eq
  have news := fits.new_perm.length_eq
  simp only [List.length_append, List.length_map, List.length_range] at olds news
  rw [fits.keptCount_eq]
  exact ⟨olds, news⟩

theorem Matching.Fits.nodup (fits : m.Fits old new) :
    (m.pairs.map Prod.fst ++ m.removed).Nodup ∧ (m.pairs.map Prod.snd ++ m.added).Nodup :=
  ⟨fits.old_perm.nodup_iff.mpr List.nodup_range, fits.new_perm.nodup_iff.mpr List.nodup_range⟩

/-- The pairs of a matching are a pairing, and all that is in none of them is deleted or created. -/
def Matching.Fits.change (fits : m.Fits old new) : LevelChange old new where
  pairs := m.pairs.toFinset
  same p hp := fits.same p (List.mem_toFinset.mp hp)
  once_old p hp q hq := by
    have once := (List.nodup_append.mp fits.nodup.1).1
    exact List.inj_on_of_nodup_map once (List.mem_toFinset.mp hp) (List.mem_toFinset.mp hq)
  once_new p hp q hq := by
    have once := (List.nodup_append.mp fits.nodup.2).1
    exact List.inj_on_of_nodup_map once (List.mem_toFinset.mp hp) (List.mem_toFinset.mp hq)
  deleted := m.removed.toFinset
  created := m.added.toFinset
  old_done i hi := by
    have member := fits.old_perm.mem_iff.mpr (List.mem_range.mpr hi)
    simpa using member
  new_done j hj := by
    have member := fits.new_perm.mem_iff.mpr (List.mem_range.mpr hj)
    simpa using member

theorem Matching.Fits.card_change (fits : m.Fits old new) :
    fits.change.pairs.card = m.keptCount ∧ fits.change.deleted.card = m.removed.length ∧
      fits.change.created.card = m.added.length := by
  have olds := List.nodup_append.mp fits.nodup.1
  have news := List.nodup_append.mp fits.nodup.2
  refine ⟨?_, List.toFinset_card_of_nodup olds.2.1, List.toFinset_card_of_nodup news.2.1⟩
  rw [fits.keptCount_eq]
  exact List.toFinset_card_of_nodup olds.1.of_map

/-- Indices that are all either in some pair or among some others are no more than these together. -/
theorem le_card_of_done {pairs : Finset (Nat × Nat)} {others : Finset Nat} {count : Nat} (side : Nat × Nat → Nat)
    (done : ∀ i < count, (∃ p ∈ pairs, side p = i) ∨ i ∈ others) : count ≤ pairs.card + others.card := by
  have covers : Finset.range count ⊆ pairs.image side ∪ others := by
    intro i hi
    rw [Finset.mem_union, Finset.mem_image]
    exact done i (Finset.mem_range.mp hi)
  calc count = (Finset.range count).card := (Finset.card_range _).symm
    _ ≤ (pairs.image side ∪ others).card := Finset.card_le_card covers
    _ ≤ (pairs.image side).card + others.card := Finset.card_union_le _ _
    _ ≤ pairs.card + others.card := Nat.add_le_add_right Finset.card_image_le _

theorem Matching.Fits.perm_of_unchanged (fits : m.Fits old new) (none : m.removed = [] ∧ m.added = []) :
    old.Perm new := by
  have olds := fits.old_perm.symm.filterMap (old[·]?)
  have news := fits.new_perm.filterMap (new[·]?)
  have paired : (m.pairs.map Prod.fst).filterMap (old[·]?) = (m.pairs.map Prod.snd).filterMap (new[·]?) := by
    rw [List.filterMap_map, List.filterMap_map]
    apply List.filterMap_congr
    intro p hp
    obtain ⟨key, ho, hn⟩ := fits.same p hp
    simp [ho, hn]
  rw [none.1, List.append_nil, filterMap_range_getElem?, paired] at olds
  rw [none.2, List.append_nil, filterMap_range_getElem?] at news
  exact olds.trans news

end

section
variable {κ : Type} [DecidableEq κ] {keys old new : List κ} {m : Matching}

/-! ### Occurrences -/

theorem occurs_take {key : κ} {i : Nat} (h : keys[i]? = some key) : Occurs keys key ((keys.take i).count key) i :=
  ⟨h, rfl⟩

/-- There is an occurrence of each rank below their number. -/
theorem exists_occurs_iff {key : κ} {rank : Nat} : (∃ i, Occurs keys key rank i) ↔ rank < keys.count key := by
  have ranked : (keys.filter (· == key))[rank]? = some key ↔ ∃ i, Occurs keys key rank i := by
    simp [getElem?_filter_eq_some, Occurs, List.count]
  rw [← ranked, List.count, List.countP_eq_length_filter]
  constructor
  · intro h
    exact (List.getElem?_eq_some_iff.mp h).1
  · intro h
    have member := List.getElem_mem h
    rw [List.mem_filter] at member
    rw [List.getElem?_eq_getElem h]
    simpa using member.2

theorem Occurs.lt {key : κ} {rank i : Nat} (h : Occurs keys key rank i) : rank < keys.count key :=
  exists_occurs_iff.mp ⟨i, h⟩

theorem Matching.mem_pairs_iff_occurs (found : Matching.ofKeys old new = some m) {i j : Nat} :
    (i, j) ∈ m.pairs ↔ ∃ key rank, Occurs old key rank i ∧ Occurs new key rank j := by
  rw [Matching.mem_pairs_iff found]
  constructor
  · rintro ⟨key, ho, hn, same⟩
    exact ⟨key, _, ⟨ho, same.symm⟩, hn, rfl⟩
  · rintro ⟨key, rank, ⟨ho, rankOld⟩, hn, rankNew⟩
    exact ⟨key, ho, hn, rankNew.trans rankOld.symm⟩

/-! ### States by rank -/

theorem Matching.old_state (found : Matching.ofKeys old new = some m) {i : Nat} {key : κ} (h : old[i]? = some key) :
    m.oldStates[i]? = some (if (old.take i).count key < new.count key then .kept else .removed) := by
  obtain rfl := ofKeys_eq_some found
  have partner := getElem?_partners new.zipIdx h
  dsimp only
  rw [List.getElem?_map, partner, Option.map_some]
  have there : ((new.zipIdx.filter (·.1 = key))[(old.take i).count key]?.map Prod.snd).isSome = true ↔
      (old.take i).count key < new.count key := by
    rw [← exists_occurs_iff, Option.isSome_iff_exists]
    exact exists_congr fun j => getElem?_filter_zipIdx
  by_cases enough : (old.take i).count key < new.count key
  · rw [if_pos (there.mpr enough), if_pos enough]
  · rw [if_neg (fun some => enough (there.mp some)), if_neg enough]

theorem Matching.new_state (found : Matching.ofKeys old new = some m) {j : Nat} {key : κ} (h : new[j]? = some key) :
    m.newStates[j]? = some (if (new.take j).count key < old.count key then .kept else .added) := by
  have there : j ∈ m.pairs.map Prod.snd ↔ (new.take j).count key < old.count key := by
    rw [← exists_occurs_iff]
    simp only [List.mem_map, Prod.exists, exists_eq_right, mem_pairs_iff_occurs found]
    constructor
    · rintro ⟨i, key', rank, ho, hn, rankNew⟩
      obtain rfl : key = key' := Option.some.inj (h.symm.trans hn)
      subst rankNew
      exact ⟨i, ho⟩
    · rintro ⟨i, ho⟩
      exact ⟨i, key, _, ho, occurs_take h⟩
  rw [(fits_of_ofKeys found).newState j (List.getElem?_eq_some_iff.mp h).1]
  by_cases enough : (new.take j).count key < old.count key
  · rw [if_pos (there.mpr enough), if_pos enough]
  · rw [if_neg (fun kept => enough (there.mp kept)), if_neg enough]

theorem Matching.pairs_sorted (found : Matching.ofKeys old new = some m) :
    (m.pairs.map Prod.fst).Pairwise (· < ·) := by
  obtain rfl := ofKeys_eq_some found
  dsimp only
  rw [map_fst_pairsOf]
  exact List.pairwise_lt_range.filter _

/-- There is a matching unless there is nothing to match, and it is by rank. -/
theorem Matching.ofKeys_ranks (old new : List κ) :
    match Matching.ofKeys old new with
    | none => old = [] ∧ new = []
    | some m => ¬(old = [] ∧ new = []) ∧ m.ByRank old new := by
  cases found : Matching.ofKeys old new with
  | none => exact ofKeys_eq_none found
  | some m =>
    have fits := fits_of_ofKeys found
    constructor
    · rintro ⟨rfl, rfl⟩
      simp [ofKeys] at found
    · exact {
        old_length := fits.old_length
        new_length := fits.new_length
        oldState := fun i key h => old_state found h
        newState := fun j key h => new_state found h
        pairs := ⟨m.pairs, fits.keptPairs, pairs_sorted found, fun i j => mem_pairs_iff_occurs found⟩ }

example : Matching.ofKeys ["X", "Y", "X"] ["X", "Z", "X", "X"] =
    some ⟨[.kept, .removed, .kept], [.kept, .added, .kept, .added], [(0, 0), (2, 2)]⟩ := by
  decide

/-! ### Other pairings -/

/-- Of the occurrences of a key, the side that has fewer is kept as a whole, so that each pair of another pairing can be
counted by one of the matching, which it shares that side with. -/
theorem Pairing.card_le (found : Matching.ofKeys old new = some m) (pairing : Pairing old new) :
    pairing.pairs.card ≤ m.keptCount := by
  have fits := Matching.fits_of_ofKeys found
  rw [← fits.card_change.1]
  let counts (p q : Nat × Nat) : Prop := ∃ key, old[p.1]? = some key ∧ old[q.1]? = some key ∧
    if old.count key ≤ new.count key then p.1 = q.1 else p.2 = q.2
  apply Finset.card_le_card_of_forall_subsingleton counts
  · rintro ⟨i, j⟩ hp
    obtain ⟨key, ho, hn⟩ := pairing.same _ hp
    have own := occurs_take ho
    have other := occurs_take hn
    by_cases fewer : old.count key ≤ new.count key
    · obtain ⟨j', partner⟩ := exists_occurs_iff.mpr (Nat.lt_of_lt_of_le own.lt fewer)
      have pair : (i, j') ∈ m.pairs := (Matching.mem_pairs_iff_occurs found).mpr ⟨key, _, own, partner⟩
      refine ⟨(i, j'), List.mem_toFinset.mpr pair, key, ho, ho, ?_⟩
      rw [if_pos fewer]
    · obtain ⟨i', partner⟩ := exists_occurs_iff.mpr (Nat.lt_trans other.lt (Nat.lt_of_not_le fewer))
      have pair : (i', j) ∈ m.pairs := (Matching.mem_pairs_iff_occurs found).mpr ⟨key, _, partner, other⟩
      refine ⟨(i', j), List.mem_toFinset.mpr pair, key, ho, partner.1, ?_⟩
      rw [if_neg fewer]
  · rintro q - p ⟨hp, key, -, hq, shares⟩ p' ⟨hp', key', -, hq', shares'⟩
    obtain rfl : key = key' := Option.some.inj (hq.symm.trans hq')
    split at shares
    · next fewer =>
      rw [if_pos fewer] at shares'
      exact pairing.once_old p hp p' hp' (shares.trans shares'.symm)
    · next fewer =>
      rw [if_neg fewer] at shares'
      exact pairing.once_new p hp p' hp' (shares.trans shares'.symm)

/-- A matching is minimal. No pairing of equal keys has more pairs than it keeps, and no change of a level that keeps
entries for equal keys only deletes fewer or creates fewer than it does; it is such a change itself. -/
theorem Matching.ofKeys_optimal (old new : List κ) :
    match Matching.ofKeys old new with
    | none => old = [] ∧ new = []
    | some m =>
      (∀ pairing : Pairing old new, pairing.pairs.card ≤ m.keptCount) ∧
      (∀ change : LevelChange old new,
        m.removed.length ≤ change.deleted.card ∧ m.added.length ≤ change.created.card) ∧
      ∃ change : LevelChange old new, change.pairs.card = m.keptCount ∧
        change.deleted.card = m.removed.length ∧ change.created.card = m.added.length := by
  cases found : Matching.ofKeys old new with
  | none => exact ofKeys_eq_none found
  | some m =>
    have fits := fits_of_ofKeys found
    refine ⟨fun pairing => pairing.card_le found, fun change => ?_, fits.change, fits.card_change⟩
    have kept := change.card_le found
    have olds := le_card_of_done Prod.fst change.old_done
    have news := le_card_of_done Prod.snd change.new_done
    have own := fits.lengths
    omega

/-! ### Levels with the same keys -/

theorem Matching.unchanged_of_perm (found : Matching.ofKeys old new = some m) (perm : old.Perm new) :
    m.removed = [] ∧ m.added = [] := by
  have fits := fits_of_ofKeys found
  have counts := List.perm_iff_count.mp perm
  constructor
  · rw [Matching.removed, MatchState.indices_eq_filter, List.filter_eq_nil_iff, fits.old_length]
    intro i hi
    have here := List.getElem?_eq_getElem (List.mem_range.mp hi)
    rw [old_state found here, if_pos]
    · simp
    · rw [← counts]
      exact (occurs_take here).lt
  · rw [Matching.added, MatchState.indices_eq_filter, List.filter_eq_nil_iff, fits.new_length]
    intro j hj
    have here := List.getElem?_eq_getElem (List.mem_range.mp hj)
    rw [new_state found here, if_pos]
    · simp
    · rw [counts]
      exact (occurs_take here).lt

/-- A level goes with one of the same keys index by index. -/
theorem Matching.pairs_self (found : Matching.ofKeys old old = some m) :
    m.pairs = (List.range old.length).map fun i => (i, i) := by
  have firsts : m.pairs.map Prod.fst = List.range old.length := by
    have perm := (fits_of_ofKeys found).old_perm
    rw [(unchanged_of_perm found (.refl old)).1, List.append_nil] at perm
    exact perm.eq_of_pairwise (fun _ _ _ _ less more => absurd less (Nat.lt_asymm more)) (pairs_sorted found)
      List.pairwise_lt_range
  calc m.pairs
      = m.pairs.map id := (List.map_id _).symm
    _ = m.pairs.map fun p => (p.1, p.1) :=
        List.map_congr_left fun p hp => Prod.ext rfl ((mem_pairs_self_iff found).mp hp).1.symm
    _ = (m.pairs.map Prod.fst).map fun i => (i, i) := by rw [List.map_map]; rfl
    _ = (List.range old.length).map fun i => (i, i) := by rw [firsts]

/-- All states are `kept` just if none is the other state that a side can have. -/
theorem MatchState.all_kept_iff {states : List MatchState} {other : MatchState} (apart : other ≠ .kept)
    (known : ∀ s ∈ states, s = .kept ∨ s = other) :
    states.all (· = .kept) = true ↔ other.indices states = [] := by
  rw [← List.length_eq_zero_iff, ← MatchState.count_eq_length_indices, List.count_eq_zero, List.all_eq_true]
  simp only [decide_eq_true_eq]
  constructor
  · intro all member
    exact apart (all other member)
  · intro none s hs
    rcases known s hs with kept | same
    · exact kept
    · exact absurd (same ▸ hs) none

theorem Matching.known_states (found : Matching.ofKeys old new = some m) :
    (∀ s ∈ m.oldStates, s = .kept ∨ s = .removed) ∧ (∀ s ∈ m.newStates, s = .kept ∨ s = .added) := by
  have fits := fits_of_ofKeys found
  constructor
  · intro s hs
    obtain ⟨i, hi, rfl⟩ := List.mem_iff_getElem.mp hs
    have state := old_state found (List.getElem?_eq_getElem (fits.old_length ▸ hi))
    rw [List.getElem?_eq_getElem hi, Option.some.injEq] at state
    rw [state]
    split <;> simp
  · intro s hs
    obtain ⟨j, hj, rfl⟩ := List.mem_iff_getElem.mp hs
    have state := new_state found (List.getElem?_eq_getElem (fits.new_length ▸ hj))
    rw [List.getElem?_eq_getElem hj, Option.some.injEq] at state
    rw [state]
    split <;> simp

/-- Every entry stays just where the keys are the same, in any order. -/
theorem Matching.isUnchanged_iff_perm (found : Matching.ofKeys old new = some m) :
    m.isUnchanged = true ↔ old.Perm new := by
  obtain ⟨knownOld, knownNew⟩ := known_states found
  rw [isUnchanged, Bool.and_eq_true, MatchState.all_kept_iff (by decide) knownOld,
    MatchState.all_kept_iff (by decide) knownNew]
  constructor
  · intro none
    exact (fits_of_ofKeys found).perm_of_unchanged none
  · intro perm
    exact unchanged_of_perm found perm

end

end RemoteMenu
