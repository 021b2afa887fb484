import Mathlib.Data.List.Induction
import Mathlib.Data.List.Nodup
import RemoteMenu.Update.Matching

/-!
# What a matching says about its levels

`Matching.Fits` gathers what everything else needs of a matching: the kept pairs join equal keys, and
on either side they and the leftover indices are all indices there are. `fits_of_ofKeys` shows it of
every matching that is found.
-/

namespace RemoteMenu

/-! ### Lists by their indices -/

theorem zipIdx_eq_range {α : Type} (xs : List α) :
    xs.zipIdx = (List.range xs.length).filterMap fun i => xs[i]?.map fun x => (x, i) := by
  induction xs using List.reverseRecOn with
  | nil => rfl
  | append_singleton xs x ih =>
    rw [List.zipIdx_append, ih, List.length_append, List.length_singleton, List.range_succ,
      List.filterMap_append]
    congr 1
    · refine List.filterMap_congr fun i member => ?_
      rw [List.getElem?_append_left (List.mem_range.mp member)]
    · simp

theorem filterMap_zipIdx {α β : Type} (f : α × Nat → Option β) (xs : List α) :
    xs.zipIdx.filterMap f =
      (List.range xs.length).filterMap fun i => xs[i]?.bind fun x => f (x, i) := by
  rw [zipIdx_eq_range, List.filterMap_filterMap]
  refine List.filterMap_congr fun i _ => ?_
  cases xs[i]? <;> rfl

theorem filterMap_eq_range {α β : Type} (f : α → Option β) (xs : List α) :
    xs.filterMap f = (List.range xs.length).filterMap fun i => xs[i]?.bind f := by
  have fronts : xs.filterMap f = (xs.zipIdx.map Prod.fst).filterMap f := by
    rw [List.zipIdx_map_fst]
  rw [fronts, List.filterMap_map, filterMap_zipIdx]
  rfl

theorem filterMap_range_getElem? {α : Type} (xs : List α) : (List.range xs.length).filterMap (xs[·]?) = xs := by
  simpa using (filterMap_eq_range some xs).symm

theorem MatchState.indices_eq_filter (wanted : MatchState) (states : List MatchState) :
    wanted.indices states = (List.range states.length).filter fun i => states[i]? = some wanted := by
  rw [MatchState.indices, filterMap_zipIdx, ← List.filterMap_eq_filter]
  refine List.filterMap_congr fun i member => ?_
  rw [List.getElem?_eq_getElem (List.mem_range.mp member)]
  generalize List.mem_range.mp member = bound
  by_cases h : states[i] = wanted <;> simp [Option.guard, h, List.getElem?_eq_getElem bound]

theorem MatchState.count_eq_length_indices (wanted : MatchState) (states : List MatchState) :
    states.count wanted = (wanted.indices states).length := by
  induction states using List.reverseRecOn with
  | nil => rfl
  | append_singleton states s ih =>
    rw [MatchState.indices] at ih ⊢
    rw [List.count_append, List.zipIdx_append, List.filterMap_append, List.length_append, ih]
    by_cases h : s = wanted <;> simp [h]

/-! ### Finding partners -/

section
variable {κ : Type}

def claims (found : List (Option Nat)) (old : List κ) : List (κ × Nat) :=
  (old.zip found).filterMap fun (key, p) => p.map fun j => (key, j)

theorem claims_cons (p : Option Nat) (found : List (Option Nat)) (key : κ) (old : List κ) :
    claims (p :: found) (key :: old) = (p.map fun j => (key, j)).toList ++ claims found old := by
  cases p <;> simp [claims]

theorem mem_claims {found : List (Option Nat)} {old : List κ} {key : κ} {i j : Nat}
    (hkey : old[i]? = some key) (hj : found[i]? = some (some j)) : (key, j) ∈ claims found old := by
  have paired : (key, some j) ∈ old.zip found :=
    List.mem_iff_getElem?.mpr ⟨i, List.getElem?_zip_eq_some.mpr ⟨hkey, hj⟩⟩
  exact List.mem_filterMap.mpr ⟨_, paired, rfl⟩

theorem map_snd_claims {found : List (Option Nat)} {old : List κ} (h : found.length = old.length) :
    (claims found old).map Prod.snd = found.filterMap id := by
  induction old generalizing found with
  | nil =>
    obtain rfl := List.length_eq_zero_iff.mp h
    rfl
  | cons key old ih =>
    cases found with
    | nil => simp at h
    | cons p found =>
      have rest := @ih found (by simpa using h)
      rw [claims_cons, List.map_append, rest]
      cases p <;> rfl

variable [DecidableEq κ]

theorem claimFirst_perm {key : κ} {free rest : List (κ × Nat)} {j : Nat}
    (h : claimFirst key free = some (j, rest)) : free.Perm ((key, j) :: rest) := by
  induction free generalizing j rest with
  | nil => simp [claimFirst] at h
  | cons head free ih =>
    obtain ⟨k, i⟩ := head
    simp only [claimFirst] at h
    split at h
    · next same =>
      simp only [Option.some.injEq, Prod.mk.injEq] at h
      obtain ⟨rfl, rfl⟩ := h
      rw [same]
    · obtain ⟨⟨i', rest'⟩, found, eq⟩ := Option.map_eq_some_iff.mp h
      simp only [Prod.mk.injEq] at eq
      obtain ⟨rfl, rfl⟩ := eq
      exact ((ih found).cons _).trans (List.Perm.swap ..)

@[simp] theorem length_partners (free : List (κ × Nat)) (old : List κ) :
    (partners free old).length = old.length := by
  induction old generalizing free with
  | nil => rfl
  | cons key old ih =>
    simp only [partners]
    split <;> simp [ih]

theorem partners_perm (free : List (κ × Nat)) (old : List κ) :
    ∃ left, free.Perm (claims (partners free old) old ++ left) := by
  induction old generalizing free with
  | nil => exact ⟨free, List.Perm.refl _⟩
  | cons key old ih =>
    simp only [partners]
    split
    · next j rest found =>
      obtain ⟨left, perm⟩ := ih rest
      refine ⟨left, (claimFirst_perm found).trans ?_⟩
      rw [claims_cons]
      exact perm.cons _
    · obtain ⟨left, perm⟩ := ih free
      refine ⟨left, perm.trans ?_⟩
      rw [claims_cons]
      exact List.Perm.refl _

/-! ### The pairs of a found matching -/

def pairsOf (found : List (Option Nat)) : List (Nat × Nat) :=
  found.zipIdx.filterMap fun (p, i) => p.map fun j => (i, j)

theorem pairsOf_eq_range (found : List (Option Nat)) :
    pairsOf found = (List.range found.length).filterMap fun i =>
      found[i]?.join.map fun j => (i, j) := by
  rw [pairsOf, filterMap_zipIdx]
  refine List.filterMap_congr fun i _ => ?_
  cases found[i]? <;> rfl

theorem mem_pairsOf {found : List (Option Nat)} {i j : Nat} :
    (i, j) ∈ pairsOf found ↔ found[i]? = some (some j) := by
  rw [pairsOf_eq_range, List.mem_filterMap]
  constructor
  · rintro ⟨i', _, h⟩
    simp only [Option.map_eq_some_iff, Option.join_eq_some_iff, Prod.mk.injEq] at h
    obtain ⟨_, h, rfl, rfl⟩ := h
    exact h
  · intro h
    exact ⟨i, List.mem_range.mpr (List.getElem?_eq_some_iff.mp h).1, by simp [h]⟩

theorem map_fst_pairsOf (found : List (Option Nat)) :
    (pairsOf found).map Prod.fst =
      (List.range found.length).filter fun i => found[i]?.join.isSome := by
  rw [pairsOf_eq_range, List.map_filterMap, ← List.filterMap_eq_filter]
  refine List.filterMap_congr fun i _ => ?_
  cases h : found[i]?.join <;> simp [Option.guard, h]

theorem map_snd_pairsOf (found : List (Option Nat)) :
    (pairsOf found).map Prod.snd = found.filterMap id := by
  have fronts : found.filterMap id = (found.zipIdx.map Prod.fst).filterMap id := by
    rw [List.zipIdx_map_fst]
  rw [fronts, pairsOf, List.map_filterMap, List.filterMap_map]
  refine List.filterMap_congr fun (p, i) _ => ?_
  cases p <;> rfl

theorem partners_spec (old new : List κ) :
    ((pairsOf (partners new.zipIdx old)).map Prod.snd).Nodup ∧
    ∀ p ∈ pairsOf (partners new.zipIdx old), ∃ key, old[p.1]? = some key ∧ new[p.2]? = some key := by
  obtain ⟨left, perm⟩ := partners_perm new.zipIdx old
  constructor
  · have indices := perm.map Prod.snd
    rw [List.map_append, map_snd_claims (length_partners ..), ← map_snd_pairsOf] at indices
    have nodup : (new.zipIdx.map Prod.snd).Nodup := by
      rw [List.zipIdx_map_snd]
      exact List.nodup_range'
    exact (List.nodup_append.mp (indices.nodup_iff.mp nodup)).1
  · rintro ⟨i, j⟩ member
    have found := mem_pairsOf.mp member
    have bound : i < old.length := by
      simpa using (List.getElem?_eq_some_iff.mp found).1
    have key := List.getElem?_eq_getElem bound
    have claimed := perm.mem_iff.mpr (List.mem_append_left _ (mem_claims key found))
    exact ⟨_, key, List.mk_mem_zipIdx_iff_getElem?.mp claimed⟩

/-! ### Every matching fits -/

/-- What a matching of two lists of keys has to offer. -/
structure Matching.Fits (m : Matching) (old new : List κ) : Prop where
  old_length : m.oldStates.length = old.length
  new_length : m.newStates.length = new.length
  keptPairs : m.keptPairs = .ok m.pairs
  same : ∀ p ∈ m.pairs, ∃ key, old[p.1]? = some key ∧ new[p.2]? = some key
  old_perm : (m.pairs.map Prod.fst ++ m.removed).Perm (List.range old.length)
  new_perm : (m.pairs.map Prod.snd ++ m.added).Perm (List.range new.length)
  newState : ∀ j < new.length,
    m.newStates[j]? = some (if j ∈ m.pairs.map Prod.snd then .kept else .added)

theorem Matching.ofKeys_eq_none {old new : List κ} (h : Matching.ofKeys old new = none) :
    old = [] ∧ new = [] := by
  unfold Matching.ofKeys at h
  split at h
  · next empty => simpa using empty
  · cases h

theorem ofKeys_eq_some {old new : List κ} {m : Matching} (h : Matching.ofKeys old new = some m) :
    m = {
      oldStates := (partners new.zipIdx old).map fun p => if p.isSome then .kept else .removed
      newStates := (List.range new.length).map fun j =>
        if some j ∈ partners new.zipIdx old then .kept else .added
      pairs := pairsOf (partners new.zipIdx old) } := by
  simp only [Matching.ofKeys] at h
  split at h
  · simp at h
  · exact (Option.some.inj h).symm

theorem old_states (found : List (Option Nat)) {states : List MatchState}
    (h : states = found.map fun p => if p.isSome then .kept else .removed) :
    MatchState.kept.indices states = (pairsOf found).map Prod.fst ∧
    ((pairsOf found).map Prod.fst ++ MatchState.removed.indices states).Perm
      (List.range found.length) := by
  subst h
  have there (i : Nat) (member : i ∈ List.range found.length) : ∃ p, found[i]? = some p :=
    ⟨_, List.getElem?_eq_getElem (List.mem_range.mp member)⟩
  constructor
  · rw [map_fst_pairsOf, MatchState.indices_eq_filter, List.length_map]
    refine List.filter_congr fun i member => ?_
    obtain ⟨p, hp⟩ := there i member
    cases p <;> simp [hp]
  · have removed : MatchState.removed.indices
          (found.map fun p => if p.isSome then MatchState.kept else .removed) =
        (List.range found.length).filter fun i => !found[i]?.join.isSome := by
      rw [MatchState.indices_eq_filter, List.length_map]
      refine List.filter_congr fun i member => ?_
      obtain ⟨p, hp⟩ := there i member
      cases p <;> simp [hp]
    rw [removed, map_fst_pairsOf]
    exact List.filter_append_perm _ _

theorem new_states (found : List (Option Nat)) {n : Nat} {states : List MatchState}
    (h : states = (List.range n).map fun j => if some j ∈ found then .kept else .added)
    (once : ((pairsOf found).map Prod.snd).Nodup)
    (inside : ∀ j ∈ (pairsOf found).map Prod.snd, j < n) :
    (∀ j < n, states[j]? = some (if j ∈ (pairsOf found).map Prod.snd then .kept else .added)) ∧
    ((pairsOf found).map Prod.snd).Perm (MatchState.kept.indices states) ∧
    ((pairsOf found).map Prod.snd ++ MatchState.added.indices states).Perm (List.range n) := by
  have state (j : Nat) (bound : j < n) :
      states[j]? = some (if j ∈ (pairsOf found).map Prod.snd then .kept else .added) := by
    have claimed : some j ∈ found ↔ j ∈ (pairsOf found).map Prod.snd := by simp [map_snd_pairsOf]
    simp only [h, List.getElem?_map, List.getElem?_range bound, Option.map_some, claimed]
  have length : states.length = n := by simp [h]
  have kept : MatchState.kept.indices states =
      (List.range n).filter fun j => j ∈ (pairsOf found).map Prod.snd := by
    rw [MatchState.indices_eq_filter, length]
    refine List.filter_congr fun j member => ?_
    rw [state j (List.mem_range.mp member)]
    split <;> simp_all
  have added : MatchState.added.indices states =
      (List.range n).filter fun j => !decide (j ∈ (pairsOf found).map Prod.snd) := by
    rw [MatchState.indices_eq_filter, length]
    refine List.filter_congr fun j member => ?_
    rw [state j (List.mem_range.mp member)]
    split <;> simp_all
  have claimed : ((pairsOf found).map Prod.snd).Perm (MatchState.kept.indices states) := by
    rw [kept, List.perm_ext_iff_of_nodup once (List.nodup_range.filter _)]
    intro j
    simp only [List.mem_filter, List.mem_range, decide_eq_true_eq]
    exact ⟨fun member => ⟨inside j member, member⟩, And.right⟩
  refine ⟨state, claimed, (claimed.append_right _).trans ?_⟩
  rw [kept, added]
  exact List.filter_append_perm _ _

theorem Matching.fits_of_ofKeys {old new : List κ} {m : Matching}
    (h : Matching.ofKeys old new = some m) : m.Fits old new := by
  obtain ⟨once, same⟩ := partners_spec old new
  have inside : ∀ j ∈ (pairsOf (partners new.zipIdx old)).map Prod.snd, j < new.length := by
    intro j member
    obtain ⟨p, hp, rfl⟩ := List.mem_map.mp member
    obtain ⟨key, -, there⟩ := same p hp
    exact (List.getElem?_eq_some_iff.mp there).1
  have length := length_partners new.zipIdx old
  obtain rfl := ofKeys_eq_some h
  obtain ⟨oldKept, oldPerm⟩ := old_states (partners new.zipIdx old) rfl
  obtain ⟨newState, newKept, newPerm⟩ := new_states (partners new.zipIdx old) rfl once inside
  refine ⟨by simp, by simp, ?_, same, by rw [← length]; exact oldPerm, newPerm, newState⟩
  have counts := newKept.length_eq
  rw [List.length_map] at counts
  simp only [Matching.keptPairs, MatchState.count_eq_length_indices, oldKept, ← counts,
    List.length_map, and_self, if_true]

end

end RemoteMenu
