import RemoteMenu.Proofs.Update.Plan

/-!
# Ranks among siblings

Siblings with the same content key are told apart by their rank, which is their place among each other. A
new node is kept for the old one that has its key and its rank, and only for that one (`mem_pairs_iff`).
-/

namespace RemoteMenu

/-- Whether an old and a new node are of the same rank among the siblings that have the old one's key. -/
def SameRank (old new : Menu) (o n : Node) : Prop :=
  ∃ r : Nat, (old.filter (·.contentKey = o.contentKey))[r]? = some o ∧
    (new.filter (·.contentKey = o.contentKey))[r]? = some n

theorem SameRank.mem {old new : Menu} {o n : Node} (h : SameRank old new o n) : o ∈ old := by
  obtain ⟨r, ho, -⟩ := h
  exact (List.mem_filter.mp (List.mem_of_getElem? ho)).1

section
variable {κ : Type} [DecidableEq κ]

/-! ### Partners and ranks -/

/-- A member of a filtered list is at the index that tells how many before it pass. -/
theorem getElem?_filter_eq_some {α : Type} {p : α → Bool} {xs : List α} {r : Nat} {x : α} :
    (xs.filter p)[r]? = some x ↔ ∃ i, xs[i]? = some x ∧ p x = true ∧ (xs.take i).countP p = r := by
  induction xs generalizing r with
  | nil => simp
  | cons y ys ih =>
    constructor
    · intro here
      cases passes : p y with
      | false =>
        rw [List.filter_cons_of_neg (by simp [passes])] at here
        obtain ⟨i, later, own, count⟩ := ih.mp here
        exact ⟨i + 1, later, own, by rw [List.take_succ_cons, List.countP_cons_of_neg (by simp [passes]), count]⟩
      | true =>
        rw [List.filter_cons_of_pos passes] at here
        cases r with
        | zero =>
          obtain rfl : y = x := by simpa using here
          exact ⟨0, rfl, passes, rfl⟩
        | succ r =>
          obtain ⟨i, later, own, count⟩ := ih.mp (by simpa using here)
          exact ⟨i + 1, later, own, by rw [List.take_succ_cons, List.countP_cons_of_pos passes, count]⟩
    · rintro ⟨i, here, own, rfl⟩
      cases i with
      | zero =>
        obtain rfl : y = x := by simpa using here
        simp [own]
      | succ i =>
        have later := ih.mpr ⟨i, by simpa using here, own, rfl⟩
        rw [List.take_succ_cons]
        by_cases passes : p y = true
        · rwa [List.filter_cons_of_pos passes, List.countP_cons_of_pos passes]
        · rwa [List.filter_cons_of_neg passes, List.countP_cons_of_neg passes]

theorem filter_of_claimFirst (key : κ) (free : List (κ × Nat)) (k : κ) :
    match claimFirst key free with
    | some (j, rest) => free.filter (·.1 = k) =
        if key = k then (key, j) :: rest.filter (·.1 = k) else rest.filter (·.1 = k)
    | none => free.filter (·.1 = key) = [] := by
  induction free with
  | nil => rfl
  | cons head free ih =>
    obtain ⟨k', j⟩ := head
    rw [claimFirst]
    by_cases here : k' = key
    · rw [if_pos here]
      subst here
      by_cases own : k' = k <;> simp [own]
    · rw [if_neg here]
      cases found : claimFirst key free with
      | none =>
        rw [found] at ih
        simpa [here] using ih
      | some claimed =>
        rw [found] at ih
        obtain ⟨i, rest⟩ := claimed
        dsimp only [Option.map_some] at ih ⊢
        by_cases own : key = k
        · subst own
          rw [if_pos rfl] at ih ⊢
          simpa [here] using ih
        · rw [if_neg own] at ih ⊢
          by_cases other : k' = k <;> simp [other, ih]

/-- The partner of an old node is the free new one that has its key and its rank. -/
theorem getElem?_partners {old : List κ} {i : Nat} {key : κ} (free : List (κ × Nat)) (h : old[i]? = some key) :
    (partners free old)[i]? = some ((free.filter (·.1 = key))[(old.take i).count key]?.map Prod.snd) := by
  induction old generalizing i free with
  | nil => simp at h
  | cons first old ih =>
    have claims := filter_of_claimFirst first free key
    rw [partners]
    cases found : claimFirst first free with
    | none =>
      rw [found] at claims
      dsimp only at claims ⊢
      cases i with
      | zero =>
        obtain rfl : first = key := by simpa using h
        simp [claims]
      | succ i =>
        rw [List.getElem?_cons_succ, ih free (by simpa using h), List.take_succ_cons]
        by_cases own : first = key
        · subst own
          simp [claims]
        · rw [List.count_cons_of_ne own]
    | some claimed =>
      obtain ⟨j, rest⟩ := claimed
      rw [found] at claims
      dsimp only at claims ⊢
      rw [claims]
      cases i with
      | zero =>
        obtain rfl : first = key := by simpa using h
        simp
      | succ i =>
        rw [List.getElem?_cons_succ, ih rest (by simpa using h), List.take_succ_cons]
        by_cases own : first = key
        · subst own
          simp
        · rw [if_neg own, List.count_cons_of_ne own]

theorem getElem?_filter_zipIdx {new : List κ} {key : κ} {r j : Nat} :
    (new.zipIdx.filter (·.1 = key))[r]?.map Prod.snd = some j ↔
      new[j]? = some key ∧ (new.take j).count key = r := by
  have ranked (i : Nat) : (new.zipIdx.take i).countP (·.1 = key) = (new.take i).count key := by
    have fronts : new.take i = (new.zipIdx.take i).map Prod.fst := by rw [List.map_take, List.zipIdx_map_fst]
    rw [fronts, List.count, List.countP_map]
    refine List.countP_congr fun x _ => ?_
    simp
  rw [Option.map_eq_some_iff]
  constructor
  · rintro ⟨⟨k, j'⟩, here, rfl⟩
    obtain ⟨i, there, own, count⟩ := getElem?_filter_eq_some.mp here
    obtain rfl : k = key := of_decide_eq_true own
    rw [List.getElem?_zipIdx, Option.map_eq_some_iff] at there
    obtain ⟨k', there, same⟩ := there
    obtain ⟨rfl, rfl⟩ := Prod.mk.inj same
    rw [Nat.zero_add]
    exact ⟨there, ranked i ▸ count⟩
  · rintro ⟨there, count⟩
    refine ⟨(key, j), getElem?_filter_eq_some.mpr ⟨j, ?_, decide_eq_true rfl, (ranked j).trans count⟩, rfl⟩
    rw [List.getElem?_zipIdx, there, Option.map_some, Nat.zero_add]

/-! ### Pairs and ranks -/

/-- The pairs of a matching are those of the same key and the same rank. -/
theorem Matching.mem_pairs_iff {old new : List κ} {m : Matching} (found : Matching.ofKeys old new = some m) {i j : Nat} :
    (i, j) ∈ m.pairs ↔
      ∃ key, old[i]? = some key ∧ new[j]? = some key ∧ (new.take j).count key = (old.take i).count key := by
  obtain rfl := ofKeys_eq_some found
  rw [mem_pairsOf]
  constructor
  · intro partner
    have bound : i < old.length := by
      simpa using (List.getElem?_eq_some_iff.mp partner).1
    have here := List.getElem?_eq_getElem bound
    rw [getElem?_partners _ here] at partner
    exact ⟨_, here, getElem?_filter_zipIdx.mp (Option.some.inj partner)⟩
  · rintro ⟨key, ho, ranked⟩
    rw [getElem?_partners _ ho, getElem?_filter_zipIdx.mpr ranked]

/-- Where the keys are the same throughout, each goes with the one at its own index. -/
theorem Matching.mem_pairs_self_iff {keys : List κ} {m : Matching} (found : Matching.ofKeys keys keys = some m)
    {i j : Nat} : (i, j) ∈ m.pairs ↔ i = j ∧ i < keys.length := by
  have own {i : Nat} (bound : i < keys.length) : (i, i) ∈ m.pairs :=
    have here := List.getElem?_eq_getElem bound
    (Matching.mem_pairs_iff found).mpr ⟨_, here, here, rfl⟩
  have once : (m.pairs.map Prod.fst).Nodup := by
    have fits := Matching.fits_of_ofKeys found
    exact (List.nodup_append.mp (fits.old_perm.nodup_iff.mpr List.nodup_range)).1
  constructor
  · intro pair
    obtain ⟨key, here, -, -⟩ := (Matching.mem_pairs_iff found).mp pair
    have bound := (List.getElem?_eq_some_iff.mp here).1
    exact ⟨congrArg Prod.snd (List.inj_on_of_nodup_map once (own bound) pair rfl), bound⟩
  · rintro ⟨rfl, bound⟩
    exact own bound

end

theorem Menu.count_take_keys (level : Menu) (i : Nat) (key : ContentKey) :
    ((level.map Node.contentKey).take i).count key = (level.take i).countP (·.contentKey = key) := by
  rw [← List.map_take, List.count, List.countP_map]
  refine List.countP_congr fun x _ => ?_
  simp

/-- A node of the same rank is the one that the old node is kept for. -/
theorem SameRank.exists_pair {old new : Menu} {o n : Node} (h : SameRank old new o n) :
    ∃ m i j, Matching.ofMenus old new = some m ∧ (i, j) ∈ m.pairs ∧ old[i]? = some o ∧ new[j]? = some n := by
  obtain ⟨r, ho, hn⟩ := h
  obtain ⟨i, ho, -, countOld⟩ := getElem?_filter_eq_some.mp ho
  obtain ⟨j, hn, own, countNew⟩ := getElem?_filter_eq_some.mp hn
  cases found : Matching.ofMenus old new with
  | none =>
    have empty := (Matching.ofKeys_eq_none found).1
    rw [List.map_eq_nil_iff.mp empty] at ho
    cases ho
  | some m =>
    refine ⟨m, i, j, rfl, (Matching.mem_pairs_iff found).mpr ⟨o.contentKey, ?_, ?_, ?_⟩, ho, hn⟩
    · rw [List.getElem?_map, ho, Option.map_some]
    · rw [List.getElem?_map, hn, Option.map_some, of_decide_eq_true own]
    · rw [Menu.count_take_keys, Menu.count_take_keys, countOld, countNew]

/-- The nodes of a pair are of the same rank. -/
theorem Matching.sameRank_of_pair {old new : Menu} {m : Matching} (found : Matching.ofMenus old new = some m)
    {i j : Nat} (pair : (i, j) ∈ m.pairs) {o n : Node} (ho : old[i]? = some o) (hn : new[j]? = some n) :
    SameRank old new o n := by
  obtain ⟨key, keyOld, keyNew, ranks⟩ := (Matching.mem_pairs_iff found).mp pair
  rw [List.getElem?_map, ho, Option.map_some, Option.some.injEq] at keyOld
  rw [List.getElem?_map, hn, Option.map_some, Option.some.injEq] at keyNew
  subst keyOld
  rw [Menu.count_take_keys, Menu.count_take_keys] at ranks
  refine ⟨(old.take i).countP (·.contentKey = o.contentKey), ?_, ?_⟩
  · exact getElem?_filter_eq_some.mpr ⟨i, ho, decide_eq_true rfl, rfl⟩
  · exact getElem?_filter_eq_some.mpr ⟨j, hn, decide_eq_true keyNew, ranks⟩

end RemoteMenu
