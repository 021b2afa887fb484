import Mathlib.Data.List.Sort
import RemoteMenu.Proofs.Update.Plan

/-!
# One row of the host

A submenu's entries on the host are a row of ids. An addition goes to its place, which has to be there
already; a deletion takes out what has its id. The additions of a level name places in the finished level,
so each finds everything in front of it in place, and together they finish the row
(`HostRow.run?_adds`), provided that the kept entries stand in the order of the level.
-/

namespace RemoteMenu

/-- The ids of the entries of one submenu, from first to last. -/
abbrev HostRow := List RemoteId

namespace HostRow

def step? (row : HostRow) : Command → Option HostRow
  | .add a => if a.position.toNat ≤ row.length then some (row.insertIdx a.position.toNat a.id) else none
  | .delete _ id => some (row.filter (· ≠ id))

def run? (row : HostRow) : List Command → Option HostRow
  | [] => some row
  | c :: batch => (row.step? c).bind (run? · batch)

/-! ### Additions -/

theorem insertIdx_length_append {α : Type} (front back : List α) (x : α) :
    (front ++ back).insertIdx front.length x = front ++ x :: back := by
  induction front with
  | nil => rfl
  | cons a front ih => rw [List.cons_append, List.length_cons, List.insertIdx_succ_cons, ih, List.cons_append]

theorem step?_addition (front back : HostRow) (n : Node) (parent : Option RemoteId) (layout : Layout)
    (small : front.length < UInt32.size) :
    (front ++ back).step? (.add (n.addition parent front.length layout)) = some (front ++ n.remoteId :: back) := by
  have place : (n.addition parent front.length layout).position.toNat = front.length :=
    UInt32.toNat_ofNat_of_lt' small
  have there : front.length ≤ (front ++ back).length := by
    rw [List.length_append]
    exact Nat.le_add_right ..
  rw [step?, place, if_pos there, insertIdx_length_append]
  rfl

def indicesFrom (k : Nat) (wanted : MatchState) (states : List MatchState) : List Nat :=
  (states.zipIdx k).filterMap fun (state, i) => if state = wanted then some i else none

theorem indicesFrom_cons (k : Nat) (wanted state : MatchState) (states : List MatchState) :
    indicesFrom k wanted (state :: states) =
      if state = wanted then k :: indicesFrom (k + 1) wanted states else indicesFrom (k + 1) wanted states := by
  rw [indicesFrom, List.zipIdx_cons, List.filterMap_cons]
  by_cases same : state = wanted
  · simp [same, indicesFrom]
  · simp [same, indicesFrom]

theorem adds_cons {level : Menu} {i : Nat} {n : Node} (here : level[i]? = some n) (layout : Layout)
    (parent : Option RemoteId) (added : List Nat) :
    Command.adds layout parent level (i :: added) =
      .add (n.addition parent i layout) :: Command.adds layout parent level added := by
  rw [Command.adds, List.filterMap_cons, here]
  rfl

/-- Once a level is finished up to some point, the additions from there on finish it if behind that point there is
what is kept. -/
theorem run?_adds (front rest : Menu) {states : List MatchState} (layout : Layout) (parent : Option RemoteId)
    (covers : states.length = rest.length) (known : ∀ s ∈ states, s = .kept ∨ s = .added)
    (small : (front ++ rest).length < UInt32.size) :
    run?
        (front.map (·.remoteId) ++
          ((indicesFrom front.length .kept states).filterMap ((front ++ rest)[·]?)).map (·.remoteId))
        (Command.adds layout parent (front ++ rest) (indicesFrom front.length .added states)) =
      some ((front ++ rest).map (·.remoteId)) := by
  induction states generalizing front rest with
  | nil =>
    obtain rfl := List.length_eq_zero_iff.mp covers.symm
    simp [indicesFrom, Command.adds, run?]
  | cons s states ih =>
    cases rest with
    | nil => cases covers
    | cons n rest =>
      have here : (front ++ n :: rest)[front.length]? = some n := by simp
      have later := ih (front ++ [n]) rest (Nat.succ.inj covers)
        (fun s hs => known s (List.mem_cons_of_mem _ hs)) (by simpa using small)
      rw [← List.append_cons, List.length_append, List.length_singleton, List.map_append] at later
      -- A kept node stands where it has to already; an added one goes right behind what is finished.
      rcases known s (List.mem_cons_self ..) with rfl | rfl
      · rw [indicesFrom_cons, if_pos rfl, indicesFrom_cons, if_neg (by decide), List.filterMap_cons_some here,
          List.map_cons, List.append_cons]
        exact later
      · have inside : (front.map (·.remoteId)).length < UInt32.size := by
          rw [List.length_append] at small
          rw [List.length_map]
          omega
        have added := step?_addition (front.map (·.remoteId))
          (((indicesFrom (front.length + 1) .kept states).filterMap ((front ++ n :: rest)[·]?)).map (·.remoteId))
          n parent layout inside
        rw [List.length_map] at added
        rw [indicesFrom_cons, if_neg (by decide), indicesFrom_cons, if_pos rfl, adds_cons here, run?, added,
          Option.bind_some, List.append_cons]
        exact later

/-! ### Deletions -/

theorem run?_append (row : HostRow) (a b : List Command) :
    row.run? (a ++ b) = (row.run? a).bind (run? · b) := by
  induction a generalizing row with
  | nil => rfl
  | cons c a ih =>
    rw [List.cons_append, run?, run?, Option.bind_assoc]
    exact Option.bind_congr fun row _ => ih row

theorem run?_deletes (row : HostRow) (nodes : List Node) :
    row.run? (Command.deletes nodes) = some (row.filter (· ∉ nodes.map (·.remoteId))) := by
  induction nodes generalizing row with
  | nil => simp [Command.deletes, run?]
  | cons n nodes ih =>
    change run? (row.filter (· ≠ n.remoteId)) (Command.deletes nodes) = _
    rw [ih, List.filter_filter]
    refine congrArg some (List.filter_congr fun id _ => ?_)
    simp only [List.map_cons, List.mem_cons, not_or, Bool.decide_and, decide_not, Bool.and_comm]

def without (old : Menu) (removed : List Nat) : HostRow :=
  (old.zipIdx.filter fun (_, i) => i ∉ removed).map fun (n, _) => n.remoteId

/-- Where ids are distinct, taking out ids is leaving out indices. -/
theorem filter_eq_without {old : Menu} (distinct : (old.map (·.remoteId)).Nodup) (removed : List Nat) :
    (old.map (·.remoteId)).filter (· ∉ (removed.filterMap (old[·]?)).map (·.remoteId)) = without old removed := by
  have row : old.map (·.remoteId) = old.zipIdx.map fun (n, _) => n.remoteId := by
    conv_lhs => rw [← List.zipIdx_map_fst 0 old, List.map_map]
    rfl
  conv_lhs => rw [row]
  rw [List.filter_map, without]
  refine congrArg (List.map _) (List.filter_congr fun (n, i) hn => ?_)
  have here : old[i]? = some n := List.mk_mem_zipIdx_iff_getElem?.mp hn
  have inside : i < (old.map (·.remoteId)).length := by
    rw [List.length_map]
    exact (List.getElem?_eq_some_iff.mp here).1
  have same : n.remoteId ∈ (removed.filterMap (old[·]?)).map (·.remoteId) ↔ i ∈ removed := by
    constructor
    · intro gone
      obtain ⟨n', gone, same⟩ := List.mem_map.mp gone
      obtain ⟨i', gone, there⟩ := List.mem_filterMap.mp gone
      have index : i = i' := by
        refine (List.getElem?_inj inside distinct).mp ?_
        rw [List.getElem?_map, List.getElem?_map, here, there, Option.map_some, Option.map_some, same]
      exact index ▸ gone
    · intro gone
      exact List.mem_map_of_mem (List.mem_filterMap.mpr ⟨i, gone, here⟩)
  exact decide_eq_decide.mpr (not_congr same)

end HostRow

/-! ### Kept entries in order -/

namespace Matching

variable {m : Matching} {old new : Menu}

theorem pairwise_indices (wanted : MatchState) (states : List MatchState) :
    (wanted.indices states).Pairwise (· < ·) := by
  rw [MatchState.indices_eq_filter]
  exact List.pairwise_lt_range.filter _

theorem kept_oldStates (found : Matching.ofMenus old new = some m) :
    MatchState.kept.indices m.oldStates = m.pairs.map Prod.fst := by
  obtain rfl := ofKeys_eq_some found
  exact (old_states _ rfl).1

theorem kept_newStates (fits : m.Fits (old.map Node.contentKey) (new.map Node.contentKey))
    (ordered : (m.pairs.map Prod.snd).Pairwise (· < ·)) :
    MatchState.kept.indices m.newStates = m.pairs.map Prod.snd := by
  have length : m.newStates.length = new.length := by simpa using fits.new_length
  refine List.Pairwise.eq_of_mem_iff (pairwise_indices ..) ordered fun j => ?_
  rw [MatchState.indices_eq_filter, length, List.mem_filter, List.mem_range, decide_eq_true_eq]
  constructor
  · rintro ⟨inside, kept⟩
    rw [fits.newState j (by simpa using inside)] at kept
    by_contra free
    rw [if_neg free] at kept
    cases kept
  · intro kept
    obtain ⟨⟨i, j⟩, pair, rfl⟩ := List.mem_map.mp kept
    obtain ⟨o, n, -, hn, -⟩ := fits.inside pair
    have inside := (List.getElem?_eq_some_iff.mp hn).1
    exact ⟨inside, by rw [fits.newState j (by simpa using inside), if_pos kept]⟩

theorem without_removed (found : Matching.ofMenus old new = some m) :
    HostRow.without old m.removed = (m.pairs.map Prod.fst).filterMap fun i => old[i]?.map (·.remoteId) := by
  have fits : m.Fits (old.map Node.contentKey) (new.map Node.contentKey) := fits_of_ofKeys found
  have perm := fits.old_perm
  rw [List.length_map] at perm
  have apart := List.nodup_append.mp (perm.nodup_iff.mpr List.nodup_range)
  have kept : m.pairs.map Prod.fst = (List.range old.length).filter (· ∉ m.removed) := by
    have sorted := pairwise_indices .kept m.oldStates
    rw [kept_oldStates found] at sorted
    refine List.Pairwise.eq_of_mem_iff sorted (List.pairwise_lt_range.filter _) fun i => ?_
    rw [List.mem_filter, ← perm.mem_iff, List.mem_append, decide_eq_true_eq]
    constructor
    · intro kept
      exact ⟨.inl kept, fun gone => apart.2.2 i kept i gone rfl⟩
    · rintro ⟨kept | gone, stays⟩
      · exact kept
      · exact absurd gone stays
  rw [kept, HostRow.without, zipIdx_eq_range, List.filter_filterMap, List.map_filterMap, List.filterMap_filter]
  refine List.filterMap_congr fun i hi => ?_
  cases old[i]? <;> by_cases gone : i ∈ m.removed <;> simp [gone]

theorem ids_kept (fits : m.Fits (old.map Node.contentKey) (new.map Node.contentKey)) (ids : IdSupply) :
    (m.pairs.map Prod.fst).filterMap (fun i => old[i]?.map (·.remoteId)) =
      ((m.pairs.map Prod.snd).filterMap ((m.plan ids old new).new[·]?)).map (·.remoteId) := by
  rw [List.map_filterMap, List.filterMap_map, List.filterMap_map]
  refine List.filterMap_congr fun (i, j) pair => ?_
  obtain ⟨o, n, ho, -, -, seat⟩ := fits.seat_of_pair ids pair
  change old[i]?.map _ = (m.plan ids old new).new[j]?.map _
  rw [ho, getElem?_plan seat]
  rfl

end Matching

namespace HostRow

/-- If the kept nodes of a level keep their order, its additions turn what is left of the old row without the removed
nodes into the row of the new level; and where the old ids are distinct, the deletions leave just that. -/
theorem run?_level {old new : Menu} {m : Matching} (found : Matching.ofMenus old new = some m)
    (small : new.length < UInt32.size) (ordered : (m.pairs.map Prod.snd).Pairwise (· < ·)) (ids : IdSupply)
    (layout : Layout) (parent : Option RemoteId) :
    ∃ moved, m.transferIds old new = .ok (moved, m.pairs.length) ∧
      let level := (Menu.assignFresh ids m.newStates moved).1
      let deletes := Command.deletes (m.removed.filterMap (old[·]?))
      let adds := Command.adds layout parent level m.added
      (without old m.removed).run? adds = some (level.map (·.remoteId)) ∧
      ((old.map (·.remoteId)).Nodup →
        run? (old.map (·.remoteId)) deletes = some (without old m.removed) ∧
        run? (old.map (·.remoteId)) (deletes ++ adds) = some (level.map (·.remoteId))) := by
  have fits : m.Fits (old.map Node.contentKey) (new.map Node.contentKey) := Matching.fits_of_ofKeys found
  have level : (Menu.assignFresh ids m.newStates (List.zipWith Node.taking (m.partners old) new)).1 =
      (m.plan ids old new).new := by
    rw [fits.states_eq, assignFresh_eq_seats ids fits.length_partners]
    rfl
  have length : (m.plan ids old new).new.length = new.length := (List.length_map _).trans (fits.length_seats ids)
  refine ⟨_, fits.transferIds_eq, ?_⟩
  rw [level]
  have adds : (without old m.removed).run? (Command.adds layout parent (m.plan ids old new).new m.added) =
      some ((m.plan ids old new).new.map (·.remoteId)) := by
    rw [Matching.without_removed found, Matching.ids_kept fits ids, ← Matching.kept_newStates fits ordered]
    refine run?_adds [] _ layout parent ?_ ?_ ?_
    · rw [fits.states_eq, List.length_map, fits.length_partners]
      exact length.symm
    · intro s hs
      rw [fits.states_eq, List.mem_map] at hs
      obtain ⟨partner, -, rfl⟩ := hs
      cases partner
      · exact .inr rfl
      · exact .inl rfl
    · exact lt_of_eq_of_lt length small
  refine ⟨adds, fun distinct => ?_⟩
  have deletes := run?_deletes (old.map (·.remoteId)) (m.removed.filterMap (old[·]?))
  rw [filter_eq_without distinct] at deletes
  exact ⟨deletes, by rw [run?_append, deletes, Option.bind_some, adds]⟩

def letters (s : String) : Menu := s.toList.map fun c => { entry := { title := c.toString } }

theorem run?_level_letters :
    let old := ((letters "abc").withFreshIds (.startingAt 7)).1
    let m : Matching := ⟨[.kept, .removed, .kept], [.added, .kept, .kept, .added], [(0, 1), (2, 2)]⟩
    Matching.ofMenus old (letters "xacy") = some m ∧ without old m.removed = [⟨7⟩, ⟨9⟩] ∧
    ∃ moved, m.transferIds old (letters "xacy") = .ok (moved, 2) ∧
      let level := (Menu.assignFresh (.startingAt 20) m.newStates moved).1
      let deletes := Command.deletes (m.removed.filterMap (old[·]?))
      run? [⟨7⟩, ⟨8⟩, ⟨9⟩] (deletes ++ Command.adds .list none level m.added) = some (level.map (·.remoteId)) := by
  have found : Matching.ofMenus ((letters "abc").withFreshIds (.startingAt 7)).1 (letters "xacy") =
      some ⟨[.kept, .removed, .kept], [.added, .kept, .kept, .added], [(0, 1), (2, 2)]⟩ := by decide +kernel
  obtain ⟨moved, transferred, -, rebuilt⟩ := run?_level found (by decide) (by decide) (.startingAt 20) .list none
  exact ⟨found, by decide, moved, transferred, (rebuilt (by decide)).2⟩

end HostRow

end RemoteMenu
