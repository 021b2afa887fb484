import RemoteMenu.Proofs.Menu.Bare
import RemoteMenu.Proofs.Dialogue.Contract
import RemoteMenu.Proofs.Update.Matching
import RemoteMenu.Update.Reconcile

/-!
# The seats of a level

A seat is a new node with the id that it will have, beside its old partner if it has one. Settling the
ids of a level gives the nodes of its seats (`Matching.Fits.meets_settleIds`). Which old nodes are partners
and which have to go is all there is of the old level (`Matching.Fits.old_perm_seats`), and of the
seats the kept ones are those of the pairs (`Matching.Fits.seat_of_pair`).
-/

namespace RemoteMenu

/-! ### Seats -/

/-- A new node with its id, and the old node that it is kept for. -/
structure Seat where
  partner : Option Node
  node : Node

/-- The old nodes that the new ones are kept for, if any, by the pairs of a matching. -/
def partnerIn (old : Menu) (pairs : List (Nat × Nat)) (j : Nat) : Option Node :=
  (pairs.find? (·.2 = j)).bind fun (i, _) => old[i]?

def Matching.partners (m : Matching) (old : Menu) : List (Option Node) :=
  (List.range m.newStates.length).map (partnerIn old m.pairs)

/-- The seats of a level: a kept node has its partner's id, the others draw fresh ones for themselves
and all that is below them. -/
def Menu.seats (ids : IdSupply) : List (Option Node) → Menu → List Seat × IdSupply
  | some old :: partners, n :: ns =>
    let (seats, ids) := Menu.seats ids partners ns
    (⟨some old, { n with remoteId := old.remoteId }⟩ :: seats, ids)
  | none :: partners, n :: ns =>
    let (n, ids) := n.withFreshIds ids
    let (seats, ids) := Menu.seats ids partners ns
    (⟨none, n⟩ :: seats, ids)
  | _, _ => ([], ids)

def freshNodes (seats : List Seat) : List Node :=
  (seats.filter (·.partner.isNone)).map Seat.node

@[simp] theorem freshNodes_nil : freshNodes [] = [] := rfl

@[simp] theorem freshNodes_kept (old n : Node) (seats : List Seat) :
    freshNodes (⟨some old, n⟩ :: seats) = freshNodes seats := rfl

@[simp] theorem freshNodes_fresh (n : Node) (seats : List Seat) :
    freshNodes (⟨none, n⟩ :: seats) = n :: freshNodes seats := rfl

def Node.taking (partner : Option Node) (n : Node) : Node :=
  match partner with
  | some old => { n with remoteId := old.remoteId }
  | none => n

def stateOf (partner : Option Node) : MatchState := if partner.isSome then .kept else .added

section
variable {partners : List (Option Node)} {new : Menu}

theorem map_partner_seats (ids : IdSupply) (h : partners.length = new.length) :
    (Menu.seats ids partners new).1.map Seat.partner = partners := by
  induction new generalizing ids partners with
  | nil =>
    obtain rfl := List.length_eq_zero_iff.mp h
    rfl
  | cons n ns ih =>
    cases partners with
    | nil => simp at h
    | cons p ps =>
      have length : ps.length = ns.length := by simpa using h
      have rest := ih ids length
      have rest' := ih (n.withFreshIds ids).2 length
      cases p with
      | none => simp [Menu.seats, rest']
      | some old => simp [Menu.seats, rest]

/-- The nodes of the seats are those that hand on ids and then draw fresh ones. -/
theorem assignFresh_eq_seats (ids : IdSupply) (h : partners.length = new.length) :
    Menu.assignFresh ids (partners.map stateOf) (List.zipWith Node.taking partners new) =
      ((Menu.seats ids partners new).1.map Seat.node, (Menu.seats ids partners new).2) := by
  induction new generalizing ids partners with
  | nil =>
    obtain rfl := List.length_eq_zero_iff.mp h
    rfl
  | cons n ns ih =>
    cases partners with
    | nil => simp at h
    | cons p ps =>
      have length : ps.length = ns.length := by simpa using h
      cases p with
      | none =>
        simp only [List.map_cons, List.zipWith_cons_cons, Node.taking, stateOf, Option.isSome_none,
          Bool.false_eq_true, if_false, Menu.assignFresh, Menu.seats]
        rw [ih _ length]
      | some old =>
        simp only [List.map_cons, List.zipWith_cons_cons, Node.taking, stateOf, Option.isSome_some,
          if_true, Menu.assignFresh, Menu.seats]
        rw [ih _ length]

/-- Nodes that take over ids need no other number of fresh ones. -/
theorem freshCount_taking (h : partners.length = new.length) :
    Menu.freshCount (partners.map stateOf) (List.zipWith Node.taking partners new) =
      Menu.freshCount (partners.map stateOf) new := by
  induction new generalizing partners with
  | nil => simp
  | cons n ns ih =>
    cases partners with
    | nil => simp at h
    | cons p ps =>
      have rest := @ih ps (by simpa using h)
      cases p <;> simp [Menu.freshCount, Node.taking, stateOf, rest]

/-- Fresh ids are as many as there are nodes to draw them for, and are drawn in order. -/
theorem seats_fresh (ids : IdSupply) (h : partners.length = new.length) :
    (Menu.seats ids partners new).2 = ids.skip (Menu.freshCount (partners.map stateOf) new) ∧
    Menu.ids (freshNodes (Menu.seats ids partners new).1) =
      (List.range (Menu.freshCount (partners.map stateOf) new)).map ids.nth := by
  induction new generalizing ids partners with
  | nil =>
    obtain rfl := List.length_eq_zero_iff.mp h
    exact ⟨rfl, by simp [Menu.seats, Menu.freshCount]⟩
  | cons n ns ih =>
    cases partners with
    | nil => simp at h
    | cons p ps =>
      have length : ps.length = ns.length := by simpa using h
      cases p with
      | none =>
        obtain ⟨supply, drawn, -, -⟩ := n.withFreshIds_spec ids
        obtain ⟨supply', drawn'⟩ := ih (n.withFreshIds ids).2 length
        rw [supply] at supply' drawn'
        simp only [List.map_cons, stateOf, Option.isSome_none, Bool.false_eq_true, if_false,
          Menu.freshCount, Menu.seats, freshNodes_fresh, Menu.ids_cons]
        rw [supply]
        constructor
        · rw [supply', IdSupply.skip_add]
        · rw [drawn, drawn', List.range_add, List.map_append, List.map_map]
          refine congrArg₂ _ rfl (List.map_congr_left fun k _ => ?_)
          rw [IdSupply.nth_skip, Function.comp_apply]
      | some old =>
        obtain ⟨supply, drawn⟩ := ih ids length
        simp only [List.map_cons, stateOf, Option.isSome_some, if_true, Menu.freshCount, Menu.seats,
          freshNodes_kept]
        exact ⟨supply, drawn⟩

theorem getElem?_seats (ids : IdSupply) (h : partners.length = new.length) (j : Nat) {n : Node}
    (hn : new[j]? = some n) :
    (∃ old, partners[j]? = some (some old) ∧
      (Menu.seats ids partners new).1[j]? = some ⟨some old, { n with remoteId := old.remoteId }⟩) ∨
    (partners[j]? = some none ∧
      ∃ k, (Menu.seats ids partners new).1[j]? = some ⟨none, (n.withFreshIds (ids.skip k)).1⟩) := by
  induction new generalizing ids partners j with
  | nil => simp at hn
  | cons m ns ih =>
    cases partners with
    | nil => simp at h
    | cons p ps =>
      have length : ps.length = ns.length := by simpa using h
      cases j with
      | zero =>
        obtain rfl : m = n := by simpa using hn
        cases p with
        | none => exact .inr ⟨rfl, 0, rfl⟩
        | some old => exact .inl ⟨old, rfl, rfl⟩
      | succ j =>
        have hn' : ns[j]? = some n := by simpa using hn
        cases p with
        | none =>
          have supply := (m.withFreshIds_spec ids).1
          rcases ih (m.withFreshIds ids).2 length j hn' with ⟨old, here, seat⟩ | ⟨here, k, seat⟩
          · exact .inl ⟨old, by simpa using here, by simpa [Menu.seats] using seat⟩
          · refine .inr ⟨by simpa using here, m.walk.length + k, ?_⟩
            rw [IdSupply.skip_add, ← supply]
            simpa [Menu.seats] using seat
        | some old =>
          rcases ih ids length j hn' with ⟨old', here, seat⟩ | ⟨here, k, seat⟩
          · exact .inl ⟨old', by simpa using here, by simpa [Menu.seats] using seat⟩
          · exact .inr ⟨by simpa using here, k, by simpa [Menu.seats] using seat⟩

end

/-! ### Partners -/

section
variable {old new : Menu} {pairs : List (Nat × Nat)}

theorem partnerIn_cons (i j k : Nat) :
    partnerIn old ((i, j) :: pairs) k = if j = k then old[i]? else partnerIn old pairs k := by
  unfold partnerIn
  by_cases h : j = k <;> simp [h]

theorem partnerIn_eq_none {j : Nat} (h : j ∉ pairs.map Prod.snd) : partnerIn old pairs j = none := by
  have found : pairs.find? (·.2 = j) = none := by
    rw [List.find?_eq_none]
    intro p hp same
    exact h (of_decide_eq_true same ▸ List.mem_map_of_mem hp)
  rw [partnerIn, found, Option.bind_none]

theorem partnerIn_of_mem (once : (pairs.map Prod.snd).Nodup) {i j : Nat} (h : (i, j) ∈ pairs) :
    partnerIn old pairs j = old[i]? := by
  induction pairs with
  | nil => simp at h
  | cons p ps ih =>
    obtain ⟨i', j'⟩ := p
    rw [List.map_cons, List.nodup_cons] at once
    rw [partnerIn_cons]
    rcases List.mem_cons.mp h with same | later
    · obtain ⟨rfl, rfl⟩ := Prod.mk.inj same
      rw [if_pos rfl]
    · have member : j ∈ ps.map Prod.snd := List.mem_map_of_mem later
      have other : j' ≠ j := fun same => once.1 (same ▸ member)
      rw [if_neg other]
      exact ih once.2 later

theorem handOn_eq (inside : ∀ p ∈ pairs, p.1 < old.length ∧ p.2 < new.length)
    (once : (pairs.map Prod.snd).Nodup) :
    Matching.handOn old pairs new =
      .ok (List.zipWith Node.taking ((List.range new.length).map (partnerIn old pairs)) new) := by
  induction pairs generalizing new with
  | nil =>
    refine congrArg Except.ok (List.ext_getElem? fun k => ?_)
    rw [List.getElem?_zipWith, List.getElem?_map]
    by_cases h : k < new.length <;> simp [h, partnerIn, Node.taking]
  | cons p ps ih =>
    obtain ⟨i, j⟩ := p
    obtain ⟨hi, hj⟩ := inside (i, j) (List.mem_cons_self ..)
    rw [List.map_cons, List.nodup_cons] at once
    rw [Matching.handOn, List.getElem?_eq_getElem hi, List.getElem?_eq_getElem hj]
    dsimp only
    rw [ih (by simpa using fun a b h => inside (a, b) (List.mem_cons_of_mem _ h)) once.2]
    refine congrArg Except.ok (List.ext_getElem? fun k => ?_)
    rw [List.getElem?_zipWith, List.getElem?_zipWith, List.getElem?_map, List.getElem?_map,
      List.length_set, List.getElem?_set]
    by_cases same : j = k
    · subst same
      simp [partnerIn_cons, partnerIn_eq_none once.1, hi, hj, Node.taking]
    · rw [if_neg same]
      by_cases h : k < new.length <;> simp [h, partnerIn_cons, same]

end

/-! ### Settling ids -/

def Apart (old : Menu) (pairs : List (Nat × Nat)) : Prop :=
  pairs.Pairwise fun p q => ∀ o o', old[p.1]? = some o → old[q.1]? = some o' → o.remoteId ≠ o'.remoteId

namespace Matching.Fits

variable {m : Matching} {old new : Menu}

theorem once (fits : m.Fits (old.map Node.contentKey) (new.map Node.contentKey)) :
    (m.pairs.map Prod.snd).Nodup := by
  have nodup := fits.new_perm.nodup_iff.mpr List.nodup_range
  exact (List.nodup_append.mp nodup).1

theorem inside (fits : m.Fits (old.map Node.contentKey) (new.map Node.contentKey)) {i j : Nat}
    (h : (i, j) ∈ m.pairs) :
    ∃ o n, old[i]? = some o ∧ new[j]? = some n ∧ o.contentKey = n.contentKey := by
  obtain ⟨key, ho, hn⟩ := fits.same (i, j) h
  rw [List.getElem?_map, Option.map_eq_some_iff] at ho hn
  obtain ⟨o, ho, rfl⟩ := ho
  obtain ⟨n, hn, same⟩ := hn
  exact ⟨o, n, ho, hn, same.symm⟩

theorem pair_eq (fits : m.Fits (old.map Node.contentKey) (new.map Node.contentKey))
    (distinct : (old.map (·.remoteId)).Nodup) {p q : Nat × Nat} (hp : p ∈ m.pairs) (hq : q ∈ m.pairs)
    {o o' : Node} (ho : old[p.1]? = some o) (ho' : old[q.1]? = some o') (same : o.remoteId = o'.remoteId) :
    p = q := by
  have once : (m.pairs.map Prod.fst).Nodup :=
    (List.nodup_append.mp (fits.old_perm.nodup_iff.mpr List.nodup_range)).1
  have inside : p.1 < (old.map (·.remoteId)).length := by
    rw [List.length_map]
    exact (List.getElem?_eq_some_iff.mp ho).1
  have index : p.1 = q.1 := by
    refine (List.getElem?_inj inside distinct).mp ?_
    rw [List.getElem?_map, List.getElem?_map, ho, ho', Option.map_some, Option.map_some, same]
  exact List.inj_on_of_nodup_map once hp hq index

theorem apart (fits : m.Fits (old.map Node.contentKey) (new.map Node.contentKey))
    (distinct : (old.map (·.remoteId)).Nodup) : Apart old m.pairs := by
  have once : (m.pairs.map Prod.snd).Nodup := fits.once
  refine once.of_map.imp_of_mem fun {p q} hp hq other o o' ho ho' same => other ?_
  exact fits.pair_eq distinct hp hq ho ho' same

theorem length_partners (fits : m.Fits (old.map Node.contentKey) (new.map Node.contentKey)) :
    (m.partners old).length = new.length := by
  simp [Matching.partners, fits.new_length]

theorem states_eq (fits : m.Fits (old.map Node.contentKey) (new.map Node.contentKey)) :
    m.newStates = (m.partners old).map stateOf := by
  refine List.ext_getElem? fun j => ?_
  rw [Matching.partners, List.map_map, List.getElem?_map]
  by_cases h : j < new.length
  · have length : j < m.newStates.length := by simpa [fits.new_length] using h
    rw [fits.newState j (by simpa using h), List.getElem?_range length, Option.map_some]
    by_cases kept : j ∈ m.pairs.map Prod.snd
    · obtain ⟨⟨i, j⟩, member, rfl⟩ := List.mem_map.mp kept
      obtain ⟨o, n, ho, -⟩ := fits.inside member
      simp [kept, partnerIn_of_mem fits.once member, ho, stateOf]
    · simp only [if_neg kept, Function.comp_apply, partnerIn_eq_none kept]
      rfl
  · have length : m.newStates.length ≤ j := by simpa [fits.new_length] using h
    rw [List.getElem?_eq_none length, List.getElem?_eq_none (by simpa using length)]
    rfl

theorem transferIds_eq (fits : m.Fits (old.map Node.contentKey) (new.map Node.contentKey)) :
    m.transferIds old new =
      .ok (List.zipWith Node.taking (m.partners old) new, m.pairs.length) := by
  have bounds : ∀ p ∈ m.pairs, p.1 < old.length ∧ p.2 < new.length := by
    rintro ⟨i, j⟩ member
    obtain ⟨o, n, ho, hn, -⟩ := fits.inside member
    exact ⟨(List.getElem?_eq_some_iff.mp ho).1, (List.getElem?_eq_some_iff.mp hn).1⟩
  have covers : m.covers old new = .ok () := by
    rw [Matching.covers, if_pos]
    exact ⟨by simpa using fits.old_length, by simpa using fits.new_length⟩
  have handed := handOn_eq bounds fits.once
  have length : m.newStates.length = new.length := by simpa using fits.new_length
  rw [← length] at handed
  rw [Matching.transferIds, covers, fits.keptPairs]
  simp only [Except.mapError, bind, Except.bind, handed, Matching.partners]
  rfl

end Matching.Fits

def Matching.seats (m : Matching) (ids : IdSupply) (old new : Menu) : List Seat :=
  (Menu.seats ids (m.partners old) new).1

def Matching.plan (m : Matching) (ids : IdSupply) (old new : Menu) : LevelPlan where
  old
  new := (m.seats ids old new).map Seat.node
  matching := m
  pairs := m.pairs

theorem Matching.getElem?_plan {m : Matching} {ids : IdSupply} {old new : Menu} {j : Nat} {s : Seat}
    (hs : (m.seats ids old new)[j]? = some s) : (m.plan ids old new).new[j]? = some s.node := by
  rw [Matching.plan, List.getElem?_map, hs]
  rfl

theorem AddOutcome.eq_of_succeeded {adds : AddOutcome} (h : adds.succeeded = true) :
    adds = ⟨true, true⟩ := by
  obtain ⟨created, nested⟩ := adds
  obtain ⟨rfl, rfl⟩ := Bool.and_eq_true_iff.mp h
  rfl

@[simp] theorem stateOf_some (old : Node) : stateOf (some old) = .kept := rfl

@[simp] theorem stateOf_none : stateOf none = .added := rfl

def Seat.shown (adds : AddOutcome) (s : Seat) : Option Node :=
  match s.partner with
  | some old => some (s.node.setChildren old.children)
  | none =>
    if adds.created then some (if adds.nested then s.node else s.node.setChildren []) else none

namespace Matching.Fits

variable {m : Matching} {old new : Menu} {ids : IdSupply}

/-- Ids are settled by asking for the fresh ones. -/
theorem settleIds_eq (fits : m.Fits (old.map Node.contentKey) (new.map Node.contentKey)) :
    Engine.settleIds old new m = do
      let ids : IdSupply ← Engine.ask (.reserve (Menu.freshCount m.newStates new))
      return m.plan ids old new := by
  have count : Menu.freshCount m.newStates (List.zipWith Node.taking (m.partners old) new) =
      Menu.freshCount m.newStates new := by
    rw [fits.states_eq]
    exact freshCount_taking fits.length_partners
  have assigned (ids : IdSupply) := assignFresh_eq_seats ids fits.length_partners
  rw [← fits.states_eq] at assigned
  simp only [Engine.settleIds, fits.transferIds_eq, fits.keptPairs, Except.mapError, Engine.ofTransfer]
  change (do
    let ids : IdSupply ←
      Engine.ask (.reserve (Menu.freshCount m.newStates (List.zipWith Node.taking (m.partners old) new)))
    return ({
      old, matching := m, pairs := m.pairs
      new := (Menu.assignFresh ids m.newStates (List.zipWith Node.taking (m.partners old) new)).1 } :
        LevelPlan)) = _
  rw [count]
  simp only [assigned]
  rfl

theorem meets_settleIds (fits : m.Fits (old.map Node.contentKey) (new.map Node.contentKey))
    {c : Contract} {t : Trace} {now : Progress} {post : Trace → Progress → Except Halt LevelPlan → Prop} :
    (Engine.settleIds old new m).Meets c t now post ↔
      c.asks t now (.reserve (Menu.freshCount m.newStates new)) ∧
      ∀ ids : IdSupply, c.fair t ⟨.reserve (Menu.freshCount m.newStates new), ids⟩ →
        post (t ++ [⟨.reserve (Menu.freshCount m.newStates new), ids⟩]) now (.ok (m.plan ids old new)) := by
  rw [fits.settleIds_eq]
  rfl

theorem length_seats (fits : m.Fits (old.map Node.contentKey) (new.map Node.contentKey)) (ids : IdSupply) :
    (m.seats ids old new).length = new.length := by
  rw [← fits.length_partners, ← map_partner_seats ids fits.length_partners, List.length_map]
  rfl

theorem partner_seat (fits : m.Fits (old.map Node.contentKey) (new.map Node.contentKey)) {j : Nat}
    {s : Seat} (hs : (m.seats ids old new)[j]? = some s) :
    partnerIn old m.pairs j = s.partner ∧ m.newStates[j]? = some (stateOf s.partner) := by
  have partner : (m.partners old)[j]? = some s.partner := by
    rw [← map_partner_seats ids fits.length_partners, List.getElem?_map]
    exact congrArg (Option.map Seat.partner) hs
  constructor
  · rw [Matching.partners, List.getElem?_map, Option.map_eq_some_iff] at partner
    obtain ⟨j', here, partner⟩ := partner
    rw [List.getElem?_eq_some_iff] at here
    obtain ⟨bound, here⟩ := here
    rw [List.getElem_range] at here
    rw [here]
    exact partner
  · rw [fits.states_eq, List.getElem?_map, partner]
    rfl

theorem seat_of_pair (fits : m.Fits (old.map Node.contentKey) (new.map Node.contentKey)) (ids : IdSupply)
    {i j : Nat} (h : (i, j) ∈ m.pairs) :
    ∃ o n, old[i]? = some o ∧ new[j]? = some n ∧ o.contentKey = n.contentKey ∧
      (m.seats ids old new)[j]? = some ⟨some o, { n with remoteId := o.remoteId }⟩ := by
  obtain ⟨o, n, ho, hn, same⟩ := fits.inside h
  refine ⟨o, n, ho, hn, same, ?_⟩
  have partner : partnerIn old m.pairs j = old[i]? := partnerIn_of_mem fits.once h
  rcases getElem?_seats ids fits.length_partners j hn with ⟨o', -, seat⟩ | ⟨-, k, seat⟩
  · have own := (fits.partner_seat seat).1
    rw [partner, ho] at own
    obtain rfl : o = o' := Option.some.inj own
    exact seat
  · have own := (fits.partner_seat seat).1
    rw [partner, ho] at own
    cases own

/-- The seat of a new node is that of a kept pair, or of a fresh node. -/
theorem seat_at (fits : m.Fits (old.map Node.contentKey) (new.map Node.contentKey)) (ids : IdSupply)
    {j : Nat} {n : Node} (hn : new[j]? = some n) :
    (∃ i o, (i, j) ∈ m.pairs ∧ old[i]? = some o ∧ o.contentKey = n.contentKey ∧
      (m.seats ids old new)[j]? = some ⟨some o, { n with remoteId := o.remoteId }⟩) ∨
    (j ∉ m.pairs.map Prod.snd ∧
      ∃ k, (m.seats ids old new)[j]? = some ⟨none, (n.withFreshIds (ids.skip k)).1⟩) := by
  by_cases kept : j ∈ m.pairs.map Prod.snd
  · obtain ⟨⟨i, j⟩, member, rfl⟩ := List.mem_map.mp kept
    obtain ⟨o, n', ho, hn', same, seat⟩ := fits.seat_of_pair ids member
    obtain rfl := Option.some.inj (hn.symm.trans hn')
    exact .inl ⟨i, o, member, ho, same, seat⟩
  · rcases getElem?_seats ids fits.length_partners j hn with ⟨o, -, seat⟩ | ⟨-, k, seat⟩
    · have own := (fits.partner_seat seat).1
      rw [partnerIn_eq_none kept] at own
      cases own
    · exact .inr ⟨kept, k, seat⟩

/-- Settling ids changes nothing but ids. -/
theorem bare_plan (fits : m.Fits (old.map Node.contentKey) (new.map Node.contentKey)) (ids : IdSupply) :
    (m.plan ids old new).new.bare = new.bare := by
  rw [Menu.bare_eq_map, Menu.bare_eq_map]
  refine List.ext_getElem? fun j => ?_
  rw [List.getElem?_map, List.getElem?_map]
  cases hn : new[j]? with
  | none =>
    rw [List.getElem?_eq_none_iff] at hn
    rw [Matching.plan, List.getElem?_eq_none]
    rw [List.length_map, fits.length_seats]
    exact hn
  | some n =>
    rcases fits.seat_at ids hn with ⟨i, o, -, -, -, seat⟩ | ⟨-, k, seat⟩
    · rw [Matching.getElem?_plan seat, Option.map_some, Option.map_some, Node.bare_eq, Node.bare_eq n]
    · rw [Matching.getElem?_plan seat, Option.map_some, Option.map_some, Node.bare_withFreshIds]

theorem kept_index (fits : m.Fits (old.map Node.contentKey) (new.map Node.contentKey)) {j : Nat} {s : Seat}
    (hs : (m.seats ids old new)[j]? = some s) (kept : s.partner.isSome = true) :
    j ∈ m.pairs.map Prod.snd := by
  by_contra free
  have own := (fits.partner_seat hs).1
  rw [partnerIn_eq_none free] at own
  rw [← own] at kept
  cases kept

theorem seat_cases (fits : m.Fits (old.map Node.contentKey) (new.map Node.contentKey)) {s : Seat}
    (hs : s ∈ m.seats ids old new) : ∃ n ∈ new,
      (∃ o ∈ old, o.contentKey = n.contentKey ∧ s = ⟨some o, { n with remoteId := o.remoteId }⟩) ∨
      ∃ k, s = ⟨none, (n.withFreshIds (ids.skip k)).1⟩ := by
  obtain ⟨j, hj⟩ := List.getElem?_of_mem hs
  have bound : j < new.length := by
    rw [← fits.length_seats ids]
    exact (List.getElem?_eq_some_iff.mp hj).1
  refine ⟨new[j], List.getElem_mem bound, ?_⟩
  rcases fits.seat_at ids (List.getElem?_eq_getElem bound) with
    ⟨i, o, -, ho, same, seat⟩ | ⟨-, k, seat⟩
  · exact .inl ⟨o, List.mem_of_getElem? ho, same, Option.some.inj (hj.symm.trans seat)⟩
  · exact .inr ⟨k, Option.some.inj (hj.symm.trans seat)⟩

theorem old_perm_seats (fits : m.Fits (old.map Node.contentKey) (new.map Node.contentKey)) (ids : IdSupply) :
    old.Perm ((m.seats ids old new).filterMap Seat.partner ++ (m.plan ids old new).removed) := by
  have seated : (m.seats ids old new).filterMap Seat.partner =
      (List.range new.length).filterMap (partnerIn old m.pairs) := by
    have partners : (m.seats ids old new).filterMap Seat.partner = (m.partners old).filterMap id := by
      rw [← map_partner_seats ids fits.length_partners, List.filterMap_map]
      rfl
    have length : m.newStates.length = new.length := by simpa using fits.new_length
    rw [partners, Matching.partners, List.filterMap_map, length]
    rfl
  have kept : (m.pairs.map Prod.fst).filterMap (old[·]?) =
      (m.pairs.map Prod.snd).filterMap (partnerIn old m.pairs) := by
    rw [List.filterMap_map, List.filterMap_map]
    refine List.filterMap_congr fun p hp => ?_
    exact (partnerIn_of_mem fits.once hp).symm
  have fresh : m.added.filterMap (partnerIn old m.pairs) = [] := by
    rw [List.filterMap_eq_nil_iff]
    intro j hj
    have apart := List.nodup_append.mp (fits.new_perm.nodup_iff.mpr List.nodup_range)
    exact partnerIn_eq_none fun kept => apart.2.2 j kept j hj rfl
  have olds := (fits.old_perm.symm.filterMap (old[·]?))
  have news := (fits.new_perm.symm.filterMap (partnerIn old m.pairs))
  rw [List.filterMap_append, List.length_map] at olds news
  rw [kept, filterMap_range_getElem?] at olds
  rw [fresh, List.append_nil, ← seated] at news
  exact olds.trans (news.symm.append_right _)

theorem mem_of_removed (fits : m.Fits (old.map Node.contentKey) (new.map Node.contentKey)) {gone : Node}
    (h : gone ∈ (m.plan ids old new).removed) : gone ∈ old :=
  (fits.old_perm_seats ids).mem_iff.mpr (List.mem_append_right _ h)

/-- No kept node has the id of one that has to go. -/
theorem remoteId_ne_removed (fits : m.Fits (old.map Node.contentKey) (new.map Node.contentKey))
    (distinct : old.ids.Nodup) {i j : Nat} {o gone : Node} (pair : (i, j) ∈ m.pairs) (ho : old[i]? = some o)
    (h : gone ∈ (m.plan ids old new).removed) : o.remoteId ≠ gone.remoteId := by
  obtain ⟨o', n, ho', -, -, seat⟩ := fits.seat_of_pair ids pair
  obtain rfl := Option.some.inj (ho.symm.trans ho')
  have row := (fits.old_perm_seats ids).map (·.remoteId) |>.nodup_iff.mp ((Menu.row_sublist old).nodup distinct)
  rw [List.map_append] at row
  have partner : o ∈ (m.seats ids old new).filterMap Seat.partner :=
    List.mem_filterMap.mpr ⟨_, List.mem_of_getElem? seat, rfl⟩
  exact (List.nodup_append.mp row).2.2 _ (List.mem_map_of_mem partner) _ (List.mem_map_of_mem h)

theorem ids_freshNodes (fits : m.Fits (old.map Node.contentKey) (new.map Node.contentKey)) (ids : IdSupply) :
    Menu.ids (freshNodes (m.seats ids old new)) =
      (List.range (Menu.freshCount m.newStates new)).map ids.nth := by
  rw [fits.states_eq]
  exact (seats_fresh ids fits.length_partners).2

/-- What is left of the old nodes without those that have to go. -/
theorem stay_perm_seats (fits : m.Fits (old.map Node.contentKey) (new.map Node.contentKey)) (ids : IdSupply)
    (distinct : (old.map (·.remoteId)).Nodup) :
    (old.filter fun n => !((m.plan ids old new).removed.any fun gone => gone.remoteId = n.remoteId)).Perm
      ((m.seats ids old new).filterMap Seat.partner) := by
  have olds := fits.old_perm_seats ids
  have apart := (olds.map (·.remoteId)).nodup_iff.mp distinct
  rw [List.map_append] at apart
  refine (olds.filter _).trans (List.Perm.of_eq ?_)
  rw [List.filter_append, List.filter_eq_self.mpr, List.filter_eq_nil_iff.mpr, List.append_nil]
  · intro n hn
    simpa using ⟨n, hn, rfl⟩
  · intro n hn
    simp only [Bool.not_eq_true', List.any_eq_false, decide_eq_true_eq]
    intro gone hgone same
    exact (List.nodup_append.mp apart).2.2 _ (List.mem_map_of_mem hn) _ (List.mem_map_of_mem hgone) same.symm

theorem fresh_eq (fits : m.Fits (old.map Node.contentKey) (new.map Node.contentKey)) (ids : IdSupply) :
    (m.plan ids old new).added.filterMap ((m.plan ids old new).new[·]?) =
      freshNodes (m.seats ids old new) := by
  have filtered : freshNodes (m.seats ids old new) = (m.seats ids old new).filterMap fun s =>
      if s.partner.isNone then some s.node else none := by
    rw [freshNodes, ← List.filterMap_eq_map, ← List.filterMap_eq_filter, List.filterMap_filterMap]
    refine List.filterMap_congr fun s _ => ?_
    cases partner : s.partner <;> simp [Option.guard, partner]
  have length : m.newStates.length = new.length := by simpa using fits.new_length
  have states : (m.plan ids old new).added =
      (List.range new.length).filterMap fun j => Option.guard (m.newStates[·]? = some .added) j := by
    rw [LevelPlan.added, Matching.plan, Matching.added, MatchState.indices_eq_filter,
      ← List.filterMap_eq_filter, length]
  rw [filtered, states, List.filterMap_filterMap, filterMap_eq_range _ (m.seats ids old new),
    fits.length_seats]
  refine List.filterMap_congr fun j hj => ?_
  have bound : j < (m.seats ids old new).length := by
    rw [fits.length_seats]
    exact List.mem_range.mp hj
  have here := List.getElem?_eq_getElem bound
  have state := (fits.partner_seat here).2
  have node : (m.plan ids old new).new[j]? = some (m.seats ids old new)[j].node := by
    rw [Matching.plan, List.getElem?_map, here, Option.map_some]
  rw [here, Option.bind_some]
  cases partner : (m.seats ids old new)[j].partner <;> rw [partner] at state <;>
    simp [Option.guard, state, node]

theorem freshCount_eq_zero (fits : m.Fits (old.map Node.contentKey) (new.map Node.contentKey)) (none : m.added = []) :
    Menu.freshCount m.newStates new = 0 := by
  have nobody : (m.plan default old new).added = [] := none
  have own := fits.ids_freshNodes default
  rw [← fits.fresh_eq, nobody] at own
  simpa using (congrArg List.length own).symm

/-- What is committed after the batches of a level, by its seats. -/
theorem committed_eq (fits : m.Fits (old.map Node.contentKey) (new.map Node.contentKey))
    (removedOk : Bool) (adds : AddOutcome) :
    (m.plan ids old new).committed removedOk adds =
      (m.seats ids old new).filterMap (Seat.shown adds) ++
        if removedOk then [] else (m.plan ids old new).removed := by
  rw [LevelPlan.committed]
  refine congrArg (· ++ _) ?_
  rw [filterMap_zipIdx, filterMap_eq_range (Seat.shown adds), Matching.plan, List.length_map]
  refine List.filterMap_congr fun j hj => ?_
  have bound : j < (m.seats ids old new).length := List.mem_range.mp hj
  have here := List.getElem?_eq_getElem bound
  have ⟨partner, state⟩ := fits.partner_seat here
  rw [List.getElem?_map, here, Option.map_some, Option.bind_some, Option.bind_some]
  unfold LevelPlan.shown LevelPlan.partner?
  unfold partnerIn at partner
  dsimp only
  rw [partner, state, Seat.shown]
  cases (m.seats ids old new)[j].partner <;> rfl

/-- Of the nodes of a level, none but a kept one itself has the id of its partner, if the fresh ids are
not among those that were there. -/
theorem first_seat (fits : m.Fits (old.map Node.contentKey) (new.map Node.contentKey))
    (distinct : old.ids.Nodup) {taken : List RemoteId} (known : ∀ id ∈ old.ids, id ∈ taken)
    (free : ∀ id ∈ Menu.ids (freshNodes (m.seats ids old new)), id ∉ taken) {i j k : Nat} {o : Node}
    {s : Seat} (pair : (i, j) ∈ m.pairs) (ho : old[i]? = some o) (other : k ≠ j)
    (hs : (m.seats ids old new)[k]? = some s) : s.node.remoteId ≠ o.remoteId := by
  have inside : k < new.length := by
    rw [← fits.length_seats ids]
    exact (List.getElem?_eq_some_iff.mp hs).1
  rcases fits.seat_at ids (List.getElem?_eq_getElem inside) with
    ⟨i', o', pair', ho', -, seat⟩ | ⟨-, l, seat⟩
  · obtain rfl := Option.some.inj (hs.symm.trans seat)
    intro same
    have row := (Menu.row_sublist old).nodup distinct
    exact other (congrArg Prod.snd (fits.pair_eq row pair' pair ho' ho same))
  · have fresh : s.node ∈ freshNodes (m.seats ids old new) := by
      refine List.mem_map_of_mem (List.mem_filter.mpr ⟨List.mem_of_getElem? hs, ?_⟩)
      obtain rfl := Option.some.inj (hs.symm.trans seat)
      rfl
    intro same
    refine free s.node.remoteId ((Menu.ids_sublist fresh).subset s.node.remoteId_mem_ids) ?_
    rw [same]
    exact known _ ((Menu.ids_sublist (List.mem_of_getElem? ho)).subset o.remoteId_mem_ids)

theorem free (fits : m.Fits (old.map Node.contentKey) (new.map Node.contentKey)) {start : IdSupply}
    {taken : List RemoteId} {drawn : Nat}
    (apart : ∀ k < drawn + Menu.freshCount m.newStates new, start.nth k ∉ taken) :
    ∀ id ∈ Menu.ids (freshNodes (m.seats (start.skip drawn) old new)), id ∉ taken := by
  rw [fits.ids_freshNodes]
  intro id member
  obtain ⟨k, hk, rfl⟩ := List.mem_map.mp member
  have bound := List.mem_range.mp hk
  rw [IdSupply.nth_skip]
  exact apart _ (by omega)

end Matching.Fits

end RemoteMenu
