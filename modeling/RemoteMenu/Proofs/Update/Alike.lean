import RemoteMenu.Proofs.Update.Unchanged

/-!
# Menus that differ in ids and marks

A menu that differs from its target in nothing but ids is unchanged (`Menu.unchanged_of_bare`). Every new node is then
kept for the old one at its index (`Matching.seat_self`), so a level is put back as it was, up to the marks of submenus
that have children (`Matching.plain_committed`).
-/

namespace RemoteMenu

open Engine

/-! ### Marks of submenus -/

mutual

/-- A node without the marks of submenus that have children. -/
def Node.plain : Node → Node
  | ⟨entry, children, emptySubmenu, disambiguator, remoteId⟩ =>
    ⟨entry, Menu.plain children, emptySubmenu && children.isEmpty, disambiguator, remoteId⟩

def Menu.plain : Menu → Menu
  | [] => []
  | n :: ns => n.plain :: Menu.plain ns

end

theorem Node.plain_eq (n : Node) : n.plain =
    { n with children := Menu.plain n.children, emptySubmenu := n.emptySubmenu && n.children.isEmpty } := by
  cases n
  rw [Node.plain]

@[simp] theorem Menu.plain_nil : Menu.plain [] = [] := by rw [Menu.plain]

@[simp] theorem Menu.plain_cons (n : Node) (ns : Menu) : Menu.plain (n :: ns) = n.plain :: Menu.plain ns := by
  rw [Menu.plain]

theorem Menu.plain_append (a b : Menu) : Menu.plain (a ++ b) = a.plain ++ b.plain := by
  induction a with
  | nil => rw [Menu.plain_nil, List.nil_append, List.nil_append]
  | cons n ns ih => rw [List.cons_append, Menu.plain_cons, Menu.plain_cons, ih, List.cons_append]

@[simp] theorem Menu.length_plain (menu : Menu) : menu.plain.length = menu.length := by
  induction menu with
  | nil => rw [Menu.plain_nil]
  | cons n ns ih => rw [Menu.plain_cons, List.length_cons, List.length_cons, ih]

@[simp] theorem Menu.isEmpty_plain (menu : Menu) : menu.plain.isEmpty = menu.isEmpty := by
  cases menu <;> simp

/-- A node that has taken an id and children of its like is the one that it has them from. -/
theorem Node.plain_setChildren {o n : Node} (same : o.bare = n.bare) {children : Menu}
    (below : children.plain = Menu.plain o.children) :
    (Node.setChildren { n with remoteId := o.remoteId } children).plain = o.plain := by
  have empty := congrArg List.isEmpty below
  rw [Menu.isEmpty_plain, Menu.isEmpty_plain] at empty
  obtain ⟨entry, number, kind⟩ := Node.renders_of_bare_eq same
  have mark : (n.isSubmenu && children.isEmpty) = (o.emptySubmenu && o.children.isEmpty) := by
    rw [← kind, empty, Node.isSubmenu]
    cases o.emptySubmenu <;> cases o.children.isEmpty <;> rfl
  rw [Node.plain_eq, Node.plain_eq o, Node.setChildren]
  change Node.mk n.entry children.plain ((n.isSubmenu && children.isEmpty) && children.isEmpty) n.disambiguator _ = _
  rw [below, mark, empty, entry, number, Bool.and_assoc, Bool.and_self]

/-! ### Levels with nothing to do -/

theorem Node.contentKey_bare (n : Node) : n.bare.contentKey = n.contentKey := by
  rw [contentKey, contentKey, fingerprint, fingerprint, entry_bare, isSubmenu_bare]

theorem Menu.contentKeys_eq {old new : Menu} (same : old.bare = new.bare) :
    old.map Node.contentKey = new.map Node.contentKey := by
  have keys (menu : Menu) : menu.bare.map Node.contentKey = menu.map Node.contentKey := by
    rw [Menu.bare_eq_map, List.map_map]
    exact List.map_congr_left fun n _ => n.contentKey_bare
  rw [← keys old, same, keys new]

theorem Node.bare_children {o n : Node} (same : o.bare = n.bare) : Menu.bare o.children = Menu.bare n.children := by
  have children := congrArg Node.children same
  rwa [Node.bare_eq, Node.bare_eq] at children

section
variable {old new : Menu} {m : Matching}

theorem Menu.bare_of_getElem? (same : old.bare = new.bare) {i : Nat} {o n : Node} (ho : old[i]? = some o)
    (hn : new[i]? = some n) : o.bare = n.bare := by
  have there := congrArg (·[i]?) same
  simp only [Menu.bare_eq_map, List.getElem?_map, ho, hn] at there
  exact Option.some.inj there

theorem Matching.bare_of_pair (same : old.bare = new.bare) (found : Matching.ofMenus old new = some m) {i j : Nat}
    (pair : (i, j) ∈ m.pairs) {o n : Node} (ho : old[i]? = some o) (hn : new[j]? = some n) : o.bare = n.bare := by
  rw [Matching.ofMenus, Menu.contentKeys_eq same] at found
  obtain ⟨rfl, -⟩ := (Matching.mem_pairs_self_iff found).mp pair
  exact Menu.bare_of_getElem? same ho hn

/-- Every new node is kept for the old one at its index. -/
theorem Matching.seat_self (same : old.bare = new.bare) (found : Matching.ofMenus old new = some m) (ids : IdSupply)
    {j : Nat} {o n : Node} (ho : old[j]? = some o) (hn : new[j]? = some n) :
    (j, j) ∈ m.pairs ∧ (m.seats ids old new)[j]? = some ⟨some o, { n with remoteId := o.remoteId }⟩ := by
  have pair : (j, j) ∈ m.pairs := by
    rw [Matching.ofMenus, Menu.contentKeys_eq same] at found
    refine (Matching.mem_pairs_self_iff found).mpr ⟨rfl, ?_⟩
    rw [List.length_map]
    exact (List.getElem?_eq_some_iff.mp hn).1
  obtain ⟨o', n', ho', hn', -, seat⟩ := (Matching.fits_of_ofKeys found).seat_of_pair ids pair
  obtain rfl := Option.some.inj (ho.symm.trans ho')
  obtain rfl := Option.some.inj (hn.symm.trans hn')
  exact ⟨pair, seat⟩

end

theorem Menu.length_eq_of_bare {old new : Menu} (same : old.bare = new.bare) : old.length = new.length := by
  have lengths := congrArg List.length same
  rwa [Menu.bare_eq_map, Menu.bare_eq_map, List.length_map, List.length_map] at lengths

theorem Menu.unchanged_of_bare {old new : Menu} (same : old.bare = new.bare) : Unchanged old new := by
  intro old' new' levels
  induction levels with
  | top =>
    rw [Menu.contentKeys_eq same]
  | under rank _ _ ih =>
    obtain ⟨m, i, j, found, pair, ho, hn⟩ := rank.exists_pair
    apply ih
    exact Node.bare_children (Matching.bare_of_pair same found pair ho hn)

/-! ### What such levels come to -/

theorem Seat.plain_reached {adds : AddOutcome} {below : Reached} {o n : Node} (same : o.bare = n.bare)
    (inner : below.menu.plain = Menu.plain o.children) :
    (Seat.reached adds below n ⟨some o, { n with remoteId := o.remoteId }⟩).menu.plain = Menu.plain [o] := by
  have kind := (Node.renders_of_bare_eq same).isSubmenu
  change Menu.plain [(Node.setChildren _ _).setChildren _] = _
  rw [Menu.plain_cons, Menu.plain_cons, Menu.plain_nil, Node.setChildren_setChildren,
    Node.plain_setChildren same inner]
  change n.isSubmenu = true ∨ o.children = []
  rw [← kind, Node.isSubmenu]
  cases o.children <;> simp

theorem plain_gather {adds : AddOutcome} {below : Nat → Reached} {old new : Menu} {seats : List Seat} (j : Nat)
    (length : old.length = new.length) (length' : seats.length = new.length)
    (each : ∀ (k : Nat) (o n : Node) (s : Seat), old[k]? = some o → new[k]? = some n → seats[k]? = some s →
      (s.reached adds (below (j + k)) n).menu.plain = Menu.plain [o]) :
    (gather adds below j new seats).menu.plain = old.plain := by
  induction old generalizing j new seats with
  | nil =>
    obtain rfl := List.length_eq_zero_iff.mp length.symm
    rw [Menu.plain_nil]
    cases seats <;> rw [gather, Menu.plain_nil] <;> simp
  | cons o old ih =>
    cases new with
    | nil => cases length
    | cons n new =>
      cases seats with
      | nil => cases length'
      | cons s seats =>
        have rest := ih (j + 1) (Nat.succ.inj length) (Nat.succ.inj length') fun k o' n' s' ho hn hs => by
          have there := each (k + 1) o' n' s' (by simpa using ho) (by simpa using hn) (by simpa using hs)
          rwa [← Nat.add_assoc, Nat.add_right_comm] at there
        have first := each 0 o n s rfl rfl rfl
        rw [Nat.add_zero] at first
        rw [gather, Reached.menu_append, Menu.plain_append, first, rest, ← Menu.plain_append]
        rfl

theorem Matching.plain_committed {old new : Menu} {m : Matching} (same : old.bare = new.bare)
    (found : Matching.ofMenus old new = some m) (ids : IdSupply) :
    ((m.plan ids old new).committed true ⟨true, true⟩).plain = old.plain := by
  have fits := Matching.fits_of_ofKeys found
  rw [fits.committed_eq_gather, if_pos rfl, List.append_nil]
  refine plain_gather 0 (Menu.length_eq_of_bare same) (fits.length_seats ids) fun j o n s ho hn hs => ?_
  obtain ⟨-, own⟩ := Matching.seat_self same found ids ho hn
  obtain rfl := Option.some.inj (hs.symm.trans own)
  refine Seat.plain_reached (Menu.bare_of_getElem? same ho hn) ?_
  rw [Nat.zero_add, untouched_of_partner hs rfl]

end RemoteMenu
