import RemoteMenu.Proofs.Menu.FreshIds

/-!
# Menus without their ids

`Menu.bare` is all that a menu says apart from the ids: two menus with the same bare one differ in
nothing else (`Node.renders_of_bare_eq`). A node that has children is a submenu whether it is marked as
an empty one or not, so a bare one is not marked.
-/

namespace RemoteMenu

mutual

/-- A node and all below it without ids. -/
def Node.bare : Node → Node
  | ⟨entry, children, emptySubmenu, disambiguator, _⟩ =>
    ⟨entry, Menu.bare children, emptySubmenu && children.isEmpty, disambiguator, .unset⟩

def Menu.bare : Menu → Menu
  | [] => []
  | n :: ns => n.bare :: Menu.bare ns

end

/-- Whether a node is of the kind of another one and has all its fields, apart from the id and from what
is below it. -/
structure Node.Renders (k n : Node) : Prop where
  entry : k.entry = n.entry
  disambiguator : k.disambiguator = n.disambiguator
  isSubmenu : k.isSubmenu = n.isSubmenu

@[simp] theorem Menu.bare_nil : Menu.bare [] = [] := by rw [Menu.bare]

@[simp] theorem Menu.bare_cons (n : Node) (ns : Menu) : Menu.bare (n :: ns) = n.bare :: Menu.bare ns := by
  rw [Menu.bare]

theorem Menu.bare_eq_map (menu : Menu) : menu.bare = menu.map Node.bare := by
  induction menu with
  | nil => simp
  | cons n ns ih => rw [Menu.bare_cons, ih, List.map_cons]

theorem Menu.bare_append (a b : Menu) : Menu.bare (a ++ b) = a.bare ++ b.bare := by
  rw [Menu.bare_eq_map, Menu.bare_eq_map, Menu.bare_eq_map, List.map_append]

@[simp] theorem Menu.isEmpty_bare (menu : Menu) : menu.bare.isEmpty = menu.isEmpty := by
  cases menu <;> simp

theorem Node.bare_eq (n : Node) : n.bare =
    { n with children := Menu.bare n.children, emptySubmenu := n.emptySubmenu && n.children.isEmpty,
             remoteId := .unset } := by
  cases n
  rw [Node.bare]

@[simp] theorem Node.isSubmenu_bare (n : Node) : n.bare.isSubmenu = n.isSubmenu := by
  rw [Node.bare_eq, Node.isSubmenu, Node.isSubmenu, Menu.isEmpty_bare]
  cases n.emptySubmenu <;> cases n.children.isEmpty <;> rfl

@[simp] theorem Node.entry_bare (n : Node) : n.bare.entry = n.entry := by rw [Node.bare_eq]

@[simp] theorem Node.disambiguator_bare (n : Node) : n.bare.disambiguator = n.disambiguator := by
  rw [Node.bare_eq]

@[simp] theorem Node.displayTitle_bare (n : Node) : n.bare.displayTitle = n.displayTitle := by
  rw [displayTitle, displayTitle, entry_bare, disambiguator_bare]

theorem Node.renders_of_bare_eq {k n : Node} (h : k.bare = n.bare) : k.Renders n := by
  have entry := congrArg Node.entry h
  have number := congrArg Node.disambiguator h
  have kind := congrArg Node.isSubmenu h
  simp only [entry_bare, disambiguator_bare, isSubmenu_bare] at entry number kind
  exact ⟨entry, number, kind⟩

theorem Node.bare_setChildren {n : Node} {children : Menu} (h : children.bare = Menu.bare n.children) :
    (n.setChildren children).bare = n.bare := by
  have empty := congrArg List.isEmpty h
  rw [Menu.isEmpty_bare, Menu.isEmpty_bare] at empty
  rw [Node.bare_eq, Node.bare_eq n, Node.setChildren, h, Node.isSubmenu, empty]
  cases n.emptySubmenu <;> cases n.children.isEmpty <;> rfl

/-! ### Walking -/

mutual

theorem Node.walk_bare : (n : Node) → n.bare.walk = n.walk.map Node.bare
  | ⟨entry, children, emptySubmenu, disambiguator, remoteId⟩ => by
    rw [Node.walk_eq, Node.walk_eq, List.map_cons, Node.bare]
    rw [Menu.walk_bare children]

theorem Menu.walk_bare : (menu : Menu) → menu.bare.walk = menu.walk.map Node.bare
  | [] => by rw [Menu.bare, Menu.walk, List.map_nil]
  | n :: ns => by
    rw [Menu.bare, Menu.walk, Menu.walk, List.map_append, n.walk_bare, Menu.walk_bare ns]

end

/-- Nodes that differ in nothing but ids have the same below them, each node at its place. -/
theorem Node.zip_walk {k n : Node} (h : k.bare = n.bare) :
    k.walk.length = n.walk.length ∧ ∀ p ∈ n.walk.zip k.walk, p.2.Renders p.1 := by
  have walks := congrArg Node.walk h
  rw [Node.walk_bare, Node.walk_bare] at walks
  have length := congrArg List.length walks
  rw [List.length_map, List.length_map] at length
  refine ⟨length, fun p hp => renders_of_bare_eq ?_⟩
  obtain ⟨i, hi⟩ := List.getElem?_of_mem hp
  obtain ⟨hn, hk⟩ := List.getElem?_zip_eq_some.mp hi
  have there := congrArg (·[i]?) walks
  rw [List.getElem?_map, List.getElem?_map, hn, hk] at there
  exact Option.some.inj there

mutual

theorem Node.bare_withFreshIds (ids : IdSupply) : (n : Node) → (n.withFreshIds ids).1.bare = n.bare
  | ⟨entry, children, emptySubmenu, disambiguator, remoteId⟩ => by
    have below := Menu.bare_withFreshIds ids.draw.2 children
    have empty := (Menu.withFreshIds_spec ids.draw.2 children).2.2.2
    rw [Node.withFreshIds, Node.bare, Node.bare, below, empty]

theorem Menu.bare_withFreshIds (ids : IdSupply) : (menu : Menu) →
    (menu.withFreshIds ids).1.bare = menu.bare
  | [] => by rw [Menu.withFreshIds]
  | n :: ns => by
    rw [Menu.withFreshIds, Menu.bare_cons, Menu.bare_cons, n.bare_withFreshIds ids,
      Menu.bare_withFreshIds _ ns]

end

end RemoteMenu
