import RemoteMenu.Proofs.Menu.Context
import RemoteMenu.Update.Reconcile

/-!
# Levels by position

A path of ids leads to one position at most, as the first sibling with an id is meant. Reading a level and replacing
one both go by that position (`Menu.level?_eq`, `Menu.replaceLevel_eq`), so they agree about every path. What becomes of
a menu in which a level is replaced is told position by position (`Menu.Rewritten`, `Menu.replaceLevel_lens`).
-/

namespace RemoteMenu

/-- Where a node stands: the indices that lead to it, outermost first. -/
abbrev Position := List Nat

/-! ### Nodes and levels at positions -/

/-- The node at a position below a node. At the empty position it is that node itself. -/
def Node.at? (n : Node) : Position → Option Node
  | [] => some n
  | i :: p => n.children[i]?.bind (·.at? p)

def Node.put (level : Menu) : Position → Node → Node
  | [], n => n.setChildren level
  | i :: p, n => { n with children := n.children.modify i (put level p) }

namespace Menu

/-- The node at a position of a menu. At the empty position there is none. -/
def at? (menu : Menu) : Position → Option Node
  | [] => none
  | i :: p => menu[i]?.bind (·.at? p)

/-- The level below a position; the menu itself is below the empty one. -/
def levelAt? (menu : Menu) : Position → Option Menu
  | [] => some menu
  | i :: p => (menu.at? (i :: p)).map (·.children)

def put (level : Menu) : Position → Menu → Menu
  | [], _ => level
  | i :: p, menu => menu.modify i (Node.put level p)

/-- The position of the node that the last id of a path means, the first sibling with an id being meant each time. -/
def position? (menu : Menu) : Path → Option Position
  | [] => some []
  | id :: path =>
    (menu.findIdx? (·.remoteId = id)).bind fun i =>
      menu[i]?.bind fun n => (position? n.children path).map (i :: ·)

end Menu

/-! ### Nodes with other children -/

/-- Whether two nodes have the same id, are of the same kind and match. -/
structure Node.Same (n m : Node) : Prop where
  remoteId : m.remoteId = n.remoteId
  isSubmenu : m.isSubmenu = n.isSubmenu
  contentKey : m.contentKey = n.contentKey

theorem Node.same_of_kind {n m : Node} (id : m.remoteId = n.remoteId) (entry : m.entry = n.entry)
    (kind : m.isSubmenu = n.isSubmenu) : n.Same m :=
  ⟨id, kind, by rw [contentKey, contentKey, fingerprint, fingerprint, entry, kind]⟩

theorem Node.same_setChildren {n : Node} {level : Menu} (h : n.isSubmenu = true ∨ level = []) :
    n.Same (n.setChildren level) :=
  same_of_kind rfl rfl (n.isSubmenu_setChildren level h)

theorem Node.same_of_isEmpty {n : Node} {children : Menu} (h : children.isEmpty = n.children.isEmpty) :
    n.Same { n with children } :=
  same_of_kind rfl rfl (by rw [isSubmenu, isSubmenu, h])

theorem Node.setChildren_children {n : Node} (h : n.emptySubmenu = true → n.children = []) :
    n.setChildren n.children = n := by
  obtain ⟨entry, children, emptySubmenu, disambiguator, remoteId⟩ := n
  cases emptySubmenu <;> cases children <;> simp_all [setChildren, isSubmenu]

/-! ### Putting a level at a position -/

theorem Menu.modify_congr {menu : Menu} {i : Nat} {f g : Node → Node} (h : ∀ n, menu[i]? = some n → f n = g n) :
    menu.modify i f = menu.modify i g := by
  rw [List.modify_eq_set_getElem?, List.modify_eq_set_getElem?]
  cases here : menu[i]? with
  | none => rfl
  | some n => exact congrArg (menu.set i) (h n here)

theorem Menu.findIdx?_modify {f : Node → Node} (h : ∀ n, (f n).remoteId = n.remoteId) (menu : Menu) (i : Nat)
    (id : RemoteId) : (menu.modify i f).findIdx? (·.remoteId = id) = menu.findIdx? (·.remoteId = id) := by
  induction menu generalizing i with
  | nil => rw [List.modify_nil]
  | cons m ms ih =>
    cases i with
    | zero => rw [List.modify_zero_cons, List.findIdx?_cons, List.findIdx?_cons, h]
    | succ i => rw [List.modify_succ_cons, List.findIdx?_cons, List.findIdx?_cons, ih]

theorem Menu.isEmpty_put_cons (level : Menu) (i : Nat) (p : Position) (menu : Menu) :
    (Menu.put level (i :: p) menu).isEmpty = menu.isEmpty := by
  rw [Menu.put]
  cases menu <;> cases i <;> rfl

theorem Menu.at?_put_cons (level menu : Menu) (i : Nat) (p q : Position) :
    (Menu.put level (i :: p) menu).at? (i :: q) = menu[i]?.bind fun n => (n.put level p).at? q := by
  rw [Menu.put, Menu.at?, List.getElem?_modify_eq]
  cases menu[i]? <;> rfl

theorem Menu.at?_put_of_ne {i j : Nat} (other : i ≠ j) (level menu : Menu) (p q : Position) :
    (Menu.put level (i :: p) menu).at? (j :: q) = menu.at? (j :: q) := by
  rw [Menu.put, Menu.at?, Menu.at?, List.getElem?_modify_ne _ _ other]

namespace Node

variable {n m : Node} {level : Menu} {p q : Position}

theorem at?_cons (n : Node) (i : Nat) (p : Position) : n.at? (i :: p) = Menu.at? n.children (i :: p) := rfl

theorem at?_of_children (there : Menu.at? n.children p = some m) : n.at? p = some m := by
  cases p with
  | nil => cases there
  | cons i p => exact there

theorem put_cons (level : Menu) (i : Nat) (p : Position) (n : Node) :
    n.put level (i :: p) = { n with children := Menu.put level (i :: p) n.children } := rfl

@[simp] theorem remoteId_put (level : Menu) (p : Position) (n : Node) : (n.put level p).remoteId = n.remoteId := by
  cases p <;> rfl

theorem children_put (level : Menu) (p : Position) (n : Node) :
    (n.put level p).children = Menu.put level p n.children := by
  cases p <;> rfl

theorem at?_append (n : Node) (p q : Position) : n.at? (p ++ q) = (n.at? p).bind (·.at? q) := by
  induction p generalizing n with
  | nil => rfl
  | cons i p ih =>
    rw [List.cons_append, at?, at?, Option.bind_assoc]
    exact congrArg _ (funext fun child => ih child)

/-- On the way to the level, each node has it put below itself. -/
theorem at?_put_append (level : Menu) (p q : Position) (n : Node) :
    (n.put level (p ++ q)).at? p = (n.at? p).map (put level q) := by
  induction p generalizing n with
  | nil => rfl
  | cons i p ih =>
    rw [List.cons_append, put_cons, at?_cons, Menu.at?_put_cons, at?, Option.map_bind]
    exact congrArg _ (funext fun child => ih child)

/-- Off the way to the level and outside it, nothing changes. -/
theorem at?_put_of_apart (above : ¬ q <+: p) (below : ¬ p <+: q) : (n.put level p).at? q = n.at? q := by
  induction p generalizing n q with
  | nil => exact absurd List.nil_prefix below
  | cons i p ih =>
    cases q with
    | nil => exact absurd List.nil_prefix above
    | cons j q =>
      rw [put_cons, at?_cons, at?_cons]
      by_cases same : i = j
      · subst same
        rw [Menu.at?_put_cons, Menu.at?]
        refine congrArg _ (funext fun child => ih ?_ ?_)
        · exact fun front => above (List.cons_prefix_cons.mpr ⟨rfl, front⟩)
        · exact fun front => below (List.cons_prefix_cons.mpr ⟨rfl, front⟩)
      · exact Menu.at?_put_of_ne same ..

/-- If of two levels that are put below a node only the second matters, it is so for all that is above, too. -/
theorem put_put {a b : Menu} (here : n.at? p = some m) (h : (m.setChildren a).setChildren b = m.setChildren b) :
    (n.put a p).put b p = n.put b p := by
  induction p generalizing n with
  | nil =>
    obtain rfl := Option.some.inj here
    exact h
  | cons i p ih =>
    obtain ⟨child, there, below⟩ := Option.bind_eq_some_iff.mp here
    simp only [put, List.modify_modify_eq]
    rw [Menu.modify_congr]
    intro other found
    obtain rfl := Option.some.inj (there.symm.trans found)
    exact ih below

theorem put_eq_self (here : n.at? p = some m) (h : m.setChildren level = m) : n.put level p = n := by
  induction p generalizing n with
  | nil =>
    obtain rfl := Option.some.inj here
    exact h
  | cons i p ih =>
    obtain ⟨child, there, below⟩ := Option.bind_eq_some_iff.mp here
    have same : n.children.modify i (put level p) = n.children.modify i id := by
      apply Menu.modify_congr
      intro other found
      obtain rfl := Option.some.inj (there.symm.trans found)
      exact ih below
    rw [put, same, List.modify_id]
    cases n; rfl

end Node

/-! ### The position of a path -/

namespace Menu

variable {menu : Menu} {id : RemoteId} {path : Path} {spot : Position} {i : Nat} {n : Node}

theorem first_cases (menu : Menu) (id : RemoteId) :
    menu.findIdx? (·.remoteId = id) = none ∨
      ∃ i n, menu.findIdx? (·.remoteId = id) = some i ∧ menu[i]? = some n ∧ n.remoteId = id := by
  cases found : menu.findIdx? (·.remoteId = id) with
  | none => exact .inl rfl
  | some i =>
    obtain ⟨inside, own, -⟩ := List.findIdx?_eq_some_iff_getElem.mp found
    exact .inr ⟨i, menu[i], rfl, List.getElem?_eq_getElem inside, of_decide_eq_true own⟩

theorem find?_of_first (first : menu.findIdx? (·.remoteId = id) = some i) (here : menu[i]? = some n) :
    List.find? (·.remoteId = id) menu = some n := by
  rw [List.find?_eq_bind_findIdx?_getElem?, first, Option.bind_some, here]

theorem updateNode_of_none (change : Node → Option Node) (none : menu.findIdx? (·.remoteId = id) = none) :
    updateNode id change menu = .none := by
  induction menu with
  | nil => rfl
  | cons m ms ih =>
    rw [List.findIdx?_cons] at none
    by_cases own : m.remoteId = id
    · simp [own] at none
    · rw [updateNode, if_neg own, ih (by simpa [own] using none), Option.map_none]

theorem updateNode_of_first (change : Node → Option Node) (first : menu.findIdx? (·.remoteId = id) = some i)
    (here : menu[i]? = some n) : updateNode id change menu = (change n).map (menu.set i ·) := by
  induction menu generalizing i with
  | nil => cases first
  | cons m ms ih =>
    rw [List.findIdx?_cons] at first
    by_cases own : m.remoteId = id
    · obtain rfl : 0 = i := by simpa [own] using first
      obtain rfl := Option.some.inj here
      rw [updateNode, if_pos own]
      rfl
    · obtain ⟨k, later, rfl⟩ := Option.map_eq_some_iff.mp (show _ = some i by simpa [own] using first)
      rw [updateNode, if_neg own, ih later here, Option.map_map]
      rfl

theorem position?_of_none (path : Path) (none : menu.findIdx? (·.remoteId = id) = none) :
    menu.position? (id :: path) = .none := by
  rw [position?, none, Option.bind_none]

theorem position?_of_first (path : Path) (first : menu.findIdx? (·.remoteId = id) = some i)
    (here : menu[i]? = some n) : menu.position? (id :: path) = (position? n.children path).map (i :: ·) := by
  rw [position?, first, Option.bind_some, here, Option.bind_some]

/-- A path that leads somewhere leads through the first node with its first id. -/
theorem position?_cons_eq_some (found : menu.position? (id :: path) = some spot) :
    ∃ i n p, menu.findIdx? (·.remoteId = id) = some i ∧ menu[i]? = some n ∧ n.remoteId = id ∧
      position? n.children path = some p ∧ spot = i :: p := by
  rcases menu.first_cases id with none | ⟨i, n, first, here, own⟩
  · rw [position?_of_none path none] at found
    cases found
  · rw [position?_of_first path first here] at found
    obtain ⟨p, further, rfl⟩ := Option.map_eq_some_iff.mp found
    exact ⟨i, n, p, first, here, own, further, rfl⟩

theorem at?_of_getElem? (here : menu[i]? = some n) (p : Position) : menu.at? (i :: p) = n.at? p := by
  rw [at?, here, Option.bind_some]

theorem levelAt?_of_getElem? (here : menu[i]? = some n) (p : Position) :
    menu.levelAt? (i :: p) = levelAt? n.children p := by
  rw [levelAt?, at?_of_getElem? here]
  cases p <;> rfl

theorem put_of_getElem? (here : menu[i]? = some n) (level : Menu) (p : Position) :
    put level (i :: p) menu = menu.set i (n.put level p) := by
  rw [put, List.modify_eq_set_getElem?, here]
  rfl

/-- The level that a path leads to is the one at its position. -/
theorem level?_eq (menu : Menu) (path : Path) : menu.level? path = (menu.position? path).bind menu.levelAt? := by
  induction path generalizing menu with
  | nil => rfl
  | cons id path ih =>
    rcases menu.first_cases id with none | ⟨i, n, first, here, -⟩
    · rw [position?_of_none path none, level?, List.find?_eq_bind_findIdx?_getElem?, none]
      rfl
    · rw [position?_of_first path first here, level?, find?_of_first first here, Option.bind_map]
      refine (ih n.children).trans (congrArg _ (funext fun p => ?_))
      exact (levelAt?_of_getElem? here p).symm

/-- The level that is replaced at a path is the one at its position. -/
theorem replaceLevel_eq (level : Menu) (path : Path) (menu : Menu) :
    replaceLevel level path menu = (menu.position? path).map (put level · menu) := by
  induction path generalizing menu with
  | nil => rfl
  | cons id path ih =>
    have carried {change : Node → Option Node}
        (h : ∀ n, change n = (position? n.children path).map (n.put level ·)) :
        updateNode id change menu = (menu.position? (id :: path)).map (put level · menu) := by
      rcases menu.first_cases id with none | ⟨i, n, first, here, -⟩
      · rw [position?_of_none path none, updateNode_of_none change none, Option.map_none]
      · rw [position?_of_first path first here, updateNode_of_first change first here, h,
          Option.map_map, Option.map_map]
        exact congrArg (Option.map · _) (funext fun p => (put_of_getElem? here level p).symm)
    -- The node right above the level has its children set, the others on the way only carry the change up.
    cases path with
    | nil => exact carried fun n => rfl
    | cons next path =>
      refine carried fun n => ?_
      rw [ih n.children, Option.map_map]
      cases found : position? n.children (next :: path) with
      | none => rfl
      | some p =>
        obtain ⟨j, -, q, -, -, -, -, rfl⟩ := position?_cons_eq_some found
        rfl

/-- A path leads to the same position after a level was put there. -/
theorem position?_put (found : menu.position? path = some spot) (level : Menu) :
    (put level spot menu).position? path = some spot := by
  induction path generalizing menu spot with
  | nil => exact found
  | cons id path ih =>
    obtain ⟨i, n, p, first, here, -, further, rfl⟩ := position?_cons_eq_some found
    have first' : (put level (i :: p) menu).findIdx? (·.remoteId = id) = some i :=
      (findIdx?_modify (Node.remoteId_put level p) menu i id).trans first
    have here' : (put level (i :: p) menu)[i]? = some (n.put level p) := by
      rw [put, List.getElem?_modify_eq, here]
      rfl
    rw [position?_of_first path first' here', Node.children_put, ih further, Option.map_some]

/-- At the position of a path is the node with its last id, and below it the level that the path leads to. -/
theorem position?_cases (found : menu.position? path = some spot) :
    (path = [] ∧ spot = []) ∨
      ∃ n, menu.at? spot = some n ∧ path.getLast? = some n.remoteId ∧ menu.levelAt? spot = some n.children := by
  induction path generalizing menu spot with
  | nil => exact .inl ⟨rfl, (Option.some.inj found).symm⟩
  | cons id path ih =>
    obtain ⟨i, n, p, -, here, own, further, rfl⟩ := position?_cons_eq_some found
    refine .inr ?_
    rcases ih further with ⟨rfl, rfl⟩ | ⟨m, there, last, below⟩
    · exact ⟨n, at?_of_getElem? here [], by rw [own]; rfl, levelAt?_of_getElem? here []⟩
    · refine ⟨m, ?_, ?_, ?_⟩
      · rw [at?_of_getElem? here, Node.at?_of_children there]
      · rw [List.getLast?_cons, last]
        rfl
      · rw [levelAt?_of_getElem? here, below]

theorem exists_levelAt? (found : menu.position? path = some spot) : ∃ old, menu.levelAt? spot = some old := by
  rcases position?_cases found with ⟨-, rfl⟩ | ⟨n, -, -, below⟩
  · exact ⟨menu, rfl⟩
  · exact ⟨n.children, below⟩

/-! ### What becomes of a menu -/

/-- A node with a menu below it, by which to say of the menu what holds of nodes. -/
def asNode (menu : Menu) : Node := { entry := { title := "" }, children := menu }

theorem at?_append (there : menu.at? spot = some n) (p : Position) : menu.at? (spot ++ p) = n.at? p := by
  have whole := menu.asNode.at?_append spot p
  rw [Node.at?_of_children (n := menu.asNode) there, Option.bind_some] at whole
  cases spot with
  | nil => cases there
  | cons i q => exact whole

theorem exists_at?_of_append {p q : Position} (there : menu.at? (p ++ q) = some n) (inner : p ≠ []) :
    ∃ m, menu.at? p = some m := by
  cases p with
  | nil => exact absurd rfl inner
  | cons i p =>
    have whole := menu.asNode.at?_append (i :: p) q
    rw [Node.at?_of_children (n := menu.asNode) there] at whole
    obtain ⟨m, here, -⟩ := Option.bind_eq_some_iff.mp whole.symm
    exact ⟨m, here⟩

theorem at?_put_append (level menu : Menu) (p q : Position) :
    (put level (p ++ q) menu).at? p = (menu.at? p).map (Node.put level q) := by
  cases p with
  | nil => rfl
  | cons i p => exact menu.asNode.at?_put_append level (i :: p) q

theorem at?_put (there : menu.at? spot = some n) (level : Menu) :
    (put level spot menu).at? spot = some (n.setChildren level) := by
  have here := at?_put_append level menu spot []
  rwa [List.append_nil, there] at here

theorem at?_put_below (there : menu.at? spot = some n) (level : Menu) (i : Nat) (p : Position) :
    (put level spot menu).at? (spot ++ i :: p) = level.at? (i :: p) := by
  rw [at?_append (at?_put there level)]
  rfl

theorem at?_put_of_apart {p : Position} (above : ¬ p <+: spot) (below : ¬ spot <+: p) (level menu : Menu) :
    (put level spot menu).at? p = menu.at? p := by
  cases spot with
  | nil => exact absurd List.nil_prefix below
  | cons i q =>
    cases p with
    | nil => rfl
    | cons j p => exact Node.at?_put_of_apart (n := menu.asNode) above below

theorem put_put {a b : Menu} (there : menu.at? spot = some n)
    (h : (n.setChildren a).setChildren b = n.setChildren b) : put b spot (put a spot menu) = put b spot menu := by
  have whole := congrArg Node.children (Node.put_put (n := menu.asNode) (Node.at?_of_children there) h)
  rwa [Node.children_put, Node.children_put, Node.children_put] at whole

theorem put_eq_self (there : menu.at? spot = some n) (h : n.setChildren level = n) : put level spot menu = menu := by
  have whole := congrArg Node.children (Node.put_eq_self (n := menu.asNode) (Node.at?_of_children there) h)
  rwa [Node.children_put] at whole

/-- How a menu comes out of replacing the level at a path that leads to a position. -/
structure Rewritten (path : Path) (spot : Position) (level before after : Menu) : Prop where
  /-- The path leads to the new level. -/
  read : after.level? path = some level
  /-- If it was there before, nothing changes, unless the node above was marked as an empty submenu and was not empty. -/
  restored : before.level? path = some level →
    (∀ n, before.at? spot = some n → n.emptySubmenu = true → n.children = []) → after = before
  /-- If the level is replaced again, this one leaves no trace, unless it made a submenu of the node above. -/
  overwritten : (∀ next, replaceLevel next path after = replaceLevel next path before) ↔
    path = [] ∨ (∃ n, before.at? spot = some n ∧ n.isSubmenu = true) ∨ level = []
  /-- The nodes below the position are those of the new level. -/
  inside : ∀ i p, after.at? (spot ++ i :: p) = level.at? (i :: p)
  /-- The node at the position, the one with the last id of the path, has its children set. -/
  parent : path ≠ [] → ∃ n, before.at? spot = some n ∧ path.getLast? = some n.remoteId ∧
    before.level? path = some n.children ∧ after.at? spot = some (n.setChildren level) ∧
    (n.setChildren level).remoteId = n.remoteId ∧
    (n.isSubmenu = true ∨ level = [] → n.Same (n.setChildren level))
  /-- The nodes above that one differ in what is below them and in nothing else. -/
  above : ∀ p q, p ≠ [] → q ≠ [] → spot = p ++ q → ∃ n children, before.at? p = some n ∧
    after.at? p = some { n with children } ∧ n.Same { n with children }
  /-- All other nodes are as they were, with all that is below them. -/
  apart : ∀ p, ¬ p <+: spot → ¬ spot <+: p → after.at? p = before.at? p

theorem overwritten_iff (found : menu.position? path = some spot) (level : Menu) :
    (∀ next, replaceLevel next path (put level spot menu) = replaceLevel next path menu) ↔
      path = [] ∨ (∃ n, menu.at? spot = some n ∧ n.isSubmenu = true) ∨ level = [] := by
  have written (next : Menu) : replaceLevel next path (put level spot menu) = replaceLevel next path menu ↔
      put next spot (put level spot menu) = put next spot menu := by
    rw [replaceLevel_eq, replaceLevel_eq, position?_put found, found, Option.map_some, Option.map_some,
      Option.some.injEq]
  simp only [written]
  rcases position?_cases found with ⟨rfl, rfl⟩ | ⟨n, there, last, -⟩
  · exact ⟨fun _ => .inl rfl, fun _ _ => rfl⟩
  · constructor
    · intro same
      refine .inr ?_
      by_cases submenu : n.isSubmenu = true
      · exact .inl ⟨n, there, submenu⟩
      · -- Without children in the end, a leaf that had some in between is marked as a submenu.
        have nodes := at?_put (at?_put there level) []
        rw [same [], at?_put there []] at nodes
        have kinds := congrArg Node.isSubmenu (Option.some.inj nodes)
        simp only [Node.isSubmenu_setChildren_eq] at kinds
        refine .inr (List.isEmpty_iff.mp ?_)
        simpa [submenu] using kinds
    · rintro (rfl | ⟨m, here, submenu⟩ | rfl) next
      · cases last
      · obtain rfl := Option.some.inj (there.symm.trans here)
        exact put_put there (Node.setChildren_setChildren next (.inl submenu))
      · exact put_put there (Node.setChildren_setChildren next (.inr rfl))

theorem rewritten_put (found : menu.position? path = some spot) (level : Menu) :
    Rewritten path spot level menu (put level spot menu) := by
  have read (now : Menu) (kept : now.position? path = some spot) : now.level? path = now.levelAt? spot := by
    rw [level?_eq, kept, Option.bind_some]
  have overwritten := overwritten_iff found level
  rcases position?_cases found with ⟨rfl, rfl⟩ | ⟨n, there, last, below⟩
  · exact {
      read := rfl
      restored := fun same _ => (Option.some.inj same).symm
      overwritten
      inside := fun _ _ => rfl
      parent := fun outer => absurd rfl outer
      above := fun p q outer _ split => absurd (List.append_eq_nil_iff.mp split.symm).1 outer
      apart := fun p _ below => absurd List.nil_prefix below }
  · have after := at?_put there level
    refine {
      read := ?_
      restored := ?_
      overwritten
      inside := at?_put_below there level
      parent := fun _ => ⟨n, there, last, (read menu found).trans below, after, rfl, Node.same_setChildren⟩
      above := ?_
      apart := fun p above below => at?_put_of_apart above below level menu }
    · rw [read _ (position?_put found level)]
      cases spot with
      | nil => cases there
      | cons i p => rw [levelAt?, after]; rfl
    · intro same marked
      rw [read menu found, below] at same
      obtain rfl := Option.some.inj same
      exact put_eq_self there (Node.setChildren_children (marked n there))
    · rintro p q outer inner rfl
      obtain ⟨m, here⟩ := exists_at?_of_append there outer
      cases q with
      | nil => exact absurd rfl inner
      | cons j q =>
        refine ⟨m, put level (j :: q) m.children, here, ?_, Node.same_of_isEmpty (isEmpty_put_cons ..)⟩
        rw [at?_put_append, here, Option.map_some, Node.put_cons]

/-- A level is replaced exactly where the path leads to one. Where it leads to none, nothing changes. -/
theorem replaceLevel_lens (level : Menu) (path : Path) (menu : Menu) :
    (menu.position? path = none ∧ menu.level? path = none ∧ replaceLevel level path menu = none ∧
      ∀ stats, Engine.commit path level ⟨menu, stats⟩ = .done ⟨menu, stats⟩ (.ok ())) ∨
    ∃ spot old after, menu.position? path = some spot ∧ menu.level? path = some old ∧
      replaceLevel level path menu = some after ∧
      (∀ stats, Engine.commit path level ⟨menu, stats⟩ = .done ⟨after, stats⟩ (.ok ())) ∧
      Rewritten path spot level menu after := by
  have stored (stats : Stats) : Engine.commit path level ⟨menu, stats⟩ =
      .done ⟨(replaceLevel level path menu).getD menu, stats⟩ (.ok ()) := rfl
  simp only [stored, replaceLevel_eq, level?_eq]
  cases found : menu.position? path with
  | none => exact .inl ⟨rfl, rfl, rfl, fun _ => rfl⟩
  | some spot =>
    obtain ⟨old, there⟩ := exists_levelAt? found
    exact .inr ⟨spot, old, put level spot menu, rfl, there, rfl, fun _ => rfl, rewritten_put found level⟩

end Menu

end RemoteMenu
