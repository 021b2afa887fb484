import RemoteMenu.Menu.Node

/-!
# Menus as trees

Walking a menu, finding a node in it, and the levels inside it. A level is reached by the ids of the
nodes above it, outermost first; of several siblings with an id the first one is meant.
-/

namespace RemoteMenu

/-- The ids of the nodes above a level, outermost first. -/
abbrev Path := List RemoteId

/-! ### Walking -/

mutual

/-- A node and everything below it, parents first. -/
def Node.walk : Node → List Node
  | ⟨entry, children, emptySubmenu, disambiguator, remoteId⟩ =>
    ⟨entry, children, emptySubmenu, disambiguator, remoteId⟩ :: Menu.walk children

def Menu.walk : Menu → List Node
  | [] => []
  | n :: ns => n.walk ++ Menu.walk ns

end

theorem Node.walk_eq (n : Node) : n.walk = n :: Menu.walk n.children := by
  cases n; rw [Node.walk]

namespace Menu

/-- The node that holds an id, at any depth. No node holds the unset id. -/
def find? (menu : Menu) (id : RemoteId) : Option Node :=
  if id.isSet then menu.walk.find? (·.remoteId = id) else none

/-! ### Levels -/

def level? (menu : Menu) : Path → Option Menu
  | [] => some menu
  | id :: path =>
    match List.find? (·.remoteId = id) menu with
    | none => none
    | some n => level? n.children path

/-- Changes the first node of a level that holds an id, if there is one and `change` can. -/
def updateNode (id : RemoteId) (change : Node → Option Node) : Menu → Option Menu
  | [] => none
  | n :: ns =>
    if n.remoteId = id then (change n).map (· :: ns)
    else (updateNode id change ns).map (n :: ·)

def updateLevel (change : Menu → Option Menu) : Path → Menu → Option Menu
  | [], menu => change menu
  | id :: path, menu =>
    updateNode id
      (fun n => (updateLevel change path n.children).map fun children => { n with children }) menu

/-- Puts another level where a path leads to. The node above the level stays of its kind. -/
def replaceLevel (level : Menu) : Path → Menu → Option Menu
  | [], _ => some level
  | [id], menu => updateNode id (fun n => some (n.setChildren level)) menu
  | id :: path, menu =>
    updateNode id
      (fun n => (replaceLevel level path n.children).map fun children => { n with children }) menu

end Menu

/-! ### Titles -/

mutual

def Node.disambiguate : Node → Node
  | ⟨entry, children, emptySubmenu, disambiguator, remoteId⟩ =>
    ⟨entry, Menu.disambiguateAfter [] children, emptySubmenu, disambiguator, remoteId⟩

/-- Numbers the titles of siblings that come after siblings with the titles `earlier`. -/
def Menu.disambiguateAfter (earlier : List String) : Menu → Menu
  | [] => []
  | n :: ns =>
    { n.disambiguate with disambiguator := .ofNat (earlier.count n.entry.title + 1) } ::
      Menu.disambiguateAfter (n.entry.title :: earlier) ns

end

/-- Numbers the siblings that share a title, at every level: the first keeps 1, later ones get
2, 3 and so on. -/
def Menu.disambiguate (menu : Menu) : Menu := disambiguateAfter [] menu

end RemoteMenu
