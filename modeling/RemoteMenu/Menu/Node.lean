import RemoteMenu.Menu.RemoteId

/-!
# Menu nodes

A menu is a list of nodes, each with the menu below it. What a node shows is its `Entry`; the rest
says where it stands and how the host knows it.

A node is a submenu if it has children or is marked as one that lost them. `Node.setChildren` keeps
the kind of a node (`Node.isSubmenu_setChildren`).
-/

namespace RemoteMenu

inductive Layout
  | list
  | tiles
  deriving Repr, DecidableEq

inductive ArtworkSource
  /-- An icon of the host, by its name. -/
  | static (icon : String)
  /-- A file that is uploaded before use. -/
  | file (path : String)
  deriving Repr, DecidableEq

structure Artwork where
  /-- The name under which the host stores the image. -/
  name : String
  source : ArtworkSource
  isTemplate : Bool := false
  deriving Repr, DecidableEq

namespace Artwork

def ofFile (name path : String) : Artwork := { name, source := .file path }

def ofIcon (name : String) : Artwork := { name, source := .static name }

/-- Whether the image is the host's own; such images are never uploaded. -/
def isStatic (a : Artwork) : Bool :=
  match a.source with
  | .static _ => true
  | .file _ => false

end Artwork

/-- What a node shows and listens to. -/
structure Entry where
  title : String
  secondaryText : Option String := none
  tertiaryText : Option String := none
  /-- The phrases that trigger the entry, in their order. -/
  voiceCommands : List String := []
  icon : Option Artwork := none
  secondaryIcon : Option Artwork := none
  /-- A hint that matters if the node is a submenu. -/
  layout : Option Layout := none
  deriving Repr, DecidableEq

structure Node where
  entry : Entry
  children : List Node := []
  /-- A submenu whose children are all gone, or not sent yet. -/
  emptySubmenu : Bool := false
  /-- The number that sets the node apart from siblings of the same title. -/
  disambiguator : UInt32 := 1
  remoteId : RemoteId := .unset
  deriving Repr, BEq

/-- The siblings of one level, with everything below them. -/
abbrev Menu := List Node

namespace Node

def isSubmenu (n : Node) : Bool := n.emptySubmenu || !n.children.isEmpty

/-- Other children for a node of the same kind. -/
def setChildren (n : Node) (children : Menu) : Node :=
  { n with children, emptySubmenu := n.isSubmenu && children.isEmpty }

def displayTitle (n : Node) : String :=
  if n.disambiguator = 1 then n.entry.title
  else s!"{n.entry.title} ({n.disambiguator.toNat})"

theorem isSubmenu_setChildren (n : Node) (children : Menu)
    (h : n.isSubmenu = true ∨ children = []) : (n.setChildren children).isSubmenu = n.isSubmenu := by
  simp only [setChildren, isSubmenu] at h ⊢
  cases children <;> simp_all

@[simp] theorem entry_setChildren (n : Node) (children : Menu) :
    (n.setChildren children).entry = n.entry := rfl

@[simp] theorem children_setChildren (n : Node) (children : Menu) :
    (n.setChildren children).children = children := rfl

@[simp] theorem remoteId_setChildren (n : Node) (children : Menu) :
    (n.setChildren children).remoteId = n.remoteId := rfl

@[simp] theorem disambiguator_setChildren (n : Node) (children : Menu) :
    (n.setChildren children).disambiguator = n.disambiguator := rfl

end Node

end RemoteMenu
