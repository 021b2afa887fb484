import RemoteMenu.Command.Basic

/-!
# The commands for nodes

Deletions name a node only, since the host drops what is below it. Additions come in two batches:
those of some nodes of a level, and those of everything below these nodes, parents first.
-/

namespace RemoteMenu

/-- What a node adds at a place; submenus without a hint of their own are laid out as `layout`. -/
def Node.addition (n : Node) (parent : Option RemoteId) (position : Nat) (layout : Layout) : Addition where
  id := n.remoteId
  parent
  position := .ofNat position
  name := n.displayTitle
  secondaryText := n.entry.secondaryText
  tertiaryText := n.entry.tertiaryText
  icon := n.entry.icon.map Artwork.name
  secondaryIcon := n.entry.secondaryIcon.map Artwork.name
  role :=
    if n.isSubmenu then .submenu (n.entry.layout.getD layout)
    else .command n.entry.voiceCommands

namespace Command

def deletes (nodes : List Node) : List Command :=
  nodes.map fun n => .delete n.kind n.remoteId

/-- The commands that add the nodes with some indices of a level, each at its own index. -/
def adds (layout : Layout) (parent : Option RemoteId) (level : Menu) (added : List Nat) :
    List Command :=
  added.filterMap fun i => level[i]?.map fun n => .add (n.addition parent i layout)

end Command

mutual

/-- The commands that add everything below a node, parents first. -/
def Node.addsBelow (layout : Layout) : Node → List Command
  | ⟨_, children, _, _, remoteId⟩ => Menu.addsFrom layout remoteId 0 children

/-- The commands that add siblings from a position on, each with everything below it. -/
def Menu.addsFrom (layout : Layout) (parent : RemoteId) (position : Nat) : Menu → List Command
  | [] => []
  | n :: ns =>
    .add (n.addition (some parent) position layout) ::
      (n.addsBelow layout ++ Menu.addsFrom layout parent (position + 1) ns)

end

/-- The commands that add everything below the nodes with some indices of a level. -/
def Command.nestedAdds (layout : Layout) (level : Menu) (added : List Nat) : List Command :=
  added.flatMap fun i =>
    match level[i]? with
    | some n => n.addsBelow layout
    | none => []

end RemoteMenu
