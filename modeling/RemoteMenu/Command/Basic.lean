import RemoteMenu.Frame.Function
import RemoteMenu.Menu.Node

/-!
# Commands

What is sent to the host to change the tree it shows: additions of one entry at a place, and
deletions of an entry with everything below it. There is one function of the host for each of the
two kinds of entries.
-/

namespace RemoteMenu

inductive EntryKind
  | command
  | submenu
  deriving Repr, DecidableEq

/-- What an added entry has beside its label, by its kind. -/
inductive Role
  /-- The phrases that trigger a command. -/
  | command (voiceCommands : List String)
  /-- How a submenu is laid out. -/
  | submenu (layout : Layout)
  deriving Repr, DecidableEq

structure Addition where
  id : RemoteId
  /-- The submenu it goes into; the top level if there is none. -/
  parent : Option RemoteId
  /-- Its place among the siblings, once all of them are there. -/
  position : UInt32
  name : String
  secondaryText : Option String := none
  tertiaryText : Option String := none
  icon : Option String := none
  secondaryIcon : Option String := none
  role : Role
  deriving Repr, DecidableEq

inductive Command
  | add (addition : Addition)
  | delete (kind : EntryKind) (id : RemoteId)
  deriving Repr, DecidableEq

def Role.kind : Role → EntryKind
  | .command _ => .command
  | .submenu _ => .submenu

def Node.kind (n : Node) : EntryKind := if n.isSubmenu then .submenu else .command

namespace Command

def target : Command → RemoteId
  | .add a => a.id
  | .delete _ id => id

def isAdd : Command → Bool
  | .add _ => true
  | .delete .. => false

def function : Command → HostFunction
  | .add a =>
    match a.role with
    | .command _ => .addCommand
    | .submenu _ => .addSubMenu
  | .delete .command _ => .deleteCommand
  | .delete .submenu _ => .deleteSubMenu

end Command

end RemoteMenu
