import RemoteMenu.Menu.Tree

/-!
# Fresh ids

The ids that may be handed out are those from 1 up to the one before `RemoteId.unset`; behind the
last one the supply starts again at 1.
-/

namespace RemoteMenu

/-- Where the ids to hand out go on. -/
structure IdSupply where
  next : UInt32
  pos : 0 < next
  lt_unset : next < RemoteId.unset.value
  deriving Repr, DecidableEq

namespace IdSupply

/-- A supply that starts at `first`, or at 1 if that is no id to hand out. -/
def startingAt (first : UInt32) : IdSupply :=
  if h : 0 < first ∧ first < RemoteId.unset.value then ⟨first, h.1, h.2⟩
  else ⟨1, by decide, by decide⟩

instance : Inhabited IdSupply := ⟨startingAt 1⟩

def highest (menu : Menu) : UInt32 :=
  (menu.walk.filter (·.remoteId.isSet)).foldl (fun high n => max high n.remoteId.value) 0

def following (menu : Menu) : IdSupply := startingAt (highest menu + 1)

def draw (ids : IdSupply) : RemoteId × IdSupply :=
  (⟨ids.next⟩, startingAt (ids.next + 1))

def skip (ids : IdSupply) : (count : Nat) → IdSupply
  | 0 => ids
  | count + 1 => skip ids.draw.2 count

end IdSupply

mutual

/-- Fresh ids for a node and everything below it, parents first. -/
def Node.withFreshIds (ids : IdSupply) : Node → Node × IdSupply
  | ⟨entry, children, emptySubmenu, disambiguator, _⟩ =>
    let (remoteId, ids) := ids.draw
    let (children, ids) := Menu.withFreshIds ids children
    (⟨entry, children, emptySubmenu, disambiguator, remoteId⟩, ids)

def Menu.withFreshIds (ids : IdSupply) : Menu → Menu × IdSupply
  | [] => ([], ids)
  | n :: ns =>
    let (n, ids) := n.withFreshIds ids
    let (ns, ids) := Menu.withFreshIds ids ns
    (n :: ns, ids)

end

end RemoteMenu
