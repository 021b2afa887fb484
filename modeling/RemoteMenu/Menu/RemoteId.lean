/-!
# Remote ids

The host knows a menu entry by a number. An entry that was never sent holds `RemoteId.unset`.
-/

namespace RemoteMenu

/-- The number under which the host knows an entry. -/
structure RemoteId where
  value : UInt32
  deriving Repr, DecidableEq, Hashable, Inhabited

namespace RemoteId

def unset : RemoteId := ⟨2000000000⟩

def isSet (id : RemoteId) : Bool := id ≠ unset

def text (id : RemoteId) : String := if id.isSet then toString id.value.toNat else "unset"

end RemoteId

end RemoteMenu
