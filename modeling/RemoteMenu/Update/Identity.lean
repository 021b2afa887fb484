import RemoteMenu.Update.Matching

/-!
# Handing on remote ids

A kept node of the new menu takes the id of its old partner, so that what the host reports about the
old node reaches the new one.
-/

namespace RemoteMenu

inductive TransferFailure
  /-- The matching is not one of these levels. Nothing has changed. -/
  | refused (error : UpdateError)
  /-- The matching passed for one of these levels, yet a pair points outside them. -/
  | outside (pair : Nat × Nat)
  deriving Repr, DecidableEq

namespace Matching

def covers (m : Matching) (old new : Menu) : Except UpdateError Unit :=
  if m.oldStates.length = old.length ∧ m.newStates.length = new.length then .ok ()
  else .error (.matchMismatch
    s!"result covers {m.oldStates.length}/{m.newStates.length} nodes, menus have {old.length}/{new.length}")

def handOn (old : Menu) : List (Nat × Nat) → Menu → Except TransferFailure Menu
  | [], new => .ok new
  | (i, j) :: pairs, new =>
    match old[i]?, new[j]? with
    | some o, some n => handOn old pairs (new.set j { n with remoteId := o.remoteId })
    | _, _ => .error (.outside (i, j))

/-- The new level with the ids of the kept nodes, and how many these are. -/
def transferIds (m : Matching) (old new : Menu) : Except TransferFailure (Menu × Nat) := do
  (m.covers old new).mapError .refused
  let pairs ← m.keptPairs.mapError .refused
  let new ← handOn old pairs new
  return (new, pairs.length)

end Matching

end RemoteMenu
