import RemoteMenu.Menu.ContentKey
import RemoteMenu.Update.State

/-!
# Matching siblings

Old and new siblings are matched by their keys alone, so a new order changes nothing. Of the nodes
with a key, the first old one goes with the first new one, the second with the second, and so on;
what is left over on either side has to go, or is to be added.
-/

namespace RemoteMenu

inductive MatchState
  /-- It is there on both sides. -/
  | kept
  /-- It is new. -/
  | added
  /-- It is gone. -/
  | removed
  deriving Repr, DecidableEq

def MatchState.name : MatchState → String
  | .kept => "Kept"
  | .added => "Added"
  | .removed => "Removed"

def MatchState.indices (wanted : MatchState) (states : List MatchState) : List Nat :=
  states.zipIdx.filterMap fun (state, i) => if state = wanted then some i else none

/-- How old siblings go with new ones. The states may be edited; the pairs stay as they were found. -/
structure Matching where
  oldStates : List MatchState
  newStates : List MatchState
  /-- The indices of the kept nodes on either side, by their old index. -/
  pairs : List (Nat × Nat)
  deriving Repr, DecidableEq

/-! ### Finding partners -/

/-- Takes the first new node with a key out of those that have no partner yet. -/
def claimFirst {κ} [DecidableEq κ] (key : κ) : List (κ × Nat) → Option (Nat × List (κ × Nat))
  | [] => none
  | (k, j) :: free =>
    if k = key then some (j, free)
    else (claimFirst key free).map fun (i, rest) => (i, (k, j) :: rest)

/-- The partner of each old node, from the new nodes that are free. -/
def partners {κ} [DecidableEq κ] (free : List (κ × Nat)) : List κ → List (Option Nat)
  | [] => []
  | key :: old =>
    match claimFirst key free with
    | some (j, rest) => some j :: partners rest old
    | none => none :: partners free old

namespace Matching

/-- The matching of two lists of keys, unless there is nothing to match. -/
def ofKeys {κ} [DecidableEq κ] (old new : List κ) : Option Matching :=
  if old.isEmpty && new.isEmpty then none
  else
    let partners := partners new.zipIdx old
    some {
      oldStates := partners.map fun p => if p.isSome then .kept else .removed
      newStates := (List.range new.length).map fun j =>
        if some j ∈ partners then .kept else .added
      pairs := partners.zipIdx.filterMap fun (p, i) => p.map fun j => (i, j) }

def ofMenus (old new : Menu) : Option Matching :=
  ofKeys (old.map Node.contentKey) (new.map Node.contentKey)

/-! ### Reading a matching -/

def keptCount (m : Matching) : Nat := m.oldStates.count .kept

/-- The kept pairs, provided that both sides agree on how many there are. -/
def keptPairs (m : Matching) : Except UpdateError (List (Nat × Nat)) :=
  let old := m.oldStates.count .kept
  let new := m.newStates.count .kept
  if old = new ∧ old = m.pairs.length then .ok m.pairs else .error (.keptMismatch old new)

def removed (m : Matching) : List Nat := MatchState.removed.indices m.oldStates

def added (m : Matching) : List Nat := MatchState.added.indices m.newStates

def isUnchanged (m : Matching) : Bool :=
  m.oldStates.all (· = .kept) && m.newStates.all (· = .kept)

end Matching

end RemoteMenu
