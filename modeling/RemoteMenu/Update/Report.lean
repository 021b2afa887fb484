import RemoteMenu.Menu.Node
import RemoteMenu.Timestamp

/-!
# Reports
-/

namespace RemoteMenu

structure Stats where
  nodesKept : Nat := 0
  nodesAdded : Nat := 0
  nodesRemoved : Nat := 0
  /-- The levels it has looked at, the top one included. -/
  levelsVisited : Nat := 0
  batchesSent : Nat := 0
  batchesFailed : Nat := 0
  commandsSent : Nat := 0
  artworksRequested : Nat := 0
  artworksFailed : Nat := 0
  deriving Repr, DecidableEq

def Stats.isNoop (s : Stats) : Bool := s.commandsSent = 0

structure Report where
  operationId : Nat
  /-- Whether the host accepted every batch. -/
  success : Bool
  /-- The menu that the host shows, as far as is known. -/
  menu : Menu
  stats : Stats
  startedAt : Timestamp
  finishedAt : Timestamp

/-- The time an operation took in whole milliseconds, a part of one dropped. -/
def Report.duration (r : Report) : Int := (r.finishedAt - r.startedAt).tdiv 1000

inductive Outcome
  | finished (report : Report)
  | canceled

end RemoteMenu
