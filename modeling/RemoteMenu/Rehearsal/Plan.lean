import RemoteMenu.Padding
import RemoteMenu.Rehearsal.Host

/-!
# Plans

What an update would do: what becomes of each node of the top level, and the batches it would send.
The first comes from the matching alone, the second from a rehearsal.
-/

namespace RemoteMenu.Rehearsal

open Json (Value)

/-- What becomes of a node of the top level. -/
structure PlanEntry where
  title : String
  state : MatchState
  deriving Repr, DecidableEq

structure Plan where
  /-- The nodes that have to go. -/
  removed : List PlanEntry
  /-- The nodes that are wanted, in their order. -/
  wanted : List PlanEntry
  batches : List (List Command)
  deriving Repr, DecidableEq

namespace Plan

def removedEntries (matching : Matching) (current : Menu) : List PlanEntry :=
  matching.removed.filterMap fun i =>
    current[i]?.map fun n => { title := n.displayTitle, state := .removed }

def wantedEntries (matching : Matching) (target : Menu) : List PlanEntry :=
  (target.zip matching.newStates).map fun (n, state) => { title := n.displayTitle, state }

def make (settings : Settings) (current target : Menu) : Except Halt Plan := do
  let (removed, wanted) :=
    match Matching.ofMenus current target with
    | none => ([], [])
    | some matching => (removedEntries matching current, wantedEntries matching target)
  let (result, host) := Id.run ((rehearse (pure 0) settings current target).run {})
  let _ ← result
  return { removed, wanted, batches := host.batches }

/-! ### Writing -/

def entryJson (e : PlanEntry) : Value :=
  .object [("title", .string e.title), ("state", .string e.state.name)]

def toJson (plan : Plan) : Value :=
  .object [("removed", .array (plan.removed.map entryJson)),
    ("target", .array (plan.wanted.map entryJson)),
    ("batches", .array (plan.batches.map fun batch => .array (batch.map Command.toJson)))]

def entryLine (e : PlanEntry) : String :=
  "  " ++ blankPadded 8 e.state.name ++ " " ++ e.title

def commandLine (c : Command) : String :=
  "  " ++ c.function.name ++ " " ++ c.target.text

def batchLines (batches : List (List Command)) : List String :=
  batches.zipIdx.flatMap fun (batch, i) => s!"Batch {i + 1}:" :: batch.map commandLine

def lines (plan : Plan) : List String :=
  "Top level:" :: (plan.removed ++ plan.wanted).map entryLine ++
    (if plan.batches.isEmpty then ["Nothing to send"] else batchLines plan.batches)

end Plan

end RemoteMenu.Rehearsal
