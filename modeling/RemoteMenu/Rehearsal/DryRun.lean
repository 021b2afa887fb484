import RemoteMenu.Rehearsal.Plan

/-!
# Dry runs

A whole update against a simulated host: its report, and every frame that it would have sent.
-/

namespace RemoteMenu.Rehearsal

open Json (Value)

structure DryRun where
  report : Report
  frames : List SentFrame

namespace DryRun

/-- Runs an update against a host, which may reject all that adds. -/
def make {m : Type → Type} [Monad m] (clock : m Timestamp) (rejectsAdds : Bool)
    (settings : Settings) (current target : Menu) : m (Except Halt DryRun) := do
  let (result, host) ← (rehearse clock settings current target).run { rejectsAdds }
  return result.map fun report => { report, frames := host.frames }

/-! ### Writing -/

def statsJson (s : Stats) : Value :=
  .object [("nodes_kept", .natural s.nodesKept), ("nodes_added", .natural s.nodesAdded),
    ("nodes_removed", .natural s.nodesRemoved), ("levels_visited", .natural s.levelsVisited),
    ("batches_sent", .natural s.batchesSent), ("batches_failed", .natural s.batchesFailed),
    ("commands_sent", .natural s.commandsSent),
    ("artworks_requested", .natural s.artworksRequested),
    ("artworks_failed", .natural s.artworksFailed)]

def reportJson (r : Report) : Value :=
  .object [("operation_id", .natural r.operationId), ("success", .bool r.success),
    ("menu", r.menu.toJson), ("stats", statsJson r.stats),
    ("started_at", .string r.startedAt.text), ("finished_at", .string r.finishedAt.text)]

def frameJson (f : SentFrame) : Value :=
  .object [("function", .string f.function.name),
    ("correlation_id", .natural f.correlationId.toNat),
    ("target_id", .natural f.target.value.toNat), ("bytes", .natural f.size)]

def toJson (run : DryRun) : Value :=
  .object [("report", reportJson run.report), ("frames", .array (run.frames.map frameJson))]

def frameLine (f : SentFrame) : String :=
  "#" ++ blankPadded 4 (toString f.correlationId.toNat) ++ " " ++
    blankPadded 16 f.function.name ++ " id " ++
    blankPadded 10 (toString f.target.value.toNat) ++ s!" {f.size} bytes"

def summaryLine (run : DryRun) : String :=
  let s := run.report.stats
  let size := run.frames.foldl (fun size f => size + f.size) 0
  (if run.report.success then "Success" else "Partial failure") ++
    s!": {s.nodesKept} kept, {s.nodesAdded} added, {s.nodesRemoved} removed, " ++
    s!"{s.batchesFailed} of {s.batchesSent} batches failed, " ++
    s!"{size} bytes in {run.report.duration}ms"

def lines (run : DryRun) : List String := run.frames.map frameLine ++ [run.summaryLine]

end DryRun

end RemoteMenu.Rehearsal
