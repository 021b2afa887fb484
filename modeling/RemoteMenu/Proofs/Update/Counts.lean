import RemoteMenu.Proofs.Update.Loads
import RemoteMenu.Proofs.Update.Tallies

/-!
# The numbers of a report

An update that finishes has counted what it compared and what it sent, and the host what it was told. As what is sent
are the loads of the compared levels, the two go together: nothing is reported as removed that was not deleted, and
nothing as added that was not sent (`Operation.Moves.counts_exact`).
-/

namespace RemoteMenu

/-- The additions of new nodes that an agenda has, without the empty ones, which are not sent. -/
def Load.mains (loads : List Load) : List (List Command) := (loads.map Load.main).filter (!·.isEmpty)

theorem Load.sum_mains (loads : List Load) :
    ((mains loads).map List.length).sum = (loads.map (·.main.length)).sum := by
  induction loads with
  | nil => rfl
  | cons l loads ih =>
    rw [mains, List.map_cons, List.filter_cons, List.map_cons, List.sum_cons, ← ih]
    cases main : l.main with
    | nil => exact (Nat.zero_add _).symm
    | cons => rfl

/-- The batches of an operation that has finished are those of its agenda. -/
theorem Operation.Moves.answered {job : Job} {current : Menu} {ids : IdSupply} {t : Trace} {op : Operation}
    {report : Report} (way : (schedule job current ids).Moves t op)
    (ended : op.ending? = some (.returned (.finished report))) : Answered (job.agenda current ids).1 t.batches := by
  have keeps := @Job.keeps_agenda ⟨ids, t.verdict, []⟩ current job
  obtain ⟨-, -, -, -, answered, -⟩ :=
    way.concludes (Watch.calm_of_finished way ended) ended (by simp) keeps
  exact answered

/-- Whether the numbers of a report are those of its update, which compares some levels, has some loads to send and
sends some batches. -/
structure Report.Counts (report : Report) (levels : List Comparison) (loads : List Load)
    (batches : List (List Command × Bool)) : Prop where
  sent : report.stats.batchesSent = batches.length
  commands : report.stats.commandsSent = (batches.map (·.1.length)).sum
  failed : report.stats.batchesFailed = batches.countP (!·.2)
  success : report.success = true ↔ report.stats.batchesFailed = 0
  /-- What is sent are the loads of the levels, of which only additions below rejected ones are left out. -/
  answered : Answered loads batches
  /-- There is no batch without commands, and none with deletions and additions. -/
  uniform : ∀ b ∈ batches, b.1 ≠ [] ∧ ((∀ c ∈ b.1, c.isAdd = false) ∨ ∀ c ∈ b.1, c.isAdd = true)
  removed : report.stats.nodesRemoved = (batches.map fun b => b.1.countP (!·.isAdd)).sum
  added : (Load.mains loads).Sublist (batches.map Prod.fst) ∧
    report.stats.nodesAdded = ((Load.mains loads).map List.length).sum
  /-- Where nothing is rejected, there is a command for each node of the subtrees that come. -/
  whole : (∀ b ∈ batches, b.2 = true) →
    report.stats.commandsSent = report.stats.nodesRemoved + Comparison.incoming levels
  visited : report.stats.levelsVisited = 1 + (levels.map fun c => (c.kept.filter Comparison.HasBelow).length).sum
  old : report.stats.nodesKept + report.stats.nodesRemoved = (levels.map (·.old.length)).sum
  new : report.stats.nodesKept + report.stats.nodesAdded = (levels.map (·.new.length)).sum

/-- Sums over the compared levels of what is kept and of what goes or comes. -/
theorem Comparison.sum_lengths (cs : List Comparison) :
    (cs.map (·.kept.length)).sum + (cs.map (·.removed.length)).sum = (cs.map (·.old.length)).sum ∧
    (cs.map (·.kept.length)).sum + (cs.map (·.added.length)).sum = (cs.map (·.new.length)).sum := by
  constructor
  · rw [← List.sum_map_add]
    exact congrArg List.sum (List.map_congr_left fun c _ => c.lengths.1)
  · rw [← List.sum_map_add]
    exact congrArg List.sum (List.map_congr_left fun c _ => c.lengths.2)

/-- The numbers of a report are exact, whatever the host accepts. -/
theorem Operation.Moves.counts_exact {job : Job} {current : Menu} {ids : IdSupply} {t : Trace} {op : Operation}
    {report : Report} (way : (schedule job current ids).Moves t op)
    (ended : op.ending? = some (.returned (.finished report))) :
    report.Counts (Comparison.walk ⟨current, job.target⟩) (job.agenda current ids).1 t.batches := by
  obtain ⟨stats, success, -⟩ := way.tallies ended
  have served := job.served current ids
  have answered := way.answered ended
  obtain ⟨lengthOld, lengthNew⟩ := Comparison.sum_lengths (Comparison.walk ⟨current, job.target⟩)
  generalize levels : Comparison.walk ⟨current, job.target⟩ = cs at stats served lengthOld lengthNew ⊢
  -- Each counter is the sum of what was compared and of what was asked, and one of these is none.
  obtain ⟨kept, added, removed, visited, sent, failed, commands, -, -⟩ := Stats.ext_iff.mp stats
  replace kept : report.stats.nodesKept = (cs.map (·.kept.length)).sum := kept
  replace added : report.stats.nodesAdded = (cs.map (·.added.length)).sum := added
  replace removed : report.stats.nodesRemoved = (cs.map (·.removed.length)).sum := removed
  replace visited : report.stats.levelsVisited = cs.length := visited
  replace sent : report.stats.batchesSent = t.batches.length := sent.trans (Nat.zero_add _)
  replace failed : report.stats.batchesFailed = t.batches.countP (!·.2) := failed.trans (Nat.zero_add _)
  replace commands : report.stats.commandsSent = (t.batches.map (·.1.length)).sum := commands.trans (Nat.zero_add _)
  refine ⟨sent, commands, failed, ?_, answered, fun b => served.uniform answered, ?_, ⟨?_, ?_⟩, ?_, ?_, ?_, ?_⟩
  · rw [failed]
    exact success
  · rw [removed, served.deletions answered]
  · exact answered.mains_sublist
  · rw [added, Load.sum_mains, served.main]
  · intro accepted
    rw [commands, removed, served.commands answered accepted]
  · rw [visited, ← levels, ← Comparison.length_walk]
  · rw [kept, removed, lengthOld]
  · rw [kept, added, lengthNew]

/-- An update that sends additions below a new node. -/
theorem Operation.Moves.counts_exact_drawers : ∃ n report,
    let (op, t) := (schedule drawersJob oldDrawers default).play (fun _ => .taking true) n
    op.ending? = some (.returned (.finished report)) ∧
      report.Counts (Comparison.walk ⟨oldDrawers, drawersJob.target⟩) (drawersJob.agenda oldDrawers default).1
        t.batches := by
  obtain ⟨n, report, ended, -, -⟩ := play_agenda drawersJob oldDrawers default fun _ => .taking true
  exact ⟨n, report, ended, Operation.Moves.counts_exact (play_moves _ _ n) ended⟩

end RemoteMenu
