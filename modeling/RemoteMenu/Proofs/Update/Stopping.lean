import RemoteMenu.Proofs.Update.Pacing
import RemoteMenu.Proofs.Update.Untouched

/-!
# Stopping an operation

What an operation still does that is asked to stop in time: it sends no batch but the one that it waits
with and what is below the nodes of that one, and leaves every level alone that it had not gone into
(`Operation.Moves.stops`).
-/

namespace RemoteMenu

/-- What is still to be expected of an operation that is asked to stop after a trace. -/
structure Operation.Stops (job : Job) (current : Menu) (t : Trace) (op : Operation) : Prop where
  /-- Unless it waits with a batch, it sends none any more. -/
  idle : (∀ batch, op.pending? ≠ some (.send batch)) →
    ∀ t' op', op.cancel.2.Moves t' op' → t'.batches = []
  /-- What it waits with is the batch of some stage, and it sends no more than what has to follow that: what is below
  added nodes, if the host took them and one of them has children. -/
  waiting : ∀ batch, op.pending? = some (.send batch) → batch ≠ [] ∧
    ∃ s : Stage, Plans job.target current s.path s.plan ∧ s.Due job.setup.settings.defaultLayout t ∧
      s.batch job.setup.settings.defaultLayout = batch ∧
      (∀ accepted, s.rest job.setup.settings.defaultLayout accepted ≠ [] ↔ s.purpose = .addition ∧ accepted = true ∧
        ∃ i ∈ s.plan.added, ∃ n, s.plan.new[i]? = some n ∧ n.children ≠ []) ∧
      ∀ t' op', op.cancel.2.Moves t' op' →
        s.Closes job.setup.settings.defaultLayout op'.ending?.isSome t'.batches
  /-- Kept nodes that it has not gone into keep their children. -/
  untouched : ∀ t' op', op.cancel.2.Moves t' op' → ∀ path new old,
    KeptAt job.target current path new old → path ∉ (job.target.tour current).take t.levels →
      op'.committed.level? path = some old
  /-- However the world answers, it comes to its end. -/
  ends : ∀ world : Nat → Answers, ∃ n, (op.cancel.2.play world n).1.ending?.isSome = true

namespace Round

variable {r : Round} {t : Trace}

/-- As far as a dialogue has come, the levels that it has not gone into are as they were. -/
theorem rests_of_keeps {α : Type} {d : Dialogue α}
    (h : d.Keeps r.resting (fun t now _ => r.Rests (r.visited t) now.committed) t) :
    r.Rests (r.visited t) d.now.committed := by
  cases d with
  | done => exact h
  | ask => exact h.1

end Round

namespace Trace

theorem levels_of_reserves_none {t u : Trace} (h : ∀ e ∈ u, ∀ count, e.inquiry ≠ .reserve count) :
    levels (t ++ u) = levels t ∧ drawn (t ++ u) = drawn t := by
  induction u generalizing t with
  | nil => rw [List.append_nil]; exact ⟨rfl, rfl⟩
  | cons e u ih =>
    obtain ⟨own, later⟩ := List.forall_mem_cons.mp h
    obtain ⟨inquiry, reply⟩ := e
    have here : Exchange.reserves ⟨inquiry, reply⟩ = false ∧ Exchange.drawn ⟨inquiry, reply⟩ = 0 := by
      cases inquiry with
      | reserve count => exact absurd rfl (own count)
      | _ => exact ⟨rfl, rfl⟩
    obtain ⟨levels, drawn⟩ := ih (t := t ++ [⟨inquiry, reply⟩]) later
    rw [List.append_cons, levels, drawn, levels_snoc, drawn_append, here.1, Trace.drawn, here.2]
    exact ⟨rfl, rfl⟩

end Trace

theorem Lifecycle.asked_of_cancel {l : Lifecycle} (inTime : l.cancel.1 = true) :
    l.cancel.2.cancelRequested = true := by
  unfold cancel at *
  split at inTime
  · next can => rw [if_pos can]
  · cases inTime

namespace Operation

/-- An operation that was not started yet, or that waits for the world, is not about to draw ids. -/
theorem ask_ne_reserve {job : Job} {current : Menu} {op : Operation} {t : Trace}
    {d : Dialogue (Except Halt Outcome)} (live : op.task = .live d)
    (runs : Dialogue.Runs (job.run { committed := current }) t d)
    (waits : t = [] ∨ op.pending?.isSome = true) : ∀ count now next, d ≠ .ask (.reserve count) now next := by
  rintro count now next rfl
  rcases waits with rfl | pending
  · cases runs
  · rw [pending?, live] at pending
    cases pending

theorem isDone_of_ending? {op : Operation} {d : Dialogue (Except Halt Outcome)} (live : op.task = .live d) :
    op.ending?.isSome = d.isDone := by
  rw [ending?, live]
  cases d with
  | ask => rfl
  | done now r =>
    cases r with
    | ok => rfl
    | error halt => cases halt <;> rfl

/-- An operation that is asked to stop before it is started or while it waits for the world sends no more
than is left to send of the level it is at, and goes into no other one. -/
theorem Moves.stops {job : Job} {current : Menu} {ids : IdSupply} {t : Trace} {op : Operation}
    (way : (schedule job current ids).Moves t op) (inTime : op.cancel.1 = true)
    (waits : t = [] ∨ op.pending?.isSome = true) (distinct : current.ids.Nodup)
    (apart : ∀ k < t.drawn, ids.nth k ∉ current.ids) : op.Stops job current t := by
  have started : (schedule job current ids).task = .live (job.run { committed := current }) := rfl
  obtain ⟨d, live, runs⟩ := way.runs started
  have live' : op.cancel.2.task = .live d := live
  have asked : op.cancel.2.lifecycle.cancelRequested = true := Lifecycle.asked_of_cancel inTime
  have pacing := (job.keeps_pacing current).along runs (fair_pacing [] t)
  rw [List.nil_append] at pacing
  constructor
  · intro idle t' op' moves
    obtain ⟨d', -, runs'⟩ := moves.runs live'
    refine pacing.quiet (Option.eq_none_iff_forall_ne_some.mpr fun batch sends => ?_) runs' (moves.told asked)
    exact idle batch ((pending?_eq_send live batch).mpr sends)
  · intro batch pending
    obtain ⟨some, s, planned, due, same, closes⟩ := pacing.closes ((pending?_eq_send live batch).mp pending)
    refine ⟨some, s, planned, due, same, s.rest_ne_nil_iff _, fun t' op' moves => ?_⟩
    obtain ⟨d', live'', runs'⟩ := moves.runs live'
    rw [isDone_of_ending? live'']
    exact closes t' d' runs' (moves.told asked)
  · intro t' op' moves path new old kept unvisited
    let r : Round := ⟨ids, job.target, current, distinct⟩
    obtain ⟨d', live'', runs'⟩ := moves.runs live'
    have reserves := pacing.reserves_none (ask_ne_reserve live runs waits) runs' (moves.told asked)
    obtain ⟨levels, drawn⟩ := Trace.levels_of_reserves_none (t := t) reserves
    -- No ids are drawn after the request, so those drawn before it are all there are.
    have fair : r.resting.Fair [] (t ++ t') :=
      Round.fair_of_draws rfl (way.trans (.stop moves)).draws_schedule (by rwa [List.nil_append, drawn])
    have rests := Round.rests_of_keeps ((r.keeps_resting job rfl).along (runs.trans runs') fair)
    rw [committed, progress, live'']
    refine rests path new old kept ?_
    rw [List.nil_append, Round.visited, levels]
    exact unvisited
  · exact fun world => exists_ended live' world

end Operation

/-! ### An update of two submenus -/

def drawers (first : Menu) : Menu :=
  [{ entry := { title := "Media" }, children := first },
    { entry := { title := "Tools" }, children := [{ entry := { title := "Clock" } }] }]

def drawersJob : Job where
  id := 1
  setup := { settings := {}, uploads := false }
  target := drawers [{ entry := { title := "Play" } },
    { entry := { title := "More" }, children := [{ entry := { title := "Stop" } }] }]
  notifies := true

def oldDrawers : Menu := ((drawers [{ entry := { title := "Play" } }]).withFreshIds (.startingAt 7)).1

namespace Operation

/-- An operation that waits with the addition of a node with something below it, in the first of two
submenus. -/
theorem stops_drawers :
    let op := ((schedule drawersJob oldDrawers default).play (fun _ => .taking true) 2).1
    let t := ((schedule drawersJob oldDrawers default).play (fun _ => .taking true) 2).2
    (op.cancel.1 = true ∧ op.pending?.isSome = true ∧ t.levels = 2) ∧ op.Stops drawersJob oldDrawers t := by
  intro op t
  have way : (schedule drawersJob oldDrawers default).Moves t op := play_moves _ _ 2
  have waits : op.cancel.1 = true ∧ op.pending?.isSome = true ∧ t.levels = 2 := by decide +kernel
  have apart : ∀ k < t.drawn, (default : IdSupply).nth k ∉ oldDrawers.ids := by decide +kernel
  exact ⟨waits, way.stops waits.1 (.inr waits.2.1) (by decide +kernel) apart⟩

end Operation

end RemoteMenu
