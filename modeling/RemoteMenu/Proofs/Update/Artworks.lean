import Mathlib.Data.List.Forall2
import RemoteMenu.Proofs.Dialogue.Parallel
import RemoteMenu.Proofs.Update.Playing
import RemoteMenu.Proofs.Update.Rejections

/-!
# Artworks change nothing else

To upload artworks an update asks about artworks alone and counts artworks alone, so other parts do the same
after it as without it (`Engine.silent_prefetch`). Part by part, then, updates that deal with artworks in
different ways are parallel (`Job.parallel_run`), and if they are not asked to stop they do the same to the menu
on the host (`Job.play_artworks`).
-/

namespace RemoteMenu

open Engine

/-! ### The parts of a level -/

namespace Engine

theorem silent_missing (artworks : List Artwork) : Silent (missing artworks) := by
  induction artworks with
  | nil => exact .pure []
  | cons a as ih => exact (Silent.request (.holds a) not_false).bind fun held => ih.bind fun rest => .pure _

theorem silent_prefetch (menu : Menu) : Silent (prefetch menu) := by
  refine (silent_missing _).bind fun pending => ?_
  split
  · exact .pure _
  · exact (Silent.request (.upload pending) not_false).bind fun failed => .pure _

theorem parallel_send (batch : List Command) : Parallel (· = ·) (send batch) (send batch) := by
  rw [send]
  refine .count (fun _ => rfl) ((Parallel.ask (.world (.send batch)) trivial).seq fun accepted => ?_)
  cases accepted with
  | true => exact .pure rfl
  | false => exact .count (fun _ => rfl) (.pure rfl)

theorem parallel_sendDeletes (nodes : List Node) : Parallel (· = ·) (sendDeletes nodes) (sendDeletes nodes) := by
  unfold sendDeletes
  split
  · exact .pure rfl
  · exact parallel_send _

theorem parallel_sendAdds (layout : Layout) (parent : Option RemoteId) (plan : LevelPlan) :
    Parallel (· = ·) (sendAdds layout parent plan) (sendAdds layout parent plan) := by
  unfold sendAdds
  split
  · exact .pure rfl
  · refine (parallel_send _).seq fun created => ?_
    split
    · exact .pure rfl
    · extract_lets below
      split
      · exact .pure rfl
      · refine (parallel_send _).seq fun nested => ?_
        exact .pure rfl

theorem parallel_commit (path : Path) (level : Menu) :
    Parallel (· = ·) (commit path level) (commit path level) := by
  refine .modify fun now now' alike => ⟨?_, alike.stats⟩
  rw [alike.committed]

theorem parallel_commitRemovals (path : Path) (nodes : List Node) :
    Parallel (· = ·) (commitRemovals path nodes) (commitRemovals path nodes) := by
  refine Parallel.now.bind fun now now' alike => ?_
  rw [alike.committed]
  split
  · exact .pure rfl
  · exact parallel_commit _ _

theorem parallel_ofTransfer {α : Type} (r : Except TransferFailure α) :
    Parallel (· = ·) (ofTransfer r) (ofTransfer r) := by
  match r with
  | .ok a => exact .pure rfl
  | .error (.refused _) => exact .halt _
  | .error (.outside _) => exact .halt _

theorem parallel_settleIds (old new : Menu) (matching : Matching) :
    Parallel (· = ·) (settleIds old new matching) (settleIds old new matching) := by
  refine (parallel_ofTransfer _).seq fun ⟨new, kept⟩ => ?_
  refine (parallel_ofTransfer _).seq fun pairs => ?_
  refine (Parallel.ask (.reserve _) trivial).seq fun ids => ?_
  exact .pure rfl

/-- Artworks are uploaded between what the updates have in common. -/
theorem parallel_prefetch {α : Type} {same : Bool → α → Prop} {m : Engine Bool} {m' : Engine α} (menu : Menu)
    (here : Bool) (h : Parallel same m m') :
    Parallel same (if here then do
      let uploads ← prefetch menu
      count fun s => { s with
        artworksRequested := s.artworksRequested + uploads.requested.length
        artworksFailed := s.artworksFailed + uploads.failed.size }
      m else m) m' := by
  split
  · exact .after (silent_prefetch menu) fun uploads => .after (.count fun _ => rfl) fun _ => h
  · exact h

variable {setup setup' : Setup} (layout : setup.settings.defaultLayout = setup'.settings.defaultLayout)
include layout

theorem parallel_applyPlan (path : Path) (plan : LevelPlan) :
    Parallel (· = ·) (applyPlan setup path plan) (applyPlan setup' path plan) := by
  rw [applyPlan, applyPlan]
  refine .count (fun _ => rfl) ?_
  extract_lets rest rest'
  have level : Parallel (· = ·) (rest ()) (rest' ()) := by
    refine Parallel.checkpoint.seq fun _ => (parallel_sendDeletes _).seq fun removedOk => ?_
    extract_lets adding adding'
    have adds : Parallel (· = ·) (adding ()) (adding' ()) := by
      refine Parallel.checkpoint.seq fun _ => ?_
      rw [layout]
      refine (parallel_sendAdds _ _ _).seq fun adds => ?_
      exact (parallel_commit _ _).seq fun _ => .pure rfl
    split
    · exact (parallel_commitRemovals _ _).seq fun _ => adds
    · exact adds
  exact parallel_prefetch plan.new _ (parallel_prefetch plan.new _ level.symm).symm

end Engine

/-! ### Levels -/

def Descent.Alike (d d' : Descent) : Prop :=
  ∀ (old : Menu) (path : Path), Engine.Parallel (· = ·) (d old path) (d' old path)

theorem rel_descent {descents descents' : List Descent} (below : List.Forall₂ Descent.Alike descents descents')
    (j : Nat) : Option.Rel Descent.Alike descents[j]? descents'[j]? := by
  induction below generalizing j with
  | nil => exact .none
  | cons alike _ ih =>
    cases j with
    | zero => exact .some alike
    | succ j => exact ih j

theorem parallel_descend {descents descents' : List Descent} (below : List.Forall₂ Descent.Alike descents descents')
    (plan : LevelPlan) (path : Path) (pairs : List (Nat × Nat)) :
    Engine.Parallel (· = ·) (descend plan descents path pairs) (descend plan descents' path pairs) := by
  induction pairs with
  | nil => exact .pure rfl
  | cons p pairs ih =>
    obtain ⟨i, j⟩ := p
    rw [descend, descend]
    refine Parallel.checkpoint.seq fun _ => ?_
    cases plan.old[i]? with
    | none => exact .halt _
    | some old =>
      cases plan.new[j]? with
      | none => exact .halt _
      | some new =>
        have both := rel_descent below j
        generalize descents[j]? = d, descents'[j]? = d' at both ⊢
        cases both with
        | none => exact .halt _
        | some alike =>
          dsimp only
          split
          · exact ih
          · exact (alike _ _).seq fun ok => ih.seq fun rest => .pure rfl

section
variable {setup setup' : Setup}

theorem alike_reconcileWith (layout : setup.settings.defaultLayout = setup'.settings.defaultLayout)
    {descents descents' : List Descent} (below : List.Forall₂ Descent.Alike descents descents') (new : Menu) :
    Descent.Alike (reconcileWith setup descents new) (reconcileWith setup' descents' new) := by
  intro old path
  rw [reconcileWith, reconcileWith]
  refine Parallel.checkpoint.seq fun _ => .count (fun _ => rfl) ?_
  split
  · exact .pure rfl
  · refine (parallel_settleIds _ _ _).seq fun plan => ?_
    refine (parallel_applyPlan layout _ _).seq fun ok => ?_
    exact (parallel_descend below _ _ _).seq fun rest => .pure rfl

mutual

theorem Node.alike_descent (layout : setup.settings.defaultLayout = setup'.settings.defaultLayout) :
    (n : Node) → Descent.Alike (n.descent setup) (n.descent setup')
  | ⟨_, children, _, _, _⟩ => by
    rw [Node.descent, Node.descent]
    exact alike_reconcileWith layout (Menu.alike_descents layout children) children

theorem Menu.alike_descents (layout : setup.settings.defaultLayout = setup'.settings.defaultLayout) :
    (menu : Menu) → List.Forall₂ Descent.Alike (Menu.descents setup menu) (Menu.descents setup' menu)
  | [] => by
    rw [Menu.descents, Menu.descents]
    exact .nil
  | n :: ns => by
    rw [Menu.descents, Menu.descents]
    exact .cons (Node.alike_descent layout n) (Menu.alike_descents layout ns)

end

theorem Menu.alike_reconcile (layout : setup.settings.defaultLayout = setup'.settings.defaultLayout) (new : Menu) :
    Descent.Alike (new.reconcile setup) (new.reconcile setup') :=
  alike_reconcileWith layout (Menu.alike_descents layout new) new

end

/-! ### Whole updates -/

structure Report.Alike (report report' : Report) : Prop where
  success : report.success = report'.success
  menu : report.menu = report'.menu
  stats : report.stats.withoutArtworks = report'.stats.withoutArtworks

inductive Outcome.Alike : Outcome → Outcome → Prop
  | finished {report report' : Report} (alike : report.Alike report') : Alike (.finished report) (.finished report')
  | canceled : Alike .canceled .canceled

/-- A report may be handed over at the end of either update. -/
theorem parallel_notify {α β : Type} {same : α → β → Prop} {m : Engine α} {m' : Engine β} (notifies : Bool)
    (report : Report) (h : Engine.Parallel same m m') :
    Engine.Parallel same (if notifies then do
      let _ : Unit ← request (.notify report)
      m else m) m' := by
  split
  · exact .after (.request (.notify report) not_false) fun _ => h
  · exact h

/-- What there is to upload artworks with, and how it goes. -/
structure ArtworkSide where
  uploads : Bool
  prefetch : Bool
  holds : Trace → Artwork → Bool
  upload : Trace → List Artwork → UploadErrors

def Job.withArtworks (job : Job) (side : ArtworkSide) : Job :=
  { job with setup := {
      settings := { job.setup.settings with prefetchArtworks := side.prefetch }
      uploads := side.uploads } }

theorem Job.parallel_run (job : Job) (side side' : ArtworkSide) :
    Engine.Parallel Outcome.Alike (job.withArtworks side).run (job.withArtworks side').run := by
  rw [Job.run, Job.run]
  refine (Parallel.ask (.enter .running) trivial).seq fun start => ?_
  cases start with
  | canceled => exact .pure .canceled
  | refused error => exact .halt _
  | entered =>
    -- Either update asks for the time by itself.
    refine .apart (.request .clock not_false) (.request .clock not_false) fun startedAt startedAt' => ?_
    refine Parallel.now.bind fun now now' alike => ?_
    rw [alike.committed]
    have levels : Descent.Alike (job.target.reconcile (job.withArtworks side).setup)
        (job.target.reconcile (job.withArtworks side').setup) := Menu.alike_reconcile (by rfl) job.target
    refine (levels now'.committed []).attempt.bind fun r r' ends => ?_
    cases ends with
    | error halt =>
      cases halt with
      | canceled => exact .pure .canceled
      | crashed => exact .halt _
      | failed error =>
        refine (Parallel.ask (.enter .finished) trivial).seq fun last => ?_
        cases last <;> exact .halt _
    | @ok success _ same =>
      obtain rfl := same
      refine (Parallel.ask (.enter .finished) trivial).seq fun last => ?_
      cases last with
      | canceled => exact .pure .canceled
      | refused error => exact .halt _
      | entered =>
        refine Parallel.now.bind fun reached reached' alike => ?_
        refine .apart (.request .clock not_false) (.request .clock not_false) fun finishedAt finishedAt' => ?_
        extract_lets report close report' close'
        have closed : Engine.Parallel Outcome.Alike (close ()) (close' ()) :=
          .pure (.finished ⟨rfl, alike.committed, alike.stats⟩)
        exact parallel_notify _ report (parallel_notify _ report' closed.symm).symm

/-! ### Whole updates in a world -/

/-- An update that nobody asks to stop finishes in every world. -/
theorem Job.finishes_in (w : World) (job : Job) (current : Menu) (ids : IdSupply) :
    ∃ now report l t,
      (job.run { committed := current }).playIn w { ids } [] = (((now, .ok (.finished report)), l), t) := by
  -- Nothing has to be known of the trace.
  have played := of_triple_id (@triple_playWith Id .pure _ _ Trace w.answer (fun _ _ => True) (fun _ _ _ _ _ => trivial)
    (fun _ _ _ _ => triple_pure trivial) (job.run { committed := current }) { ids } [] [] trivial)
  obtain ⟨calm, moved, moves, -⟩ := played
  have way : (Operation.schedule job current ids).Moves moved _ := moves
  obtain ⟨report, finished⟩ := way.finished calm
  exact ⟨_, report, _, _, congrArg (fun r => (((_, r), _), _)) finished⟩

theorem Job.run_play (w : World) (job : Job) (current : Menu) (ids : IdSupply) (t : Trace) :
    (job.play current ids w.answer).run t =
      let p := (job.run { committed := current }).playIn w { ids } t
      (p.1.1.2, p.2) := rfl

def ArtworkSide.world (side : ArtworkSide) (channel : Channel) (clock : Trace → Timestamp) : World :=
  { channel, clock, holds := side.holds, upload := side.upload }

/-- Artworks never change what an update does to the menu. Whether there is anything to upload them with, whether
that is wanted, what the host holds of them and what goes wrong with them: any two updates that differ in this
alone, and are not asked to stop, send the same batches to the same channel and finish with the same menu, the
same success and the same counts but for the artworks themselves. -/
theorem Job.play_artworks (job : Job) (current : Menu) (ids : IdSupply) (channel : Channel)
    (side side' : ArtworkSide) (clock clock' : Trace → Timestamp) :
    ∃ report t report' t',
      ((job.withArtworks side).play current ids (side.world channel clock).answer).run [] =
        (.ok (.finished report), t) ∧
      ((job.withArtworks side').play current ids (side'.world channel clock').answer).run [] =
        (.ok (.finished report'), t') ∧
      t.batches = t'.batches ∧ report.success = report'.success ∧ report.menu = report'.menu ∧
      report.stats.withoutArtworks = report'.stats.withoutArtworks := by
  let w := side.world channel clock
  let w' := side'.world channel clock'
  obtain ⟨now, report, l, t, ended⟩ := (job.withArtworks side).finishes_in w current ids
  obtain ⟨now', report', l', t', ended'⟩ := (job.withArtworks side').finishes_in w' current ids
  have start : Progress.Alike { committed := current } { committed := current } := ⟨rfl, rfl⟩
  have both := (job.parallel_run side side' start).playIn w w' rfl { ids } [] [] rfl
  rw [ended, ended'] at both
  obtain ⟨batches, -, ends⟩ := both
  obtain ⟨success, menu, stats⟩ : report.Alike report' := by
    obtain ⟨⟨alike⟩⟩ := ends
    exact alike
  refine ⟨report, t, report', t', ?_, ?_, batches, success, menu, stats⟩
  · rw [Job.run_play, ended]
  · rw [Job.run_play, ended']

end RemoteMenu
