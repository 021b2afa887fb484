import Mathlib.Tactic.Abel
import RemoteMenu.Proofs.Update.Agreement
import RemoteMenu.Proofs.Update.Comparisons

/-!
# What an update counts

A counter of an update goes up by what is compared or by what is asked of the world. So what is counted from one point
of an update to another is told by the comparisons and the requests in between (`Counted`), and whether a part of it
went well is whether none of its batches was rejected.
-/

namespace RemoteMenu

open Engine

/-! ### Sums of counts -/

instance : Add Stats where
  add a b := {
    nodesKept := a.nodesKept + b.nodesKept
    nodesAdded := a.nodesAdded + b.nodesAdded
    nodesRemoved := a.nodesRemoved + b.nodesRemoved
    levelsVisited := a.levelsVisited + b.levelsVisited
    batchesSent := a.batchesSent + b.batchesSent
    batchesFailed := a.batchesFailed + b.batchesFailed
    commandsSent := a.commandsSent + b.commandsSent
    artworksRequested := a.artworksRequested + b.artworksRequested
    artworksFailed := a.artworksFailed + b.artworksFailed }

instance : Zero Stats where
  zero := {}

theorem Stats.ext_iff {a b : Stats} : a = b ↔
    a.nodesKept = b.nodesKept ∧ a.nodesAdded = b.nodesAdded ∧ a.nodesRemoved = b.nodesRemoved ∧
    a.levelsVisited = b.levelsVisited ∧ a.batchesSent = b.batchesSent ∧ a.batchesFailed = b.batchesFailed ∧
    a.commandsSent = b.commandsSent ∧ a.artworksRequested = b.artworksRequested ∧
    a.artworksFailed = b.artworksFailed := by
  cases a
  cases b
  simp

instance : AddCommMonoid Stats where
  add_assoc a b c := by
    refine Stats.ext_iff.mpr ⟨?_, ?_, ?_, ?_, ?_, ?_, ?_, ?_, ?_⟩ <;> exact Nat.add_assoc ..
  zero_add a := by
    refine Stats.ext_iff.mpr ⟨?_, ?_, ?_, ?_, ?_, ?_, ?_, ?_, ?_⟩ <;> exact Nat.zero_add _
  add_zero a := rfl
  add_comm a b := by
    refine Stats.ext_iff.mpr ⟨?_, ?_, ?_, ?_, ?_, ?_, ?_, ?_, ?_⟩ <;> exact Nat.add_comm ..
  nsmul := nsmulRec

def Stats.ofComparisons (cs : List Comparison) : Stats where
  nodesKept := (cs.map (·.kept.length)).sum
  nodesAdded := (cs.map (·.added.length)).sum
  nodesRemoved := (cs.map (·.removed.length)).sum
  levelsVisited := cs.length

theorem Stats.ofComparisons_append (cs cs' : List Comparison) :
    ofComparisons (cs ++ cs') = ofComparisons cs + ofComparisons cs' := by
  refine ext_iff.mpr ⟨?_, ?_, ?_, ?_, rfl, rfl, rfl, rfl, rfl⟩
  · simp only [ofComparisons, List.map_append, List.sum_append]
    rfl
  · simp only [ofComparisons, List.map_append, List.sum_append]
    rfl
  · simp only [ofComparisons, List.map_append, List.sum_append]
    rfl
  · exact List.length_append

def Trace.stats (t : Trace) : Stats where
  batchesSent := t.batches.length
  batchesFailed := t.batches.countP (!·.2)
  commandsSent := (t.batches.map (·.1.length)).sum
  artworksRequested := (t.uploads.map (·.requested.length)).sum
  artworksFailed := (t.uploads.map (·.failed.size)).sum

theorem Trace.stats_append (s t : Trace) : stats (s ++ t) = stats s + stats t := by
  refine Stats.ext_iff.mpr ⟨rfl, rfl, rfl, rfl, ?_, ?_, ?_, ?_, ?_⟩
  · simp only [stats, batches_append, List.length_append]
    rfl
  · simp only [stats, batches_append, List.countP_append]
    rfl
  · simp only [stats, batches_append, List.map_append, List.sum_append]
    rfl
  · simp only [stats, uploads_append, List.map_append, List.sum_append]
    rfl
  · simp only [stats, uploads_append, List.map_append, List.sum_append]
    rfl

/-! ### What is counted in between -/

/-- What an update does from one point to another: it compares what counts as `own`, asks for some uploads, and sends
batches, none of which is rejected just if all goes well. -/
def Counted (own : Stats) (uploads : List UploadReport) (t : Trace) (now : Progress) (t' : Trace) (now' : Progress)
    (ok : Bool) : Prop :=
  ∃ extra : Trace, t' = t ++ extra ∧ extra.entered = [] ∧ extra.uploads = uploads ∧
    now'.stats = now.stats + own + extra.stats ∧ (ok = true ↔ extra.stats.batchesFailed = 0)

namespace Counted

variable {own own' : Stats} {uploads uploads' : List UploadReport} {t t' t'' : Trace} {now now' now'' : Progress}
  {ok ok' : Bool}

theorem rest : Counted 0 [] t now t now true :=
  ⟨[], (List.append_nil t).symm, rfl, rfl, rfl, by simp [Trace.stats, Trace.batches]⟩

theorem trans (h : Counted own uploads t now t' now' ok) (h' : Counted own' uploads' t' now' t'' now'' ok') :
    Counted (own + own') (uploads ++ uploads') t now t'' now'' (ok && ok') := by
  obtain ⟨extra, rfl, entered, fetched, stats, well⟩ := h
  obtain ⟨extra', rfl, entered', fetched', stats', well'⟩ := h'
  refine ⟨extra ++ extra', List.append_assoc .., ?_, ?_, ?_, ?_⟩
  · rw [Trace.entered_append, entered, entered', List.append_nil]
  · rw [Trace.uploads_append, fetched, fetched']
  · rw [stats', stats, Trace.stats_append]
    abel
  · have sum : (Trace.stats (extra ++ extra')).batchesFailed =
        (Trace.stats extra).batchesFailed + (Trace.stats extra').batchesFailed := by
      rw [Trace.stats_append]
      rfl
    rw [sum, Bool.and_eq_true, well, well']
    omega

/-- What goes on without counting anything by itself. -/
theorem further (h : Counted own uploads t now t' now' ok) (h' : Counted 0 [] t' now' t'' now'' ok') :
    Counted own uploads t now t'' now'' (ok && ok') := by
  have both := h.trans h'
  rwa [add_zero, List.append_nil] at both

theorem count (own : Stats) : Counted own [] t now t { now with stats := now.stats + own } true :=
  ⟨[], (List.append_nil t).symm, rfl, rfl, rfl, by simp [Trace.stats, Trace.batches]⟩

theorem poll : Counted 0 [] t now (t ++ [⟨.poll, false⟩]) now true :=
  ⟨_, rfl, rfl, rfl, rfl, by simp [Trace.stats, Trace.batches, Exchange.batch?]⟩

theorem reserve (count : Nat) (ids : IdSupply) : Counted 0 [] t now (t ++ [⟨.reserve count, ids⟩]) now true :=
  ⟨_, rfl, rfl, rfl, rfl, by simp [Trace.stats, Trace.batches, Exchange.batch?]⟩

theorem send (batch : List Command) (accepted : Bool) : Counted 0 [] t now
    (t ++ [⟨.world (.send batch), accepted⟩]) ((now.sending batch).answered accepted) accepted := by
  refine ⟨_, rfl, rfl, rfl, ?_, ?_⟩
  · cases accepted <;> rfl
  · cases accepted <;> simp [Trace.stats, Trace.batches, Exchange.batch?]

end Counted

section
variable {w : Course} {t : Trace} {now : Progress} {setup : Setup} {path : Path} {plan : LevelPlan}

theorem counted_deleteStage :
    (deleteStage path plan).Meets (exactly w) t now fun t' now' r =>
      ∃ ok, r = .ok ok ∧ Counted 0 [] t now t' now' ok := by
  rw [deleteStage, meets_bind]
  refine meets_sendDeletes (fun none => ?_) fun some => (meets_send _).mpr ⟨trivial, fun accepted _ => ?_⟩
  · rw [onward_ok, none]
    exact ⟨true, rfl, .rest⟩
  · rw [onward_ok]
    split
    · rw [meets_bind]
      exact meets_commitRemovals_of_any fun _ => ⟨accepted, rfl, .send _ accepted⟩
    · exact ⟨accepted, rfl, .send _ accepted⟩

theorem counted_addStage (removedOk : Bool) :
    (addStage setup path plan removedOk).Meets (exactly w) t now fun t' now' r =>
      ∃ ok, r = .ok (removedOk && ok) ∧ Counted 0 [] t now t' now' ok := by
  -- Recording the additions counts nothing.
  have record (t' : Trace) (now' : Progress) (adds : AddOutcome) (counted : Counted 0 [] t now t' now' adds.succeeded) :
      (do Engine.commit path (plan.committed removedOk adds)
          pure (removedOk && adds.succeeded) : Engine Bool).Meets (exactly w) t' now' fun t' now' r =>
        ∃ ok, r = .ok (removedOk && ok) ∧ Counted 0 [] t now t' now' ok := by
    rw [meets_bind]
    exact meets_commit_of_any fun _ => ⟨_, rfl, counted⟩
  rw [addStage, meets_bind]
  refine meets_sendAdds (fun _ => record _ _ _ .rest) fun _ => (meets_send _).mpr ⟨trivial, fun created _ => ?_⟩
  cases created with
  | false => exact record _ _ _ (.send _ false)
  | true =>
    refine ⟨fun _ => record _ _ _ (.send _ true), fun _ => ?_⟩
    refine (meets_send _).mpr ⟨trivial, fun nested _ => ?_⟩
    exact record _ _ _ (Counted.further (.send _ true) (.send _ nested))

theorem counted_batches :
    (batches setup path plan).Meets (exactly w) t now fun t' now' r =>
      ∃ ok, r = .ok ok ∧ Counted 0 [] t now t' now' ok := by
  rw [batches]
  refine meets_stop ((lenient_exactly w).polls _ _) (fun stopped => by cases stopped) fun _ => ?_
  rw [meets_bind]
  refine counted_deleteStage.mono fun t₁ now₁ r deletes => ?_
  obtain ⟨removedOk, rfl, deletes⟩ := deletes
  rw [onward_ok]
  refine meets_stop ((lenient_exactly w).polls _ _) (fun stopped => by cases stopped) fun _ => ?_
  refine (counted_addStage removedOk).mono fun t₂ now₂ r adds => ?_
  obtain ⟨ok, rfl, adds⟩ := adds
  have way := ((Counted.poll.further deletes).further .poll).further adds
  rw [Bool.true_and, Bool.and_true] at way
  exact ⟨_, rfl, way⟩

end

/-! ### Artworks -/

theorem firstOfName_spec (seen : List String) (artworks : List Artwork) :
    ((firstOfName seen artworks).map Artwork.name).Nodup ∧
      ∀ name ∈ (firstOfName seen artworks).map Artwork.name, name ∉ seen := by
  induction artworks generalizing seen with
  | nil => exact ⟨List.nodup_nil, nofun⟩
  | cons a as ih =>
    rw [firstOfName]
    split
    · exact ih seen
    · next new =>
      obtain ⟨distinct, fresh⟩ := ih (a.name :: seen)
      rw [List.map_cons]
      refine ⟨List.nodup_cons.mpr ⟨fun again => fresh _ again (List.mem_cons_self ..), distinct⟩, ?_⟩
      exact List.forall_mem_cons.mpr ⟨new, fun name later seen => fresh name later (List.mem_cons_of_mem _ seen)⟩

/-- Whether uploads are such as the level at a path asks for: one at the top, of no artwork twice, or none. -/
def UploadsAt (path : Path) (uploads : List UploadReport) : Prop :=
  uploads = [] ∨ path = [] ∧ ∃ report, uploads = [report] ∧ report.requested.Nodup

theorem Fetched.uploadsAt {menu : Menu} {extra : Trace} {report : UploadReport} (h : Fetched menu extra report)
    {path : Path} (top : path ≠ [] → extra = []) : UploadsAt path extra.uploads := by
  rcases h.uploads with ⟨-, none⟩ | one
  · exact .inl none
  · refine .inr ⟨?_, report, one, h.requested.nodup (firstOfName_spec [] _).1⟩
    by_contra inner
    rw [top inner] at one
    cases one

def LevelPlan.counts (plan : LevelPlan) : Stats where
  nodesKept := plan.pairs.length
  nodesAdded := plan.added.length
  nodesRemoved := plan.removed.length

theorem Counted.planned {t : Trace} {now : Progress} {plan : LevelPlan} {extra : Trace} {report : UploadReport}
    (fetched : Fetched plan.new extra report) :
    Counted plan.counts extra.uploads t now (t ++ extra) (now.planned plan report) true := by
  have aside : ∀ e ∈ extra, e.inquiry.Aside := fun e he => (fetched.artworks e he).aside
  have entered : extra.entered = [] := @Trace.entered_aside [] extra aside
  have batches : extra.batches = [] := @Trace.batches_aside [] extra aside
  refine ⟨extra, rfl, entered, rfl, ?_, by simp [Trace.stats, batches]⟩
  rcases fetched.uploads with ⟨rfl, none⟩ | one
  · rw [Trace.stats, batches, none]
    rfl
  · rw [Trace.stats, batches, one]
    rfl

/-! ### Levels -/

/-- Whether a way into nodes that are to become `new` counts what there is to compare. -/
def Tallies (w : Course) (new : Menu) (d : Descent) : Prop :=
  ∀ (old : Menu) (path : Path) (t : Trace) (now : Progress), (d old path).Meets (exactly w) t now fun t' now' r =>
    ∃ ok uploads, r = .ok ok ∧ UploadsAt path uploads ∧
      Counted (.ofComparisons (Comparison.walk ⟨old, new⟩)) uploads t now t' now' ok

section
variable {w : Course} {t : Trace} {now : Progress} {setup : Setup} {old new : Menu} {m : Matching}

theorem tallies_descend (found : Matching.ofMenus old new = some m) {descents : List Descent}
    (below : ∀ (j : Nat) (n : Node), new[j]? = some n → ∃ d, descents[j]? = some d ∧ Tallies w n.children d)
    {ids : IdSupply} {path : Path} {pairs : List (Nat × Nat)} (sub : pairs ⊆ m.pairs) :
    (descend (m.plan ids old new) descents path pairs).Meets (exactly w) t now fun t' now' r => ∃ ok, r = .ok ok ∧
      Counted (.ofComparisons ((Comparison.belowPairs ⟨old, new⟩ pairs).flatMap Comparison.walk)) [] t now t' now'
        ok := by
  induction pairs generalizing t now with
  | nil => exact ⟨true, rfl, .rest⟩
  | cons p pairs ih =>
    obtain ⟨i, j⟩ := p
    obtain ⟨o, n, ho, hn, -, seat⟩ := (Matching.fits_of_ofKeys found).seat_of_pair ids (sub (List.mem_cons_self ..))
    obtain ⟨d, hd, tallies⟩ := below j n hn
    have hnew := Matching.getElem?_plan seat
    have hold : (m.plan ids old new).old[i]? = some o := ho
    have others {t : Trace} {now : Progress} := @ih t now fun p hp => sub (List.mem_cons_of_mem _ hp)
    rw [descend, Comparison.belowPairs_cons pairs ho hn]
    refine meets_stop ((lenient_exactly w).polls _ _) (fun stopped => by cases stopped) fun _ => ?_
    rw [hold, hnew, hd]
    dsimp only
    split
    · next empty =>
      have none : Comparison.HasBelow (o, n) = false := congrArg not empty
      rw [none, if_neg Bool.false_ne_true, List.nil_append]
      refine others.mono fun t' now' r rest => ?_
      obtain ⟨ok, rfl, counted⟩ := rest
      have way := Counted.poll.trans counted
      rw [zero_add] at way
      exact ⟨ok, rfl, way⟩
    · next some =>
      have some : Comparison.HasBelow (o, n) = true := congrArg not (Bool.eq_false_iff.mpr some)
      rw [if_pos some, meets_bind]
      refine (tallies _ _ _ _).mono fun t' now' r inner => ?_
      obtain ⟨ok, uploads, rfl, one, counted⟩ := inner
      obtain rfl : uploads = [] := one.resolve_right fun top => by simp at top
      rw [onward_ok, meets_bind]
      refine others.mono fun t'' now'' r rest => ?_
      obtain ⟨ok', rfl, counted'⟩ := rest
      have way := (Counted.poll.trans counted).trans counted'
      rw [zero_add, ← Stats.ofComparisons_append] at way
      exact ⟨ok && ok', rfl, way⟩

theorem counts_plan (found : Matching.ofMenus old new = some m) (ids : IdSupply) :
    { levelsVisited := 1 } + (m.plan ids old new).counts = Stats.ofComparisons [⟨old, new⟩] := by
  have matching : Comparison.matching ⟨old, new⟩ = m := Comparison.matching_of_found found
  obtain ⟨kept, -, added⟩ := Comparison.lengths_matching ⟨old, new⟩
  have gone : (m.plan ids old new).removed = Comparison.removed ⟨old, new⟩ := by
    rw [Comparison.removed, matching]
    rfl
  rw [matching] at kept added
  refine Stats.ext_iff.mpr ⟨?_, ?_, ?_, rfl, rfl, rfl, rfl, rfl, rfl⟩
  · change 0 + m.pairs.length = (Comparison.kept ⟨old, new⟩).length + 0
    omega
  · change 0 + m.added.length = (Comparison.added ⟨old, new⟩).length + 0
    omega
  · change 0 + (m.plan ids old new).removed.length = (Comparison.removed ⟨old, new⟩).length + 0
    rw [gone]
    omega

theorem tallies_reconcileWith {descents : List Descent} (below : ∀ (j : Nat) (n : Node), new[j]? = some n →
    ∃ d, descents[j]? = some d ∧ Tallies w n.children d) :
    Tallies w new (reconcileWith setup descents new) := by
  intro old path t now
  rw [reconcileWith]
  refine meets_stop ((lenient_exactly w).polls _ _) (fun stopped => by cases stopped) fun _ => ?_
  rw [meets_bind, meets_count, onward_ok]
  have visited := (@Counted.poll t now).trans (.count { levelsVisited := 1 })
  rw [zero_add] at visited
  cases found : Matching.ofMenus old new with
  | none =>
    rcases Comparison.matching_cases ⟨old, new⟩ with ⟨empty, none⟩ | ⟨some, -⟩
    · have own : Stats.ofComparisons (Comparison.walk ⟨old, new⟩) = { levelsVisited := 1 } := by
        rw [Comparison.walk_eq, empty]
        rfl
      rw [own]
      exact ⟨true, [], rfl, .inl rfl, visited⟩
    · rw [found] at some
      cases some
  | some m =>
    have fits := Matching.fits_of_ofKeys found
    dsimp only
    rw [meets_bind]
    refine fits.meets_settleIds.mpr ⟨trivial, fun ids _ => ?_⟩
    have settled := visited.further (.reserve (Menu.freshCount m.newStates new) ids)
    rw [onward_ok, meets_bind]
    refine meets_applyPlan_of_fetched ((lenient_exactly w).questions _ _) fun extra report top fetched => ?_
    have planned := settled.trans (.planned fetched)
    refine counted_batches.mono fun t₁ now₁ r sent => ?_
    obtain ⟨ok, rfl, sent⟩ := sent
    rw [onward_ok, meets_bind]
    refine (tallies_descend found below (List.Subset.refl _)).mono fun t₂ now₂ r inner => ?_
    obtain ⟨ok', rfl, inner⟩ := inner
    have way := (planned.further sent).trans inner
    have own : Comparison.belowPairs ⟨old, new⟩ m.pairs = Comparison.below ⟨old, new⟩ := by
      rw [Comparison.below, Comparison.matching_of_found found]
    rw [counts_plan found, own, ← Stats.ofComparisons_append, List.nil_append, List.append_nil] at way
    rw [Comparison.walk_eq]
    exact ⟨ok && ok', _, rfl, fetched.uploadsAt top, way⟩

end

theorem Menu.tallies_reconcile (w : Course) (setup : Setup) (new : Menu) : Tallies w new (new.reconcile setup) :=
  Menu.reconcile_induction (fun _ _ below => tallies_reconcileWith below) new

/-! ### Whole updates -/

theorem Trace.stats_outer {t : Trace} (outer : ∀ e ∈ t, e.inquiry.Outer) : t.stats = 0 := by
  obtain ⟨batches, -, uploads⟩ := outer_spec outer
  rw [stats, batches, uploads]
  rfl

/-- An update that is not asked to stop reports the counts of its comparisons and of its requests. -/
theorem Job.keeps_tallies {w : Course} {current : Menu} (job : Job) :
    (job.run { committed := current }).Keeps (exactly w) (fun t _ r => ∃ report, r = .ok (.finished report) ∧
      report.stats = .ofComparisons (Comparison.walk ⟨current, job.target⟩) + t.stats ∧
      (report.success = true ↔ t.stats.batchesFailed = 0) ∧ UploadsAt [] t.uploads) [] := by
  refine (@Job.keeps_around w current job (fun t now ok =>
    now.stats = .ofComparisons (Comparison.walk ⟨current, job.target⟩) + t.stats ∧
    (ok = true ↔ t.stats.batchesFailed = 0) ∧ UploadsAt [] t.uploads) ?_).mono ?_
  · intro t entered outer
    refine (Menu.tallies_reconcile w job.setup job.target current [] t _).mono fun t' now' r tallied => ?_
    obtain ⟨ok, uploads, rfl, one, extra, rfl, quiet, fetched, stats, well⟩ := tallied
    have none : t.uploads = [] := (Trace.outer_spec outer).2.2
    have own : Trace.stats (t ++ extra) = extra.stats := by
      rw [Trace.stats_append, Trace.stats_outer outer, zero_add]
    refine ⟨?_, ok, rfl, ?_, ?_, ?_⟩
    · rw [Trace.entered_append, quiet, entered]
      rfl
    · rw [stats, own]
      exact congrArg (· + extra.stats) (zero_add _)
    · rw [own]
      exact well
    · rw [Trace.uploads_append, none, fetched]
      exact one
  · rintro t now r ⟨report, rfl, -, stats, u, closing, rfl, outer, counted, success, one⟩
    have none : Trace.uploads closing = [] := (Trace.outer_spec outer).2.2
    have own : Trace.stats (u ++ closing) = u.stats := by
      rw [Trace.stats_append, Trace.stats_outer outer, add_zero]
    rw [own, Trace.uploads_append, none, List.append_nil]
    exact ⟨report, rfl, stats.trans counted, success, one⟩

/-- A report tells the counts of the comparisons and of the requests of its update. -/
theorem Operation.Moves.tallies {job : Job} {current : Menu} {ids : IdSupply} {t : Trace} {op : Operation}
    {report : Report} (way : (schedule job current ids).Moves t op)
    (ended : op.ending? = some (.returned (.finished report))) :
    report.stats = .ofComparisons (Comparison.walk ⟨current, job.target⟩) + t.stats ∧
      (report.success = true ↔ t.stats.batchesFailed = 0) ∧ UploadsAt [] t.uploads := by
  have keeps := @Job.keeps_tallies ⟨ids, t.verdict, []⟩ current job
  obtain ⟨now, r, done, report', rfl, tallied⟩ :=
    way.concludes (Watch.calm_of_finished way ended) ended (by simp) keeps
  cases ending_of_done done ended
  exact tallied

end RemoteMenu
