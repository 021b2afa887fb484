import RemoteMenu.Proofs.Update.Pairings
import RemoteMenu.Proofs.Update.Rejections

/-!
# Updates with nothing to send

Two menus are unchanged if the levels that stand opposite each other have the same content keys, in any order
(`Unchanged`). Then an update finds nothing to do at any of these levels (`Settles`); and where one of them differs,
there is something on the agenda (`Agenda.Reveals`). So an update sends nothing just if the menus are unchanged
(`Operation.sends_nothing_iff`).
-/

namespace RemoteMenu

open Engine

/-- Levels that stand opposite each other: two menus, and what is below two nodes of the same rank at such levels, if
there is anything below either of them. -/
inductive Counterparts : (old new old' new' : Menu) → Prop
  | top (old new : Menu) : Counterparts old new old new
  | under {old new old' new' : Menu} {o n : Node} (same : SameRank old new o n)
      (some : o.children ≠ [] ∨ n.children ≠ []) (further : Counterparts o.children n.children old' new') :
      Counterparts old new old' new'

/-- Whether all levels that stand opposite each other have the same content keys, in any order. -/
def Unchanged (old new : Menu) : Prop :=
  ∀ old' new', Counterparts old new old' new' → (old'.map Node.contentKey).Perm (new'.map Node.contentKey)

theorem Unchanged.of_level {old new : Menu} (keys : (old.map Node.contentKey).Perm (new.map Node.contentKey))
    (below : ∀ o n, SameRank old new o n → (o.children ≠ [] ∨ n.children ≠ []) → Unchanged o.children n.children) :
    Unchanged old new := by
  intro old' new' levels
  cases levels with
  | top => exact keys
  | under same some further => exact below _ _ same some _ _ further

section
variable {old new : Menu} {m : Matching}

theorem Unchanged.nothing (h : Unchanged old new) (found : Matching.ofMenus old new = some m) :
    m.removed = [] ∧ m.added = [] :=
  Matching.unchanged_of_perm found (h _ _ (.top old new))

theorem Unchanged.removed_nil (h : Unchanged old new) (found : Matching.ofMenus old new = some m) (ids : IdSupply) :
    (m.plan ids old new).removed = [] := by
  rw [LevelPlan.removed, Matching.plan, (h.nothing found).1]
  rfl

theorem Unchanged.of_pair (h : Unchanged old new) (found : Matching.ofMenus old new = some m) {i j : Nat}
    (pair : (i, j) ∈ m.pairs) {o n : Node} (ho : old[i]? = some o) (hn : new[j]? = some n)
    (some : o.children ≠ [] ∨ n.children ≠ []) : Unchanged o.children n.children := by
  intro old' new' further
  exact h _ _ (.under (Matching.sameRank_of_pair found pair ho hn) some further)

end

/-! ### Nothing to do -/

/-- What is known of a running update that has sent no batch, drawn no id and counted no command. -/
structure Still (t : Trace) (now : Progress) : Prop where
  entered : t.entered = [.running]
  batches : t.batches = []
  drawn : t.drawn = 0
  commands : now.stats.commandsSent = 0

def Rested (t : Trace) (now : Progress) (r : Except Halt Bool) : Prop := Still t now ∧ r = .ok true

namespace Still

variable {w : Course} {t : Trace} {now : Progress} {setup : Setup} {path : Path}

theorem aside (h : Still t now) {extra : Trace} (aside : ∀ e ∈ extra, e.inquiry.Aside) {now' : Progress}
    (same : now'.stats.commandsSent = now.stats.commandsSent) : Still (t ++ extra) now' where
  entered := (Trace.entered_aside aside).trans h.entered
  batches := (Trace.batches_aside aside).trans h.batches
  drawn := (Trace.drawn_aside aside).trans h.drawn
  commands := same.trans h.commands

theorem meets_stop (h : Still t now) {α : Type} {f : Unit → Engine α}
    {post : Trace → Progress → Except Halt α → Prop}
    (onward : ∀ t, Still t now → (f ()).Meets (exactly w) t now post) :
    (checkpoint >>= f).Meets (exactly w) t now post :=
  Engine.meets_stop ((lenient_exactly w).polls _ _) (fun stopped => by cases stopped) fun _ =>
    onward _ (h.aside (by simp [Inquiry.Aside]) rfl)

/-- A level with nothing to do is put back at its path as it was planned. -/
theorem meets_applyPlan (h : Still t now) {plan : LevelPlan} (removed : plan.removed = []) (added : plan.added = [])
    {post : Trace → Progress → Except Halt Bool → Prop}
    (after : ∀ t now', Still t now' → now'.committed =
      (Menu.replaceLevel (plan.committed true ⟨true, true⟩) path now.committed).getD now.committed →
        post t now' (.ok true)) :
    (applyPlan setup path plan).Meets (exactly w) t now post := by
  refine Engine.meets_applyPlan ((lenient_exactly w).questions _ _) fun extra now' artworks before commands => ?_
  have h := h.aside (fun e he => (artworks e he).aside) commands
  rw [RemoteMenu.Engine.batches]
  refine h.meets_stop fun t h => ?_
  rw [deleteStage, meets_bind, meets_bind]
  refine meets_sendDeletes (fun _ => ?_) fun some => absurd removed some
  rw [onward_ok, removed]
  refine h.meets_stop fun t h => ?_
  rw [addStage, meets_bind]
  refine meets_sendAdds (fun _ => ?_) fun some => absurd added some
  rw [onward_ok, meets_bind, commit, meets_modify, onward_ok, before]
  exact after _ _ ⟨h.entered, h.batches, h.drawn, h.commands⟩ rfl

/-- A level with nothing to do is put back at its path, and then its kept submenus are gone into. -/
theorem meets_reconcileWith (h : Still t now) {old new : Menu} (same : Unchanged old new) {descents : List Descent}
    {post : Trace → Progress → Except Halt Bool → Prop}
    (nothing : Matching.ofMenus old new = none → ∀ t now', Still t now' → post t now' (.ok true))
    (onward : ∀ m ids t now', Matching.ofMenus old new = some m → Still t now' → now'.committed =
      (Menu.replaceLevel ((m.plan ids old new).committed true ⟨true, true⟩) path now.committed).getD now.committed →
        (descend (m.plan ids old new) descents path m.pairs).Meets (exactly w) t now' post) :
    (reconcileWith setup descents new old path).Meets (exactly w) t now post := by
  rw [reconcileWith]
  refine h.meets_stop fun t h => ?_
  rw [meets_bind, meets_count, onward_ok]
  have counted : Still t { now with stats := { now.stats with levelsVisited := now.stats.levelsVisited + 1 } } :=
    ⟨h.entered, h.batches, h.drawn, h.commands⟩
  cases found : Matching.ofMenus old new with
  | none => exact nothing found _ _ counted
  | some m =>
    have fits := Matching.fits_of_ofKeys found
    obtain ⟨-, added⟩ := same.nothing found
    dsimp only
    rw [meets_bind]
    refine fits.meets_settleIds.mpr ⟨trivial, fun ids _ => ?_⟩
    have reserved : Still (t ++ [⟨.reserve (Menu.freshCount m.newStates new), ids⟩])
        { now with stats := { now.stats with levelsVisited := now.stats.levelsVisited + 1 } } := by
      refine ⟨?_, ?_, ?_, counted.commands⟩
      · rw [Trace.entered_reserve, counted.entered]
      · rw [Trace.batches_reserve, counted.batches]
      · rw [Trace.drawn_reserve, counted.drawn, fits.freshCount_eq_zero added]
    rw [onward_ok, meets_bind]
    refine reserved.meets_applyPlan (same.removed_nil found ids) added fun t now' h committed => ?_
    rw [onward_ok, meets_bind]
    refine (onward m ids t now' found h committed).mono fun t now r ended => ?_
    cases r <;> exact ended

section
variable {plan : LevelPlan} {descents : List Descent} {d : Descent} {i j : Nat} {pairs : List (Nat × Nat)} {o k : Node}
  {post : Trace → Progress → Except Halt Bool → Prop}

theorem meets_pass (h : Still t now) (ho : plan.old[i]? = some o) (hk : plan.new[j]? = some k)
    (hd : descents[j]? = some d) (leaves : o.children = [] ∧ k.children = [])
    (onward : ∀ t, Still t now → (descend plan descents path pairs).Meets (exactly w) t now post) :
    (descend plan descents path ((i, j) :: pairs)).Meets (exactly w) t now post := by
  rw [descend]
  refine h.meets_stop fun t h => ?_
  rw [ho, hk, hd]
  dsimp only
  rw [if_pos (by simp [leaves])]
  exact onward t h

theorem meets_enter (h : Still t now) (ho : plan.old[i]? = some o) (hk : plan.new[j]? = some k)
    (hd : descents[j]? = some d) (some : o.children ≠ [] ∨ k.children ≠ [])
    (inside : ∀ t, Still t now → (d o.children (path ++ [k.remoteId])).Meets (exactly w) t now fun t now r =>
      r = .ok true ∧ (descend plan descents path pairs).Meets (exactly w) t now post) :
    (descend plan descents path ((i, j) :: pairs)).Meets (exactly w) t now post := by
  rw [descend]
  refine h.meets_stop fun t h => ?_
  rw [ho, hk, hd]
  dsimp only
  rw [if_neg (by simpa [Classical.or_iff_not_imp_left] using some), meets_bind]
  refine (inside t h).mono fun t now r entered => ?_
  obtain ⟨rfl, others⟩ := entered
  rw [onward_ok, meets_bind]
  refine others.mono fun t now r ended => ?_
  cases r <;> exact ended

end

end Still

/-- Whether a way into nodes that are to become `new` finds nothing to do in what is unchanged. -/
def Settles (w : Course) (new : Menu) (d : Descent) : Prop :=
  ∀ (old : Menu) (path : Path) (t : Trace) (now : Progress), Unchanged old new → Still t now →
    (d old path).Meets (exactly w) t now Rested

section
variable {w : Course} {t : Trace} {now : Progress} {setup : Setup} {old new : Menu} {m : Matching}

theorem settles_descend (same : Unchanged old new) (found : Matching.ofMenus old new = some m)
    {descents : List Descent} (below : ∀ (j : Nat) (n : Node), new[j]? = some n →
      ∃ d, descents[j]? = some d ∧ Settles w n.children d) {ids : IdSupply} {path : Path}
    {pairs : List (Nat × Nat)} (sub : pairs ⊆ m.pairs) (h : Still t now) :
    (descend (m.plan ids old new) descents path pairs).Meets (exactly w) t now Rested := by
  induction pairs generalizing t now with
  | nil => exact ⟨h, rfl⟩
  | cons p pairs ih =>
    obtain ⟨i, j⟩ := p
    have pair := sub (List.mem_cons_self ..)
    obtain ⟨o, n, ho, hn, -, seat⟩ := (Matching.fits_of_ofKeys found).seat_of_pair ids pair
    obtain ⟨d, hd, settles⟩ := below j n hn
    have hnew := Matching.getElem?_plan seat
    have others {t : Trace} {now : Progress} (h : Still t now) :=
      @ih t now (fun p hp => sub (List.mem_cons_of_mem _ hp)) h
    by_cases leaves : o.children = [] ∧ n.children = []
    · exact h.meets_pass ho hnew hd leaves fun t h => others h
    · have some : o.children ≠ [] ∨ n.children ≠ [] := Classical.not_and_iff_not_or_not.mp leaves
      refine h.meets_enter ho hnew hd some fun t h => ?_
      refine (settles _ _ t now (same.of_pair found pair ho hn some) h).mono fun t now r rested => ?_
      exact ⟨rested.2, others rested.1⟩

theorem settles_reconcileWith {descents : List Descent} (below : ∀ (j : Nat) (n : Node), new[j]? = some n →
    ∃ d, descents[j]? = some d ∧ Settles w n.children d) :
    Settles w new (reconcileWith setup descents new) := by
  intro old path t now same h
  refine h.meets_reconcileWith same (fun _ t now h => ⟨h, rfl⟩) fun m ids t now found h _ => ?_
  exact settles_descend same found below (List.Subset.refl _) h

end

theorem Menu.settles_reconcile (w : Course) (setup : Setup) (new : Menu) : Settles w new (new.reconcile setup) :=
  Menu.reconcile_induction (fun _ _ below => settles_reconcileWith below) new

/-- An update of a menu that is unchanged reports that there was nothing to do, if it is not asked to stop. -/
theorem Job.keeps_still {w : Course} {job : Job} {menu : Menu} (same : Unchanged menu job.target) :
    (job.run { committed := menu }).Keeps (exactly w) (fun t _ r => ∃ report, r = .ok (.finished report) ∧
      report.success = true ∧ report.stats.isNoop = true ∧ t.batches = [] ∧ t.drawn = 0) [] := by
  refine (@Job.keeps_of_levels w menu job (fun t now ok => Still t now ∧ ok = true) ?_).mono ?_
  · intro t entered batches drawn
    have settles := Menu.settles_reconcile w job.setup job.target
    refine (settles menu [] t _ same ⟨entered, batches, drawn, rfl⟩).mono fun t now r rested => ?_
    obtain ⟨h, rfl⟩ := rested
    exact ⟨h.entered, true, rfl, h, rfl⟩
  · rintro t now r ⟨report, rfl, -, stats, u, batches, drawn, still, success⟩
    refine ⟨report, rfl, success, ?_, batches.trans still.batches, drawn.trans still.drawn⟩
    rw [stats, Stats.isNoop, still.commands]
    rfl

/-! ### Nothing on the agenda -/

theorem Load.log_eq_nil {l : Load} {deleted created nested : Bool} (h : l.log deleted created nested = []) :
    l.batches = [] := by
  have sent_nil {batch : List Command} {accepted : Bool} (h : sent batch accepted = []) : batch = [] := by
    unfold sent at h
    by_contra some
    rw [if_neg some] at h
    cases h
  unfold log at h
  rw [List.append_eq_nil_iff, List.append_eq_nil_iff] at h
  obtain ⟨⟨deletes, main⟩, nested⟩ := h
  have main := sent_nil main
  rw [if_neg (by simp [main])] at nested
  simp [batches, sent_nil deletes, main, sent_nil nested]

theorem Answered.batches_eq_nil {loads : List Load} {log : List (List Command × Bool)} (h : Answered loads log)
    (silent : log = []) : ∀ l ∈ loads, l.batches = [] := by
  induction h with
  | done => simp
  | level l deleted created nested _ ih =>
    obtain ⟨own, others⟩ := List.append_eq_nil_iff.mp silent
    exact List.forall_mem_cons.mpr ⟨Load.log_eq_nil own, ih others⟩

/-- Whether an agenda has commands for every level that differs. -/
def Agenda.Reveals (new : Menu) (agenda : Agenda) : Prop :=
  ∀ old parent ids, (∀ l ∈ (agenda old parent ids).1, l.batches = []) → Unchanged old new

section
variable {layout : Layout} {old new : Menu} {m : Matching} {agendas : List Agenda}

/-- The loads below a kept node are among those below the level. -/
theorem exists_agenda_of_pair {agenda : Agenda} {i j : Nat} {o : Node} {pairs : List (Nat × Nat)}
    (pair : (i, j) ∈ pairs) (ho : old[i]? = some o) (there : agendas[j]? = some agenda) (ids : IdSupply) :
    ∃ ids', (agenda o.children (some o.remoteId) ids').1 ⊆ (agendaBelow agendas old pairs ids).1 := by
  induction pairs generalizing ids with
  | nil => cases pair
  | cons p pairs ih =>
    obtain ⟨i', j'⟩ := p
    rcases List.mem_cons.mp pair with same | later
    · obtain ⟨rfl, rfl⟩ := Prod.mk.inj same
      rw [agendaBelow_cons pairs ho there]
      exact ⟨ids, List.subset_append_left _ _⟩
    · unfold agendaBelow
      split
      · obtain ⟨ids', sub⟩ := ih later _
        exact ⟨ids', fun l hl => List.mem_append_right _ (sub hl)⟩
      · exact ih later ids

theorem LevelPlan.nothing_of_load {plan : LevelPlan} {parent : Option RemoteId}
    (some : plan.added ≠ [] → Command.adds layout parent plan.new plan.added ≠ [])
    (silent : (plan.load layout parent).batches = []) : plan.removed = [] ∧ plan.added = [] := by
  simp only [Load.batches, load, List.filter_eq_nil_iff, List.mem_cons, List.not_mem_nil, or_false, forall_eq_or_imp,
    forall_eq, Bool.not_eq_true, Bool.not_eq_false', List.isEmpty_iff] at silent
  obtain ⟨deletes, main, -⟩ := silent
  constructor
  · simpa [Command.deletes] using deletes
  · by_contra new
    exact some new main

theorem Matching.Fits.removed_of_plan (fits : m.Fits (old.map Node.contentKey) (new.map Node.contentKey))
    {ids : IdSupply} (none : (m.plan ids old new).removed = []) : m.removed = [] := by
  rw [List.eq_nil_iff_forall_not_mem]
  intro i hi
  have inside : i < old.length := by
    have member := fits.old_perm.mem_iff.mp (List.mem_append_right _ hi)
    simpa using member
  have gone : old[i] ∈ (m.plan ids old new).removed :=
    List.mem_filterMap.mpr ⟨i, hi, List.getElem?_eq_getElem inside⟩
  rw [none] at gone
  cases gone

theorem reveals_agendaWith (below : ∀ (j : Nat) (n : Node), new[j]? = some n →
    ∃ agenda, agendas[j]? = some agenda ∧ Agenda.Reveals n.children agenda) :
    Agenda.Reveals new (agendaWith layout agendas new) := by
  intro old parent ids silent
  unfold agendaWith at silent
  cases found : Matching.ofMenus old new with
  | none =>
    obtain ⟨noOld, noNew⟩ := Matching.ofKeys_eq_none found
    apply Unchanged.of_level
    · rw [noOld, noNew]
    · intro o n same
      have member := same.mem
      rw [List.map_eq_nil_iff.mp noOld] at member
      cases member
  | some m =>
    have fits := Matching.fits_of_ofKeys found
    rw [found] at silent
    obtain ⟨own, others⟩ := List.forall_mem_cons.mp silent
    have nothing := LevelPlan.nothing_of_load (fun added =>
      Plans.adds_ne_nil ⟨new, old, m, ids, .top new old, found, rfl⟩ added parent) own
    apply Unchanged.of_level
    · exact fits.perm_of_unchanged ⟨fits.removed_of_plan nothing.1, nothing.2⟩
    · intro o n same _
      obtain ⟨m', i, j, found', pair, ho, hn⟩ := same.exists_pair
      obtain rfl := Option.some.inj (found.symm.trans found')
      obtain ⟨agenda, there, reveals⟩ := below j n hn
      obtain ⟨ids', sub⟩ := exists_agenda_of_pair pair ho there (ids.skip (Menu.freshCount m.newStates new))
      exact reveals _ _ ids' fun l hl => others l (sub hl)

end

theorem Menu.reveals_agenda (layout : Layout) (new : Menu) : Agenda.Reveals new (new.agenda layout) :=
  Menu.agenda_induction (fun _ _ below => reveals_agendaWith below) new

/-! ### Whole updates -/

namespace Operation

/-- An update that nobody asks to stop sends nothing just if nothing has changed: the two menus, and all levels below
them that it comes to, have the same content keys in some order. Then it draws no ids either, and succeeds. -/
theorem sends_nothing_iff (job : Job) (current : Menu) (ids : IdSupply) (world : Nat → Answers) :
    ∃ n report,
      let (op, t) := (schedule job current ids).play world n
      op.ending? = some (.returned (.finished report)) ∧ (t.batches = [] ↔ Unchanged current job.target) ∧
      (t.batches = [] → t.drawn = 0 ∧ op.ids = ids ∧ report.success = true) := by
  obtain ⟨n, ending, way, calm, ended, supply⟩ := exists_ending job current ids world
  let w : Course := ⟨ids, ((schedule job current ids).play world n).2.verdict, []⟩
  obtain ⟨now, r, done, ⟨report, rfl⟩, answered, -⟩ :=
    way.concludes calm ended (by simp) (@Job.keeps_agenda w current job)
  have unchanged : ((schedule job current ids).play world n).2.batches = [] → Unchanged current job.target := by
    intro silent
    exact Menu.reveals_agenda _ job.target current none ids (answered.batches_eq_nil silent)
  obtain rfl := ending_of_done done ended
  refine ⟨n, report, ended, ⟨unchanged, fun same => ?_⟩, fun silent => ?_⟩
  · obtain ⟨-, -, -, report', -, -, -, batches, -⟩ :=
      way.concludes calm ended (by simp) (@Job.keeps_still w job current same)
    exact batches
  · obtain ⟨now', r', done', report', rfl, success, -, -, drawn⟩ :=
      way.concludes calm ended (by simp) (@Job.keeps_still w job current (unchanged silent))
    cases ending_of_done done' ended
    rw [drawn] at supply
    exact ⟨drawn, supply, success⟩

end Operation

end RemoteMenu
