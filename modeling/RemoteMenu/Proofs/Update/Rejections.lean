import RemoteMenu.Proofs.Update.Stopping

/-!
# What rejections change

What an update sends is settled before anything is sent: the matching of a level, its ids and the levels to
go into are read off the two menus and the supply alone. So the batches of an update are the loads of its
levels (`Menu.agenda`), and all that an answer decides is whether what is below added nodes is sent after
them (`Answered`). An update with any rejections is the one with none, less these batches
(`Operation.rejections_only_omit`).
-/

namespace RemoteMenu

open Engine

/-! ### Loads -/

/-- The commands of a level, by the batches that they go out in. -/
structure Load where
  deletes : List Command
  /-- The additions of new nodes. -/
  main : List Command
  /-- The additions of what is below these nodes. -/
  nested : List Command

namespace Load

/-- What is sent if everything is accepted. There is no batch without commands. -/
def batches (l : Load) : List (List Command) := [l.deletes, l.main, l.nested].filter (!·.isEmpty)

def sent (batch : List Command) (accepted : Bool) : List (List Command × Bool) :=
  if batch = [] then [] else [(batch, accepted)]

/-- What is sent, and what the host makes of it: the additions of what is below the new nodes are left out
if those of the new nodes are rejected. -/
def log (l : Load) (deleted created nested : Bool) : List (List Command × Bool) :=
  sent l.deletes deleted ++ sent l.main created ++
    if l.main ≠ [] ∧ created = false then [] else sent l.nested nested

theorem map_fst_sent (batch : List Command) (accepted : Bool) :
    (sent batch accepted).map Prod.fst = [batch].filter (!·.isEmpty) := by
  cases batch <;> rfl

/-- Where everything is accepted, nothing is left out. -/
theorem map_fst_log {l : Load} {deleted created nested : Bool}
    (accepted : ∀ b ∈ l.log deleted created nested, b.2 = true) :
    (l.log deleted created nested).map Prod.fst = l.batches := by
  have whole : ¬ (l.main ≠ [] ∧ created = false) := by
    rintro ⟨some, rejected⟩
    have main : (l.main, created) ∈ l.log deleted created nested := by simp [log, sent, some]
    have created := accepted _ main
    rw [rejected] at created
    cases created
  rw [log, if_neg whole, List.map_append, List.map_append, map_fst_sent, map_fst_sent, map_fst_sent,
    ← List.filter_append, ← List.filter_append]
  rfl

end Load

/-- What the levels with some loads send, one after another, whatever the host makes of it. -/
inductive Answered : List Load → List (List Command × Bool) → Prop
  | done : Answered [] []
  | level (l : Load) (deleted created nested : Bool) {loads : List Load} {log : List (List Command × Bool)}
      (others : Answered loads log) : Answered (l :: loads) (l.log deleted created nested ++ log)

namespace Answered

variable {loads more : List Load} {log log' : List (List Command × Bool)}

theorem append (h : Answered loads log) (h' : Answered more log') : Answered (loads ++ more) (log ++ log') := by
  induction h with
  | done => exact h'
  | level l deleted created nested _ ih =>
    rw [List.append_assoc]
    exact .level l deleted created nested ih

theorem map_fst (h : Answered loads log) (accepted : ∀ b ∈ log, b.2 = true) :
    log.map Prod.fst = loads.flatMap Load.batches := by
  induction h with
  | done => rfl
  | level l deleted created nested _ ih =>
    obtain ⟨own, others⟩ := List.forall_mem_append.mp accepted
    rw [List.map_append, List.flatMap_cons, ih others, Load.map_fst_log own]

end Answered

/-! ### The loads of an update -/

def LevelPlan.load (layout : Layout) (parent : Option RemoteId) (plan : LevelPlan) : Load where
  deletes := Command.deletes plan.removed
  main := Command.adds layout parent plan.new plan.added
  nested := Command.nestedAdds layout plan.new plan.added

/-- The loads of a level and of all below it, by the old level, the entry above it and where the supply of
ids stands, and where it stands after them. -/
abbrev Agenda := Menu → Option RemoteId → IdSupply → List Load × IdSupply

def agendaBelow (agendas : List Agenda) (old : Menu) : List (Nat × Nat) → IdSupply → List Load × IdSupply
  | [], ids => ([], ids)
  | (i, j) :: pairs, ids =>
    match old[i]?, agendas[j]? with
    | some o, some agenda =>
      let (here, ids) := agenda o.children (some o.remoteId) ids
      let (others, ids) := agendaBelow agendas old pairs ids
      (here ++ others, ids)
    | _, _ => agendaBelow agendas old pairs ids

/-- The load of a level, if there is anything to match, and then those of the levels below it. -/
def agendaWith (layout : Layout) (agendas : List Agenda) (new : Menu) : Agenda := fun old parent ids =>
  match Matching.ofMenus old new with
  | none => ([], ids)
  | some m =>
    let (below, after) := agendaBelow agendas old m.pairs (ids.skip (Menu.freshCount m.newStates new))
    ((m.plan ids old new).load layout parent :: below, after)

mutual

def Node.agenda (layout : Layout) : Node → Agenda
  | ⟨_, children, _, _, _⟩ => agendaWith layout (Menu.agendas layout children) children

def Menu.agendas (layout : Layout) : Menu → List Agenda
  | [] => []
  | n :: ns => n.agenda layout :: Menu.agendas layout ns

end

def Menu.agenda (layout : Layout) (new : Menu) : Agenda := agendaWith layout (new.agendas layout) new

section
variable {layout : Layout} {P : Menu → Agenda → Prop}

mutual

theorem Node.agenda_induction (level : ∀ (new : Menu) (agendas : List Agenda), (∀ (j : Nat) (n : Node),
    new[j]? = some n → ∃ agenda, agendas[j]? = some agenda ∧ P n.children agenda) →
      P new (agendaWith layout agendas new)) : (n : Node) → P n.children (n.agenda layout)
  | ⟨_, children, _, _, _⟩ => by
    rw [Node.agenda]
    exact level _ _ (Menu.agendas_induction level children)

theorem Menu.agendas_induction (level : ∀ (new : Menu) (agendas : List Agenda), (∀ (j : Nat) (n : Node),
    new[j]? = some n → ∃ agenda, agendas[j]? = some agenda ∧ P n.children agenda) →
      P new (agendaWith layout agendas new)) : (menu : Menu) → ∀ (j : Nat) (n : Node), menu[j]? = some n →
        ∃ agenda, (menu.agendas layout)[j]? = some agenda ∧ P n.children agenda
  | [], j, n, h => by simp at h
  | n :: ns, 0, n', h => by
    rw [Menu.agendas]
    obtain rfl : n = n' := by simpa using h
    exact ⟨_, rfl, Node.agenda_induction level n⟩
  | n :: ns, j + 1, n', h => by
    rw [Menu.agendas]
    exact Menu.agendas_induction level ns j n' h

end

/-- What holds of the agenda of a level if it does of those below its new nodes holds of every menu. -/
theorem Menu.agenda_induction (level : ∀ (new : Menu) (agendas : List Agenda), (∀ (j : Nat) (n : Node),
    new[j]? = some n → ∃ agenda, agendas[j]? = some agenda ∧ P n.children agenda) →
      P new (agendaWith layout agendas new)) (new : Menu) : P new (new.agenda layout) :=
  level _ _ (Menu.agendas_induction level new)

end

def Job.agenda (job : Job) (current : Menu) (ids : IdSupply) : List Load × IdSupply :=
  job.target.agenda job.setup.settings.defaultLayout current none ids

/-! ### The batches of a level -/

/-- What a part of an update has done since a trace that has drawn no ids: what it has sent, with the answers. -/
structure Trace.Logs (t t' : Trace) (more : List (List Command × Bool)) : Prop where
  entered : t'.entered = t.entered
  drawn : t'.drawn = t.drawn
  batches : t'.batches = t.batches ++ more

namespace Trace.Logs

variable {t t' : Trace} {more more' : List (List Command × Bool)}

theorem rest : t.Logs t [] := ⟨rfl, rfl, (List.append_nil _).symm⟩

theorem aside {extra : Trace} (aside : ∀ e ∈ extra, e.inquiry.Aside) : t.Logs (t ++ extra) [] where
  entered := entered_aside aside
  drawn := drawn_aside aside
  batches := by rw [batches_aside aside, List.append_nil]

theorem poll : t.Logs (t ++ [⟨.poll, false⟩]) [] := aside (by simp [Inquiry.Aside])

theorem send {batch : List Command} (some : batch ≠ []) (accepted : Bool) :
    t.Logs (t ++ [⟨.world (.send batch), accepted⟩]) (Load.sent batch accepted) where
  entered := entered_send ..
  drawn := drawn_send ..
  batches := by rw [batches_send, Load.sent, if_neg some]

theorem trans {t'' : Trace} (h : t.Logs t' more) (h' : t'.Logs t'' more') : t.Logs t'' (more ++ more') where
  entered := h'.entered.trans h.entered
  drawn := h'.drawn.trans h.drawn
  batches := by rw [h'.batches, h.batches, List.append_assoc]

end Trace.Logs

section
variable {w : Course} {t : Trace} {now : Progress} {setup : Setup} {path : Path} {plan : LevelPlan}

theorem logs_deleteStage :
    (deleteStage path plan).Meets (exactly w) t now fun t' _ r =>
      ∃ ok deleted, r = .ok ok ∧ t.Logs t' (Load.sent (Command.deletes plan.removed) deleted) := by
  rw [deleteStage, meets_bind]
  refine meets_sendDeletes (fun none => ?_) fun some => (meets_send _).mpr ⟨trivial, fun accepted _ => ?_⟩
  · rw [onward_ok, none]
    exact ⟨true, true, rfl, .rest⟩
  · have batch : Command.deletes plan.removed ≠ [] := by simpa [Command.deletes] using some
    have logs := @Trace.Logs.send t _ batch accepted
    rw [onward_ok]
    split
    · rw [meets_bind]
      exact meets_commitRemovals_of_any fun _ => ⟨_, accepted, rfl, logs⟩
    · exact ⟨_, accepted, rfl, logs⟩

theorem logs_addStage (some : plan.added ≠ [] → ∀ layout parent, Command.adds layout parent plan.new plan.added ≠ [])
    (removedOk : Bool) :
    let l := plan.load setup.settings.defaultLayout path.getLast?
    (addStage setup path plan removedOk).Meets (exactly w) t now fun t' _ r =>
      ∃ ok created nested, r = .ok ok ∧ t.Logs t' (Load.sent l.main created ++
        if l.main ≠ [] ∧ created = false then [] else Load.sent l.nested nested) := by
  intro l
  -- Recording the additions asks for nothing.
  have record {more : List (List Command × Bool)} (t' : Trace) (now : Progress) (adds : AddOutcome)
      (created nested : Bool) (logs : t.Logs t' more)
      (same : more = Load.sent l.main created ++
        if l.main ≠ [] ∧ created = false then [] else Load.sent l.nested nested) :
      (do Engine.commit path (plan.committed removedOk adds)
          pure (removedOk && adds.succeeded) : Engine Bool).Meets (exactly w) t' now fun t' _ r =>
        ∃ ok created nested, r = .ok ok ∧ t.Logs t' (Load.sent l.main created ++
          if l.main ≠ [] ∧ created = false then [] else Load.sent l.nested nested) := by
    rw [meets_bind]
    exact meets_commit_of_any fun _ => ⟨_, created, nested, rfl, same ▸ logs⟩
  rw [addStage, meets_bind]
  refine meets_sendAdds (fun none => ?_) fun new => ?_
  · refine record _ _ _ true true .rest ?_
    have main : l.main = [] := by
      change Command.adds _ _ _ _ = _
      rw [none]
      rfl
    have nested : l.nested = [] := by
      change Command.nestedAdds _ _ _ = _
      rw [none]
      rfl
    rw [main, nested]
    rfl
  · have main : l.main ≠ [] := some new _ _
    refine (meets_send _).mpr ⟨trivial, fun created _ => ?_⟩
    have first := @Trace.Logs.send t _ main created
    cases created with
    | false =>
      refine record _ _ _ false false first ?_
      rw [if_pos ⟨main, rfl⟩, List.append_nil]
    | true =>
      have whole : ¬ (l.main ≠ [] ∧ true = false) := fun rejected => by cases rejected.2
      refine ⟨fun leaf => record _ _ _ true true first ?_, fun below => ?_⟩
      · have nested : l.nested = [] := leaf
        rw [if_neg whole, nested]
        exact (List.append_nil _).symm
      · refine (meets_send _).mpr ⟨trivial, fun nested _ => ?_⟩
        refine record _ _ _ true nested (first.trans (.send below nested)) ?_
        rw [if_neg whole]
        rfl

/-- The batches of a level are its load. -/
theorem logs_batches (some : plan.added ≠ [] → ∀ layout parent, Command.adds layout parent plan.new plan.added ≠ []) :
    (batches setup path plan).Meets (exactly w) t now fun t' _ r =>
      ∃ ok deleted created nested, r = .ok ok ∧
        t.Logs t' ((plan.load setup.settings.defaultLayout path.getLast?).log deleted created nested) := by
  rw [batches]
  refine meets_stop ((lenient_exactly w).polls _ _) (fun stopped => by cases stopped) fun _ => ?_
  rw [meets_bind]
  refine logs_deleteStage.mono fun t₁ now r deletes => ?_
  obtain ⟨removedOk, deleted, rfl, deletes⟩ := deletes
  rw [onward_ok]
  refine meets_stop ((lenient_exactly w).polls _ _) (fun stopped => by cases stopped) fun _ => ?_
  refine (logs_addStage some removedOk).mono fun t₂ now r adds => ?_
  obtain ⟨ok, created, nested, rfl, adds⟩ := adds
  have way := ((Trace.Logs.poll.trans deletes).trans Trace.Logs.poll).trans adds
  refine ⟨ok, deleted, created, nested, rfl, ?_⟩
  rw [List.nil_append, List.append_nil] at way
  rw [Load.log, List.append_assoc]
  exact way

end

/-! ### Levels -/

/-- What a part of an update has done since a trace: levels with some loads have sent what they send, and the
supply stands somewhere. -/
structure Unloads (w : Course) (loads : List Load × IdSupply) (t t' : Trace) : Prop where
  entered : t'.entered = t.entered
  supply : w.start.skip t'.drawn = loads.2
  log : ∃ more, t'.batches = t.batches ++ more ∧ Answered loads.1 more

/-- What a part of an update leaves that was not told to stop. -/
def Passed (w : Course) (loads : List Load × IdSupply) (t t' : Trace) (_ : Progress) (r : Except Halt Bool) : Prop :=
  (∃ ok, r = .ok ok) ∧ Unloads w loads t t'

namespace Unloads

variable {w : Course} {t t' t'' : Trace} {loads loads' : List Load} {ids ids' : IdSupply}

theorem of_logs {more : List (List Command × Bool)} (logs : t.Logs t' more) (answered : Answered loads more) :
    Unloads w (loads, w.start.skip t.drawn) t t' where
  entered := logs.entered
  supply := congrArg _ logs.drawn
  log := ⟨more, logs.batches, answered⟩

theorem reserve (count : Nat) (ids : IdSupply) :
    Unloads w ([], (w.start.skip t.drawn).skip count) t (t ++ [⟨.poll, false⟩] ++ [⟨.reserve count, ids⟩]) := by
  have same : Trace.drawn (t ++ [⟨.poll, false⟩]) = t.drawn := (@Trace.Logs.poll t).drawn
  refine ⟨?_, ?_, [], ?_, .done⟩
  · rw [Trace.entered_reserve, Trace.entered_poll]
  · rw [Trace.drawn_reserve, same, IdSupply.skip_add]
  · rw [Trace.batches_reserve, Trace.batches_poll, List.append_nil]

theorem trans (h : Unloads w (loads, ids) t t') (h' : Unloads w (loads', ids') t' t'') :
    Unloads w (loads ++ loads', ids') t t'' := by
  obtain ⟨more, log, answered⟩ := h.log
  obtain ⟨more', log', answered'⟩ := h'.log
  refine ⟨h'.entered.trans h.entered, h'.supply, more ++ more', ?_, answered.append answered'⟩
  rw [log', log, List.append_assoc]

end Unloads

/-- Whether a way into nodes that are to become `new` sends what an agenda says. -/
def Heeds (w : Course) (agenda : Agenda) (d : Descent) : Prop :=
  ∀ (old : Menu) (path : Path) (t : Trace) (now : Progress),
    (d old path).Meets (exactly w) t now (Passed w (agenda old path.getLast? (w.start.skip t.drawn)) t)

/-- Whether the ways into new nodes send what their agendas say. With nothing on either side, there is none. -/
def HeedsBelow (w : Course) (new : Menu) (agendas : List Agenda) (descents : List Descent) : Prop :=
  ∀ (j : Nat) (n : Node), new[j]? = some n → ∃ agenda d, agendas[j]? = some agenda ∧ descents[j]? = some d ∧
    Heeds w agenda d ∧ (n.children = [] → ∀ parent ids, agenda [] parent ids = ([], ids))

section
variable {w : Course} {t : Trace} {now : Progress} {setup : Setup} {old new : Menu} {m : Matching}

theorem agendaBelow_cons {agendas : List Agenda} {agenda : Agenda} {i j : Nat} {o : Node} (pairs : List (Nat × Nat))
    (ho : old[i]? = some o) (there : agendas[j]? = some agenda) (ids : IdSupply) :
    let here := agenda o.children (some o.remoteId) ids
    let others := agendaBelow agendas old pairs here.2
    agendaBelow agendas old ((i, j) :: pairs) ids = (here.1 ++ others.1, others.2) := by
  rw [agendaBelow, ho, there]

theorem heeds_descend (found : Matching.ofMenus old new = some m) {agendas : List Agenda} {descents : List Descent}
    (below : HeedsBelow w new agendas descents) {ids : IdSupply} {path : Path} {pairs : List (Nat × Nat)}
    (sub : pairs ⊆ m.pairs) :
    (descend (m.plan ids old new) descents path pairs).Meets (exactly w) t now
      (Passed w (agendaBelow agendas old pairs (w.start.skip t.drawn)) t) := by
  induction pairs generalizing t now with
  | nil => exact ⟨⟨true, rfl⟩, .of_logs .rest .done⟩
  | cons p pairs ih =>
    obtain ⟨i, j⟩ := p
    obtain ⟨o, n, ho, hn, -, seat⟩ :=
      (Matching.fits_of_ofKeys found).seat_of_pair ids (sub (List.mem_cons_self ..))
    obtain ⟨agenda, d, hagenda, hd, heeds, idle⟩ := below j n hn
    have hnew := Matching.getElem?_plan seat
    have hold : (m.plan ids old new).old[i]? = some o := ho
    have others {t : Trace} {now : Progress} := @ih t now fun p hp => sub (List.mem_cons_of_mem _ hp)
    rw [descend, agendaBelow_cons pairs ho hagenda]
    refine meets_stop ((lenient_exactly w).polls _ _) (fun stopped => by cases stopped) fun _ => ?_
    have told : Unloads w ([], w.start.skip t.drawn) t (t ++ [⟨.poll, false⟩]) := .of_logs .poll .done
    have same : Trace.drawn (t ++ [⟨.poll, false⟩]) = t.drawn := (@Trace.Logs.poll t).drawn
    rw [hold, hnew, hd]
    dsimp only
    split
    · -- The update does not go into a kept node with nothing on either side, and there is nothing on the agenda.
      next empty =>
      obtain ⟨noOld, noNew⟩ := Bool.and_eq_true_iff.mp empty
      rw [List.isEmpty_iff.mp noOld, idle (List.isEmpty_iff.mp noNew), List.nil_append]
      refine others.mono fun t' now' r passed => ?_
      rw [same] at passed
      exact ⟨passed.1, told.trans passed.2⟩
    · rw [meets_bind]
      refine (heeds _ _ _ _).mono fun t' now' r passed => ?_
      obtain ⟨⟨ok, rfl⟩, unloads⟩ := passed
      rw [List.getLast?_concat, same] at unloads
      rw [onward_ok, meets_bind]
      refine others.mono fun t'' now'' r passed => ?_
      obtain ⟨⟨ok', rfl⟩, unloads'⟩ := passed
      rw [unloads.supply] at unloads'
      exact ⟨⟨_, rfl⟩, (told.trans unloads).trans unloads'⟩

theorem heeds_reconcileWith {agendas : List Agenda} {descents : List Descent}
    (below : HeedsBelow w new agendas descents) :
    Heeds w (agendaWith setup.settings.defaultLayout agendas new) (reconcileWith setup descents new) := by
  intro old path t now
  rw [reconcileWith]
  refine meets_stop ((lenient_exactly w).polls _ _) (fun stopped => by cases stopped) fun _ => ?_
  rw [meets_bind, meets_count, onward_ok]
  cases found : Matching.ofMenus old new with
  | none =>
    rw [agendaWith, found]
    exact ⟨⟨true, rfl⟩, .of_logs .poll .done⟩
  | some m =>
    have fits := Matching.fits_of_ofKeys found
    rw [agendaWith, found]
    dsimp only
    rw [meets_bind]
    refine fits.meets_settleIds.mpr ⟨trivial, fun ids fair => ?_⟩
    obtain ⟨rfl, -⟩ := fair
    have same : Trace.drawn (t ++ [⟨.poll, false⟩]) = t.drawn := (@Trace.Logs.poll t).drawn
    rw [same]
    let count := Menu.freshCount m.newStates new
    let ids := w.start.skip t.drawn
    generalize settled : t ++ [⟨.poll, false⟩] ++ [⟨.reserve count, ids⟩] = t₁
    have reserved : Unloads w ([], ids.skip count) t t₁ := settled ▸ .reserve count ids
    have some (new' : (m.plan ids old new).added ≠ []) (layout : Layout) (parent : Option RemoteId) :
        Command.adds layout parent (m.plan ids old new).new (m.plan ids old new).added ≠ [] :=
      Plans.adds_ne_nil ⟨new, old, m, ids, .top new old, found, rfl⟩ new' parent
    rw [onward_ok, meets_bind]
    refine meets_applyPlan ((lenient_exactly w).questions _ _) fun extra now' artworks _ _ => ?_
    have fetched : t₁.Logs (t₁ ++ extra) [] := .aside fun e he => (artworks e he).aside
    refine (logs_batches some).mono fun t₂ now r sent => ?_
    obtain ⟨ok, deleted, created, nested, rfl, logs⟩ := sent
    have level : Unloads w ([(m.plan ids old new).load setup.settings.defaultLayout path.getLast?],
        w.start.skip t₁.drawn) t₁ t₂ := by
      refine .of_logs (fetched.trans logs) ?_
      rw [List.nil_append, ← List.append_nil (Load.log ..)]
      exact .level _ deleted created nested .done
    rw [onward_ok, meets_bind]
    refine (heeds_descend found below (List.Subset.refl _)).mono fun t₃ now r passed => ?_
    obtain ⟨⟨ok', rfl⟩, inner⟩ := passed
    rw [level.supply, reserved.supply] at inner
    exact ⟨⟨_, rfl⟩, (reserved.trans level).trans inner⟩

mutual

theorem heeds_descent (w : Course) (setup : Setup) : (n : Node) →
    Heeds w (n.agenda setup.settings.defaultLayout) (n.descent setup) ∧
    (n.children = [] → ∀ parent ids, n.agenda setup.settings.defaultLayout [] parent ids = ([], ids))
  | ⟨_, children, _, _, _⟩ => by
    rw [Node.descent, Node.agenda]
    refine ⟨heeds_reconcileWith (heeds_descents w setup children), ?_⟩
    rintro rfl parent ids
    rfl

theorem heeds_descents (w : Course) (setup : Setup) : (menu : Menu) →
    HeedsBelow w menu (menu.agendas setup.settings.defaultLayout) (Menu.descents setup menu)
  | [], j, n, h => by simp at h
  | n :: ns, 0, n', h => by
    obtain rfl : n = n' := by simpa using h
    rw [Menu.agendas, Menu.descents]
    exact ⟨_, _, rfl, rfl, heeds_descent w setup n⟩
  | n :: ns, j + 1, n', h => by
    rw [Menu.agendas, Menu.descents]
    exact heeds_descents w setup ns j n' (by simpa using h)

end

end

/-! ### Whole updates -/

/-- An update that is not asked to stop sends what its agenda says, and the supply ends where it says. -/
theorem Job.keeps_agenda {w : Course} {current : Menu} (job : Job) :
    (job.run { committed := current }).Keeps (exactly w) (fun t _ r => (∃ report, r = .ok (.finished report)) ∧
      Answered (job.agenda current w.start).1 t.batches ∧ w.start.skip t.drawn = (job.agenda current w.start).2) [] := by
  refine (@Job.keeps_of_levels w current job (fun t _ _ => Answered (job.agenda current w.start).1 t.batches ∧
    w.start.skip t.drawn = (job.agenda current w.start).2) ?_).mono ?_
  · intro t entered batches drawn
    have heeds : Heeds w (job.target.agenda job.setup.settings.defaultLayout) (job.target.reconcile job.setup) :=
      heeds_reconcileWith (heeds_descents w job.setup job.target)
    refine (heeds current [] t _).mono fun t' now r passed => ?_
    obtain ⟨⟨ok, rfl⟩, unloads⟩ := passed
    rw [drawn] at unloads
    obtain ⟨more, log, answered⟩ := unloads.log
    rw [batches, List.nil_append] at log
    exact ⟨unloads.entered.trans entered, ok, rfl, log ▸ answered, unloads.supply⟩
  · rintro t now r ⟨report, rfl, -, -, u, batches, drawn, answered, supply⟩
    rw [batches, drawn]
    exact ⟨⟨report, rfl⟩, answered, supply⟩

def Answers.refusing : Answers
  | .send _ => false
  | r => Answers.taking true r

namespace Operation

/-- An operation that has come to its end and was not asked to stop has finished. -/
theorem Moves.finished {job : Job} {current : Menu} {ids : IdSupply} {l : Local} {t : Trace} {now : Progress}
    {r : Except Halt Outcome} (way : (schedule job current ids).Moves t { l with task := .live (.done now r) })
    (calm : l.lifecycle.cancelRequested = false) : ∃ report, r = .ok (.finished report) := by
  -- The contract is to give the answers that were given.
  have keeps := @Job.keeps_agenda ⟨ids, t.verdict, []⟩ current job
  have following := way.following (t := []) ⟨rfl, rfl, _, rfl, keeps⟩ calm (by simp) fun k b hb => by
    rw [List.nil_append] at hb
    simp [Trace.verdict, hb]
  obtain ⟨d, live, done⟩ := following.keeps
  obtain rfl := Task.live.inj live
  exact done.1

/-- An operation that nobody asks to stop finishes, having sent what its agenda says. -/
theorem play_agenda (job : Job) (current : Menu) (ids : IdSupply) (world : Nat → Answers) :
    ∃ n report,
      let (op, t) := (schedule job current ids).play world n
      op.ending? = some (.returned (.finished report)) ∧ Answered (job.agenda current ids).1 t.batches ∧
      op.ids = (job.agenda current ids).2 := by
  obtain ⟨n, ending, way, calm, ended, drawn⟩ := exists_ending job current ids world
  have keeps := @Job.keeps_agenda ⟨ids, ((schedule job current ids).play world n).2.verdict, []⟩ current job
  obtain ⟨now, r, done, ⟨report, rfl⟩, answered, supply⟩ := way.concludes calm ended (by simp) keeps
  obtain rfl := ending_of_done done ended
  exact ⟨n, report, ended, answered, drawn.trans supply⟩

theorem batches_ownTrace {α : Type} (l : Local) (d : Dialogue α) : Trace.batches (ownTrace l d) = [] := by
  induction d generalizing l with
  | done => rfl
  | ask inquiry now next ih =>
    cases inquiry with
    | world => rfl
    | _ => exact ih _ _

theorem batches_wakeTrace (op : Operation) : Trace.batches op.wakeTrace = [] := by
  obtain ⟨l, task⟩ := op
  cases task with
  | live d => exact batches_ownTrace l d
  | crashed => rfl

theorem answered_answerTrace (op : Operation) (answers : Answers) :
    ∀ b ∈ (op.answerTrace answers).batches, b.2 = answers (.send b.1) := by
  intro b hb
  unfold answerTrace at hb
  split at hb
  · next r _ next live =>
    rw [← List.singleton_append, Trace.batches_append, batches_wakeTrace, List.append_nil] at hb
    cases r with
    | send batch =>
      obtain rfl := List.mem_singleton.mp hb
      rfl
    | _ => cases hb
  · rw [batches_wakeTrace] at hb
    cases hb

/-- Every batch that was sent has the answer that the world gives it. -/
theorem answered_play {op : Operation} {world : Nat → Answers} (n : Nat) :
    ∀ b ∈ (op.play world n).2.batches, ∃ k, b.2 = world k (.send b.1) := by
  induction n with
  | zero => simp [play, Trace.batches]
  | succ n ih =>
    intro b hb
    rw [play_succ, Trace.batches_append, List.mem_append] at hb
    rcases hb with before | now
    · exact ih b before
    · exact ⟨n, answered_answerTrace _ _ b now⟩

/-- Rejections do not disturb the rest of an update. What is sent to a host that accepts everything is the
load of each level, one after another, and what is sent to any other host is that without what is below the
new nodes of each level that these were rejected at: all else is sent in the same order, with the same ids,
parents and positions, and as many ids are drawn. -/
theorem rejections_only_omit (job : Job) (current : Menu) (ids : IdSupply) (host world : Nat → Answers)
    (accepts : ∀ k batch, host k (.send batch) = true) :
    ∃ n report n' report',
      let (op, t) := (schedule job current ids).play host n
      let (op', t') := (schedule job current ids).play world n'
      let loads := (job.agenda current ids).1
      op.ending? = some (.returned (.finished report)) ∧ op'.ending? = some (.returned (.finished report')) ∧
      t.batches.map Prod.fst = loads.flatMap Load.batches ∧ Answered loads t'.batches ∧ op'.ids = op.ids := by
  obtain ⟨n, report, ended, answered, supply⟩ := play_agenda job current ids host
  obtain ⟨n', report', ended', answered', supply'⟩ := play_agenda job current ids world
  refine ⟨n, report, n', report', ended, ended', answered.map_fst fun b hb => ?_, answered', supply'.trans supply.symm⟩
  obtain ⟨k, given⟩ := answered_play n b hb
  rw [given, accepts]

/-- In the first of two submenus, a node with something below it is added. -/
theorem rejections_only_omit_drawers :
    ((drawersJob.agenda oldDrawers default).1.map fun l => l.batches.map List.length) = [[], [1, 1], []] ∧
    ∃ n report n' report',
      let (op, t) := (schedule drawersJob oldDrawers default).play (fun _ => .taking true) n
      let (op', t') := (schedule drawersJob oldDrawers default).play (fun _ => .refusing) n'
      let loads := (drawersJob.agenda oldDrawers default).1
      op.ending? = some (.returned (.finished report)) ∧ op'.ending? = some (.returned (.finished report')) ∧
      t.batches.map Prod.fst = loads.flatMap Load.batches ∧ Answered loads t'.batches ∧ op'.ids = op.ids :=
  ⟨by decide +kernel,
    rejections_only_omit drawersJob oldDrawers default (fun _ => .taking true) (fun _ => .refusing) fun _ _ => rfl⟩

end Operation

end RemoteMenu
