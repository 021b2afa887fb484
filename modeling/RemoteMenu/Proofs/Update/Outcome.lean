import RemoteMenu.Proofs.Update.Exactness
import RemoteMenu.Proofs.Update.Moves

/-!
# How an operation ends

An operation that is not asked to stop finishes, and its report has the menu that its update comes to,
given what the host made of its batches (`Operation.Moves.finishes`). However the world answers, it does
so after finitely many answers (`Operation.exists_finished`).
-/

namespace RemoteMenu

open Engine

def Trace.verdict (t : Trace) : Verdict := fun k => (t.batches[k]?.map Prod.snd).getD false

def Job.account (job : Job) (current : Menu) (ids : IdSupply) (verdict : Verdict) : Reached × Standing :=
  job.target.account job.setup.settings.defaultLayout verdict current none { ids }

/-- Whether a report tells what the update of a job has come to, and so does what is committed. -/
structure Job.Reports (job : Job) (current : Menu) (ids : IdSupply) (verdict : Verdict) (t : Trace)
    (committed : Menu) (report : Report) : Prop where
  menu : report.menu = (job.account current ids verdict).1.menu
  committed : committed = report.menu
  batches : t.batches = (job.account current ids verdict).2.log
  success : report.success = t.batches.all (·.2)

/-- A report tells of nothing but the target, and of all of it if it is one of success. -/
theorem Job.Reports.faithful {job : Job} {current : Menu} {ids : IdSupply} {verdict : Verdict} {t : Trace}
    {committed : Menu} {report : Report} (reports : job.Reports current ids verdict t committed report)
    {faces : Set Face} (distinguished : Collisionless faces) (old : ∀ n ∈ current.walk, n.face ∈ faces)
    (new : ∀ n ∈ job.target.walk, n.face ∈ faces) :
    (job.account current ids verdict).1.Renders job.target ∧
      (report.success = true → report.menu.bare = job.target.bare) := by
  have faithful := Menu.account_faithful distinguished job.setup.settings.defaultLayout verdict new current
    none { ids } old
  refine ⟨faithful.renders, fun success => ?_⟩
  obtain ⟨more, log, bare⟩ := faithful.log
  rw [reports.menu]
  refine bare ?_
  rw [← success, reports.success, reports.batches]
  exact (congrArg (List.all · (·.2)) log).symm

def Finishes (w : Course) (job : Job) (current : Menu) (t : Trace) (now : Progress)
    (r : Except Halt Outcome) : Prop :=
  ∃ report, r = .ok (.finished report) ∧
    job.Reports current w.start w.verdict t now.committed report

/-- Whether an inquiry is one of those around the levels of an update: about its life, the time or its report. -/
def Inquiry.Outer : Inquiry → Prop
  | .enter _ | .world .clock | .world (.notify _) => True
  | _ => False

theorem Trace.outer_spec {t : Trace} (outer : ∀ e ∈ t, e.inquiry.Outer) :
    t.batches = [] ∧ t.drawn = 0 ∧ t.uploads = [] := by
  have own (e : Exchange) (he : e ∈ t) : e.batch? = none ∧ e.drawn = 0 ∧ e.upload? = none := by
    have here := outer e he
    obtain ⟨inquiry, reply⟩ := e
    cases inquiry with
    | enter => exact ⟨rfl, rfl, rfl⟩
    | world r => cases r <;> first | exact ⟨rfl, rfl, rfl⟩ | cases here
    | _ => cases here
  refine ⟨List.filterMap_eq_nil_iff.mpr fun e he => (own e he).1, ?_,
    List.filterMap_eq_nil_iff.mpr fun e he => (own e he).2.2⟩
  clear outer
  induction t with
  | nil => rfl
  | cons e t ih => rw [drawn, (own e (List.mem_cons_self ..)).2.1, ih fun e he => own e (List.mem_cons_of_mem _ he)]

/-- An update that is not asked to stop asks little before its levels and after them. -/
theorem Job.keeps_around {w : Course} {current : Menu} (job : Job) {level : Trace → Progress → Bool → Prop}
    (levels : ∀ t : Trace, t.entered = [.running] → (∀ e ∈ t, e.inquiry.Outer) →
      (Menu.reconcile job.setup job.target current []).Meets (exactly w) t { committed := current }
        fun t now r => t.entered = [.running] ∧ ∃ ok, r = .ok ok ∧ level t now ok) :
    (job.run { committed := current }).Keeps (exactly w)
      (fun t now r => ∃ report, r = .ok (.finished report) ∧ report.menu = now.committed ∧ report.stats = now.stats ∧
        ∃ u closing : Trace, t = u ++ closing ∧ (∀ e ∈ closing, e.inquiry.Outer) ∧ level u now report.success) [] := by
  change job.run.Meets (exactly w) [] { committed := current } _
  rw [Job.run, meets_bind]
  refine (meets_ask _).mpr ⟨rfl, fun passage entered => ?_⟩
  obtain rfl : passage = .entered := entered
  rw [onward_ok, meets_bind]
  refine (meets_request _).mpr ⟨trivial, fun startedAt _ => ?_⟩
  rw [onward_ok, meets_bind, meets_now, onward_ok, meets_bind, meets_attempt]
  refine (levels _ rfl (by simp [Inquiry.Outer])).mono fun t now r reached => ?_
  obtain ⟨entered, ok, rfl, reached⟩ := reached
  have running : t.state.canMove .finished = true := by
    rw [Trace.state, entered]
    rfl
  rw [onward_ok]
  dsimp only
  rw [meets_bind]
  refine (meets_ask _).mpr ⟨running, fun passage entered => ?_⟩
  obtain rfl : passage = .entered := entered
  rw [onward_ok]
  dsimp only
  rw [meets_bind, meets_now, onward_ok, meets_bind]
  refine (meets_request _).mpr ⟨trivial, fun finishedAt _ => ?_⟩
  rw [onward_ok]
  split
  · rw [meets_bind]
    refine (meets_request _).mpr ⟨trivial, fun _ _ => ?_⟩
    rw [List.append_assoc, List.append_assoc]
    exact ⟨_, rfl, rfl, rfl, t, _, rfl, by simp [Inquiry.Outer], reached⟩
  · rw [List.append_assoc]
    exact ⟨_, rfl, rfl, rfl, t, _, rfl, by simp [Inquiry.Outer], reached⟩

/-- An update that is not asked to stop ends with a report of what its levels have come to. -/
theorem Job.keeps_of_levels {w : Course} {current : Menu} (job : Job) {level : Trace → Progress → Bool → Prop}
    (levels : ∀ t : Trace, t.entered = [.running] → t.batches = [] → t.drawn = 0 →
      (Menu.reconcile job.setup job.target current []).Meets (exactly w) t { committed := current }
        fun t now r => t.entered = [.running] ∧ ∃ ok, r = .ok ok ∧ level t now ok) :
    (job.run { committed := current }).Keeps (exactly w)
      (fun t now r => ∃ report, r = .ok (.finished report) ∧ report.menu = now.committed ∧ report.stats = now.stats ∧
        ∃ u : Trace, t.batches = u.batches ∧ t.drawn = u.drawn ∧ level u now report.success) [] := by
  refine (@Job.keeps_around w current job level fun t entered outer => ?_).mono ?_
  · obtain ⟨batches, drawn, -⟩ := Trace.outer_spec outer
    exact levels t entered batches drawn
  · rintro t now r ⟨report, rfl, menu, stats, u, closing, rfl, outer, reached⟩
    obtain ⟨batches, drawn, -⟩ := Trace.outer_spec outer
    refine ⟨report, rfl, menu, stats, u, ?_, ?_, reached⟩
    · rw [Trace.batches_append, batches, List.append_nil]
    · rw [Trace.drawn_append, drawn, Nat.add_zero]

theorem Job.keeps_exactly {w : Course} {current : Menu} (job : Job) (distinct : current.ids.Nodup)
    (taken : ∀ id ∈ current.ids, id ∈ w.taken) :
    (job.run { committed := current }).Keeps (exactly w) (Finishes w job current) [] := by
  refine (@Job.keeps_of_levels w current job (fun t now ok => ok = t.batches.all (·.2) ∧
    now.committed = (job.account current w.start w.verdict).1.menu ∧
    t.batches = (job.account current w.start w.verdict).2.log) ?_).mono ?_
  · intro t entered batches drawn
    have fresh : t.standing w.start = { ids := w.start } := by
      rw [Trace.standing, drawn, batches]
      rfl
    refine (Menu.exact_reconcile rfl job.target [] current t _ (by simp [Context.Sound]) rfl distinct
      taken).mono fun t' now r comes => ?_
    obtain ⟨more, log, rfl⟩ := comes.result
    have committed := comes.committed
    have standing := comes.standing
    rw [fresh] at committed standing
    refine ⟨comes.entered.trans entered, _, rfl, ?_, committed, congrArg Standing.log standing⟩
    rw [log, batches, List.nil_append]
  · rintro t now r ⟨report, rfl, menu, -, u, batches, -, success, committed, log⟩
    exact ⟨report, rfl, menu.trans committed, menu.symm, batches.trans log, batches ▸ success⟩

/-! ### A short update -/

def shelf (child : String) : Menu :=
  [{ entry := { title := "Media" }, children := [{ entry := { title := child } }] }]

/-- An update that puts another entry into a submenu. -/
def shelfJob : Job := { id := 1, setup := { settings := {}, uploads := false }, target := shelf "Stop", notifies := true }

def oldShelf : Menu := ((shelf "Play").withFreshIds (.startingAt 7)).1

/-! ### Operations -/

/-- What is known of an operation after a trace, if nobody has asked it to stop. -/
structure Following (w : Course) (post : Trace → Progress → Except Halt Outcome → Prop) (t : Trace)
    (op : Operation) : Prop where
  ids : op.ids = w.start.skip t.drawn
  lifecycle : op.lifecycle = { state := t.state }
  keeps : ∃ d, op.task = .live d ∧ d.Keeps (exactly w) post t

theorem Lifecycle.enter_of_canMove {source target : OperationState} (h : source.canMove target = true) :
    enter { state := source } target = (.entered, { state := target }) := by
  rw [enter, if_neg (by simp), OperationState.move_eq_ok.mpr ⟨h, rfl⟩]

theorem Local.reply_exactly {w : Course} {l : Local} {t : Trace} {now : Progress} {inquiry : Inquiry}
    (answers : Answers) (ids : l.ids = w.start.skip t.drawn) (lifecycle : l.lifecycle = { state := t.state })
    (asks : (exactly w).asks t now inquiry) :
    let e : Exchange := ⟨inquiry, (l.reply answers inquiry).1⟩
    (∀ k < Trace.drawn (t ++ [e]), w.start.nth k ∉ w.taken) →
    (∀ b, (Trace.batches (t ++ [e]))[t.batches.length]? = some b → b.2 = w.verdict t.batches.length) →
    (exactly w).fair t e ∧ (l.reply answers inquiry).2.ids = w.start.skip (Trace.drawn (t ++ [e])) ∧
      (l.reply answers inquiry).2.lifecycle = { state := Trace.state (t ++ [e]) } := by
  intro e apart verdict
  have aside (quiet : inquiry.Aside) : Trace.drawn (t ++ [e]) = t.drawn ∧
      Trace.state (t ++ [e]) = t.state := by
    have all : ∀ e' ∈ [e], e'.inquiry.Aside := fun e' he' => by rw [List.mem_singleton.mp he']; exact quiet
    rw [Trace.drawn_aside all, Trace.state, Trace.entered_aside all]
    exact ⟨rfl, rfl⟩
  cases inquiry with
  | enter state =>
    have moves : l.lifecycle.enter state = (.entered, { state }) := by
      rw [lifecycle, Lifecycle.enter_of_canMove asks]
    have entered : e = ⟨.enter state, .entered⟩ := congrArg (Exchange.mk (.enter state)) (congrArg Prod.fst moves)
    rw [entered, Trace.state, Trace.drawn_enter, Trace.entered_enter, List.getLast?_append]
    exact ⟨rfl, ids, congrArg Prod.snd moves⟩
  | poll =>
    obtain ⟨drawn, state⟩ := aside trivial
    rw [drawn, state]
    exact ⟨congrArg Lifecycle.cancelRequested lifecycle, ids, lifecycle⟩
  | reserve count =>
    have reserved : e = ⟨.reserve count, l.ids⟩ := rfl
    rw [reserved] at apart ⊢
    rw [Trace.drawn_reserve] at apart ⊢
    refine ⟨⟨ids, apart⟩, ?_, ?_⟩
    · rw [IdSupply.skip_add, ← ids]
      rfl
    · rw [Trace.state, Trace.entered_reserve]
      exact lifecycle
  | world r =>
    cases r with
    | send batch =>
      have sent : e = ⟨.world (.send batch), answers (.send batch)⟩ := rfl
      rw [sent] at verdict ⊢
      rw [Trace.batches_send] at verdict
      rw [Trace.drawn_send, Trace.state, Trace.entered_send]
      exact ⟨verdict _ (List.getElem?_concat_length ..), ids, lifecycle⟩
    | _ =>
      obtain ⟨drawn, state⟩ := aside trivial
      rw [drawn, state]
      exact ⟨trivial, ids, lifecycle⟩

theorem Lifecycle.cancel_cases (l : Lifecycle) : l.cancel.2 = l ∨ l.cancel.2.cancelRequested = true := by
  unfold cancel
  split
  · exact .inr rfl
  · exact .inl rfl

namespace Operation

theorem proceed_cancelRequested (op : Operation) (answers : Answers) :
    (op.proceed answers).lifecycle.cancelRequested = op.lifecycle.cancelRequested := by
  obtain ⟨l, task⟩ := op
  cases task with
  | crashed => rfl
  | live d =>
    cases d with
    | done => rfl
    | ask inquiry now next => exact l.cancelRequested_reply answers inquiry

theorem Moves.cancelRequested {op op' : Operation} {t : Trace} (h : op.Moves t op')
    (asked : op.lifecycle.cancelRequested = true) : op'.lifecycle.cancelRequested = true := by
  induction h with
  | rest => exact asked
  | step answers _ ih => exact ih ((proceed_cancelRequested _ answers).trans asked)
  | @stop op op' t _ ih =>
    refine ih ?_
    rcases op.lifecycle.cancel_cases with same | canceled
    · exact (congrArg Lifecycle.cancelRequested same).trans asked
    · exact canceled

variable {w : Course} {post : Trace → Progress → Except Halt Outcome → Prop}

theorem Moves.following {op op' : Operation} {t seg : Trace} (h : op.Moves seg op')
    (following : Following w post t op) (calm : op'.lifecycle.cancelRequested = false)
    (apart : ∀ k < Trace.drawn (t ++ seg), w.start.nth k ∉ w.taken)
    (verdicts : ∀ k b, (Trace.batches (t ++ seg))[k]? = some b → b.2 = w.verdict k) :
    Following w post (t ++ seg) op' := by
  induction h generalizing t with
  | rest => rwa [List.append_nil]
  | @stop op op' seg further ih =>
    refine ih ?_ calm apart verdicts
    rcases op.lifecycle.cancel_cases with same | canceled
    · exact ⟨following.ids, same.trans following.lifecycle, following.keeps⟩
    · rw [further.cancelRequested canceled] at calm
      cases calm
  | @step op op' seg answers further ih =>
    obtain ⟨d, live, keeps⟩ := following.keeps
    cases d with
    | done =>
      obtain ⟨still, none⟩ := proceed_done live answers
      rw [none] at apart verdicts ⊢
      rw [still] at ih
      exact ih following calm apart verdicts
    | ask inquiry now next =>
      obtain ⟨moved, exchange⟩ := proceed_ask live answers
      rw [exchange, ← List.append_assoc] at apart verdicts ⊢
      have earlier : Trace.drawn (t ++ [⟨inquiry, (op.toLocal.reply answers inquiry).1⟩]) ≤
          Trace.drawn (t ++ [⟨inquiry, (op.toLocal.reply answers inquiry).1⟩] ++ seg) := by
        rw [Trace.drawn_append (t ++ _)]
        omega
      obtain ⟨fair, ids, lifecycle⟩ := op.toLocal.reply_exactly answers following.ids following.lifecycle
        keeps.1 (fun k hk => apart k (Nat.lt_of_lt_of_le hk earlier)) fun b hb => by
          refine verdicts _ b ?_
          rw [Trace.batches_append (t ++ _), List.getElem?_append_left, hb]
          exact (List.getElem?_eq_some_iff.mp hb).1
      refine ih ?_ calm apart verdicts
      rw [moved]
      exact ⟨ids, lifecycle, _, rfl, keeps.2 _ fair⟩

/-- An operation that was not asked to stop ends with what its dialogue ends with. -/
theorem Moves.concludes {job : Job} {current : Menu} {ids : IdSupply} {op : Operation} {t : Trace}
    {ending : Ending} (h : (schedule job current ids).Moves t op)
    (calm : op.lifecycle.cancelRequested = false) (ended : op.ending? = some ending) {taken : List RemoteId}
    (apart : ∀ k < t.drawn, ids.nth k ∉ taken)
    (keeps : (job.run { committed := current }).Keeps (exactly ⟨ids, t.verdict, taken⟩) post []) :
    ∃ now r, op.task = .live (.done now r) ∧ post t now r := by
  have reached := h.following (t := []) ⟨rfl, rfl, _, rfl, keeps⟩ calm apart fun k b hb => by
    rw [List.nil_append] at hb
    simp [Trace.verdict, hb]
  obtain ⟨d, live, keeps⟩ := reached.keeps
  rw [ending?, live] at ended
  cases d with
  | ask => cases ended
  | done now r => exact ⟨now, r, live, keeps⟩

theorem ending_of_done {op : Operation} {now : Progress} {outcome : Outcome} {ending : Ending}
    (done : op.task = .live (.done now (.ok outcome))) (ended : op.ending? = some ending) :
    .returned outcome = ending := by
  rw [ending?, done] at ended
  exact Option.some.inj ended

theorem Moves.finishes {job : Job} {current : Menu} {ids : IdSupply} {op : Operation} {t : Trace}
    {ending : Ending} (h : (schedule job current ids).Moves t op)
    (calm : op.lifecycle.cancelRequested = false) (ended : op.ending? = some ending)
    (distinct : current.ids.Nodup) (apart : ∀ k < t.drawn, ids.nth k ∉ current.ids) :
    ∃ report, ending = .returned (.finished report) ∧
      job.Reports current ids t.verdict t op.committed report := by
  have keeps := job.keeps_exactly (w := ⟨ids, t.verdict, current.ids⟩) distinct fun _ hid => hid
  obtain ⟨now, r, done, report, rfl, reports⟩ := h.concludes calm ended apart keeps
  rw [committed, progress, done]
  exact ⟨report, (ending_of_done done ended).symm, reports⟩

/-! ### A whole run -/

/-- An operation that nobody asks to stop finishes, whatever the world answers, with what its update comes to. -/
theorem exists_finished {job : Job} {current : Menu} {ids : IdSupply} {world : Nat → Answers}
    (distinct : current.ids.Nodup)
    (apart : ∀ n, ∀ k < ((schedule job current ids).play world n).2.drawn, ids.nth k ∉ current.ids) :
    ∃ n report,
      let (op, t) := (schedule job current ids).play world n
      op.ending? = some (.returned (.finished report)) ∧
      job.Reports current ids t.verdict t op.committed report := by
  obtain ⟨n, ending, way, calm, ended, -⟩ := exists_ending job current ids world
  obtain ⟨report, rfl, reports⟩ := way.finishes calm ended distinct (apart n)
  exact ⟨n, report, ended, reports⟩

/-- An operation that nobody asks to stop finishes, whatever the world answers, and leaves just what its
update comes to. What is there of the target is rendered, and if the host has accepted every batch, that
is all of the target and nothing else. -/
theorem play_finishes {job : Job} {current : Menu} {ids : IdSupply} {world : Nat → Answers}
    (distinct : current.ids.Nodup)
    (apart : ∀ n, ∀ k < ((schedule job current ids).play world n).2.drawn, ids.nth k ∉ current.ids) :
    ∃ n report,
      let (op, t) := (schedule job current ids).play world n
      op.ending? = some (.returned (.finished report)) ∧
      job.Reports current ids t.verdict t op.committed report ∧
      (Collisionless { f | f ∈ current.faces ++ job.target.faces } →
        (job.account current ids t.verdict).1.Renders job.target ∧
        (report.success = true → report.menu.bare = job.target.bare)) := by
  obtain ⟨n, report, ended, reports⟩ := @exists_finished job current ids world distinct apart
  refine ⟨n, report, ended, reports, fun distinguished => reports.faithful distinguished ?_ ?_⟩
  · exact fun k hk => List.mem_append_left _ (List.mem_map_of_mem hk)
  · exact fun k hk => List.mem_append_right _ (List.mem_map_of_mem hk)

theorem play_finishes_shelf :
    ∃ n report,
      let (op, t) := (schedule shelfJob oldShelf default).play (fun _ => .taking false) n
      op.ending? = some (.returned (.finished report)) ∧
      shelfJob.Reports oldShelf default t.verdict t op.committed report ∧
      (Collisionless { f | f ∈ oldShelf.faces ++ shelfJob.target.faces } →
        (shelfJob.account oldShelf default t.verdict).1.Renders shelfJob.target ∧
        (report.success = true → report.menu.bare = shelfJob.target.bare)) := by
  obtain ⟨ended, drawn⟩ :
      ((schedule shelfJob oldShelf default).play (fun _ => .taking false) 6).1.ending?.isSome = true ∧
      Trace.drawn ((schedule shelfJob oldShelf default).play (fun _ => .taking false) 6).2 = 1 := by
    decide +kernel
  refine play_finishes (by decide +kernel) fun n k hk => ?_
  have bound := drawn_play_le ended n
  obtain rfl : k = 0 := by omega
  decide +kernel

end Operation

end RemoteMenu
