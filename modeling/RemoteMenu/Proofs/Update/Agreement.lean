import RemoteMenu.Proofs.Update.Flow
import RemoteMenu.Proofs.Update.Outcome

/-!
# What the life of an operation, its result and those who stop it agree on

An operation may be asked to stop at any time, any number of times. Whatever it is answered meanwhile, it
does not fail; at most one request to stop is in time, and the operation ends as canceled, and tells
nobody of a report, just if one was (`Watch.agrees`).
-/

namespace RemoteMenu

open Engine

/-! ### What the dialogue does -/

def Exchange.notified? : Exchange → Option Report
  | ⟨.world (.notify report), _⟩ => some report
  | _ => none

def Exchange.Stops : Exchange → Prop
  | ⟨.poll, canceled⟩ => canceled = true
  | ⟨.enter _, passage⟩ => passage = .canceled
  | _ => False

namespace Trace

def notified (t : Trace) : List Report := t.filterMap Exchange.notified?

def Stopped (t : Trace) : Prop := ∃ e ∈ t, e.Stops

@[simp] theorem notified_append (s t : Trace) : notified (s ++ t) = notified s ++ notified t :=
  List.filterMap_append

theorem notified_artworks {t extra : Trace} (h : ∀ e ∈ extra, e.inquiry.OfArtworks) :
    notified (t ++ extra) = notified t := by
  have none : notified extra = [] := by
    refine List.filterMap_eq_nil_iff.mpr fun e he => ?_
    obtain ⟨inquiry, reply⟩ := e
    have artworks : inquiry.OfArtworks := h _ he
    cases inquiry with
    | world r => cases r <;> first | rfl | cases artworks
    | _ => rfl
  rw [notified_append, none, List.append_nil]

theorem stopped_snoc {t : Trace} {e : Exchange} : Stopped (t ++ [e]) ↔ t.Stopped ∨ e.Stops := by
  simp [Stopped, or_and_right, exists_or]

end Trace

/-- An operation moves on to run and then to its end, unless it is told that it has been asked to stop. -/
def living : Contract where
  fair _
    | ⟨.enter _, passage⟩ => passage = .entered ∨ passage = .canceled
    | _ => True
  asks t _
    | .enter state => t.entered ++ [state] <+: [.running, .finished]
    | _ => True

/-- What an update ends with: it was told to stop, or has finished and handed over its report. -/
def Concludes (job : Job) (t : Trace) (_ : Progress) (r : Except Halt Outcome) : Prop :=
  (r = .ok .canceled ∧ t.Stopped ∧ t.notified = []) ∨
  ∃ report, r = .ok (.finished report) ∧ t.entered = [.running, .finished] ∧
    t.notified = if job.notifies then [report] else []

/-- A level leaves the life of its operation alone. -/
theorem flow_living (target current : Menu) (layout : Layout) :
    Flow living target current layout (fun t => t.entered = [.running] ∧ t.notified = [])
      (fun t => t.entered = [.running] ∧ t.notified = []) (fun t => t.Stopped ∧ t.notified = []) := by
  have plain {t : Trace} (e : Exchange) (h : t.entered = [.running] ∧ t.notified = [])
      (life : e.entered? = none) (report : e.notified? = none) :
      Trace.entered (t ++ [e]) = [.running] ∧ Trace.notified (t ++ [e]) = [] := by
    rw [Trace.entered_append, Trace.notified_append, h.1, h.2]
    simp [Trace.entered, Trace.notified, life, report]
  constructor
  · intro t _ now i aside
    cases i with
    | enter => cases aside
    | _ => trivial
  · exact fun h => h
  · exact fun h _ => ⟨Trace.stopped_snoc.mpr (.inr rfl), (plain _ h rfl rfl).2⟩
  · exact fun h _ => plain _ h rfl rfl
  · intro t extra h artworks
    rw [Trace.entered_aside fun e he => (artworks e he).aside, Trace.notified_artworks artworks]
    exact h
  · exact fun h _ _ => ⟨trivial, fun _ _ => plain _ h rfl rfl⟩
  · exact fun h _ _ => ⟨fun _ => trivial, fun _ _ => plain _ h rfl rfl⟩
  · refine fun h _ _ => ⟨fun _ => trivial, fun _ => plain _ h rfl rfl, fun _ => ?_⟩
    exact ⟨fun _ => plain _ h rfl rfl, fun _ _ => trivial,
      fun _ _ _ => plain _ (plain _ h rfl rfl) rfl rfl⟩

theorem Job.keeps_living (job : Job) (current : Menu) :
    (job.run { committed := current }).Keeps living (Concludes job) [] := by
  change job.run.Meets living [] { committed := current } (Concludes job)
  rw [Job.run, meets_bind]
  refine (meets_ask _).mpr ⟨⟨[.finished], rfl⟩, fun passage entered => ?_⟩
  rw [onward_ok]
  rcases entered with rfl | rfl
  · dsimp only
    rw [meets_bind]
    refine (meets_request _).mpr ⟨trivial, fun startedAt _ => ?_⟩
    rw [onward_ok, meets_bind, meets_now, onward_ok, meets_bind, meets_attempt]
    refine ((flow_living job.target current job.setup.settings.defaultLayout).meets_reconcile rfl
      ⟨rfl, rfl⟩).mono fun t now r passes => ?_
    rw [onward_ok]
    cases r with
    | error halt =>
      obtain ⟨rfl, stopped, quiet⟩ := passes
      exact .inl ⟨rfl, stopped, quiet⟩
    | ok success =>
      obtain ⟨running, quiet⟩ := passes
      dsimp only
      rw [meets_bind]
      refine (meets_ask _).mpr ⟨?_, fun passage entered => ?_⟩
      · change t.entered ++ [.finished] <+: _
        rw [running]
        exact List.prefix_refl _
      rw [onward_ok]
      rcases entered with rfl | rfl
      · -- From here on nothing is polled any more.
        have finished : Trace.entered (t ++ [⟨.enter .finished, .entered⟩]) = [.running, .finished] := by
          rw [Trace.entered_enter, running]
          rfl
        dsimp only
        rw [meets_bind, meets_now, onward_ok, meets_bind]
        refine (meets_request _).mpr ⟨trivial, fun finishedAt _ => ?_⟩
        rw [onward_ok]
        split
        · next told =>
          rw [meets_bind]
          refine (meets_request _).mpr ⟨trivial, fun _ _ => .inr ⟨_, rfl, ?_, ?_⟩⟩
          · rw [Trace.entered_append, Trace.entered_append, finished]
            rfl
          · simp only [Trace.notified_append, quiet, told, if_true]
            rfl
        · next told =>
          refine .inr ⟨_, rfl, ?_, ?_⟩
          · rw [Trace.entered_append, finished]
            rfl
          · simp only [Trace.notified_append, quiet, told]
            rfl
      · refine .inl ⟨rfl, Trace.stopped_snoc.mpr (.inr rfl), ?_⟩
        rw [Trace.notified_append, quiet]
        rfl
  · exact .inl ⟨rfl, ⟨_, List.mem_singleton_self _, rfl⟩, rfl⟩

/-! ### Watching an operation -/

inductive Operation.Act
  /-- A single inquiry of it is answered. -/
  | proceed (answers : Answers)
  /-- It is asked to stop. -/
  | cancel

/-- An operation and what was seen of it. -/
structure Watch where
  op : Operation
  /-- What it asked and was answered. -/
  asked : Trace := []
  /-- The states that it was in, each noted down when it was another one than before. -/
  states : List OperationState := [op.lifecycle.state]
  /-- What those were told who asked it to stop. -/
  told : List Bool := []

namespace Watch

def look (s : Watch) (op : Operation) : Watch :=
  if s.states.getLast? = some op.lifecycle.state then { s with op }
  else { s with op, states := s.states ++ [op.lifecycle.state] }

theorem op_look (s : Watch) (op : Operation) : (s.look op).op = op := by
  unfold look
  split <;> rfl

def act (s : Watch) : Operation.Act → Watch
  | .proceed answers => { s with asked := s.asked ++ s.op.proceedTrace answers }.look (s.op.proceed answers)
  | .cancel => { s with told := s.told ++ [s.op.cancel.1] }.look s.op.cancel.2

def run (s : Watch) (acts : List Operation.Act) : Watch := acts.foldl act s

def start (job : Job) (current : Menu) (ids : IdSupply) : Watch where
  op := .schedule job current ids

/-- What is known of a watched operation: its life goes on from what its dialogue has entered, unless it
was stopped, and then it does not finish any more. -/
structure Follows (job : Job) (s : Watch) : Prop where
  keeps : ∃ d, s.op.task = .live d ∧ d.Keeps living (Concludes job) s.asked
  order : s.asked.entered <+: [.running, .finished]
  life :
    (s.op.lifecycle = { state := s.asked.state } ∧ s.states = .queued :: s.asked.entered ∧
      s.told.count true = 0 ∧ ¬ s.asked.Stopped) ∨
    (s.op.lifecycle = ⟨.canceled, true⟩ ∧ s.states = .queued :: s.asked.entered ++ [.canceled] ∧
      s.told.count true = 1 ∧ s.asked.entered ≠ [.running, .finished])

/-- Moves in this order are allowed. -/
theorem canMove_of_order {t : Trace} {state : OperationState}
    (order : t.entered ++ [state] <+: [.running, .finished]) : t.state.canMove state = true := by
  rw [Trace.state]
  rcases h : t.entered with _ | ⟨a, _ | ⟨b, rest⟩⟩ <;> rw [h] at order
  · obtain rfl := (List.cons_prefix_cons.mp order).1
    rfl
  · have second := (List.cons_prefix_cons.mp order).2
    obtain rfl := (List.cons_prefix_cons.mp second).1
    obtain rfl := (List.cons_prefix_cons.mp order).1
    rfl
  · have length := order.length_le
    simp at length

/-- Of the states in this order, the last is the one in which it is too late to stop. -/
theorem state_cases {t : Trace} (order : t.entered <+: [.running, .finished]) :
    (t.entered ≠ [.running, .finished] ∧ t.state.canMove .canceled = true) ∨
    (t.entered = [.running, .finished] ∧ t.state = .finished) := by
  rw [Trace.state]
  rcases h : t.entered with _ | ⟨a, _ | ⟨b, rest⟩⟩ <;> rw [h] at order
  · exact .inl ⟨by simp, rfl⟩
  · obtain ⟨rfl, -⟩ := List.cons_prefix_cons.mp order
    exact .inl ⟨by simp, rfl⟩
  · have second := (List.cons_prefix_cons.mp order).2
    obtain rfl := List.prefix_nil.mp (List.cons_prefix_cons.mp second).2
    obtain rfl := (List.cons_prefix_cons.mp second).1
    obtain rfl := (List.cons_prefix_cons.mp order).1
    exact .inr ⟨rfl, rfl⟩

theorem last_of_calm {t : Trace} : (OperationState.queued :: t.entered).getLast? = some t.state := by
  rw [List.getLast?_cons]
  rfl

namespace Follows

variable {job : Job} {s : Watch}

theorem last (h : s.Follows job) : s.states.getLast? = some s.op.lifecycle.state := by
  rcases h.life with ⟨lifecycle, states, -, -⟩ | ⟨lifecycle, states, -, -⟩
  · rw [states, lifecycle, last_of_calm]
  · rw [states, lifecycle, List.getLast?_concat]

/-- An exchange that the life of the operation has no part in. -/
theorem quiet (h : s.Follows job) {op : Operation} {e : Exchange} (lifecycle : op.lifecycle = s.op.lifecycle)
    (keeps : ∃ d, op.task = .live d ∧ d.Keeps living (Concludes job) (s.asked ++ [e]))
    (life : e.entered? = none) (heeds : e.Stops → s.op.lifecycle.cancelRequested = true) :
    ({ s with asked := s.asked ++ [e] }.look op).Follows job := by
  have entered : Trace.entered (s.asked ++ [e]) = s.asked.entered := by
    rw [Trace.entered_append, Trace.entered, Trace.entered, List.filterMap_cons_none life]
    exact List.append_nil _
  rw [look, if_pos (by rw [lifecycle]; exact h.last)]
  refine ⟨keeps, ?_, ?_⟩
  · rw [entered]
    exact h.order
  · rw [lifecycle, Trace.state, entered]
    refine h.life.imp_left ?_
    rintro ⟨calm, states, told, going⟩
    refine ⟨calm, states, told, fun stopped => ?_⟩
    rcases Trace.stopped_snoc.mp stopped with before | now
    · exact going before
    · have asked := heeds now
      rw [calm] at asked
      cases asked

/-- The operation moves on, unless it was stopped and is told so. -/
theorem enter (h : s.Follows job) (answers : Answers) {state : OperationState} {now : Progress}
    {next : Passage → Dialogue (Except Halt Outcome)} (live : s.op.task = .live (.ask (.enter state) now next))
    (keeps : Dialogue.Keeps living (Concludes job) (.ask (.enter state) now next) s.asked) :
    (s.act (.proceed answers)).Follows job := by
  obtain ⟨moved, exchange⟩ := Operation.proceed_ask live answers
  rw [act, exchange, moved]
  have onward (fair : living.fair s.asked ⟨.enter state, (s.op.toLocal.reply answers (.enter state)).1⟩) :=
    keeps.2 _ fair
  have order := keeps.1
  rcases h.life with ⟨lifecycle, states, told, going⟩ | ⟨lifecycle, -, -, -⟩
  · have moves := canMove_of_order order
    have entered : s.op.toLocal.reply answers (.enter state) =
        (.entered, { s.op.toLocal with lifecycle := { state } }) := by
      rw [Local.reply_enter, lifecycle, Lifecycle.enter_of_canMove moves]
    rw [entered] at onward ⊢
    have other : s.states.getLast? ≠ some state := by
      rw [h.last, lifecycle]
      intro same
      have same : s.asked.state = state := Option.some.inj same
      rw [same] at moves
      cases state <;> cases moves
    rw [look, if_neg other]
    refine ⟨⟨_, rfl, onward (.inl rfl)⟩, ?_, .inl ⟨?_, ?_, told, ?_⟩⟩
    · rw [Trace.entered_enter]
      exact order
    · rw [Trace.state, Trace.entered_enter, List.getLast?_concat]
      rfl
    · rw [Trace.entered_enter, states]
      rfl
    · rw [Trace.stopped_snoc]
      exact fun stopped => stopped.elim going fun stops => by cases stops
  · have canceled : s.op.toLocal.reply answers (.enter state) = (.canceled, s.op.toLocal) := by
      have enter : s.op.lifecycle.enter state = (.canceled, s.op.lifecycle) := by
        rw [lifecycle, Lifecycle.enter, if_pos rfl]
      rw [Local.reply_enter, enter]
    rw [canceled] at onward ⊢
    refine h.quiet rfl ⟨_, rfl, onward (.inr rfl)⟩ rfl fun _ => ?_
    rw [lifecycle]

theorem proceed (h : s.Follows job) (answers : Answers) : (s.act (.proceed answers)).Follows job := by
  obtain ⟨d, live, keeps⟩ := h.keeps
  cases d with
  | done =>
    obtain ⟨still, none⟩ := Operation.proceed_done live answers
    rw [act, still, none, List.append_nil, look, if_pos h.last]
    exact h
  | ask inquiry now next =>
    obtain ⟨moved, exchange⟩ := Operation.proceed_ask live answers
    have onward (fair : living.fair s.asked ⟨inquiry, (s.op.toLocal.reply answers inquiry).1⟩) :=
      keeps.2 _ fair
    cases inquiry with
    | enter state => exact h.enter answers live keeps
    | poll =>
      rw [act, exchange, moved]
      exact h.quiet rfl ⟨_, rfl, onward trivial⟩ rfl fun stops => stops
    | reserve count =>
      rw [act, exchange, moved]
      exact h.quiet rfl ⟨_, rfl, onward trivial⟩ rfl fun stops => by cases stops
    | world r =>
      rw [act, exchange, moved]
      exact h.quiet rfl ⟨_, rfl, onward trivial⟩ rfl fun stops => by cases stops

theorem cancel (h : s.Follows job) : (s.act .cancel).Follows job := by
  rw [act]
  rcases h.life with ⟨lifecycle, states, told, going⟩ | ⟨lifecycle, states, told, unfinished⟩
  · rcases state_cases h.order with ⟨entered, state⟩ | ⟨entered, state⟩
    · -- It is still in time.
      have asked : s.op.cancel = (true, { s.op with lifecycle := ⟨.canceled, true⟩ }) := by
        rw [Operation.cancel, lifecycle, Lifecycle.cancel, if_pos state]
      have other : s.states.getLast? ≠ some .canceled := by
        rw [h.last, lifecycle]
        intro same
        have same : s.asked.state = .canceled := Option.some.inj same
        rw [same] at state
        cases state
      rw [asked, look, if_neg other]
      refine ⟨h.keeps, h.order, .inr ⟨rfl, ?_, ?_, entered⟩⟩
      · rw [states]
      · rw [List.count_append, told]
        rfl
    · have asked : s.op.cancel = (false, s.op) := by
        rw [Operation.cancel, lifecycle, Lifecycle.cancel, state, if_neg (by decide)]
        rw [← state, ← lifecycle]
      rw [asked, look, if_pos h.last]
      refine ⟨h.keeps, h.order, .inl ⟨lifecycle, states, ?_, going⟩⟩
      rw [List.count_append, told]
      rfl
  · have asked : s.op.cancel = (false, s.op) := by
      rw [Operation.cancel, lifecycle, Lifecycle.cancel, if_neg (by decide), ← lifecycle]
    rw [asked, look, if_pos h.last]
    refine ⟨h.keeps, h.order, .inr ⟨lifecycle, states, ?_, unfinished⟩⟩
    rw [List.count_append, told]
    rfl

theorem run (h : s.Follows job) (acts : List Operation.Act) : (s.run acts).Follows job := by
  induction acts generalizing s with
  | nil => exact h
  | cons a acts ih =>
    cases a with
    | proceed answers => exact ih (h.proceed answers)
    | cancel => exact ih h.cancel

end Follows

theorem follows_start (job : Job) (current : Menu) (ids : IdSupply) : (start job current ids).Follows job where
  keeps := ⟨_, rfl, job.keeps_living current⟩
  order := List.nil_prefix
  life := .inl ⟨rfl, rfl, rfl, by simp [start, Trace.Stopped]⟩

/-! ### The agreement -/

/-- What is agreed on once an operation has come to an outcome: it is canceled just if a request to stop
was in time, and whoever waits for a report gets that of the outcome, once, or none. -/
structure Concluded (job : Job) (s : Watch) (outcome : Outcome) : Prop where
  told : true ∈ s.told ↔ outcome = .canceled
  state : s.op.lifecycle.state = .canceled ↔ outcome = .canceled
  silent : job.notifies = true → (s.asked.notified = [] ↔ outcome = .canceled)
  finished : outcome ≠ .canceled → ∃ report, outcome = .finished report ∧
    s.op.lifecycle.state = .finished ∧ s.asked.notified = if job.notifies then [report] else []

structure Agrees (job : Job) (s : Watch) : Prop where
  /-- It is queued, runs and finishes, if it is not canceled before it runs or while it does. -/
  states : s.states <+: [.queued, .running, .finished] ∨ s.states = [.queued, .canceled] ∨
    s.states = [.queued, .running, .canceled]
  state : s.states.getLast? = some s.op.lifecycle.state
  once : s.told.count true ≤ 1
  /-- It neither fails nor crashes. -/
  ended : ∀ ending, s.op.ending? = some ending →
    ∃ outcome, ending = .returned outcome ∧ s.Concluded job outcome

namespace Follows

variable {job : Job} {s : Watch}

theorem states (h : s.Follows job) : s.states <+: [.queued, .running, .finished] ∨
    s.states = [.queued, .canceled] ∨ s.states = [.queued, .running, .canceled] := by
  rcases h.life with ⟨-, states, -, -⟩ | ⟨-, states, -, unfinished⟩
  · rw [states]
    exact .inl (List.cons_prefix_cons.mpr ⟨rfl, h.order⟩)
  · rw [states]
    have order := h.order
    match entered : s.asked.entered with
    | [] => exact .inr (.inl rfl)
    | [a] =>
      rw [entered] at order
      obtain rfl := (List.cons_prefix_cons.mp order).1
      exact .inr (.inr rfl)
    | a :: b :: rest =>
      rw [entered] at order unfinished
      exact absurd (order.eq_of_length_le (by simp)) unfinished

theorem concluded (h : s.Follows job) {ending : Operation.Ending} (ended : s.op.ending? = some ending) :
    ∃ outcome, ending = .returned outcome ∧ s.Concluded job outcome := by
  obtain ⟨d, live, keeps⟩ := h.keeps
  rw [Operation.ending?, live] at ended
  cases d with
  | ask => cases ended
  | done now r =>
    rcases keeps with ⟨rfl, stopped, quiet⟩ | ⟨report, rfl, finished, notified⟩
    · obtain rfl := Option.some.inj ended
      refine ⟨.canceled, rfl, ?_⟩
      rcases h.life with ⟨-, -, -, going⟩ | ⟨lifecycle, -, told, -⟩
      · exact absurd stopped going
      · have asked : true ∈ s.told := List.count_pos_iff.mp (by omega)
        exact ⟨by simp [asked], by simp [lifecycle], by simp [quiet], fun other => absurd rfl other⟩
    · obtain rfl := Option.some.inj ended
      refine ⟨.finished report, rfl, ?_⟩
      rcases h.life with ⟨lifecycle, -, told, -⟩ | ⟨-, -, -, unfinished⟩
      · have state : s.op.lifecycle.state = .finished := by
          rw [lifecycle, Trace.state, finished]
          rfl
        have asked : true ∉ s.told := List.count_eq_zero.mp told
        refine ⟨by simp [asked], by simp [state], fun waits => ?_, fun _ => ⟨report, rfl, state, notified⟩⟩
        rw [notified, if_pos waits]
        simp
      · exact absurd finished unfinished

end Follows

theorem asked_look (s : Watch) (op : Operation) : (s.look op).asked = s.asked := by
  unfold look
  split <;> rfl

/-- Whatever an operation does can be watched. -/
theorem exists_run_of_moves {op op' : Operation} {t : Trace} (way : op.Moves t op') {s : Watch} (here : s.op = op) :
    ∃ acts, (s.run acts).op = op' ∧ (s.run acts).asked = s.asked ++ t := by
  induction way generalizing s with
  | rest => exact ⟨[], here, (List.append_nil _).symm⟩
  | step answers _ ih =>
    subst here
    obtain ⟨acts, reached, asked⟩ := @ih (s.act (.proceed answers)) (op_look ..)
    refine ⟨.proceed answers :: acts, reached, asked.trans ?_⟩
    rw [act, asked_look, List.append_assoc]
  | stop _ ih =>
    subst here
    obtain ⟨acts, reached, asked⟩ := @ih (s.act .cancel) (op_look ..)
    refine ⟨.cancel :: acts, reached, asked.trans ?_⟩
    rw [act, asked_look]

/-- An operation that has finished was not asked to stop in time. -/
theorem calm_of_finished {job : Job} {current : Menu} {ids : IdSupply} {t : Trace} {op : Operation} {report : Report}
    (way : (Operation.schedule job current ids).Moves t op)
    (ended : op.ending? = some (.returned (.finished report))) : op.lifecycle.cancelRequested = false := by
  obtain ⟨acts, rfl, -⟩ := exists_run_of_moves way (rfl : (start job current ids).op = _)
  have follows := (follows_start job current ids).run acts
  obtain ⟨outcome, same, concluded⟩ := follows.concluded ended
  obtain rfl := Operation.Ending.returned.inj same
  have state := concluded.state
  rcases follows.life with ⟨lifecycle, -⟩ | ⟨lifecycle, -⟩
  · rw [lifecycle]
  · rw [lifecycle] at state
    cases state.mp rfl

theorem exists_ended {s : Watch} {d : Dialogue (Except Halt Outcome)} (live : s.op.task = .live d)
    (world : Nat → Answers) :
    ∃ n, (s.run ((List.range n).map fun k => .proceed (world k))).op.ending?.isSome = true := by
  induction d generalizing s world with
  | done now r =>
    refine ⟨0, ?_⟩
    rw [List.range_zero, List.map_nil, run, List.foldl_nil, Operation.ending?, live]
    cases r with
    | ok => rfl
    | error halt => cases halt <;> rfl
  | ask inquiry now next ih =>
    have step : (s.act (.proceed (world 0))).op.task =
        .live (next (s.op.toLocal.reply (world 0) inquiry).1) := by
      rw [act, op_look, (Operation.proceed_ask live (world 0)).1]
    obtain ⟨n, ended⟩ := ih _ step fun k => world (k + 1)
    refine ⟨n + 1, ?_⟩
    rw [List.range_succ_eq_map, List.map_cons, List.map_map]
    exact ended

/-- However an operation is answered and whenever it is asked to stop, its states, its outcome, what those
are told who stop it and who gets a report agree at any time. It comes to its end. -/
theorem agrees (job : Job) (current : Menu) (ids : IdSupply) (acts : List Operation.Act) :
    ((start job current ids).run acts).Agrees job ∧
    ∀ world : Nat → Answers, ∃ n, (((start job current ids).run acts).run
      ((List.range n).map fun k => .proceed (world k))).op.ending?.isSome = true := by
  have follows := (follows_start job current ids).run acts
  refine ⟨⟨follows.states, follows.last, ?_, fun _ => follows.concluded⟩, fun world => ?_⟩
  · rcases follows.life with ⟨-, -, told, -⟩ | ⟨-, -, told, -⟩ <;> omega
  · obtain ⟨d, live, -⟩ := follows.keeps
    exact exists_ended live world

end Watch

end RemoteMenu
