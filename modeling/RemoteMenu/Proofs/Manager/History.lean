import RemoteMenu.Manager
import RemoteMenu.Proofs.Update.LevelMirroring
import RemoteMenu.Proofs.Update.Moves

/-!
# Histories of a manager

What happens to a manager, one event after another, and what its operations have asked on the way.
Between events the manager keeps track of the host (`Manager.Tracked`): with no operation in flight
its menu is what the host shows, and the operation in flight keeps the contract `mirroring`.
-/

namespace RemoteMenu

open HostTree

namespace Manager

inductive Event
  /-- A call; none is served while another one waits. -/
  | call (call : Call)
  /-- The operation with a number is asked to stop. -/
  | cancel (number : Nat)
  /-- The operation in flight goes on up to its next request. -/
  | wake
  /-- Its request is answered, and it goes on up to its next one. -/
  | answer (answers : Answers)
  /-- A single inquiry of it is answered. -/
  | proceed (answers : Answers)
  /-- It dies in the middle of its request. -/
  | crash

def Event.target? : Event → Option Menu
  | .call (.update target _) => some target
  | _ => none

def proceed (m : Manager) (answers : Answers) : Manager × Option CallResult :=
  { m with inFlight := m.inFlight.map (·.proceed answers) : Manager }.resume

/-- What the operation in flight asks in some course. -/
def courseTrace (m : Manager) (course : Operation → Trace) : Trace := (m.inFlight.map course).getD []

def callTrace (m : Manager) : Call → Trace
  | .update _ _ =>
    if m.closed then [] else (m.cancel m.past.length).2.courseTrace Operation.wakeTrace
  | .settle => m.courseTrace Operation.wakeTrace
  | .shutdown => (m.cancel m.past.length).2.courseTrace Operation.wakeTrace

end Manager

open Manager

/-- A manager with all that its operations have asked, each exchange beside the number of its
operation. -/
structure History where
  manager : Manager
  trace : List (Nat × Exchange) := []

namespace History

def exchanges (h : History) : Trace := h.trace.map Prod.snd

def exchangesOf (h : History) (number : Nat) : Trace :=
  (h.trace.filter (·.1 = number)).map Prod.snd

/-- The tree that the accepted batches have made on a host that was empty. -/
def host (h : History) : HostTree := replay h.exchanges.batches

def next (h : History) (m : Manager) (t : Trace) : History where
  manager := m
  trace := h.trace ++ t.map fun e => (h.manager.past.length, e)

def step (h : History) : Event → History
  | .call c =>
    if h.manager.waiting.isSome then h
    else h.next (h.manager.call c).1 (h.manager.callTrace c)
  | .cancel number => h.next (h.manager.cancel number).2 []
  | .wake => h.next h.manager.wake.1 (h.manager.courseTrace Operation.wakeTrace)
  | .answer answers =>
    h.next (h.manager.answer answers).1 (h.manager.courseTrace (·.answerTrace answers))
  | .proceed answers =>
    h.next (h.manager.proceed answers).1 (h.manager.courseTrace (·.proceedTrace answers))
  | .crash => h.next h.manager.crash.1 []

def run (h : History) (events : List Event) : History := events.foldl step h

def fresh (settings : Settings) (uploads : Bool) (ids : IdSupply) : History where
  manager := { settings, uploads, ids }

@[simp] theorem run_nil (h : History) : h.run [] = h := rfl

@[simp] theorem run_cons (h : History) (e : Event) (events : List Event) :
    h.run (e :: events) = (h.step e).run events := rfl

theorem run_append (h : History) (a b : List Event) : h.run (a ++ b) = (h.run a).run b :=
  List.foldl_append

@[simp] theorem exchanges_next (h : History) (m : Manager) (t : Trace) :
    (h.next m t).exchanges = h.exchanges ++ t := by
  simp [exchanges, next, Function.comp_def]

end History

/-! ### The operation in flight -/

section
variable {w : Scope} {t : Trace}

theorem fair_of_draws {seg : Trace} (draws : Operation.Draws w.start t.drawn seg)
    (bound : Trace.drawn (t ++ seg) < legalIds) : (mirroring w).Fair t seg := by
  refine draws.fair (· < legalIds) bound (fun a b le lt => Nat.lt_of_le_of_lt le lt)
    (fun t count lt => ⟨rfl, lt⟩) fun t i reply other => ?_
  cases i with
  | reserve count => exact absurd rfl (other count)
  | _ => trivial

/-- What is known of an operation in flight after a trace. -/
structure Underway (w : Scope) (t : Trace) (op : Operation) : Prop where
  ids : op.ids = w.start.skip t.drawn
  keeps : ∃ d, op.task = .live d ∧ d.Keeps (mirroring w) (Ended w) t

namespace Underway

variable {op op' : Operation}

theorem moves {seg : Trace} (h : Underway w t op) (moves : op.Moves seg op')
    (bound : Trace.drawn (t ++ seg) < legalIds) :
    Underway w (t ++ seg) op' ∧ (replay t.batches).Orderly (Trace.batches seg) := by
  obtain ⟨d, live, keeps⟩ := h.keeps
  obtain ⟨d', live', runs⟩ := moves.runs live
  obtain ⟨draws, ids⟩ := moves.draws live h.ids
  have fair := fair_of_draws draws bound
  refine ⟨⟨?_, d', live', keeps.along runs fair⟩, keeps.orderly runs fair⟩
  rw [ids, Trace.drawn_append]

theorem schedule {job : Job} {current : Menu} {ids : IdSupply}
    (layout : job.setup.settings.defaultLayout = w.layout) (distinguished : Collisionless w.faces)
    (known : ∀ n ∈ job.target.walk, n.face ∈ w.faces) (h : Mirrored w t (current.places none))
    (supply : ids = w.start.skip t.drawn) : Underway w t (.schedule job current ids) :=
  ⟨supply, _, rfl, Job.keeps_mirroring layout distinguished known h⟩

/-- An operation that has ended did not crash, and what it has committed is what the host shows. -/
theorem ended (h : Underway w t op) {ending : Operation.Ending} (ended : op.ending? = some ending) :
    Mirrored w t (op.committed.places none) ∧ ending ≠ .crashed := by
  obtain ⟨d, live, keeps⟩ := h.keeps
  rw [Operation.ending?, live] at ended
  rw [Operation.committed, Operation.progress, live]
  cases d with
  | ask => cases ended
  | done now r =>
    refine ⟨keeps.1, ?_⟩
    cases r with
    | ok outcome =>
      obtain rfl := Option.some.inj ended
      simp
    | error halt =>
      cases halt with
      | crashed => exact absurd rfl keeps.2
      | canceled =>
        obtain rfl := Option.some.inj ended
        simp
      | failed error =>
        obtain rfl := Option.some.inj ended
        simp

theorem pending (h : Underway w t op) {batch : List Command} (waits : op.pending? = some (.send batch)) :
    (replay t.batches).AdmitsAll batch := by
  obtain ⟨d, live, keeps⟩ := h.keeps
  rw [Operation.pending?, live] at waits
  cases d with
  | done => cases waits
  | ask inquiry now next =>
    cases inquiry with
    | world r =>
      obtain rfl := Option.some.inj waits
      exact keeps.1
    | _ => cases waits

end Underway

end

/-! ### The manager -/

theorem Manager.resume_of_busy {m : Manager} {op : Operation} (flight : m.inFlight = some op)
    (going : op.ending? = none) : m.resume.1 = m := by
  unfold Manager.resume
  split
  · rfl
  · simp only [flight, going]

theorem Manager.resume_of_idle {m : Manager} {call : Call} (waits : m.waiting = some call)
    (idle : ∀ op, m.inFlight = some op → op.ending?.isSome = true) :
    m.resume.1 = ({ m with waiting := none : Manager }.complete (m.inFlight.bind Operation.ending?) call).1 := by
  unfold Manager.resume
  cases flight : m.inFlight with
  | none => simp only [waits, Option.bind_none]
  | some op =>
    obtain ⟨ending, ended⟩ := Option.isSome_iff_exists.mp (idle op flight)
    simp only [waits, ended, Option.bind_some]

/-- What resuming does: nothing, or it completes the waiting call if no operation goes on. -/
theorem Manager.resume_cases (m : Manager) : m.resume.1 = m ∨
    ∃ call, m.waiting = some call ∧ (∀ op, m.inFlight = some op → op.ending?.isSome = true) ∧
      m.resume.1 = ({ m with waiting := none : Manager }.complete
        (m.inFlight.bind Operation.ending?) call).1 := by
  cases waits : m.waiting with
  | none =>
    left
    unfold Manager.resume
    rw [waits]
  | some call =>
    by_cases idle : ∀ op, m.inFlight = some op → op.ending?.isSome = true
    · exact .inr ⟨call, rfl, idle, resume_of_idle waits idle⟩
    · left
      push Not at idle
      obtain ⟨op, flight, going⟩ := idle
      exact resume_of_busy flight (by simpa using going)

/-- What is known of a manager after a trace, with no operation in flight or with one. -/
structure Manager.Tracked (w : Scope) (t : Trace) (m : Manager) : Prop where
  layout : m.settings.defaultLayout = w.layout
  waiting : ∀ target notifies, m.waiting = some (.update target notifies) →
    ∀ n ∈ target.walk, n.face ∈ w.faces
  resting : m.inFlight = none → Mirrored w t (m.current.places none) ∧ m.ids = w.start.skip t.drawn
  running : ∀ op, m.inFlight = some op → Underway w t op

namespace Manager.Tracked

variable {w : Scope} {t : Trace} {m : Manager}

theorem currentMenu (h : m.Tracked w t) (idle : ∀ op, m.inFlight = some op → op.ending?.isSome = true) :
    Mirrored w t (m.currentMenu.places none) := by
  rw [Manager.currentMenu]
  cases flight : m.inFlight with
  | none => exact (h.resting flight).1
  | some op =>
    obtain ⟨ending, ended⟩ := Option.isSome_iff_exists.mp (idle op flight)
    exact ((h.running op flight).ended ended).1

theorem takeOver (h : m.Tracked w t) (idle : ∀ op, m.inFlight = some op → op.ending?.isSome = true) :
    m.takeOver.Tracked w t ∧ m.takeOver.inFlight = none := by
  have menu := h.currentMenu idle
  unfold Manager.takeOver Manager.retire
  cases flight : m.inFlight with
  | none =>
    exact ⟨⟨h.layout, h.waiting, fun _ => ⟨menu, (h.resting flight).2⟩, by simp [flight]⟩, flight⟩
  | some op => exact ⟨⟨h.layout, h.waiting, fun _ => ⟨menu, (h.running op flight).ids⟩, by simp⟩, rfl⟩

theorem schedule (h : m.Tracked w t) (distinguished : Collisionless w.faces) (free : m.inFlight = none)
    {target : Menu} (known : ∀ n ∈ target.walk, n.face ∈ w.faces) (notifies : Bool) :
    (m.schedule target notifies).1.Tracked w t := by
  obtain ⟨mirrored, ids⟩ := h.resting free
  refine ⟨h.layout, h.waiting, by simp [Manager.schedule], ?_⟩
  intro op flight
  obtain rfl := Option.some.inj flight
  exact .schedule h.layout distinguished known mirrored ids

theorem complete (h : m.Tracked w t) (distinguished : Collisionless w.faces)
    {ending : Option Operation.Ending} (ended : m.inFlight.bind Operation.ending? = ending)
    (idle : ∀ op, m.inFlight = some op → op.ending?.isSome = true) {call : Call}
    (known : ∀ target notifies, call = .update target notifies → ∀ n ∈ target.walk, n.face ∈ w.faces) :
    (m.complete ending call).1.Tracked w t := by
  obtain ⟨taken, free⟩ := h.takeOver idle
  cases call with
  | update target notifies => exact taken.schedule distinguished free (known _ _ rfl) notifies
  | shutdown => exact taken
  | settle =>
    unfold Manager.complete
    cases ending with
    | none => exact h
    | some ending =>
      cases ending with
      | returned outcome => exact taken
      | failed error => exact taken
      | crashed =>
        obtain ⟨op, flight, crashed⟩ := Option.bind_eq_some_iff.mp ended
        exact absurd rfl ((h.running op flight).ended crashed).2

theorem resume (h : m.Tracked w t) (distinguished : Collisionless w.faces) :
    m.resume.1.Tracked w t := by
  rcases m.resume_cases with same | ⟨call, waits, idle, same⟩
  · rw [same]
    exact h
  · have cleared : ({ m with waiting := none } : Manager).Tracked w t :=
      ⟨h.layout, by simp, h.resting, h.running⟩
    rw [same]
    refine cleared.complete distinguished rfl idle fun target notifies own => ?_
    exact h.waiting target notifies (by rw [waits, own])

theorem moved (h : m.Tracked w t) {move : Operation → Operation} {course : Operation → Trace}
    (moves : ∀ op : Operation, op.Moves (course op) (move op))
    (bound : Trace.drawn (t ++ m.courseTrace course) < legalIds) :
    ({ m with inFlight := m.inFlight.map move } : Manager).Tracked w (t ++ m.courseTrace course) ∧
      (replay t.batches).Orderly (Trace.batches (m.courseTrace course)) := by
  cases flight : m.inFlight with
  | none =>
    have same : m.courseTrace course = [] := by rw [courseTrace, flight]; rfl
    rw [same, List.append_nil]
    exact ⟨⟨h.layout, h.waiting, fun _ => h.resting flight, by simp⟩, trivial⟩
  | some op =>
    have same : m.courseTrace course = course op := by rw [courseTrace, flight]; rfl
    rw [same] at bound ⊢
    obtain ⟨underway, orderly⟩ := (h.running op flight).moves (moves op) bound
    refine ⟨⟨h.layout, h.waiting, by simp, ?_⟩, orderly⟩
    intro op' flight'
    obtain rfl := Option.some.inj flight'
    exact underway

theorem course (h : m.Tracked w t) (distinguished : Collisionless w.faces)
    {move : Operation → Operation} {course : Operation → Trace}
    (moves : ∀ op : Operation, op.Moves (course op) (move op))
    (bound : Trace.drawn (t ++ m.courseTrace course) < legalIds) :
    ({ m with inFlight := m.inFlight.map move } : Manager).resume.1.Tracked w (t ++ m.courseTrace course) ∧
      (replay t.batches).Orderly (Trace.batches (m.courseTrace course)) := by
  obtain ⟨tracked, orderly⟩ := h.moved moves bound
  exact ⟨tracked.resume distinguished, orderly⟩

theorem cancel (h : m.Tracked w t) (number : Nat) : (m.cancel number).2.Tracked w t := by
  unfold Manager.cancel
  split
  · exact ⟨h.layout, h.waiting, h.resting, h.running⟩
  · split
    · split
      · next op flight =>
        refine ⟨h.layout, h.waiting, by simp, ?_⟩
        intro op' flight'
        obtain rfl := Option.some.inj flight'
        exact ⟨(h.running op flight).ids, (h.running op flight).keeps⟩
      · exact h
    · exact h

theorem wait (h : m.Tracked w t) (closed : Bool) {call : Call}
    (known : ∀ target notifies, call = .update target notifies → ∀ n ∈ target.walk, n.face ∈ w.faces) :
    ({ m with closed, waiting := some call } : Manager).Tracked w t :=
  ⟨h.layout, fun target notifies same => known target notifies (Option.some.inj same), h.resting, h.running⟩

end Manager.Tracked

/-! ### Histories -/

/-- The target of an update as it is worked with. -/
def Settings.named (settings : Settings) (target : Menu) : Menu :=
  if settings.disambiguateTitles then target.disambiguate else target

theorem Settings.faces_named (settings : Settings) (target : Menu) :
    (settings.named target).faces = target.faces := by
  unfold Settings.named
  split
  · exact target.faces_disambiguate
  · rfl

theorem Manager.cancel_spec (m : Manager) (number : Nat) : ∃ past move,
    (m.cancel number).2 = { m with past, inFlight := m.inFlight.map move } ∧
      past.length = m.past.length ∧ ∀ op : Operation, op.Moves [] (move op) := by
  have same : m.inFlight.map id = m.inFlight := Option.map_id_fun.symm ▸ rfl
  unfold Manager.cancel
  split
  · exact ⟨_, id, by rw [same], List.length_set, .rest⟩
  · split
    · split
      · next op flight => exact ⟨_, fun op => op.cancel.2, by rw [flight]; rfl, rfl, Operation.cancel_moves⟩
      · exact ⟨_, id, by rw [same], rfl, .rest⟩
    · exact ⟨_, id, by rw [same], rfl, .rest⟩

/-- What a new target does: the operation in flight is asked to stop, and goes on while the call waits. -/
theorem Manager.call_update {m : Manager} (opened : m.closed = false) (target : Menu) (notifies : Bool) :
    m.callTrace (.update target notifies) = (m.cancel m.past.length).2.courseTrace Operation.wakeTrace ∧
    (m.call (.update target notifies)).1 = ({ (m.cancel m.past.length).2 with
      closed := false, waiting := some (.update (m.settings.named target) notifies) } : Manager).wake.1 := by
  have closed : (m.cancel m.past.length).2.closed = false := by
    obtain ⟨past, inFlight, same, -⟩ := m.cancel_spec m.past.length
    rw [same]
    exact opened
  constructor
  · rw [callTrace, if_neg (by simp [opened])]
  · rw [Manager.call, if_neg (by simp [opened]), ← closed]
    rfl

/-- What making a call does: it is refused, or the operation in flight may be asked to stop, and goes
on while the call waits. -/
theorem Manager.call_cases (m : Manager) (c : Call) :
    ((m.call c).1 = m ∧ m.callTrace c = []) ∨
    ∃ (m' : Manager) (closed : Bool) (call : Call), (m' = m ∨ m' = (m.cancel m.past.length).2) ∧
      m.callTrace c = m'.courseTrace Operation.wakeTrace ∧
      (m.call c).1 = ({ m' with closed, waiting := some call } : Manager).wake.1 ∧
      (∀ target notifies, call = .update target notifies →
        ∃ named, c = .update named notifies ∧ target = m.settings.named named) ∧
      (call = .settle ↔ c = .settle) := by
  cases c with
  | settle => exact .inr ⟨m, m.closed, .settle, .inl rfl, rfl, rfl, by simp, Iff.rfl⟩
  | shutdown => exact .inr ⟨_, true, .shutdown, .inr rfl, rfl, rfl, by simp, Iff.rfl⟩
  | update target notifies =>
    cases closed : m.closed with
    | true =>
      left
      rw [Manager.call, callTrace, if_pos closed, if_pos closed]
      exact ⟨rfl, rfl⟩
    | false =>
      obtain ⟨trace, same⟩ := Manager.call_update closed target notifies
      refine .inr ⟨_, false, _, .inr rfl, trace, same, fun _ _ own => ?_, by simp⟩
      obtain ⟨rfl, rfl⟩ := Call.update.inj own
      exact ⟨target, rfl, rfl⟩

/-- Whether a manager is one as its operation in flight goes on at an event: as it was, or with a call that
waits from then on. -/
inductive Manager.Readies (m : Manager) : Event → Manager → Prop
  | still {e : Event} (quiet : ∀ c, e ≠ .call c) : Readies m e m
  | calls {c call : Call} {m' : Manager} (closed : Bool) (free : m.waiting = none)
      (before : m' = m ∨ m' = (m.cancel m.past.length).2)
      (target : ∀ target notifies, call = .update target notifies →
        ∃ named, c = .update named notifies ∧ target = m.settings.named named)
      (settles : call = .settle ↔ c = .settle) :
      Readies m (.call c) { m' with closed, waiting := some call }

/-- What is true of a manager is true of the one it becomes as its operation goes on, if asking an operation to stop
and waiting for it leave it true. -/
theorem Manager.Readies.keeps {P : Manager → Prop} {m m' : Manager} {e : Event} (readies : m.Readies e m') (holds : P m)
    (cancel : P (m.cancel m.past.length).2)
    (wait : ∀ (m : Manager) (closed : Bool) (call : Call), P m → P { m with closed, waiting := some call }) : P m' := by
  cases readies with
  | still => exact holds
  | @calls c call m' closed free before =>
    refine wait m' closed call ?_
    rcases before with rfl | rfl
    · exact holds
    · exact cancel

/-- What a step does: nothing, or an operation is asked to stop, or that in flight goes on by moves, after
which the waiting call may be completed. -/
theorem History.step_cases (h : History) {e : Event} (alive : e ≠ .crash) :
    h.step e = h ∨ (∃ number, h.step e = h.next (h.manager.cancel number).2 []) ∨
    ∃ (m : Manager) (move : Operation → Operation) (course : Operation → Trace),
      h.manager.Readies e m ∧ (∀ op : Operation, op.Moves (course op) (move op)) ∧
      h.step e = h.next ({ m with inFlight := m.inFlight.map move } : Manager).resume.1
        (m.courseTrace course) := by
  cases e with
  | crash => exact absurd rfl alive
  | cancel number => exact .inr (.inl ⟨number, rfl⟩)
  | wake => exact .inr (.inr ⟨_, _, _, .still nofun, Operation.wake_moves, rfl⟩)
  | answer answers => exact .inr (.inr ⟨_, _, _, .still nofun, fun op => op.answer_moves answers, rfl⟩)
  | proceed answers => exact .inr (.inr ⟨_, _, _, .still nofun, fun op => op.proceed_moves answers, rfl⟩)
  | call c =>
    rw [History.step]
    split
    · exact .inl rfl
    · next free =>
      rcases h.manager.call_cases c with ⟨same, none⟩ | ⟨m', closed, call, before, trace, same, target, settles⟩
      · left
        rw [same, none, next, List.map_nil, List.append_nil]
      · have free : h.manager.waiting = none := by simpa using free
        refine .inr (.inr ⟨_, _, _, .calls closed free before target settles, Operation.wake_moves, ?_⟩)
        rw [same, trace]
        rfl

theorem Manager.Tracked.readies {w : Scope} {t : Trace} {m m' : Manager} {e : Event} (h : m.Tracked w t)
    (readies : m.Readies e m')
    (known : ∀ target, e.target? = some target → ∀ f ∈ target.faces, f ∈ w.faces) : m'.Tracked w t := by
  cases readies with
  | still => exact h
  | @calls c call m' closed free before target =>
    have asked : m'.Tracked w t := by
      rcases before with rfl | rfl
      · exact h
      · exact h.cancel _
    refine asked.wait closed fun target' notifies own n hn => ?_
    obtain ⟨named, rfl, rfl⟩ := target target' notifies own
    refine known named rfl n.face ?_
    rw [← m.settings.faces_named]
    exact List.mem_map_of_mem hn

structure History.Tracked (w : Scope) (h : History) : Prop where
  manager : h.manager.Tracked w h.exchanges
  orderly : HostTree.Orderly [] h.exchanges.batches

namespace History

variable {w : Scope} {h : History}

theorem Tracked.next (tracked : h.Tracked w) {m : Manager} {t : Trace}
    (manager : m.Tracked w (h.exchanges ++ t)) (orderly : (replay h.exchanges.batches).Orderly (Trace.batches t)) :
    (h.next m t).Tracked w := by
  refine ⟨by rwa [exchanges_next], ?_⟩
  rw [exchanges_next, Trace.batches_append]
  exact orderly_append.mpr ⟨tracked.orderly, orderly⟩

theorem Tracked.step (tracked : h.Tracked w) (distinguished : Collisionless w.faces) {e : Event}
    (alive : e ≠ .crash) (known : ∀ target, e.target? = some target → ∀ f ∈ target.faces, f ∈ w.faces)
    (bound : (h.step e).exchanges.drawn < legalIds) : (h.step e).Tracked w := by
  rcases h.step_cases alive with same | ⟨number, same⟩ | ⟨m, move, course, readies, moves, same⟩
  · rw [same]
    exact tracked
  · rw [same]
    refine tracked.next (t := []) ?_ trivial
    rw [List.append_nil]
    exact tracked.manager.cancel number
  · rw [same, exchanges_next] at bound
    obtain ⟨manager, orderly⟩ := (tracked.manager.readies readies known).course distinguished moves bound
    rw [same]
    exact tracked.next manager orderly

theorem drawn_le_step (h : History) (e : Event) : h.exchanges.drawn ≤ (h.step e).exchanges.drawn := by
  have further (m : Manager) (t : Trace) : h.exchanges.drawn ≤ (h.next m t).exchanges.drawn := by
    rw [exchanges_next, Trace.drawn_append]
    omega
  cases e with
  | call c =>
    rw [History.step]
    split
    · exact Nat.le_refl _
    · exact further _ _
  | _ => exact further _ _

theorem drawn_le_run (h : History) (events : List Event) :
    h.exchanges.drawn ≤ (h.run events).exchanges.drawn := by
  induction events generalizing h with
  | nil => exact Nat.le_refl _
  | cons e events ih => exact Nat.le_trans (h.drawn_le_step e) (ih _)

theorem tracked_fresh {settings : Settings} (uploads : Bool) {ids : IdSupply}
    (layout : settings.defaultLayout = w.layout) (start : ids = w.start) :
    (fresh settings uploads ids).Tracked w := by
  refine ⟨⟨layout, by simp [fresh], fun _ => ⟨?_, start⟩, by simp [fresh]⟩, trivial⟩
  refine ⟨.nil, ?_, ?_, ?_⟩ <;> simp [fresh]

end History

end RemoteMenu
