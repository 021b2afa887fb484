import RemoteMenu.Proofs.Manager.Progress
import RemoteMenu.Proofs.Manager.Recovery

/-!
# Turns with the host

Operations take turns: whatever happens, all that one of them asks of the world comes before what any later
one asks. Once a shutdown has returned, nothing is asked any more, targets are refused, and there is nothing
to settle (`History.turns`).
-/

namespace RemoteMenu

open Manager

theorem Manager.past_resume (m : Manager) : m.resume.1.past = m.past ∨
    (∀ op, m.inFlight = some op → op.ending?.isSome = true) ∧ m.resume.1.past = m.past ++ m.inFlight.toList := by
  rcases m.resume_cases with still | ⟨call, -, idle, completes⟩
  · exact .inl (congrArg Manager.past still)
  · rw [completes]
    exact (past_complete _ _ call).imp id fun grows => ⟨idle, grows⟩

/-! ### What is asked of the world -/

def Exchange.request? : Exchange → Option Request
  | ⟨.world request, _⟩ => some request
  | _ => none

namespace History

def unanswered (h : History) : List (Nat × Request) :=
  h.manager.pending?.toList.map fun request => (h.manager.past.length, request)

/-- The requests that are over with an event: they are answered, or their operation dies over them. -/
def closes (h : History) : Event → List (Nat × Request)
  | .crash => h.unanswered
  | e => ((h.step e).trace.drop h.trace.length).filterMap fun p => p.2.request?.map fun request => (p.1, request)

theorem closes_of_alive (h : History) {e : Event} (alive : e ≠ .crash) : h.closes e =
    ((h.step e).trace.drop h.trace.length).filterMap fun p => p.2.request?.map fun request => (p.1, request) := by
  cases e with
  | crash => exact absurd rfl alive
  | _ => rfl

/-- All requests from here on, first to last, each beside the number of its operation. There is at most one
at a time, so that they are in this order when they are made and when they are over. -/
def requests (h : History) : List Event → List (Nat × Request)
  | [] => h.unanswered
  | e :: events => h.closes e ++ (h.step e).requests events

def gives (h : History) : Event → Option CallResult
  | .call c => if h.manager.waiting.isSome then none else (h.manager.call c).2
  | .cancel _ => none
  | .wake => h.manager.wake.2
  | .answer answers => (h.manager.answer answers).2
  | .proceed answers => (h.manager.proceed answers).2
  | .crash => h.manager.crash.2

variable {h : History}

/-! ### Turns -/

theorem trace_step (h : History) (e : Event) :
    ∃ t : Trace, (h.step e).trace = h.trace ++ t.map fun x => (h.manager.past.length, x) := by
  cases e with
  | call c =>
    rw [step]
    split
    · exact ⟨[], (List.append_nil _).symm⟩
    · exact ⟨_, rfl⟩
  | _ => exact ⟨_, rfl⟩

/-- As long as nothing dies, the requests are those that were answered and the one that waits. -/
theorem requests_of_alive (h : History) {events : List Event} (alive : Event.crash ∉ events) :
    h.requests events = (((h.run events).trace.drop h.trace.length).filterMap fun p =>
      p.2.request?.map fun request => (p.1, request)) ++ (h.run events).unanswered := by
  have grows (h : History) (events : List Event) : ∃ more, (h.run events).trace = h.trace ++ more := by
    induction events generalizing h with
    | nil => exact ⟨[], (List.append_nil _).symm⟩
    | cons e events ih =>
      obtain ⟨t, first⟩ := h.trace_step e
      obtain ⟨more, further⟩ := ih (h.step e)
      refine ⟨t.map (fun x => (h.manager.past.length, x)) ++ more, ?_⟩
      rw [run_cons, further, first, List.append_assoc]
  induction events generalizing h with
  | nil => rw [run_nil, List.drop_length]; rfl
  | cons e events ih =>
    obtain ⟨own, others⟩ := not_or.mp (mt List.mem_cons.mpr alive)
    obtain ⟨t, first⟩ := h.trace_step e
    obtain ⟨more, further⟩ := grows (h.step e) events
    rw [requests, h.closes_of_alive (Ne.symm own), ih _ others, run_cons, further, List.drop_left, first,
      List.append_assoc, List.drop_left, List.drop_left, List.filterMap_append, List.append_assoc]

theorem number_of_mem_unanswered {p : Nat × Request} (member : p ∈ h.unanswered) :
    p.1 = h.manager.past.length := by
  obtain ⟨request, -, rfl⟩ := List.mem_map.mp member
  rfl

theorem number_of_mem_closes {e : Event} {p : Nat × Request} (member : p ∈ h.closes e) :
    p.1 = h.manager.past.length := by
  by_cases dies : e = .crash
  · subst dies
    exact number_of_mem_unanswered member
  · obtain ⟨t, added⟩ := h.trace_step e
    rw [h.closes_of_alive dies, added, List.drop_left] at member
    obtain ⟨q, hq, asked⟩ := List.mem_filterMap.mp member
    obtain ⟨x, -, rfl⟩ := List.mem_map.mp hq
    obtain ⟨request, -, rfl⟩ := Option.map_eq_some_iff.mp asked
    rfl

theorem length_past_le_step (h : History) (e : Event) :
    h.manager.past.length ≤ (h.step e).manager.past.length := by
  rcases h.step_forms e with same | ⟨number, same⟩ | ⟨m, move, readies, -, same⟩
  · exact Nat.le_of_eq (congrArg (·.manager.past.length) same).symm
  · rw [same]
    exact Nat.le_of_eq (past_cancel _ _).symm
  · rw [same, ← readies.past]
    rcases ({ m with inFlight := m.inFlight.map move } : Manager).past_resume with stays | ⟨-, grows⟩
    · exact Nat.le_of_eq (congrArg List.length stays).symm
    · rw [grows, List.length_append]
      exact Nat.le_add_right _ _

theorem number_of_mem_requests {events : List Event} {p : Nat × Request} (member : p ∈ h.requests events) :
    h.manager.past.length ≤ p.1 := by
  induction events generalizing h with
  | nil => exact Nat.le_of_eq (number_of_mem_unanswered member).symm
  | cons e events ih =>
    rcases List.mem_append.mp member with now | later
    · exact Nat.le_of_eq (number_of_mem_closes now).symm
    · exact Nat.le_trans (h.length_past_le_step e) (ih later)

theorem pairwise_of_number {l : List (Nat × Request)} {number : Nat} (own : ∀ p ∈ l, p.1 = number) :
    l.Pairwise fun p q => p.1 ≤ q.1 :=
  List.pairwise_of_forall_mem_list fun p hp q hq => Nat.le_of_eq ((own p hp).trans (own q hq).symm)

theorem requests_pairwise (h : History) (events : List Event) :
    (h.requests events).Pairwise fun p q => p.1 ≤ q.1 := by
  induction events generalizing h with
  | nil => exact pairwise_of_number fun _ => number_of_mem_unanswered
  | cons e events ih =>
    refine List.pairwise_append.mpr ⟨pairwise_of_number fun _ => number_of_mem_closes, ih _, ?_⟩
    intro p now q later
    rw [number_of_mem_closes now]
    exact Nat.le_trans (h.length_past_le_step e) (number_of_mem_requests later)

end History

/-! ### Operations that have stopped -/

namespace Manager

/-- Whether the operations that have stopped have come to their end, and a manager is closed by the time that a
shutdown waits. -/
structure Steady (m : Manager) : Prop where
  stopped : ∀ op ∈ m.past, op.ending?.isSome = true
  closing : m.waiting = some .shutdown → m.closed = true

variable {m : Manager}

theorem waiting_resume (m : Manager) : m.resume.1 = m ∨ m.resume.1.waiting = none := by
  rcases m.resume_cases with still | ⟨call, -, -, completes⟩
  · exact .inl still
  · right
    rw [completes]
    cases call with
    | update => exact waiting_takeOver _
    | shutdown => exact waiting_takeOver _
    | settle =>
      cases m.inFlight.bind Operation.ending? with
      | none => rfl
      | some ending => cases ending <;> exact waiting_takeOver _

theorem Steady.resume (h : m.Steady) : m.resume.1.Steady where
  stopped := by
    rcases m.past_resume with stays | ⟨idle, grows⟩
    · rw [stays]
      exact h.stopped
    · intro op member
      rw [grows] at member
      rcases List.mem_append.mp member with old | new
      · exact h.stopped op old
      · exact idle op (Option.mem_toList.mp new)
  closing := by
    rcases m.waiting_resume with still | free
    · rw [still]
      exact h.closing
    · rw [free]
      nofun

theorem Steady.cancel (h : m.Steady) (number : Nat) : (m.cancel number).2.Steady := by
  unfold Manager.cancel
  split
  · next op there =>
    refine ⟨fun op' member => ?_, h.closing⟩
    rcases List.mem_or_eq_of_mem_set member with old | rfl
    · exact h.stopped op' old
    · exact h.stopped op (List.mem_of_getElem? there)
  · split
    · split
      · exact ⟨h.stopped, h.closing⟩
      · exact h
    · exact h

theorem Steady.moved (h : m.Steady) (move : Operation → Operation) :
    ({ m with inFlight := m.inFlight.map move } : Manager).Steady := ⟨h.stopped, h.closing⟩

end Manager

namespace History

variable {h : History}

/-- What an event does, but for calls that are refused and requests to stop, is to complete the waiting call
if no operation goes on by then. -/
theorem step_resumes (steady : h.manager.Steady) (e : Event) :
    ((h.step e).manager.Steady ∧ h.gives e ≠ some .shutDown) ∨
    ∃ m : Manager, m.Steady ∧ (h.step e).manager = m.resume.1 ∧ h.gives e = m.resume.2 := by
  have silent : (none : Option CallResult) ≠ some .shutDown := (Option.some_ne_none _).symm
  cases e with
  | cancel number => exact .inl ⟨steady.cancel number, silent⟩
  | wake => exact .inr ⟨_, steady.moved _, rfl, rfl⟩
  | answer answers => exact .inr ⟨_, steady.moved _, rfl, rfl⟩
  | proceed answers => exact .inr ⟨_, steady.moved _, rfl, rfl⟩
  | crash => exact .inr ⟨_, steady.moved _, rfl, rfl⟩
  | call c =>
    rw [step, gives]
    split
    · exact .inl ⟨steady, silent⟩
    · have waits (m : Manager) (waiting : m.Steady) : ∃ m' : Manager,
          m'.Steady ∧ m.wake.1 = m'.resume.1 ∧ m.wake.2 = m'.resume.2 := ⟨_, waiting.moved _, rfl, rfl⟩
      have asked := steady.cancel h.manager.past.length
      cases c with
      | settle => exact .inr (waits _ ⟨steady.stopped, by rintro ⟨⟩⟩)
      | shutdown => exact .inr (waits _ ⟨asked.stopped, fun _ => rfl⟩)
      | update target notifies =>
        rw [Manager.call]
        split
        · exact .inl ⟨steady, by rintro ⟨⟩⟩
        · exact .inr (waits _ ⟨asked.stopped, by rintro ⟨⟩⟩)

theorem steady_step (steady : h.manager.Steady) (e : Event) : (h.step e).manager.Steady := by
  rcases step_resumes steady e with ⟨still, -⟩ | ⟨m, before, resumed, -⟩
  · exact still
  · rw [resumed]
    exact before.resume

theorem steady_run (steady : h.manager.Steady) (events : List Event) : (h.run events).manager.Steady := by
  induction events generalizing h with
  | nil => exact steady
  | cons e events ih => exact ih (steady_step steady e)

theorem steady_fresh (settings : Settings) (uploads : Bool) (ids : IdSupply) :
    (fresh settings uploads ids).manager.Steady := ⟨nofun, nofun⟩

end History

theorem Operation.pending?_of_ended {op : Operation} (ended : op.ending?.isSome = true) : op.pending? = none := by
  rw [ending?] at ended
  rw [pending?]
  cases live : op.task with
  | crashed => rfl
  | live d =>
    rw [live] at ended
    cases d with
    | done => rfl
    | ask => cases ended

/-! ### After a shutdown -/

namespace Manager

/-- Whether a manager was shut down: it is closed, with no operation in flight and no call that waits. -/
structure Shut (m : Manager) : Prop where
  closed : m.closed = true
  idle : m.inFlight = none
  free : m.waiting = none

variable {m : Manager}

theorem closed_takeOver (m : Manager) : m.takeOver.closed = m.closed := by
  unfold takeOver retire
  split <;> rfl

theorem resume_completes {result : CallResult} (given : m.resume.2 = some result) :
    ∃ call, m.waiting = some call ∧ (m.resume.1, result) =
      ({ m with waiting := none } : Manager).complete (m.inFlight.bind Operation.ending?) call := by
  unfold resume at given ⊢
  cases waits : m.waiting with
  | none =>
    rw [waits] at given
    cases given
  | some call =>
    refine ⟨call, rfl, ?_⟩
    cases flight : m.inFlight with
    | none =>
      simp only [waits, flight, Option.some.injEq] at given ⊢
      exact Prod.ext rfl given.symm
    | some op =>
      cases ended : op.ending? with
      | none =>
        simp only [waits, flight, ended] at given
        cases given
      | some ending =>
        simp only [waits, flight, ended, Option.some.injEq, Option.bind_some] at given ⊢
        exact Prod.ext rfl given.symm

/-- Of the calls, only a shutdown is completed with its result. -/
theorem eq_shutdown_of_completed {ending : Option Operation.Ending} {call : Call}
    (given : (m.complete ending call).2 = .shutDown) : call = .shutdown := by
  cases call with
  | update => cases given
  | shutdown => rfl
  | settle =>
    cases ending with
    | none => cases given
    | some ending => cases ending <;> cases given

theorem shut_resume (steady : m.Steady) (done : m.resume.2 = some .shutDown) : m.resume.1.Shut := by
  obtain ⟨call, waits, completes⟩ := resume_completes done
  obtain ⟨left, given⟩ := Prod.ext_iff.mp completes
  obtain rfl := eq_shutdown_of_completed given.symm
  have left : m.resume.1 = ({ m with waiting := none } : Manager).takeOver := left
  rw [left]
  exact ⟨(closed_takeOver _).trans (steady.closing waits), inFlight_takeOver _, waiting_takeOver _⟩

namespace Shut

theorem resume (h : m.Shut) : m.resume = (m, none) := by
  unfold Manager.resume
  rw [h.free]

theorem moved (h : m.Shut) (move : Operation → Operation) : { m with inFlight := m.inFlight.map move } = m := by
  obtain ⟨settings, uploads, ids, current, past, inFlight, closed, waiting⟩ := m
  obtain rfl : inFlight = none := h.idle
  rfl

theorem courseTrace (h : m.Shut) (course : Operation → Trace) : m.courseTrace course = [] := by
  rw [Manager.courseTrace, h.idle]
  rfl

theorem pending? (h : m.Shut) : m.pending? = none := by
  rw [Manager.pending?, h.idle]
  rfl

theorem cancel (h : m.Shut) (number : Nat) : (m.cancel number).2.Shut ∧
    (m.cancel number).2.current = m.current ∧ (m.cancel number).2.ids = m.ids := by
  obtain ⟨past, move, same, -⟩ := m.cancel_spec number
  rw [same]
  exact ⟨⟨h.closed, by simp [h.idle], h.free⟩, rfl, rfl⟩

/-- A waiting call that changes nothing is completed at once. -/
theorem wake (h : m.Shut) (call : Call) :
    ({ m with waiting := some call } : Manager).wake = ((m.complete none call).1, some (m.complete none call).2) := by
  obtain ⟨settings, uploads, ids, current, past, inFlight, closed, waiting⟩ := m
  obtain rfl : inFlight = none := h.idle
  obtain rfl : waiting = none := h.free
  rfl

theorem settle (h : m.Shut) : m.call .settle = (m, some (.settled none)) := h.wake .settle

theorem update (h : m.Shut) (target : Menu) (notifies : Bool) :
    m.call (.update target notifies) = (m, some (.failed .managerClosed)) := by
  rw [Manager.call, if_pos h.closed]

theorem shutdown (h : m.Shut) : m.call .shutdown = (m, some .shutDown) := by
  have asked : m.cancel m.past.length = (false, m) := by simp [Manager.cancel, h.idle]
  rw [Manager.call, asked]
  obtain ⟨settings, uploads, ids, current, past, inFlight, closed, waiting⟩ := m
  obtain rfl : closed = true := h.closed
  obtain rfl : inFlight = none := h.idle
  obtain rfl : waiting = none := h.free
  rfl

end Shut

end Manager

namespace History

variable {h : History}

theorem next_self (h : History) : h.next h.manager [] = h := by
  rw [next, List.map_nil, List.append_nil]

theorem step_call_shut (shut : h.manager.Shut) (c : Call) : h.step (.call c) = h := by
  have quiet : h.manager.callTrace c = [] := by
    cases c with
    | update => exact if_pos shut.closed
    | settle => exact shut.courseTrace _
    | shutdown => exact (shut.cancel _).1.courseTrace _
  have same : (h.manager.call c).1 = h.manager := by
    cases c with
    | update target notifies => rw [shut.update]
    | settle => rw [shut.settle]
    | shutdown => rw [shut.shutdown]
  rw [step, if_neg (by simp [shut.free]), quiet, same, next_self]

/-- Once a manager was shut down, all that may still happen is that operations are asked to stop that have
stopped. -/
theorem step_shut (shut : h.manager.Shut) (e : Event) : h.step e = h ∨
    ∃ number, h.step e = h.next (h.manager.cancel number).2 [] := by
  have still (move : Operation → Operation) :
      ({ h.manager with inFlight := h.manager.inFlight.map move } : Manager).resume.1 = h.manager := by
    rw [shut.moved, shut.resume]
  have quiet (move : Operation → Operation) (course : Operation → Trace) :
      h.next ({ h.manager with inFlight := h.manager.inFlight.map move } : Manager).resume.1
        (h.manager.courseTrace course) = h := by
    rw [still, shut.courseTrace, next_self]
  cases e with
  | call c => exact .inl (step_call_shut shut c)
  | cancel number => exact .inr ⟨number, rfl⟩
  | wake => exact .inl (quiet _ _)
  | answer answers => exact .inl (quiet _ _)
  | proceed answers => exact .inl (quiet _ _)
  | crash => exact .inl ((congrArg (h.next · []) (still _)).trans h.next_self)

/-- Whether nothing was asked since, and the menu and the supply are what they were. -/
structure Rests (h later : History) : Prop where
  shut : later.manager.Shut
  trace : later.trace = h.trace
  menu : later.manager.currentMenu = h.manager.currentMenu
  supply : later.manager.supply = h.manager.supply

theorem rests_step (shut : h.manager.Shut) (e : Event) : h.Rests (h.step e) := by
  rcases step_shut shut e with same | ⟨number, same⟩
  · rw [same]
    exact ⟨shut, rfl, rfl, rfl⟩
  · obtain ⟨still, current, ids⟩ := shut.cancel number
    rw [same]
    refine ⟨still, List.append_nil _, ?_, ?_⟩
    · change (h.manager.cancel number).2.currentMenu = _
      rw [currentMenu, currentMenu, still.idle, shut.idle]
      exact current
    · change (h.manager.cancel number).2.supply = _
      rw [supply, supply, still.idle, shut.idle]
      exact ids

theorem rests_run (shut : h.manager.Shut) (events : List Event) : h.Rests (h.run events) := by
  induction events generalizing h with
  | nil => exact ⟨shut, rfl, rfl, rfl⟩
  | cons e events ih =>
    have first := rests_step shut e
    have further := ih first.shut
    exact ⟨further.shut, further.trace.trans first.trace, further.menu.trans first.menu,
      further.supply.trans first.supply⟩

theorem requests_shut (shut : h.manager.Shut) (events : List Event) : h.requests events = [] := by
  have none {h : History} (shut : h.manager.Shut) : h.unanswered = [] := by
    rw [unanswered, shut.pending?]
    rfl
  induction events generalizing h with
  | nil => exact none shut
  | cons e events ih =>
    have quiet : h.closes e = [] := by
      by_cases dies : e = .crash
      · subst dies
        exact none shut
      · rw [h.closes_of_alive dies, (rests_step shut e).trace, List.drop_length]
        rfl
    rw [requests, quiet, ih (rests_step shut e).shut]
    rfl

/-! ### Turns, and the end -/

theorem shut_of_gives (steady : h.manager.Steady) {e : Event} (done : h.gives e = some .shutDown) :
    (h.step e).manager.Shut := by
  rcases step_resumes steady e with ⟨-, other⟩ | ⟨m, before, resumed, given⟩
  · exact absurd done other
  · rw [resumed]
    exact shut_resume before (given.symm.trans done)

/-- All requests of an operation come before those of the operations that are scheduled later, and none that
has stopped waits for an answer. Once a shutdown has returned, nothing is asked any more and the menu stays
as it is, every new target is refused and changes nothing, and there is nothing to settle. -/
theorem turns (settings : Settings) (uploads : Bool) (ids : IdSupply) (events : List Event) :
    ((fresh settings uploads ids).requests events).Pairwise (fun p q => p.1 ≤ q.1) ∧
    (∀ op ∈ ((fresh settings uploads ids).run events).manager.past, op.pending? = none) ∧
    ∀ e, ((fresh settings uploads ids).run events).gives e = some .shutDown →
      let shut := ((fresh settings uploads ids).run events).step e
      ∀ more, shut.requests more = [] ∧
        let later := shut.run more
        later.trace = shut.trace ∧ later.manager.currentMenu = shut.manager.currentMenu ∧
        later.manager.supply = shut.manager.supply ∧
        (∀ target notifies,
          later.gives (.call (.update target notifies)) = some (.failed .managerClosed) ∧
          later.step (.call (.update target notifies)) = later) ∧
        later.gives (.call .settle) = some (.settled none) := by
  have steady := steady_run (steady_fresh settings uploads ids) events
  refine ⟨requests_pairwise _ _, fun op stopped => Operation.pending?_of_ended (steady.stopped op stopped), ?_⟩
  intro e done shut more
  have closed : shut.manager.Shut := shut_of_gives steady done
  have rests := rests_run closed more
  have served : ¬ (shut.run more).manager.waiting.isSome = true := by simp [rests.shut.free]
  refine ⟨requests_shut closed more, rests.trace, rests.menu, rests.supply, fun target notifies => ⟨?_, ?_⟩, ?_⟩
  · rw [gives, if_neg served, rests.shut.update]
  · exact step_call_shut rests.shut _
  · rw [gives, if_neg served, rests.shut.settle]

end History

def CallResult.isShutDown : CallResult → Bool
  | .shutDown => true
  | _ => false

theorem CallResult.eq_shutDown {result : Option CallResult} (h : result.any isShutDown = true) :
    result = some .shutDown := by
  obtain ⟨result, rfl, shuts⟩ := (Option.any_eq_true _ _).mp h
  cases result with
  | shutDown => rfl
  | _ => cases shuts

namespace History

theorem turns_lateDeath :
    ((fresh {} false default).requests lateDeath).Pairwise (fun p q => p.1 ≤ q.1) ∧
    let h := (fresh {} false default).run lateDeath
    h.gives (.call .shutdown) = some .shutDown ∧ (h.step (.call .shutdown)).requests twoUpdates = [] ∧
      ((h.step (.call .shutdown)).run twoUpdates).gives (.call .settle) = some (.settled none) := by
  obtain ⟨inTurn, -, last⟩ := turns {} false default lateDeath
  have done : ((fresh {} false default).run lateDeath).gives (.call .shutdown) = some .shutDown :=
    CallResult.eq_shutDown (by decide +kernel)
  obtain ⟨silent, -, -, -, -, settled⟩ := last _ done twoUpdates
  exact ⟨inTurn, done, silent, settled⟩

end History

end RemoteMenu
