import RemoteMenu.Proofs.Manager.Operations

/-!
# What a history preserves

Three things hold between events (`History.Sound.run`). The manager keeps track of the host, the latest
operation has left the menu that is remembered, and a waiting target is served by the operation with the
next number, which starts from what the host shows by then (`History.Pledged.step`).
-/

namespace RemoteMenu

open HostTree Manager

namespace History

variable {w : Scope} {h : History}

/-! ### What a waiting update leads to -/

/-- Whether an operation was scheduled for a target, from what the host showed by then, and has moved on
from there. -/
def Serves (w : Scope) (h : History) (number : Nat) (target : Menu) (op : Operation) : Prop :=
  ∃ (job : Job) (current : Menu) (earlier : Trace), job.target = target ∧
    job.setup.settings.defaultLayout = w.layout ∧ Mirrored w earlier (current.places none) ∧
    (Operation.schedule job current (w.start.skip earlier.drawn)).Moves (h.exchangesOf number) op ∧
    earlier.drawn + (h.exchangesOf number).drawn ≤ h.exchanges.drawn

/-- Whether a target waits to be served by the operation with a number, or is served by it. -/
inductive Pledged (w : Scope) (h : History) (number : Nat) (target : Menu) : Prop
  | waits {notifies : Bool} (call : h.manager.waiting = some (.update target notifies))
      (next : h.manager.operations.length = number)
  | served {op : Operation} (there : h.manager.operations[number]? = some op)
      (serves : h.Serves w number target op)

theorem pledged_of_course {target : Menu} {notifies : Bool} {m : Manager} {move : Operation → Operation}
    {course : Operation → Trace} (tracked : m.Tracked w h.exchanges) (numbered : h.Numbered)
    (waits : m.waiting = some (.update target notifies)) (past : m.past.length = h.manager.past.length)
    (length : m.operations.length = h.manager.operations.length)
    (moves : ∀ op : Operation, op.Moves (course op) (move op))
    (bound : Trace.drawn (h.exchanges ++ m.courseTrace course) < legalIds) :
    (h.next ({ m with inFlight := m.inFlight.map move } : Manager).resume.1 (m.courseTrace course)).Pledged w
      m.operations.length target := by
  obtain ⟨moved, -⟩ := tracked.moved moves bound
  rcases ({ m with inFlight := m.inFlight.map move } : Manager).resume_cases with
    same | ⟨call, waits', idle, same⟩
  · rw [same]
    exact .waits waits (m.length_moved move)
  · obtain rfl := Option.some.inj (waits.symm.trans waits')
    let m' : Manager := { m with inFlight := m.inFlight.map move, waiting := none }
    have cleared : m'.Tracked w (h.exchanges ++ m.courseTrace course) :=
      ⟨moved.layout, by simp [m'], moved.resting, moved.running⟩
    obtain ⟨taken, free⟩ := cleared.takeOver idle
    obtain ⟨mirrored, ids⟩ := taken.resting free
    have operations := operations_schedule free target notifies
    rw [operations_takeOver] at operations
    have length' : m'.operations.length = m.operations.length := m.length_moved move
    have nothing : (if h.manager.past.length = m.operations.length then m.courseTrace course else []) = [] := by
      split
      · next empty =>
        rw [← past] at empty
        cases flight : m.inFlight with
        | none => rw [courseTrace, flight]; rfl
        | some op => simp [Manager.operations, flight] at empty
      · rfl
    have asked : (h.next (m'.takeOver.schedule target notifies).1 (m.courseTrace course)).exchangesOf
        m.operations.length = [] := by
      rw [exchangesOf_next, numbered.exchangesOf_eq_nil (Nat.le_of_eq length.symm), nothing]
      rfl
    have next : ({ m with inFlight := m.inFlight.map move } : Manager).resume.1 =
        (m'.takeOver.schedule target notifies).1 := same
    rw [next]
    have there : (m'.takeOver.schedule target notifies).1.operations[m.operations.length]? =
        some (.schedule (m'.takeOver.job target notifies) m'.takeOver.current m'.takeOver.ids) := by
      refine (congrArg (·[m.operations.length]?) operations).trans ?_
      rw [List.getElem?_append_right (Nat.le_of_eq length'), length', Nat.sub_self]
      rfl
    refine .served there ⟨m'.takeOver.job target notifies, m'.takeOver.current,
      h.exchanges ++ m.courseTrace course, rfl, taken.layout, mirrored, ?_, ?_⟩
    · rw [asked, ← ids]
      exact .rest _
    · rw [asked, exchanges_next]
      exact Nat.le_refl _

theorem Pledged.step {number : Nat} {target : Menu} (pledged : h.Pledged w number target)
    (tracked : h.Tracked w) (numbered : h.Numbered) {e : Event} (alive : e ≠ .crash)
    (bound : (h.step e).exchanges.drawn < legalIds) : (h.step e).Pledged w number target := by
  cases pledged with
  | @served op there serves =>
    obtain ⟨job, current, earlier, own, layout, mirrored, moves, drawn⟩ := serves
    obtain ⟨m, t, same, goes⟩ := h.step_goes alive
    obtain ⟨op', there', further⟩ := goes number op there
    rw [same]
    refine .served there' ⟨job, current, earlier, own, layout, mirrored, ?_, ?_⟩
    · rw [exchangesOf_next]
      exact moves.trans further
    · rw [exchangesOf_next, exchanges_next, Trace.drawn_append, Trace.drawn_append]
      split
      · omega
      · have none : Trace.drawn [] = 0 := rfl
        omega
  | @waits notifies call length =>
    rcases h.step_cases alive with same | ⟨number', same⟩ | ⟨m, move, course, readies, moves, same⟩
    · rw [same]
      exact .waits call length
    · rw [same]
      exact .waits ((waiting_cancel _ _).trans call) ((length_cancel _ _).trans length)
    · rw [same, exchanges_next] at bound
      rw [same]
      cases readies with
      | calls closed free => rw [call] at free; cases free
      | still =>
        rw [← length]
        exact pledged_of_course tracked.manager numbered call rfl rfl moves bound

end History

/-! ### What is remembered of the last operation -/

namespace Manager

/-- With no operation in flight, the menu is what the last one has left. -/
def Remembers (m : Manager) : Prop :=
  m.inFlight = none → ∀ op, m.past.getLast? = some op → m.current = op.committed

variable {m m' : Manager} {w : Scope} {t : Trace}

theorem Remembers.takeOver (h : m.Remembers) : m.takeOver.Remembers := by
  unfold Manager.takeOver retire
  cases flight : m.inFlight with
  | none =>
    intro _ op last
    rw [currentMenu, flight]
    exact h flight op last
  | some op =>
    intro _ op' last
    obtain rfl : op = op' := by simpa using last
    rw [currentMenu, flight]

theorem Remembers.resume (h : m.Remembers) (tracked : m.Tracked w t) : m.resume.1.Remembers := by
  rcases m.resume_cases with same | ⟨call, -, -, same⟩
  · rw [same]
    exact h
  · have cleared : ({ m with waiting := none } : Manager).Remembers := h
    rw [same]
    cases call with
    | update target notifies =>
      intro free
      cases free
    | shutdown => exact cleared.takeOver
    | settle =>
      cases ended : m.inFlight.bind Operation.ending? with
      | none => exact cleared
      | some ending =>
        obtain ⟨op, flight, ended⟩ := Option.bind_eq_some_iff.mp ended
        have alive := ((tracked.running op flight).ended ended).2
        cases ending with
        | crashed => exact absurd rfl alive
        | _ => exact cleared.takeOver

theorem Remembers.cancel (h : m.Remembers) (number : Nat) : (m.cancel number).2.Remembers := by
  unfold Manager.cancel
  split
  · next op stopped =>
    intro free op' last
    have menu := h free
    rw [List.getLast?_eq_getElem?] at last menu
    rw [List.length_set, List.getElem?_set] at last
    split at last
    · next same =>
      split at last
      · obtain rfl := Option.some.inj last
        exact menu op (same ▸ stopped)
      · cases last
    · exact menu op' last
  · split
    · split
      · intro free
        cases free
      · exact h
    · exact h

theorem Remembers.moved (h : m.Remembers) (move : Operation → Operation) :
    ({ m with inFlight := m.inFlight.map move } : Manager).Remembers :=
  fun free => h (Option.map_eq_none_iff.mp free)

theorem Remembers.readies {e : Event} (h : m.Remembers) (readies : m.Readies e m') : m'.Remembers :=
  readies.keeps h (h.cancel _) fun _ _ _ h => h

/-- The menu of a manager is what the latest operation has left or is leaving. -/
theorem Remembers.currentMenu (h : m.Remembers) {number : Nat} {op : Operation}
    (latest : m.operations.length = number + 1) (there : m.operations[number]? = some op) :
    m.currentMenu = op.committed := by
  unfold Manager.currentMenu
  rcases operation_cases there with ⟨inside, stopped⟩ | ⟨-, flight⟩
  · cases flight : m.inFlight with
    | some op' =>
      rw [operations, flight, List.length_append, Option.toList_some, List.length_singleton] at latest
      omega
    | none =>
      rw [operations, flight, Option.toList_none, List.append_nil] at latest
      refine h flight op ?_
      rw [List.getLast?_eq_getElem?, latest, Nat.add_sub_cancel, stopped]
  · rw [flight]

end Manager

namespace History

variable {w : Scope} {h : History}

theorem remembers_step (remembers : h.manager.Remembers) (tracked : h.Tracked w) {e : Event}
    (alive : e ≠ .crash) (known : ∀ target, e.target? = some target → ∀ f ∈ target.faces, f ∈ w.faces)
    (bound : (h.step e).exchanges.drawn < legalIds) : (h.step e).manager.Remembers := by
  rcases h.step_cases alive with same | ⟨number, same⟩ | ⟨m, move, course, readies, moves, same⟩
  · rw [same]
    exact remembers
  · rw [same]
    exact remembers.cancel number
  · rw [same, exchanges_next] at bound
    rw [same]
    obtain ⟨moved, -⟩ := (tracked.manager.readies readies known).moved moves bound
    exact ((remembers.readies readies).moved move).resume moved

end History

/-! ### Settings -/

theorem Manager.settings_takeOver (m : Manager) : m.takeOver.settings = m.settings := by
  unfold Manager.takeOver Manager.retire
  split <;> rfl

theorem Manager.settings_resume (m : Manager) : m.resume.1.settings = m.settings := by
  rcases m.resume_cases with same | ⟨call, -, -, same⟩
  · rw [same]
  · rw [same]
    cases call with
    | update => exact Manager.settings_takeOver _
    | shutdown => exact Manager.settings_takeOver _
    | settle =>
      cases m.inFlight.bind Operation.ending? with
      | none => rfl
      | some ending =>
        cases ending with
        | crashed => exact Manager.settings_takeOver _
        | _ => exact Manager.settings_takeOver _

theorem Manager.settings_cancel (m : Manager) (number : Nat) :
    (m.cancel number).2.settings = m.settings := by
  obtain ⟨past, inFlight, same, -⟩ := m.cancel_spec number
  rw [same]

namespace History

theorem settings_step (h : History) {e : Event} (alive : e ≠ .crash) :
    (h.step e).manager.settings = h.manager.settings := by
  rcases h.step_cases alive with same | ⟨number, same⟩ | ⟨m, move, course, readies, moves, same⟩
  · rw [same]
  · rw [same]
    exact h.manager.settings_cancel number
  · rw [same]
    refine (Manager.settings_resume _).trans ?_
    exact readies.keeps (P := fun m => m.settings = h.manager.settings) rfl (h.manager.settings_cancel _)
      fun _ _ _ h => h

/-! ### Whole histories -/

structure Sound (w : Scope) (h : History) : Prop where
  tracked : h.Tracked w
  numbered : h.Numbered
  remembers : h.manager.Remembers

variable {w : Scope} {h : History}

theorem Sound.step (sound : h.Sound w) (distinguished : Collisionless w.faces) {e : Event}
    (alive : e ≠ .crash) (known : ∀ target, e.target? = some target → ∀ f ∈ target.faces, f ∈ w.faces)
    (bound : (h.step e).exchanges.drawn < legalIds) : (h.step e).Sound w :=
  ⟨sound.tracked.step distinguished alive known bound, sound.numbered.step alive,
    remembers_step sound.remembers sound.tracked alive known bound⟩

theorem sound_fresh {settings : Settings} (uploads : Bool) {ids : IdSupply}
    (layout : settings.defaultLayout = w.layout) (start : ids = w.start) :
    (fresh settings uploads ids).Sound w :=
  ⟨tracked_fresh uploads layout start, by simp [Numbered, fresh], by simp [Manager.Remembers, fresh]⟩

/-- What holds of a history goes on to hold, and a target is served as was pledged. -/
theorem Sound.run (sound : h.Sound w) (distinguished : Collisionless w.faces) {events : List Event}
    (alive : Event.crash ∉ events)
    (known : ∀ target ∈ events.filterMap Event.target?, ∀ f ∈ target.faces, f ∈ w.faces)
    (bound : (h.run events).exchanges.drawn < legalIds) :
    (h.run events).Sound w ∧ (h.run events).manager.settings = h.manager.settings ∧
      ∀ number target, h.Pledged w number target → (h.run events).Pledged w number target := by
  induction events generalizing h with
  | nil => exact ⟨sound, rfl, fun _ _ pledged => pledged⟩
  | cons e events ih =>
    obtain ⟨first, later⟩ := not_or.mp (mt List.mem_cons.mpr alive)
    have within := Nat.lt_of_le_of_lt ((h.step e).drawn_le_run events) bound
    have here : ∀ target, e.target? = some target → ∀ f ∈ target.faces, f ∈ w.faces := fun target own =>
      known target (List.mem_filterMap.mpr ⟨e, List.mem_cons_self .., own⟩)
    have rest : ∀ target ∈ events.filterMap Event.target?, ∀ f ∈ target.faces, f ∈ w.faces := by
      intro target member
      obtain ⟨e', he', own⟩ := List.mem_filterMap.mp member
      exact known target (List.mem_filterMap.mpr ⟨e', List.mem_cons_of_mem _ he', own⟩)
    obtain ⟨sound', settings, pledges⟩ := ih (sound.step distinguished (Ne.symm first) here within) later rest bound
    refine ⟨sound', settings.trans (h.settings_step (Ne.symm first)), fun number target pledged => ?_⟩
    exact pledges number target (pledged.step sound.tracked sound.numbered (Ne.symm first) within)

end History

end RemoteMenu
