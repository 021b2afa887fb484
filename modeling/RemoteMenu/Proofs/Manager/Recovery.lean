import RemoteMenu.Proofs.Manager.HostMirror

/-!
# Operations that die

An operation may die in the middle of a request, and stays in flight until a call finds it dead. A new
target and a shutdown go on from what it had committed by then. A call that settles does not: it goes back
to the menu from before the operation (`History.base_after_death`), so that what the host was sent since
is not known any more (`History.settle_forgets`).
-/

namespace RemoteMenu

open Manager

/-! ### Operations from their start -/

namespace Operation

/-- Whether an operation was scheduled with a menu and a supply, and has moved on or died since. A dead
one stands where it stood when it died. -/
def Stems (current : Menu) (ids : IdSupply) (op : Operation) : Prop :=
  ∃ (job : Job) (t : Trace) (alive : Operation), (schedule job current ids).Moves t alive ∧
    (op = alive ∨ op.task = .crashed alive.progress)

theorem task_proceed_crashed {op : Operation} {now : Progress} (dead : op.task = .crashed now)
    (answers : Answers) : (op.proceed answers).task = .crashed now := by
  rw [proceed, dead]
  exact dead

theorem Moves.crashed {op op' : Operation} {t : Trace} (h : op.Moves t op') {now : Progress}
    (dead : op.task = .crashed now) : op'.task = .crashed now := by
  induction h with
  | rest => exact dead
  | step answers _ ih => exact ih (task_proceed_crashed dead answers)
  | stop _ ih => exact ih dead

variable {current : Menu} {ids : IdSupply} {op : Operation}

theorem stems_schedule (job : Job) (current : Menu) (ids : IdSupply) :
    (schedule job current ids).Stems current ids := ⟨job, [], _, .rest _, .inl rfl⟩

theorem Stems.moves (h : op.Stems current ids) {op' : Operation} {t : Trace} (moves : op.Moves t op') :
    op'.Stems current ids := by
  obtain ⟨job, earlier, alive, before, rfl | dead⟩ := h
  · exact ⟨job, _, op', before.trans moves, .inl rfl⟩
  · exact ⟨job, earlier, alive, before, .inr (moves.crashed dead)⟩

theorem Stems.crash (h : op.Stems current ids) : op.crash.Stems current ids := by
  obtain ⟨job, earlier, alive, before, rfl | dead⟩ := h
  · exact ⟨job, earlier, op, before, .inr rfl⟩
  · refine ⟨job, earlier, alive, before, .inr ?_⟩
    rw [Operation.crash, progress, dead]

theorem Stems.died (h : op.Stems current ids) {now : Progress} (dead : op.task = .crashed now) :
    ∃ job t alive, (schedule job current ids).Moves t alive ∧ op.progress = alive.progress := by
  obtain ⟨job, t, alive, moves, rfl | died⟩ := h
  · obtain ⟨d, live, -⟩ := moves.runs rfl
    rw [dead] at live
    cases live
  · refine ⟨job, t, alive, moves, ?_⟩
    rw [progress, died]

end Operation

/-! ### The operation in flight -/

namespace Manager

/-- The operation in flight was scheduled with the menu and the supply that the manager has still. -/
def Launched (m : Manager) : Prop := ∀ op, m.inFlight = some op → op.Stems m.current m.ids

variable {m m' : Manager}

theorem launched_idle (free : m.inFlight = none) : m.Launched := by simp [Launched, free]

theorem launched_schedule (m : Manager) (target : Menu) (notifies : Bool) :
    (m.schedule target notifies).1.Launched := by
  intro op flight
  obtain rfl := Option.some.inj flight
  exact Operation.stems_schedule _ _ _

theorem Launched.moved (h : m.Launched) {move : Operation → Operation}
    (moves : ∀ op : Operation, (∃ t, op.Moves t (move op)) ∨ move op = op.crash) :
    ({ m with inFlight := m.inFlight.map move } : Manager).Launched := by
  intro op flight
  obtain ⟨op, there, rfl⟩ := Option.map_eq_some_iff.mp flight
  rcases moves op with ⟨t, moves⟩ | died
  · exact (h op there).moves moves
  · rw [died]
    exact (h op there).crash

theorem Launched.cancel (h : m.Launched) (number : Nat) : (m.cancel number).2.Launched := by
  obtain ⟨past, move, same, -, moves⟩ := m.cancel_spec number
  rw [same]
  exact h.moved fun op => .inl ⟨_, moves op⟩

theorem Launched.readies (h : m.Launched) {e : Event} (readies : m.Readies e m') : m'.Launched :=
  readies.keeps h (h.cancel _) fun _ _ _ h => h

theorem Launched.resume (h : m.Launched) : m.resume.1.Launched := by
  rcases m.resume_cases with same | ⟨call, -, -, same⟩
  · rw [same]
    exact h
  · rw [same]
    cases call with
    | update => exact launched_schedule _ _ _
    | shutdown => exact launched_idle (inFlight_takeOver _)
    | settle =>
      cases m.inFlight.bind Operation.ending? with
      | none => exact h
      | some ending => cases ending <;> exact launched_idle (inFlight_takeOver _)

/-- What an event leaves of the menu and the supply that the operation in flight was scheduled with. -/
theorem Readies.base {e : Event} (h : m.Readies e m') : m'.current = m.current ∧ m'.ids = m.ids := by
  refine h.keeps (P := fun m' => m'.current = m.current ∧ m'.ids = m.ids) ⟨rfl, rfl⟩ ?_ fun _ _ _ h => h
  obtain ⟨past, move, same, -⟩ := m.cancel_spec m.past.length
  rw [same]
  exact ⟨rfl, rfl⟩

theorem past_takeOver (m : Manager) : m.takeOver.past = m.past ++ m.inFlight.toList := by
  unfold takeOver retire
  cases flight : m.inFlight with
  | none => simp
  | some op => rfl

theorem past_complete (m : Manager) (ending : Option Operation.Ending) (call : Call) :
    (m.complete ending call).1.past = m.past ∨
      (m.complete ending call).1.past = m.past ++ m.inFlight.toList := by
  cases call with
  | update => exact .inr m.past_takeOver
  | shutdown => exact .inr m.past_takeOver
  | settle =>
    cases ending with
    | none => exact .inl rfl
    | some ending => cases ending <;> exact .inr m.past_takeOver

/-- What a call does with an operation that has died. -/
theorem complete_crashed {op : Operation} (flight : m.inFlight = some op) (call : Call) :
    let m' := (m.complete (some .crashed) call).1
    m'.past = m.past ++ [op] ∧ (call = .settle → m'.current = m.current) ∧
      (call ≠ .settle → m'.current = op.committed) ∧
      ∀ op', m'.inFlight = some op' → ∃ job, op' = .schedule job m'.current m'.ids := by
  have retired : m.retire = { m with ids := op.ids, past := m.past ++ [op], inFlight := none } := by
    rw [retire, flight]
  have taken : m.takeOver = { m with
      ids := op.ids, past := m.past ++ [op], inFlight := none, current := op.committed } := by
    rw [takeOver, retired, currentMenu, flight]
  cases call with
  | update target notifies =>
    simp only [complete, taken, schedule]
    exact ⟨trivial, by simp, fun _ => trivial, fun op' same => ⟨_, (Option.some.inj same).symm⟩⟩
  | settle =>
    simp only [complete, retired]
    exact ⟨trivial, fun _ => trivial, fun other => absurd rfl other, by simp⟩
  | shutdown =>
    simp only [complete, taken]
    exact ⟨trivial, by simp, fun _ => trivial, by simp⟩

end Manager

/-! ### Histories with deaths -/

namespace History

theorem step_forms (h : History) (e : Event) : h.step e = h ∨
    (∃ number, (h.step e).manager = (h.manager.cancel number).2) ∨
    ∃ (m : Manager) (move : Operation → Operation), h.manager.Readies e m ∧
      (∀ op : Operation, (∃ t, op.Moves t (move op)) ∨ move op = op.crash) ∧
      (h.step e).manager = ({ m with inFlight := m.inFlight.map move } : Manager).resume.1 := by
  by_cases dies : e = .crash
  · subst dies
    exact .inr (.inr ⟨_, Operation.crash, .still nofun, fun _ => .inr rfl, rfl⟩)
  · rcases h.step_cases dies with same | ⟨number, same⟩ | ⟨m, move, course, readies, moves, same⟩
    · exact .inl same
    · exact .inr (.inl ⟨number, by rw [same]; rfl⟩)
    · exact .inr (.inr ⟨m, move, readies, fun op => .inl ⟨_, moves op⟩, by rw [same]; rfl⟩)

theorem launched_step {h : History} (launched : h.manager.Launched) (e : Event) :
    (h.step e).manager.Launched := by
  rcases h.step_forms e with same | ⟨number, same⟩ | ⟨m, move, readies, moves, same⟩
  · rw [same]
    exact launched
  · rw [same]
    exact launched.cancel number
  · rw [same]
    exact ((launched.readies readies).moved moves).resume

theorem launched_run {h : History} (launched : h.manager.Launched) (events : List Event) :
    (h.run events).manager.Launched := by
  induction events generalizing h with
  | nil => exact launched
  | cons e events ih => exact ih (launched_step launched e)

/-- Whether the call that an event makes, or that waits already, is one to settle. -/
def Settles (h : History) (e : Event) : Prop := h.manager.waiting = some .settle ∨ e = .call .settle

theorem settles_iff {h : History} {e : Event} {m : Manager} (readies : h.manager.Readies e m) {call : Call}
    (waits : m.waiting = some call) : h.Settles e ↔ call = .settle := by
  unfold Settles
  cases readies with
  | still quiet => simp [waits, quiet]
  | calls closed free before target settles =>
    obtain rfl := Option.some.inj waits
    rw [free, settles]
    simp

/-- With a dead operation that a step puts among those that have stopped, the step completes a call. -/
theorem exists_completed {h : History} (launched : h.manager.Launched) {e : Event} {dead : Operation}
    {now : Progress} (retired : (h.step e).manager.past[h.manager.past.length]? = some dead) (died : dead.task = .crashed now) :
    ∃ (m : Manager) (call : Call), (h.Settles e ↔ call = .settle) ∧ m.inFlight = some dead ∧
      m.current = h.manager.current ∧ dead.Stems h.manager.current h.manager.ids ∧ (h.step e).manager = (m.complete (some .crashed) call).1 := by
  -- A step that completes no call leaves as many operations behind as there were.
  have fewer {past : List Operation} (length : past.length = h.manager.past.length) :
      past[h.manager.past.length]? ≠ some dead := by
    rw [List.getElem?_eq_none (Nat.le_of_eq length)]
    nofun
  rcases h.step_forms e with same | ⟨number, same⟩ | ⟨m, move, readies, moves, same⟩
  · rw [same] at retired
    exact absurd retired (fewer rfl)
  · rw [same] at retired
    exact absurd retired (fewer (h.manager.past_cancel number))
  · rw [same] at retired
    rcases ({ m with inFlight := m.inFlight.map move } : Manager).resume_cases with
      still | ⟨call, waits, idle, completes⟩
    · rw [still] at retired
      exact absurd retired (fewer readies.past)
    · rw [completes] at retired same
      let m' : Manager := { m with inFlight := m.inFlight.map move, waiting := none }
      have past : m'.past.length = h.manager.past.length := readies.past
      have flight : m'.inFlight = some dead := by
        rcases m'.past_complete (m'.inFlight.bind Operation.ending?) call with stays | grows
        · exact absurd retired (fewer ((congrArg List.length stays).trans past))
        · have there := (congrArg (·[h.manager.past.length]?) grows).symm.trans retired
          rw [← past, List.getElem?_append_right (Nat.le_refl _), Nat.sub_self] at there
          cases none : m'.inFlight <;> simp_all
      obtain ⟨current, ids⟩ := readies.base
      have stems := (launched.readies readies).moved moves dead flight
      refine ⟨m', call, settles_iff readies waits, flight, current, current ▸ ids ▸ stems, same.trans ?_⟩
      have ended : m'.inFlight.bind Operation.ending? = some .crashed := by
        rw [flight, Option.bind_some, Operation.ending?, died]
      exact congrArg (fun ending => (m'.complete ending call).1) ended

variable {settings : Settings} {uploads : Bool} {ids : IdSupply} {events : List Event}

/-- A call that finds the operation in flight dead, which had started from the menu of the manager, goes
on from what that had committed when it died if the call is a new target or a shutdown. A call that
settles goes on from the menu that the operation had started from. The next operation starts there. -/
theorem base_after_death {e : Event} {dead : Operation} {now : Progress}
    (retired : (((fresh settings uploads ids).run events).step e).manager.past[
      ((fresh settings uploads ids).run events).manager.past.length]? = some dead)
    (died : dead.task = .crashed now) :
    let h := (fresh settings uploads ids).run events
    (∃ job t alive, (Operation.schedule job h.manager.current h.manager.ids).Moves t alive ∧
      dead.progress = alive.progress) ∧
    (¬ h.Settles e → (h.step e).manager.current = dead.committed) ∧
    (h.Settles e → (h.step e).manager.current = h.manager.current) ∧
    ∀ op, (h.step e).manager.inFlight = some op →
      ∃ job, op = .schedule job (h.step e).manager.current (h.step e).manager.ids := by
  intro h
  have launched : h.manager.Launched := launched_run (launched_idle rfl) events
  obtain ⟨m, call, settles, flight, base, stems, completes⟩ := exists_completed launched retired died
  obtain ⟨-, back, onward, next⟩ := complete_crashed flight call
  rw [completes, settles]
  exact ⟨stems.died died, onward, fun settling => (back settling).trans base, next⟩

/-! ### A death in the second update -/

end History

/-- A first update that the host takes whole, and a second one that dies when it has deleted the old node
and is about to add the new one. -/
def lateDeath : List Event :=
  [.call (.update [{ entry := { title := "A" } }] false), .wake] ++ List.replicate 3 (.answer (.taking true)) ++
    [.call .settle, .call (.update [{ entry := { title := "B" } }] false), .wake] ++
    List.replicate 2 (.answer (.taking true)) ++ [.crash]

def Operation.diedBare (op : Operation) : Bool :=
  match op.task with
  | .crashed now => now.committed.isEmpty
  | .live _ => false

theorem Operation.diedBare_spec {op : Operation} (h : op.diedBare = true) :
    (∃ now, op.task = .crashed now) ∧ op.committed = [] := by
  unfold diedBare at h
  rw [committed, progress]
  split at h
  · next now dead => exact ⟨⟨now, dead⟩, by rw [dead]; exact List.isEmpty_iff.mp h⟩
  · cases h

theorem exists_diedBare (past : List Operation) (number : Nat)
    (h : past[number]?.any Operation.diedBare = true) :
    ∃ dead, past[number]? = some dead ∧ (∃ now, dead.task = .crashed now) ∧ dead.committed = [] := by
  obtain ⟨dead, there, died⟩ := (Option.any_eq_true _ _).mp h
  exact ⟨dead, there, Operation.diedBare_spec died⟩

namespace History

theorem base_after_death_lateDeath :
    let h := (fresh {} false default).run lateDeath
    ∃ dead, (h.step (.call .shutdown)).manager.past[h.manager.past.length]? = some dead ∧
      (∃ now, dead.task = .crashed now) ∧ (h.step (.call .shutdown)).manager.current = dead.committed := by
  obtain ⟨dead, retired, ⟨now, died⟩, -⟩ := exists_diedBare
    (((fresh {} false default).run lateDeath).step (.call .shutdown)).manager.past
    ((fresh {} false default).run lateDeath).manager.past.length (by decide +kernel)
  have waits : ((fresh {} false default).run lateDeath).manager.waiting.isNone = true := by decide +kernel
  refine ⟨dead, retired, ⟨now, died⟩, (base_after_death retired died).2.1 ?_⟩
  rintro (settling | settling)
  · rw [settling] at waits
    cases waits
  · cases settling

/-- A call that settles an operation that has died forgets what that had committed: with no operation in
flight, the menu of the manager has a node still that the host was told to delete. -/
theorem settle_forgets :
    let h := (fresh {} false default).run lateDeath
    ∃ dead, (h.step (.call .settle)).manager.past[h.manager.past.length]? = some dead ∧
      (∃ now, dead.task = .crashed now) ∧ (h.step (.call .settle)).manager.inFlight.isNone = true ∧
      dead.committed = [] ∧ (h.step (.call .settle)).manager.currentMenu ≠ [] := by
  obtain ⟨dead, retired, died, bare⟩ := exists_diedBare
    (((fresh {} false default).run lateDeath).step (.call .settle)).manager.past
    ((fresh {} false default).run lateDeath).manager.past.length (by decide +kernel)
  obtain ⟨idle, left⟩ : (((fresh {} false default).run lateDeath).step (.call .settle)).manager.inFlight.isNone =
      true ∧ (((fresh {} false default).run lateDeath).step (.call .settle)).manager.currentMenu.length = 1 := by
    decide +kernel
  refine ⟨dead, retired, died, idle, bare, fun none => ?_⟩
  rw [none] at left
  cases left

end History

end RemoteMenu
