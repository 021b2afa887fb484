import RemoteMenu.Proofs.Manager.History

/-!
# The operations of a history

An operation keeps its number, and what it does from one event to the next are moves
(`History.step_goes`).
-/

namespace RemoteMenu

open HostTree Manager

theorem History.exchangesOf_next (h : History) (m : Manager) (t : Trace) (number : Nat) :
    (h.next m t).exchangesOf number =
      h.exchangesOf number ++ if h.manager.past.length = number then t else [] := by
  rw [exchangesOf, next, List.filter_append, List.map_append]
  refine congrArg (h.exchangesOf number ++ ·) ?_
  split
  · next own =>
    rw [List.filter_eq_self.mpr, List.map_map]
    · exact List.map_id t
    · intro p hp
      obtain ⟨e, -, rfl⟩ := List.mem_map.mp hp
      exact decide_eq_true own
  · next other =>
    rw [List.filter_eq_nil_iff.mpr, List.map_nil]
    intro p hp
    obtain ⟨e, -, rfl⟩ := List.mem_map.mp hp
    simpa using other

namespace Manager

/-! ### Operations go on -/

/-- Whether each operation has gone on by moves: that in flight by those of a trace, if there is one. -/
def Goes (m : Manager) (t : Trace) (m' : Manager) : Prop :=
  ∀ (number : Nat) (op : Operation), m.operations[number]? = some op → ∃ op', m'.operations[number]? = some op' ∧
    op.Moves (if m.past.length = number then t else []) op'

variable {m m' m'' : Manager} {t : Trace}

theorem Goes.of_append {more : List Operation} (h : m'.operations = m.operations ++ more) :
    m.Goes [] m' := by
  intro number op here
  refine ⟨op, ?_, ?_⟩
  · rw [h, List.getElem?_append_left, here]
    exact (List.getElem?_eq_some_iff.mp here).1
  · rw [ite_self]
    exact .rest op

theorem Goes.of_eq (h : m'.operations = m.operations) : m.Goes [] m' := by
  have same : m'.operations = m.operations ++ [] := by rw [h, List.append_nil]
  exact .of_append same

theorem Goes.before (h : m.Goes [] m') (h' : m'.Goes t m'') (same : m'.past.length = m.past.length) :
    m.Goes t m'' := by
  intro number op here
  obtain ⟨op', here', moves⟩ := h number op here
  obtain ⟨op'', here'', moves'⟩ := h' number op' here'
  rw [ite_self] at moves
  rw [same] at moves'
  exact ⟨op'', here'', moves.trans moves'⟩

theorem Goes.after (h : m.Goes t m') (h' : m'.Goes [] m'') : m.Goes t m'' := by
  intro number op here
  obtain ⟨op', here', moves⟩ := h number op here
  obtain ⟨op'', here'', moves'⟩ := h' number op' here'
  rw [ite_self] at moves'
  have both := moves.trans moves'
  rw [List.append_nil] at both
  exact ⟨op'', here'', both⟩

theorem operation_cases {number : Nat} {op : Operation} (h : m.operations[number]? = some op) :
    (number < m.past.length ∧ m.past[number]? = some op) ∨
      (number = m.past.length ∧ m.inFlight = some op) := by
  by_cases inside : number < m.past.length
  · rw [operations, List.getElem?_append_left inside] at h
    exact .inl ⟨inside, h⟩
  · rw [operations, List.getElem?_append_right (by omega)] at h
    cases flight : m.inFlight with
    | none => rw [flight] at h; cases h
    | some op' =>
      rw [flight, Option.toList_some, List.getElem?_singleton] at h
      split at h
      · next zero => exact .inr ⟨by omega, h⟩
      · cases h

theorem course_goes (m : Manager) {move : Operation → Operation} {course : Operation → Trace}
    (moves : ∀ op : Operation, op.Moves (course op) (move op)) :
    m.Goes (m.courseTrace course) { m with inFlight := m.inFlight.map move } := by
  intro number op here
  rcases operation_cases here with ⟨inside, stopped⟩ | ⟨rfl, flight⟩
  · refine ⟨op, ?_, ?_⟩
    · rw [operations, List.getElem?_append_left inside, stopped]
    · rw [if_neg (Nat.ne_of_gt inside)]
      exact .rest op
  · refine ⟨move op, ?_, ?_⟩
    · rw [operations, flight, List.getElem?_append_right (Nat.le_refl _), Nat.sub_self]
      rfl
    · rw [if_pos rfl, courseTrace, flight]
      exact moves op

theorem past_cancel (m : Manager) (number : Nat) : (m.cancel number).2.past.length = m.past.length := by
  obtain ⟨past, inFlight, same, length, -⟩ := m.cancel_spec number
  rw [same]
  exact length

theorem cancel_goes (m : Manager) (number : Nat) : m.Goes [] (m.cancel number).2 := by
  unfold cancel
  split
  · next op stopped =>
    intro number' op' here
    rw [ite_self]
    rcases operation_cases here with ⟨inside, stopped'⟩ | ⟨rfl, flight⟩
    · by_cases same : number = number'
      · subst same
        obtain rfl := Option.some.inj (stopped.symm.trans stopped')
        refine ⟨op.cancel.2, ?_, op.cancel_moves⟩
        rw [operations, List.getElem?_append_left (by simpa using inside), List.getElem?_set_self inside]
      · refine ⟨op', ?_, .rest op'⟩
        rw [operations, List.getElem?_append_left (by simpa using inside), List.getElem?_set_ne same, stopped']
    · refine ⟨op', ?_, .rest op'⟩
      rw [operations, flight, List.getElem?_append_right (by simp), List.length_set, Nat.sub_self]
      rfl
  · split
    · split
      · next op flight =>
        have goes := m.course_goes Operation.cancel_moves
        have none : m.courseTrace (fun _ => []) = [] := by rw [courseTrace, flight]; rfl
        rw [none, flight] at goes
        exact goes
      · exact .of_eq rfl
    · exact .of_eq rfl

/-! ### Operations keep their places -/

theorem operations_takeOver (m : Manager) : m.takeOver.operations = m.operations := by
  unfold takeOver retire
  cases flight : m.inFlight with
  | none => rfl
  | some op => simp [operations, flight]

theorem operations_retire (m : Manager) : m.retire.operations = m.operations := m.operations_takeOver

theorem inFlight_takeOver (m : Manager) : m.takeOver.inFlight = none := by
  unfold takeOver retire
  cases flight : m.inFlight with
  | none => exact flight
  | some op => rfl

def job (m : Manager) (target : Menu) (notifies : Bool) : Job where
  id := m.past.length + 1
  setup := { settings := m.settings, uploads := m.uploads }
  target
  notifies

theorem operations_schedule {m : Manager} (free : m.inFlight = none) (target : Menu) (notifies : Bool) :
    (m.schedule target notifies).1.operations =
      m.operations ++ [.schedule (m.job target notifies) m.current m.ids] := by
  rw [operations, operations, free, Option.toList_none, List.append_nil]
  rfl

theorem operations_complete (m : Manager) (ending : Option Operation.Ending) (call : Call) :
    ∃ more, (m.complete ending call).1.operations = m.operations ++ more := by
  cases call with
  | update target notifies =>
    rw [← m.operations_takeOver]
    exact ⟨_, operations_schedule m.inFlight_takeOver target notifies⟩
  | shutdown => exact ⟨[], by rw [List.append_nil]; exact m.operations_takeOver⟩
  | settle =>
    refine ⟨[], ?_⟩
    rw [List.append_nil]
    cases ending with
    | none => rfl
    | some ending =>
      cases ending with
      | crashed => exact m.operations_retire
      | _ => exact m.operations_takeOver

theorem resume_goes (m : Manager) : m.Goes [] m.resume.1 := by
  rcases m.resume_cases with same | ⟨call, -, -, same⟩
  · exact .of_eq (by rw [same])
  · obtain ⟨more, further⟩ := ({ m with waiting := none } : Manager).operations_complete
      (m.inFlight.bind Operation.ending?) call
    rw [same]
    exact .of_append further

theorem Readies.past {m m' : Manager} {e : Event} (h : m.Readies e m') : m'.past.length = m.past.length :=
  h.keeps (P := fun m' => m'.past.length = m.past.length) rfl (m.past_cancel _) fun _ _ _ h => h

theorem Readies.goes {m m' : Manager} {e : Event} (h : m.Readies e m') : m.Goes [] m' :=
  h.keeps (.of_eq rfl) (m.cancel_goes _) fun _ _ _ h => h

end Manager

/-- What a step does: each operation goes on by moves, that in flight by those that are recorded. -/
theorem History.step_goes (h : History) {e : Event} (alive : e ≠ .crash) :
    ∃ m t, h.step e = h.next m t ∧ h.manager.Goes t m := by
  rcases h.step_cases alive with same | ⟨number, same⟩ | ⟨m, move, course, readies, moves, same⟩
  · refine ⟨h.manager, [], ?_, .of_eq rfl⟩
    rw [same, next, List.map_nil, List.append_nil]
  · exact ⟨_, _, same, h.manager.cancel_goes number⟩
  · exact ⟨_, _, same, readies.goes.before ((m.course_goes moves).after (resume_goes _)) readies.past⟩

namespace Manager

variable {m m' : Manager} {t : Trace}

theorem Goes.length_le (h : m.Goes t m') : m.operations.length ≤ m'.operations.length := by
  by_contra fewer
  have inside : m'.operations.length < m.operations.length := by omega
  obtain ⟨op, there, -⟩ := h _ _ (List.getElem?_eq_getElem inside)
  exact Nat.lt_irrefl _ (List.getElem?_eq_some_iff.mp there).1

theorem length_moved (m : Manager) (move : Operation → Operation) :
    ({ m with inFlight := m.inFlight.map move } : Manager).operations.length = m.operations.length := by
  cases flight : m.inFlight <;> simp [operations, flight]

theorem length_cancel (m : Manager) (number : Nat) :
    (m.cancel number).2.operations.length = m.operations.length := by
  obtain ⟨past, move, same, length, -⟩ := m.cancel_spec number
  rw [same, operations, operations, List.length_append, List.length_append, length]
  cases m.inFlight <;> rfl

theorem waiting_cancel (m : Manager) (number : Nat) : (m.cancel number).2.waiting = m.waiting := by
  obtain ⟨past, inFlight, same, -⟩ := m.cancel_spec number
  rw [same]

end Manager

namespace History

variable {h : History}

/-! ### Numbers -/

/-- Whether only operations that there are have asked anything. -/
def Numbered (h : History) : Prop := ∀ p ∈ h.trace, p.1 < h.manager.operations.length

theorem Numbered.next (numbered : h.Numbered) {m m' : Manager} {course : Operation → Trace}
    (past : m.past.length = h.manager.past.length) (grows : h.manager.operations.length ≤ m.operations.length)
    (further : m.operations.length ≤ m'.operations.length) :
    (h.next m' (m.courseTrace course)).Numbered := by
  intro p hp
  rcases List.mem_append.mp hp with old | new
  · exact Nat.lt_of_lt_of_le (numbered p old) (Nat.le_trans grows further)
  · obtain ⟨e, he, rfl⟩ := List.mem_map.mp new
    refine Nat.lt_of_lt_of_le ?_ further
    rw [← past]
    cases flight : m.inFlight with
    | none => rw [courseTrace, flight] at he; cases he
    | some op => simp [operations, flight]

theorem Numbered.step (numbered : h.Numbered) {e : Event} (alive : e ≠ .crash) : (h.step e).Numbered := by
  rcases h.step_cases alive with same | ⟨number, same⟩ | ⟨m, move, course, readies, moves, same⟩
  · rw [same]
    exact numbered
  · rw [same]
    intro p hp
    rw [History.next, List.map_nil, List.append_nil] at hp
    exact Nat.lt_of_lt_of_le (numbered p hp) (Nat.le_of_eq (length_cancel _ _).symm)
  · rw [same]
    refine numbered.next readies.past readies.goes.length_le ?_
    rw [← m.length_moved move]
    exact (resume_goes _).length_le

/-- Nothing is known yet of what the next operation will ask. -/
theorem Numbered.exchangesOf_eq_nil (numbered : h.Numbered) {number : Nat}
    (next : h.manager.operations.length ≤ number) : h.exchangesOf number = [] := by
  rw [exchangesOf, List.filter_eq_nil_iff.mpr, List.map_nil]
  intro p hp own
  have inside := numbered p hp
  rw [of_decide_eq_true own] at inside
  omega

end History

end RemoteMenu
