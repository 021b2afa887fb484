import RemoteMenu.Proofs.Manager.Turns
import RemoteMenu.Proofs.Update.Ids

/-!
# Ids for the life of a manager

As long as the supply has not come back to its start, no two additions of a manager's operations have the same id,
and no two nodes of its menu (`History.ids_unique`): an id tells which node the host speaks of, whatever was
rejected, canceled, superseded or left behind by an operation that died.
-/

namespace RemoteMenu

open Manager

/-! ### Ids that were drawn early -/

/-- Whether ids are distinct and among the first that were drawn from a supply. -/
structure Early (start : IdSupply) (drawn : Nat) (ids : List RemoteId) : Prop where
  distinct : ids.Nodup
  drawn : ∀ id ∈ ids, ∃ k < drawn, id = start.nth k

namespace Early

variable {start : IdSupply} {a b : Nat} {ids more : List RemoteId}

theorem nil (start : IdSupply) (drawn : Nat) : Early start drawn [] := ⟨List.nodup_nil, nofun⟩

theorem mono (h : Early start a ids) (le : a ≤ b) : Early start b ids where
  distinct := h.distinct
  drawn id member := by
    obtain ⟨k, lt, own⟩ := h.drawn id member
    exact ⟨k, Nat.lt_of_lt_of_le lt le, own⟩

/-- Ids that are drawn later are others. -/
theorem later (h : Early start a ids) (bound : b ≤ legalIds) {k : Nat} (le : a ≤ k) (lt : k < b) : start.nth k ∉ ids := by
  intro member
  obtain ⟨j, less, same⟩ := h.drawn _ member
  have equal := IdSupply.nth_inj (by omega) (by omega) same
  omega

theorem left (h : Early start a (ids ++ more)) : Early start a ids where
  distinct := (List.nodup_append.mp h.distinct).1
  drawn id member := h.drawn id (List.mem_append_left _ member)

theorem append (h : Early start a ids) (le : a ≤ b) (bound : b ≤ legalIds) (distinct : more.Nodup)
    (drawn : ∀ id ∈ more, ∃ k, a ≤ k ∧ k < b ∧ id = start.nth k) : Early start b (ids ++ more) where
  distinct := by
    refine List.nodup_append.mpr ⟨h.distinct, distinct, ?_⟩
    rintro id member _ member' rfl
    obtain ⟨k, ge, lt, own⟩ := drawn id member'
    exact h.later bound ge lt (own ▸ member)
  drawn id member := by
    rcases List.mem_append.mp member with old | new
    · exact (h.mono le).drawn id old
    · obtain ⟨k, -, lt, own⟩ := drawn id new
      exact ⟨k, lt, own⟩

end Early

/-! ### What an operation has sent -/

def Request.addedIds : Request → List RemoteId
  | .send batch => Command.addedIds batch
  | _ => []

namespace Operation

def pendingIds (op : Operation) : List RemoteId := op.pending?.toList.flatMap Request.addedIds

/-- What an operation has asked since it was scheduled with a menu and a supply, and the ids that it has sent: if it
has died, those of what it died over are among them. -/
inductive Sent (current : Menu) (ids : IdSupply) : Operation → Trace → List RemoteId → Prop
  | live {job : Job} {t : Trace} {op : Operation} (way : (schedule job current ids).Moves t op) :
      Sent current ids op t t.addedIds
  | dead {job : Job} {t : Trace} {alive op : Operation} (way : (schedule job current ids).Moves t alive)
      (died : op.task = .crashed alive.progress) (supply : op.ids = alive.ids) :
      Sent current ids op t (t.addedIds ++ alive.pendingIds)

theorem Moves.of_crashed {op op' : Operation} {t : Trace} (h : op.Moves t op') {now : Progress}
    (dead : op.task = .crashed now) : t = [] ∧ op'.task = .crashed now ∧ op'.ids = op.ids := by
  induction h with
  | rest => exact ⟨rfl, dead, rfl⟩
  | @step op op' t answers _ ih =>
    have still : op.proceed answers = op := by
      rw [proceed, dead]
    have quiet : op.proceedTrace answers = [] := by
      rw [proceedTrace, dead]
    rw [still] at ih
    rw [quiet, List.nil_append]
    exact ih dead
  | stop _ ih => exact ih dead

namespace Sent

variable {current : Menu} {ids : IdSupply} {op op' : Operation} {t : Trace} {sent : List RemoteId}

theorem moves (h : Sent current ids op t sent) {seg : Trace} (moves : op.Moves seg op') :
    Sent current ids op' (t ++ seg) (sent ++ seg.addedIds) := by
  cases h with
  | live way =>
    rw [← Trace.addedIds_append]
    exact .live (way.trans moves)
  | dead way died supply =>
    obtain ⟨rfl, still, same⟩ := moves.of_crashed died
    have none : Trace.addedIds [] = [] := rfl
    rw [none, List.append_nil, List.append_nil]
    exact .dead way still (same.trans supply)

theorem crash (h : Sent current ids op t sent) : Sent current ids op.crash t (sent ++ op.pendingIds) := by
  cases h with
  | live way => exact .dead way rfl rfl
  | dead way died supply =>
    have none : op.pendingIds = [] := by
      rw [pendingIds, pending?, died]
      rfl
    rw [none, List.append_nil]
    refine .dead way ?_ supply
    rw [Operation.crash, progress, died]

end Sent

theorem pendingIds_cases (op : Operation) : op.pendingIds = [] ∨
    ∃ batch, op.pending? = some (.send batch) ∧ op.pendingIds = Command.addedIds batch := by
  rw [pendingIds]
  cases waits : op.pending? with
  | none => exact .inl rfl
  | some request =>
    cases request with
    | send batch => exact .inr ⟨batch, rfl, List.append_nil _⟩
    | _ => exact .inl rfl

structure Unique (start : IdSupply) (base drawn : Nat) (op : Operation) (sent : List RemoteId) : Prop where
  ids : op.ids = start.skip drawn
  menu : Early start drawn op.committed.ids
  once : (sent ++ op.pendingIds).Nodup
  drawn : ∀ id ∈ sent ++ op.pendingIds, ∃ k, base ≤ k ∧ k < drawn ∧ id = start.nth k

variable {start : IdSupply} {base : Nat} {current : Menu} {op : Operation} {t : Trace} {sent : List RemoteId}

theorem Moves.unique {job : Job} (way : (schedule job current (start.skip base)).Moves t op)
    (early : Early start base current.ids) (bound : base + t.drawn ≤ legalIds) :
    Unique start base (base + t.drawn) op t.addedIds := by
  have apart : ∀ k < t.drawn, (start.skip base).nth k ∉ current.ids := by
    intro k lt
    rw [IdSupply.nth_skip]
    exact early.later bound (Nat.le_add_right ..) (by omega)
  obtain ⟨identities, sends, -⟩ := way.identities early.distinct apart
  have within : t.drawn ≤ legalIds := by omega
  have owned := identities.owned within
  have drawnNow {id : RemoteId} {limit : Nat} (le : limit ≤ t.drawn) :
      (∃ k < limit, id = (start.skip base).nth k) → ∃ k, base ≤ k ∧ k < base + t.drawn ∧ id = start.nth k := by
    rintro ⟨k, lt, rfl⟩
    exact ⟨base + k, Nat.le_add_right .., by omega, IdSupply.nth_skip ..⟩
  have spent : t.spent ≤ t.drawn := Nat.sub_le ..
  refine ⟨?_, ⟨owned.distinct, fun id member => ?_⟩, ?_, fun id member => ?_⟩
  · have started : (schedule job current (start.skip base)).task = .live (job.run { committed := current }) := rfl
    have supply : (schedule job current (start.skip base)).ids = (start.skip base).skip 0 := rfl
    rw [(way.draws started supply).2, ← IdSupply.skip_add, Nat.zero_add]
  · rcases owned.own id member with old | new
    · exact (early.mono (Nat.le_add_right ..)).drawn id old
    · obtain ⟨k, -, lt, own⟩ := drawnNow spent new
      exact ⟨k, lt, own⟩
  · rcases op.pendingIds_cases with none | ⟨batch, waits, own⟩
    · rw [none, List.append_nil]
      exact owned.once
    · rw [own]
      exact (sends batch waits).once within
  · rcases List.mem_append.mp member with old | new
    · exact drawnNow spent (owned.drawn id old)
    · rcases op.pendingIds_cases with none | ⟨batch, waits, own⟩
      · rw [none] at new
        cases new
      · exact drawnNow (Nat.le_refl _) ((sends batch waits).drawn within id (own ▸ new))

/-- An operation that has died stands where it stood when it died. -/
theorem Sent.unique (h : Sent current (start.skip base) op t sent) (early : Early start base current.ids)
    (bound : base + t.drawn ≤ legalIds) : Unique start base (base + t.drawn) op sent := by
  cases h with
  | live way => exact way.unique early bound
  | @dead _ _ alive _ way died supply =>
    obtain ⟨ids, menu, once, drawn⟩ := way.unique early bound
    have none : op.pendingIds = [] := by
      rw [pendingIds, pending?, died]
      rfl
    have same : op.committed = alive.committed := by rw [committed, progress, died, committed]
    refine ⟨supply.trans ids, same ▸ menu, ?_, ?_⟩
    · rw [none, List.append_nil]
      exact once
    · rw [none, List.append_nil]
      exact drawn

end Operation

/-! ### What a manager has sent -/

namespace Manager

def pendingIds (m : Manager) : List RemoteId := m.pending?.toList.flatMap Request.addedIds

/-- What is known of the ids of a manager, when a number of ids were drawn and some were sent: with no operation in
flight or with one, which was scheduled when fewer were drawn. -/
structure Unique (start : IdSupply) (drawn : Nat) (sent : List RemoteId) (m : Manager) : Prop where
  resting : m.inFlight = none → m.ids = start.skip drawn ∧ Early start drawn m.current.ids ∧ Early start drawn sent
  running : ∀ op, m.inFlight = some op → ∃ (base : Nat) (earlier : List RemoteId) (t : Trace) (own : List RemoteId),
    m.ids = start.skip base ∧ Early start base m.current.ids ∧ Early start base earlier ∧
      op.Sent m.current m.ids t own ∧ drawn = base + t.drawn ∧ sent = earlier ++ own

namespace Unique

variable {start : IdSupply} {drawn : Nat} {sent : List RemoteId} {m : Manager}

theorem idle (flight : m.inFlight = none)
    (rests : m.ids = start.skip drawn ∧ Early start drawn m.current.ids ∧ Early start drawn sent) :
    m.Unique start drawn sent where
  resting _ := rests
  running op busy := by
    rw [flight] at busy
    cases busy

theorem busy {op : Operation} (flight : m.inFlight = some op)
    (runs : ∃ (base : Nat) (earlier : List RemoteId) (t : Trace) (own : List RemoteId),
      m.ids = start.skip base ∧ Early start base m.current.ids ∧ Early start base earlier ∧
        op.Sent m.current m.ids t own ∧ drawn = base + t.drawn ∧ sent = earlier ++ own) :
    m.Unique start drawn sent where
  resting idle := by
    rw [flight] at idle
    cases idle
  running other same := by
    cases flight.symm.trans same
    exact runs

theorem inFlight (h : m.Unique start drawn sent) {op : Operation} (flight : m.inFlight = some op)
    (bound : drawn ≤ legalIds) : op.ids = start.skip drawn ∧ Early start drawn op.committed.ids ∧
      Early start drawn (sent ++ op.pendingIds) := by
  obtain ⟨base, earlier, t, own, ids, early, before, since, rfl, rfl⟩ := h.running op flight
  rw [ids] at since
  obtain ⟨supply, menu, once, drawn⟩ := since.unique early bound
  refine ⟨supply, menu, ?_⟩
  rw [List.append_assoc]
  exact before.append (Nat.le_add_right ..) bound once drawn

theorem currentMenu (h : m.Unique start drawn sent) (bound : drawn ≤ legalIds) :
    Early start drawn m.currentMenu.ids := by
  rw [Manager.currentMenu]
  cases flight : m.inFlight with
  | none => exact (h.resting flight).2.1
  | some op => exact (h.inFlight flight bound).2.1

theorem pending (h : m.Unique start drawn sent) (bound : drawn ≤ legalIds) :
    Early start drawn (sent ++ m.pendingIds) := by
  rw [pendingIds, Manager.pending?]
  cases flight : m.inFlight with
  | none =>
    rw [Option.bind_none, Option.toList_none, List.flatMap_nil, List.append_nil]
    exact (h.resting flight).2.2
  | some op => exact (h.inFlight flight bound).2.2

theorem moved (h : m.Unique start drawn sent) {move : Operation → Operation} {course : Operation → Trace}
    (moves : ∀ op : Operation, op.Moves (course op) (move op)) :
    ({ m with inFlight := m.inFlight.map move } : Manager).Unique start (drawn + (m.courseTrace course).drawn)
      (sent ++ (m.courseTrace course).addedIds) := by
  cases flight : m.inFlight with
  | none =>
    have none : m.courseTrace course = [] := by rw [courseTrace, flight]; rfl
    have quiet : Trace.addedIds [] = [] := rfl
    rw [none, quiet, List.append_nil]
    exact .idle rfl (h.resting flight)
  | some op =>
    have own : m.courseTrace course = course op := by rw [courseTrace, flight]; rfl
    obtain ⟨base, earlier, t, sent, ids, early, before, since, rfl, rfl⟩ := h.running op flight
    rw [own]
    refine .busy rfl ⟨base, earlier, t ++ course op, sent ++ (course op).addedIds, ids, early, before,
      since.moves (moves op), ?_, ?_⟩
    · rw [Trace.drawn_append, Nat.add_assoc]
    · rw [List.append_assoc]

theorem crash (h : m.Unique start drawn sent) :
    ({ m with inFlight := m.inFlight.map Operation.crash } : Manager).Unique start drawn (sent ++ m.pendingIds) := by
  rw [pendingIds, Manager.pending?]
  cases flight : m.inFlight with
  | none =>
    rw [Option.bind_none, Option.toList_none, List.flatMap_nil, List.append_nil]
    exact .idle rfl (h.resting flight)
  | some op =>
    obtain ⟨base, earlier, t, sent, ids, early, before, since, rfl, rfl⟩ := h.running op flight
    refine .busy rfl ⟨base, earlier, t, sent ++ op.pendingIds, ids, early, before, since.crash, rfl, ?_⟩
    rw [List.append_assoc]
    rfl

theorem cancel (h : m.Unique start drawn sent) (number : Nat) : (m.cancel number).2.Unique start drawn sent := by
  obtain ⟨past, move, same, -, moves⟩ := m.cancel_spec number
  have moved := h.moved moves
  have quiet : m.courseTrace (fun _ => []) = [] := by
    rw [courseTrace]
    cases m.inFlight <;> rfl
  have none : Trace.addedIds [] = [] := rfl
  rw [quiet, none, List.append_nil] at moved
  rw [same]
  exact ⟨moved.resting, moved.running⟩

theorem readies (h : m.Unique start drawn sent) {m' : Manager} {e : Event} (readies : m.Readies e m') :
    m'.Unique start drawn sent :=
  readies.keeps h (h.cancel _) fun _ _ _ h => ⟨h.resting, h.running⟩

theorem takeOver (h : m.Unique start drawn sent) (bound : drawn ≤ legalIds) : m.takeOver.Unique start drawn sent := by
  have menu := h.currentMenu bound
  unfold Manager.takeOver Manager.retire
  cases flight : m.inFlight with
  | none => exact .idle flight ⟨(h.resting flight).1, menu, (h.resting flight).2.2⟩
  | some op =>
    obtain ⟨ids, -, before⟩ := h.inFlight flight bound
    exact .idle rfl ⟨ids, menu, before.left⟩

/-- The menu from before an operation that has died has no ids that were drawn since. -/
theorem retire (h : m.Unique start drawn sent) (bound : drawn ≤ legalIds) : m.retire.Unique start drawn sent := by
  unfold Manager.retire
  cases flight : m.inFlight with
  | none => exact h
  | some op =>
    obtain ⟨ids, -, before⟩ := h.inFlight flight bound
    obtain ⟨base, -, t, -, -, early, -, -, rfl, -⟩ := h.running op flight
    exact .idle rfl ⟨ids, early.mono (Nat.le_add_right ..), before.left⟩

theorem schedule (h : m.Unique start drawn sent) (free : m.inFlight = none) (target : Menu) (notifies : Bool) :
    (m.schedule target notifies).1.Unique start drawn sent := by
  obtain ⟨ids, early, before⟩ := h.resting free
  exact .busy rfl ⟨drawn, sent, [], _, ids, early, before, .live (.rest _), rfl, (List.append_nil _).symm⟩

theorem resume (h : m.Unique start drawn sent) (bound : drawn ≤ legalIds) : m.resume.1.Unique start drawn sent := by
  rcases m.resume_cases with same | ⟨call, -, -, same⟩
  · rw [same]
    exact h
  · have cleared : ({ m with waiting := none } : Manager).Unique start drawn sent := ⟨h.resting, h.running⟩
    rw [same]
    cases call with
    | update target notifies => exact (cleared.takeOver bound).schedule (inFlight_takeOver _) target notifies
    | shutdown => exact cleared.takeOver bound
    | settle =>
      cases m.inFlight.bind Operation.ending? with
      | none => exact cleared
      | some ending =>
        cases ending with
        | crashed => exact cleared.retire bound
        | _ => exact cleared.takeOver bound

end Unique

end Manager

/-! ### Histories -/

namespace History

variable {h : History} {start : IdSupply}

def addedIds (requests : List (Nat × Request)) : List RemoteId := requests.flatMap fun p => p.2.addedIds

theorem addedIds_append (a b : List (Nat × Request)) : addedIds (a ++ b) = addedIds a ++ addedIds b :=
  List.flatMap_append

theorem addedIds_unanswered (h : History) : addedIds h.unanswered = h.manager.pendingIds := by
  rw [addedIds, unanswered, List.flatMap_map]
  rfl

theorem addedIds_closes {e : Event} (alive : e ≠ .crash) {m : Manager} {t : Trace} (same : h.step e = h.next m t) :
    addedIds (h.closes e) = t.addedIds := by
  rw [h.closes_of_alive alive, same, next, List.drop_left, List.filterMap_map]
  clear same
  induction t with
  | nil => rfl
  | cons x t ih =>
    obtain ⟨inquiry, reply⟩ := x
    cases inquiry with
    | world request =>
      cases request with
      | send batch => exact congrArg (Command.addedIds batch ++ ·) ih
      | _ => exact ih
    | _ => exact ih

def Unique (start : IdSupply) (h : History) (closed : List (Nat × Request)) : Prop :=
  h.manager.Unique start h.exchanges.drawn (addedIds closed)

theorem Unique.next {closed : List (Nat × Request)} {e : Event} (alive : e ≠ .crash) {m : Manager} {t : Trace}
    (same : h.step e = h.next m t)
    (unique : m.Unique start (h.exchanges.drawn + t.drawn) (addedIds closed ++ t.addedIds)) :
    Unique start (h.step e) (closed ++ h.closes e) := by
  rw [Unique, addedIds_append, addedIds_closes alive same, same, exchanges_next, Trace.drawn_append]
  exact unique

theorem Unique.step {closed : List (Nat × Request)} (unique : Unique start h closed) (e : Event)
    (bound : (h.step e).exchanges.drawn ≤ legalIds) : Unique start (h.step e) (closed ++ h.closes e) := by
  have none : Trace.addedIds [] = [] := rfl
  by_cases dies : e = .crash
  · subst dies
    have crashed := (Manager.Unique.crash unique).resume (Nat.le_trans (h.drawn_le_step .crash) bound)
    rw [← addedIds_unanswered, ← addedIds_append] at crashed
    have same : (h.step .crash).exchanges = h.exchanges := (exchanges_next ..).trans (List.append_nil _)
    rw [Unique, same]
    exact crashed
  · rcases h.step_cases dies with same | ⟨number, same⟩ | ⟨m, move, course, readies, moves, same⟩
    · refine Unique.next dies (same.trans h.next_self.symm) ?_
      rw [none, List.append_nil]
      exact unique
    · refine Unique.next dies same ?_
      rw [none, List.append_nil]
      exact Manager.Unique.cancel unique number
    · refine Unique.next dies same ?_
      rw [same, exchanges_next, Trace.drawn_append] at bound
      exact ((Manager.Unique.readies unique readies).moved moves).resume bound

theorem Unique.run {closed : List (Nat × Request)} (unique : Unique start h closed) {events : List Event}
    (bound : (h.run events).exchanges.drawn ≤ legalIds) :
    Early start (h.run events).exchanges.drawn (h.run events).manager.currentMenu.ids ∧
      Early start (h.run events).exchanges.drawn (addedIds (closed ++ h.requests events)) := by
  induction events generalizing h closed with
  | nil =>
    refine ⟨Manager.Unique.currentMenu unique bound, ?_⟩
    rw [requests, addedIds_append, addedIds_unanswered]
    exact Manager.Unique.pending unique bound
  | cons e events ih =>
    have first := unique.step e (Nat.le_trans ((h.step e).drawn_le_run events) bound)
    rw [requests, ← List.append_assoc]
    exact ih first bound

theorem unique_fresh (settings : Settings) (uploads : Bool) (ids : IdSupply) :
    Unique ids (fresh settings uploads ids) [] :=
  Manager.Unique.idle rfl ⟨rfl, .nil ids 0, .nil ids 0⟩

end History

/-! ### What an id tells -/

theorem filter_eq_find?_of_nodup {α β : Type} [DecidableEq β] (f : α → β) (b : β) {l : List α}
    (distinct : (l.map f).Nodup) : l.filter (f · = b) = (l.find? (f · = b)).toList := by
  induction l with
  | nil => rfl
  | cons a l ih =>
    obtain ⟨other, rest⟩ := List.nodup_cons.mp distinct
    by_cases own : f a = b
    · have none : l.filter (f · = b) = [] := by
        refine List.filter_eq_nil_iff.mpr fun x hx same => other ?_
        rw [own, ← of_decide_eq_true same]
        exact List.mem_map_of_mem hx
      simp [own, none]
    · simp [own, ih rest]

theorem Menu.filter_eq_find? {menu : Menu} (distinct : menu.ids.Nodup) (set : ∀ id ∈ menu.ids, id.isSet = true)
    (id : RemoteId) : menu.walk.filter (·.remoteId = id) = (menu.find? id).toList := by
  rw [Menu.find?]
  split
  · exact filter_eq_find?_of_nodup Node.remoteId id distinct
  · next unset =>
    refine List.filter_eq_nil_iff.mpr fun n hn own => unset ?_
    rw [← of_decide_eq_true own]
    exact set _ (List.mem_map_of_mem hn)

namespace History

/-- As long as the supply has not come back to its start, no entry was ever to be added with an id that another one
was to be added with, and the nodes of the menu have ids, each one its own: the one node with an id, if there is
any, is what the id leads to. -/
theorem ids_unique {settings : Settings} {uploads : Bool} {ids : IdSupply} {events : List Event}
    (bound : ((fresh settings uploads ids).run events).exchanges.drawn ≤ legalIds) :
    (addedIds ((fresh settings uploads ids).requests events)).Nodup ∧
    let m := ((fresh settings uploads ids).run events).manager
    m.currentMenu.ids.Nodup ∧ (∀ id ∈ m.currentMenu.ids, id.isSet = true) ∧
      ∀ id, m.currentMenu.walk.filter (·.remoteId = id) = (m.resolve id).toList := by
  obtain ⟨menu, sent⟩ := (unique_fresh settings uploads ids).run bound
  have set : ∀ id ∈ ((fresh settings uploads ids).run events).manager.currentMenu.ids, id.isSet = true := by
    intro id member
    obtain ⟨k, -, rfl⟩ := menu.drawn id member
    exact ids.isSet_nth k
  exact ⟨sent.distinct, menu.distinct, set, fun id => Menu.filter_eq_find? menu.distinct set id⟩

theorem ids_unique_twoUpdates :
    (addedIds ((fresh {} false default).requests twoUpdates)).Nodup ∧
    let m := ((fresh {} false default).run twoUpdates).manager
    m.currentMenu.ids.Nodup ∧ (∀ id ∈ m.currentMenu.ids, id.isSet = true) ∧
      ∀ id, m.currentMenu.walk.filter (·.remoteId = id) = (m.resolve id).toList :=
  ids_unique (Nat.le_of_lt ended_twoUpdates.1)

end History

end RemoteMenu
