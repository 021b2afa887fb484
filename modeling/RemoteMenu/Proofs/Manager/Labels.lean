import RemoteMenu.Proofs.Manager.UniqueIds
import RemoteMenu.Proofs.Update.Labels

/-!
# Labels on the host

The label that the host has for an id is the title that its node was displayed with when the id came into the
menu (`History.Chronicle.entered`). A node that is kept later on takes over the number that each new target gives
it, and the host is not told: the label that it has is the title with an earlier number
(`History.label_as_entered`), and may not be the one that is displayed by now (`History.label_behind`).
-/

namespace RemoteMenu

open HostTree Manager

/-! ### The start of the operation in flight -/

namespace Manager

/-- The operation in flight was scheduled with the menu and the supply that the manager has still, when the host
showed that menu, and nobody else has asked anything since. -/
def Based (w : Scope) (t : Trace) (m : Manager) : Prop :=
  ∀ op, m.inFlight = some op → ∃ (job : Job) (earlier own : Trace), t = earlier ++ own ∧
    Mirrored w earlier (m.current.places none) ∧ m.ids = w.start.skip earlier.drawn ∧
    (Operation.schedule job m.current m.ids).Moves own op

variable {w : Scope} {t : Trace} {m m' : Manager}

theorem based_idle (free : m.inFlight = none) : m.Based w t := by simp [Based, free]

namespace Based

/-- A node of the menu has an id of the menu that the operation in flight was scheduled with, or was sent under
the title that it is displayed with. -/
theorem labelled (h : m.Based w t) (bound : t.drawn < legalIds) :
    ∀ n ∈ m.currentMenu.walk, n.remoteId ∈ m.current.ids ∨ n.label ∈ t.labels := by
  intro n hn
  rw [currentMenu] at hn
  cases flight : m.inFlight with
  | none =>
    rw [flight] at hn
    exact .inl (List.mem_map_of_mem hn)
  | some op =>
    rw [flight] at hn
    obtain ⟨job, earlier, own, rfl, mirrored, ids, way⟩ := h op flight
    rw [Trace.drawn_append] at bound
    rw [Trace.labels_append]
    exact (way.labelled mirrored.nodup_ids (ids ▸ mirrored.apart bound) n hn).imp id (List.mem_append_right _)

theorem moved (h : m.Based w t) {move : Operation → Operation} {course : Operation → Trace}
    (moves : ∀ op : Operation, op.Moves (course op) (move op)) :
    ({ m with inFlight := m.inFlight.map move } : Manager).Based w (t ++ m.courseTrace course) := by
  intro op' flight'
  obtain ⟨op, flight, rfl⟩ := Option.map_eq_some_iff.mp flight'
  obtain ⟨job, earlier, own, rfl, mirrored, ids, way⟩ := h op flight
  have same : m.courseTrace course = course op := by rw [courseTrace, flight]; rfl
  exact ⟨job, earlier, own ++ course op, by rw [same, List.append_assoc], mirrored, ids, way.trans (moves op)⟩

theorem cancel (h : m.Based w t) (number : Nat) : (m.cancel number).2.Based w t := by
  obtain ⟨past, move, same, -, moves⟩ := m.cancel_spec number
  have quiet : m.courseTrace (fun _ => []) = [] := by
    rw [courseTrace]
    cases m.inFlight <;> rfl
  have moved := h.moved moves
  rw [quiet, List.append_nil] at moved
  rw [same]
  exact moved

theorem readies (h : m.Based w t) {e : Event} (readies : m.Readies e m') : m'.Based w t :=
  readies.keeps h (h.cancel _) fun _ _ _ h => h

theorem resume (h : m.Based w t) (tracked : m.Tracked w t) : m.resume.1.Based w t := by
  rcases m.resume_cases with same | ⟨call, -, idle, same⟩
  · rw [same]
    exact h
  · rw [same]
    cases call with
    | update target notifies =>
      have cleared : ({ m with waiting := none } : Manager).Tracked w t :=
        ⟨tracked.layout, by simp, tracked.resting, tracked.running⟩
      obtain ⟨taken, free⟩ := cleared.takeOver idle
      obtain ⟨mirrored, ids⟩ := taken.resting free
      intro op flight
      obtain rfl := Option.some.inj flight
      exact ⟨_, t, [], (List.append_nil t).symm, mirrored, ids, .rest _⟩
    | shutdown => exact based_idle (inFlight_takeOver _)
    | settle =>
      cases m.inFlight.bind Operation.ending? with
      | none => exact h
      | some ending => cases ending <;> exact based_idle (inFlight_takeOver _)

end Based

/-- What resuming makes of a manager: nothing, or no operation is in flight any more, or the next one is scheduled. -/
inductive Resumed (m : Manager) : Manager → Prop
  | still : Resumed m m
  | stopped {m' : Manager} (free : m'.inFlight = none) (menu : m'.current = m.currentMenu ∨ m'.current = m.current)
      (length : m'.operations.length = m.operations.length) : Resumed m m'
  | scheduled {m' : Manager} (job : Job) (flight : m'.inFlight = some (.schedule job m'.current m'.ids))
      (menu : m'.current = m.currentMenu) : Resumed m m'

theorem resumed (m : Manager) : m.Resumed m.resume.1 := by
  rcases m.resume_cases with same | ⟨call, -, idle, same⟩
  · rw [same]
    exact .still
  · have taken : m.Resumed ({ m with waiting := none } : Manager).takeOver :=
      .stopped (inFlight_takeOver _) (.inl rfl) (congrArg List.length (operations_takeOver { m with waiting := none }))
    rw [same]
    cases call with
    | update target notifies => exact .scheduled _ rfl rfl
    | shutdown => exact taken
    | settle =>
      cases ended : m.inFlight.bind Operation.ending? with
      | none =>
        refine .stopped ?_ (.inr rfl) rfl
        refine Option.eq_none_iff_forall_ne_some.mpr fun op flight => ?_
        have flight : m.inFlight = some op := flight
        have finished := idle op flight
        rw [flight, Option.bind_some] at ended
        rw [ended] at finished
        cases finished
      | some ending =>
        cases ending with
        | crashed =>
          refine .stopped (inFlight_takeOver _) (.inr ?_) (congrArg List.length (operations_retire { m with waiting := none }))
          change ({ m with waiting := none } : Manager).retire.current = m.current
          unfold retire
          split <;> rfl
        | _ => exact taken

theorem currentMenu_of_free (free : m.inFlight = none) : m.currentMenu = m.current := by rw [currentMenu, free]

namespace Resumed

theorem currentMenu (h : m.Resumed m') : m'.currentMenu = m.currentMenu ∨ m'.currentMenu = m.current := by
  cases h with
  | still => exact .inl rfl
  | stopped free menu =>
    rw [currentMenu_of_free free]
    exact menu
  | scheduled job flight menu =>
    left
    rw [Manager.currentMenu, flight, ← menu]
    rfl

theorem current (h : m.Resumed m') : m'.current = m.current ∨ m'.current = m'.currentMenu := by
  cases h with
  | still => exact .inl rfl
  | stopped free menu => exact .inr (currentMenu_of_free free).symm
  | scheduled job flight menu =>
    right
    rw [Manager.currentMenu, flight]
    rfl

end Resumed

end Manager

/-! ### Ids that come into the menu -/

namespace History

variable {w : Scope} {h : History}

def menuAfter (h : History) (events : List Event) : Menu := (h.run events).manager.currentMenu

/-- Whether an id comes into the menu with the last of some events, for the first time. -/
structure Enters (h : History) (events : List Event) (id : RemoteId) : Prop where
  there : id ∈ (h.menuAfter events).ids
  first : ∀ earlier, earlier <+: events → earlier ≠ events → id ∉ (h.menuAfter earlier).ids

def Seen (h : History) (events : List Event) (id : RemoteId) : Prop :=
  ∃ earlier, earlier <+: events ∧ id ∈ (h.menuAfter earlier).ids

theorem Seen.concat {events : List Event} {id : RemoteId} (seen : h.Seen events id) (e : Event) :
    h.Seen (events ++ [e]) id := by
  obtain ⟨earlier, front, there⟩ := seen
  exact ⟨earlier, front.trans (List.prefix_append ..), there⟩

theorem Enters.new {events : List Event} {e : Event} {id : RemoteId} (enters : h.Enters (events ++ [e]) id) :
    ¬ h.Seen events id := by
  rintro ⟨earlier, front, there⟩
  refine enters.first earlier (front.trans (List.prefix_append ..)) ?_ there
  rintro rfl
  exact absurd front.length_le (by simp)

theorem Seen.exists_enters {events : List Event} {id : RemoteId} (seen : h.Seen events id) :
    ∃ before, before <+: events ∧ h.Enters before id := by
  induction events using List.reverseRecOn with
  | nil =>
    obtain ⟨earlier, front, there⟩ := seen
    obtain rfl := List.prefix_nil.mp front
    exact ⟨[], front, there, fun earlier front other => absurd (List.prefix_nil.mp front) other⟩
  | append_singleton events e ih =>
    by_cases old : h.Seen events id
    · obtain ⟨before, front, enters⟩ := ih old
      exact ⟨before, front.trans (List.prefix_append ..), enters⟩
    · obtain ⟨earlier, front, there⟩ := seen
      have here : earlier = events ++ [e] :=
        (List.prefix_concat_iff.mp front).resolve_right fun front => old ⟨earlier, front, there⟩
      refine ⟨_, List.prefix_refl _, here ▸ there, fun earlier front other there => old ?_⟩
      exact ⟨earlier, (List.prefix_concat_iff.mp front).resolve_left other, there⟩

theorem labels_subset_step (h : History) (e : Event) : h.exchanges.labels ⊆ (h.step e).exchanges.labels := by
  obtain ⟨t, added⟩ := h.trace_step e
  have more : (h.step e).exchanges = h.exchanges ++ t := by
    rw [exchanges, added, List.map_append, List.map_map]
    exact congrArg (h.exchanges ++ ·) (List.map_id t)
  rw [more, Trace.labels_append]
  exact List.subset_append_left ..

theorem labels_subset_run (h : History) (events : List Event) : h.exchanges.labels ⊆ (h.run events).exchanges.labels := by
  induction events generalizing h with
  | nil => exact List.Subset.refl _
  | cons e events ih => exact List.Subset.trans (h.labels_subset_step e) (ih _)

/-- Whether the latest operation was scheduled with the last of some of the events, and has not done anything yet
by then. -/
structure Starts (h : History) (start events : List Event) : Prop where
  front : start <+: events
  scheduled : ∃ job, (h.run start).manager.inFlight =
    some (.schedule job (h.run start).manager.current (h.run start).manager.ids)
  latest : (h.run events).manager.operations.length = (h.run start).manager.operations.length

/-- A manager in the middle of an event: the operation in flight has gone on, and no call was completed yet. -/
structure Midway (w : Scope) (h : History) (t : Trace) (m : Manager) : Prop where
  based : m.Based w t
  current : m.current = h.manager.current
  free : m.inFlight = none ↔ h.manager.inFlight = none
  length : m.operations.length = h.manager.operations.length

theorem step_midway (based : h.manager.Based w h.exchanges) (tracked : h.Tracked w) {e : Event} (alive : e ≠ .crash)
    (known : ∀ target, e.target? = some target → ∀ f ∈ target.faces, f ∈ w.faces)
    (bound : (h.step e).exchanges.drawn < legalIds) : (h.step e).manager.Based w (h.step e).exchanges ∧
      ∃ m, Midway w h (h.step e).exchanges m ∧ m.Resumed (h.step e).manager := by
  have canceled (number : Nat) : Midway w h h.exchanges (h.manager.cancel number).2 := by
    refine ⟨based.cancel number, ?_, ?_, h.manager.length_cancel number⟩
    all_goals
      obtain ⟨past, move, same, -⟩ := h.manager.cancel_spec number
      rw [same]
    exact Option.map_eq_none_iff
  rcases h.step_cases alive with same | ⟨number, same⟩ | ⟨m, move, course, readies, moves, same⟩
  · rw [same]
    exact ⟨based, h.manager, ⟨based, rfl, Iff.rfl, rfl⟩, .still⟩
  · rw [same, exchanges_next, List.append_nil]
    exact ⟨based.cancel number, _, canceled number, .still⟩
  · have before : Midway w h h.exchanges m :=
      readies.keeps ⟨based, rfl, Iff.rfl, rfl⟩ (canceled _) fun _ _ _ ⟨based, current, free, length⟩ =>
        ⟨based, current, free, length⟩
    rw [same, exchanges_next] at bound
    rw [same, exchanges_next]
    have moved := before.based.moved moves
    obtain ⟨tracked', -⟩ := (tracked.manager.readies readies known).moved moves bound
    refine ⟨moved.resume tracked', _, ⟨moved, before.current, ?_, ?_⟩, resumed _⟩
    · exact Option.map_eq_none_iff.trans before.free
    · exact (m.length_moved move).trans before.length

/-- What is known of the labels since the latest operation was scheduled: what was not in the menu by then was sent
as it is displayed. -/
structure Latest (h : History) (start events : List Event) : Prop where
  starts : h.Starts start events
  current : (h.run events).manager.inFlight ≠ none → (h.run events).manager.current = h.menuAfter start
  labelled : ∀ n ∈ (h.menuAfter events).walk, n.remoteId ∈ (h.menuAfter start).ids ∨
    n.label ∈ (h.run events).exchanges.labels

/-- What is known between events of the ids and the labels of the menu. -/
structure Chronicle (w : Scope) (h : History) (events : List Event) : Prop where
  based : (h.run events).manager.Based w (h.run events).exchanges
  seen : ∀ id ∈ (h.run events).manager.current.ids, h.Seen events id
  /-- An id comes into the menu with a node that was sent under the title that it is displayed with by then. -/
  entered : ∀ n ∈ (h.menuAfter events).walk, h.Enters events n.remoteId → n.label ∈ (h.run events).exchanges.labels
  latest : ((h.run events).manager.inFlight = none ∧ (h.run events).manager.current = []) ∨
    ∃ start, h.Latest start events

namespace Chronicle

variable {events : List Event} {e : Event} {m : Manager} (midway : Midway w (h.run events) (h.run (events ++ [e])).exchanges m)
  (resumed : m.Resumed (h.run (events ++ [e])).manager)

include midway resumed

theorem seen_next (c : Chronicle w h events) :
    ∀ id ∈ (h.run (events ++ [e])).manager.current.ids, h.Seen (events ++ [e]) id := by
  intro id member
  rcases resumed.current with same | same
  · rw [same, midway.current] at member
    exact (c.seen id member).concat e
  · rw [same] at member
    exact ⟨_, List.prefix_refl _, member⟩

theorem entered_next (c : Chronicle w h events) (bound : (h.run (events ++ [e])).exchanges.drawn < legalIds) :
    ∀ n ∈ (h.menuAfter (events ++ [e])).walk, h.Enters (events ++ [e]) n.remoteId →
      n.label ∈ (h.run (events ++ [e])).exchanges.labels := by
  intro n hn enters
  -- The menu that the operation in flight was scheduled with was the menu before.
  have new : n.remoteId ∉ m.current.ids := fun old => enters.new (c.seen _ (midway.current ▸ old))
  rw [menuAfter] at hn
  rcases resumed.currentMenu with same | same
  · exact (midway.based.labelled bound n (same ▸ hn)).resolve_left new
  · exact absurd (List.mem_map_of_mem (same ▸ hn)) new

/-- As long as no other operation is scheduled, only the one in flight brings anything into the menu. -/
theorem labelled_next {start : List Event} (latest : h.Latest start events)
    (bound : (h.run (events ++ [e])).exchanges.drawn < legalIds)
    (more : (h.run events).exchanges.labels ⊆ (h.run (events ++ [e])).exchanges.labels) :
    ∀ n ∈ (h.menuAfter (events ++ [e])).walk, n.remoteId ∈ (h.menuAfter start).ids ∨
      n.label ∈ (h.run (events ++ [e])).exchanges.labels := by
  intro n hn
  have among : n ∈ m.currentMenu.walk ∨ n ∈ m.current.walk := by
    rw [menuAfter] at hn
    rcases resumed.currentMenu with same | same
    · exact .inl (same ▸ hn)
    · exact .inr (same ▸ hn)
  -- While it is in flight, `current` is the menu that it was scheduled with, and then what it has left.
  by_cases free : (h.run events).manager.inFlight = none
  · have still : h.menuAfter events = m.current := (currentMenu_of_free free).trans midway.current.symm
    rw [currentMenu_of_free (midway.free.mpr free), or_self, ← still] at among
    exact (latest.labelled n among).imp id (more ·)
  · have base : m.current = h.menuAfter start := midway.current.trans (latest.current free)
    rw [← base]
    exact among.elim (midway.based.labelled bound n) fun old => .inl (List.mem_map_of_mem old)

theorem latest_next (c : Chronicle w h events) (bound : (h.run (events ++ [e])).exchanges.drawn < legalIds)
    (more : (h.run events).exchanges.labels ⊆ (h.run (events ++ [e])).exchanges.labels) :
    ((h.run (events ++ [e])).manager.inFlight = none ∧ (h.run (events ++ [e])).manager.current = []) ∨
      ∃ start, h.Latest start (events ++ [e]) := by
  have going {start : List Event} (latest : h.Latest start events)
      (length : (h.run (events ++ [e])).manager.operations.length = m.operations.length)
      (current : (h.run (events ++ [e])).manager.inFlight ≠ none →
        (h.run (events ++ [e])).manager.current = h.menuAfter start) : h.Latest start (events ++ [e]) := by
    obtain ⟨front, scheduled, same⟩ := latest.starts
    exact ⟨⟨front.trans (List.prefix_append ..), scheduled, length.trans (midway.length.trans same)⟩, current,
      labelled_next midway resumed latest bound more⟩
  -- Stated of any manager, for the cases of `Resumed` need a variable.
  have reached {m' : Manager} (next : m.Resumed m') (same : (h.run (events ++ [e])).manager = m') :
      (m'.inFlight = none ∧ m'.current = []) ∨ ∃ start, h.Latest start (events ++ [e]) := by
    cases next with
    | still =>
      rcases c.latest with ⟨free, empty⟩ | ⟨start, latest⟩
      · exact .inl ⟨midway.free.mpr free, midway.current.trans empty⟩
      · refine .inr ⟨start, going latest (congrArg (·.operations.length) same) fun busy => ?_⟩
        rw [same] at busy ⊢
        exact midway.current.trans (latest.current (mt midway.free.mpr busy))
    | stopped free menu length =>
      rcases c.latest with ⟨before, empty⟩ | ⟨start, latest⟩
      · have nothing : m.current = [] := midway.current.trans empty
        rw [currentMenu_of_free (midway.free.mpr before), nothing, or_self] at menu
        exact .inl ⟨free, menu⟩
      · refine .inr ⟨start, going latest (same ▸ length) fun busy => ?_⟩
        exact absurd free (same ▸ busy)
    | scheduled job flight menu =>
      have here : (h.run (events ++ [e])).manager.current = h.menuAfter (events ++ [e]) := by
        rw [menuAfter, currentMenu, same, flight]
        rfl
      refine .inr ⟨_, ⟨List.prefix_refl _, ⟨job, same ▸ flight⟩, rfl⟩, fun _ => here, fun n hn => ?_⟩
      exact .inl (List.mem_map_of_mem hn)
  exact reached resumed rfl

end Chronicle

/-- A history that begins with no operation and no menu. -/
theorem chronicle (sound : h.Sound w) (free : h.manager.inFlight = none) (empty : h.manager.current = [])
    (distinguished : Collisionless w.faces) {events : List Event} (alive : Event.crash ∉ events)
    (known : ∀ target ∈ events.filterMap Event.target?, ∀ f ∈ target.faces, f ∈ w.faces)
    (bound : (h.run events).exchanges.drawn < legalIds) : Chronicle w h events := by
  induction events using List.reverseRecOn with
  | nil =>
    have nothing : h.menuAfter [] = [] := by rw [menuAfter, run_nil, currentMenu, free, empty]
    refine ⟨based_idle free, ?_, ?_, .inl ⟨free, empty⟩⟩
    · rw [run_nil, empty]
      exact fun id member => absurd member List.not_mem_nil
    · rw [nothing]
      exact fun n member => absurd member List.not_mem_nil
  | append_singleton events e ih =>
    rw [List.filterMap_append, List.forall_mem_append] at known
    rw [List.mem_append, not_or, List.mem_singleton] at alive
    have next : h.run (events ++ [e]) = (h.run events).step e := h.run_append events [e]
    have before : (h.run events).exchanges.drawn < legalIds :=
      Nat.lt_of_le_of_lt ((h.run events).drawn_le_step e) (next ▸ bound)
    have own : ∀ target, e.target? = some target → ∀ f ∈ target.faces, f ∈ w.faces := fun target brings =>
      known.2 target (List.mem_filterMap.mpr ⟨e, List.mem_singleton_self e, brings⟩)
    have c := ih alive.1 known.1 before
    obtain ⟨sound', -, -⟩ := sound.run distinguished alive.1 known.1 before
    obtain ⟨based, m, midway, resumed⟩ := step_midway c.based sound'.tracked (Ne.symm alive.2) own (next ▸ bound)
    have more := (h.run events).labels_subset_step e
    rw [← next] at based midway resumed more
    exact ⟨based, c.seen_next midway resumed, c.entered_next midway resumed bound,
      c.latest_next midway resumed bound more⟩

end History

/-! ### Labels of ids -/

namespace History

theorem addedIds_trace (trace : List (Nat × Exchange)) : addedIds (trace.filterMap fun p =>
    p.2.request?.map fun request => (p.1, request)) = Trace.addedIds (trace.map Prod.snd) := by
  induction trace with
  | nil => rfl
  | cons p trace ih =>
    obtain ⟨number, inquiry, reply⟩ := p
    cases inquiry with
    | world request =>
      cases request with
      | send batch => exact congrArg (Command.addedIds batch ++ ·) ih
      | _ => exact ih
    | _ => exact ih

variable {settings : Settings} {uploads : Bool} {ids : IdSupply} {events : List Event}

/-- No two entries were sent with the same id. -/
theorem labels_once (alive : Event.crash ∉ events)
    (bound : ((fresh settings uploads ids).run events).exchanges.drawn ≤ legalIds) :
    (((fresh settings uploads ids).run events).exchanges.labels.map Prod.fst).Nodup := by
  obtain ⟨-, early⟩ := (unique_fresh settings uploads ids).run bound
  have sent := early.distinct
  rw [List.nil_append, requests_of_alive _ alive, addedIds_append, addedIds_trace] at sent
  rw [Trace.map_fst_labels]
  exact (List.nodup_append.mp sent).1

/-- With no operation going on, the label that the host was last sent for an id of the menu is the title that its
node is displayed with, if the id was not there yet when the latest operation was scheduled. In any case it is the
title that the node was displayed with when the id came into the menu: the title that it has still, with a number. -/
theorem label_as_entered (alive : Event.crash ∉ events) (distinguished : Collisionless (facesOf events))
    (short : ∀ f ∈ facesOf events, f.entry.Short)
    (bound : ((fresh settings uploads ids).run events).exchanges.drawn < legalIds)
    (idle : ∀ op, ((fresh settings uploads ids).run events).manager.inFlight = some op → op.ending?.isSome = true) :
    let first := fresh settings uploads ids
    let label := (first.run events).exchanges.label?
    ∀ n ∈ (first.run events).manager.currentMenu.walk,
      (∃ start, first.Starts start events ∧
        (n.remoteId ∉ (first.menuAfter start).ids → label n.remoteId = some n.displayTitle)) ∧
      ∃ before n₀, before <+: events ∧ first.Enters before n.remoteId ∧ n₀ ∈ (first.menuAfter before).walk ∧
        n₀.remoteId = n.remoteId ∧ label n.remoteId = some n₀.displayTitle ∧
        ∃ number, n₀.displayTitle = Node.displayTitle { n with disambiguator := number } := by
  intro first label n hn
  have seen : first.Seen events n.remoteId := ⟨events, List.prefix_refl events, List.mem_map_of_mem hn⟩
  obtain ⟨before, ⟨after, rfl⟩, enters⟩ := seen.exists_enters
  obtain ⟨n₀, hn₀, own⟩ := List.mem_map.mp enters.there
  let w : Scope := ⟨settings.defaultLayout, facesOf (before ++ after), ids⟩
  have sound : first.Sound w := sound_fresh uploads rfl rfl
  have known := mem_facesOf (before ++ after)
  have all : Chronicle w first (before ++ after) := chronicle sound rfl rfl distinguished alive known bound
  have mirrored := (tracked alive distinguished bound).manager.currentMenu idle
  have once := labels_once alive (Nat.le_of_lt bound)
  refine ⟨?_, ?_⟩
  · rcases all.latest with ⟨free, empty⟩ | ⟨start, latest⟩
    · have none : (first.run (before ++ after)).manager.currentMenu = [] := (currentMenu_of_free free).trans empty
      rw [none] at hn
      cases hn
    · refine ⟨start, latest.starts, fun new => ?_⟩
      exact Trace.label?_of_mem once ((latest.labelled n hn).resolve_left new)
  · -- What was sent by the time that the id came in is sent for good, and nothing else is sent for that id.
    have entered : n₀.label ∈ (first.run (before ++ after)).exchanges.labels := by
      rw [List.mem_append, not_or] at alive
      rw [List.filterMap_append, List.forall_mem_append] at known
      rw [run_append] at bound ⊢
      have earlier : Chronicle w first before := chronicle sound rfl rfl distinguished alive.1 known.1
        (Nat.lt_of_le_of_lt (drawn_le_run _ after) bound)
      exact labels_subset_run _ after (earlier.entered n₀ hn₀ (own ▸ enters))
    obtain ⟨number, numbered⟩ := mirrored.exists_label short hn
    have displayed : label n.remoteId = some n₀.displayTitle := own ▸ Trace.label?_of_mem once entered
    have again : label n.remoteId = _ := Trace.label?_of_mem once numbered
    exact ⟨before, n₀, List.prefix_append .., enters, hn₀, own, displayed, number,
      Option.some.inj (displayed.symm.trans again)⟩

end History

/-! ### Two entries with one title -/

def chapter (text : String) : Node := { entry := { title := "Chapter", secondaryText := some text } }

/-- A first update with two entries of one title, and a second one that keeps the second entry only. The host
takes both whole. -/
def renumbered : List Event :=
  [.call (.update [chapter "Dawn", chapter "Dusk"] false), .wake] ++ List.replicate 3 (.answer (.taking true)) ++
    [.call .settle, .call (.update [chapter "Dusk"] false), .wake] ++ List.replicate 3 (.answer (.taking true)) ++
    [.call .settle]

theorem alive_renumbered : Event.crash ∉ renumbered := by simp [renumbered]

theorem collisionless_renumbered : Collisionless (facesOf renumbered) :=
  collisionless_of_pairwise (by decide +kernel)

theorem short_renumbered : ∀ f ∈ facesOf renumbered, f.entry.Short := by
  change ∀ f ∈ (renumbered.filterMap Event.target?).flatMap Menu.faces, f.entry.Short
  decide +kernel

namespace History

theorem ended_renumbered :
    let later := (fresh { disambiguateTitles := true } false default).run renumbered
    later.exchanges.drawn < legalIds ∧ later.manager.inFlight.isNone = true ∧
      later.exchanges.batches.all (·.2) = true ∧ later.manager.currentMenu.map Node.label = [(⟨2⟩, "Chapter")] ∧
      later.exchanges.label? ⟨2⟩ = some "Chapter (2)" := by
  decide +kernel

theorem label_as_entered_renumbered :
    let first := fresh { disambiguateTitles := true } false default
    let label := (first.run renumbered).exchanges.label?
    label ⟨2⟩ = some "Chapter (2)" ∧ (first.run renumbered).manager.currentMenu.map Node.label = [(⟨2⟩, "Chapter")] ∧
    ∀ n ∈ (first.run renumbered).manager.currentMenu.walk,
      (∃ start, first.Starts start renumbered ∧
        (n.remoteId ∉ (first.menuAfter start).ids → label n.remoteId = some n.displayTitle)) ∧
      ∃ before n₀, before <+: renumbered ∧ first.Enters before n.remoteId ∧ n₀ ∈ (first.menuAfter before).walk ∧
        n₀.remoteId = n.remoteId ∧ label n.remoteId = some n₀.displayTitle ∧
        ∃ number, n₀.displayTitle = Node.displayTitle { n with disambiguator := number } := by
  obtain ⟨bound, free, -, menu, label⟩ := ended_renumbered
  have free := Option.isNone_iff_eq_none.mp free
  refine ⟨label, menu, label_as_entered alive_renumbered collisionless_renumbered short_renumbered bound ?_⟩
  rw [free]
  nofun

/-- A kept entry that is the only one of its title by now has the label still that told it apart. -/
theorem label_behind :
    ¬ ∀ (settings : Settings) (uploads : Bool) (ids : IdSupply) (events : List Event),
      settings.disambiguateTitles = true → Event.crash ∉ events → Collisionless (facesOf events) →
      (∀ f ∈ facesOf events, f.entry.Short) → ((fresh settings uploads ids).run events).exchanges.drawn < legalIds →
      (∀ b ∈ ((fresh settings uploads ids).run events).exchanges.batches, b.2 = true) →
      (∀ op, ((fresh settings uploads ids).run events).manager.inFlight = some op → op.ending?.isSome = true) →
        ∀ n ∈ ((fresh settings uploads ids).run events).manager.currentMenu.walk,
          ((fresh settings uploads ids).run events).exchanges.label? n.remoteId = some n.displayTitle := by
  intro always
  obtain ⟨bound, free, accepted, menu, label⟩ := ended_renumbered
  have free := Option.isNone_iff_eq_none.mp free
  obtain ⟨n, hn, own⟩ := List.mem_map.mp (menu ▸ List.mem_singleton_self ((⟨2⟩, "Chapter") : RemoteId × String))
  have same := always { disambiguateTitles := true } false default renumbered rfl alive_renumbered
    collisionless_renumbered short_renumbered bound (List.all_eq_true.mp accepted) (by rw [free]; nofun) n
    (mem_walk_of_mem hn n.mem_walk_self)
  have id : n.remoteId = ⟨2⟩ := congrArg Prod.fst own
  have title : n.displayTitle = "Chapter" := congrArg Prod.snd own
  rw [id, title, label] at same
  exact absurd (Option.some.inj same) (by decide)

end History

end RemoteMenu
