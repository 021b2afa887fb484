import RemoteMenu.Proofs.Host.Presenting
import RemoteMenu.Proofs.Manager.HostMirror
import RemoteMenu.Proofs.Manager.Progress

/-!
# The next update heals

Whatever an earlier update has left half done, a new one that nobody asks to stop brings the host in line
with its target if the host accepts all of its batches (`History.next_update_heals`). What a host entry was
told by the addition that made it, perhaps many updates ago, is what the target says of it now: a node is
kept only if all of that is the same.
-/

namespace RemoteMenu

open HostTree Manager

theorem Tells.of_named {layout : Layout} {parent : Option RemoteId} {order : HostTree} {menu : Menu}
    {settings : Settings} (h : Tells layout parent order (settings.named menu)) :
    Tells layout parent order menu := by
  unfold Settings.named at h
  split at h
  · exact h.of_disambiguateAfter rfl
  · exact h

theorem Mirrored.presents {w : Scope} {t : Trace} {menu : Menu} (h : Mirrored w t (menu.places none))
    (short : ∀ f ∈ w.faces, f.entry.Short) {settings : Settings} {target : Menu}
    (same : menu.bare = (settings.named target).bare) : (replay t.batches).Presents w.layout target := by
  have ids := h.host.outline_perm.map Prod.fst
  rw [List.map_map, List.map_map] at ids
  obtain ⟨order, orders, shows⟩ := h.host
  have tells := menu.tells short none shows h.known
  exact ⟨ids.nodup_iff.mpr h.distinct, order, orders, (tells.congr same).of_named⟩

namespace History

variable {w : Scope} {h : History}

/-! ### The update that heals -/

/-- An operation that has served a target, with all batches accepted, leaves just the target. -/
theorem Sound.heals {number : Nat} {target : Menu} {op : Operation} {ending : Operation.Ending}
    (sound : h.Sound w) (distinguished : Collisionless w.faces) (known : ∀ f ∈ target.faces, f ∈ w.faces)
    (serves : h.Serves w number target op) (ends : h.manager.Ends number op ending)
    (bound : h.exchanges.drawn < legalIds) (accepted : ∀ b ∈ (h.exchangesOf number).batches, b.2 = true) :
    ∃ report, ending = .returned (.finished report) ∧ report.success = true ∧
      h.manager.currentMenu.bare = target.bare := by
  obtain ⟨job, current, earlier, rfl, layout, mirrored, moves, drawn⟩ := serves
  have apart := mirrored.apart (Nat.lt_of_le_of_lt drawn bound)
  obtain ⟨report, rfl, reports⟩ := moves.finishes ends.calm ends.ended mirrored.nodup_ids apart
  have success : report.success = true := by
    rw [reports.success]
    exact List.all_eq_true.mpr accepted
  have old : ∀ n ∈ current.walk, n.face ∈ w.faces := by
    intro n hn
    have face : n.face ∈ (current.places none).map (·.face) := by
      rw [Menu.map_face_places]
      exact List.mem_map_of_mem hn
    obtain ⟨x, hx, same⟩ := List.mem_map.mp face
    exact same ▸ mirrored.known x hx
  obtain ⟨-, bare⟩ := reports.faithful distinguished old fun n hn => known _ (List.mem_map_of_mem hn)
  refine ⟨report, rfl, success, ?_⟩
  rw [sound.remembers.currentMenu ends.latest ends.there, reports.committed]
  exact bare success

/-- With its latest operation at an end, a history has its menu on the host. -/
theorem Sound.mirrored {number : Nat} {op : Operation} {ending : Operation.Ending} (sound : h.Sound w)
    (ends : h.manager.Ends number op ending) :
    Mirrored w h.exchanges (h.manager.currentMenu.places none) := by
  refine sound.tracked.manager.currentMenu fun op' flight => ?_
  rcases operation_cases ends.there with ⟨inside, -⟩ | ⟨-, flight'⟩
  · have latest := ends.latest
    rw [operations, flight, List.length_append, Option.toList_some, List.length_singleton] at latest
    omega
  · obtain rfl := Option.some.inj (flight.symm.trans flight')
    rw [ends.ended]
    rfl

/-- What a new target does that is not refused: it is pledged to the next operation, and that ends unless
it is asked to stop. -/
theorem Sound.update {target : Menu} {notifies : Bool} (sound : h.Sound w)
    (opened : h.manager.closed = false) (free : h.manager.waiting = none)
    (known : ∀ f ∈ target.faces, f ∈ w.faces)
    (bound : (h.step (.call (.update target notifies))).exchanges.drawn < legalIds) :
    (h.step (.call (.update target notifies))).Pledged w h.manager.operations.length
        (h.manager.settings.named target) ∧
      ∀ world, ∃ n op ending, ((h.step (.call (.update target notifies))).play world n).manager.Ends
        h.manager.operations.length op ending := by
  let m : Manager := { (h.manager.cancel h.manager.past.length).2 with
    closed := false, waiting := some (.update (h.manager.settings.named target) notifies) }
  let m' : Manager := { m with inFlight := m.inFlight.map Operation.wake }
  obtain ⟨trace, call⟩ := Manager.call_update opened target notifies
  have same : h.step (.call (.update target notifies)) =
      h.next m'.resume.1 (m.courseTrace Operation.wakeTrace) := by
    rw [History.step, if_neg (by simp [free]), call, trace]
    rfl
  have tracked : m.Tracked w h.exchanges := by
    refine (sound.tracked.manager.cancel _).wait false fun target' notifies' own n hn => ?_
    obtain ⟨rfl, rfl⟩ := Call.update.inj own
    refine known n.face ?_
    rw [← h.manager.settings.faces_named]
    exact List.mem_map_of_mem hn
  have length : m.operations.length = h.manager.operations.length := h.manager.length_cancel _
  rw [same, exchanges_next] at bound
  rw [same, ← length]
  refine ⟨pledged_of_course tracked sound.numbered rfl (h.manager.past_cancel _) length
    Operation.wake_moves bound, fun world => ?_⟩
  obtain ⟨moved, -⟩ := tracked.moved Operation.wake_moves bound
  rw [← m.length_moved Operation.wake]
  rcases m'.resume_cases with still | ⟨_, -, idle, -⟩
  · rw [still]
    refine exists_ends rfl (fun op flight => ?_) world
    obtain ⟨d, live, -⟩ := (moved.running op flight).keeps
    exact ⟨d, live⟩
  · obtain ⟨job, current, ids, free', flight, length'⟩ := resume_serves (m := m') rfl idle
    exact ends_of_scheduled free' flight length' world

variable {settings : Settings} {uploads : Bool} {ids : IdSupply} {events before rest : List Event}
  {target : Menu} {notifies : Bool}

/-- After any history whose manager was not shut down, a new target is worked with until an operation for it
ends, unless that is asked to stop. If the host has accepted all batches of this operation by then, it has
finished with success, and the host presents the target. -/
theorem next_update_heals (split : events = before ++ .call (.update target notifies) :: rest)
    (alive : Event.crash ∉ events) (distinguished : Collisionless (facesOf events))
    (short : ∀ f ∈ facesOf events, f.entry.Short)
    (bound : ((fresh settings uploads ids).run events).exchanges.drawn < legalIds)
    (opened : ((fresh settings uploads ids).run before).manager.closed = false)
    (free : ((fresh settings uploads ids).run before).manager.waiting = none) :
    let earlier := (fresh settings uploads ids).run before
    let number := earlier.manager.operations.length
    let later := (fresh settings uploads ids).run events
    (∀ world, ∃ n op ending,
      ((earlier.step (.call (.update target notifies))).play world n).manager.Ends number op ending) ∧
    ∀ op ending, later.manager.Ends number op ending →
      (∀ b ∈ (later.exchangesOf number).batches, b.2 = true) →
      (∃ report, ending = .returned (.finished report) ∧ report.success = true) ∧
        later.host.Presents settings.defaultLayout target := by
  intro earlier number later
  let w : Scope := ⟨settings.defaultLayout, facesOf events, ids⟩
  have known : ∀ target ∈ events.filterMap Event.target?, ∀ f ∈ target.faces, f ∈ w.faces :=
    mem_facesOf events
  have goes : later = (earlier.step (.call (.update target notifies))).run rest := by
    rw [← run_cons, ← run_append, ← split]
  have bound : later.exchanges.drawn < legalIds := bound
  have brings : (Event.call (.update target notifies)).target? = some target := rfl
  rw [split, List.filterMap_append, List.filterMap_cons_some brings] at known
  obtain ⟨first, others⟩ := List.forall_mem_append.mp known
  obtain ⟨own, last⟩ := List.forall_mem_cons.mp others
  rw [split, List.mem_append, not_or, List.mem_cons, not_or] at alive
  obtain ⟨alive, called, further⟩ := alive
  rw [goes] at bound
  have asked := Nat.lt_of_le_of_lt (drawn_le_run _ rest) bound
  have quiet := Nat.lt_of_le_of_lt (drawn_le_step earlier _) asked
  obtain ⟨sound, settings', -⟩ := (sound_fresh (w := w) uploads rfl rfl).run distinguished alive first quiet
  have named : earlier.manager.settings = settings := settings'
  obtain ⟨pledged, ends⟩ := sound.update opened free own asked
  refine ⟨ends, ?_⟩
  intro op ending ended accepted
  have here : ∀ target', (Event.call (.update target notifies)).target? = some target' →
      ∀ f ∈ target'.faces, f ∈ w.faces := by
    intro target' same
    obtain rfl := Option.some.inj same
    exact own
  obtain ⟨sound, -, pledges⟩ := (sound.step distinguished (Ne.symm called) here asked).run distinguished
    further last bound
  rw [← goes] at sound pledges bound
  cases pledges _ _ pledged with
  | waits call next =>
    -- A target that still waits has no operation yet.
    exact absurd (next.symm.trans ended.latest) (Nat.ne_of_lt (Nat.lt_succ_self _))
  | served there serves =>
    obtain rfl := Option.some.inj (there.symm.trans ended.there)
    have known : ∀ f ∈ (earlier.manager.settings.named target).faces, f ∈ w.faces := by
      rw [Settings.faces_named]
      exact own
    obtain ⟨report, finished, success, bare⟩ := sound.heals distinguished known serves ended bound accepted
    exact ⟨⟨report, finished, success⟩, (sound.mirrored ended).presents short (named ▸ bare)⟩

def thirdUpdate : List Event :=
  .call (.update (shelf "Stop") false) :: List.replicate 4 (.answer (.taking true))

theorem next_update_heals_shelf :
    ((fresh {} false default).run (twoUpdates ++ thirdUpdate)).host.Presents .list (shelf "Stop") := by
  have short : ∀ f ∈ facesOf (twoUpdates ++ thirdUpdate), f.entry.Short := by
    change ∀ f ∈ ((twoUpdates ++ thirdUpdate).filterMap Event.target?).flatMap Menu.faces, f.entry.Short
    decide +kernel
  let before := (fresh {} false default).run twoUpdates
  let later := (fresh {} false default).run (twoUpdates ++ thirdUpdate)
  obtain ⟨opened, free, number, bound, all, accepted, ended⟩ : before.manager.closed = false ∧
      before.manager.waiting.isNone = true ∧ before.manager.operations.length = 2 ∧
      later.exchanges.drawn < legalIds ∧ later.manager.operations.length = 3 ∧
      (later.exchangesOf 2).batches.all (·.2) = true ∧ (later.manager.operations[2]?.any fun op =>
        op.ending?.isSome && !op.lifecycle.cancelRequested) = true := by decide +kernel
  obtain ⟨op, there, both⟩ := (Option.any_eq_true _ _).mp ended
  obtain ⟨ends, calm⟩ := Bool.and_eq_true_iff.mp both
  obtain ⟨ending, ends⟩ := Option.isSome_iff_exists.mp ends
  have calm : op.lifecycle.cancelRequested = false := by simpa using calm
  obtain ⟨-, heals⟩ := @next_update_heals {} false default _ twoUpdates _ _ _ rfl (by simp [twoUpdates])
    (collisionless_of_pairwise (by decide +kernel)) short bound opened (Option.isNone_iff_eq_none.mp free)
  rw [number] at heals
  exact (heals op ending ⟨all, there, ends, calm⟩ (List.all_eq_true.mp accepted)).2

end History

end RemoteMenu
