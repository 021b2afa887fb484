import Mathlib.Data.Nat.Find
import RemoteMenu.Proofs.Manager.Operations

/-!
# Progress

If nothing happens to a history but that the world answers, the operation in flight ends, the target that
waits for its end is served, and the operation that serves it ends as well (`History.exists_ends`).
-/

namespace RemoteMenu

open Manager

namespace Manager

variable {m : Manager}

/-- Whether the latest operation has a number, has ended, and was not asked to stop in time. -/
structure Ends (m : Manager) (number : Nat) (op : Operation) (ending : Operation.Ending) : Prop where
  latest : m.operations.length = number + 1
  there : m.operations[number]? = some op
  ended : op.ending? = some ending
  calm : op.lifecycle.cancelRequested = false

theorem resume_of_free (free : m.waiting = none) : m.resume.1 = m := by
  unfold resume
  rw [free]

theorem waiting_takeOver (m : Manager) : m.takeOver.waiting = m.waiting := by
  unfold takeOver retire
  split <;> rfl

theorem resume_serves {target : Menu} {notifies : Bool} (waits : m.waiting = some (.update target notifies))
    (idle : ∀ op, m.inFlight = some op → op.ending?.isSome = true) : ∃ job current ids,
      m.resume.1.waiting = none ∧ m.resume.1.inFlight = some (.schedule job current ids) ∧
      m.resume.1.operations.length = m.operations.length + 1 := by
  let m' : Manager := { m with waiting := none }
  have same : m.resume.1 = (m'.takeOver.schedule target notifies).1 := resume_of_idle waits idle
  rw [same]
  refine ⟨m'.takeOver.job target notifies, _, _, m'.waiting_takeOver, rfl, ?_⟩
  rw [operations_schedule m'.inFlight_takeOver, operations_takeOver]
  exact List.length_append

end Manager

namespace History

def play (h : History) (world : Nat → Answers) (n : Nat) : History :=
  h.run ((List.range n).map fun k => .answer (world k))

variable {h : History} {op : Operation}

theorem play_succ (h : History) (world : Nat → Answers) (n : Nat) :
    h.play world (n + 1) = (h.play world n).step (.answer (world n)) := by
  rw [play, List.range_succ, List.map_append, run_append]
  rfl

theorem play_add (h : History) (world : Nat → Answers) (a n : Nat) :
    h.play world (a + n) = (h.play world a).play (fun k => world (a + k)) n := by
  induction n with
  | zero => rfl
  | succ n ih => rw [← Nat.add_assoc, play_succ, play_succ, ih]

/-- Answers go to the operation in flight as long as it holds up the waiting call, if there is one. -/
theorem manager_play (flight : h.manager.inFlight = some op) (world : Nat → Answers) {n : Nat}
    (holds : h.manager.waiting = none ∨ ∀ k < n, (op.play world (k + 1)).1.ending? = none) :
    (h.play world n).manager = { h.manager with inFlight := some (op.play world n).1 } := by
  induction n with
  | zero =>
    rw [Operation.play, ← flight]
    rfl
  | succ n ih =>
    have before := ih (holds.imp_right fun going k hk => going k (Nat.lt_succ_of_lt hk))
    have after : (h.play world (n + 1)).manager =
        ({ h.manager with inFlight := some (op.play world (n + 1)).1 } : Manager).resume.1 := by
      rw [play_succ, step, next, answer, before]
      rfl
    rw [after]
    rcases holds with free | going
    · exact resume_of_free free
    · exact resume_of_busy rfl (going n (Nat.lt_succ_self n))

/-- The first answer with which the operation in flight has ended lets a waiting target be served. -/
theorem exists_served {target : Menu} {notifies : Bool}
    (waits : h.manager.waiting = some (.update target notifies))
    (live : ∀ op, h.manager.inFlight = some op → ∃ d, op.task = .live d) (world : Nat → Answers) :
    ∃ n job current ids, (h.play world n).manager.waiting = none ∧
      (h.play world n).manager.inFlight = some (.schedule job current ids) ∧
      (h.play world n).manager.operations.length = h.manager.operations.length + 1 := by
  cases flight : h.manager.inFlight with
  | none =>
    have still : h.manager.inFlight.map (·.answer (world 0)) = h.manager.inFlight := by rw [flight]; rfl
    have same : (h.play world 1).manager = h.manager.resume.1 := by
      change ({ h.manager with inFlight := h.manager.inFlight.map (·.answer (world 0)) } : Manager).resume.1 = _
      rw [still]
    refine ⟨1, ?_⟩
    rw [same]
    exact resume_serves waits (by simp [flight])
  | some op =>
    obtain ⟨d, running⟩ := live op flight
    have ends : ∃ n, (op.play world (n + 1)).1.ending?.isSome = true := by
      obtain ⟨n, ended⟩ := Operation.exists_ended running world
      exact ⟨n, by rwa [Operation.play_of_ended ended 1]⟩
    obtain ⟨n, ended, first⟩ : ∃ n, (op.play world (n + 1)).1.ending?.isSome = true ∧
        ∀ k < n, (op.play world (k + 1)).1.ending? = none := by
      classical
      refine ⟨Nat.find ends, Nat.find_spec ends, fun k hk => ?_⟩
      simpa using Nat.find_min ends hk
    have before := manager_play flight world (.inr first)
    have after : (h.play world (n + 1)).manager =
        ({ h.manager with inFlight := h.manager.inFlight.map fun _ => (op.play world (n + 1)).1 } :
          Manager).resume.1 := by
      rw [play_succ, step, next, answer, before, flight]
      rfl
    refine ⟨n + 1, ?_⟩
    rw [after, ← h.manager.length_moved fun _ => (op.play world (n + 1)).1]
    refine resume_serves waits fun op' flight' => ?_
    rw [flight] at flight'
    obtain rfl := Option.some.inj flight'
    exact ended

/-- A new operation ends that nobody asks to stop. -/
theorem ends_of_scheduled {number : Nat} {job : Job} {current : Menu} {ids : IdSupply}
    (free : h.manager.waiting = none) (flight : h.manager.inFlight = some (.schedule job current ids))
    (length : h.manager.operations.length = number + 1) (world : Nat → Answers) :
    ∃ n op ending, (h.play world n).manager.Ends number op ending := by
  obtain ⟨n, ending, -, calm, ended, -⟩ := Operation.exists_ending job current ids world
  have past : h.manager.past.length = number := by
    rw [operations, flight, Option.toList_some, List.length_append, List.length_singleton] at length
    omega
  refine ⟨n, ((Operation.schedule job current ids).play world n).1, ending, ?_⟩
  rw [manager_play flight world (.inl free)]
  refine ⟨?_, ?_, ended, calm⟩
  · rw [operations, Option.toList_some, List.length_append, past]
    rfl
  · rw [operations, List.getElem?_append_right (Nat.le_of_eq past), past, Nat.sub_self]
    rfl

theorem exists_ends {target : Menu} {notifies : Bool}
    (waits : h.manager.waiting = some (.update target notifies))
    (live : ∀ op, h.manager.inFlight = some op → ∃ d, op.task = .live d) (world : Nat → Answers) :
    ∃ n op ending, (h.play world n).manager.Ends h.manager.operations.length op ending := by
  obtain ⟨a, job, current, ids, free, flight, length⟩ := exists_served waits live world
  obtain ⟨n, op, ending, ends⟩ := ends_of_scheduled free flight length fun k => world (a + k)
  refine ⟨a + n, op, ending, ?_⟩
  rw [play_add]
  exact ends

end History

end RemoteMenu
