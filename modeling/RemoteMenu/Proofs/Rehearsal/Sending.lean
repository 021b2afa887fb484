import RemoteMenu.Proofs.Menu.UsedIds
import RemoteMenu.Proofs.Update.Counts
import RemoteMenu.Proofs.Update.Playing
import RemoteMenu.Rehearsal.Host

/-!
# What a rehearsal sends

A rehearsal is a run of an operation, with a host that takes its batches in one after another. It comes to a report
wherever the clock can be read (`triple_rehearse`). So what is known of operations is known of the host at the end, such
as where the ids of its additions come from (`following_spares_used`).
-/

namespace RemoteMenu.Rehearsal

open Std.Do

/-- Whether a host takes some batches in, one after another, and answers them like that. -/
inductive Host.Receives : Host → List (List Command × Bool) → Host → Prop
  | rest (host : Host) : Receives host [] host
  | batch {host host' : Host} {log : List (List Command × Bool)} (batch : List Command)
      (others : Receives (host.receive batch).2 log host') :
      Receives host ((batch, (host.receive batch).1) :: log) host'

namespace Host

variable {host host' host'' : Host} {log log' : List (List Command × Bool)}

theorem Receives.trans (h : host.Receives log host') (h' : host'.Receives log' host'') :
    host.Receives (log ++ log') host'' := by
  induction h with
  | rest => exact h'
  | batch batch _ ih => exact .batch batch (ih h')

/-- A host takes down the batches that fit into frames. -/
theorem Receives.batches (h : host.Receives log host') :
    ∃ came, host'.batches = host.batches ++ came ∧ came.Sublist (log.map Prod.fst) := by
  induction h with
  | rest => exact ⟨[], (List.append_nil _).symm, List.Sublist.refl _⟩
  | @batch host host' log batch _ ih =>
    obtain ⟨came, last, sub⟩ := ih
    rw [last, receive]
    split
    · exact ⟨came, rfl, sub.cons _⟩
    · exact ⟨batch :: came, List.append_assoc .., sub.cons_cons _⟩

end Host

/-! ### Rehearsals -/

def job (settings : Settings) (target : Menu) : Job where
  id := 1
  setup := { settings, uploads := true }
  target
  notifies := false

def result : Except Halt Outcome → Except Halt Report
  | .ok (.finished report) => .ok report
  | .ok .canceled => .error .canceled
  | .error halt => .error halt

theorem run_rehearse {m : Type → Type} [Monad m] [LawfulMonad m] {clock : m Timestamp} (settings : Settings)
    (current target : Menu) (host : Host) : (rehearse clock settings current target).run host =
      playWith (Host.answer clock) ((job settings target).run { committed := current })
        { ids := .following current } host >>= fun p => pure (result p.1.1.2, p.2) := by
  refine (bind_assoc (m := m) _ _ _).trans (bind_congr fun p => ?_)
  refine (pure_bind (m := m) _ _).trans ?_
  obtain ⟨⟨⟨now, r⟩, l⟩, host'⟩ := p
  rcases r with halt | report | _ <;> rfl

section
variable {m : Type → Type} {ps : PostShape.{0}} [Monad m] [WPMonad m ps] {clock : m Timestamp}

/-- Every answer of a host is one to the batch that it is sent, if any. -/
theorem triple_answer (tells : ⦃⌜True⌝⦄ clock ⦃⇓ _ => ⌜True⌝⦄) (r : Request) (host : Host) :
    ⦃⌜True⌝⦄ (Host.answer clock r).run host
    ⦃⇓ p => ⌜host.Receives (Trace.batches [⟨.world r, p.1⟩]) p.2⌝⦄ := by
  cases r with
  | clock => exact triple_bind tells fun time _ => triple_pure (.rest host)
  | send batch => exact triple_pure (.batch batch (.rest _))
  | _ => exact triple_pure (.rest host)

/-- A rehearsal is a run of an operation that finishes, with the ids behind those in use. -/
theorem triple_rehearse (tells : ⦃⌜True⌝⦄ clock ⦃⇓ _ => ⌜True⌝⦄) (settings : Settings) (current target : Menu)
    (host : Host) :
    ⦃⌜True⌝⦄ (rehearse clock settings current target).run host
    ⦃⇓ p => ⌜∃ report op t, p.1 = .ok report ∧ op.ending? = some (.returned (.finished report)) ∧
      (Operation.schedule (job settings target) current (.following current)).Moves t op ∧
      host.Receives t.batches p.2⌝⦄ := by
  have own (s : Host) (t : Trace) (e : Exchange) (own : ∀ r, e.inquiry ≠ .world r)
      (came : host.Receives t.batches s) : host.Receives (Trace.batches (t ++ [e])) s := by
    have none : Trace.batches [e] = [] := by
      obtain ⟨inquiry, reply⟩ := e
      cases inquiry with
      | world r => exact absurd rfl (own r)
      | _ => rfl
    rwa [Trace.batches_append, none, List.append_nil]
  have asked (s : Host) (t : Trace) (r : Request) (came : host.Receives t.batches s) :
      ⦃⌜True⌝⦄ (Host.answer clock r).run s ⦃⇓ p => ⌜host.Receives (Trace.batches (t ++ [⟨.world r, p.1⟩])) p.2⌝⦄ := by
    refine triple_mono (triple_answer tells r s) fun p further => ?_
    rw [Trace.batches_append]
    exact came.trans further
  rw [run_rehearse]
  refine triple_bind (triple_playWith own asked _ _ (t := []) (.rest host)) fun p ended => triple_pure ?_
  obtain ⟨calm, t, moves, came⟩ := ended
  have way : (Operation.schedule (job settings target) current (.following current)).Moves t
      { p.1.2 with task := .live (.done p.1.1.1 p.1.1.2) } := moves
  obtain ⟨report, finished⟩ := way.finished calm
  rw [finished] at way ⊢
  exact ⟨report, _, t, rfl, rfl, way, came⟩

/-- A supply that follows a menu comes to no id in use just as far as the menu spares its draws. As far as that, no
rehearsal adds an entry with the id of one that is there. -/
theorem following_spares_used (tells : ⦃⌜True⌝⦄ clock ⦃⇓ _ => ⌜True⌝⦄) (current : Menu) :
    (∀ count, (∀ k < count, (IdSupply.following current).nth k ∉ current.ids) ↔ current.Spares count) ∧
    ∀ (settings : Settings) (target : Menu) (rejectsAdds : Bool),
      current.Spares (Comparison.incoming (Comparison.walk ⟨current, target⟩)) →
      ⦃⌜True⌝⦄ (rehearse clock settings current target).run { rejectsAdds }
      ⦃⇓ p => ⌜(∃ report, p.1 = .ok report) ∧
        ∀ batch ∈ p.2.batches, ∀ c ∈ batch, c.isAdd = true → c.target ∉ current.ids⌝⦄ := by
  refine ⟨IdSupply.following_spares_iff current, fun settings target rejectsAdds spares => ?_⟩
  have apart := (IdSupply.following_spares_iff current _).mpr spares
  refine triple_mono (triple_rehearse tells settings current target _) fun p ended => ?_
  obtain ⟨report, op, t, told, finished, way, received⟩ := ended
  obtain ⟨came, batches, sub⟩ := received.batches
  rw [List.nil_append] at batches
  refine ⟨⟨report, told⟩, fun batch member c inside adds used => ?_⟩
  rw [batches] at member
  obtain ⟨b, sent, rfl⟩ := List.mem_map.mp (sub.subset member)
  obtain ⟨k, less, own⟩ := ((job settings target).served current _).drawn (way.answered finished) sent inside adds
  exact apart k less (own ▸ used)

end

/-- An entry that comes beside another one. -/
theorem following_spares_used_news :
    let current : Menu := [{ entry := { title := "Home" }, remoteId := ⟨1⟩ }]
    let target : Menu := [{ entry := { title := "Home" } }, { entry := { title := "News" } }]
    current.Spares (Comparison.incoming (Comparison.walk ⟨current, target⟩)) ∧
      ⦃⌜True⌝⦄ (rehearse (pure 0 : Id Timestamp) {} current target).run {}
      ⦃⇓ p => ⌜(∃ report, p.1 = .ok report) ∧
        ∀ batch ∈ p.2.batches, ∀ c ∈ batch, c.isAdd = true → c.target ∉ current.ids⌝⦄ := by
  intro current target
  have spares : current.Spares (Comparison.incoming (Comparison.walk ⟨current, target⟩)) := by
    rw [Comparison.walk_eq]
    decide +kernel
  exact ⟨spares, (following_spares_used (triple_pure trivial) current).2 {} target false spares⟩

end RemoteMenu.Rehearsal
