import Std.Do.Triple
import RemoteMenu.Proofs.Update.Moves

/-!
# Updates that are played

Whatever monad an update is played in, and whatever answers it there: it moves as an operation that nobody asks to stop
(`triple_playWith`). What those who answer keep of its trace is told by an invariant.
-/

namespace RemoteMenu

open Std.Do

section
variable {m : Type → Type} {ps : PostShape.{0}} [Monad m] [WPMonad m ps] {α β : Type}

theorem triple_pure {p : α → Prop} {a : α} (h : p a) : ⦃⌜True⌝⦄ (pure a : m α) ⦃⇓ a => ⌜p a⌝⦄ :=
  Triple.pure a (SPred.pure_intro h)

theorem triple_bind {p : α → Prop} {q : β → Prop} {x : m α} {f : α → m β} (first : ⦃⌜True⌝⦄ x ⦃⇓ a => ⌜p a⌝⦄)
    (next : ∀ a, p a → ⦃⌜True⌝⦄ f a ⦃⇓ b => ⌜q b⌝⦄) : ⦃⌜True⌝⦄ (x >>= f) ⦃⇓ b => ⌜q b⌝⦄ := by
  refine @Triple.bind m ps _ _ α β _ (fun a => ⌜p a⌝) _ x f first fun a => ?_
  exact SPred.pure_elim' fun h => next a h

theorem triple_mono {p q : α → Prop} {x : m α} (h : ⦃⌜True⌝⦄ x ⦃⇓ a => ⌜p a⌝⦄) (weaker : ∀ a, p a → q a) :
    ⦃⌜True⌝⦄ x ⦃⇓ a => ⌜q a⌝⦄ := by
  have both := triple_bind h fun a ha => triple_pure (m := m) (weaker a ha)
  rwa [bind_pure] at both

theorem of_triple_id {p : α → Prop} {x : Id α} (h : ⦃⌜True⌝⦄ x ⦃⇓ a => ⌜p a⌝⦄) : p x.run :=
  Id.of_wp_run_eq rfl p h

end

/-! ### Steps -/

/-- A dialogue that is played where some state is kept. -/
def playWith {m : Type → Type} [Monad m] {σ α : Type} (answer : (r : Request) → StateT σ m r.Reply) (d : Dialogue α)
    (l : Local) (s : σ) : m (((Progress × α) × Local) × σ) :=
  ((d.play (Local.answer answer)).run l).run s

section
variable {m : Type → Type} [Monad m] [LawfulMonad m] {σ α : Type} {answer : (r : Request) → StateT σ m r.Reply}

/-- An operation answers its own inquiries by itself, and nothing else comes of them. -/
theorem playWith_own {inquiry : Inquiry} (own : ∀ r, inquiry ≠ .world r) (now : Progress)
    (next : inquiry.Reply → Dialogue α) (l : Local) (s : σ) :
    playWith answer (.ask inquiry now next) l s =
      playWith answer (next (l.reply .none inquiry).1) (l.reply .none inquiry).2 s := by
  cases inquiry with
  | world r => exact absurd rfl (own r)
  | _ => exact pure_bind (m := m) _ _

theorem playWith_world (r : Request) (now : Progress) (next : r.Reply → Dialogue α) (l : Local) (s : σ) :
    playWith answer (.ask (.world r) now next) l s =
      (answer r).run s >>= fun p => playWith answer (next p.1) l p.2 := by
  refine (bind_assoc (m := m) _ _ _).trans (bind_congr fun p => ?_)
  exact pure_bind (m := m) _ _

end

/-! ### Moves -/

theorem exists_answers (r : Request) (reply : r.Reply) : ∃ answers : Answers, answers r = reply := by
  classical
  exact ⟨Function.update Answers.none r reply, Function.update_self ..⟩

section
variable {m : Type → Type} {ps : PostShape.{0}} [Monad m] [WPMonad m ps] {σ : Type}
  {answer : (r : Request) → StateT σ m r.Reply} {P : σ → Trace → Prop}

/-- An update that is played moves an operation to its end, and does not ask it to stop. What holds of the state and
the trace if every request keeps it, while the operation's own inquiries do not matter, holds in the end. -/
theorem triple_playWith (own : ∀ s t (e : Exchange), (∀ r, e.inquiry ≠ .world r) → P s t → P s (t ++ [e]))
    (asked : ∀ s t r, P s t → ⦃⌜True⌝⦄ (answer r).run s ⦃⇓ p => ⌜P p.2 (t ++ [⟨.world r, p.1⟩])⌝⦄)
    (d : Dialogue (Except Halt Outcome)) (l : Local) {s : σ} {t : Trace} (start : P s t) :
    ⦃⌜True⌝⦄ playWith answer d l s
    ⦃⇓ p => ⌜p.1.2.lifecycle.cancelRequested = l.lifecycle.cancelRequested ∧ ∃ moved,
      Operation.Moves { l with task := .live d } moved { p.1.2 with task := .live (.done p.1.1.1 p.1.1.2) } ∧
      P p.2 (t ++ moved)⌝⦄ := by
  induction d generalizing l s t with
  | done now r => exact triple_pure ⟨rfl, [], .rest _, (List.append_nil t).symm ▸ start⟩
  | ask inquiry now next ih =>
    by_cases outside : ∃ r, inquiry = .world r
    · obtain ⟨r, rfl⟩ := outside
      rw [playWith_world]
      refine triple_bind (asked s t r start) fun reply kept => ?_
      refine triple_mono (ih _ l kept) fun p ended => ?_
      obtain ⟨calm, moved, moves, last⟩ := ended
      obtain ⟨answers, given⟩ := exists_answers r reply.1
      rw [← given] at moves last
      rw [List.append_assoc] at last
      exact ⟨calm, _, .step answers moves, last⟩
    · have inside : ∀ r, inquiry ≠ .world r := fun r same => outside ⟨r, same⟩
      let reply := (l.reply .none inquiry).1
      rw [playWith_own inside]
      refine triple_mono (ih reply _ (own s t ⟨inquiry, reply⟩ inside start)) fun p ended => ?_
      obtain ⟨calm, moved, moves, last⟩ := ended
      rw [List.append_assoc] at last
      exact ⟨calm.trans (Local.cancelRequested_reply ..), _, .step .none moves, last⟩

end

end RemoteMenu
