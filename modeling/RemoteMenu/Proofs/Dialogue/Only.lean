import RemoteMenu.Proofs.Dialogue.Contract

/-!
# Dialogues of a kind

A dialogue is of a kind if it asks nothing but inquiries of that kind, however it is answered. What exchanges of
the kind keep, the dialogue keeps (`Dialogue.Only.keeps`), and nothing else has to be known of it.
-/

namespace RemoteMenu

namespace Dialogue

variable {α β : Type} {P : Inquiry → Prop}

/-- Whether all that a dialogue asks is of a kind. -/
inductive Only (P : Inquiry → Prop) : Dialogue α → Prop
  | done (now : Progress) (a : α) : Only P (.done now a)
  | ask {inquiry : Inquiry} {now : Progress} {next : inquiry.Reply → Dialogue α} (own : P inquiry)
      (onward : ∀ reply, Only P (next reply)) : Only P (.ask inquiry now next)

namespace Only

theorem andThen {d : Dialogue α} {f : Progress → α → Dialogue β} (h : d.Only P)
    (onward : ∀ now a, (f now a).Only P) : (d.andThen f).Only P := by
  induction h with
  | done now a => exact onward now a
  | ask own _ ih => exact .ask own ih

/-- What holds of a trace still holds when a dialogue is over whose exchanges do not matter. -/
theorem keeps {c : Contract} {I : Trace → Prop} {d : Dialogue α} (h : d.Only P)
    (asks : ∀ t now i, I t → P i → c.asks t now i) (onward : ∀ t (e : Exchange), I t → P e.inquiry → I (t ++ [e]))
    {t : Trace} (here : I t) : d.Keeps c (fun t _ _ => I t) t := by
  induction h generalizing t with
  | done => exact here
  | ask own _ ih => exact ⟨asks _ _ _ here own, fun reply _ => ih reply (onward _ ⟨_, reply⟩ here own)⟩

end Only

end Dialogue

namespace Engine

variable {α β : Type} {P : Inquiry → Prop}

def Only (P : Inquiry → Prop) (m : Engine α) : Prop := ∀ now, (m now).Only P

namespace Only

theorem pure (a : α) : Only P (pure a) := fun now => .done now _

theorem halt (h : Halt) : Only P (halt h : Engine α) := fun now => .done now _

theorem ask (inquiry : Inquiry) (own : P inquiry) : Only P (ask inquiry) :=
  fun _ => .ask own fun _ => .done _ _

theorem now : Only P now := fun now => .done now _

theorem modify (f : Progress → Progress) : Only P (modify f) := fun _ => .done _ _

theorem count (f : Stats → Stats) : Only P (count f) := modify _

theorem bind {m : Engine α} {f : α → Engine β} (h : m.Only P) (onward : ∀ a, (f a).Only P) : (m >>= f).Only P := by
  intro now
  refine (h now).andThen fun now r => ?_
  cases r with
  | ok a => exact onward a now
  | error halt => exact .done now _

theorem checkpoint (polls : P .poll) : Only P checkpoint := by
  refine (ask _ polls).bind fun canceled => ?_
  cases canceled with
  | true => exact halt _
  | false => exact pure _

end Only

end Engine

end RemoteMenu
