import Mathlib.Data.List.Basic
import RemoteMenu.Update.Dialogue

/-!
# Contracts of dialogues

A trace is what a dialogue has asked so far, with the answers. A contract says which answers are fair
after a trace, and what may be asked after it; a dialogue that keeps the contract (`Dialogue.Keeps`)
asks nothing else as long as the answers are fair, and in the end has a postcondition. Every part of an
update has one rule, so that what a whole update keeps is found by going through its text.
`Keeps.along` takes a dialogue to any point that it reaches.
-/

namespace RemoteMenu

/-- An inquiry with its answer. -/
structure Exchange where
  inquiry : Inquiry
  reply : inquiry.Reply

/-- What was asked and answered, first to last. -/
abbrev Trace := List Exchange

namespace Exchange

def batch? : Exchange → Option (List Command × Bool)
  | ⟨.world (.send batch), accepted⟩ => some (batch, accepted)
  | _ => none

def drawn : Exchange → Nat
  | ⟨.reserve count, _⟩ => count
  | _ => 0

def entered? : Exchange → Option OperationState
  | ⟨.enter state, .entered⟩ => some state
  | _ => none

end Exchange

namespace Trace

/-- The batches that were sent, and whether the host accepted them. -/
def batches (t : Trace) : List (List Command × Bool) := t.filterMap Exchange.batch?

def drawn : Trace → Nat
  | [] => 0
  | e :: t => e.drawn + drawn t

def entered (t : Trace) : List OperationState := t.filterMap Exchange.entered?

@[simp] theorem entered_append (s t : Trace) : entered (s ++ t) = entered s ++ entered t :=
  List.filterMap_append

@[simp] theorem batches_append (s t : Trace) : batches (s ++ t) = batches s ++ batches t :=
  List.filterMap_append

@[simp] theorem drawn_append (s t : Trace) : drawn (s ++ t) = drawn s + drawn t := by
  induction s with
  | nil => exact (Nat.zero_add _).symm
  | cons e s ih => rw [List.cons_append, drawn, drawn, ih, Nat.add_assoc]

end Trace

/-- Whether an inquiry is about neither the tree on the host, nor ids, nor the life of the operation. -/
def Inquiry.Aside : Inquiry → Prop
  | .poll | .world .clock | .world (.holds _) | .world (.upload _) | .world (.notify _) => True
  | .enter _ | .reserve _ | .world (.send _) => False

theorem Exchange.aside_spec {e : Exchange} (h : e.inquiry.Aside) :
    e.batch? = none ∧ e.drawn = 0 ∧ e.entered? = none := by
  obtain ⟨inquiry, reply⟩ := e
  cases inquiry with
  | poll => exact ⟨rfl, rfl, rfl⟩
  | enter => cases h
  | reserve => cases h
  | world r =>
    cases r with
    | send => cases h
    | _ => exact ⟨rfl, rfl, rfl⟩

theorem Trace.batches_aside {t extra : Trace} (h : ∀ e ∈ extra, e.inquiry.Aside) :
    batches (t ++ extra) = batches t := by
  have none : batches extra = [] := List.filterMap_eq_nil_iff.mpr fun e he => (Exchange.aside_spec (h e he)).1
  rw [batches_append, none, List.append_nil]

theorem Trace.drawn_aside {t extra : Trace} (h : ∀ e ∈ extra, e.inquiry.Aside) :
    drawn (t ++ extra) = drawn t := by
  have none : drawn extra = 0 := by
    induction extra with
    | nil => rfl
    | cons e extra ih =>
      obtain ⟨own, others⟩ := List.forall_mem_cons.mp h
      rw [drawn, (Exchange.aside_spec own).2.1, ih others]
  rw [drawn_append, none, Nat.add_zero]

theorem Trace.entered_aside {t extra : Trace} (h : ∀ e ∈ extra, e.inquiry.Aside) :
    entered (t ++ extra) = entered t := by
  have none : entered extra = [] :=
    List.filterMap_eq_nil_iff.mpr fun e he => (Exchange.aside_spec (h e he)).2.2
  rw [entered_append, none, List.append_nil]

@[simp] theorem Trace.batches_send (t : Trace) (batch : List Command) (accepted : Bool) :
    batches (t ++ [⟨.world (.send batch), accepted⟩]) = batches t ++ [(batch, accepted)] := by
  rw [batches_append]
  rfl

@[simp] theorem Trace.drawn_send (t : Trace) (batch : List Command) (accepted : Bool) :
    drawn (t ++ [⟨.world (.send batch), accepted⟩]) = drawn t := by
  rw [drawn_append]
  rfl

@[simp] theorem Trace.entered_send (t : Trace) (batch : List Command) (accepted : Bool) :
    entered (t ++ [⟨.world (.send batch), accepted⟩]) = entered t := by
  rw [entered_append]
  exact List.append_nil _

@[simp] theorem Trace.entered_reserve (t : Trace) (count : Nat) (ids : IdSupply) :
    entered (t ++ [⟨.reserve count, ids⟩]) = entered t := by
  rw [entered_append]
  exact List.append_nil _

@[simp] theorem Trace.entered_enter (t : Trace) (state : OperationState) :
    entered (t ++ [⟨.enter state, .entered⟩]) = entered t ++ [state] := by
  rw [entered_append]
  rfl

@[simp] theorem Trace.batches_reserve (t : Trace) (count : Nat) (ids : IdSupply) :
    batches (t ++ [⟨.reserve count, ids⟩]) = batches t := by
  rw [batches_append]
  exact List.append_nil _

@[simp] theorem Trace.drawn_reserve (t : Trace) (count : Nat) (ids : IdSupply) :
    drawn (t ++ [⟨.reserve count, ids⟩]) = drawn t + count := by
  rw [drawn_append]
  rfl

@[simp] theorem Trace.batches_enter (t : Trace) (state : OperationState) (passage : Passage) :
    batches (t ++ [⟨.enter state, passage⟩]) = batches t := by
  rw [batches_append]
  exact List.append_nil _

@[simp] theorem Trace.drawn_enter (t : Trace) (state : OperationState) (passage : Passage) :
    drawn (t ++ [⟨.enter state, passage⟩]) = drawn t := by
  rw [drawn_append]
  rfl

/-- The exchanges that lead from a dialogue to another. -/
inductive Dialogue.Runs {α : Type} : Dialogue α → Trace → Dialogue α → Prop
  | rest (d : Dialogue α) : Runs d [] d
  | answered {inquiry : Inquiry} {now : Progress} {next : inquiry.Reply → Dialogue α}
      {reply : inquiry.Reply} {trace : Trace} {d : Dialogue α} (further : Runs (next reply) trace d) :
      Runs (.ask inquiry now next) (⟨inquiry, reply⟩ :: trace) d

theorem Dialogue.Runs.trans {α : Type} {a b c : Dialogue α} {s t : Trace} (h : a.Runs s b)
    (h' : b.Runs t c) : a.Runs (s ++ t) c := by
  induction h with
  | rest => exact h'
  | answered _ ih => exact .answered (ih h')

/-! ### Keeping a contract -/

structure Contract where
  /-- The answers to expect after a trace. -/
  fair : Trace → Exchange → Prop
  /-- What may be asked after a trace. -/
  asks : Trace → Progress → Inquiry → Prop

/-- Whether a contract lets everything be asked that has nothing to do with it. -/
def Contract.Lenient (c : Contract) : Prop := ∀ t now (i : Inquiry), i.Aside → c.asks t now i

/-- Whether exchanges are fair, one after another, when they come after a trace. -/
def Contract.Fair (c : Contract) : Trace → Trace → Prop
  | _, [] => True
  | t, e :: rest => c.fair t e ∧ c.Fair (t ++ [e]) rest

namespace Dialogue

variable {α β : Type} {c : Contract}

/-- Whether a dialogue that comes after a trace keeps a contract and ends with a postcondition. -/
def Keeps (c : Contract) (post : Trace → Progress → α → Prop) : Dialogue α → Trace → Prop
  | .done now a, t => post t now a
  | .ask inquiry now next, t =>
    c.asks t now inquiry ∧
      ∀ reply, c.fair t ⟨inquiry, reply⟩ → Keeps c post (next reply) (t ++ [⟨inquiry, reply⟩])

theorem Keeps.mono {post post' : Trace → Progress → α → Prop} {d : Dialogue α} {t : Trace}
    (h : d.Keeps c post t) (weaker : ∀ t now a, post t now a → post' t now a) :
    d.Keeps c post' t := by
  induction d generalizing t with
  | done now a => exact weaker t now a h
  | ask inquiry now next ih => exact ⟨h.1, fun reply fair => ih reply (h.2 reply fair)⟩

theorem keeps_andThen {post : Trace → Progress → β → Prop} {d : Dialogue α}
    {f : Progress → α → Dialogue β} {t : Trace} :
    (d.andThen f).Keeps c post t ↔ d.Keeps c (fun t now a => (f now a).Keeps c post t) t := by
  induction d generalizing t with
  | done => rfl
  | ask inquiry now next ih => simp only [andThen, Keeps, ih]

/-- A dialogue keeps its contract from wherever fair answers have brought it. -/
theorem Keeps.along {post : Trace → Progress → α → Prop} {d d' : Dialogue α} {t trace : Trace}
    (h : d.Keeps c post t) (run : d.Runs trace d') (fair : c.Fair t trace) :
    d'.Keeps c post (t ++ trace) := by
  induction run generalizing t with
  | rest => simpa using h
  | answered further ih =>
    have onward := ih (h.2 _ fair.1) fair.2
    rwa [List.append_assoc] at onward

/-- Whatever was asked on the way was allowed when it was asked. -/
theorem Keeps.asked {post : Trace → Progress → α → Prop} {d d' : Dialogue α} {t trace : Trace}
    (h : d.Keeps c post t) (run : d.Runs trace d') (fair : c.Fair t trace) {u v : Trace} {e : Exchange}
    (split : trace = u ++ e :: v) : ∃ now, c.asks (t ++ u) now e.inquiry := by
  induction run generalizing t u with
  | rest => cases u <;> cases split
  | @answered inquiry now next reply trace d' further ih =>
    cases u with
    | nil =>
      obtain rfl := (List.cons.inj split).1
      rw [List.append_nil]
      exact ⟨now, h.1⟩
    | cons x u =>
      obtain rfl := (List.cons.inj split).1
      rw [List.append_cons]
      exact ih (h.2 _ fair.1) fair.2 (List.cons.inj split).2

end Dialogue

/-! ### Rules for the parts of an update -/

namespace Engine

variable {α β : Type} {c : Contract} {t : Trace} {now : Progress}

/-- Whether a part of an update keeps a contract, after a trace and from a state of progress. -/
def Meets (m : Engine α) (c : Contract) (t : Trace) (now : Progress)
    (post : Trace → Progress → Except Halt α → Prop) : Prop :=
  (m now).Keeps c post t

/-- What the first of two parts has to establish for the second one. -/
def onward (f : α → Engine β) (c : Contract) (post : Trace → Progress → Except Halt β → Prop)
    (t : Trace) (now : Progress) : Except Halt α → Prop
  | .ok a => (f a).Meets c t now post
  | .error halt => post t now (.error halt)

theorem Meets.mono {m : Engine α} {post post' : Trace → Progress → Except Halt α → Prop}
    (h : m.Meets c t now post) (weaker : ∀ t now r, post t now r → post' t now r) :
    m.Meets c t now post' := Dialogue.Keeps.mono h weaker

@[simp] theorem meets_pure {post : Trace → Progress → Except Halt α → Prop} (a : α) :
    (pure a : Engine α).Meets c t now post ↔ post t now (.ok a) := Iff.rfl

@[simp] theorem meets_bind {post : Trace → Progress → Except Halt β → Prop} (m : Engine α)
    (f : α → Engine β) : (m >>= f).Meets c t now post ↔ m.Meets c t now (onward f c post) := by
  refine Dialogue.keeps_andThen.trans (iff_of_eq (congrArg (fun p => (m now).Keeps c p t) ?_))
  funext t now r
  cases r <;> rfl

@[simp] theorem onward_ok {post : Trace → Progress → Except Halt β → Prop} (f : α → Engine β) (a : α) :
    onward f c post t now (.ok a) ↔ (f a).Meets c t now post := Iff.rfl

@[simp] theorem onward_error {post : Trace → Progress → Except Halt β → Prop} (f : α → Engine β)
    (halt : Halt) : onward f c post t now (.error halt) ↔ post t now (.error halt) := Iff.rfl

@[simp] theorem meets_ask (inquiry : Inquiry)
    {post : Trace → Progress → Except Halt inquiry.Reply → Prop} :
    (ask inquiry).Meets c t now post ↔ c.asks t now inquiry ∧
      ∀ reply, c.fair t ⟨inquiry, reply⟩ → post (t ++ [⟨inquiry, reply⟩]) now (.ok reply) := Iff.rfl

@[simp] theorem meets_request (r : Request)
    {post : Trace → Progress → Except Halt r.Reply → Prop} :
    (request r).Meets c t now post ↔ c.asks t now (.world r) ∧
      ∀ reply, c.fair t ⟨.world r, reply⟩ → post (t ++ [⟨.world r, reply⟩]) now (.ok reply) := Iff.rfl

@[simp] theorem meets_halt {post : Trace → Progress → Except Halt α → Prop} (h : Halt) :
    (halt h : Engine α).Meets c t now post ↔ post t now (.error h) := Iff.rfl

@[simp] theorem meets_now {post : Trace → Progress → Except Halt Progress → Prop} :
    Engine.now.Meets c t now post ↔ post t now (.ok now) := Iff.rfl

@[simp] theorem meets_modify {post : Trace → Progress → Except Halt Unit → Prop}
    (f : Progress → Progress) : (modify f).Meets c t now post ↔ post t (f now) (.ok ()) := Iff.rfl

@[simp] theorem meets_count {post : Trace → Progress → Except Halt Unit → Prop} (f : Stats → Stats) :
    (count f).Meets c t now post ↔ post t { now with stats := f now.stats } (.ok ()) := Iff.rfl

@[simp] theorem meets_attempt {post : Trace → Progress → Except Halt (Except Halt α) → Prop}
    (m : Engine α) :
    (attempt m).Meets c t now post ↔ m.Meets c t now fun t now r => post t now (.ok r) :=
  Dialogue.keeps_andThen

@[simp] theorem meets_checkpoint {post : Trace → Progress → Except Halt Unit → Prop} :
    checkpoint.Meets c t now post ↔ c.asks t now .poll ∧ ∀ canceled : Bool, c.fair t ⟨.poll, canceled⟩ →
      post (t ++ [⟨.poll, canceled⟩]) now (if canceled then .error .canceled else .ok ()) := by
  rw [checkpoint, meets_bind, meets_ask]
  refine and_congr_right fun _ => forall_congr' fun canceled => imp_congr_right fun _ => ?_
  cases canceled <;> rfl

end Engine

end RemoteMenu
