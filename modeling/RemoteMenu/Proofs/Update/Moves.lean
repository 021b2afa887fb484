import RemoteMenu.Proofs.Dialogue.Contract
import RemoteMenu.Proofs.Menu.FreshIds
import RemoteMenu.Update.Operation

/-!
# What an operation does

An operation moves by single inquiries, its own or the world's, and may be asked to stop between any
two of them. Letting it go on up to its next request, with or without an answer, is some such moves
(`wake_moves`, `answer_moves`). Moves are exchanges of its dialogue (`Moves.runs`), they draw ids from
its supply in order (`Moves.draws`), and finitely many answers bring it to its end (`exists_ended`).
-/

namespace RemoteMenu

def Answers.none : Answers
  | .clock => 0
  | .holds _ => false
  | .upload _ => ∅
  | .send _ => false
  | .notify _ => ()

/-- A host that takes everything, or everything but deletions. -/
def Answers.taking (deletions : Bool) : Answers
  | .clock => 0
  | .holds _ => false
  | .upload _ => ∅
  | .send batch => deletions || batch.all Command.isAdd
  | .notify _ => ()

def Local.reply (answers : Answers) (inquiry : Inquiry) (l : Local) : inquiry.Reply × Local :=
  Local.answer (m := Id) answers inquiry l

theorem Local.reply_enter (answers : Answers) (state : OperationState) (l : Local) :
    l.reply answers (.enter state) =
      ((l.lifecycle.enter state).1, { l with lifecycle := (l.lifecycle.enter state).2 }) := rfl

theorem Lifecycle.cancelRequested_enter (l : Lifecycle) (state : OperationState) :
    (l.enter state).2.cancelRequested = l.cancelRequested := by
  unfold enter
  split
  · rfl
  · split <;> rfl

theorem Local.cancelRequested_reply (answers : Answers) (inquiry : Inquiry) (l : Local) :
    (l.reply answers inquiry).2.lifecycle.cancelRequested = l.lifecycle.cancelRequested := by
  cases inquiry with
  | enter state => exact l.lifecycle.cancelRequested_enter state
  | _ => rfl

namespace Operation

def proceed (op : Operation) (answers : Answers) : Operation :=
  match op.task with
  | .live (.ask inquiry _ next) =>
    let (reply, own) := op.toLocal.reply answers inquiry
    { own with task := .live (next reply) }
  | _ => op

/-! ### Traces -/

def proceedTrace (op : Operation) (answers : Answers) : Trace :=
  match op.task with
  | .live (.ask inquiry _ _) => [⟨inquiry, (op.toLocal.reply answers inquiry).1⟩]
  | _ => []

/-- The exchanges by which a dialogue goes on up to its next request. -/
def ownTrace {α} (l : Local) : Dialogue α → Trace
  | .done _ _ => []
  | .ask (.enter state) _ next =>
    let (passage, lifecycle) := l.lifecycle.enter state
    ⟨.enter state, passage⟩ :: ownTrace { l with lifecycle } (next passage)
  | .ask .poll _ next =>
    ⟨.poll, l.lifecycle.cancelRequested⟩ :: ownTrace l (next l.lifecycle.cancelRequested)
  | .ask (.reserve count) _ next =>
    ⟨.reserve count, l.ids⟩ :: ownTrace { l with ids := l.ids.skip count } (next l.ids)
  | .ask (.world _) _ _ => []

def wakeTrace (op : Operation) : Trace :=
  match op.task with
  | .live dialogue => ownTrace op.toLocal dialogue
  | .crashed _ => []

def answerTrace (op : Operation) (answers : Answers) : Trace :=
  match op.task with
  | .live (.ask (.world request) _ next) =>
    ⟨.world request, answers request⟩ ::
      { op with task := .live (next (answers request)) : Operation }.wakeTrace
  | _ => op.wakeTrace

/-! ### Moves -/

/-- The exchanges by which an operation comes from one state to another, asked to stop or not. -/
inductive Moves : Operation → Trace → Operation → Prop
  | rest (op : Operation) : Moves op [] op
  | step {op op' : Operation} {t : Trace} (answers : Answers) (further : Moves (op.proceed answers) t op') :
    Moves op (op.proceedTrace answers ++ t) op'
  | stop {op op' : Operation} {t : Trace} (further : Moves op.cancel.2 t op') : Moves op t op'

theorem Moves.trans {a b c : Operation} {s t : Trace} (h : a.Moves s b) (h' : b.Moves t c) :
    a.Moves (s ++ t) c := by
  induction h with
  | rest => exact h'
  | step answers _ ih =>
    rw [List.append_assoc]
    exact .step answers (ih h')
  | stop _ ih => exact .stop (ih h')

theorem proceed_moves (op : Operation) (answers : Answers) :
    op.Moves (op.proceedTrace answers) (op.proceed answers) := by
  have move := Moves.step answers (.rest (op.proceed answers))
  rwa [List.append_nil] at move

theorem cancel_moves (op : Operation) : op.Moves [] op.cancel.2 := .stop (.rest _)

theorem ownTrace_moves (d : Dialogue (Except Halt Outcome)) (l : Local) :
    Moves { l with task := .live d } (ownTrace l d)
      { (answerOwn l d).1 with task := .live (answerOwn l d).2 } := by
  induction d generalizing l with
  | done => exact .rest _
  | ask inquiry now next ih =>
    cases inquiry with
    | world => exact .rest _
    | enter state => exact .step .none (ih _ _)
    | poll => exact .step .none (ih _ _)
    | reserve count => exact .step .none (ih _ _)

theorem wake_moves (op : Operation) : op.Moves op.wakeTrace op.wake := by
  obtain ⟨l, task⟩ := op
  cases task with
  | live d => exact ownTrace_moves d l
  | crashed => exact .rest _

theorem answer_moves (op : Operation) (answers : Answers) :
    op.Moves (op.answerTrace answers) (op.answer answers) := by
  obtain ⟨l, task⟩ := op
  cases task with
  | crashed => exact wake_moves _
  | live d =>
    cases d with
    | done => exact wake_moves _
    | ask inquiry now next =>
      cases inquiry with
      | world request => exact .step answers (wake_moves _)
      | enter => exact wake_moves _
      | poll => exact wake_moves _
      | reserve => exact wake_moves _

/-! ### What moves are -/

theorem proceed_done {op : Operation} {now : Progress} {r : Except Halt Outcome}
    (live : op.task = .live (.done now r)) (answers : Answers) :
    op.proceed answers = op ∧ op.proceedTrace answers = [] := by
  rw [proceed, proceedTrace, live]
  exact ⟨rfl, rfl⟩

theorem proceed_ask {op : Operation} {inquiry : Inquiry} {now : Progress}
    {next : inquiry.Reply → Dialogue (Except Halt Outcome)} (live : op.task = .live (.ask inquiry now next))
    (answers : Answers) :
    op.proceed answers = { (op.toLocal.reply answers inquiry).2 with
      task := .live (next (op.toLocal.reply answers inquiry).1) } ∧
    op.proceedTrace answers = [⟨inquiry, (op.toLocal.reply answers inquiry).1⟩] := by
  rw [proceed, proceedTrace, live]
  exact ⟨rfl, rfl⟩

theorem Moves.runs {op op' : Operation} {t : Trace} (h : op.Moves t op')
    {d : Dialogue (Except Halt Outcome)} (live : op.task = .live d) :
    ∃ d', op'.task = .live d' ∧ d.Runs t d' := by
  induction h generalizing d with
  | rest => exact ⟨d, live, .rest d⟩
  | stop _ ih => exact ih live
  | step answers _ ih =>
    cases d with
    | done =>
      obtain ⟨still, none⟩ := proceed_done live answers
      rw [none]
      exact ih (by rw [still, live])
    | ask inquiry now next =>
      obtain ⟨moved, exchange⟩ := proceed_ask live answers
      obtain ⟨d', live', runs⟩ := ih (by rw [moved])
      rw [exchange]
      exact ⟨d', live', .answered runs⟩

/-! ### Ids -/

/-- Whether what is handed out are the ids of a supply in order, where some were handed out before. -/
def Draws (start : IdSupply) : Nat → Trace → Prop
  | _, [] => True
  | k, ⟨.reserve count, ids⟩ :: t => ids = start.skip k ∧ Draws start (k + count) t
  | k, ⟨_, _⟩ :: t => Draws start k t

theorem Moves.draws {op op' : Operation} {t : Trace} (h : op.Moves t op')
    {d : Dialogue (Except Halt Outcome)} (live : op.task = .live d) {start : IdSupply} {k : Nat}
    (ids : op.ids = start.skip k) : Draws start k t ∧ op'.ids = start.skip (k + Trace.drawn t) := by
  induction h generalizing d k with
  | rest => exact ⟨trivial, ids⟩
  | stop _ ih => exact ih live ids
  | step answers _ ih =>
    cases d with
    | done =>
      obtain ⟨still, none⟩ := proceed_done live answers
      rw [none]
      exact ih (by rw [still, live]) (by rw [still, ids])
    | ask inquiry now next =>
      obtain ⟨moved, exchange⟩ := proceed_ask live answers
      rw [exchange, Trace.drawn_append]
      cases inquiry with
      | reserve count =>
        obtain ⟨draws, ids'⟩ := ih (k := k + count) (by rw [moved]) (by
          rw [moved, IdSupply.skip_add, ← ids]
          rfl)
        refine ⟨⟨ids, draws⟩, ids'.trans (congrArg start.skip ?_)⟩
        exact Nat.add_assoc ..
      | _ =>
        obtain ⟨draws, ids'⟩ := ih (k := k) (by rw [moved]) (by
          rw [moved]
          exact ids)
        refine ⟨draws, ids'.trans (congrArg start.skip ?_)⟩
        exact congrArg (k + ·) (Nat.zero_add _).symm

/-- An operation draws its ids from the supply that it was scheduled with. -/
theorem Moves.draws_schedule {job : Job} {current : Menu} {ids : IdSupply} {t : Trace} {op : Operation}
    (h : (schedule job current ids).Moves t op) : Draws ids 0 t := by
  obtain ⟨draws, -⟩ : Draws ids 0 t ∧ op.ids = ids.skip (0 + Trace.drawn t) := h.draws rfl rfl
  exact draws

/-- Answers are fair for a contract that asks no more of them than that ids come in order, and that some
limit on how many are drawn is kept. -/
theorem Draws.fair {c : Contract} {start : IdSupply} (within : Nat → Prop) {t seg : Trace}
    (draws : Draws start t.drawn seg) (bound : within (Trace.drawn (t ++ seg)))
    (fewer : ∀ a b, a ≤ b → within b → within a)
    (reserves : ∀ t count, within (Trace.drawn t + count) → c.fair t ⟨.reserve count, start.skip (Trace.drawn t)⟩)
    (others : ∀ t (i : Inquiry) (reply : i.Reply), (∀ count, i ≠ .reserve count) → c.fair t ⟨i, reply⟩) :
    c.Fair t seg := by
  induction seg generalizing t with
  | nil => trivial
  | cons e seg ih =>
    rw [List.append_cons] at bound
    have here : within (Trace.drawn (t ++ [e])) := by
      rw [Trace.drawn_append] at bound
      exact fewer _ _ (Nat.le_add_right ..) bound
    obtain ⟨inquiry, reply⟩ := e
    cases inquiry with
    | reserve count =>
      rw [Trace.drawn_reserve] at here
      obtain ⟨rfl, draws⟩ := draws
      refine ⟨reserves _ _ here, ih ?_ bound⟩
      rw [Trace.drawn_reserve]
      exact draws
    | _ =>
      refine ⟨others _ _ _ nofun, ih ?_ bound⟩
      rw [Trace.drawn_append]
      exact draws

/-! ### Letting the world answer -/

/-- An operation after a number of answers, and what it has asked. The first answer starts it. -/
def play (op : Operation) (world : Nat → Answers) : Nat → Operation × Trace
  | 0 => (op, [])
  | n + 1 =>
    let (op, t) := play op world n
    (op.answer (world n), t ++ op.answerTrace (world n))

theorem play_succ (op : Operation) (world : Nat → Answers) (n : Nat) :
    op.play world (n + 1) = ((op.play world n).1.answer (world n),
      (op.play world n).2 ++ (op.play world n).1.answerTrace (world n)) := rfl

theorem play_moves (op : Operation) (world : Nat → Answers) (n : Nat) :
    op.Moves (op.play world n).2 (op.play world n).1 := by
  induction n with
  | zero => exact .rest op
  | succ n ih => exact ih.trans (answer_moves _ _)

theorem answerOwn_cancelRequested {α : Type} (l : Local) (d : Dialogue α) :
    (answerOwn l d).1.lifecycle.cancelRequested = l.lifecycle.cancelRequested := by
  induction d generalizing l with
  | done => rfl
  | ask inquiry now next ih =>
    cases inquiry with
    | world => rfl
    | poll => exact ih _ _
    | reserve => exact ih _ _
    | enter state => exact (ih _ _).trans (l.lifecycle.cancelRequested_enter state)

theorem cancelRequested_wake (op : Operation) :
    op.wake.lifecycle.cancelRequested = op.lifecycle.cancelRequested := by
  obtain ⟨l, task⟩ := op
  cases task with
  | live d => exact answerOwn_cancelRequested l d
  | crashed => rfl

theorem cancelRequested_answer (op : Operation) (answers : Answers) :
    (op.answer answers).lifecycle.cancelRequested = op.lifecycle.cancelRequested := by
  unfold answer
  split
  · exact cancelRequested_wake _
  · exact cancelRequested_wake op

theorem cancelRequested_play (op : Operation) (world : Nat → Answers) (n : Nat) :
    (op.play world n).1.lifecycle.cancelRequested = op.lifecycle.cancelRequested := by
  induction n with
  | zero => rfl
  | succ n ih => exact (cancelRequested_answer _ _).trans ih

/-- Whatever is answered, the dialogue of an operation comes to its end. -/
theorem exists_ended {op : Operation} {d : Dialogue (Except Halt Outcome)} (live : op.task = .live d)
    (world : Nat → Answers) : ∃ n, (op.play world n).1.ending?.isSome = true := by
  have onwards (d : Dialogue (Except Halt Outcome)) : ∀ (l : Local) (n : Nat),
      (op.play world n).1 = { l with task := .live d } ∨
        (op.play world n).1 = { l with task := .live d : Operation }.wake →
      ∃ n, (op.play world n).1.ending?.isSome = true := by
    induction d with
    | done now r =>
      intro l n at_
      have ended : (op.play world n).1 = { l with task := .live (.done now r) } := at_.elim id id
      refine ⟨n, ?_⟩
      rw [ended]
      cases r with
      | ok => rfl
      | error halt => cases halt <;> rfl
    | ask inquiry now next ih =>
      intro l n at_
      -- One more answer brings the operation to the next part of its dialogue, or it is there already.
      have step : (op.play world (n + 1)).1 = (op.play world n).1.answer (world n) := rfl
      cases inquiry with
      | world request =>
        have waits : (op.play world n).1 = { l with task := .live (.ask (.world request) now next) } :=
          at_.elim id id
        rw [waits] at step
        exact ih (world n request) l (n + 1) (.inr step)
      | enter state =>
        rcases at_ with here | here
        · rw [here] at step
          exact ih _ _ (n + 1) (.inr step)
        · exact ih _ _ n (.inr here)
      | poll =>
        rcases at_ with here | here
        · rw [here] at step
          exact ih _ _ (n + 1) (.inr step)
        · exact ih _ _ n (.inr here)
      | reserve count =>
        rcases at_ with here | here
        · rw [here] at step
          exact ih _ _ (n + 1) (.inr step)
        · exact ih _ { l with ids := l.ids.skip count } n (.inr here)
  refine onwards d op.toLocal 0 (.inl ?_)
  rw [play, ← live]

/-- However the world answers, a scheduled operation that nobody asks to stop comes to its end, with its ids drawn one after
another. -/
theorem exists_ending (job : Job) (current : Menu) (ids : IdSupply) (world : Nat → Answers) :
    ∃ n ending,
      let (op, t) := (schedule job current ids).play world n
      (schedule job current ids).Moves t op ∧ op.lifecycle.cancelRequested = false ∧ op.ending? = some ending ∧
      op.ids = ids.skip t.drawn := by
  have live : (schedule job current ids).task = .live (job.run { committed := current }) := rfl
  obtain ⟨n, ended⟩ := exists_ended live world
  obtain ⟨ending, ended⟩ := Option.isSome_iff_exists.mp ended
  have way := play_moves (schedule job current ids) world n
  have calm := cancelRequested_play (schedule job current ids) world n
  have supply : _ = ids.skip (0 + Trace.drawn _) := (way.draws live rfl).2
  rw [Nat.zero_add] at supply
  exact ⟨n, ending, way, calm, ended, supply⟩

theorem answer_of_ended {op : Operation} (ended : op.ending?.isSome = true) (answers : Answers) :
    op.answer answers = op ∧ op.answerTrace answers = [] := by
  obtain ⟨l, task⟩ := op
  cases task with
  | crashed => exact ⟨rfl, rfl⟩
  | live d =>
    cases d with
    | done => exact ⟨rfl, rfl⟩
    | ask => cases ended

theorem play_of_ended {op : Operation} {world : Nat → Answers} {n : Nat}
    (ended : (op.play world n).1.ending?.isSome = true) (more : Nat) :
    op.play world (n + more) = op.play world n := by
  induction more with
  | zero => rfl
  | succ more ih =>
    rw [← ih] at ended
    obtain ⟨same, none⟩ := answer_of_ended ended (world (n + more))
    rw [← Nat.add_assoc, play_succ, same, none, List.append_nil, ih]

theorem drawn_play_le {op : Operation} {world : Nat → Answers} {n : Nat}
    (ended : (op.play world n).1.ending?.isSome = true) (k : Nat) :
    (op.play world k).2.drawn ≤ (op.play world n).2.drawn := by
  have grows (a more : Nat) : (op.play world a).2.drawn ≤ (op.play world (a + more)).2.drawn := by
    induction more with
    | zero => exact Nat.le_refl _
    | succ more ih =>
      refine Nat.le_trans ih ?_
      rw [← Nat.add_assoc, play_succ, Trace.drawn_append]
      omega
  rw [← play_of_ended ended k, Nat.add_comm]
  exact grows k n

end Operation

end RemoteMenu
