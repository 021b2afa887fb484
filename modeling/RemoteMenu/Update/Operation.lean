import RemoteMenu.Update.Reconcile

/-!
# Operations

An operation is one update of a menu: its life, and the dialogue that it holds with the world. What
the dialogue asks of the operation itself is answered at once (`Operation.wake`); a request to the
world waits for its answer. A crash leaves the operation as it was, with nothing more to come.
-/

namespace RemoteMenu

structure Job where
  id : Nat
  setup : Setup
  target : Menu
  /-- Whether someone waits for the report. -/
  notifies : Bool

def Job.run (job : Job) : Engine Outcome := do
  let start : Passage ← Engine.ask (.enter .running)
  match start with
  | .canceled => return .canceled
  | .refused error => Engine.halt (.failed error)
  | .entered =>
    let startedAt : Timestamp ← Engine.request .clock
    let current := (← Engine.now).committed
    match ← Engine.attempt (Menu.reconcile job.setup job.target current []) with
    | .error .canceled => return .canceled
    | .error .crashed => Engine.halt .crashed
    | .error (.failed error) =>
      let last : Passage ← Engine.ask (.enter .finished)
      match last with
      | .refused worse => Engine.halt (.failed worse)
      | _ => Engine.halt (.failed error)
    | .ok success =>
      let last : Passage ← Engine.ask (.enter .finished)
      match last with
      | .canceled => return .canceled
      | .refused error => Engine.halt (.failed error)
      | .entered =>
        let reached ← Engine.now
        let finishedAt : Timestamp ← Engine.request .clock
        let report : Report := {
          operationId := job.id
          success
          menu := reached.committed
          stats := reached.stats
          startedAt
          finishedAt }
        if job.notifies then let _ : Unit ← Engine.request (.notify report)
        return .finished report

/-! ### Answers -/

abbrev Answers := (request : Request) → request.Reply

/-- What an operation answers by itself: its life, and the supply that it draws its ids from. -/
structure Local where
  lifecycle : Lifecycle := {}
  ids : IdSupply
  deriving Repr, DecidableEq

def Local.answer {m : Type → Type} [Monad m] (answer : (request : Request) → m request.Reply) :
    (inquiry : Inquiry) → StateT Local m inquiry.Reply
  | .enter state => fun l =>
    let (passage, lifecycle) := l.lifecycle.enter state
    pure (passage, { l with lifecycle })
  | .poll => fun l => pure (l.lifecycle.cancelRequested, l)
  | .reserve count => fun l => pure (l.ids, { l with ids := l.ids.skip count })
  | .world request => fun l => do return (← answer request, l)

/-- Plays a whole update that nobody asks to stop. -/
def Job.play {m : Type → Type} [Monad m] (job : Job) (current : Menu) (ids : IdSupply)
    (answer : (request : Request) → m request.Reply) : m (Except Halt Outcome) := do
  let ((_, result), _) ← ((job.run { committed := current }).play (Local.answer answer)).run { ids }
  return result

/-! ### Operations between requests -/

inductive Task
  | live (dialogue : Dialogue (Except Halt Outcome))
  /-- It ended in the middle of a request. -/
  | crashed (now : Progress)

structure Operation extends Local where
  task : Task

namespace Operation

def schedule (job : Job) (current : Menu) (ids : IdSupply) : Operation where
  ids
  task := .live (job.run { committed := current })

def progress (op : Operation) : Progress :=
  match op.task with
  | .live dialogue => dialogue.now
  | .crashed now => now

/-- The menu that the host shows, as far as the operation knows. -/
def committed (op : Operation) : Menu := op.progress.committed

/-- Answers what a dialogue asks of its operation, up to the next request. -/
def answerOwn {α} (l : Local) : Dialogue α → Local × Dialogue α
  | .done now a => (l, .done now a)
  | .ask (.enter state) _ next =>
    let (passage, lifecycle) := l.lifecycle.enter state
    answerOwn { l with lifecycle } (next passage)
  | .ask .poll _ next => answerOwn l (next l.lifecycle.cancelRequested)
  | .ask (.reserve count) _ next => answerOwn { l with ids := l.ids.skip count } (next l.ids)
  | .ask (.world request) now next => (l, .ask (.world request) now next)

/-- Lets an operation go on by itself as far as it can. -/
def wake (op : Operation) : Operation :=
  match op.task with
  | .live dialogue =>
    let (own, dialogue) := answerOwn op.toLocal dialogue
    { own with task := .live dialogue }
  | .crashed _ => op

def pending? (op : Operation) : Option Request :=
  match op.task with
  | .live (.ask (.world request) _ _) => some request
  | _ => none

def answer (op : Operation) (answers : Answers) : Operation :=
  match op.task with
  | .live (.ask (.world request) _ next) =>
    { op with task := .live (next (answers request)) : Operation }.wake
  | _ => op.wake

def cancel (op : Operation) : Bool × Operation :=
  let (inTime, lifecycle) := op.lifecycle.cancel
  (inTime, { op with lifecycle })

def crash (op : Operation) : Operation := { op with task := .crashed op.progress }

inductive Ending
  | returned (outcome : Outcome)
  | failed (error : UpdateError)
  | crashed

def ending? (op : Operation) : Option Ending :=
  match op.task with
  | .live (.done _ (.ok outcome)) => some (.returned outcome)
  | .live (.done _ (.error .canceled)) => some (.returned .canceled)
  | .live (.done _ (.error (.failed error))) => some (.failed error)
  | .live (.done _ (.error .crashed)) | .crashed _ => some .crashed
  | .live (.ask _ _ _) => none

end Operation

end RemoteMenu
