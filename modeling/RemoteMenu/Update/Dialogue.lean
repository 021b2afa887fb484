import RemoteMenu.Command.Basic
import RemoteMenu.Menu.IdSupply
import RemoteMenu.Update.Artworks
import RemoteMenu.Update.Report
import RemoteMenu.Update.State

/-!
# Dialogues

An update is a conversation: it asks for something, waits for the answer and goes on from there. Some
of what it asks its operation knows (`Inquiry`), the rest is for the world to answer (`Request`). With
each inquiry the dialogue shows how far it has come (`Progress`), which is all that anyone else gets
to see of it.
-/

namespace RemoteMenu

inductive Request
  /-- What time it is. -/
  | clock
  /-- Whether the host holds an artwork. -/
  | holds (artwork : Artwork)
  /-- To upload artworks. -/
  | upload (artworks : List Artwork)
  /-- To send commands to the host, which accepts all of them or none. -/
  | send (batch : List Command)
  /-- To hand a report to whoever waits for it. -/
  | notify (report : Report)

@[reducible] def Request.Reply : Request → Type
  | .clock => Timestamp
  | .holds _ => Bool
  | .upload _ => UploadErrors
  | .send _ => Bool
  | .notify _ => Unit

/-- What an update asks, of its operation or of the world. -/
inductive Inquiry
  /-- To move on to a state. -/
  | enter (state : OperationState)
  /-- Whether it has been asked to stop. -/
  | poll
  /-- For a number of fresh ids: where in the supply they start. -/
  | reserve (count : Nat)
  | world (request : Request)

@[reducible] def Inquiry.Reply : Inquiry → Type
  | .enter _ => Passage
  | .poll => Bool
  | .reserve _ => IdSupply
  | .world request => request.Reply

/-- How far an update has come. -/
structure Progress where
  /-- The menu that the host shows, as far as is known. -/
  committed : Menu
  stats : Stats := {}

inductive Dialogue (α : Type)
  | done (now : Progress) (result : α)
  | ask (inquiry : Inquiry) (now : Progress) (next : inquiry.Reply → Dialogue α)

namespace Dialogue

variable {α β : Type}

def now : Dialogue α → Progress
  | .done now _ | .ask _ now _ => now

def andThen : Dialogue α → (Progress → α → Dialogue β) → Dialogue β
  | .done now a, f => f now a
  | .ask inquiry now next, f => .ask inquiry now fun reply => (next reply).andThen f

/-- A dialogue whose every inquiry is answered in some monad. -/
def play {m : Type → Type} [Monad m] (answer : (inquiry : Inquiry) → m inquiry.Reply) :
    Dialogue α → m (Progress × α)
  | .done now a => pure (now, a)
  | .ask inquiry _ next => do
    let reply ← answer inquiry
    (next reply).play answer

end Dialogue

/-! ### Engines -/

inductive Halt
  | canceled
  | failed (error : UpdateError)
  /-- An index it relies on is out of range. -/
  | crashed
  deriving Repr, DecidableEq

/-- A part of an update. -/
def Engine (α : Type) := Progress → Dialogue (Except Halt α)

namespace Engine

variable {α β : Type}

instance : Monad Engine where
  pure a := fun now => .done now (.ok a)
  bind m f := fun now => (m now).andThen fun now result =>
    match result with
    | .ok a => f a now
    | .error halt => .done now (.error halt)

def ask (inquiry : Inquiry) : Engine inquiry.Reply :=
  fun now => .ask inquiry now fun reply => .done now (.ok reply)

def request (r : Request) : Engine r.Reply := ask (.world r)

def halt (h : Halt) : Engine α := fun now => .done now (.error h)

def now : Engine Progress := fun now => .done now (.ok now)

def modify (f : Progress → Progress) : Engine Unit := fun now => .done (f now) (.ok ())

def count (f : Stats → Stats) : Engine Unit := modify fun now => { now with stats := f now.stats }

/-- A part whose early stop is looked at. -/
def attempt (m : Engine α) : Engine (Except Halt α) :=
  fun now => (m now).andThen fun now result => .done now (.ok result)

/-- Stops here if asked to. -/
def checkpoint : Engine Unit := do
  let canceled : Bool ← ask .poll
  if canceled then halt .canceled

end Engine

end RemoteMenu
