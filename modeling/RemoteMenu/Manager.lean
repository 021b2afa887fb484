import RemoteMenu.Update.Operation

/-!
# The manager of a menu

A manager holds what the host shows and at most one operation in flight. A newer target cancels that
operation, waits for its end and starts from what it left. While a call waits for the end of the
operation in flight, no other call is served; the world goes on answering the operation
(`Manager.answer`), and the call is completed with the answer that ends it.
-/

namespace RemoteMenu

/-- A call that may have to wait. -/
inductive Call
  /-- A new target; `notifies` says whether someone waits for the report. -/
  | update (target : Menu) (notifies : Bool)
  /-- To wait for the operation in flight. -/
  | settle
  | shutdown

inductive CallResult
  /-- The number of the scheduled operation, counted from 0. -/
  | scheduled (number : Nat)
  | settled (outcome : Option Outcome)
  | shutDown
  | failed (error : UpdateError)

structure Manager where
  settings : Settings := {}
  /-- Whether there is a place to upload artworks to. -/
  uploads : Bool := false
  /-- The supply of ids between operations. -/
  ids : IdSupply := default
  /-- The menu as the last operation to stop left it. -/
  current : Menu := []
  /-- The operations that have stopped, first to last. -/
  past : List Operation := []
  inFlight : Option Operation := none
  closed : Bool := false
  /-- The call that waits for the operation in flight. -/
  waiting : Option Call := none

namespace Manager

/-! ### What can be seen -/

/-- Every operation so far, first to last. -/
def operations (m : Manager) : List Operation := m.past ++ m.inFlight.toList

/-- The menu that the host shows right now, as far as is known. -/
def currentMenu (m : Manager) : Menu :=
  match m.inFlight with
  | some op => op.committed
  | none => m.current

def resolve (m : Manager) (id : RemoteId) : Option Node := m.currentMenu.find? id

def supply (m : Manager) : IdSupply :=
  match m.inFlight with
  | some op => op.ids
  | none => m.ids

def pending? (m : Manager) : Option Request := m.inFlight.bind Operation.pending?

/-! ### Completing calls -/

/-- Puts the operation in flight among those that have stopped. -/
def retire (m : Manager) : Manager :=
  match m.inFlight with
  | some op => { m with ids := op.ids, past := m.past ++ [op], inFlight := none }
  | none => m

/-- Puts the operation in flight among those that have stopped, and goes on from what it left. -/
def takeOver (m : Manager) : Manager := { m.retire with current := m.currentMenu }

def schedule (m : Manager) (target : Menu) (notifies : Bool) : Manager × CallResult :=
  let number := m.past.length
  let job : Job := {
    id := number + 1
    setup := { settings := m.settings, uploads := m.uploads }
    target
    notifies }
  ({ m with inFlight := some (.schedule job m.current m.ids) }, .scheduled number)

/-- Completes a call once the operation in flight has stopped, or if there is none. A dead operation
is not taken over by those who settle it. -/
def complete (m : Manager) (ending : Option Operation.Ending) : Call → Manager × CallResult
  | .update target notifies => m.takeOver.schedule target notifies
  | .shutdown => (m.takeOver, .shutDown)
  | .settle =>
    match ending with
    | none => (m, .settled none)
    | some (.returned outcome) => (m.takeOver, .settled (some outcome))
    | some (.failed error) => (m.takeOver, .failed error)
    | some .crashed => (m.retire, .failed (.taskFailed "crashed"))

/-- Completes the waiting call if the operation in flight has stopped. -/
def resume (m : Manager) : Manager × Option CallResult :=
  match m.waiting with
  | none => (m, none)
  | some call =>
    match m.inFlight with
    | none =>
      let (m, result) := { m with waiting := none : Manager }.complete none call
      (m, some result)
    | some op =>
      match op.ending? with
      | none => (m, none)
      | some ending =>
        let (m, result) := { m with waiting := none : Manager }.complete (some ending) call
        (m, some result)

/-! ### Steps -/

def wake (m : Manager) : Manager × Option CallResult :=
  { m with inFlight := m.inFlight.map Operation.wake : Manager }.resume

def answer (m : Manager) (answers : Answers) : Manager × Option CallResult :=
  { m with inFlight := m.inFlight.map (·.answer answers) : Manager }.resume

def crash (m : Manager) : Manager × Option CallResult :=
  { m with inFlight := m.inFlight.map Operation.crash : Manager }.resume

def drawId (m : Manager) : RemoteId × Manager :=
  let (id, ids) := m.supply.draw
  match m.inFlight with
  | some op => (id, { m with inFlight := some { op with ids } })
  | none => (id, { m with ids })

def cancel (m : Manager) (number : Nat) : Bool × Manager :=
  match m.past[number]? with
  | some op =>
    let (inTime, op) := op.cancel
    (inTime, { m with past := m.past.set number op })
  | none =>
    if number = m.past.length then
      match m.inFlight with
      | some op =>
        let (inTime, op) := op.cancel
        (inTime, { m with inFlight := some op })
      | none => (false, m)
    else (false, m)

def call (m : Manager) : Call → Manager × Option CallResult
  | .update target notifies =>
    if m.closed then (m, some (.failed .managerClosed))
    else
      let target := if m.settings.disambiguateTitles then target.disambiguate else target
      let (_, m) := m.cancel m.past.length
      { m with waiting := some (.update target notifies) : Manager }.wake
  | .settle => { m with waiting := some .settle : Manager }.wake
  | .shutdown =>
    let (_, m) := m.cancel m.past.length
    { m with closed := true, waiting := some .shutdown : Manager }.wake

end Manager

end RemoteMenu
