import RemoteMenu.Frame.Error

/-!
# The life of an operation

An operation is queued, runs, and ends as finished or canceled; one that is still queued may be
canceled at once. Asking it to stop and moving it to `canceled` is one step, so the two never
disagree (`Lifecycle.cancel`).
-/

namespace RemoteMenu

inductive OperationState
  | queued
  | running
  | finished
  | canceled
  deriving Repr, DecidableEq

def OperationState.name : OperationState → String
  | .queued => "Queued"
  | .running => "Running"
  | .finished => "Finished"
  | .canceled => "Canceled"

inductive UpdateError
  | transport (reason : String)
  /-- The two sides of a matching disagree on how many nodes stay. -/
  | keptMismatch (old new : Nat)
  /-- A matching is not one of the menus it is used for. -/
  | matchMismatch (detail : String)
  | illegalMove (source target : OperationState)
  | managerClosed
  | taskFailed (reason : String)
  | frame (error : FrameError)
  deriving Repr, DecidableEq

def UpdateError.message : UpdateError → String
  | .transport reason => "Transport error: " ++ reason
  | .keptMismatch old new => s!"Kept node mismatch: {old} old vs {new} new"
  | .matchMismatch detail => "Match result does not fit the menus: " ++ detail
  | .illegalMove source target =>
    "Invalid state transition: from \"" ++ source.name ++ "\" to \"" ++ target.name ++ "\""
  | .managerClosed => "Menu manager is shut down"
  | .taskFailed reason => "Operation task failed: " ++ reason
  | .frame error => "Frame error: " ++ error.message

namespace OperationState

def isTerminal : OperationState → Bool
  | .finished | .canceled => true
  | .queued | .running => false

def canMove : (source target : OperationState) → Bool
  | .queued, .running | .queued, .canceled | .running, .finished | .running, .canceled => true
  | _, _ => false

def move (source target : OperationState) : Except UpdateError OperationState :=
  if source.canMove target then .ok target else .error (.illegalMove source target)

theorem move_eq_ok {source target state : OperationState} :
    source.move target = .ok state ↔ source.canMove target = true ∧ state = target := by
  cases h : source.canMove target <;> simp [move, h, eq_comm (a := state)]

/-- A terminal state is never left. -/
theorem not_canMove_of_isTerminal {source target : OperationState} (h : source.isTerminal = true) :
    source.canMove target = false := by
  cases source <;> cases target <;> simp_all [isTerminal, canMove]

end OperationState

/-- The state of an operation, and whether it has been asked to stop. -/
structure Lifecycle where
  state : OperationState := .queued
  cancelRequested : Bool := false
  deriving Repr, DecidableEq

inductive Passage
  | entered
  /-- It has been asked to stop. -/
  | canceled
  | refused (error : UpdateError)
  deriving Repr, DecidableEq

namespace Lifecycle

def cancel (l : Lifecycle) : Bool × Lifecycle :=
  if l.state.canMove .canceled then (true, ⟨.canceled, true⟩) else (false, l)

/-- The operation's own move to a state; it gives way to a request to stop. -/
def enter (l : Lifecycle) (target : OperationState) : Passage × Lifecycle :=
  if l.cancelRequested then (.canceled, l)
  else match l.state.move target with
    | .ok state => (.entered, { l with state })
    | .error error => (.refused error, l)

end Lifecycle

end RemoteMenu
