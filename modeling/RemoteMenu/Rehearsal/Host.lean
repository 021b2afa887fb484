import RemoteMenu.Command.Text
import RemoteMenu.Update.Operation

/-!
# A simulated host

A host that takes down what it is sent. It shows nothing and holds no artwork, and it may be told to
reject every batch that adds.
-/

namespace RemoteMenu.Rehearsal

/-- A request as it would go over the wire. -/
structure SentFrame where
  function : HostFunction
  correlationId : UInt32
  /-- The entry that its command adds or deletes. -/
  target : RemoteId
  /-- The number of its bytes. -/
  size : Nat
  deriving Repr, DecidableEq

namespace SentFrame

def ofCommand (c : Command) (correlationId : UInt32) : Except FrameError SentFrame := do
  let frame ← c.toFrame correlationId
  let bytes ← frame.assemble
  return { function := c.function, correlationId, target := c.target, size := bytes.size }

/-- The frames of a batch, and the correlation id after the last one taken. The first command that
fits no frame takes its id and ends the batch. -/
def ofBatch (next : UInt32) : List Command → Except FrameError (List SentFrame) × UInt32
  | [] => (.ok [], next)
  | c :: batch =>
    match ofCommand c next with
    | .error e => (.error e, next + 1)
    | .ok frame =>
      let (frames, next) := ofBatch (next + 1) batch
      (frames.map (frame :: ·), next)

end SentFrame

structure Host where
  rejectsAdds : Bool := false
  /-- The correlation id of the next frame. -/
  nextId : UInt32 := 0
  /-- The batches that came, first to last. -/
  batches : List (List Command) := []
  /-- The frames of all batches, first to last. -/
  frames : List SentFrame := []
  deriving Repr, DecidableEq

namespace Host

/-- Takes down a batch, and tells whether it is accepted. A batch with a command that fits no frame
does not come. -/
def receive (batch : List Command) (host : Host) : Bool × Host :=
  match SentFrame.ofBatch host.nextId batch with
  | (.error _, nextId) => (false, { host with nextId })
  | (.ok frames, nextId) =>
    (!(host.rejectsAdds && batch.any Command.isAdd),
      { host with nextId, batches := host.batches ++ [batch], frames := host.frames ++ frames })

/-- The answers of the host; every upload goes well. The time comes from a clock. -/
def answer {m : Type → Type} [Monad m] (clock : m Timestamp) :
    (request : Request) → StateT Host m request.Reply
  | .clock => fun host => do return (← clock, host)
  | .holds _ => fun host => pure (false, host)
  | .upload _ => fun host => pure (({} : UploadErrors), host)
  | .send batch => fun host => pure (host.receive batch)
  | .notify _ => fun host => pure ((), host)

end Host

/-! ### Rehearsing an update -/

def haltMessage : Halt → String
  | .canceled => "Reconciliation was canceled"
  | .failed error => error.message
  | .crashed => "Reconciliation crashed"

/-- A whole update of `current` against a host: its report, or why there is none. -/
def rehearse {m : Type → Type} [Monad m] (clock : m Timestamp) (settings : Settings)
    (current target : Menu) : StateT Host m (Except Halt Report) := do
  let job : Job := {
    id := 1
    setup := { settings, uploads := true }
    target
    notifies := false }
  match ← job.play current (.following current) (Host.answer clock) with
  | .ok (.finished report) => return .ok report
  | .ok .canceled => return .error .canceled
  | .error halt => return .error halt

end RemoteMenu.Rehearsal
