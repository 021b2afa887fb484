import RemoteMenu.Bytes.Order
import RemoteMenu.Frame.Error
import RemoteMenu.Frame.Function

/-!
# The header of a frame

Three words, each with its highest byte first: the kind (8 bits) and the function id (24 bits), the
correlation id, and the size of the payload.
-/

namespace RemoteMenu

structure Header where
  kind : FrameKind
  functionId : UInt32
  correlationId : UInt32
  payloadSize : UInt32
  deriving Repr, DecidableEq

namespace Header

def size : Nat := 12

/-- The first word: the kind over the low 24 bits of the function id. -/
def firstWord (h : Header) : UInt32 :=
  (h.kind.value.toUInt32 <<< 24) ||| (h.functionId &&& functionIdLimit)

/-- The bytes of a header. Function ids lose what does not fit in 24 bits. -/
def encode (h : Header) : List UInt8 :=
  bigEndian h.firstWord ++ bigEndian h.correlationId ++ bigEndian h.payloadSize

def decode (bytes : ByteArray) : Except FrameError Header :=
  if h : 12 ≤ bytes.size then
    match FrameKind.ofValue? bytes[0] with
    | none => .error (.unknownKind bytes[0])
    | some kind =>
      .ok {
        kind
        functionId := ofBigEndian 0 bytes[1] bytes[2] bytes[3]
        correlationId := ofBigEndian bytes[4] bytes[5] bytes[6] bytes[7]
        payloadSize := ofBigEndian bytes[8] bytes[9] bytes[10] bytes[11] }
  else .error (.truncated size bytes.size)

def function (h : Header) : HostFunction := .ofValue h.functionId

@[simp] theorem length_encode (h : Header) : h.encode.length = size := rfl

end Header

end RemoteMenu
