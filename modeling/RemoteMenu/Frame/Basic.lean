import RemoteMenu.Frame.Header

/-!
# Frames

A header, a payload, and bulk data after it. The payload's size stands in the header, so the header
is computed from the frame; whatever follows the payload is bulk.
-/

namespace RemoteMenu

structure Frame where
  kind : FrameKind
  functionId : UInt32
  correlationId : UInt32
  payload : ByteArray
  /-- Opaque data after the payload; empty if there is none. -/
  bulk : ByteArray

namespace Frame

def header (f : Frame) : Header where
  kind := f.kind
  functionId := f.functionId
  correlationId := f.correlationId
  payloadSize := f.payload.size.toUInt32

def encodedSize (f : Frame) : Nat :=
  Header.size + f.payload.size + f.bulk.size

def request (function : HostFunction) (correlationId : UInt32) (text : String) :
    Except FrameError Frame := do
  let payload := text.toUTF8
  checkPayloadSize payload.size
  return { kind := .request, functionId := function.value, correlationId, payload, bulk := .empty }

/-- The frame's bytes, if its function id and its payload are within their limits. -/
def assemble (f : Frame) : Except FrameError ByteArray := do
  checkFunctionId f.functionId
  checkPayloadSize f.payload.size
  return f.header.encode.toByteArray ++ f.payload ++ f.bulk

/-- The frame that bytes spell. The size that the header declares has to be there and within the
limit. -/
def parse (bytes : ByteArray) : Except FrameError Frame := do
  let header ← Header.decode bytes
  let declared := header.payloadSize.toNat
  let available := bytes.size - Header.size
  if available < declared then throw (.payloadOverrun declared available)
  checkPayloadSize declared
  let body := Header.size + declared
  return {
    kind := header.kind
    functionId := header.functionId
    correlationId := header.correlationId
    payload := bytes.extract Header.size body
    bulk := bytes.extract body bytes.size }

end Frame

end RemoteMenu
