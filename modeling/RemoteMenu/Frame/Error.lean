import RemoteMenu.Bytes.Hex
import RemoteMenu.Json.Failure

/-!
# Limits of a frame and the errors of breaking them
-/

namespace RemoteMenu

inductive FrameError
  | truncated (needed available : Nat)
  | unknownKind (value : UInt8)
  | payloadOverrun (declared available : Nat)
  | payloadTooLarge (size limit : Nat)
  | functionIdOutOfRange (id : UInt32)
  | json (failure : Json.Failure)
  deriving Repr, DecidableEq

def FrameError.message : FrameError → String
  | .truncated needed available =>
    s!"Frame truncated: need {needed} bytes, have {available}"
  | .unknownKind value => "Unknown frame type: " ++ hexNumber 2 value.toNat
  | .payloadOverrun declared available =>
    s!"Declared payload size {declared} exceeds available {available} bytes"
  | .payloadTooLarge size limit => s!"Payload size {size} exceeds maximum {limit}"
  | .functionIdOutOfRange id => "Function id " ++ hexNumber 1 id.toNat ++ " does not fit in 24 bits"
  | .json failure => "JSON payload error: " ++ failure.message

def payloadLimit : Nat := 8 * 1024 * 1024

/-- Function ids fill the 24 low bits of the header's first word. -/
def functionIdLimit : UInt32 := 0x00FFFFFF

def checkPayloadSize (size : Nat) : Except FrameError Unit :=
  if size ≤ payloadLimit then .ok () else .error (.payloadTooLarge size payloadLimit)

def checkFunctionId (id : UInt32) : Except FrameError Unit :=
  if id ≤ functionIdLimit then .ok () else .error (.functionIdOutOfRange id)

theorem checkPayloadSize_eq_ok {size : Nat} : checkPayloadSize size = .ok () ↔ size ≤ payloadLimit := by
  unfold checkPayloadSize; split <;> simp_all

theorem checkFunctionId_eq_ok {id : UInt32} : checkFunctionId id = .ok () ↔ id ≤ functionIdLimit := by
  unfold checkFunctionId; split <;> simp_all

end RemoteMenu
