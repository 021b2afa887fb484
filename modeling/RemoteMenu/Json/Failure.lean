/-!
# Failures to read JSON

Reading goes through a text once, from left to right, and stops at the first fault. What kind of
fault that was is all that a reader reports.
-/

namespace RemoteMenu.Json

inductive Failure
  /-- The text ends before the value does. -/
  | truncated
  /-- The text breaks the rules of JSON, or nests too deep. -/
  | malformed
  /-- The text is sound so far, but it holds another kind of value than the one wanted. -/
  | mismatched
  deriving Repr, DecidableEq

def Failure.message : Failure → String
  | .truncated => "unexpected end of text"
  | .malformed => "malformed text"
  | .mismatched => "unexpected value"

end RemoteMenu.Json
