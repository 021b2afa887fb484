import RemoteMenu.Rehearsal.Program
import Std.Time.DateTime.Timestamp

/-!
# The command line

The only place where files, the clock and the terminal are touched.
-/

namespace RemoteMenu.CommandLine

open Rehearsal

def readFile (path : String) : IO File := do
  try
    return .text (← IO.FS.readFile path)
  catch error =>
    match error with
    | .noFileOrDirectory .. => return .absent
    | _ => return .unreadable

def readClock : IO Timestamp := do
  let now ← Std.Time.Timestamp.now
  return now.toNanosecondsSinceUnixEpoch.toInt / 1000

def readHome : IO (Option String) := do
  return (← IO.getEnv "HOME").filter fun home => !home.isEmpty

/-- What is written where something went wrong. -/
def complaint (ending : Ending) : Option String :=
  match ending.failure with
  | some failure => some ("Error: " ++ failure)
  | none => if ending.code = 0 then none else some "For more information, try '--help'."

end RemoteMenu.CommandLine

def main (arguments : List String) : IO UInt32 := do
  let ending ← RemoteMenu.Rehearsal.run
    { read := RemoteMenu.CommandLine.readFile
      home := ← RemoteMenu.CommandLine.readHome
      clock := RemoteMenu.CommandLine.readClock }
    arguments
  IO.print ending.output
  if let some text := RemoteMenu.CommandLine.complaint ending then IO.eprintln text
  return ending.code.toUInt32
