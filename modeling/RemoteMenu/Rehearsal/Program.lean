import RemoteMenu.Menu.Text
import RemoteMenu.Rehearsal.DryRun
import RemoteMenu.Rehearsal.Help
import RemoteMenu.Settings.File

/-!
# The program

A run of the program reads its files from its `Surroundings` and ends with what it prints. Files are read
in a fixed order: the settings, the menu that the host shows, the menu that is wanted. The first one
that fails ends the run.
-/

namespace RemoteMenu.Rehearsal

inductive File
  | absent
  | unreadable
  | text (content : String)
  deriving Repr, DecidableEq

/-- What a run takes from outside. -/
structure Surroundings (m : Type → Type) where
  read : (path : String) → m File
  /-- The directory of the user. -/
  home : Option String
  clock : m Timestamp

structure Ending where
  code : UInt8
  output : String := ""
  /-- What went wrong, unless the command line itself is wrong. -/
  failure : Option String := none
  deriving Repr, DecidableEq

/-! ### Files -/

/-- The text of a file of some kind, which has to be there. -/
def File.contents (kind path : String) : File → Except String String
  | .text content => .ok content
  | .absent | .unreadable => .error ("Failed to read " ++ kind ++ " file: " ++ path)

def readSettings (path : String) (file : File) : Except String Settings := do
  match Settings.ofFile (← file.contents "config" path) with
  | some settings => return settings
  | none => throw ("Failed to parse config file: " ++ path)

def readMenu (path : String) (file : File) : Except String Menu := do
  match Menu.ofJson (← file.contents "menu" path).toUTF8.toList with
  | .ok menu => return menu
  | .error _ => throw ("Failed to parse menu file: " ++ path)

def below (directory name : String) : String :=
  if directory.endsWith "/" then directory ++ name else directory ++ "/" ++ name

/-- Where the settings are if the command line does not say. -/
def usualConfig (home : String) : String := below (below home ".menusync") "config.toml"

variable {m : Type → Type} [Monad m]

/-- The settings of a run: from the file that the command line names, or else from the usual one, if
it is there. -/
def findSettings (around : Surroundings m) (named : Option String) : ExceptT String m Settings := do
  match named with
  | some path => readSettings path (← around.read path)
  | none =>
    match around.home with
    | none => throw "Home directory not found"
    | some home =>
      let path := usualConfig home
      match ← around.read path with
      | .absent => return {}
      | file => readSettings path file

def findMenu (around : Surroundings m) (path : String) : ExceptT String m Menu := do
  readMenu path (← around.read path)

/-! ### Running -/

def textOf (lines : List String) : String := String.join (lines.map (· ++ "\n"))

def answer (around : Surroundings m) (call : Invocation) : ExceptT String m String := do
  let settings ← findSettings around call.config
  let current ←
    match call.current with
    | some path => findMenu around path
    | none => pure []
  let target ← findMenu around call.target
  let target := if settings.disambiguateTitles then target.disambiguate else target
  let shown (json : Json.Value) (lines : List String) : String :=
    if call.json then json.prettyText ++ "\n" else textOf lines
  match call.command with
  | .plan =>
    let plan ← (Plan.make settings current target).mapError haltMessage
    return shown plan.toJson plan.lines
  | .dryRun =>
    let result ← (DryRun.make around.clock call.failAdds settings current target : m _)
    let run ← result.mapError haltMessage
    return shown run.toJson run.lines

def run (around : Surroundings m) (arguments : List String) : m Ending := do
  match Invocation.ofArguments arguments with
  | .error (.help topic) => return { code := 0, output := textOf topic.lines }
  | .error .version => return { code := 0, output := textOf [versionLine] }
  | .error .misuse => return { code := 2 }
  | .ok call =>
    match ← (answer around call).run with
    | .ok output => return { code := 0, output }
    | .error failure => return { code := 1, failure }

end RemoteMenu.Rehearsal
