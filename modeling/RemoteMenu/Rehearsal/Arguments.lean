/-!
# Command lines

The program has options of its own, then the name of a command, then the options of the command. An
option is a switch, or it has a value: attached to it, or as the next argument. A value that stands
alone is looked at only with the next option or at the end of its part (`Seen.settle`), so a request
for help in between goes first.
-/

namespace RemoteMenu.Rehearsal

/-! ### Options -/

inductive Switch
  | help
  | version
  /-- To log more. -/
  | verbose
  | json
  | failAdds
  deriving Repr, DecidableEq

inductive PathOption
  | config
  | current
  | target
  deriving Repr, DecidableEq

def Switch.name : Switch → String
  | .help => "help"
  | .version => "version"
  | .verbose => "verbose"
  | .json => "json"
  | .failAdds => "fail-adds"

def Switch.letter? : Switch → Option Char
  | .help => some 'h'
  | .version => some 'V'
  | .verbose => some 'v'
  | .json | .failAdds => none

def PathOption.name : PathOption → String
  | .config => "config"
  | .current => "current"
  | .target => "target"

def PathOption.letter? : PathOption → Option Char
  | .config => some 'c'
  | .current | .target => none

inductive CommandKind
  | plan
  | dryRun
  deriving Repr, DecidableEq

def CommandKind.name : CommandKind → String
  | .plan => "plan"
  | .dryRun => "dry-run"

def CommandKind.ofName? (name : String) : Option CommandKind :=
  [plan, dryRun].find? (·.name = name)

/-- The parts of a command line: what comes before the command, and what comes after it. -/
inductive Part
  | program
  | command (kind : CommandKind)
  deriving Repr, DecidableEq

def Part.switches : Part → List Switch
  | .program => [.verbose, .json, .help, .version]
  | .command .plan => [.json, .help]
  | .command .dryRun => [.failAdds, .json, .help]

def Part.paths : Part → List PathOption
  | .program => [.config]
  | .command _ => [.current, .config, .target]

/-! ### Reading the options of a part -/

inductive Topic
  | part (part : Part)
  /-- The request for help that is written like a command. -/
  | help
  deriving Repr, DecidableEq

/-- Why there is nothing to run. -/
inductive Stop
  /-- Help was asked for. -/
  | help (topic : Topic)
  | version
  /-- The command line is wrong. -/
  | misuse
  deriving Repr, DecidableEq

structure Seen where
  switches : List Switch := []
  paths : List (PathOption × String) := []
  /-- The last option, if its value stands alone, and the value if it has come. -/
  pending : Option (PathOption × Option String) := none
  deriving Repr, DecidableEq

namespace Seen

def path? (seen : Seen) (o : PathOption) : Option String := seen.paths.lookup o

def awaits (seen : Seen) : Bool :=
  match seen.pending with
  | some (_, none) => true
  | _ => false

/-- Takes the value of an option, which occurs once and is not empty. -/
def give (seen : Seen) (o : PathOption) (value : String) : Except Stop Seen :=
  if value.isEmpty || (seen.path? o).isSome then .error .misuse
  else .ok { seen with paths := seen.paths ++ [(o, value)] }

def settle (seen : Seen) : Except Stop Seen :=
  match seen.pending with
  | none => .ok seen
  | some (_, none) => .error .misuse
  | some (o, some value) => { seen with pending := none : Seen }.give o value

/-- Takes a switch. Only `verbose` may come again. -/
def turnOn (part : Part) (seen : Seen) (s : Switch) : Except Stop Seen := do
  let seen ← seen.settle
  match s with
  | .help => throw (.help (.part part))
  | .version => throw .version
  | .verbose => return seen
  | s =>
    if s ∈ seen.switches then throw .misuse
    return { seen with switches := seen.switches ++ [s] }

def start (seen : Seen) (o : PathOption) (attached : Option String) : Except Stop Seen := do
  let seen ← seen.settle
  match attached with
  | some value => seen.give o value
  | none => return { seen with pending := some (o, none) }

def supply (seen : Seen) (value : String) : Except Stop Seen :=
  match seen.pending with
  | some (o, none) => .ok { seen with pending := some (o, some value) }
  | _ => .error .misuse

/-- Reads an option by its name; `text` is what follows the two dashes. -/
def readLong (part : Part) (text : List Char) (seen : Seen) : Except Stop Seen :=
  let name := String.ofList (text.takeWhile (· ≠ '='))
  let attached :=
    match text.dropWhile (· ≠ '=') with
    | [] => none
    | _ :: value => some (String.ofList value)
  match part.switches.find? (·.name = name), part.paths.find? (·.name = name) with
  | some s, _ => if attached.isSome then .error .misuse else seen.turnOn part s
  | none, some o => seen.start o attached
  | none, none => .error .misuse

def attachedTo : List Char → Option String
  | [] => none
  | '=' :: value => some (String.ofList value)
  | value => some (String.ofList value)

/-- Reads options by their letters; the value of one may follow it. -/
def readShort (part : Part) : (letters : List Char) → Seen → Except Stop Seen
  | [], seen => .ok seen
  | c :: rest, seen =>
    match part.switches.find? (·.letter? = some c), part.paths.find? (·.letter? = some c) with
    | some s, _ => do readShort part rest (← seen.turnOn part s)
    | none, some o => seen.start o (attachedTo rest)
    | none, none => .error .misuse

def read (part : Part) (argument : String) (seen : Seen) : Except Stop Seen :=
  match argument.toList with
  | '-' :: '-' :: text => readLong part text seen
  | '-' :: c :: rest => readShort part (c :: rest) seen
  | _ => seen.supply argument

end Seen

/-! ### Reading a command line -/

structure Invocation where
  command : CommandKind
  config : Option String
  current : Option String
  target : String
  json : Bool
  failAdds : Bool
  deriving Repr, DecidableEq

/-- Reads the options of a command. Nothing may follow `--`. -/
def readCommand (kind : CommandKind) (seen : Seen) : List String → Except Stop Seen
  | [] => seen.settle
  | argument :: rest => do
    if argument = "--" then
      if rest.isEmpty then seen.settle else throw .misuse
    else readCommand kind (← seen.read (.command kind) argument) rest

def helpAbout : List String → Stop
  | [] => .help (.part .program)
  | ["help"] => .help .help
  | [name] =>
    match CommandKind.ofName? name with
    | some kind => .help (.part (.command kind))
    | none => .misuse
  | _ => .misuse

/-- Reads the options of the program, its command, and the options of that. Where both give a
configuration, that of the command counts. -/
def readProgram (seen : Seen) : List String → Except Stop Invocation
  | [] => .error .misuse
  | argument :: rest => do
    if argument = "--" then throw .misuse
    else if seen.awaits then readProgram (← seen.read .program argument) rest
    else if argument = "help" then throw (helpAbout rest)
    else
      match CommandKind.ofName? argument with
      | none => readProgram (← seen.read .program argument) rest
      | some command =>
        let own ← readCommand command {} rest
        match own.path? .target with
        | none => throw .misuse
        | some target =>
          let program ← seen.settle
          return {
            command
            config := (own.path? .config).or (program.path? .config)
            current := own.path? .current
            target
            json := .json ∈ own.switches || .json ∈ program.switches
            failAdds := .failAdds ∈ own.switches }

def Invocation.ofArguments (arguments : List String) : Except Stop Invocation :=
  readProgram {} arguments

end RemoteMenu.Rehearsal
