import RemoteMenu.Command.Basic
import RemoteMenu.Frame.Basic
import RemoteMenu.Menu.Text

/-!
# Commands as JSON

A command is an object that names the command and then gives its fields. A reader takes the name
from wherever it stands. It looks through the whole text before it turns to the fields, so that a
broken text is told from a command that does not fit.
-/

namespace RemoteMenu

open Json

/-! ### Writing -/

def Addition.members (a : Addition) : List (String × Value) :=
  let id := Value.natural a.id.value.toNat
  let place :=
    [("parent_id", match a.parent with
      | some id => Value.natural id.value.toNat
      | none => .null),
     ("position", .natural a.position.toNat), ("menu_name", .string a.name)]
  let texts :=
    member? "secondary_text" (a.secondaryText.map .string) ++
      member? "tertiary_text" (a.tertiaryText.map .string)
  let icons :=
    member? "icon" (a.icon.map .string) ++ member? "secondary_icon" (a.secondaryIcon.map .string)
  match a.role with
  | .command voiceCommands =>
    ("command", .string "add_command") :: ("cmd_id", id) ::
      (place ++ texts ++ stringsMember? "vr_commands" voiceCommands ++ icons)
  | .submenu layout =>
    ("command", .string "add_sub_menu") :: ("menu_id", id) ::
      (place ++ texts ++ icons ++ [("layout", .string layout.name)])

def Command.toJson : Command → Value
  | .add a => .object a.members
  | .delete .command id =>
    .object [("command", .string "delete_command"), ("cmd_id", .natural id.value.toNat)]
  | .delete .submenu id =>
    .object [("command", .string "delete_sub_menu"), ("menu_id", .natural id.value.toNat)]

def Command.toFrame (c : Command) (correlationId : UInt32) : Except FrameError Frame :=
  Frame.request c.function correlationId c.toJson.text

/-! ### Names -/

/-- What a command's name says: whether it adds, and which kind of entry. -/
structure CommandName where
  adds : Bool
  kind : EntryKind
  deriving Repr, DecidableEq

def CommandName.ofText? : String → Option CommandName
  | "add_command" => some ⟨true, .command⟩
  | "add_sub_menu" => some ⟨true, .submenu⟩
  | "delete_command" => some ⟨false, .command⟩
  | "delete_sub_menu" => some ⟨false, .submenu⟩
  | _ => none

def CommandName.read (d : Draft) : Except Failure CommandName := do
  match ofText? (← d.readString) with
  | some name => return name
  | none => throw .mismatched

/-- Looks through the members of a command for its name, which occurs once. -/
def CommandName.readAmong (nesting : Nat) (found : Option CommandName) :
    List (Key × Draft) → Except Failure (Option CommandName)
  | [] => .ok found
  | (key, value) :: members => do
    if (← key) = "command" then
      if found.isSome then throw .mismatched
      let name ← read value
      readAmong nesting (some name) members
    else
      value.readAny nesting
      readAmong nesting found members

/-- Whether a member is not the one with the name. -/
def isOwnMember : Key × Draft → Bool
  | (.ok key, _) => key ≠ "command"
  | (.error _, _) => true

def CommandName.split (nesting : Nat) : Draft → Except Failure (CommandName × Draft)
  | .object members ending =>
    if nesting = 0 then .error .malformed
    else do
      let found ← readAmong (nesting - 1) none members
      ending.read
      match found with
      | some name => return (name, .object (members.filter isOwnMember) ending)
      | none => throw .mismatched
  | .array items ending =>
    if nesting = 0 then .error .malformed
    else match items with
      | [] => do
        ending.read
        throw .mismatched
      | d :: ds => do
        let name ← read d
        ds.forM (Draft.readAny (nesting - 1))
        ending.read
        return (name, .array ds ending)
  | d => .error d.misfit

/-! ### Fields -/

/-- A layout inside a command; an empty object is as good as nothing for its content. -/
def Layout.readLoose (nesting : Nat) : Draft → Except Failure Layout :=
  Draft.readVariant (fun name content =>
    match ofName? name, content with
    | none, _ => .error .mismatched
    | some layout, some (.object [] .closed) => .ok layout
    | some layout, content => do
      Draft.readNothing content
      return layout) nesting

def Addition.idField (key : String) : RecordField Addition where
  key
  presence := .required
  read := fun d a => do return { a with id := ⟨← d.readWord⟩ }

def Addition.placeFields : List (RecordField Addition) :=
  [ { key := "parent_id", presence := .named
      read := fun d a => do
        return { a with parent := (← d.readOption Draft.readWord).map RemoteId.mk } },
    { key := "position", presence := .required
      read := fun d a => do return { a with position := ← d.readWord } },
    { key := "menu_name", presence := .required
      read := fun d a => do return { a with name := ← d.readString } },
    { key := "secondary_text", presence := .optional
      read := fun d a => do return { a with secondaryText := ← d.readOption Draft.readString } },
    { key := "tertiary_text", presence := .optional
      read := fun d a => do return { a with tertiaryText := ← d.readOption Draft.readString } } ]

def Addition.iconFields : List (RecordField Addition) :=
  [ { key := "icon", presence := .optional
      read := fun d a => do return { a with icon := ← d.readOption Draft.readString } },
    { key := "secondary_icon", presence := .optional
      read := fun d a => do return { a with secondaryIcon := ← d.readOption Draft.readString } } ]

def Addition.voiceField (nesting : Nat) : RecordField Addition where
  key := "vr_commands"
  presence := .optional
  read := fun d a => do return { a with role := .command (← d.readList Draft.readString nesting) }

def Addition.layoutField (nesting : Nat) : RecordField Addition where
  key := "layout"
  presence := .required
  read := fun d a => do return { a with role := .submenu (← Layout.readLoose nesting d) }

/-- The fields of an addition, in the order in which an array gives them. -/
def Addition.fields (nesting : Nat) : EntryKind → List (RecordField Addition)
  | .command => idField "cmd_id" :: (placeFields ++ [voiceField nesting] ++ iconFields)
  | .submenu => idField "menu_id" :: (placeFields ++ iconFields ++ [layoutField nesting])

def Addition.blank (kind : EntryKind) : Addition where
  id := .unset
  parent := none
  position := 0
  name := ""
  role :=
    match kind with
    | .command => .command []
    | .submenu => .submenu .list

def deletionFields (kind : EntryKind) : List (RecordField RemoteId) :=
  [ { key := match kind with
        | .command => "cmd_id"
        | .submenu => "menu_id"
      presence := .required
      read := fun d _ => do return ⟨← d.readWord⟩ } ]

def CommandName.readFields (name : CommandName) (nesting : Nat) (d : Draft) :
    Except Failure Command :=
  if name.adds then
    .add <$> d.readRecord (Addition.fields (nesting - 1) name.kind) (.blank name.kind) nesting
  else .delete name.kind <$> d.readRecord (deletionFields name.kind) .unset nesting

/-- A command. Once its text is known to be sound, all that can fail is that its fields do not fit. -/
def Command.read (nesting : Nat) (d : Draft) : Except Failure Command := do
  let (name, fields) ← CommandName.split nesting d
  match name.readFields nesting fields with
  | .ok command => return command
  | .error _ => throw .mismatched

def Command.ofJson (text : List UInt8) : Except Failure Command :=
  Json.decode (read nestingLimit) text

end RemoteMenu
