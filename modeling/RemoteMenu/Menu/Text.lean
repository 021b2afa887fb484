import RemoteMenu.Json.Decode
import RemoteMenu.Json.Value
import RemoteMenu.Menu.Node

/-!
# Menus as JSON

A node is an object of its fields. Absent texts, artworks and hints are left out, and so are empty
lists and the mark of an emptied submenu; the number of the title and the id are always written.
-/

namespace RemoteMenu

open Json

/-! ### Writing -/

def Layout.name : Layout → String
  | .list => "list"
  | .tiles => "tiles"

def ArtworkSource.toJson : ArtworkSource → Value
  | .static icon => .object [("static", .string icon)]
  | .file path => .object [("file", .string path)]

def Artwork.toJson (a : Artwork) : Value :=
  .object [("name", .string a.name), ("source", a.source.toJson), ("is_template", .bool a.isTemplate)]

def Entry.members (e : Entry) : List (String × Value) :=
  ("title", .string e.title) ::
    (member? "secondary_text" (e.secondaryText.map .string) ++
    member? "tertiary_text" (e.tertiaryText.map .string) ++
    stringsMember? "voice_commands" e.voiceCommands ++
    member? "icon" (e.icon.map Artwork.toJson) ++
    member? "secondary_icon" (e.secondaryIcon.map Artwork.toJson) ++
    member? "submenu_layout" (e.layout.map fun l => .string l.name))

mutual

def Node.toJson : Node → Value
  | ⟨entry, children, emptySubmenu, disambiguator, remoteId⟩ =>
    .object (entry.members ++
      (if children.isEmpty then [] else [("children", .array (Menu.itemsToJson children))]) ++
      (if emptySubmenu then [("empty_submenu", .bool true)] else []) ++
      [("disambiguator", .natural disambiguator.toNat), ("remote_id", .natural remoteId.value.toNat)])

def Menu.itemsToJson : Menu → List Value
  | [] => []
  | n :: ns => n.toJson :: Menu.itemsToJson ns

end

def Menu.toJson (menu : Menu) : Value := .array menu.itemsToJson

/-! ### Reading -/

def Layout.ofName? : String → Option Layout
  | "list" => some .list
  | "tiles" => some .tiles
  | _ => none

def Layout.read (nesting : Nat) : Draft → Except Failure Layout :=
  Draft.readVariant (fun name content =>
    match ofName? name with
    | none => .error .mismatched
    | some layout => do
      Draft.readNothing content
      return layout) nesting

def ArtworkSource.read (nesting : Nat) : Draft → Except Failure ArtworkSource :=
  Draft.readVariant (fun name content =>
    match name, content with
    | "static", some d => .static <$> d.readString
    | "file", some d => .file <$> d.readString
    | _, _ => .error .mismatched) nesting

def Artwork.fields (nesting : Nat) : List (RecordField Artwork) :=
  [ { key := "name", presence := .required
      read := fun d a => do return { a with name := ← d.readString } },
    { key := "source", presence := .required
      read := fun d a => do return { a with source := ← ArtworkSource.read nesting d } },
    { key := "is_template", presence := .optional
      read := fun d a => do return { a with isTemplate := ← d.readBool } } ]

def Artwork.read (nesting : Nat) : Draft → Except Failure Artwork :=
  Draft.readRecord (fields (nesting - 1)) (ofIcon "") nesting

/-- The fields of a node, where `readChildren` reads the menu below it. -/
def Node.fields (readChildren : Draft → Except Failure Menu) (nesting : Nat) : List (RecordField Node) :=
  [ { key := "title", presence := .required
      read := fun d n => do return { n with entry.title := ← d.readString } },
    { key := "secondary_text", presence := .optional
      read := fun d n => do
        return { n with entry.secondaryText := ← d.readOption Draft.readString } },
    { key := "tertiary_text", presence := .optional
      read := fun d n => do
        return { n with entry.tertiaryText := ← d.readOption Draft.readString } },
    { key := "voice_commands", presence := .optional
      read := fun d n => do
        return { n with entry.voiceCommands := ← d.readList Draft.readString nesting } },
    { key := "icon", presence := .optional
      read := fun d n => do
        return { n with entry.icon := ← d.readOption (Artwork.read nesting) } },
    { key := "secondary_icon", presence := .optional
      read := fun d n => do
        return { n with entry.secondaryIcon := ← d.readOption (Artwork.read nesting) } },
    { key := "submenu_layout", presence := .optional
      read := fun d n => do
        return { n with entry.layout := ← d.readOption (Layout.read nesting) } },
    { key := "children", presence := .optional
      read := fun d n => do return { n with children := ← readChildren d } },
    { key := "empty_submenu", presence := .optional
      read := fun d n => do return { n with emptySubmenu := ← d.readBool } },
    { key := "disambiguator", presence := .optional
      read := fun d n => do return { n with disambiguator := ← d.readWord } },
    { key := "remote_id", presence := .optional
      read := fun d n => do return { n with remoteId := ⟨← d.readWord⟩ } } ]

/-- A node. Each one takes a nesting for its object and one for the list of its children. -/
def Node.read : (nesting : Nat) → Draft → Except Failure Node
  | 0 => Draft.readRecord [] { entry := { title := "" } } 0
  | 1 =>
    Draft.readRecord (fields (Draft.readList (fun _ => .error .malformed) 0) 0)
      { entry := { title := "" } } 1
  | nesting + 2 =>
    Draft.readRecord (fields (Draft.readList (Node.read nesting) (nesting + 1)) (nesting + 1))
      { entry := { title := "" } } (nesting + 2)

def Menu.read (nesting : Nat) : Draft → Except Failure Menu :=
  Draft.readList (Node.read (nesting - 1)) nesting

def Menu.ofJson (text : List UInt8) : Except Failure Menu :=
  Json.decode (Menu.read nestingLimit) text

end RemoteMenu
