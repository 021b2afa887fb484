import RemoteMenu.Json.Decode
import RemoteMenu.Menu.Text

/-!
# Settings
-/

namespace RemoteMenu

open Json

structure Settings where
  /-- Number the titles that siblings share, for hosts that refuse equal labels. -/
  disambiguateTitles : Bool := false
  /-- Upload artworks before the first command. -/
  prefetchArtworks : Bool := true
  /-- The layout of submenus that carry no hint. -/
  defaultLayout : Layout := .list
  deriving Repr, DecidableEq, Inhabited

namespace Settings

def toJson (s : Settings) : Value :=
  .object [("disambiguate_titles", .bool s.disambiguateTitles),
    ("prefetch_artworks", .bool s.prefetchArtworks),
    ("default_submenu_layout", .string s.defaultLayout.name)]

def fields (nesting : Nat) : List (RecordField Settings) :=
  [ { key := "disambiguate_titles", presence := .optional
      read := fun d s => do return { s with disambiguateTitles := ← d.readBool } },
    { key := "prefetch_artworks", presence := .optional
      read := fun d s => do return { s with prefetchArtworks := ← d.readBool } },
    { key := "default_submenu_layout", presence := .optional
      read := fun d s => do return { s with defaultLayout := ← Layout.read nesting d } } ]

/-- The settings that a JSON text spells; what it leaves out is as usual. -/
def ofJson (text : List UInt8) : Except Failure Settings :=
  Json.decode (Draft.readRecord (fields (nestingLimit - 1)) {} nestingLimit) text

end Settings

end RemoteMenu
