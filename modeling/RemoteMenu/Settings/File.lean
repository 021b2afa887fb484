import RemoteMenu.Settings.Basic
import RemoteMenu.Toml.Document

/-!
# The settings file

A TOML file whose table `sync` holds the settings. What the file leaves out is as usual; what else
it holds does not matter. In place of the table there may be an array of its values, in their order,
or a date or a time, which leaves all of it as usual.
-/

namespace RemoteMenu.Settings

open Toml

/-- The switch that an item stands for; without an item it is as usual. -/
def readFlag (usual : Bool) : Option Item → Option Bool
  | none => some usual
  | some (.bool b) => some b
  | some _ => none

/-- The layout that an item names: as a string, or as the only key of a table with nothing at it.
Without an item it is as usual. -/
def readLayout (usual : Layout) : Option Item → Option Layout
  | none => some usual
  | some (.string name) => Layout.ofName? name
  | some item =>
    match item.entries? with
    | some [(name, below)] => if below.isEmpty then Layout.ofName? name else none
    | _ => none

def ofItems (disambiguate prefetch layout : Option Item) : Option Settings := do
  let usual : Settings := {}
  return {
    disambiguateTitles := ← readFlag usual.disambiguateTitles disambiguate
    prefetchArtworks := ← readFlag usual.prefetchArtworks prefetch
    defaultLayout := ← readLayout usual.defaultLayout layout }

/-- The settings in a table, or in an array of its values. A date or a time has none to give. -/
def ofItem : Item → Option Settings
  | .moment => some {}
  | .array items => ofItems items[0]? items[1]? items[2]?
  | item => do
    let entries ← item.entries?
    ofItems (entries.find? "disambiguate_titles") (entries.find? "prefetch_artworks")
      (entries.find? "default_submenu_layout")

def ofFile (text : String) : Option Settings := do
  match (← parse text).find? "sync" with
  | none => return {}
  | some item => ofItem item

def toFile (s : Settings) : String :=
  "[sync]\n" ++
    s!"disambiguate_titles = {s.disambiguateTitles}\n" ++
    s!"prefetch_artworks = {s.prefetchArtworks}\n" ++
    "default_submenu_layout = \"" ++ s.defaultLayout.name ++ "\"\n"

end RemoteMenu.Settings
