/-!
# Tables of a TOML file

Keys are defined once. How a table came to be decides who may add to it: a header may name a table
that so far is only implied by longer headers, dotted keys may add to tables that dotted keys made,
and an inline table is complete as it stands.
-/

namespace RemoteMenu.Toml

inductive Origin
  /-- It has a header of its own. -/
  | header
  /-- It is part of a longer header. -/
  | implied
  /-- It is part of a dotted key. -/
  | dotted
  deriving Repr, DecidableEq

inductive Item
  | bool (b : Bool)
  | integer (n : Int)
  | float
  /-- A date, a time, or both. -/
  | moment
  | string (s : String)
  | array (items : List Item)
  | inline (entries : List (String × Item))
  | table (origin : Origin) (entries : List (String × Item))
  /-- Tables that share a header in double brackets. -/
  | tables (elements : List (List (String × Item)))

abbrev Entries := List (String × Item)

namespace Entries

def find? (entries : Entries) (key : String) : Option Item :=
  (List.find? (·.1 = key) entries).map (·.2)

/-- Puts something else at a key, from what is there so far. -/
def update (key : String) (change : Option Item → Option Item) : Entries → Option Entries
  | [] => (change none).map fun item => [(key, item)]
  | (k, item) :: entries =>
    if k = key then (change (some item)).map fun item => (k, item) :: entries
    else (update key change entries).map ((k, item) :: ·)

end Entries

/-- Changes the table that a key leads through; of several the last one. -/
def Item.through (change : Entries → Option Entries) : Item → Option Item
  | .table origin entries => (change entries).map (.table origin)
  | .tables elements =>
    match elements.getLast? with
    | none => none
    | some last => (change last).map fun last => .tables (elements.dropLast ++ [last])
  | _ => none

/-- What a table gets from its own header. -/
def openTable : Option Item → Option Item
  | none => some (.table .header [])
  | some (.table .implied entries) => some (.table .header entries)
  | some _ => none

/-- What a header in double brackets adds. -/
def openElement : Option Item → Option Item
  | none => some (.tables [[]])
  | some (.tables elements) => some (.tables (elements ++ [[]]))
  | some _ => none

/-- Goes along the keys of a header; the last one is opened. -/
def Entries.define (opening : Option Item → Option Item) : List String → Entries → Option Entries
  | [], _ => none
  | [key], entries => entries.update key opening
  | key :: keys, entries =>
    entries.update key fun
      | none => (define opening keys []).map (.table .implied)
      | some item => item.through (define opening keys)

/-- Changes the table that a header has opened. -/
def Entries.within (change : Entries → Option Entries) : List String → Entries → Option Entries
  | [], entries => change entries
  | key :: keys, entries =>
    entries.update key fun
      | none => none
      | some item => item.through (within change keys)

/-- Gives a value to a key, which may be dotted. It may lead through any table without a header of
its own, and through the last of several; the last table on its way is one of dotted keys. -/
def Entries.assign (value : Item) : List String → Entries → Option Entries
  | [], _ => none
  | [key], entries =>
    entries.update key fun
      | none => some value
      | some _ => none
  | key :: keys, entries =>
    entries.update key fun
      | none => (assign value keys []).map (.table .dotted)
      | some (.table .header _) => none
      | some (.table .dotted below) => (assign value keys below).map (.table .dotted)
      | some item => if keys.length = 1 then none else item.through (assign value keys)

def Item.entries? : Item → Option Entries
  | .inline entries | .table _ entries => some entries
  | _ => none

def Item.isEmpty : Item → Bool
  | .array items => items.isEmpty
  | .inline entries | .table _ entries => entries.isEmpty
  | _ => false

end RemoteMenu.Toml
