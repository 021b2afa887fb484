/-!
# JSON values and their text

`Value.text` writes a value on one line, `Value.prettyText` over several. Both come from one
function of a `Style`, so what holds of the writer holds of both.
-/

namespace RemoteMenu.Json

/-- A JSON value as this library writes it; its numbers are whole. -/
inductive Value
  | null
  | bool (b : Bool)
  | number (n : Int)
  | string (s : String)
  | array (items : List Value)
  | object (members : List (String × Value))
  deriving Inhabited

/-- How the parts of a value are set apart. -/
inductive Style
  /-- Without any blank. -/
  | compact
  /-- One item to a line, indented by two blanks for each container around it, and a blank after
  each colon. -/
  | pretty
  deriving Repr, DecidableEq

/-- What goes before an item, or a closing bracket, inside `depth` containers. -/
def Style.lead : Style → (depth : Nat) → List Char
  | .compact, _ => []
  | .pretty, depth => '\n' :: List.replicate (2 * depth) ' '

def Style.colon : Style → List Char
  | .compact => [':']
  | .pretty => [':', ' ']

/-! ### Strings -/

def escape (c : Char) : List Char :=
  if c = '"' then ['\\', '"']
  else if c = '\\' then ['\\', '\\']
  else if c = '\n' then ['\\', 'n']
  else if c = '\r' then ['\\', 'r']
  else if c = '\t' then ['\\', 't']
  else if c = '\x08' then ['\\', 'b']
  else if c = '\x0c' then ['\\', 'f']
  else if c.toNat < 0x20 then
    ['\\', 'u', '0', '0', Nat.digitChar (c.toNat / 16), Nat.digitChar (c.toNat % 16)]
  else [c]

def quoted (s : String) : List Char :=
  '"' :: (s.toList.flatMap escape ++ ['"'])

/-! ### Values -/

mutual

def Value.write (style : Style) (depth : Nat) : Value → List Char
  | .null => "null".toList
  | .bool true => "true".toList
  | .bool false => "false".toList
  | .number n => (toString n).toList
  | .string s => quoted s
  | .array [] => ['[', ']']
  | .array (v :: vs) =>
    '[' :: (style.lead (depth + 1) ++ v.write style (depth + 1) ++
      (writeItems style (depth + 1) vs ++ (style.lead depth ++ [']'])))
  | .object [] => ['\x7b', '\x7d']
  | .object ((k, v) :: ms) =>
    '\x7b' :: (style.lead (depth + 1) ++ quoted k ++ style.colon ++ v.write style (depth + 1) ++
      (writeMembers style (depth + 1) ms ++ (style.lead depth ++ ['\x7d'])))

def writeItems (style : Style) (depth : Nat) : List Value → List Char
  | [] => []
  | v :: vs => ',' :: (style.lead depth ++ v.write style depth ++ writeItems style depth vs)

def writeMembers (style : Style) (depth : Nat) : List (String × Value) → List Char
  | [] => []
  | (k, v) :: ms =>
    ',' :: (style.lead depth ++ quoted k ++ style.colon ++ v.write style depth ++
      writeMembers style depth ms)

end

def Value.text (v : Value) : String := .ofList (v.write .compact 0)

def Value.prettyText (v : Value) : String := .ofList (v.write .pretty 0)

/-! ### Members -/

/-- A member that is written only if there is something to write. -/
def member? (key : String) (value : Option Value) : List (String × Value) :=
  value.toList.map (key, ·)

def stringsMember? (key : String) (strings : List String) : List (String × Value) :=
  if strings.isEmpty then [] else [(key, .array (strings.map .string))]

def Value.natural (n : Nat) : Value := .number n

end RemoteMenu.Json
