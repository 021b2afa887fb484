import RemoteMenu.Toml.Scalar

/-!
# TOML documents

A document is a list of lines: headers, and keys with their values. A value may go on over several
lines. A key belongs to the table of the last header before it.
-/

namespace RemoteMenu.Toml

def dropBlank : List Token → List Token
  | .blank _ :: rest => rest
  | rest => rest

def dropLines : List Token → List Token
  | .blank _ :: rest | .lineEnd :: rest => dropLines rest
  | rest => rest

/-- How many parts a key may have, and how many arrays and inline tables a value may nest. -/
def depthLimit : Nat := 79

/-! ### Keys -/

def isKeyChar (c : Char) : Bool := c.isAlphanum || c = '_' || c = '-'

def readKeyPart : Token → Option String
  | .word text => if text.toList.all isKeyChar then some text else none
  | .quoted text => some text
  | _ => none

theorem length_dropBlank_le (rest : List Token) : (dropBlank rest).length ≤ rest.length := by
  unfold dropBlank; split
  · exact Nat.le_succ _
  · exact Nat.le_refl _

/-- The parts of a key, and what follows it and a blank. -/
def readParts (line : List Token) : Option (List String × List Token) :=
  match line with
  | [] => none
  | token :: rest =>
    match h : dropBlank rest with
    | .dot :: more =>
      have : more.length < rest.length := by
        have := length_dropBlank_le rest
        simp only [h, List.length_cons] at this
        omega
      have := length_dropBlank_le more
      match readKeyPart token, readParts (dropBlank more) with
      | some part, some (parts, rest) => some (part :: parts, rest)
      | _, _ => none
    | rest => (readKeyPart token).map fun part => ([part], rest)
termination_by line.length
decreasing_by simp only [List.length_cons]; omega

def readKey (line : List Token) : Option (List String × List Token) := do
  let (parts, rest) ← readParts line
  if parts.length ≤ depthLimit then return (parts, rest) else none

/-! ### Values -/

/-- The text of the words and dots in front, and what follows it. -/
def takeText : List Token → String × List Token
  | .word text :: rest =>
    let (more, rest) := takeText rest
    (text ++ more, rest)
  | .dot :: rest =>
    let (more, rest) := takeText rest
    ("." ++ more, rest)
  | rest => ("", rest)

/-- A value without quotes. A date may be set apart from its time by a single blank. -/
def readPlain (line : List Token) : Option (Item × List Token) :=
  let (text, rest) := takeText line
  let both :=
    match rest with
    | .blank " " :: more =>
      let (time, more) := takeText more
      if isDate text.toList && isMoment (text ++ " " ++ time).toList then some (Item.moment, more)
      else none
    | _ => none
  both.or ((readScalar text).map (·, rest))

mutual

/-- A value that nests up to `depth` arrays and inline tables. No value has more parts than
`fuel`. -/
def readValue : (fuel depth : Nat) → List Token → Option (Item × List Token)
  | 0, _, _ => none
  | fuel + 1, depth, line =>
    match line, depth with
    | .quoted text :: rest, _ | .block text :: rest, _ => some (.string text, rest)
    | .openBracket :: _, 0 | .openBrace :: _, 0 => none
    | .openBracket :: rest, depth + 1 => readArray fuel depth [] (dropLines rest)
    | .openBrace :: rest, depth + 1 =>
      match dropBlank rest with
      | .closeBrace :: rest => some (.inline [], rest)
      | rest => readPairs fuel depth [] rest
    | line, _ => readPlain line

/-- The items of an array, after those in `items`, which are last first. -/
def readArray : (fuel depth : Nat) → (items : List Item) → List Token →
    Option (Item × List Token)
  | 0, _, _, _ => none
  | _ + 1, _, items, .closeBracket :: rest => some (.array items.reverse, rest)
  | fuel + 1, depth, items, rest => do
    let (item, rest) ← readValue fuel depth rest
    match dropLines rest with
    | .comma :: rest => readArray fuel depth (item :: items) (dropLines rest)
    | .closeBracket :: rest => return (.array (item :: items).reverse, rest)
    | _ => none

def readPairs : (fuel depth : Nat) → (entries : Entries) → List Token →
    Option (Item × List Token)
  | 0, _, _, _ => none
  | fuel + 1, depth, entries, rest => do
    let (key, rest) ← readKey rest
    match rest with
    | .equals :: rest =>
      let (item, rest) ← readValue fuel depth (dropBlank rest)
      let entries ← entries.assign item key
      match dropBlank rest with
      | .comma :: rest => readPairs fuel depth entries (dropBlank rest)
      | .closeBrace :: rest => return (.inline entries, rest)
      | _ => none
    | _ => none

end

/-! ### Lines -/

/-- The tables of a text, and the keys of the header that the next lines belong to. -/
structure Document where
  root : Entries := []
  header : List String := []

namespace Document

/-- Reads a line, up to a blank before its end. -/
def readLine (d : Document) : List Token → Option (Document × List Token)
  | .openBracket :: .openBracket :: rest => do
    let (key, rest) ← readKey (dropBlank rest)
    match rest with
    | .closeBracket :: .closeBracket :: rest =>
      return ({ root := ← d.root.define openElement key, header := key }, dropBlank rest)
    | _ => none
  | .openBracket :: rest => do
    let (key, rest) ← readKey (dropBlank rest)
    match rest with
    | .closeBracket :: rest =>
      return ({ root := ← d.root.define openTable key, header := key }, dropBlank rest)
    | _ => none
  | line => do
    let (key, rest) ← readKey line
    match rest with
    | .equals :: rest =>
      let (item, rest) ← readValue (rest.length + 1) depthLimit (dropBlank rest)
      return ({ d with root := ← d.root.within (Entries.assign item key) d.header }, dropBlank rest)
    | _ => none

/-- Reads all lines. There are no more of them than `fuel`. -/
def readLines : (fuel : Nat) → Document → List Token → Option Document
  | 0, _, _ => none
  | fuel + 1, d, rest =>
    match dropLines rest with
    | [] => some d
    | line => do
      match ← d.readLine line with
      | (d, []) => return d
      | (d, .lineEnd :: rest) => readLines fuel d rest
      | _ => none

end Document

/-- The tables that a text defines. A mark of the byte order may stand in front. -/
def parse (text : String) : Option Entries := do
  let cs :=
    match text.toList with
    | '\ufeff' :: cs => cs
    | cs => cs
  let line ← tokens cs
  let document ← Document.readLines (line.length + 1) {} line
  return document.root

end RemoteMenu.Toml
