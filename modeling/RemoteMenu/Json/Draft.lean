import RemoteMenu.Json.Token

/-!
# JSON texts, as far as they can be read

A `Draft` is the tree that a text spells up to its first fault, with the fault at the place where
the text breaks off. Every container around that place carries the fault too, so a container whose
ending is `closed` holds no fault at all (`Draft.skip` looks no deeper than the ending). Readers walk
a draft in the order of the text: what they meet first is what they report.

`Document.read` takes the tokens of a text one by one and keeps the open containers on a stack.
-/

namespace RemoteMenu.Json

/-- What the place where a text breaks off means to those who get there. -/
structure Fault where
  /-- For one who reads a value, or a key of an object. -/
  read : Failure
  /-- For one who passes over it. -/
  skip : Failure
  /-- For one who looks for the name of a variant. -/
  name : Failure
  /-- Whether it is inside a `null`. -/
  inNull : Bool := false
  deriving Repr, DecidableEq

def Fault.plain (f : Failure) : Fault := { read := f, skip := f, name := f }

inductive Ending
  | closed
  /-- After an item the text breaks off, or inside it. -/
  | broken (fault : Fault)
  /-- The text breaks off after a comma. -/
  | dangling (fault : Fault)
  deriving Repr, DecidableEq

/-- A key, or why it cannot be read. -/
abbrev Key := Except Failure String

inductive Draft
  | null
  | bool (b : Bool)
  | number (value : Except Failure Numeral)
  | string (value : Except Failure String)
  | array (items : List Draft) (ending : Ending)
  | object (members : List (Key × Draft)) (ending : Ending)
  | broken (fault : Fault)

/-! ### Faults -/

def Token.asValue : Token → Fault
  | .finish => .plain .truncated
  | .badLiteral isNull f => { read := f, skip := f, name := .malformed, inNull := isNull }
  | .badNumber f => { read := f, skip := .malformed, name := .malformed }
  | .badString read skipped => { read, skip := skipped, name := read }
  | _ => .plain .malformed

def Token.asKey : Token → Fault
  | .finish => .plain .truncated
  | .badString read skipped => { read, skip := skipped, name := read }
  | _ => .plain .malformed

def Token.asSeparator : Token → Fault
  | .finish => .plain .truncated
  | _ => .plain .malformed

def Ending.read : Ending → Except Failure Unit
  | .closed => .ok ()
  | .broken fault | .dangling fault => .error fault.read

def Draft.skip : Draft → Except Failure Unit
  | .broken fault => .error fault.skip
  | .array _ (.broken fault) | .array _ (.dangling fault) => .error fault.skip
  | .object _ (.broken fault) | .object _ (.dangling fault) => .error fault.skip
  | _ => .ok ()

/-! ### The reader's state -/

/-- A container that waits for the value being read; what it holds is last first. -/
inductive Level
  | array (items : List Draft)
  | object (members : List (Key × Draft)) (key : Key)

/-- What may come next in the innermost open container; what it holds is last first. -/
inductive Expected
  /-- A value, for the first of the levels around it. -/
  | value
  /-- An item, or the end of an array without items. -/
  | firstItem
  /-- A comma or the end of an array. -/
  | nextItem (items : List Draft)
  /-- A key, or the end of an object without members. -/
  | firstKey
  /-- A key, after a comma. -/
  | nextKey (members : List (Key × Draft))
  | colon (members : List (Key × Draft)) (key : Key)
  /-- A comma or the end of an object. -/
  | nextMember (members : List (Key × Draft))
  /-- Nothing: the value of the whole text is complete. -/
  | nothing (root : Draft)

/-- A whole text: its value, and whether something follows it. -/
structure Document where
  root : Draft
  surplus : Bool

def deliver (value : Draft) : List Level → Expected × List Level
  | [] => (.nothing value, [])
  | .array items :: levels => (.nextItem (value :: items), levels)
  | .object members key :: levels => (.nextMember ((key, value) :: members), levels)

/-- The tree of a text that breaks off inside `value`. -/
def breakOff (fault : Fault) (value : Draft) : List Level → Document
  | [] => ⟨value, false⟩
  | .array items :: levels =>
    breakOff fault (.array (value :: items).reverse (.broken fault)) levels
  | .object members key :: levels =>
    breakOff fault (.object ((key, value) :: members).reverse (.broken fault)) levels

/-- What a step leads to: another state, or the end of reading. -/
abbrev Progress := Except Document (Expected × List Level)

def stepValue (levels : List Level) : Token → Progress
  | .null => .ok (deliver .null levels)
  | .bool b => .ok (deliver (.bool b) levels)
  | .number n => .ok (deliver (.number n) levels)
  | .string s => .ok (deliver (.string s) levels)
  | .openArray => .ok (.firstItem, levels)
  | .openObject => .ok (.firstKey, levels)
  | t => .error (breakOff t.asValue (.broken t.asValue) levels)

def step (expected : Expected) (levels : List Level) (t : Token) : Progress :=
  match expected with
  | .value => stepValue levels t
  | .firstItem =>
    match t with
    | .closeArray => .ok (deliver (.array [] .closed) levels)
    | .finish => .error (breakOff t.asValue (.array [] (.broken t.asValue)) levels)
    | t => stepValue (.array [] :: levels) t
  | .nextItem items =>
    match t with
    | .comma => .ok (.value, .array items :: levels)
    | .closeArray => .ok (deliver (.array items.reverse .closed) levels)
    | t => .error (breakOff t.asSeparator (.array items.reverse (.broken t.asSeparator)) levels)
  | .firstKey =>
    match t with
    | .string key => .ok (.colon [] key, levels)
    | .closeObject => .ok (deliver (.object [] .closed) levels)
    | t => .error (breakOff t.asKey (.object [] (.broken t.asKey)) levels)
  | .nextKey members =>
    match t with
    | .string key => .ok (.colon members key, levels)
    | t => .error (breakOff t.asKey (.object members.reverse (.dangling t.asKey)) levels)
  | .colon members key =>
    match t with
    | .colon => .ok (.value, .object members key :: levels)
    | t => .error (breakOff t.asSeparator (.broken t.asSeparator) (.object members key :: levels))
  | .nextMember members =>
    match t with
    | .comma => .ok (.nextKey members, levels)
    | .closeObject => .ok (deliver (.object members.reverse .closed) levels)
    | t => .error (breakOff t.asSeparator (.object members.reverse (.broken t.asSeparator)) levels)
  | .nothing root =>
    match t with
    | .finish => .error ⟨root, false⟩
    | _ => .error ⟨root, true⟩

/-- Nothing is left to do once the text is at its end. -/
theorem step_finish (expected : Expected) (levels : List Level) :
    ∃ document, step expected levels .finish = .error document := by
  cases expected <;> exact ⟨_, rfl⟩

def readFrom (expected : Expected) (levels : List Level) (s : List UInt8) : Document :=
  match h : step expected levels (Token.next s).1 with
  | .error document => document
  | .ok (expected', levels') =>
    have : (Token.next s).2.length < s.length := Token.length_next fun hf => by
      obtain ⟨_, hd⟩ := step_finish expected levels
      rw [hf, hd] at h
      cases h
    readFrom expected' levels' (Token.next s).2
termination_by s.length

def Document.read (s : List UInt8) : Document := readFrom .value [] s

end RemoteMenu.Json
