import RemoteMenu.Json.Draft

/-!
# Reading typed values

Readers of drafts. A reader walks the draft in the order of the text and reports the first thing
that is not as it should be. Where a reader opens containers it is given how many of them, one
inside another, it may still open.
-/

namespace RemoteMenu.Json

/-- How many containers a text may nest, one inside another. -/
def nestingLimit : Nat := 127

namespace Draft

/-- What reading a value of another kind gives: its own fault, or that it does not fit. -/
def misfit : Draft → Failure
  | .number (.error f) | .string (.error f) => f
  | .broken fault => fault.read
  | _ => .mismatched

def readString : Draft → Except Failure String
  | .string s => s
  | d => .error d.misfit

def readBool : Draft → Except Failure Bool
  | .bool b => .ok b
  | d => .error d.misfit

def readWord : Draft → Except Failure UInt32
  | .number (.ok (.natural n)) => if n < UInt32.size then .ok (.ofNat n) else .error .mismatched
  | d => .error d.misfit

/-- A value or `null`; what starts like `null` is not tried as a value. -/
def readOption {α} (read : Draft → Except Failure α) : Draft → Except Failure (Option α)
  | .null => .ok none
  | .broken fault => if fault.inNull then .error fault.read else some <$> read (.broken fault)
  | d => some <$> read d

def readItems {α} (read : Draft → Except Failure α) : List Draft → Except Failure (List α)
  | [] => .ok []
  | d :: ds => do
    let a ← read d
    let as ← readItems read ds
    return a :: as

/-- A list; `read` has one nesting less to use than `nesting`. -/
def readList {α} (read : Draft → Except Failure α) (nesting : Nat) :
    Draft → Except Failure (List α)
  | .array items ending =>
    if nesting = 0 then .error .malformed
    else do
      let as ← readItems read items
      ending.read
      return as
  | d => .error d.misfit

end Draft

/-! ### Records -/

inductive Presence
  | required
  /-- From an object only. -/
  | named
  | optional
  deriving Repr, DecidableEq

/-- A field of a record of type `σ`: its key, and how its value goes into the record. -/
structure RecordField (σ : Type) where
  key : String
  presence : Presence
  read : Draft → σ → Except Failure σ

/-- Members of an object, in their order. A known key occurs once, unknown ones are passed over. -/
def readMembers {σ} (fields : List (RecordField σ)) (seen : List String) (record : σ) (ending : Ending) :
    List (Key × Draft) → Except Failure σ
  | [] => do
    ending.read
    if fields.all fun f => f.presence ≠ .required || f.key ∈ seen then return record
    else throw .mismatched
  | (key, value) :: members => do
    let key ← key
    match fields.find? (·.key = key) with
    | none =>
      value.skip
      readMembers fields seen record ending members
    | some field =>
      if key ∈ seen then throw .mismatched
      let record ← field.read value record
      readMembers fields (key :: seen) record ending members

/-- Items of an array that stand for the fields, in the order of the fields. -/
def readFields {σ} (record : σ) (ending : Ending) : List (RecordField σ) → List Draft → Except Failure σ
  | [], [] => do
    ending.read
    return record
  | [], _ :: _ => .error .malformed
  | fields, [] => do
    ending.read
    if fields.all (·.presence = .optional) then return record else throw .mismatched
  | field :: fields, d :: ds => do
    let record ← field.read d record
    readFields record ending fields ds

/-- A record, from an object or an array; the fields have one nesting less to use. -/
def Draft.readRecord {σ} (fields : List (RecordField σ)) (initial : σ) (nesting : Nat) :
    Draft → Except Failure σ
  | .object members ending =>
    if nesting = 0 then .error .malformed else readMembers fields [] initial ending members
  | .array items ending =>
    if nesting = 0 then .error .malformed else readFields initial ending fields items
  | d => .error d.misfit

/-! ### Variants -/

/-- What has to stand behind the only member of an object: nothing. -/
def Ending.readOnly : Ending → Except Failure Unit
  | .closed => .ok ()
  | .broken fault => .error fault.read
  | .dangling _ => .error .malformed

/-- One of several variants, written as its name alone or as an object that holds its name and its
content. `read` reads the content of a named variant, which is missing if there is the name only. -/
def Draft.readVariant {α} (read : String → Option Draft → Except Failure α) (nesting : Nat) :
    Draft → Except Failure α
  | .string s => do read (← s) none
  | .object members ending =>
    if nesting = 0 then .error .malformed
    else match members, ending with
      | [], .broken fault | [], .dangling fault => .error fault.name
      | [], .closed => .error .malformed
      | (key, content) :: more, ending => do
        let variant ← read (← key) (some content)
        if more.isEmpty then
          ending.readOnly
          return variant
        else throw .malformed
  | .broken fault => .error fault.name
  | _ => .error .malformed

def Draft.readNothing : Option Draft → Except Failure Unit
  | none | some .null => .ok ()
  | some d => .error d.misfit

/-! ### Values of any kind -/

def Draft.readAny : (nesting : Nat) → Draft → Except Failure Unit
  | 0, .array _ _ | 0, .object _ _ => .error .malformed
  | nesting + 1, .array items ending => do
    items.forM (readAny nesting)
    ending.read
  | nesting + 1, .object members ending => do
    members.forM fun (key, value) => do
      discard key
      readAny nesting value
    ending.read
  | _, .number n => discard n
  | _, .string s => discard s
  | _, .broken fault => .error fault.read
  | _, .null | _, .bool _ => .ok ()

/-! ### Whole texts -/

def decode {α} (read : Draft → Except Failure α) (s : List UInt8) : Except Failure α := do
  let document := Document.read s
  let value ← read document.root
  if document.surplus then throw .malformed
  return value

end RemoteMenu.Json
