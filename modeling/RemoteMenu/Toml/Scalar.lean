import RemoteMenu.Double
import RemoteMenu.Toml.Item
import RemoteMenu.Toml.Token

/-!
# Plain values of TOML

Truth values, numbers, dates and times: what is written without quotes. Whole numbers are read; of
the others it is only decided whether they are sound.
-/

namespace RemoteMenu.Toml

/-! ### Numbers -/

/-- The number that digits of a base spell; single underscores may stand between digits. -/
def readDigits (base : Nat) : (value : Nat) → List Char → Option Nat
  | value, [] => some value
  | value, '_' :: c :: cs =>
    match hexDigit? c with
    | some digit => if digit < base then readDigits base (base * value + digit) cs else none
    | none => none
  | value, c :: cs =>
    match hexDigit? c with
    | some digit => if digit < base then readDigits base (base * value + digit) cs else none
    | none => none

/-- Digits, of which there is at least one and the first is no underscore. -/
def readNatural (base : Nat) : List Char → Option Nat
  | [] | '_' :: _ => none
  | cs => readDigits base 0 cs

/-- A natural number without a zero in front. -/
def readWhole : List Char → Option Nat
  | '0' :: _ :: _ => none
  | cs => readNatural 10 cs

def readInteger (cs : List Char) : Option Int := do
  let n : Int ←
    match cs with
    | '+' :: cs => (readWhole cs).map Int.ofNat
    | '-' :: cs => (readWhole cs).map fun n => -(n : Int)
    | '0' :: 'x' :: cs => (readNatural 16 cs).map Int.ofNat
    | '0' :: 'o' :: cs => (readNatural 8 cs).map Int.ofNat
    | '0' :: 'b' :: cs => (readNatural 2 cs).map Int.ofNat
    | cs => (readWhole cs).map Int.ofNat
  if -0x8000000000000000 ≤ n && n < 0x8000000000000000 then return n else none

def dropSign : List Char → List Char
  | '+' :: cs | '-' :: cs => cs
  | cs => cs

def isExponentMark (c : Char) : Bool := c = 'e' || c = 'E'

/-- An exponent behind its mark; without a mark it is zero. -/
def readExponent : List Char → Option Int
  | [] => some 0
  | _ :: '-' :: cs => (readNatural 10 cs).map fun n => -(n : Int)
  | _ :: cs => (readNatural 10 (dropSign cs)).map Int.ofNat

/-- A number with a point, an exponent or both, as its digits without the point and the power of ten
that they are multiplied by. -/
def readDecimal (cs : List Char) : Option (Nat × Int) := do
  let front := cs.takeWhile fun c => !isExponentMark c
  let exponent ← readExponent (cs.dropWhile fun c => !isExponentMark c)
  let whole ← readWhole (front.takeWhile (· ≠ '.'))
  match front.dropWhile (· ≠ '.') with
  | [] => if cs.any isExponentMark then return (whole, exponent) else none
  | _ :: fraction =>
    let _ ← readNatural 10 fraction
    let digits ← readDigits 10 whole fraction
    return (digits, exponent - fraction.countP Char.isDigit)

/-- Whether a text is one of the special numbers, or a number with a point or an exponent. Of those
only the negative ones may be past the range. -/
def isFloat (cs : List Char) : Bool :=
  let unsigned := dropSign cs
  unsigned = "inf".toList || unsigned = "nan".toList ||
    match readDecimal unsigned with
    | none => false
    | some (digits, exponent) =>
      cs.head? = some '-' || !Double.isDecimalPastRange digits exponent

/-! ### Dates and times -/

/-- A number of exactly so many decimal digits. -/
def readFixed (count : Nat) (cs : List Char) : Option (Nat × List Char) :=
  let digits := cs.take count
  if digits.length = count && digits.all Char.isDigit then
    (readDigits 10 0 digits).map (·, cs.drop count)
  else none

def readSign (sign : Char) : List Char → Option (List Char)
  | [] => none
  | c :: cs => if c = sign then some cs else none

def isLeapYear (year : Nat) : Bool := year % 4 = 0 && (year % 100 ≠ 0 || year % 400 = 0)

def daysInMonth (year month : Nat) : Nat :=
  if month = 2 then (if isLeapYear year then 29 else 28)
  else if month ∈ [4, 6, 9, 11] then 30
  else 31

def readDate (cs : List Char) : Option (List Char) := do
  let (year, cs) ← readFixed 4 cs
  let (month, cs) ← readFixed 2 (← readSign '-' cs)
  let (day, cs) ← readFixed 2 (← readSign '-' cs)
  if 1 ≤ month && month ≤ 12 && 1 ≤ day && day ≤ daysInMonth year month then return cs else none

def readFraction : List Char → Option (List Char)
  | '.' :: c :: cs => if c.isDigit then some (cs.dropWhile Char.isDigit) else none
  | '.' :: [] => none
  | cs => some cs

def readTime (cs : List Char) : Option (List Char) := do
  let (hour, cs) ← readFixed 2 cs
  let (minute, cs) ← readFixed 2 (← readSign ':' cs)
  let (second, cs) ← readFixed 2 (← readSign ':' cs)
  if hour ≤ 23 && minute ≤ 59 && second ≤ 60 then readFraction cs else none

/-- Whether a text is empty or the offset of a time zone. -/
def isOffset : List Char → Bool
  | [] | ['Z'] | ['z'] => true
  | sign :: cs =>
    (sign = '+' || sign = '-') &&
      match readFixed 2 cs with
      | some (hours, ':' :: cs) =>
        match readFixed 2 cs with
        | some (minutes, []) => hours ≤ 23 && minutes ≤ 59
        | _ => false
      | _ => false

def isDate (cs : List Char) : Bool := readDate cs = some []

def isMoment (cs : List Char) : Bool :=
  readTime cs = some [] ||
    match readDate cs with
    | none => false
    | some [] => true
    | some (c :: cs) =>
      (c = 'T' || c = 't' || c = ' ') && ((readTime cs).map isOffset).getD false

/-! ### All plain values -/

def readScalar (text : String) : Option Item :=
  let cs := text.toList
  if text = "true" then some (.bool true)
  else if text = "false" then some (.bool false)
  else match readInteger cs with
    | some n => some (.integer n)
    | none =>
      if isFloat cs then some .float
      else if isMoment cs then some .moment
      else none

end RemoteMenu.Toml
