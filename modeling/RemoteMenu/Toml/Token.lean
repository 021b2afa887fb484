/-!
# The tokens of a TOML text

Words, strings in quotes of either kind, punctuation, and what sets them apart. Comments leave no
token.
-/

namespace RemoteMenu.Toml

inductive Token
  /-- A run of letters, digits and the signs that numbers and keys are made of. -/
  | word (text : String)
  | quoted (text : String)
  /-- A string that may span lines. -/
  | block (text : String)
  | blank (text : String)
  | lineEnd
  | openBracket
  | closeBracket
  | openBrace
  | closeBrace
  | comma
  | dot
  | equals
  deriving Repr, DecidableEq

/-- Whether a character may stand in a comment or a string. -/
def isPlain (c : Char) : Bool := c = '\t' || (c.toNat ≥ 0x20 && c.toNat ≠ 0x7F)

def isBlank (c : Char) : Bool := c = ' ' || c = '\t'

def isWordChar (c : Char) : Bool :=
  c.isAlphanum || c = '_' || c = '-' || c = '+' || c = ':'

def punctuation? (c : Char) : Option Token :=
  if c = '[' then some .openBracket
  else if c = ']' then some .closeBracket
  else if c = '\x7b' then some .openBrace
  else if c = '\x7d' then some .closeBrace
  else if c = ',' then some .comma
  else if c = '.' then some .dot
  else if c = '=' then some .equals
  else none

/-! ### Strings -/

def hexDigit? (c : Char) : Option Nat :=
  if '0' ≤ c && c ≤ '9' then some (c.toNat - 0x30)
  else if 'a' ≤ c && c ≤ 'f' then some (c.toNat - 0x61 + 10)
  else if 'A' ≤ c && c ≤ 'F' then some (c.toNat - 0x41 + 10)
  else none

def readCodePoint : (count : Nat) → (value : Nat) → List Char → Option (Char × List Char)
  | 0, value, cs =>
    if value.isValidChar then some (.ofNat value, cs) else none
  | _ + 1, _, [] => none
  | count + 1, value, c :: cs =>
    match hexDigit? c with
    | some digit => readCodePoint count (16 * value + digit) cs
    | none => none

def simpleEscape? (c : Char) : Option Char :=
  if c = 'b' then some '\x08'
  else if c = 't' then some '\t'
  else if c = 'n' then some '\n'
  else if c = 'f' then some '\x0c'
  else if c = 'r' then some '\r'
  else if c = '"' || c = '\\' then some c
  else none

def readEscape : List Char → Option (Char × List Char)
  | [] => none
  | c :: cs =>
    if c = 'u' then readCodePoint 4 0 cs
    else if c = 'U' then readCodePoint 8 0 cs
    else (simpleEscape? c).map (·, cs)

theorem length_readCodePoint {count value : Nat} {cs rest : List Char} {c : Char}
    (h : readCodePoint count value cs = some (c, rest)) : rest.length ≤ cs.length := by
  induction count generalizing value cs with
  | zero =>
    unfold readCodePoint at h
    split at h
    · cases h
      exact Nat.le_refl _
    · cases h
  | succ count ih =>
    cases cs with
    | nil => cases h
    | cons d cs =>
      unfold readCodePoint at h
      split at h
      · exact Nat.le_succ_of_le (ih h)
      · cases h

theorem length_readEscape {cs rest : List Char} {c : Char} (h : readEscape cs = some (c, rest)) :
    rest.length < cs.length := by
  cases cs with
  | nil => cases h
  | cons d cs =>
    apply Nat.lt_succ_of_le
    simp only [readEscape] at h
    split at h
    · exact length_readCodePoint h
    split at h
    · exact length_readCodePoint h
    · simp only [Option.map_eq_some_iff, Prod.mk.injEq] at h
      obtain ⟨_, _, _, rfl⟩ := h
      exact Nat.le_refl _

/-- A string in double quotes whose opening quote is gone; `taken` is last first. -/
def readBasic (taken : List Char) (cs : List Char) : Option (String × List Char) :=
  match cs with
  | [] => none
  | c :: cs =>
    if c = '"' then some (.ofList taken.reverse, cs)
    else if c = '\\' then
      match h : readEscape cs with
      | some (c, rest) =>
        have := length_readEscape h
        readBasic (c :: taken) rest
      | none => none
    else if isPlain c then readBasic (c :: taken) cs
    else none
termination_by cs.length

def readLiteral (taken : List Char) : List Char → Option (String × List Char)
  | [] => none
  | c :: cs =>
    if c = '\'' then some (.ofList taken.reverse, cs)
    else if isPlain c then readLiteral (c :: taken) cs
    else none

theorem length_readBasic {taken cs rest : List Char} {s : String}
    (h : readBasic taken cs = some (s, rest)) : rest.length < cs.length := by
  fun_induction readBasic taken cs with
  | case1 => cases h
  | case2 => cases h; simp
  | case3 taken cs _ c rest' _ shorter ih =>
    have := ih h
    simp only [List.length_cons]; omega
  | case4 => cases h
  | case5 taken c cs _ _ _ ih => exact Nat.lt_succ_of_lt (ih h)
  | case6 => cases h

theorem length_readLiteral {taken cs rest : List Char} {s : String}
    (h : readLiteral taken cs = some (s, rest)) : rest.length < cs.length := by
  induction cs generalizing taken with
  | nil => cases h
  | cons c cs ih =>
    unfold readLiteral at h
    split at h
    · cases h; simp
    · split at h
      · exact Nat.lt_succ_of_lt (ih h)
      · cases h

/-! ### Strings over several lines -/

def dropSpace : List Char → List Char
  | '\r' :: '\n' :: cs | '\n' :: cs | ' ' :: cs | '\t' :: cs => dropSpace cs
  | cs => cs

/-- What comes after a backslash at the end of a line: the next line that is not empty. -/
def readFold (cs : List Char) : Option (List Char) :=
  match cs.dropWhile isBlank with
  | '\n' :: rest | '\r' :: '\n' :: rest => some (dropSpace rest)
  | _ => none

/-- What a string gains, and what is left, behind three quotes in a row. Up to two more of them
belong to the string. -/
def closeBlock (quote : Char) (taken cs : List Char) : String × List Char :=
  let more := (cs.takeWhile (· = quote)).take 2
  (.ofList (taken.reverse ++ more), cs.drop more.length)

theorem length_dropSpace_le (cs : List Char) : (dropSpace cs).length ≤ cs.length := by
  fun_induction dropSpace cs
  all_goals simp_all <;> omega

theorem length_readFold {cs rest : List Char} (h : readFold cs = some rest) :
    rest.length ≤ cs.length := by
  have shorter := (List.dropWhile_sublist isBlank (l := cs)).length_le
  unfold readFold at h
  split at h
  · rename_i tail same
    have := length_dropSpace_le tail
    simp only [same, List.length_cons] at shorter
    cases h; omega
  · rename_i tail same
    have := length_dropSpace_le tail
    simp only [same, List.length_cons] at shorter
    cases h; omega
  · cases h

theorem length_closeBlock_le (quote : Char) (taken cs : List Char) :
    (closeBlock quote taken cs).2.length ≤ cs.length := by
  simp [closeBlock]

/-- A string whose three opening quotes are gone. In double quotes a backslash escapes a character
or a line end. -/
def readBlock (quote : Char) (taken : List Char) (cs : List Char) : Option (String × List Char) :=
  match cs with
  | [] => none
  | '\r' :: '\n' :: cs => readBlock quote ('\n' :: taken) cs
  | c :: cs =>
    if c = quote then
      match cs with
      | d :: e :: rest =>
        if d = quote && e = quote then some (closeBlock quote taken rest)
        else readBlock quote (c :: taken) (d :: e :: rest)
      | _ => none
    else if c = '\\' && quote = '"' then
      match h : readFold cs with
      | some rest =>
        have := length_readFold h
        readBlock quote taken rest
      | none =>
        match h : readEscape cs with
        | some (c, rest) =>
          have := length_readEscape h
          readBlock quote (c :: taken) rest
        | none => none
    else if c = '\n' || isPlain c then readBlock quote (c :: taken) cs
    else none
termination_by cs.length

theorem length_readBlock {quote : Char} {taken cs rest : List Char} {s : String}
    (h : readBlock quote taken cs = some (s, rest)) : rest.length < cs.length := by
  fun_induction readBlock quote taken cs
  case case3 taken _ _ tail _ _ =>
    have shorter := length_closeBlock_le quote taken tail
    simp only [Option.some.injEq] at h
    simp only [h] at shorter
    simp only [List.length_cons]; omega
  all_goals first
    | contradiction
    | rename_i ih
      have := ih h
      simp only [List.length_cons] at *; omega

def dropFirstLineEnd : List Char → List Char
  | '\r' :: '\n' :: cs | '\n' :: cs => cs
  | cs => cs

theorem length_dropFirstLineEnd_le (cs : List Char) :
    (dropFirstLineEnd cs).length ≤ cs.length := by
  unfold dropFirstLineEnd; split
  all_goals simp_all <;> omega

/-! ### All strings -/

def readQuoted (quote : Char) (cs : List Char) : Option (Token × List Char) :=
  match cs with
  | d :: e :: rest =>
    if d = quote && e = quote then
      (readBlock quote [] (dropFirstLineEnd rest)).map fun (s, rest) => (.block s, rest)
    else readLine (d :: e :: rest)
  | cs => readLine cs
where
  /-- A string on one line. -/
  readLine (cs : List Char) : Option (Token × List Char) :=
    (if quote = '"' then readBasic [] cs else readLiteral [] cs).map fun (s, rest) =>
      (.quoted s, rest)

theorem length_readLine {quote : Char} {cs rest : List Char} {token : Token}
    (h : readQuoted.readLine quote cs = some (token, rest)) : rest.length < cs.length := by
  simp only [readQuoted.readLine, Option.map_eq_some_iff, Prod.exists, Prod.mk.injEq] at h
  obtain ⟨s, _, read, _, rfl⟩ := h
  split at read
  · exact length_readBasic read
  · exact length_readLiteral read

theorem length_readQuoted {quote : Char} {cs rest : List Char} {token : Token}
    (h : readQuoted quote cs = some (token, rest)) : rest.length < cs.length := by
  unfold readQuoted at h
  split at h
  · split at h
    · rename_i tail _
      simp only [Option.map_eq_some_iff, Prod.exists, Prod.mk.injEq] at h
      obtain ⟨s, _, read, _, rfl⟩ := h
      have := length_readBlock read
      have := length_dropFirstLineEnd_le tail
      simp only [List.length_cons]; omega
    · exact length_readLine h
  · exact length_readLine h

/-! ### Texts -/

/-- The tokens of a text, if it has nothing else. -/
def tokens (cs : List Char) : Option (List Token) :=
  match cs with
  | [] => some []
  | '\r' :: '\n' :: cs => (tokens cs).map (.lineEnd :: ·)
  | c :: cs =>
    if c = '\n' then (tokens cs).map (.lineEnd :: ·)
    else if isBlank c then
      have := (List.dropWhile_sublist isBlank (l := cs)).length_le
      (tokens (cs.dropWhile isBlank)).map (.blank (.ofList (c :: cs.takeWhile isBlank)) :: ·)
    else if c = '#' then
      have := (List.dropWhile_sublist isPlain (l := cs)).length_le
      tokens (cs.dropWhile isPlain)
    else if c = '"' || c = '\'' then
      match h : readQuoted c cs with
      | some (token, rest) =>
        have := length_readQuoted h
        (tokens rest).map (token :: ·)
      | none => none
    else if isWordChar c then
      have := (List.dropWhile_sublist isWordChar (l := cs)).length_le
      (tokens (cs.dropWhile isWordChar)).map
        (.word (.ofList (c :: cs.takeWhile isWordChar)) :: ·)
    else
      match punctuation? c with
      | some token => (tokens cs).map (token :: ·)
      | none => none
termination_by cs.length

end RemoteMenu.Toml
