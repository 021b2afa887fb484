import RemoteMenu.Json.Number

/-!
# JSON tokens

`Token.next` takes the next token off a text. A value that nobody wants is passed over with less
care than one that is read: the escapes of its strings are not paired, their encoding and the range
of its numbers are not checked. So a token tells both what reading it gives and how far passing over
it gets.

Main statement: `Token.length_next`, a text gets shorter with each token.
-/

namespace RemoteMenu.Json

inductive Token
  | openArray
  | closeArray
  | openObject
  | closeObject
  | comma
  | colon
  | null
  | bool (b : Bool)
  | number (value : Except Failure Numeral)
  | string (value : Except Failure String)
  /-- A word that starts like a literal; `isNull` tells whether like `null`. -/
  | badLiteral (isNull : Bool) (failure : Failure)
  /-- A number that breaks off. -/
  | badNumber (failure : Failure)
  /-- A string that breaks off, for a reader and for one who passes over it. -/
  | badString (read skipped : Failure)
  /-- A byte that starts no token. -/
  | stray
  | finish

/-! ### Bytes -/

def isBlank (b : UInt8) : Bool :=
  b == 0x20 || b == 0x0A || b == 0x0D || b == 0x09

def hexValue? (b : UInt8) : Option Nat :=
  if 0x30 ≤ b && b ≤ 0x39 then some (b.toNat - 0x30)
  else if 0x61 ≤ b && b ≤ 0x66 then some (b.toNat - 0x61 + 10)
  else if 0x41 ≤ b && b ≤ 0x46 then some (b.toNat - 0x41 + 10)
  else none

/-! ### Literals -/

/-- What is left after the rest of a literal. -/
def expectRest : List UInt8 → List UInt8 → Except Failure (List UInt8)
  | [], s => .ok s
  | _ :: _, [] => .error .truncated
  | w :: ws, b :: s => if b = w then expectRest ws s else .error .malformed

theorem length_expectRest {w s r : List UInt8} (h : expectRest w s = .ok r) :
    r.length ≤ s.length := by
  induction w generalizing s with
  | nil => cases h; exact Nat.le_refl _
  | cons b w ih =>
    cases s with
    | nil => simp [expectRest] at h
    | cons c s =>
      simp only [expectRest] at h
      split at h
      · exact Nat.le_succ_of_le (ih h)
      · cases h

def Token.isNull : Token → Bool
  | .null => true
  | _ => false

/-- A literal whose first byte is gone. -/
def literal (word : List UInt8) (token : Token) (s : List UInt8) : Token × List UInt8 :=
  match expectRest word s with
  | .ok rest => (token, rest)
  | .error failure => (.badLiteral token.isNull failure, [])

/-! ### Strings -/

def hexFour : List UInt8 → Except Failure (Nat × List UInt8)
  | a :: b :: c :: d :: rest =>
    match hexValue? a, hexValue? b, hexValue? c, hexValue? d with
    | some a, some b, some c, some d => .ok (((a * 16 + b) * 16 + c) * 16 + d, rest)
    | _, _, _, _ => .error .malformed
  | _ => .error .truncated

def simpleEscape? (b : UInt8) : Option UInt8 :=
  if b = 0x22 || b = 0x5C || b = 0x2F then some b
  else if b = 0x62 then some 0x08
  else if b = 0x66 then some 0x0C
  else if b = 0x6E then some 0x0A
  else if b = 0x72 then some 0x0D
  else if b = 0x74 then some 0x09
  else none

/-- The second half of a pair of escapes, for the first half `high`. -/
def lowSurrogate (high : Nat) (s : List UInt8) : Except Failure (List UInt8 × List UInt8) := do
  let rest ← expectRest [0x5C, 0x75] s
  let (low, rest) ← hexFour rest
  if 0xDC00 ≤ low && low ≤ 0xDFFF then
    .ok (String.utf8EncodeChar (.ofNat (0x10000 + (high - 0xD800) * 0x400 + (low - 0xDC00))), rest)
  else .error .malformed

/-- The bytes that an escape stands for, after its backslash. -/
def readEscape : List UInt8 → Except Failure (List UInt8 × List UInt8)
  | [] => .error .truncated
  | b :: s =>
    if b = 0x75 then do
      let (unit, rest) ← hexFour s
      if 0xDC00 ≤ unit && unit ≤ 0xDFFF then .error .malformed
      else if 0xD800 ≤ unit && unit ≤ 0xDBFF then lowSurrogate unit rest
      else .ok (String.utf8EncodeChar (.ofNat unit), rest)
    else match simpleEscape? b with
      | some c => .ok ([c], s)
      | none => .error .malformed

/-- What is left after an escape whose meaning does not matter. -/
def skipEscape : List UInt8 → Except Failure (List UInt8)
  | [] => .error .truncated
  | b :: s =>
    if b = 0x75 then (·.2) <$> hexFour s
    else if (simpleEscape? b).isSome then .ok s
    else .error .malformed

theorem length_hexFour {s r : List UInt8} {n : Nat} (h : hexFour s = .ok (n, r)) :
    r.length < s.length := by
  unfold hexFour at h
  split at h
  · split at h
    · cases h; simp only [List.length_cons]; omega
    · cases h
  · cases h

theorem length_lowSurrogate {high : Nat} {s r u : List UInt8}
    (h : lowSurrogate high s = .ok (u, r)) : r.length < s.length := by
  unfold lowSurrogate at h
  cases h₁ : expectRest [0x5C, 0x75] s with
  | error e => rw [h₁] at h; cases h
  | ok s₁ =>
    rw [h₁] at h
    cases h₂ : hexFour s₁ with
    | error e => simp [bind, Except.bind, h₂] at h
    | ok p =>
      obtain ⟨low, s₂⟩ := p
      simp only [bind, Except.bind, h₂] at h
      split at h
      · simp only [Except.ok.injEq, Prod.mk.injEq] at h
        exact h.2 ▸ Nat.lt_of_lt_of_le (length_hexFour h₂) (length_expectRest h₁)
      · cases h

theorem length_readEscape {s r u : List UInt8} (h : readEscape s = .ok (u, r)) :
    r.length < s.length := by
  unfold readEscape at h
  split at h
  · cases h
  · rename_i b s
    split at h
    · cases h₁ : hexFour s with
      | error e => simp [bind, Except.bind, h₁] at h
      | ok p =>
        obtain ⟨unit, s₁⟩ := p
        have := length_hexFour h₁
        simp only [bind, Except.bind, h₁] at h
        split at h
        · cases h
        · split at h
          · have := length_lowSurrogate h
            simp only [List.length_cons]; omega
          · cases h
            simp only [List.length_cons]; omega
    · split at h
      · cases h; simp
      · cases h

theorem length_skipEscape {s r : List UInt8} (h : skipEscape s = .ok r) :
    r.length < s.length := by
  unfold skipEscape at h
  split at h
  · cases h
  · rename_i b s
    split at h
    · cases h₁ : hexFour s with
      | error e => simp [h₁, Functor.map, Except.map] at h
      | ok p =>
        obtain ⟨n, s₁⟩ := p
        simp only [h₁, Functor.map, Except.map, Except.ok.injEq] at h
        subst h
        have := length_hexFour h₁
        simp only [List.length_cons]; omega
    · split at h
      · cases h; simp
      · cases h

/-- The string up to its closing quote; `taken` holds its bytes so far, last first. -/
def readString (taken : List UInt8) (s : List UInt8) : Except Failure String :=
  match s with
  | [] => .error .truncated
  | b :: s =>
    if b = 0x22 then
      match String.fromUTF8? taken.reverse.toByteArray with
      | some text => .ok text
      | none => .error .malformed
    else if b = 0x5C then
      match h : readEscape s with
      | .ok (bytes, rest) =>
        have := length_readEscape h
        readString (bytes.reverse ++ taken) rest
      | .error failure => .error failure
    else if b < 0x20 then .error .malformed
    else readString (b :: taken) s
termination_by s.length

def skipString (s : List UInt8) : Except Failure (List UInt8) :=
  match s with
  | [] => .error .truncated
  | b :: s =>
    if b = 0x22 then .ok s
    else if b = 0x5C then
      match h : skipEscape s with
      | .ok rest =>
        have := length_skipEscape h
        skipString rest
      | .error failure => .error failure
    else if b < 0x20 then .error .malformed
    else skipString s
termination_by s.length

theorem length_skipString {s r : List UInt8} (h : skipString s = .ok r) : r.length < s.length := by
  fun_induction skipString s with
  | case1 => cases h
  | case2 => cases h; simp
  | case3 s rest _ shorter _ ih =>
    have := ih h
    simp only [List.length_cons]; omega
  | case4 => cases h
  | case5 => cases h
  | case6 b s _ _ _ ih => exact Nat.lt_succ_of_lt (ih h)

/-- A string whose opening quote is gone. -/
def stringToken (s : List UInt8) : Token × List UInt8 :=
  match skipString s with
  | .ok rest => (.string (readString [] s), rest)
  | .error skipped =>
    match readString [] s with
    | .error read => (.badString read skipped, [])
    | .ok _ => (.badString skipped skipped, [])

/-! ### Numbers -/

def numberToken (negative : Bool) (s : List UInt8) : Token × List UInt8 :=
  match readNumber negative s with
  | .ok (value, rest) => (.number value, rest)
  | .error failure => (.badNumber failure, [])

/-! ### Tokens -/

def punctuation? (b : UInt8) : Option Token :=
  if b = 0x2C then some .comma
  else if b = 0x3A then some .colon
  else if b = 0x7B then some .openObject
  else if b = 0x7D then some .closeObject
  else if b = 0x5B then some .openArray
  else if b = 0x5D then some .closeArray
  else none

/-- The literal that starts with a byte, as the rest of its letters and its token. -/
def literal? (b : UInt8) : Option (List UInt8 × Token) :=
  if b = 0x6E then some ([0x75, 0x6C, 0x6C], .null)
  else if b = 0x74 then some ([0x72, 0x75, 0x65], .bool true)
  else if b = 0x66 then some ([0x61, 0x6C, 0x73, 0x65], .bool false)
  else none

def Token.startingWith (b : UInt8) (s : List UInt8) : Token × List UInt8 :=
  match punctuation? b, literal? b with
  | some token, _ => (token, s)
  | none, some (word, token) => literal word token s
  | none, none =>
    if b = 0x22 then stringToken s
    else if b = 0x2D then numberToken true s
    else if isDigit b then numberToken false (b :: s)
    else (.stray, [])

/-- The next token of a text, and what follows it. After a token that breaks off nothing follows. -/
def Token.next (s : List UInt8) : Token × List UInt8 :=
  match s.dropWhile isBlank with
  | [] => (.finish, [])
  | b :: rest => startingWith b rest

theorem length_literal (word : List UInt8) (token : Token) (s : List UInt8) :
    (literal word token s).2.length ≤ s.length := by
  unfold literal
  split
  · exact length_expectRest ‹_›
  · exact Nat.zero_le _

theorem length_stringToken (s : List UInt8) : (stringToken s).2.length ≤ s.length := by
  unfold stringToken
  split
  · exact Nat.le_of_lt (length_skipString ‹_›)
  · split <;> exact Nat.zero_le _

theorem length_numberToken_cons (negative : Bool) (b : UInt8) (s : List UInt8) :
    (numberToken negative (b :: s)).2.length ≤ s.length := by
  unfold numberToken
  split
  · exact Nat.le_of_lt_succ (length_readNumber ‹_›)
  · exact Nat.zero_le _

theorem length_numberToken (negative : Bool) (s : List UInt8) :
    (numberToken negative s).2.length ≤ s.length := by
  unfold numberToken
  split
  · exact Nat.le_of_lt (length_readNumber ‹_›)
  · exact Nat.zero_le _

theorem Token.length_startingWith (b : UInt8) (s : List UInt8) :
    (startingWith b s).2.length ≤ s.length := by
  unfold startingWith
  split
  · exact Nat.le_refl _
  · exact length_literal _ _ _
  · split
    · exact length_stringToken _
    split
    · exact length_numberToken _ _
    split
    · exact length_numberToken_cons _ _ _
    · exact Nat.zero_le _

/-- Each token takes something off the text. -/
theorem Token.length_next {s : List UInt8} (h : (next s).1 ≠ .finish) :
    (next s).2.length < s.length := by
  have hs := (List.dropWhile_sublist isBlank (l := s)).length_le
  unfold next at h ⊢
  split
  · rename_i hb
    rw [hb] at h
    exact absurd rfl h
  · rename_i b rest hb
    rw [hb] at hs
    exact Nat.lt_of_le_of_lt (length_startingWith b rest) (Nat.lt_of_succ_le hs)

end RemoteMenu.Json
