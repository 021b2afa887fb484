import RemoteMenu.Double
import RemoteMenu.Json.Failure

/-!
# Numbers in JSON

A number is an integer, a fraction and an exponent, of which the last two may be missing. Reading it
says what it is and whether it is within the range of double precision.

Main statement: `length_readNumber`, a number takes something off the text.
-/

namespace RemoteMenu.Json

/-- What a number's text says, as far as this library has a use for it. -/
inductive Numeral
  /-- Digits only. -/
  | natural (n : Nat)
  /-- A sign, a fraction or an exponent. -/
  | other
  deriving Repr, DecidableEq

/-! ### Digits -/

def isDigit (b : UInt8) : Bool :=
  0x30 ≤ b && b ≤ 0x39

def decimal (digits : List UInt8) : Nat :=
  digits.foldl (fun n b => 10 * n + (b.toNat - 0x30)) 0

/-- The exponent that decimal digits spell. Past 32 bits it decides by itself, and more digits of it do
not count. -/
def exponentOf (digits : List UInt8) : Nat :=
  digits.foldl (fun n b => if n < 2147483648 then 10 * n + (b.toNat - 0x30) else n) 0

/-! ### Range -/

/-- Appends digits to `n` for as long as the number fits in 64 bits, and gives the digits that are
left. -/
def appendDigits (n : Nat) : List UInt8 → Nat × List UInt8
  | [] => (n, [])
  | b :: bs =>
    let longer := 10 * n + (b.toNat - 0x30)
    if longer < UInt64.size then appendDigits longer bs else (n, b :: bs)

/-- Whether a number is past the range of double precision. In front of the point only the digits
count that fit in 64 bits, and each of the others multiplies by ten; behind the point those count
that then still fit. The number that the digits spell and the power of ten are rounded, and so is
their product. -/
def outOfRange (whole fraction : List UInt8) (exponent : Int) : Bool :=
  let (front, dropped) := appendDigits 0 whole
  let (digits, unused) := appendDigits front fraction
  let exponent := exponent + dropped.length + unused.length - fraction.length
  if digits = 0 || exponent < 0 then false
  else if 308 < exponent then true
  else Double.isPastRange (Double.nearest digits * Double.nearest (Nat.pow 10 exponent.toNat))

/-! ### Parts of a number -/

/-- The digits at the front of a text, of which there has to be one, and what follows them. -/
def someDigits (s : List UInt8) : Except Failure (List UInt8 × List UInt8) :=
  match s with
  | [] => .error .truncated
  | b :: r =>
    if isDigit b then .ok (b :: r.takeWhile isDigit, r.dropWhile isDigit)
    else .error .malformed

/-- The digits before the point: no zero in front of others. -/
def wholeDigits (s : List UInt8) : Except Failure (List UInt8 × List UInt8) :=
  match s with
  | 0x30 :: r =>
    match r with
    | b :: _ => if isDigit b then .error .malformed else .ok ([0x30], r)
    | [] => .ok ([0x30], r)
  | s => someDigits s

def fractionDigits (s : List UInt8) : Except Failure (List UInt8 × List UInt8) :=
  match s with
  | 0x2E :: r => someDigits r
  | s => .ok ([], s)

def exponentPart (s : List UInt8) : Except Failure (Option Int × List UInt8) :=
  match s with
  | b :: r =>
    if b = 0x65 || b = 0x45 then
      match r with
      | 0x2D :: r => do
        let (digits, rest) ← someDigits r
        .ok (some (-(exponentOf digits : Int)), rest)
      | 0x2B :: r => do
        let (digits, rest) ← someDigits r
        .ok (some (exponentOf digits : Int), rest)
      | r => do
        let (digits, rest) ← someDigits r
        .ok (some (exponentOf digits : Int), rest)
    else .ok (none, s)
  | [] => .ok (none, [])

/-- A number after its sign. -/
def readNumber (negative : Bool) (s : List UInt8) :
    Except Failure (Except Failure Numeral × List UInt8) := do
  let (whole, s) ← wholeDigits s
  let (fraction, s) ← fractionDigits s
  let (exponent, s) ← exponentPart s
  let value :=
    if outOfRange whole fraction (exponent.getD 0) then
      .error .malformed
    else if negative || !fraction.isEmpty || exponent.isSome then .ok .other
    else .ok (.natural (decimal whole))
  .ok (value, s)

theorem length_someDigits {s d r : List UInt8} (h : someDigits s = .ok (d, r)) :
    r.length < s.length := by
  unfold someDigits at h
  split at h
  · cases h
  · split at h
    · cases h
      exact Nat.lt_succ_of_le (List.dropWhile_sublist _).length_le
    · cases h

theorem length_wholeDigits {s d r : List UInt8} (h : wholeDigits s = .ok (d, r)) :
    r.length < s.length := by
  unfold wholeDigits at h
  split at h
  · split at h
    · split at h
      · cases h
      · cases h; simp
    · cases h; simp
  · exact length_someDigits h

theorem length_fractionDigits {s d r : List UInt8} (h : fractionDigits s = .ok (d, r)) :
    r.length ≤ s.length := by
  unfold fractionDigits at h
  split at h
  · have := length_someDigits h
    simp only [List.length_cons]; omega
  · cases h; exact Nat.le_refl _

theorem length_exponentPart {s r : List UInt8} {e : Option Int} (h : exponentPart s = .ok (e, r)) :
    r.length ≤ s.length := by
  have digits : ∀ {f : List UInt8 → Option Int} {t : List UInt8}, t.length ≤ s.length →
      (do let (d, rest) ← someDigits t; Except.ok (f d, rest)) = .ok (e, r) →
      r.length ≤ s.length := by
    intro f t ht hd
    cases h₁ : someDigits t with
    | error e => simp [bind, Except.bind, h₁] at hd
    | ok p =>
      obtain ⟨d, rest⟩ := p
      simp only [bind, Except.bind, h₁, Except.ok.injEq, Prod.mk.injEq] at hd
      obtain ⟨-, rfl⟩ := hd
      exact Nat.le_trans (Nat.le_of_lt (length_someDigits h₁)) ht
  unfold exponentPart at h
  split at h
  · split at h
    · split at h
      · exact digits (f := fun d => some (-(exponentOf d : Int))) (by simp only [List.length_cons]; omega) h
      · exact digits (f := fun d => some (exponentOf d : Int)) (by simp only [List.length_cons]; omega) h
      · exact digits (f := fun d => some (exponentOf d : Int)) (by simp only [List.length_cons]; omega) h
    · cases h; exact Nat.le_refl _
  · cases h; exact Nat.le_refl _

theorem length_readNumber {negative : Bool} {s r : List UInt8} {v : Except Failure Numeral}
    (h : readNumber negative s = .ok (v, r)) : r.length < s.length := by
  unfold readNumber at h
  cases h₁ : wholeDigits s with
  | error e => simp [bind, Except.bind, h₁] at h
  | ok p =>
    obtain ⟨whole, s₁⟩ := p
    simp only [bind, Except.bind, h₁] at h
    cases h₂ : fractionDigits s₁ with
    | error e => simp [h₂] at h
    | ok p =>
      obtain ⟨fraction, s₂⟩ := p
      simp only [h₂] at h
      cases h₃ : exponentPart s₂ with
      | error e => simp [h₃] at h
      | ok p =>
        obtain ⟨exponent, s₃⟩ := p
        simp only [h₃, Except.ok.injEq, Prod.mk.injEq] at h
        obtain ⟨-, rfl⟩ := h
        have := length_wholeDigits h₁
        have := length_fractionDigits h₂
        have := length_exponentPart h₃
        omega

end RemoteMenu.Json
