import Mathlib.Tactic.IntervalCases
import RemoteMenu.Proofs.Json.Strings

/-!
# Written numbers are read back

A number is written as the decimal digits of its size, without a zero in front of others, behind a minus if
it is negative. It is one token if what follows cannot go on with a number (`Token.next_number`), and what
the token says is the number itself for the words of 32 bits (`numeral_toNat`).
-/

namespace RemoteMenu.Json

def digits (n : Nat) : List UInt8 := utf8 (Nat.toDigits 10 n)

theorem utf8EncodeChar_digitChar {d : Nat} (small : d < 10) :
    String.utf8EncodeChar (Nat.digitChar d) = [.ofNat (0x30 + d)] := by
  interval_cases d <;> rfl

theorem digits_of_lt {n : Nat} (small : n < 10) : digits n = [.ofNat (0x30 + n)] := by
  rw [digits, Nat.toDigits_of_lt_base small, utf8_cons, utf8_nil, utf8EncodeChar_digitChar small]
  rfl

theorem digits_of_le {n : Nat} (large : 10 ≤ n) :
    digits n = digits (n / 10) ++ [.ofNat (0x30 + n % 10)] := by
  rw [digits, Nat.toDigits_eq_if (by decide), if_neg (by omega), utf8_append, utf8_cons, utf8_nil,
    utf8EncodeChar_digitChar (Nat.mod_lt _ (by decide))]
  rfl

theorem toNat_digit {d : Nat} (small : d < 10) : (UInt8.ofNat (0x30 + d)).toNat = 0x30 + d := by
  rw [UInt8.toNat_ofNat']
  omega

theorem isDigit_digit {d : Nat} (small : d < 10) : isDigit (.ofNat (0x30 + d)) = true := by
  interval_cases d <;> rfl

theorem isDigit_of_mem_digits {n : Nat} : ∀ b ∈ digits n, isDigit b = true := by
  induction n using Nat.strongRecOn with
  | ind n ih =>
    intro b hb
    by_cases small : n < 10
    · rw [digits_of_lt small] at hb
      obtain rfl := List.mem_singleton.mp hb
      exact isDigit_digit small
    · rw [digits_of_le (by omega)] at hb
      rcases List.mem_append.mp hb with front | last
      · exact ih _ (by omega) b front
      · obtain rfl := List.mem_singleton.mp last
        exact isDigit_digit (Nat.mod_lt _ (by decide))

def push (n : Nat) (b : UInt8) : Nat := 10 * n + (b.toNat - 0x30)

theorem foldl_push_digits (n : Nat) : (digits n).foldl push 0 = n := by
  induction n using Nat.strongRecOn with
  | ind n ih =>
    by_cases small : n < 10
    · rw [digits_of_lt small, List.foldl_cons, List.foldl_nil, push, toNat_digit small]
      omega
    · rw [digits_of_le (by omega), List.foldl_append, ih (n / 10) (by omega), List.foldl_cons, List.foldl_nil,
        push, toNat_digit (Nat.mod_lt _ (by decide))]
      omega

theorem decimal_digits (n : Nat) : decimal (digits n) = n := foldl_push_digits n

/-- Only zero starts with a zero. -/
theorem exists_digits_eq_cons (n : Nat) :
    ∃ d < 10, ∃ bs, digits n = .ofNat (0x30 + d) :: bs ∧ (n ≠ 0 → d ≠ 0) := by
  induction n using Nat.strongRecOn with
  | ind n ih =>
    by_cases small : n < 10
    · exact ⟨n, small, [], digits_of_lt small, id⟩
    · obtain ⟨d, hd, bs, front, lead⟩ := ih (n / 10) (by omega)
      refine ⟨d, hd, bs ++ [.ofNat (0x30 + n % 10)], ?_, fun _ => lead (by omega)⟩
      rw [digits_of_le (by omega), front]
      rfl

/-! ### Where a number ends -/

/-- Whether a value ends in front of a text: at the end, a comma, a closing bracket or a line. -/
def Ends : List UInt8 → Prop
  | [] => True
  | b :: _ => b = 0x2C ∨ b = 0x5D ∨ b = 0x7D ∨ b = 0x0A

theorem isDigit_of_ends {b : UInt8} {rest : List UInt8} (ends : Ends (b :: rest)) : isDigit b = false := by
  rcases ends with rfl | rfl | rfl | rfl <;> rfl

theorem takeWhile_of_ends {rest : List UInt8} (ends : Ends rest) : rest.takeWhile isDigit = [] := by
  cases rest with
  | nil => rfl
  | cons b rest => rw [List.takeWhile_cons_of_neg (by simp [isDigit_of_ends ends])]

theorem dropWhile_of_ends {rest : List UInt8} (ends : Ends rest) : rest.dropWhile isDigit = rest := by
  cases rest with
  | nil => rfl
  | cons b rest => rw [List.dropWhile_cons_of_neg (by simp [isDigit_of_ends ends])]

theorem someDigits_append {ds rest : List UInt8} (some : ds ≠ []) (all : ∀ b ∈ ds, isDigit b = true)
    (ends : Ends rest) : someDigits (ds ++ rest) = .ok (ds, rest) := by
  cases ds with
  | nil => exact absurd rfl some
  | cons b ds =>
    have tail : ∀ c ∈ ds, isDigit c = true := fun c hc => all c (List.mem_cons_of_mem _ hc)
    rw [List.cons_append, someDigits, if_pos (all b (List.mem_cons_self ..)), List.takeWhile_append_of_pos tail,
      List.dropWhile_append_of_pos tail, takeWhile_of_ends ends, dropWhile_of_ends ends, List.append_nil]

theorem wholeDigits_digits {n : Nat} {rest : List UInt8} (ends : Ends rest) :
    wholeDigits (digits n ++ rest) = .ok (digits n, rest) := by
  by_cases zero : n = 0
  · subst zero
    change wholeDigits (0x30 :: rest) = .ok ([0x30], rest)
    cases rest with
    | nil => rfl
    | cons b rest => simp [wholeDigits, isDigit_of_ends ends]
  · obtain ⟨d, hd, bs, front, lead⟩ := exists_digits_eq_cons n
    have all := isDigit_of_mem_digits (n := n)
    rw [front] at all ⊢
    rw [← someDigits_append (List.cons_ne_nil _ _) all ends, List.cons_append, wholeDigits]
    intro r same
    have code := congrArg UInt8.toNat (List.cons.inj same).1
    rw [toNat_digit hd] at code
    exact lead zero (Nat.add_left_cancel code)

theorem fractionDigits_of_ends {rest : List UInt8} (ends : Ends rest) : fractionDigits rest = .ok ([], rest) := by
  cases rest with
  | nil => rfl
  | cons b rest => rcases ends with rfl | rfl | rfl | rfl <;> rfl

theorem exponentPart_of_ends {rest : List UInt8} (ends : Ends rest) : exponentPart rest = .ok (none, rest) := by
  cases rest with
  | nil => rfl
  | cons b rest => rcases ends with rfl | rfl | rfl | rfl <;> rfl

/-! ### Numbers -/

def numeral (n : Int) : Except Failure Numeral :=
  if outOfRange (digits n.natAbs) [] 0 then .error .malformed
  else if n < 0 then .ok .other
  else .ok (.natural n.natAbs)

theorem readNumber_digits (negative : Bool) (n : Nat) {rest : List UInt8} (ends : Ends rest) :
    readNumber negative (digits n ++ rest) =
      .ok (if outOfRange (digits n) [] 0 then .error .malformed
        else if negative then .ok .other else .ok (.natural n), rest) := by
  unfold readNumber
  rw [wholeDigits_digits ends]
  simp only [bind, Except.bind]
  rw [fractionDigits_of_ends ends]
  simp only [exponentPart_of_ends ends]
  simp [decimal_digits]

theorem startingWith_digit {d : Nat} (small : d < 10) (s : List UInt8) :
    Token.startingWith (.ofNat (0x30 + d)) s = numberToken false (.ofNat (0x30 + d) :: s) := by
  interval_cases d <;> rfl

theorem isBlank_digit {d : Nat} (small : d < 10) : isBlank (.ofNat (0x30 + d)) = false := by
  interval_cases d <;> rfl

theorem Token.next_digits (n : Nat) {rest : List UInt8} (ends : Ends rest) :
    Token.next (digits n ++ rest) = (.number (numeral n), rest) := by
  have read := readNumber_digits false n ends
  obtain ⟨d, small, bs, front, -⟩ := exists_digits_eq_cons n
  rw [front, List.cons_append] at read ⊢
  rw [next_cons (isBlank_digit small), startingWith_digit small, numberToken, read, ← front]
  rfl

theorem Token.next_minus_digits (n : Nat) {rest : List UInt8} (ends : Ends rest) :
    Token.next (0x2D :: (digits (n + 1) ++ rest)) = (.number (numeral (Int.negSucc n)), rest) := by
  rw [next_cons (by decide)]
  change numberToken true _ = _
  rw [numberToken, readNumber_digits true (n + 1) ends, numeral, if_pos (Int.negSucc_lt_zero n)]
  rfl

/-- A number is one token, if it ends there. -/
theorem Token.next_number (n : Int) {rest : List UInt8} (ends : Ends rest) :
    Token.next (utf8 (toString n).toList ++ rest) = (.number (numeral n), rest) := by
  cases n with
  | ofNat n =>
    have text : (toString (Int.ofNat n)).toList = Nat.toDigits 10 n := Nat.toList_repr
    rw [text]
    exact next_digits n ends
  | negSucc n =>
    have text : (toString (Int.negSucc n)).toList = '-' :: Nat.toDigits 10 (n + 1) := by
      change ("-" ++ (n + 1).repr).toList = _
      rw [String.toList_append, Nat.toList_repr]
      rfl
    rw [text]
    exact next_minus_digits n ends

/-! ### Words -/

theorem le_foldl_push (n : Nat) (ds : List UInt8) : n ≤ ds.foldl push n := by
  induction ds generalizing n with
  | nil => exact Nat.le_refl n
  | cons b ds ih => exact Nat.le_trans (by rw [push]; omega) (ih _)

theorem appendDigits_of_lt {ds : List UInt8} {n : Nat} (fits : ds.foldl push n < UInt64.size) :
    appendDigits n ds = (ds.foldl push n, []) := by
  induction ds generalizing n with
  | nil => rfl
  | cons b ds ih =>
    have longer : push n b < UInt64.size := Nat.lt_of_le_of_lt (le_foldl_push _ _) fits
    exact (if_pos longer).trans (ih fits)

theorem nearest_of_lt {n : Nat} (small : n < 2 ^ 53) : Double.nearest n = n := by
  have places : n.log2 - 52 = 0 := by
    by_cases zero : n = 0
    · subst zero
      rfl
    · have := (Nat.log2_lt zero).mpr small
      omega
  have spacing : Double.spacing n = 1 := by rw [Double.spacing, places, Nat.shiftLeft_zero]
  rw [Double.nearest, spacing]
  simp [Nat.mod_one]

theorem isPastRange_of_lt {n : Nat} (small : n < 2 ^ 53) : Double.isPastRange n = false := by
  rw [Double.isPastRange, nearest_of_lt small, decide_eq_false_iff_not, Nat.not_le]
  exact Nat.lt_of_lt_of_le small (by decide)

theorem outOfRange_digits {n : Nat} (small : n < 2 ^ 53) : outOfRange (digits n) [] 0 = false := by
  have whole : appendDigits 0 (digits n) = (n, []) := by
    rw [appendDigits_of_lt] <;> rw [foldl_push_digits]
    exact Nat.lt_trans small (by decide)
  have one : Double.nearest 1 = 1 := nearest_of_lt (by decide)
  have inside : Double.isPastRange (Double.nearest n) = false := by
    rw [nearest_of_lt small]
    exact isPastRange_of_lt small
  rw [outOfRange, whole]
  simp [appendDigits, one, inside]

/-- The words of 32 bits are within range. -/
theorem numeral_toNat (w : UInt32) : numeral w.toNat = .ok (.natural w.toNat) := by
  rw [numeral, Int.natAbs_natCast, outOfRange_digits (Nat.lt_trans w.toNat_lt (by decide)), if_neg (by decide),
    if_neg (by omega)]

end RemoteMenu.Json
