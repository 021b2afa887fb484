/-!
# Numbers of double precision

A number of double precision keeps 53 binary digits, and the largest is just below `2 ^ 1024`. Here
it is decided, with natural numbers only, what a number is rounded to and whether that is past the
range.

Main statements: `nearest_eq_mul`, what is rounded keeps no more digits; `nearest_within`, it moves
by half a step at most.
-/

namespace RemoteMenu.Double

/-- How far apart the numbers of double precision are around `n`, or one if they are closer. -/
def spacing (n : Nat) : Nat := 1 <<< (n.log2 - 52)

/-- The multiple of the spacing that is next to `n`; of two equally near ones it is the even one. -/
def nearest (n : Nat) : Nat :=
  let below := n / spacing n
  let rest := n % spacing n
  if 2 * rest < spacing n || (2 * rest = spacing n && below % 2 = 0) then below * spacing n
  else (below + 1) * spacing n

def isPastRange (n : Nat) : Bool := 1 <<< 1024 ≤ nearest n

/-- Whether `n · 10 ^ e` is rounded to a number past the range. The number of its digits decides
this, unless there are 309 of them. -/
def isDecimalPastRange (n : Nat) (e : Int) : Bool :=
  let places : Int := (Nat.toDigits 10 n).length + e
  if n = 0 || places < 309 then false
  else if 309 < places then true
  else isPastRange (n * Nat.pow 10 e.toNat / Nat.pow 10 (-e).toNat)

/-! ### Rounding -/

theorem nearest_eq_mul (n : Nat) : ∃ k, nearest n = k * spacing n := by
  unfold nearest; dsimp only; split
  · exact ⟨_, rfl⟩
  · exact ⟨_, rfl⟩

theorem nearest_within (n : Nat) :
    2 * n ≤ 2 * nearest n + spacing n ∧ 2 * nearest n ≤ 2 * n + spacing n := by
  have split_n := Nat.div_add_mod' n (spacing n)
  unfold nearest; dsimp only; split
  · rename_i h
    simp only [Bool.or_eq_true, Bool.and_eq_true, decide_eq_true_eq] at h
    omega
  · rename_i h
    simp only [Bool.or_eq_true, Bool.and_eq_true, decide_eq_true_eq] at h
    have positive : 0 < spacing n := by
      rw [spacing, Nat.one_shiftLeft]
      exact Nat.two_pow_pos _
    have := Nat.mod_lt n positive
    rw [Nat.add_mul, Nat.one_mul]
    omega

end RemoteMenu.Double
