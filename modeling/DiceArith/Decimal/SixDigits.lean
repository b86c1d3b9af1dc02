import DiceArith.Text

/-! # Six significant digits

A positive ratio is rounded to six significant digits, from its exact value. A ratio
halfway between two candidates goes to the even one.
-/

namespace DiceArith

/-- Six digits, the first of which stands for units of `10 ^ exponent`. -/
structure SixDigits where
  digits : Nat
  exponent : Int
  deriving DecidableEq, Repr

namespace SixDigits

/-- The natural number nearest to a ratio, of two the even one. -/
def roundDiv (num den : Nat) : Nat :=
  if 2 * (num % den) < den ∨ 2 * (num % den) = den ∧ num / den % 2 = 0 then num / den
  else num / den + 1

/-- The exponent of the largest power of ten that is not above a ratio. -/
def magnitude (num den : Nat) : Int :=
  if den ≤ num then (Text.ofNat (num / den)).length - 1
  else -(Text.ofNat ((den - 1) / num)).length

def roundScaled (num den : Nat) : Int → Nat
  | .ofNat n => roundDiv (num * Nat.pow 10 n) den
  | .negSucc n => roundDiv num (den * Nat.pow 10 (n + 1))

/-- Rounding up to a seventh digit moves on to the next power of ten. -/
def ofRatio (num den : Nat) : SixDigits :=
  let exponent := magnitude num den
  let digits := roundScaled num den (5 - exponent)
  if digits = 1000000 then ⟨100000, exponent + 1⟩ else ⟨digits, exponent⟩

end SixDigits

end DiceArith
