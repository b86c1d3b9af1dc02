import DiceArith.Operator

/-! # Numerals and arithmetics

A numeral is written with digits and at most one fraction. An arithmetic says which
value a numeral denotes and how operators act, so calculation is generic in both.
-/

namespace DiceArith

/-- A decimal numeral; without a point it has no digit in the fraction. -/
structure Numeral where
  whole : Text
  fraction : Text
  deriving DecidableEq, Repr

namespace Numeral

def text (n : Numeral) : Text :=
  if n.fraction = [] then n.whole else n.whole ++ '.' :: n.fraction

def read? (t : Text) : Option Numeral :=
  if t.digits = [] then none
  else
    match t.pastDigits with
    | [] => some ⟨t.digits, []⟩
    | '.' :: u => if u ≠ [] ∧ Text.pastDigits u = [] then some ⟨t.digits, u⟩ else none
    | _ => none

def ofNat (n : Nat) : Numeral := ⟨Text.ofNat n, []⟩

def mantissa (n : Numeral) : Nat := Text.toNat (n.whole ++ n.fraction)

end Numeral

/-- Values for numerals and a meaning for operators, subject to no law. -/
structure Arithmetic (α : Type) where
  numeral : Numeral → α
  apply : Operator → α → α → α

namespace Arithmetic

def applyFloat : Operator → Float → Float → Float
  | .power, x, y => x ^ y
  | .multiply, x, y => x * y
  | .divide, x, y => x / y
  | .add, x, y => x + y
  | .subtract, x, y => x - y

/-- Binary floating point: a numeral denotes the nearest number, a tie the even one. -/
def float : Arithmetic Float where
  numeral n := Float.ofScientific n.mantissa true n.fraction.length
  apply := applyFloat

end Arithmetic

end DiceArith
