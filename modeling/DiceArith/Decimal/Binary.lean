/-! # Binary values

The value that the bits of a double stand for: a natural number times a power of
two, with a sign, unless it is infinite or no number at all.
-/

namespace DiceArith

inductive Binary
  | nan
  | infinite (negative : Bool)
  | finite (negative : Bool) (significand : Nat) (exponent : Int)
  deriving DecidableEq, Repr

namespace Binary

/-- The significand of normal values counts one more bit than their fraction has. -/
def hiddenBit : Nat := 1 <<< 52

/-- One sign bit, eleven bits of biased exponent and fifty-two bits of fraction. -/
def ofBits (bits : UInt64) : Binary :=
  let negative : Bool := bits.toNat >>> 63 = 1
  let biased : Nat := (bits.toNat >>> 52) % 2048
  let fraction : Nat := bits.toNat % hiddenBit
  if biased = 2047 then if fraction = 0 then infinite negative else nan
  else if biased = 0 then finite negative fraction (-1074)
  else finite negative (hiddenBit + fraction) (biased - 1075)

def powerOfTwo : Int → Nat × Nat
  | .ofNat n => (1 <<< n, 1)
  | .negSucc n => (1, 1 <<< (n + 1))

end Binary

end DiceArith
