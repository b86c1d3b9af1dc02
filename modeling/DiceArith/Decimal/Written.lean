import DiceArith.Decimal.Binary
import DiceArith.Decimal.SixDigits

/-! # Written values

Results are written with six significant digits and without needless zeros: as plain
decimals from a ten-thousandth up to a million, with an exponent otherwise.
-/

namespace DiceArith.Decimal

/-- A fraction is written without trailing zeros, and not if nothing is left. -/
def join (whole fraction : Text) : Text :=
  match (fraction.reverse.dropWhile (· == '0')).reverse with
  | [] => whole
  | trimmed => whole ++ '.' :: trimmed

def plain (d : SixDigits) : Text :=
  let digits := Text.ofNat d.digits
  match d.exponent with
  | .ofNat n => join (digits.take (n + 1)) (digits.drop (n + 1))
  | .negSucc n => join ['0'] (List.replicate n '0' ++ digits)

def exponent (e : Int) : Text :=
  let digits := Text.ofNat e.natAbs
  'e' :: (if e < 0 then '-' else '+') :: (if e.natAbs < 10 then '0' :: digits else digits)

def scientific (d : SixDigits) : Text :=
  let digits := Text.ofNat d.digits
  join (digits.take 1) (digits.drop 1) ++ exponent d.exponent

def write (d : SixDigits) : Text :=
  if -4 ≤ d.exponent ∧ d.exponent < 6 then plain d else scientific d

def signed (negative : Bool) (t : Text) : Text := if negative then '-' :: t else t

def ofBinary : Binary → Text
  | .nan => ['n', 'a', 'n']
  | .infinite negative => signed negative ['i', 'n', 'f']
  | .finite negative significand exponent =>
    let (num, den) := Binary.powerOfTwo exponent
    signed negative <|
      if significand = 0 then ['0'] else write (.ofRatio (significand * num) den)

def ofFloat (x : Float) : Text := ofBinary (.ofBits x.toBits)

end DiceArith.Decimal
