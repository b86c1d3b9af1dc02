import DiceArith.Error
import DiceArith.Limits

/-! # Dice

A set of dice, the bounds that it has to keep, and the values that were rolled for
it. Rolled dice are written as a sum, which is what replaces them in an expression.
-/

namespace DiceArith

structure Dice where
  count : UInt32
  sides : UInt32
  deriving DecidableEq, Repr

namespace Dice

instance : Inhabited Dice := ⟨1, 20⟩

def text (dice : Dice) : Text :=
  Text.ofNat dice.count.toNat ++ 'd' :: Text.ofNat dice.sides.toNat

/-- Checks dice that `rolled` others of the same expression come before. -/
def check (limits : Limits) (rolled : UInt32) (dice : Dice) : Except DiceProblem Unit :=
  if dice.count = 0 then .error .noDice
  else if dice.sides = 0 then .error .noSides
  else if limits.maxSides < dice.sides then .error (.tooManySides limits.maxSides)
  else if limits.maxDice.toNat < rolled.toNat + dice.count.toNat then
    .error (.tooManyDice limits.maxDice)
  else .ok ()

def isDeterministic (dice : Dice) : Bool := dice.sides == 1

end Dice

/-- Dice together with the value that each of them shows. -/
structure Rolled where
  dice : Dice
  values : List UInt32
  deriving DecidableEq, Repr

namespace Rolled

def numerals (values : List UInt32) : List Text := values.map fun v => Text.ofNat v.toNat

def total (rolled : Rolled) : UInt64 := rolled.values.foldl (fun sum v => sum + v.toUInt64) 0

def text (rolled : Rolled) : Text :=
  '(' :: [' ', '+', ' '].intercalate (numerals rolled.values) ++ [')']

def describe (limit? : Option Nat) (rolled : Rolled) : Text :=
  let limit := limit?.getD rolled.values.length
  let listed := [',', ' '].intercalate (numerals (rolled.values.take limit))
  let hidden := rolled.values.length - limit
  let more := if hidden = 0 then [] else ", ".toList ++ Text.ofNat hidden ++ " more...".toList
  rolled.dice.text ++ '[' :: listed ++ more ++ [']']

end Rolled

end DiceArith
