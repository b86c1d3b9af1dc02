/-! # Limits

Upper bounds on the work that one expression may ask for. An expanded expression
is held to looser bounds, because its dice were accepted before they were rolled.
-/

namespace DiceArith

/-- Dice are counted over a whole expression, lengths in bytes. -/
structure Limits where
  maxDice : UInt32
  maxSides : UInt32
  maxLength : UInt64
  maxDepth : UInt64
  deriving DecidableEq, Repr

namespace Limits

def lastWord : UInt64 := 0xffffffffffffffff

def standard : Limits := ⟨1000, 10000, 4096, 64⟩

def unlimited : Limits := ⟨0xffffffff, 0xffffffff, lastWord, lastWord⟩

instance : Inhabited Limits := ⟨standard⟩

/-- Rolled dice lengthen an expression and enclose each pattern in one pair of parentheses. -/
def forExpanded (limits : Limits) : Limits :=
  { limits with
    maxLength := lastWord
    maxDepth := if limits.maxDepth = lastWord then lastWord else limits.maxDepth + 1 }

end Limits

end DiceArith
