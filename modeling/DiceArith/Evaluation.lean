import DiceArith.Calculator
import DiceArith.Decimal.Written
import DiceArith.Expansion

/-! # Evaluation

To evaluate an expression is to expand its dice and to calculate what they expand to.
The answer can be described within a given number of characters.
-/

namespace DiceArith

structure Evaluation (α : Type) where
  expanded : Text
  result : α
  rolls : List Rolled
  deriving DecidableEq, Repr

variable {α σ : Type}

/-- The expansion is calculated under the bounds that leave room for its rolls. -/
def evaluate (A : Arithmetic α) (r : Roller σ) (limits : Limits) (t : Text) (s : σ) :
    Except Failure (Evaluation α) × σ :=
  match expand r limits t s with
  | (.error failure, s) => (.error failure, s)
  | (.ok expansion, s) =>
    match calculateWithin A limits.forExpanded expansion.text with
    | .error error => (.error (.rejected error), s)
    | .ok result => (.ok ⟨expansion.text, result, expansion.rolls⟩, s)

namespace Evaluation

def equation (label value : Text) : Text :=
  '\x60' :: label ++ [' ', '=', ' '] ++ value ++ ['\x60']

def framing : Nat := 5

def ellipsis : Text := ['.', '.', '.']

/-- The equation in at most `limit` characters, its label cut short or left out. -/
def abridge (label value : Text) (limit : Nat) : Text :=
  let room := limit - (value.length + framing)
  if label.length ≤ room then equation label value
  else if ellipsis.length ≤ room then
    equation (label.take (room - ellipsis.length) ++ ellipsis) value
  else value

def describe (limit? : Option Nat) (e : Evaluation Float) : Text :=
  match limit? with
  | none => equation e.expanded (Decimal.ofFloat e.result)
  | some limit => abridge e.expanded (Decimal.ofFloat e.result) limit

end Evaluation

end DiceArith
