import DiceArith.Operator

/-! # Errors

An error names its cause and, where there is one, the place in the text that was
read. Every cause has one wording.
-/

namespace DiceArith

inductive DiceProblem
  | noDice
  | noSides
  | tooManySides (max : UInt32)
  | tooManyDice (max : UInt32)
  deriving DecidableEq, Repr

inductive Unmatched
  | unclosed
  | unopened
  deriving DecidableEq, Repr

inductive Problem
  | missingOperand
  | misplacedOperator (op : Operator)
  | adjacentOperands
  | trailingOperator
  | unknownOperator (symbol : Text)
  | unreadableNumeral (literal : Text)
  deriving DecidableEq, Repr

inductive Error
  | invalidDice (pattern : Text) (span : Span) (problem : DiceProblem)
  | unbalanced (span : Span) (side : Unmatched)
  | malformed (span : Span) (problem : Problem)
  | leftover (operands : Nat)
  | tooLong (size max : Nat)
  | tooDeep (span : Span) (max : Nat)
  deriving DecidableEq, Repr

def DiceProblem.message : DiceProblem → String
  | noDice => "at least one die must be rolled"
  | noSides => "dice must have at least one side"
  | tooManySides max => "dice can have at most " ++ max.toNat.repr ++ " sides"
  | tooManyDice max => "at most " ++ max.toNat.repr ++ " dice can be rolled in one expression"

def Unmatched.message : Unmatched → String
  | unclosed => "'(' not closed"
  | unopened => "')' found with no preceding '('"

def quoted (t : Text) : String := "\"" ++ String.ofList t ++ "\""

def Problem.message : Problem → String
  | missingOperand => "expected a number"
  | misplacedOperator op => "expected a number, found operator " ++ quoted op.symbol
  | adjacentOperands => "expected an operator between two numbers"
  | trailingOperator => "expected a number after the last operator"
  | unknownOperator symbol => "unknown operator " ++ quoted symbol
  | unreadableNumeral literal => quoted literal ++ " is not a number"

namespace Error

def message : Error → String
  | invalidDice pattern _ problem => "invalid dice " ++ quoted pattern ++ ": " ++ problem.message
  | unbalanced _ side => side.message
  | malformed _ problem => "malformed expression: " ++ problem.message
  | leftover operands =>
    "evaluation ended with " ++ operands.repr ++ " operands instead of 1"
  | tooLong size max =>
    "expression is " ++ size.repr ++ " bytes long, the limit is " ++ max.repr
  | tooDeep _ max => "parentheses are nested more than " ++ max.repr ++ " levels deep"

def span? : Error → Option Span
  | invalidDice _ span _ | unbalanced span _ | malformed span _ | tooDeep span _ => some span
  | leftover _ | tooLong _ _ => none

end Error

end DiceArith
