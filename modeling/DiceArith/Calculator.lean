import DiceArith.Chain
import DiceArith.Limits
import DiceArith.Nesting

/-! # Calculation

An opening parenthesis sets the tokens read so far aside. The closing one reduces its
group and hands the value on as an operand, so depth costs no recursion on groups.
-/

namespace DiceArith

namespace Calculator

variable {α : Type} (A : Arithmetic α)

/-- The tokens around an unfinished group, and where that group was opened. -/
structure Frame (α : Type) where
  start : Nat
  tokens : List (Located (Token α))

def reduce (whole : Span) (tokens : List (Located (Token α))) : Except Error α := do
  (← Chain.ofTokens whole tokens).reduce A

/-- Calculates what is left of a text inside the groups that are still open. -/
def run (enclosing : List (Frame α)) (tokens : List (Located (Token α))) (pos : Nat) :
    Bracketing → Except Error α
  | .flat gap => do
    let tokens := tokens ++ (← Token.ofText A pos gap)
    match enclosing.getLast? with
    | some frame => .error (.unbalanced (.byteAt frame.start) .unclosed)
    | none => reduce A ⟨0, pos + gap.size⟩ tokens
  | .opening gap rest => do
    let tokens := tokens ++ (← Token.ofText A pos gap)
    let pos := pos + gap.size
    run (⟨pos, tokens⟩ :: enclosing) [] (pos + 1) rest
  | .closing gap rest => do
    let tokens := tokens ++ (← Token.ofText A pos gap)
    let pos := pos + gap.size
    match enclosing with
    | [] => .error (.unbalanced (.byteAt pos) .unopened)
    | frame :: enclosing =>
      let value ← reduce A ⟨frame.start + 1, pos⟩ tokens
      let group := ⟨.operand value, ⟨frame.start, pos + 1⟩⟩
      run enclosing (frame.tokens ++ [group]) (pos + 1) rest

def value (maxDepth? : Option Nat) (t : Text) : Except Error α := do
  let _ ← groups maxDepth? t
  run A [] [] 0 (.ofText t)

end Calculator

variable {α : Type} (A : Arithmetic α)

def calculate (t : Text) : Except Error α := Calculator.value A none t

def calculateWithin (limits : Limits) (t : Text) : Except Error α :=
  if limits.maxLength.toNat < t.size then .error (.tooLong t.size limits.maxLength.toNat)
  else Calculator.value A (some limits.maxDepth.toNat) t

end DiceArith
