import DiceArith.Bracketing
import DiceArith.Error

/-! # Nesting

The strict scan finds the outermost groups of a text and refuses the first parenthesis
that has no partner or is too deep. The depth check alone ignores an unmatched `)`.
-/

namespace DiceArith

namespace Nesting

/-- Too many open parentheses are an error at the last one. -/
def tooDeep? (maxDepth? : Option Nat) (depth pos : Nat) : Option Error :=
  match maxDepth? with
  | some max => if max < depth then some (.tooDeep (.byteAt pos) max) else none
  | none => none

/-- Spans of the outermost groups, with `depth` parentheses open, the first at `start`. -/
def scan (maxDepth? : Option Nat) (depth start pos : Nat) :
    Bracketing → Except Error (List Span)
  | .flat _ => if depth = 0 then .ok [] else .error (.unbalanced (.byteAt start) .unclosed)
  | .opening gap rest =>
    let pos := pos + gap.size
    match tooDeep? maxDepth? (depth + 1) pos with
    | some error => .error error
    | none => scan maxDepth? (depth + 1) (if depth = 0 then pos else start) (pos + 1) rest
  | .closing gap rest =>
    let pos := pos + gap.size
    match depth with
    | 0 => .error (.unbalanced (.byteAt pos) .unopened)
    | 1 => (scan maxDepth? 0 start (pos + 1) rest).map (⟨start, pos + 1⟩ :: ·)
    | depth + 2 => scan maxDepth? (depth + 1) start (pos + 1) rest

/-- The depth check; closing a parenthesis when none is open does nothing. -/
def check (maxDepth : Nat) (depth pos : Nat) : Bracketing → Except Error Unit
  | .flat _ => .ok ()
  | .opening gap rest =>
    let pos := pos + gap.size
    match tooDeep? (some maxDepth) (depth + 1) pos with
    | some error => .error error
    | none => check maxDepth (depth + 1) (pos + 1) rest
  | .closing gap rest => check maxDepth (depth - 1) (pos + gap.size + 1) rest

end Nesting

def groups (maxDepth? : Option Nat) (t : Text) : Except Error (List Span) :=
  Nesting.scan maxDepth? 0 0 0 (.ofText t)

def checkDepth (maxDepth : Nat) (t : Text) : Except Error Unit :=
  Nesting.check maxDepth 0 0 (.ofText t)

end DiceArith
