import DiceArith.Nesting
import DiceArith.Roller.Basic

/-! # Expansion

All dice patterns of an expression are accepted before any of them is rolled. Each
one is then replaced by the sum of its values; the text between them stays as it is.
-/

namespace DiceArith

/-- The text has an error, or the roller had no value left. -/
inductive Failure
  | rejected (error : Error)
  | exhausted
  deriving DecidableEq, Repr

structure Expansion where
  text : Text
  rolls : List Rolled
  deriving DecidableEq, Repr

namespace Expansion

/-- Accepts the patterns of segments that have `rolled` dice and `pos` bytes before them. -/
def accept (limits : Limits) (rolled : UInt32) (pos : Nat) :
    List (Segment Pattern) → Except Error (List (Segment Dice))
  | [] => .ok []
  | .text t :: rest => (accept limits rolled (pos + t.size) rest).map (.text t :: ·)
  | .dice pattern :: rest =>
    match pattern.accept limits rolled with
    | .error problem =>
      .error (.invalidDice pattern.text ⟨pos, pos + pattern.text.size⟩ problem)
    | .ok dice =>
      (accept limits (rolled + dice.count) (pos + pattern.text.size) rest).map (.dice dice :: ·)

/-- Everything that can be refused before a die is rolled. -/
def prepare (limits : Limits) (t : Text) : Except Error (List (Segment Dice)) := do
  if limits.maxLength.toNat < t.size then
    throw (.tooLong t.size limits.maxLength.toNat)
  checkDepth limits.maxDepth.toNat t
  accept limits 0 0 (segments t)

def ofSegments (rolled : List (Segment Rolled)) : Expansion where
  text := rolled.flatMap (Segment.write Rolled.text)
  rolls := rolled.filterMap Segment.dice?

end Expansion

variable {σ : Type}

def expand (r : Roller σ) (limits : Limits) (t : Text) (s : σ) : Except Failure Expansion × σ :=
  match Expansion.prepare limits t with
  | .error error => (.error (.rejected error), s)
  | .ok accepted =>
    match r.rollSegments accepted s with
    | (none, s) => (.error .exhausted, s)
    | (some rolled, s) => (.ok (.ofSegments rolled), s)

end DiceArith
