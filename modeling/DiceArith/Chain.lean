import DiceArith.Token

/-! # Chains

A chain is an operand followed by operators with their right operands. It is reduced
tier by tier, and within a tier from left to right.
-/

namespace DiceArith

structure Chain (α : Type) where
  head : α
  tail : List (Operator × α)
  deriving DecidableEq, Repr

namespace Chain

variable {α : Type} (A : Arithmetic α)

/-- Pairs each operator with the operand after it; `stop` is where the tokens end. -/
def tailOfTokens (stop : Nat) : List (Located (Token α)) → Except Error (List (Operator × α))
  | [] => .ok []
  | ⟨.operand _, span⟩ :: _ => .error (.malformed span .adjacentOperands)
  | [⟨.operator _, _⟩] => .error (.malformed (.emptyAt stop) .trailingOperator)
  | ⟨.operator _, _⟩ :: ⟨.operator op, span⟩ :: _ =>
    .error (.malformed span (.misplacedOperator op))
  | ⟨.operator op, _⟩ :: ⟨.operand value, _⟩ :: rest =>
    (tailOfTokens stop rest).map ((op, value) :: ·)

def ofTokens (whole : Span) : List (Located (Token α)) → Except Error (Chain α)
  | [] => .error (.malformed whole .missingOperand)
  | ⟨.operator op, span⟩ :: _ => .error (.malformed span (.misplacedOperator op))
  | ⟨.operand value, _⟩ :: rest => (tailOfTokens whole.stop rest).map (⟨value, ·⟩)

/-- Applies the operators of one tier from left to right and keeps the others. -/
def fold (tier : Nat) (acc : α) : List (Operator × α) → Chain α
  | [] => ⟨acc, []⟩
  | (op, right) :: rest =>
    if op.tier = tier then fold tier (A.apply op acc right) rest
    else
      let kept := fold tier right rest
      ⟨acc, (op, kept.head) :: kept.tail⟩

def pass (chain : Chain α) (tier : Nat) : Chain α := fold A tier chain.head chain.tail

def reduce (chain : Chain α) : Except Error α :=
  match Operator.tiers.foldl (pass A) chain with
  | ⟨value, []⟩ => .ok value
  | ⟨_, rest⟩ => .error (.leftover (rest.length + 1))

end Chain

end DiceArith
