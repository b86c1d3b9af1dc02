import DiceArith.Evaluation

/-! # Sessions

Requests of a session share one roller. What an earlier request has taken from it is
gone for the later ones, whether or not that request was answered.
-/

namespace DiceArith

inductive Request
  | rollDie (sides : UInt32)
  | roll (dice : Dice)
  | expand (limits : Limits) (t : Text)
  | evaluate (limits : Limits) (t : Text)
  deriving DecidableEq, Repr

inductive Reply (α : Type)
  | value (value : UInt32)
  | rolled (rolled : Rolled)
  | expanded (expansion : Expansion)
  | evaluated (evaluation : Evaluation α)
  | failed (failure : Failure)
  deriving DecidableEq, Repr

namespace Reply

variable {α : Type}

def ofOption {β : Type} (f : β → Reply α) : Option β → Reply α
  | some b => f b
  | none => failed .exhausted

def ofExcept {β : Type} (f : β → Reply α) : Except Failure β → Reply α
  | .ok b => f b
  | .error failure => failed failure

end Reply

namespace Session

variable {α σ : Type} (A : Arithmetic α) (r : Roller σ)

def step (request : Request) (s : σ) : Reply α × σ :=
  match request with
  | .rollDie sides => (r.rollDie sides s).map (.ofOption .value) id
  | .roll dice => (r.roll dice s).map (.ofOption .rolled) id
  | .expand limits t => (DiceArith.expand r limits t s).map (.ofExcept .expanded) id
  | .evaluate limits t => (DiceArith.evaluate A r limits t s).map (.ofExcept .evaluated) id

def run : List Request → σ → List (Reply α × σ)
  | [], _ => []
  | request :: rest, s =>
    let answer := step A r request s
    answer :: run rest answer.2

end Session

end DiceArith
