import DiceArith.Dice
import DiceArith.Segment

/-! # Rollers

A roller takes the sides of a die and its own state to a value and the next state.
It may have no value left, and then keeps the state that it has reached.
-/

namespace DiceArith

structure Roller (σ : Type) where
  rollDie : UInt32 → σ → Option UInt32 × σ

namespace Roller

variable {σ : Type} (r : Roller σ)

def draw : List UInt32 → σ → Option (List UInt32) × σ
  | [], s => (some [], s)
  | sides :: rest, s =>
    match r.rollDie sides s with
    | (none, s) => (none, s)
    | (some value, s) =>
      match draw rest s with
      | (none, s) => (none, s)
      | (some values, s) => (some (value :: values), s)

def roll (dice : Dice) (s : σ) : Option Rolled × σ :=
  match r.draw (List.replicate dice.count.toNat dice.sides) s with
  | (none, s) => (none, s)
  | (some values, s) => (some ⟨dice, values⟩, s)

def rollSegments : List (Segment Dice) → σ → Option (List (Segment Rolled)) × σ
  | [], s => (some [], s)
  | .text t :: rest, s =>
    match rollSegments rest s with
    | (none, s) => (none, s)
    | (some rolled, s) => (some (.text t :: rolled), s)
  | .dice dice :: rest, s =>
    match r.roll dice s with
    | (none, s) => (none, s)
    | (some first, s) =>
      match rollSegments rest s with
      | (none, s) => (none, s)
      | (some rolled, s) => (some (.dice first :: rolled), s)

def constant (value : UInt32) : Roller Unit := ⟨fun _ s => (some value, s)⟩

def highest : Roller Unit := ⟨fun sides s => (some sides, s)⟩

/-- The dice show the values of a list, one after the other. -/
def sequence : Roller (List UInt32) where
  rollDie
    | _, [] => (none, [])
    | _, value :: rest => (some value, rest)

def canRoll (values : List UInt32) : Bool := !values.isEmpty

end Roller

end DiceArith
