import DiceArith.Text

/-! # Operators

Five binary operators in three tiers. Tiers are applied in increasing order, so
the operators of the first tier bind tightest.
-/

namespace DiceArith

inductive Operator
  | power
  | multiply
  | divide
  | add
  | subtract
  deriving DecidableEq, Repr

namespace Operator

def symbol : Operator → Text
  | power => ['*', '*']
  | multiply => ['*']
  | divide => ['/']
  | add => ['+']
  | subtract => ['-']

def ofSymbol? : Text → Option Operator
  | ['*', '*'] => some power
  | ['*'] => some multiply
  | ['/'] => some divide
  | ['+'] => some add
  | ['-'] => some subtract
  | _ => none

theorem ofSymbol?_symbol (op : Operator) : ofSymbol? op.symbol = some op := by
  cases op <;> rfl

theorem symbol_of_ofSymbol? {t : Text} {op : Operator} (h : ofSymbol? t = some op) :
    op.symbol = t := by
  unfold ofSymbol? at h
  split at h <;> simp_all <;> subst h <;> rfl

def tier : Operator → Nat
  | power => 1
  | multiply | divide => 2
  | add | subtract => 3

def firstTier : Nat := 1

def lastTier : Nat := 3

def tiers : List Nat := [1, 2, 3]

end Operator

end DiceArith
