import DiceArith.Proofs.Nest
import DiceArith.Proofs.NestedCalculation
import DiceArith.Proofs.Segmentation

/-! # Places of errors

What an error marks in a text, described by what stands there and around it. Neither positions
nor lexemes nor tokens are mentioned; they are what the places are computed from.
-/

namespace DiceArith

namespace Text

def Blank (t : Text) : Prop := ∀ c ∈ t, isBlank c = true

def isNumeric (c : Char) : Bool := c.isDigit || c == '.'

def isMark (c : Char) : Bool := !c.isDigit && !isBlank c && c != '(' && c != ')'

/-- Characters of one kind, and no other one of that kind next to them. -/
structure Run (p : Char → Bool) (before run after : Text) : Prop where
  ne_nil : run ≠ []
  all : ∀ c ∈ run, p c = true
  before : ∀ c ∈ before.getLast?, p c = false
  after : ∀ c ∈ after.head?, p c = false

/-- A numeral that is not part of a longer one, or a whole group. -/
inductive Operand : (before operand after : Text) → Prop
  | literal {u v} {n : Numeral} : n.Valid → Run isNumeric u n.text v → Operand u n.text v
  | group {u v inner : Text} : inner.Balanced → Operand u ('(' :: (inner ++ [')'])) v

/-- What stands around a whole expression, or around what a group encloses. -/
inductive Around : (before after : Text) → Prop
  | expression : Around [] []
  | group (u v) : Around (u ++ ['(']) (')' :: v)

end Text

namespace Error

open Text
open Segment (source)

/-- What an error marks, between the text before it and the text after it. -/
inductive Marks : Error → (before marked after : Text) → Prop
  | invalidDice {l p l' span problem} :
      segments (source l ++ (p.text ++ source l')) = l ++ .dice p :: l' →
      p.Alone (source l) (source l') →
      Marks (.invalidDice p.text span problem) (source l) p.text (source l')
  | tooDeep {span max u v} : Marks (.tooDeep span max) u ['('] v
  | unclosed {span u v} : Marks (.unbalanced span .unclosed) u ['('] v
  | unopened {span u v} : Marks (.unbalanced span .unopened) u [')'] v
  | unknownOperator {span u w v} : Run isMark u w v → Operator.ofSymbol? w = none →
      Marks (.malformed span (.unknownOperator w)) u w v
  | misplacedOperator {span u v} {op : Operator} : Run isMark u op.symbol v →
      Marks (.malformed span (.misplacedOperator op)) u op.symbol v
  | adjacentOperands {span u first blanks w v} : Operand u first (blanks ++ (w ++ v)) →
      Blank blanks → Operand (u ++ (first ++ blanks)) w v →
      Marks (.malformed span .adjacentOperands) (u ++ (first ++ blanks)) w v
  | missingOperand {span u w v} : Around u v → Blank w →
      Marks (.malformed span .missingOperand) u w v
  | trailingOperator {span u inner blanks v} {op : Operator} : Around u v →
      Balanced (inner ++ (op.symbol ++ blanks)) →
      Run isMark (u ++ inner) op.symbol (blanks ++ v) → Blank blanks →
      Marks (.malformed span .trailingOperator) (u ++ (inner ++ (op.symbol ++ blanks))) [] v

/-- The place of an error, if it has one, is what the error marks in the text. -/
def Points (t : Text) (error : Error) : Prop := ∀ span, error.span? = some span →
  span.start ≤ span.stop ∧ span.stop ≤ t.size ∧
    ∃ u w v, t = u ++ (w ++ v) ∧ span.start = u.size ∧ t.slice? span = some w ∧
      error.Marks u w v

theorem Points.of_marks {error : Error} {t u w v : Text} (h : error.Marks u w v)
    (ht : t = u ++ (w ++ v)) (hspan : error.span? = some ⟨u.size, u.size + w.size⟩) :
    Points t error := by
  intro span hs
  obtain rfl := Option.some.inj (hspan.symm.trans hs)
  subst ht
  refine ⟨Nat.le_add_right _ _, ?_, u, w, v, rfl, rfl, slice?_append u w v, h⟩
  rw [size_append, size_append]
  exact Nat.add_le_add_left (Nat.le_add_right _ _) _

theorem Points.of_span?_eq_none {error : Error} {t : Text} (h : error.span? = none) :
    Points t error := by
  intro span hs
  cases h.symm.trans hs

end Error

end DiceArith
