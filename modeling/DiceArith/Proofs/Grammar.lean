import DiceArith.Arithmetic
import Mathlib.Data.List.Chain

/-! # The grammar of expressions

A chain is a sequence of operands with an operator between each two of them; an
operand is a number, a set of dice or a chain in parentheses. A parse tree orders the
operators of a chain by their tiers and those of one tier from left to right.
-/

namespace DiceArith

structure Numeral.Valid (n : Numeral) : Prop where
  whole_ne_nil : n.whole ≠ []
  whole_digits : ∀ c ∈ n.whole, c.isDigit = true
  fraction_digits : ∀ c ∈ n.fraction, c.isDigit = true

/-- The symbols of the grammar; dice stand in the form `δ`. -/
inductive Terminal (δ : Type)
  | number (n : Numeral)
  | dice (d : δ)
  | operator (op : Operator)
  | opening
  | closing
  deriving DecidableEq, Repr

/-- A text spells terminals when only blanks stand before, between and after them. -/
inductive Spells {δ : Type} : Text → List (Terminal δ) → Prop
  | nil : Spells [] []
  | blank {c t ts} : Text.isBlank c = true → Spells t ts → Spells (c :: t) ts
  | number {n t ts} : n.Valid → Spells t ts → Spells (n.text ++ t) (.number n :: ts)
  | operator {t ts} (op) : Spells t ts → Spells (op.symbol ++ t) (.operator op :: ts)
  | opening {t ts} : Spells t ts → Spells ('(' :: t) (.opening :: ts)
  | closing {t ts} : Spells t ts → Spells (')' :: t) (.closing :: ts)

inductive Category
  | operand
  | chain
  deriving DecidableEq, Repr

/-- The rules of the grammar, without any regard to tiers. -/
inductive Derives {δ : Type} : Category → List (Terminal δ) → Prop
  | number (n) : Derives .operand [.number n]
  | dice (d) : Derives .operand [.dice d]
  | group {ts} : Derives .chain ts → Derives .operand (.opening :: ts ++ [.closing])
  | single {ts} : Derives .operand ts → Derives .chain ts
  | extend {ts us} (op) : Derives .chain ts → Derives .operand us →
      Derives .chain (ts ++ .operator op :: us)

/-- Trees of operators; parentheses leave no trace but their effect on the shape. -/
inductive Tree (δ : Type)
  | number (n : Numeral)
  | dice (d : δ)
  | node (op : Operator) (left right : Tree δ)
  deriving DecidableEq, Repr

def Tree.value {α δ : Type} (A : Arithmetic α) (f : δ → α) : Tree δ → α
  | number n => A.numeral n
  | dice d => f d
  | node op left right => A.apply op (left.value A f) (right.value A f)

/-- Numerals and operators mean themselves, so the value of a tree is the tree itself. -/
def Arithmetic.free (δ : Type) : Arithmetic (Tree δ) := ⟨.number, .node⟩

/-- Terminals, their parse tree and the tier of its root; an operand has tier zero. To the right of
an operator only lower tiers stand. -/
inductive Parses {δ : Type} : Nat → List (Terminal δ) → Tree δ → Prop
  | number (n) : Parses 0 [.number n] (.number n)
  | dice (d) : Parses 0 [.dice d] (.dice d)
  | group {k ts e} : Parses k ts e → Parses 0 (.opening :: ts ++ [.closing]) e
  | node {l r ts us left right} (op : Operator) : l ≤ op.tier → r < op.tier →
      Parses l ts left → Parses r us right →
      Parses op.tier (ts ++ .operator op :: us) (.node op left right)

variable {δ : Type} {ts us : List (Terminal δ)}

theorem Tree.value_free (e : Tree δ) : e.value (.free δ) .dice = e := by
  induction e with
  | number | dice => rfl
  | node op left right ihl ihr => rw [value, ihl, ihr]; rfl

theorem Operator.tier_pos (op : Operator) : 0 < op.tier := by cases op <;> decide

theorem Operator.tier_le (op : Operator) : op.tier ≤ 3 := by cases op <;> decide

theorem Derives.append (op : Operator) (hl : Derives .chain ts) (hr : Derives .chain us) :
    Derives .chain (ts ++ .operator op :: us) := by
  generalize hc : Category.chain = c at hr
  induction hr with
  | number | dice | group => cases hc
  | single h => exact .extend op hl h
  | extend op' _ h ih =>
    rw [← List.cons_append, ← List.append_assoc]
    exact .extend op' (ih hc) h

theorem Parses.tier_le {k : Nat} {e : Tree δ} (h : Parses k ts e) : k ≤ 3 := by
  cases h with
  | number | dice | group => exact Nat.zero_le _
  | node op => exact op.tier_le

theorem Parses.derives {k : Nat} {e : Tree δ} (h : Parses k ts e) : Derives .chain ts := by
  induction h with
  | number n => exact .single (.number n)
  | dice d => exact .single (.dice d)
  | group _ ih => exact .single (.group ih)
  | node op _ _ _ _ ihl ihr => exact ihl.append op ihr

/-- An operator added on the right goes below every looser operator of the right spine. -/
theorem Parses.extend {k : Nat} {e d : Tree δ} (op : Operator) (he : Parses k ts e)
    (hd : Parses 0 us d) :
    ∃ j e', j ≤ max k op.tier ∧ Parses j (ts ++ .operator op :: us) e' := by
  induction he with
  | number n =>
    exact ⟨_, _, Nat.le_max_right _ _, .node op (Nat.zero_le _) op.tier_pos (.number n) hd⟩
  | dice d =>
    exact ⟨_, _, Nat.le_max_right _ _, .node op (Nat.zero_le _) op.tier_pos (.dice d) hd⟩
  | group h =>
    exact ⟨_, _, Nat.le_max_right _ _, .node op (Nat.zero_le _) op.tier_pos (.group h) hd⟩
  | node op' hl hr left right _ ihr =>
    by_cases hop : op'.tier ≤ op.tier
    · exact ⟨_, _, Nat.le_max_right _ _, .node op hop op.tier_pos (.node op' hl hr left right) hd⟩
    · obtain ⟨j, e', hj, he'⟩ := ihr
      have hlt : j < op'.tier := by omega
      rw [List.append_assoc, List.cons_append]
      exact ⟨_, _, Nat.le_max_left _ _, .node op' hl hlt left he'⟩

theorem Derives.parses {c : Category} (h : Derives c ts) :
    ∃ k e, Parses k ts e ∧ (c = .operand → k = 0) := by
  induction h with
  | number n => exact ⟨0, _, .number n, fun _ => rfl⟩
  | dice d => exact ⟨0, _, .dice d, fun _ => rfl⟩
  | group _ ih =>
    obtain ⟨k, e, he, _⟩ := ih
    exact ⟨0, e, .group he, fun _ => rfl⟩
  | single _ ih =>
    obtain ⟨k, e, he, _⟩ := ih
    exact ⟨k, e, he, fun h => by cases h⟩
  | extend op _ _ ihl ihr =>
    obtain ⟨k, e, he, _⟩ := ihl
    obtain ⟨j, d, hd, hj⟩ := ihr
    obtain rfl : j = 0 := hj rfl
    obtain ⟨i, e', _, he'⟩ := he.extend op hd
    exact ⟨i, e', he', fun h => by cases h⟩

/-- The chains of the grammar are what has a parse tree. -/
theorem derives_iff_parses : Derives .chain ts ↔ ∃ k e, Parses k ts e := by
  constructor
  · intro h
    obtain ⟨k, e, he, _⟩ := h.parses
    exact ⟨k, e, he⟩
  · rintro ⟨k, e, he⟩
    exact he.derives

end DiceArith
