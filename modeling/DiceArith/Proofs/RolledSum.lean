import DiceArith.Proofs.GroupStack
import DiceArith.Proofs.Rolling

/-! # Rolls as operands

The values of dice are written as a sum in parentheses. Read again, this is one operand of the
grammar whatever stands around it, and it is worth the values added from left to right.
-/

namespace DiceArith

variable {α δ : Type}

namespace Rolled

/-- The values added from left to right; without values the sum is zero. -/
def sum (A : Arithmetic α) : List UInt32 → α
  | [] => A.numeral (.ofNat 0)
  | v :: values => values.foldl (fun acc v => A.apply .add acc (A.numeral (.ofNat v.toNat)))
      (A.numeral (.ofNat v.toNat))

def addend (v : UInt32) : List (Terminal δ) := [.operator .add, .number (.ofNat v.toNat)]

def terminals : List UInt32 → List (Terminal δ)
  | [] => [.number (.ofNat 0)]
  | v :: values => .number (.ofNat v.toNat) :: values.flatMap addend

def group (values : List UInt32) : List (Terminal δ) := .opening :: terminals values ++ [.closing]

theorem value_foldl (A : Arithmetic α) (f : δ → α) (values : List UInt32) (e : Tree δ) :
    (values.foldl (fun e v => .node .add e (.number (.ofNat v.toNat))) e).value A f =
      values.foldl (fun acc v => A.apply .add acc (A.numeral (.ofNat v.toNat))) (e.value A f) := by
  induction values generalizing e with
  | nil => rfl
  | cons v values ih => exact ih _

theorem value_sum (A : Arithmetic α) (f : δ → α) (values : List UInt32) :
    (sum (.free δ) values).value A f = sum A values := by
  cases values with
  | nil => rfl
  | cons v values => exact value_foldl A f values _

theorem parses_foldl {k : Nat} {ts : List (Terminal δ)} {e : Tree δ} (h : Parses k ts e)
    (values : List UInt32) : ∃ j, Parses j (ts ++ values.flatMap addend)
      (values.foldl (fun e v => .node .add e (.number (.ofNat v.toNat))) e) := by
  induction values generalizing k ts e with
  | nil => exact ⟨k, by simpa using h⟩
  | cons v values ih =>
    have hadd := Parses.node .add h.tier_le (by decide) h (.number (.ofNat v.toNat))
    obtain ⟨j, hj⟩ := ih hadd
    refine ⟨j, ?_⟩
    rw [List.append_assoc] at hj
    exact hj

theorem parses_terminals (values : List UInt32) :
    ∃ k, Parses k (terminals values : List (Terminal δ)) (sum (.free δ) values) := by
  cases values with
  | nil => exact ⟨0, .number _⟩
  | cons v values => exact parses_foldl (.number _) values

theorem shift_group (A : Arithmetic α) (f : δ → α) (values : List UInt32)
    (rest : List (Terminal δ)) (outer : List (List (Token α))) (tokens : List (Token α)) :
    shift A f (group values ++ rest) outer tokens =
      shift A f rest outer (tokens ++ [.operand (sum A values)]) := by
  obtain ⟨k, h⟩ := parses_terminals (δ := δ) values
  rw [group, h.group.shift_operand, value_sum]

theorem valid_ofNat (n : Nat) : (Numeral.ofNat n).Valid :=
  ⟨Nat.toDigits_ne_nil, fun _ => Text.isDigit_of_mem_ofNat, by simp [Numeral.ofNat]⟩

theorem text_ofNat (n : Nat) : (Numeral.ofNat n).text = Text.ofNat n := by
  simp [Numeral.text, Numeral.ofNat]

theorem terminals_terms {values : List UInt32} (hne : values ≠ []) :
    (terms values).terminals = (terminals values : List (Terminal δ)).map some := by
  induction values with
  | nil => exact absurd rfl hne
  | cons v values ih =>
    cases values with
    | nil =>
      have hnumber := Text.terminals_number (δ := δ) (t := []) (valid_ofNat v.toNat) (by simp)
      rw [terms_singleton, ← text_ofNat, ← List.append_nil (Numeral.text _), hnumber,
        Text.terminals_nil]
      rfl
    | cons v' values =>
      have hrest := ih (List.cons_ne_nil _ _)
      rw [terms_cons_cons, ← text_ofNat]
      generalize terms (v' :: values) = t at hrest
      have hnumber := Text.terminals_number (δ := δ) (t := [' ', '+', ' '] ++ t)
        (valid_ofNat v.toNat) (by simp)
      have hadd : (Text.terminals (Operator.symbol .add ++ ' ' :: t) :
          List (Option (Terminal δ))) = some (.operator .add) :: t.terminals := by
        rw [← Text.terminals_blank (c := ' ') (t := t) rfl]
        exact Text.terminals_operator (by simp [Lexeme.isSymbolic, Text.isBlank])
      have hblank : (Text.terminals ([' ', '+', ' '] ++ t) : List (Option (Terminal δ))) =
          Text.terminals (Operator.symbol .add ++ ' ' :: t) := Text.terminals_blank rfl
      rw [hnumber, hblank, hadd, hrest]
      rfl

end Rolled

end DiceArith
