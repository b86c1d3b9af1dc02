import DiceArith.Proofs.NestedCalculation
import DiceArith.Proofs.Scanning

/-! # What can fail

The scan fails at a parenthesis, and only when all parentheses have a partner is anything else
looked at. What fails then is a token, the order of tokens or their reduction.
-/

namespace DiceArith

open Bracketing (ofText)

/-- Errors that a text can still have once its parentheses are in order. -/
inductive Error.OfTokens : Error → Prop
  | malformed (span problem) : OfTokens (.malformed span problem)
  | leftover (operands) : OfTokens (.leftover operands)

section Tokens

variable {α : Type} {A : Arithmetic α} {error : Error}

theorem Token.ofLexemes_error {ls : List (Located Lexeme)} {tokens : List (Located (Token α))}
    (h : ofLexemes A ls = (tokens, some error)) : error.OfTokens := by
  induction ls generalizing tokens with
  | nil => cases h
  | cons lexeme ls ih =>
    unfold ofLexemes at h
    split at h
    · obtain ⟨_, herror⟩ := Prod.mk.inj h
      exact Option.some.inj herror ▸ .malformed _ _
    · obtain ⟨_, herror⟩ := Prod.mk.inj h
      exact ih (Prod.ext rfl herror)

theorem Token.ofText_error {pos : Nat} {t : Text} (h : ofText A pos t = .error error) :
    error.OfTokens := by
  unfold ofText at h
  split at h
  · cases h
  · next hlexemes =>
    obtain rfl := Except.error.inj h
    exact ofLexemes_error hlexemes

theorem Chain.tailOfTokens_error {stop : Nat} {tokens : List (Located (Token α))}
    (h : tailOfTokens stop tokens = .error error) : error.OfTokens := by
  fun_induction tailOfTokens stop tokens with
  | case1 => cases h
  | case2 | case3 | case4 => exact Except.error.inj h ▸ .malformed _ _
  | case5 _ _ _ _ _ ih => exact ih (Except.map_eq_error_iff.mp h)

theorem Chain.ofTokens_error {whole : Span} {tokens : List (Located (Token α))}
    (h : ofTokens whole tokens = .error error) : error.OfTokens := by
  unfold ofTokens at h
  split at h
  · exact Except.error.inj h ▸ .malformed _ _
  · exact Except.error.inj h ▸ .malformed _ _
  · exact tailOfTokens_error (Except.map_eq_error_iff.mp h)

theorem Calculator.reduce_error {whole : Span} {tokens : List (Located (Token α))}
    (h : reduce A whole tokens = .error error) : error.OfTokens := by
  rcases Except.bind_eq_error_iff.mp h with h | ⟨chain, _, h⟩
  · exact Chain.ofTokens_error h
  · unfold Chain.reduce at h
    split at h
    · cases h
    · exact Except.error.inj h ▸ .leftover _

theorem Nest.tokens_error {n : Nest} {pos : Nat} (h : n.tokens A pos = .error error) :
    error.OfTokens := by
  induction n generalizing pos with
  | flat gap _ => exact Token.ofText_error h
  | group gap _ inner rest ihi ihr =>
    rcases Except.bind_eq_error_iff.mp h with h | ⟨_, _, h⟩
    · exact Token.ofText_error h
    rcases Except.bind_eq_error_iff.mp h with h | ⟨_, _, h⟩
    · exact ihi h
    rcases Except.bind_eq_error_iff.mp h with h | ⟨_, _, h⟩
    · exact Calculator.reduce_error h
    rcases Except.bind_eq_error_iff.mp h with h | ⟨_, _, h⟩
    · exact ihr h
    · cases h

theorem Calculator.value_error {maxDepth? : Option Nat} {t : Text}
    (h : value A maxDepth? t = .error error) :
    groups maxDepth? t = .error error ∨
      (∃ spans, groups maxDepth? t = .ok spans) ∧ error.OfTokens := by
  rcases Except.bind_eq_error_iff.mp h with h | ⟨spans, hspans, h⟩
  · exact .inl h
  · refine .inr ⟨⟨spans, hspans⟩, ?_⟩
    obtain ⟨n, rfl⟩ := Nest.exists_of_groups hspans
    rw [n.run_text, n.nested_text] at h
    rcases Except.bind_eq_error_iff.mp h with h | ⟨_, _, h⟩
    · exact Nest.tokens_error h
    · exact reduce_error h

/-- What a calculation refuses without bounds is a parenthesis or a token. -/
theorem calculate_error {t : Text} (h : calculate A t = .error error) :
    (∃ span side, error = .unbalanced span side ∧ groups none t = .error error) ∨
      error.OfTokens := by
  rcases Calculator.value_error h with hg | ⟨_, herror⟩
  · obtain ⟨_, _, _, _, hf⟩ := faultIn_of_groups hg
    cases hf with
    | tooDeep hmax => cases hmax
    | unclosed => exact .inl ⟨_, _, rfl, hg⟩
    | unopened => exact .inl ⟨_, _, rfl, hg⟩
  · exact .inr herror

theorem calculate_eq_unbalanced_iff {t : Text} {span : Span} {side : Unmatched} :
    calculate A t = .error (.unbalanced span side) ↔
      groups none t = .error (.unbalanced span side) := by
  constructor
  · intro h
    rcases calculate_error h with ⟨_, _, _, hg⟩ | herror
    · exact hg
    · cases herror
  · intro h
    rw [calculate, Calculator.value, h, Except.error_bind]

end Tokens

end DiceArith
