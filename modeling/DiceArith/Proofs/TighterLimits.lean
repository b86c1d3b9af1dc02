import DiceArith.Evaluation
import DiceArith.Proofs.ExpandedNesting

/-! # Tighter limits

Under tighter limits an expression is refused for a bound that it breaks, or nothing is different.
Every stage is such a filter of what it does under looser limits, and a sequence of filters is one.
-/

namespace DiceArith

/-- No bound is looser than the same bound of the other limits. -/
structure Limits.Tighter (limits limits' : Limits) : Prop where
  maxDice : limits.maxDice ≤ limits'.maxDice
  maxSides : limits.maxSides ≤ limits'.maxSides
  maxLength : limits.maxLength ≤ limits'.maxLength
  maxDepth : limits.maxDepth ≤ limits'.maxDepth

inductive DiceProblem.OfLimit : DiceProblem → Prop
  | tooManySides (max) : OfLimit (.tooManySides max)
  | tooManyDice (max) : OfLimit (.tooManyDice max)

inductive Error.OfSize : Error → Prop
  | tooLong (size max) : OfSize (.tooLong size max)
  | tooDeep (span max) : OfSize (.tooDeep span max)

/-- Errors that name a bound. -/
inductive Error.OfLimit : Error → Prop
  | size {error} : error.OfSize → OfLimit error
  | dice {pattern span problem} : problem.OfLimit → OfLimit (.invalidDice pattern span problem)

open Except (Filters)

variable {limits limits' : Limits}

theorem Limits.Tighter.forExpanded (h : limits.Tighter limits') :
    limits.forExpanded.Tighter limits'.forExpanded := by
  refine ⟨h.maxDice, h.maxSides, UInt64.le_refl _, ?_⟩
  have hdepth := UInt64.le_iff_toNat_le.mp h.maxDepth
  rw [UInt64.le_iff_toNat_le, toNat_maxDepth_forExpanded, toNat_maxDepth_forExpanded]
  omega

theorem Dice.check_filters (h : limits.Tighter limits') (before : UInt32) (dice : Dice) :
    Filters DiceProblem.OfLimit (dice.check limits before) (dice.check limits' before) := by
  unfold check
  by_cases hcount : dice.count = 0
  · rw [if_pos hcount, if_pos hcount]
    exact .same _
  rw [if_neg hcount, if_neg hcount]
  by_cases hsides : dice.sides = 0
  · rw [if_pos hsides, if_pos hsides]
    exact .same _
  rw [if_neg hsides, if_neg hsides]
  by_cases hmax : limits.maxSides < dice.sides
  · rw [if_pos hmax]
    exact .refused _ (.tooManySides _)
  have hmax' : ¬ limits'.maxSides < dice.sides :=
    UInt32.not_lt.mpr (UInt32.le_trans (UInt32.not_lt.mp hmax) h.maxSides)
  rw [if_neg hmax, if_neg hmax']
  by_cases hsum : limits.maxDice.toNat < before.toNat + dice.count.toNat
  · rw [if_pos hsum]
    exact .refused _ (.tooManyDice _)
  have hsum' : ¬ limits'.maxDice.toNat < before.toNat + dice.count.toNat :=
    Nat.not_lt.mpr (Nat.le_trans (Nat.not_lt.mp hsum) (UInt32.le_iff_toNat_le.mp h.maxDice))
  rw [if_neg hsum, if_neg hsum']
  exact .same _

theorem Pattern.accept_filters (h : limits.Tighter limits') (before : UInt32) (p : Pattern) :
    Filters DiceProblem.OfLimit (p.accept limits before) (p.accept limits' before) := by
  have hdice : Filters DiceProblem.OfLimit (p.dice limits) (p.dice limits') := by
    unfold Pattern.dice
    split
    · exact .refused _ (.tooManyDice _)
    · exact .refused _ (.tooManySides _)
    · exact .same _
  refine hdice.bind fun dice => (Dice.check_filters h before dice).bind fun _ => ?_
  exact .same _

theorem Expansion.accept_filters (h : limits.Tighter limits') (before : UInt32) (pos : Nat)
    (segs : List (Segment Pattern)) :
    Filters Error.OfLimit (accept limits before pos segs) (accept limits' before pos segs) := by
  induction segs generalizing before pos with
  | nil => exact .same _
  | cons segment segs ih =>
    cases segment with
    | text t => exact (ih before (pos + t.size)).map _
    | dice p =>
      rw [accept, accept]
      rcases (Pattern.accept_filters h before p).eq_or with ⟨problem, hproblem, hp⟩ | hp
      · rw [hp]
        exact .refused _ (.dice hproblem)
      · rw [hp]
        cases p.accept limits' before with
        | error problem => exact .same _
        | ok dice => exact (ih (before + dice.count) (pos + p.text.size)).map _

namespace Nesting

variable {maxDepth? maxDepth'? : Option Nat}

/-- Wherever a bound on depth stops nothing, the other one stops nothing either. -/
def Looser (maxDepth? maxDepth'? : Option Nat) : Prop :=
  ∀ depth pos, tooDeep? maxDepth? depth pos = none → tooDeep? maxDepth'? depth pos = none

theorem looser_none : Looser maxDepth? none := fun _ _ _ => rfl

theorem looser_some {m m' : Nat} (h : m ≤ m') : Looser (some m) (some m') := by
  intro depth pos hdepth
  refine tooDeep?_eq_none (Nat.le_trans ?_ h)
  by_contra hlt
  simp [tooDeep?, Nat.not_le.mp hlt] at hdepth

theorem ofSize_of_tooDeep? {depth pos : Nat} {error : Error}
    (h : tooDeep? maxDepth? depth pos = some error) : error.OfSize := by
  unfold tooDeep? at h
  split at h
  · split at h
    · obtain rfl := Option.some.inj h
      exact .tooDeep _ _
    · cases h
  · cases h

theorem scan_filters (h : Looser maxDepth? maxDepth'?) (depth start pos : Nat) (b : Bracketing) :
    Filters Error.OfSize (scan maxDepth? depth start pos b)
      (scan maxDepth'? depth start pos b) := by
  induction b generalizing depth start pos with
  | flat gap => exact .same _
  | opening gap rest ih =>
    rw [scan, scan]
    cases hdeep : tooDeep? maxDepth? (depth + 1) (pos + gap.size) with
    | some error => exact .refused _ (ofSize_of_tooDeep? hdeep)
    | none =>
      rw [h _ _ hdeep]
      exact ih _ _ _
  | closing gap rest ih =>
    cases depth with
    | zero => exact .same _
    | succ depth =>
      cases depth with
      | zero => exact (ih 0 start (pos + gap.size + 1)).map _
      | succ depth => exact ih (depth + 1) start (pos + gap.size + 1)

theorem check_filters {m m' : Nat} (h : m ≤ m') (depth pos : Nat) (b : Bracketing) :
    Filters Error.OfSize (check m depth pos b) (check m' depth pos b) := by
  induction b generalizing depth pos with
  | flat gap => exact .same _
  | opening gap rest ih =>
    rw [check, check]
    cases hdeep : tooDeep? (some m) (depth + 1) (pos + gap.size) with
    | some error => exact .refused _ (ofSize_of_tooDeep? hdeep)
    | none =>
      rw [looser_some h _ _ hdeep]
      exact ih _ _
  | closing gap rest ih => exact ih _ _

end Nesting

namespace Expansion

theorem prepare_filters (h : limits.Tighter limits') (t : Text) :
    Filters Error.OfLimit (prepare limits t) (prepare limits' t) := by
  by_cases hlong : limits.maxLength.toNat < t.size
  · rw [prepare_of_long hlong]
    exact .refused _ (.size (.tooLong _ _))
  have hlength := UInt64.le_iff_toNat_le.mp h.maxLength
  have hdepth := UInt64.le_iff_toNat_le.mp h.maxDepth
  rw [prepare_of_short hlong, prepare_of_short (by omega)]
  have hcheck : Filters Error.OfLimit (checkDepth limits.maxDepth.toNat t)
      (checkDepth limits'.maxDepth.toNat t) :=
    (Nesting.check_filters hdepth 0 0 _).mono fun _ => .size
  exact hcheck.bind fun _ => accept_filters h 0 0 _

end Expansion

section Calculation

variable {α : Type} (A : Arithmetic α)

theorem Calculator.value_filters {maxDepth? maxDepth'? : Option Nat}
    (h : Nesting.Looser maxDepth? maxDepth'?) (t : Text) :
    Filters Error.OfSize (value A maxDepth? t) (value A maxDepth'? t) :=
  (Nesting.scan_filters h 0 0 0 _).bind fun _ => .same _

theorem calculateWithin_filters_calculate (limits : Limits) (t : Text) :
    Filters Error.OfSize (calculateWithin A limits t) (calculate A t) := by
  unfold calculateWithin
  split
  · exact .refused _ (.tooLong _ _)
  · exact Calculator.value_filters A Nesting.looser_none t

theorem calculateWithin_filters (h : limits.Tighter limits') (t : Text) :
    Filters Error.OfSize (calculateWithin A limits t) (calculateWithin A limits' t) := by
  by_cases hlong : limits.maxLength.toNat < t.size
  · rw [calculateWithin_of_long hlong]
    exact .refused _ (.tooLong _ _)
  · have hsize := Nat.not_lt.mp hlong
    have hdepth := Nesting.looser_some (UInt64.le_iff_toNat_le.mp h.maxDepth)
    rw [calculateWithin_of_short hsize,
      calculateWithin_of_short (hsize.trans (UInt64.le_iff_toNat_le.mp h.maxLength))]
    exact Calculator.value_filters A hdepth t

variable {σ : Type} (r : Roller σ)

theorem expand_of_tighter (h : limits.Tighter limits') (t : Text) (s : σ) :
    (∃ error, error.OfLimit ∧ expand r limits t s = (.error (.rejected error), s)) ∨
      expand r limits t s = expand r limits' t s := by
  unfold expand
  rcases (Expansion.prepare_filters h t).eq_or with ⟨error, herror, hp⟩ | hp
  · rw [hp]
    exact .inl ⟨error, herror, rfl⟩
  · rw [hp]
    exact .inr rfl

/-- Tighter limits change nothing about an evaluation but to refuse it for a broken bound. -/
theorem evaluate_of_tighter (h : limits.Tighter limits') (t : Text) (s : σ) :
    ((∃ error, error.OfLimit ∧ (evaluate A r limits t s).1 = .error (.rejected error)) ∨
      evaluate A r limits t s = evaluate A r limits' t s) ∧
    ((∃ error, error.OfSize ∧ calculateWithin A limits t = .error error) ∨
      calculateWithin A limits t = calculate A t) := by
  refine ⟨?_, (calculateWithin_filters_calculate A limits t).eq_or⟩
  rcases expand_of_tighter r h t s with ⟨error, herror, hx⟩ | hx
  · refine .inl ⟨error, herror, ?_⟩
    rw [evaluate, hx]
  · rw [evaluate, evaluate, hx]
    cases expand r limits' t s with
    | mk x? s' =>
      cases x? with
      | error failure => exact .inr rfl
      | ok x =>
        dsimp only
        rcases (calculateWithin_filters A h.forExpanded x.text).eq_or with
          ⟨error, herror, hv⟩ | hv
        · rw [hv]
          exact .inl ⟨error, .size herror, rfl⟩
        · rw [hv]
          exact .inr rfl

theorem evaluate_of_tighter_trailing :
    Limits.Tighter ⟨2, 6, 12, 1⟩ .standard ∧
    evaluate (.free Empty) .sequence ⟨2, 6, 12, 1⟩ "(1d6+1d4) *".toList [3, 1, 5] =
      (.error (.rejected (.malformed (.emptyAt 11) .trailingOperator)), [5]) ∧
    evaluate (.free Empty) .sequence ⟨2, 6, 12, 1⟩ "(1d6+1d4) *".toList [3, 1, 5] =
      evaluate (.free Empty) .sequence .standard "(1d6+1d4) *".toList [3, 1, 5] := by
  have htighter : Limits.Tighter ⟨2, 6, 12, 1⟩ .standard := by constructor <;> decide
  have heval : evaluate (.free Empty) .sequence ⟨2, 6, 12, 1⟩ "(1d6+1d4) *".toList [3, 1, 5] =
      (.error (.rejected (.malformed (.emptyAt 11) .trailingOperator)), [5]) := by
    decide +kernel
  refine ⟨htighter, heval, ?_⟩
  rcases (evaluate_of_tighter (.free Empty) .sequence htighter _ _).1 with ⟨error, herror, h⟩ | h
  · rw [heval] at h
    obtain rfl := Failure.rejected.inj (Except.error.inj h)
    cases herror with
    | size hsize => cases hsize
  · exact h

end Calculation

end DiceArith
