import DiceArith.Proofs.DepthChecks
import DiceArith.Proofs.Diceless

/-! # Evaluation without dice

An expression without dice is its own expansion, so to evaluate it is to calculate it. But first
its depth is checked without regard to parentheses that close nothing, and that is all the
difference there can be.
-/

namespace DiceArith

open Expansion (checkSize)
open Text

variable {α : Type}

section Calculation

variable {A : Arithmetic α} {limits : Limits} {t : Text} {error : Error}

theorem calculateWithin_of_groups_error (h : t.size ≤ limits.maxLength.toNat)
    (hgroups : groups (some limits.maxDepth.toNat) t = .error error) :
    calculateWithin A limits t = .error error := by
  rw [calculateWithin_of_short h, Calculator.value, hgroups, Except.error_bind]

theorem calculateWithin_of_checkSize (h : checkSize limits t = .ok ()) :
    calculateWithin A limits.forExpanded t = calculateWithin A limits t := by
  obtain ⟨hsize, hshallow⟩ := Expansion.checkSize_eq_ok_iff.mp h
  have hsize' : t.size ≤ limits.forExpanded.maxLength.toNat :=
    hsize.trans limits.maxLength_le_forExpanded
  rw [calculateWithin_of_short hsize', calculateWithin_of_short hsize, Calculator.value,
    Calculator.value, groups_of_shallow hshallow limits.maxDepth_le_forExpanded]

theorem calculateWithin_of_checkSize_error (h : checkSize limits t = .error error) :
    calculateWithin A limits t = .error error ∨ (t.size ≤ limits.maxLength.toNat ∧
      ∃ before deep, t.Overlooked limits.maxDepth.toNat before deep) := by
  unfold checkSize at h
  split at h
  · next hlong =>
    obtain rfl := Except.error.inj h
    exact .inl (calculateWithin_of_long hlong)
  · next hshort =>
    have hsize := Nat.not_lt.mp hshort
    rcases groups_of_checkDepth h with hgroups | hoverlooked
    · exact .inl (calculateWithin_of_groups_error hsize hgroups)
    · exact .inr ⟨hsize, hoverlooked⟩

theorem Text.Overlooked.calculateWithin_eq {before deep : Text}
    (h : t.Overlooked limits.maxDepth.toNat before deep) (hsize : t.size ≤ limits.maxLength.toNat) :
    calculateWithin A limits t = .error (.unbalanced (.byteAt before.size) .unopened) :=
  calculateWithin_of_groups_error hsize h.groups_eq

theorem Text.Overlooked.checkSize_eq {before deep : Text}
    (h : t.Overlooked limits.maxDepth.toNat before deep) (hsize : t.size ≤ limits.maxLength.toNat) :
    checkSize limits t = .error (.tooDeep (.byteAt deep.size) limits.maxDepth.toNat) := by
  rw [checkSize, if_neg (Nat.not_lt.mpr hsize), h.refused]

end Calculation

section Evaluation

variable {σ : Type} {t : Text}

theorem Text.Diceless.evaluate_of_error (h : t.Diceless) {limits : Limits} {error : Error}
    (hsize : checkSize limits t = .error error) (A : Arithmetic α) (r : Roller σ) (s : σ) :
    evaluate A r limits t s = (.error (.rejected error), s) := by
  rw [evaluate, h.expand_eq, hsize]
  rfl

theorem Text.Diceless.evaluate_eq_or (h : t.Diceless) (A : Arithmetic α) (r : Roller σ)
    (limits : Limits) (s : σ) :
    evaluate A r limits t s =
        (((calculateWithin A limits t).map fun v => ⟨t, v, []⟩).mapError .rejected, s) ∨
      t.size ≤ limits.maxLength.toNat ∧
        ∃ before deep, t.Overlooked limits.maxDepth.toNat before deep := by
  cases hsize : checkSize limits t with
  | ok _ =>
    left
    rw [evaluate, h.expand_eq, hsize, ← calculateWithin_of_checkSize hsize]
    simp only [Except.ok_map, Except.mapError]
    cases calculateWithin A limits.forExpanded t <;> rfl
  | error error =>
    refine (calculateWithin_of_checkSize_error (A := A) hsize).imp_left fun hcalculate => ?_
    rw [h.evaluate_of_error hsize, hcalculate]
    rfl

/-- Without dice an evaluation agrees with the calculation, but for errors past a parenthesis that
closes nothing. -/
theorem evaluate_diceless (h : t.Diceless) (A : Arithmetic α) (r : Roller σ) (limits : Limits)
    (s : σ) :
    (evaluate A r limits t s).2 = s ∧
    (∀ e, (evaluate A r limits t s).1 = .ok e ↔
      ∃ v, calculateWithin A limits t = .ok v ∧ e = ⟨t, v, []⟩) ∧
    ((limits.maxLength.toNat < t.size ∨
        ∀ before deep, ¬ t.Overlooked limits.maxDepth.toNat before deep) →
      ∀ failure, (evaluate A r limits t s).1 = .error failure ↔
        ∃ error, calculateWithin A limits t = .error error ∧ failure = .rejected error) ∧
    (limits.maxLength.toNat < t.size →
      calculateWithin A limits t = .error (.tooLong t.size limits.maxLength.toNat)) ∧
    ∀ before deep, t.Overlooked limits.maxDepth.toNat before deep →
      t.size ≤ limits.maxLength.toNat →
      (evaluate A r limits t s).1 =
        .error (.rejected (.tooDeep (.byteAt deep.size) limits.maxDepth.toNat)) ∧
      calculateWithin A limits t = .error (.unbalanced (.byteAt before.size) .unopened) := by
  have hoverlooked : ∀ before deep, t.Overlooked limits.maxDepth.toNat before deep →
      t.size ≤ limits.maxLength.toNat → evaluate A r limits t s =
        (.error (.rejected (.tooDeep (.byteAt deep.size) limits.maxDepth.toNat)), s) ∧
      calculateWithin A limits t = .error (.unbalanced (.byteAt before.size) .unopened) := by
    intro before deep hover hshort
    exact ⟨h.evaluate_of_error (hover.checkSize_eq hshort) A r s, hover.calculateWithin_eq hshort⟩
  refine ⟨?_, ?_, ?_, calculateWithin_of_long, ?_⟩
  · rcases h.evaluate_eq_or A r limits s with heq | ⟨hshort, before, deep, hover⟩
    · rw [heq]
    · rw [(hoverlooked before deep hover hshort).1]
  · intro e
    rcases h.evaluate_eq_or A r limits s with heq | ⟨hshort, before, deep, hover⟩
    · rw [heq]
      cases calculateWithin A limits t <;> simp [Except.mapError, eq_comm]
    · obtain ⟨heval, hcalculate⟩ := hoverlooked before deep hover hshort
      simp [heval, hcalculate]
  · intro hnot failure
    rcases h.evaluate_eq_or A r limits s with heq | ⟨hshort, before, deep, hover⟩
    · rw [heq]
      cases calculateWithin A limits t <;> simp [Except.mapError, eq_comm]
    · exact absurd hover (hnot.resolve_left (Nat.not_lt.mpr hshort) before deep)
  · intro before deep hover hshort
    obtain ⟨heval, hcalculate⟩ := hoverlooked before deep hover hshort
    exact ⟨by rw [heval], hcalculate⟩

theorem evaluate_diceless_overlooked :
    (evaluate (.free Empty) .sequence ⟨0, 0, 5, 1⟩ "1+(2)".toList [7]).1 =
      .ok ⟨"1+(2)".toList, .node .add (.number (.ofNat 1)) (.number (.ofNat 2)), []⟩ ∧
    Text.Overlooked 1 "1)((2".toList "1".toList "1)(".toList ∧
    (evaluate (.free Empty) .sequence ⟨0, 0, 5, 1⟩ "1)((2".toList [7]).1 =
      .error (.rejected (.tooDeep (.byteAt 3) 1)) ∧
    calculateWithin (.free Empty) ⟨0, 0, 5, 1⟩ "1)((2".toList =
      .error (.unbalanced (.byteAt 1) .unopened) := by
  have hdiceless : Text.Diceless "1+(2)".toList :=
    (patternless_of_not_mem (by decide)).diceless
  have hdiceless' : Text.Diceless "1)((2".toList :=
    (patternless_of_not_mem (by decide)).diceless
  have hplain : Text.Plain "1".toList := by simp [Text.Plain]
  have hover : Text.Overlooked 1 "1)((2".toList "1".toList "1)(".toList :=
    ⟨firstUnopened_iff.mpr hplain.balanced, ⟨['('], rfl⟩, ⟨['2'], rfl⟩, by decide +kernel⟩
  obtain ⟨_, hok, _⟩ := evaluate_diceless hdiceless (.free Empty) .sequence ⟨0, 0, 5, 1⟩ [7]
  obtain ⟨_, _, _, _, hrefused⟩ :=
    evaluate_diceless hdiceless' (.free Empty) .sequence ⟨0, 0, 5, 1⟩ [7]
  obtain ⟨heval, hcalculate⟩ := hrefused _ _ hover (by decide +kernel)
  exact ⟨(hok _).mpr ⟨_, by decide +kernel, rfl⟩, hover, heval, hcalculate⟩

end Evaluation

end DiceArith
