import DiceArith.Evaluation
import Mathlib.Tactic.SplitIfs

/-! # Abridgement

An equation that does not fit into the characters it is given loses the end of its label, and all
but its value when there is no room for an ellipsis. Only an equation without a label, which nothing
can be cut from, is always given in full.
-/

namespace DiceArith.Evaluation

section Abridge

variable {label value : Text} {limit limit' : Nat}

def cutLabel (label value : Text) (limit : Nat) : Text :=
  label.take (limit - (value.length + framing) - ellipsis.length) ++ ellipsis

theorem length_equation (label value : Text) :
    (equation label value).length = label.length + value.length + framing := by
  simp only [equation, framing, List.length_append, List.length_cons, List.length_nil]
  omega

theorem equation_ne_value (label value : Text) : equation label value ≠ value := by
  intro h
  have hlength := congrArg List.length h
  simp only [length_equation, framing] at hlength
  omega

theorem abridge_nil (value : Text) (limit : Nat) :
    abridge [] value limit = equation [] value := by
  simp [abridge]

theorem abridge_of_fits (h : (equation label value).length ≤ limit) :
    abridge label value limit = equation label value := by
  rw [length_equation] at h
  apply if_pos
  omega

theorem abridge_of_cut (h : limit < (equation label value).length)
    (hroom : value.length + framing + ellipsis.length ≤ limit) :
    abridge label value limit = equation (cutLabel label value limit) value := by
  rw [length_equation] at h
  have hlabel : ¬ label.length ≤ limit - (value.length + framing) := by omega
  have hellipsis : ellipsis.length ≤ limit - (value.length + framing) := by omega
  simp only [abridge, cutLabel, if_neg hlabel, if_pos hellipsis]

theorem length_equation_cutLabel (h : limit < (equation label value).length)
    (hroom : value.length + framing + ellipsis.length ≤ limit) :
    (equation (cutLabel label value limit) value).length = limit := by
  simp only [length_equation, cutLabel, List.length_append, List.length_take] at h ⊢
  omega

theorem abridge_of_narrow (hne : label ≠ []) (h : limit < (equation label value).length)
    (hroom : limit < value.length + framing + ellipsis.length) :
    abridge label value limit = value := by
  have hpos : 0 < label.length := List.length_pos_iff.mpr hne
  have hthree : ellipsis.length = 3 := rfl
  rw [length_equation] at h
  have hlabel : ¬ label.length ≤ limit - (value.length + framing) := by omega
  have hellipsis : ¬ ellipsis.length ≤ limit - (value.length + framing) := by omega
  simp only [abridge, if_neg hlabel, if_neg hellipsis]

/-- An abridged equation has the length of the longest form that fits. -/
theorem length_abridge (hne : label ≠ []) (limit : Nat) :
    (abridge label value limit).length =
      if (equation label value).length ≤ limit then (equation label value).length
      else if value.length + framing + ellipsis.length ≤ limit then limit
      else value.length := by
  split_ifs with hfits hroom
  · rw [abridge_of_fits hfits]
  · have hlt := Nat.not_le.mp hfits
    rw [abridge_of_cut hlt hroom, length_equation_cutLabel hlt hroom]
  · rw [abridge_of_narrow hne (Nat.not_le.mp hfits) (Nat.not_le.mp hroom)]

theorem length_abridge_mono (hne : label ≠ []) (h : limit ≤ limit') :
    (abridge label value limit).length ≤ (abridge label value limit').length := by
  have hfull := length_equation label value
  simp only [length_abridge hne]
  split_ifs <;> omega

theorem length_abridge_le_or_eq (hne : label ≠ []) (limit : Nat) :
    (abridge label value limit).length ≤ limit ∨ abridge label value limit = value := by
  rcases Nat.lt_or_ge limit (equation label value).length with hlt | hfits
  · rcases Nat.lt_or_ge limit (value.length + framing + ellipsis.length) with hroom | hroom
    · exact .inr (abridge_of_narrow hne hlt hroom)
    · rw [abridge_of_cut hlt hroom, length_equation_cutLabel hlt hroom]
      exact .inl (Nat.le_refl limit)
  · rw [abridge_of_fits hfits]
    exact .inl hfits

theorem length_abridge_nil_iff (value : Text) (limit : Nat) :
    ((abridge [] value limit).length ≤ limit ∨ abridge [] value limit = value) ↔
      value.length + framing ≤ limit := by
  rw [abridge_nil, length_equation, List.length_nil, Nat.zero_add]
  exact or_iff_left (equation_ne_value [] value)

end Abridge

/-- A description keeps its limit or is the bare value, unless nothing was expanded and the frame
does not fit. -/
theorem describe_keeps_limit_iff (e : Evaluation Float) (limit : Nat) :
    ((e.describe (some limit)).length ≤ limit ∨
        e.describe (some limit) = Decimal.ofFloat e.result) ↔
      (e.expanded ≠ [] ∨ (Decimal.ofFloat e.result).length + 5 ≤ limit) := by
  by_cases hnil : e.expanded = []
  · simp only [describe, hnil, length_abridge_nil_iff, framing, ne_eq, not_true_eq_false, false_or]
  · exact iff_of_true (length_abridge_le_or_eq hnil limit) (.inl hnil)

/-- Without a label the frame is shown although it does not fit. -/
theorem describe_empty_too_long :
    ¬ ((describe (some 3) ⟨[], 18, []⟩).length ≤ 3 ∨
      describe (some 3) ⟨[], 18, []⟩ = Decimal.ofFloat 18) := by
  intro h
  have hfits := (length_abridge_nil_iff (Decimal.ofFloat 18) 3).mp h
  rw [framing] at hfits
  omega

/-- A description is given in full if it fits, else cut to the limit, else the value alone. -/
theorem describe_shows_most (e : Evaluation Float) (h : e.expanded ≠ []) :
    let value := Decimal.ofFloat e.result
    let full := e.describe none
    (∀ limit, full.length ≤ limit → e.describe (some limit) = full) ∧
    (∀ limit, limit < full.length → value.length + 8 ≤ limit →
      ∃ p, p <+: e.expanded ∧ p.length = limit - value.length - 8 ∧
        e.describe (some limit) = '\x60' :: (p ++ "... = ".toList ++ value ++ ['\x60']) ∧
        (e.describe (some limit)).length = limit) ∧
    (∀ limit, limit < full.length → limit < value.length + 8 →
      e.describe (some limit) = value) ∧
    ∀ limit limit', limit ≤ limit' →
      (e.describe (some limit)).length ≤ (e.describe (some limit')).length := by
  intro value full
  refine ⟨fun limit hfits => abridge_of_fits hfits, ?_,
    fun limit hlt hroom => abridge_of_narrow h hlt hroom,
    fun limit limit' hle => length_abridge_mono h hle⟩
  intro limit hlt hroom
  have hcut : e.describe (some limit) = equation (cutLabel e.expanded value limit) value :=
    abridge_of_cut hlt hroom
  have hlength := length_equation_cutLabel hlt hroom
  refine ⟨e.expanded.take (limit - value.length - 8), List.take_prefix _ _, ?_, ?_, ?_⟩
  · have hfull : full.length = e.expanded.length + value.length + 5 := length_equation _ _
    rw [List.length_take]
    omega
  · rw [hcut]
    simp [equation, cutLabel, framing, ellipsis, Nat.sub_sub]
  · rw [hcut, hlength]

theorem describe_shows_most_sum :
    let e : Evaluation Float := ⟨"(3 + 5 + 1) * 2".toList, 18, [⟨⟨3, 6⟩, [3, 5, 1]⟩]⟩
    let value := Decimal.ofFloat e.result
    e.expanded ≠ [] ∧
    e.describe (some (value.length + 14)) =
      '\x60' :: ("(3 + 5... = ".toList ++ value ++ ['\x60']) ∧
    e.describe (some (value.length + 20)) = e.describe none ∧
    e.describe (some (value.length + 7)) = value ∧
    (e.describe (some 17)).length ≤ (e.describe (some (UInt64.size - 1))).length := by
  intro e value
  have hne : e.expanded ≠ [] := by decide
  have hfull : (e.describe none).length = 15 + value.length + 5 :=
    length_equation e.expanded value
  obtain ⟨hwhole, hcut, hbare, hmono⟩ := describe_shows_most e hne
  change ∀ limit, _ → value.length + 8 ≤ limit → _ at hcut
  change ∀ limit, _ → limit < value.length + 8 → _ at hbare
  refine ⟨hne, ?_, hwhole _ (by omega), hbare _ (by omega) (by omega), hmono _ _ (by decide)⟩
  obtain ⟨p, hp, hlength, hshown, _⟩ := hcut (value.length + 14) (by omega) (by omega)
  have hprefix : p = "(3 + 5".toList := by
    rw [List.prefix_iff_eq_take.mp hp, hlength, Nat.add_sub_cancel_left]
    rfl
  rw [hshown, hprefix]
  rfl

end DiceArith.Evaluation
