import DiceArith.Proofs.Scanning
import Mathlib.Data.List.Induction

/-! # Running depth

The depth of a text counts the parentheses that are open at its end, where closing one that was
never opened does nothing. The depth check follows it over all beginnings of a text and refuses the
first parenthesis that goes beyond the bound. In a text that the strict scan accepts, the scan has
counted the same.
-/

namespace DiceArith

namespace Text

def deepen (depth : Nat) (c : Char) : Nat :=
  if c = '(' then depth + 1 else if c = ')' then depth - 1 else depth

def depthFrom (depth : Nat) (t : Text) : Nat := t.foldl deepen depth

def depth (t : Text) : Nat := depthFrom 0 t

/-- No beginning of a text is deeper than `max`. -/
def ShallowFrom (max depth : Nat) (t : Text) : Prop := ∀ u, u <+: t → depthFrom depth u ≤ max

def Shallow (max : Nat) (t : Text) : Prop := ShallowFrom max 0 t

variable {max d : Nat} {c : Char} {t u : Text}

theorem depthFrom_cons : depthFrom d (c :: t) = depthFrom (deepen d c) t := rfl

theorem depthFrom_concat : depthFrom d (t ++ [c]) = deepen (depthFrom d t) c :=
  List.foldl_concat deepen d c t

theorem deepen_opening : deepen d '(' = d + 1 := rfl

theorem deepen_closing : deepen d ')' = d - 1 := rfl

theorem deepen_plain (h : Plain [c]) : deepen d c = d := by
  obtain ⟨hopening, hclosing⟩ := h c List.mem_cons_self
  rw [deepen, if_neg hopening, if_neg hclosing]

theorem deepen_le (h : c ≠ '(') : deepen d c ≤ d := by
  rw [deepen, if_neg h]
  split_ifs <;> omega

theorem depth_concat_opening : (t ++ ['(']).depth = t.depth + 1 := depthFrom_concat

theorem ShallowFrom.depth_le (h : ShallowFrom max d t) : d ≤ max := h [] (List.nil_prefix)

theorem shallowFrom_nil (h : d ≤ max) : ShallowFrom max d [] := by
  intro u hu
  rw [List.prefix_nil.mp hu]
  exact h

theorem ShallowFrom.tail (h : ShallowFrom max d (c :: t)) : ShallowFrom max (deepen d c) t :=
  fun u hu => h (c :: u) ((List.prefix_cons_inj c).mpr hu)

theorem ShallowFrom.concat (h : ShallowFrom max d t) (hc : depthFrom d (t ++ [c]) ≤ max) :
    ShallowFrom max d (t ++ [c]) := by
  intro u hu
  rcases List.prefix_concat_iff.mp hu with rfl | hu
  · exact hc
  · exact h u hu

theorem shallowFrom_or (h : d ≤ max) (t : Text) : ShallowFrom max d t ∨
    ∃ u v, t = u ++ '(' :: v ∧ ShallowFrom max d u ∧ max < depthFrom d (u ++ ['(']) := by
  induction t using List.reverseRecOn with
  | nil => exact .inl (shallowFrom_nil h)
  | append_singleton t c ih =>
    rcases ih with hshallow | ⟨u, v, rfl, hu, hdeep⟩
    · by_cases hc : depthFrom d (t ++ [c]) ≤ max
      · exact .inl (hshallow.concat hc)
      · -- no other character makes a text deeper
        have hopening : c = '(' := by
          by_contra hne
          have hle := deepen_le (d := depthFrom d t) hne
          have ht := hshallow t List.prefix_rfl
          rw [depthFrom_concat] at hc
          omega
        subst hopening
        exact .inr ⟨t, [], rfl, hshallow, Nat.not_le.mp hc⟩
    · exact .inr ⟨u, v ++ [c], by rw [List.append_assoc, List.cons_append], hu, hdeep⟩

end Text

namespace Nesting

open Bracketing (ofText)
open Text

variable {max d pos : Nat} {t u : Text}

theorem check_append (h : ShallowFrom max d u) (pos : Nat) (t : Text) :
    check max d pos (ofText (u ++ t)) = check max (depthFrom d u) (pos + u.size) (ofText t) := by
  induction u generalizing d pos with
  | nil => rfl
  | cons c u ih =>
    rw [List.cons_append, depthFrom_cons, Text.size_cons, ← Nat.add_assoc, ← ih h.tail]
    rcases Text.paren_cases c with rfl | rfl | hplain
    · have hnone : tooDeep? (some max) (d + 1) pos = none := tooDeep?_eq_none h.tail.depth_le
      rw [Bracketing.ofText_opening, check]
      simp only [Text.size_nil, Nat.add_zero, hnone]
      rfl
    · rfl
    · rw [check_cons hplain, deepen_plain hplain]

theorem check_of_shallow (h : ShallowFrom max d t) (pos : Nat) :
    check max d pos (ofText t) = .ok () := by
  have happend := check_append h pos []
  rw [List.append_nil] at happend
  exact happend

theorem check_of_deep (h : ShallowFrom max d u) (hdeep : max < depthFrom d (u ++ ['(']))
    (pos : Nat) (t : Text) : check max d pos (ofText (u ++ '(' :: t)) =
      .error (.tooDeep (.byteAt (pos + u.size)) max) := by
  rw [depthFrom_concat, deepen_opening] at hdeep
  rw [check_append h, Bracketing.ofText_opening, check]
  simp only [Text.size_nil, Nat.add_zero, tooDeep?, if_pos hdeep]

section Scan

variable {maxDepth? : Option Nat} {start : Nat} {spans : List Span}

/-- What the scan accepts it accepts from any place on. -/
theorem exists_scan_rest (h : scan maxDepth? d start pos (ofText (u ++ t)) = .ok spans) :
    ∃ start' spans',
      scan maxDepth? (depthFrom d u) start' (pos + u.size) (ofText t) = .ok spans' := by
  induction u generalizing d start pos spans with
  | nil => exact ⟨start, spans, h⟩
  | cons c u ih =>
    rw [List.cons_append] at h
    rw [depthFrom_cons, Text.size_cons, ← Nat.add_assoc]
    rcases Text.paren_cases c with rfl | rfl | hplain
    · rw [Bracketing.ofText_opening, scan] at h
      split at h
      · cases h
      · exact ih h
    · rcases d with _ | _ | d
      · cases h
      · obtain ⟨_, h, _⟩ := Except.map_eq_ok_iff.mp h
        exact ih h
      · exact ih h
    · rw [scan_cons hplain] at h
      rw [deepen_plain hplain]
      exact ih h

theorem depth_eq_zero_of_scan (h : scan maxDepth? d start pos (ofText []) = .ok spans) :
    d = 0 := by
  by_contra hne
  rw [ofText, scan, if_neg hne] at h
  cases h

theorem depth_ne_zero_of_scan (h : scan maxDepth? d start pos (ofText (')' :: t)) = .ok spans) :
    d ≠ 0 := by
  rintro rfl
  cases h

end Scan

end Nesting

variable {max : Nat} {t : Text} {error : Error}

open Text

theorem checkDepth_eq_ok_iff : checkDepth max t = .ok () ↔ t.Shallow max := by
  constructor
  · intro h
    rcases shallowFrom_or (Nat.zero_le max) t with hshallow | ⟨u, v, rfl, hu, hdeep⟩
    · exact hshallow
    · rw [checkDepth, Nesting.check_of_deep hu hdeep] at h
      cases h
  · intro h
    exact Nesting.check_of_shallow h 0

/-- The depth check refuses the first parenthesis beyond the bound, and nothing else. -/
theorem checkDepth_eq_error_iff : checkDepth max t = .error error ↔
    ∃ u v, t = u ++ '(' :: v ∧ u.Shallow max ∧ max < (u ++ ['(']).depth ∧
      error = .tooDeep (.byteAt u.size) max := by
  constructor
  · intro h
    rcases shallowFrom_or (Nat.zero_le max) t with hshallow | ⟨u, v, rfl, hu, hdeep⟩
    · cases h.symm.trans (checkDepth_eq_ok_iff.mpr hshallow)
    · rw [checkDepth, Nesting.check_of_deep hu hdeep, Nat.zero_add] at h
      exact ⟨u, v, rfl, hu, hdeep, (Except.error.inj h).symm⟩
  · rintro ⟨u, v, rfl, hu, hdeep, rfl⟩
    rw [checkDepth, Nesting.check_of_deep hu hdeep, Nat.zero_add]

end DiceArith
