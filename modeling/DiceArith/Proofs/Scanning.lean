import DiceArith.Nesting
import DiceArith.Proofs.Except
import DiceArith.Proofs.Reading

/-! # Scanning

A scan reads a text character by character and stops for parentheses only. The strict scan and
the depth check count open parentheses alike, and whatever a scan refuses is a parenthesis.
-/

namespace DiceArith

open Bracketing (ofText)

namespace Nesting

variable {maxDepth? : Option Nat} {maxDepth depth start pos : Nat} {w t : Text}

theorem scan_plain (h : w.Plain) : scan maxDepth? depth start pos (ofText (w ++ t)) =
    scan maxDepth? depth start (pos + w.size) (ofText t) := by
  rw [Bracketing.ofText_append h]
  cases ofText t <;> simp only [Bracketing.prepend, scan, Text.size_append, Nat.add_assoc]

theorem check_plain (h : w.Plain) : check maxDepth depth pos (ofText (w ++ t)) =
    check maxDepth depth (pos + w.size) (ofText t) := by
  rw [Bracketing.ofText_append h]
  cases ofText t <;> simp only [Bracketing.prepend, check, Text.size_append, Nat.add_assoc]

theorem scan_cons {c : Char} (h : Text.Plain [c]) :
    scan maxDepth? depth start pos (ofText (c :: t)) =
      scan maxDepth? depth start (pos + c.utf8Size) (ofText t) := scan_plain h

theorem check_cons {c : Char} (h : Text.Plain [c]) :
    check maxDepth depth pos (ofText (c :: t)) =
      check maxDepth depth (pos + c.utf8Size) (ofText t) := check_plain h

theorem scan_opening (h : tooDeep? maxDepth? (depth + 1) pos = none) :
    scan maxDepth? depth start pos (ofText ('(' :: t)) =
      scan maxDepth? (depth + 1) (if depth = 0 then pos else start) (pos + 1) (ofText t) := by
  rw [Bracketing.ofText_opening, scan]
  simp only [Text.size_nil, Nat.add_zero, h]

theorem tooDeep?_eq_none {m : Nat} (h : depth ≤ m) : tooDeep? (some m) depth pos = none :=
  if_neg (Nat.not_lt.mpr h)

theorem check_opening (h : check maxDepth depth pos (ofText ('(' :: t)) = .ok ()) :
    depth + 1 ≤ maxDepth ∧ check maxDepth (depth + 1) (pos + 1) (ofText t) = .ok () := by
  rw [Bracketing.ofText_opening, check] at h
  simp only [Text.size_nil, Nat.add_zero, tooDeep?] at h
  by_cases hd : maxDepth < depth + 1
  · rw [if_pos hd] at h
    cases h
  · rw [if_neg hd] at h
    exact ⟨Nat.not_lt.mp hd, h⟩

theorem check_closing : check maxDepth depth pos (ofText (')' :: t)) =
    check maxDepth (depth - 1) (pos + 1) (ofText t) := rfl

theorem check_of_size (h : depth + t.size ≤ maxDepth) :
    check maxDepth depth pos (ofText t) = .ok () := by
  induction t generalizing depth pos with
  | nil => rfl
  | cons c t ih =>
    have hc := c.utf8Size_pos
    rw [Text.size_cons] at h
    rcases Text.paren_cases c with rfl | rfl | hplain
    · have hnone : tooDeep? (some maxDepth) (depth + 1) pos = none :=
        tooDeep?_eq_none (by omega)
      rw [Bracketing.ofText_opening, check]
      simp only [Text.size_nil, Nat.add_zero, hnone]
      exact ih (by omega)
    · rw [check_closing]
      exact ih (by omega)
    · rw [check_cons hplain]
      exact ih (by omega)

/-- What a scan can find wrong with the parenthesis `c` at a position. -/
inductive Fault (maxDepth? : Option Nat) (pos : Nat) : (c : Char) → Error → Prop
  | tooDeep {max} : maxDepth? = some max → Fault maxDepth? pos '(' (.tooDeep (.byteAt pos) max)
  | unclosed : Fault maxDepth? pos '(' (.unbalanced (.byteAt pos) .unclosed)
  | unopened : Fault maxDepth? pos ')' (.unbalanced (.byteAt pos) .unopened)

theorem Fault.of_tooDeep? {error : Error} (h : tooDeep? maxDepth? depth pos = some error) :
    Fault maxDepth? pos '(' error := by
  unfold tooDeep? at h
  split at h
  · split at h
    · obtain rfl := Option.some.inj h
      exact .tooDeep rfl
    · cases h
  · cases h

def FaultIn (maxDepth? : Option Nat) (pos : Nat) (t : Text) (error : Error) : Prop :=
  ∃ (u : Text) (c : Char) (v : Text), t = u ++ c :: v ∧ Fault maxDepth? (pos + u.size) c error

theorem Fault.here {c : Char} {error : Error} (h : Fault maxDepth? pos c error) :
    FaultIn maxDepth? pos (c :: t) error := ⟨[], c, t, rfl, h⟩

theorem FaultIn.cons {c : Char} {error : Error}
    (h : FaultIn maxDepth? (pos + c.utf8Size) t error) : FaultIn maxDepth? pos (c :: t) error := by
  obtain ⟨u, d, v, rfl, h⟩ := h
  rw [Nat.add_assoc, ← Text.size_cons] at h
  exact ⟨c :: u, d, v, rfl, h⟩

/-- A scan fails at a parenthesis of its text or at an open one. -/
theorem fault_of_scan {error : Error}
    (h : scan maxDepth? depth start pos (ofText t) = .error error) :
    (0 < depth ∧ error = .unbalanced (.byteAt start) .unclosed) ∨
      FaultIn maxDepth? pos t error := by
  induction t generalizing depth start pos with
  | nil =>
    cases depth with
    | zero => cases h
    | succ depth => exact .inl ⟨depth.succ_pos, (Except.error.inj h).symm⟩
  | cons c t ih =>
    rcases Text.paren_cases c with rfl | rfl | hplain
    · cases hdeep : tooDeep? maxDepth? (depth + 1) pos with
      | some deep =>
        rw [Bracketing.ofText_opening, scan] at h
        simp only [Text.size_nil, Nat.add_zero, hdeep] at h
        obtain rfl := Except.error.inj h
        exact .inr (Fault.of_tooDeep? hdeep).here
      | none =>
        rw [scan_opening hdeep] at h
        rcases ih h with ⟨_, rfl⟩ | hlater
        · by_cases hd : depth = 0
          · rw [if_pos hd]
            exact .inr Fault.unclosed.here
          · rw [if_neg hd]
            exact .inl ⟨Nat.pos_of_ne_zero hd, rfl⟩
        · exact .inr hlater.cons
    · match depth with
      | 0 =>
        obtain rfl := Except.error.inj h
        exact .inr Fault.unopened.here
      | 1 =>
        rcases ih (Except.map_eq_error_iff.mp h) with ⟨hd, _⟩ | hlater
        · exact absurd hd (Nat.lt_irrefl 0)
        · exact .inr hlater.cons
      | depth + 2 =>
        rcases ih h with ⟨_, rfl⟩ | hlater
        · exact .inl ⟨Nat.succ_pos _, rfl⟩
        · exact .inr hlater.cons
    · rw [scan_cons hplain] at h
      rcases ih h with hstart | hlater
      · exact .inl hstart
      · exact .inr hlater.cons

theorem faultIn_of_check {error : Error}
    (h : check maxDepth depth pos (ofText t) = .error error) :
    FaultIn (some maxDepth) pos t error := by
  induction t generalizing depth pos with
  | nil => cases h
  | cons c t ih =>
    rcases Text.paren_cases c with rfl | rfl | hplain
    · rw [Bracketing.ofText_opening, check] at h
      simp only [Text.size_nil, Nat.add_zero] at h
      split at h
      · next hdeep =>
        obtain rfl := Except.error.inj h
        exact (Fault.of_tooDeep? hdeep).here
      · exact (ih h).cons
    · exact (ih h).cons
    · rw [check_cons hplain] at h
      exact (ih h).cons

end Nesting

theorem faultIn_of_groups {maxDepth? : Option Nat} {t : Text} {error : Error}
    (h : groups maxDepth? t = .error error) : Nesting.FaultIn maxDepth? 0 t error := by
  rcases Nesting.fault_of_scan h with ⟨hd, _⟩ | hf
  · exact absurd hd (Nat.lt_irrefl 0)
  · exact hf

end DiceArith
