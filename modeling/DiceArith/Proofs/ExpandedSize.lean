import DiceArith.Proofs.Faces
import DiceArith.Proofs.Splicing

/-! # The size of an expansion

Each value that is rolled takes its digits and at most three bytes more, and a pattern makes up for
four of them. So the bounds on dice bound how much longer an expression gets, and its expansion
needs no bound on its length.
-/

namespace DiceArith

variable {σ : Type} {limits : Limits}

def Text.patterns (t : Text) : List Pattern := (segments t).filterMap Segment.dice?

def Text.diceCount (t : Text) : Nat := (t.patterns.map fun p => Text.toNat p.count).sum

def Limits.faceWidth (limits : Limits) : Nat := (Text.ofNat limits.maxSides.toNat).length

theorem Limits.faceWidth_pos (limits : Limits) : 0 < limits.faceWidth :=
  List.length_pos_iff.mpr Nat.toDigits_ne_nil

theorem Limits.lt_ten_pow_faceWidth {n : Nat} (h : n ≤ limits.maxSides.toNat) :
    n < 10 ^ limits.faceWidth :=
  Nat.lt_of_le_of_lt h (Text.lt_ten_pow_length _)

theorem Pattern.Rolls.sides_le {p : Pattern} {rolled : Rolled} (h : p.Rolls limits rolled) :
    rolled.dice.sides ≤ limits.maxSides := by
  obtain ⟨before, hp⟩ := h.accepted
  exact (Dice.check_eq_ok_iff.mp (Pattern.accept_eq_ok_iff.mp hp).2).2.2.1

theorem Segment.Expands.sum_values {segs : List (Segment Pattern)} {l : List (Segment Rolled)}
    (h : List.Forall₂ (Expands limits) segs l) :
    (l.map values).sum = ((segs.filterMap dice?).map fun p => Text.toNat p.count).sum := by
  induction h with
  | nil => rfl
  | cons hab _ ih =>
    rw [List.map_cons, List.sum_cons, ih]
    cases hab with
    | text t => exact Nat.zero_add _
    | dice hrolls => exact congrArg (· + _) hrolls.rolledAs.length

/-- Each die that shows a face adds at most the digits of the highest side and three bytes, less
four for each pattern. -/
theorem expand_size_le {r : Roller σ} {t : Text} {s s' : σ} {x : Expansion}
    (h : expand r limits t s = (.ok x, s')) :
    t.diceCount ≤ limits.maxDice.toNat ∧
    (r.ShowsFaces → ∀ rolled ∈ x.rolls, rolled.OnFaces) ∧
    ((∀ rolled ∈ x.rolls, rolled.OnFaces) →
      x.text.size + 4 * t.patterns.length ≤ t.size + t.diceCount * (limits.faceWidth + 3) ∧
      x.text.size ≤ limits.maxLength.toNat + limits.maxDice.toNat * (limits.faceWidth + 3)) := by
  obtain ⟨l, hx⟩ := Expansion.of_expand h
  have hcount : (l.map Segment.values).sum = t.diceCount :=
    Segment.Expands.sum_values hx.expands
  have hdice : t.diceCount ≤ limits.maxDice.toNat := hcount ▸ hx.sum_values_le
  refine ⟨hdice, fun hr => hr.expand h, fun hfaces => ?_⟩
  have hvalues : ∀ rolled ∈ x.rolls, ∀ v ∈ rolled.values, v.toNat < 10 ^ limits.faceWidth := by
    intro rolled hrolled v hv
    have hmem : .dice rolled ∈ l := by
      rwa [hx.eq_ofSegments, Expansion.mem_rolls_ofSegments] at hrolled
    obtain ⟨p, hrolls⟩ := Segment.Expands.exists_rolls hx.expands hmem
    have hface := ((hfaces rolled hrolled).isFace v hv).2
    apply Limits.lt_ten_pow_faceWidth
    exact UInt32.le_iff_toNat_le.mp (UInt32.le_trans hface hrolls.sides_le)
  have hadd : x.text.size + 4 * t.patterns.length ≤
      t.size + t.diceCount * (limits.faceWidth + 3) :=
    hcount ▸ hx.size_text_add_le limits.faceWidth_pos hvalues
  refine ⟨hadd, ?_⟩
  calc x.text.size ≤ t.size + t.diceCount * (limits.faceWidth + 3) := Nat.le_of_add_right_le hadd
    _ ≤ limits.maxLength.toNat + limits.maxDice.toNat * (limits.faceWidth + 3) :=
      Nat.add_le_add hx.size_le (Nat.mul_le_mul_right _ hdice)

/-- Shortest patterns and highest sides leave no byte to spare. -/
theorem expand_size_le_tight :
    Roller.highest.ShowsFaces ∧
    expand .highest ⟨3, 9, 7, 0⟩ "2d9+1d9".toList () =
      (.ok ⟨"(9 + 9)+(9)".toList, [⟨⟨2, 9⟩, [9, 9]⟩, ⟨⟨1, 9⟩, [9]⟩]⟩, ()) ∧
    Text.diceCount "2d9+1d9".toList = 3 ∧
    Text.size "(9 + 9)+(9)".toList + 4 * (Text.patterns "2d9+1d9".toList).length =
      Text.size "2d9+1d9".toList + 3 * (Limits.faceWidth ⟨3, 9, 7, 0⟩ + 3) ∧
    Text.size "(9 + 9)+(9)".toList ≤ 7 + 3 * (Limits.faceWidth ⟨3, 9, 7, 0⟩ + 3) := by
  have hr := Roller.inRange_highest.showsFaces
  have hexpand : expand .highest ⟨3, 9, 7, 0⟩ "2d9+1d9".toList () =
      (.ok ⟨"(9 + 9)+(9)".toList, [⟨⟨2, 9⟩, [9, 9]⟩, ⟨⟨1, 9⟩, [9]⟩]⟩, ()) := by decide +kernel
  obtain ⟨-, hfaces, hsize⟩ := expand_size_le hexpand
  exact ⟨hr, hexpand, by decide +kernel, by decide +kernel, (hsize (hfaces hr)).2⟩

end DiceArith
