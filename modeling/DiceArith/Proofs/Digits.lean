import DiceArith.Proofs.Rolling
import DiceArith.Proofs.Grammar
import Mathlib.Data.List.DropRight
import Mathlib.Data.Rat.Defs
import Mathlib.Tactic.FieldSimp
import Mathlib.Tactic.Ring

/-! # Digits

The last digits of a number are written in a field of fixed width, which leading zeros fill. A
number is written as what is before those digits, followed by them. With a point between the two
it is a numeral for that many units of the last place; zeros at the end of its fraction can go.
-/

namespace DiceArith

namespace Text

variable {n w : Nat} {t : Text}

def lastDigits : Nat → Nat → Text
  | 0, _ => []
  | w + 1, n => lastDigits w (n / 10) ++ [(n % 10).digitChar]

@[simp] theorem length_lastDigits (w n : Nat) : (lastDigits w n).length = w := by
  induction w generalizing n with
  | zero => rfl
  | succ w ih => rw [lastDigits, List.length_append, ih, List.length_singleton]

theorem isDigit_of_mem_lastDigits {c : Char} (hc : c ∈ lastDigits w n) : c.isDigit = true := by
  induction w generalizing n with
  | zero => exact absurd hc List.not_mem_nil
  | succ w ih =>
    rcases List.mem_append.mp hc with hc | hc
    · exact ih hc
    · rw [List.mem_singleton.mp hc, Nat.isDigit_digitChar]
      exact decide_eq_true (Nat.mod_lt n (by decide))

theorem lastDigits_zero (w : Nat) : lastDigits w 0 = List.replicate w '0' := by
  induction w with
  | zero => rfl
  | succ w ih =>
    rw [lastDigits, Nat.zero_div, ih, List.replicate_succ']
    rfl

theorem lastDigits_add (v w n : Nat) :
    lastDigits (v + w) n = lastDigits v (n / 10 ^ w) ++ lastDigits w n := by
  induction w generalizing n with
  | zero => simp [lastDigits]
  | succ w ih =>
    rw [← Nat.add_assoc, lastDigits, lastDigits, ih, Nat.div_div_eq_div_mul, ← Nat.pow_succ',
      List.append_assoc]

theorem ofNat_append_lastDigits (h : 10 ^ w ≤ n) :
    ofNat (n / 10 ^ w) ++ lastDigits w n = ofNat n := by
  induction w generalizing n with
  | zero => rw [lastDigits, List.append_nil, Nat.pow_zero, Nat.div_one]
  | succ w ih =>
    have hten : 10 ≤ n := (Nat.le_self_pow w.succ_ne_zero 10).trans h
    have hdiv : 10 ^ w ≤ n / 10 := (Nat.le_div_iff_mul_le (by decide)).mpr h
    calc ofNat (n / 10 ^ (w + 1)) ++ lastDigits (w + 1) n
        = ofNat (n / 10 / 10 ^ w) ++ lastDigits w (n / 10) ++ [(n % 10).digitChar] := by
          rw [lastDigits, Nat.div_div_eq_div_mul, ← Nat.pow_succ', List.append_assoc]
      _ = ofNat (n / 10) ++ [(n % 10).digitChar] := by rw [ih hdiv]
      _ = ofNat n := (Nat.toDigits_of_base_le (by decide) hten).symm

theorem toNat_append (t u : Text) : toNat (t ++ u) = 10 ^ u.length * toNat t + toNat u := by
  unfold toNat
  rw [Nat.ofDigitChars_append, Nat.ofDigitChars_eq_ofDigitChars_zero]

theorem toNat_lastDigits (w n : Nat) : toNat (lastDigits w n) = n % 10 ^ w := by
  induction w generalizing n with
  | zero => rw [Nat.pow_zero, Nat.mod_one]; rfl
  | succ w ih =>
    have hdigit : toNat [(n % 10).digitChar] = n % 10 := by
      rw [← Nat.toDigits_of_lt_base (Nat.mod_lt n (by decide))]
      exact toNat_ofNat (n % 10)
    rw [lastDigits, toNat_append, ih, hdigit, List.length_singleton, Nat.pow_one, Nat.pow_succ',
      Nat.mod_mul, Nat.add_comm]

theorem toNat_ofNat_append_lastDigits (w n : Nat) :
    toNat (ofNat (n / 10 ^ w) ++ lastDigits w n) = n := by
  rw [toNat_append, toNat_ofNat, toNat_lastDigits, length_lastDigits, Nat.div_add_mod]

theorem length_ofNat_bounds (hn : 0 < n) :
    10 ^ ((ofNat n).length - 1) ≤ n ∧ n < 10 ^ (ofNat n).length := by
  have hpos : 0 < (ofNat n).length := Nat.length_toDigits_pos
  refine ⟨?_, lt_ten_pow_length n⟩
  rcases Nat.eq_zero_or_pos ((ofNat n).length - 1) with hzero | hpred
  · rw [hzero]
    exact hn
  · by_contra hlt
    have hle : (ofNat n).length ≤ (ofNat n).length - 1 :=
      (Nat.length_toDigits_le_iff (by decide) hpred).mpr (Nat.not_le.mp hlt)
    omega

theorem length_ofNat_le (h : n < 10 ^ (w + 1)) : (ofNat n).length ≤ w + 1 :=
  (Nat.length_toDigits_le_iff (by decide) w.succ_pos).mpr h

theorem length_ofNat_eq (hle : 10 ^ w ≤ n) (hlt : n < 10 ^ (w + 1)) :
    (ofNat n).length = w + 1 := by
  have hmore : 10 ^ w < 10 ^ (ofNat n).length := hle.trans_lt (lt_ten_pow_length n)
  exact le_antisymm (length_ofNat_le hlt) ((Nat.pow_lt_pow_iff_right (by decide)).mp hmore)

end Text

namespace Numeral

variable {n : Numeral} {places units : Nat}

def value (n : Numeral) : ℚ := n.mantissa / 10 ^ n.fraction.length

/-- No needless zero stands first, and none last after the point. -/
structure Canonical (n : Numeral) : Prop extends n.Valid where
  ofNat_whole : Text.ofNat (Text.toNat n.whole) = n.whole
  getLast_fraction : n.fraction.getLast? ≠ some '0'

/-- So many units of a decimal place, without needless zeros. -/
def ofUnits (places units : Nat) : Numeral where
  whole := Text.ofNat (units / 10 ^ places)
  fraction := (Text.lastDigits places units).rdropWhile (· == '0')

theorem canonical_ofUnits (places units : Nat) : (ofUnits places units).Canonical where
  whole_ne_nil := Nat.toDigits_ne_nil
  whole_digits _ := Text.isDigit_of_mem_ofNat
  fraction_digits _ hc :=
    Text.isDigit_of_mem_lastDigits ((List.rdropWhile_prefix _ _).subset hc)
  ofNat_whole := congrArg Text.ofNat (Text.toNat_ofNat _)
  getLast_fraction := by
    intro hlast
    obtain ⟨hne, hzero⟩ := List.mem_getLast?_eq_getLast (Option.mem_def.mpr hlast)
    exact List.rdropWhile_last_not _ _ hne (beq_iff_eq.mpr hzero.symm)

theorem value_trimmed (whole fraction : Text) :
    value ⟨whole, fraction.rdropWhile (· == '0')⟩ = value ⟨whole, fraction⟩ := by
  have hzeros : fraction.rtakeWhile (· == '0') =
      List.replicate (fraction.rtakeWhile (· == '0')).length '0' :=
    List.eq_replicate_iff.mpr ⟨rfl, fun c hc => by simpa using List.mem_rtakeWhile_imp hc⟩
  have hsplit := List.rdropWhile_append_rtakeWhile (p := (· == '0')) (l := fraction)
  rw [hzeros] at hsplit
  generalize fraction.rdropWhile (· == '0') = kept at hsplit ⊢
  generalize (fraction.rtakeWhile (· == '0')).length = dropped at hsplit
  have hnone : Text.toNat (List.replicate dropped '0') = 0 := by
    rw [Text.toNat, Nat.ofDigitChars_replicate_zero, Nat.mul_zero]
  subst hsplit
  unfold value mantissa
  dsimp only
  rw [← List.append_assoc, Text.toNat_append (whole ++ kept), hnone, Nat.add_zero,
    List.length_append, List.length_replicate, pow_add]
  push_cast
  field_simp

theorem value_ofUnits (places units : Nat) :
    (ofUnits places units).value = units / 10 ^ places := by
  rw [ofUnits, value_trimmed, value, mantissa, Text.toNat_ofNat_append_lastDigits,
    Text.length_lastDigits]

theorem length_text_ofUnits_le (places units : Nat) :
    (ofUnits places units).text.length ≤
      (Text.ofNat (units / 10 ^ places)).length + 1 + places := by
  have hfraction : (ofUnits places units).fraction.length ≤ places := by
    calc (ofUnits places units).fraction.length
        ≤ (Text.lastDigits places units).length := (List.rdropWhile_prefix _ _).length_le
      _ = places := Text.length_lastDigits places units
  unfold text
  split
  · dsimp only [ofUnits]
    omega
  · rw [List.length_append, List.length_cons]
    dsimp only [ofUnits] at hfraction ⊢
    omega

end Numeral

end DiceArith
