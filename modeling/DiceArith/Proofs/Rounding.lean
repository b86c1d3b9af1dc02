import DiceArith.Decimal.SixDigits
import DiceArith.Proofs.Digits
import Mathlib.Algebra.Ring.Int.Parity
import Mathlib.Data.Int.Log
import Mathlib.Data.Rat.Floor
import Mathlib.Tactic.FieldSimp
import Mathlib.Tactic.Linarith
import Mathlib.Tactic.NormNum
import Mathlib.Tactic.Positivity
import Mathlib.Tactic.Ring

/-! # Rounding

A number is rounded at a decimal place to the nearest multiple of that place, of two to the even
one. Six significant digits are those from the place of its largest power of ten downwards; a number
that is rounded up to the next power of ten is written with the digits of that power.
-/

namespace DiceArith

/-- The whole number nearest to `x`, the even one if two are. -/
structure NearestEven (x : ℚ) (m : ℤ) : Prop where
  near : |x - m| ≤ 1 / 2
  even : |x - m| = 1 / 2 → Even m

namespace NearestEven

variable {x : ℚ} {m n : ℤ}

theorem unique (h : NearestEven x m) (h' : NearestEven x n) : m = n := by
  by_contra hne
  have hapart : (1 : ℚ) ≤ |(m : ℚ) - n| := by
    exact_mod_cast Int.one_le_abs (sub_ne_zero.mpr hne)
  have htriangle : |(m : ℚ) - n| ≤ |x - m| + |x - n| := by
    rw [abs_sub_comm x m]
    exact abs_sub_le _ _ _
  have hnear := h.near
  have hnear' := h'.near
  have hdist : |(m : ℚ) - n| = 1 := by linarith
  obtain ⟨a, rfl⟩ := h.even (by linarith)
  obtain ⟨b, rfl⟩ := h'.even (by linarith)
  have hodd : |(a + a) - (b + b)| = 1 := by exact_mod_cast hdist
  rcases (abs_eq zero_le_one).mp hodd with h | h <;> omega

theorem neg (h : NearestEven x m) : NearestEven (-x) (-m) := by
  have habs : |-x - ((-m : ℤ) : ℚ)| = |x - m| := by
    rw [Int.cast_neg, neg_sub_neg, abs_sub_comm]
  refine ⟨habs ▸ h.near, fun heq => ?_⟩
  exact (h.even (habs ▸ heq)).neg

theorem le_of_le (h : NearestEven x m) (hn : (n : ℚ) ≤ x) : n ≤ m := by
  have hnear := (abs_le.mp h.near).2
  have hlt : (n : ℚ) < m + 1 := by linarith
  exact Int.lt_add_one_iff.mp (by exact_mod_cast hlt)

theorem ge_of_ge (h : NearestEven x m) (hn : x ≤ n) : m ≤ n := by
  have hnear := (abs_le.mp h.near).1
  have hlt : (m : ℚ) < n + 1 := by linarith
  exact Int.lt_add_one_iff.mp (by exact_mod_cast hlt)

end NearestEven

namespace SixDigits

variable {num den : Nat}

theorem nearestEven_roundDiv (num : Nat) (hden : 0 < den) :
    NearestEven ((num : ℚ) / den) (roundDiv num den) := by
  have hpos : (0 : ℚ) < den := by exact_mod_cast hden
  have hlt := Nat.mod_lt num hden
  have hsplit : (num : ℚ) = den * (num / den : ℕ) + (num % den : ℕ) := by
    exact_mod_cast (Nat.div_add_mod num den).symm
  unfold roundDiv
  generalize num / den = k at hsplit ⊢
  generalize num % den = r at hsplit hlt ⊢
  have hquot : (num : ℚ) / den = k + r / den := by
    rw [hsplit]
    field_simp
  have hr : (0 : ℚ) ≤ r / den := by positivity
  rw [hquot]
  split_ifs with hdown
  · -- the remainder is at most one half, and if it is one half the quotient is even
    have hle : (r : ℚ) / den ≤ 1 / 2 := by
      rw [div_le_div_iff₀ hpos two_pos]
      have : r * 2 ≤ 1 * den := by omega
      exact_mod_cast this
    have habs : |(k : ℚ) + r / den - ((k : ℕ) : ℤ)| = r / den := by
      rw [Int.cast_natCast, add_sub_cancel_left, abs_of_nonneg hr]
    refine ⟨by rwa [habs], fun hhalf => ?_⟩
    rw [habs, div_eq_div_iff hpos.ne' two_ne_zero] at hhalf
    have hhalf' : r * 2 = 1 * den := by exact_mod_cast hhalf
    obtain hlt' | ⟨-, heven⟩ := hdown
    · omega
    · exact (Int.even_coe_nat k).mpr (Nat.even_iff.mpr heven)
  · have hge : (1 : ℚ) / 2 ≤ r / den := by
      rw [div_le_div_iff₀ two_pos hpos]
      have : 1 * den ≤ r * 2 := by omega
      exact_mod_cast this
    have hlt' : (r : ℚ) / den < 1 := by
      rw [div_lt_one hpos]
      exact_mod_cast hlt
    have habs : |(k : ℚ) + r / den - ((k + 1 : ℕ) : ℤ)| = 1 - r / den := by
      rw [Int.cast_natCast, Nat.cast_succ, add_sub_add_left_eq_sub, abs_sub_comm, abs_of_pos]
      linarith
    refine ⟨by rw [habs]; linarith, fun hhalf => ?_⟩
    have hhalf' : (r : ℚ) / den = 1 / 2 := by linarith
    rw [div_eq_div_iff hpos.ne' two_ne_zero] at hhalf'
    have htwice : r * 2 = 1 * den := by exact_mod_cast hhalf'
    have hodd : k % 2 = 1 := by omega
    exact (Int.even_coe_nat (k + 1)).mpr (Nat.even_iff.mpr (by omega))

theorem nearestEven_roundScaled (num : Nat) (hden : 0 < den) (k : ℤ) :
    NearestEven ((num : ℚ) / den * 10 ^ k) (roundScaled num den k) := by
  cases k with
  | ofNat n =>
    have h := nearestEven_roundDiv (num * 10 ^ n) hden
    have hscale : (num : ℚ) / den * 10 ^ (Int.ofNat n) = ((num * 10 ^ n : ℕ) : ℚ) / den := by
      rw [Int.ofNat_eq_natCast, zpow_natCast]
      push_cast
      ring
    rwa [hscale]
  | negSucc n =>
    have h := nearestEven_roundDiv num
      (Nat.mul_pos hden (Nat.pow_pos (n := n + 1) (by decide : 0 < 10)))
    have hscale : (num : ℚ) / den * 10 ^ (Int.negSucc n) =
        (num : ℚ) / ((den * 10 ^ (n + 1) : ℕ) : ℚ) := by
      rw [zpow_negSucc]
      push_cast
      field_simp
    rwa [hscale]

theorem log_eq_of_bounds {x : ℚ} {k : ℤ} (hle : (10 : ℚ) ^ k ≤ x) (hlt : x < 10 ^ (k + 1)) :
    Int.log 10 x = k := by
  have hpos : 0 < x := (zpow_pos (by norm_num) k).trans_le hle
  apply le_antisymm
  · apply Int.lt_add_one_iff.mp
    exact (Int.lt_zpow_iff_log_lt (by decide) hpos).mp (by exact_mod_cast hlt)
  · exact (Int.zpow_le_iff_le_log (by decide) hpos).mp (by exact_mod_cast hle)

theorem zpow_log_le {x : ℚ} (hx : 0 < x) : (10 : ℚ) ^ Int.log 10 x ≤ x := by
  exact_mod_cast Int.zpow_log_le_self (b := 10) (by decide) hx

theorem lt_zpow_log (x : ℚ) : x < (10 : ℚ) ^ (Int.log 10 x + 1) := by
  exact_mod_cast Int.lt_zpow_succ_log_self (b := 10) (by decide) x

theorem magnitude_eq_log (hnum : 0 < num) (hden : 0 < den) :
    magnitude num den = Int.log 10 ((num : ℚ) / den) := by
  have hden' : (0 : ℚ) < den := by exact_mod_cast hden
  symm
  unfold magnitude
  split_ifs with hle
  · have hdiv : 0 < num / den := Nat.div_pos hle hden
    obtain ⟨hlow, hhigh⟩ := Text.length_ofNat_bounds hdiv
    have hlength : 0 < (Text.ofNat (num / den)).length := Nat.length_toDigits_pos
    generalize (Text.ofNat (num / den)).length = w at hlow hhigh hlength
    obtain ⟨w, rfl⟩ := Nat.exists_eq_add_one.mpr hlength
    rw [Nat.add_sub_cancel] at hlow
    apply log_eq_of_bounds
    · have : 10 ^ w * den ≤ num := (Nat.le_div_iff_mul_le hden).mp hlow
      rw [le_div_iff₀ hden', Nat.cast_succ, add_sub_cancel_right, zpow_natCast]
      exact_mod_cast this
    · have : num < 10 ^ (w + 1) * den := (Nat.div_lt_iff_lt_mul hden).mp hhigh
      rw [div_lt_iff₀ hden', sub_add_cancel, zpow_natCast]
      exact_mod_cast this
  · have hdiv : 0 < (den - 1) / num := Nat.div_pos (by omega) hnum
    obtain ⟨hlow, hhigh⟩ := Text.length_ofNat_bounds hdiv
    have hlength : 0 < (Text.ofNat ((den - 1) / num)).length := Nat.length_toDigits_pos
    generalize (Text.ofNat ((den - 1) / num)).length = w at hlow hhigh hlength
    obtain ⟨w, rfl⟩ := Nat.exists_eq_add_one.mpr hlength
    rw [Nat.add_sub_cancel] at hlow
    have hlow' : 10 ^ w * num ≤ den - 1 := (Nat.le_div_iff_mul_le hnum).mp hlow
    have hhigh' : den - 1 < 10 ^ (w + 1) * num := (Nat.div_lt_iff_lt_mul hnum).mp hhigh
    apply log_eq_of_bounds
    · have : den ≤ 10 ^ (w + 1) * num := by omega
      rw [zpow_neg, zpow_natCast, inv_eq_one_div, div_le_div_iff₀ (by positivity) hden', one_mul,
        mul_comm]
      exact_mod_cast this
    · have hexp : -((w + 1 : ℕ) : ℤ) + 1 = -(w : ℤ) := by
        rw [Nat.cast_succ]
        ring
      have : 10 ^ w * num < den := by omega
      rw [hexp, zpow_neg, zpow_natCast, inv_eq_one_div, div_lt_div_iff₀ hden' (by positivity),
        one_mul, mul_comm]
      exact_mod_cast this

/-- `digits * 10 ^ (exponent - 5)` is `q` rounded at its sixth place. -/
structure Rounds (q : ℚ) (digits exponent : ℤ) : Prop where
  lower : 100000 ≤ |digits|
  upper : |digits| ≤ 999999
  rounded : ∃ m : ℤ, NearestEven (q * 10 ^ (5 - Int.log 10 |q|)) m ∧
    (digits : ℚ) * 10 ^ (exponent - 5) = m * 10 ^ (Int.log 10 |q| - 5)

theorem log_digits {d e : ℤ} (hlow : 100000 ≤ |d|) (hhigh : |d| ≤ 999999) :
    Int.log 10 |(d : ℚ) * 10 ^ (e - 5)| = e := by
  have hten : (0 : ℚ) < 10 ^ (e - 5) := zpow_pos (by norm_num) _
  have hfive : (10 : ℚ) ^ e = 100000 * 10 ^ (e - 5) := by
    rw [zpow_sub₀ (by norm_num)]
    field_simp
    norm_num
  have hlow' : (100000 : ℚ) ≤ |(d : ℚ)| := by exact_mod_cast hlow
  have hhigh' : |(d : ℚ)| < 1000000 := by
    have : |d| < 1000000 := by omega
    exact_mod_cast this
  rw [abs_mul, abs_of_pos hten]
  apply log_eq_of_bounds
  · rw [hfive]
    exact mul_le_mul_of_nonneg_right hlow' hten.le
  · have hnext : (10 : ℚ) ^ (e + 1) = 1000000 * 10 ^ (e - 5) := by
      rw [zpow_add_one₀ (by norm_num), hfive]
      ring
    rw [hnext]
    exact mul_lt_mul_of_pos_right hhigh' hten

namespace Rounds

variable {q : ℚ} {d e d' e' : ℤ}

theorem unique (h : Rounds q d e) (h' : Rounds q d' e') : d = d' ∧ e = e' := by
  obtain ⟨m, hm, heq⟩ := h.rounded
  obtain ⟨m', hm', heq'⟩ := h'.rounded
  obtain rfl := hm.unique hm'
  have hsame : (d : ℚ) * 10 ^ (e - 5) = d' * 10 ^ (e' - 5) := heq.trans heq'.symm
  obtain rfl : e = e' :=
    calc e = Int.log 10 |(d : ℚ) * 10 ^ (e - 5)| := (log_digits h.lower h.upper).symm
      _ = Int.log 10 |(d' : ℚ) * 10 ^ (e' - 5)| := by rw [hsame]
      _ = e' := log_digits h'.lower h'.upper
  have hd : (d : ℚ) = d' := mul_right_cancel₀ (zpow_ne_zero _ (by norm_num)) hsame
  exact ⟨by exact_mod_cast hd, rfl⟩

theorem neg (h : Rounds q d e) : Rounds (-q) (-d) e := by
  obtain ⟨m, hm, heq⟩ := h.rounded
  refine ⟨by rw [abs_neg]; exact h.lower, by rw [abs_neg]; exact h.upper, -m, ?_, ?_⟩
  · rw [abs_neg, neg_mul]
    exact hm.neg
  · rw [abs_neg, Int.cast_neg, Int.cast_neg, neg_mul, neg_mul, heq]

end Rounds

theorem scaled_bounds {q : ℚ} (hq : 0 < q) :
    100000 ≤ q * 10 ^ (5 - Int.log 10 q) ∧ q * 10 ^ (5 - Int.log 10 q) < 1000000 := by
  have hten : (0 : ℚ) < 10 ^ (5 - Int.log 10 q) := zpow_pos (by norm_num) _
  constructor
  · calc (100000 : ℚ) = 10 ^ Int.log 10 q * 10 ^ (5 - Int.log 10 q) := by
          rw [← zpow_add₀ (by norm_num), add_sub_cancel]
          norm_num
      _ ≤ q * 10 ^ (5 - Int.log 10 q) := mul_le_mul_of_nonneg_right (zpow_log_le hq) hten.le
  · calc q * 10 ^ (5 - Int.log 10 q)
        < 10 ^ (Int.log 10 q + 1) * 10 ^ (5 - Int.log 10 q) :=
          mul_lt_mul_of_pos_right (lt_zpow_log q) hten
      _ = 1000000 := by
          rw [← zpow_add₀ (by norm_num), add_comm (Int.log 10 q), add_add_sub_cancel]
          norm_num

section OfRatio

variable (hnum : 0 < num) (hden : 0 < den)

include hnum hden

/-- The digits were rounded at their own place, or up from the place before. -/
theorem ofRatio_cases :
    (NearestEven ((num : ℚ) / den * 10 ^ (5 - (ofRatio num den).exponent))
        (ofRatio num den).digits ∧
      100000 ≤ (ofRatio num den).digits ∧ (ofRatio num den).digits ≤ 999999 ∧
      (ofRatio num den).exponent = Int.log 10 ((num : ℚ) / den)) ∨
    (NearestEven ((num : ℚ) / den * 10 ^ (5 - Int.log 10 ((num : ℚ) / den))) 1000000 ∧
      (ofRatio num den).digits = 100000 ∧
      (ofRatio num den).exponent = Int.log 10 ((num : ℚ) / den) + 1) := by
  have hq : (0 : ℚ) < num / den := by positivity
  obtain ⟨hlow, hhigh⟩ := scaled_bounds hq
  have hnear := nearestEven_roundScaled num hden (5 - Int.log 10 ((num : ℚ) / den))
  have hmin : (100000 : ℤ) ≤ roundScaled num den (5 - Int.log 10 ((num : ℚ) / den)) :=
    hnear.le_of_le (by exact_mod_cast hlow)
  have hmax : (roundScaled num den (5 - Int.log 10 ((num : ℚ) / den)) : ℤ) ≤ 1000000 :=
    hnear.ge_of_ge (by exact_mod_cast hhigh.le)
  unfold ofRatio
  rw [magnitude_eq_log hnum hden]
  dsimp only
  split_ifs with hcarry
  · right
    rw [hcarry] at hnear
    exact ⟨by exact_mod_cast hnear, rfl, rfl⟩
  · left
    refine ⟨hnear, ?_, ?_, rfl⟩
    · exact_mod_cast hmin
    · dsimp only
      omega

theorem rounds_ofRatio :
    Rounds ((num : ℚ) / den) (ofRatio num den).digits (ofRatio num den).exponent := by
  have hq : (0 : ℚ) < num / den := by positivity
  rcases ofRatio_cases hnum hden with ⟨hnear, hlow, hhigh, hexp⟩ | ⟨hnear, hdigits, hexp⟩
  · refine ⟨?_, ?_, (ofRatio num den).digits, ?_, ?_⟩
    · rw [Nat.abs_cast]
      exact_mod_cast hlow
    · rw [Nat.abs_cast]
      exact_mod_cast hhigh
    · rwa [abs_of_pos hq, ← hexp]
    · rw [abs_of_pos hq, hexp]
  · refine ⟨by rw [hdigits]; decide, by rw [hdigits]; decide, 1000000, ?_, ?_⟩
    · rwa [abs_of_pos hq]
    · rw [abs_of_pos hq, hdigits, hexp, add_sub_right_comm, zpow_add_one₀ (by norm_num)]
      push_cast
      ring

theorem digits_ofRatio :
    100000 ≤ (ofRatio num den).digits ∧ (ofRatio num den).digits ≤ 999999 := by
  have hround := rounds_ofRatio hnum hden
  have hlow := hround.lower
  have hhigh := hround.upper
  rw [Nat.abs_cast] at hlow hhigh
  exact ⟨by exact_mod_cast hlow, by exact_mod_cast hhigh⟩

theorem nearestEven_ofRatio :
    NearestEven ((num : ℚ) / den * 10 ^ (5 - (ofRatio num den).exponent))
      (ofRatio num den).digits := by
  rcases ofRatio_cases hnum hden with ⟨hnear, -⟩ | ⟨hnear, hdigits, hexp⟩
  · exact hnear
  · have htenth : (num : ℚ) / den * 10 ^ (5 - (ofRatio num den).exponent) =
        (num : ℚ) / den * 10 ^ (5 - Int.log 10 ((num : ℚ) / den)) / 10 := by
      rw [hexp, ← sub_sub, zpow_sub_one₀ (by norm_num)]
      ring
    have hlt :
        |(num : ℚ) / den * 10 ^ (5 - Int.log 10 ((num : ℚ) / den)) / 10 - 100000| < 1 / 2 := by
      have := hnear.near
      push_cast at this
      rw [abs_le] at this
      rw [abs_lt]
      constructor <;> linarith
    rw [htenth, hdigits]
    refine ⟨?_, fun heq => ?_⟩
    · exact_mod_cast hlt.le
    · exact absurd (by exact_mod_cast heq) hlt.ne

end OfRatio

end SixDigits

end DiceArith
