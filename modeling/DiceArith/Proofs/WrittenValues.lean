import DiceArith.Proofs.Renderings
import DiceArith.Proofs.TokenPlaces

/-! # Written values

A written value is read back as a sign, a numeral and an exponent. What is read from the text for a
double is the double rounded to six significant digits; the text has no needless zero, and its
notation follows from the exponent alone.
-/

namespace DiceArith

namespace Binary

/-- The number that a finite value is. -/
def value (negative : Bool) (significand : Nat) (exponent : Int) : ℚ :=
  (if negative then -1 else 1) * (significand * 2 ^ exponent)

end Binary

namespace Decimal

/-- The number that a text denotes in plain or in scientific notation. -/
def magnitude? (t : Text) : Option ℚ :=
  match t.splitOnce 'e' with
  | none => (Numeral.read? t).map Numeral.value
  | some (mantissa, digits) =>
    (Numeral.read? mantissa).bind fun n => (Text.toInt? digits).map fun e => n.value * 10 ^ e

def value? : Text → Option ℚ
  | '-' :: t => (magnitude? t).map (- ·)
  | t => magnitude? t

/-- How a number without sign is laid out; `e` is the exponent of its first digit. -/
inductive Layout (e : ℤ) : Text → Prop
  | plain {n : Numeral} : n.Canonical → -4 ≤ e → e < 6 → Layout e n.text
  | scientific {n : Numeral} {digits : Text} : n.Canonical → n.whole.length = 1 → n.whole ≠ ['0'] →
      e < -4 ∨ 6 ≤ e → (∀ c ∈ digits, c.isDigit = true) → Text.toNat digits = e.natAbs →
      digits.length = max 2 (Text.ofNat e.natAbs).length →
      Layout e (n.text ++ 'e' :: (if e < 0 then '-' else '+') :: digits)

end Decimal

namespace Binary

variable {negative : Bool} {significand : Nat} {exponent : Int} {bits : UInt64}

theorem powerOfTwo_pos (e : Int) : 0 < (powerOfTwo e).1 ∧ 0 < (powerOfTwo e).2 := by
  cases e with
  | ofNat n => exact ⟨by rw [powerOfTwo, Nat.one_shiftLeft]; positivity, Nat.one_pos⟩
  | negSucc n => exact ⟨Nat.one_pos, by rw [powerOfTwo, Nat.one_shiftLeft]; positivity⟩

theorem powerOfTwo_ratio (e : Int) : ((powerOfTwo e).1 : ℚ) / (powerOfTwo e).2 = 2 ^ e := by
  cases e with
  | ofNat n =>
    rw [powerOfTwo, Nat.one_shiftLeft, Int.ofNat_eq_natCast, zpow_natCast]
    push_cast
    exact div_one _
  | negSucc n =>
    rw [powerOfTwo, Nat.one_shiftLeft, zpow_negSucc]
    push_cast
    exact one_div _

theorem ofBits_bounds (h : ofBits bits = .finite negative significand exponent) :
    significand < 2 ^ 53 ∧ -1074 ≤ exponent ∧ exponent ≤ 971 := by
  have hfraction : bits.toNat % hiddenBit < 2 ^ 52 := Nat.mod_lt _ (by decide)
  have hbiased : (bits.toNat >>> 52) % 2048 < 2048 := Nat.mod_lt _ (by decide)
  have hhidden : hiddenBit = 2 ^ 52 := rfl
  unfold ofBits at h
  dsimp only at h
  generalize bits.toNat % hiddenBit = fraction at h hfraction
  generalize (bits.toNat >>> 52) % 2048 = biased at h hbiased
  split_ifs at h <;> cases h <;> omega

theorem two_pow_le (k : Nat) : (2 : ℚ) ^ (3 * k) ≤ 10 ^ k := by
  rw [pow_mul]
  exact pow_le_pow_left₀ (by norm_num) (by norm_num) k

/-- The exponent of a double in decimal notation has at most three digits. -/
theorem log_bounds (h : ofBits bits = .finite negative significand exponent)
    (hpos : 0 < significand) :
    -358 ≤ Int.log 10 ((significand : ℚ) * 2 ^ exponent) ∧
      Int.log 10 ((significand : ℚ) * 2 ^ exponent) < 342 := by
  obtain ⟨hsignificand, hlow, hhigh⟩ := ofBits_bounds h
  have htwo : (0 : ℚ) < 2 ^ exponent := zpow_pos (by norm_num) _
  have hone : (1 : ℚ) ≤ significand := by exact_mod_cast hpos
  have hlt : (significand : ℚ) < 2 ^ 53 := by exact_mod_cast hsignificand
  have hratio : (0 : ℚ) < significand * 2 ^ exponent := by positivity
  constructor
  · apply (Int.zpow_le_iff_le_log (by decide) hratio).mp
    calc ((10 : ℕ) : ℚ) ^ (-358 : ℤ) = (10 ^ 358)⁻¹ := zpow_neg_coe_of_pos _ (by decide)
      _ ≤ (2 ^ (3 * 358))⁻¹ := inv_anti₀ (by positivity) (two_pow_le 358)
      _ = 2 ^ (-1074 : ℤ) := (zpow_neg_coe_of_pos _ (by decide)).symm
      _ ≤ 2 ^ exponent := zpow_le_zpow_right₀ one_le_two hlow
      _ ≤ significand * 2 ^ exponent := le_mul_of_one_le_left htwo.le hone
  · apply (Int.lt_zpow_iff_log_lt (by decide) hratio).mp
    calc (significand : ℚ) * 2 ^ exponent < 2 ^ 53 * 2 ^ exponent :=
          mul_lt_mul_of_pos_right hlt htwo
      _ ≤ 2 ^ 53 * 2 ^ (973 : ℤ) := by
        apply mul_le_mul_of_nonneg_left _ (by positivity)
        exact zpow_le_zpow_right₀ one_le_two (by omega)
      _ = 2 ^ (3 * 342) := by
        rw [← zpow_natCast, ← zpow_natCast, ← zpow_add₀ two_ne_zero]
        rfl
      _ ≤ ((10 : ℕ) : ℚ) ^ (342 : ℤ) := two_pow_le 342

end Binary

namespace Decimal

variable {negative : Bool} {t : Text} {e : ℤ} {n : Numeral} {d : SixDigits}

theorem exists_exponent (e : ℤ) : ∃ digits : Text,
    exponent e = 'e' :: (if e < 0 then '-' else '+') :: digits ∧
      (∀ c ∈ digits, c.isDigit = true) ∧ Text.toNat digits = e.natAbs ∧
      digits.length = max 2 (Text.ofNat e.natAbs).length := by
  by_cases hshort : e.natAbs < 10
  · refine ⟨'0' :: Text.ofNat e.natAbs, by rw [exponent, if_pos hshort], ?_, ?_, ?_⟩
    · rintro c (_ | ⟨_, hc⟩)
      · rfl
      · exact Text.isDigit_of_mem_ofNat hc
    · have hzero : Text.toNat ['0'] = 0 := rfl
      rw [← List.singleton_append, Text.toNat_append, hzero, Nat.mul_zero, Nat.zero_add,
        Text.toNat_ofNat]
    · rw [List.length_cons, Text.ofNat, Nat.toDigits_of_lt_base hshort]
      rfl
  · refine ⟨Text.ofNat e.natAbs, by rw [exponent, if_neg hshort],
      fun _ => Text.isDigit_of_mem_ofNat, Text.toNat_ofNat _, ?_⟩
    by_contra hne
    have hone : (Text.ofNat e.natAbs).length ≤ 1 := by omega
    apply hshort
    calc e.natAbs < 10 ^ (Text.ofNat e.natAbs).length := Text.lt_ten_pow_length _
      _ ≤ 10 := Nat.pow_le_pow_right (by decide) hone

theorem toInt?_exponent {digits : Text} (hfits : e.natAbs < 2 ^ 31) (hne : digits ≠ [])
    (hdigits : ∀ c ∈ digits, c.isDigit = true) (hvalue : Text.toNat digits = e.natAbs) :
    Text.toInt? ((if e < 0 then '-' else '+') :: digits) = some e := by
  split_ifs with hneg
  · have hread := Text.signedInt?_digits (.inr rfl) hne hdigits (by rwa [hvalue])
    exact hread.trans (congrArg some (by omega))
  · have hread := Text.signedInt?_digits (.inl rfl) hne hdigits (by rwa [hvalue])
    exact hread.trans (congrArg some (by omega))

theorem notMem_text (hn : n.Valid) : 'e' ∉ n.text := fun h =>
  absurd (hn.isNumeric_of_mem h) (by decide)

theorem magnitude?_text (hn : n.Valid) : magnitude? n.text = some n.value := by
  rw [magnitude?, Text.splitOnce_of_notMem (notMem_text hn)]
  exact congrArg (Option.map Numeral.value) hn.read?

theorem magnitude?_exponent (hn : n.Valid) (hfits : e.natAbs < 2 ^ 31) :
    magnitude? (n.text ++ exponent e) = some (n.value * 10 ^ e) := by
  obtain ⟨digits, htext, hdigits, hvalue, hlength⟩ := exists_exponent e
  have hne : digits ≠ [] := by
    rintro rfl
    rw [List.length_nil] at hlength
    omega
  rw [magnitude?, htext, Text.splitOnce_append (notMem_text hn)]
  dsimp only
  rw [hn.read?, toInt?_exponent hfits hne hdigits hvalue]
  rfl

namespace Layout

theorem exists_cons (h : Layout e t) : ∃ c u, t = c :: u ∧ c.isDigit = true := by
  cases h with
  | plain hn => exact hn.exists_cons
  | scientific hn =>
    obtain ⟨c, u, hcons, hc⟩ := hn.exists_cons
    rw [hcons]
    exact ⟨c, _, rfl, hc⟩

theorem notMem_iff (h : Layout e t) : 'e' ∉ signed negative t ↔ -4 ≤ e ∧ e < 6 := by
  have hsigned : 'e' ∈ signed negative t ↔ 'e' ∈ t := by
    cases negative with
    | false => rfl
    | true => simp [signed]
  rw [hsigned]
  cases h with
  | plain hn hlow hhigh => exact iff_of_true (notMem_text hn.toValid) ⟨hlow, hhigh⟩
  | scientific hn hlength hzero he =>
    apply iff_of_false
    · simp
    · omega

theorem value?_signed (h : Layout e t) :
    value? (signed negative t) = (magnitude? t).map ((if negative then -1 else 1) * ·) := by
  cases negative with
  | true => simp [signed, value?]
  | false =>
    obtain ⟨c, u, rfl, hc⟩ := h.exists_cons
    have hread : value? (c :: u) = magnitude? (c :: u) := by
      unfold value?
      split
      · next heq =>
        obtain ⟨rfl, -⟩ := List.cons.inj heq
        exact absurd hc (by decide)
      · rfl
    simp [signed, hread]

end Layout

section SixDigits

variable (hlow : 100000 ≤ d.digits) (hhigh : d.digits ≤ 999999)

include hlow hhigh

theorem layout_write : Layout d.exponent (write d) := by
  unfold write
  split_ifs with he
  · rw [plain_eq hlow hhigh he.2]
    exact .plain (Numeral.canonical_ofUnits _ _) he.1 he.2
  · obtain ⟨digits, htext, hdigits, hvalue, hlength⟩ := exists_exponent d.exponent
    have hfirst : 1 ≤ d.digits / 10 ^ 5 ∧ d.digits / 10 ^ 5 < 10 := by omega
    rw [scientific_eq hlow hhigh, htext]
    refine .scientific (Numeral.canonical_ofUnits _ _) ?_ ?_ (by omega) hdigits hvalue hlength
    · exact Text.length_ofNat_eq (w := 0) hfirst.1 hfirst.2
    · intro hzero
      have : d.digits / 10 ^ 5 = 0 := (Text.toNat_ofNat _).symm.trans (congrArg Text.toNat hzero)
      omega

theorem magnitude?_write (hfits : d.exponent.natAbs < 2 ^ 31) :
    magnitude? (write d) = some ((d.digits : ℚ) * 10 ^ (d.exponent - 5)) := by
  unfold write
  split_ifs with he
  · obtain ⟨places, hplaces⟩ := Int.eq_ofNat_of_zero_le (show 0 ≤ 5 - d.exponent by omega)
    have hexp : d.exponent - 5 = -(places : ℤ) := by omega
    rw [plain_eq hlow hhigh he.2, magnitude?_text (Numeral.canonical_ofUnits _ _).toValid,
      Numeral.value_ofUnits, hplaces, hexp, Int.toNat_natCast, zpow_neg, zpow_natCast,
      div_eq_mul_inv]
  · rw [scientific_eq hlow hhigh, magnitude?_exponent (Numeral.canonical_ofUnits _ _).toValid hfits,
      Numeral.value_ofUnits, zpow_sub₀ (by norm_num)]
    congr 1
    ring

theorem length_write_le (hfits : d.exponent.natAbs < 1000) : (write d).length ≤ 12 := by
  -- six digits and a point, or a zero, a point and all decimal places of a small number
  have hunits : ∀ places, (Numeral.ofUnits places d.digits).text.length ≤ max 7 (places + 2) := by
    intro places
    have hwhole : d.digits / 10 ^ places < 10 ^ (5 - places + 1) := by
      rw [Nat.div_lt_iff_lt_mul (by positivity), ← pow_add]
      calc d.digits < 10 ^ 6 := by omega
        _ ≤ 10 ^ (5 - places + 1 + places) := Nat.pow_le_pow_right (by decide) (by omega)
    have hlength := Numeral.length_text_ofUnits_le places d.digits
    have hdigits := Text.length_ofNat_le hwhole
    omega
  unfold write
  split_ifs with he
  · have hplain := hunits (5 - d.exponent).toNat
    rw [plain_eq hlow hhigh he.2]
    omega
  · obtain ⟨digits, htext, -, -, hlength⟩ := exists_exponent d.exponent
    have hmantissa := hunits 5
    have hthree : (Text.ofNat d.exponent.natAbs).length ≤ 3 := Text.length_ofNat_le hfits
    rw [scientific_eq hlow hhigh, htext, List.length_append, List.length_cons, List.length_cons]
    omega

theorem signed_write (negative : Bool) {q : ℚ} (hround : SixDigits.Rounds q d.digits d.exponent)
    (hfits : d.exponent.natAbs < 2 ^ 31) :
    ∃ digits e : ℤ,
      (∀ digits' e', SixDigits.Rounds ((if negative then -1 else 1) * q) digits' e' ↔
        digits' = digits ∧ e' = e) ∧
      value? (signed negative (write d)) = some ((digits : ℚ) * 10 ^ (e - 5)) ∧
      ('e' ∉ signed negative (write d) ↔ -4 ≤ e ∧ e < 6) ∧
      ∃ t, signed negative (write d) = signed negative t ∧ Layout e t := by
  have hlayout := layout_write hlow hhigh
  have hsigned : SixDigits.Rounds ((if negative then -1 else 1) * q)
      (if negative then -d.digits else d.digits) d.exponent := by
    cases negative with
    | false => simpa using hround
    | true => simpa using hround.neg
  refine ⟨if negative then -d.digits else d.digits, d.exponent, fun digits' e' => ?_, ?_,
    hlayout.notMem_iff, write d, rfl, hlayout⟩
  · constructor
    · intro h
      exact h.unique hsigned
    · rintro ⟨rfl, rfl⟩
      exact hsigned
  · rw [hlayout.value?_signed, magnitude?_write hlow hhigh hfits]
    cases negative <;> simp

end SixDigits

end Decimal

section Doubles

variable {negative : Bool} {significand : Nat} {exponent : Int} {bits : UInt64}

namespace Binary

theorem ratio_eq (significand : Nat) (exponent : Int) :
    ((significand * (powerOfTwo exponent).1 : ℕ) : ℚ) / (powerOfTwo exponent).2 =
      significand * 2 ^ exponent := by
  rw [Nat.cast_mul, mul_div_assoc, powerOfTwo_ratio]

theorem value_ne_zero_iff : value negative significand exponent ≠ 0 ↔ 0 < significand := by
  have htwo : (2 : ℚ) ^ exponent ≠ 0 := zpow_ne_zero _ two_ne_zero
  have hsign : (if negative then -1 else 1 : ℚ) ≠ 0 := by split_ifs <;> norm_num
  rw [value, mul_ne_zero_iff, mul_ne_zero_iff, Nat.cast_ne_zero, Nat.pos_iff_ne_zero]
  exact ⟨fun h => h.2.1, fun h => ⟨hsign, h, htwo⟩⟩

variable (h : ofBits bits = .finite negative significand exponent)

include h

theorem text_of_zero (hzero : significand = 0) :
    Decimal.ofBinary (ofBits bits) = Decimal.signed negative ['0'] := by
  rw [h]
  exact congrArg (Decimal.signed negative) (if_pos hzero)

theorem text_of_pos (hpos : 0 < significand) :
    Decimal.ofBinary (ofBits bits) = Decimal.signed negative (Decimal.write (.ofRatio
      (significand * (powerOfTwo exponent).1) (powerOfTwo exponent).2)) := by
  rw [h]
  exact congrArg (Decimal.signed negative) (if_neg hpos.ne')

theorem natAbs_exponent_lt (hpos : 0 < significand) :
    (SixDigits.ofRatio (significand * (powerOfTwo exponent).1)
      (powerOfTwo exponent).2).exponent.natAbs < 1000 := by
  obtain ⟨hnum, hden⟩ := powerOfTwo_pos exponent
  obtain ⟨hlow, hhigh⟩ := log_bounds h hpos
  have hcases := SixDigits.ofRatio_cases (Nat.mul_pos hpos hnum) hden
  rw [ratio_eq] at hcases
  rcases hcases with ⟨-, -, -, hexp⟩ | ⟨-, -, hexp⟩ <;> omega

theorem format_eq_ofBinary (other : Text) :
    Decimal.format negative (significand * (powerOfTwo exponent).1) (powerOfTwo exponent).2 other =
      Decimal.ofBinary (ofBits bits) := by
  obtain ⟨hnum, hden⟩ := powerOfTwo_pos exponent
  rcases Nat.eq_zero_or_pos significand with hzero | hpos
  · rw [text_of_zero h hzero, hzero, Nat.zero_mul, Decimal.format_zero hden]
  · have hfits := natAbs_exponent_lt h hpos
    rw [text_of_pos h hpos]
    apply Decimal.format_eq_write (Nat.mul_pos hpos hnum) hden
    omega

theorem length_ofBinary_le : (Decimal.ofBinary (ofBits bits)).length ≤ 13 := by
  have hsigned : ∀ t : Text, t.length ≤ 12 → (Decimal.signed negative t).length ≤ 13 := by
    intro t ht
    cases negative with
    | false => exact ht.trans (by decide)
    | true => exact Nat.succ_le_succ ht
  obtain ⟨hnum, hden⟩ := powerOfTwo_pos exponent
  rcases Nat.eq_zero_or_pos significand with hzero | hpos
  · rw [text_of_zero h hzero]
    exact hsigned _ (by decide)
  · obtain ⟨hlow, hhigh⟩ := SixDigits.digits_ofRatio (Nat.mul_pos hpos hnum) hden
    rw [text_of_pos h hpos]
    exact hsigned _ (Decimal.length_write_le hlow hhigh (natAbs_exponent_lt h hpos))

end Binary

/-- The text for a double denotes it rounded to six significant digits, in the notation that their
exponent decides on. -/
theorem double_text_six_digits (h : Binary.ofBits bits = .finite negative significand exponent) :
    let q := Binary.value negative significand exponent
    let text := Decimal.ofBinary (Binary.ofBits bits)
    (∀ other, Decimal.format negative (significand * (Binary.powerOfTwo exponent).1)
      (Binary.powerOfTwo exponent).2 other = text) ∧
    (q = 0 → text = Decimal.signed negative ['0']) ∧
    (q ≠ 0 → ∃ digits e : ℤ,
      (∀ digits' e', SixDigits.Rounds q digits' e' ↔ digits' = digits ∧ e' = e) ∧
      Decimal.value? text = some ((digits : ℚ) * 10 ^ (e - 5)) ∧
      ('e' ∉ text ↔ -4 ≤ e ∧ e < 6) ∧
      ∃ t, text = Decimal.signed negative t ∧ Decimal.Layout e t) ∧
    text.length ≤ 13 := by
  refine ⟨Binary.format_eq_ofBinary h, fun hzero => ?_, fun hne => ?_, Binary.length_ofBinary_le h⟩
  · have hnone : ¬0 < significand := fun hpos => Binary.value_ne_zero_iff.mpr hpos hzero
    exact Binary.text_of_zero h (Nat.eq_zero_of_not_pos hnone)
  · obtain ⟨hnum, hden⟩ := Binary.powerOfTwo_pos exponent
    have hpos : 0 < significand := Binary.value_ne_zero_iff.mp hne
    have hratio := Nat.mul_pos hpos hnum
    have hfits := Binary.natAbs_exponent_lt h hpos
    obtain ⟨hlow, hhigh⟩ := SixDigits.digits_ofRatio hratio hden
    have hround := SixDigits.rounds_ofRatio hratio hden
    rw [Binary.ratio_eq] at hround
    rw [Binary.text_of_pos h hpos]
    apply Decimal.signed_write hlow hhigh negative hround
    omega

/-- The digits are rounded up to those of a million. -/
theorem double_text_six_digits_carry :
    let text := Decimal.ofBinary (Binary.ofBits 0x412e847f00000000)
    Binary.value false 8589930297032704 (-33) = 999999.5 ∧ text = ['1', 'e', '+', '0', '6'] ∧
      (∀ other, Decimal.format false 8589930297032704 8589934592 other = text) ∧
      ∃ digits e : ℤ,
        (∀ digits' e', SixDigits.Rounds 999999.5 digits' e' ↔ digits' = digits ∧ e' = e) ∧
        Decimal.value? text = some ((digits : ℚ) * 10 ^ (e - 5)) := by
  have hvalue : Binary.value false 8589930297032704 (-33) = 999999.5 := by
    norm_num [Binary.value]
  have hbits : Binary.ofBits 0x412e847f00000000 = .finite false 8589930297032704 (-33) := by
    decide +kernel
  obtain ⟨hformat, -, hnonzero, -⟩ := double_text_six_digits hbits
  rw [hvalue] at hnonzero
  obtain ⟨digits, e, hrounds, hread, -⟩ := hnonzero (by norm_num)
  exact ⟨hvalue, by decide +kernel, hformat, digits, e, hrounds, hread⟩

end Doubles

end DiceArith
