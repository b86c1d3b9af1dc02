import DiceArith.Decimal.Written
import DiceArith.Proofs.Rounding

/-! # Renderings

A value is written from two renderings of it. The first one has one digit before the point and five
after it, and its exponent decides on the notation. In plain notation the digits come from the
second one, which has as many decimal places as that exponent leaves of six digits. Both are rounded
from the exact value and agree on the digits, so one rounding is enough for the text.
-/

namespace DiceArith

namespace Text

/-- What is before a character where it first stands, and what is after it. -/
def splitOnce (c : Char) (t : Text) : Option (Text × Text) :=
  match t.dropWhile (· != c) with
  | [] => none
  | _ :: after => some (t.takeWhile (· != c), after)

def signedInt? (sign : Int) (digits : Text) : Option Int :=
  let n := sign * toNat digits
  if digits ≠ [] ∧ digits.all Char.isDigit ∧ -2 ^ 31 ≤ n ∧ n < 2 ^ 31 then some n else none

def toInt? : Text → Option Int
  | '-' :: digits => signedInt? (-1) digits
  | '+' :: digits => signedInt? 1 digits
  | digits => signedInt? 1 digits

def ofInt : Int → Text
  | .ofNat n => ofNat n
  | .negSucc n => '-' :: ofNat (n + 1)

def decimals (places units : Nat) : Text :=
  ofNat (units / 10 ^ places) ++ if places = 0 then [] else '.' :: lastDigits places units

/-- Drops the zeros at the end of a fraction, and a point that is left last. -/
def trimFraction (t : Text) : Text :=
  if '.' ∈ t then (t.rdropWhile (· == '0')).rdropWhile (· == '.') else t

end Text

namespace Decimal

section Definitions

variable (negative : Bool) (num den : Nat)

/-- The digits and the exponent of a ratio; those of zero are zeros. -/
def leading : SixDigits := if num = 0 then ⟨0, 0⟩ else .ofRatio num den

def exponential : Text :=
  signed negative <|
    Text.decimals 5 (leading num den).digits ++ 'e' :: Text.ofInt (leading num den).exponent

def fixed (places : Nat) : Text :=
  signed negative (Text.decimals places (SixDigits.roundDiv (num * 10 ^ places) den))

/-- The text for a value; `other` stands in if there is no exponent. -/
def format (other : Text) : Text :=
  match Text.splitOnce 'e' (exponential negative num den) with
  | none => other
  | some (mantissa, digits) =>
    match Text.toInt? digits with
    | none => other
    | some e =>
      if -4 ≤ e ∧ e < 6 then Text.trimFraction (fixed negative num den (5 - e).toNat)
      else Text.trimFraction mantissa ++ exponent e

end Definitions

end Decimal

namespace Text

variable {t u f : Text} {c : Char}

theorem ne_of_isDigit (hc : c.isDigit = true) {d : Char} (hd : d.isDigit = false) : c ≠ d := by
  rintro rfl
  exact absurd hc (by rw [hd]; decide)

theorem splitOnce_append (h : c ∉ t) : splitOnce c (t ++ c :: u) = some (t, u) := by
  have hpass : ∀ d ∈ t, (d != c) = true := by
    rintro d hd
    exact bne_iff_ne.mpr (ne_of_mem_of_not_mem hd h)
  unfold splitOnce
  rw [List.dropWhile_append_of_pos hpass, List.takeWhile_append_of_pos hpass]
  simp

theorem splitOnce_of_notMem (h : c ∉ t) : splitOnce c t = none := by
  have hall : t.dropWhile (· != c) = [] :=
    List.dropWhile_eq_nil_iff.mpr fun d hd => bne_iff_ne.mpr (ne_of_mem_of_not_mem hd h)
  unfold splitOnce
  rw [hall]

theorem signedInt?_digits {sign : Int} (hsign : sign = 1 ∨ sign = -1) (hne : t ≠ [])
    (hdigits : ∀ c ∈ t, c.isDigit = true) (hfits : toNat t < 2 ^ 31) :
    signedInt? sign t = some (sign * toNat t) := by
  refine if_pos ⟨hne, List.all_eq_true.mpr hdigits, ?_⟩
  rcases hsign with rfl | rfl <;> constructor <;> omega

theorem toInt?_digits (hne : t ≠ []) (hdigits : ∀ c ∈ t, c.isDigit = true)
    (hfits : toNat t < 2 ^ 31) : toInt? t = some (toNat t : Int) := by
  have hread := signedInt?_digits (.inl rfl) hne hdigits hfits
  rw [Int.one_mul] at hread
  unfold toInt?
  split
  · exact absurd (hdigits '-' (by simp)) (by decide)
  · exact absurd (hdigits '+' (by simp)) (by decide)
  · exact hread

theorem toInt?_ofInt {e : Int} (h : e.natAbs < 2 ^ 31) : toInt? (ofInt e) = some e := by
  cases e with
  | ofNat n =>
    have hfits : toNat (ofNat n) < 2 ^ 31 := by rwa [toNat_ofNat]
    have hread := toInt?_digits Nat.toDigits_ne_nil (fun _ => isDigit_of_mem_ofNat) hfits
    exact hread.trans (congrArg (fun k : Nat => some (k : Int)) (toNat_ofNat n))
  | negSucc n =>
    have hfits : toNat (ofNat (n + 1)) < 2 ^ 31 := by rwa [toNat_ofNat]
    have hread := signedInt?_digits (.inr rfl) Nat.toDigits_ne_nil
      (fun _ => isDigit_of_mem_ofNat) hfits
    have hvalue : -1 * (toNat (ofNat (n + 1)) : Int) = Int.negSucc n := by
      rw [toNat_ofNat]
      omega
    exact hread.trans (congrArg some hvalue)

theorem rdropWhile_zero (t f : Text) :
    (t ++ '.' :: f).rdropWhile (· == '0') = t ++ '.' :: f.rdropWhile (· == '0') := by
  induction f using List.reverseRecOn with
  | nil => exact List.rdropWhile_concat_neg _ t '.' (by decide)
  | append_singleton f c ih =>
    rw [← List.cons_append, ← List.append_assoc, List.rdropWhile_concat, List.rdropWhile_concat, ih]
    split
    · rfl
    · rw [List.append_assoc, List.cons_append]

theorem rdropWhile_point (ht : '.' ∉ t) (hf : '.' ∉ f) :
    (t ++ '.' :: f).rdropWhile (· == '.') = Numeral.text ⟨t, f⟩ := by
  rcases List.eq_nil_or_concat' f with rfl | ⟨g, c, rfl⟩
  · have hlast : ∀ hne : t ≠ [], ¬(t.getLast hne == '.') = true := by
      intro hne heq
      exact ht (beq_iff_eq.mp heq ▸ List.getLast_mem hne)
    rw [List.rdropWhile_concat_pos _ _ _ (by decide), List.rdropWhile_eq_self_iff.mpr hlast]
    rfl
  · have hc : ¬(c == '.') = true := by
      intro heq
      exact hf (beq_iff_eq.mp heq ▸ by simp)
    rw [← List.cons_append, ← List.append_assoc, List.rdropWhile_concat, if_neg hc, Numeral.text,
      if_neg (by simp), List.append_assoc, List.cons_append]

theorem trimFraction_point (ht : '.' ∉ t) (hf : '.' ∉ f) :
    trimFraction (t ++ '.' :: f) = Numeral.text ⟨t, f.rdropWhile (· == '0')⟩ := by
  have hf' : '.' ∉ f.rdropWhile (· == '0') := fun h => hf ((List.rdropWhile_prefix _ f).subset h)
  rw [trimFraction, if_pos (by simp), rdropWhile_zero, rdropWhile_point ht hf']

end Text

namespace Decimal

variable {negative : Bool} {num den places units : Nat} {t : Text} {c : Char} {d : SixDigits}

theorem signed_append (negative : Bool) (t u : Text) :
    signed negative (t ++ u) = signed negative t ++ u := by
  cases negative <;> rfl

theorem mem_signed (h : c ∈ signed negative t) : c = '-' ∨ c ∈ t := by
  cases negative with
  | false => exact .inr h
  | true => exact List.mem_cons.mp h

theorem notMem_signed_ofNat (negative : Bool) (n : Nat) (hminus : c ≠ '-')
    (hdigit : c.isDigit = false) : c ∉ signed negative (Text.ofNat n) := by
  intro h
  rcases mem_signed h with rfl | h
  · exact hminus rfl
  · exact Text.ne_of_isDigit (Text.isDigit_of_mem_ofNat h) hdigit rfl

theorem signed_text (negative : Bool) (n : Numeral) :
    signed negative n.text = Numeral.text ⟨signed negative n.whole, n.fraction⟩ := by
  unfold Numeral.text
  split
  · rfl
  · exact signed_append _ _ _

theorem trimFraction_decimals (negative : Bool) (places units : Nat) :
    Text.trimFraction (signed negative (Text.decimals places units)) =
      signed negative (Numeral.ofUnits places units).text := by
  have hwhole : '.' ∉ signed negative (Text.ofNat (units / 10 ^ places)) :=
    notMem_signed_ofNat _ _ (by decide) (by decide)
  rw [Text.decimals, signed_append, signed_text]
  split_ifs with hplaces
  · subst hplaces
    rw [List.append_nil, Text.trimFraction, if_neg hwhole]
    rfl
  · apply Text.trimFraction_point hwhole
    intro h
    exact Text.ne_of_isDigit (Text.isDigit_of_mem_lastDigits h) (by decide) rfl

theorem notMem_decimals (hminus : c ≠ '-') (hpoint : c ≠ '.') (hdigit : c.isDigit = false) :
    c ∉ signed negative (Text.decimals places units) := by
  rw [Text.decimals, signed_append, List.mem_append, not_or]
  refine ⟨notMem_signed_ofNat _ _ hminus hdigit, fun h => ?_⟩
  split_ifs at h
  · exact List.not_mem_nil h
  · rcases List.mem_cons.mp h with h | h
    · exact hpoint h
    · exact Text.ne_of_isDigit (Text.isDigit_of_mem_lastDigits h) hdigit rfl

/-- The first rendering always has an exponent that can be read. -/
theorem format_eq (other : Text) (hfits : (leading num den).exponent.natAbs < 2 ^ 31) :
    format negative num den other =
      signed negative
        (if -4 ≤ (leading num den).exponent ∧ (leading num den).exponent < 6 then
          (Numeral.ofUnits (5 - (leading num den).exponent).toNat (SixDigits.roundDiv
            (num * 10 ^ (5 - (leading num den).exponent).toNat) den)).text
        else (Numeral.ofUnits 5 (leading num den).digits).text ++
          exponent (leading num den).exponent) := by
  have hsplit : Text.splitOnce 'e' (exponential negative num den) =
      some (signed negative (Text.decimals 5 (leading num den).digits),
        Text.ofInt (leading num den).exponent) := by
    rw [exponential, signed_append]
    exact Text.splitOnce_append (notMem_decimals (by decide) (by decide) (by decide))
  unfold format
  rw [hsplit]
  dsimp only
  rw [Text.toInt?_ofInt hfits]
  dsimp only
  split_ifs
  · exact trimFraction_decimals _ _ _
  · rw [trimFraction_decimals, signed_append]

theorem join_eq (whole fraction : Text) :
    join whole fraction = Numeral.text ⟨whole, fraction.rdropWhile (· == '0')⟩ := by
  unfold join List.rdropWhile
  cases (fraction.reverse.dropWhile (· == '0')).reverse <;> rfl

theorem join_take_drop {digits : Nat} (hlow : 100000 ≤ digits) (hhigh : digits ≤ 999999)
    (hplaces : places ≤ 5) :
    join ((Text.ofNat digits).take (6 - places)) ((Text.ofNat digits).drop (6 - places)) =
      (Numeral.ofUnits places digits).text := by
  have hle : 10 ^ places ≤ digits :=
    (Nat.pow_le_pow_right (by decide) hplaces).trans hlow
  have hsplit := Text.ofNat_append_lastDigits hle
  have hlength : (Text.ofNat (digits / 10 ^ places)).length = 6 - places := by
    have hall : (Text.ofNat digits).length = 6 := Text.length_ofNat_eq hlow (by omega)
    rw [← hsplit, List.length_append, Text.length_lastDigits] at hall
    omega
  rw [← hsplit, List.take_left' hlength, List.drop_left' hlength, join_eq]
  rfl

theorem plain_eq (hlow : 100000 ≤ d.digits) (hhigh : d.digits ≤ 999999) (he : d.exponent < 6) :
    plain d = (Numeral.ofUnits (5 - d.exponent).toNat d.digits).text := by
  obtain ⟨digits, exponent⟩ := d
  dsimp only at hlow hhigh he ⊢
  cases exponent with
  | ofNat n =>
    rw [Int.ofNat_eq_natCast] at he
    have hplaces : (5 - Int.ofNat n).toNat = 5 - n := by
      rw [Int.ofNat_eq_natCast]
      omega
    have hdigits : n + 1 = 6 - (5 - n) := by omega
    rw [hplaces, ← join_take_drop hlow hhigh (Nat.sub_le 5 n), ← hdigits]
    rfl
  | negSucc n =>
    have hplaces : (5 - Int.negSucc n).toNat = n + 6 := by omega
    -- nothing is left before the point, and all six digits stand after it, behind `n` zeros
    have hsix : Text.lastDigits 6 digits = Text.ofNat digits := by
      have hfirst : digits / 10 ^ 5 < 10 := by omega
      rw [← Text.ofNat_append_lastDigits (w := 5) hlow, Text.lastDigits_add 1 5]
      congr 1
      rw [Text.ofNat, Nat.toDigits_of_lt_base hfirst, Text.lastDigits, Nat.mod_eq_of_lt hfirst]
      rfl
    have hwhole : digits / 10 ^ (n + 6) = 0 := by
      apply Nat.div_eq_of_lt
      calc digits < 10 ^ 6 := by omega
        _ ≤ 10 ^ (n + 6) := Nat.pow_le_pow_right (by decide) (Nat.le_add_left 6 n)
    have hnone : digits / 10 ^ 6 = 0 := by omega
    rw [hplaces, Numeral.ofUnits, hwhole, Text.lastDigits_add, hnone, Text.lastDigits_zero, hsix,
      ← join_eq]
    rfl

theorem scientific_eq (hlow : 100000 ≤ d.digits) (hhigh : d.digits ≤ 999999) :
    scientific d = (Numeral.ofUnits 5 d.digits).text ++ exponent d.exponent := by
  rw [scientific, ← join_take_drop hlow hhigh (Nat.le_refl 5)]

/-- The second rendering has the digits of the first one. -/
theorem roundDiv_ofRatio (hnum : 0 < num) (hden : 0 < den)
    (he : (SixDigits.ofRatio num den).exponent < 6) :
    SixDigits.roundDiv (num * 10 ^ (5 - (SixDigits.ofRatio num den).exponent).toNat) den =
      (SixDigits.ofRatio num den).digits := by
  -- both are the whole number nearest to the ratio at the place of the exponent after rounding
  have hfirst := SixDigits.nearestEven_ofRatio hnum hden
  generalize SixDigits.ofRatio num den = d at he hfirst ⊢
  obtain ⟨places, hplaces⟩ := Int.eq_ofNat_of_zero_le (show 0 ≤ 5 - d.exponent by omega)
  have hsecond := SixDigits.nearestEven_roundDiv (num * 10 ^ places) hden
  have hscale : (num : ℚ) / den * 10 ^ (5 - d.exponent) = ((num * 10 ^ places : ℕ) : ℚ) / den := by
    rw [hplaces, zpow_natCast]
    push_cast
    ring
  rw [hscale] at hfirst
  rw [hplaces, Int.toNat_natCast]
  exact_mod_cast hsecond.unique hfirst

theorem format_eq_write (hnum : 0 < num) (hden : 0 < den) (other : Text)
    (hfits : (SixDigits.ofRatio num den).exponent.natAbs < 2 ^ 31) :
    format negative num den other = signed negative (write (.ofRatio num den)) := by
  have hleading : leading num den = .ofRatio num den := if_neg hnum.ne'
  obtain ⟨hlow, hhigh⟩ := SixDigits.digits_ofRatio hnum hden
  rw [format_eq other (by rwa [hleading]), hleading, write]
  split_ifs with he
  · rw [roundDiv_ofRatio hnum hden he.2, plain_eq hlow hhigh he.2]
  · rw [scientific_eq hlow hhigh]

theorem format_zero (hden : 0 < den) (other : Text) :
    format negative 0 den other = signed negative ['0'] := by
  have hround : SixDigits.roundDiv 0 den = 0 := by simp [SixDigits.roundDiv, hden]
  have hleading : leading 0 den = ⟨0, 0⟩ := rfl
  rw [format_eq other (by rw [hleading]; decide), hleading, Nat.zero_mul, hround]
  rfl

end Decimal

end DiceArith
