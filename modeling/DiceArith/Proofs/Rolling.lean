import DiceArith.Expansion
import DiceArith.Proofs.Except
import DiceArith.Proofs.Reading
import Mathlib.Algebra.Ring.Nat
import Mathlib.Data.List.Forall2

/-! # Rolling

An expansion keeps all text between the dice patterns and has one value for each die of each
pattern. The bound on dice also bounds its length, whatever values the roller shows.
-/

namespace DiceArith

namespace Segment

variable {δ : Type} (f : δ → Text)

theorem flatMap_write_consText (c : Char) (l : List (Segment δ)) :
    (consText c l).flatMap (write f) = c :: l.flatMap (write f) := by
  match l with
  | [] | .text _ :: _ | .dice _ :: _ => rfl

theorem mem_of_mem_consText {c : Char} {l : List (Segment δ)} {d : δ}
    (h : dice d ∈ consText c l) : dice d ∈ l := by
  match l with
  | [] => simp [consText] at h
  | .text _ :: _ | .dice _ :: _ => simpa [consText] using h

end Segment

theorem flatMap_segments (t : Text) : (segments t).flatMap (Segment.write Pattern.text) = t := by
  fun_induction segments t with
  | case1 => rfl
  | case2 c t pattern rest h ih =>
    rw [List.flatMap_cons, ih]
    exact (Pattern.append_of_munch? h).symm
  | case3 c t h ih => rw [Segment.flatMap_write_consText, ih]

/-- Digits on both sides of the `d`, and at least one on each. -/
structure Pattern.Valid (p : Pattern) : Prop where
  count_ne_nil : p.count ≠ []
  count_digits : ∀ c ∈ p.count, c.isDigit = true
  sides_ne_nil : p.sides ≠ []
  sides_digits : ∀ c ∈ p.sides, c.isDigit = true

theorem Pattern.valid_of_munch? {t rest : Text} {p : Pattern}
    (h : munch? t = some (p, rest)) : p.Valid := by
  unfold munch? at h
  split at h
  · next u _ =>
    split at h
    · cases h
    · next hne =>
      obtain ⟨rfl, rfl⟩ := Prod.mk.inj (Option.some.inj h)
      obtain ⟨hcount, hsides⟩ := not_or.mp hne
      exact ⟨hcount, fun c => Text.isDigit_of_mem_digits, hsides,
        fun c => Text.isDigit_of_mem_digits⟩
  · cases h

theorem Pattern.valid_of_mem_segments {t : Text} {p : Pattern}
    (h : .dice p ∈ segments t) : p.Valid := by
  fun_induction segments t with
  | case1 => cases h
  | case2 c t pattern rest hmunch ih =>
    rcases List.mem_cons.mp h with hp | h
    · obtain rfl := Segment.dice.inj hp
      exact valid_of_munch? hmunch
    · exact ih h
  | case3 c t _ ih => exact ih (Segment.mem_of_mem_consText h)

theorem Dice.check_eq_ok_iff {limits : Limits} {before : UInt32} {dice : Dice} :
    dice.check limits before = .ok () ↔ dice.count ≠ 0 ∧ dice.sides ≠ 0 ∧
      dice.sides ≤ limits.maxSides ∧ before.toNat + dice.count.toNat ≤ limits.maxDice.toNat := by
  unfold check
  split_ifs with hcount hsides hmax hdice
  · simp [hcount]
  · simp [hsides]
  · simp [UInt32.not_le.mpr hmax]
  · simp [Nat.not_le.mpr hdice]
  · simp [hcount, hsides, UInt32.not_lt.mp hmax, Nat.not_lt.mp hdice]

theorem Pattern.accept_eq_ok_iff {limits : Limits} {before : UInt32} {p : Pattern} {dice : Dice} :
    p.accept limits before = .ok dice ↔
      p.dice limits = .ok dice ∧ dice.check limits before = .ok () := by
  rw [accept, Except.bind_eq_ok_iff]
  constructor
  · rintro ⟨dice, hp, h⟩
    obtain ⟨_, hc, h⟩ := Except.bind_eq_ok_iff.mp h
    obtain rfl := Except.ok.inj h
    exact ⟨hp, hc⟩
  · rintro ⟨hp, hc⟩
    exact ⟨dice, hp, by rw [hc]; rfl⟩

/-- One value for each die of a pattern that keeps the bounds. -/
structure Pattern.Rolls (limits : Limits) (p : Pattern) (rolled : Rolled) : Prop where
  accepted : ∃ before, p.accept limits before = .ok rolled.dice
  length_values : rolled.values.length = rolled.dice.count.toNat

inductive Segment.Expands (limits : Limits) : Segment Pattern → Segment Rolled → Prop
  | text (t) : Expands limits (.text t) (.text t)
  | dice {p rolled} : p.Rolls limits rolled → Expands limits (.dice p) (.dice rolled)

theorem Segment.Expands.length_filterMap {limits : Limits} {segs : List (Segment Pattern)}
    {l : List (Segment Rolled)} (h : List.Forall₂ (Expands limits) segs l) :
    (l.filterMap dice?).length = (segs.filterMap dice?).length := by
  induction h with
  | nil => rfl
  | cons hab _ ih =>
    cases hab with
    | text => exact ih
    | dice => exact congrArg (· + 1) ih

theorem Segment.Expands.exists_rolls {limits : Limits} {segs : List (Segment Pattern)}
    {l : List (Segment Rolled)} (h : List.Forall₂ (Expands limits) segs l) {rolled : Rolled}
    (hrolled : .dice rolled ∈ l) : ∃ p : Pattern, p.Rolls limits rolled := by
  induction h with
  | nil => cases hrolled
  | cons hab _ ih =>
    rcases List.mem_cons.mp hrolled with rfl | hrolled
    · cases hab with
      | dice hrolls => exact ⟨_, hrolls⟩
    · exact ih hrolled

namespace Pattern.Rolls

variable {limits : Limits} {p : Pattern} {rolled : Rolled}

theorem values_ne_nil (h : p.Rolls limits rolled) : rolled.values ≠ [] := by
  obtain ⟨before, hp⟩ := h.accepted
  obtain ⟨hcount, _⟩ := Dice.check_eq_ok_iff.mp (Pattern.accept_eq_ok_iff.mp hp).2
  intro hnil
  have hlength := h.length_values
  rw [hnil, List.length_nil] at hlength
  exact hcount (UInt32.toNat_inj.mp hlength.symm)

end Pattern.Rolls

namespace Roller

variable {σ : Type} {r : Roller σ} {s s' : σ}

theorem length_of_draw {sides values : List UInt32} (h : r.draw sides s = (some values, s')) :
    values.length = sides.length := by
  induction sides generalizing s values with
  | nil =>
    obtain rfl := Option.some.inj (Prod.mk.inj h).1
    rfl
  | cons n sides ih =>
    unfold draw at h
    split at h
    · cases h
    · split at h
      · cases h
      · next htail =>
        obtain ⟨hvalues, rfl⟩ := Prod.mk.inj h
        obtain rfl := Option.some.inj hvalues
        rw [List.length_cons, List.length_cons, ih htail]

theorem length_of_roll {dice : Dice} {rolled : Rolled} (h : r.roll dice s = (some rolled, s')) :
    rolled.dice = dice ∧ rolled.values.length = dice.count.toNat := by
  unfold roll at h
  split at h
  · cases h
  · next hdraw =>
    obtain ⟨hrolled, rfl⟩ := Prod.mk.inj h
    obtain rfl := Option.some.inj hrolled
    exact ⟨rfl, by rw [length_of_draw hdraw, List.length_replicate]⟩

theorem rollSegments_text {t : Text} {rest : List (Segment Dice)} {l : List (Segment Rolled)}
    (h : r.rollSegments (.text t :: rest) s = (some l, s')) :
    ∃ tail, r.rollSegments rest s = (some tail, s') ∧ l = .text t :: tail := by
  unfold rollSegments at h
  split at h
  · cases h
  · next htail =>
    obtain ⟨hl, rfl⟩ := Prod.mk.inj h
    exact ⟨_, htail, (Option.some.inj hl).symm⟩

theorem rollSegments_dice {dice : Dice} {rest : List (Segment Dice)} {l : List (Segment Rolled)}
    (h : r.rollSegments (.dice dice :: rest) s = (some l, s')) :
    ∃ rolled s₁ tail, r.roll dice s = (some rolled, s₁) ∧
      r.rollSegments rest s₁ = (some tail, s') ∧ l = .dice rolled :: tail := by
  unfold rollSegments at h
  split at h
  · cases h
  · next hroll =>
    split at h
    · cases h
    · next htail =>
      obtain ⟨hl, rfl⟩ := Prod.mk.inj h
      exact ⟨_, _, _, hroll, htail, (Option.some.inj hl).symm⟩

end Roller

def Segment.values : Segment Rolled → Nat
  | text _ => 0
  | dice rolled => rolled.values.length

namespace Expansion

variable {σ : Type} {r : Roller σ} {limits : Limits}

theorem expands_of_accept {segs : List (Segment Pattern)} {before : UInt32} {pos : Nat}
    {accepted : List (Segment Dice)} {s s' : σ} {l : List (Segment Rolled)}
    (hbefore : before.toNat ≤ limits.maxDice.toNat)
    (ha : accept limits before pos segs = .ok accepted)
    (hr : r.rollSegments accepted s = (some l, s')) :
    List.Forall₂ (Segment.Expands limits) segs l ∧
      before.toNat + (l.map Segment.values).sum ≤ limits.maxDice.toNat := by
  induction segs generalizing before pos accepted s l with
  | nil =>
    obtain rfl := Except.ok.inj ha
    obtain rfl := Option.some.inj (Prod.mk.inj hr).1
    exact ⟨.nil, hbefore⟩
  | cons segment segs ih =>
    cases segment with
    | text t =>
      obtain ⟨_, htail, rfl⟩ := Except.map_eq_ok_iff.mp ha
      obtain ⟨_, hrest, rfl⟩ := Roller.rollSegments_text hr
      obtain ⟨hexp, hsum⟩ := ih hbefore htail hrest
      refine ⟨.cons (.text t) hexp, ?_⟩
      simpa [Segment.values] using hsum
    | dice p =>
      unfold accept at ha
      split at ha
      · cases ha
      · next dice hp =>
        obtain ⟨_, htail, rfl⟩ := Except.map_eq_ok_iff.mp ha
        obtain ⟨rolled, _, _, hroll, hrest, rfl⟩ := Roller.rollSegments_dice hr
        obtain ⟨rfl, hlength⟩ := Roller.length_of_roll hroll
        obtain ⟨_, _, _, hle⟩ := Dice.check_eq_ok_iff.mp (Pattern.accept_eq_ok_iff.mp hp).2
        have hadd : (before + rolled.dice.count).toNat =
            before.toNat + rolled.dice.count.toNat := by
          have := limits.maxDice.toNat_lt
          rw [UInt32.toNat_add]
          omega
        obtain ⟨hexp, hsum⟩ := ih (by omega) htail hrest
        refine ⟨.cons (.dice ⟨⟨before, hp⟩, hlength⟩) hexp, ?_⟩
        rw [List.map_cons, List.sum_cons, Segment.values, hlength]
        omega

/-- An expression that was expanded, and what each of its segments became. -/
structure Of (limits : Limits) (t : Text) (x : Expansion) (l : List (Segment Rolled)) : Prop where
  eq_ofSegments : x = ofSegments l
  size_le : t.size ≤ limits.maxLength.toNat
  depth : checkDepth limits.maxDepth.toNat t = .ok ()
  expands : List.Forall₂ (Segment.Expands limits) (segments t) l
  sum_values_le : (l.map Segment.values).sum ≤ limits.maxDice.toNat

theorem prepare_of_long {t : Text} (h : limits.maxLength.toNat < t.size) :
    prepare limits t = .error (.tooLong t.size limits.maxLength.toNat) := by
  unfold prepare
  rw [if_pos h]
  rfl

theorem prepare_of_short {t : Text} (h : ¬ limits.maxLength.toNat < t.size) :
    prepare limits t = (do
      checkDepth limits.maxDepth.toNat t
      accept limits 0 0 (segments t)) := by
  unfold prepare
  rw [if_neg h]

theorem prepare_eq_ok_iff {t : Text} {accepted : List (Segment Dice)} :
    prepare limits t = .ok accepted ↔ t.size ≤ limits.maxLength.toNat ∧
      checkDepth limits.maxDepth.toNat t = .ok () ∧
      accept limits 0 0 (segments t) = .ok accepted := by
  by_cases h : limits.maxLength.toNat < t.size
  · simp [prepare_of_long h, Nat.not_le.mpr h]
  · rw [prepare_of_short h, Except.bind_eq_ok_iff]
    constructor
    · rintro ⟨_, hdepth, ha⟩
      exact ⟨Nat.not_lt.mp h, hdepth, ha⟩
    · rintro ⟨_, hdepth, ha⟩
      exact ⟨(), hdepth, ha⟩

theorem exists_of_expand {t : Text} {x : Expansion} {s s' : σ}
    (h : expand r limits t s = (.ok x, s')) :
    ∃ accepted l, prepare limits t = .ok accepted ∧ r.rollSegments accepted s = (some l, s') ∧
      x = ofSegments l := by
  unfold expand at h
  split at h
  · cases h
  · next accepted hp =>
    split at h
    · cases h
    · next l _ hr =>
      obtain ⟨hx, rfl⟩ := Prod.mk.inj h
      exact ⟨accepted, l, hp, hr, (Except.ok.inj hx).symm⟩

theorem of_expand {t : Text} {x : Expansion} {s s' : σ} (h : expand r limits t s = (.ok x, s')) :
    ∃ l, Of limits t x l := by
  obtain ⟨accepted, l, hp, hr, hx⟩ := exists_of_expand h
  obtain ⟨hsize, hdepth, ha⟩ := prepare_eq_ok_iff.mp hp
  obtain ⟨hexp, hsum⟩ := expands_of_accept (Nat.zero_le _) ha hr
  exact ⟨l, hx, hsize, hdepth, hexp, by simpa using hsum⟩

end Expansion

namespace Text

theorem utf8Size_of_isDigit {c : Char} (h : c.isDigit = true) : c.utf8Size = 1 := by
  simp only [Char.isDigit, Bool.and_eq_true, decide_eq_true_eq] at h
  exact Char.utf8Size_eq_one_iff.mpr (UInt32.le_trans h.2 (by decide))

theorem isDigit_of_mem_ofNat {n : Nat} {c : Char} (h : c ∈ ofNat n) : c.isDigit = true :=
  Nat.isDigit_of_mem_toDigits (by decide) (by decide) h

theorem size_of_digits {t : Text} (h : ∀ c ∈ t, c.isDigit = true) : t.size = t.length := by
  induction t with
  | nil => rfl
  | cons c t ih =>
    obtain ⟨hc, ht⟩ := List.forall_mem_cons.mp h
    rw [size_cons, utf8Size_of_isDigit hc, ih ht, List.length_cons, Nat.add_comm]

theorem lt_ten_pow_length (n : Nat) : n < 10 ^ (ofNat n).length :=
  (Nat.length_toDigits_le_iff (by decide) Nat.length_toDigits_pos).mp (Nat.le_refl _)

theorem size_ofNat_le {n w : Nat} (hw : 0 < w) (h : n < 10 ^ w) : (ofNat n).size ≤ w := by
  rw [size_of_digits fun c => isDigit_of_mem_ofNat]
  exact (Nat.length_toDigits_le_iff (by decide) hw).mpr h

end Text

namespace Rolled

def terms (values : List UInt32) : Text := [' ', '+', ' '].intercalate (numerals values)

theorem text_eq (rolled : Rolled) : rolled.text = '(' :: (terms rolled.values ++ [')']) := rfl

theorem terms_singleton (v : UInt32) : terms [v] = Text.ofNat v.toNat := by
  simp [terms, numerals]

theorem terms_cons_cons (v v' : UInt32) (values : List UInt32) :
    terms (v :: v' :: values) =
      Text.ofNat v.toNat ++ ([' ', '+', ' '] ++ terms (v' :: values)) := by
  simp [terms, numerals]

theorem of_mem_terms {values : List UInt32} {c : Char} (h : c ∈ terms values) :
    c.isDigit = true ∨ c = ' ' ∨ c = '+' := by
  induction values with
  | nil => cases h
  | cons v values ih =>
    cases values with
    | nil =>
      rw [terms_singleton] at h
      exact .inl (Text.isDigit_of_mem_ofNat h)
    | cons v' values =>
      rw [terms_cons_cons] at h
      rcases List.mem_append.mp h with h | h
      · exact .inl (Text.isDigit_of_mem_ofNat h)
      · rcases List.mem_append.mp h with h | h
        · simp only [List.mem_cons, List.not_mem_nil, or_false] at h
          exact .inr (h.elim .inl Or.symm)
        · exact ih h

theorem size_text (rolled : Rolled) : rolled.text.size = (terms rolled.values).size + 2 := by
  rw [text_eq, Text.size_parentheses, Text.size_nil, Nat.add_zero]

end Rolled

section Size

variable {w : Nat}

theorem Rolled.size_terms_le (hw : 0 < w) {values : List UInt32} (hne : values ≠ [])
    (h : ∀ v ∈ values, v.toNat < 10 ^ w) :
    (terms values).size + 3 ≤ values.length * (w + 3) := by
  induction values with
  | nil => exact absurd rfl hne
  | cons v values ih =>
    obtain ⟨hv, hvalues⟩ := List.forall_mem_cons.mp h
    have hsize : (Text.ofNat v.toNat).size ≤ w := Text.size_ofNat_le hw hv
    rw [List.length_cons, Nat.succ_mul]
    cases values with
    | nil =>
      rw [terms_singleton]
      omega
    | cons v' values =>
      have hrest := ih (List.cons_ne_nil _ _) hvalues
      have hsep : Text.size [' ', '+', ' '] = 3 := rfl
      rw [terms_cons_cons, Text.size_append, Text.size_append, hsep]
      omega

theorem Pattern.Valid.three_le_size {p : Pattern} (h : p.Valid) : 3 ≤ p.text.size := by
  have hcount := List.length_pos_iff.mpr h.count_ne_nil
  have hsides := List.length_pos_iff.mpr h.sides_ne_nil
  have hd : Char.utf8Size 'd' = 1 := rfl
  rw [text, Text.size_append, Text.size_cons, Text.size_of_digits h.count_digits,
    Text.size_of_digits h.sides_digits, hd]
  omega

/-- A sum is longer than its pattern by at most `w + 3` bytes for each value, less four. -/
theorem Pattern.Rolls.size_text_le {limits : Limits} {p : Pattern} {rolled : Rolled}
    (h : p.Rolls limits rolled) (hp : p.Valid) (hw : 0 < w)
    (hvalues : ∀ v ∈ rolled.values, v.toNat < 10 ^ w) :
    rolled.text.size + 4 ≤ p.text.size + rolled.values.length * (w + 3) := by
  have hterms := Rolled.size_terms_le hw h.values_ne_nil hvalues
  have hpattern := hp.three_le_size
  rw [Rolled.size_text]
  omega

theorem Segment.Expands.size_flatMap_le {limits : Limits} {segs : List (Segment Pattern)}
    {l : List (Segment Rolled)} (h : List.Forall₂ (Expands limits) segs l)
    (hsegs : ∀ p, .dice p ∈ segs → p.Valid) (hw : 0 < w)
    (hl : ∀ rolled, .dice rolled ∈ l → ∀ v ∈ rolled.values, v.toNat < 10 ^ w) :
    Text.size (l.flatMap (write Rolled.text)) + 4 * (segs.filterMap dice?).length ≤
      Text.size (segs.flatMap (write Pattern.text)) + (l.map values).sum * (w + 3) := by
  induction h with
  | nil => exact Nat.zero_le _
  | @cons a b segs l hab _ ih =>
    have hrest := ih (fun p hp => hsegs p (List.mem_cons_of_mem _ hp))
      fun rolled hrolled => hl rolled (List.mem_cons_of_mem _ hrolled)
    simp only [List.flatMap_cons, Text.size_append, List.map_cons, List.sum_cons, Nat.add_mul]
    cases hab with
    | text t =>
      simp only [write, values, List.filterMap_cons, dice?]
      omega
    | @dice p rolled hrolls =>
      have hfirst := hrolls.size_text_le (hsegs p List.mem_cons_self) hw
        (hl rolled List.mem_cons_self)
      simp only [write, values, List.filterMap_cons, dice?, List.length_cons]
      omega

theorem Expansion.mem_rolls_ofSegments {l : List (Segment Rolled)} {rolled : Rolled} :
    rolled ∈ (ofSegments l).rolls ↔ .dice rolled ∈ l := by
  rw [ofSegments, List.mem_filterMap]
  constructor
  · rintro ⟨b, hb, hrolled⟩
    cases b with
    | text t => cases hrolled
    | dice d =>
      obtain rfl := Option.some.inj hrolled
      exact hb
  · intro hrolled
    exact ⟨_, hrolled, rfl⟩

namespace Expansion.Of

variable {limits : Limits} {t : Text} {x : Expansion} {l : List (Segment Rolled)}

theorem size_text_add_le (h : Of limits t x l) (hw : 0 < w)
    (hx : ∀ rolled ∈ x.rolls, ∀ v ∈ rolled.values, v.toNat < 10 ^ w) :
    x.text.size + 4 * ((segments t).filterMap Segment.dice?).length ≤
      t.size + (l.map Segment.values).sum * (w + 3) := by
  have hsize := Segment.Expands.size_flatMap_le h.expands
    (fun p => Pattern.valid_of_mem_segments) hw
    fun rolled hrolled => hx rolled (by rwa [h.eq_ofSegments, mem_rolls_ofSegments])
  rw [flatMap_segments] at hsize
  rw [h.eq_ofSegments]
  exact hsize

theorem size_text_le (h : Of limits t x l) (hw : 0 < w)
    (hx : ∀ rolled ∈ x.rolls, ∀ v ∈ rolled.values, v.toNat < 10 ^ w) :
    x.text.size ≤ t.size + limits.maxDice.toNat * (w + 3) := by
  have hadd := h.size_text_add_le hw hx
  have hmul := Nat.mul_le_mul_right (w + 3) h.sum_values_le
  omega

end Expansion.Of

end Size

end DiceArith
