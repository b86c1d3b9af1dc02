import DiceArith.Proofs.Rolling

/-! # Acceptance

Patterns are accepted one after the other, in words that also count the dice before a pattern.
Read as natural numbers, the dice of every pattern have to keep the bounds, those before it
included, and nothing else is asked of a pattern wherever it stands.
-/

namespace DiceArith

theorem Text.toWord?_eq_some_iff {digits : Text} {w : UInt32} :
    toWord? digits = some w ↔ w.toNat = toNat digits := by
  unfold toWord?
  split
  · next h =>
    rw [Option.some.injEq]
    constructor
    · rintro rfl
      exact UInt32.toNat_ofNat_of_lt h
    · intro hw
      rw [← hw, UInt32.ofNat_toNat]
  · next h =>
    constructor
    · intro hw
      cases hw
    · intro hw
      exact absurd (hw ▸ w.toNat_lt) h

theorem Text.exists_word {digits : Text} (h : toNat digits < 2 ^ 32) :
    ∃ w : UInt32, w.toNat = toNat digits :=
  ⟨.ofNat (toNat digits), UInt32.toNat_ofNat_of_lt h⟩

namespace Pattern

variable {limits : Limits} {p : Pattern} {dice : Dice}

theorem dice_eq_ok_iff : p.dice limits = .ok dice ↔
    dice.count.toNat = Text.toNat p.count ∧ dice.sides.toNat = Text.toNat p.sides := by
  obtain ⟨count, sides⟩ := dice
  rw [← Text.toWord?_eq_some_iff, ← Text.toWord?_eq_some_iff, Pattern.dice]
  cases Text.toWord? p.count <;> cases Text.toWord? p.sides <;> simp

/-- The dice of a pattern keep the bounds when `before` others come before them. -/
structure Keeps (limits : Limits) (before : Nat) (p : Pattern) : Prop where
  count_pos : 0 < Text.toNat p.count
  sides_pos : 0 < Text.toNat p.sides
  sides_le : Text.toNat p.sides ≤ limits.maxSides.toNat
  count_le : before + Text.toNat p.count ≤ limits.maxDice.toNat

theorem keeps_of_accept {before : UInt32} (h : p.accept limits before = .ok dice) :
    p.Keeps limits before.toNat := by
  obtain ⟨hdice, hcheck⟩ := accept_eq_ok_iff.mp h
  obtain ⟨hcount, hsides⟩ := dice_eq_ok_iff.mp hdice
  obtain ⟨hcount_ne, hsides_ne, hmax, hle⟩ := Dice.check_eq_ok_iff.mp hcheck
  refine ⟨?_, ?_, ?_, ?_⟩
  · rw [← hcount]
    exact Nat.pos_of_ne_zero fun h0 => hcount_ne (UInt32.toNat_inj.mp h0)
  · rw [← hsides]
    exact Nat.pos_of_ne_zero fun h0 => hsides_ne (UInt32.toNat_inj.mp h0)
  · rw [← hsides]
    exact UInt32.le_iff_toNat_le.mp hmax
  · rwa [← hcount]

theorem exists_accept_iff {before : UInt32} :
    (∃ dice, p.accept limits before = .ok dice) ↔ p.Keeps limits before.toNat := by
  constructor
  · rintro ⟨dice, h⟩
    exact keeps_of_accept h
  · rintro ⟨hcount, hsides, hmax, hle⟩
    have hcount_le : Text.toNat p.count ≤ limits.maxDice.toNat := by omega
    obtain ⟨count, hc⟩ := Text.exists_word (Nat.lt_of_le_of_lt hcount_le limits.maxDice.toNat_lt)
    obtain ⟨sides, hs⟩ := Text.exists_word (Nat.lt_of_le_of_lt hmax limits.maxSides.toNat_lt)
    refine ⟨⟨count, sides⟩,
      accept_eq_ok_iff.mpr ⟨dice_eq_ok_iff.mpr ⟨hc, hs⟩, Dice.check_eq_ok_iff.mpr ⟨?_, ?_, ?_, ?_⟩⟩⟩
    · rintro rfl
      exact absurd hc hcount.ne
    · rintro rfl
      exact absurd hs hsides.ne
    · rw [UInt32.le_iff_toNat_le, hs]
      exact hmax
    · rwa [hc]

end Pattern

namespace Segment

def count : Segment Pattern → Nat
  | text _ => 0
  | dice p => Text.toNat p.count

def Keep (limits : Limits) (before : Nat) (segs : List (Segment Pattern)) : Prop :=
  ∀ l p l', segs = l ++ .dice p :: l' → p.Keeps limits (before + (l.map count).sum)

variable {limits : Limits} {before : Nat} {p : Pattern} {segs : List (Segment Pattern)}

theorem keep_nil : Keep limits before [] := by
  intro l p l' h
  simp at h

theorem keep_text {t : Text} : Keep limits before (.text t :: segs) ↔ Keep limits before segs := by
  constructor
  · rintro h l p l' rfl
    have hp := h (.text t :: l) p l' rfl
    simpa [count] using hp
  · intro h l p l' hl
    cases l with
    | nil => cases hl
    | cons a l =>
      obtain ⟨rfl, hsegs⟩ := List.cons.inj hl
      have hp := h l p l' hsegs
      simpa [count] using hp

theorem keep_dice : Keep limits before (.dice p :: segs) ↔
    p.Keeps limits before ∧ Keep limits (before + Text.toNat p.count) segs := by
  constructor
  · intro h
    refine ⟨h [] p segs rfl, ?_⟩
    rintro l q l' rfl
    have hq := h (.dice p :: l) q l' rfl
    simpa [count, Nat.add_assoc] using hq
  · rintro ⟨hp, h⟩ l q l' hl
    cases l with
    | nil =>
      obtain ⟨hpq, _⟩ := List.cons.inj hl
      obtain rfl := Segment.dice.inj hpq
      exact hp
    | cons a l =>
      obtain ⟨rfl, hsegs⟩ := List.cons.inj hl
      have hq := h l q l' hsegs
      simpa [count, Nat.add_assoc] using hq

inductive Accepted (limits : Limits) : Segment Pattern → Segment Dice → Prop
  | text (t) : Accepted limits (.text t) (.text t)
  | dice {before p d} : p.accept limits before = .ok d → Accepted limits (.dice p) (.dice d)

theorem Accepted.exists_accept {segs : List (Segment Pattern)} {accepted : List (Segment Dice)}
    (h : List.Forall₂ (Accepted limits) segs accepted) {d : Dice} (hd : .dice d ∈ accepted) :
    ∃ (p : Pattern) (before : UInt32), p.accept limits before = .ok d := by
  induction h with
  | nil => cases hd
  | cons hab _ ih =>
    rcases List.mem_cons.mp hd with rfl | hd
    · cases hab with
      | dice hp => exact ⟨_, _, hp⟩
    · exact ih hd

end Segment

/-- A text in which nothing is refused before its dice are rolled. -/
structure Text.Keeps (limits : Limits) (t : Text) : Prop where
  size : t.size ≤ limits.maxLength.toNat
  depth : checkDepth limits.maxDepth.toNat t = .ok ()
  patterns : Segment.Keep limits 0 (segments t)

namespace Expansion

variable {limits : Limits} {segs : List (Segment Pattern)} {before : UInt32}

theorem accepted_of_accept {pos : Nat} {accepted : List (Segment Dice)}
    (h : accept limits before pos segs = .ok accepted) :
    List.Forall₂ (Segment.Accepted limits) segs accepted := by
  induction segs generalizing before pos accepted with
  | nil =>
    obtain rfl := Except.ok.inj h
    exact .nil
  | cons segment segs ih =>
    cases segment with
    | text t =>
      obtain ⟨_, hrest, rfl⟩ := Except.map_eq_ok_iff.mp h
      exact .cons (.text t) (ih hrest)
    | dice p =>
      unfold accept at h
      split at h
      · cases h
      · next hp =>
        obtain ⟨_, hrest, rfl⟩ := Except.map_eq_ok_iff.mp h
        exact .cons (.dice hp) (ih hrest)

/-- The word that counts the dice before a pattern never overflows. -/
theorem exists_accept_iff (pos : Nat) (hbefore : before.toNat ≤ limits.maxDice.toNat) :
    (∃ accepted, accept limits before pos segs = .ok accepted) ↔
      Segment.Keep limits before.toNat segs := by
  induction segs generalizing before pos with
  | nil => exact ⟨fun _ => Segment.keep_nil, fun _ => ⟨[], rfl⟩⟩
  | cons segment segs ih =>
    cases segment with
    | text t =>
      rw [Segment.keep_text, ← ih (pos + t.size) hbefore, accept]
      simp only [Except.map_eq_ok_iff]
      exact ⟨fun ⟨_, a, h, _⟩ => ⟨a, h⟩, fun ⟨a, h⟩ => ⟨_, a, h, rfl⟩⟩
    | dice p =>
      rw [Segment.keep_dice, accept]
      cases hp : p.accept limits before with
      | error problem =>
        refine iff_of_false (by simp) fun h => ?_
        obtain ⟨d, hd⟩ := Pattern.exists_accept_iff.mpr h.1
        cases hp.symm.trans hd
      | ok d =>
        have hkeeps := Pattern.keeps_of_accept hp
        obtain ⟨hcount, _⟩ := Pattern.dice_eq_ok_iff.mp (Pattern.accept_eq_ok_iff.mp hp).1
        have hle := hkeeps.count_le
        have hadd : (before + d.count).toNat = before.toNat + Text.toNat p.count := by
          have := limits.maxDice.toNat_lt
          rw [UInt32.toNat_add, hcount]
          omega
        rw [← hadd, ← ih (pos + p.text.size) (by omega)]
        simp only [Except.map_eq_ok_iff]
        exact ⟨fun ⟨_, a, h, _⟩ => ⟨hkeeps, a, h⟩, fun ⟨_, a, h⟩ => ⟨_, a, h, rfl⟩⟩

theorem sides_ne_zero_of_prepare {t : Text} {accepted : List (Segment Dice)}
    (h : prepare limits t = .ok accepted) {d : Dice} (hd : .dice d ∈ accepted) :
    d.sides ≠ 0 := by
  obtain ⟨_, _, haccept⟩ := prepare_eq_ok_iff.mp h
  obtain ⟨p, before, hp⟩ := Segment.Accepted.exists_accept (accepted_of_accept haccept) hd
  exact (Dice.check_eq_ok_iff.mp (Pattern.accept_eq_ok_iff.mp hp).2).2.1

theorem exists_prepare_iff {t : Text} :
    (∃ accepted, prepare limits t = .ok accepted) ↔ t.Keeps limits := by
  have haccept : (∃ accepted, accept limits 0 0 (segments t) = .ok accepted) ↔
      Segment.Keep limits 0 (segments t) := exists_accept_iff 0 (Nat.zero_le _)
  simp only [prepare_eq_ok_iff]
  constructor
  · rintro ⟨accepted, hsize, hdepth, h⟩
    exact ⟨hsize, hdepth, haccept.mp ⟨accepted, h⟩⟩
  · rintro ⟨hsize, hdepth, h⟩
    obtain ⟨accepted, h⟩ := haccept.mpr h
    exact ⟨accepted, hsize, hdepth, h⟩

theorem exists_prepare_error_iff {t : Text} :
    (∃ error, prepare limits t = .error error) ↔ ¬ t.Keeps limits := by
  rw [← exists_prepare_iff]
  cases prepare limits t <;> simp

end Expansion

instance {limits : Limits} {t : Text} : Decidable (t.Keeps limits) :=
  match h : Expansion.prepare limits t with
  | .ok accepted => .isTrue (Expansion.exists_prepare_iff.mp ⟨accepted, h⟩)
  | .error error => .isFalse (Expansion.exists_prepare_error_iff.mp ⟨error, h⟩)

end DiceArith
