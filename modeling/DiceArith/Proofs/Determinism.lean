import DiceArith.Proofs.InRange
import DiceArith.Proofs.Matching
import DiceArith.Proofs.UniqueReading

/-! # Determinism

An expression whose dice all have one side leaves rollers in range no choice, so whatever becomes
of it is the same for all of them. Any other die can show its highest side and a one, and since
rolls can be read back from an expansion, the two expansions differ.
-/

namespace DiceArith

theorem Pattern.exists_deterministic_iff {p : Pattern} :
    (∃ dice, p.dice .unlimited = .ok dice ∧ dice.isDeterministic = true) ↔
      Text.toNat p.count < UInt32.size ∧ Text.toNat p.sides = 1 := by
  constructor
  · rintro ⟨dice, hdice, hone⟩
    obtain ⟨hcount, hsides⟩ := dice_eq_ok_iff.mp hdice
    rw [← hcount, ← hsides, beq_iff_eq.mp hone]
    exact ⟨dice.count.toNat_lt, rfl⟩
  · rintro ⟨hcount, hsides⟩
    exact ⟨⟨.ofNat (Text.toNat p.count), 1⟩,
      dice_eq_ok_iff.mpr ⟨UInt32.toNat_ofNat_of_lt hcount, hsides.symm⟩, rfl⟩

theorem isDeterministic_iff {t : Text} : isDeterministic t = true ↔
    ∀ p, .dice p ∈ segments t → Text.toNat p.count < UInt32.size ∧ Text.toNat p.sides = 1 := by
  simp only [← Pattern.exists_deterministic_iff, isDeterministic, List.all_eq_true]
  constructor
  · intro h p hp
    have hone := h _ hp
    dsimp only at hone
    split at hone
    · next dice hdice => exact ⟨dice, hdice, hone⟩
    · cases hone
  · intro h segment hsegment
    cases segment with
    | text u => rfl
    | dice p =>
      obtain ⟨dice, hdice, hone⟩ := h p hsegment
      dsimp only
      rw [hdice]
      exact hone

namespace Text

variable {limits : Limits} {t : Text} {sides : UInt32}

theorem mem_demand_iff : sides ∈ t.demand ↔
    ∃ p, .dice p ∈ segments t ∧ toNat p.count ≠ 0 ∧ sides = .ofNat (toNat p.sides) := by
  rw [demand, List.mem_flatMap]
  constructor
  · rintro ⟨segment, hsegment, hsides⟩
    cases segment with
    | text u => cases hsides
    | dice p => exact ⟨p, hsegment, List.mem_replicate.mp hsides⟩
  · rintro ⟨p, hp, hsides⟩
    exact ⟨.dice p, hp, List.mem_replicate.mpr hsides⟩

theorem Keeps.pattern (h : t.Keeps limits) {p : Pattern} (hp : .dice p ∈ segments t) :
    ∃ before, p.Keeps limits before := by
  obtain ⟨l, l', hsplit⟩ := List.append_of_mem hp
  exact ⟨_, h.patterns l p l' hsplit⟩

theorem Keeps.toNat_ofNat_sides (h : t.Keeps limits) {p : Pattern} (hp : .dice p ∈ segments t) :
    (UInt32.ofNat (toNat p.sides)).toNat = toNat p.sides := by
  obtain ⟨_, hkeeps⟩ := h.pattern hp
  exact UInt32.toNat_ofNat_of_lt (Nat.lt_of_le_of_lt hkeeps.sides_le limits.maxSides.toNat_lt)

theorem ne_zero_of_mem_demandWithin (h : sides ∈ t.demandWithin limits) : sides ≠ 0 := by
  unfold demandWithin at h
  split at h
  · next hkeeps =>
    obtain ⟨p, hp, _, rfl⟩ := mem_demand_iff.mp h
    obtain ⟨_, hpattern⟩ := hkeeps.pattern hp
    intro hzero
    have hsides := hkeeps.toNat_ofNat_sides hp
    rw [hzero] at hsides
    exact hpattern.sides_pos.ne hsides
  · cases h

theorem eq_one_of_mem_demandWithin (h : isDeterministic t = true)
    (hsides : sides ∈ t.demandWithin limits) : sides = 1 := by
  unfold demandWithin at hsides
  split at hsides
  · obtain ⟨p, hp, _, rfl⟩ := mem_demand_iff.mp hsides
    rw [(isDeterministic_iff.mp h p hp).2]
    rfl
  · cases hsides

theorem Keeps.isDeterministic (h : t.Keeps limits)
    (hone : ∀ sides ∈ t.demandWithin limits, sides = 1) : isDeterministic t = true := by
  rw [demandWithin, if_pos h] at hone
  rw [isDeterministic_iff]
  intro p hp
  obtain ⟨_, hpattern⟩ := h.pattern hp
  have hcount := hpattern.count_le
  have hsides := hone _ (mem_demand_iff.mpr ⟨p, hp, hpattern.count_pos.ne', rfl⟩)
  constructor
  · have := limits.maxDice.toNat_lt_size
    omega
  · rw [← h.toNat_ofNat_sides hp, hsides]
    rfl

end Text

namespace Roller

variable {σ : Type} {r : Roller σ} {xs : List UInt32}

theorem eq_of_isFace_ones {values : List UInt32} (h : List.Forall₂ IsFace xs values)
    (hxs : ∀ sides ∈ xs, sides = 1) : values = xs := by
  induction h with
  | nil => rfl
  | cons hface _ ih =>
    obtain ⟨rfl, hrest⟩ := List.forall_mem_cons.mp hxs
    rw [isFace_one_iff.mp hface, ih hrest]

theorem InRange.draw_of_ones (h : r.InRange) (hxs : ∀ sides ∈ xs, sides = 1) (s : σ) :
    ∃ s', r.draw xs s = (some xs, s') := by
  have hne : ∀ sides ∈ xs, sides ≠ 0 := by
    rintro sides hsides rfl
    cases hxs 0 hsides
  obtain ⟨values, s', hdraw, hfaces⟩ := h.draw hne s
  rw [eq_of_isFace_ones hfaces hxs] at hdraw
  exact ⟨s', hdraw⟩

theorem draw_eq_map {f : UInt32 → UInt32} (h : ∀ sides s, r.rollDie sides s = (some (f sides), s))
    (xs : List UInt32) (s : σ) : r.draw xs s = (some (xs.map f), s) := by
  induction xs with
  | nil => rfl
  | cons sides xs ih =>
    rw [draw_cons_of_some (h sides s), ih]
    rfl

end Roller

section Outcomes

variable {σ : Type} {r : Roller σ} {limits : Limits} {t : Text} {s s' : σ}

theorem expand_of_draw {values : List UInt32}
    (h : r.draw (t.demandWithin limits) s = (some values, s')) :
    expand r limits t s = (Expansion.outcome limits t (some values), s') := by
  rw [expand_eq_draw, h]
  rfl

theorem keeps_of_expand {x : Expansion} (h : (expand r limits t s).1 = .ok x) :
    t.Keeps limits := by
  rw [expand_eq_draw] at h
  cases hp : Expansion.prepare limits t with
  | error error => simp [Expansion.outcome, hp] at h
  | ok accepted => exact Expansion.exists_prepare_iff.mp ⟨accepted, hp⟩

theorem Text.Keeps.exists_outcome (h : t.Keeps limits) (values : List UInt32) :
    ∃ x, Expansion.outcome limits t (some values) = .ok x := by
  obtain ⟨accepted, hp⟩ := Expansion.exists_prepare_iff.mpr h
  refine ⟨.ofSegments (Segment.fill accepted values), ?_⟩
  simp only [Expansion.outcome, hp]

theorem Roller.InRange.exists_expand (hr : r.InRange) (h : t.Keeps limits) (s : σ) :
    ∃ x, (expand r limits t s).1 = .ok x := by
  obtain ⟨values, s', hdraw, _⟩ := hr.draw (fun _ => Text.ne_zero_of_mem_demandWithin) s
  rw [expand_of_draw hdraw]
  exact h.exists_outcome values

theorem Roller.InRange.expand_eq (hr : r.InRange) (h : isDeterministic t = true) (s : σ) :
    (expand r limits t s).1 = Expansion.outcome limits t (some (t.demandWithin limits)) := by
  have hone : ∀ sides ∈ t.demandWithin limits, sides = 1 := fun _ =>
    Text.eq_one_of_mem_demandWithin h
  obtain ⟨s', hdraw⟩ := hr.draw_of_ones hone s
  rw [expand_of_draw hdraw]

/-- A roller of fixed faces expands an expression, and the faces can be read back. -/
theorem Text.Keeps.exists_expand {r : Roller Unit} (h : t.Keeps limits) {f : UInt32 → UInt32}
    (hr : ∀ sides s, r.rollDie sides s = (some (f sides), s)) :
    ∃ x, expand r limits t () = (.ok x, ()) ∧
      x.rolls.flatMap Rolled.values = (t.demandWithin limits).map f := by
  obtain ⟨x, hx⟩ := h.exists_outcome ((t.demandWithin limits).map f)
  refine ⟨x, ?_, Expansion.values_of_outcome (List.length_map f) hx⟩
  rw [expand_of_draw (Roller.draw_eq_map hr _ ()), hx]

/-- Highest sides and ones are the same values only for dice of one side. -/
theorem Text.Keeps.eq_one_of_same_text (h : t.Keeps limits) {u : Text}
    (hu : ∀ (r : Roller Unit) (x : Expansion), r.InRange →
      (expand r limits t ()).1 = .ok x → x.text = u) :
    ∀ sides ∈ t.demandWithin limits, sides = 1 := by
  have hhighest : ∀ sides s, Roller.highest.rollDie sides s = (some (id sides), s) :=
    fun _ _ => rfl
  have hone : ∀ sides s, (Roller.constant 1).rollDie sides s = (some 1, s) := fun _ _ => rfl
  obtain ⟨x, hx, hvalues⟩ := h.exists_expand hhighest
  obtain ⟨x', hx', hvalues'⟩ := h.exists_expand hone
  have htext : x.text = x'.text := by
    rw [hu _ x Roller.inRange_highest (congrArg Prod.fst hx),
      hu _ x' Roller.inRange_constant_one (congrArg Prod.fst hx')]
  obtain ⟨l, hl⟩ := Expansion.of_expand hx
  obtain ⟨l', hl'⟩ := Expansion.of_expand hx'
  obtain rfl := hl.eq_of_text hl' htext
  rw [List.map_id] at hvalues
  have hsame := hvalues.symm.trans hvalues'
  intro sides hsides
  rw [hsame] at hsides
  obtain ⟨_, _, rfl⟩ := List.mem_map.mp hsides
  rfl

end Outcomes

/-- An expression that can be rolled is deterministic exactly when all rollers in range expand it to
the same text. -/
theorem isDeterministic_exact {α : Type} (A : Arithmetic α) (limits : Limits) (t : Text) :
    ((∃ (σ : Type) (r : Roller σ) (s : σ) (x : Expansion), (expand r limits t s).1 = .ok x) →
      (∀ (σ : Type) (r : Roller σ) (s : σ), r.InRange → ∃ x, (expand r limits t s).1 = .ok x) ∧
      (isDeterministic t = true ↔
        ∃ u, ∀ (σ : Type) (r : Roller σ) (s : σ) (x : Expansion), r.InRange →
          (expand r limits t s).1 = .ok x → x.text = u)) ∧
    (isDeterministic t = true →
      ∃ outcome, outcome ≠ .error .exhausted ∧
        ∀ (σ : Type) (r : Roller σ) (s : σ), r.InRange →
          (evaluate A r limits t s).1 = outcome) := by
  constructor
  · rintro ⟨σ₀, r₀, s₀, x₀, h₀⟩
    have hkeeps := keeps_of_expand h₀
    refine ⟨fun σ r s hr => hr.exists_expand hkeeps s, ?_, ?_⟩
    · intro h
      obtain ⟨x, hx⟩ := hkeeps.exists_outcome (t.demandWithin limits)
      refine ⟨x.text, fun σ r s x' hr hx' => ?_⟩
      rw [hr.expand_eq h, hx] at hx'
      rw [Except.ok.inj hx']
    · rintro ⟨u, hu⟩
      exact hkeeps.isDeterministic
        (hkeeps.eq_one_of_same_text fun r x hr hx => hu Unit r () x hr hx)
  · intro h
    refine ⟨(Expansion.outcome limits t (some (t.demandWithin limits))).bind
      (Expansion.calculated A limits), ?_, fun σ r s hr => ?_⟩
    · rw [Ne, Expansion.bind_calculated_eq_exhausted_iff, Expansion.outcome_eq_exhausted_iff]
      simp
    · rw [evaluate_eq_expand, ← hr.expand_eq h s]
      rfl

theorem isDeterministic_exact_ones :
    isDeterministic "3 * 2d1".toList = true ∧
    (expand .highest .standard "3 * 2d1".toList ()).1 =
      .ok ⟨"3 * (1 + 1)".toList, [⟨⟨2, 1⟩, [1, 1]⟩]⟩ ∧
    (∀ s x, (expand .generator .standard "3 * 2d1".toList s).1 = .ok x →
      x.text = "3 * (1 + 1)".toList) ∧
    ∀ s, (evaluate (.free Empty) .generator .standard "3 * 2d1".toList s).1 =
      .ok ⟨"3 * (1 + 1)".toList, .node .multiply (.number (.ofNat 3))
        (.node .add (.number (.ofNat 1)) (.number (.ofNat 1))), [⟨⟨2, 1⟩, [1, 1]⟩]⟩ := by
  have hone : isDeterministic "3 * 2d1".toList = true := by decide +kernel
  have hexpand : (expand .highest .standard "3 * 2d1".toList ()).1 =
      .ok ⟨"3 * (1 + 1)".toList, [⟨⟨2, 1⟩, [1, 1]⟩]⟩ := by decide +kernel
  have hevaluate : (evaluate (.free Empty) .highest .standard "3 * 2d1".toList ()).1 =
      .ok ⟨"3 * (1 + 1)".toList, .node .multiply (.number (.ofNat 3))
        (.node .add (.number (.ofNat 1)) (.number (.ofNat 1))), [⟨⟨2, 1⟩, [1, 1]⟩]⟩ := by
    decide +kernel
  obtain ⟨hexact, hall⟩ := isDeterministic_exact (.free Empty) .standard "3 * 2d1".toList
  refine ⟨hone, hexpand, fun s x hx => ?_, fun s => ?_⟩
  · obtain ⟨u, hu⟩ := (hexact ⟨Unit, .highest, (), _, hexpand⟩).2.mp hone
    rw [hu _ _ _ _ Roller.inRange_generator hx,
      ← hu _ _ _ _ Roller.inRange_highest hexpand]
  · obtain ⟨outcome, _, houtcome⟩ := hall hone
    rw [houtcome _ _ _ Roller.inRange_generator, ← houtcome _ _ _ Roller.inRange_highest,
      hevaluate]

/-- A search through a text from left to right finds the pattern. -/
def Pattern.Found (p : Pattern) (t : Text) : Prop :=
  ∃ segs, Segment.Search t segs ∧ .dice p ∈ segs

theorem Pattern.found_iff {p : Pattern} {t : Text} : p.Found t ↔ .dice p ∈ segments t := by
  simp only [Found, Segment.search_iff, exists_eq_left]

/-- An expression is deterministic when its patterns have one side and counts that fit a word. That
none has more sides says the same, unless one has no side or a larger count. -/
theorem isDeterministic_iff_found (t : Text) :
    (isDeterministic t = true ↔
      ∀ p : Pattern, p.Found t → Text.toNat p.count < 2 ^ 32 ∧ Text.toNat p.sides = 1) ∧
    ((isDeterministic t = true ↔ ∀ p : Pattern, p.Found t → ¬ 1 < Text.toNat p.sides) ↔
      (∃ p : Pattern, p.Found t ∧ 1 < Text.toNat p.sides) ∨
        ∀ p : Pattern, p.Found t → Text.toNat p.count < 2 ^ 32 ∧ Text.toNat p.sides ≠ 0) := by
  have hiff : isDeterministic t = true ↔
      ∀ p : Pattern, p.Found t → Text.toNat p.count < 2 ^ 32 ∧ Text.toNat p.sides = 1 := by
    simp only [Pattern.found_iff]
    exact isDeterministic_iff
  refine ⟨hiff, ?_⟩
  rw [hiff]
  constructor
  · intro h
    by_cases hmany : ∃ p : Pattern, p.Found t ∧ 1 < Text.toNat p.sides
    · exact .inl hmany
    · have hone := h.mpr fun p hp hsides => hmany ⟨p, hp, hsides⟩
      refine .inr fun p hp => ⟨(hone p hp).1, ?_⟩
      rw [(hone p hp).2]
      decide
  · rintro (⟨q, hq, hmany⟩ | hsound)
    · refine iff_of_false (fun h => ?_) fun h => h q hq hmany
      exact absurd (h q hq).2 hmany.ne'
    · constructor
      · intro h p hp
        exact (h p hp).2.le.not_gt
      · intro h p hp
        obtain ⟨hcount, hsides⟩ := hsound p hp
        have hle := h p hp
        exact ⟨hcount, by omega⟩

/-- No die has more than one side, but the count is beyond a word, or there is no side. -/
theorem not_isDeterministic_of_few_sides :
    ¬ (isDeterministic "4294967296d1".toList = true ↔
      ∀ p : Pattern, p.Found "4294967296d1".toList → ¬ 1 < Text.toNat p.sides) ∧
    ¬ (isDeterministic "2d0".toList = true ↔
      ∀ p : Pattern, p.Found "2d0".toList → ¬ 1 < Text.toNat p.sides) := by
  have hcount : isDeterministic "4294967296d1".toList = false := by decide +kernel
  have hcount_segments : segments "4294967296d1".toList =
      [.dice ⟨"4294967296".toList, "1".toList⟩] := by decide +kernel
  have hsides : isDeterministic "2d0".toList = false := by decide +kernel
  have hsides_segments : segments "2d0".toList = [.dice ⟨"2".toList, "0".toList⟩] := by
    decide +kernel
  simp only [Pattern.found_iff, hcount, hcount_segments, hsides, hsides_segments,
    List.mem_singleton, Segment.dice.injEq, forall_eq]
  decide +kernel

end DiceArith
