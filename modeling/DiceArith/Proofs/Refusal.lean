import DiceArith.Proofs.Drawing
import DiceArith.Proofs.RunningDepth
import DiceArith.Proofs.Segmentation
import DiceArith.Roller.Generator

/-! # What is refused

An expression is refused for the first bound that it breaks: its length, then its depth, then the
dice of its patterns from left to right, with those of earlier patterns added. All numbers are
natural numbers, and the words that count dice agree with them as far as they are read.
-/

namespace DiceArith

theorem Text.toWord?_of_le {digits : Text} (h : 2 ^ 32 ≤ toNat digits) : toWord? digits = none :=
  if_neg (Nat.not_lt.mpr h)

/-- A set of dice is checked in natural numbers. -/
theorem Dice.check_eq (limits : Limits) (before : UInt32) (dice : Dice) :
    dice.check limits before =
      if dice.count.toNat = 0 then .error .noDice
      else if dice.sides.toNat = 0 then .error .noSides
      else if limits.maxSides.toNat < dice.sides.toNat then .error (.tooManySides limits.maxSides)
      else if limits.maxDice.toNat < before.toNat + dice.count.toNat then
        .error (.tooManyDice limits.maxDice)
      else .ok () := by
  have hzero : ∀ w : UInt32, w = 0 ↔ w.toNat = 0 := fun w => UInt32.toNat_inj.symm
  simp only [check, hzero, UInt32.lt_iff_toNat_lt]

namespace Pattern

def problem? (limits : Limits) (before : Nat) (p : Pattern) : Option DiceProblem :=
  if 2 ^ 32 ≤ Text.toNat p.count then some (.tooManyDice limits.maxDice)
  else if 2 ^ 32 ≤ Text.toNat p.sides then some (.tooManySides limits.maxSides)
  else if Text.toNat p.count = 0 then some .noDice
  else if Text.toNat p.sides = 0 then some .noSides
  else if limits.maxSides.toNat < Text.toNat p.sides then some (.tooManySides limits.maxSides)
  else if limits.maxDice.toNat < before + Text.toNat p.count then
    some (.tooManyDice limits.maxDice)
  else none

variable {limits : Limits} {p : Pattern} {problem : DiceProblem}

theorem problem?_eq_none_iff {before : Nat} :
    p.problem? limits before = none ↔ p.Keeps limits before := by
  have hsides := limits.maxSides.toNat_lt
  have hdice := limits.maxDice.toNat_lt
  unfold problem?
  constructor
  · intro h
    split_ifs at h
    constructor <;> omega
  · rintro ⟨hcount, hsides_pos, hsides_le, hle⟩
    split_ifs <;> first | rfl | omega

theorem accept_of_problem? {before : UInt32} (h : p.problem? limits before.toNat = some problem) :
    p.accept limits before = .error problem := by
  unfold problem? at h
  by_cases hcount : 2 ^ 32 ≤ Text.toNat p.count
  · rw [if_pos hcount] at h
    obtain rfl := Option.some.inj h
    rw [accept, dice, Text.toWord?_of_le hcount]
    rfl
  rw [if_neg hcount] at h
  obtain ⟨count, hcount_eq⟩ := Text.exists_word (Nat.not_le.mp hcount)
  by_cases hsides : 2 ^ 32 ≤ Text.toNat p.sides
  · rw [if_pos hsides] at h
    obtain rfl := Option.some.inj h
    rw [accept, dice, Text.toWord?_eq_some_iff.mpr hcount_eq, Text.toWord?_of_le hsides]
    rfl
  rw [if_neg hsides] at h
  obtain ⟨sides, hsides_eq⟩ := Text.exists_word (Nat.not_le.mp hsides)
  have hdice : p.dice limits = .ok ⟨count, sides⟩ := dice_eq_ok_iff.mpr ⟨hcount_eq, hsides_eq⟩
  rw [accept, hdice, Except.ok_bind, Dice.check_eq]
  dsimp only
  rw [hcount_eq, hsides_eq]
  split_ifs at h ⊢ <;> cases h <;> rfl

theorem accept_eq_error_iff {before : UInt32} :
    p.accept limits before = .error problem ↔ p.problem? limits before.toNat = some problem := by
  refine ⟨fun h => ?_, accept_of_problem?⟩
  cases hp : p.problem? limits before.toNat with
  | some problem' =>
    rw [Except.error.inj ((accept_of_problem? hp).symm.trans h)]
  | none =>
    obtain ⟨dice, hdice⟩ := exists_accept_iff.mpr (problem?_eq_none_iff.mp hp)
    cases hdice.symm.trans h

end Pattern

namespace Segment

variable {limits : Limits}

theorem keep_iff {before : Nat} {segs : List (Segment Pattern)}
    (hbefore : before ≤ limits.maxDice.toNat) : Keep limits before segs ↔
      (∀ p, .dice p ∈ segs → 1 ≤ Text.toNat p.count ∧ 1 ≤ Text.toNat p.sides ∧
        Text.toNat p.sides ≤ limits.maxSides.toNat) ∧
      before + (segs.map count).sum ≤ limits.maxDice.toNat := by
  induction segs generalizing before with
  | nil => exact iff_of_true keep_nil ⟨by simp, hbefore⟩
  | cons segment segs ih =>
    cases segment with
    | text t => simpa [keep_text, count] using ih hbefore
    | dice p =>
      rw [keep_dice, List.map_cons, List.sum_cons, count, ← Nat.add_assoc]
      simp only [List.mem_cons, Segment.dice.injEq, forall_eq_or_imp]
      constructor
      · rintro ⟨hp, hsegs⟩
        obtain ⟨hall, hsum⟩ := (ih hp.count_le).mp hsegs
        exact ⟨⟨⟨hp.count_pos, hp.sides_pos, hp.sides_le⟩, hall⟩, hsum⟩
      · rintro ⟨⟨⟨hcount, hsides, hle⟩, hall⟩, hsum⟩
        have hp : before + Text.toNat p.count ≤ limits.maxDice.toNat := by omega
        exact ⟨⟨hcount, hsides, hle, hp⟩, (ih hp).mpr ⟨hall, hsum⟩⟩

theorem keep_or (limits : Limits) (before : Nat) (segs : List (Segment Pattern)) :
    Keep limits before segs ∨ ∃ l p l' problem, segs = l ++ .dice p :: l' ∧
      Keep limits before l ∧ p.problem? limits (before + (l.map count).sum) = some problem := by
  induction segs generalizing before with
  | nil => exact .inl keep_nil
  | cons segment segs ih =>
    cases segment with
    | text t =>
      rcases ih before with hkeep | ⟨l, p, l', problem, rfl, hl, hp⟩
      · exact .inl (keep_text.mpr hkeep)
      · refine .inr ⟨.text t :: l, p, l', problem, rfl, keep_text.mpr hl, ?_⟩
        simpa [count] using hp
    | dice p =>
      cases hproblem : p.problem? limits before with
      | some problem => exact .inr ⟨[], p, segs, problem, rfl, keep_nil, hproblem⟩
      | none =>
        have hp := Pattern.problem?_eq_none_iff.mp hproblem
        rcases ih (before + Text.toNat p.count) with hkeep | ⟨l, q, l', problem, rfl, hl, hq⟩
        · exact .inl (keep_dice.mpr ⟨hp, hkeep⟩)
        · refine .inr ⟨.dice p :: l, q, l', problem, rfl, keep_dice.mpr ⟨hp, hl⟩, ?_⟩
          simpa [count, Nat.add_assoc] using hq

end Segment

structure Text.Within (limits : Limits) (t : Text) : Prop where
  size : t.size ≤ limits.maxLength.toNat
  depth : t.Shallow limits.maxDepth.toNat
  patterns : ∀ p, .dice p ∈ segments t → 1 ≤ toNat p.count ∧ 1 ≤ toNat p.sides ∧
    toNat p.sides ≤ limits.maxSides.toNat
  total : ((segments t).map Segment.count).sum ≤ limits.maxDice.toNat

/-- The first bound that an expression breaks. -/
inductive Text.Refused (limits : Limits) (t : Text) : Error → Prop
  | tooLong : limits.maxLength.toNat < t.size →
      Refused limits t (.tooLong t.size limits.maxLength.toNat)
  | tooDeep {u v} : t.size ≤ limits.maxLength.toNat → t = u ++ '(' :: v →
      u.Shallow limits.maxDepth.toNat → limits.maxDepth.toNat < (u ++ ['(']).depth →
      Refused limits t (.tooDeep (.byteAt u.size) limits.maxDepth.toNat)
  | invalidDice {l p l' problem} : t.size ≤ limits.maxLength.toNat →
      t.Shallow limits.maxDepth.toNat → segments t = l ++ .dice p :: l' →
      Segment.Keep limits 0 l → p.problem? limits (l.map Segment.count).sum = some problem →
      Refused limits t (.invalidDice p.text
        ⟨(Segment.source l).size, (Segment.source l).size + p.text.size⟩ problem)

variable {limits : Limits} {t : Text} {error : Error}

theorem Text.keeps_iff_within : t.Keeps limits ↔ t.Within limits := by
  have hkeep : Segment.Keep limits 0 (segments t) ↔ _ :=
    Segment.keep_iff (Nat.zero_le limits.maxDice.toNat)
  rw [Nat.zero_add] at hkeep
  constructor
  · rintro ⟨hsize, hdepth, hsegs⟩
    obtain ⟨hall, hsum⟩ := hkeep.mp hsegs
    exact ⟨hsize, checkDepth_eq_ok_iff.mp hdepth, hall, hsum⟩
  · rintro ⟨hsize, hdepth, hall, hsum⟩
    exact ⟨hsize, checkDepth_eq_ok_iff.mpr hdepth, hkeep.mpr ⟨hall, hsum⟩⟩

namespace Expansion

/-- Past patterns that keep the bounds, the word that counts dice is their number. -/
theorem accept_append {before : UInt32} {l : List (Segment Pattern)}
    (hbefore : before.toNat ≤ limits.maxDice.toNat) (h : Segment.Keep limits before.toNat l)
    (pos : Nat) (l' : List (Segment Pattern)) : ∃ accepted word,
      word.toNat = before.toNat + (l.map Segment.count).sum ∧
      word.toNat ≤ limits.maxDice.toNat ∧
      accept limits before pos (l ++ l') =
        (accept limits word (pos + (Segment.source l).size) l').map (accepted ++ ·) := by
  induction l generalizing before pos with
  | nil =>
    refine ⟨[], before, rfl, hbefore, ?_⟩
    cases haccept : accept limits before pos l' <;> simp [Segment.source, haccept]
  | cons segment l ih =>
    cases segment with
    | text t =>
      obtain ⟨accepted, word, hword, hle, haccept⟩ :=
        ih hbefore (Segment.keep_text.mp h) (pos + t.size)
      refine ⟨.text t :: accepted, word, ?_, hle, ?_⟩
      · simpa [Segment.count] using hword
      · rw [List.cons_append, accept, haccept, Segment.source_cons, Segment.write,
          Text.size_append, ← Nat.add_assoc]
        cases accept limits word (pos + t.size + (Segment.source l).size) l' <;> rfl
    | dice p =>
      obtain ⟨hp, hl⟩ := Segment.keep_dice.mp h
      obtain ⟨d, hd⟩ := Pattern.exists_accept_iff.mpr hp
      obtain ⟨hcount, _⟩ := Pattern.dice_eq_ok_iff.mp (Pattern.accept_eq_ok_iff.mp hd).1
      have hcount_le := hp.count_le
      -- the sum is within a bound that is a word itself, so the words do not wrap
      have hadd : (before + d.count).toNat = before.toNat + Text.toNat p.count := by
        have := limits.maxDice.toNat_lt
        rw [UInt32.toNat_add, hcount]
        omega
      rw [← hadd] at hl hcount_le
      obtain ⟨accepted, word, hword, hle, haccept⟩ := ih hcount_le hl (pos + p.text.size)
      refine ⟨.dice d :: accepted, word, ?_, hle, ?_⟩
      · rw [hword, hadd, List.map_cons, List.sum_cons, Segment.count, Nat.add_assoc]
      · rw [List.cons_append, accept, hd]
        simp only [haccept]
        rw [Segment.source_cons, Segment.write, Text.size_append, ← Nat.add_assoc]
        cases accept limits word (pos + p.text.size + (Segment.source l).size) l' <;> rfl

theorem accept_of_problem? {l l' : List (Segment Pattern)} {p : Pattern} {problem : DiceProblem}
    (h : Segment.Keep limits 0 l)
    (hp : p.problem? limits (l.map Segment.count).sum = some problem) :
    accept limits 0 0 (l ++ .dice p :: l') = .error (.invalidDice p.text
      ⟨(Segment.source l).size, (Segment.source l).size + p.text.size⟩ problem) := by
  have hzero : (0 : UInt32).toNat ≤ limits.maxDice.toNat := Nat.zero_le _
  obtain ⟨accepted, word, hword, _, haccept⟩ := accept_append hzero h 0 (.dice p :: l')
  have hword_eq : word.toNat = (l.map Segment.count).sum := hword.trans (Nat.zero_add _)
  rw [← hword_eq] at hp
  rw [haccept, accept, Pattern.accept_eq_error_iff.mpr hp, Nat.zero_add]
  rfl

theorem prepare_eq_error_iff : prepare limits t = .error error ↔ t.Refused limits error := by
  constructor
  · intro h
    by_cases hlong : limits.maxLength.toNat < t.size
    · rw [prepare_of_long hlong] at h
      obtain rfl := Except.error.inj h
      exact .tooLong hlong
    have hsize := Nat.not_lt.mp hlong
    rw [prepare_of_short hlong] at h
    rcases Except.bind_eq_error_iff.mp h with hdepth | ⟨_, hdepth, haccept⟩
    · obtain ⟨u, v, ht, hu, hdeep, rfl⟩ := checkDepth_eq_error_iff.mp hdepth
      exact .tooDeep hsize ht hu hdeep
    have hshallow := checkDepth_eq_ok_iff.mp hdepth
    rcases Segment.keep_or limits 0 (segments t) with hkeep | ⟨l, p, l', problem, hsegs, hl, hp⟩
    · have hzero : (0 : UInt32).toNat ≤ limits.maxDice.toNat := Nat.zero_le _
      obtain ⟨accepted, hok⟩ := (exists_accept_iff 0 hzero).mpr hkeep
      cases hok.symm.trans haccept
    · rw [Nat.zero_add] at hp
      rw [hsegs, accept_of_problem? hl hp] at haccept
      obtain rfl := Except.error.inj haccept
      exact .invalidDice hsize hshallow hsegs hl hp
  · intro h
    cases h with
    | tooLong hlong => exact prepare_of_long hlong
    | tooDeep hsize ht hu hdeep =>
      rw [prepare_of_short (Nat.not_lt.mpr hsize),
        checkDepth_eq_error_iff.mpr ⟨_, _, ht, hu, hdeep, rfl⟩, Except.error_bind]
    | invalidDice hsize hshallow hsegs hl hp =>
      rw [prepare_of_short (Nat.not_lt.mpr hsize), checkDepth_eq_ok_iff.mpr hshallow,
        Except.ok_bind, hsegs, accept_of_problem? hl hp]

theorem exists_outcome_iff {values? : Option (List UInt32)} :
    (∃ x, outcome limits t values? = .ok x) ↔ t.Within limits ∧ values?.isSome := by
  rw [← Text.keeps_iff_within, ← exists_prepare_iff]
  unfold outcome
  cases prepare limits t <;> cases values? <;> simp

end Expansion

section Expand

variable {σ : Type} {r : Roller σ} {s s' : σ}

theorem exists_expand_iff : (∃ x, (expand r limits t s).1 = .ok x) ↔
    t.Within limits ∧ (r.draw t.demand s).1.isSome := by
  rw [expand_eq_draw, Prod.map_fst, Expansion.exists_outcome_iff]
  refine and_congr_right fun hwithin => ?_
  rw [Text.demandWithin, if_pos (Text.keeps_iff_within.mpr hwithin)]

theorem expand_eq_rejected_iff :
    expand r limits t s = (.error (.rejected error), s') ↔ t.Refused limits error ∧ s' = s := by
  rw [← Expansion.prepare_eq_error_iff]
  unfold expand
  constructor
  · intro h
    split at h
    · next hp =>
      obtain ⟨herror, rfl⟩ := Prod.mk.inj h
      obtain rfl := Failure.rejected.inj (Except.error.inj herror)
      exact ⟨hp, rfl⟩
    · split at h <;> cases h
  · rintro ⟨hp, rfl⟩
    rw [hp]

end Expand

/-- A roller with enough values expands exactly the expressions within all bounds; others are
refused for the first bound that they break. -/
theorem expand_refuses_first {σ : Type} (r : Roller σ) (limits : Limits) (t : Text) (s : σ) :
    ((∃ x, (expand r limits t s).1 = .ok x) ↔ t.Within limits ∧ (r.draw t.demand s).1.isSome) ∧
    ((∃ error, t.Refused limits error) ↔ ¬ t.Within limits) ∧
    (∀ error s', expand r limits t s = (.error (.rejected error), s') ↔
      t.Refused limits error ∧ s' = s) ∧
    ∀ l l', segments t = l ++ l' → Segment.Keep limits 0 l →
      (l.map Segment.count).sum ≤ limits.maxDice.toNat ∧
      ∃ accepted, Expansion.accept limits 0 0 (segments t) =
        (Expansion.accept limits (.ofNat (l.map Segment.count).sum) (Segment.source l).size l').map
          (accepted ++ ·) := by
  refine ⟨exists_expand_iff, ?_, fun _ _ => expand_eq_rejected_iff, ?_⟩
  · simp only [← Expansion.prepare_eq_error_iff, Expansion.exists_prepare_error_iff,
      Text.keeps_iff_within]
  · intro l l' hsegs hl
    have hzero : (0 : UInt32).toNat ≤ limits.maxDice.toNat := Nat.zero_le _
    obtain ⟨accepted, word, hword, hle, haccept⟩ := Expansion.accept_append hzero hl 0 l'
    have hsum : word.toNat = (l.map Segment.count).sum := hword.trans (Nat.zero_add _)
    rw [← hsum, UInt32.ofNat_toNat, hsegs, haccept, Nat.zero_add]
    exact ⟨hle, accepted, rfl⟩

theorem expand_refuses_first_full :
    expand .generator .unlimited "4294967293d1+0002d6+1d6".toList 7 =
      (.error (.rejected (.invalidDice "1d6".toList ⟨20, 23⟩ (.tooManyDice 0xffffffff))), 7) ∧
    Text.Refused .unlimited "4294967293d1+0002d6+1d6".toList
      (.invalidDice "1d6".toList ⟨20, 23⟩ (.tooManyDice 0xffffffff)) ∧
    ¬ Text.Within .unlimited "4294967293d1+0002d6+1d6".toList ∧
    ∃ accepted, Expansion.accept .unlimited 0 0 (segments "4294967293d1+0002d6+1d6".toList) =
      (Expansion.accept .unlimited 4294967295 19 [.text "+".toList,
        .dice ⟨"1".toList, "6".toList⟩]).map (accepted ++ ·) := by
  have hexpand : expand .generator .unlimited "4294967293d1+0002d6+1d6".toList 7 =
      (.error (.rejected (.invalidDice "1d6".toList ⟨20, 23⟩ (.tooManyDice 0xffffffff))), 7) := by
    decide +kernel
  have hsegs : segments "4294967293d1+0002d6+1d6".toList =
      [.dice ⟨"4294967293".toList, "1".toList⟩, .text "+".toList,
        .dice ⟨"0002".toList, "6".toList⟩] ++
      [.text "+".toList, .dice ⟨"1".toList, "6".toList⟩] := by
    decide +kernel
  have hkeep : Segment.Keep .unlimited 0 [.dice ⟨"4294967293".toList, "1".toList⟩,
      .text "+".toList, .dice ⟨"0002".toList, "6".toList⟩] := by
    rw [Segment.keep_dice, Segment.keep_text, Segment.keep_dice]
    exact ⟨by constructor <;> decide, by constructor <;> decide, Segment.keep_nil⟩
  obtain ⟨_, hwithin, hrejected, hword⟩ :=
    expand_refuses_first .generator .unlimited "4294967293d1+0002d6+1d6".toList 7
  have hrefused := ((hrejected _ _).mp hexpand).1
  exact ⟨hexpand, hrefused, hwithin.mp ⟨_, hrefused⟩, (hword _ _ hsegs hkeep).2⟩

end DiceArith
