import DiceArith.Proofs.Malformed
import DiceArith.Proofs.Replacement
import DiceArith.Proofs.Rolling

/-! # Nesting of expansions

An expansion replaces each pattern by a group, and the bounds leave room for that: one more level
of parentheses, and no bound on length. What remains to be refused are the parentheses that the
expression itself has, at the places where the rolls have moved them.
-/

namespace DiceArith

theorem Pattern.Valid.plain {p : Pattern} (h : p.Valid) : p.text.Plain := by
  have hcount := Text.plain_of_digits h.count_digits
  have hsides := Text.plain_of_digits h.sides_digits
  exact hcount.append (hsides.cons (by decide))

theorem Rolled.plain_terms (values : List UInt32) : (terms values).Plain := by
  intro c hc
  rcases of_mem_terms hc with hdigit | rfl | rfl
  · exact Text.ne_paren_of_isDigit hdigit
  · decide
  · decide

/-- Where a position of an expression is found again in its expansion. -/
def Segment.image : List (Segment Pattern) → List Rolled → Nat → Nat
  | .text t :: segs, rolls => Image.keep t.size (image segs rolls)
  | .dice p :: segs, rolled :: rolls =>
    Image.replace p.text.size rolled.text.size (image segs rolls)
  | _, _ => id

theorem Segment.Expands.replaced {limits : Limits} {segs : List (Segment Pattern)}
    {l : List (Segment Rolled)} (h : List.Forall₂ (Expands limits) segs l)
    (hvalid : ∀ p, .dice p ∈ segs → p.Valid) :
    Replaced (segs.flatMap (write Pattern.text)) (l.flatMap (write Rolled.text))
      (image segs (l.filterMap dice?)) := by
  induction h with
  | nil => exact .nil
  | cons hab _ ih =>
    have hrest := ih fun p hp => hvalid p (List.mem_cons_of_mem _ hp)
    cases hab with
    | text t => exact hrest.text t
    | @dice p rolled =>
      have hplain := (hvalid p List.mem_cons_self).plain
      have hgroup := hrest.group hplain (Rolled.plain_terms rolled.values)
      rw [← Rolled.size_text] at hgroup
      simpa [write, Rolled.text_eq, image, dice?] using hgroup

theorem Expansion.Of.replaced {limits : Limits} {t : Text} {x : Expansion}
    {l : List (Segment Rolled)} (h : Of limits t x l) :
    Replaced t x.text (Segment.image (segments t) x.rolls) := by
  obtain ⟨rfl, _, _, hexp, _⟩ := h
  have hr := Segment.Expands.replaced hexp fun p => Pattern.valid_of_mem_segments
  rwa [flatMap_segments] at hr

/-- What holds in memory, since no allocation has `2 ^ 63` bytes. -/
def Text.Addressable (t : Text) : Prop := t.size < 2 ^ 63

def Unmatched.parenthesis : Unmatched → Char
  | unclosed => '('
  | unopened => ')'

theorem Unmatched.not_plain (side : Unmatched) : ¬ Text.Plain [side.parenthesis] := by
  cases side <;> simp [Text.Plain, parenthesis]

theorem Unmatched.slice?_parenthesis (side : Unmatched) (u v : Text) :
    Text.slice? (.byteAt u.size) (u ++ side.parenthesis :: v) = some [side.parenthesis] := by
  have h := Text.slice?_append u [side.parenthesis] v
  have hsize : Text.size [side.parenthesis] = 1 := by cases side <;> rfl
  rwa [hsize] at h

theorem exists_append_of_groups {t : Text} {pos : Nat} {side : Unmatched}
    (h : groups none t = .error (.unbalanced (.byteAt pos) side)) :
    ∃ u v, t = u ++ side.parenthesis :: v ∧ u.size = pos := by
  obtain ⟨u, c, v, rfl, hf⟩ := faultIn_of_groups h
  rw [Nat.zero_add] at hf
  cases hf with
  | unclosed | unopened => exact ⟨u, v, rfl, rfl⟩

theorem Limits.toNat_maxDepth_forExpanded (limits : Limits) :
    limits.forExpanded.maxDepth.toNat = min (limits.maxDepth.toNat + 1) (2 ^ 64 - 1) := by
  have hlast : lastWord.toNat = 2 ^ 64 - 1 := rfl
  have hlt := limits.maxDepth.toNat_lt
  unfold forExpanded
  dsimp only
  split
  · next h =>
    rw [h]
    rfl
  · next h =>
    have hne : limits.maxDepth.toNat ≠ 2 ^ 64 - 1 := fun h' => h (UInt64.toNat_inj.mp h')
    have hone : (1 : UInt64).toNat = 1 := rfl
    rw [UInt64.toNat_add, hone]
    omega

theorem Limits.maxLength_le_forExpanded (limits : Limits) :
    limits.maxLength.toNat ≤ limits.forExpanded.maxLength.toNat := by
  have hlast : limits.forExpanded.maxLength.toNat = 2 ^ 64 - 1 := rfl
  have hlt := limits.maxLength.toNat_lt
  omega

theorem Limits.maxDepth_le_forExpanded (limits : Limits) :
    limits.maxDepth.toNat ≤ limits.forExpanded.maxDepth.toNat := by
  have hlt := limits.maxDepth.toNat_lt
  rw [toNat_maxDepth_forExpanded]
  omega

section Length

variable {α : Type} {A : Arithmetic α} {limits : Limits} {t : Text}

theorem calculateWithin_of_long (h : limits.maxLength.toNat < t.size) :
    calculateWithin A limits t = .error (.tooLong t.size limits.maxLength.toNat) := if_pos h

theorem calculateWithin_of_short (h : t.size ≤ limits.maxLength.toNat) :
    calculateWithin A limits t = Calculator.value A (some limits.maxDepth.toNat) t :=
  if_neg (Nat.not_lt.mpr h)

end Length

namespace Expansion.Of

variable {limits : Limits} {t : Text} {x : Expansion} {l : List (Segment Rolled)}

theorem size_text_lt (h : Of limits t x l) (ht : t.Addressable) : x.text.size < 2 ^ 64 := by
  have hword : ∀ v : UInt32, v.toNat < 10 ^ 10 := by
    intro v
    have := v.toNat_lt
    omega
  have hsize := h.size_text_le (by decide) fun _ _ v _ => hword v
  have hdice := limits.maxDice.toNat_lt
  unfold Text.Addressable at ht
  omega

/-- The bound leaves room for rolls, as no text is as deep as a word can count. -/
theorem groups_eq (h : Of limits t x l) (ht : t.Addressable) :
    groups (some limits.forExpanded.maxDepth.toNat) x.text = groups none x.text := by
  obtain ⟨m, hm, hcheck⟩ : ∃ m, m < limits.forExpanded.maxDepth.toNat ∧
      checkDepth m t = .ok () := by
    rw [limits.toNat_maxDepth_forExpanded]
    unfold Text.Addressable at ht
    by_cases hmax : limits.maxDepth.toNat < 2 ^ 64 - 1
    · exact ⟨limits.maxDepth.toNat, by omega, h.depth⟩
    · exact ⟨t.size, by omega, Nesting.check_of_size (Nat.zero_add _).le⟩
  exact h.replaced.scan_eq hm (Nat.zero_le _) hcheck

theorem calculateWithin_eq (h : Of limits t x l) (ht : t.Addressable) {α : Type}
    (A : Arithmetic α) : calculateWithin A limits.forExpanded x.text = calculate A x.text := by
  have hlast : limits.forExpanded.maxLength.toNat = 2 ^ 64 - 1 := rfl
  have hlength : x.text.size ≤ limits.forExpanded.maxLength.toNat := by
    have := h.size_text_lt ht
    omega
  rw [calculateWithin_of_short hlength, Calculator.value, h.groups_eq ht]
  rfl

theorem moved (h : Of limits t x l) :
    Moved (Segment.image (segments t) x.rolls) (groups none t) (groups none x.text) :=
  h.replaced.moved (fun h => absurd h (Nat.lt_irrefl 0)) fun k => by simp

end Expansion.Of

/-- An expansion breaks no bound, and its parentheses are unbalanced exactly when those of the
expression are, at the image of the same one. -/
theorem calculateWithin_forExpanded {α σ : Type} (A : Arithmetic α) {r : Roller σ}
    {limits : Limits} {t : Text} {s s' : σ} {x : Expansion} (ht : t.Addressable)
    (h : expand r limits t s = (.ok x, s')) :
    let result := calculateWithin A limits.forExpanded x.text
    let image := Segment.image (segments t) x.rolls
    (∀ size max, result ≠ .error (.tooLong size max)) ∧
    (∀ span max, result ≠ .error (.tooDeep span max)) ∧
    ((∃ span side, result = .error (.unbalanced span side)) ↔ ¬ t.Balanced) ∧
    (∀ span side, result = .error (.unbalanced span side) ↔
      ∃ pos, groups none t = .error (.unbalanced (.byteAt pos) side) ∧
        span = .byteAt (image pos)) ∧
    ∀ pos side, groups none t = .error (.unbalanced (.byteAt pos) side) →
      Text.slice? (.byteAt pos) t = some [side.parenthesis] ∧
        Text.slice? (.byteAt (image pos)) x.text = some [side.parenthesis] := by
  intro result image
  obtain ⟨l, hx⟩ := Expansion.of_expand h
  have hresult : result = calculate A x.text := hx.calculateWithin_eq ht A
  rw [hresult]
  refine ⟨?_, ?_, ?_, ?_, ?_⟩
  · intro size max herror
    rcases calculate_error herror with ⟨_, _, h, _⟩ | h
    · cases h
    · cases h
  · intro span max herror
    rcases calculate_error herror with ⟨_, _, h, _⟩ | h
    · cases h
    · cases h
  · rw [Text.balanced_iff, ← hx.moved.exists_unbalanced_iff]
    simp only [calculate_eq_unbalanced_iff]
  · intro span side
    rw [calculate_eq_unbalanced_iff]
    exact hx.moved.eq_unbalanced_iff
  · intro pos side hg
    obtain ⟨u, v, hu, rfl⟩ := exists_append_of_groups hg
    obtain ⟨u', v', hu', hsize⟩ := hx.replaced.exists_append side.not_plain hu
    refine ⟨hu ▸ side.slice?_parenthesis u v, ?_⟩
    have hslice := side.slice?_parenthesis u' v'
    rwa [hsize, ← hu'] at hslice

/-- All bounds are reached, and the rolls move the parenthesis that is refused. -/
theorem calculateWithin_forExpanded_unopened :
    Text.Addressable "(2d6)) + 1d4".toList ∧
    expand .sequence ⟨3, 6, 12, 1⟩ "(2d6)) + 1d4".toList [3, 5, 1] =
      (.ok ⟨"((3 + 5))) + (1)".toList, [⟨⟨2, 6⟩, [3, 5]⟩, ⟨⟨1, 4⟩, [1]⟩]⟩, []) ∧
    calculateWithin .float (Limits.forExpanded ⟨3, 6, 12, 1⟩) "((3 + 5))) + (1)".toList =
      .error (.unbalanced (.byteAt 9) .unopened) := by
  have hsize : Text.Addressable "(2d6)) + 1d4".toList := by
    unfold Text.Addressable
    decide
  have hexpand : expand .sequence ⟨3, 6, 12, 1⟩ "(2d6)) + 1d4".toList [3, 5, 1] =
      (.ok ⟨"((3 + 5))) + (1)".toList, [⟨⟨2, 6⟩, [3, 5]⟩, ⟨⟨1, 4⟩, [1]⟩]⟩, []) := by
    decide +kernel
  obtain ⟨_, _, _, hunbalanced, _⟩ := calculateWithin_forExpanded .float hsize hexpand
  exact ⟨hsize, hexpand, (hunbalanced _ _).mpr ⟨5, rfl, by decide +kernel⟩⟩

end DiceArith
