import DiceArith.Proofs.Segmentation
import DiceArith.Proofs.UniqueReading

/-! # Splicing rolls into a text

An expansion is its expression with a sum in place of each pattern, and its record is those sums in
their order. The record adds nothing: two expansions of one expression that are written alike have
the same record.
-/

namespace DiceArith

/-- Dice as the digits of a pattern denote them, with a value for each. -/
structure Pattern.RolledAs (p : Pattern) (rolled : Rolled) : Prop where
  count : rolled.dice.count.toNat = Text.toNat p.count
  sides : rolled.dice.sides.toNat = Text.toNat p.sides
  length : rolled.values.length = Text.toNat p.count
  one_le : 1 ≤ Text.toNat p.count

/-- Text is copied, and each pattern is replaced by the sum of the next values. -/
inductive Segment.Splices : List (Segment Pattern) → List Rolled → Text → Prop
  | nil : Splices [] [] []
  | text {t segs rolls u} : Splices segs rolls u → Splices (.text t :: segs) rolls (t ++ u)
  | dice {p rolled segs rolls u} : p.RolledAs rolled → Splices segs rolls u →
      Splices (.dice p :: segs) (rolled :: rolls)
        ('(' :: [' ', '+', ' '].intercalate (rolled.values.map fun v => Text.ofNat v.toNat) ++
          ')' :: u)

variable {limits : Limits}

theorem Pattern.Rolls.rolledAs {p : Pattern} {rolled : Rolled} (h : p.Rolls limits rolled) :
    p.RolledAs rolled := by
  obtain ⟨_, hp⟩ := h.accepted
  obtain ⟨hcount, hsides⟩ := dice_eq_ok_iff.mp (accept_eq_ok_iff.mp hp).1
  exact ⟨hcount, hsides, h.length_values.trans hcount, (keeps_of_accept hp).count_pos⟩

theorem Segment.Expands.splices {segs : List (Segment Pattern)} {l : List (Segment Rolled)}
    (h : List.Forall₂ (Expands limits) segs l) :
    Splices segs (l.filterMap dice?) (l.flatMap (write Rolled.text)) := by
  induction h with
  | nil => exact .nil
  | cons hab _ ih =>
    cases hab with
    | text t => exact .text ih
    | @dice p rolled hrolls =>
      have hsplice := Splices.dice hrolls.rolledAs ih
      rw [List.flatMap_cons, write, Rolled.text, Rolled.numerals, List.append_assoc]
      exact hsplice

theorem Expansion.Of.splices {t : Text} {x : Expansion} {l : List (Segment Rolled)}
    (h : Of limits t x l) : Segment.Splices (segments t) x.rolls x.text := by
  obtain ⟨rfl, _, _, hexp, _⟩ := h
  exact Segment.Expands.splices hexp

/-- An expansion is its expression with the values in place of the patterns, and they can be read
back. -/
theorem expand_splices (t : Text) :
    Segment.source (segments t) = t ∧
    (∀ (σ : Type) (r : Roller σ) (limits : Limits) (s : σ) (x : Expansion),
      (expand r limits t s).1 = .ok x → Segment.Splices (segments t) x.rolls x.text) ∧
    ∀ (σ σ' : Type) (r : Roller σ) (r' : Roller σ') (limits limits' : Limits) (s : σ) (s' : σ')
      (x x' : Expansion), (expand r limits t s).1 = .ok x → (expand r' limits' t s').1 = .ok x' →
      x.text = x'.text → x.rolls = x'.rolls := by
  have hof : ∀ {σ : Type} {r : Roller σ} {limits : Limits} {s : σ} {x : Expansion},
      (expand r limits t s).1 = .ok x → ∃ l, Expansion.Of limits t x l :=
    fun h => Expansion.of_expand (Prod.ext h rfl)
  refine ⟨Segment.source_segments t, ?_, ?_⟩
  · intro σ r limits s x h
    obtain ⟨l, hl⟩ := hof h
    exact hl.splices
  · intro σ σ' r r' limits limits' s s' x x' h h' htext
    obtain ⟨l, hl⟩ := hof h
    obtain ⟨l', hl'⟩ := hof h'
    rw [hl.eq_of_text hl' htext]

theorem expand_splices_highest :
    (expand .highest .standard "(1 + 02d12 + 3)".toList ()).1 =
      .ok ⟨"(1 + (12 + 12) + 3)".toList, [⟨⟨2, 12⟩, [12, 12]⟩]⟩ ∧
    (expand .sequence ⟨2, 12, 15, 1⟩ "(1 + 02d12 + 3)".toList [12, 12, 5]).1 =
      .ok ⟨"(1 + (12 + 12) + 3)".toList, [⟨⟨2, 12⟩, [12, 12]⟩]⟩ ∧
    Segment.Splices (segments "(1 + 02d12 + 3)".toList) [⟨⟨2, 12⟩, [12, 12]⟩]
      "(1 + (12 + 12) + 3)".toList ∧
    ∀ values x, (expand .sequence ⟨2, 12, 15, 1⟩ "(1 + 02d12 + 3)".toList values).1 = .ok x →
      x.text = "(1 + (12 + 12) + 3)".toList → x.rolls = [⟨⟨2, 12⟩, [12, 12]⟩] := by
  have hexpand : (expand .highest .standard "(1 + 02d12 + 3)".toList ()).1 =
      .ok ⟨"(1 + (12 + 12) + 3)".toList, [⟨⟨2, 12⟩, [12, 12]⟩]⟩ := by decide +kernel
  obtain ⟨_, hsplices, hrolls⟩ := expand_splices "(1 + 02d12 + 3)".toList
  refine ⟨hexpand, by decide +kernel, hsplices _ _ _ _ _ hexpand, fun values x hx htext => ?_⟩
  exact hrolls _ _ _ _ _ _ _ _ _ _ hx hexpand htext

end DiceArith
