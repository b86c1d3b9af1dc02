import DiceArith.Evaluation
import DiceArith.Proofs.Acceptance

/-! # Drawing

Which dice an expression rolls is settled before the first of them is rolled. They are drawn from
the roller one after the other, and all that the roller adds to an answer are the values it shows.
-/

namespace DiceArith

def Dice.demand (dice : Dice) : List UInt32 := List.replicate dice.count.toNat dice.sides

def Pattern.demand (p : Pattern) : List UInt32 :=
  List.replicate (Text.toNat p.count) (.ofNat (Text.toNat p.sides))

namespace Segment

variable {δ β : Type}

def collect (f : δ → List β) : Segment δ → List β
  | text _ => []
  | dice d => f d

theorem flatMap_collect (f : δ → List β) (segs : List (Segment δ)) :
    segs.flatMap (collect f) = (segs.filterMap dice?).flatMap f := by
  induction segs with
  | nil => rfl
  | cons segment segs ih =>
    rw [List.flatMap_cons, ih]
    cases segment <;> rfl

def demand (segs : List (Segment Dice)) : List UInt32 := segs.flatMap (collect Dice.demand)

/-- Hands the values of all dice out to the sets of dice. -/
def fill : List (Segment Dice) → List UInt32 → List (Segment Rolled)
  | [], _ => []
  | .text t :: segs, values => .text t :: fill segs values
  | .dice d :: segs, values =>
    .dice ⟨d, values.take d.count.toNat⟩ :: fill segs (values.drop d.count.toNat)

theorem demand_text {t : Text} {segs : List (Segment Dice)} :
    demand (.text t :: segs) = demand segs := rfl

theorem demand_dice {d : Dice} {segs : List (Segment Dice)} :
    demand (.dice d :: segs) = d.demand ++ demand segs := rfl

theorem fill_dice_append {d : Dice} {values more : List UInt32}
    (h : values.length = d.count.toNat) (segs : List (Segment Dice)) :
    fill (.dice d :: segs) (values ++ more) = .dice ⟨d, values⟩ :: fill segs more := by
  rw [fill, List.take_left' h, List.drop_left' h]

theorem flatMap_fill {segs : List (Segment Dice)} {values : List UInt32}
    (h : values.length = (demand segs).length) :
    (fill segs values).flatMap (collect Rolled.values) = values := by
  induction segs generalizing values with
  | nil => exact (List.eq_nil_of_length_eq_zero h).symm
  | cons segment segs ih =>
    cases segment with
    | text t => exact ih h
    | dice d =>
      have hlength : (values.drop d.count.toNat).length = (demand segs).length := by
        rw [demand_dice, List.length_append, Dice.demand, List.length_replicate] at h
        rw [List.length_drop]
        omega
      rw [fill, List.flatMap_cons, ih hlength]
      exact List.take_append_drop _ _

end Segment

def Text.demand (t : Text) : List UInt32 := (segments t).flatMap (Segment.collect Pattern.demand)

theorem Pattern.demand_of_accept {limits : Limits} {before : UInt32} {p : Pattern} {d : Dice}
    (h : p.accept limits before = .ok d) : d.demand = p.demand := by
  obtain ⟨hcount, hsides⟩ := dice_eq_ok_iff.mp (accept_eq_ok_iff.mp h).1
  rw [Dice.demand, demand, ← hcount, ← hsides, UInt32.ofNat_toNat]

theorem Segment.demand_of_accepted {limits : Limits} {segs : List (Segment Pattern)}
    {accepted : List (Segment Dice)} (h : List.Forall₂ (Accepted limits) segs accepted) :
    demand accepted = segs.flatMap (collect Pattern.demand) := by
  induction h with
  | nil => rfl
  | cons hab _ ih =>
    cases hab with
    | text t => exact ih
    | dice hp => rw [demand_dice, ih, Pattern.demand_of_accept hp, List.flatMap_cons, collect]

namespace Roller

variable {σ : Type} {r : Roller σ} {s s' : σ} {sides value : UInt32} {values xs : List UInt32}

theorem draw_cons_of_none (h : r.rollDie sides s = (none, s')) (xs : List UInt32) :
    r.draw (sides :: xs) s = (none, s') := by
  rw [draw, h]

theorem draw_cons_of_some (h : r.rollDie sides s = (some value, s')) (xs : List UInt32) :
    r.draw (sides :: xs) s = (r.draw xs s').map (Option.map (value :: ·)) id := by
  rw [draw, h]
  dsimp only
  cases r.draw xs s' with
  | mk values? s₁ => cases values? <;> rfl

theorem of_draw_cons_none (h : r.draw (sides :: xs) s = (none, s')) :
    r.rollDie sides s = (none, s') ∨
      ∃ value s₁, r.rollDie sides s = (some value, s₁) ∧ r.draw xs s₁ = (none, s') := by
  unfold draw at h
  split at h
  · next hdie =>
    obtain rfl := (Prod.mk.inj h).2
    exact .inl hdie
  · next value s₁ hdie =>
    split at h
    · next hrest =>
      obtain rfl := (Prod.mk.inj h).2
      exact .inr ⟨value, s₁, hdie, hrest⟩
    · cases h

theorem of_draw_cons_some (h : r.draw (sides :: xs) s = (some values, s')) :
    ∃ value s₁ rest, r.rollDie sides s = (some value, s₁) ∧ r.draw xs s₁ = (some rest, s') ∧
      values = value :: rest := by
  unfold draw at h
  split at h
  · cases h
  · next value s₁ hdie =>
    split at h
    · cases h
    · next rest s₂ hrest =>
      obtain ⟨hvalues, rfl⟩ := Prod.mk.inj h
      exact ⟨value, s₁, rest, hdie, hrest, (Option.some.inj hvalues).symm⟩

theorem draw_append_of_none (h : r.draw xs s = (none, s')) (ys : List UInt32) :
    r.draw (xs ++ ys) s = (none, s') := by
  induction xs generalizing s with
  | nil => cases h
  | cons sides xs ih =>
    rw [List.cons_append]
    rcases of_draw_cons_none h with hdie | ⟨value, s₁, hdie, hrest⟩
    · exact draw_cons_of_none hdie _
    · rw [draw_cons_of_some hdie, ih hrest]
      rfl

theorem draw_append_of_some (h : r.draw xs s = (some values, s')) (ys : List UInt32) :
    r.draw (xs ++ ys) s = (r.draw ys s').map (Option.map (values ++ ·)) id := by
  induction xs generalizing s values with
  | nil =>
    obtain ⟨hvalues, rfl⟩ := Prod.mk.inj h
    obtain rfl := Option.some.inj hvalues
    simp
  | cons sides xs ih =>
    obtain ⟨value, s₁, rest, hdie, hrest, rfl⟩ := of_draw_cons_some h
    rw [List.cons_append, draw_cons_of_some hdie, ih hrest, Prod.map_map, Option.map_comp_map]
    rfl

theorem roll_eq_draw (dice : Dice) (s : σ) :
    r.roll dice s = (r.draw dice.demand s).map (Option.map (Rolled.mk dice)) id := by
  rw [roll, Dice.demand]
  cases r.draw (List.replicate dice.count.toNat dice.sides) s with
  | mk values? s' => cases values? <;> rfl

/-- Rolling an expression is drawing its dice and handing the values out. -/
theorem rollSegments_eq_draw (segs : List (Segment Dice)) (s : σ) :
    r.rollSegments segs s =
      (r.draw (Segment.demand segs) s).map (Option.map (Segment.fill segs)) id := by
  induction segs generalizing s with
  | nil => rfl
  | cons segment segs ih =>
    cases segment with
    | text t =>
      rw [rollSegments, ih, Segment.demand_text]
      cases r.draw (Segment.demand segs) s with
      | mk values? s' => cases values? <;> rfl
    | dice d =>
      rw [rollSegments, roll_eq_draw, Segment.demand_dice]
      cases hdice : r.draw d.demand s with
      | mk values? s₁ =>
        cases values? with
        | none => rw [draw_append_of_none hdice]; rfl
        | some values =>
          have hlength : values.length = d.count.toNat := by
            rw [length_of_draw hdice, Dice.demand, List.length_replicate]
          rw [draw_append_of_some hdice]
          simp only [Prod.map_apply, Option.map_some, id_eq, ih]
          cases r.draw (Segment.demand segs) s₁ with
          | mk more? s₂ =>
            cases more? with
            | none => rfl
            | some more => simp [Segment.fill_dice_append hlength]

end Roller

/-- The sides of the dice that are rolled; a text that breaks a bound rolls none. -/
def Text.demandWithin (limits : Limits) (t : Text) : List UInt32 :=
  if t.Keeps limits then t.demand else []

namespace Expansion

variable {α : Type} {limits : Limits} {t : Text} {values? : Option (List UInt32)}

def outcome (limits : Limits) (t : Text) (values? : Option (List UInt32)) :
    Except Failure Expansion :=
  match prepare limits t, values? with
  | .error error, _ => .error (.rejected error)
  | .ok _, none => .error .exhausted
  | .ok accepted, some values => .ok (.ofSegments (Segment.fill accepted values))

def calculated (A : Arithmetic α) (limits : Limits) (x : Expansion) :
    Except Failure (Evaluation α) :=
  match calculateWithin A limits.forExpanded x.text with
  | .error error => .error (.rejected error)
  | .ok result => .ok ⟨x.text, result, x.rolls⟩

theorem demand_of_prepare {accepted : List (Segment Dice)} (h : prepare limits t = .ok accepted) :
    Segment.demand accepted = t.demandWithin limits := by
  obtain ⟨_, _, haccept⟩ := prepare_eq_ok_iff.mp h
  rw [Text.demandWithin, if_pos (exists_prepare_iff.mp ⟨accepted, h⟩), Text.demand]
  exact Segment.demand_of_accepted (accepted_of_accept haccept)

theorem demandWithin_of_prepare_error {error : Error} (h : prepare limits t = .error error) :
    t.demandWithin limits = [] :=
  if_neg (exists_prepare_error_iff.mp ⟨error, h⟩)

theorem outcome_eq_exhausted_iff :
    outcome limits t values? = .error .exhausted ↔ t.Keeps limits ∧ values? = none := by
  rw [← exists_prepare_iff]
  unfold outcome
  cases prepare limits t <;> cases values? <;> simp

theorem outcome_eq_rejected_iff {error : Error} :
    outcome limits t values? = .error (.rejected error) ↔ prepare limits t = .error error := by
  unfold outcome
  cases prepare limits t <;> cases values? <;> simp

theorem values_of_outcome {values : List UInt32} {x : Expansion}
    (hlength : values.length = (t.demandWithin limits).length)
    (h : outcome limits t (some values) = .ok x) : x.rolls.flatMap Rolled.values = values := by
  unfold outcome at h
  split at h
  · cases h
  · next hvalues => cases hvalues
  · next accepted _ hp hvalues =>
    obtain rfl := Except.ok.inj h
    obtain rfl := Option.some.inj hvalues
    rw [← demand_of_prepare hp] at hlength
    rw [ofSegments, ← Segment.flatMap_collect]
    exact Segment.flatMap_fill hlength

theorem calculated_ne_exhausted {A : Arithmetic α} {x : Expansion} :
    calculated A limits x ≠ .error .exhausted := by
  unfold calculated
  split <;> simp

theorem rolls_of_calculated {A : Arithmetic α} {x : Expansion} {ev : Evaluation α}
    (h : calculated A limits x = .ok ev) : ev.rolls = x.rolls := by
  unfold calculated at h
  split at h
  · cases h
  · obtain rfl := Except.ok.inj h
    rfl

theorem bind_calculated_eq_exhausted_iff {A : Arithmetic α} {x? : Except Failure Expansion} :
    x?.bind (calculated A limits) = .error .exhausted ↔ x? = .error .exhausted := by
  cases x? with
  | error failure => simp [Except.bind]
  | ok x => simp [Except.bind, calculated_ne_exhausted]

end Expansion

section Draws

variable {α σ : Type} (r : Roller σ) (limits : Limits) (t : Text) (s : σ)

/-- The dice of the text are drawn, and only their values matter for the outcome. -/
theorem expand_eq_draw : expand r limits t s =
    (r.draw (t.demandWithin limits) s).map (Expansion.outcome limits t) id := by
  unfold expand
  split
  · next error hp =>
    rw [Expansion.demandWithin_of_prepare_error hp, Roller.draw]
    simp [Expansion.outcome, hp]
  · next accepted hp =>
    rw [Roller.rollSegments_eq_draw, Expansion.demand_of_prepare hp]
    cases r.draw (t.demandWithin limits) s with
    | mk values? s' => cases values? <;> simp [Expansion.outcome, hp]

theorem evaluate_eq_expand (A : Arithmetic α) : evaluate A r limits t s =
    (expand r limits t s).map (fun x? => x?.bind (Expansion.calculated A limits)) id := by
  rw [evaluate]
  cases expand r limits t s with
  | mk x? s' =>
    cases x? with
    | error failure => rfl
    | ok x =>
      simp only [Prod.map_apply, Except.bind, Expansion.calculated, id_eq]
      cases calculateWithin A limits.forExpanded x.text <;> rfl

end Draws

end DiceArith
