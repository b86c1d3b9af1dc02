import DiceArith.Session
import DiceArith.Proofs.Drawing

/-! # The account of a session

Every request rolls a list of dice that is known beforehand, and nothing else. A roller with a
record of its calls shows this, and a roller that reads its values from a list has lost exactly
those that were asked of it.
-/

namespace DiceArith

variable {α σ : Type}

def Request.demand : Request → List UInt32
  | rollDie sides => [sides]
  | roll dice => dice.demand
  | expand limits t | evaluate limits t => t.demandWithin limits

def Request.reply (A : Arithmetic α) (values? : Option (List UInt32)) : Request → Reply α
  | rollDie _ => .ofOption .value (values?.bind List.head?)
  | roll dice => .ofOption .rolled (values?.map (Rolled.mk dice))
  | expand limits t => .ofExcept .expanded (Expansion.outcome limits t values?)
  | evaluate limits t => .ofExcept .evaluated
      ((Expansion.outcome limits t values?).bind (Expansion.calculated A limits))

def Reply.values? : Reply α → Option (List UInt32)
  | value v => some [v]
  | rolled x => some x.values
  | expanded x => some (x.rolls.flatMap Rolled.values)
  | evaluated ev => some (ev.rolls.flatMap Rolled.values)
  | failed _ => none

namespace Reply

theorem ofExcept_eq_failed_iff {β : Type} {f : β → Reply α} (hf : ∀ b failure, f b ≠ failed failure)
    {x? : Except Failure β} {failure : Failure} :
    ofExcept f x? = failed failure ↔ x? = .error failure := by
  cases x? with
  | error e => simp [ofExcept]
  | ok b => simp [ofExcept, hf]

theorem exists_of_values? {β : Type} {f : β → Reply α} {x? : Except Failure β}
    {shown : List UInt32} (h : (ofExcept f x?).values? = some shown) :
    ∃ b, x? = .ok b ∧ (f b).values? = some shown := by
  cases x? with
  | error failure => cases h
  | ok b => exact ⟨b, rfl, h⟩

theorem expanded_eq_exhausted_iff {x? : Except Failure Expansion} :
    (ofExcept expanded x? : Reply α) = failed .exhausted ↔ x? = .error .exhausted :=
  ofExcept_eq_failed_iff (by simp)

theorem evaluated_eq_exhausted_iff {A : Arithmetic α} {limits : Limits}
    {x? : Except Failure Expansion} :
    ofExcept evaluated (x?.bind (Expansion.calculated A limits)) = failed .exhausted ↔
      x? = .error .exhausted :=
  (ofExcept_eq_failed_iff (by simp)).trans Expansion.bind_calculated_eq_exhausted_iff

end Reply

namespace Request

variable {A : Arithmetic α} {request : Request} {values : List UInt32}

theorem reply_none (h : request.demand ≠ []) : request.reply A none = .failed .exhausted := by
  have houtcome : ∀ limits t, t.demandWithin limits ≠ [] →
      Expansion.outcome limits t none = .error .exhausted := by
    intro limits t hne
    refine Expansion.outcome_eq_exhausted_iff.mpr ⟨?_, rfl⟩
    by_contra hkeeps
    exact hne (if_neg hkeeps)
  cases request with
  | rollDie | roll => rfl
  | expand limits t => exact Reply.expanded_eq_exhausted_iff.mpr (houtcome limits t h)
  | evaluate limits t => exact Reply.evaluated_eq_exhausted_iff.mpr (houtcome limits t h)

theorem reply_some_ne_exhausted (h : values.length = request.demand.length) :
    request.reply A (some values) ≠ .failed .exhausted := by
  have houtcome : ∀ limits t, Expansion.outcome limits t (some values) ≠ .error .exhausted := by
    intro limits t h
    exact Option.some_ne_none _ (Expansion.outcome_eq_exhausted_iff.mp h).2
  cases request with
  | rollDie sides =>
    obtain ⟨v, rfl⟩ := List.length_eq_one_iff.mp h
    simp [reply, Reply.ofOption]
  | roll dice => simp [reply, Reply.ofOption]
  | expand limits t => exact mt Reply.expanded_eq_exhausted_iff.mp (houtcome limits t)
  | evaluate limits t => exact mt Reply.evaluated_eq_exhausted_iff.mp (houtcome limits t)

theorem values_of_reply {shown : List UInt32} (hlength : values.length = request.demand.length)
    (h : (request.reply A (some values)).values? = some shown) : shown = values := by
  cases request with
  | rollDie sides =>
    obtain ⟨v, rfl⟩ := List.length_eq_one_iff.mp hlength
    exact (Option.some.inj h).symm
  | roll dice => exact (Option.some.inj h).symm
  | expand limits t =>
    obtain ⟨x, hx, hshown⟩ := Reply.exists_of_values? h
    rw [← Option.some.inj hshown]
    exact Expansion.values_of_outcome hlength hx
  | evaluate limits t =>
    obtain ⟨ev, hev, hshown⟩ := Reply.exists_of_values? h
    obtain ⟨x, hx, hcalculated⟩ := Except.bind_eq_ok_iff.mp hev
    rw [← Option.some.inj hshown, Expansion.rolls_of_calculated hcalculated]
    exact Expansion.values_of_outcome hlength hx

end Request

namespace Roller

variable {r : Roller σ} {s s' : σ} {values xs : List UInt32}

/-- The same roller with a record of the dice that it was asked for. -/
def recorded (r : Roller σ) : Roller (List UInt32 × σ) where
  rollDie sides := fun (record, s) =>
    ((r.rollDie sides s).1, record ++ [sides], (r.rollDie sides s).2)

theorem rollDie_recorded (sides : UInt32) (record : List UInt32) (s : σ) :
    r.recorded.rollDie sides (record, s) =
      ((r.rollDie sides s).1, record ++ [sides], (r.rollDie sides s).2) := rfl

theorem draw_recorded_of_some (h : r.draw xs s = (some values, s')) (record : List UInt32) :
    r.recorded.draw xs (record, s) = (some values, record ++ xs, s') := by
  induction xs generalizing s values record with
  | nil =>
    obtain ⟨hvalues, rfl⟩ := Prod.mk.inj h
    rw [draw, hvalues, List.append_nil]
  | cons sides xs ih =>
    obtain ⟨value, s₁, rest, hdie, hrest, rfl⟩ := of_draw_cons_some h
    have hcall : r.recorded.rollDie sides (record, s) = (some value, record ++ [sides], s₁) := by
      rw [rollDie_recorded, hdie]
    rw [draw_cons_of_some hcall, ih hrest, List.append_assoc]
    rfl

theorem draw_recorded_of_none (h : r.draw xs s = (none, s')) (record : List UInt32) :
    ∃ shown sides rest, xs = shown ++ sides :: rest ∧
      (∃ values s₁, r.draw shown s = (some values, s₁) ∧ r.rollDie sides s₁ = (none, s')) ∧
      r.recorded.draw xs (record, s) = (none, record ++ shown ++ [sides], s') := by
  induction xs generalizing s record with
  | nil => cases h
  | cons sides xs ih =>
    rcases of_draw_cons_none h with hdie | ⟨value, s₁, hdie, hrest⟩
    · have hcall : r.recorded.rollDie sides (record, s) = (none, record ++ [sides], s') := by
        rw [rollDie_recorded, hdie]
      refine ⟨[], sides, xs, rfl, ⟨[], s, rfl, hdie⟩, ?_⟩
      rw [draw_cons_of_none hcall, List.append_nil]
    · have hcall : r.recorded.rollDie sides (record, s) = (some value, record ++ [sides], s₁) := by
        rw [rollDie_recorded, hdie]
      obtain ⟨shown, refused, rest, rfl, ⟨values, s₂, hshown, hrefused⟩, hdraw⟩ :=
        ih hrest (record ++ [sides])
      refine ⟨sides :: shown, refused, rest, rfl, ⟨value :: values, s₂, ?_, hrefused⟩, ?_⟩
      · rw [draw_cons_of_some hdie, hshown]
        rfl
      · rw [draw_cons_of_some hcall, hdraw, List.append_assoc record]
        rfl

theorem draw_recorded (xs : List UInt32) (record : List UInt32) (s : σ) :
    (r.recorded.draw xs (record, s)).1 = (r.draw xs s).1 ∧
      (r.recorded.draw xs (record, s)).2.2 = (r.draw xs s).2 := by
  cases h : r.draw xs s with
  | mk values? s' =>
    cases values? with
    | some values =>
      rw [draw_recorded_of_some h record]
      exact ⟨rfl, rfl⟩
    | none =>
      obtain ⟨_, _, _, _, _, hdraw⟩ := draw_recorded_of_none h record
      rw [hdraw]
      exact ⟨rfl, rfl⟩

theorem draw_sequence_of_le {left : List UInt32} (h : xs.length ≤ left.length) :
    sequence.draw xs left = (some (left.take xs.length), left.drop xs.length) := by
  induction xs generalizing left with
  | nil => rfl
  | cons sides xs ih =>
    cases left with
    | nil => cases h
    | cons value left =>
      have hdie : sequence.rollDie sides (value :: left) = (some value, left) := rfl
      rw [draw_cons_of_some hdie, ih (Nat.le_of_succ_le_succ h)]
      rfl

theorem draw_sequence_of_lt {left : List UInt32} (h : left.length < xs.length) :
    sequence.draw xs left = (none, []) := by
  induction xs generalizing left with
  | nil => cases h
  | cons sides xs ih =>
    cases left with
    | nil => exact draw_cons_of_none rfl xs
    | cons value left =>
      have hdie : sequence.rollDie sides (value :: left) = (some value, left) := rfl
      rw [draw_cons_of_some hdie, ih (Nat.lt_of_succ_lt_succ h)]
      rfl

end Roller

namespace Session

variable {A : Arithmetic α} {r : Roller σ} {request : Request} {s s' : σ}

/-- A request draws its dice, and the reply depends on nothing but their values. -/
theorem step_eq_draw (A : Arithmetic α) (r : Roller σ) (request : Request) (s : σ) :
    step A r request s =
      (r.draw request.demand s).map (request.reply A ·) id := by
  cases request with
  | rollDie sides =>
    rw [step, Request.demand]
    cases hdie : r.rollDie sides s with
    | mk value? s' =>
      cases value? with
      | none =>
        rw [Roller.draw_cons_of_none hdie]
        rfl
      | some value =>
        rw [Roller.draw_cons_of_some hdie]
        rfl
  | roll dice =>
    rw [step, Roller.roll_eq_draw, Request.demand, Prod.map_map]
    rfl
  | expand limits t =>
    rw [step, expand_eq_draw, Request.demand, Prod.map_map]
    rfl
  | evaluate limits t =>
    rw [step, evaluate_eq_expand, expand_eq_draw, Request.demand, Prod.map_map, Prod.map_map]
    rfl

theorem step_of_draw_some {values : List UInt32}
    (h : r.draw request.demand s = (some values, s')) :
    step A r request s = (request.reply A (some values), s') := by
  rw [step_eq_draw, h]
  rfl

theorem step_of_draw_none (h : r.draw request.demand s = (none, s')) :
    step A r request s = (.failed .exhausted, s') := by
  have hne : request.demand ≠ [] := by
    intro hnil
    rw [hnil] at h
    cases h
  rw [step_eq_draw, h, Prod.map_apply, Request.reply_none hne, id_eq]

/-- `P` holds between state, request and answer at every step. -/
inductive Every (P : σ → Request → Reply α × σ → Prop) :
    σ → List Request → List (Reply α × σ) → Prop
  | nil {s : σ} : Every P s [] []
  | cons {s : σ} {request answer requests answers} : P s request answer →
      Every P answer.2 requests answers → Every P s (request :: requests) (answer :: answers)

theorem every_run {P : σ → Request → Reply α × σ → Prop}
    (h : ∀ s request, P s request (step A r request s)) (requests : List Request) (s : σ) :
    Every P s requests (run A r requests s) := by
  induction requests generalizing s with
  | nil => exact .nil
  | cons request requests ih => exact .cons (h s request) (ih _)

/-- One request with a record of the calls, up to a die that is refused. -/
structure Recorded (r : Roller σ) (before : List UInt32 × σ) (request : Request)
    (answer : Reply α × List UInt32 × σ) : Prop where
  all : answer.1 ≠ .failed .exhausted → answer.2.1 = before.1 ++ request.demand
  refused : answer.1 = .failed .exhausted → ∃ shown sides rest,
    request.demand = shown ++ sides :: rest ∧ answer.2.1 = before.1 ++ shown ++ [sides] ∧
    ∃ values s, r.draw shown before.2 = (some values, s) ∧ r.rollDie sides s = (none, answer.2.2)

theorem recorded_step (record : List UInt32) (s : σ) (request : Request) :
    Recorded r (record, s) request (step A r.recorded request (record, s)) := by
  cases h : r.draw request.demand s with
  | mk values? s' =>
    cases values? with
    | some values =>
      rw [step_of_draw_some (Roller.draw_recorded_of_some h record)]
      have hlength := Roller.length_of_draw h
      exact ⟨fun _ => rfl, fun hex => absurd hex (Request.reply_some_ne_exhausted hlength)⟩
    | none =>
      obtain ⟨shown, sides, rest, hdemand, hshown, hdraw⟩ :=
        Roller.draw_recorded_of_none h record
      rw [step_of_draw_none hdraw]
      exact ⟨fun hne => absurd rfl hne, fun _ => ⟨shown, sides, rest, hdemand, rfl, hshown⟩⟩

theorem step_recorded (record : List UInt32) (s : σ) (request : Request) :
    (step A r.recorded request (record, s)).map id Prod.snd = step A r request s := by
  obtain ⟨hvalues, hstate⟩ := Roller.draw_recorded (r := r) request.demand record s
  rw [step_eq_draw, step_eq_draw, Prod.map_map]
  exact Prod.ext (congrArg (request.reply A ·) hvalues) hstate

theorem run_recorded (requests : List Request) (record : List UInt32) (s : σ) :
    (run A r.recorded requests (record, s)).map (Prod.map id Prod.snd) = run A r requests s := by
  induction requests generalizing record s with
  | nil => rfl
  | cons request requests ih =>
    have hstep := step_recorded (A := A) (r := r) record s request
    have hstate : (step A r.recorded request (record, s)).2.2 = (step A r request s).2 :=
      congrArg Prod.snd hstep
    rw [run, run, List.map_cons, hstep, ← hstate, ← ih]

structure Taken (left : List UInt32) (request : Request) (answer : Reply α × List UInt32) :
    Prop where
  state : answer.2 = left.drop request.demand.length
  shown : ∀ values, answer.1.values? = some values → values = left.take request.demand.length
  exhausted_iff : answer.1 = .failed .exhausted ↔ left.length < request.demand.length
  nothing_left : answer.1 = .failed .exhausted → answer.2 = []
  canRoll_iff : Roller.canRoll answer.2 = true ↔ answer.2 ≠ []

theorem canRoll_iff {left : List UInt32} : Roller.canRoll left = true ↔ left ≠ [] := by
  cases left <;> simp [Roller.canRoll]

theorem taken_step (left : List UInt32) (request : Request) :
    Taken left request (step A .sequence request left) := by
  by_cases h : left.length < request.demand.length
  · rw [step_of_draw_none (Roller.draw_sequence_of_lt h)]
    refine ⟨(List.drop_eq_nil_of_le h.le).symm, ?_, iff_of_true rfl h, fun _ => rfl, canRoll_iff⟩
    intro values hvalues
    cases hvalues
  · have hle := Nat.not_lt.mp h
    have hlength : (left.take request.demand.length).length = request.demand.length := by
      rw [List.length_take, Nat.min_eq_left hle]
    have hne := Request.reply_some_ne_exhausted (A := A) hlength
    rw [step_of_draw_some (Roller.draw_sequence_of_le hle)]
    exact ⟨rfl, fun _ => Request.values_of_reply hlength, iff_of_false hne h,
      fun hex => absurd hex hne, canRoll_iff⟩

/-- Every request of a session rolls the dice that it demands; values of a list are used up in
order. -/
theorem account (A : Arithmetic α) :
    (∀ (r : Roller σ) (requests : List Request) (s : σ),
      Every (Recorded r) ([], s) requests (run A r.recorded requests ([], s)) ∧
      (run A r.recorded requests ([], s)).map (Prod.map id Prod.snd) = run A r requests s) ∧
    (∀ (r : Roller σ) (limits : Limits) (t : Text) (s : σ),
      (∃ error, (expand r limits t s).1 = .error (.rejected error)) ↔ ¬ t.Keeps limits) ∧
    ∀ (requests : List Request) (values : List UInt32),
      Every Taken values requests (run A .sequence requests values) := by
  refine ⟨fun r requests s => ⟨?_, ?_⟩, fun r limits t s => ?_, fun requests values => ?_⟩
  · exact every_run (fun before request => recorded_step before.1 before.2 request) requests _
  · exact run_recorded requests [] s
  · rw [← Expansion.exists_prepare_error_iff, expand_eq_draw]
    simp only [Prod.map_fst, Expansion.outcome_eq_rejected_iff]
  · exact every_run taken_step requests values

/-- Dice are used up before a trailing operator is refused, but not before dice without sides. -/
example : (run (.free Empty) .sequence
    [.evaluate .standard "2d6 + 1d4 +".toList, .expand .standard "1d6 + 1d0".toList,
      .rollDie 6, .roll ⟨2, 8⟩] [3, 5, 1, 2, 7]).map Prod.snd = [[2, 7], [2, 7], [7], []] := by
  decide +kernel

end Session

end DiceArith
