import DiceArith.Proofs.Determinism
import DiceArith.Proofs.ErrorPlaces
import DiceArith.Proofs.InputLine

/-! # What the console answers

The console answers as an evaluation under the standard limits does, and shows in addition what was
rolled. An error is reported with its column, which is found because no error starts inside of a
character.
-/

namespace DiceArith

namespace Error

/-- The column of an error that starts after some characters of a text. -/
def Column (source : Text) (error : Error) (column? : Option Nat) : Prop :=
  match error.span? with
  | none => column? = none
  | some span => ∃ before after, source = before ++ after ∧ span.start = before.size ∧
      column? = some (1 + before.length)

theorem Points.column {source : Text} {error : Error} (h : error.Points source) :
    error.Column source (error.span?.map fun span => source.columnAt span.start) := by
  unfold Column
  cases hspan : error.span? with
  | none => rfl
  | some span =>
    obtain ⟨_, _, u, w, v, rfl, hstart, _⟩ := h span hspan
    have hmin : min u.size (Text.size (u ++ (w ++ v))) = u.size := by
      rw [Text.size_append]
      exact Nat.min_eq_left (Nat.le_add_right _ _)
    refine ⟨u, w ++ v, rfl, hstart, ?_⟩
    rw [Option.map_some, hstart, Text.columnAt, hmin, Text.cut?_append, Nat.add_comm]

end Error

namespace Console

variable {σ : Type} {r : Roller σ} {s s' : σ} {t : Text}

def rolledLines (rolls : List Rolled) : Text :=
  rolls.flatMap fun rolled => "Rolled: ".toList ++ rolled.describe (some 20) ++ ['\n']

def lead (args : List Text) : Text := if args = [] then "Enter expression: ".toList else []

/-- An answer that agrees with an evaluation, after what was shown before it. -/
structure Answers (r : Roller σ) (s : σ) (shown t : Text) (answer : Report × σ) : Prop where
  state : answer.2 = (evaluate .float r .standard t s).2
  code_iff : answer.1.code = 0 ↔ ∃ e, (evaluate .float r .standard t s).1 = .ok e
  evaluated : ∀ e, (evaluate .float r .standard t s).1 = .ok e → answer.1 =
    ⟨0, shown ++ (rolledLines e.rolls ++ e.describe (some 2000) ++ ['\n']), none, none⟩
  rejected : ∀ error, (evaluate .float r .standard t s).1 = .error (.rejected error) →
    answer.1.code = 1 ∧ answer.1.message? = some ("Error: " ++ error.message)
  unrolled : ∀ error, (expand r .standard t s).1 = .error (.rejected error) →
    (evaluate .float r .standard t s).1 = .error (.rejected error) ∧
      answer.1.output = shown ∧ error.Column t answer.1.column?
  rolled : ∀ x error, (expand r .standard t s).1 = .ok x →
    (evaluate .float r .standard t s).1 = .error (.rejected error) →
      answer.1.output = shown ++ rolledLines x.rolls ∧ error.Column x.text answer.1.column?

theorem Answers.after {answer : Report × σ} (h : Answers r s [] t answer) (shown : Text) :
    Answers r s shown t ({ answer.1 with output := shown ++ answer.1.output }, answer.2) := by
  obtain ⟨hstate, hcode, hevaluated, hrejected, hunrolled, hrolled⟩ := h
  refine ⟨hstate, hcode, ?_, hrejected, ?_, ?_⟩
  · intro e he
    rw [hevaluated e he]
    rfl
  · intro error herror
    obtain ⟨hsame, houtput, hcolumn⟩ := hunrolled error herror
    exact ⟨hsame, by rw [houtput, List.append_nil], hcolumn⟩
  · intro x error hx herror
    obtain ⟨houtput, hcolumn⟩ := hrolled x error hx herror
    exact ⟨by rw [houtput, List.nil_append], hcolumn⟩

theorem points_of_expand {error : Error}
    (h : expand r .standard t s = (.error (.rejected error), s')) : error.Points t := by
  have hfirst := congrArg Prod.fst h
  rw [expand_eq_draw] at hfirst
  exact (Expansion.prepare_ends .standard t).of_error (Expansion.outcome_eq_rejected_iff.mp hfirst)

theorem answers_of_refused {output source : Text} {error : Error}
    (hevaluate : evaluate .float r .standard t s = (.error (.rejected error), s'))
    (hanswer : answer r t s = (refuse output source error, s')) (hpoints : error.Points source)
    (hsource : (expand r .standard t s).1 = .error (.rejected error) ∧ output = [] ∧ source = t ∨
      ∃ x, (expand r .standard t s).1 = .ok x ∧ output = rolledLines x.rolls ∧ source = x.text) :
    Answers r s [] t (answer r t s) := by
  rw [hanswer]
  constructor
  all_goals rw [hevaluate]
  · simp [refuse]
  · simp
  · rintro error' herror
    obtain rfl := Failure.rejected.inj (Except.error.inj herror)
    exact ⟨rfl, rfl⟩
  · rcases hsource with ⟨hx, rfl, rfl⟩ | ⟨x, hx, _⟩
    all_goals
      rintro error' herror
      rw [hx] at herror
      cases herror
    exact ⟨rfl, rfl, hpoints.column⟩
  · rcases hsource with ⟨hx, _⟩ | ⟨x, hx, rfl, rfl⟩
    all_goals
      rintro x' error' hx' herror
      rw [hx] at hx'
      cases hx'
    obtain rfl := Failure.rejected.inj (Except.error.inj herror)
    exact ⟨rfl, hpoints.column⟩

theorem answers_of_rejected {error : Error}
    (h : expand r .standard t s = (.error (.rejected error), s')) :
    Answers r s [] t (answer r t s) := by
  have hevaluate : evaluate .float r .standard t s = (.error (.rejected error), s') := by
    rw [evaluate, h]
  have hanswer : answer r t s = (refuse [] t error, s') := by
    rw [answer, h]
  exact answers_of_refused hevaluate hanswer (points_of_expand h)
    (.inl ⟨congrArg Prod.fst h, rfl, rfl⟩)

theorem answers_of_exhausted (h : expand r .standard t s = (.error .exhausted, s')) :
    Answers r s [] t (answer r t s) := by
  have hevaluate : evaluate .float r .standard t s = (.error .exhausted, s') := by
    rw [evaluate, h]
  have hanswer : answer r t s = (exhausted, s') := by
    rw [answer, h]
  rw [hanswer]
  constructor
  all_goals rw [hevaluate]
  all_goals simp [h, exhausted]

theorem answers_of_uncalculated {x : Expansion} {error : Error}
    (h : expand r .standard t s = (.ok x, s'))
    (hv : calculateWithin .float Limits.standard.forExpanded x.text = .error error) :
    Answers r s [] t (answer r t s) := by
  have hevaluate : evaluate .float r .standard t s = (.error (.rejected error), s') := by
    rw [evaluate, h]
    dsimp only
    rw [hv]
  have hanswer : answer r t s = (refuse (rolledLines x.rolls) x.text error, s') := by
    rw [answer, h]
    dsimp only
    rw [hv]
    rfl
  exact answers_of_refused hevaluate hanswer ((calculateWithin_ends _ _).of_error hv)
    (.inr ⟨x, congrArg Prod.fst h, rfl, rfl⟩)

theorem answers_of_calculated {x : Expansion} {result : Float}
    (h : expand r .standard t s = (.ok x, s'))
    (hv : calculateWithin .float Limits.standard.forExpanded x.text = .ok result) :
    Answers r s [] t (answer r t s) := by
  have hevaluate : evaluate .float r .standard t s = (.ok ⟨x.text, result, x.rolls⟩, s') := by
    rw [evaluate, h]
    dsimp only
    rw [hv]
  have hanswer : answer r t s = (⟨0, rolledLines x.rolls ++
      Evaluation.describe (some 2000) ⟨x.text, result, x.rolls⟩ ++ ['\n'], none, none⟩, s') := by
    rw [answer, h]
    dsimp only
    rw [hv]
    rfl
  rw [hanswer]
  constructor
  all_goals rw [hevaluate]
  · simp
  · rintro e he
    obtain rfl := Except.ok.inj he
    rfl
  · simp
  · simp [h]
  · simp

theorem answers_answer (r : Roller σ) (s : σ) (t : Text) : Answers r s [] t (answer r t s) := by
  cases h : expand r .standard t s with
  | mk x? s' =>
    cases x? with
    | error failure =>
      cases failure with
      | rejected error => exact answers_of_rejected h
      | exhausted => exact answers_of_exhausted h
    | ok x =>
      cases hv : calculateWithin .float Limits.standard.forExpanded x.text with
      | error error => exact answers_of_uncalculated h hv
      | ok result => exact answers_of_calculated h hv

theorem answers_run {args : List Text} {input : List UInt8} (r : Roller σ) (s : σ)
    (h : Reads args input (some t)) : Answers r s (lead args) t (run r args input s) := by
  have ht := reads_iff.mp h
  by_cases hargs : args = []
  · subst hargs
    rw [if_pos rfl] at ht
    have hrun : run r [] input s =
        ({ (answer r t s).1 with output := prompt ++ (answer r t s).1.output },
          (answer r t s).2) := by
      rw [run, if_pos rfl, answerLine, ← ht]
    rw [hrun]
    exact (answers_answer r s t).after prompt
  · rw [if_neg hargs] at ht
    obtain rfl := Option.some.inj ht
    rw [run, if_neg hargs, lead, if_neg hargs]
    exact answers_answer r s _

theorem run_of_unreadable {args : List Text} {input : List UInt8} (r : Roller σ) (s : σ)
    (h : Reads args input none) : run r args input s = (⟨1, lead args,
      some "Unable to read expression: stream did not contain valid UTF-8", none⟩, s) := by
  have hnone := reads_iff.mp h
  by_cases hargs : args = []
  · subst hargs
    rw [if_pos rfl] at hnone
    rw [run, if_pos rfl, answerLine, ← hnone]
    rfl
  · rw [if_neg hargs] at hnone
    cases hnone

theorem evaluate_ne_exhausted {α : Type} (A : Arithmetic α) (hr : r.InRange) (limits : Limits)
    (t : Text) (s : σ) : (evaluate A r limits t s).1 ≠ .error .exhausted := by
  obtain ⟨values, s', hdraw, _⟩ := hr.draw (fun _ => Text.ne_zero_of_mem_demandWithin) s
  rw [evaluate_eq_expand, expand_of_draw hdraw, Prod.map_fst, Ne,
    Expansion.bind_calculated_eq_exhausted_iff, Expansion.outcome_eq_exhausted_iff]
  simp

/-- One expression is read, or none, and the program answers as its evaluation does. -/
theorem run_answers (r : Roller σ) (s : σ) (args : List Text) (input : List UInt8) :
    (∃! t?, Reads args input t?) ∧
    (∀ t, Reads args input (some t) → Answers r s (lead args) t (run r args input s)) ∧
    (Reads args input none → run r args input s = (⟨1, lead args,
      some "Unable to read expression: stream did not contain valid UTF-8", none⟩, s)) ∧
    ∀ t s, (evaluate .float .generator .standard t s).1 ≠ .error .exhausted := by
  refine ⟨?_, fun t => answers_run r s, run_of_unreadable r s, fun t s => ?_⟩
  · simp only [reads_iff]
    exact existsUnique_eq
  · exact evaluate_ne_exhausted .float Roller.inRange_generator .standard t s

/-- Dice without sides after a character of two bytes, a misplaced parenthesis, and bytes that are
no text. -/
theorem run_answers_column :
    (∃ report, run .highest [] [0xc3, 0xa9, 0x31, 0x64, 0x30, 13, 10, 0x31] () = (report, ()) ∧
      report.code = 1 ∧ report.output = "Enter expression: ".toList ∧
      report.message? = some "Error: invalid dice \"1d0\": dice must have at least one side" ∧
      Error.Column "é1d0".toList (.invalidDice "1d0".toList ⟨2, 5⟩ .noSides) report.column?) ∧
    (∃ report, run .highest ["2d1".toList, ")".toList] [] () = (report, ()) ∧
      report.output = "Rolled: 2d1[1, 1]\n".toList ∧
      Error.Column "(1 + 1) )".toList (.unbalanced ⟨8, 9⟩ .unopened) report.column?) ∧
    (run .highest [] [0xff, 10] ()).1.code = 1 := by
  have hencode : encode "é1d0".toList = [0xc3, 0xa9, 0x31, 0x64, 0x30] := by decide +kernel
  have hline : Reads [] [0xc3, 0xa9, 0x31, 0x64, 0x30, 13, 10, 0x31] (some "é1d0".toList) := by
    refine .line ?_
    rw [hencode]
    have hten : 10 ∉ ([0xc3, 0xa9, 0x31, 0x64, 0x30] : List UInt8) := by decide
    exact .returned hten
  have hnone : Reads [] [0xff, 10] none := reads_iff.mpr (by decide +kernel)
  have hexpand : (expand .highest .standard "é1d0".toList ()).1 =
      .error (.rejected (.invalidDice "1d0".toList ⟨2, 5⟩ .noSides)) := by decide +kernel
  have hexpand' : (expand .highest .standard "2d1 )".toList ()).1 =
      .ok ⟨"(1 + 1) )".toList, [⟨⟨2, 1⟩, [1, 1]⟩]⟩ := by decide +kernel
  have hgroups : groups (some Limits.standard.forExpanded.maxDepth.toNat) "(1 + 1) )".toList =
      .error (.unbalanced ⟨8, 9⟩ .unopened) := by decide +kernel
  have hevaluate : (evaluate .float .highest .standard "2d1 )".toList ()).1 =
      .error (.rejected (.unbalanced ⟨8, 9⟩ .unopened)) := by
    rw [evaluate_eq_expand, Prod.map_fst, hexpand', Except.bind, Expansion.calculated,
      calculateWithin, if_neg (by decide), Calculator.value, hgroups]
    rfl
  have hanswers := (run_answers .highest () [] _).2.1 _ hline
  obtain ⟨hsame, houtput, hcolumn⟩ := hanswers.unrolled _ hexpand
  obtain ⟨hcode, hmessage⟩ := hanswers.rejected _ hsame
  have hanswers' := (run_answers .highest () ["2d1".toList, ")".toList] []).2.1 _
    (.args (List.cons_ne_nil _ _))
  obtain ⟨houtput', hcolumn'⟩ := hanswers'.rolled _ _ hexpand' hevaluate
  refine ⟨⟨_, rfl, hcode, houtput, hmessage, hcolumn⟩, ⟨_, rfl, houtput', hcolumn'⟩, ?_⟩
  rw [(run_answers .highest () [] [0xff, 10]).2.2.1 hnone]

end Console

end DiceArith
