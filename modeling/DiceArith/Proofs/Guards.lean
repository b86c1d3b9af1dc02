import DiceArith.Evaluation
import DiceArith.Proofs.GuardedCalculation
import DiceArith.Proofs.LongestLexemes
import DiceArith.Proofs.Refusal
import DiceArith.Proofs.SegmentGrammar

/-! # Guards

No guard of a calculation is ever reached, and none of an evaluation either. The errors that are
left are about the text: every numeral can be read, every token is a piece of text, and a reduction
never ends with more than one operand or with none.
-/

namespace DiceArith

variable {α σ : Type}

/-- How messages end that blame something else than the text. -/
def Problem.blame : List String := ["token is not valid text", " is not a number"]

/-- An error that blames the text and not the calculation. -/
structure Error.Genuine (error : Error) : Prop where
  reduced : ∀ n, error ≠ .leftover n
  readable : ∀ span problem, error = .malformed span problem →
    ∀ words ∈ Problem.blame, ¬ words.toList <:+ problem.message.toList

namespace Guarded

section Evaluation

variable (A : Arithmetic α)

def calculate (t : Text) : Guarded Error α := value A none t

def calculateWithin (limits : Limits) (t : Text) : Guarded Error α :=
  if limits.maxLength.toNat < t.size then
    .error (.inr (.tooLong t.size limits.maxLength.toNat))
  else value A (some limits.maxDepth.toNat) t

def prepare (limits : Limits) (t : Text) : Guarded Error (List (Segment Dice)) := do
  if limits.maxLength.toNat < t.size then
    throw (.inr (.tooLong t.size limits.maxLength.toNat))
  ofExcept (checkDepth limits.maxDepth.toNat t)
  match segmentsReader t with
  | some (segs, _) => ofExcept (Expansion.accept limits 0 0 segs)
  | none => stop .unsegmented

def expand (r : Roller σ) (limits : Limits) (t : Text) (s : σ) :
    Guarded Failure Expansion × σ :=
  match prepare limits t with
  | .error error => (.error (error.map id .rejected), s)
  | .ok accepted =>
    match r.rollSegments accepted s with
    | (none, s) => (.error (.inr .exhausted), s)
    | (some rolled, s) => (.ok (.ofSegments rolled), s)

def evaluate (r : Roller σ) (limits : Limits) (t : Text) (s : σ) :
    Guarded Failure (Evaluation α) × σ :=
  match expand r limits t s with
  | (.error failure, s) => (.error failure, s)
  | (.ok expansion, s) =>
    match calculateWithin A limits.forExpanded expansion.text with
    | .error error => (.error (error.map id .rejected), s)
    | .ok result => (.ok ⟨expansion.text, result, expansion.rolls⟩, s)

end Evaluation

section Equalities

theorem calculateWithin_eq (A : Arithmetic α) (limits : Limits) (t : Text) :
    calculateWithin A limits t = ofExcept (DiceArith.calculateWithin A limits t) := by
  unfold calculateWithin DiceArith.calculateWithin
  split
  · rfl
  · exact value_eq A _ t

theorem prepare_eq (limits : Limits) (t : Text) :
    prepare limits t = ofExcept (Expansion.prepare limits t) := by
  by_cases hlong : limits.maxLength.toNat < t.size
  · rw [prepare, Expansion.prepare_of_long hlong, if_pos hlong]
    rfl
  · rw [prepare, Expansion.prepare_of_short hlong, if_neg hlong, ofExcept_bind, segmentsReader_eq]

theorem expand_eq (r : Roller σ) (limits : Limits) (t : Text) (s : σ) :
    expand r limits t s = (DiceArith.expand r limits t s).map ofExcept id := by
  rw [expand, DiceArith.expand, prepare_eq]
  cases Expansion.prepare limits t with
  | error error => rfl
  | ok accepted =>
    rw [ofExcept_ok]
    dsimp only
    cases r.rollSegments accepted s with
    | mk rolled? s' => cases rolled? <;> rfl

theorem evaluate_eq (A : Arithmetic α) (r : Roller σ) (limits : Limits) (t : Text) (s : σ) :
    evaluate A r limits t s = (DiceArith.evaluate A r limits t s).map ofExcept id := by
  rw [evaluate, DiceArith.evaluate, expand_eq]
  cases DiceArith.expand r limits t s with
  | mk expanded s' =>
    cases expanded with
    | error failure => rfl
    | ok expansion =>
      rw [Prod.map_apply, ofExcept_ok]
      dsimp only
      rw [calculateWithin_eq]
      cases DiceArith.calculateWithin A limits.forExpanded expansion.text <;> rfl

end Equalities

end Guarded

section Genuine

variable {A : Arithmetic α} {error : Error}

namespace Problem

theorem not_suffix_quoted (s : String) (t : Text) :
    ∀ words ∈ blame, ¬ words.toList <:+ (s ++ quoted t).toList := by
  have hlast : ∀ words ∈ blame, words.toList ≠ [] ∧ words.toList.getLast? ≠ some '"' := by decide
  rintro words hwords ⟨w, hw⟩
  obtain ⟨hne, hquote⟩ := hlast words hwords
  have hmessage : (s ++ quoted t).toList = (s.toList ++ '"' :: t) ++ ['"'] := by
    simp [quoted, String.toList_append]
  have hend := congrArg List.getLast? (hw.trans hmessage)
  rw [List.getLast?_append_of_ne_nil _ hne, List.getLast?_concat] at hend
  exact hquote hend

theorem not_suffix_message {problem : Problem}
    (h : ∀ literal, problem ≠ .unreadableNumeral literal) :
    ∀ words ∈ blame, ¬ words.toList <:+ problem.message.toList := by
  cases problem with
  | missingOperand | adjacentOperands | trailingOperator => decide
  | misplacedOperator op => exact not_suffix_quoted _ _
  | unknownOperator symbol => exact not_suffix_quoted _ _
  | unreadableNumeral literal => exact absurd rfl (h literal)

end Problem

theorem Error.genuine_malformed (span : Span) {problem : Problem}
    (h : ∀ literal, problem ≠ .unreadableNumeral literal) : Genuine (.malformed span problem) := by
  refine ⟨by simp, ?_⟩
  rintro _ _ ⟨⟩
  exact Problem.not_suffix_message h

theorem Error.genuine_unbalanced (span : Span) (side : Unmatched) :
    Genuine (.unbalanced span side) := ⟨by simp, by simp⟩

theorem Nesting.FaultIn.genuine {maxDepth? : Option Nat} {pos : Nat} {t : Text}
    (h : FaultIn maxDepth? pos t error) : error.Genuine := by
  obtain ⟨_, _, _, _, hfault⟩ := h
  cases hfault <;> constructor <;> simp

theorem Text.Refused.genuine {limits : Limits} {t : Text} (h : t.Refused limits error) :
    error.Genuine ∧ ∀ span problem, error ≠ .malformed span problem := by
  cases h <;> refine ⟨⟨?_, ?_⟩, ?_⟩ <;> simp

theorem Token.ofLexemes_genuine {ls : List (Located Lexeme)}
    (hls : ∀ l ∈ ls, l.item.Formed) {tokens : List (Located (Token α))}
    (h : ofLexemes A ls = (tokens, some error)) : error.Genuine := by
  induction ls generalizing tokens with
  | nil => cases h
  | cons l ls ih =>
    obtain ⟨lexeme, span⟩ := l
    obtain ⟨hl, hrest⟩ := List.forall_mem_cons.mp hls
    rw [ofLexemes] at h
    rcases ofLexeme_of_formed A 0 hl span with ⟨token, htoken, _⟩ | ⟨w, _, _, herror⟩
    · rw [htoken] at h
      exact ih hrest (Prod.ext rfl (Prod.mk.inj h).2)
    · rw [herror] at h
      obtain rfl := Option.some.inj (Prod.mk.inj h).2
      exact Error.genuine_malformed _ (by simp)

theorem Token.ofText_genuine (pos : Nat) (t : Text) :
    Except.Ends Error.Genuine (fun _ => True) (ofText A pos t) := by
  have hformed := fun l hl => ((Text.splits_lexemes pos t).coveredBy.stands l hl).1
  unfold ofText
  split
  · exact .ok trivial
  · next hlexemes => exact .error (ofLexemes_genuine hformed hlexemes)

theorem Misordered.genuine {whole : Span} {tokens : List (Located (Token α))}
    (h : Misordered whole tokens error) : error.Genuine := by
  cases h with
  | missingOperand => exact Error.genuine_malformed _ (by simp)
  | @outOfPlace _ token _ _ _ =>
    obtain ⟨item, span⟩ := token
    cases item <;> exact Error.genuine_malformed _ (by simp)
  | trailingOperator => exact Error.genuine_malformed _ (by simp)

namespace Calculator

theorem reduce_genuine (whole : Span) (tokens : List (Located (Token α))) :
    Except.Ends Error.Genuine (fun _ => True) (reduce A whole tokens) := by
  cases htokens : Chain.ofTokens whole tokens with
  | error error =>
    rw [reduce, htokens]
    exact .error ((Chain.ofTokens_alternates whole tokens).of_error htokens).genuine
  | ok chain =>
    obtain ⟨v, hv⟩ := chain.exists_passes_eq A
    rw [reduce, htokens, Except.ok_bind, Chain.reduce_eq_ok hv]
    exact .ok trivial

theorem run_genuine (enclosing : List (Frame α)) (tokens : List (Located (Token α)))
    (pos : Nat) (b : Bracketing) :
    Except.Ends Error.Genuine (fun _ => True) (run A enclosing tokens pos b) := by
  induction b generalizing enclosing tokens pos with
  | flat gap =>
    refine (Token.ofText_genuine pos gap).bind fun added _ => ?_
    dsimp only
    split
    · exact .error (Error.genuine_unbalanced _ _)
    · exact reduce_genuine _ _
  | opening gap rest ih => exact (Token.ofText_genuine pos gap).bind fun added _ => ih _ _ _
  | closing gap rest ih =>
    refine (Token.ofText_genuine pos gap).bind fun added _ => ?_
    cases enclosing with
    | nil => exact .error (Error.genuine_unbalanced _ _)
    | cons frame enclosing => exact (reduce_genuine _ _).bind fun value _ => ih _ _ _

theorem value_genuine (maxDepth? : Option Nat) (t : Text) :
    Except.Ends Error.Genuine (fun _ => True) (value A maxDepth? t) := by
  cases hgroups : groups maxDepth? t with
  | error error =>
    rw [value, hgroups]
    exact .error (faultIn_of_groups hgroups).genuine
  | ok spans =>
    rw [value, hgroups]
    exact run_genuine _ _ _ _

end Calculator

theorem calculateWithin_genuine (limits : Limits) (t : Text) :
    Except.Ends Error.Genuine (fun _ => True) (calculateWithin A limits t) := by
  unfold calculateWithin
  split
  · exact .error ⟨by simp, by simp⟩
  · exact Calculator.value_genuine _ t

theorem evaluate_genuine {r : Roller σ} {limits : Limits} {t : Text} {s : σ}
    (h : (evaluate A r limits t s).1 = .error (.rejected error)) : error.Genuine := by
  unfold evaluate at h
  split at h
  · next failure s' hexpand =>
    obtain rfl := Except.error.inj h
    exact (expand_eq_rejected_iff.mp hexpand).1.genuine.1
  · split at h
    · next herror =>
      obtain rfl := Failure.rejected.inj (Except.error.inj h)
      exact (calculateWithin_genuine _ _).of_error herror
    · cases h

end Genuine

namespace Guarded

/-- What the guards ask for where the text `before` has been read. -/
structure Clear (maxDepth? : Option Nat) (before after : Text) (state : State α) : Prop where
  height : state.enclosing.length = before.depth
  scanned : ∃ start spans, Nesting.scan maxDepth? state.enclosing.length start before.size
    (Bracketing.ofText after) = .ok spans
  gap : ∃ read gap, before = read ++ gap ∧ state.pos = read.size ∧
    (before ++ after).between? state.pos before.size = some gap
  closing : ∀ rest, after = ')' :: rest → state.enclosing ≠ []
  finished : after = [] → state.enclosing = []

variable {A : Arithmetic α} {state : State α} {maxDepth? : Option Nat} {u v : Text}
  {spans : List Span}

theorem clear_of_steps (hgroups : groups maxDepth? (u ++ v) = .ok spans)
    (hsteps : steps A (u ++ v) 0 u .start = .ok state) : Clear maxDepth? u v state := by
  obtain ⟨read, gap, hu, hfollows⟩ := follows_start.of_steps rfl hsteps
  obtain ⟨start, spans', hscan⟩ := Nesting.exists_scan_rest hgroups
  rw [List.append_nil, List.nil_append] at hu
  subst hu
  rw [Nat.zero_add] at hscan
  change Nesting.scan maxDepth? (Text.depth (read ++ gap)) _ _ _ = _ at hscan
  rw [← hfollows.height] at hscan
  refine ⟨hfollows.height, ⟨start, spans', hscan⟩, ⟨read, gap, rfl, hfollows.pos_eq, ?_⟩, ?_, ?_⟩
  · rw [hfollows.pos_eq, List.append_assoc, Text.size_append, between?_append]
  · rintro rest rfl hnil
    exact Nesting.depth_ne_zero_of_scan hscan (List.length_eq_zero_iff.mpr hnil)
  · rintro rfl
    exact List.length_eq_zero_iff.mp (Nesting.depth_eq_zero_of_scan hscan)

end Guarded

/-- A guarded calculation, expansion or evaluation comes to the same as one without guards. -/
theorem guards_unreached (A : Arithmetic α) (r : Roller σ) (limits : Limits) (t : Text) (s : σ) :
    (Guarded.calculate A t = .ofExcept (calculate A t) ∧
      Guarded.calculateWithin A limits t = .ofExcept (calculateWithin A limits t) ∧
      Guarded.expand r limits t s = (expand r limits t s).map .ofExcept id ∧
      Guarded.evaluate A r limits t s = (evaluate A r limits t s).map .ofExcept id) ∧
    (∀ offset, Guarded.tokens A t offset 0 = .ofExcept (Token.ofText A offset t)) ∧
    (∀ maxDepth? spans u v state, groups maxDepth? t = .ok spans → t = u ++ v →
      Guarded.steps A t 0 u .start = .ok state → Guarded.Clear maxDepth? u v state) ∧
    (∀ whole tokens columns k, Columns.ofTokens whole tokens = .ok columns → k ≤ 3 →
      ∃ columns', (Operator.tiers.take k).foldlM (Columns.pass A) columns = .ok columns' ∧
        columns'.Staged k) ∧
    (∀ error, calculate A t = .error error ∨ calculateWithin A limits t = .error error ∨
      (evaluate A r limits t s).1 = .error (.rejected error) → error.Genuine) ∧
    ∀ span problem, (expand r limits t s).1 ≠ .error (.rejected (.malformed span problem)) := by
  refine ⟨⟨Guarded.value_eq A none t, Guarded.calculateWithin_eq A limits t,
    Guarded.expand_eq r limits t s, Guarded.evaluate_eq A r limits t s⟩, ?_, ?_, ?_, ?_, ?_⟩
  · intro offset
    exact Guarded.tokens_append offset [] t
  · rintro maxDepth? spans u v state hgroups rfl hsteps
    exact Guarded.clear_of_steps hgroups hsteps
  · intro whole tokens columns k hcolumns hk
    exact Columns.foldlM_take hcolumns hk
  · rintro error (herror | herror | herror)
    · exact (Calculator.value_genuine none t).of_error herror
    · exact (calculateWithin_genuine limits t).of_error herror
    · exact evaluate_genuine herror
  · intro span problem herror
    exact (expand_eq_rejected_iff.mp (Prod.ext herror rfl)).1.genuine.2 span problem rfl

theorem guards_unreached_group :
    (groups (some 1) "(2-é)".toList = .ok [⟨0, 6⟩] ∧
      Guarded.steps (.free Empty) "(2-é)".toList 0 "(2-é".toList .start =
        .ok ⟨[⟨0, []⟩], [], 1⟩ ∧
      Guarded.Clear (α := Tree Empty) (some 1) "(2-é".toList [')'] ⟨[⟨0, []⟩], [], 1⟩) ∧
    (Columns.ofTokens (α := Tree Empty) ⟨0, 6⟩ [⟨.operand (.number (.ofNat 9)), ⟨0, 1⟩⟩,
        ⟨.operator .subtract, ⟨1, 2⟩⟩, ⟨.operand (.number (.ofNat 2)), ⟨2, 3⟩⟩,
        ⟨.operator .power, ⟨3, 5⟩⟩, ⟨.operand (.number (.ofNat 3)), ⟨5, 6⟩⟩] =
        .ok ⟨[.number (.ofNat 9), .number (.ofNat 2), .number (.ofNat 3)], [.subtract, .power]⟩ ∧
      Columns.Staged (α := Tree Empty) 1 ⟨[.number (.ofNat 9),
        .node .power (.number (.ofNat 2)) (.number (.ofNat 3))], [.subtract]⟩) ∧
    (evaluate (.free Empty) .highest .standard "(2-é)".toList ()).1 =
      .error (.rejected (.malformed ⟨2, 5⟩ (.unknownOperator "-é".toList))) ∧
    Error.Genuine (.malformed ⟨2, 5⟩ (.unknownOperator "-é".toList)) := by
  obtain ⟨_, _, hclear, hstaged, hgenuine, _⟩ :=
    guards_unreached (.free Empty) .highest .standard "(2-é)".toList ()
  have hgroups : groups (some 1) "(2-é)".toList = .ok [⟨0, 6⟩] := by decide +kernel
  have hread : Guarded.State.start.read (.free Empty) "(2-é)".toList 0 = .ok [] := by
    have h := Guarded.follows_start.read_eq (A := .free Empty) (t := "(2-é)".toList) rfl rfl
    rwa [Token.ofText_nil] at h
  have hsteps : Guarded.steps (.free Empty) "(2-é)".toList 0 "(2-é".toList .start =
      .ok ⟨[⟨0, []⟩], [], 1⟩ := by
    change (Guarded.State.start.read (.free Empty) "(2-é)".toList 0).map _ >>= _ = _
    rw [hread]
    rfl
  have hevaluate : (evaluate (.free Empty) .highest .standard "(2-é)".toList ()).1 =
      .error (.rejected (.malformed ⟨2, 5⟩ (.unknownOperator "-é".toList))) := by decide +kernel
  obtain ⟨columns, hcolumns, hpassed⟩ := hstaged ⟨0, 6⟩ [⟨.operand (.number (.ofNat 9)), ⟨0, 1⟩⟩,
    ⟨.operator .subtract, ⟨1, 2⟩⟩, ⟨.operand (.number (.ofNat 2)), ⟨2, 3⟩⟩,
    ⟨.operator .power, ⟨3, 5⟩⟩, ⟨.operand (.number (.ofNat 3)), ⟨5, 6⟩⟩] _ 1 rfl (by decide)
  obtain rfl := Except.ok.inj hcolumns
  exact ⟨⟨hgroups, hsteps, hclear _ _ _ _ _ hgroups rfl hsteps⟩, ⟨rfl, hpassed⟩,
    hevaluate, hgenuine _ (.inr (.inr hevaluate))⟩

end DiceArith
