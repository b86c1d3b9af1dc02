import DiceArith.Proofs.Bytes
import DiceArith.Proofs.Columns
import DiceArith.Proofs.NestedCalculation
import DiceArith.Proofs.RunningDepth

/-! # Guarded calculation

A text can be calculated by positions alone: bytes are looked at one by one, whatever stands between
two positions is cut out, and the open groups are kept on a stack. Each of these steps might go
wrong on its own, and here each has a guard for that. A calculation that is carried out in this way
comes to the same as one that follows the structure of the text, so once the scan has accepted the
parentheses no guard is reached.
-/

namespace DiceArith

open Bracketing (ofText)
open Console (encode)

/-- What should not happen between the steps of a calculation. -/
inductive Guard
  | gap (span : Span)
  | lexeme (span : Span)
  | unopened (pos : Nat)
  | unclosed (pos : Nat)
  | unsegmented
  deriving DecidableEq, Repr

abbrev Guarded (ε α : Type) := Except (Guard ⊕ ε) α

def Text.between? (start stop : Nat) (t : Text) : Option Text :=
  if start ≤ stop then t.slice? ⟨start, stop⟩ else none

namespace Guarded

variable {ε α β : Type}

def ofExcept : Except ε α → Guarded ε α := Except.mapError .inr

def stop (guard : Guard) : Guarded ε α := .error (.inl guard)

theorem ofExcept_ok (a : α) : (ofExcept (.ok a) : Guarded ε α) = .ok a := rfl

theorem ofExcept_bind (x : Except ε α) (f : α → Except ε β) :
    ofExcept (x >>= f) = ofExcept x >>= fun a => ofExcept (f a) := by
  cases x <;> rfl

theorem ofExcept_map (x : Except ε α) (f : α → β) : ofExcept (x.map f) = (ofExcept x).map f := by
  cases x <;> rfl

def cut (guard : Guard) (span : Span) (t : Text) : Guarded Error Text :=
  match t.between? span.start span.stop with
  | some w => .ok w
  | none => stop guard

section Machine

variable (A : Arithmetic α)

def tokens (t : Text) (offset pos : Nat) : Guarded Error (List (Located (Token α))) :=
  match _hbyte : (encode t)[pos]? with
  | none => .ok []
  | some b =>
    if hblank : Byte.isBlank b then tokens t offset (pos + 1)
    else do
      let stop := Byte.lexemeStop (encode t) pos b
      let span := ⟨offset + pos, offset + stop⟩
      let w ← cut (.lexeme span) ⟨pos, stop⟩ t
      match Token.ofLexeme A (if Byte.isDigit b then .literal w else .symbol w) with
      | .error problem => .error (.inr (.malformed span problem))
      | .ok token => (tokens t offset stop).map (⟨token, span⟩ :: ·)
termination_by (encode t).length - pos
decreasing_by
  · have := (List.getElem?_eq_some_iff.mp _hbyte).1
    omega
  · have := (List.getElem?_eq_some_iff.mp _hbyte).1
    have := Byte.lt_lexemeStop _hbyte (Bool.eq_false_iff.mpr hblank)
    omega

/-- The groups that are open, the tokens since the last parenthesis, and where that stopped. -/
structure State (α : Type) where
  enclosing : List (Calculator.Frame α)
  tokens : List (Located (Token α))
  pos : Nat

def State.start : State α := ⟨[], [], 0⟩

def State.read (t : Text) (pos : Nat) (state : State α) :
    Guarded Error (List (Located (Token α))) := do
  let gap ← cut (.gap ⟨state.pos, pos⟩) ⟨state.pos, pos⟩ t
  return state.tokens ++ (← Guarded.tokens A gap state.pos 0)

def State.opened (pos : Nat) (state : State α) (tokens : List (Located (Token α))) : State α :=
  ⟨⟨pos, tokens⟩ :: state.enclosing, [], pos + 1⟩

def State.close (pos : Nat) (state : State α) (tokens : List (Located (Token α))) :
    Guarded Error (State α) :=
  match state.enclosing with
  | [] => stop (.unopened pos)
  | frame :: enclosing =>
    (ofExcept (Columns.reduce A ⟨frame.start + 1, pos⟩ tokens)).map fun value =>
      ⟨enclosing, frame.tokens ++ [⟨.operand value, ⟨frame.start, pos + 1⟩⟩], pos + 1⟩

def step (t : Text) (pos : Nat) (c : Char) (state : State α) : Guarded Error (State α) :=
  if c = '(' then (state.read A t pos).map (state.opened pos)
  else if c = ')' then state.read A t pos >>= state.close A pos
  else .ok state

def steps (t : Text) (pos : Nat) : Text → State α → Guarded Error (State α)
  | [], state => .ok state
  | c :: rest, state => do steps t (pos + c.utf8Size) rest (← step A t pos c state)

def finish (t : Text) (state : State α) : Guarded Error α := do
  let tokens ← state.read A t t.size
  match state.enclosing.getLast? with
  | some frame => stop (.unclosed frame.start)
  | none => ofExcept (Columns.reduce A ⟨0, t.size⟩ tokens)

def value (maxDepth? : Option Nat) (t : Text) : Guarded Error α := do
  let _ ← ofExcept (groups maxDepth? t)
  finish A t (← steps A t 0 t .start)

end Machine

section Cuts

theorem between?_append (u w v : Text) :
    Text.between? u.size (u.size + w.size) (u ++ (w ++ v)) = some w := by
  rw [Text.between?, if_pos (Nat.le_add_right _ _), Text.slice?_append]

theorem cut_append (guard : Guard) (u w v : Text) :
    cut guard ⟨u.size, u.size + w.size⟩ (u ++ (w ++ v)) = .ok w := by
  rw [cut, between?_append]

theorem Text.utf8Size_of_isBlank {c : Char} (h : Text.isBlank c = true) : c.utf8Size = 1 := by
  simp only [Text.isBlank, Bool.or_eq_true, beq_iff_eq] at h
  rcases h with (((rfl | rfl) | rfl) | rfl) | rfl <;> rfl

end Cuts

section Tokens

variable {A : Arithmetic α} {u v w rest : Text} {c : Char} (offset : Nat)

theorem tokens_nil (u : Text) : tokens A u offset u.size = .ok [] := by
  have hnone := Byte.getElem?_encode_nil u
  rw [tokens]
  split
  · rfl
  · next hbyte => cases hnone.symm.trans hbyte

theorem tokens_blank (h : Text.isBlank c = true) : tokens A (u ++ c :: v) offset u.size =
    tokens A (u ++ [c] ++ v) offset (u ++ [c]).size := by
  obtain ⟨b, hb, hbyte⟩ := Byte.getElem?_encode u c v
  have hblank := (Byte.mirrors_isBlank c b hb).trans h
  have hnext : (u ++ [c]).size = u.size + 1 := by
    rw [Text.size_append, Text.size_cons, Text.utf8Size_of_isBlank h, Text.size_nil]
  rw [← List.append_cons, hnext, tokens]
  split
  · next hnone => cases hnone.symm.trans hbyte
  · next hsome =>
    obtain rfl := Option.some.inj (hbyte.symm.trans hsome)
    rw [dif_pos hblank]

theorem tokens_lexeme (h : Text.isBlank c = false) (hw : c :: Lexeme.continuation c v = w)
    (hv : c :: v = w ++ rest) : tokens A (u ++ c :: v) offset u.size =
      match Token.ofLexeme A (Lexeme.ofHead c v) with
      | .error problem =>
        .error (.inr (.malformed ⟨offset + u.size, offset + (u ++ w).size⟩ problem))
      | .ok token => (tokens A (u ++ w ++ rest) offset (u ++ w).size).map
          (⟨token, ⟨offset + u.size, offset + (u ++ w).size⟩⟩ :: ·) := by
  obtain ⟨b, hb, hbyte⟩ := Byte.getElem?_encode u c v
  have hblank := (Byte.mirrors_isBlank c b hb).trans h
  have hcut (guard : Guard) : cut guard ⟨u.size, (u ++ w).size⟩ (u ++ c :: v) = .ok w := by
    rw [hv, Text.size_append, cut_append]
  have hlexeme : Lexeme.ofHead c v = if Byte.isDigit b then .literal w else .symbol w := by
    rw [Lexeme.ofHead, hw, Byte.mirrors_isDigit c b hb]
  rw [tokens]
  split
  · next hnone => cases hnone.symm.trans hbyte
  · next hsome =>
    obtain rfl := Option.some.inj (hbyte.symm.trans hsome)
    rw [dif_neg (Bool.eq_false_iff.mp hblank), Byte.lexemeStop_encode u v h hb, hw]
    dsimp only
    rw [hcut, Except.ok_bind, ← hlexeme, hv, ← List.append_assoc]

/-- Bytes are read as the characters that they encode, from one boundary to the next. -/
theorem tokens_append (u v : Text) :
    tokens A (u ++ v) offset u.size = ofExcept (Token.ofText A (offset + u.size) v) := by
  induction hn : v.length using Nat.strong_induction_on generalizing u v with
  | _ n ih =>
    subst hn
    cases v with
    | nil =>
      rw [List.append_nil, tokens_nil, Token.ofText_nil]
      rfl
    | cons c v =>
      cases hc : Text.isBlank c with
      | true =>
        rw [tokens_blank offset hc, ih v.length (Nat.lt_succ_self _) _ _ rfl,
          Token.ofText_blank _ _ hc, Text.size_append, ← Nat.add_assoc]
        rfl
      | false =>
        generalize hw : c :: Lexeme.continuation c v = w
        generalize hrest : v.drop (Lexeme.continuation c v).length = rest
        have hv : c :: v = w ++ rest := by
          rw [← hw, ← hrest, List.cons_append, Lexeme.continuation_append_drop]
        have hlength : rest.length < (c :: v).length := by
          rw [← hrest, List.length_drop, List.length_cons]
          omega
        rw [tokens_lexeme offset hc hw hv, ih rest.length hlength _ _ rfl,
          Token.ofText_lexeme _ _ hc ((Lexeme.text_ofHead c v).trans hw), hrest,
          Text.size_append, ← Nat.add_assoc]
        cases Token.ofLexeme A (Lexeme.ofHead c v) with
        | error problem => rfl
        | ok token => exact (ofExcept_map _ _).symm

end Tokens

/-- What a state is like after the text that it has read and a gap. -/
structure Follows (before gap : Text) (state : State α) : Prop where
  plain : gap.Plain
  pos_eq : state.pos = before.size
  height : state.enclosing.length = (before ++ gap).depth

section Steps

variable {A : Arithmetic α} {before gap t u v rest : Text} {state next : State α} {pos : Nat}
  {c : Char} {added : List (Located (Token α))}

theorem follows_start : Follows [] [] (.start : State α) := ⟨Text.plain_nil, rfl, rfl⟩

theorem Follows.opening (h : Follows before gap state) (pos : Nat)
    (tokens : List (Located (Token α))) (hpos : pos = (before ++ gap).size) :
    Follows (before ++ gap ++ ['(']) [] (state.opened pos tokens) where
  plain := Text.plain_nil
  pos_eq := by
    rw [Text.size_append, ← hpos]
    rfl
  height := by
    rw [List.append_nil, Text.depth_concat_opening, ← h.height]
    rfl

theorem Follows.close (h : Follows before gap state) (hpos : pos = (before ++ gap).size)
    (hclose : state.close A pos added = .ok next) :
    Follows (before ++ gap ++ [')']) [] next := by
  unfold State.close at hclose
  split at hclose
  · cases hclose
  · next frame enclosing henclosing =>
    obtain ⟨value, _, rfl⟩ := Except.map_eq_ok_iff.mp hclose
    have hheight := h.height
    rw [henclosing, List.length_cons] at hheight
    refine ⟨Text.plain_nil, ?_, ?_⟩
    · rw [Text.size_append, ← hpos]
      rfl
    · rw [List.append_nil, Text.depth, Text.depthFrom_concat, ← Text.depth, ← hheight]
      rfl

theorem Follows.concat (h : Follows before gap state) (hc : Text.Plain [c]) :
    Follows before (gap ++ [c]) state where
  plain := h.plain.append hc
  pos_eq := h.pos_eq
  height := by
    rw [h.height, ← List.append_assoc, Text.depth, Text.depth, Text.depthFrom_concat,
      Text.deepen_plain hc]

theorem step_plain (hc : Text.Plain [c]) : step A t pos c state = .ok state := by
  obtain ⟨hopening, hclosing⟩ := hc c List.mem_cons_self
  rw [step, if_neg hopening, if_neg hclosing]

theorem step_opening : step A t pos '(' state = (state.read A t pos).map (state.opened pos) := rfl

theorem step_closing : step A t pos ')' state = state.read A t pos >>= state.close A pos := rfl

theorem close_of_cons (pos : Nat) (tokens : List (Located (Token α))) {frame : Calculator.Frame α}
    {enclosing : List (Calculator.Frame α)} (h : state.enclosing = frame :: enclosing) :
    state.close A pos tokens =
      ofExcept ((Calculator.reduce A ⟨frame.start + 1, pos⟩ tokens).map fun value =>
        ⟨enclosing, frame.tokens ++ [⟨.operand value, ⟨frame.start, pos + 1⟩⟩], pos + 1⟩) := by
  rw [State.close, h]
  dsimp only
  rw [Columns.reduce_eq, ofExcept_map]

theorem Follows.of_step (h : Follows before gap state) (hpos : pos = (before ++ gap).size)
    (hstep : step A t pos c state = .ok next) :
    ∃ before' gap', before' ++ gap' = before ++ gap ++ [c] ∧ Follows before' gap' next := by
  rcases Text.paren_cases c with rfl | rfl | hc
  · obtain ⟨tokens, _, rfl⟩ := Except.map_eq_ok_iff.mp hstep
    exact ⟨_, _, List.append_nil _, h.opening pos tokens hpos⟩
  · obtain ⟨tokens, _, hclose⟩ := Except.bind_eq_ok_iff.mp hstep
    exact ⟨_, _, List.append_nil _, h.close hpos hclose⟩
  · obtain rfl := Except.ok.inj ((step_plain hc).symm.trans hstep)
    exact ⟨before, gap ++ [c], (List.append_assoc _ _ _).symm, h.concat hc⟩

theorem Follows.of_steps (h : Follows before gap state) (hpos : pos = (before ++ gap).size)
    (hsteps : steps A t pos u state = .ok next) :
    ∃ before' gap', before' ++ gap' = before ++ gap ++ u ∧ Follows before' gap' next := by
  induction u generalizing before gap state pos with
  | nil =>
    obtain rfl := Except.ok.inj hsteps
    exact ⟨before, gap, (List.append_nil _).symm, h⟩
  | cons c u ih =>
    obtain ⟨state', hstep, hrest⟩ := Except.bind_eq_ok_iff.mp hsteps
    obtain ⟨before', gap', hsplit, h'⟩ := h.of_step hpos hstep
    have hpos' : pos + c.utf8Size = (before' ++ gap').size := by
      rw [hsplit, Text.size_append, ← hpos]
      rfl
    rw [List.append_cons, ← hsplit]
    exact ih h' hpos' hrest

theorem Follows.read_eq (h : Follows before gap state) (ht : t = before ++ (gap ++ rest))
    (hpos : pos = (before ++ gap).size) : state.read A t pos =
      ofExcept ((Token.ofText A state.pos gap).map (state.tokens ++ ·)) := by
  have htokens := tokens_append (A := A) state.pos [] gap
  rw [List.nil_append, Text.size_nil, Nat.add_zero] at htokens
  rw [State.read, ht, hpos, h.pos_eq, Text.size_append, cut_append, Except.ok_bind, ← h.pos_eq,
    htokens, ofExcept_map]
  rfl

end Steps

section Refinement

variable {A : Arithmetic α} {maxDepth? : Option Nat} {before gap t rest : Text} {state : State α}
  {start pos pos' : Nat} {spans : List Span}

theorem Follows.finish_eq (h : Follows before gap state) (ht : t = before ++ gap)
    (hnone : state.enclosing = []) : finish A t state =
      ofExcept (Calculator.run A state.enclosing state.tokens state.pos (.flat gap)) := by
  have hsize : state.pos + gap.size = t.size := by rw [h.pos_eq, ht, Text.size_append]
  have ht' : t = before ++ (gap ++ []) := by rw [List.append_nil, ht]
  have hread := h.read_eq (A := A) ht' (congrArg Text.size ht)
  rw [finish, hread, Calculator.run, hnone, hsize]
  cases Token.ofText A state.pos gap with
  | error error => rfl
  | ok added => exact congrArg ofExcept (Columns.reduce_eq A _ _)

/-- A calculation by positions is one that follows the parentheses of the text. -/
theorem Follows.finish_steps (h : Follows before gap state) (ht : t = before ++ (gap ++ rest))
    (hpos : pos = (before ++ gap).size)
    (hscan : Nesting.scan maxDepth? state.enclosing.length start pos' (ofText rest) = .ok spans) :
    steps A t pos rest state >>= finish A t = ofExcept
      (Calculator.run A state.enclosing state.tokens state.pos (ofText (gap ++ rest))) := by
  induction rest generalizing before gap state pos start pos' spans with
  | nil =>
    rw [List.append_nil] at ht ⊢
    rw [Bracketing.ofText_flat h.plain]
    exact h.finish_eq ht (List.eq_nil_of_length_eq_zero (Nesting.depth_eq_zero_of_scan hscan))
  | cons c rest ih =>
    have hsize : state.pos + gap.size = pos := by rw [h.pos_eq, hpos, Text.size_append]
    have ht' : t = (before ++ gap ++ [c]) ++ ([] ++ rest) := by simp [ht]
    have hpos' : pos + c.utf8Size = (before ++ gap ++ [c] ++ []).size := by
      simp [hpos, Nat.add_assoc]
    obtain ⟨start', spans', hrest⟩ := Nesting.exists_scan_rest (u := [c]) hscan
    rcases Text.paren_cases c with rfl | rfl | hc
    · rw [steps, step_opening, h.read_eq ht hpos, Bracketing.ofText_append_opening h.plain,
        Calculator.run, hsize]
      cases Token.ofText A state.pos gap with
      | error error => rfl
      | ok added => exact ih (h.opening pos (state.tokens ++ added) hpos) ht' hpos' hrest
    · -- the scan goes on, so there is a group to close
      obtain ⟨frame, enclosing, henclosing⟩ := List.exists_cons_of_length_pos
        (Nat.pos_of_ne_zero (Nesting.depth_ne_zero_of_scan hscan))
      rw [henclosing] at hrest
      rw [steps, step_closing, h.read_eq ht hpos, Bracketing.ofText_append_closing h.plain,
        Calculator.run, hsize, henclosing]
      cases Token.ofText A state.pos gap with
      | error error => rfl
      | ok added =>
        have hclose := close_of_cons (A := A) pos (state.tokens ++ added) henclosing
        rw [Except.ok_map, ofExcept_ok, Except.ok_bind, Except.ok_bind, hclose]
        dsimp only
        cases hvalue : Calculator.reduce A ⟨frame.start + 1, pos⟩ (state.tokens ++ added) with
        | error error => rfl
        | ok value =>
          rw [hvalue] at hclose
          exact ih (h.close hpos hclose) ht' hpos' hrest
    · have hdepth : Text.depthFrom state.enclosing.length [c] = state.enclosing.length :=
        Text.deepen_plain hc
      rw [hdepth] at hrest
      rw [steps, step_plain hc, Except.ok_bind, List.append_cons]
      exact ih (h.concat hc) (by simp [ht]) (by simp [hpos, Nat.add_assoc]) hrest

theorem value_eq (A : Arithmetic α) (maxDepth? : Option Nat) (t : Text) :
    value A maxDepth? t = ofExcept (Calculator.value A maxDepth? t) := by
  cases hgroups : groups maxDepth? t with
  | error error =>
    rw [value, Calculator.value, hgroups]
    rfl
  | ok spans =>
    rw [value, Calculator.value, hgroups]
    exact follows_start.finish_steps rfl rfl hgroups

end Refinement

end Guarded

end DiceArith
