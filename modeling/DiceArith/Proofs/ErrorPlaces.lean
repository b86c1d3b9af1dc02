import DiceArith.Proofs.Drawing
import DiceArith.Proofs.Scanning
import DiceArith.Proofs.TokenPlaces

/-! # Errors mark what is wrong

Whatever fails, in the parentheses, in a pattern, in a token or in the order of tokens, the error
that reports it marks the place in the whole text. Groups are the induction: the places inside of
one are places of the text around it.
-/

namespace DiceArith

open Text Token

variable {α : Type} {A : Arithmetic α}

section Order

variable {before inner after : Text}

theorem Chain.tailOfTokens_ends (haround : Around before after) (hbalanced : inner.Balanced)
    {u first g : Text} {tokens : List (Located (Token α))} (hinner : inner = u ++ (first ++ g))
    (hfirst : Operand (before ++ u) first (g ++ after))
    (hlayout : Layout after (before ++ (u ++ first)) g tokens) :
    Except.Ends (Error.Points (before ++ (inner ++ after))) (fun _ => True)
      (tailOfTokens (before ++ inner).size tokens) := by
  generalize hstop : (before ++ inner).size = stop
  fun_induction tailOfTokens stop tokens generalizing u first g with
  | case1 => exact .ok trivial
  | case2 value span rest =>
    cases hlayout with
    | cons hb hstands =>
      cases hstands with
      | operand hsecond =>
        simp only [List.append_assoc] at hfirst hsecond
        rw [← List.append_assoc before u] at hsecond
        refine .error (.of_marks (.adjacentOperands hfirst hb hsecond) ?_ ?_)
        · simp only [hinner, List.append_assoc]
        · simp only [Error.span?, List.append_assoc]
  | case3 op span =>
    cases hlayout with
    | @cons _ blanks _ trail _ _ _ hstands hrest =>
      cases hstands with
      | operator hrun =>
        cases hrest with
        | nil hb =>
          have hsplit : inner = (u ++ (first ++ blanks)) ++ (op.symbol ++ trail) := by
            simp only [hinner, List.append_assoc]
          rw [hsplit] at hbalanced hstop ⊢
          simp only [List.append_assoc] at hrun
          simp only [← List.append_assoc before] at hrun
          subst hstop
          refine .error (.of_marks (.trailingOperator haround hbalanced ?_ hb) ?_ rfl)
          · simpa only [List.append_assoc] using hrun
          · simp only [List.append_assoc, List.nil_append]
  | case4 op span op' span' rest =>
    cases hlayout with
    | cons _ _ hrest =>
      cases hrest with
      | cons _ hstands =>
        cases hstands with
        | operator hrun =>
          refine .error (.of_marks (.misplacedOperator hrun) ?_ rfl)
          simp only [hinner, List.append_assoc]
  | case5 op span value span' rest ih =>
    cases hlayout with
    | @cons _ blanks w _ _ _ _ _ hrest =>
      cases hrest with
      | @cons _ blanks' w' g' _ _ _ hstands hrest =>
        cases hstands with
        | operand hsecond =>
          -- the operand after the operator takes the place of the first one
          have hsplit : inner = (u ++ (first ++ (blanks ++ (w ++ blanks')))) ++ (w' ++ g') := by
            simp only [hinner, List.append_assoc]
          have htail := ih hsplit (by simpa only [List.append_assoc] using hsecond)
            (by simpa only [List.append_assoc] using hrest)
          exact htail.map fun _ _ => trivial

theorem Chain.ofTokens_ends (haround : Around before after) (hbalanced : inner.Balanced)
    {tokens : List (Located (Token α))} (hlayout : Layout after before inner tokens) :
    Except.Ends (Error.Points (before ++ (inner ++ after))) (fun _ => True)
      (ofTokens ⟨before.size, before.size + inner.size⟩ tokens) := by
  cases hlayout with
  | nil hblank => exact .error (.of_marks (.missingOperand haround hblank) rfl rfl)
  | @cons _ blanks w g _ _ _ hstands hrest =>
    cases hstands with
    | operator hrun =>
      refine .error (.of_marks (.misplacedOperator hrun) ?_ rfl)
      simp only [List.append_assoc]
    | operand hfirst =>
      rw [ofTokens, ← Text.size_append]
      have htail := tailOfTokens_ends haround hbalanced rfl hfirst hrest
      exact htail.map fun _ _ => trivial

theorem Calculator.reduce_ends (haround : Around before after) (hbalanced : inner.Balanced)
    {tokens : List (Located (Token α))} (hlayout : Layout after before inner tokens) :
    Except.Ends (Error.Points (before ++ (inner ++ after))) (fun _ => True)
      (reduce A ⟨before.size, before.size + inner.size⟩ tokens) := by
  refine (Chain.ofTokens_ends haround hbalanced hlayout).bind fun chain _ => ?_
  unfold Chain.reduce
  split
  · exact .ok trivial
  · exact .error (.of_span?_eq_none rfl)

end Order

theorem Token.Layout.group {u v gap : Text} {inner rest : Nest}
    {before after : List (Located (Token α))} (value : α)
    (hbefore : Layout ('(' :: (inner.text ++ ')' :: (rest.text ++ v))) u gap before)
    (hafter : Layout v (u ++ gap ++ '(' :: (inner.text ++ [')'])) rest.text after) :
    Layout v u (gap ++ '(' :: (inner.text ++ ')' :: rest.text))
      (before ++ ⟨.operand value, ⟨u.size + gap.size,
        u.size + gap.size + 1 + inner.size + 1⟩⟩ :: after) := by
  have hstands : Stands (.operand value) (u ++ gap) ('(' :: (inner.text ++ [')']))
      (rest.text ++ v) := .operand (.group ⟨inner, rfl⟩)
  have hgroup := Layout.token hstands hafter
  have hsize : (u ++ gap).size + Text.size ('(' :: (inner.text ++ [')'])) =
      u.size + gap.size + 1 + inner.size + 1 := by
    rw [Text.size_append, Text.size_parentheses, Nest.size]
    simp only [Text.size_nil]
    omega
  rw [hsize, Text.size_append, List.cons_append, List.append_assoc, List.singleton_append]
    at hgroup
  refine .append ?_ hgroup
  simpa only [List.cons_append, List.append_assoc] using hbefore

/-- The tokens of a nest stand in its text, or an error marks what is wrong. -/
theorem Nest.tokens_ends (n : Nest) {u v : Text} (hu : ∀ c ∈ u.getLast?, separates c = true)
    (hv : ∀ c ∈ v.head?, separates c = true) :
    Except.Ends (Error.Points (u ++ (n.text ++ v))) (Layout v u n.text)
      (n.tokens A u.size) := by
  induction n generalizing u v with
  | flat gap plain => exact Token.placed plain (apart_of_separates hu gap) hv
  | group gap plain inner rest ihi ihr =>
    generalize ht : u ++ ((group gap plain inner rest).text ++ v) = t
    -- the text once more, cut around the gap, around what the group encloses and after the group
    have hgap : u ++ (gap ++ '(' :: (inner.text ++ ')' :: (rest.text ++ v))) = t := by
      simp [← ht, text]
    have hinner : (u ++ gap ++ ['(']) ++ (inner.text ++ ')' :: (rest.text ++ v)) = t := by
      simp [← ht, text]
    have hrest : (u ++ gap ++ '(' :: (inner.text ++ [')'])) ++ (rest.text ++ v) = t := by
      simp [← ht, text]
    have hstart : (u ++ gap ++ ['(']).size = u.size + gap.size + 1 := by
      rw [Text.size_append, Text.size_append]
      rfl
    have hstop : (u ++ gap ++ '(' :: (inner.text ++ [')'])).size =
        u.size + gap.size + 1 + inner.size + 1 := by
      rw [Text.size_append, Text.size_append, Text.size_parentheses, Text.size_nil, size]
      omega
    have hbefore : Token.Placed A u gap ('(' :: (inner.text ++ ')' :: (rest.text ++ v))) :=
      Token.placed plain (apart_of_separates hu gap) (by simp [separates])
    have henclosed := ihi (u := u ++ gap ++ ['(']) (v := ')' :: (rest.text ++ v))
      (by simp [separates]) (by simp [separates])
    have hclosed : ∀ c ∈ (u ++ gap ++ '(' :: (inner.text ++ [')'])).getLast?,
        separates c = true := by
      rw [← List.cons_append, ← List.append_assoc, List.getLast?_concat]
      simp [separates]
    have hafter := ihr hclosed hv
    rw [Token.Placed, hgap] at hbefore
    rw [hinner, hstart] at henclosed
    rw [hrest, hstop] at hafter
    refine hbefore.bind fun before hbefore => ?_
    refine henclosed.bind fun enclosed henclosed => ?_
    have hvalue := Calculator.reduce_ends (A := A) (.group (u ++ gap) (rest.text ++ v))
      ⟨inner, rfl⟩ henclosed
    rw [hinner, hstart] at hvalue
    refine hvalue.bind fun value _ => ?_
    refine hafter.bind fun after hafter => ?_
    exact .ok (hbefore.group value hafter)

theorem Error.Points.of_faultIn {t : Text} {error : Error} {maxDepth? : Option Nat}
    (h : Nesting.FaultIn maxDepth? 0 t error) : Points t error := by
  obtain ⟨u, c, v, rfl, hf⟩ := h
  rw [Nat.zero_add] at hf
  cases hf with
  | tooDeep => exact .of_marks .tooDeep rfl rfl
  | unclosed => exact .of_marks .unclosed rfl rfl
  | unopened => exact .of_marks .unopened rfl rfl

theorem Calculator.value_ends {maxDepth? : Option Nat} {t : Text} :
    Except.Ends (Error.Points t) (fun _ => True) (value A maxDepth? t) := by
  cases hgroups : groups maxDepth? t with
  | error error =>
    rw [value, hgroups, Except.error_bind]
    exact .error (.of_faultIn (faultIn_of_groups hgroups))
  | ok spans =>
    obtain ⟨n, rfl⟩ := Nest.exists_of_groups hgroups
    have htokens := n.tokens_ends (A := A) (u := []) (v := []) (by simp) (by simp)
    rw [value, hgroups, Except.ok_bind, n.run_text, n.nested_text]
    simp only [List.nil_append, List.append_nil, Text.size_nil] at htokens
    refine htokens.bind fun tokens hlayout => ?_
    have hreduce := reduce_ends (A := A) .expression ⟨n, rfl⟩ hlayout
    rw [List.nil_append, List.append_nil, Text.size_nil] at hreduce
    exact hreduce

theorem calculateWithin_ends (limits : Limits) (t : Text) :
    Except.Ends (Error.Points t) (fun _ => True) (calculateWithin A limits t) := by
  unfold calculateWithin
  split
  · exact .error (.of_span?_eq_none rfl)
  · exact Calculator.value_ends

namespace Expansion

variable {limits : Limits}

theorem exists_of_accept_error {segs : List (Segment Pattern)} {before : UInt32} {pos : Nat}
    {error : Error} (h : accept limits before pos segs = .error error) :
    ∃ l p l' problem, segs = l ++ .dice p :: l' ∧
      error = .invalidDice p.text ⟨pos + (Segment.source l).size,
        pos + (Segment.source l).size + p.text.size⟩ problem := by
  induction segs generalizing before pos with
  | nil => cases h
  | cons segment segs ih =>
    cases segment with
    | text t =>
      obtain ⟨l, p, l', problem, rfl, rfl⟩ := ih (Except.map_eq_error_iff.mp h)
      refine ⟨.text t :: l, p, l', problem, rfl, ?_⟩
      rw [Segment.source_cons, Segment.write, Text.size_append, ← Nat.add_assoc]
    | dice p =>
      unfold accept at h
      split at h
      · next problem _ =>
        obtain rfl := Except.error.inj h
        exact ⟨[], p, segs, problem, rfl, rfl⟩
      · obtain ⟨l, q, l', problem, rfl, rfl⟩ := ih (Except.map_eq_error_iff.mp h)
        refine ⟨.dice p :: l, q, l', problem, rfl, ?_⟩
        rw [Segment.source_cons, Segment.write, Text.size_append, ← Nat.add_assoc]

theorem prepare_ends (limits : Limits) (t : Text) :
    Except.Ends (Error.Points t) (fun _ => True) (prepare limits t) := by
  by_cases hlong : limits.maxLength.toNat < t.size
  · rw [prepare_of_long hlong]
    exact .error (.of_span?_eq_none rfl)
  rw [prepare_of_short hlong]
  cases hdepth : checkDepth limits.maxDepth.toNat t with
  | error error => exact .error (.of_faultIn (Nesting.faultIn_of_check hdepth))
  | ok =>
    rw [Except.ok_bind]
    cases haccept : accept limits 0 0 (segments t) with
    | ok accepted => exact .ok trivial
    | error error =>
      obtain ⟨l, p, l', problem, hsegs, rfl⟩ := exists_of_accept_error haccept
      have ht := Segment.text_of_segments hsegs
      refine .error (.of_marks (.invalidDice ?_ (Segment.alone_of_segments hsegs)) ht ?_)
      · rwa [← ht]
      · simp only [Error.span?, Nat.zero_add]

end Expansion

/-- The place of an error lies in the text, between characters, and is what the error is about. -/
theorem error_points {σ : Type} (A : Arithmetic α) (r : Roller σ) (limits : Limits) (t : Text) :
    (∀ s error, (expand r limits t s).1 = .error (.rejected error) → error.Points t) ∧
    ∀ error, calculateWithin A limits t = .error error → error.Points t := by
  constructor
  · intro s error h
    rw [expand_eq_draw] at h
    exact (Expansion.prepare_ends limits t).of_error (Expansion.outcome_eq_rejected_iff.mp h)
  · intro error h
    exact (calculateWithin_ends limits t).of_error h

theorem error_points_group :
    ((expand .highest .standard "(é0d6)".toList ()).1 =
        .error (.rejected (.invalidDice "0d6".toList ⟨3, 6⟩ .noDice)) ∧
      Error.Points "(é0d6)".toList (.invalidDice "0d6".toList ⟨3, 6⟩ .noDice)) ∧
    (calculateWithin (.free Empty) .standard "1 + (2 (3))".toList =
        .error (.malformed ⟨7, 10⟩ .adjacentOperands) ∧
      Error.Points "1 + (2 (3))".toList (.malformed ⟨7, 10⟩ .adjacentOperands)) := by
  have hexpand : (expand .highest .standard "(é0d6)".toList ()).1 =
      .error (.rejected (.invalidDice "0d6".toList ⟨3, 6⟩ .noDice)) := by decide +kernel
  have hcalculate : calculateWithin (.free Empty) .standard "1 + (2 (3))".toList =
      .error (.malformed ⟨7, 10⟩ .adjacentOperands) := by decide +kernel
  exact ⟨⟨hexpand, (error_points (.free Empty) .highest .standard _).1 () _ hexpand⟩,
    ⟨hcalculate, (error_points (.free Empty) .highest .standard _).2 _ hcalculate⟩⟩

end DiceArith
