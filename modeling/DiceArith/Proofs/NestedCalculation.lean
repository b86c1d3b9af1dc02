import DiceArith.Calculator
import DiceArith.Proofs.Nest

/-! # Nested calculation

The outermost groups of a text can be calculated first, each as a text of its own that starts
further right. A calculation that sets tokens aside comes to the same value, or to the same
error, because the groups of a balanced text are nested and it finishes the inner ones first.
-/

namespace DiceArith

open Bracketing (ofText)

namespace Text

theorem cut?_append (t u : Text) : cut? t.size (t ++ u) = some (t, u) := by
  induction t with
  | nil => simp [cut?]
  | cons c t ih =>
    obtain ⟨n, hn⟩ : ∃ n, c.utf8Size + size t = n + 1 :=
      ⟨_, (Nat.succ_pred_eq_of_pos (Nat.add_pos_left c.utf8Size_pos _)).symm⟩
    have hsub : n + 1 - c.utf8Size = size t := by omega
    rw [size_cons, hn, List.cons_append, cut?, if_neg (by omega), hsub, ih]
    rfl

theorem append_of_cut? {n : Nat} {t before after : Text} (h : cut? n t = some (before, after)) :
    t = before ++ after ∧ before.size = n := by
  fun_induction cut? n t generalizing before with
  | case1 =>
    obtain ⟨rfl, rfl⟩ := Prod.mk.inj (Option.some.inj h)
    exact ⟨rfl, rfl⟩
  | case2 => cases h
  | case3 => cases h
  | case4 n c t hc ih =>
    obtain ⟨⟨u, v⟩, hu, huv⟩ := Option.map_eq_some_iff.mp h
    obtain ⟨rfl, rfl⟩ := Prod.mk.inj huv
    obtain ⟨rfl, hsize⟩ := ih hu
    refine ⟨rfl, ?_⟩
    rw [size_cons, hsize]
    omega

/-- The part that a span marks, unless an end of it splits a character. -/
def slice? (span : Span) (t : Text) : Option Text := do
  let (_, after) ← cut? span.start t
  let (slice, _) ← cut? (span.stop - span.start) after
  return slice

theorem slice?_append (t u v : Text) :
    slice? ⟨t.size, t.size + u.size⟩ (t ++ (u ++ v)) = some u := by
  simp [slice?, cut?_append]

theorem size_of_slice? {span : Span} {t u : Text} (h : slice? span t = some u) :
    span.start + u.size ≤ t.size := by
  unfold slice? at h
  simp only [Option.bind_eq_bind, Option.bind_eq_some_iff, Prod.exists, Option.pure_def,
    Option.some.injEq] at h
  obtain ⟨before, after, hcut, slice, rest, hslice, rfl⟩ := h
  obtain ⟨rfl, hsize⟩ := append_of_cut? hcut
  obtain ⟨rfl, _⟩ := append_of_cut? hslice
  simp only [size_append]
  omega

end Text

namespace Calculator

variable {α : Type} (A : Arithmetic α)

mutual

/-- The value of a text that starts at `off`, its groups calculated one by one. -/
def nested (off : Nat) (t : Text) : Except Error α := do
  let spans ← groups none t
  let tokens ← nestedTokens off t 0 spans
  reduce A ⟨off, off + t.size⟩ tokens
termination_by (t.size, 1, 0)

def nestedTokens (off : Nat) (t : Text) (pos : Nat) :
    List Span → Except Error (List (Located (Token α)))
  | [] => Token.ofText A (off + pos) ((t.slice? ⟨pos, t.size⟩).getD [])
  | span :: spans => do
    let before ← Token.ofText A (off + pos) ((t.slice? ⟨pos, span.start⟩).getD [])
    -- a group starts and stops at a parenthesis, so what it encloses is always found
    let value ←
      match _h : t.slice? ⟨span.start + 1, span.stop - 1⟩ with
      | some inner => nested (off + span.start + 1) inner
      | none => reduce A ⟨off + span.start + 1, off + span.stop - 1⟩ []
    let after ← nestedTokens off t span.stop spans
    return before ++ ⟨.operand value, ⟨off + span.start, off + span.stop⟩⟩ :: after
termination_by spans => (t.size, 0, spans.length)
decreasing_by
  · exact Prod.Lex.right _ (Prod.Lex.right _ (Nat.lt_succ_self _))
  · have := Text.size_of_slice? _h
    exact Prod.Lex.left _ _ (by simp only at this; omega)

end

variable {A} in
theorem nestedTokens_cons {off pos : Nat} {t inner : Text} {span : Span} {spans : List Span}
    (h : t.slice? ⟨span.start + 1, span.stop - 1⟩ = some inner) :
    nestedTokens A off t pos (span :: spans) = (do
      let before ← Token.ofText A (off + pos) ((t.slice? ⟨pos, span.start⟩).getD [])
      let value ← nested A (off + span.start + 1) inner
      let after ← nestedTokens A off t span.stop spans
      return before ++ ⟨.operand value, ⟨off + span.start, off + span.stop⟩⟩ :: after) := by
  rw [nestedTokens]
  split
  · next h' => rw [Option.some.inj (h'.symm.trans h)]
  · next h' => cases h'.symm.trans h

end Calculator

namespace Nest

section Calculation

open Calculator

variable {α : Type} (A : Arithmetic α)

def tokens (pos : Nat) : Nest → Except Error (List (Located (Token α)))
  | flat gap _ => Token.ofText A pos gap
  | group gap _ inner rest => do
    let before ← Token.ofText A pos gap
    let start := pos + gap.size
    let stop := start + 1 + inner.size
    let enclosed ← inner.tokens (start + 1)
    let value ← reduce A ⟨start + 1, stop⟩ enclosed
    let after ← rest.tokens (stop + 1)
    return before ++ ⟨.operand value, ⟨start, stop + 1⟩⟩ :: after

/-- The calculator leaves a group with its value as an operand of the next one. -/
theorem run_closedBy (n : Nest) (frame : Frame α) (enclosing : List (Frame α))
    (before : List (Located (Token α))) (pos : Nat) (after : Bracketing) :
    run A (frame :: enclosing) before pos (n.closedBy after) = (do
      let more ← n.tokens A pos
      let value ← reduce A ⟨frame.start + 1, pos + n.size⟩ (before ++ more)
      let group := ⟨.operand value, ⟨frame.start, pos + n.size + 1⟩⟩
      run A enclosing (frame.tokens ++ [group]) (pos + n.size + 1) after) := by
  induction n generalizing frame enclosing before pos after with
  | flat gap plain => rfl
  | group gap plain inner rest ihi ihr =>
    rw [closedBy, run, tokens, add_size_group]
    simp only [ihi, ihr, bind_assoc, pure_bind, List.nil_append, List.append_assoc,
      List.singleton_append]

theorem run_whole (n : Nest) (before : List (Located (Token α))) (pos : Nat) :
    run A [] before pos n.whole = (do
      let more ← n.tokens A pos
      reduce A ⟨0, pos + n.size⟩ (before ++ more)) := by
  induction n generalizing before pos with
  | flat gap plain => rfl
  | group gap plain inner rest _ ihr =>
    rw [whole, run, tokens, add_size_group]
    simp only [run_closedBy, ihr, bind_assoc, pure_bind, List.nil_append, List.append_assoc,
      List.singleton_append]

theorem nested_of_tokens {n : Nest} {off : Nat}
    (h : nestedTokens A off n.text 0 (n.spans 0) = n.tokens A off) :
    nested A off n.text = (do reduce A ⟨off, off + n.size⟩ (← n.tokens A off)) := by
  rw [nested, groups_text, Except.ok_bind, h]
  rfl

theorem nestedTokens_append (n : Nest) (off : Nat) (before : Text) :
    nestedTokens A off (before ++ n.text) before.size (n.spans before.size) =
      n.tokens A (off + before.size) := by
  induction n generalizing off before with
  | flat gap plain =>
    have h := Text.slice?_append before gap []
    rw [List.append_nil] at h
    rw [spans, nestedTokens, text, Text.size_append, h]
    rfl
  | group gap plain inner rest ihi ihr =>
    generalize ht : before ++ (group gap plain inner rest).text = t
    -- the text once more, cut before and after what the first group encloses
    have hopen : (before ++ (gap ++ ['('])) ++ (inner.text ++ ')' :: rest.text) = t := by
      simp [← ht, text]
    have hclose : (before ++ (gap ++ ['(']) ++ (inner.text ++ [')'])) ++ rest.text = t := by
      simp [← ht, text]
    have hstart : (before ++ (gap ++ ['('])).size = before.size + gap.size + 1 := by
      simp only [Text.size_append, ← Nat.add_assoc]
      rfl
    have hstop : (before ++ (gap ++ ['(']) ++ (inner.text ++ [')'])).size =
        before.size + gap.size + 1 + inner.size + 1 := by
      rw [Text.size_append, hstart, Text.size_append, ← Nat.add_assoc]
      rfl
    have hgap : t.slice? ⟨before.size, before.size + gap.size⟩ = some gap :=
      ht ▸ Text.slice?_append before gap _
    have hinner := Text.slice?_append (before ++ (gap ++ ['('])) inner.text (')' :: rest.text)
    rw [hopen, hstart] at hinner
    have hvalue := nested_of_tokens A (ihi (off + (before.size + gap.size) + 1) [])
    have hafter := ihr off (before ++ (gap ++ ['(']) ++ (inner.text ++ [')']))
    rw [hclose, hstop] at hafter
    rw [spans, nestedTokens_cons hinner, hgap, tokens, hafter, hvalue]
    simp only [bind_assoc, Nat.add_assoc]
    rfl

theorem nested_text (n : Nest) (off : Nat) :
    nested A off n.text = (do reduce A ⟨off, off + n.size⟩ (← n.tokens A off)) :=
  nested_of_tokens A (n.nestedTokens_append A off [])

theorem run_text (n : Nest) :
    run A [] [] 0 (ofText n.text) = nested A 0 n.text := by
  rw [ofText_text, run_whole, nested_text]
  rfl

end Calculation

end Nest

/-- Within the bound on length a calculation fails as the parentheses do, and otherwise agrees with
the nested one. -/
theorem calculateWithin_eq_nested {α : Type} (A : Arithmetic α) (limits : Limits) (t : Text)
    (hsize : t.size ≤ limits.maxLength.toNat) :
    (∀ error, groups (some limits.maxDepth.toNat) t = .error error →
      calculateWithin A limits t = .error error) ∧
    ∀ spans, groups (some limits.maxDepth.toNat) t = .ok spans →
      calculateWithin A limits t = Calculator.nested A 0 t := by
  rw [calculateWithin, if_neg (Nat.not_lt.mpr hsize), Calculator.value]
  constructor
  · intro error h
    rw [h, Except.error_bind]
  · intro spans h
    obtain ⟨n, rfl⟩ := Nest.exists_of_groups h
    rw [h, Except.ok_bind, Nest.run_text]

theorem calculateWithin_eq_nested_standard :
    (Text.size "2 3 (".toList ≤ Limits.standard.maxLength.toNat ∧
      calculateWithin Arithmetic.float .standard "2 3 (".toList =
        .error (.unbalanced (.byteAt 4) .unclosed)) ∧
    (Text.size "1 + (2 -) ?".toList ≤ Limits.standard.maxLength.toNat ∧
      calculateWithin Arithmetic.float .standard "1 + (2 -) ?".toList =
        Calculator.nested Arithmetic.float 0 "1 + (2 -) ?".toList) :=
  ⟨⟨by decide, (calculateWithin_eq_nested _ _ _ (by decide)).1 _ rfl⟩,
    ⟨by decide, (calculateWithin_eq_nested _ _ _ (by decide)).2 [⟨4, 9⟩] rfl⟩⟩

end DiceArith
