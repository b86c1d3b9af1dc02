import DiceArith.Proofs.TokenPlaces

/-! # Longest lexemes

A text is split in one way when blanks are skipped and the longest lexeme is taken wherever one
starts. Tokens are read from these lexemes, one from each of them up to the first symbol that is no
operator, and they are appended to what was read before.
-/

namespace DiceArith

open Text

namespace Lexeme

/-- What is written as one lexeme, whatever follows it. -/
inductive Formed : Lexeme → Prop
  | literal {n : Numeral} : n.Valid → Formed (.literal n.text)
  | symbol {w : Text} : w ≠ [] → (∀ c ∈ w, isSymbolic c = true) → Formed (.symbol w)

/-- A text starts with a lexeme, and with no longer one. -/
structure Longest (lexeme : Lexeme) (t rest : Text) : Prop where
  eq : t = lexeme.text ++ rest
  formed : lexeme.Formed
  longest : ∀ (other : Lexeme) (rest' : Text), other.Formed → t = other.text ++ rest' →
    other.text.length ≤ lexeme.text.length

variable {lexeme other : Lexeme} {c : Char} {t u w rest rest' : Text}

theorem Formed.exists_cons (h : lexeme.Formed) : ∃ c w, isBlank c = false ∧
    lexeme = if c.isDigit then .literal (c :: w) else .symbol (c :: w) := by
  cases h with
  | literal hn =>
    obtain ⟨c, w, hw, hc⟩ := hn.exists_cons
    exact ⟨c, w, isBlank_of_isDigit hc, by rw [if_pos hc, hw]⟩
  | symbol hne hw =>
    obtain ⟨c, w, rfl⟩ := List.exists_cons_of_ne_nil hne
    have hc := hw c List.mem_cons_self
    refine ⟨c, w, not_isBlank_of_isSymbolic hc, ?_⟩
    rw [if_neg (by simp [not_isDigit_of_isSymbolic hc])]

theorem text_ite (w : Text) (p : Prop) [Decidable p] :
    (if p then literal w else symbol w).text = w := by
  split <;> rfl

theorem Formed.text_ne_nil (h : lexeme.Formed) : lexeme.text ≠ [] := by
  obtain ⟨c, w, _, rfl⟩ := h.exists_cons
  rw [text_ite]
  exact List.cons_ne_nil c w

theorem Formed.eq_of_text (h : lexeme.Formed) (h' : other.Formed)
    (htext : lexeme.text = other.text) : lexeme = other := by
  obtain ⟨c, w, _, rfl⟩ := h.exists_cons
  obtain ⟨d, v, _, rfl⟩ := h'.exists_cons
  rw [text_ite, text_ite] at htext
  obtain ⟨rfl, rfl⟩ := List.cons.inj htext
  rfl

theorem prefix_continuation_numeral {n : Numeral} (hn : n.Valid) (hw : n.text = c :: w)
    (u : Text) : w <+: continuation c (w ++ u) := by
  obtain ⟨whole, fr⟩ := n
  obtain ⟨d, v, rfl⟩ := List.exists_cons_of_ne_nil hn.whole_ne_nil
  obtain ⟨hd, hv⟩ := List.forall_mem_cons.mp hn.whole_digits
  by_cases hfr : fr = []
  · obtain ⟨rfl, rfl⟩ : d = c ∧ v = w := by simpa [Numeral.text, hfr] using hw
    rw [continuation, if_pos hd, digits_append hv, List.append_assoc]
    exact List.prefix_append _ _
  · obtain ⟨rfl, rfl⟩ : d = c ∧ v ++ '.' :: fr = w := by simpa [Numeral.text, hfr] using hw
    have hdot : ∀ c ∈ List.head? ('.' :: (fr ++ u)), c.isDigit = false := by simp
    have hdigits : digits (fr ++ u) = fr ++ digits u := digits_append hn.fraction_digits
    -- the digits after the point are what makes the point a part of the literal
    rw [continuation, if_pos hd, List.append_assoc, List.cons_append, digits_append hv,
      pastDigits_append hv, digits_of_head hdot, pastDigits_of_head hdot, fraction, hdigits,
      if_neg (by simp [hfr]), List.append_nil]
    exact ⟨digits u, by simp⟩

theorem prefix_continuation_symbol (hc : isSymbolic c = true) (hw : ∀ d ∈ w, isSymbolic d = true)
    (u : Text) : w <+: continuation c (w ++ u) := by
  rw [continuation, if_neg (by simp [not_isDigit_of_isSymbolic hc]),
    List.takeWhile_append_of_pos hw]
  exact List.prefix_append _ _

theorem Formed.prefix_continuation (h : lexeme.Formed) (hw : lexeme.text = c :: w) (u : Text) :
    w <+: continuation c (w ++ u) := by
  cases h with
  | literal hn => exact prefix_continuation_numeral hn hw u
  | symbol _ hall =>
    obtain rfl : _ = c :: w := hw
    obtain ⟨hc, hall⟩ := List.forall_mem_cons.mp hall
    exact prefix_continuation_symbol hc hall u

theorem formed_ofHead (hc : isBlank c = false) (t : Text) : (ofHead c t).Formed := by
  by_cases hdigit : c.isDigit = true
  · obtain ⟨n, hn, htext, _⟩ := exists_numeral hdigit t
    rw [ofHead, if_pos hdigit, ← htext]
    exact .literal hn
  · rw [ofHead, if_neg hdigit]
    exact .symbol (List.cons_ne_nil _ _) (symbolic_run (by simp [isSymbolic, hdigit, hc]) t).1

theorem longest_ofHead (hc : isBlank c = false) (t : Text) :
    (ofHead c t).Longest (c :: t) (t.drop (continuation c t).length) := by
  refine ⟨?_, formed_ofHead hc t, ?_⟩
  · rw [text_ofHead, List.cons_append, continuation_append_drop]
  · intro other rest' hother ht
    obtain ⟨d, w, hw⟩ := List.exists_cons_of_ne_nil hother.text_ne_nil
    rw [hw] at ht
    obtain ⟨rfl, rfl⟩ := List.cons.inj ht
    rw [hw, text_ofHead, List.length_cons, List.length_cons]
    exact Nat.succ_le_succ (hother.prefix_continuation hw rest').length_le

theorem Longest.head (h : lexeme.Longest (c :: t) rest) : isBlank c = false := by
  obtain ⟨d, w, hd, rfl⟩ := h.formed.exists_cons
  have heq := h.eq
  rw [text_ite] at heq
  obtain ⟨rfl, _⟩ := List.cons.inj heq
  exact hd

theorem Longest.unique (h : lexeme.Longest t rest) (h' : other.Longest t rest') :
    lexeme = other ∧ rest = rest' := by
  have hlength : lexeme.text.length = other.text.length :=
    Nat.le_antisymm (h'.longest _ _ h.formed h.eq) (h.longest _ _ h'.formed h'.eq)
  obtain ⟨htext, hrest⟩ := List.append_inj (h.eq.symm.trans h'.eq) hlength
  exact ⟨h.formed.eq_of_text h'.formed htext, hrest⟩

end Lexeme

namespace Text

/-- Blanks are skipped, and the longest lexeme is taken wherever one starts. -/
inductive Splits : (pos : Nat) → Text → List (Located Lexeme) → Prop
  | nil {pos} : Splits pos [] []
  | blank {pos c t ls} : isBlank c = true → Splits (pos + c.utf8Size) t ls → Splits pos (c :: t) ls
  | lexeme {pos t rest ls} {lexeme : Lexeme} : lexeme.Longest t rest →
      Splits (pos + lexeme.text.size) rest ls →
      Splits pos t (⟨lexeme, ⟨pos, pos + lexeme.text.size⟩⟩ :: ls)

/-- Lexemes stand in a text one after the other, and leave out blanks only. -/
structure CoveredBy (pos : Nat) (t : Text) (ls : List (Located Lexeme)) : Prop where
  increasing : ls.Pairwise fun l l' => l.span.stop ≤ l'.span.start
  stands : ∀ l ∈ ls, l.item.Formed ∧ ∃ u v : Text, t = u ++ (l.item.text ++ v) ∧
    l.span = ⟨pos + u.size, pos + u.size + l.item.text.size⟩
  covered : ∀ (u : Text) (c : Char) (v : Text), t = u ++ c :: v → isBlank c = false →
    ∃ l ∈ ls, l.span.start ≤ pos + u.size ∧ pos + u.size < l.span.stop

variable {pos : Nat} {c : Char} {t rest : Text} {ls ls' : List (Located Lexeme)} {lexeme : Lexeme}

theorem splits_lexemes (pos : Nat) (t : Text) : t.Splits pos (lexemes pos t) := by
  fun_induction lexemes pos t with
  | case1 => exact .nil
  | case2 pos c t hc ih => exact .blank hc ih
  | case3 pos c t hc lexeme stop ih =>
    exact .lexeme (Lexeme.longest_ofHead (Bool.eq_false_iff.mpr hc) t) ih

theorem Splits.unique (h : t.Splits pos ls) (h' : t.Splits pos ls') : ls = ls' := by
  induction h generalizing ls' with
  | nil =>
    cases h' with
    | nil => rfl
    | lexeme hl _ => exact absurd hl.eq.symm (by simp [hl.formed.text_ne_nil])
  | blank hc _ ih =>
    cases h' with
    | blank _ hrest => exact ih hrest
    | lexeme hl _ => cases hl.head.symm.trans hc
  | lexeme hl _ ih =>
    cases h' with
    | nil => exact absurd hl.eq.symm (by simp [hl.formed.text_ne_nil])
    | blank hc _ => cases hl.head.symm.trans hc
    | lexeme hl' hrest =>
      obtain ⟨rfl, rfl⟩ := hl.unique hl'
      rw [ih hrest]

theorem splits_iff : t.Splits pos ls ↔ ls = lexemes pos t := by
  constructor
  · intro h
    exact h.unique (splits_lexemes pos t)
  · rintro rfl
    exact splits_lexemes pos t

namespace CoveredBy

theorem blank (hc : isBlank c = true) (h : t.CoveredBy (pos + c.utf8Size) ls) :
    CoveredBy pos (c :: t) ls := by
  obtain ⟨hincreasing, hstands, hcovered⟩ := h
  refine ⟨hincreasing, ?_, ?_⟩
  · intro l hl
    obtain ⟨hformed, u, v, rfl, hspan⟩ := hstands l hl
    exact ⟨hformed, c :: u, v, rfl, by rw [hspan, size_cons, Nat.add_assoc]⟩
  · rintro u d v ht hd
    cases u with
    | nil =>
      obtain ⟨rfl, _⟩ := List.cons.inj ht
      cases hd.symm.trans hc
    | cons e u =>
      obtain ⟨rfl, htail⟩ := List.cons.inj ht
      rw [size_cons, ← Nat.add_assoc]
      exact hcovered u d v htail hd

theorem cons (hformed : lexeme.Formed) (h : rest.CoveredBy (pos + lexeme.text.size) ls) :
    CoveredBy pos (lexeme.text ++ rest) (⟨lexeme, ⟨pos, pos + lexeme.text.size⟩⟩ :: ls) := by
  obtain ⟨hincreasing, hstands, hcovered⟩ := h
  refine ⟨List.pairwise_cons.mpr ⟨?_, hincreasing⟩, List.forall_mem_cons.mpr ⟨?_, ?_⟩, ?_⟩
  · intro l hl
    obtain ⟨_, _, _, _, hspan⟩ := hstands l hl
    rw [hspan]
    exact Nat.le_add_right _ _
  · exact ⟨hformed, [], rest, rfl, rfl⟩
  · intro l hl
    obtain ⟨hl, u, v, rfl, hspan⟩ := hstands l hl
    refine ⟨hl, lexeme.text ++ u, v, (List.append_assoc _ _ _).symm, ?_⟩
    rw [hspan, size_append, Nat.add_assoc]
  · intro u c v ht hc
    rcases append_cons_cases ht with ⟨w, hw⟩ | ⟨u, rfl, hrest⟩
    · refine ⟨_, List.mem_cons_self, Nat.le_add_right _ _, ?_⟩
      have := c.utf8Size_pos
      simp only [hw, size_append, size_cons]
      omega
    · obtain ⟨l, hl, hle, hlt⟩ := hcovered u c v hrest hc
      rw [size_append, ← Nat.add_assoc]
      exact ⟨l, List.mem_cons_of_mem _ hl, hle, hlt⟩

end CoveredBy

theorem Splits.coveredBy (h : t.Splits pos ls) : t.CoveredBy pos ls := by
  induction h with
  | nil => exact ⟨.nil, by simp, by simp⟩
  | blank hc _ ih => exact .blank hc ih
  | lexeme hl _ ih =>
    rw [hl.eq]
    exact .cons hl.formed ih

end Text

def Span.shifted (offset : Nat) (s : Span) : Span :=
  ⟨min (s.start + offset) (2 ^ 64 - 1), min (s.stop + offset) (2 ^ 64 - 1)⟩

theorem Lexeme.map_clamp_lexemes (offset pos : Nat) (t : Text) :
    (lexemes (pos + offset) t).map (fun ⟨lexeme, span⟩ => (⟨lexeme, span.clamp⟩ : Located Lexeme)) =
      (lexemes pos t).map fun ⟨lexeme, span⟩ => ⟨lexeme, span.shifted offset⟩ := by
  fun_induction lexemes pos t with
  | case1 => simp [lexemes]
  | case2 pos c t hc ih => rw [lexemes, if_pos hc, ← ih, Nat.add_right_comm]
  | case3 pos c t hc lexeme stop ih =>
    rw [lexemes, if_neg hc, List.map_cons, List.map_cons, ← ih, Nat.add_right_comm]
    rfl

namespace Token

variable {α : Type} (A : Arithmetic α) (offset : Nat)

inductive ReadFrom : Located Lexeme → Located (Token α) → Prop
  | operand {n : Numeral} {span} : n.Valid →
      ReadFrom ⟨.literal n.text, span⟩ ⟨.operand (A.numeral n), span.shifted offset⟩
  | operator {span} (op : Operator) :
      ReadFrom ⟨.symbol op.symbol, span⟩ ⟨.operator op, span.shifted offset⟩

/-- What reading adds: a token for each lexeme, up to a symbol that is no operator. -/
inductive Adds (tokens : List (Located (Token α))) (ls : List (Located Lexeme)) :
    List (Located (Token α)) × Option Error → Prop
  | all {added} : List.Forall₂ (ReadFrom A offset) ls added → Adds tokens ls (tokens ++ added, none)
  | upTo {before w span after added} : ls = before ++ ⟨.symbol w, span⟩ :: after →
      (∀ op : Operator, op.symbol ≠ w) → List.Forall₂ (ReadFrom A offset) before added →
      Adds tokens ls
        (tokens ++ added, some (.malformed (span.shifted offset) (.unknownOperator w)))

variable {A offset} {lexeme : Lexeme} {span : Span} {tokens : List (Located (Token α))}
  {ls : List (Located Lexeme)} {l : Located Lexeme} {token : Located (Token α)}
  {answer : List (Located (Token α)) × Option Error}

theorem ofLexeme_of_formed (A : Arithmetic α) (offset : Nat) (h : lexeme.Formed) (span : Span) :
    (∃ token, ofLexeme A lexeme = .ok token ∧
      ReadFrom A offset ⟨lexeme, span⟩ ⟨token, span.shifted offset⟩) ∨
    ∃ w, lexeme = .symbol w ∧ (∀ op : Operator, op.symbol ≠ w) ∧
      ofLexeme A lexeme = .error (.unknownOperator w) := by
  cases h with
  | @literal n hn => exact .inl ⟨_, by rw [ofLexeme, hn.read?], .operand hn⟩
  | @symbol w _ _ =>
    cases hop : Operator.ofSymbol? w with
    | some op =>
      obtain rfl := Operator.symbol_of_ofSymbol? hop
      exact .inl ⟨_, by rw [ofLexeme, hop], .operator op⟩
    | none =>
      refine .inr ⟨w, rfl, ?_, by rw [ofLexeme, hop]⟩
      rintro op rfl
      cases (Operator.ofSymbol?_symbol op).symm.trans hop

theorem Adds.cons (h : ReadFrom A offset l token)
    (hadds : Adds A offset (tokens ++ [token]) ls answer) :
    Adds A offset tokens (l :: ls) answer := by
  cases hadds with
  | all hls =>
    rw [List.append_assoc]
    exact .all (.cons h hls)
  | @upTo before w span after added hls hw hbefore =>
    rw [List.append_assoc]
    exact .upTo (by rw [hls, List.cons_append]) hw (.cons h hbefore)

theorem adds_ofLexemes (A : Arithmetic α) (offset : Nat) (tokens : List (Located (Token α)))
    (h : ∀ l ∈ ls, l.item.Formed) : Adds A offset tokens ls ((ofLexemes A
      (ls.map fun ⟨lexeme, span⟩ => ⟨lexeme, span.shifted offset⟩)).map (tokens ++ ·) id) := by
  induction ls generalizing tokens with
  | nil => exact .all .nil
  | cons l ls ih =>
    obtain ⟨lexeme, span⟩ := l
    obtain ⟨hl, hls⟩ := List.forall_mem_cons.mp h
    rw [List.map_cons, ofLexemes]
    rcases ofLexeme_of_formed A offset hl span with
      ⟨token, htoken, hof⟩ | ⟨w, rfl, hw, herror⟩
    · rw [htoken]
      have hrest := Adds.cons hof (ih (tokens ++ [⟨token, span.shifted offset⟩]) hls)
      simpa [Prod.map] using hrest
    · have hsplit : (⟨.symbol w, span⟩ : Located Lexeme) :: ls =
          [] ++ ⟨.symbol w, span⟩ :: ls := rfl
      rw [herror]
      exact .upTo hsplit hw .nil

theorem exists_operator_of_mem {added : List (Located (Token α))} {w : Text}
    (h : List.Forall₂ (ReadFrom A offset) ls added) (hw : ⟨.symbol w, span⟩ ∈ ls) :
    ∃ op : Operator, op.symbol = w := by
  induction h with
  | nil => cases hw
  | cons hl _ ih =>
    rcases List.mem_cons.mp hw with rfl | hw
    · cases hl with
      | operator op => exact ⟨op, rfl⟩
    · exact ih hw

theorem Adds.eq_none_iff (h : Adds A offset tokens ls answer) :
    answer.2 = none ↔ ∀ w span, ⟨.symbol w, span⟩ ∈ ls → ∃ op : Operator, op.symbol = w := by
  cases h with
  | all hls => exact iff_of_true rfl fun w span => exists_operator_of_mem hls
  | @upTo before w span after added hls hw _ =>
    refine iff_of_false (by simp) fun hall => ?_
    obtain ⟨op, hop⟩ := hall w span (by simp [hls])
    exact hw op hop

end Token

/-- A text splits in one way into blanks and longest lexemes, which are read as tokens up to the
first symbol that is no operator. -/
theorem tokenize_longest {α : Type} (A : Arithmetic α) (t : Text) (offset : Nat)
    (tokens : List (Located (Token α))) : ∃ ls : List (Located Lexeme),
    (∀ ls', t.Splits 0 ls' ↔ ls' = ls) ∧ t.CoveredBy 0 ls ∧
    (∀ l ∈ ls, l.span.start < l.span.stop ∧ t.slice? l.span = some l.item.text) ∧
    ((tokenize A t offset tokens).2 = none ↔
      ∀ w span, ⟨.symbol w, span⟩ ∈ ls → ∃ op : Operator, op.symbol = w) ∧
    Token.Adds A offset tokens ls (tokenize A t offset tokens) := by
  have hcovered := (splits_lexemes 0 t).coveredBy
  have hadds : Token.Adds A offset tokens (lexemes 0 t) (tokenize A t offset tokens) := by
    have h := Token.adds_ofLexemes A offset tokens fun l hl => (hcovered.stands l hl).1
    rw [← Lexeme.map_clamp_lexemes, Nat.zero_add] at h
    exact h
  refine ⟨lexemes 0 t, fun _ => splits_iff, hcovered, ?_, hadds.eq_none_iff, hadds⟩
  intro l hl
  obtain ⟨hformed, u, v, ht, hspan⟩ := hcovered.stands l hl
  obtain ⟨c, w, hw⟩ := List.exists_cons_of_ne_nil hformed.text_ne_nil
  rw [hspan, Nat.zero_add]
  constructor
  · have := c.utf8Size_pos
    simp only [hw, size_cons]
    omega
  · rw [ht]
    exact slice?_append u l.item.text v

theorem tokenize_longest_point :
    Text.Splits 0 "1.25**3.é".toList [⟨.literal "1.25".toList, ⟨0, 4⟩⟩,
      ⟨.symbol "**".toList, ⟨4, 6⟩⟩, ⟨.literal "3".toList, ⟨6, 7⟩⟩,
      ⟨.symbol ".é".toList, ⟨7, 10⟩⟩] ∧
    Text.slice? ⟨7, 10⟩ "1.25**3.é".toList = some ".é".toList ∧
    (tokenize (.free Empty) "1.25**3.é".toList 18446744073709551609
      [⟨.operator .add, ⟨3, 4⟩⟩]).2 ≠ none ∧
    tokenize (.free Empty) "1.25**3.é".toList 18446744073709551609 [⟨.operator .add, ⟨3, 4⟩⟩] =
      ([⟨.operator .add, ⟨3, 4⟩⟩,
        ⟨.operand (.number ⟨"1".toList, "25".toList⟩),
          ⟨18446744073709551609, 18446744073709551613⟩⟩,
        ⟨.operator .power, ⟨18446744073709551613, 18446744073709551615⟩⟩,
        ⟨.operand (.number (.ofNat 3)), ⟨18446744073709551615, 18446744073709551615⟩⟩],
        some (.malformed ⟨18446744073709551615, 18446744073709551615⟩
          (.unknownOperator ".é".toList))) := by
  obtain ⟨ls, hsplits, _, hslices, hnone, _⟩ := tokenize_longest (.free Empty) "1.25**3.é".toList
    18446744073709551609 [⟨.operator .add, ⟨3, 4⟩⟩]
  have hls : ls = [⟨.literal "1.25".toList, ⟨0, 4⟩⟩, ⟨.symbol "**".toList, ⟨4, 6⟩⟩,
      ⟨.literal "3".toList, ⟨6, 7⟩⟩, ⟨.symbol ".é".toList, ⟨7, 10⟩⟩] := by
    rw [← (hsplits _).mp (splits_lexemes 0 _)]
    decide +kernel
  subst hls
  have hpoint := hslices ⟨.symbol ".é".toList, ⟨7, 10⟩⟩ (by simp)
  refine ⟨(hsplits _).mpr rfl, hpoint.2, fun h => ?_, by decide +kernel⟩
  obtain ⟨op, hop⟩ := hnone.mp h ".é".toList ⟨7, 10⟩ (by simp)
  cases op <;> cases hop

end DiceArith
