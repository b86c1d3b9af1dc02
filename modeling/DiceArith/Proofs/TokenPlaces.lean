import DiceArith.Proofs.Calculation
import DiceArith.Proofs.Places

/-! # Places of tokens

Every token stands where its span says, alone between the blanks, parentheses and other tokens
around it. What is wrong with a token or with the order of two of them is therefore found at its
place in the text, however deep the group is that it stands in.
-/

namespace DiceArith

open Text

namespace Lexeme

variable {c : Char} {t : Text}

theorem drop_of_append {k rest : Text} (h : t = k ++ rest) : t.drop k.length = rest :=
  (congrArg (List.drop k.length) h).trans List.drop_left

theorem fraction_cases (t : Text) : fraction t = [] ∨
    ∃ u, t = '.' :: u ∧ digits u ≠ [] ∧ fraction t = '.' :: digits u := by
  unfold fraction
  split
  · next u =>
    by_cases h : digits u = []
    · exact .inl (if_pos h)
    · exact .inr ⟨u, rfl, h, if_neg h⟩
  · exact .inl rfl

theorem exists_numeral (hc : c.isDigit = true) (t : Text) :
    ∃ n : Numeral, n.Valid ∧ n.text = c :: continuation c t ∧
      ∀ d ∈ (t.drop (continuation c t).length).head?, d.isDigit = false := by
  have hdigits : ∀ d ∈ c :: t.digits, d.isDigit = true :=
    List.forall_mem_cons.mpr ⟨hc, fun d => isDigit_of_mem_digits⟩
  have ht := digits_append_pastDigits t
  rcases fraction_cases t.pastDigits with hf | ⟨u, hu, hne, hf⟩
  · have hk : continuation c t = t.digits := by
      rw [continuation, if_pos hc, hf, List.append_nil]
    refine ⟨⟨c :: t.digits, []⟩, ⟨List.cons_ne_nil _ _, hdigits, by simp⟩, ?_, ?_⟩
    · rw [hk, Numeral.text, if_pos rfl]
    · rw [hk, drop_of_append ht.symm]
      exact head_pastDigits t
  · have hk : continuation c t = t.digits ++ '.' :: digits u := by
      rw [continuation, if_pos hc, hf]
    have hrest : t = (t.digits ++ '.' :: digits u) ++ pastDigits u := by
      rw [List.append_assoc, List.cons_append, digits_append_pastDigits, ← hu, ht]
    refine ⟨⟨c :: t.digits, digits u⟩, ⟨List.cons_ne_nil _ _, hdigits,
      fun d => isDigit_of_mem_digits⟩, ?_, ?_⟩
    · rw [hk, Numeral.text, if_neg hne, List.cons_append]
    · rw [hk, drop_of_append hrest]
      exact head_pastDigits u

theorem symbolic_run (hc : isSymbolic c = true) (t : Text) :
    (∀ d ∈ c :: continuation c t, isSymbolic d = true) ∧
      ∀ d ∈ (t.drop (continuation c t).length).head?, isSymbolic d = false := by
  have hk : continuation c t = t.takeWhile isSymbolic := by
    rw [continuation, if_neg (by simp [not_isDigit_of_isSymbolic hc])]
  have ht : t = t.takeWhile isSymbolic ++ t.dropWhile isSymbolic :=
    List.takeWhile_append_dropWhile.symm
  rw [hk, drop_of_append ht]
  exact ⟨List.forall_mem_cons.mpr ⟨hc, List.all_eq_true.mp List.all_takeWhile⟩,
    head_dropWhile isSymbolic t⟩

end Lexeme

namespace Token

variable {α : Type}

section Reading

variable {A : Arithmetic α} {c : Char} (pos : Nat) (t : Text)

theorem ofText_nil : ofText A pos [] = .ok [] := by
  simp [ofText, lexemes, ofLexemes]

theorem ofText_blank (h : isBlank c = true) :
    ofText A pos (c :: t) = ofText A (pos + c.utf8Size) t := by
  rw [ofText, Lexeme.lexemes_blank h, ofText]

theorem ofText_lexeme (h : isBlank c = false) {w : Text} (hw : (Lexeme.ofHead c t).text = w) :
    ofText A pos (c :: t) =
      match ofLexeme A (Lexeme.ofHead c t) with
      | .error problem => .error (.malformed ⟨pos, pos + w.size⟩ problem)
      | .ok token => (ofText A (pos + w.size) (t.drop (Lexeme.continuation c t).length)).map
          (⟨token, ⟨pos, pos + w.size⟩⟩ :: ·) := by
  subst hw
  rw [ofText, lexemes, if_neg (by simp [h])]
  dsimp only
  rw [ofLexemes]
  cases ofLexeme A (Lexeme.ofHead c t) with
  | error problem => rfl
  | ok token =>
    dsimp only
    rw [ofText]
    cases ofLexemes A (lexemes (pos + (Lexeme.ofHead c t).text.size)
        (t.drop (Lexeme.continuation c t).length)) with
    | mk tokens error? => cases error? <;> rfl

theorem ofText_digit (hc : c.isDigit = true) : ∃ (n : Numeral) (rest : Text),
    n.Valid ∧ c :: t = n.text ++ rest ∧ (∀ d ∈ rest.head?, d.isDigit = false) ∧
      ofText A pos (c :: t) = (ofText A (pos + n.text.size) rest).map
        (⟨.operand (A.numeral n), ⟨pos, pos + n.text.size⟩⟩ :: ·) := by
  obtain ⟨n, hn, hw, hhead⟩ := Lexeme.exists_numeral hc t
  have hlexeme : Lexeme.ofHead c t = .literal n.text := by rw [Lexeme.ofHead, if_pos hc, hw]
  refine ⟨n, _, hn, ?_, hhead, ?_⟩
  · rw [hw, List.cons_append, Lexeme.continuation_append_drop]
  · rw [ofText_lexeme pos t (isBlank_of_isDigit hc) (congrArg Lexeme.text hlexeme), hlexeme,
      ofLexeme, hn.read?]
    rfl

theorem ofText_symbolic (hc : Lexeme.isSymbolic c = true) : ∃ w rest : Text,
    w ≠ [] ∧ c :: t = w ++ rest ∧ (∀ d ∈ w, Lexeme.isSymbolic d = true) ∧
      (∀ d ∈ rest.head?, Lexeme.isSymbolic d = false) ∧
      ofText A pos (c :: t) =
        match Operator.ofSymbol? w with
        | none => .error (.malformed ⟨pos, pos + w.size⟩ (.unknownOperator w))
        | some op => (ofText A (pos + w.size) rest).map
            (⟨.operator op, ⟨pos, pos + w.size⟩⟩ :: ·) := by
  obtain ⟨hw, hhead⟩ := Lexeme.symbolic_run hc t
  have hlexeme : Lexeme.ofHead c t = .symbol (c :: Lexeme.continuation c t) := by
    rw [Lexeme.ofHead, if_neg (by simp [Lexeme.not_isDigit_of_isSymbolic hc])]
  refine ⟨c :: Lexeme.continuation c t, _, List.cons_ne_nil _ _, ?_, hw, hhead, ?_⟩
  · rw [List.cons_append, Lexeme.continuation_append_drop]
  · rw [ofText_lexeme pos t (Lexeme.not_isBlank_of_isSymbolic hc)
      (congrArg Lexeme.text hlexeme), hlexeme, ofLexeme]
    cases Operator.ofSymbol? (c :: Lexeme.continuation c t) <;> rfl

end Reading

/-- A token as it stands between the text before it and the text after it. -/
inductive Stands : Token α → (before marked after : Text) → Prop
  | operand {value u w v} : Operand u w v → Stands (.operand value) u w v
  | operator {u v} {op : Operator} : Run isMark u op.symbol v → Stands (.operator op) u op.symbol v

/-- Tokens that stand in a text one after the other, with blanks around them. -/
inductive Layout (after : Text) : (before text : Text) → List (Located (Token α)) → Prop
  | nil {u g} : Blank g → Layout after u g []
  | cons {u blanks w g token tokens} : Blank blanks → Stands token (u ++ blanks) w (g ++ after) →
      Layout after (u ++ (blanks ++ w)) g tokens →
      Layout after u (blanks ++ (w ++ g))
        (⟨token, ⟨(u ++ blanks).size, (u ++ blanks).size + w.size⟩⟩ :: tokens)

theorem Stands.exists_cons {token : Token α} {u w v : Text} (h : Stands token u w v) :
    ∃ c k, w = c :: k ∧ c ≠ '.' := by
  cases h with
  | operand h =>
    cases h with
    | literal hn =>
      obtain ⟨c, k, hk, hc⟩ := hn.exists_cons
      exact ⟨c, k, hk, by rintro rfl; cases hc⟩
    | group => exact ⟨_, _, rfl, by decide⟩
  | @operator _ _ op =>
    obtain ⟨c, k, hk, _, _, _, hc⟩ := op.exists_cons
    exact ⟨c, k, hk, hc⟩

namespace Layout

variable {u g v blanks : Text} {tokens more : List (Located (Token α))}

theorem blanks_append (hb : Blank blanks) (h : Layout v (u ++ blanks) g tokens) :
    Layout v u (blanks ++ g) tokens := by
  cases h with
  | nil hg => exact .nil (List.forall_mem_append.mpr ⟨hb, hg⟩)
  | @cons _ blanks' w g _ _ hb' hstands hrest =>
    rw [List.append_assoc] at hstands hrest ⊢
    rw [← List.append_assoc blanks blanks']
    refine .cons (List.forall_mem_append.mpr ⟨hb, hb'⟩) hstands ?_
    rwa [List.append_assoc]

theorem token {w : Text} {token : Token α} (hstands : Stands token u w (g ++ v))
    (h : Layout v (u ++ w) g tokens) :
    Layout v u (w ++ g) (⟨token, ⟨u.size, u.size + w.size⟩⟩ :: tokens) := by
  have hb : Blank [] := fun c hc => absurd hc List.not_mem_nil
  rw [← List.append_nil u] at hstands
  have hcons := Layout.cons hb hstands h
  rwa [List.append_nil] at hcons

theorem append {g' : Text} (h : Layout (g' ++ v) u g tokens) (h' : Layout v (u ++ g) g' more) :
    Layout v u (g ++ g') (tokens ++ more) := by
  induction h with
  | nil hg => exact h'.blanks_append hg
  | @cons u blanks w g token tokens hb hstands _ ih =>
    rw [List.append_assoc, List.append_assoc]
    refine .cons hb ?_ (ih ?_)
    · rwa [List.append_assoc]
    · simpa only [List.append_assoc] using h'

theorem head_ne_point (h : Layout v u g tokens) : ∀ c ∈ g.head?, c ≠ '.' := by
  have hblank : ∀ {b : Text}, Blank b → ∀ c ∈ b, c ≠ '.' := by
    rintro b hb c hc rfl
    cases hb _ hc
  intro c hc
  cases h with
  | nil hg => exact hblank hg c (List.mem_of_mem_head? hc)
  | @cons _ b w _ _ _ hb hstands _ =>
    cases b with
    | nil =>
      obtain ⟨d, k, rfl, hd⟩ := hstands.exists_cons
      obtain rfl : d = c := by simpa using hc
      exact hd
    | cons d b =>
      obtain rfl : d = c := by simpa using hc
      exact hblank hb d List.mem_cons_self

end Layout

end Token

def Text.separates (c : Char) : Bool := isBlank c || c == '(' || c == ')'

namespace Lexeme

variable {b c : Char}

theorem isNumeric_of_separates (h : separates c = true) : isNumeric c = false := by
  simp only [separates, Bool.or_eq_true, beq_iff_eq] at h
  rcases h with (h | rfl) | rfl
  · have hc : (c == '.') = false := by
      rw [beq_eq_false_iff_ne]
      rintro rfl
      cases h
    rw [isNumeric, not_isDigit_of_isBlank h, hc, Bool.or_self]
  · rfl
  · rfl

theorem isMark_of_separates (h : separates c = true) : isMark c = false := by
  simp only [separates, Bool.or_eq_true, beq_iff_eq] at h
  rcases h with (h | rfl) | rfl
  · simp [isMark, h]
  · rfl
  · rfl

/-- Two characters in a row that no lexeme holds both of. -/
def Apart (b c : Char) : Prop :=
  (isNumeric b = true → c.isDigit = false) ∧ (isMark b = true → isMark c = false)

theorem apart_of_separates (h : separates b = true) (c : Char) : Apart b c := by
  constructor
  · intro hb
    cases hb.symm.trans (isNumeric_of_separates h)
  · intro hb
    cases hb.symm.trans (isMark_of_separates h)

end Lexeme

def Text.Apart (u g : Text) : Prop := ∀ b ∈ u.getLast?, ∀ c ∈ g.head?, Lexeme.Apart b c

namespace Text

variable {u g v w : Text}

theorem forall_head_append {P : Char → Prop} (hg : ∀ c ∈ g.head?, P c) (hv : ∀ c ∈ v.head?, P c) :
    ∀ c ∈ (g ++ v).head?, P c := by
  cases g with
  | nil => exact hv
  | cons c g => exact hg

theorem Apart.of_last (hw : w ≠ []) (h : ∀ b ∈ w.getLast?, ∀ c ∈ g.head?, Lexeme.Apart b c) :
    Apart (u ++ w) g := by
  intro b hb
  rw [List.getLast?_append_of_ne_nil _ hw] at hb
  exact h b hb

theorem Apart.left (h : Apart u (w ++ g)) : Apart u w := by
  intro b hb c hc
  exact h b hb c (by rw [List.head?_append, Option.mem_def.mp hc]; rfl)

theorem apart_blank {c : Char} (hc : isBlank c = true) (g : Text) : Apart (u ++ [c]) g := by
  refine .of_last (List.cons_ne_nil _ _) fun b hb d _ => ?_
  obtain rfl : c = b := by simpa using hb
  exact Lexeme.apart_of_separates (by simp [separates, hc]) d

theorem apart_of_separates (h : ∀ c ∈ u.getLast?, separates c = true) (g : Text) : Apart u g :=
  fun b hb c _ => Lexeme.apart_of_separates (h b hb) c

theorem isMark_iff {c : Char} :
    isMark c = true ↔ Lexeme.isSymbolic c = true ∧ c ≠ '(' ∧ c ≠ ')' := by
  simp [isMark, Lexeme.isSymbolic, and_assoc]

theorem isMark_eq_false {c : Char} (h : Lexeme.isSymbolic c = false) : isMark c = false := by
  rw [← Bool.not_eq_true, isMark_iff, h]
  simp

end Text

section Lexemes

variable {u g v w : Text}

theorem Numeral.Valid.isNumeric_of_mem {n : Numeral} (hn : n.Valid) {c : Char} (hc : c ∈ n.text) :
    isNumeric c = true := by
  have hdigit : c.isDigit = true → isNumeric c = true := fun h => by simp [isNumeric, h]
  unfold Numeral.text at hc
  split at hc
  · exact hdigit (hn.whole_digits c hc)
  · rcases List.mem_append.mp hc with hc | hc
    · exact hdigit (hn.whole_digits c hc)
    · rcases List.mem_cons.mp hc with rfl | hc
      · rfl
      · exact hdigit (hn.fraction_digits c hc)

theorem Numeral.Valid.isDigit_getLast {n : Numeral} (hn : n.Valid) :
    ∀ c ∈ n.text.getLast?, c.isDigit = true := by
  intro c hc
  unfold Numeral.text at hc
  split at hc
  · exact hn.whole_digits c (List.mem_of_getLast? hc)
  · next hne =>
    rw [List.getLast?_append_of_ne_nil _ (List.cons_ne_nil _ _),
      List.getLast?_cons_of_ne_nil hne] at hc
    exact hn.fraction_digits c (List.mem_of_getLast? hc)

theorem Numeral.Valid.operand {n : Numeral} (hn : n.Valid) (hu : Text.Apart u n.text)
    (hg : ∀ c ∈ g.head?, c.isDigit = false ∧ c ≠ '.') (hv : ∀ c ∈ v.head?, separates c = true) :
    Operand u n.text (g ++ v) := by
  obtain ⟨c, k, hk, hc⟩ := hn.exists_cons
  refine .literal hn ⟨by simp [hk], fun d => hn.isNumeric_of_mem, fun b hb => ?_, ?_⟩
  · by_contra hnumeric
    rw [Bool.not_eq_false] at hnumeric
    have hdigit := (hu b hb c (by simp [hk])).1 hnumeric
    cases hdigit.symm.trans hc
  · exact forall_head_append (fun d hd => by simp [isNumeric, hg d hd])
      fun d hd => Lexeme.isNumeric_of_separates (hv d hd)

theorem Numeral.Valid.apart {n : Numeral} (hn : n.Valid)
    (hg : ∀ c ∈ g.head?, c.isDigit = false) : Text.Apart (u ++ n.text) g := by
  obtain ⟨c, k, hk, _⟩ := hn.exists_cons
  refine .of_last (by simp [hk]) fun b hb d hd => ⟨fun _ => hg d hd, fun hmark => ?_⟩
  simp [isMark, hn.isDigit_getLast b hb] at hmark

theorem Lexeme.run_of_symbolic (hne : w ≠ []) (hw : ∀ c ∈ w, isSymbolic c = true)
    (hplain : w.Plain) (hu : Text.Apart u w) (hg : ∀ c ∈ g.head?, isSymbolic c = false)
    (hv : ∀ c ∈ v.head?, separates c = true) : Run isMark u w (g ++ v) := by
  have hmark : ∀ c ∈ w, isMark c = true := fun c hc => isMark_iff.mpr ⟨hw c hc, hplain c hc⟩
  refine ⟨hne, hmark, fun b hb => ?_, ?_⟩
  · obtain ⟨c, k, rfl⟩ := List.exists_cons_of_ne_nil hne
    by_contra h
    rw [Bool.not_eq_false] at h
    have hc := (hu b hb c rfl).2 h
    cases hc.symm.trans (hmark c List.mem_cons_self)
  · exact forall_head_append (fun d hd => isMark_eq_false (hg d hd))
      fun d hd => isMark_of_separates (hv d hd)

theorem Operator.apart (op : Operator) (hg : ∀ c ∈ g.head?, Lexeme.isSymbolic c = false) :
    Text.Apart (u ++ op.symbol) g := by
  have hne : op.symbol ≠ [] := by cases op <;> decide
  have hlast : ∀ b ∈ op.symbol.getLast?, isNumeric b = false := by
    intro b hb
    cases op <;>
      simp only [symbol, List.getLast?_cons_cons, List.getLast?_singleton, Option.mem_def,
        Option.some.injEq] at hb <;>
      subst hb <;> rfl
  refine .of_last hne fun b hb c hc => ⟨fun h => ?_, fun _ => isMark_eq_false (hg c hc)⟩
  cases h.symm.trans (hlast b hb)

end Lexemes

namespace Token

variable {α : Type} {A : Arithmetic α}

/-- Reading the text `g` leaves tokens that stand there, or marks what is wrong. -/
def Placed (A : Arithmetic α) (u g v : Text) : Prop :=
  Except.Ends (Error.Points (u ++ (g ++ v))) (Layout v u g) (ofText A u.size g)

namespace Placed

variable {u g v : Text}

theorem blank {c : Char} (hc : isBlank c = true) (h : Placed A (u ++ [c]) g v) :
    Placed A u (c :: g) v := by
  rw [Placed, Text.size_append, List.append_assoc] at h
  rw [Placed, ofText_blank _ _ hc]
  exact h.imp fun tokens hlayout =>
    hlayout.blanks_append (List.forall_mem_singleton.mpr hc)

theorem numeral {n : Numeral} (hn : n.Valid) (hu : Text.Apart u n.text)
    (hhead : ∀ c ∈ g.head?, c.isDigit = false) (hv : ∀ c ∈ v.head?, separates c = true)
    (hread : ofText A u.size (n.text ++ g) = (ofText A (u.size + n.text.size) g).map
      (⟨.operand (A.numeral n), ⟨u.size, u.size + n.text.size⟩⟩ :: ·))
    (h : Placed A (u ++ n.text) g v) : Placed A u (n.text ++ g) v := by
  rw [Placed, Text.size_append, List.append_assoc] at h
  rw [Placed, hread, List.append_assoc]
  refine h.map fun tokens hlayout => ?_
  -- had a point followed the numeral, the rest could not have been read
  have hpoint := hlayout.head_ne_point
  exact .token (.operand (hn.operand hu (fun c hc => ⟨hhead c hc, hpoint c hc⟩) hv)) hlayout

theorem operator {op : Operator} (hrun : Run isMark u op.symbol (g ++ v))
    (hread : ofText A u.size (op.symbol ++ g) = (ofText A (u.size + op.symbol.size) g).map
      (⟨.operator op, ⟨u.size, u.size + op.symbol.size⟩⟩ :: ·))
    (h : Placed A (u ++ op.symbol) g v) : Placed A u (op.symbol ++ g) v := by
  rw [Placed, Text.size_append, List.append_assoc] at h
  rw [Placed, hread, List.append_assoc]
  exact h.map fun tokens hlayout => .token (.operator hrun) hlayout

end Placed

theorem placed {u g v : Text} (hg : g.Plain) (hu : Text.Apart u g)
    (hv : ∀ c ∈ v.head?, separates c = true) : Placed A u g v := by
  have hlength : ∀ {w rest : Text}, w ≠ [] → rest.length < (w ++ rest).length := by
    intro w rest hw
    rw [List.length_append]
    exact Nat.lt_add_of_pos_left (List.length_pos_of_ne_nil hw)
  induction hn : g.length using Nat.strongRecOn generalizing u g with
  | ind _ ih =>
    subst hn
    cases g with
    | nil =>
      rw [Placed, ofText_nil]
      exact .ok (.nil fun c hc => absurd hc List.not_mem_nil)
    | cons c t =>
      by_cases hblank : isBlank c = true
      · exact .blank hblank
          (ih _ (Nat.lt_succ_self _) (List.forall_mem_cons.mp hg).2 (apart_blank hblank t) rfl)
      by_cases hdigit : c.isDigit = true
      · obtain ⟨n, rest, hn, hct, hhead, hread⟩ := ofText_digit (A := A) u.size t hdigit
        obtain ⟨_, _, hw, _⟩ := hn.exists_cons
        rw [hct] at hg hu ih hread ⊢
        exact .numeral hn hu.left hhead hv hread
          (ih _ (hlength (by simp [hw])) (List.forall_mem_append.mp hg).2 (hn.apart hhead) rfl)
      · have hsymbolic : Lexeme.isSymbolic c = true := by simp [Lexeme.isSymbolic, hdigit, hblank]
        obtain ⟨w, rest, hne, hct, hw, hhead, hread⟩ := ofText_symbolic (A := A) u.size t hsymbolic
        rw [hct] at hg hu ih hread ⊢
        obtain ⟨hwplain, hplain⟩ := List.forall_mem_append.mp hg
        have hrun := Lexeme.run_of_symbolic hne hw hwplain hu.left hhead hv
        cases hop : Operator.ofSymbol? w with
        | none =>
          rw [hop] at hread
          rw [Placed, hread, List.append_assoc]
          exact .error (.of_marks (.unknownOperator hrun hop) rfl rfl)
        | some op =>
          obtain rfl := Operator.symbol_of_ofSymbol? hop
          rw [hop] at hread
          exact .operator hrun hread (ih _ (hlength hne) hplain (op.apart hhead) rfl)

end Token

end DiceArith
