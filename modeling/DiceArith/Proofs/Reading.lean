import DiceArith.Bracketing
import DiceArith.Lexeme
import DiceArith.Proofs.Grammar

/-! # Reading terminals

A text is read as the terminals of its lexemes and parentheses. Whatever a text reads as it
also spells; the converse holds once no two numbers and no two operators are neighbours,
because then no lexeme is longer than the terminal that it starts with.
-/

namespace DiceArith

variable {δ : Type}

section Cuts

variable {β : Type} {u v w x u' v' : List β} {c c' : β}

theorem append_cons_cases (h : w ++ x = u ++ c :: v) :
    (∃ y, w = u ++ c :: y) ∨ ∃ y, u = w ++ y ∧ x = y ++ c :: v := by
  rcases List.append_eq_append_iff.mp h with ⟨y, hu, hx⟩ | ⟨y, rfl, hy⟩
  · exact .inr ⟨y, hu, hx⟩
  · cases y with
    | nil => exact .inr ⟨[], by rw [List.append_nil, List.append_nil], hy.symm⟩
    | cons d y =>
      obtain ⟨rfl, _⟩ := List.cons.inj hy
      exact .inl ⟨y, rfl⟩

theorem append_cons_trichotomy (h : u ++ c :: v = u' ++ c' :: v') :
    (u = u' ∧ c = c' ∧ v = v') ∨ (∃ w, u' = u ++ c :: w ∧ v = w ++ c' :: v') ∨
      ∃ w, u = u' ++ c' :: w ∧ v' = w ++ c :: v := by
  rcases append_cons_cases h with ⟨w, rfl⟩ | ⟨w, rfl, hw⟩
  · rw [List.append_assoc, List.append_cancel_left_eq, List.cons_append] at h
    exact .inr (.inr ⟨w, rfl, (List.cons.inj h).2.symm⟩)
  · cases w with
    | nil =>
      obtain ⟨rfl, rfl⟩ := List.cons.inj hw
      exact .inl ⟨(List.append_nil u).symm, rfl, rfl⟩
    | cons d w =>
      obtain ⟨rfl, hv⟩ := List.cons.inj hw
      exact .inr (.inl ⟨w, rfl, hv⟩)

end Cuts

namespace Text

variable {c : Char} {t u : Text}

theorem digits_append (h : ∀ c ∈ t, c.isDigit = true) : digits (t ++ u) = t ++ digits u :=
  List.takeWhile_append_of_pos h

theorem pastDigits_append (h : ∀ c ∈ t, c.isDigit = true) : pastDigits (t ++ u) = pastDigits u :=
  List.dropWhile_append_of_pos h

theorem takeWhile_of_head {p : Char → Bool} (h : ∀ c ∈ t.head?, p c = false) :
    t.takeWhile p = [] := by
  cases t with
  | nil => rfl
  | cons c t => simp [h c rfl]

theorem head_dropWhile (p : Char → Bool) (t : Text) :
    ∀ c ∈ (t.dropWhile p).head?, p c = false := by
  intro c hc
  have h := List.head?_dropWhile_not p t
  rw [Option.mem_def.mp hc] at h
  exact h

theorem digits_of_head (h : ∀ c ∈ t.head?, c.isDigit = false) : digits t = [] :=
  takeWhile_of_head h

theorem head_pastDigits (t : Text) : ∀ c ∈ t.pastDigits.head?, c.isDigit = false :=
  head_dropWhile Char.isDigit t

theorem pastDigits_of_head (h : ∀ c ∈ t.head?, c.isDigit = false) : pastDigits t = t := by
  cases t with
  | nil => rfl
  | cons c t => simp [pastDigits, h c rfl]

theorem isDigit_of_mem_digits (h : c ∈ digits t) : c.isDigit = true :=
  List.all_eq_true.mp List.all_takeWhile c h

theorem not_isDigit_of_isBlank (h : isBlank c = true) : c.isDigit = false := by
  simp only [isBlank, Bool.or_eq_true, beq_iff_eq] at h
  rcases h with (((rfl | rfl) | rfl) | rfl) | rfl <;> rfl

theorem isBlank_of_isDigit (h : c.isDigit = true) : isBlank c = false := by
  by_contra hb
  simp [not_isDigit_of_isBlank (Bool.not_eq_false _ ▸ hb)] at h

end Text

namespace Numeral

variable {n : Numeral} {t : Text}

theorem Valid.exists_cons (h : n.Valid) : ∃ c w, n.text = c :: w ∧ c.isDigit = true := by
  obtain ⟨whole, fraction⟩ := n
  cases whole with
  | nil => exact absurd rfl h.whole_ne_nil
  | cons c w =>
    have hc : c.isDigit = true := h.whole_digits c (by simp)
    unfold text
    split
    · exact ⟨c, w, rfl, hc⟩
    · exact ⟨c, w ++ '.' :: fraction, rfl, hc⟩

theorem valid_of_read? (h : read? t = some n) : n.Valid ∧ n.text = t := by
  unfold read? at h
  split at h
  · simp at h
  · next hd =>
    have hall : ∀ c ∈ t.digits, c.isDigit = true := fun c => Text.isDigit_of_mem_digits
    have ht := Text.digits_append_pastDigits t
    split at h
    · next hp =>
      obtain rfl := Option.some.inj h
      exact ⟨⟨hd, hall, by simp⟩, by simpa [text, hp] using ht⟩
    · next u hp =>
      split at h
      · next hu =>
        obtain rfl := Option.some.inj h
        refine ⟨⟨hd, hall, fun c hc => ?_⟩, by simpa [text, hp, hu.1] using ht⟩
        have hu' := Text.digits_append_pastDigits u
        rw [hu.2, List.append_nil] at hu'
        exact Text.isDigit_of_mem_digits (hu' ▸ hc)
      · simp at h
    · simp at h

theorem Valid.read? (h : n.Valid) : Numeral.read? n.text = some n := by
  obtain ⟨whole, fraction⟩ := n
  have hw := h.whole_digits
  have hf := h.fraction_digits
  have hne := h.whole_ne_nil
  dsimp only at hw hf hne
  by_cases hfr : fraction = []
  · subst hfr
    have hd : Text.digits whole = whole := by
      simpa [Text.digits] using Text.digits_append (u := []) hw
    have hp : Text.pastDigits whole = [] := by
      simpa [Text.pastDigits] using Text.pastDigits_append (u := []) hw
    simp [Numeral.read?, text, hd, hp, hne]
  · have hd : Text.digits (whole ++ '.' :: fraction) = whole := by
      rw [Text.digits_append hw, Text.digits_of_head (by simp), List.append_nil]
    have hp : Text.pastDigits (whole ++ '.' :: fraction) = '.' :: fraction := by
      rw [Text.pastDigits_append hw, Text.pastDigits_of_head (by simp)]
    have hq : Text.pastDigits fraction = [] := by
      simpa [Text.pastDigits] using Text.pastDigits_append (u := []) hf
    simp [Numeral.read?, text, hfr, hd, hp, hq, hne]

end Numeral

namespace Operator

theorem exists_cons (op : Operator) : ∃ c w, op.symbol = c :: w ∧
    Lexeme.isSymbolic c = true ∧ c ≠ '(' ∧ c ≠ ')' ∧ c ≠ '.' := by
  cases op <;> exact ⟨_, _, rfl, by decide, by decide, by decide, by decide⟩

theorem isSymbolic_of_mem {op : Operator} {c : Char} (h : c ∈ op.symbol) :
    Lexeme.isSymbolic c = true ∧ c ≠ '(' ∧ c ≠ ')' := by
  cases op <;> simp only [symbol, List.mem_cons, List.not_mem_nil, or_false, or_self] at h <;>
    subst h <;> decide

end Operator

namespace Lexeme

variable {c : Char} {t u w : Text}

def terminal? : Lexeme → Option (Terminal δ)
  | literal t => (Numeral.read? t).map .number
  | symbol t => (Operator.ofSymbol? t).map .operator

theorem isSymbolic_of_isDigit (h : c.isDigit = true) : isSymbolic c = false := by
  simp [isSymbolic, h]

theorem not_isDigit_of_isSymbolic (h : isSymbolic c = true) : c.isDigit = false := by
  simp_all [isSymbolic]

theorem not_isBlank_of_isSymbolic (h : isSymbolic c = true) : Text.isBlank c = false := by
  simp_all [isSymbolic]

theorem lexemes_blank (h : Text.isBlank c = true) (pos : Nat) :
    lexemes pos (c :: t) = lexemes (pos + c.utf8Size) t := by
  rw [lexemes, if_pos h]

theorem lexemes_cons (h : Text.isBlank c = false) (hc : continuation c (w ++ t) = w) (pos : Nat) :
    lexemes pos (c :: (w ++ t)) =
      ⟨ofHead c (w ++ t), ⟨pos, pos + Text.size (c :: w)⟩⟩ ::
        lexemes (pos + Text.size (c :: w)) t := by
  rw [lexemes, if_neg (by simp [h])]
  simp [text_ofHead, hc]

theorem fraction_of_head (h : ∀ c ∈ t.head?, c ≠ '.') : fraction t = [] := by
  unfold fraction
  split
  · exact absurd rfl (h '.' rfl)
  · rfl

theorem continuation_numeral {n : Numeral} (hn : n.Valid) (hw : n.text = c :: w)
    (ht : ∀ c ∈ t.head?, c.isDigit = false ∧ c ≠ '.') :
    c.isDigit = true ∧ continuation c (w ++ t) = w := by
  obtain ⟨whole, fr⟩ := n
  have hd := Text.digits_of_head fun c hc => (ht c hc).1
  have hp := Text.pastDigits_of_head fun c hc => (ht c hc).1
  have hf := fraction_of_head fun c hc => (ht c hc).2
  cases whole with
  | nil => exact absurd rfl hn.whole_ne_nil
  | cons d v =>
    have hdigit : d.isDigit = true := hn.whole_digits d (by simp)
    have hv : ∀ c ∈ v, c.isDigit = true := fun c hc => hn.whole_digits c (by simp [hc])
    by_cases hfr : fr = []
    · obtain ⟨rfl, rfl⟩ : d = c ∧ v = w := by simpa [Numeral.text, hfr] using hw
      refine ⟨hdigit, ?_⟩
      rw [continuation, if_pos hdigit, Text.digits_append hv, Text.pastDigits_append hv, hd, hp, hf]
      simp
    · obtain ⟨rfl, rfl⟩ : d = c ∧ v ++ '.' :: fr = w := by simpa [Numeral.text, hfr] using hw
      refine ⟨hdigit, ?_⟩
      have hdot : Text.digits ('.' :: fr ++ t) = [] := Text.digits_of_head (by simp)
      have hpast : Text.pastDigits ('.' :: fr ++ t) = '.' :: (fr ++ t) :=
        Text.pastDigits_of_head (by simp)
      have hfrac : Text.digits (fr ++ t) = fr := by
        rw [Text.digits_append hn.fraction_digits, hd, List.append_nil]
      rw [continuation, if_pos hdigit, List.append_assoc, Text.digits_append hv,
        Text.pastDigits_append hv, hdot, hpast, fraction, hfrac, if_neg hfr, List.append_nil]

theorem continuation_symbol (hc : isSymbolic c = true) (hw : ∀ c ∈ w, isSymbolic c = true)
    (ht : ∀ c ∈ t.head?, isSymbolic c = false) : continuation c (w ++ t) = w := by
  rw [continuation, if_neg (by simp [not_isDigit_of_isSymbolic hc]),
    List.takeWhile_append_of_pos hw, Text.takeWhile_of_head ht, List.append_nil]

theorem continuation_append_drop (c : Char) (t : Text) :
    continuation c t ++ t.drop (continuation c t).length = t := by
  obtain ⟨u, hu⟩ := continuation_append c t
  generalize continuation c t = w at hu ⊢
  rw [hu, List.drop_left]

theorem lexemes_map_item (pos pos' : Nat) (t : Text) :
    (lexemes pos t).map Located.item = (lexemes pos' t).map Located.item := by
  fun_induction lexemes pos t generalizing pos' with
  | case1 => simp [lexemes]
  | case2 pos c t h ih =>
    rw [lexemes, if_pos h]
    exact ih _
  | case3 pos c t h lexeme stop ih =>
    rw [lexemes, if_neg h, List.map_cons, List.map_cons]
    exact congrArg _ (ih _)

end Lexeme

def Text.terminals (t : Text) : List (Option (Terminal δ)) :=
  (lexemes 0 t).map fun lexeme => lexeme.item.terminal?

namespace Text

variable {c : Char} {t : Text}

theorem terminals_eq (pos : Nat) :
    (t.terminals : List (Option (Terminal δ))) =
      (lexemes pos t).map fun lexeme => lexeme.item.terminal? := by
  have h := congrArg (List.map (Lexeme.terminal? (δ := δ))) (Lexeme.lexemes_map_item 0 pos t)
  simpa [terminals, Function.comp_def] using h

@[simp] theorem terminals_nil : (terminals [] : List (Option (Terminal δ))) = [] := by
  simp [terminals, lexemes]

theorem terminals_blank (h : isBlank c = true) :
    (terminals (c :: t) : List (Option (Terminal δ))) = terminals t := by
  rw [terminals, Lexeme.lexemes_blank h, ← terminals_eq]

theorem terminals_number {n : Numeral} (hn : n.Valid)
    (ht : ∀ c ∈ t.head?, c.isDigit = false ∧ c ≠ '.') :
    (terminals (n.text ++ t) : List (Option (Terminal δ))) = some (.number n) :: terminals t := by
  obtain ⟨c, w, hw, _⟩ := hn.exists_cons
  obtain ⟨hc, hcont⟩ := Lexeme.continuation_numeral hn hw ht
  rw [hw, List.cons_append, terminals, Lexeme.lexemes_cons (isBlank_of_isDigit hc) hcont,
    List.map_cons, ← terminals_eq]
  simp [Lexeme.ofHead, hc, hcont, Lexeme.terminal?, ← hw, hn.read?]

theorem terminals_operator {op : Operator} (ht : ∀ c ∈ t.head?, Lexeme.isSymbolic c = false) :
    (terminals (op.symbol ++ t) : List (Option (Terminal δ))) =
      some (.operator op) :: terminals t := by
  obtain ⟨c, w, hw, hc, _⟩ := op.exists_cons
  have hall : ∀ c ∈ w, Lexeme.isSymbolic c = true := by
    intro c hc
    have hmem : c ∈ op.symbol := by simp [hw, hc]
    exact (Operator.isSymbolic_of_mem hmem).1
  have hcont := Lexeme.continuation_symbol hc hall ht
  have hd := Lexeme.not_isDigit_of_isSymbolic hc
  rw [hw, List.cons_append, terminals,
    Lexeme.lexemes_cons (Lexeme.not_isBlank_of_isSymbolic hc) hcont, List.map_cons, ← terminals_eq]
  simp [Lexeme.ofHead, hd, hcont, Lexeme.terminal?, ← hw, Operator.ofSymbol?_symbol]

end Text

namespace Text

def Plain (t : Text) : Prop := ∀ c ∈ t, c ≠ '(' ∧ c ≠ ')'

theorem ne_paren_of_isDigit {c : Char} (h : c.isDigit = true) : c ≠ '(' ∧ c ≠ ')' := by
  constructor <;> rintro rfl <;> simp at h

theorem ne_paren_of_isBlank {c : Char} (h : isBlank c = true) : c ≠ '(' ∧ c ≠ ')' := by
  constructor <;> rintro rfl <;> simp [isBlank] at h

theorem plain_nil : Plain [] := fun _ hc => absurd hc List.not_mem_nil

theorem plain_of_digits {t : Text} (h : ∀ c ∈ t, c.isDigit = true) : t.Plain :=
  fun c hc => ne_paren_of_isDigit (h c hc)

theorem Plain.append {t u : Text} (ht : t.Plain) (hu : u.Plain) : (t ++ u).Plain :=
  List.forall_mem_append.mpr ⟨ht, hu⟩

theorem Plain.cons {c : Char} {t : Text} (hc : c ≠ '(' ∧ c ≠ ')') (ht : t.Plain) :
    Plain (c :: t) :=
  List.forall_mem_cons.mpr ⟨hc, ht⟩

theorem paren_cases (c : Char) : c = '(' ∨ c = ')' ∨ Plain [c] := by
  by_cases hl : c = '('
  · exact .inl hl
  · by_cases hr : c = ')'
    · exact .inr (.inl hr)
    · exact .inr (.inr (plain_nil.cons ⟨hl, hr⟩))

theorem size_parentheses (t u : Text) : size ('(' :: (t ++ ')' :: u)) = t.size + 2 + u.size := by
  have hl : Char.utf8Size '(' = 1 := rfl
  have hr : Char.utf8Size ')' = 1 := rfl
  rw [size_cons, size_append, size_cons, hl, hr]
  omega

end Text

namespace Bracketing

def terminals : Bracketing → List (Option (Terminal δ))
  | flat gap => gap.terminals
  | opening gap rest => gap.terminals ++ some .opening :: rest.terminals
  | closing gap rest => gap.terminals ++ some .closing :: rest.terminals

def gap : Bracketing → Text
  | flat gap | opening gap _ | closing gap _ => gap

def prepend (w : Text) : Bracketing → Bracketing
  | flat gap => flat (w ++ gap)
  | opening gap rest => opening (w ++ gap) rest
  | closing gap rest => closing (w ++ gap) rest

variable {c : Char} {t w : Text} {b : Bracketing}

theorem ofText_cons (h : c ≠ '(' ∧ c ≠ ')') : ofText (c :: t) = cons c (ofText t) := by
  rw [ofText, if_neg h.1, if_neg h.2]

@[simp] theorem ofText_opening : ofText ('(' :: t) = opening [] (ofText t) := rfl

@[simp] theorem ofText_closing : ofText (')' :: t) = closing [] (ofText t) := rfl

theorem ofText_append (h : w.Plain) :
    ofText (w ++ t) = prepend w (ofText t) := by
  induction w with
  | nil =>
    rw [List.nil_append]
    cases ofText t <;> rfl
  | cons c w ih =>
    rw [List.cons_append, ofText_cons (h c (by simp)), ih fun c hc => h c (by simp [hc])]
    cases ofText t <;> rfl

theorem ofText_flat (h : w.Plain) : ofText w = flat w := by
  have hnil := ofText_append (t := []) h
  rwa [List.append_nil, ofText, prepend, List.append_nil] at hnil

theorem ofText_append_opening (h : w.Plain) : ofText (w ++ '(' :: t) = opening w (ofText t) := by
  rw [ofText_append h, ofText_opening, prepend, List.append_nil]

theorem ofText_append_closing (h : w.Plain) : ofText (w ++ ')' :: t) = closing w (ofText t) := by
  rw [ofText_append h, ofText_closing, prepend, List.append_nil]

theorem gap_cons : (cons c b).gap = c :: b.gap := by cases b <;> rfl

theorem terminals_blank (h : Text.isBlank c = true) :
    ((cons c b).terminals : List (Option (Terminal δ))) = b.terminals := by
  cases b <;> simp [cons, terminals, Text.terminals_blank h]

theorem terminals_prepend (xs : List (Option (Terminal δ)))
    (h : (w ++ b.gap).terminals = xs ++ b.gap.terminals) :
    (prepend w b).terminals = xs ++ b.terminals := by
  cases b with
  | flat => exact h
  | opening | closing =>
    simp only [gap] at h
    simp only [prepend, terminals, h, List.append_assoc]

theorem terminals_number {n : Numeral} (hn : n.Valid)
    (hb : ∀ c ∈ b.gap.head?, c.isDigit = false ∧ c ≠ '.') :
    ((prepend n.text b).terminals : List (Option (Terminal δ))) =
      some (.number n) :: b.terminals :=
  terminals_prepend [some (.number n)] (Text.terminals_number hn hb)

theorem terminals_operator {op : Operator}
    (hb : ∀ c ∈ b.gap.head?, Lexeme.isSymbolic c = false) :
    ((prepend op.symbol b).terminals : List (Option (Terminal δ))) =
      some (.operator op) :: b.terminals :=
  terminals_prepend [some (.operator op)] (Text.terminals_operator hb)

end Bracketing

/-- Terminals that stay apart without a blank between them. -/
def Terminal.Apart : Terminal δ → Terminal δ → Prop
  | number _, number _ => False
  | operator _, operator _ => False
  | _, _ => True

variable {t u : Text} {ts us : List (Terminal δ)}

theorem Numeral.Valid.plain {n : Numeral} (hn : n.Valid) : Text.Plain n.text := by
  have hwhole := Text.plain_of_digits hn.whole_digits
  have hfraction := Text.plain_of_digits hn.fraction_digits
  unfold text
  split
  · exact hwhole
  · exact hwhole.append (hfraction.cons (by decide))

/-- The character that ends a lexeme tells what kind of terminal follows. -/
theorem Spells.head_gap (h : Spells t ts) : ∀ c ∈ (Bracketing.ofText t).gap.head?,
    Text.isBlank c = true ∨ (c.isDigit = true ∧ ∃ n, ts.head? = some (.number n)) ∨
      (Lexeme.isSymbolic c = true ∧ c ≠ '.' ∧ ∃ op, ts.head? = some (.operator op)) := by
  intro c hc
  cases h with
  | nil => simp [Bracketing.ofText, Bracketing.gap] at hc
  | opening | closing => simp [Bracketing.gap] at hc
  | blank hb =>
    rw [Bracketing.ofText_cons (Text.ne_paren_of_isBlank hb), Bracketing.gap_cons] at hc
    obtain rfl := Option.some.inj hc
    exact .inl hb
  | @number n t ts hn _ =>
    obtain ⟨d, w, hw, hd⟩ := hn.exists_cons
    rw [hw, List.cons_append, Bracketing.ofText_cons (Text.ne_paren_of_isDigit hd),
      Bracketing.gap_cons] at hc
    obtain rfl := Option.some.inj hc
    exact .inr (.inl ⟨hd, n, rfl⟩)
  | operator op =>
    obtain ⟨d, w, hw, hd, hl, hr, hdot⟩ := op.exists_cons
    rw [hw, List.cons_append, Bracketing.ofText_cons ⟨hl, hr⟩, Bracketing.gap_cons] at hc
    obtain rfl := Option.some.inj hc
    exact .inr (.inr ⟨hd, hdot, op, rfl⟩)

/-- Terminals that stay apart are read as they are spelled. -/
theorem Spells.terminals (h : Spells t ts) (hts : ts.IsChain Terminal.Apart) :
    (Bracketing.ofText t).terminals = ts.map some := by
  induction h with
  | nil => simp [Bracketing.ofText, Bracketing.terminals]
  | blank hb _ ih =>
    rw [Bracketing.ofText_cons (Text.ne_paren_of_isBlank hb), Bracketing.terminals_blank hb]
    exact ih hts
  | @number n t ts hn h ih =>
    obtain ⟨hnext, hts⟩ := List.isChain_cons.mp hts
    have hgap : ∀ c ∈ (Bracketing.ofText t).gap.head?, c.isDigit = false ∧ c ≠ '.' := by
      intro c hc
      rcases h.head_gap c hc with hb | ⟨_, m, hm⟩ | ⟨hs, hdot, _⟩
      · refine ⟨Text.not_isDigit_of_isBlank hb, ?_⟩
        rintro rfl
        simp [Text.isBlank] at hb
      · exact (hnext _ hm).elim
      · exact ⟨Lexeme.not_isDigit_of_isSymbolic hs, hdot⟩
    rw [Bracketing.ofText_append hn.plain, Bracketing.terminals_number hn hgap, ih hts]
    rfl
  | @operator t ts op h ih =>
    obtain ⟨hnext, hts⟩ := List.isChain_cons.mp hts
    have hgap : ∀ c ∈ (Bracketing.ofText t).gap.head?, Lexeme.isSymbolic c = false := by
      intro c hc
      rcases h.head_gap c hc with hb | ⟨hd, _⟩ | ⟨_, _, op', hop⟩
      · simp [Lexeme.isSymbolic, hb]
      · exact Lexeme.isSymbolic_of_isDigit hd
      · exact (hnext _ hop).elim
    rw [Bracketing.ofText_append fun c hc => (Operator.isSymbolic_of_mem hc).2,
      Bracketing.terminals_operator hgap, ih hts]
    rfl
  | opening _ ih | closing _ ih =>
    simp [Bracketing.terminals, ih hts.tail]

theorem Spells.append (h : Spells t ts) (h' : Spells u us) : Spells (t ++ u) (ts ++ us) := by
  induction h with
  | nil => exact h'
  | blank hb _ ih => exact .blank hb ih
  | number hn _ ih =>
    rw [List.append_assoc]
    exact .number hn ih
  | operator op _ ih =>
    rw [List.append_assoc]
    exact .operator op ih
  | opening _ ih => exact .opening ih
  | closing _ ih => exact .closing ih

theorem Lexeme.spells {lexeme : Lexeme} {x : Terminal δ} (h : lexeme.terminal? = some x)
    (hu : Spells u us) : Spells (lexeme.text ++ u) (x :: us) := by
  cases lexeme with
  | literal w =>
    obtain ⟨n, hn, rfl⟩ := Option.map_eq_some_iff.mp h
    obtain ⟨hn, hw⟩ := Numeral.valid_of_read? hn
    exact hw ▸ .number hn hu
  | symbol w =>
    obtain ⟨op, hop, rfl⟩ := Option.map_eq_some_iff.mp h
    exact Operator.symbol_of_ofSymbol? hop ▸ .operator op hu

theorem Text.spells_of_lexemes (pos : Nat) (t : Text) : ∀ ts : List (Terminal δ),
    (lexemes pos t).map (fun lexeme => lexeme.item.terminal?) = ts.map some → Spells t ts := by
  fun_induction lexemes pos t with
  | case1 =>
    intro ts h
    obtain rfl : ts = [] := by simpa using h.symm
    exact .nil
  | case2 pos c t hb ih => exact fun ts h => .blank hb (ih ts h)
  | case3 pos c t _ lexeme stop ih =>
    intro ts h
    cases ts with
    | nil => simp at h
    | cons x ts =>
      obtain ⟨hx, h⟩ := List.cons.inj h
      have hs := Lexeme.spells hx (ih ts h)
      rwa [Lexeme.text_ofHead, List.cons_append, Lexeme.continuation_append_drop] at hs

theorem Text.spells (h : t.terminals = ts.map some) : Spells t ts :=
  spells_of_lexemes 0 t ts h

theorem Bracketing.spells {b : Bracketing} (h : b.terminals = ts.map some) :
    Spells b.toText ts := by
  induction b generalizing ts with
  | flat gap => exact Text.spells h
  | opening gap rest ih =>
    obtain ⟨us, ws, rfl, hu, hw⟩ := List.map_eq_append_iff.mp h.symm
    obtain ⟨x, vs, rfl, hx, hv⟩ := List.map_eq_cons_iff.mp hw
    obtain rfl := Option.some.inj hx
    exact (Text.spells hu.symm).append (.opening (ih hv.symm))
  | closing gap rest ih =>
    obtain ⟨us, ws, rfl, hu, hw⟩ := List.map_eq_append_iff.mp h.symm
    obtain ⟨x, vs, rfl, hx, hv⟩ := List.map_eq_cons_iff.mp hw
    obtain rfl := Option.some.inj hx
    exact (Text.spells hu.symm).append (.closing (ih hv.symm))

theorem spells_iff (hts : ts.IsChain Terminal.Apart) :
    Spells t ts ↔ (Bracketing.ofText t).terminals = ts.map some := by
  constructor
  · intro h
    exact h.terminals hts
  · intro h
    have hs := Bracketing.spells h
    rwa [Bracketing.toText_ofText] at hs

theorem Parses.apart {k : Nat} {e : Tree δ} (h : Parses k ts e) :
    ts.IsChain Terminal.Apart ∧ ts ≠ [] ∧ (∀ op, ts.head? ≠ some (.operator op)) ∧
      ∀ op, ts.getLast? ≠ some (.operator op) := by
  induction h with
  | number | dice => simp
  | @group k ts e _ ih =>
    obtain ⟨hc, hne, _, _⟩ := ih
    refine ⟨?_, by simp, by simp, fun op => by rw [List.getLast?_concat]; simp⟩
    rw [List.cons_append, List.isChain_cons, List.isChain_append]
    refine ⟨fun y _ => ?_, hc, .singleton _, fun x _ y hy => ?_⟩
    · cases y <;> trivial
    · obtain rfl : Terminal.closing = y := by simpa using hy
      cases x <;> trivial
  | @node l r ts us _ _ op _ _ _ _ ihl ihr =>
    obtain ⟨hcl, hnl, hhead, hlast⟩ := ihl
    obtain ⟨hcr, hnr, hhead', hlast'⟩ := ihr
    refine ⟨?_, by simp, ?_, ?_⟩
    · rw [List.isChain_append, List.isChain_cons]
      refine ⟨hcl, ⟨fun y hy => ?_, hcr⟩, fun x hx y hy => ?_⟩
      · cases y with
        | operator op' => exact absurd hy (hhead' op')
        | _ => trivial
      · obtain rfl : Terminal.operator op = y := by simpa using hy
        cases x with
        | operator op' => exact absurd hx (hlast op')
        | _ => trivial
    · rwa [List.head?_append_of_ne_nil _ hnl]
    · rw [List.append_cons, List.getLast?_append_of_ne_nil _ hnr]
      exact hlast'

end DiceArith
