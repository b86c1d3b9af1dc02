import DiceArith.Proofs.GroupStack
import DiceArith.Proofs.Reading

/-! # Calculation

A calculation succeeds on the texts that spell a chain of the grammar and on no others. Its
value is that of the only parse tree of the text.
-/

namespace DiceArith

open Bracketing (ofText)

variable {α δ : Type}

inductive Token.Reads (A : Arithmetic α) : Terminal δ → Token α → Prop
  | number (n) : Reads A (.number n) (.operand (A.numeral n))
  | operator (op) : Reads A (.operator op) (.operator op)

namespace Token

variable {A : Arithmetic α}

theorem ofLexeme_cases (A : Arithmetic α) (lexeme : Lexeme) :
    (∃ problem, ofLexeme A lexeme = .error problem ∧
      lexeme.terminal? = (none : Option (Terminal δ))) ∨
    ∃ (token : Token α) (x : Terminal δ), ofLexeme A lexeme = .ok token ∧
      lexeme.terminal? = some x ∧ Reads A x token := by
  cases lexeme with
  | literal t =>
    cases h : Numeral.read? t with
    | none => exact .inl ⟨_, by rw [ofLexeme, h], by rw [Lexeme.terminal?, h]; rfl⟩
    | some n => exact .inr ⟨_, _, by rw [ofLexeme, h], by rw [Lexeme.terminal?, h]; rfl, .number n⟩
  | symbol t =>
    cases h : Operator.ofSymbol? t with
    | none => exact .inl ⟨_, by rw [ofLexeme, h], by rw [Lexeme.terminal?, h]; rfl⟩
    | some op =>
      exact .inr ⟨_, _, by rw [ofLexeme, h], by rw [Lexeme.terminal?, h]; rfl, .operator op⟩

theorem ofLexemes_cases (A : Arithmetic α) (ls : List (Located Lexeme)) :
    (∃ tokens error, ofLexemes A ls = (tokens, some error) ∧
      none ∈ ls.map fun lexeme => (lexeme.item.terminal? : Option (Terminal δ))) ∨
    ∃ (tokens : List (Located (Token α))) (ts : List (Terminal δ)),
      ofLexemes A ls = (tokens, none) ∧
      ls.map (fun lexeme => lexeme.item.terminal?) = ts.map some ∧
      List.Forall₂ (Reads A) ts (tokens.map Located.item) := by
  induction ls with
  | nil => exact .inr ⟨[], [], rfl, rfl, .nil⟩
  | cons located ls ih =>
    obtain ⟨lexeme, span⟩ := located
    rcases ofLexeme_cases (δ := δ) A lexeme with ⟨problem, hl, hx⟩ | ⟨token, x, hl, hx, hr⟩
    · exact .inl ⟨_, _, by rw [ofLexemes, hl], by simp [hx]⟩
    · rcases ih with ⟨tokens, error, h, hmem⟩ | ⟨tokens, ts, h, hts, hrs⟩
      · refine .inl ⟨_, error, by rw [ofLexemes, hl, h], ?_⟩
        rw [List.map_cons]
        exact List.mem_cons_of_mem _ hmem
      · refine .inr ⟨⟨token, span⟩ :: tokens, x :: ts, by rw [ofLexemes, hl, h], ?_, .cons hr hrs⟩
        rw [List.map_cons, List.map_cons, hts, hx]

theorem ofText_cases (A : Arithmetic α) (pos : Nat) (t : Text) :
    (∃ error, ofText A pos t = .error error ∧ (none : Option (Terminal δ)) ∈ t.terminals) ∨
    ∃ (tokens : List (Located (Token α))) (ts : List (Terminal δ)),
      ofText A pos t = .ok tokens ∧ t.terminals = ts.map some ∧
      List.Forall₂ (Reads A) ts (tokens.map Located.item) := by
  rw [Text.terminals_eq pos]
  rcases ofLexemes_cases (δ := δ) A (lexemes pos t) with
    ⟨tokens, error, h, hmem⟩ | ⟨tokens, ts, h, hts, hrs⟩
  · exact .inl ⟨error, by rw [ofText, h], hmem⟩
  · exact .inr ⟨tokens, ts, by rw [ofText, h], hts, hrs⟩

end Token

section Run

variable {A : Arithmetic α} {f : δ → α} {v : α}

theorem shift_append_of_reads {ts rest : List (Terminal δ)} {more tokens : List (Token α)}
    {outer : List (List (Token α))} (h : List.Forall₂ (Token.Reads A) ts more) :
    shift A f (ts ++ rest) outer tokens = shift A f rest outer (tokens ++ more) := by
  induction h generalizing tokens with
  | nil => rw [List.nil_append, List.append_nil]
  | cons hr _ ih =>
    rw [List.append_cons tokens]
    cases hr with
    | number n => exact ih
    | operator op => exact ih

theorem map_some_inj {β : Type} {xs ys : List β} : xs.map some = ys.map some ↔ xs = ys :=
  List.map_inj_right fun _ _ => Option.some.inj

theorem Parses.unique_of_map {ts ts' : List (Terminal δ)} {k k' : Nat} {e e' : Tree δ}
    (he : Parses k ts e) (he' : Parses k' ts' e') (h : ts.map some = ts'.map some) : e = e' := by
  obtain rfl := map_some_inj.mp h
  exact he.unique he'

theorem exists_map_some_append {β : Type} {ws : List β} {xs : List (Option β)}
    {P : List β → Prop} :
    (∃ ts, ws.map some ++ xs = ts.map some ∧ P ts) ↔ ∃ us, xs = us.map some ∧ P (ws ++ us) := by
  constructor
  · rintro ⟨ts, h, hp⟩
    obtain ⟨vs, us, rfl, hv, hu⟩ := List.map_eq_append_iff.mp h.symm
    obtain rfl := map_some_inj.mp hv
    exact ⟨us, hu.symm, hp⟩
  · rintro ⟨us, rfl, hp⟩
    exact ⟨ws ++ us, by simp, hp⟩

theorem exists_map_some_append_cons {β : Type} {ws : List β} {x : β} {xs : List (Option β)}
    {P : List β → Prop} :
    (∃ ts, ws.map some ++ some x :: xs = ts.map some ∧ P ts) ↔
      ∃ us, xs = us.map some ∧ P (ws ++ x :: us) := by
  have hws : ws.map some ++ some x :: xs = (ws ++ [x]).map some ++ xs := by simp
  simp only [hws, exists_map_some_append, List.append_assoc, List.singleton_append]

namespace Calculator

def setAside (enclosing : List (Frame α)) : List (List (Token α)) :=
  enclosing.map fun frame => frame.tokens.map Located.item

/-- The calculator does with a text what reading its terminals with a stack does. -/
theorem run_eq_ok_iff {b : Bracketing} {enclosing : List (Frame α)}
    {tokens : List (Located (Token α))} {pos : Nat} :
    run A enclosing tokens pos b = .ok v ↔
      ∃ ts : List (Terminal δ), b.terminals = ts.map some ∧
        shift A f ts (setAside enclosing) (tokens.map Located.item) = some v := by
  induction b generalizing enclosing tokens pos with
  | flat gap =>
    rcases Token.ofText_cases (δ := δ) A pos gap with ⟨error, ht, hmem⟩ | ⟨more, ws, ht, hws, hrs⟩
    · constructor
      · intro h
        simp [run, ht] at h
      · rintro ⟨ts, hts, _⟩
        have h : none ∈ ts.map some := hts ▸ hmem
        simp at h
    · have hshift : shift A f ws (setAside enclosing) (tokens.map Located.item) =
          shift A f [] (setAside enclosing) (tokens.map Located.item ++ more.map Located.item) := by
        rw [← shift_append_of_reads hrs, List.append_nil]
      simp only [run, ht, Except.ok_bind, Bracketing.terminals, hws, map_some_inj,
        exists_eq_left', hshift]
      cases enclosing with
      | nil => simp [shift, setAside, Token.reduce_eq_ok_iff]
      | cons frame outer =>
        rw [List.getLast?_cons]
        simp [shift, setAside]
  | opening gap rest ih =>
    rcases Token.ofText_cases (δ := δ) A pos gap with ⟨error, ht, hmem⟩ | ⟨more, ws, ht, hws, hrs⟩
    · constructor
      · intro h
        simp [run, ht] at h
      · rintro ⟨ts, hts, _⟩
        have h : none ∈ ts.map some := hts ▸ List.mem_append_left _ hmem
        simp at h
    · simp only [run, ht, Except.ok_bind, Bracketing.terminals, hws, exists_map_some_append_cons,
        shift_append_of_reads hrs, ih]
      simp [shift, setAside]
  | closing gap rest ih =>
    rcases Token.ofText_cases (δ := δ) A pos gap with ⟨error, ht, hmem⟩ | ⟨more, ws, ht, hws, hrs⟩
    · constructor
      · intro h
        simp [run, ht] at h
      · rintro ⟨ts, hts, _⟩
        have h : none ∈ ts.map some := hts ▸ List.mem_append_left _ hmem
        simp at h
    · simp only [run, ht, Except.ok_bind, Bracketing.terminals, hws, exists_map_some_append_cons,
        shift_append_of_reads hrs]
      cases enclosing with
      | nil => simp [shift, setAside]
      | cons frame outer =>
        simp only [Except.bind_eq_ok_iff, ih, Token.reduce_eq_ok_iff, setAside, List.map_cons,
          shift, Option.bind_eq_some_iff, List.map_append, List.map_nil]
        constructor
        · rintro ⟨x, hx, ts, hts, h⟩
          exact ⟨ts, hts, x, hx, h⟩
        · rintro ⟨ts, hts, x, hx, h⟩
          exact ⟨x, hx, ts, hts, h⟩

theorem scan_of_run {b : Bracketing} {enclosing : List (Frame α)}
    {tokens : List (Located (Token α))} {pos : Nat} (h : run A enclosing tokens pos b = .ok v)
    (start pos' : Nat) : ∃ spans, Nesting.scan none enclosing.length start pos' b = .ok spans := by
  induction b generalizing enclosing tokens pos start pos' with
  | flat gap =>
    obtain ⟨more, _, h⟩ := Except.bind_eq_ok_iff.mp h
    cases enclosing with
    | nil => exact ⟨[], rfl⟩
    | cons frame outer => simp [List.getLast?_cons] at h
  | opening gap rest ih =>
    obtain ⟨more, _, h⟩ := Except.bind_eq_ok_iff.mp h
    exact ih h _ _
  | closing gap rest ih =>
    obtain ⟨more, _, h⟩ := Except.bind_eq_ok_iff.mp h
    cases enclosing with
    | nil => simp at h
    | cons frame outer =>
      obtain ⟨x, _, h⟩ := Except.bind_eq_ok_iff.mp h
      obtain ⟨spans, hs⟩ := ih h start (pos' + gap.size + 1)
      cases outer with
      | nil => exact ⟨_, by rw [List.length_singleton, Nesting.scan, ← List.length_nil, hs]; rfl⟩
      | cons => exact ⟨spans, hs⟩

end Calculator

theorem calculate_eq_ok_iff_run {t : Text} :
    calculate A t = .ok v ↔ Calculator.run A [] [] 0 (ofText t) = .ok v := by
  rw [calculate, Calculator.value, Except.bind_eq_ok_iff]
  constructor
  · rintro ⟨_, _, h⟩
    exact h
  · intro h
    obtain ⟨spans, hs⟩ := Calculator.scan_of_run h 0 0
    exact ⟨spans, hs, h⟩

theorem calculate_eq_ok_iff_shift {t : Text} :
    calculate A t = .ok v ↔ ∃ ts : List (Terminal δ), (ofText t).terminals = ts.map some ∧
      shift A f ts [] [] = some v :=
  calculate_eq_ok_iff_run.trans Calculator.run_eq_ok_iff

end Run

namespace Text

variable {α : Type}

def ParseTree (t : Text) (e : Tree Empty) : Prop := ∃ ts k, Spells t ts ∧ Parses k ts e

end Text

theorem Text.ParseTree.unique {t : Text} {e e' : Tree Empty} (h : t.ParseTree e)
    (h' : t.ParseTree e') : e = e' := by
  obtain ⟨ts, k, hs, he⟩ := h
  obtain ⟨ts', k', hs', he'⟩ := h'
  have hread := (spells_iff he.apart.1).mp hs
  have hread' := (spells_iff he'.apart.1).mp hs'
  exact he.unique_of_map he' (hread.symm.trans hread')

/-- Powers associate to the left, and a group is an operand like any other. -/
example : calculate (.free Empty) "2**2**(3 - 1)".toList = .ok
    (.node .power (.node .power (.number (.ofNat 2)) (.number (.ofNat 2)))
      (.node .subtract (.number (.ofNat 3)) (.number (.ofNat 1)))) := by
  cbv

end DiceArith
