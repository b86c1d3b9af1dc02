import DiceArith.Calculator
import DiceArith.Proofs.Except
import DiceArith.Proofs.Precedence

/-! # The stack of open groups

Terminals are read one by one, with the tokens around every open group set aside. What has
been read is always a partial derivation: each operand set aside is the value of a parse
tree, and only the opening parentheses have no partner yet.
-/

namespace DiceArith

variable {α δ : Type}

namespace Chain

def tokens (chain : Chain α) : List (Token α) :=
  .operand chain.head :: chain.tail.flatMap fun (op, x) => [.operator op, .operand x]

theorem tokens_append (left : Chain α) (op : Operator) (right : Chain α) :
    (left.append op right).tokens = left.tokens ++ .operator op :: right.tokens := by
  simp [tokens, append]

theorem tailOfTokens_eq_ok_iff {stop : Nat} {tokens : List (Located (Token α))}
    {l : List (Operator × α)} :
    tailOfTokens stop tokens = .ok l ↔
      tokens.map Located.item = l.flatMap fun (op, x) => [.operator op, .operand x] := by
  fun_induction tailOfTokens stop tokens generalizing l with
  | case1 => cases l <;> simp
  | case2 => cases l <;> simp
  | case3 => cases l <;> simp
  | case4 => cases l <;> simp
  | case5 op _ value _ rest ih =>
    cases l with
    | nil => simp [Except.map_eq_ok_iff]
    | cons p l =>
      obtain ⟨op', x⟩ := p
      simp only [Except.map_eq_ok_iff, ih]
      simp [and_assoc, and_comm, and_left_comm]

theorem ofTokens_eq_ok_iff {whole : Span} {tokens : List (Located (Token α))} {chain : Chain α} :
    ofTokens whole tokens = .ok chain ↔ tokens.map Located.item = chain.tokens := by
  obtain ⟨head, tail⟩ := chain
  unfold ofTokens
  split
  · simp [Chain.tokens]
  · simp [Chain.tokens]
  · simp only [Except.map_eq_ok_iff, tailOfTokens_eq_ok_iff]
    simp [Chain.tokens, and_comm]

end Chain

namespace Token

variable (A : Arithmetic α)

def reduce? (tokens : List (Token α)) : Option α :=
  (Calculator.reduce A ⟨0, 0⟩ (tokens.map fun token => ⟨token, ⟨0, 0⟩⟩)).toOption

variable {A}

theorem reduce?_eq_some_iff {tokens : List (Token α)} {v : α} :
    reduce? A tokens = some v ↔
      ∃ chain : Chain α, tokens = chain.tokens ∧ chain.reduce A = .ok v := by
  rw [reduce?, Except.toOption_eq_some_iff, Calculator.reduce, Except.bind_eq_ok_iff]
  simp [Chain.ofTokens_eq_ok_iff, Function.comp_def]

theorem reduce_eq_ok_iff {whole : Span} {tokens : List (Located (Token α))} {v : α} :
    Calculator.reduce A whole tokens = .ok v ↔ reduce? A (tokens.map Located.item) = some v := by
  rw [reduce?_eq_some_iff, Calculator.reduce, Except.bind_eq_ok_iff]
  simp only [Chain.ofTokens_eq_ok_iff]

end Token

section Shift

variable (A : Arithmetic α) (f : δ → α)

/-- Reads terminals; `outer` holds the tokens around the open groups, `tokens` those of the
innermost one. -/
def shift : List (Terminal δ) → List (List (Token α)) → List (Token α) → Option α
  | [], [], tokens => Token.reduce? A tokens
  | [], _ :: _, _ => none
  | .number n :: ts, outer, tokens => shift ts outer (tokens ++ [.operand (A.numeral n)])
  | .dice d :: ts, outer, tokens => shift ts outer (tokens ++ [.operand (f d)])
  | .operator op :: ts, outer, tokens => shift ts outer (tokens ++ [.operator op])
  | .opening :: ts, outer, tokens => shift ts (tokens :: outer) []
  | .closing :: _, [], _ => none
  | .closing :: ts, before :: outer, tokens =>
    (Token.reduce? A tokens).bind fun v => shift ts outer (before ++ [.operand v])

/-- Tokens that stand for terminals, each operand for those of one operand of the grammar. -/
inductive TokensParse : List (Token α) → List (Terminal δ) → Prop
  | nil : TokensParse [] []
  | operand {us e tokens ts} : Parses 0 us e → TokensParse tokens ts →
      TokensParse (.operand (e.value A f) :: tokens) (us ++ ts)
  | operator {op tokens ts} : TokensParse tokens ts →
      TokensParse (.operator op :: tokens) (.operator op :: ts)

/-- A partial derivation of terminals, every token list set aside before an opening one. -/
inductive PartialParse : List (List (Token α)) → List (Token α) → List (Terminal δ) → Prop
  | base {tokens ts} : TokensParse A f tokens ts → PartialParse [] tokens ts
  | push {outer before tokens ts us} : PartialParse outer before ts → TokensParse A f tokens us →
      PartialParse (before :: outer) tokens (ts ++ .opening :: us)

variable {A f} {tokens more : List (Token α)} {ts us : List (Terminal δ)}

theorem TokensParse.append (h : TokensParse A f tokens ts) (h' : TokensParse A f more us) :
    TokensParse A f (tokens ++ more) (ts ++ us) := by
  induction h with
  | nil => exact h'
  | operand he _ ih =>
    rw [List.append_assoc]
    exact .operand he ih
  | operator _ ih => exact .operator ih

theorem PartialParse.append {outer : List (List (Token α))} (h : PartialParse A f outer tokens ts)
    (h' : TokensParse A f more us) : PartialParse A f outer (tokens ++ more) (ts ++ us) := by
  cases h with
  | base h => exact .base (h.append h')
  | push hb h =>
    rw [List.append_assoc]
    exact .push hb (h.append h')

theorem PartialParse.operand {outer : List (List (Token α))} {e : Tree δ}
    (h : PartialParse A f outer tokens ts) (he : Parses 0 us e) :
    PartialParse A f outer (tokens ++ [.operand (e.value A f)]) (ts ++ us) := by
  simpa using h.append (.operand he .nil)

theorem TokensParse.tail {l : List (Operator × α)}
    (h : TokensParse A f (l.flatMap fun (op, x) => [.operator op, .operand x]) ts) :
    TailParses A f 0 l ts := by
  induction l generalizing ts with
  | nil =>
    cases h
    exact .nil
  | cons p l ih =>
    obtain ⟨op, x⟩ := p
    cases h with
    | operator h =>
      cases h with
      | operand he h => exact .cons op.tier_pos (Nat.zero_le _) he (ih h)

theorem TokensParse.reduce {v : α} (h : TokensParse A f tokens ts)
    (hv : Token.reduce? A tokens = some v) : ∃ k e, Parses k ts e ∧ e.value A f = v := by
  obtain ⟨⟨head, l⟩, rfl, hr⟩ := Token.reduce?_eq_some_iff.mp hv
  cases h with
  | operand he h =>
    have hs : Staged A f 0 ⟨_, l⟩ _ := ⟨0, _, _, _, le_rfl, he, rfl, h.tail, rfl⟩
    obtain ⟨k, e, hp, he'⟩ := hs.reduce
    exact ⟨k, e, hp, Except.ok.inj (he'.symm.trans hr)⟩

theorem PartialParse.parses {outer : List (List (Token α))} {v : α} {ws : List (Terminal δ)}
    (h : PartialParse A f outer tokens ws) (hv : shift A f ts outer tokens = some v) :
    ∃ k e, Parses k (ws ++ ts) e ∧ e.value A f = v := by
  induction ts generalizing outer tokens ws with
  | nil =>
    cases h with
    | base h => simpa using h.reduce hv
    | push => simp [shift] at hv
  | cons x ts ih =>
    rw [List.append_cons]
    cases x with
    | number n => exact ih (h.operand (.number n)) hv
    | dice d => exact ih (h.operand (.dice d)) hv
    | operator op => exact ih (h.append (.operator .nil)) hv
    | opening => exact ih (.push h .nil) hv
    | closing =>
      cases h with
      | base => simp [shift] at hv
      | @push outer before tokens ws us hb h =>
        obtain ⟨x, hx, hv⟩ := Option.bind_eq_some_iff.mp hv
        obtain ⟨k, e, he, rfl⟩ := h.reduce hx
        have hg := ih (hb.operand he.group) hv
        simpa using hg

/-- A parse tree is read as a chain whose passes give its value. -/
theorem Parses.shift_append {k : Nat} {e : Tree δ} (h : Parses k ts e) :
    ∃ chain : Chain α, chain.passes A k = ⟨e.value A f, []⟩ ∧ ∀ rest outer tokens,
      shift A f (ts ++ rest) outer tokens = shift A f rest outer (tokens ++ chain.tokens) := by
  induction h with
  | number n => exact ⟨⟨A.numeral n, []⟩, rfl, fun _ _ _ => rfl⟩
  | dice d => exact ⟨⟨f d, []⟩, rfl, fun _ _ _ => rfl⟩
  | @group k ts e he ih =>
    obtain ⟨chain, hc, hs⟩ := ih
    refine ⟨⟨e.value A f, []⟩, rfl, fun rest outer tokens => ?_⟩
    have hr : Token.reduce? A chain.tokens = some (e.value A f) :=
      Token.reduce?_eq_some_iff.mpr
        ⟨chain, rfl, Chain.reduce_eq_ok (Chain.passes_eq_of_le hc he.tier_le)⟩
    rw [List.append_assoc, List.cons_append, shift, hs, List.nil_append, List.singleton_append,
      shift, hr]
    rfl
  | node op hl hr _ _ ihl ihr =>
    obtain ⟨left, hcl, hsl⟩ := ihl
    obtain ⟨right, hcr, hsr⟩ := ihr
    refine ⟨left.append op right, Chain.passes_node hl hr hcl hcr, fun rest outer tokens => ?_⟩
    rw [List.append_assoc, hsl, List.cons_append, shift, hsr, Chain.tokens_append]
    simp

theorem Parses.shift_operand {e : Tree δ} (h : Parses 0 ts e) (rest : List (Terminal δ))
    (outer : List (List (Token α))) (tokens : List (Token α)) :
    shift A f (ts ++ rest) outer tokens =
      shift A f rest outer (tokens ++ [.operand (e.value A f)]) := by
  obtain ⟨chain, hc, hs⟩ := h.shift_append (A := A) (f := f)
  obtain rfl : chain = ⟨e.value A f, []⟩ := hc
  exact hs rest outer tokens

/-- Reading succeeds on the chains of the grammar and answers with the value of their tree. -/
theorem shift_eq_some_iff {v : α} :
    shift A f ts [] [] = some v ↔ ∃ k e, Parses k ts e ∧ e.value A f = v := by
  constructor
  · intro h
    exact PartialParse.parses (.base .nil) h
  · rintro ⟨k, e, he, rfl⟩
    obtain ⟨chain, hc, hs⟩ := he.shift_append (A := A) (f := f)
    have h := hs [] [] []
    rw [List.append_nil, List.nil_append] at h
    rw [h, shift, Token.reduce?_eq_some_iff]
    exact ⟨chain, rfl, Chain.reduce_eq_ok (Chain.passes_eq_of_le hc he.tier_le)⟩

theorem Parses.unique {k k' : Nat} {e e' : Tree δ} (h : Parses k ts e) (h' : Parses k' ts e') :
    e = e' := by
  have hv : shift (.free δ) .dice ts [] [] = some e :=
    shift_eq_some_iff.mpr ⟨k, e, h, e.value_free⟩
  have hv' : shift (.free δ) .dice ts [] [] = some e' :=
    shift_eq_some_iff.mpr ⟨k', e', h', e'.value_free⟩
  exact Option.some.inj (hv.symm.trans hv')

end Shift

end DiceArith
