import DiceArith.Proofs.GroupStack
import DiceArith.Proofs.Reading

/-! # Contraction

Operators can be applied one by one, each time the leftmost one of a tier, which is contracted to
an operand together with the two beside it. Folding a chain of tokens comes to the same, whatever
the operators do. Tokens that do not alternate are refused for the first one that is out of place.
-/

namespace DiceArith

variable {α : Type}

def Operator.byTier : List (List Operator) := [[.power], [.multiply, .divide], [.add, .subtract]]

namespace Token

/-- No operator of a tier stands among tokens. -/
def Free (tier : List Operator) (tokens : List (Token α)) : Prop :=
  ∀ op ∈ tier, .operator op ∉ tokens

section Contraction

variable (A : Arithmetic α)

/-- The leftmost operator of a tier is applied to the operands beside it. -/
inductive Contracts (tier : List Operator) : List (Token α) → List (Token α) → Prop
  | mk {before op x y after} : op ∈ tier → Free tier before →
      Contracts tier (before ++ .operand x :: .operator op :: .operand y :: after)
        (before ++ .operand (A.apply op x y) :: after)

/-- The operators of a tier are applied until none of them is left. -/
inductive Exhausts (tier : List Operator) : List (Token α) → List (Token α) → Prop
  | done {tokens} : Free tier tokens → Exhausts tier tokens tokens
  | step {tokens next last} : Contracts A tier tokens next → Exhausts tier next last →
      Exhausts tier tokens last

/-- One tier is exhausted after the other. -/
inductive Resolves : List (List Operator) → List (Token α) → List (Token α) → Prop
  | nil {tokens} : Resolves [] tokens tokens
  | cons {tier tiers tokens next last} : Exhausts A tier tokens next → Resolves tiers next last →
      Resolves (tier :: tiers) tokens last

variable {A} {tier : List Operator} {tiers : List (List Operator)}
  {tokens next next' last last' before after : List (Token α)} {op : Operator} {k : Nat}

theorem Free.append (h : Free tier before) (h' : Free tier after) :
    Free tier (before ++ after) := by
  intro op hop hmem
  rcases List.mem_append.mp hmem with hmem | hmem
  · exact h op hop hmem
  · exact h' op hop hmem

theorem free_nil : Free tier ([] : List (Token α)) := fun _ _ => List.not_mem_nil

theorem free_operand (x : α) : Free tier [.operand x] := by
  intro op _ hmem
  cases List.mem_singleton.mp hmem

theorem free_operator (h : op ∉ tier) : Free tier [(.operator op : Token α)] := by
  intro op' hop hmem
  cases List.mem_singleton.mp hmem
  exact h hop

theorem Free.append_cons_inj {before' after' : List (Token α)} {op' : Operator}
    (h : Free tier before) (h' : Free tier before') (hop : op ∈ tier) (hop' : op' ∈ tier)
    (heq : before ++ .operator op :: after = before' ++ .operator op' :: after') :
    before = before' ∧ op = op' ∧ after = after' := by
  rcases append_cons_trichotomy heq with ⟨rfl, hop, rfl⟩ | ⟨w, rfl, _⟩ | ⟨w, rfl, _⟩
  · exact ⟨rfl, Token.operator.inj hop, rfl⟩
  · exact absurd (by simp) (h' op hop)
  · exact absurd (by simp) (h op' hop')

theorem Contracts.not_free (h : Contracts A tier tokens next) : ¬ Free tier tokens := by
  cases h with
  | mk hop _ => exact fun hfree => hfree _ hop (by simp)

theorem Contracts.unique (h : Contracts A tier tokens next) (h' : Contracts A tier tokens next') :
    next = next' := by
  cases h with
  | @mk before op x y after hop hbefore =>
    generalize htokens : before ++ .operand x :: .operator op :: .operand y :: after = tokens at h'
    cases h' with
    | @mk before' op' x' y' after' hop' hbefore' =>
      rw [List.append_cons, List.append_cons before'] at htokens
      obtain ⟨hleft, rfl, hright⟩ := (hbefore.append (free_operand x)).append_cons_inj
        (hbefore'.append (free_operand x')) hop hop' htokens
      obtain ⟨rfl, hx⟩ := List.append_inj' hleft rfl
      cases hx
      cases hright
      rfl

theorem Exhausts.unique (h : Exhausts A tier tokens last) (h' : Exhausts A tier tokens last') :
    last = last' := by
  induction h with
  | done hfree =>
    cases h' with
    | done _ => rfl
    | step hstep _ => exact absurd hfree hstep.not_free
  | step hstep _ ih =>
    cases h' with
    | done hfree => exact absurd hfree hstep.not_free
    | step hstep' hrest =>
      obtain rfl := hstep.unique hstep'
      exact ih hrest

theorem Resolves.unique (h : Resolves A tiers tokens last) (h' : Resolves A tiers tokens last') :
    last = last' := by
  induction h with
  | nil =>
    cases h'
    rfl
  | cons hexhausts _ ih =>
    cases h' with
    | cons hexhausts' hrest =>
      obtain rfl := hexhausts.unique hexhausts'
      exact ih hrest

end Contraction

end Token

namespace Chain

open Token

variable {A : Arithmetic α} {tier : List Operator} {k : Nat} {op : Operator} {x acc : α}
  {l : List (Operator × α)} {before : List (Token α)}

theorem tokens_cons : tokens ⟨acc, (op, x) :: l⟩ =
    .operand acc :: .operator op :: tokens ⟨x, l⟩ := rfl

/-- A fold goes on from where no operator of its tier is left. -/
theorem exhausts_fold (htier : ∀ op, op ∈ tier ↔ op.tier = k) (acc : α) (l : List (Operator × α))
    (hbefore : Free tier before) :
    Exhausts A tier (before ++ tokens ⟨acc, l⟩) (before ++ (fold A k acc l).tokens) := by
  induction l generalizing before acc with
  | nil => exact .done (hbefore.append (free_operand acc))
  | cons p l ih =>
    obtain ⟨op, x⟩ := p
    by_cases hop : op.tier = k
    · rw [fold_cons_of_eq hop]
      exact .step (.mk ((htier op).mpr hop) hbefore) (ih _ hbefore)
    · have hfree := (hbefore.append (free_operand acc)).append
        (free_operator (mt (htier op).mp hop))
      have hrest := ih x hfree
      rw [fold_cons_of_ne hop, tokens_cons, tokens_cons]
      simpa only [List.append_assoc, List.singleton_append, List.cons_append, List.nil_append]
        using hrest

theorem exhausts_pass (htier : ∀ op, op ∈ tier ↔ op.tier = k) (chain : Chain α) :
    Exhausts A tier chain.tokens (chain.pass A k).tokens := by
  have h := exhausts_fold (A := A) htier chain.head chain.tail free_nil
  rwa [List.nil_append, List.nil_append] at h

theorem resolves_passes (chain : Chain α) :
    Resolves A Operator.byTier chain.tokens (chain.passes A 3).tokens := by
  refine .cons (exhausts_pass (k := 1) ?_ chain) (.cons (exhausts_pass (k := 2) ?_ _)
    (.cons (exhausts_pass (k := 3) ?_ _) .nil)) <;>
  intro op <;> cases op <;> decide

theorem of_mem_tail_fold {p : Operator × α} (h : p ∈ (fold A k acc l).tail) :
    p.1.tier ≠ k ∧ p.1 ∈ l.map Prod.fst := by
  induction l generalizing acc p with
  | nil => cases h
  | cons q l ih =>
    obtain ⟨op, x⟩ := q
    by_cases hop : op.tier = k
    · rw [fold_cons_of_eq hop] at h
      obtain ⟨hne, hmem⟩ := ih h
      exact ⟨hne, List.mem_cons_of_mem _ hmem⟩
    · rw [fold_cons_of_ne hop] at h
      rcases List.mem_cons.mp h with rfl | h
      · exact ⟨hop, List.mem_cons_self⟩
      · obtain ⟨hne, hmem⟩ := ih h
        exact ⟨hne, List.mem_cons_of_mem _ hmem⟩

theorem lt_tier_of_mem_passes {chain : Chain α} {p : Operator × α}
    (h : p ∈ (chain.passes A k).tail) : k < p.1.tier := by
  induction k generalizing p with
  | zero => exact p.1.tier_pos
  | succ k ih =>
    obtain ⟨hne, hmem⟩ := of_mem_tail_fold h
    obtain ⟨q, hq, heq⟩ := List.mem_map.mp hmem
    have hlt := ih hq
    rw [heq] at hlt
    omega

theorem exists_passes_eq (A : Arithmetic α) (chain : Chain α) :
    ∃ v, chain.passes A 3 = ⟨v, []⟩ := by
  generalize hlast : chain.passes A 3 = last
  obtain ⟨v, l⟩ := last
  cases l with
  | nil => exact ⟨v, rfl⟩
  | cons p l =>
    have hlt : 3 < p.1.tier := lt_tier_of_mem_passes (by rw [hlast]; exact List.mem_cons_self)
    exact absurd p.1.tier_le (Nat.not_le.mpr hlt)

theorem reduce_iff_resolves {chain : Chain α} {v : α} :
    chain.reduce A = .ok v ↔ Resolves A Operator.byTier chain.tokens [.operand v] := by
  obtain ⟨w, hw⟩ := chain.exists_passes_eq A
  have hresolves := chain.resolves_passes (A := A)
  rw [hw] at hresolves
  rw [reduce_eq_ok hw]
  constructor
  · rintro ⟨⟩
    exact hresolves
  · intro h
    cases hresolves.unique h
    rfl

end Chain

section Alternation

/-- Operands have the even places and operators the odd ones, counted from 0. -/
def Token.Fits (place : Nat) : Token α → Prop
  | .operand _ => place % 2 = 0
  | .operator _ => place % 2 = 1

def InPlace : Nat → List (Located (Token α)) → Prop
  | _, [] => True
  | place, token :: tokens => token.item.Fits place ∧ InPlace (place + 1) tokens

/-- Operands and operators take turns, with an operand at both ends. -/
def Alternate (tokens : List (Located (Token α))) : Prop :=
  InPlace 0 tokens ∧ tokens.length % 2 = 1

def Located.outOfPlace : Located (Token α) → Error
  | ⟨.operand _, span⟩ => .malformed span .adjacentOperands
  | ⟨.operator op, span⟩ => .malformed span (.misplacedOperator op)

/-- What is wrong first with the tokens of the span `whole`, if they do not alternate. -/
inductive Misordered (whole : Span) : List (Located (Token α)) → Error → Prop
  | missingOperand : Misordered whole [] (.malformed whole .missingOperand)
  | outOfPlace {before token after} : InPlace 0 before → ¬ token.item.Fits before.length →
      Misordered whole (before ++ token :: after) token.outOfPlace
  | trailingOperator {tokens} : InPlace 0 tokens → tokens ≠ [] → tokens.length % 2 = 0 →
      Misordered whole tokens (.malformed (.emptyAt whole.stop) .trailingOperator)

variable {whole : Span} {place : Nat} {error error' : Error}
  {tokens before after before' after' : List (Located (Token α))}
  {token token' : Located (Token α)}

theorem inPlace_append : InPlace place (before ++ after) ↔
    InPlace place before ∧ InPlace (place + before.length) after := by
  induction before generalizing place with
  | nil => simp [InPlace]
  | cons token before ih =>
    simp only [List.cons_append, InPlace, ih, List.length_cons, and_assoc, Nat.add_assoc,
      Nat.add_comm 1]

theorem InPlace.snoc (h : InPlace 0 before) (hfits : token.item.Fits before.length) :
    InPlace 0 (before ++ [token]) :=
  inPlace_append.mpr ⟨h, by rwa [Nat.zero_add], trivial⟩

theorem not_inPlace (h : ¬ token.item.Fits before.length) :
    ¬ InPlace 0 (before ++ token :: after) := by
  intro hplace
  have hfits := (inPlace_append.mp hplace).2.1
  rw [Nat.zero_add] at hfits
  exact h hfits

theorem InPlace.append_cons_inj (h : InPlace 0 before) (h' : InPlace 0 before')
    (hfits : ¬ token.item.Fits before.length) (hfits' : ¬ token'.item.Fits before'.length)
    (heq : before ++ token :: after = before' ++ token' :: after') : token = token' := by
  rcases append_cons_trichotomy heq with ⟨_, rfl, _⟩ | ⟨w, rfl, _⟩ | ⟨w, rfl, _⟩
  · rfl
  · exact absurd h' (not_inPlace hfits)
  · exact absurd h (not_inPlace hfits')

theorem Misordered.not_alternate (h : Misordered whole tokens error) : ¬ Alternate tokens := by
  rintro ⟨hplace, hodd⟩
  cases h with
  | missingOperand => cases hodd
  | outOfPlace _ hfits => exact not_inPlace hfits hplace
  | trailingOperator _ _ heven => omega

theorem Misordered.unique (h : Misordered whole tokens error)
    (h' : Misordered whole tokens error') : error = error' := by
  cases h with
  | missingOperand =>
    generalize htokens : ([] : List (Located (Token α))) = tokens at h'
    cases h' with
    | missingOperand => rfl
    | outOfPlace => cases List.append_ne_nil_of_right_ne_nil _ (List.cons_ne_nil _ _) htokens.symm
    | trailingOperator _ hne => exact absurd htokens.symm hne
  | @outOfPlace before token after hbefore hfits =>
    generalize htokens : before ++ token :: after = tokens at h'
    cases h' with
    | missingOperand => cases List.append_ne_nil_of_right_ne_nil _ (List.cons_ne_nil _ _) htokens
    | outOfPlace hbefore' hfits' =>
      obtain rfl := hbefore.append_cons_inj hbefore' hfits hfits' htokens
      rfl
    | trailingOperator hplace =>
      subst htokens
      exact absurd hplace (not_inPlace hfits)
  | trailingOperator hplace hne =>
    cases h' with
    | missingOperand => exact absurd rfl hne
    | outOfPlace _ hfits => exact absurd hplace (not_inPlace hfits)
    | trailingOperator => rfl

theorem Chain.tailOfTokens_alternates (hbefore : InPlace 0 before) (hodd : before.length % 2 = 1) :
    Except.Ends (Misordered whole (before ++ tokens)) (fun _ => Alternate (before ++ tokens))
      (tailOfTokens whole.stop tokens) := by
  fun_induction tailOfTokens whole.stop tokens generalizing before with
  | case1 =>
    rw [List.append_nil]
    exact .ok ⟨hbefore, hodd⟩
  | case2 value span rest =>
    have hfits : ¬ (Token.operand value).Fits before.length := by
      rw [Token.Fits, hodd]
      decide
    exact .error (.outOfPlace hbefore hfits)
  | case3 op span =>
    refine .error (.trailingOperator (hbefore.snoc hodd) ?_ ?_)
    · simp
    · rw [List.length_append, List.length_singleton]
      omega
  | case4 op span op' span' rest =>
    have hplace : InPlace 0 (before ++ [(⟨.operator op, span⟩ : Located (Token α))]) :=
      hbefore.snoc hodd
    rw [List.append_cons]
    refine .error (.outOfPlace hplace ?_)
    simp only [Token.Fits, List.length_append, List.length_singleton]
    omega
  | case5 op span value span' rest ih =>
    have hplace : InPlace 0 (before ++ [(⟨.operator op, span⟩ : Located (Token α))]) :=
      hbefore.snoc hodd
    rw [List.append_cons, List.append_cons _ _ rest]
    refine (ih (hplace.snoc ?_) ?_).map fun _ h => h
    · simp only [Token.Fits, List.length_append, List.length_singleton]
      omega
    · simp only [List.length_append, List.length_singleton]
      omega

theorem Chain.ofTokens_alternates (whole : Span) (tokens : List (Located (Token α))) :
    Except.Ends (Misordered whole tokens) (fun _ => Alternate tokens) (ofTokens whole tokens) := by
  unfold ofTokens
  split
  · exact .error .missingOperand
  · have hplace : InPlace 0 ([] : List (Located (Token α))) := trivial
    exact .error (.outOfPlace hplace (by simp [Token.Fits]))
  · next value span rest =>
    have hplace : InPlace 0 [(⟨.operand value, span⟩ : Located (Token α))] := ⟨rfl, trivial⟩
    exact (tailOfTokens_alternates hplace rfl).map fun _ h => h

/-- Tokens that alternate have the value that contraction leaves; all others are refused for what is
wrong first. -/
theorem reduce_contracts (A : Arithmetic α) (whole : Span) (tokens : List (Located (Token α))) :
    (Alternate tokens → ∃ v, Calculator.reduce A whole tokens = .ok v ∧
      ∀ last, Token.Resolves A Operator.byTier (tokens.map Located.item) last ↔
        last = [.operand v]) ∧
    (¬ Alternate tokens → ∃ error, Calculator.reduce A whole tokens = .error error ∧
      ∀ error', Misordered whole tokens error' ↔ error' = error) := by
  have hends := Chain.ofTokens_alternates whole tokens
  cases htokens : Chain.ofTokens whole tokens with
  | error error =>
    have herror := hends.of_error htokens
    refine ⟨fun h => absurd h herror.not_alternate, fun _ => ⟨error, ?_, fun error' => ?_⟩⟩
    · rw [Calculator.reduce, htokens, Except.error_bind]
    · constructor
      · intro h
        exact h.unique herror
      · rintro rfl
        exact herror
  | ok chain =>
    obtain ⟨v, hv⟩ := chain.exists_passes_eq A
    have hreduce := Chain.reduce_eq_ok hv
    have hresolves := Chain.reduce_iff_resolves.mp hreduce
    rw [htokens] at hends
    rw [Chain.ofTokens_eq_ok_iff.mp htokens]
    cases hends with
    | ok halternate =>
      refine ⟨fun _ => ⟨v, ?_, fun last => ?_⟩, fun h => absurd halternate h⟩
      · rw [Calculator.reduce, htokens, Except.ok_bind, hreduce]
      · constructor
        · intro h
          exact h.unique hresolves
        · rintro rfl
          exact hresolves

theorem reduce_contracts_power :
    Calculator.reduce (.free Empty) ⟨0, 6⟩ [⟨.operand (.number (.ofNat 9)), ⟨0, 1⟩⟩,
      ⟨.operator .subtract, ⟨1, 2⟩⟩, ⟨.operand (.number (.ofNat 2)), ⟨2, 3⟩⟩,
      ⟨.operator .power, ⟨3, 5⟩⟩, ⟨.operand (.number (.ofNat 3)), ⟨5, 6⟩⟩] =
      .ok (.node .subtract (.number (.ofNat 9))
        (.node .power (.number (.ofNat 2)) (.number (.ofNat 3)))) ∧
    Token.Resolves (.free Empty) Operator.byTier [.operand (.number (.ofNat 9)),
      .operator .subtract, .operand (.number (.ofNat 2)), .operator .power,
      .operand (.number (.ofNat 3))] [.operand (.node .subtract (.number (.ofNat 9))
        (.node .power (.number (.ofNat 2)) (.number (.ofNat 3))))] ∧
    Misordered (α := Tree Empty) ⟨0, 4⟩ [⟨.operand (.number (.ofNat 9)), ⟨0, 1⟩⟩,
      ⟨.operator .subtract, ⟨1, 2⟩⟩, ⟨.operator .power, ⟨2, 4⟩⟩]
      (.malformed ⟨2, 4⟩ (.misplacedOperator .power)) := by
  obtain ⟨halternate, _⟩ := reduce_contracts (.free Empty) ⟨0, 6⟩
    [⟨.operand (.number (.ofNat 9)), ⟨0, 1⟩⟩, ⟨.operator .subtract, ⟨1, 2⟩⟩,
      ⟨.operand (.number (.ofNat 2)), ⟨2, 3⟩⟩, ⟨.operator .power, ⟨3, 5⟩⟩,
      ⟨.operand (.number (.ofNat 3)), ⟨5, 6⟩⟩]
  obtain ⟨v, hv, hresolves⟩ := halternate ⟨⟨rfl, rfl, rfl, rfl, rfl, trivial⟩, rfl⟩
  obtain ⟨_, hrefused⟩ := reduce_contracts (.free Empty) ⟨0, 4⟩
    [⟨.operand (.number (.ofNat 9)), ⟨0, 1⟩⟩, ⟨.operator .subtract, ⟨1, 2⟩⟩,
      ⟨.operator .power, ⟨2, 4⟩⟩]
  obtain ⟨error, herror, hmisordered⟩ := hrefused fun h => absurd h.1.2.2.1 (by simp [Token.Fits])
  cases hv
  cases herror
  exact ⟨rfl, (hresolves _).mpr rfl, (hmisordered _).mpr rfl⟩

end Alternation

end DiceArith
