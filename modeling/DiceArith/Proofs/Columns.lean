import DiceArith.Calculator
import DiceArith.Proofs.Contraction

/-! # Columns

Operands and operators can be kept in two lists, and one pass for each tier then goes over both at
once. Nothing but the lengths of the lists says that a pass has an operand to start with, or that no
more than one is left in the end. The lists are always the columns of a chain, with one operand more
than operators, so neither is ever in doubt.
-/

namespace DiceArith

/-- Operands and operators that stand in turns, in separate lists. -/
structure Columns (α : Type) where
  values : List α
  operators : List Operator
  deriving DecidableEq, Repr

namespace Columns

variable {α : Type}

def consValue (value : α) (columns : Columns α) : Columns α :=
  { columns with values := value :: columns.values }

def consOperator (op : Operator) (columns : Columns α) : Columns α :=
  { columns with operators := op :: columns.operators }

/-- Tokens by their kind, where an operand is due in every other place. -/
def separate : (operandDue : Bool) → List (Located (Token α)) → Except Error (Columns α)
  | _, [] => .ok ⟨[], []⟩
  | true, ⟨.operand value, _⟩ :: rest => (separate false rest).map (consValue value)
  | false, ⟨.operator op, _⟩ :: rest => (separate true rest).map (consOperator op)
  | true, ⟨.operator op, span⟩ :: _ => .error (.malformed span (.misplacedOperator op))
  | false, ⟨.operand _, span⟩ :: _ => .error (.malformed span .adjacentOperands)

def complete (stop : Nat) (columns : Columns α) : Except Error (Columns α) :=
  if columns.values.length = columns.operators.length then
    .error (.malformed (.emptyAt stop) .trailingOperator)
  else .ok columns

def ofTokens (whole : Span) (tokens : List (Located (Token α))) : Except Error (Columns α) :=
  if tokens.isEmpty then .error (.malformed whole .missingOperand)
  else separate true tokens >>= complete whole.stop

section Reduction

variable (A : Arithmetic α)

def fold (tier : Nat) (acc : α) : List (Operator × α) → Columns α
  | [] => ⟨[acc], []⟩
  | (op, right) :: rest =>
    if op.tier = tier then fold tier (A.apply op acc right) rest
    else consValue acc (consOperator op (fold tier right rest))

def pass (columns : Columns α) (tier : Nat) : Except Error (Columns α) :=
  match columns.values with
  | [] => .error (.leftover 0)
  | acc :: rights => .ok (fold A tier acc (columns.operators.zip rights))

def single (columns : Columns α) : Except Error α :=
  match columns.values with
  | [value] => .ok value
  | values => .error (.leftover values.length)

def reduce (whole : Span) (tokens : List (Located (Token α))) : Except Error α := do
  let columns ← ofTokens whole tokens
  (← Operator.tiers.foldlM (pass A) columns).single

end Reduction

structure Staged (k : Nat) (columns : Columns α) : Prop where
  length : columns.values.length = columns.operators.length + 1
  lower : ∀ op ∈ columns.operators, k < op.tier

def ofChain (chain : Chain α) : Columns α :=
  ⟨chain.head :: chain.tail.map Prod.snd, chain.tail.map Prod.fst⟩

theorem ofChain_cons (acc : α) (op : Operator) (x : α) (l : List (Operator × α)) :
    ofChain ⟨acc, (op, x) :: l⟩ = ((ofChain ⟨x, l⟩).consOperator op).consValue acc := rfl

section Separation

theorem complete_cons (stop : Nat) (value : α) (op : Operator) (columns : Columns α) :
    complete stop ((columns.consOperator op).consValue value) =
      (complete stop columns).map fun columns => (columns.consOperator op).consValue value := by
  simp only [complete, consOperator, consValue, List.length_cons, Nat.succ_inj]
  split <;> rfl

theorem separate_tail (value : α) (stop : Nat) (tokens : List (Located (Token α))) :
    (separate false tokens).map (consValue value) >>= complete stop =
      (Chain.tailOfTokens stop tokens).map fun tail => ofChain ⟨value, tail⟩ := by
  fun_induction Chain.tailOfTokens stop tokens generalizing value with
  | case1 => rfl
  | case2 => rfl
  | case3 => rfl
  | case4 => rfl
  | case5 op _ right _ rest ih =>
    have hrest := congrArg (Except.map fun columns => (consOperator op columns).consValue value)
      (ih right)
    rw [Except.bind_map_left, Except.map_bind, Except.map_map] at hrest
    rw [separate, separate, Except.map_map, Except.map_map, Except.bind_map_left, Except.map_map]
    simpa only [complete_cons, ofChain_cons] using hrest

theorem ofTokens_eq (whole : Span) (tokens : List (Located (Token α))) :
    ofTokens whole tokens = (Chain.ofTokens whole tokens).map ofChain := by
  match tokens with
  | [] => rfl
  | ⟨.operator op, span⟩ :: rest => rfl
  | ⟨.operand value, span⟩ :: rest =>
    rw [Chain.ofTokens, Except.map_map, ← separate_tail]
    rfl

end Separation

section Passes

variable {A : Arithmetic α} {k tier : Nat}

theorem fold_eq (acc : α) (l : List (Operator × α)) :
    fold A tier acc l = ofChain (Chain.fold A tier acc l) := by
  induction l generalizing acc with
  | nil => rfl
  | cons p l ih =>
    obtain ⟨op, x⟩ := p
    by_cases hop : op.tier = tier
    · rw [fold, if_pos hop, ih, Chain.fold_cons_of_eq hop]
    · rw [fold, if_neg hop, ih, Chain.fold_cons_of_ne hop, ofChain_cons]

theorem pass_ofChain (chain : Chain α) :
    pass A (ofChain chain) tier = .ok (ofChain (chain.pass A tier)) := by
  obtain ⟨acc, l⟩ := chain
  have hzip : (l.map Prod.fst).zip (l.map Prod.snd) = l :=
    (List.zip_of_prod rfl rfl).symm
  rw [pass, ofChain]
  dsimp only
  rw [hzip, fold_eq]
  rfl

theorem foldlM_pass (chain : Chain α) (tiers : List Nat) :
    tiers.foldlM (pass A) (ofChain chain) = .ok (ofChain (tiers.foldl (Chain.pass A) chain)) := by
  induction tiers generalizing chain with
  | nil => rfl
  | cons tier tiers ih =>
    rw [List.foldlM_cons, pass_ofChain, Except.ok_bind, ih]
    rfl

theorem single_ofChain (chain : Chain α) :
    (ofChain (Operator.tiers.foldl (Chain.pass A) chain)).single = chain.reduce A := by
  rw [Chain.reduce]
  generalize Operator.tiers.foldl (Chain.pass A) chain = last
  obtain ⟨value, l⟩ := last
  cases l with
  | nil => rfl
  | cons => simp [single, ofChain]

/-- To reduce columns is to reduce the chain that they are the columns of. -/
theorem reduce_eq (A : Arithmetic α) (whole : Span) (tokens : List (Located (Token α))) :
    reduce A whole tokens = Calculator.reduce A whole tokens := by
  rw [reduce, Calculator.reduce, ofTokens_eq, Except.bind_map_left]
  simp only [foldlM_pass, Except.ok_bind, single_ofChain]

theorem staged_passes (chain : Chain α) (k : Nat) : Staged k (ofChain (chain.passes A k)) where
  length := by simp [ofChain]
  lower := by
    intro op hop
    obtain ⟨p, hp, rfl⟩ := List.mem_map.mp hop
    exact Chain.lt_tier_of_mem_passes hp

theorem foldlM_take {whole : Span} {tokens : List (Located (Token α))} {columns : Columns α}
    (h : ofTokens whole tokens = .ok columns) (hk : k ≤ 3) : ∃ columns',
    (Operator.tiers.take k).foldlM (pass A) columns = .ok columns' ∧ columns'.Staged k := by
  rw [ofTokens_eq, Except.map_eq_ok_iff] at h
  obtain ⟨chain, _, rfl⟩ := h
  have htake : (Operator.tiers.take k).foldl (Chain.pass A) chain = chain.passes A k :=
    match k, hk with
    | 0, _ | 1, _ | 2, _ | 3, _ => rfl
  exact ⟨_, foldlM_pass chain _, htake ▸ staged_passes chain k⟩

end Passes

end Columns

end DiceArith
