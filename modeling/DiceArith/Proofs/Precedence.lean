import DiceArith.Chain
import DiceArith.Proofs.Grammar

/-! # Precedence

One pass for each tier builds the parse tree of a chain. After the first `k` passes every
operand is the value of a tree of tier at most `k`, and only looser operators are left;
conversely a tree of tier `k` is a single operand after its first `k` passes.
-/

namespace DiceArith

namespace Chain

variable {α : Type} (A : Arithmetic α)

def passes (chain : Chain α) : Nat → Chain α
  | 0 => chain
  | k + 1 => (passes chain k).pass A (k + 1)

def append (left : Chain α) (op : Operator) (right : Chain α) : Chain α :=
  ⟨left.head, left.tail ++ (op, right.head) :: right.tail⟩

variable {A}

theorem foldl_pass_tiers (chain : Chain α) :
    Operator.tiers.foldl (pass A) chain = chain.passes A 3 := rfl

theorem reduce_eq_ok {chain : Chain α} {v : α} (h : chain.passes A 3 = ⟨v, []⟩) :
    chain.reduce A = .ok v := by
  rw [reduce, foldl_pass_tiers, h]

theorem fold_cons_of_eq {tier : Nat} {op : Operator} (h : op.tier = tier) (acc x : α)
    (l : List (Operator × α)) :
    fold A tier acc ((op, x) :: l) = fold A tier (A.apply op acc x) l := by
  rw [fold, if_pos h]

theorem fold_cons_of_ne {tier : Nat} {op : Operator} (h : op.tier ≠ tier) (acc x : α)
    (l : List (Operator × α)) :
    fold A tier acc ((op, x) :: l) =
      ⟨acc, (op, (fold A tier x l).head) :: (fold A tier x l).tail⟩ := by
  rw [fold, if_neg h]

theorem fold_append_of_ne {tier : Nat} {op : Operator} (h : op.tier ≠ tier) (acc x : α)
    (l m : List (Operator × α)) :
    fold A tier acc (l ++ (op, x) :: m) = (fold A tier acc l).append op (fold A tier x m) := by
  induction l generalizing acc with
  | nil => simp [fold, append, h]
  | cons p l ih =>
    obtain ⟨op', y⟩ := p
    rw [List.cons_append]
    by_cases h' : op'.tier = tier
    · rw [fold_cons_of_eq h', fold_cons_of_eq h', ih]
    · rw [fold_cons_of_ne h', fold_cons_of_ne h', ih]
      rfl

theorem fold_append_of_eq {tier : Nat} {op : Operator} (h : op.tier = tier) {acc v : α} (x : α)
    {l : List (Operator × α)} (hl : fold A tier acc l = ⟨v, []⟩) :
    fold A tier acc (l ++ [(op, x)]) = ⟨A.apply op v x, []⟩ := by
  induction l generalizing acc with
  | nil =>
    obtain rfl : acc = v := congrArg head hl
    simp [fold, h]
  | cons p l ih =>
    obtain ⟨op', y⟩ := p
    rw [List.cons_append]
    by_cases h' : op'.tier = tier
    · rw [fold_cons_of_eq h'] at hl ⊢
      exact ih hl
    · simp [fold_cons_of_ne h'] at hl

theorem passes_eq_of_le {chain : Chain α} {k j : Nat} {v : α} (h : chain.passes A k = ⟨v, []⟩)
    (hk : k ≤ j) : chain.passes A j = ⟨v, []⟩ := by
  induction j, hk using Nat.le_induction with
  | base => exact h
  | succ j _ ih => rw [passes, ih]; rfl

theorem passes_append {left right : Chain α} {op : Operator} {k : Nat} (hk : k < op.tier) :
    (left.append op right).passes A k = (left.passes A k).append op (right.passes A k) := by
  induction k with
  | zero => rfl
  | succ k ih =>
    simp only [passes, ih (Nat.lt_of_succ_lt hk)]
    exact fold_append_of_ne (Nat.ne_of_gt hk) _ _ _ _

/-- The passes of a tree follow from those of its two sides. -/
theorem passes_node {left right : Chain α} {op : Operator} {l r : Nat} {x y : α}
    (hl : l ≤ op.tier) (hr : r < op.tier) (hx : left.passes A l = ⟨x, []⟩)
    (hy : right.passes A r = ⟨y, []⟩) :
    (left.append op right).passes A op.tier = ⟨A.apply op x y, []⟩ := by
  obtain ⟨m, hm⟩ : ∃ m, op.tier = m + 1 := ⟨op.tier - 1, by have := op.tier_pos; omega⟩
  have hleft : left.passes A (m + 1) = ⟨x, []⟩ := passes_eq_of_le hx (by omega)
  have hright : right.passes A m = ⟨y, []⟩ := passes_eq_of_le hy (by omega)
  rw [hm, passes, passes_append (by omega), hright]
  exact fold_append_of_eq hm y hleft

end Chain

section Staged

variable {α δ : Type} (A : Arithmetic α) (f : δ → α)

/-- Operators looser than tier `k`, each followed by an operand of tier at most `k`. -/
inductive TailParses (k : Nat) : List (Operator × α) → List (Terminal δ) → Prop
  | nil : TailParses k [] []
  | cons {i op us e l ts} : k < op.tier → i ≤ k → Parses i us e → TailParses k l ts →
      TailParses k ((op, e.value A f) :: l) (.operator op :: us ++ ts)

/-- The operands of a chain are values of trees of tier at most `k`. -/
def Staged (k : Nat) (chain : Chain α) (ts : List (Terminal δ)) : Prop :=
  ∃ i us e ws, i ≤ k ∧ Parses i us e ∧ chain.head = e.value A f ∧
    TailParses A f k chain.tail ws ∧ ts = us ++ ws

variable {A f}

theorem TailParses.fold {k : Nat} {l : List (Operator × α)} {ws : List (Terminal δ)}
    (h : TailParses A f k l ws) {i : Nat} {us : List (Terminal δ)} {e : Tree δ} (hi : i ≤ k + 1)
    (he : Parses i us e) :
    Staged A f (k + 1) (Chain.fold A (k + 1) (e.value A f) l) (us ++ ws) := by
  induction h generalizing i us e with
  | nil => exact ⟨i, us, e, [], hi, he, rfl, .nil, rfl⟩
  | @cons j op vs d l ts hop hj hd _ ih =>
    by_cases heq : op.tier = k + 1
    · rw [Chain.fold_cons_of_eq heq]
      have hnode := Parses.node op (heq ▸ hi) (by omega) he hd
      have h := ih heq.le hnode
      rwa [List.append_assoc, List.cons_append] at h
    · rw [Chain.fold_cons_of_ne heq]
      obtain ⟨j', us', e', ws', hj', he', hhead, htail, hts⟩ := ih (by omega) hd
      refine ⟨i, us, e, .operator op :: us' ++ ws', hi, he, rfl, ?_, ?_⟩
      · rw [hhead]
        exact .cons (by omega) hj' he' htail
      · rw [List.cons_append, List.cons_append, hts]

theorem Staged.passes {chain : Chain α} {ts : List (Terminal δ)} (h : Staged A f 0 chain ts)
    (k : Nat) : Staged A f k (chain.passes A k) ts := by
  induction k with
  | zero => exact h
  | succ k ih =>
    obtain ⟨i, us, e, ws, hi, he, hhead, htail, rfl⟩ := ih
    rw [Chain.passes, Chain.pass, hhead]
    exact htail.fold (by omega) he

/-- No operator is looser than the last tier, so one value is left. -/
theorem Staged.reduce {chain : Chain α} {ts : List (Terminal δ)} (h : Staged A f 0 chain ts) :
    ∃ k e, Parses k ts e ∧ chain.reduce A = .ok (e.value A f) := by
  obtain ⟨i, us, e, ws, _, he, hhead, htail, rfl⟩ := h.passes 3
  generalize hc : chain.passes A 3 = final at hhead htail
  obtain ⟨v, l⟩ := final
  cases htail with
  | nil => exact ⟨i, e, by simpa using he, Chain.reduce_eq_ok (by rw [hc]; simpa using hhead)⟩
  | @cons _ op _ _ _ _ hop _ _ _ => exact absurd op.tier_le (by omega)

end Staged

end DiceArith
