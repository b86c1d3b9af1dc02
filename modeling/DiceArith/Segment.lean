import DiceArith.Dice

/-! # Segments

An expression is cut into dice patterns and the text between them. A pattern is
matched as far left and as long as possible.
-/

namespace DiceArith

/-- The digits on both sides of the `d` of a dice pattern. -/
structure Pattern where
  count : Text
  sides : Text
  deriving DecidableEq, Repr

namespace Pattern

def text (p : Pattern) : Text := p.count ++ 'd' :: p.sides

/-- The pattern at the head of a text, and what follows its last digit. -/
def munch? (t : Text) : Option (Pattern × Text) :=
  match t.pastDigits with
  | 'd' :: u =>
    if t.digits = [] ∨ Text.digits u = [] then none
    else some (⟨t.digits, Text.digits u⟩, Text.pastDigits u)
  | _ => none

theorem append_of_munch? {t rest : Text} {p : Pattern} (h : munch? t = some (p, rest)) :
    t = p.text ++ rest := by
  unfold munch? at h
  split at h
  · next u hu =>
    split at h
    · simp at h
    · simp only [Option.some.injEq, Prod.mk.injEq] at h
      obtain ⟨rfl, rfl⟩ := h
      rw [text, List.append_assoc, List.cons_append, Text.digits_append_pastDigits, ← hu,
        Text.digits_append_pastDigits]
  · simp at h

theorem length_of_munch? {t rest : Text} {p : Pattern} (h : munch? t = some (p, rest)) :
    rest.length < t.length := by
  rw [append_of_munch? h]
  simp only [text, List.length_append, List.length_cons]
  omega

def read? (t : Text) : Option Pattern :=
  match munch? t with
  | some (p, []) => some p
  | _ => none

/-- Digits beyond a 32-bit word count as beyond every bound. -/
def dice (limits : Limits) (p : Pattern) : Except DiceProblem Dice :=
  match Text.toWord? p.count, Text.toWord? p.sides with
  | none, _ => .error (.tooManyDice limits.maxDice)
  | some _, none => .error (.tooManySides limits.maxSides)
  | some count, some sides => .ok ⟨count, sides⟩

def accept (limits : Limits) (rolled : UInt32) (p : Pattern) : Except DiceProblem Dice := do
  let dice ← p.dice limits
  dice.check limits rolled
  return dice

end Pattern

/-- A part of an expression: plain text, or dice in the form `δ`. -/
inductive Segment (δ : Type)
  | text (t : Text)
  | dice (d : δ)
  deriving DecidableEq, Repr

namespace Segment

variable {δ : Type}

def write (f : δ → Text) : Segment δ → Text
  | text t => t
  | dice d => f d

def dice? : Segment δ → Option δ
  | text _ => none
  | dice d => some d

def size (segment : Segment Pattern) : Nat := (segment.write Pattern.text).size

def consText (c : Char) : List (Segment δ) → List (Segment δ)
  | text t :: rest => text (c :: t) :: rest
  | rest => text [c] :: rest

end Segment

def segments : Text → List (Segment Pattern)
  | [] => []
  | c :: t =>
    match _h : Pattern.munch? (c :: t) with
    | some (pattern, rest) => .dice pattern :: segments rest
    | none => Segment.consText c (segments t)
termination_by t => t.length
decreasing_by
  · exact Pattern.length_of_munch? _h
  · exact Nat.lt_succ_self _

/-- Whether every die of an expression has exactly one side. -/
def isDeterministic (t : Text) : Bool :=
  (segments t).all fun
    | .text _ => true
    | .dice pattern =>
      match pattern.dice .unlimited with
      | .ok dice => dice.isDeterministic
      | .error _ => false

end DiceArith
