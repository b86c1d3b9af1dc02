import DiceArith.Text

/-! # Bracketings

A text is cut at its parentheses, whether they match or not. Between two of them,
before the first and after the last stands a possibly empty text without any.
-/

namespace DiceArith

inductive Bracketing
  | flat (gap : Text)
  | opening (gap : Text) (rest : Bracketing)
  | closing (gap : Text) (rest : Bracketing)
  deriving DecidableEq, Repr

namespace Bracketing

def cons (c : Char) : Bracketing → Bracketing
  | flat gap => flat (c :: gap)
  | opening gap rest => opening (c :: gap) rest
  | closing gap rest => closing (c :: gap) rest

def ofText : Text → Bracketing
  | [] => flat []
  | c :: t =>
    if c = '(' then opening [] (ofText t)
    else if c = ')' then closing [] (ofText t)
    else cons c (ofText t)

def toText : Bracketing → Text
  | flat gap => gap
  | opening gap rest => gap ++ '(' :: rest.toText
  | closing gap rest => gap ++ ')' :: rest.toText

@[simp] theorem toText_cons (c : Char) (b : Bracketing) : (cons c b).toText = c :: b.toText := by
  cases b <;> rfl

theorem toText_ofText (t : Text) : (ofText t).toText = t := by
  induction t with
  | nil => rfl
  | cons c t ih =>
    unfold ofText
    split
    · simp_all [toText]
    · split <;> simp_all [toText]

end Bracketing

end DiceArith
