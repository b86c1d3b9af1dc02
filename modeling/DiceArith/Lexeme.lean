import DiceArith.Text

/-! # Lexemes

Blanks separate lexemes. A lexeme is a literal or a run of characters that are
neither digits nor blanks, and each one is as long as possible.
-/

namespace DiceArith

inductive Lexeme
  | literal (text : Text)
  | symbol (text : Text)
  deriving DecidableEq, Repr

namespace Lexeme

def text : Lexeme → Text
  | literal t | symbol t => t

def isSymbolic (c : Char) : Bool := !c.isDigit && !Text.isBlank c

def fraction : Text → Text
  | '.' :: t => if Text.digits t = [] then [] else '.' :: Text.digits t
  | _ => []

/-- All that continues a lexeme whose first character is `c`. -/
def continuation (c : Char) (t : Text) : Text :=
  if c.isDigit then t.digits ++ fraction t.pastDigits
  else t.takeWhile isSymbolic

def ofHead (c : Char) (t : Text) : Lexeme :=
  if c.isDigit then literal (c :: continuation c t) else symbol (c :: continuation c t)

theorem text_ofHead (c : Char) (t : Text) : (ofHead c t).text = c :: continuation c t := by
  unfold ofHead
  split <;> rfl

theorem fraction_append (t : Text) : ∃ u, t = fraction t ++ u := by
  unfold fraction
  split
  · next t =>
    split
    · exact ⟨'.' :: t, rfl⟩
    · exact ⟨Text.pastDigits t, by rw [List.cons_append, Text.digits_append_pastDigits]⟩
  · exact ⟨t, rfl⟩

theorem continuation_append (c : Char) (t : Text) : ∃ u, t = continuation c t ++ u := by
  unfold continuation
  split
  · obtain ⟨u, hu⟩ := fraction_append t.pastDigits
    exact ⟨u, by rw [List.append_assoc, ← hu, Text.digits_append_pastDigits]⟩
  · exact ⟨t.dropWhile isSymbolic, List.takeWhile_append_dropWhile.symm⟩

end Lexeme

def lexemes (pos : Nat) : Text → List (Located Lexeme)
  | [] => []
  | c :: t =>
    if Text.isBlank c then lexemes (pos + c.utf8Size) t
    else
      let lexeme := Lexeme.ofHead c t
      let stop := pos + lexeme.text.size
      ⟨lexeme, ⟨pos, stop⟩⟩ :: lexemes stop (t.drop (Lexeme.continuation c t).length)
termination_by t => t.length
decreasing_by
  · exact Nat.lt_succ_self _
  · exact Nat.lt_succ_of_le (List.length_drop ▸ Nat.sub_le _ _)

end DiceArith
