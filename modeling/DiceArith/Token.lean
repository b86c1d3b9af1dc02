import DiceArith.Arithmetic
import DiceArith.Error
import DiceArith.Lexeme

/-! # Tokens

Literals are read as operands and symbols as operators. Reading stops at the first
lexeme that is neither, which is then the error.
-/

namespace DiceArith

inductive Token (α : Type)
  | operand (value : α)
  | operator (op : Operator)
  deriving DecidableEq, Repr

namespace Token

variable {α : Type} (A : Arithmetic α)

def ofLexeme : Lexeme → Except Problem (Token α)
  | .literal t =>
    match Numeral.read? t with
    | some n => .ok (.operand (A.numeral n))
    | none => .error (.unreadableNumeral t)
  | .symbol t =>
    match Operator.ofSymbol? t with
    | some op => .ok (.operator op)
    | none => .error (.unknownOperator t)

def ofLexemes : List (Located Lexeme) → List (Located (Token α)) × Option Error
  | [] => ([], none)
  | ⟨lexeme, span⟩ :: rest =>
    match ofLexeme A lexeme with
    | .error problem => ([], some (.malformed span problem))
    | .ok token =>
      let (tokens, error?) := ofLexemes rest
      (⟨token, span⟩ :: tokens, error?)

def ofText (pos : Nat) (t : Text) : Except Error (List (Located (Token α))) :=
  match ofLexemes A (lexemes pos t) with
  | (tokens, none) => .ok tokens
  | (_, some error) => .error error

end Token

variable {α : Type} (A : Arithmetic α)

/-- Appends the tokens of a text, their positions `offset` further right. -/
def tokenize (t : Text) (offset : Nat) (tokens : List (Located (Token α))) :
    List (Located (Token α)) × Option Error :=
  let lexemes := (lexemes offset t).map fun ⟨lexeme, span⟩ => ⟨lexeme, span.clamp⟩
  let (added, error?) := Token.ofLexemes A lexemes
  (tokens ++ added, error?)

end DiceArith
