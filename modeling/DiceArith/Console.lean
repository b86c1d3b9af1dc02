import DiceArith.Evaluation

/-! # The console

One expression is read, from the arguments or from the first line of the input, and
answered under the standard limits by what was rolled and what it comes to.
-/

namespace DiceArith

namespace Console

/-- What the program shows, and the column of an error that has a place. -/
structure Report where
  code : UInt32
  output : Text
  message? : Option String
  column? : Option Nat
  deriving DecidableEq, Repr

def prompt : Text := "Enter expression: ".toList

def listed : Nat := 20

def width : Nat := 2000

def rolledLine (rolled : Rolled) : Text :=
  "Rolled: ".toList ++ rolled.describe (some listed) ++ ['\n']

def refuse (output source : Text) (error : Error) : Report where
  code := 1
  output
  message? := some ("Error: " ++ error.message)
  column? := error.span?.map fun span => source.columnAt span.start

def exhausted : Report := ⟨1, [], some "Error: no roll is left", none⟩

variable {σ : Type} (r : Roller σ)

/-- Answers an expression; rolled dice are listed even if the calculation fails afterwards. -/
def answer (input : Text) (s : σ) : Report × σ :=
  match expand r .standard input s with
  | (.error (.rejected error), s) => (refuse [] input error, s)
  | (.error .exhausted, s) => (exhausted, s)
  | (.ok expansion, s) =>
    let output := expansion.rolls.flatMap rolledLine
    match calculateWithin .float Limits.standard.forExpanded expansion.text with
    | .error error => (refuse output expansion.text error, s)
    | .ok result =>
      let evaluation : Evaluation Float := ⟨expansion.text, result, expansion.rolls⟩
      (⟨0, output ++ evaluation.describe (some width) ++ ['\n'], none, none⟩, s)

/-- The first line, without the line feed or the carriage return before it. -/
def firstLine (input : List UInt8) : List UInt8 :=
  let line := input.takeWhile (· != 10)
  if line.length < input.length ∧ line.getLast? = some 13 then line.dropLast else line

def decode? (bytes : List UInt8) : Option Text :=
  (String.fromUTF8? ⟨bytes.toArray⟩).map String.toList

def unreadable : Report :=
  ⟨1, [], some "Unable to read expression: stream did not contain valid UTF-8", none⟩

def answerLine (input : List UInt8) (s : σ) : Report × σ :=
  match decode? (firstLine input) with
  | some line => answer r line s
  | none => (unreadable, s)

def run (args : List Text) (input : List UInt8) (s : σ) : Report × σ :=
  if args = [] then
    let (report, s) := answerLine r input s
    ({ report with output := prompt ++ report.output }, s)
  else answer r ([' '].intercalate args) s

end Console

end DiceArith
