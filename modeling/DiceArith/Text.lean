/-! # Text and positions

A text is a list of characters. Positions count the bytes of its UTF-8 encoding
and a span is a range of positions. Only ASCII characters are blanks or digits.
-/

namespace DiceArith

abbrev Text := List Char

structure Span where
  start : Nat
  stop : Nat
  deriving DecidableEq, Repr

/-- Something read from a text, with the place that it was read from. -/
structure Located (α : Type) where
  item : α
  span : Span
  deriving DecidableEq, Repr

namespace Span

def byteAt (pos : Nat) : Span := ⟨pos, pos + 1⟩

def emptyAt (pos : Nat) : Span := ⟨pos, pos⟩

def last : Nat := UInt64.size - 1

def clamp (s : Span) : Span := ⟨min s.start last, min s.stop last⟩

end Span

namespace Text

def size : Text → Nat
  | [] => 0
  | c :: t => c.utf8Size + size t

@[simp] theorem size_nil : size [] = 0 := rfl

@[simp] theorem size_cons (c : Char) (t : Text) : size (c :: t) = c.utf8Size + size t := rfl

@[simp] theorem size_append (t u : Text) : size (t ++ u) = size t + size u := by
  induction t with
  | nil => simp
  | cons c t ih => simp [ih, Nat.add_assoc]

def isBlank (c : Char) : Bool :=
  c == ' ' || c == '\t' || c == '\n' || c == '\x0c' || c == '\r'

def digits (t : Text) : Text := t.takeWhile Char.isDigit

def pastDigits (t : Text) : Text := t.dropWhile Char.isDigit

theorem digits_append_pastDigits (t : Text) : t.digits ++ t.pastDigits = t :=
  List.takeWhile_append_dropWhile

def ofNat (n : Nat) : Text := Nat.toDigits 10 n

def toNat (digits : Text) : Nat := Nat.ofDigitChars 10 digits 0

theorem toNat_ofNat (n : Nat) : toNat (ofNat n) = n :=
  Nat.ofDigitChars_toDigits (by decide) (by decide)

/-- Digits that denote a 32-bit word, whatever their number of leading zeros. -/
def toWord? (digits : Text) : Option UInt32 :=
  if toNat digits < UInt32.size then some (UInt32.ofNat (toNat digits)) else none

/-- Cuts a text after `n` bytes, unless that splits a character. -/
def cut? : Nat → Text → Option (Text × Text)
  | 0, t => some ([], t)
  | _ + 1, [] => none
  | n + 1, c :: t =>
    if n + 1 < c.utf8Size then none
    else (cut? (n + 1 - c.utf8Size) t).map fun (before, after) => (c :: before, after)

/-- The column of a position counts the characters before it, from one. -/
def columnAt (pos : Nat) (t : Text) : Nat :=
  match cut? (min pos t.size) t with
  | some (before, _) => before.length + 1
  | none => 1

end Text

end DiceArith
