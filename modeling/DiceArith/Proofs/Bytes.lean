import DiceArith.Proofs.InputLine
import DiceArith.Proofs.TokenPlaces

/-! # Bytes of lexemes

The bytes of a text can be looked at one by one. Every byte of a character is a digit, a blank or
something else as the character is, so a run of bytes of one kind stops where the run of characters
does, and a lexeme that is followed byte by byte starts and stops between characters.
-/

namespace DiceArith

open Console (encode)

namespace Byte

def isDigit (b : UInt8) : Bool := 0x30 ≤ b && b ≤ 0x39

def isBlank (b : UInt8) : Bool := b == 0x20 || b == 0x09 || b == 0x0a || b == 0x0c || b == 0x0d

def isPoint (b : UInt8) : Bool := b == 0x2e

def isSymbolic (b : UInt8) : Bool := !isDigit b && !isBlank b

def isAt (q : UInt8 → Bool) (bytes : List UInt8) (pos : Nat) : Bool := bytes[pos]?.any q

def skip (q : UInt8 → Bool) (bytes : List UInt8) (pos : Nat) : Nat :=
  pos + ((bytes.drop pos).takeWhile q).length

def fractionStop (bytes : List UInt8) (pos : Nat) : Nat :=
  if isAt isPoint bytes pos && isAt isDigit bytes (pos + 1) then skip isDigit bytes (pos + 1)
  else pos

def lexemeStop (bytes : List UInt8) (pos : Nat) (b : UInt8) : Nat :=
  if isDigit b then fractionStop bytes (skip isDigit bytes pos) else skip isSymbolic bytes pos

/-- The bytes of a character are of kind `q` just when it is of kind `p`. -/
def Mirrors (q : UInt8 → Bool) (p : Char → Bool) : Prop :=
  ∀ c : Char, ∀ b ∈ String.utf8EncodeChar c, q b = p c

section Kinds

variable {q : UInt8 → Bool} {p : Char → Bool}

theorem encodeChar_cases (c : Char) :
    (c.toNat < 128 ∧ String.utf8EncodeChar c = [UInt8.ofNat c.toNat]) ∨
      (128 ≤ c.toNat ∧ ∀ b ∈ String.utf8EncodeChar c, 128 ≤ b.toNat) := by
  have hval : c.val.toNat = c.toNat := rfl
  simp only [String.utf8EncodeChar, hval]
  split_ifs with hone htwo hthree
  · exact .inl ⟨by omega, rfl⟩
  all_goals
    refine .inr ⟨by omega, ?_⟩
    simp only [List.forall_mem_cons, UInt8.toNat_ofNat']
    simp
    omega

theorem mirrors_of_ascii (hascii : ∀ n < 128, q (UInt8.ofNat n) = p (Char.ofNat n))
    (hbyte : ∀ b : UInt8, 128 ≤ b.toNat → q b = false)
    (hchar : ∀ c : Char, 128 ≤ c.toNat → p c = false) : Mirrors q p := by
  intro c b hb
  rcases encodeChar_cases c with ⟨hc, hbytes⟩ | ⟨hc, hbytes⟩
  · rw [hbytes, List.mem_singleton] at hb
    rw [hb, hascii _ hc, Char.ofNat_toNat]
  · rw [hbyte b (hbytes b hb), hchar c hc]

theorem mirrors_isDigit : Mirrors isDigit Char.isDigit := by
  refine mirrors_of_ascii (by decide) (fun b hb => ?_) (fun c hc => ?_)
  · simp only [isDigit, UInt8.le_iff_toNat_le, Bool.and_eq_false_iff, decide_eq_false_iff_not]
    right
    simp
    omega
  · rw [Bool.eq_false_iff]
    intro hdigit
    simp only [Char.isDigit, Bool.and_eq_true, decide_eq_true_eq] at hdigit
    have hle := UInt32.le_iff_toNat_le.mp hdigit.2
    have hval : c.val.toNat = c.toNat := rfl
    simp at hle
    omega

theorem mirrors_isBlank : Mirrors isBlank Text.isBlank := by
  refine mirrors_of_ascii (by decide) (fun b hb => ?_) (fun c hc => ?_)
  · rw [Bool.eq_false_iff]
    intro hblank
    simp only [isBlank, Bool.or_eq_true, beq_iff_eq] at hblank
    rcases hblank with (((rfl | rfl) | rfl) | rfl) | rfl <;> exact absurd hb (by decide)
  · rw [Bool.eq_false_iff]
    intro hblank
    simp only [Text.isBlank, Bool.or_eq_true, beq_iff_eq] at hblank
    rcases hblank with (((rfl | rfl) | rfl) | rfl) | rfl <;> exact absurd hc (by decide)

theorem mirrors_isPoint : Mirrors isPoint (· == '.') := by
  refine mirrors_of_ascii (by decide) (fun b hb => ?_) (fun c hc => ?_)
  · rw [isPoint, beq_eq_false_iff_ne]
    rintro rfl
    exact absurd hb (by decide)
  · rw [beq_eq_false_iff_ne]
    rintro rfl
    exact absurd hc (by decide)

theorem mirrors_isSymbolic : Mirrors isSymbolic Lexeme.isSymbolic := by
  intro c b hb
  rw [isSymbolic, Lexeme.isSymbolic, mirrors_isDigit c b hb, mirrors_isBlank c b hb]

end Kinds

section Positions

variable {q : UInt8 → Bool} {p : Char → Bool} {c : Char} {t u v : Text} {b : UInt8}

theorem encode_append (t u : Text) : encode (t ++ u) = encode t ++ encode u :=
  List.flatMap_append

theorem encode_cons (c : Char) (t : Text) : encode (c :: t) = String.utf8EncodeChar c ++ encode t :=
  List.flatMap_cons

theorem length_encode (t : Text) : (encode t).length = t.size := by
  induction t with
  | nil => rfl
  | cons c t ih =>
    rw [encode_cons, List.length_append, String.length_utf8EncodeChar, ih, Text.size_cons]

theorem drop_encode (u v : Text) : (encode (u ++ v)).drop u.size = encode v := by
  rw [encode_append, ← length_encode, List.drop_left]

theorem exists_encodeChar (c : Char) :
    ∃ b bytes, String.utf8EncodeChar c = b :: bytes ∧ b ∈ String.utf8EncodeChar c := by
  obtain ⟨b, bytes, h⟩ := List.exists_cons_of_ne_nil (String.utf8EncodeChar_ne_nil (c := c))
  exact ⟨b, bytes, h, h ▸ List.mem_cons_self⟩

theorem getElem?_encode (u : Text) (c : Char) (t : Text) : ∃ b ∈ String.utf8EncodeChar c,
    (encode (u ++ c :: t))[u.size]? = some b := by
  obtain ⟨b, bytes, hbytes, hb⟩ := exists_encodeChar c
  refine ⟨b, hb, ?_⟩
  rw [encode_append, ← length_encode, List.getElem?_append_right (Nat.le_refl _), Nat.sub_self,
    encode_cons, hbytes]
  rfl

theorem getElem?_encode_nil (u : Text) : (encode u)[u.size]? = none :=
  List.getElem?_eq_none (length_encode u).le

theorem Mirrors.isAt_encode (h : Mirrors q p) (u v : Text) :
    isAt q (encode (u ++ v)) u.size = v.head?.any p := by
  cases v with
  | nil =>
    rw [List.append_nil, isAt, getElem?_encode_nil]
    rfl
  | cons c t =>
    obtain ⟨b, hb, hbyte⟩ := getElem?_encode u c t
    rw [isAt, hbyte]
    exact h c b hb

theorem Mirrors.takeWhile_encode (h : Mirrors q p) (t : Text) :
    (encode t).takeWhile q = encode (t.takeWhile p) := by
  induction t with
  | nil => rfl
  | cons c t ih =>
    obtain ⟨b, bytes, hbytes, hb⟩ := exists_encodeChar c
    by_cases hc : p c = true
    · have hall : ∀ b ∈ String.utf8EncodeChar c, q b = true := fun b hb => (h c b hb).trans hc
      rw [encode_cons, List.takeWhile_append_of_pos hall, ih, List.takeWhile_cons_of_pos hc,
        encode_cons]
    · have hfirst : ¬ q b = true := by rwa [h c b hb]
      rw [encode_cons, hbytes, List.cons_append, List.takeWhile_cons_of_neg hfirst,
        List.takeWhile_cons_of_neg hc]
      rfl

theorem Mirrors.skip_encode (h : Mirrors q p) (u v : Text) :
    skip q (encode (u ++ v)) u.size = (u ++ v.takeWhile p).size := by
  rw [skip, drop_encode, h.takeWhile_encode, length_encode, Text.size_append]

theorem lt_skip {bytes : List UInt8} {pos : Nat} (hbyte : bytes[pos]? = some b) (hb : q b = true) :
    pos < skip q bytes pos := by
  obtain ⟨hlt, hget⟩ := List.getElem?_eq_some_iff.mp hbyte
  rw [skip, List.drop_eq_getElem_cons hlt, hget, List.takeWhile_cons_of_pos hb, List.length_cons]
  omega

theorem le_fractionStop (bytes : List UInt8) (pos : Nat) : pos ≤ fractionStop bytes pos := by
  unfold fractionStop
  split
  · exact (Nat.le_succ pos).trans (Nat.le_add_right _ _)
  · exact Nat.le_refl pos

theorem lt_lexemeStop {bytes : List UInt8} {pos : Nat} (hbyte : bytes[pos]? = some b)
    (hb : isBlank b = false) : pos < lexemeStop bytes pos b := by
  unfold lexemeStop
  split
  · next hdigit => exact (lt_skip hbyte hdigit).trans_le (le_fractionStop _ _)
  · next hdigit => exact lt_skip hbyte (by simp [isSymbolic, hdigit, hb])

theorem any_head_isDigit (t : Text) : t.head?.any Char.isDigit = decide (t.digits ≠ []) := by
  cases t with
  | nil => rfl
  | cons c t => by_cases hc : c.isDigit = true <;> simp [Text.digits, hc]

theorem fractionStop_encode (u v : Text) :
    fractionStop (encode (u ++ v)) u.size = (u ++ Lexeme.fraction v).size := by
  have hnone : (u ++ ([] : Text)).size = u.size := by rw [List.append_nil]
  rw [fractionStop, mirrors_isPoint.isAt_encode]
  match v with
  | [] => exact hnone.symm
  | c :: v =>
    by_cases hc : c = '.'
    · subst hc
      have hpoint : u ++ '.' :: v = (u ++ ['.']) ++ v := List.append_cons u '.' v
      have hnext : u.size + 1 = (u ++ ['.']).size := by
        rw [Text.size_append]
        rfl
      rw [hpoint, hnext, mirrors_isDigit.isAt_encode, mirrors_isDigit.skip_encode,
        any_head_isDigit, Lexeme.fraction]
      by_cases hdigits : Text.digits v = []
      · rw [if_pos hdigits, hdigits, hnone]
        rfl
      · rw [if_neg hdigits, decide_eq_true hdigits, ← List.append_cons]
        rfl
    · have hpoint : (List.head? (c :: v)).any (· == '.') = false := by simpa using hc
      rw [hpoint, Lexeme.fraction_of_head (by simpa using hc), hnone]
      rfl

/-- Byte by byte a lexeme is followed to the place where it stops in the text. -/
theorem lexemeStop_encode (u t : Text) (hc : Text.isBlank c = false)
    (hb : b ∈ String.utf8EncodeChar c) :
    lexemeStop (encode (u ++ c :: t)) u.size b = (u ++ c :: Lexeme.continuation c t).size := by
  rw [lexemeStop, mirrors_isDigit c b hb, Lexeme.continuation]
  split
  · next hdigit =>
    have hsplit : u ++ c :: t = (u ++ c :: t.digits) ++ t.pastDigits := by
      rw [List.append_assoc, List.cons_append, Text.digits_append_pastDigits]
    rw [mirrors_isDigit.skip_encode, List.takeWhile_cons_of_pos hdigit, hsplit]
    change fractionStop _ (u ++ c :: t.digits).size = _
    rw [fractionStop_encode, List.append_assoc, List.cons_append]
  · next hdigit =>
    have hsymbolic : Lexeme.isSymbolic c = true := by simp [Lexeme.isSymbolic, hdigit, hc]
    rw [mirrors_isSymbolic.skip_encode, List.takeWhile_cons_of_pos hsymbolic]

end Positions

end Byte

end DiceArith
