import DiceArith.Console

/-! # The line that is read

Without arguments an expression is the first line of the input. The line ends at a line feed or with
the input, a carriage return right before the line feed is no part of it, and its bytes have to be
the encoding of a text.
-/

namespace DiceArith

namespace Console

inductive FirstLine : (input line : List UInt8) → Prop
  | unended {line} : 10 ∉ line → FirstLine line line
  | ended {line rest} : 10 ∉ line → line.getLast? ≠ some 13 → FirstLine (line ++ 10 :: rest) line
  | returned {line rest} : 10 ∉ line → FirstLine (line ++ 13 :: 10 :: rest) line

def encode (t : Text) : List UInt8 := t.flatMap String.utf8EncodeChar

/-- The expression that is asked for: the arguments joined by spaces, or the first line if it is a
text. -/
inductive Reads : (args : List Text) → (input : List UInt8) → Option Text → Prop
  | args {args input} : args ≠ [] → Reads args input (some ([' '].intercalate args))
  | line {input t} : FirstLine input (encode t) → Reads [] input (some t)
  | unreadable {input line} : FirstLine input line → (∀ t, line ≠ encode t) → Reads [] input none

variable {input line rest bytes : List UInt8} {t : Text}

theorem takeWhile_line (h : 10 ∉ line) (hrest : ∀ b ∈ rest.head?, b = 10) :
    (line ++ rest).takeWhile (· != 10) = line := by
  have hline : ∀ b ∈ line, (b != 10) = true := by
    intro b hb
    exact bne_iff_ne.mpr fun hten => h (hten ▸ hb)
  have hnil : rest.takeWhile (· != 10) = [] := by
    cases rest with
    | nil => rfl
    | cons b rest => simp [hrest b rfl]
  rw [List.takeWhile_append_of_pos hline, hnil, List.append_nil]

theorem firstLine_of_unended (h : 10 ∉ line) : firstLine line = line := by
  have hline : (line ++ []).takeWhile (· != 10) = line := takeWhile_line h (by simp)
  rw [List.append_nil] at hline
  rw [firstLine, hline]
  exact if_neg fun hlt => absurd hlt.1 (Nat.lt_irrefl _)

theorem firstLine_of_ended (h : 10 ∉ line) (rest : List UInt8) : firstLine (line ++ 10 :: rest) =
    if line.getLast? = some 13 then line.dropLast else line := by
  have hline : (line ++ 10 :: rest).takeWhile (· != 10) = line := takeWhile_line h (by simp)
  have hlt : line.length < (line ++ 10 :: rest).length := by
    rw [List.length_append, List.length_cons]
    omega
  simp only [firstLine, hline, hlt, true_and]

theorem exists_line (input : List UInt8) : ∃ line rest, input = line ++ rest ∧ 10 ∉ line ∧
    (rest = [] ∨ ∃ more, rest = 10 :: more) := by
  induction input with
  | nil => exact ⟨[], [], rfl, by simp, .inl rfl⟩
  | cons b input ih =>
    by_cases hb : b = 10
    · subst hb
      exact ⟨[], 10 :: input, rfl, by simp, .inr ⟨input, rfl⟩⟩
    · obtain ⟨line, rest, rfl, hline, hrest⟩ := ih
      exact ⟨b :: line, rest, rfl, List.not_mem_cons_of_ne_of_not_mem (Ne.symm hb) hline, hrest⟩

theorem firstLine_eq (h : FirstLine input line) : firstLine input = line := by
  cases h with
  | unended hline => exact firstLine_of_unended hline
  | ended hline hlast => rw [firstLine_of_ended hline _, if_neg hlast]
  | @returned _ rest hline =>
    have hreturn : 10 ∉ line ++ [13] := by simpa using hline
    have hended := firstLine_of_ended hreturn rest
    rw [List.append_assoc, List.singleton_append] at hended
    rw [hended, List.getLast?_concat, if_pos rfl, List.dropLast_concat]

theorem firstLine_firstLine (input : List UInt8) : FirstLine input (firstLine input) := by
  obtain ⟨line, rest, rfl, hline, rfl | ⟨more, rfl⟩⟩ := exists_line input
  · rw [List.append_nil, firstLine_of_unended hline]
    exact .unended hline
  · rw [firstLine_of_ended hline]
    by_cases hlast : line.getLast? = some 13
    · obtain ⟨line, rfl⟩ := List.getLast?_eq_some_iff.mp hlast
      rw [if_pos hlast, List.dropLast_concat, List.append_assoc, List.singleton_append]
      exact .returned fun hten => hline (List.mem_append_left _ hten)
    · rw [if_neg hlast]
      exact .ended hline hlast

/-- Bytes are read as the text that they encode. -/
theorem decode?_eq_some_iff : decode? bytes = some t ↔ bytes = encode t := by
  have hbytes : (⟨bytes.toArray⟩ : ByteArray) = bytes.toByteArray :=
    ByteArray.ext List.data_toByteArray.symm
  rw [decode?, hbytes, Option.map_eq_some_iff, ← List.toByteArray_inj]
  change _ ↔ bytes.toByteArray = t.utf8Encode
  unfold String.fromUTF8?
  constructor
  · rintro ⟨u, hu, rfl⟩
    rw [String.utf8Encode_toList]
    split at hu
    · obtain rfl := Option.some.inj hu
      rfl
    · cases hu
  · intro h
    have hvalid : bytes.toByteArray.IsValidUTF8 := .intro t h
    refine ⟨.ofList t, ?_, String.toList_ofList⟩
    rw [dif_pos hvalid, Option.some.injEq, ← String.toByteArray_inj]
    exact h

theorem reads_iff {args : List Text} {t? : Option Text} : Reads args input t? ↔
    t? = if args = [] then decode? (firstLine input) else some ([' '].intercalate args) := by
  constructor
  · intro h
    cases h with
    | args hargs => rw [if_neg hargs]
    | line hline =>
      rw [if_pos rfl, firstLine_eq hline]
      exact (decode?_eq_some_iff.mpr rfl).symm
    | unreadable hline hnone =>
      rw [if_pos rfl, firstLine_eq hline]
      cases hdecode : decode? _ with
      | none => rfl
      | some t => exact absurd (decode?_eq_some_iff.mp hdecode) (hnone t)
  · rintro rfl
    by_cases hargs : args = []
    · subst hargs
      have hline := firstLine_firstLine input
      rw [if_pos rfl]
      cases hdecode : decode? (firstLine input) with
      | some t =>
        rw [decode?_eq_some_iff.mp hdecode] at hline
        exact .line hline
      | none =>
        refine .unreadable hline fun t ht => ?_
        cases hdecode.symm.trans (decode?_eq_some_iff.mpr ht)
    · rw [if_neg hargs]
      exact .args hargs

end Console

end DiceArith
