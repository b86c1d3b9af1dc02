import DiceArith.Nesting
import DiceArith.Proofs.Except
import DiceArith.Proofs.Reading

/-! # Nests

A balanced text is a nest: gaps without parentheses, and between each two of them a group that
encloses another nest. The strict scan accepts nests and nothing else, and what it finds are the
outermost groups.
-/

namespace DiceArith

open Bracketing (ofText)

namespace Bracketing

def Plain : Bracketing → Prop
  | flat gap => gap.Plain
  | opening gap rest | closing gap rest => gap.Plain ∧ rest.Plain

theorem Plain.cons {c : Char} (hc : c ≠ '(' ∧ c ≠ ')') {b : Bracketing} (hb : b.Plain) :
    (Bracketing.cons c b).Plain := by
  cases b with
  | flat gap => exact Text.Plain.cons hc hb
  | opening | closing => exact ⟨hb.1.cons hc, hb.2⟩

theorem plain_ofText (t : Text) : (ofText t).Plain := by
  induction t with
  | nil => exact Text.plain_nil
  | cons c t ih =>
    unfold ofText
    split_ifs with hl hr
    · exact ⟨Text.plain_nil, ih⟩
    · exact ⟨Text.plain_nil, ih⟩
    · exact ih.cons ⟨hl, hr⟩

end Bracketing

/-- A balanced text, as the gaps between its outermost groups and what those enclose. -/
inductive Nest
  | flat (gap : Text) (plain : gap.Plain)
  | group (gap : Text) (plain : gap.Plain) (inner rest : Nest)

namespace Nest

def text : Nest → Text
  | flat gap _ => gap
  | group gap _ inner rest => gap ++ '(' :: (inner.text ++ ')' :: rest.text)

def size (n : Nest) : Nat := n.text.size

/-- What a nest is cut into when a closing parenthesis and `after` follow it. -/
def closedBy (after : Bracketing) : Nest → Bracketing
  | flat gap _ => .closing gap after
  | group gap _ inner rest => .opening gap (inner.closedBy (rest.closedBy after))

def whole : Nest → Bracketing
  | flat gap _ => .flat gap
  | group gap _ inner rest => .opening gap (inner.closedBy rest.whole)

def spans (pos : Nat) : Nest → List Span
  | flat _ _ => []
  | group gap _ inner rest =>
    let start := pos + gap.size
    let stop := start + 1 + inner.size + 1
    ⟨start, stop⟩ :: rest.spans stop

theorem add_size_group (pos : Nat) (gap : Text) (plain : gap.Plain) (inner rest : Nest) :
    pos + (group gap plain inner rest).size =
      pos + gap.size + 1 + inner.size + 1 + rest.size := by
  simp only [size, text, Text.size_append, Text.size_parentheses]
  omega

theorem ofText_text_closing (n : Nest) (t : Text) :
    ofText (n.text ++ ')' :: t) = n.closedBy (ofText t) := by
  induction n generalizing t with
  | flat gap plain => exact Bracketing.ofText_append_closing plain
  | group gap plain inner rest ihi ihr =>
    rw [text, List.append_assoc, List.cons_append, Bracketing.ofText_append_opening plain,
      List.append_assoc, List.cons_append, ihi, ihr, closedBy]

theorem ofText_text (n : Nest) : ofText n.text = n.whole := by
  induction n with
  | flat gap plain => exact Bracketing.ofText_flat plain
  | group gap plain inner rest _ ihr =>
    rw [text, Bracketing.ofText_append_opening plain, ofText_text_closing, ihr, whole]

/-- To the scan a nest inside a group is a gap of its size. -/
theorem scan_closedBy (n : Nest) (depth start pos : Nat) (after : Bracketing) :
    Nesting.scan none (depth + 1) start pos (n.closedBy after) =
      Nesting.scan none (depth + 1) start (pos + n.size) (.closing [] after) := by
  induction n generalizing depth pos after with
  | flat gap plain => cases depth <;> rfl
  | group gap plain inner rest ihi ihr =>
    rw [closedBy, Nesting.scan, add_size_group, ← ihr]
    exact ihi (depth + 1) _ _

theorem scan_whole (n : Nest) (start pos : Nat) :
    Nesting.scan none 0 start pos n.whole = .ok (n.spans pos) := by
  induction n generalizing start pos with
  | flat => rfl
  | group gap plain inner rest _ ihr =>
    rw [whole, Nesting.scan]
    dsimp only [Nesting.tooDeep?]
    rw [if_pos rfl, scan_closedBy, Nesting.scan, Text.size_nil, Nat.add_zero, ihr]
    rfl

theorem groups_text (n : Nest) : groups none n.text = .ok (n.spans 0) := by
  rw [groups, ofText_text, scan_whole]

/-- What is cut where `depth` groups are open, with a nest in each. -/
inductive Closes : Nat → Bracketing → Prop
  | whole (n : Nest) : Closes 0 n.whole
  | closedBy {depth after} (n : Nest) : Closes depth after → Closes (depth + 1) (n.closedBy after)

theorem Closes.opening {depth : Nat} {gap : Text} {rest : Bracketing} (plain : gap.Plain)
    (h : Closes (depth + 1) rest) : Closes depth (.opening gap rest) := by
  cases h with
  | closedBy inner h =>
    cases h with
    | whole n => exact .whole (.group gap plain inner n)
    | closedBy n h => exact .closedBy (.group gap plain inner n) h

theorem closes_of_scan {b : Bracketing} (hb : b.Plain) {maxDepth? : Option Nat}
    {depth start pos : Nat} {spans : List Span}
    (h : Nesting.scan maxDepth? depth start pos b = .ok spans) : Closes depth b := by
  induction b generalizing depth start pos spans with
  | flat gap =>
    cases depth with
    | zero => exact .whole (.flat gap hb)
    | succ depth => cases h
  | opening gap rest ih =>
    rw [Nesting.scan] at h
    split at h
    · cases h
    · exact .opening hb.1 (ih hb.2 h)
  | closing gap rest ih =>
    match depth with
    | 0 => cases h
    | 1 =>
      obtain ⟨spans, h, _⟩ := Except.map_eq_ok_iff.mp h
      exact .closedBy (.flat gap hb.1) (ih hb.2 h)
    | depth + 2 => exact .closedBy (.flat gap hb.1) (ih hb.2 h)

theorem exists_of_groups {t : Text} {maxDepth? : Option Nat} {spans : List Span}
    (h : groups maxDepth? t = .ok spans) : ∃ n : Nest, n.text = t := by
  have hc : Closes 0 (ofText t) := closes_of_scan (Bracketing.plain_ofText t) h
  generalize hb : ofText t = b at hc
  cases hc with
  | whole n =>
    refine ⟨n, ?_⟩
    rw [← Bracketing.toText_ofText t, hb, ← n.ofText_text, Bracketing.toText_ofText]

end Nest

/-- Every parenthesis has a partner. -/
def Text.Balanced (t : Text) : Prop := ∃ n : Nest, n.text = t

theorem Text.balanced_iff {t : Text} : t.Balanced ↔ ∃ spans, groups none t = .ok spans := by
  constructor
  · rintro ⟨n, rfl⟩
    exact ⟨_, n.groups_text⟩
  · rintro ⟨spans, h⟩
    exact Nest.exists_of_groups h

end DiceArith
