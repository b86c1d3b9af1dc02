import DiceArith.Proofs.Scanning

/-! # Replacement of flat texts by groups

Two texts are scanned side by side, the second of which has a group wherever the first has a
text without parentheses to replace. As long as neither scan stops they are equally deep outside
the groups, so they stop at the same parenthesis, and one more level is all that groups ask for.
-/

namespace DiceArith

open Bracketing (ofText)

namespace Image

/-- Positions when `n` bytes are kept and `image` takes the others. -/
def keep (n : Nat) (image : Nat → Nat) (pos : Nat) : Nat :=
  if pos < n then pos else n + image (pos - n)

def replace (n m : Nat) (image : Nat → Nat) (pos : Nat) : Nat := m + image (pos - n)

variable {m n k : Nat} {image : Nat → Nat}

theorem keep_of_lt (h : k < n) : keep n image k = k := if_pos h

theorem keep_add : keep n image (n + k) = n + image k := by
  rw [keep, if_neg (by omega), Nat.add_sub_cancel_left]

theorem replace_add : replace n m image (n + k) = m + image k := by
  rw [replace, Nat.add_sub_cancel_left]

theorem keep_zero : keep 0 image = image := by
  funext k
  simp [keep]

theorem keep_keep : keep m (keep n image) = keep (m + n) image := by
  funext k
  unfold keep
  split_ifs with h₁ h₂ h₃ h₄
  · rfl
  · omega
  · omega
  · omega
  · omega
  · rw [Nat.sub_sub, Nat.add_assoc]

end Image

/-- Texts without parentheses are replaced by groups without any inside; the function takes a kept
position to its image. -/
inductive Replaced : Text → Text → (Nat → Nat) → Prop
  | nil : Replaced [] [] id
  | keep {a b : Text} {image} (c : Char) : Replaced a b image →
      Replaced (c :: a) (c :: b) (Image.keep c.utf8Size image)
  | group {w inner a b : Text} {image} : w.Plain → inner.Plain → Replaced a b image →
      Replaced (w ++ a) ('(' :: (inner ++ ')' :: b)) (Image.replace w.size (inner.size + 2) image)

/-- Two scans that both succeed or both fail, at places that `f` relates. -/
inductive Moved (f : Nat → Nat) : Except Error (List Span) → Except Error (List Span) → Prop
  | ok (spans spans') : Moved f (.ok spans) (.ok spans')
  | unbalanced (pos side) : Moved f (.error (.unbalanced (.byteAt pos) side))
      (.error (.unbalanced (.byteAt (f pos)) side))

namespace Moved

variable {f : Nat → Nat} {x y : Except Error (List Span)}

theorem map_left (h : Moved f x y) (g : List Span → List Span) : Moved f (x.map g) y := by
  cases h with
  | ok => exact .ok _ _
  | unbalanced => exact .unbalanced _ _

theorem map_right (h : Moved f x y) (g : List Span → List Span) : Moved f x (y.map g) := by
  cases h with
  | ok => exact .ok _ _
  | unbalanced => exact .unbalanced _ _

theorem eq_unbalanced_iff (h : Moved f x y) {span : Span} {side : Unmatched} :
    y = .error (.unbalanced span side) ↔
      ∃ pos, x = .error (.unbalanced (.byteAt pos) side) ∧ span = .byteAt (f pos) := by
  cases h with
  | ok => simp
  | unbalanced pos side' =>
    constructor
    · intro h
      obtain ⟨rfl, rfl⟩ := Error.unbalanced.inj (Except.error.inj h)
      exact ⟨pos, rfl, rfl⟩
    · rintro ⟨pos', h, rfl⟩
      obtain ⟨hpos, rfl⟩ := Error.unbalanced.inj (Except.error.inj h)
      obtain rfl : pos = pos' := congrArg Span.start hpos
      rfl

theorem exists_unbalanced_iff (h : Moved f x y) :
    (∃ span side, y = .error (.unbalanced span side)) ↔ ¬ ∃ spans, x = .ok spans := by
  cases h with
  | ok => simp
  | unbalanced => simp

end Moved

namespace Replaced

variable {a b : Text} {image : Nat → Nat}

/-- Both scans are equally deep wherever a position is kept. -/
theorem moved (h : Replaced a b image) {f : Nat → Nat} {depth start start' pos pos' : Nat}
    (hstart : 0 < depth → start' = f start) (hpos : ∀ k, f (pos + k) = pos' + image k) :
    Moved f (Nesting.scan none depth start pos (ofText a))
      (Nesting.scan none depth start' pos' (ofText b)) := by
  induction h generalizing depth start start' pos pos' with
  | nil =>
    cases depth with
    | zero => exact .ok _ _
    | succ depth =>
      rw [hstart depth.succ_pos]
      exact .unbalanced _ _
  | @keep a b image c h ih =>
    have hnext : ∀ k, f (pos + c.utf8Size + k) = pos' + c.utf8Size + image k := by
      intro k
      rw [Nat.add_assoc, hpos, Image.keep_add, Nat.add_assoc]
    have hhere : f pos = pos' := by
      have h0 := hpos 0
      rwa [Image.keep_of_lt c.utf8Size_pos] at h0
    rcases Text.paren_cases c with rfl | rfl | hplain
    · rw [Nesting.scan_opening rfl, Nesting.scan_opening rfl]
      refine ih (fun _ => ?_) hnext
      by_cases hd : depth = 0
      · rw [if_pos hd, if_pos hd, hhere]
      · rw [if_neg hd, if_neg hd]
        exact hstart (Nat.pos_of_ne_zero hd)
    · match depth with
      | 0 => exact hhere ▸ .unbalanced _ _
      | 1 =>
        refine Moved.map_left (Moved.map_right ?_ _) _
        exact ih (fun h => absurd h (Nat.lt_irrefl 0)) hnext
      | depth + 2 => exact ih (fun _ => hstart (Nat.succ_pos _)) hnext
    · rw [Nesting.scan_cons hplain, Nesting.scan_cons hplain]
      exact ih hstart hnext
  | @group w inner a b image hw hinner h ih =>
    have hnext : ∀ k, f (pos + w.size + k) = pos' + 1 + inner.size + 1 + image k := by
      intro k
      rw [Nat.add_assoc, hpos, Image.replace_add]
      omega
    rw [Nesting.scan_plain hw, Nesting.scan_opening rfl, Nesting.scan_plain hinner]
    cases depth with
    | zero =>
      refine Moved.map_right ?_ _
      exact ih (fun h => absurd h (Nat.lt_irrefl 0)) hnext
    | succ depth => exact ih hstart hnext

theorem scan_eq (h : Replaced a b image) {m m' depth start pos pos' : Nat} (hm : m < m')
    (hdepth : depth ≤ m) (hcheck : Nesting.check m depth pos (ofText a) = .ok ()) :
    Nesting.scan (some m') depth start pos' (ofText b) =
      Nesting.scan none depth start pos' (ofText b) := by
  induction h generalizing depth start pos pos' with
  | nil => rfl
  | @keep a b image c h ih =>
    rcases Text.paren_cases c with rfl | rfl | hplain
    · obtain ⟨hle, hcheck⟩ := Nesting.check_opening hcheck
      have hnone : Nesting.tooDeep? (some m') (depth + 1) pos' = none :=
        Nesting.tooDeep?_eq_none (by omega)
      rw [Nesting.scan_opening hnone, Nesting.scan_opening rfl]
      exact ih hle hcheck
    · match depth with
      | 0 => rfl
      | 1 => exact congrArg (Except.map _) (ih (Nat.zero_le _) hcheck)
      | depth + 2 => exact ih (Nat.le_of_succ_le hdepth) hcheck
    · rw [Nesting.check_cons hplain] at hcheck
      rw [Nesting.scan_cons hplain, Nesting.scan_cons hplain]
      exact ih hdepth hcheck
  | @group w inner a b image hw hinner h ih =>
    have hnone : Nesting.tooDeep? (some m') (depth + 1) pos' = none :=
      Nesting.tooDeep?_eq_none (by omega)
    rw [Nesting.check_plain hw] at hcheck
    rw [Nesting.scan_opening hnone, Nesting.scan_opening rfl, Nesting.scan_plain hinner,
      Nesting.scan_plain hinner]
    cases depth with
    | zero => exact congrArg (Except.map _) (ih hdepth hcheck)
    | succ depth => exact ih hdepth hcheck

theorem exists_append (h : Replaced a b image) {c : Char} (hc : ¬ Text.Plain [c]) {u v : Text}
    (ha : a = u ++ c :: v) : ∃ u' v', b = u' ++ c :: v' ∧ u'.size = image u.size := by
  induction h generalizing u with
  | nil => simp at ha
  | @keep a b image d h ih =>
    cases u with
    | nil =>
      obtain ⟨rfl, rfl⟩ := List.cons.inj ha
      exact ⟨[], b, rfl, (Image.keep_of_lt d.utf8Size_pos).symm⟩
    | cons e u =>
      obtain ⟨rfl, htail⟩ := List.cons.inj ha
      obtain ⟨u', v', rfl, hsize⟩ := ih htail
      refine ⟨d :: u', v', rfl, ?_⟩
      rw [Text.size_cons, Text.size_cons, Image.keep_add, hsize]
  | @group w inner a b image hw hinner h ih =>
    rcases append_cons_cases ha with ⟨y, rfl⟩ | ⟨u, rfl, hrest⟩
    · have hplain : Text.Plain [c] := List.forall_mem_singleton.mpr (hw c (by simp))
      exact absurd hplain hc
    obtain ⟨u', v', rfl, hsize⟩ := ih hrest
    refine ⟨'(' :: (inner ++ ')' :: u'), v', by simp, ?_⟩
    rw [Text.size_append, Image.replace_add, ← hsize, Text.size_parentheses]

theorem text (h : Replaced a b image) (t : Text) :
    Replaced (t ++ a) (t ++ b) (Image.keep t.size image) := by
  induction t with
  | nil =>
    rw [Text.size_nil, Image.keep_zero]
    exact h
  | cons c t ih =>
    rw [Text.size_cons, ← Image.keep_keep]
    exact .keep c ih

end Replaced

end DiceArith
