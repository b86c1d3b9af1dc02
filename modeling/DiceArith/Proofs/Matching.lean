import DiceArith.Proofs.Segmentation
import Mathlib.Data.List.DropRight

/-! # Leftmost matches

The segments of a text are what a search for patterns leaves behind: it takes the match that starts
furthest left, goes on after it, and keeps what it has passed. No other cut of a text is such a
search, and no pattern is overlooked in the text that is kept.
-/

namespace DiceArith

/-- A pattern stands in a text with all of its digits. -/
structure Pattern.Occurs (p : Pattern) (t before after : Text) : Prop where
  eq : t = before ++ (p.text ++ after)
  alone : p.Alone before after

/-- No pattern stands further left. -/
structure Pattern.Leftmost (p : Pattern) (t before after : Text) : Prop
    extends p.Occurs t before after where
  least : ∀ (q : Pattern) (u v : Text), q.Occurs t u v → before.length ≤ u.length

namespace Pattern

variable {p q : Pattern} {c : Char} {t u v u' v' rest : Text}

theorem Occurs.munch? (h : p.Occurs t [] v) : munch? t = some (p, v) := by
  obtain ⟨rfl, hp⟩ := h
  exact munch?_text hp.valid hp.after

theorem occurs_of_munch? (h : Pattern.munch? t = some (p, rest)) : p.Occurs t [] rest :=
  ⟨append_of_munch? h, valid_of_munch? h, by simp, head_of_munch? h⟩

theorem leftmost_of_munch? (h : Pattern.munch? t = some (p, rest)) : p.Leftmost t [] rest :=
  ⟨occurs_of_munch? h, fun _ _ _ _ => Nat.zero_le _⟩

theorem Occurs.tail (h : p.Occurs (c :: t) (d :: u) v) : c = d ∧ p.Occurs t u v := by
  obtain ⟨heq, hvalid, hbefore, hafter⟩ := h
  obtain ⟨rfl, ht⟩ := List.cons.inj heq
  refine ⟨rfl, ht, hvalid, ?_, hafter⟩
  cases u with
  | nil => simp
  | cons e u => simpa using hbefore

theorem Occurs.cons (h : p.Occurs t u v) (hc : Pattern.munch? (c :: t) = none) :
    p.Occurs (c :: t) (c :: u) v := by
  obtain ⟨rfl, hvalid, hbefore, hafter⟩ := h
  refine ⟨rfl, hvalid, ?_, hafter⟩
  cases u with
  | nil => simpa using not_isDigit_of_munch? hvalid hafter hc
  | cons d u => simpa using hbefore

theorem Occurs.exists_cons (h : p.Occurs (c :: t) u v) (hc : Pattern.munch? (c :: t) = none) :
    ∃ u', u = c :: u' ∧ p.Occurs t u' v := by
  cases u with
  | nil => cases hc.symm.trans h.munch?
  | cons d u =>
    obtain ⟨rfl, htail⟩ := h.tail
    exact ⟨u, rfl, htail⟩

theorem Leftmost.cons (h : p.Leftmost t u v) (hc : Pattern.munch? (c :: t) = none) :
    p.Leftmost (c :: t) (c :: u) v := by
  refine ⟨h.toOccurs.cons hc, ?_⟩
  intro q u' v' hq
  obtain ⟨w, rfl, hw⟩ := hq.exists_cons hc
  exact Nat.succ_le_succ (h.least q w v' hw)

theorem Leftmost.unique (h : p.Leftmost t u v) (h' : q.Leftmost t u' v') :
    p = q ∧ u = u' ∧ v = v' := by
  have hlength : u.length = u'.length :=
    Nat.le_antisymm (h.least q u' v' h'.toOccurs) (h'.least p u v h.toOccurs)
  obtain ⟨rfl, hrest⟩ := List.append_inj (h.eq.symm.trans h'.eq) hlength
  have hp := munch?_text h.alone.valid h.alone.after
  have hq := munch?_text h'.alone.valid h'.alone.after
  rw [hrest, hq] at hp
  obtain ⟨rfl, rfl⟩ := Prod.mk.inj (Option.some.inj hp)
  exact ⟨rfl, rfl, rfl⟩

/-- Around a `d` between digits stands a pattern. -/
theorem exists_occurs {a b : Char} {w : Text} (ha : a.isDigit = true) (hb : b.isDigit = true) :
    ∃ (p : Pattern) (u v : Text), p.Occurs (t ++ a :: 'd' :: b :: w) u v ∧
      u.length ≤ t.length := by
  have hsplit : t.rdropWhile Char.isDigit ++ t.rtakeWhile Char.isDigit = t :=
    List.rdropWhile_append_rtakeWhile
  -- the digits right before `a` belong to the pattern as well
  generalize hu : t.rdropWhile Char.isDigit = u at hsplit
  generalize hrun : t.rtakeWhile Char.isDigit = run at hsplit
  have hdigits : ∀ c ∈ run, c.isDigit = true := by
    intro c hc
    exact List.mem_rtakeWhile_imp (hrun ▸ hc)
  have hlast : ∀ c ∈ u.getLast?, c.isDigit = false := by
    intro c hc
    obtain ⟨hne, rfl⟩ := List.mem_getLast?_eq_getLast hc
    subst hu
    exact Bool.eq_false_iff.mpr (List.rdropWhile_last_not Char.isDigit t hne)
  refine ⟨⟨run ++ [a], b :: Text.digits w⟩, u, Text.pastDigits w, ⟨?_, ⟨?_, hlast, ?_⟩⟩, ?_⟩
  · rw [← hsplit]
    simp [Pattern.text, Text.digits_append_pastDigits]
  · refine ⟨by simp, ?_, List.cons_ne_nil _ _, ?_⟩
    · simpa [or_imp, forall_and, ha] using hdigits
    · exact List.forall_mem_cons.mpr ⟨hb, fun _ => Text.isDigit_of_mem_digits⟩
  · exact Text.head_pastDigits w
  · rw [← hsplit, List.length_append]
    exact Nat.le_add_right _ _

end Pattern

/-- No `d` in a text stands between two digits. -/
def Text.Patternless (t : Text) : Prop :=
  ∀ (u : Text) (a b : Char) (v : Text), a.isDigit = true → b.isDigit = true →
    t ≠ u ++ a :: 'd' :: b :: v

namespace Segment

def gap (t : Text) : List (Segment Pattern) := if t = [] then [] else [text t]

theorem gap_cons (c : Char) (t : Text) : gap (c :: t) = [text (c :: t)] := rfl

/-- The outcome of a search that goes on after each match. -/
inductive Search : Text → List (Segment Pattern) → Prop
  | finish {t} : (∀ (p : Pattern) (u v : Text), ¬ p.Occurs t u v) → Search t (gap t)
  | found {t u v segs} {p : Pattern} : p.Leftmost t u v → Search v segs →
      Search t (gap u ++ dice p :: segs)

def Alternate : Segment Pattern → Segment Pattern → Prop
  | text _, dice _ | dice _, text _ => True
  | _, _ => False

variable {t u : Text} {segs segs' : List (Segment Pattern)}

theorem consText_gap (c : Char) (t : Text) : consText c (gap t) = gap (c :: t) := by
  cases t <;> rfl

theorem consText_gap_append (c : Char) (u : Text) (p : Pattern) (segs : List (Segment Pattern)) :
    consText c (gap u ++ dice p :: segs) = gap (c :: u) ++ dice p :: segs := by
  cases u <;> rfl

theorem mem_gap_iff : text u ∈ gap t ↔ u = t ∧ t ≠ [] := by
  cases t with
  | nil => simp [gap]
  | cons c t => simp [gap_cons]

/-- The head of a text starts the first match or comes before it. -/
theorem search_segments (t : Text) : Search t (segments t) := by
  fun_induction segments t with
  | case1 =>
    refine .finish (t := []) fun p u v h => ?_
    obtain ⟨c, w, hp, _⟩ := h.alone.valid.exists_cons
    simpa [hp] using h.eq
  | case2 c t p rest hmunch ih => exact .found (Pattern.leftmost_of_munch? hmunch) ih
  | case3 c t hmunch ih =>
    generalize segments t = segs at ih
    cases ih with
    | finish hnone =>
      rw [consText_gap]
      refine .finish fun p u v h => ?_
      obtain ⟨u', _, htail⟩ := h.exists_cons hmunch
      exact hnone p u' v htail
    | found hfirst hrest =>
      rw [consText_gap_append]
      exact .found (hfirst.cons hmunch) hrest

theorem Search.unique (h : Search t segs) (h' : Search t segs') : segs = segs' := by
  induction h generalizing segs' with
  | finish hnone =>
    cases h' with
    | finish _ => rfl
    | found hfirst _ => exact absurd hfirst.toOccurs (hnone _ _ _)
  | found hfirst _ ih =>
    cases h' with
    | finish hnone => exact absurd hfirst.toOccurs (hnone _ _ _)
    | found hfirst' hrest =>
      obtain ⟨rfl, rfl, rfl⟩ := hfirst.unique hfirst'
      rw [ih hrest]

theorem search_iff : Search t segs ↔ segs = segments t := by
  constructor
  · intro h
    exact h.unique (search_segments t)
  · rintro rfl
    exact search_segments t

theorem Search.head_text (h : Search t segs) (ht : ∀ c ∈ t.head?, c.isDigit = false) :
    ∀ segment ∈ segs.head?, ∃ u, segment = text u := by
  cases h with
  | finish _ =>
    cases t with
    | nil => simp [gap]
    | cons c t => simp [gap_cons]
  | @found _ u v segs p hfirst _ =>
    cases u with
    | nil =>
      obtain ⟨c, w, hp, hdigit⟩ := hfirst.alone.valid.exists_cons
      have hc := ht c (by simp [hfirst.eq, hp])
      cases hc.symm.trans hdigit
    | cons c u => simp [gap_cons]

theorem Search.isChain (h : Search t segs) : segs.IsChain Alternate := by
  induction h with
  | @finish t _ =>
    cases t with
    | nil => exact .nil
    | cons c t => exact .singleton _
  | @found t u v segs p hfirst hrest ih =>
    have hdice : (dice p :: segs).IsChain Alternate := by
      rw [List.isChain_cons]
      refine ⟨fun segment hsegment => ?_, ih⟩
      obtain ⟨w, rfl⟩ := hrest.head_text hfirst.alone.after segment hsegment
      trivial
    cases u with
    | nil => exact hdice
    | cons c u => exact List.isChain_cons_cons.mpr ⟨trivial, hdice⟩

theorem Search.text_mem (h : Search t segs) (hu : text u ∈ segs) : u ≠ [] ∧ u.Patternless := by
  induction h with
  | @finish t hnone =>
    obtain ⟨rfl, hne⟩ := mem_gap_iff.mp hu
    refine ⟨hne, ?_⟩
    rintro v a b w ha hb rfl
    obtain ⟨p, v', w', hp, _⟩ := Pattern.exists_occurs ha hb
    exact hnone p v' w' hp
  | @found t u₁ v segs p hfirst _ ih =>
    rcases List.mem_append.mp hu with hgap | hu
    · obtain ⟨rfl, hne⟩ := mem_gap_iff.mp hgap
      refine ⟨hne, ?_⟩
      rintro v' a b w ha hb rfl
      -- a match inside the text that is kept would start before the leftmost one
      obtain ⟨q, x, y, hq, hle⟩ := Pattern.exists_occurs (t := v') (w := w ++ (p.text ++ v)) ha hb
      have heq := hfirst.eq
      simp only [List.append_assoc, List.cons_append] at heq
      have hleast := hfirst.least q x y (heq ▸ hq)
      rw [List.length_append, List.length_cons] at hleast
      omega
    · exact ih (by simpa using hu)

end Segment

end DiceArith
