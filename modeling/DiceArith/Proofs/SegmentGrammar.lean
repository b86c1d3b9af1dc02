import DiceArith.Proofs.Matching

/-! # The grammar of segments

A reader takes a value from the head of a text and leaves the rest. The grammar of segments is put
together from readers: it prefers patterns, and its text goes on up to the next one. Reading by this
grammar never fails, whatever the text is, and yields the segments of the text.
-/

namespace DiceArith

abbrev Reader (α : Type) := Text → Option (α × Text)

namespace Reader

variable {α β : Type}

def any : Reader Char
  | [] => none
  | c :: t => some (c, t)

def just (c : Char) : Reader Char
  | [] => none
  | d :: t => if d = c then some (d, t) else none

def digits : Reader Unit := fun t => if t.digits = [] then none else some ((), t.pastDigits)

def finish : Reader Unit
  | [] => some ((), [])
  | _ :: _ => none

def map (f : α → β) (r : Reader α) : Reader β := fun t => (r t).map fun (a, rest) => (f a, rest)

def andThen (r : Reader α) (r' : Reader β) : Reader (α × β) := fun t =>
  (r t).bind fun (a, t) => (r' t).map fun (b, rest) => ((a, b), rest)

def thenIgnore (r : Reader α) (r' : Reader β) : Reader α := (r.andThen r').map Prod.fst

def not (r : Reader α) : Reader Unit := fun t => if r t = none then some ((), t) else none

def andIs (r : Reader α) (r' : Reader β) : Reader α := fun t => (r' t).bind fun _ => r t

def orElse (r r' : Reader α) : Reader α := fun t => (r t).or (r' t)

/-- Reads as often as something is consumed. -/
def run (r : Reader α) (t : Text) : List α × Text :=
  match r t with
  | none => ([], t)
  | some (a, rest) =>
    if _h : rest.length < t.length then (a :: (run r rest).1, (run r rest).2) else ([], t)
termination_by t.length

def many (r : Reader α) : Reader (List α) := fun t => some (r.run t)

def atLeastOne (r : Reader α) : Reader (List α) := fun t =>
  if (r.run t).1 = [] then none else some (r.run t)

/-- The text that is consumed, in place of the value that is read. -/
def slice (r : Reader α) : Reader Text := fun t =>
  (r t).map fun (_, rest) => (t.take (t.length - rest.length), rest)

variable {r : Reader α} {t u rest : Text} {a : α}

theorem slice_of_append (h : r t = some (a, rest)) (ht : t = u ++ rest) :
    r.slice t = some (u, rest) := by
  have htake : t.take (t.length - rest.length) = u := by
    rw [ht, List.length_append, Nat.add_sub_cancel, List.take_left]
  simp only [slice, h, Option.map_some, htake]

theorem slice_digits (t : Text) :
    digits.slice t = if t.digits = [] then none else some (t.digits, t.pastDigits) := by
  by_cases h : t.digits = []
  · simp [slice, digits, h]
  · have hdigits : digits t = some ((), t.pastDigits) := if_neg h
    rw [if_neg h]
    exact slice_of_append hdigits t.digits_append_pastDigits.symm

theorem run_of_none (h : r t = none) : r.run t = ([], t) := by
  rw [run, h]

theorem run_of_some (h : r t = some (a, rest)) (hlt : rest.length < t.length) :
    r.run t = (a :: (r.run rest).1, (r.run rest).2) := by
  rw [run, h]
  exact dif_pos hlt

end Reader

open Reader

def Pattern.reader : Reader Pattern :=
  ((digits.slice.thenIgnore (just 'd')).andThen digits.slice).map fun (count, sides) =>
    ⟨count, sides⟩

namespace Segment

def plainReader : Reader Char := any.andIs Pattern.reader.not

def reader : Reader (Segment Pattern) :=
  (Pattern.reader.map dice).orElse (plainReader.atLeastOne.slice.map text)

end Segment

def segmentsReader : Reader (List (Segment Pattern)) := Segment.reader.many.thenIgnore finish

theorem segments_nil : segments [] = [] := by
  rw [segments]

theorem segments_of_some {t rest : Text} {p : Pattern} (h : Pattern.munch? t = some (p, rest)) :
    segments t = .dice p :: segments rest := by
  cases t with
  | nil => cases h
  | cons c t =>
    rw [segments]
    split
    · next hp =>
      obtain ⟨rfl, rfl⟩ := Prod.mk.inj (Option.some.inj (hp.symm.trans h))
      rfl
    · next hnone => cases hnone.symm.trans h

theorem segments_of_none {c : Char} {t : Text} (h : Pattern.munch? (c :: t) = none) :
    segments (c :: t) = Segment.consText c (segments t) := by
  rw [segments]
  split
  · next hp => cases hp.symm.trans h
  · rfl

theorem Pattern.reader_eq (t : Text) : Pattern.reader t = munch? t := by
  simp only [reader, Reader.map, thenIgnore, andThen, slice_digits, munch?]
  by_cases hcount : t.digits = []
  · rw [if_pos hcount]
    split <;> simp [hcount]
  · cases hpast : t.pastDigits with
    | nil => simp [hcount, just]
    | cons c u =>
      by_cases hc : c = 'd'
      · subst hc
        by_cases hsides : Text.digits u = [] <;> simp [hcount, hsides, just]
      · simp [hcount, just, hc]

namespace Segment

variable {c : Char} {t u rest : Text} {p : Pattern}

theorem plainReader_nil : plainReader [] = none := by
  simp [plainReader, andIs, any]

theorem plainReader_of_some (h : Pattern.munch? t = some (p, rest)) : plainReader t = none := by
  simp [plainReader, andIs, Reader.not, Pattern.reader_eq, h]

theorem plainReader_of_none (h : Pattern.munch? (c :: t) = none) :
    plainReader (c :: t) = some (c, t) := by
  simp [plainReader, andIs, Reader.not, Pattern.reader_eq, h, any]

/-- Text is read up to the first pattern or to the end. -/
theorem exists_run_plainReader (t : Text) : ∃ u rest, plainReader.run t = (u, rest) ∧
    t = u ++ rest ∧ segments t = gap u ++ segments rest ∧
    (rest = [] ∨ ∃ p after, Pattern.munch? rest = some (p, after)) := by
  induction t with
  | nil =>
    refine ⟨[], [], run_of_none plainReader_nil, rfl, ?_, .inl rfl⟩
    rw [gap, if_pos rfl, List.nil_append]
  | cons c t ih =>
    cases hmunch : Pattern.munch? (c :: t) with
    | some match? =>
      obtain ⟨p, after⟩ := match?
      refine ⟨[], c :: t, run_of_none (plainReader_of_some hmunch), rfl, ?_,
        .inr ⟨p, after, hmunch⟩⟩
      rw [gap, if_pos rfl, List.nil_append]
    | none =>
      obtain ⟨u, rest, hrun, ht, hsegs, hrest⟩ := ih
      refine ⟨c :: u, rest, ?_, ?_, ?_, hrest⟩
      · rw [run_of_some (plainReader_of_none hmunch) (Nat.lt_succ_self _), hrun]
      · rw [ht, List.cons_append]
      · rw [segments_of_none hmunch, hsegs]
        rcases hrest with rfl | ⟨p, after, hp⟩
        · rw [segments_nil, List.append_nil, List.append_nil, consText_gap]
        · rw [segments_of_some hp, consText_gap_append]

theorem reader_of_some (h : Pattern.munch? t = some (p, rest)) :
    reader t = some (dice p, rest) := by
  simp [reader, orElse, Reader.map, Pattern.reader_eq, h]

theorem exists_reader_of_none (h : Pattern.munch? (c :: t) = none) : ∃ u rest,
    reader (c :: t) = some (text u, rest) ∧ rest.length < (c :: t).length ∧
      segments (c :: t) = text u :: segments rest := by
  obtain ⟨u, rest, hrun, ht, hsegs, _⟩ := exists_run_plainReader (c :: t)
  rw [run_of_some (plainReader_of_none h) (Nat.lt_succ_self _)] at hrun
  obtain ⟨hu, hrest⟩ := Prod.mk.inj hrun
  subst hu
  have hchars : plainReader.atLeastOne (c :: t) = some (c :: (plainReader.run t).1, rest) := by
    rw [atLeastOne, run_of_some (plainReader_of_none h) (Nat.lt_succ_self _), hrest]
    rfl
  refine ⟨c :: (plainReader.run t).1, rest, ?_, ?_, hsegs⟩
  · simp [reader, orElse, Reader.map, Pattern.reader_eq, h, slice_of_append hchars ht]
  · rw [ht, List.length_append]
    exact Nat.lt_add_of_pos_left (Nat.succ_pos _)

theorem reader_nil : reader [] = none := by
  have hmunch : Pattern.munch? [] = none := rfl
  simp [reader, orElse, Reader.map, Pattern.reader_eq, hmunch, slice, atLeastOne,
    run_of_none plainReader_nil]

theorem run_reader (t : Text) : reader.run t = (segments t, []) := by
  induction hn : t.length using Nat.strong_induction_on generalizing t with
  | _ n ih =>
    subst hn
    cases t with
    | nil => rw [run_of_none reader_nil, segments_nil]
    | cons c t =>
      cases hmunch : Pattern.munch? (c :: t) with
      | some match? =>
        obtain ⟨p, rest⟩ := match?
        have hlt := Pattern.length_of_munch? hmunch
        rw [run_of_some (reader_of_some hmunch) hlt, ih _ hlt rest rfl, segments_of_some hmunch]
      | none =>
        obtain ⟨u, rest, hread, hlt, hsegs⟩ := exists_reader_of_none hmunch
        rw [run_of_some hread hlt, ih _ hlt rest rfl, hsegs]

end Segment

theorem segmentsReader_eq (t : Text) : segmentsReader t = some (segments t, []) := by
  simp [segmentsReader, thenIgnore, andThen, Reader.map, many, Segment.run_reader, finish]

namespace Segment

theorem sum_size (segs : List (Segment Pattern)) : (segs.map size).sum = (source segs).size := by
  induction segs with
  | nil => rfl
  | cons segment segs ih =>
    rw [List.map_cons, List.sum_cons, ih, source_cons, Text.size_append, size]

theorem size_pos_of_mem {t : Text} {segment : Segment Pattern} (h : segment ∈ segments t) :
    0 < segment.size := by
  cases segment with
  | text u =>
    obtain ⟨hne, _⟩ := (search_segments t).text_mem h
    obtain ⟨c, u, rfl⟩ := List.exists_cons_of_ne_nil hne
    exact Nat.add_pos_left c.utf8Size_pos _
  | dice p =>
    have hd : 0 < Text.size ('d' :: p.sides) := Nat.add_pos_left (Char.utf8Size_pos 'd') _
    rw [size, write, Pattern.text, Text.size_append]
    exact Nat.add_pos_right _ hd

end Segment

/-- Every text can be read as segments, cut around the patterns that a search finds. -/
theorem segments_search (t : Text) :
    segmentsReader t = some (segments t, []) ∧
    Segment.source (segments t) = t ∧ ((segments t).map Segment.size).sum = t.size ∧
    (∀ segs, Segment.Search t segs ↔ segs = segments t) ∧
    (∀ l p l', segments t = l ++ .dice p :: l' →
      p.Alone (Segment.source l) (Segment.source l')) ∧
    (segments t).IsChain Segment.Alternate ∧
    (∀ segment ∈ segments t, 0 < segment.size) ∧
    ∀ u, .text u ∈ segments t → u.Patternless := by
  have hsearch := Segment.search_segments t
  refine ⟨segmentsReader_eq t, Segment.source_segments t, ?_, fun _ => Segment.search_iff, ?_,
    hsearch.isChain, fun _ => Segment.size_pos_of_mem, fun u hu => (hsearch.text_mem hu).2⟩
  · rw [Segment.sum_size, Segment.source_segments]
  · intro l p l' hsegs
    exact Segment.alone_of_segments hsegs

theorem segments_search_runs :
    segments "1.05d6d7é12d3".toList = [.text "1.".toList, .dice ⟨"05".toList, "6".toList⟩,
      .text "d7é".toList, .dice ⟨"12".toList, "3".toList⟩] ∧
    Pattern.Alone ⟨"12".toList, "3".toList⟩ "1.05d6d7é".toList [] ∧
    0 < Segment.size (.text "d7é".toList) ∧ Text.Patternless "d7é".toList := by
  have hsegs : segments "1.05d6d7é12d3".toList = [.text "1.".toList,
      .dice ⟨"05".toList, "6".toList⟩, .text "d7é".toList, .dice ⟨"12".toList, "3".toList⟩] := by
    decide +kernel
  obtain ⟨_, _, _, _, halone, _, hpos, hplain⟩ := segments_search "1.05d6d7é12d3".toList
  rw [hsegs] at halone hpos hplain
  exact ⟨hsegs, halone [_, _, _] _ [] rfl, hpos _ (by simp), hplain _ (by simp)⟩

end DiceArith
