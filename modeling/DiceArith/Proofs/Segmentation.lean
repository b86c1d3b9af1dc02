import DiceArith.Proofs.Rolling

/-! # Where patterns stand

A pattern is matched with all digits on both of its sides. Nothing before it could have been
matched with the first of its digits, so no digit stands next to a pattern.
-/

namespace DiceArith

structure Pattern.Alone (p : Pattern) (before after : Text) : Prop where
  valid : p.Valid
  before : ∀ c ∈ before.getLast?, c.isDigit = false
  after : ∀ c ∈ after.head?, c.isDigit = false

namespace Pattern

variable {p : Pattern} {t u rest : Text}

theorem Valid.exists_cons (hp : p.Valid) : ∃ c w, p.text = c :: w ∧ c.isDigit = true := by
  obtain ⟨c, w, hcount⟩ := List.exists_cons_of_ne_nil hp.count_ne_nil
  have hc : c.isDigit = true := hp.count_digits c (hcount ▸ List.mem_cons_self)
  exact ⟨c, w ++ 'd' :: p.sides, by rw [text, hcount, List.cons_append], hc⟩

theorem munch?_text (hp : p.Valid) (hu : ∀ c ∈ u.head?, c.isDigit = false) :
    munch? (p.text ++ u) = some (p, u) := by
  have hsides : Text.digits (p.sides ++ u) = p.sides := by
    rw [Text.digits_append hp.sides_digits, Text.digits_of_head hu, List.append_nil]
  have hpast : Text.pastDigits (p.sides ++ u) = u := by
    rw [Text.pastDigits_append hp.sides_digits, Text.pastDigits_of_head hu]
  have hd : ∀ c ∈ List.head? ('d' :: (p.sides ++ u)), c.isDigit = false := by simp
  have hcount : Text.digits (p.text ++ u) = p.count := by
    rw [text, List.append_assoc, List.cons_append, Text.digits_append hp.count_digits,
      Text.digits_of_head hd, List.append_nil]
  have hrest : Text.pastDigits (p.text ++ u) = 'd' :: (p.sides ++ u) := by
    rw [text, List.append_assoc, List.cons_append, Text.pastDigits_append hp.count_digits,
      Text.pastDigits_of_head hd]
  rw [munch?, hrest]
  simp [hcount, hsides, hpast, hp.count_ne_nil, hp.sides_ne_nil]

theorem head_of_munch? (h : munch? t = some (p, rest)) : ∀ c ∈ rest.head?, c.isDigit = false := by
  unfold munch? at h
  split at h
  · next v _ =>
    split at h
    · cases h
    · obtain ⟨_, rfl⟩ := Prod.mk.inj (Option.some.inj h)
      exact Text.head_pastDigits v
  · cases h

/-- With one digit more in front a pattern would have been matched there. -/
theorem not_isDigit_of_munch? {c : Char} (hp : p.Valid) (hu : ∀ c ∈ u.head?, c.isDigit = false)
    (h : munch? (c :: (p.text ++ u)) = none) : c.isDigit = false := by
  by_contra hc
  rw [Bool.not_eq_false] at hc
  have hlonger : Valid ⟨c :: p.count, p.sides⟩ :=
    ⟨List.cons_ne_nil _ _, List.forall_mem_cons.mpr ⟨hc, hp.count_digits⟩, hp.sides_ne_nil,
      hp.sides_digits⟩
  have hmunch := munch?_text hlonger hu
  rw [text, List.cons_append, List.cons_append] at hmunch
  rw [text] at h
  cases h.symm.trans hmunch

end Pattern

namespace Segment

def source (segs : List (Segment Pattern)) : Text := segs.flatMap (write Pattern.text)

variable {l l' segs : List (Segment Pattern)} {p : Pattern} {c : Char}

theorem source_cons (segment : Segment Pattern) (segs : List (Segment Pattern)) :
    source (segment :: segs) = segment.write Pattern.text ++ source segs := List.flatMap_cons

theorem source_segments (t : Text) : source (segments t) = t := flatMap_segments t

theorem exists_of_consText (h : consText c segs = l ++ .dice p :: l') :
    ∃ l₁, segs = l₁ ++ .dice p :: l' ∧ source l = c :: source l₁ := by
  have htext : ∀ {t : Text} {rest : List (Segment Pattern)},
      text t :: rest = l ++ .dice p :: l' →
        ∃ l₁, l = text t :: l₁ ∧ rest = l₁ ++ .dice p :: l' := by
    intro t rest h
    cases l with
    | nil => cases (List.cons.inj h).1
    | cons a l =>
      obtain ⟨rfl, hrest⟩ := List.cons.inj h
      exact ⟨l, rfl, hrest⟩
  cases segs with
  | nil =>
    obtain ⟨l₁, _, hnil⟩ := htext h
    simp at hnil
  | cons segment rest =>
    cases segment with
    | text t =>
      obtain ⟨l₁, rfl, rfl⟩ := htext h
      exact ⟨.text t :: l₁, rfl, rfl⟩
    | dice q =>
      obtain ⟨l₁, rfl, hrest⟩ := htext h
      exact ⟨l₁, hrest, rfl⟩

theorem text_of_segments {t : Text} (h : segments t = l ++ .dice p :: l') :
    t = source l ++ (p.text ++ source l') := by
  conv_lhs => rw [← source_segments t]
  rw [h, source, List.flatMap_append, List.flatMap_cons]
  rfl

/-- The patterns of a text are whole: none of them has a digit next to it. -/
theorem alone_of_segments {t : Text} (h : segments t = l ++ .dice p :: l') :
    p.Alone (source l) (source l') := by
  fun_induction segments t generalizing l with
  | case1 => simp at h
  | case2 c t q rest hmunch ih =>
    cases l with
    | nil =>
      obtain ⟨hq, rfl⟩ := List.cons.inj h
      obtain rfl := Segment.dice.inj hq
      rw [source_segments]
      exact ⟨Pattern.valid_of_munch? hmunch, by simp [source], Pattern.head_of_munch? hmunch⟩
    | cons a l =>
      obtain ⟨rfl, hrest⟩ := List.cons.inj h
      have hp := ih hrest
      refine ⟨hp.valid, ?_, hp.after⟩
      rw [source_cons]
      cases hl : source l with
      | nil =>
        -- the pattern would have to follow another one, whose digits end where it starts
        have htext := text_of_segments hrest
        obtain ⟨c, w, hc, hdigit⟩ := hp.valid.exists_cons
        rw [hl, hc] at htext
        have hhead := Pattern.head_of_munch? hmunch c (by simp [htext])
        simp [hhead] at hdigit
      | cons d u =>
        rw [hl] at hp
        simpa [List.getLast?_append] using hp.before
  | case3 c t hmunch ih =>
    obtain ⟨l₁, hsegs, hl⟩ := exists_of_consText h
    have hp := ih hsegs
    refine ⟨hp.valid, ?_, hp.after⟩
    rw [hl]
    cases hl₁ : source l₁ with
    | nil =>
      have htext := text_of_segments hsegs
      rw [hl₁, List.nil_append] at htext
      rw [htext] at hmunch
      simpa using Pattern.not_isDigit_of_munch? hp.valid hp.after hmunch
    | cons d u =>
      rw [hl₁] at hp
      simpa using hp.before

end Segment

end DiceArith
