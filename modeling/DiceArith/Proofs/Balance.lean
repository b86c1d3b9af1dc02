import DiceArith.Proofs.Nest
import Mathlib.Data.List.Induction

/-! # Balance

Parentheses can be counted and they can be paired. A text that never closes more of them than it
opens is a sequence of balanced texts with an opening parenthesis between each two, and these are
the ones that it leaves open. So the counts tell which parentheses have a partner, at the other end
of a balanced text.
-/

namespace DiceArith

namespace Text

def excess (t : Text) : Int := t.count '(' - t.count ')'

/-- No beginning of a text closes more parentheses than it opens. -/
def Rising (t : Text) : Prop := ∀ u : Text, u <+: t → 0 ≤ u.excess

def HasClosing (after : Text) : Prop :=
  ∃ inner rest : Text, after = inner ++ ')' :: rest ∧ inner.Balanced

def HasOpening (before : Text) : Prop :=
  ∃ rest inner : Text, before = rest ++ '(' :: inner ∧ inner.Balanced

/-- A text leaves `depth` parentheses open: all but these have a partner. -/
inductive LeavesOpen : (depth : Nat) → Text → Prop
  | balanced {t} : t.Balanced → LeavesOpen 0 t
  | opening {depth u v} : u.Balanced → LeavesOpen depth v → LeavesOpen (depth + 1) (u ++ '(' :: v)

structure FirstUnclosed (before after : Text) : Prop where
  not_hasClosing : ¬ after.HasClosing
  first : ∀ u v : Text, before = u ++ '(' :: v → (v ++ '(' :: after).HasClosing

variable {c : Char} {t u v u' v' : Text} {depth : Nat}

section Excess

@[simp] theorem excess_nil : excess [] = 0 := rfl

@[simp] theorem excess_append (t u : Text) : (t ++ u).excess = t.excess + u.excess := by
  simp only [excess, List.count_append, Int.natCast_add]
  omega

@[simp] theorem excess_opening (t : Text) : excess ('(' :: t) = t.excess + 1 := by
  simp only [excess, List.count_cons_self, List.count_cons_of_ne (show '(' ≠ ')' by decide)]
  omega

@[simp] theorem excess_closing (t : Text) : excess (')' :: t) = t.excess - 1 := by
  simp only [excess, List.count_cons_self, List.count_cons_of_ne (show ')' ≠ '(' by decide)]
  omega

theorem Plain.excess_eq_zero (h : t.Plain) : t.excess = 0 := by
  have hopening : t.count '(' = 0 := List.count_eq_zero.mpr fun hmem => (h _ hmem).1 rfl
  have hclosing : t.count ')' = 0 := List.count_eq_zero.mpr fun hmem => (h _ hmem).2 rfl
  simp only [excess, hopening, hclosing, Int.sub_self]

theorem Balanced.excess_eq_zero (h : t.Balanced) : t.excess = 0 := by
  obtain ⟨n, rfl⟩ := h
  induction n with
  | flat gap plain => exact plain.excess_eq_zero
  | group gap plain inner rest ihi ihr =>
    simp only [Nest.text, excess_append, excess_opening, excess_closing, plain.excess_eq_zero]
    omega

end Excess

section Rising

theorem Rising.excess_nonneg (h : t.Rising) : 0 ≤ t.excess := h t List.prefix_rfl

theorem Rising.left (h : (t ++ u).Rising) : t.Rising := fun _ hw =>
  h _ (hw.trans (List.prefix_append t u))

theorem prefix_append_iff {w : Text} :
    w <+: u ++ v ↔ w <+: u ∨ ∃ v', v' <+: v ∧ w = u ++ v' := by
  constructor
  · intro h
    rcases List.prefix_or_prefix_of_prefix h (List.prefix_append u v) with hw | ⟨v', rfl⟩
    · exact .inl hw
    · exact .inr ⟨v', (List.prefix_append_right_inj u).mp h, rfl⟩
  · rintro (hw | ⟨v', hv', rfl⟩)
    · exact hw.trans (List.prefix_append u v)
    · exact (List.prefix_append_right_inj u).mpr hv'

theorem Rising.append (ht : t.Rising) (hu : ∀ w : Text, w <+: u → 0 ≤ t.excess + w.excess) :
    (t ++ u).Rising := by
  intro w hw
  rcases prefix_append_iff.mp hw with hw | ⟨w', hw', rfl⟩
  · exact ht w hw
  · rw [excess_append]
    exact hu w' hw'

theorem Rising.append_opening (hu : u.Rising) (hv : v.Rising) : (u ++ '(' :: v).Rising := by
  apply hu.append
  intro w hw
  have hu' := hu.excess_nonneg
  rcases List.prefix_cons_iff.mp hw with rfl | ⟨w', rfl, hw'⟩
  · rw [excess_nil]
    omega
  · have := hv w' hw'
    rw [excess_opening]
    omega

theorem Rising.append_closing (hu : u.Rising) (hpos : 0 < u.excess) (hv : v.Rising) :
    (u ++ ')' :: v).Rising := by
  apply hu.append
  intro w hw
  rcases List.prefix_cons_iff.mp hw with rfl | ⟨w', rfl, hw'⟩
  · rw [excess_nil]
    omega
  · have := hv w' hw'
    rw [excess_closing]
    omega

theorem Plain.rising (h : t.Plain) : t.Rising := by
  intro u hu
  have hplain : u.Plain := fun c hc => h c (hu.subset hc)
  exact Int.le_of_eq hplain.excess_eq_zero.symm

theorem Balanced.rising (h : t.Balanced) : t.Rising := by
  obtain ⟨n, rfl⟩ := h
  induction n with
  | flat gap plain => exact plain.rising
  | group gap plain inner rest ihi ihr =>
    have hinner : inner.text.excess = 0 := Balanced.excess_eq_zero ⟨inner, rfl⟩
    have hopen := plain.rising.append_opening ihi
    have hpos : 0 < excess (gap ++ '(' :: inner.text) := by
      rw [excess_append, excess_opening, plain.excess_eq_zero, hinner]
      decide
    have hclose := hopen.append_closing hpos ihr
    rwa [List.append_assoc] at hclose

end Rising

section LeavesOpen

theorem Plain.balanced (h : t.Plain) : t.Balanced := ⟨.flat t h, rfl⟩

theorem balanced_nil : Balanced [] := plain_nil.balanced

theorem Balanced.append (ht : t.Balanced) (hu : u.Balanced) : (t ++ u).Balanced := by
  obtain ⟨n, rfl⟩ := ht
  induction n with
  | flat gap plain =>
    obtain ⟨m, rfl⟩ := hu
    cases m with
    | flat gap' plain' => exact (plain.append plain').balanced
    | group gap' plain' inner rest =>
      exact ⟨.group (gap ++ gap') (plain.append plain') inner rest, List.append_assoc _ _ _⟩
  | group gap plain inner rest _ ihr =>
    obtain ⟨m, hm⟩ := ihr
    refine ⟨.group gap plain inner m, ?_⟩
    simp only [Nest.text, hm, List.append_assoc, List.cons_append]

theorem Balanced.group (ht : t.Balanced) : Balanced ('(' :: (t ++ [')'])) := by
  obtain ⟨n, rfl⟩ := ht
  exact ⟨.group [] plain_nil n (.flat [] plain_nil), rfl⟩

theorem LeavesOpen.append (h : LeavesOpen depth t) (hu : u.Balanced) :
    LeavesOpen depth (t ++ u) := by
  induction h with
  | balanced ht => exact .balanced (ht.append hu)
  | opening hw _ ih =>
    rw [List.append_assoc, List.cons_append]
    exact .opening hw ih

theorem LeavesOpen.append_opening (h : LeavesOpen depth t) :
    LeavesOpen (depth + 1) (t ++ ['(']) := by
  induction h with
  | balanced ht => exact .opening ht (.balanced balanced_nil)
  | opening hw _ ih =>
    rw [List.append_assoc, List.cons_append]
    exact .opening hw ih

theorem LeavesOpen.append_closing (h : LeavesOpen (depth + 1) t) :
    LeavesOpen depth (t ++ [')']) := by
  generalize hd : depth + 1 = d at h
  induction h generalizing depth with
  | balanced => cases hd
  | @opening depth' u v hu hv ih =>
    obtain rfl := Nat.succ.inj hd
    rw [List.append_assoc, List.cons_append]
    cases depth with
    | zero =>
      cases hv with
      | balanced hv => exact .balanced (hu.append hv.group)
    | succ depth => exact .opening hu (ih rfl)

theorem LeavesOpen.excess_eq (h : LeavesOpen depth t) : t.excess = depth := by
  induction h with
  | balanced ht => exact ht.excess_eq_zero
  | opening hu _ ih =>
    rw [excess_append, excess_opening, hu.excess_eq_zero, ih]
    omega

theorem LeavesOpen.rising (h : LeavesOpen depth t) : t.Rising := by
  induction h with
  | balanced ht => exact ht.rising
  | opening hu _ ih => exact hu.rising.append_opening ih

/-- Every character adds to what is left open, takes from it or joins a balanced text. -/
theorem Rising.exists_leavesOpen (h : t.Rising) : ∃ depth, LeavesOpen depth t := by
  induction t using List.reverseRecOn with
  | nil => exact ⟨0, .balanced balanced_nil⟩
  | append_singleton t c ih =>
    obtain ⟨depth, ht⟩ := ih h.left
    rcases paren_cases c with rfl | rfl | hplain
    · exact ⟨depth + 1, ht.append_opening⟩
    · have hnonneg := h.excess_nonneg
      rw [excess_append, ht.excess_eq] at hnonneg
      cases depth with
      | zero => exact absurd hnonneg (by decide)
      | succ depth => exact ⟨depth, ht.append_closing⟩
    · exact ⟨depth, ht.append hplain.balanced⟩

theorem leavesOpen_iff : LeavesOpen depth t ↔ t.Rising ∧ t.excess = depth := by
  constructor
  · intro h
    exact ⟨h.rising, h.excess_eq⟩
  · rintro ⟨hrising, hexcess⟩
    obtain ⟨depth', h⟩ := hrising.exists_leavesOpen
    rw [h.excess_eq] at hexcess
    rwa [← Int.ofNat.inj hexcess]

theorem balanced_iff_rising : t.Balanced ↔ t.Rising ∧ t.excess = 0 := by
  rw [← Int.natCast_zero, ← leavesOpen_iff]
  constructor
  · exact .balanced
  · rintro ⟨h⟩
    exact h

end LeavesOpen

section Partners

theorem rising_or (t : Text) : t.Rising ∨ ∃ u v : Text, t = u ++ ')' :: v ∧ u.Balanced := by
  induction t using List.reverseRecOn with
  | nil => exact .inl balanced_nil.rising
  | append_singleton t c ih =>
    rcases ih with hrising | ⟨u, v, rfl, hu⟩
    · obtain ⟨depth, ht⟩ := hrising.exists_leavesOpen
      rcases paren_cases c with rfl | rfl | hplain
      · exact .inl ht.append_opening.rising
      · cases depth with
        | zero => exact .inr ⟨t, [], rfl, balanced_iff_rising.mpr ⟨hrising, ht.excess_eq⟩⟩
        | succ depth => exact .inl ht.append_closing.rising
      · exact .inl (ht.append hplain.balanced).rising
    · exact .inr ⟨u, v ++ [c], by rw [List.append_assoc, List.cons_append], hu⟩

theorem hasClosing_iff : t.HasClosing ↔ ¬ t.Rising := by
  constructor
  · rintro ⟨inner, rest, rfl, hinner⟩ hrising
    have h : 0 ≤ excess (inner ++ [')']) := hrising _ ⟨rest, List.append_assoc _ _ _⟩
    rw [excess_append, hinner.excess_eq_zero] at h
    exact absurd h (by decide)
  · intro h
    exact (rising_or t).resolve_left h

theorem LeavesOpen.hasOpening (h : LeavesOpen (depth + 1) t) : t.HasOpening := by
  generalize hd : depth + 1 = d at h
  induction h generalizing depth with
  | balanced => cases hd
  | @opening depth' u v hu hv ih =>
    obtain rfl := Nat.succ.inj hd
    cases depth with
    | zero =>
      cases hv with
      | balanced hv => exact ⟨u, v, rfl, hv⟩
    | succ depth =>
      obtain ⟨rest, inner, rfl, hinner⟩ := ih rfl
      refine ⟨u ++ '(' :: rest, inner, ?_, hinner⟩
      rw [List.append_assoc, List.cons_append]

theorem Rising.hasOpening_iff (h : t.Rising) : t.HasOpening ↔ 0 < t.excess := by
  constructor
  · rintro ⟨rest, inner, rfl, hinner⟩
    have hrest := h.left.excess_nonneg
    rw [excess_append, excess_opening, hinner.excess_eq_zero]
    omega
  · intro hpos
    obtain ⟨depth, ht⟩ := h.exists_leavesOpen
    rw [ht.excess_eq] at hpos
    cases depth with
    | zero => exact absurd hpos (Int.lt_irrefl 0)
    | succ depth => exact ht.hasOpening

theorem Balanced.hasClosing (h : Balanced (u ++ '(' :: v)) : v.HasClosing := by
  rw [hasClosing_iff]
  intro hv
  have hu := h.rising.left.excess_nonneg
  have hv := hv.excess_nonneg
  have hzero := h.excess_eq_zero
  rw [excess_append, excess_opening] at hzero
  omega

theorem HasClosing.append (h : t.HasClosing) (u : Text) : (t ++ u).HasClosing := by
  obtain ⟨inner, rest, rfl, hinner⟩ := h
  exact ⟨inner, rest ++ u, by rw [List.append_assoc, List.cons_append], hinner⟩

theorem firstUnclosed_of_rising (hu : u.Balanced) (hv : v.Rising) : FirstUnclosed u v := by
  refine ⟨fun h => hasClosing_iff.mp h hv, ?_⟩
  rintro u' v' rfl
  exact hu.hasClosing.append _

theorem FirstUnclosed.unique (h : FirstUnclosed u v) (h' : FirstUnclosed u' v')
    (heq : u ++ '(' :: v = u' ++ '(' :: v') : u = u' := by
  rcases append_cons_trichotomy heq with ⟨rfl, _⟩ | ⟨w, rfl, rfl⟩ | ⟨w, rfl, rfl⟩
  · rfl
  · exact absurd (h'.first u w rfl) h.not_hasClosing
  · exact absurd (h.first u' w rfl) h'.not_hasClosing

end Partners

end Text

end DiceArith
