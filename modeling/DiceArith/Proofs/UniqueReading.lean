import DiceArith.Proofs.Acceptance
import DiceArith.Proofs.ExpandedNesting

/-! # Reading rolls back

The values that were rolled for an expression can be read back from what it expands to. A sum has
no parenthesis inside, so the one after it ends it, and what separates two numerals is no digit.
-/

namespace DiceArith

namespace Text

variable {t t' u u' : Text}

theorem ofNat_injective : Function.Injective ofNat := Function.LeftInverse.injective toNat_ofNat

theorem append_inj_of_run {p : Char → Bool} (ht : ∀ c ∈ t, p c = true)
    (ht' : ∀ c ∈ t', p c = true) (hu : ∀ c ∈ u.head?, p c = false)
    (hu' : ∀ c ∈ u'.head?, p c = false) (h : t ++ u = t' ++ u') : t = t' ∧ u = u' := by
  have hrun := congrArg (List.takeWhile p) h
  rw [List.takeWhile_append_of_pos ht, List.takeWhile_append_of_pos ht', takeWhile_of_head hu,
    takeWhile_of_head hu', List.append_nil, List.append_nil] at hrun
  subst hrun
  exact ⟨rfl, List.append_cancel_left h⟩

theorem Plain.append_closing_inj (ht : t.Plain) (ht' : t'.Plain)
    (h : t ++ ')' :: u = t' ++ ')' :: u') : t = t' ∧ u = u' := by
  have hrun : ∀ {w : Text}, w.Plain → ∀ c ∈ w, (c != ')') = true :=
    fun hw c hc => bne_iff_ne.mpr (hw c hc).2
  obtain ⟨rfl, hu⟩ := append_inj_of_run (hrun ht) (hrun ht') (by simp) (by simp) h
  exact ⟨rfl, List.tail_eq_of_cons_eq hu⟩

end Text

namespace Rolled

def further : List UInt32 → Text
  | [] => []
  | v :: values => [' ', '+', ' '] ++ terms (v :: values)

theorem terms_cons (v : UInt32) (values : List UInt32) :
    terms (v :: values) = Text.ofNat v.toNat ++ further values := by
  cases values with
  | nil => rw [terms_singleton, further, List.append_nil]
  | cons v' values => rw [terms_cons_cons, further]

theorem head_further (values : List UInt32) :
    ∀ c ∈ (further values).head?, c.isDigit = false := by
  cases values with
  | nil => simp [further]
  | cons v values => simp [further]

theorem terms_cons_inj {v v' : UInt32} {values values' : List UInt32}
    (h : terms (v :: values) = terms (v' :: values')) :
    v = v' ∧ further values = further values' := by
  rw [terms_cons, terms_cons] at h
  obtain ⟨hv, hfurther⟩ := Text.append_inj_of_run (fun _ => Text.isDigit_of_mem_ofNat)
    (fun _ => Text.isDigit_of_mem_ofNat) (head_further values) (head_further values') h
  exact ⟨UInt32.toNat_inj.mp (Text.ofNat_injective hv), hfurther⟩

theorem further_injective : Function.Injective further := by
  intro values
  induction values with
  | nil =>
    intro values' h
    cases values' with
    | nil => rfl
    | cons v' values' => cases h
  | cons v values ih =>
    intro values' h
    cases values' with
    | nil => cases h
    | cons v' values' =>
      obtain ⟨rfl, hfurther⟩ := terms_cons_inj (List.append_cancel_left h)
      rw [ih hfurther]

theorem values_eq_of_terms {values values' : List UInt32} (hne : values ≠ []) (hne' : values' ≠ [])
    (h : terms values = terms values') : values = values' := by
  obtain ⟨v, rest, rfl⟩ := List.exists_cons_of_ne_nil hne
  obtain ⟨v', rest', rfl⟩ := List.exists_cons_of_ne_nil hne'
  obtain ⟨rfl, hfurther⟩ := terms_cons_inj h
  rw [further_injective hfurther]

end Rolled

variable {limits limits' : Limits}

theorem Pattern.Rolls.dice_eq {p : Pattern} {rolled rolled' : Rolled} (h : p.Rolls limits rolled)
    (h' : p.Rolls limits' rolled') : rolled.dice = rolled'.dice := by
  obtain ⟨_, hp⟩ := h.accepted
  obtain ⟨_, hp'⟩ := h'.accepted
  obtain ⟨hcount, hsides⟩ := dice_eq_ok_iff.mp (accept_eq_ok_iff.mp hp).1
  obtain ⟨hcount', hsides'⟩ := dice_eq_ok_iff.mp (accept_eq_ok_iff.mp hp').1
  rw [Dice.mk.injEq]
  exact ⟨UInt32.toNat_inj.mp (hcount.trans hcount'.symm),
    UInt32.toNat_inj.mp (hsides.trans hsides'.symm)⟩

theorem Segment.Expands.eq_of_write {segs : List (Segment Pattern)} {l l' : List (Segment Rolled)}
    (h : List.Forall₂ (Expands limits) segs l) (h' : List.Forall₂ (Expands limits') segs l')
    (ht : l.flatMap (write Rolled.text) = l'.flatMap (write Rolled.text)) : l = l' := by
  induction h generalizing l' with
  | nil =>
    cases h'
    rfl
  | cons hab _ ih =>
    cases h' with
    | cons hab' h' =>
      rw [List.flatMap_cons, List.flatMap_cons] at ht
      cases hab with
      | text t =>
        cases hab' with
        | text => rw [ih h' (List.append_cancel_left ht)]
      | @dice p rolled hp =>
        cases hab' with
        | @dice _ rolled' hp' =>
          simp only [write, Rolled.text_eq, List.cons_append, List.append_assoc,
            List.nil_append, List.cons.injEq, true_and] at ht
          obtain ⟨hterms, hrest⟩ := (Rolled.plain_terms rolled.values).append_closing_inj
            (Rolled.plain_terms rolled'.values) ht
          have hvalues : rolled.values = rolled'.values :=
            Rolled.values_eq_of_terms hp.values_ne_nil hp'.values_ne_nil hterms
          have hrolled : rolled = rolled' := by
            rw [Rolled.mk.injEq]
            exact ⟨hp.dice_eq hp', hvalues⟩
          rw [hrolled, ih h' hrest]

/-- Expansions of one expression are the same once their texts are, whatever rolled them. -/
theorem Expansion.Of.eq_of_text {t : Text} {x x' : Expansion} {l l' : List (Segment Rolled)}
    (h : Of limits t x l) (h' : Of limits' t x' l') (ht : x.text = x'.text) : x = x' := by
  obtain ⟨rfl, _, _, hexp, _⟩ := h
  obtain ⟨rfl, _, _, hexp', _⟩ := h'
  rw [Segment.Expands.eq_of_write hexp hexp' ht]

end DiceArith
