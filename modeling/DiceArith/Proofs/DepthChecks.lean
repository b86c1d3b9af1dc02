import DiceArith.Proofs.OutermostGroups
import DiceArith.Proofs.RunningDepth

/-! # Two checks of depth

The depth check ignores a parenthesis that closes nothing, where the strict scan stops. Before the
first such parenthesis the depth of a text is what it leaves open, so both find the same parenthesis
too deep; after it only the depth check finds any. Where the strict scan does not stop at a
parenthesis that closes nothing, the two therefore agree.
-/

namespace DiceArith

open Bracketing (ofText)

namespace Text

/-- The parenthesis after a text is the first one that closes nothing. -/
structure FirstUnopened (before : Text) : Prop where
  not_hasOpening : ¬ before.HasOpening
  first : ∀ u v : Text, before = u ++ ')' :: v → u.HasOpening

/-- The scan stops after `before`, the depth check only after `deep`. -/
structure Overlooked (max : Nat) (t before deep : Text) : Prop where
  first : before.FirstUnopened
  earlier : ∃ w, deep = before ++ ')' :: w
  prefix_deep : deep ++ ['('] <+: t
  refused : checkDepth max t = .error (.tooDeep (.byteAt deep.size) max)

variable {max : Nat} {t u v before deep : Text}

theorem firstUnopened_iff : t.FirstUnopened ↔ t.Balanced := by
  constructor
  · rintro ⟨hopening, hfirst⟩
    rcases rising_or t with hrising | ⟨u, v, rfl, hu⟩
    · rw [hrising.hasOpening_iff] at hopening
      have hnonneg := hrising.excess_nonneg
      exact balanced_iff_rising.mpr ⟨hrising, by omega⟩
    · have hpos := hu.rising.hasOpening_iff.mp (hfirst u v rfl)
      rw [hu.excess_eq_zero] at hpos
      exact absurd hpos (Int.lt_irrefl 0)
  · intro h
    refine ⟨?_, ?_⟩
    · rw [h.rising.hasOpening_iff, h.excess_eq_zero]
      exact Int.lt_irrefl 0
    · rintro u v rfl
      have hnonneg : 0 ≤ excess (u ++ [')']) := h.rising _ ⟨v, List.append_assoc _ _ _⟩
      rw [excess_append, excess_closing, excess_nil] at hnonneg
      exact h.rising.left.hasOpening_iff.mpr (by omega)

theorem Rising.depth_eq_excess (h : t.Rising) : (t.depth : Int) = t.excess := by
  induction t using List.reverseRecOn with
  | nil => rfl
  | append_singleton t c ih =>
    have ht := ih h.left
    have hnonneg := h.excess_nonneg
    rw [depth, depthFrom_concat, ← depth]
    rw [excess_append] at hnonneg ⊢
    rcases paren_cases c with rfl | rfl | hplain
    · rw [deepen_opening, excess_opening, excess_nil]
      omega
    · rw [excess_closing, excess_nil] at hnonneg ⊢
      rw [deepen_closing]
      omega
    · rw [deepen_plain hplain, hplain.excess_eq_zero]
      omega

/-- While nothing is closed that was not opened, the running depth counts what is open. -/
theorem nestedWithin_iff_shallow : t.NestedWithin max ↔ t.Rising ∧ t.Shallow max := by
  rw [nestedWithin_iff]
  constructor
  · intro h
    have hrising : t.Rising := fun u hu => (h u hu).1
    refine ⟨hrising, fun u hu => ?_⟩
    have hdepth := Rising.depth_eq_excess fun w hw => hrising w (hw.trans hu)
    have hle := (h u hu).2
    change depth u ≤ max
    omega
  · rintro ⟨hrising, hshallow⟩ u hu
    have hdepth := Rising.depth_eq_excess fun w hw => hrising w (hw.trans hu)
    have hle : depth u ≤ max := hshallow u hu
    exact ⟨hrising u hu, by omega⟩

end Text

open Text

variable {max : Nat} {t : Text} {error : Error}

theorem checkDepth_of_groups {span : Span} {bound : Nat}
    (h : groups (some max) t = .error (.tooDeep span bound)) :
    checkDepth max t = .error (.tooDeep span bound) := by
  cases groups_eq_error_iff.mp h with
  | @offends u _ v _ ht hu hc =>
    cases hc with
    | tooDeep hdeep =>
      obtain ⟨hrising, hshallow⟩ := nestedWithin_iff_shallow.mp (inoffensive_iff.mp hu)
      refine checkDepth_eq_error_iff.mpr ⟨u, v, ht, hshallow, ?_, rfl⟩
      have hdepth := hrising.depth_eq_excess
      rw [depth_concat_opening]
      unfold excess at hdepth
      omega

/-- The strict scan refuses what the depth check refuses, or it has stopped before. -/
theorem groups_of_checkDepth (h : checkDepth max t = .error error) :
    groups (some max) t = .error error ∨ ∃ before deep, t.Overlooked max before deep := by
  obtain ⟨deep, v, rfl, hshallow, hdeep, rfl⟩ := checkDepth_eq_error_iff.mp h
  rcases rising_or deep with hrising | ⟨before, w, rfl, hbefore⟩
  · left
    have hdepth := hrising.depth_eq_excess
    rw [depth_concat_opening] at hdeep
    refine groups_of_offends (nestedWithin_iff_shallow.mpr ⟨hrising, hshallow⟩) (.tooDeep ?_) v
    unfold excess at hdepth
    omega
  · right
    exact ⟨before, _, firstUnopened_iff.mpr hbefore, ⟨w, rfl⟩,
      ⟨v, List.append_assoc _ _ _⟩, h⟩

theorem Text.Overlooked.size_lt {before deep : Text} (h : t.Overlooked max before deep) :
    before.size < deep.size := by
  obtain ⟨w, rfl⟩ := h.earlier
  have hpos := Char.utf8Size_pos ')'
  rw [size_append, size_cons]
  omega

theorem Text.Overlooked.groups_eq {before deep : Text} (h : t.Overlooked max before deep) :
    groups (some max) t = .error (.unbalanced (.byteAt before.size) .unopened) := by
  obtain ⟨hfirst, ⟨w, rfl⟩, ⟨v, rfl⟩, hrefused⟩ := h
  rw [List.append_assoc, List.append_assoc, List.cons_append] at hrefused ⊢
  rcases shallowFrom_or (Nat.zero_le max) before with hshallow | ⟨u, y, rfl, hu, hdeep⟩
  · have hrising := (firstUnopened_iff.mp hfirst).rising
    exact groups_of_offends (nestedWithin_iff_shallow.mpr ⟨hrising, hshallow⟩)
      (.unopened hfirst.not_hasOpening) _
  · -- the depth check would have stopped in `before`
    rw [List.append_assoc, List.cons_append] at hrefused
    rw [checkDepth_eq_error_iff.mpr ⟨u, _, rfl, hu, hdeep, rfl⟩] at hrefused
    obtain ⟨hspan, _⟩ := Error.tooDeep.inj (Except.error.inj hrefused)
    have hsize : u.size = size (u ++ '(' :: y ++ ')' :: w) := congrArg Span.start hspan
    have hpos := Char.utf8Size_pos '('
    rw [size_append, size_append, size_cons] at hsize
    omega

theorem exists_scan_check {u : Text} (h : u.NestedWithin max) (v : Text) : ∃ start spans,
    groups (some max) (u ++ v) =
      (Nesting.scan (some max) u.depth start u.size (ofText v)).map (spans ++ ·) ∧
    checkDepth max (u ++ v) = Nesting.check max u.depth u.size (ofText v) := by
  obtain ⟨hrising, hshallow⟩ := nestedWithin_iff_shallow.mp h
  obtain ⟨depth, start, spans, hstate, hscan⟩ := Nesting.exists_state h
  have hdepth : depth = u.depth := by
    have hopen := hstate.leavesOpen.excess_eq
    have hcount := hrising.depth_eq_excess
    omega
  refine ⟨start, spans, ?_, ?_⟩
  · rw [groups, hscan, hdepth]
  · rw [checkDepth, Nesting.check_append hshallow, Nat.zero_add]
    rfl

theorem checkDepth_of_not_stopped {result : Except Error (List Span)}
    (h : groups (some max) t = result)
    (hdeep : ∀ span bound, result ≠ .error (.tooDeep span bound))
    (hunopened : ∀ span, result ≠ .error (.unbalanced span .unopened)) :
    checkDepth max t = .ok () := by
  subst h
  cases hcheck : checkDepth max t with
  | ok => rfl
  | error error =>
    obtain ⟨_, _, _, _, _, rfl⟩ := checkDepth_eq_error_iff.mp hcheck
    rcases groups_of_checkDepth hcheck with hgroups | ⟨before, deep, hoverlooked⟩
    · exact absurd hgroups (hdeep _ _)
    · exact absurd hoverlooked.groups_eq (hunopened _)

theorem checkDepth_mono {max' : Nat} (hle : max ≤ max') (h : checkDepth max t = .ok ()) :
    checkDepth max' t = .ok () := by
  rw [checkDepth_eq_ok_iff] at h ⊢
  exact fun u hu => (h u hu).trans hle

theorem groups_of_shallow {max' : Nat} (h : t.Shallow max) (hle : max ≤ max') :
    groups (some max') t = groups (some max) t := by
  rcases (Nesting.scan_filters (Nesting.looser_some hle) 0 0 0 (.ofText t)).eq_or with
    ⟨error, hsize, herror⟩ | heq
  · cases groups_eq_error_iff.mp herror with
    | offends ht hu hc =>
      cases hc with
      | unopened => cases hsize
      | tooDeep => cases (checkDepth_eq_ok_iff.mpr h).symm.trans (checkDepth_of_groups herror)
    | unclosed => cases hsize
  · exact heq.symm

/-- Both checks count the same while the nesting is right. The depth check refuses more only where
the scan has stopped before, at a parenthesis that closes nothing. -/
theorem depth_checks_agree (max : Nat) (t : Text) :
    (∀ u v : Text, t = u ++ v → u.NestedWithin max → ∃ start spans,
      groups (some max) t =
        (Nesting.scan (some max) u.depth start u.size (ofText v)).map (spans ++ ·) ∧
      checkDepth max t = Nesting.check max u.depth u.size (ofText v)) ∧
    (∀ span bound, groups (some max) t = .error (.tooDeep span bound) →
      checkDepth max t = .error (.tooDeep span bound)) ∧
    (∀ error, checkDepth max t = .error error →
      ∃ deep : Text, error = .tooDeep (.byteAt deep.size) max ∧
        (groups (some max) t = .error error ∨
          ∃ before, t.Overlooked max before deep ∧ before.size < deep.size ∧
            groups (some max) t = .error (.unbalanced (.byteAt before.size) .unopened))) ∧
    (∀ spans, groups (some max) t = .ok spans → checkDepth max t = .ok ()) ∧
    (∀ span, groups (some max) t = .error (.unbalanced span .unclosed) →
      checkDepth max t = .ok ()) ∧
    ∀ max', max ≤ max' → checkDepth max t = .ok () → checkDepth max' t = .ok () := by
  refine ⟨?_, fun _ _ => checkDepth_of_groups, ?_, ?_, ?_, fun _ => checkDepth_mono⟩
  · rintro u v rfl hu
    exact exists_scan_check hu v
  · intro error h
    obtain ⟨deep, v, _, _, _, rfl⟩ := checkDepth_eq_error_iff.mp h
    rcases groups_of_checkDepth h with hgroups | ⟨before, deep', hoverlooked⟩
    · exact ⟨deep, rfl, .inl hgroups⟩
    · have hsame : Error.tooDeep (.byteAt deep.size) max = .tooDeep (.byteAt deep'.size) max :=
        Except.error.inj (h.symm.trans hoverlooked.refused)
      exact ⟨deep', hsame, .inr ⟨before, hoverlooked, hoverlooked.size_lt, hoverlooked.groups_eq⟩⟩
  · intro spans h
    exact checkDepth_of_not_stopped h (by simp) (by simp)
  · intro span h
    exact checkDepth_of_not_stopped h (by simp) (by simp)

theorem depth_checks_agree_unopened :
    (checkDepth 1 ")((".toList = .error (.tooDeep (.byteAt 2) 1) ∧
      ∃ before deep, Overlooked 1 ")((".toList before deep ∧ before.size < deep.size ∧
        groups (some 1) ")((".toList = .error (.unbalanced (.byteAt before.size) .unopened)) ∧
    (groups (some 1) "((1".toList = .error (.tooDeep (.byteAt 1) 1) ∧
      checkDepth 1 "((1".toList = .error (.tooDeep (.byteAt 1) 1)) ∧
    (Text.NestedWithin 1 "(".toList ∧ ∃ start spans, groups (some 1) "((1".toList =
      (Nesting.scan (some 1) 1 start 1 (ofText "(1".toList)).map (spans ++ ·)) ∧
    (groups (some 1) "(1)".toList = .ok [⟨0, 3⟩] ∧ checkDepth 1 "(1)".toList = .ok ()) ∧
    groups (some 1) "(".toList = .error (.unbalanced (.byteAt 0) .unclosed) ∧
    checkDepth 1 "(".toList = .ok () ∧ checkDepth 2 "(".toList = .ok () := by
  obtain ⟨_, _, hrefused, _⟩ := depth_checks_agree 1 ")((".toList
  obtain ⟨hcounts, hdeep, _⟩ := depth_checks_agree 1 "((1".toList
  obtain ⟨_, _, _, haccepted, _⟩ := depth_checks_agree 1 "(1)".toList
  obtain ⟨_, _, _, _, hunclosed, hlooser⟩ := depth_checks_agree 1 "(".toList
  have hnested : Text.NestedWithin 1 "(".toList :=
    nestedWithin_iff_shallow.mpr ⟨(LeavesOpen.opening balanced_nil (.balanced balanced_nil)).rising,
      checkDepth_eq_ok_iff.mp (hunclosed _ rfl)⟩
  obtain ⟨deep, _, hgroups | ⟨before, hoverlooked⟩⟩ := hrefused _ rfl
  · cases hgroups
  obtain ⟨start, spans, hscan, _⟩ := hcounts "(".toList "(1".toList rfl hnested
  exact ⟨⟨rfl, before, deep, hoverlooked⟩, ⟨rfl, hdeep _ _ rfl⟩, ⟨hnested, start, spans, hscan⟩,
    ⟨rfl, haccepted _ rfl⟩, rfl, hunclosed _ rfl, hlooser 2 (by decide) (hunclosed _ rfl)⟩

end DiceArith
