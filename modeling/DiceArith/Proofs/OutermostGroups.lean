import DiceArith.Proofs.Balance
import DiceArith.Proofs.Scanning
import DiceArith.Proofs.TighterLimits

/-! # Outermost groups

The strict scan counts open parentheses and remembers where the first of them is. That is enough
to find what a pairing of all parentheses would find: the groups that no other group encloses, or
the first parenthesis that spoils the pairing.
-/

namespace DiceArith

open Bracketing (ofText)

namespace Text

/-- Every beginning opens as many parentheses as it closes, or up to `max` more. -/
def NestedWithin (max : Nat) (t : Text) : Prop :=
  ∀ u : Text, u <+: t → u.count ')' ≤ u.count '(' ∧ u.count '(' ≤ u.count ')' + max

/-- The next parenthesis is deeper than `max`, or it closes nothing. -/
inductive Offends (max : Nat) (before : Text) : Char → Error → Prop
  | tooDeep : before.count ')' + max < before.count '(' + 1 →
      Offends max before '(' (.tooDeep (.byteAt before.size) max)
  | unopened : ¬ before.HasOpening →
      Offends max before ')' (.unbalanced (.byteAt before.size) .unopened)

/-- No parenthesis of a text offends. -/
def Inoffensive (max : Nat) (t : Text) : Prop :=
  ∀ (u : Text) (c : Char) (v : Text) (error : Error), t = u ++ c :: v → ¬ Offends max u c error

/-- The first parenthesis that offends or, where none does, the first one left open. -/
inductive FirstFault (max : Nat) (t : Text) : Error → Prop
  | offends {u c v error} : t = u ++ c :: v → u.Inoffensive max → Offends max u c error →
      FirstFault max t error
  | unclosed {u v} : t.Inoffensive max → t = u ++ '(' :: v → FirstUnclosed u v →
      FirstFault max t (.unbalanced (.byteAt u.size) .unclosed)

/-- Groups of a text, one after the other, with all of its parentheses. -/
structure Outermost (pos : Nat) (t : Text) (spans : List Span) : Prop where
  ordered : spans.Pairwise fun s s' => s.stop ≤ s'.start
  group : ∀ s ∈ spans, ∃ u inner v : Text, t = u ++ '(' :: (inner ++ ')' :: v) ∧
    inner.Balanced ∧ s = ⟨pos + u.size, pos + u.size + 1 + inner.size + 1⟩
  covered : ∀ (u : Text) (c : Char) (v : Text), t = u ++ c :: v → c = '(' ∨ c = ')' →
    ∃ s ∈ spans, s.start ≤ pos + u.size ∧ pos + u.size < s.stop

variable {max depth : Nat} {c : Char} {t u v : Text} {error : Error}

theorem nestedWithin_iff :
    t.NestedWithin max ↔ ∀ u : Text, u <+: t → 0 ≤ u.excess ∧ u.excess ≤ max := by
  have hcount : ∀ u : Text, u.count ')' ≤ u.count '(' ∧ u.count '(' ≤ u.count ')' + max ↔
      0 ≤ u.excess ∧ u.excess ≤ max := by
    intro u
    unfold excess
    omega
  simp only [NestedWithin, hcount]

theorem NestedWithin.rising (h : t.NestedWithin max) : t.Rising := fun u hu =>
  (nestedWithin_iff.mp h u hu).1

theorem NestedWithin.excess_le (h : t.NestedWithin max) : t.excess ≤ max :=
  (nestedWithin_iff.mp h t List.prefix_rfl).2

theorem NestedWithin.left (h : (t ++ u).NestedWithin max) : t.NestedWithin max := fun _ hw =>
  h _ (hw.trans (List.prefix_append t u))

theorem nestedWithin_nil : NestedWithin max [] := by
  intro u hu
  rw [List.prefix_nil.mp hu]
  exact ⟨Nat.zero_le _, Nat.zero_le _⟩

theorem NestedWithin.concat (h : t.NestedWithin max) (hleave : LeavesOpen depth (t ++ [c]))
    (hle : depth ≤ max) : (t ++ [c]).NestedWithin max := by
  rw [nestedWithin_iff] at h ⊢
  intro u hu
  rcases List.prefix_concat_iff.mp hu with rfl | hu
  · rw [hleave.excess_eq]
    omega
  · exact h u hu

theorem nestedWithin_or (max : Nat) (t : Text) : t.NestedWithin max ∨
    ∃ u c v error, t = u ++ c :: v ∧ u.NestedWithin max ∧ Offends max u c error := by
  induction t using List.reverseRecOn with
  | nil => exact .inl nestedWithin_nil
  | append_singleton t c ih =>
    rcases ih with hnested | ⟨u, d, v, error, rfl, hu, hd⟩
    · obtain ⟨depth, ht⟩ := hnested.rising.exists_leavesOpen
      have hexcess := ht.excess_eq
      have hmax := hnested.excess_le
      rcases paren_cases c with rfl | rfl | hplain
      · by_cases hle : depth + 1 ≤ max
        · exact .inl (hnested.concat ht.append_opening hle)
        · refine .inr ⟨t, '(', [], _, rfl, hnested, .tooDeep ?_⟩
          -- so far nothing offends, so the depth is what the counts differ by
          unfold excess at hexcess
          omega
      · cases depth with
        | zero =>
          refine .inr ⟨t, ')', [], _, rfl, hnested, .unopened ?_⟩
          rw [hnested.rising.hasOpening_iff, hexcess]
          exact Int.lt_irrefl 0
        | succ depth => exact .inl (hnested.concat ht.append_closing (by omega))
      · exact .inl (hnested.concat (ht.append hplain.balanced) (by omega))
    · exact .inr ⟨u, d, v ++ [c], error, by rw [List.append_assoc, List.cons_append], hu, hd⟩

theorem NestedWithin.inoffensive (h : t.NestedWithin max) : t.Inoffensive max := by
  rintro u c v error rfl hc
  have hu := h.left
  obtain ⟨hnonneg, hle⟩ := nestedWithin_iff.mp h (u ++ [c]) ⟨v, List.append_assoc _ _ _⟩
  cases hc with
  | tooDeep hdeep =>
    rw [excess_append, excess_opening, excess_nil] at hle
    unfold excess at hle
    omega
  | unopened hopening =>
    rw [excess_append, excess_closing, excess_nil] at hnonneg
    rw [hu.rising.hasOpening_iff] at hopening
    omega

theorem inoffensive_iff : t.Inoffensive max ↔ t.NestedWithin max := by
  constructor
  · intro h
    rcases nestedWithin_or max t with hnested | ⟨u, c, v, error, ht, _, hc⟩
    · exact hnested
    · exact absurd hc (h u c v error ht)
  · exact NestedWithin.inoffensive

end Text

namespace Nesting

open Text

inductive State : (depth start : Nat) → Text → Prop
  | outside {start t} : t.Balanced → State 0 start t
  | inside {depth u v} : u.Balanced → LeavesOpen depth v → State (depth + 1) u.size (u ++ '(' :: v)

variable {max depth start : Nat} {c : Char} {t : Text}

theorem State.leavesOpen (h : State depth start t) : LeavesOpen depth t := by
  cases h with
  | outside ht => exact .balanced ht
  | inside hu hv => exact .opening hu hv

theorem State.plain (h : State depth start t) (hc : Plain [c]) : State depth start (t ++ [c]) := by
  cases h with
  | outside ht => exact .outside (ht.append hc.balanced)
  | inside hu hv =>
    rw [List.append_assoc, List.cons_append]
    exact .inside hu (hv.append hc.balanced)

theorem State.opening (h : State depth start t) :
    State (depth + 1) (if depth = 0 then t.size else start) (t ++ ['(']) := by
  cases h with
  | outside ht => exact .inside ht (.balanced balanced_nil)
  | inside hu hv =>
    rw [List.append_assoc, List.cons_append]
    exact .inside hu hv.append_opening

theorem State.closing (h : State (depth + 1) start t) : State depth start (t ++ [')']) := by
  cases h with
  | @inside _ u v hu hv =>
    cases depth with
    | zero =>
      have hwhole := (LeavesOpen.opening hu hv).append_closing
      exact .outside (balanced_iff_rising.mpr ⟨hwhole.rising, hwhole.excess_eq⟩)
    | succ depth =>
      rw [List.append_assoc, List.cons_append]
      exact .inside hu hv.append_closing

theorem exists_state (h : t.NestedWithin max) : ∃ depth start spans, State depth start t ∧
    ∀ u : Text, scan (some max) 0 0 0 (ofText (t ++ u)) =
      (scan (some max) depth start t.size (ofText u)).map (spans ++ ·) := by
  induction t using List.reverseRecOn with
  | nil =>
    refine ⟨0, 0, [], .outside balanced_nil, fun u => ?_⟩
    rw [List.nil_append, size_nil]
    cases scan (some max) 0 0 0 (ofText u) <;> rfl
  | append_singleton t c ih =>
    obtain ⟨depth, start, spans, hstate, hscan⟩ := ih h.left
    simp only [List.append_assoc, List.singleton_append, hscan, size_append]
    -- one more character is one more step of the scan, and of the state that describes it
    rcases paren_cases c with rfl | rfl | hplain
    · have hleave := hstate.opening.leavesOpen.excess_eq
      have hle := h.excess_le
      have hnone : tooDeep? (some max) (depth + 1) (size t) = none := tooDeep?_eq_none (by omega)
      refine ⟨_, _, spans, hstate.opening, fun u => ?_⟩
      rw [scan_opening hnone]
      rfl
    · match depth with
      | 0 =>
        have hnonneg := h.rising.excess_nonneg
        rw [excess_append, hstate.leavesOpen.excess_eq] at hnonneg
        exact absurd hnonneg (by decide)
      | 1 =>
        -- no parenthesis is left open, so this is where an outermost group stops
        refine ⟨0, start, spans ++ [⟨start, size t + 1⟩], hstate.closing, fun u => ?_⟩
        change ((scan (some max) 0 start (size t + 1) (ofText u)).map _).map _ =
          (scan (some max) 0 start (size t + 1) (ofText u)).map _
        cases scan (some max) 0 start (size t + 1) (ofText u) <;> simp
      | depth + 2 => exact ⟨depth + 1, start, spans, hstate.closing, fun u => rfl⟩
    · refine ⟨depth, start, spans, hstate.plain hplain, fun u => ?_⟩
      rw [scan_cons hplain]
      rfl

end Nesting

section Groups

open Text Nesting

variable {max : Nat} {c : Char} {t u : Text} {error : Error}

theorem groups_of_offends (h : u.NestedWithin max) (hc : Offends max u c error) (v : Text) :
    groups (some max) (u ++ c :: v) = .error error := by
  obtain ⟨depth, start, spans, hstate, hscan⟩ := exists_state h
  have hexcess := hstate.leavesOpen.excess_eq
  rw [groups, hscan]
  cases hc with
  | tooDeep hdeep =>
    have hmax : max < depth + 1 := by
      unfold excess at hexcess
      omega
    rw [Bracketing.ofText_opening, scan]
    simp only [size_nil, Nat.add_zero, tooDeep?, if_pos hmax, Except.error_map]
  | unopened hopening =>
    cases depth with
    | zero => rfl
    | succ depth => exact absurd hstate.leavesOpen.hasOpening hopening

theorem groups_of_nestedWithin (h : t.NestedWithin max) :
    (t.Balanced ∧ ∃ spans, groups (some max) t = .ok spans) ∨
      ∃ u v : Text, t = u ++ '(' :: v ∧ u.Balanced ∧ v.Rising ∧
        groups (some max) t = .error (.unbalanced (.byteAt u.size) .unclosed) := by
  obtain ⟨depth, start, spans, hstate, hscan⟩ := exists_state h
  have hgroups := hscan []
  rw [List.append_nil] at hgroups
  cases hstate with
  | outside ht => exact .inl ⟨ht, _, hgroups⟩
  | inside hu hv => exact .inr ⟨_, _, rfl, hu, hv.rising, hgroups⟩

theorem exists_groups_iff : (∃ spans, groups (some max) t = .ok spans) ↔
    t.NestedWithin max ∧ t.count '(' = t.count ')' := by
  have hcount : t.count '(' = t.count ')' ↔ t.excess = 0 := by
    unfold excess
    omega
  rw [hcount]
  constructor
  · rintro ⟨spans, hok⟩
    rcases nestedWithin_or max t with hnested | ⟨u, c, v, error, rfl, hu, hc⟩
    · rcases groups_of_nestedWithin hnested with ⟨hbalanced, _⟩ | ⟨_, _, _, _, _, herror⟩
      · exact ⟨hnested, hbalanced.excess_eq_zero⟩
      · cases hok.symm.trans herror
    · cases hok.symm.trans (groups_of_offends hu hc v)
  · rintro ⟨hnested, hzero⟩
    rcases groups_of_nestedWithin hnested with ⟨_, hok⟩ | ⟨u, v, rfl, hu, hv, _⟩
    · exact hok
    · have hnonneg := hv.excess_nonneg
      rw [excess_append, excess_opening, hu.excess_eq_zero] at hzero
      omega

theorem groups_eq_error_iff : groups (some max) t = .error error ↔ t.FirstFault max error := by
  constructor
  · intro h
    rcases nestedWithin_or max t with hnested | ⟨u, c, v, error', rfl, hu, hc⟩
    · rcases groups_of_nestedWithin hnested with ⟨_, _, hok⟩ | ⟨u, v, ht, hu, hv, herror⟩
      · cases hok.symm.trans h
      · obtain rfl := Except.error.inj (herror.symm.trans h)
        exact .unclosed hnested.inoffensive ht (firstUnclosed_of_rising hu hv)
    · obtain rfl := Except.error.inj ((groups_of_offends hu hc v).symm.trans h)
      exact .offends rfl hu.inoffensive hc
  · rintro (⟨rfl, hu, hc⟩ | ⟨ht, rfl, hfirst⟩)
    · exact groups_of_offends (inoffensive_iff.mp hu) hc _
    · rcases groups_of_nestedWithin (inoffensive_iff.mp ht) with
        ⟨hbalanced, _⟩ | ⟨u, v, heq, hu, hv, herror⟩
      · exact absurd hbalanced.hasClosing hfirst.not_hasClosing
      · obtain rfl := hfirst.unique (firstUnclosed_of_rising hu hv) heq
        exact herror

end Groups

namespace Nest

open Text

theorem outermost_spans (n : Nest) (pos : Nat) : Outermost pos n.text (n.spans pos) := by
  induction n generalizing pos with
  | flat gap plain =>
    refine ⟨.nil, by simp [spans], ?_⟩
    rintro u c v (rfl : gap = _) hc
    exact absurd hc (not_or.mpr (plain c (by simp)))
  | group gap plain inner rest _ ihr =>
    -- the first group, and all that comes before the rest
    have htext : (group gap plain inner rest).text =
        gap ++ (('(' :: (inner.text ++ [')'])) ++ rest.text) := by
      simp [text]
    have hsize : Text.size ('(' :: (inner.text ++ [')'])) = 1 + inner.size + 1 := by
      simp only [size_cons, size_append, size_nil]
      rfl
    obtain ⟨hordered, hgroup, hcovered⟩ := ihr (pos + gap.size + 1 + inner.size + 1)
    refine ⟨?_, ?_, ?_⟩
    · refine List.pairwise_cons.mpr ⟨?_, hordered⟩
      intro s hs
      obtain ⟨u, _, _, _, _, rfl⟩ := hgroup s hs
      exact Nat.le_add_right _ _
    · refine List.forall_mem_cons.mpr ⟨⟨gap, inner.text, rest.text, rfl, ⟨inner, rfl⟩, rfl⟩, ?_⟩
      intro s hs
      obtain ⟨u, inner', v, hrest, hbalanced, rfl⟩ := hgroup s hs
      refine ⟨gap ++ (('(' :: (inner.text ++ [')'])) ++ u), inner', v, ?_, hbalanced, ?_⟩
      · simp [htext, hrest]
      · simp only [size_append, hsize, Nat.add_assoc]
    · intro u c v hwhole hc
      rw [htext] at hwhole
      rcases append_cons_cases hwhole with ⟨y, rfl⟩ | ⟨y, rfl, hpast⟩
      · exact absurd hc (not_or.mpr (plain c (by simp)))
      rcases append_cons_cases hpast with ⟨z, hz⟩ | ⟨z, rfl, hrest⟩
      · refine ⟨_, List.mem_cons_self, ?_, ?_⟩
        · rw [size_append]
          exact Nat.add_le_add_left (Nat.le_add_right _ _) pos
        · have hlt := congrArg Text.size hz
          have hpos := c.utf8Size_pos
          rw [hsize, size_append, size_cons] at hlt
          rw [size_append]
          dsimp only
          omega
      · obtain ⟨s, hs, hle, hlt⟩ := hcovered z c v hrest hc
        refine ⟨s, List.mem_cons_of_mem _ hs, ?_, ?_⟩
        · rw [size_append, size_append, hsize]
          omega
        · rw [size_append, size_append, hsize]
          omega

end Nest

theorem outermost_of_groups {max : Nat} {t : Text} {spans : List Span}
    (h : groups (some max) t = .ok spans) : t.Outermost 0 spans := by
  obtain ⟨n, rfl⟩ := Nest.exists_of_groups h
  -- without a bound on depth the same groups are found
  have hnone : groups (some max) n.text = groups none n.text := by
    rcases (Nesting.scan_filters Nesting.looser_none 0 0 0 (ofText n.text)).eq_or with
      ⟨error, _, herror⟩ | heq
    · cases h.symm.trans herror
    · exact heq
  rw [hnone, n.groups_text] at h
  obtain rfl := Except.ok.inj h
  exact n.outermost_spans 0

/-- Groups are found exactly when every beginning keeps the counts in order and the whole makes them
even; otherwise the first parenthesis at fault is refused. -/
theorem groups_exact (max : Nat) (t : Text) :
    ((∃ spans, groups (some max) t = .ok spans) ↔
      t.NestedWithin max ∧ t.count '(' = t.count ')') ∧
    (∀ spans, groups (some max) t = .ok spans → t.Outermost 0 spans) ∧
    ∀ error, groups (some max) t = .error error ↔ t.FirstFault max error :=
  ⟨exists_groups_iff, fun _ => outermost_of_groups, fun _ => groups_eq_error_iff⟩

theorem groups_exact_nested :
    groups (some 2) "(1)+((é))".toList = .ok [⟨0, 3⟩, ⟨4, 10⟩] ∧
    Text.Outermost 0 "(1)+((é))".toList [⟨0, 3⟩, ⟨4, 10⟩] ∧
    Text.FirstFault 2 "(1)+((2)".toList (.unbalanced (.byteAt 4) .unclosed) ∧
    Text.FirstFault 1 "(1)+((2)))".toList (.tooDeep (.byteAt 5) 1) := by
  have hgroups : groups (some 2) "(1)+((é))".toList = .ok [⟨0, 3⟩, ⟨4, 10⟩] := by decide +kernel
  refine ⟨hgroups, (groups_exact 2 _).2.1 _ hgroups, ?_, ?_⟩
  · exact ((groups_exact 2 _).2.2 _).mp (by decide +kernel)
  · exact ((groups_exact 1 _).2.2 _).mp (by decide +kernel)

end DiceArith
