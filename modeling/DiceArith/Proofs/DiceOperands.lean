import DiceArith.Evaluation
import DiceArith.Proofs.Calculation
import DiceArith.Proofs.ExpandedNesting
import DiceArith.Proofs.RolledSum

/-! # Dice as operands

An evaluation goes through text: rolls are written into the expression and all of it is read
again. What is read are the terminals of the expression with every set of dice replaced by a sum
in parentheses, so dice act as operands of the grammar that are worth what was rolled.
-/

namespace DiceArith

open Bracketing (ofText)

variable {α δ : Type}

namespace Segment

def Apart : Segment δ → Segment δ → Prop
  | text _, text _ => False
  | _, _ => True

theorem isChain_consText {c : Char} {l : List (Segment δ)} (h : l.IsChain Apart) :
    (consText c l).IsChain Apart := by
  match l with
  | [] => exact .singleton _
  | .text t :: l =>
    cases l with
    | nil => exact .singleton _
    | cons b l =>
      obtain ⟨hb, hl⟩ := List.isChain_cons_cons.mp h
      cases b with
      | text => exact hb.elim
      | dice d => exact List.isChain_cons_cons.mpr ⟨trivial, hl⟩
  | .dice d :: l => exact List.isChain_cons_cons.mpr ⟨trivial, h⟩

end Segment

theorem isChain_segments (t : Text) : (segments t).IsChain Segment.Apart := by
  fun_induction segments t with
  | case1 => exact .nil
  | case2 c t pattern rest _ ih =>
    rw [List.isChain_cons]
    refine ⟨fun b _ => ?_, ih⟩
    cases b <;> trivial
  | case3 c t _ ih => exact Segment.isChain_consText ih

namespace Segment

/-- Terminals that segments spell; a pattern is one terminal, and patterns are counted from `k`. -/
inductive Spell : Nat → List (Segment Pattern) → List (Terminal Nat) → Prop
  | nil {k} : Spell k [] []
  | text {k t ts segs us} : Spells t ts → Spell k segs us → Spell k (.text t :: segs) (ts ++ us)
  | dice {k p segs us} : Spell (k + 1) segs us → Spell k (.dice p :: segs) (.dice k :: us)

def terminals : Nat → List (Segment Pattern) → List (Option (Terminal Nat))
  | _, [] => []
  | k, text t :: segs => (ofText t).terminals ++ terminals k segs
  | k, dice _ :: segs => some (.dice k) :: terminals (k + 1) segs

/-- Segments are read as they are spelled, once neighbours stay apart. -/
theorem spell_iff {k : Nat} {segs : List (Segment Pattern)} {ts : List (Terminal Nat)}
    (hts : ts.IsChain Terminal.Apart) : Spell k segs ts ↔ terminals k segs = ts.map some := by
  induction segs generalizing k ts with
  | nil =>
    constructor
    · intro h
      cases h
      rfl
    · intro h
      obtain rfl : ts = [] := List.map_eq_nil_iff.mp h.symm
      exact .nil
  | cons segment segs ih =>
    cases segment with
    | text t =>
      constructor
      · intro h
        cases h with
        | @text _ _ us _ ws hu hw =>
          obtain ⟨hus, hws, _⟩ := List.isChain_append.mp hts
          rw [terminals, (spells_iff hus).mp hu, (ih hws).mp hw, List.map_append]
      · intro h
        obtain ⟨us, ws, rfl, hu, hw⟩ := List.map_eq_append_iff.mp h.symm
        obtain ⟨hus, hws, _⟩ := List.isChain_append.mp hts
        exact .text ((spells_iff hus).mpr hu.symm) ((ih hws).mpr hw.symm)
    | dice p =>
      constructor
      · intro h
        cases h with
        | @dice _ _ _ us h =>
          have hus : us.IsChain Terminal.Apart := hts.tail
          rw [terminals, (ih hus).mp h, List.map_cons]
      · intro h
        obtain ⟨x, us, rfl, hx, hu⟩ := List.map_eq_cons_iff.mp h.symm
        obtain rfl := Option.some.inj hx
        exact .dice ((ih hts.tail).mpr hu.symm)

end Segment

section Substitution

variable (g : Nat → List UInt32)

/-- The terminals that replace one terminal when dice `k` show `g k`. -/
def Terminal.substitute : Terminal Nat → List (Terminal Nat)
  | dice k => Rolled.group (g k)
  | x => [x]

def substitute (xs : List (Option (Terminal Nat))) : List (Option (Terminal Nat)) :=
  xs.flatMap fun
    | none => [none]
    | some x => (x.substitute g).map some

variable {g}

theorem substitute_append (xs ys : List (Option (Terminal Nat))) :
    substitute g (xs ++ ys) = substitute g xs ++ substitute g ys := List.flatMap_append

theorem substitute_cons_some (x : Terminal Nat) (xs : List (Option (Terminal Nat))) :
    substitute g (some x :: xs) = (x.substitute g).map some ++ substitute g xs := rfl

theorem exists_map_some_substitute {xs : List (Option (Terminal Nat))}
    {P : List (Terminal Nat) → Prop} :
    (∃ us, substitute g xs = us.map some ∧ P us) ↔
      ∃ ts : List (Terminal Nat), xs = ts.map some ∧
        P (ts.flatMap (Terminal.substitute g)) := by
  induction xs generalizing P with
  | nil => simp [substitute]
  | cons x xs ih =>
    cases x with
    | none =>
      constructor
      · rintro ⟨us, h, _⟩
        have hmem : none ∈ us.map some := h ▸ List.mem_cons_self
        simp at hmem
      · rintro ⟨ts, h, _⟩
        have hmem : none ∈ ts.map some := h ▸ List.mem_cons_self
        simp at hmem
    | some x =>
      have hcons := @exists_map_some_append _ [x] xs fun ts =>
        P (ts.flatMap (Terminal.substitute g))
      rw [substitute_cons_some, exists_map_some_append, ih]
      exact hcons.symm

/-- Once it is read, a group that stands for dice is an operand worth its sum. -/
theorem shift_substitute (A : Arithmetic α) (ts : List (Terminal Nat))
    (outer : List (List (Token α))) (tokens : List (Token α)) :
    shift A (fun k => Rolled.sum A (g k)) (ts.flatMap (Terminal.substitute g)) outer tokens =
      shift A (fun k => Rolled.sum A (g k)) ts outer tokens := by
  induction ts generalizing outer tokens with
  | nil => rfl
  | cons x ts ih =>
    rw [List.flatMap_cons]
    cases x with
    | number n => exact ih _ _
    | dice k =>
      rw [Terminal.substitute, Rolled.shift_group, ih]
      rfl
    | operator op => exact ih _ _
    | opening => exact ih _ _
    | closing =>
      cases outer with
      | nil => rfl
      | cons before outer => exact congrArg (Option.bind _) (funext fun v => ih _ _)

theorem Lexeme.terminal?_ne_dice (lexeme : Lexeme) (k : Nat) :
    lexeme.terminal? ≠ some (.dice k) := by
  cases lexeme with
  | literal t =>
    intro h
    obtain ⟨_, _, hx⟩ := Option.map_eq_some_iff.mp h
    cases hx
  | symbol t =>
    intro h
    obtain ⟨_, _, hx⟩ := Option.map_eq_some_iff.mp h
    cases hx

theorem substitute_eq_self {xs : List (Option (Terminal Nat))} (h : ∀ k, some (.dice k) ∉ xs) :
    substitute g xs = xs := by
  induction xs with
  | nil => rfl
  | cons x xs ih =>
    have hxs : substitute g xs = xs := ih fun k hk => h k (List.mem_cons_of_mem _ hk)
    cases x with
    | none => exact congrArg (none :: ·) hxs
    | some x =>
      rw [substitute_cons_some, hxs]
      cases x with
      | dice k => exact absurd List.mem_cons_self (h k)
      | _ => rfl

theorem substitute_terminals (b : Bracketing) : substitute g b.terminals = b.terminals := by
  have hgap : ∀ (gap : Text) (k : Nat), some (.dice k) ∉ gap.terminals := by
    intro gap k hk
    obtain ⟨lexeme, _, hx⟩ := List.mem_map.mp hk
    exact lexeme.item.terminal?_ne_dice k hx
  refine substitute_eq_self fun k => ?_
  induction b with
  | flat gap => exact hgap gap k
  | opening gap rest ih | closing gap rest ih =>
    intro hk
    rcases List.mem_append.mp hk with hk | hk
    · exact hgap gap k hk
    · rcases List.mem_cons.mp hk with hk | hk
      · cases hk
      · exact ih hk

end Substitution

theorem Bracketing.terminals_append {b : Bracketing} (hb : b.Plain) {u : Text}
    (hu : u = [] ∨ ∃ v, u = '(' :: v) :
    ((ofText (b.toText ++ u)).terminals : List (Option (Terminal δ))) =
      b.terminals ++ (ofText u).terminals := by
  induction b with
  | flat gap =>
    rw [toText]
    rcases hu with rfl | ⟨v, rfl⟩
    · rw [List.append_nil, ofText_flat hb]
      simp [ofText, terminals]
    · rw [ofText_append_opening hb]
      simp [terminals]
  | opening gap rest ih =>
    rw [toText, List.append_assoc, List.cons_append, ofText_append_opening hb.1]
    simp [terminals, ih hb.2]
  | closing gap rest ih =>
    rw [toText, List.append_assoc, List.cons_append, ofText_append_closing hb.1]
    simp [terminals, ih hb.2]

theorem Text.terminals_append {t u : Text} (hu : u = [] ∨ ∃ v, u = '(' :: v) :
    ((ofText (t ++ u)).terminals : List (Option (Terminal δ))) =
      (ofText t).terminals ++ (ofText u).terminals := by
  have h := Bracketing.terminals_append (δ := δ) (Bracketing.plain_ofText t) hu
  rwa [Bracketing.toText_ofText] at h

theorem Rolled.terminals_text {rolled : Rolled} (hne : rolled.values ≠ []) (u : Text) :
    ((ofText (rolled.text ++ u)).terminals : List (Option (Terminal δ))) =
      (group rolled.values).map some ++ (ofText u).terminals := by
  rw [text_eq, List.cons_append, Bracketing.ofText_opening, List.append_assoc,
    List.singleton_append, Bracketing.ofText_append_closing (plain_terms _)]
  simp [Bracketing.terminals, terminals_terms hne, group]

/-- An expansion is read as its expression is, sums standing for patterns. -/
theorem Segment.Expands.terminals {limits : Limits} {segs : List (Segment Pattern)}
    {l : List (Segment Rolled)} (h : List.Forall₂ (Expands limits) segs l)
    (hsegs : segs.IsChain Apart) {g : Nat → List UInt32} {k : Nat}
    (hg : ∀ i rolled, (l.filterMap dice?)[i]? = some rolled → g (k + i) = rolled.values) :
    (ofText (l.flatMap (write Rolled.text))).terminals =
      substitute g (Segment.terminals k segs) := by
  induction h generalizing k with
  | nil => simp [ofText, Bracketing.terminals, Segment.terminals, substitute]
  | @cons a b segs l hab hrest ih =>
    cases hab with
    | text t =>
      have hopening : l.flatMap (write Rolled.text) = [] ∨
          ∃ v, l.flatMap (write Rolled.text) = '(' :: v := by
        cases hrest with
        | nil => exact .inl rfl
        | cons hnext _ =>
          cases hnext with
          | text u => exact (List.isChain_cons_cons.mp hsegs).1.elim
          | dice => exact .inr ⟨_, rfl⟩
      have htail := ih hsegs.tail hg
      rw [List.flatMap_cons, write, Text.terminals_append hopening, htail, Segment.terminals,
        substitute_append, substitute_terminals]
    | @dice p rolled hrolls =>
      have hhere : g k = rolled.values := hg 0 rolled rfl
      have htail := ih (k := k + 1) hsegs.tail fun i rolled hi => by
        rw [Nat.add_assoc, Nat.add_comm 1]
        exact hg (i + 1) rolled hi
      rw [List.flatMap_cons, write, Rolled.terminals_text hrolls.values_ne_nil, htail,
        Segment.terminals, substitute_cons_some, Terminal.substitute, hhere]

def Expansion.values (x : Expansion) (k : Nat) : List UInt32 := (x.rolls[k]?).elim [] Rolled.values

theorem Expansion.Of.terminals {limits : Limits} {t : Text} {x : Expansion}
    {l : List (Segment Rolled)} (h : Of limits t x l) :
    (ofText x.text).terminals = substitute x.values (Segment.terminals 0 (segments t)) := by
  obtain ⟨rfl, _, _, hexp, _⟩ := h
  refine Segment.Expands.terminals hexp (isChain_segments t) fun i rolled hi => ?_
  have hroll : (ofSegments l).rolls[i]? = some rolled := hi
  rw [Nat.zero_add, values, hroll]
  rfl

namespace Text

/-- A text of the grammar in which dice patterns are operands. -/
def DiceDerivable (t : Text) : Prop := ∃ ts, Segment.Spell 0 (segments t) ts ∧ Derives .chain ts

/-- A parse tree whose leaf `dice k` is the pattern with `k` others before it. -/
def DiceTree (t : Text) (e : Tree Nat) : Prop :=
  ∃ ts k, Segment.Spell 0 (segments t) ts ∧ Parses k ts e

theorem diceDerivable_iff {t : Text} : t.DiceDerivable ↔ ∃ e, t.DiceTree e := by
  constructor
  · rintro ⟨ts, hs, hd⟩
    obtain ⟨k, e, he⟩ := derives_iff_parses.mp hd
    exact ⟨e, ts, k, hs, he⟩
  · rintro ⟨e, ts, k, hs, he⟩
    exact ⟨ts, hs, he.derives⟩

theorem DiceTree.unique {t : Text} {e e' : Tree Nat} (h : t.DiceTree e) (h' : t.DiceTree e') :
    e = e' := by
  obtain ⟨ts, k, hs, he⟩ := h
  obtain ⟨ts', k', hs', he'⟩ := h'
  have hread := (Segment.spell_iff he.apart.1).mp hs
  have hread' := (Segment.spell_iff he'.apart.1).mp hs'
  exact he.unique_of_map he' (hread.symm.trans hread')

end Text

theorem Expansion.Of.calculate_eq_ok_iff {limits : Limits} {t : Text} {x : Expansion}
    {l : List (Segment Rolled)} (h : Of limits t x l) {A : Arithmetic α} {v : α} :
    calculate A x.text = .ok v ↔
      ∃ e, t.DiceTree e ∧ e.value A (fun k => Rolled.sum A (x.values k)) = v := by
  rw [calculate_eq_ok_iff_shift (f := fun k => Rolled.sum A (x.values k)), h.terminals,
    exists_map_some_substitute]
  simp only [shift_substitute, shift_eq_some_iff]
  constructor
  · rintro ⟨ts, hts, k, e, he, hv⟩
    exact ⟨e, ⟨ts, k, (Segment.spell_iff he.apart.1).mpr hts, he⟩, hv⟩
  · rintro ⟨e, ⟨ts, k, hs, he⟩, hv⟩
    exact ⟨ts, (Segment.spell_iff he.apart.1).mp hs, k, e, he, hv⟩

section Evaluation

variable {σ : Type} {A : Arithmetic α} {r : Roller σ} {limits : Limits} {t : Text} {s s' : σ}
  {x : Expansion}

theorem evaluate_eq_ok_iff (h : expand r limits t s = (.ok x, s')) {ev : Evaluation α} :
    (evaluate A r limits t s).1 = .ok ev ↔ ev.expanded = x.text ∧ ev.rolls = x.rolls ∧
      calculateWithin A limits.forExpanded x.text = .ok ev.result := by
  obtain ⟨expanded, result, rolls⟩ := ev
  rw [evaluate, h]
  dsimp only
  cases calculateWithin A limits.forExpanded x.text with
  | error error => simp
  | ok v => simp [eq_comm, and_comm, and_left_comm]

/-- With its dice rolled, an expression is evaluated exactly when it belongs to the grammar, and its
parse tree gives the result. -/
theorem evaluate_grammar (A : Arithmetic α) (ht : t.Addressable)
    (h : expand r limits t s = (.ok x, s')) :
    x.rolls.length = ((segments t).filterMap Segment.dice?).length ∧
    ((∃ ev, (evaluate A r limits t s).1 = .ok ev) ↔ t.DiceDerivable) ∧
    (t.DiceDerivable ↔ ∃! e, t.DiceTree e) ∧
    ∀ ev, (evaluate A r limits t s).1 = .ok ev ↔ ev.expanded = x.text ∧ ev.rolls = x.rolls ∧
      ∃ e, t.DiceTree e ∧ e.value A (fun k => Rolled.sum A (x.values k)) = ev.result := by
  obtain ⟨l, hx⟩ := Expansion.of_expand h
  have hev : ∀ ev, (evaluate A r limits t s).1 = .ok ev ↔
      ev.expanded = x.text ∧ ev.rolls = x.rolls ∧
        ∃ e, t.DiceTree e ∧ e.value A (fun k => Rolled.sum A (x.values k)) = ev.result := by
    intro ev
    rw [evaluate_eq_ok_iff h, hx.calculateWithin_eq ht, hx.calculate_eq_ok_iff]
  refine ⟨?_, ?_, ?_, hev⟩
  · rw [hx.eq_ofSegments]
    exact Segment.Expands.length_filterMap hx.expands
  · rw [Text.diceDerivable_iff]
    constructor
    · rintro ⟨ev, h⟩
      obtain ⟨_, _, e, he, _⟩ := (hev ev).mp h
      exact ⟨e, he⟩
    · rintro ⟨e, he⟩
      exact ⟨⟨x.text, _, x.rolls⟩, (hev _).mpr ⟨rfl, rfl, e, he, rfl⟩⟩
  · rw [Text.diceDerivable_iff]
    constructor
    · intro h
      exact existsUnique_of_exists_of_unique h fun _ _ => Text.DiceTree.unique
    · intro h
      exact h.exists

end Evaluation

theorem evaluate_grammar_power :
    Text.Addressable "2*1d4**2d6".toList ∧
    expand .sequence .standard "2*1d4**2d6".toList [3, 5, 1] =
      (.ok ⟨"2*(3)**(5 + 1)".toList, [⟨⟨1, 4⟩, [3]⟩, ⟨⟨2, 6⟩, [5, 1]⟩]⟩, []) ∧
    ∃ e, Text.DiceTree "2*1d4**2d6".toList e ∧
      e.value (.free Empty) (fun k => Rolled.sum (.free Empty)
        (Expansion.values ⟨"2*(3)**(5 + 1)".toList, [⟨⟨1, 4⟩, [3]⟩, ⟨⟨2, 6⟩, [5, 1]⟩]⟩ k)) =
      .node .multiply (.number (.ofNat 2)) (.node .power (.number (.ofNat 3))
        (.node .add (.number (.ofNat 5)) (.number (.ofNat 1)))) := by
  have hsize : Text.Addressable "2*1d4**2d6".toList := by
    unfold Text.Addressable
    decide
  have hexpand : expand .sequence .standard "2*1d4**2d6".toList [3, 5, 1] =
      (.ok ⟨"2*(3)**(5 + 1)".toList, [⟨⟨1, 4⟩, [3]⟩, ⟨⟨2, 6⟩, [5, 1]⟩]⟩, []) := by
    decide +kernel
  obtain ⟨_, _, _, hev⟩ := evaluate_grammar (.free Empty) hsize hexpand
  obtain ⟨_, _, htree⟩ := (hev ⟨"2*(3)**(5 + 1)".toList, .node .multiply (.number (.ofNat 2))
    (.node .power (.number (.ofNat 3)) (.node .add (.number (.ofNat 5)) (.number (.ofNat 1)))),
    [⟨⟨1, 4⟩, [3]⟩, ⟨⟨2, 6⟩, [5, 1]⟩]⟩).mp (by decide +kernel)
  exact ⟨hsize, hexpand, htree⟩

end DiceArith
