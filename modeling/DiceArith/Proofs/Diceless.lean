import DiceArith.Proofs.Determinism
import DiceArith.Proofs.RunningDepth
import DiceArith.Proofs.Splicing

/-! # Expressions without dice

A sum has parentheses around it and no `d` inside, so no pattern reaches from it into the text that
was kept, or from one kept text into the next. An expansion therefore has no dice left, and to
expand it once more is to check its length and its depth.
-/

namespace DiceArith

/-- A search finds no dice. -/
def Text.Diceless (t : Text) : Prop := ∀ p, .dice p ∉ segments t

namespace Text

variable {c : Char} {t u : Text}

theorem patternless_of_not_mem (h : 'd' ∉ t) : t.Patternless := by
  rintro u a b v _ _ rfl
  simp at h

theorem Patternless.of_cons (h : Patternless (c :: t)) : t.Patternless := by
  rintro u a b v ha hb rfl
  exact h (c :: u) a b v ha hb rfl

theorem Patternless.append_cons (ht : t.Patternless) (hu : u.Patternless)
    (hdigit : c.isDigit = false) (hd : c ≠ 'd') : (t ++ c :: u).Patternless := by
  intro v a b w ha hb heq
  rcases append_cons_cases heq with ⟨y, rfl⟩ | ⟨y, rfl, hy⟩
  · -- the first digit stands in `t`, and so do the `d` and the other digit
    rw [List.append_assoc, List.append_cancel_left_eq, List.cons_append] at heq
    obtain ⟨_, hy⟩ := List.cons.inj heq
    match y with
    | [] => exact hd (List.cons.inj hy).1
    | [_] =>
      obtain ⟨rfl, _⟩ := List.cons.inj (List.cons.inj hy).2
      cases hb.symm.trans hdigit
    | d :: b' :: y =>
      obtain ⟨rfl, hb'⟩ := List.cons.inj hy
      obtain ⟨rfl, _⟩ := List.cons.inj hb'
      exact ht v a b' y ha hb rfl
  · cases y with
    | nil =>
      obtain ⟨rfl, _⟩ := List.cons.inj hy
      cases ha.symm.trans hdigit
    | cons _ y =>
      obtain ⟨_, rfl⟩ := List.cons.inj hy
      exact hu y a b w ha hb rfl

theorem Patternless.diceless (h : t.Patternless) : t.Diceless := by
  intro p hp
  obtain ⟨l, l', hsplit⟩ := List.append_of_mem hp
  obtain ⟨⟨hcount, hcounts, hsides, hside⟩, _, _⟩ := Segment.alone_of_segments hsplit
  have htext := Segment.text_of_segments hsplit
  rw [Pattern.text] at htext
  obtain ⟨run, a, ha⟩ := List.eq_nil_or_concat p.count |>.resolve_left hcount
  obtain ⟨b, run', hb⟩ := List.exists_cons_of_ne_nil hsides
  refine h (Segment.source l ++ run) a b (run' ++ Segment.source l') ?_ ?_ ?_
  · exact hcounts a (by simp [ha])
  · exact hside b (by simp [hb])
  · rw [htext, ha, hb]
    simp

theorem Diceless.segments_eq (h : t.Diceless) : segments t = Segment.gap t := by
  have hsearch := Segment.search_segments t
  unfold Diceless at h
  generalize segments t = segs at h hsearch
  cases hsearch with
  | finish _ => rfl
  | @found _ _ _ _ p _ _ => exact absurd (by simp) (h p)

theorem Diceless.isDeterministic (h : t.Diceless) : isDeterministic t = true :=
  isDeterministic_iff.mpr fun p hp => absurd hp (h p)

end Text

open Text

theorem Rolled.not_mem_terms (values : List UInt32) : 'd' ∉ terms values := by
  intro hd
  rcases of_mem_terms hd with h | h | h <;> cases h

theorem Segment.Splices.patternless {segs : List (Segment Pattern)} {rolls : List Rolled}
    {u : Text} (h : Splices segs rolls u) (hchain : segs.IsChain Alternate)
    (htext : ∀ t, .text t ∈ segs → t.Patternless) : u.Patternless := by
  induction h with
  | nil => exact patternless_of_not_mem List.not_mem_nil
  | @text t segs rolls u hrest ih =>
    have ht := htext t List.mem_cons_self
    have hu := ih hchain.tail fun t' ht' => htext t' (List.mem_cons_of_mem _ ht')
    cases hrest with
    | nil => rwa [List.append_nil]
    | text => exact (List.isChain_cons_cons.mp hchain).1.elim
    | dice =>
      rw [List.cons_append] at hu ⊢
      exact ht.append_cons hu.of_cons rfl (by decide)
  | @dice p rolled segs rolls u _ _ ih =>
    have hu := ih hchain.tail fun t' ht' => htext t' (List.mem_cons_of_mem _ ht')
    refine Patternless.append_cons (patternless_of_not_mem ?_) hu rfl (by decide)
    exact List.not_mem_cons_of_ne_of_not_mem (by decide) (Rolled.not_mem_terms rolled.values)

namespace Expansion

variable {limits : Limits} {t : Text}

/-- Checks the bounds that have nothing to do with dice. -/
def checkSize (limits : Limits) (t : Text) : Except Error Unit :=
  if limits.maxLength.toNat < t.size then .error (.tooLong t.size limits.maxLength.toNat)
  else checkDepth limits.maxDepth.toNat t

theorem checkSize_eq_ok_iff : checkSize limits t = .ok () ↔
    t.size ≤ limits.maxLength.toNat ∧ t.Shallow limits.maxDepth.toNat := by
  unfold checkSize
  split
  · next hlong => simp [hlong]
  · next hshort => simp [checkDepth_eq_ok_iff, Nat.not_lt.mp hshort]

theorem prepare_eq_checkSize :
    prepare limits t = (do checkSize limits t; accept limits 0 0 (segments t)) := by
  unfold checkSize
  split
  · next hlong => exact prepare_of_long hlong
  · next hshort => exact prepare_of_short hshort

end Expansion

section Again

variable {σ : Type} {limits : Limits} {t : Text}

open Expansion

theorem Text.Diceless.expand_eq (h : t.Diceless) (r : Roller σ) (limits : Limits) (s : σ) :
    expand r limits t s =
      (((checkSize limits t).map fun _ => (⟨t, []⟩ : Expansion)).mapError .rejected, s) := by
  rw [expand, prepare_eq_checkSize, h.segments_eq]
  cases checkSize limits t with
  | error error => rfl
  | ok _ =>
    cases t with
    | nil => rfl
    | cons c t =>
      have hkept : ofSegments [.text (c :: t)] = ⟨c :: t, []⟩ := by
        simp [ofSegments, Segment.write, Segment.dice?]
      change (Except.ok (ofSegments [.text (c :: t)]), s) = _
      rw [hkept]
      rfl

theorem Expansion.Of.patternless {x : Expansion} {l : List (Segment Rolled)}
    (h : Of limits t x l) : x.text.Patternless := by
  have hsearch := Segment.search_segments t
  exact h.splices.patternless hsearch.isChain fun _ hu => (hsearch.text_mem hu).2

/-- No dice are left in an expansion, and expanding it again changes nothing and rolls nothing. -/
theorem expand_diceless {r : Roller σ} {s : σ} {x : Expansion}
    (h : (expand r limits t s).1 = .ok x) :
    x.text.Diceless ∧ isDeterministic x.text = true ∧
    ∀ (σ' : Type) (r' : Roller σ') (limits' : Limits) (s' : σ'),
      expand r' limits' x.text s' = (.ok ⟨x.text, []⟩, s') ↔
        x.text.size ≤ limits'.maxLength.toNat ∧ x.text.Shallow limits'.maxDepth.toNat := by
  obtain ⟨l, hl⟩ := of_expand (Prod.ext h rfl)
  have hdiceless := hl.patternless.diceless
  refine ⟨hdiceless, hdiceless.isDeterministic, fun σ' r' limits' s' => ?_⟩
  rw [hdiceless.expand_eq, ← checkSize_eq_ok_iff]
  cases checkSize limits' x.text with
  | error error => simp [Except.mapError]
  | ok _ => simp [Except.mapError]

theorem expand_diceless_sum :
    (expand .sequence .standard "2d6d8".toList [3, 5, 7]).1 =
      .ok ⟨"(3 + 5)d8".toList, [⟨⟨2, 6⟩, [3, 5]⟩]⟩ ∧
    segments "(3 + 5)d8".toList = [.text "(3 + 5)d8".toList] ∧
    Text.Diceless "(3 + 5)d8".toList ∧ isDeterministic "(3 + 5)d8".toList = true ∧
    expand .sequence ⟨0, 0, 9, 1⟩ "(3 + 5)d8".toList [7] = (.ok ⟨"(3 + 5)d8".toList, []⟩, [7]) := by
  have hexpand : (expand .sequence .standard "2d6d8".toList [3, 5, 7]).1 =
      .ok ⟨"(3 + 5)d8".toList, [⟨⟨2, 6⟩, [3, 5]⟩]⟩ := by decide +kernel
  obtain ⟨hdiceless, hdeterministic, hagain⟩ := expand_diceless hexpand
  refine ⟨hexpand, hdiceless.segments_eq, hdiceless, hdeterministic, (hagain _ _ _ _).mpr ⟨?_, ?_⟩⟩
  · decide +kernel
  · exact checkDepth_eq_ok_iff.mp (by decide +kernel)

end Again

end DiceArith
