import DiceArith.Proofs.Accounting
import DiceArith.Proofs.InRange
import DiceArith.Proofs.Totals

/-! # Faces

A roller that shows faces shows them in everything that is rolled with it: a set of dice, the dice
of an expression, the requests of a session. The generator is such a roller from every state, since
each half-word that it draws selects a face, whether it is then refused or not.
-/

namespace DiceArith

variable {α σ : Type}

structure Rolled.OnFaces (rolled : Rolled) : Prop where
  length : rolled.values.length = rolled.dice.count.toNat
  isFace : ∀ v ∈ rolled.values, IsFace rolled.dice.sides v

namespace Rolled.OnFaces

variable {rolled : Rolled}

theorem points_eq_total (h : rolled.OnFaces) :
    rolled.total.toNat = points rolled.values := by
  apply toNat_total
  apply points_lt_of_length
  rw [h.length]
  exact rolled.dice.count.toNat_lt.le

theorem count_le_total (h : rolled.OnFaces) : rolled.dice.count.toNat ≤ rolled.total.toNat := by
  rw [h.points_eq_total, ← h.length]
  apply length_le_points
  intro v hv
  exact UInt32.le_iff_toNat_le.mp (h.isFace v hv).1

theorem total_le (h : rolled.OnFaces) :
    rolled.total.toNat ≤ rolled.dice.count.toNat * rolled.dice.sides.toNat := by
  rw [h.points_eq_total, ← h.length]
  apply points_le_of_forall
  intro v hv
  exact UInt32.le_iff_toNat_le.mp (h.isFace v hv).2

end Rolled.OnFaces

namespace Roller

variable {r : Roller σ} {s s' : σ}

/-- Whatever is shown by a die that has a face is one of its faces. -/
def ShowsFaces (r : Roller σ) : Prop :=
  ∀ sides s value s', r.rollDie sides s = (some value, s') → sides ≠ 0 → IsFace sides value

theorem InRange.showsFaces (h : r.InRange) : r.ShowsFaces := by
  intro sides s value s' hdie hsides
  obtain ⟨value', s₁, hdie', hface⟩ := h sides s hsides
  obtain rfl := Option.some.inj (congrArg Prod.fst (hdie.symm.trans hdie'))
  exact hface

namespace ShowsFaces

theorem draw (hr : r.ShowsFaces) {n : Nat} {sides : UInt32} (hsides : sides ≠ 0)
    {values : List UInt32} (h : r.draw (List.replicate n sides) s = (some values, s')) :
    ∀ v ∈ values, IsFace sides v := by
  induction n generalizing s values with
  | zero =>
    obtain rfl := Option.some.inj (congrArg Prod.fst h)
    exact List.forall_mem_nil _
  | succ n ih =>
    obtain ⟨value, s₁, rest, hdie, hrest, rfl⟩ := of_draw_cons_some h
    exact List.forall_mem_cons.mpr ⟨hr _ _ _ _ hdie hsides, ih hrest⟩

theorem roll (hr : r.ShowsFaces) {dice : Dice} (hsides : dice.sides ≠ 0) {rolled : Rolled}
    (h : r.roll dice s = (some rolled, s')) : rolled.OnFaces := by
  obtain ⟨rfl, hlength⟩ := length_of_roll h
  unfold Roller.roll at h
  split at h
  · cases h
  · next values s₁ hdraw =>
    obtain ⟨hrolled, -⟩ := Prod.mk.inj h
    refine ⟨hlength, ?_⟩
    rw [← Option.some.inj hrolled] at hsides ⊢
    exact hr.draw hsides hdraw

theorem rollSegments (hr : r.ShowsFaces) {segs : List (Segment Dice)}
    (hsegs : ∀ dice, .dice dice ∈ segs → dice.sides ≠ 0) {l : List (Segment Rolled)}
    (h : r.rollSegments segs s = (some l, s')) {rolled : Rolled} (hrolled : .dice rolled ∈ l) :
    rolled.OnFaces := by
  induction segs generalizing s l with
  | nil =>
    obtain rfl := Option.some.inj (congrArg Prod.fst h)
    cases hrolled
  | cons segment segs ih =>
    have hrest := fun dice hdice => hsegs dice (List.mem_cons_of_mem _ hdice)
    cases segment with
    | text t =>
      obtain ⟨tail, htail, rfl⟩ := rollSegments_text h
      rcases List.mem_cons.mp hrolled with hhead | hrolled
      · cases hhead
      · exact ih hrest htail hrolled
    | dice dice =>
      obtain ⟨first, s₁, tail, hroll, htail, rfl⟩ := rollSegments_dice h
      rcases List.mem_cons.mp hrolled with hhead | hrolled
      · obtain rfl := Segment.dice.inj hhead
        exact hr.roll (hsegs dice List.mem_cons_self) hroll
      · exact ih hrest htail hrolled

theorem expand (hr : r.ShowsFaces) {limits : Limits} {t : Text} {x : Expansion}
    (h : expand r limits t s = (.ok x, s')) : ∀ rolled ∈ x.rolls, rolled.OnFaces := by
  intro rolled hrolled
  obtain ⟨accepted, l, hp, hroll, rfl⟩ := Expansion.exists_of_expand h
  refine hr.rollSegments ?_ hroll (Expansion.mem_rolls_ofSegments.mp hrolled)
  intro dice hdice
  exact Expansion.sides_ne_zero_of_prepare hp hdice

end ShowsFaces

def Unfailing (r : Roller σ) : Prop := ∀ sides s, ∃ value s', r.rollDie sides s = (some value, s')

namespace Unfailing

theorem draw (hr : r.Unfailing) (xs : List UInt32) (s : σ) :
    ∃ values s', r.draw xs s = (some values, s') := by
  induction xs generalizing s with
  | nil => exact ⟨[], s, rfl⟩
  | cons sides xs ih =>
    obtain ⟨value, s₁, hdie⟩ := hr sides s
    obtain ⟨values, s₂, hrest⟩ := ih s₁
    exact ⟨value :: values, s₂, by rw [draw_cons_of_some hdie, hrest]; rfl⟩

theorem step_ne_exhausted (hr : r.Unfailing) (A : Arithmetic α) (request : Request) (s : σ) :
    (Session.step A r request s).1 ≠ .failed .exhausted := by
  obtain ⟨values, s', hdraw⟩ := hr.draw request.demand s
  rw [Session.step_of_draw_some hdraw]
  exact Request.reply_some_ne_exhausted (length_of_draw hdraw)

end Unfailing

end Roller

/-- What is rolled shows faces, unless the dice have none or are refused. -/
inductive Reply.OnFaces : Request → Reply α → Prop
  | value {sides v} : (sides ≠ 0 → IsFace sides v) → OnFaces (.rollDie sides) (.value v)
  | rolled {x : Rolled} : (x.dice.sides ≠ 0 → x.OnFaces) → OnFaces (.roll x.dice) (.rolled x)
  | expanded {limits t x} : (∀ rolled ∈ x.rolls, rolled.OnFaces) →
      OnFaces (.expand limits t) (.expanded x)
  | evaluated {limits t ev} : (∀ rolled ∈ ev.rolls, rolled.OnFaces) →
      OnFaces (.evaluate limits t) (.evaluated ev)
  | rejected {request error} : OnFaces request (.failed (.rejected error))

namespace Session

variable {A : Arithmetic α} {r : Roller σ}

theorem evaluate_onFaces (hr : r.ShowsFaces) {limits : Limits} {t : Text} {s s' : σ}
    {ev : Evaluation α} (h : evaluate A r limits t s = (.ok ev, s')) :
    ∀ rolled ∈ ev.rolls, rolled.OnFaces := by
  rw [evaluate_eq_expand] at h
  obtain ⟨x, hx, hcalculated⟩ := Except.bind_eq_ok_iff.mp (congrArg Prod.fst h)
  rw [Expansion.rolls_of_calculated hcalculated]
  exact hr.expand (Prod.ext hx rfl)

theorem step_onFaces (hr : r.ShowsFaces) (hleft : r.Unfailing) (request : Request) (s : σ) :
    Reply.OnFaces request (step A r request s).1 := by
  have hne := hleft.step_ne_exhausted A request s
  cases request with
  | rollDie sides =>
    obtain ⟨value, s', hdie⟩ := hleft sides s
    rw [step, hdie]
    exact .value (hr _ _ _ _ hdie)
  | roll dice =>
    rw [step] at hne ⊢
    cases h : r.roll dice s with
    | mk rolled? s' =>
      cases rolled? with
      | none =>
        rw [h] at hne
        exact absurd rfl hne
      | some rolled =>
        obtain ⟨rfl, -⟩ := Roller.length_of_roll h
        exact .rolled fun hsides => hr.roll hsides h
  | expand limits t =>
    rw [step] at hne ⊢
    rcases h : expand r limits t s with ⟨(error | _) | x, s'⟩
    · exact .rejected
    · rw [h] at hne
      exact absurd rfl hne
    · exact .expanded (hr.expand h)
  | evaluate limits t =>
    rw [step] at hne ⊢
    rcases h : evaluate A r limits t s with ⟨(error | _) | ev, s'⟩
    · exact .rejected
    · rw [h] at hne
      exact absurd rfl hne
    · exact .evaluated (evaluate_onFaces hr h)

theorem run_onFaces (hr : r.ShowsFaces) (hleft : r.Unfailing) (requests : List Request) (s : σ) :
    Every (fun _ request answer => Reply.OnFaces request answer.1) s requests
      (run A r requests s) :=
  every_run (fun s request => step_onFaces hr hleft request s) requests s

end Session

namespace Generator

def next (s : UInt64) : UInt64 := s + increment

/-- A half-word selects a face, and no word wraps on the way to it. -/
structure Selects (sides half : UInt32) : Prop where
  scaled : (Generator.scaled half sides).toNat = half.toNat * sides.toNat
  threshold : ((0 - sides) % sides).toNat = (2 ^ 32 - sides.toNat) % sides.toNat
  value : (1 + face half sides).toNat = 1 + half.toNat * sides.toNat / 2 ^ 32
  isFace : IsFace sides (1 + face half sides)

theorem selects {sides : UInt32} (h : sides ≠ 0) (half : UInt32) : Selects sides half where
  scaled := toNat_scaled half sides
  threshold := by
    have hpos : 0 < sides.toNat := UInt32.lt_iff_toNat_lt.mp (UInt32.pos_iff_ne_zero.mpr h)
    have hlt := sides.toNat_lt
    rw [UInt32.toNat_mod, UInt32.toNat_sub, UInt32.toNat_zero]
    congr 1
    omega
  value := by
    rw [toNat_one_add_face half h, toNat_face]
  isFace := isFace_face half h

/-- The half-word that a die takes is the first one that is not refused. -/
theorem settle_eq_iterate (sides : UInt32) (s : UInt64) :
    ∃ k, settle sides s = next^[k] s ∧
      ∀ j ≤ k, accepted sides (half (next^[j] s)) = true ↔ j = k := by
  fun_induction settle sides s with
  | case1 s h =>
    refine ⟨0, rfl, ?_⟩
    intro j hj
    obtain rfl := Nat.le_zero.mp hj
    simpa using h
  | case2 s h ih =>
    obtain ⟨k, hk, hfirst⟩ := ih
    refine ⟨k + 1, ?_, ?_⟩
    · rw [hk, Function.iterate_succ_apply, next]
    · rintro (_ | j) hj
      · simpa using h
      · rw [Function.iterate_succ_apply, next, hfirst j (Nat.le_of_succ_le_succ hj)]
        exact Nat.succ_inj.symm

theorem rollDie_of_ne_zero {sides : UInt32} (h : sides ≠ 0) (s : UInt64) :
    rollDie sides s =
      (1 + face (half (settle sides (next s))) sides, settle sides (next s)) := by
  rw [rollDie, if_neg h, next]

end Generator

theorem Roller.unfailing_generator : generator.Unfailing := fun _ _ => ⟨_, _, rfl⟩

theorem Roller.unfailing_highest : highest.Unfailing := fun _ _ => ⟨_, _, rfl⟩

/-- The generator shows faces from whatever state it starts, and so would each half-word that it
draws. -/
theorem generator_shows_faces (A : Arithmetic α) :
    (∀ (limits : Limits) (t : Text) (seed : UInt64) (x : Expansion),
      (expand .generator limits t seed).1 = .ok x ∨ (expand .highest limits t ()).1 = .ok x →
      ∀ rolled ∈ x.rolls, rolled.OnFaces ∧ rolled.dice.count.toNat ≤ rolled.total.toNat ∧
        rolled.total.toNat ≤ rolled.dice.count.toNat * rolled.dice.sides.toNat) ∧
    (∀ (requests : List Request) (seed : UInt64),
      Session.Every (fun _ request answer => Reply.OnFaces request answer.1) seed requests
        (Session.run A .generator requests seed)) ∧
    (∀ requests : List Request,
      Session.Every (fun _ request answer => Reply.OnFaces request answer.1) () requests
        (Session.run A .highest requests ())) ∧
    ∀ (sides : UInt32) (s : UInt64), sides ≠ 0 → ∃ k,
      Generator.rollDie sides s =
        (1 + Generator.face (Generator.half (Generator.next^[k + 1] s)) sides,
          Generator.next^[k + 1] s) ∧
      ∀ j ≤ k, Generator.Selects sides (Generator.half (Generator.next^[j + 1] s)) ∧
        (Generator.accepted sides (Generator.half (Generator.next^[j + 1] s)) = true ↔ j = k) := by
  have hgenerator := Roller.inRange_generator.showsFaces
  have hhighest := Roller.inRange_highest.showsFaces
  refine ⟨?_, Session.run_onFaces hgenerator Roller.unfailing_generator,
    fun requests => Session.run_onFaces hhighest Roller.unfailing_highest requests (), ?_⟩
  · intro limits t seed x hx rolled hrolled
    have hfaces : rolled.OnFaces := by
      rcases hx with hx | hx
      · exact hgenerator.expand (Prod.ext hx rfl) rolled hrolled
      · exact hhighest.expand (Prod.ext hx rfl) rolled hrolled
    exact ⟨hfaces, hfaces.count_le_total, hfaces.total_le⟩
  · intro sides s hsides
    obtain ⟨k, hk, hfirst⟩ := Generator.settle_eq_iterate sides (Generator.next s)
    refine ⟨k, ?_, ?_⟩
    · rw [Generator.rollDie_of_ne_zero hsides, hk, Function.iterate_succ_apply]
    · intro j hj
      rw [Function.iterate_succ_apply]
      exact ⟨Generator.selects hsides _, hfirst j hj⟩

theorem generator_shows_faces_refused :
    (expand .generator .standard "2d6".toList 7).1 =
      .ok ⟨"(3 + 2)".toList, [⟨⟨2, 6⟩, [3, 2]⟩]⟩ ∧
    (⟨⟨2, 6⟩, [3, 2]⟩ : Rolled).OnFaces ∧
    (2147483649 : UInt32) ≠ 0 ∧
    Generator.accepted 2147483649 (Generator.half (Generator.next 8)) = false ∧
    ∃ k, 0 < k ∧ (Generator.rollDie 2147483649 8).2 = Generator.next^[k + 1] 8 ∧
      ∀ j ≤ k, Generator.Selects 2147483649 (Generator.half (Generator.next^[j + 1] 8)) := by
  obtain ⟨hexpand, _, _, hdie⟩ := generator_shows_faces (.free Empty)
  have htwo : (expand .generator .standard "2d6".toList 7).1 =
      .ok ⟨"(3 + 2)".toList, [⟨⟨2, 6⟩, [3, 2]⟩]⟩ := by
    decide +kernel
  have hsides : (2147483649 : UInt32) ≠ 0 := by decide
  have hrefused : Generator.accepted 2147483649 (Generator.half (Generator.next 8)) = false := by
    decide +kernel
  obtain ⟨hfaces, -⟩ := hexpand _ _ _ _ (.inl htwo) _ List.mem_cons_self
  obtain ⟨k, hk, hdraws⟩ := hdie _ 8 hsides
  refine ⟨htwo, hfaces, hsides, hrefused, k, ?_, congrArg Prod.snd hk,
    fun j hj => (hdraws j hj).1⟩
  rcases Nat.eq_zero_or_pos k with rfl | hpos
  · have haccepted := (hdraws 0 (Nat.le_refl 0)).2.mpr rfl
    rw [Function.iterate_one, hrefused] at haccepted
    cases haccepted
  · exact hpos

end DiceArith
