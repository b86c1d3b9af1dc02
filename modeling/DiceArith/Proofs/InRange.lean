import DiceArith.Proofs.Drawing
import DiceArith.Roller.Generator

/-! # Rollers in range

A roller is in range when each die shows one of its faces, whatever was rolled before. Such a
roller never runs out. The generator is one, because a half-word times the sides of a die is less
than `2 ^ 32` times these sides.
-/

namespace DiceArith

def IsFace (sides value : UInt32) : Prop := 1 ≤ value ∧ value ≤ sides

theorem isFace_one_iff {value : UInt32} : IsFace 1 value ↔ value = 1 := by
  unfold IsFace
  constructor
  · rintro ⟨h, h'⟩
    exact UInt32.le_antisymm h' h
  · rintro rfl
    decide

namespace Roller

variable {σ : Type} {r : Roller σ}

/-- Every die that has a face shows one. -/
def InRange (r : Roller σ) : Prop :=
  ∀ sides s, sides ≠ 0 → ∃ value s', r.rollDie sides s = (some value, s') ∧ IsFace sides value

theorem InRange.draw (h : r.InRange) {xs : List UInt32} (hxs : ∀ sides ∈ xs, sides ≠ 0) (s : σ) :
    ∃ values s', r.draw xs s = (some values, s') ∧ List.Forall₂ IsFace xs values := by
  induction xs generalizing s with
  | nil => exact ⟨[], s, rfl, .nil⟩
  | cons sides xs ih =>
    obtain ⟨hsides, hxs⟩ := List.forall_mem_cons.mp hxs
    obtain ⟨value, s₁, hdie, hface⟩ := h sides s hsides
    obtain ⟨values, s₂, hdraw, hfaces⟩ := ih hxs s₁
    refine ⟨value :: values, s₂, ?_, .cons hface hfaces⟩
    rw [draw_cons_of_some hdie, hdraw]
    rfl

theorem one_le_of_ne_zero {sides : UInt32} (h : sides ≠ 0) : 1 ≤ sides := by
  rw [UInt32.le_iff_toNat_le]
  exact Nat.pos_of_ne_zero fun h0 => h (UInt32.toNat_inj.mp h0)

theorem inRange_highest : highest.InRange := fun sides s h =>
  ⟨sides, s, rfl, one_le_of_ne_zero h, UInt32.le_refl sides⟩

theorem inRange_constant_one : (constant 1).InRange := fun _ s h =>
  ⟨1, s, rfl, UInt32.le_refl 1, one_le_of_ne_zero h⟩

end Roller

namespace Generator

theorem toNat_scaled (half sides : UInt32) :
    (scaled half sides).toNat = half.toNat * sides.toNat := by
  have hprod : half.toNat * sides.toNat < 2 ^ 32 * 2 ^ 32 :=
    Nat.mul_lt_mul_of_lt_of_lt half.toNat_lt sides.toNat_lt
  rw [scaled, UInt64.toNat_mul, UInt32.toNat_toUInt64, UInt32.toNat_toUInt64]
  exact Nat.mod_eq_of_lt hprod

theorem toNat_face (half sides : UInt32) :
    (face half sides).toNat = half.toNat * sides.toNat / 2 ^ 32 := by
  have hprod : half.toNat * sides.toNat < 2 ^ 32 * 2 ^ 32 :=
    Nat.mul_lt_mul_of_lt_of_lt half.toNat_lt sides.toNat_lt
  have h32 : (32 : UInt64).toNat % 64 = 32 := rfl
  rw [face, UInt64.toNat_toUInt32, UInt64.toNat_shiftRight, toNat_scaled, h32,
    Nat.shiftRight_eq_div_pow]
  exact Nat.mod_eq_of_lt (Nat.div_lt_of_lt_mul hprod)

theorem face_lt (half : UInt32) {sides : UInt32} (h : sides ≠ 0) : face half sides < sides := by
  have hsides : 0 < sides.toNat := UInt32.lt_iff_toNat_lt.mp (UInt32.pos_iff_ne_zero.mpr h)
  rw [UInt32.lt_iff_toNat_lt, toNat_face]
  exact Nat.div_lt_of_lt_mul (Nat.mul_lt_mul_of_pos_right half.toNat_lt hsides)

theorem toNat_one_add_face (half : UInt32) {sides : UInt32} (h : sides ≠ 0) :
    (1 + face half sides).toNat = 1 + (face half sides).toNat := by
  have hlt := UInt32.lt_iff_toNat_lt.mp (face_lt half h)
  have hmax := sides.toNat_lt
  have h1 : (1 : UInt32).toNat = 1 := rfl
  rw [UInt32.toNat_add, h1]
  exact Nat.mod_eq_of_lt (by omega)

theorem isFace_face (half : UInt32) {sides : UInt32} (h : sides ≠ 0) :
    IsFace sides (1 + face half sides) := by
  have hlt := UInt32.lt_iff_toNat_lt.mp (face_lt half h)
  unfold IsFace
  rw [UInt32.le_iff_toNat_le, UInt32.le_iff_toNat_le, toNat_one_add_face half h]
  exact ⟨Nat.le_add_right 1 _, by omega⟩

end Generator

theorem Roller.inRange_generator : generator.InRange := by
  intro sides s h
  refine ⟨(Generator.rollDie sides s).1, (Generator.rollDie sides s).2, rfl, ?_⟩
  rw [Generator.rollDie, if_neg h]
  exact Generator.isFace_face _ h

end DiceArith
