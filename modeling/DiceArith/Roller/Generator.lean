import DiceArith.Roller.Basic

/-! # The generator

A 64-bit counter with an odd increment, whose states are mixed into words. The low half
of a word is scaled to the sides of a die, and drawn again where scaling would be uneven.
-/

namespace DiceArith.Generator

def increment : UInt64 := 0x2d358dccaa6c78a5

def mask : UInt64 := 0x8bb84b93962eacc9

/-- The two halves of the product of a state and its masked form, combined. -/
def word (s : UInt64) : UInt64 :=
  let product := s.toNat * (s ^^^ mask).toNat
  UInt64.ofNat product ^^^ UInt64.ofNat (product >>> 64)

def half (s : UInt64) : UInt32 := (word s).toUInt32

def scaled (r sides : UInt32) : UInt64 := r.toUInt64 * sides.toUInt64

def face (r sides : UInt32) : UInt32 := (scaled r sides >>> 32).toUInt32

/-- Low products below `2 ^ 32 % sides` are refused, so that each face keeps equally many. -/
def accepted (sides r : UInt32) : Bool := (0 - sides) % sides ≤ (scaled r sides).toUInt32

theorem accepted_last (sides : UInt32) : accepted sides 0xffffffff = true := by
  have h : (scaled 0xffffffff sides).toUInt32 = 0 - sides := by
    simp only [scaled, UInt64.toUInt32_mul, UInt32.toUInt32_toUInt64]
    grind
  simp only [accepted, h, decide_eq_true_eq, UInt32.le_iff_toNat_le, UInt32.toNat_mod]
  exact Nat.mod_le _ _

/-- A state whose half-word no number of sides refuses. -/
def sink : UInt64 := 0x80cb5aa0356ea642

theorem half_sink : half sink = 0xffffffff := by decide +kernel

/-- The inverse of the increment modulo `2 ^ 64`. -/
def inverse : UInt64 := 0x32e25c49d2beaf2d

def distance (s : UInt64) : Nat := ((sink - s) * inverse).toNat

theorem distance_increment {s : UInt64} (h : s ≠ sink) :
    distance (s + increment) < distance s := by
  have h1 : increment * inverse = 1 := by decide
  have h2 : (sink - (s + increment)) * inverse = (sink - s) * inverse - 1 := by grind
  have h3 : (sink - s) * inverse ≠ 0 := by
    intro h0
    exact h (by grind)
  unfold distance
  rw [h2]
  generalize (sink - s) * inverse = x at h3
  have h4 : (1 : UInt64) ≤ x := by grind
  rw [UInt64.toNat_sub_of_le _ _ h4]
  have : x.toNat ≠ 0 := fun h => h3 (UInt64.toNat_inj.1 h)
  have : (1 : UInt64).toNat = 1 := rfl
  omega

/-- The first state from `s` on whose half-word is accepted. -/
def settle (sides : UInt32) (s : UInt64) : UInt64 :=
  if accepted sides (half s) then s else settle sides (s + increment)
termination_by distance s
decreasing_by
  refine distance_increment ?_
  rintro rfl
  simp_all [half_sink, accepted_last]

/-- The value of a die and the next state; without sides nothing is drawn. -/
def rollDie (sides : UInt32) (s : UInt64) : UInt32 × UInt64 :=
  if sides = 0 then (0, s)
  else
    let s := settle sides (s + increment)
    (1 + face (half s) sides, s)

end Generator

def Roller.generator : Roller UInt64 where
  rollDie sides s :=
    let (value, s) := Generator.rollDie sides s
    (some value, s)

end DiceArith
