import Mathlib.Algebra.Group.Int.Defs
import Mathlib.Algebra.Group.Nat.Defs
import Mathlib.Data.Int.Notation
import Mathlib.Data.Int.DivMod
import Mathlib.Tactic.Common

/-! # 32-bit numbers

The value a C expression of type `int` or `uint32_t` has after its exact value
wrapped.
-/

namespace Basis

/-- The cast to `int`. -/
def toInt (x : ℤ) : ℤ := x.bmod (2 ^ 32)

/-- The cast to `uint32_t`. -/
def toU32 (x : ℤ) : ℤ := x % 2 ^ 32

variable {x : ℤ}

theorem toU32_of_range (h₁ : 0 ≤ x) (h₂ : x < 2 ^ 32) : toU32 x = x :=
  Int.emod_eq_of_lt h₁ h₂

theorem toInt_of_range (h₁ : -2 ^ 31 ≤ x) (h₂ : x < 2 ^ 31) : toInt x = x := by
  unfold toInt
  exact Int.bmod_eq_of_le (by omega) (by omega)

theorem toU32_toInt (x : ℤ) : toU32 (toInt x) = toU32 x := Int.bmod_emod

theorem toInt_bounds (x : ℤ) : -2 ^ 31 ≤ toInt x ∧ toInt x < 2 ^ 31 := by
  have h₁ := Int.le_bmod (x := x) (m := 2 ^ 32) (by decide)
  have h₂ := Int.bmod_lt (x := x) (m := 2 ^ 32) (by decide)
  unfold toInt
  omega

theorem toInt_add_wrap (x : ℤ) : toInt (x + 2 ^ 32) = toInt x :=
  Int.add_bmod_right x (2 ^ 32)

theorem toInt_mul_add (x y z : ℤ) : toInt (toInt x * y + z) = toInt (x * y + z) := by
  unfold toInt
  rw [Int.add_bmod, Int.bmod_mul_bmod, ← Int.add_bmod]

theorem toInt_nonneg (h₁ : -2 ^ 31 ≤ x) (h₂ : x < 2 ^ 32) (h : 0 ≤ toInt x) :
    0 ≤ x ∧ x < 2 ^ 31 := by
  by_cases hx : x < 2 ^ 31
  · rw [toInt_of_range h₁ hx] at h
    exact ⟨h, hx⟩
  · have hw : toInt x = toInt (x - 2 ^ 32) := by
      rw [← toInt_add_wrap (x - 2 ^ 32), Int.sub_add_cancel]
    rw [hw, toInt_of_range (by omega) (by omega)] at h
    omega

end Basis
