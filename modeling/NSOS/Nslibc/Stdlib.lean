import NSOS.Basis.Congruential
import Mathlib.Data.Nat.Bitwise
import Mathlib.Data.UInt

/-! # Random numbers

`rand` is a congruential generator whose state is its last result. Its results
repeat after `2 ^ 31` calls and its lowest bytes after `256` of them, neither
of them before.
-/

namespace NSOS.Nslibc

open Basis

/-- `srand`. It yields the new `randseed`. -/
def srand (seed : UInt32) : UInt32 := seed

/-- `rand`. Its result is also the new `randseed`. -/
def rand (randseed : UInt32) : UInt32 := (randseed * 1103515245 + 12345) &&& 0x7fffffff

/-- The result of the call `i` of `rand` behind `srand`, counted from zero. -/
def randAt (seed : UInt32) (i : ℕ) : UInt32 := rand^[i + 1] (srand seed)

section Rand

variable {s s' : UInt32} {i j k : ℕ}

theorem multiplier_modEq : (1103515245 : ℤ) ≡ 1 [ZMOD 4] := by decide
theorem odd_increment : Odd (12345 : ℤ) := by decide

theorem toNat_rand (s : UInt32) : (rand s).toNat = (s.toNat * 1103515245 + 12345) % 2 ^ 31 := by
  have hmask : (0x7fffffff : UInt32).toNat = 2 ^ 31 - 1 := rfl
  rw [rand, UInt32.toNat_and, hmask, Nat.and_two_pow_sub_one_eq_mod, UInt32.toNat_add,
    UInt32.toNat_mul]
  simp

theorem rand_lt (s : UInt32) : (rand s).toNat < 2 ^ 31 := by
  rw [toNat_rand]
  exact Nat.mod_lt _ (by decide)

theorem rand_modEq (hk : k ≤ 31) (s : UInt32) :
    ((rand s).toNat : ℤ) ≡ congruential 1103515245 12345 s.toNat [ZMOD (2 ^ k : ℕ)] := by
  have hdvd : ((2 ^ k : ℕ) : ℤ) ∣ 2 ^ 31 := by exact_mod_cast pow_dvd_pow 2 hk
  rw [toNat_rand, congruential, mul_comm]
  push_cast
  exact (Int.mod_modEq _ _).of_dvd hdvd

theorem iterate_rand_modEq (hk : k ≤ 31) (s : UInt32) (i : ℕ) :
    ((rand^[i] s).toNat : ℤ) ≡ (congruential 1103515245 12345)^[i] s.toNat
      [ZMOD (2 ^ k : ℕ)] := by
  induction i with
  | zero => exact .refl _
  | succ i ih =>
    rw [Function.iterate_succ_apply', Function.iterate_succ_apply']
    exact (rand_modEq hk _).trans (congruential_modEq _ _ ih)

/-- Two calls agree modulo a power of two just when their numbers do. -/
theorem randAt_modEq_iff (hk : k ≤ 31) :
    (randAt s i).toNat ≡ (randAt s j).toNat [MOD 2 ^ k] ↔ i ≡ j [MOD 2 ^ k] := by
  have hi := iterate_rand_modEq hk (srand s) (i + 1)
  have hj := iterate_rand_modEq hk (srand s) (j + 1)
  have hiff := iterate_modEq_iff (srand s).toNat multiplier_modEq odd_increment
    (i := i + 1) (j := j + 1) (k := k)
  rw [← Int.natCast_modEq_iff, randAt, randAt]
  refine ⟨fun h => ?_, fun h => ?_⟩
  · exact (hiff.mp ((hi.symm.trans h).trans hj)).add_right_cancel' 1
  · exact (hi.trans (hiff.mpr (h.add_right 1))).trans hj.symm

/-- From every seed the results repeat after `2 ^ 31` calls and not before. -/
theorem randAt_eq_iff : randAt s i = randAt s j ↔ i ≡ j [MOD 2 ^ 31] := by
  have hlt : ∀ i, (randAt s i).toNat < 2 ^ 31 := fun i => by
    rw [randAt, Function.iterate_succ_apply']
    exact rand_lt _
  rw [← randAt_modEq_iff le_rfl, ← UInt32.toNat_inj, Nat.ModEq, Nat.mod_eq_of_lt (hlt i),
    Nat.mod_eq_of_lt (hlt j)]

theorem toUInt8_randAt_eq_iff :
    (randAt s i).toUInt8 = (randAt s j).toUInt8 ↔ i ≡ j [MOD 256] := by
  rw [← UInt8.toNat_inj, UInt32.toNat_toUInt8, UInt32.toNat_toUInt8]
  exact randAt_modEq_iff (k := 8) (by decide)

theorem toUInt8_randAt_congr (h : s.toNat ≡ s'.toNat [MOD 256]) (i : ℕ) :
    (randAt s i).toUInt8 = (randAt s' i).toUInt8 := by
  rw [← UInt8.toNat_inj, UInt32.toNat_toUInt8, UInt32.toNat_toUInt8]
  have hs := iterate_rand_modEq (k := 8) (by decide) (srand s) (i + 1)
  have hs' := iterate_rand_modEq (k := 8) (by decide) (srand s') (i + 1)
  have hseed : (s.toNat : ℤ) ≡ s'.toNat [ZMOD (2 ^ 8 : ℕ)] := Int.natCast_modEq_iff.mpr h
  exact Int.natCast_modEq_iff.mp ((hs.trans (iterate_congruential_modEq _ _ hseed)).trans hs'.symm)

theorem exists_toUInt8_randAt (s s' : UInt32) :
    ∃ k < 256, ∀ i, (randAt s' i).toUInt8 = (randAt s (k + i)).toUInt8 := by
  obtain ⟨k, hk, hmod⟩ :=
    exists_iterate_modEq (srand s).toNat (srand s').toNat multiplier_modEq odd_increment 8
  refine ⟨k, hk, fun i => ?_⟩
  have hseed : (rand^[k] (srand s)).toNat ≡ s'.toNat [MOD 256] :=
    Int.natCast_modEq_iff.mp ((iterate_rand_modEq (by decide) (srand s) k).trans hmod)
  rw [← toUInt8_randAt_congr hseed, randAt, randAt, srand, ← Function.iterate_add_apply,
    add_comm k i, add_right_comm]

theorem exists_toUInt8_randAt_eq (s : UInt32) (b : UInt8) :
    ∃ i < 256, (randAt s i).toUInt8 = b := by
  obtain ⟨i, hi, hmod⟩ :=
    exists_iterate_modEq (rand (srand s)).toNat b.toNat multiplier_modEq odd_increment 8
  refine ⟨i, hi, ?_⟩
  rw [← UInt8.toNat_inj, UInt32.toNat_toUInt8, randAt, Function.iterate_succ_apply]
  have hb := Int.natCast_modEq_iff.mp
    ((iterate_rand_modEq (by decide) (rand (srand s)) i).trans hmod)
  exact Nat.ModEq.eq_of_lt_of_lt ((Nat.mod_modEq _ _).trans hb) (Nat.mod_lt _ (by decide))
    b.toNat_lt

end Rand

end NSOS.Nslibc
