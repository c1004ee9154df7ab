import Mathlib.Algebra.Ring.Int.Parity
import Mathlib.Data.Int.ModEq
import Mathlib.Data.ZMod.Basic
import Mathlib.Logic.Function.Iterate
import Mathlib.Tactic.Ring

/-! # Linear congruential generators modulo powers of two

The generator that replaces `x` by `a * x + c` visits every residue modulo
`2 ^ k` once before it comes back, when `a` is one modulo four and `c` is odd.
The iteration is over the integers, and so each of its residues can be read
off.
-/

namespace Basis

def congruential (a c x : ℤ) : ℤ := a * x + c

variable {a c : ℤ} (x y : ℤ) {k i j m n : ℕ}

theorem congruential_modEq (h : x ≡ y [ZMOD n]) :
    congruential a c x ≡ congruential a c y [ZMOD n] :=
  (h.mul_left a).add_right c

theorem iterate_congruential_modEq (h : x ≡ y [ZMOD n]) :
    (congruential a c)^[i] x ≡ (congruential a c)^[i] y [ZMOD n] := by
  induction i generalizing x y with
  | zero => exact h
  | succ i ih =>
    rw [Function.iterate_succ_apply, Function.iterate_succ_apply]
    exact ih _ _ (congruential_modEq x y h)

theorem iterate_two_pow (ha : a ≡ 1 [ZMOD 4]) (hc : Odd c) (k : ℕ) :
    ∃ t s, Odd s ∧ ∀ x, (congruential a c)^[2 ^ k] x = x + 2 ^ k * (4 * t * x + s) := by
  induction k with
  | zero =>
    obtain ⟨t, ht⟩ := ha.symm.dvd
    refine ⟨t, c, hc, fun x => ?_⟩
    rw [pow_zero, Function.iterate_one, congruential, eq_add_of_sub_eq ht]
    ring
  | succ k ih =>
    obtain ⟨t, s, hs, hstep⟩ := ih
    refine ⟨t + 2 * t ^ 2 * 2 ^ k, s + 2 * (t * 2 ^ k * s), hs.add_even ⟨_, two_mul _⟩,
      fun x => ?_⟩
    rw [pow_succ, mul_two, Function.iterate_add_apply, hstep, hstep]
    ring

theorem iterate_two_pow_modEq (ha : a ≡ 1 [ZMOD 4]) (hc : Odd c) :
    (congruential a c)^[2 ^ k] x ≡ x + 2 ^ k [ZMOD (2 ^ (k + 1) : ℕ)] := by
  obtain ⟨t, s, ⟨r, rfl⟩, hstep⟩ := iterate_two_pow ha hc k
  rw [hstep, Int.modEq_comm, Int.modEq_iff_dvd]
  refine ⟨2 * t * x + r, ?_⟩
  push_cast
  ring

theorem iterate_mul_modEq (ha : a ≡ 1 [ZMOD 4]) (hc : Odd c) :
    (congruential a c)^[2 ^ k * m] x ≡ x + 2 ^ k * m [ZMOD (2 ^ (k + 1) : ℕ)] := by
  induction m generalizing x with
  | zero => simp
  | succ m ih =>
    rw [Nat.mul_succ, Function.iterate_add_apply]
    refine (ih _).trans ?_
    refine ((iterate_two_pow_modEq x ha hc).add_right _).trans ?_
    rw [Nat.cast_succ, mul_add, mul_one, add_assoc, add_comm (2 ^ k : ℤ)]

theorem iterate_modEq_self_iff (ha : a ≡ 1 [ZMOD 4]) (hc : Odd c) :
    (congruential a c)^[n] x ≡ x [ZMOD (2 ^ k : ℕ)] ↔ 2 ^ k ∣ n := by
  induction k with
  | zero => simp [Int.modEq_one]
  | succ k ih =>
    have hblock : ∀ m, (congruential a c)^[2 ^ k * m] x ≡ x [ZMOD (2 ^ (k + 1) : ℕ)] ↔ 2 ∣ m :=
      fun m => by
        have hm := iterate_mul_modEq x ha hc (k := k) (m := m)
        have hiff : (2 ^ k * m : ℤ) ≡ 0 [ZMOD (2 ^ (k + 1) : ℕ)] ↔ 2 ∣ m := by
          rw [Int.modEq_zero_iff_dvd]
          push_cast
          rw [pow_succ, mul_dvd_mul_iff_left (pow_ne_zero k two_ne_zero)]
          exact_mod_cast Iff.rfl
        rw [← hiff]
        constructor
        · intro h
          simpa using (hm.symm.trans h).sub (Int.ModEq.refl x)
        · intro h
          simpa using hm.trans (h.add_left x)
    constructor
    · intro h
      have hdvd : (2 ^ k : ℕ) ∣ 2 ^ (k + 1) := pow_dvd_pow 2 k.le_succ
      obtain ⟨m, rfl⟩ := ih.mp (h.of_dvd (Int.natCast_dvd_natCast.mpr hdvd))
      rw [pow_succ]
      exact Nat.mul_dvd_mul_left _ ((hblock m).mp h)
    · rintro ⟨m, rfl⟩
      rw [pow_succ, mul_assoc]
      exact (hblock (2 * m)).mpr (Nat.dvd_mul_right 2 m)

/-- The residues of two iterates agree just when the numbers of steps do. -/
theorem iterate_modEq_iff (ha : a ≡ 1 [ZMOD 4]) (hc : Odd c) :
    (congruential a c)^[i] x ≡ (congruential a c)^[j] x [ZMOD (2 ^ k : ℕ)] ↔
      i ≡ j [MOD 2 ^ k] := by
  wlog hij : i ≤ j generalizing i j
  · rw [Int.modEq_comm, this (Nat.le_of_not_le hij)]
    exact ⟨Nat.ModEq.symm, Nat.ModEq.symm⟩
  · have h := iterate_modEq_self_iff ((congruential a c)^[i] x) ha hc (k := k) (n := j - i)
    rw [← Function.iterate_add_apply, Nat.sub_add_cancel hij] at h
    rw [Int.modEq_comm, h]
    exact (Nat.modEq_iff_dvd' hij).symm

theorem exists_iterate_modEq (ha : a ≡ 1 [ZMOD 4]) (hc : Odd c) (k : ℕ) :
    ∃ i < 2 ^ k, (congruential a c)^[i] x ≡ y [ZMOD (2 ^ k : ℕ)] := by
  have : NeZero (2 ^ k) := ⟨pow_ne_zero k two_ne_zero⟩
  let visit : Fin (2 ^ k) → ZMod (2 ^ k) := fun i => ((congruential a c)^[i] x : ℤ)
  have hinj : Function.Injective visit := fun i j hij => by
    have hmod := (iterate_modEq_iff x ha hc).mp ((ZMod.intCast_eq_intCast_iff _ _ _).mp hij)
    exact Fin.ext (hmod.eq_of_lt_of_lt i.isLt j.isLt)
  have hsurj : Function.Surjective visit :=
    ((Fintype.bijective_iff_injective_and_card _).mpr ⟨hinj, by simp [ZMod.card]⟩).surjective
  obtain ⟨i, hi⟩ := hsurj y
  exact ⟨i, i.isLt, (ZMod.intCast_eq_intCast_iff _ _ _).mp hi⟩

end Basis
