import NSOS.Memory.Fit
import Mathlib.Order.Bounds.Basic

/-! # When the loops of an allocation end

The rounding loop doubles a 32-bit register. Up to `2 ^ 31` it reaches the
least power of two that is not below the request. Beyond, the register wraps to
zero before it gets there, and the loop never ends. The search loop ends
whenever the block list does.
-/

namespace NSOS.Pmm

open Basis

variable {size r k fuel b : ℕ} {h : Area} {s : State} {m : Bytes}

section Rounding

/-- The least power of two that is not below the request. -/
def LeastPower (size r : ℕ) : Prop := IsLeast {p | (∃ j, p = 2 ^ j) ∧ size ≤ p} r

theorem leastPower_clog : LeastPower size (2 ^ Nat.clog 2 size) := by
  constructor
  · exact ⟨⟨_, rfl⟩, Nat.le_pow_clog (by decide) size⟩
  · rintro - ⟨⟨j, rfl⟩, hj⟩
    exact Nat.pow_le_pow_right (by decide) (Nat.clog_le_of_le_pow hj)

theorem roundLoop_none (hs : 2 ^ 31 < size) (hr : r = 0 ∨ ∃ j ≤ 31, r = 2 ^ j) :
    roundLoop size fuel r k = none := by
  induction fuel generalizing r k with
  | zero => rfl
  | succ fuel ih =>
    have hle : r ≤ 2 ^ 31 := by
      rcases hr with rfl | ⟨j, hj, rfl⟩
      · exact Nat.zero_le _
      · exact Nat.pow_le_pow_right (by decide) hj
    rw [roundLoop, if_pos (hle.trans_lt hs)]
    apply ih
    rcases hr with rfl | ⟨j, hj, rfl⟩
    · exact .inl rfl
    · rcases hj.lt_or_eq with hlt | rfl
      · have hpow : 2 ^ (j + 1) ≤ 2 ^ 31 := Nat.pow_le_pow_right (by decide) hlt
        exact .inr ⟨j + 1, hlt, by rw [← Nat.pow_succ', Nat.mod_eq_of_lt (by omega)]⟩
      · exact .inl (by decide)

theorem roundLoop_start_none (hs : 2 ^ 31 < size) : roundLoop size fuel 1 0 = none :=
  roundLoop_none hs (.inr ⟨0, by decide, rfl⟩)

end Rounding

section Returns

/-- The links from a block on come to the end of the heap, or to `NULL`. -/
inductive Ends (h : Area) (m : Bytes) : ℕ → Prop where
  | null : Ends h m 0
  | stop : Ends h m h.stop
  | next {b : ℕ} : Ends h m (next m b) → Ends h m b

theorem Ends.search (he : Ends h m b) (size r k : ℕ) :
    ∃ fuel c, Pmm.search h m size r k fuel b = some c := by
  induction he with
  | null => exact ⟨1, 0, if_neg fun hc => hc.1 rfl⟩
  | stop => exact ⟨1, h.stop, if_neg fun hc => hc.2.1 rfl⟩
  | @next b _ ih =>
    obtain ⟨fuel, c, hc⟩ := ih
    by_cases hgo : b ≠ 0 ∧ b ≠ h.stop ∧
        (inuse m b = 1 ∨ tooSmall m b (allocAddr r k (startInBlock b)) size)
    · exact ⟨fuel + 1, c, (if_pos hgo).trans hc⟩
    · exact ⟨1, b, if_neg hgo⟩

theorem pmmAlloc_returns (hr : roundUp size = some (r, k))
    (hs : ∃ fuel c, search h s.mem size r k fuel s.memoryHead = some c) :
    ∃ fuel s' a, pmmAlloc h fuel s size = some (s', a) := by
  obtain ⟨fuel, c, hc⟩ := hs
  unfold pmmAlloc
  simp only [hr, Option.bind_eq_bind, Option.bind_some]
  by_cases h₀ : c = 0
  · exact ⟨fuel, s, 0, by rw [hc, Option.bind_some, if_pos h₀]⟩
  · exact ⟨fuel, _, _, by rw [hc, Option.bind_some, if_neg h₀]⟩

/-- An allocation from a finite list ends, with the right power of two and its logarithm,
exactly up to a request of `2 ^ 31` bytes. -/
theorem alloc_terminates_iff (he : Ends h s.mem s.memoryHead) :
    ((∃ n r k, roundLoop size n 1 0 = some (r, k) ∧ r = 2 ^ k ∧ LeastPower size r) ∧
      ∃ fuel s' a, pmmAlloc h fuel s size = some (s', a)) ↔ size ≤ 2 ^ 31 := by
  constructor
  · rintro ⟨⟨n, r, k, hr, -⟩, -⟩
    by_contra hs
    rw [roundLoop_start_none (Nat.lt_of_not_le hs)] at hr
    cases hr
  · intro hs
    constructor
    · exact ⟨33, _, _, roundUp_eq hs, rfl, leastPower_clog⟩
    · exact pmmAlloc_returns (roundUp_eq hs) (he.search ..)

theorem ends_pmmInit (h : Area) (m : Bytes) :
    Ends h (pmmInit h m).mem (pmmInit h m).memoryHead := by
  apply Ends.next
  have hnext : next (pmmInit h m).mem (pmmInit h m).memoryHead = h.stop :=
    next_setNext_self h.bound
  rw [hnext]
  exact .stop

theorem alloc_terminates_init :
    let h : Area := ⟨0x1000, 0x1100, by decide, by decide, by decide, by decide⟩
    ((∃ n r k, roundLoop 5 n 1 0 = some (r, k) ∧ r = 2 ^ k ∧ LeastPower 5 r) ∧
      ∃ fuel s' a, pmmAlloc h fuel (pmmInit h fun _ => 0) 5 = some (s', a)) ↔ 5 ≤ 2 ^ 31 :=
  alloc_terminates_iff (ends_pmmInit _ _)

/-- A request of `2 ^ 31 + 1` bytes in the heap of `pmm_init`. -/
theorem alloc_not_terminates : ¬ ∀ (h : Area) (s : State) (size : ℕ), size < 2 ^ 32 →
    Ends h s.mem s.memoryHead →
      (∃ n r k, roundLoop size n 1 0 = some (r, k) ∧ r = 2 ^ k ∧ LeastPower size r) ∧
        ∃ fuel s' a, pmmAlloc h fuel s size = some (s', a) := by
  intro hall
  obtain ⟨⟨n, r, k, hr, -⟩, -⟩ := hall
    ⟨0x1000, 0x1100, by decide, by decide, by decide, by decide⟩ _ (2 ^ 31 + 1) (by decide)
    (ends_pmmInit _ fun _ => 0)
  rw [roundLoop_start_none (by decide)] at hr
  cases hr

end Returns

end NSOS.Pmm
