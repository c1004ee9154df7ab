import Mathlib.Data.Nat.Digits.Lemmas
import Mathlib.Tactic.Common

/-! # Numerals

A numeral is the list of the digits of a number with the most significant one
first, and a single zero for zero. Reading digits from left to right gives the
number back, also behind leading zeros.
-/

namespace Basis

variable {b k n d : ℕ} {ds es : List ℕ}

def numeral (b n : ℕ) : List ℕ := if n = 0 then [0] else (b.digits n).reverse

def readDigits (b k : ℕ) (ds : List ℕ) : ℕ := ds.foldl (fun r d => r * b + d) k

@[simp] theorem readDigits_nil : readDigits b k [] = k := rfl

@[simp] theorem readDigits_cons : readDigits b k (d :: ds) = readDigits b (k * b + d) ds := rfl

theorem readDigits_append : readDigits b k (ds ++ es) = readDigits b (readDigits b k ds) es :=
  List.foldl_append

theorem readDigits_reverse : readDigits b 0 ds.reverse = Nat.ofDigits b ds := by
  rw [readDigits, List.foldl_reverse, Nat.ofDigits_eq_foldr]
  simp only [Nat.cast_id, Nat.mul_comm, Nat.add_comm]

theorem readDigits_replicate_zero : readDigits b 0 (List.replicate n 0) = 0 := by
  induction n with
  | zero => rfl
  | succ n ih => rw [List.replicate_succ, readDigits_cons, Nat.zero_mul, Nat.zero_add, ih]

@[simp] theorem numeral_zero : numeral b 0 = [0] := if_pos rfl

theorem numeral_of_ne_zero (hn : n ≠ 0) : numeral b n = (b.digits n).reverse := if_neg hn

theorem numeral_of_lt (h : n < b) : numeral b n = [n] := by
  by_cases hn : n = 0
  · rw [hn, numeral_zero]
  · rw [numeral_of_ne_zero hn, Nat.digits_of_lt b n hn h, List.reverse_singleton]

theorem numeral_of_le (hb : 1 < b) (h : b ≤ n) : numeral b n = numeral b (n / b) ++ [n % b] := by
  have hdiv : n / b ≠ 0 := (Nat.div_pos h (by omega)).ne'
  rw [numeral_of_ne_zero (by omega), numeral_of_ne_zero hdiv, Nat.digits_def' hb (by omega),
    List.reverse_cons]

theorem numeral_ne_nil : numeral b n ≠ [] := by
  by_cases hn : n = 0
  · simp [hn]
  · simp [numeral_of_ne_zero hn, Nat.digits_ne_nil_iff_ne_zero.mpr hn]

theorem lt_of_mem_numeral (hb : 1 < b) (h : d ∈ numeral b n) : d < b := by
  by_cases hn : n = 0
  · rw [hn, numeral_zero, List.mem_singleton] at h
    omega
  · rw [numeral_of_ne_zero hn, List.mem_reverse] at h
    exact Nat.digits_lt_base hb h

theorem readDigits_numeral : readDigits b 0 (numeral b n) = n := by
  by_cases hn : n = 0
  · simp [hn]
  · rw [numeral_of_ne_zero hn, readDigits_reverse, Nat.ofDigits_digits]

theorem length_numeral_le (hb : 1 < b) (hk : 0 < k) (h : n < b ^ k) :
    (numeral b n).length ≤ k := by
  by_cases hn : n = 0
  · rw [hn, numeral_zero]
    exact hk
  · rw [numeral_of_ne_zero hn, List.length_reverse]
    exact (Nat.digits_length_le_iff hb n).mpr h

end Basis
