import Mathlib.Data.List.Basic
import Mathlib.Data.Nat.Notation
import Mathlib.Tactic.Common

/-! # Decimal numerals

Every word of digits without a leading zero is the numeral of the number that
it is read as, and of no other number.
-/

namespace Basis

variable {n k : ℕ} {c : Char} {cs : List Char}

theorem isDigit_iff : c.isDigit = true ↔ c ≤ '9' ∧ '0' ≤ c := by
  simp only [Char.isDigit, Bool.and_eq_true, decide_eq_true_eq, and_comm]
  exact Iff.rfl

theorem isDigit_toDigits (h : c ∈ Nat.toDigits 10 n) : c.isDigit = true :=
  Nat.isDigit_of_mem_toDigits (by decide) (Nat.le_refl 10) h

theorem head_toDigits (hn : 0 < n) : (Nat.toDigits 10 n).head? ≠ some '0' := by
  have hdigit : ∀ m < 10, 0 < m → [m.digitChar].head? ≠ some '0' := by decide
  induction n using Nat.strongRecOn with
  | ind n ih =>
    by_cases hlt : n < 10
    · rw [Nat.toDigits_of_lt_base hlt]
      exact hdigit n hlt hn
    · rw [Nat.toDigits_of_base_le (by decide) (by omega), List.head?_append_of_ne_nil]
      · exact ih (n / 10) (by omega) (by omega)
      · exact Nat.toDigits_ne_nil

theorem digitChar_of_isDigit (h : c.isDigit = true) :
    c.toNat - '0'.toNat < 10 ∧ (c.toNat - '0'.toNat).digitChar = c := by
  obtain ⟨h₁, h₂⟩ := isDigit_iff.mp h
  have h₁ : c.toNat ≤ 57 := h₁
  have h₂ : 48 ≤ c.toNat := h₂
  have hlt : c.toNat - '0'.toNat < 10 := by
    change c.toNat - 48 < 10
    omega
  refine ⟨hlt, ?_⟩
  apply Char.toNat_inj.mp
  rw [Nat.toNat_digitChar_of_lt_ten hlt]
  change 48 + (c.toNat - 48) = c.toNat
  omega

theorem toDigits_ofDigitChars_append (hk : 0 < k) (h : ∀ c ∈ cs, c.isDigit = true) :
    Nat.toDigits 10 (Nat.ofDigitChars 10 cs k) = Nat.toDigits 10 k ++ cs := by
  induction cs generalizing k with
  | nil => rw [Nat.ofDigitChars_nil, List.append_nil]
  | cons c cs ih =>
    obtain ⟨hlt, hchar⟩ := digitChar_of_isDigit (h c List.mem_cons_self)
    rw [Nat.ofDigitChars_cons, ih (by omega) fun d hd => h d (List.mem_cons_of_mem c hd),
      ← Nat.toDigits_append_toDigits (by decide) hk hlt, Nat.toDigits_of_lt_base hlt, hchar,
      List.append_assoc, List.singleton_append]

/-- A word of digits without a leading zero is a numeral. -/
theorem toDigits_ofDigitChars (hne : cs ≠ []) (hhead : cs.head? ≠ some '0')
    (h : ∀ c ∈ cs, c.isDigit = true) : Nat.toDigits 10 (Nat.ofDigitChars 10 cs 0) = cs := by
  obtain ⟨c, cs, rfl⟩ := List.exists_cons_of_ne_nil hne
  obtain ⟨hlt, hchar⟩ := digitChar_of_isDigit (h c List.mem_cons_self)
  have hpos : 0 < c.toNat - '0'.toNat := by
    apply Nat.pos_of_ne_zero
    intro hzero
    rw [hzero] at hchar
    exact hhead (congrArg some hchar.symm)
  rw [Nat.ofDigitChars_cons, Nat.mul_zero, Nat.zero_add,
    toDigits_ofDigitChars_append hpos fun d hd => h d (List.mem_cons_of_mem c hd),
    Nat.toDigits_of_lt_base hlt, hchar, List.singleton_append]

theorem toDigits_inj {m : ℕ} (h : Nat.toDigits 10 n = Nat.toDigits 10 m) : n = m := by
  have heq := congrArg (fun w => Nat.ofDigitChars 10 w 0) h
  simpa only [Nat.ofDigitChars_ten_toDigits] using heq

end Basis
