import NSOS.Memory.Allocator
import Mathlib.Data.Nat.Log
import Mathlib.Tactic.Common
import Mathlib.Tactic.Ring

/-! # Rounding and room tests

The unsigned and signed 32-bit tests of the allocator agree with plain
arithmetic for requests of at most `2 ^ 30` bytes, once the search has
accepted a block.
-/

namespace NSOS.Pmm

open Basis

variable {m : Bytes} {size r k b a x fuel : ℕ}

/-- The rounding loop stops at the least power of two that is not below the request. -/
theorem roundLoop_eq (hs : size ≤ 2 ^ 31) (hk : k ≤ Nat.clog 2 size)
    (hf : Nat.clog 2 size < fuel + k) :
    roundLoop size fuel (2 ^ k) k = some (2 ^ Nat.clog 2 size, Nat.clog 2 size) := by
  induction fuel generalizing k with
  | zero => omega
  | succ fuel ih =>
    rw [roundLoop]
    rcases hk.lt_or_eq with hlt | rfl
    · have hlt' : 2 ^ k < size := Nat.pow_lt_of_lt_clog hlt
      have hpow : 2 ^ (k + 1) ≤ 2 ^ 31 :=
        Nat.pow_le_pow_right (by decide) (Nat.le_trans hlt (Nat.clog_le_of_le_pow hs))
      rw [if_pos hlt', ← Nat.pow_succ', Nat.mod_eq_of_lt (by omega)]
      exact ih hlt (by omega)
    · rw [if_neg (Nat.le_pow_clog (by decide) size).not_gt]

theorem roundUp_eq (hs : size ≤ 2 ^ 31) :
    roundUp size = some (2 ^ Nat.clog 2 size, Nat.clog 2 size) :=
  roundLoop_eq (k := 0) hs (Nat.zero_le _) ((Nat.clog_le_of_le_pow hs).trans_lt (by decide))

theorem roundUp_spec (hs : size ≤ 2 ^ 30) (h : roundUp size = some (r, k)) :
    r = 2 ^ k ∧ r ≤ 2 ^ 30 := by
  rw [roundUp_eq (hs.trans (by decide))] at h
  obtain ⟨rfl, rfl⟩ := Prod.mk.inj (Option.some.inj h)
  exact ⟨rfl, Nat.pow_le_pow_right Nat.two_pos (Nat.clog_le_of_le_pow hs)⟩

/-- Before it wraps, the candidate address is the first multiple of `r` from `x` on. -/
theorem allocAddr_spec (hr : r = 2 ^ k) (hx : x < 2 ^ 32) :
    ∃ A, x ≤ A ∧ A < x + r ∧ r ∣ A ∧ allocAddr r k x = A % 2 ^ 32 := by
  have hpos : 0 < r := by rw [hr]; exact Nat.two_pow_pos k
  unfold allocAddr
  split
  · rename_i h0
    exact ⟨x, le_rfl, by omega, Nat.dvd_of_mod_eq_zero h0, (Nat.mod_eq_of_lt hx).symm⟩
  · rename_i h0
    have hd := Nat.div_add_mod x r
    have hl := Nat.mod_lt x hpos
    refine ⟨x / r * r + r, by rw [mul_comm] at hd; omega, by rw [mul_comm] at hd; omega,
      ⟨x / r + 1, by ring⟩, ?_⟩
    rw [Nat.shiftRight_eq_div_pow, Nat.shiftLeft_eq, ← hr]

/-- The first aligned address behind the header of a block. -/
def candidate (r k b : ℕ) : ℕ := allocAddr r k (startInBlock b)

/-- What the search knows about a block it accepts. -/
structure Fits (m : Bytes) (size r b a : ℕ) : Prop where
  above : b + 12 ≤ a
  near : a < b + 12 + r
  dvd : r ∣ a
  inside : a + size ≤ next m b
  short : next m b < a + size + 2 ^ 31

theorem fits_of_not_tooSmall (hr : r = 2 ^ k) (hr' : r ≤ 2 ^ 30) (hs : size ≤ 2 ^ 30)
    (hb : b + 12 ≤ next m b) (h : ¬ tooSmall m b (candidate r k b) size) :
    Fits m size r b (candidate r k b) := by
  have hn : next m b < 2 ^ 32 := Bytes.load_lt _ _
  have hst : startInBlock b = b + 12 := by
    unfold startInBlock ptrAdd; omega
  obtain ⟨A, h₁, h₂, h₃, h₄⟩ := allocAddr_spec (x := b + 12) hr (by omega)
  unfold candidate at h ⊢
  rw [hst, h₄] at h ⊢
  unfold tooSmall at h
  have hA : A < 2 ^ 32 := by
    by_contra hA
    have hm : A % 2 ^ 32 = A - 2 ^ 32 := by
      rw [Nat.mod_eq_sub_mod (by omega), Nat.mod_eq_of_lt (by omega)]
    have he : (next m b : ℤ) - (A - 2 ^ 32 : ℕ) - size = (next m b : ℤ) - A - size + 2 ^ 32 := by
      omega
    rw [hm, he, toInt_add_wrap, toInt_of_range (by omega) (by omega)] at h
    omega
  rw [Nat.mod_eq_of_lt hA] at h ⊢
  have := toInt_nonneg (x := (next m b : ℤ) - A - size) (by omega) (by omega) (by omega)
  exact ⟨h₁, by omega, h₃, by omega, by omega⟩

theorem roomBefore_iff (h₁ : b + 12 ≤ a) (h₂ : a < b + 12 + 2 ^ 30) (hb : b + 12 < 2 ^ 32) :
    roomBefore a (startInBlock b) ↔ b + 24 < a := by
  have hst : startInBlock b = b + 12 := by
    unfold startInBlock ptrAdd; omega
  unfold roomBefore
  rw [hst, toInt_of_range (by omega) (by omega)]
  omega

theorem roomAfter_iff (h : Fits m size r b a) :
    roomAfter m b a size ↔ a + size + 12 < next m b := by
  have := h.inside
  have := h.short
  unfold roomAfter
  rw [toInt_of_range (by omega) (by omega)]
  omega

section Search

variable {h : Area} {fuel' y : ℕ}

/-- The search takes the block: it is not in use and not too small. -/
def Accepts (m : Bytes) (size r k b : ℕ) : Prop :=
  inuse m b ≠ 1 ∧ ¬ tooSmall m b (candidate r k b) size

/-- The first block the search takes when it follows the list from some block. -/
inductive FirstFit (h : Area) (m : Bytes) (size r k : ℕ) : ℕ → ℕ → Prop where
  | here {b : ℕ} : b ≠ h.stop → Accepts m size r k b → FirstFit h m size r k b b
  | skip {b c : ℕ} : b ≠ 0 → b ≠ h.stop → ¬ Accepts m size r k b →
      FirstFit h m size r k (next m b) c → FirstFit h m size r k b c

theorem FirstFit.unique {c : ℕ} (hb : FirstFit h m size r k x b) (hc : FirstFit h m size r k x c) :
    b = c := by
  induction hb with
  | here _ ha => cases hc with
    | here => rfl
    | skip _ _ hn => exact absurd ha hn
  | skip _ _ hn _ ih => cases hc with
    | here _ ha => exact absurd ha hn
    | skip _ _ _ hc => exact ih hc

theorem search_mono (hf : fuel ≤ fuel') (hs : search h m size r k fuel x = some y) :
    search h m size r k fuel' x = some y := by
  induction fuel generalizing x fuel' with
  | zero => simp [search] at hs
  | succ fuel ih =>
    obtain ⟨fuel', rfl⟩ : ∃ j, fuel' = j + 1 := ⟨fuel' - 1, by omega⟩
    rw [search] at hs ⊢
    split at hs
    · rw [if_pos ‹_›]
      exact ih (by omega) hs
    · rwa [if_neg ‹_›]

theorem FirstFit.search (hf : FirstFit h m size r k x b) :
    ∃ fuel, Pmm.search h m size r k fuel x = some b := by
  induction hf with
  | here hb ha =>
    refine ⟨1, ?_⟩
    rw [Pmm.search, if_neg]
    rintro ⟨-, -, hn⟩
    exact hn.elim ha.1 ha.2
  | @skip x _ h₀ h₁ ha _ ih =>
    obtain ⟨fuel, ih⟩ := ih
    have hc : inuse m x = 1 ∨ tooSmall m x (candidate r k x) size := by
      by_contra hn
      exact ha ⟨fun hu => hn (Or.inl hu), fun ht => hn (Or.inr ht)⟩
    exact ⟨fuel + 1, by rw [Pmm.search, if_pos ⟨h₀, h₁, hc⟩, ih]⟩

theorem firstFit_of_search (hs : Pmm.search h m size r k fuel x = some b) (h₀ : b ≠ 0)
    (h₁ : b ≠ h.stop) : FirstFit h m size r k x b := by
  induction fuel generalizing x with
  | zero => simp [Pmm.search] at hs
  | succ fuel ih =>
    rw [Pmm.search] at hs
    split at hs
    · rename_i hc
      exact .skip hc.1 hc.2.1 (fun ha => hc.2.2.elim ha.1 ha.2) (ih hs)
    · rename_i hc
      obtain rfl := Option.some.inj hs
      exact .here h₁ ⟨fun hu => hc ⟨h₀, h₁, Or.inl hu⟩, fun ht => hc ⟨h₀, h₁, Or.inr ht⟩⟩

end Search

end NSOS.Pmm
