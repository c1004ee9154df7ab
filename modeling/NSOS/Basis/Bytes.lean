import Mathlib.Algebra.Group.Nat.Defs
import Mathlib.Logic.Function.Basic
import Mathlib.Data.Nat.Notation

/-! # Byte-addressed memory

A memory gives every address a byte. Words of four bytes are read and written
in little-endian order. A read sees the last write at its own address and
ignores every write to other bytes.
-/

namespace Basis

abbrev Bytes := ℕ → UInt8

namespace Bytes

variable {m m' : Bytes} {a b v : ℕ}

def load (m : Bytes) (a : ℕ) : ℕ :=
  (m a).toNat + 2 ^ 8 * (m (a + 1)).toNat + 2 ^ 16 * (m (a + 2)).toNat +
    2 ^ 24 * (m (a + 3)).toNat

def put (m : Bytes) (a : ℕ) (c : UInt8) : Bytes := fun x => if x = a then c else m x

def store (m : Bytes) (a v : ℕ) : Bytes := fun x =>
  if x = a then UInt8.ofNat v
  else if x = a + 1 then UInt8.ofNat (v / 2 ^ 8)
  else if x = a + 2 then UInt8.ofNat (v / 2 ^ 16)
  else if x = a + 3 then UInt8.ofNat (v / 2 ^ 24)
  else m x

theorem put_self (c : UInt8) : m.put a c a = c := by simp [put]

theorem put_of_eq {c : UInt8} (h : m a = c) : m.put a c = m := by
  funext x
  by_cases hx : x = a
  · rw [hx, put_self, h]
  · exact if_neg hx

theorem put_apply_of_ne {c : UInt8} (h : b ≠ a) : m.put a c b = m b := by simp [put, h]

theorem store_apply_of_outside (h : b < a ∨ a + 4 ≤ b) : m.store a v b = m b := by
  unfold store
  rw [if_neg (by omega), if_neg (by omega), if_neg (by omega), if_neg (by omega)]

theorem load_congr (h : ∀ x, a ≤ x → x < a + 4 → m' x = m x) : m'.load a = m.load a := by
  unfold load
  rw [h a (by omega) (by omega), h (a + 1) (by omega) (by omega),
    h (a + 2) (by omega) (by omega), h (a + 3) (by omega) (by omega)]

theorem load_lt (m : Bytes) (a : ℕ) : m.load a < 2 ^ 32 := by
  unfold load
  have h₀ := (m a).toNat_lt
  have h₁ := (m (a + 1)).toNat_lt
  have h₂ := (m (a + 2)).toNat_lt
  have h₃ := (m (a + 3)).toNat_lt
  omega

theorem load_store_self (h : v < 2 ^ 32) : (m.store a v).load a = v := by
  simp [load, store]
  omega

theorem store_apply_of_load {x : ℕ} (hv : m.load a = v) (h₁ : a ≤ x) (h₂ : x < a + 4) :
    m'.store a v x = m x := by
  have hbyte : ∀ y, (m y).toNat < 256 := fun y => (m y).toNat_lt
  have h₀ := hbyte a
  have h₁' := hbyte (a + 1)
  have h₂' := hbyte (a + 2)
  have h₃' := hbyte (a + 3)
  unfold load at hv
  unfold store
  obtain rfl | rfl | rfl | rfl : x = a ∨ x = a + 1 ∨ x = a + 2 ∨ x = a + 3 := by omega
  all_goals
    apply UInt8.toNat_inj.mp
    simp
    omega

theorem load_store_of_disjoint (h : b + 4 ≤ a ∨ a + 4 ≤ b) : (m.store a v).load b = m.load b :=
  load_congr fun _ _ _ => store_apply_of_outside (by omega)

theorem load_put_of_outside {c : UInt8} (h : a < b ∨ b + 4 ≤ a) :
    (m.put a c).load b = m.load b :=
  load_congr fun _ _ _ => put_apply_of_ne (by omega)

end Bytes

end Basis
