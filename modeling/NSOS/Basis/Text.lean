import NSOS.Basis.Bytes
import Mathlib.Tactic.Common

/-! # Texts in memory

A memory holds a list of bytes at the addresses from some address on. A text is
a list of bytes without a zero that ends with one in memory. Two different texts
agree up to some byte, where one of them may have ended.
-/

namespace Basis

namespace Bytes

variable {m : Bytes} {a b x n : ℕ} {c c' : UInt8} {l k p : List UInt8}

/-- The memory holds a list of bytes from an address on. -/
def Holds (m : Bytes) : ℕ → List UInt8 → Prop
  | _, [] => True
  | a, c :: l => m a = c ∧ Holds m (a + 1) l

def write : Bytes → ℕ → List UInt8 → Bytes
  | m, _, [] => m
  | m, a, c :: l => write (m.put a c) (a + 1) l

instance decidableHolds : ∀ (m : Bytes) (a : ℕ) (l : List UInt8), Decidable (Holds m a l)
  | _, _, [] => .isTrue trivial
  | m, a, _ :: l => @instDecidableAnd _ _ _ (decidableHolds m (a + 1) l)

theorem holds_cons : m.Holds a (c :: l) ↔ m a = c ∧ m.Holds (a + 1) l := Iff.rfl

theorem holds_append : m.Holds a (l ++ k) ↔ m.Holds a l ∧ m.Holds (a + l.length) k := by
  induction l generalizing a with
  | nil => simp [Holds]
  | cons c l ih =>
    rw [List.cons_append, holds_cons, holds_cons, ih, List.length_cons, and_assoc,
      show a + (l.length + 1) = a + 1 + l.length by omega]

theorem Holds.of_prefix (hp : p <+: l) (h : m.Holds a l) : m.Holds a p := by
  obtain ⟨k, rfl⟩ := hp
  exact (holds_append.mp h).1

theorem holds_concat : m.Holds a (l ++ [c]) ↔ m.Holds a l ∧ m (a + l.length) = c := by
  rw [holds_append, holds_cons, Holds, and_true]

theorem Holds.put (h : m.Holds a l) (hout : b < a ∨ a + l.length ≤ b) :
    (m.put b c).Holds a l := by
  induction l generalizing a with
  | nil => trivial
  | cons c l ih =>
    rw [List.length_cons] at hout
    obtain ⟨hc, h⟩ := h
    exact ⟨(put_apply_of_ne (by omega)).trans hc, ih h (by omega)⟩

theorem Holds.write (h : m.Holds a l) (hout : b + k.length ≤ a ∨ a + l.length ≤ b) :
    (m.write b k).Holds a l := by
  induction k generalizing m b with
  | nil => exact h
  | cons c k ih =>
    rw [List.length_cons] at hout
    exact ih (h.put (by omega)) (by omega)

theorem write_apply_of_outside (hout : x < a ∨ a + l.length ≤ x) : m.write a l x = m x := by
  induction l generalizing m a with
  | nil => rfl
  | cons c l ih =>
    rw [List.length_cons] at hout
    rw [Bytes.write, ih (by omega), put_apply_of_ne (by omega)]

theorem holds_write : (m.write a l).Holds a l := by
  induction l generalizing m a with
  | nil => trivial
  | cons c l ih =>
    refine ⟨?_, ih⟩
    rw [Bytes.write, write_apply_of_outside (by omega), put_self]

theorem write_append : m.write a (l ++ k) = (m.write a l).write (a + l.length) k := by
  induction l generalizing m a with
  | nil => rfl
  | cons c l ih =>
    rw [List.cons_append, Bytes.write, ih, Bytes.write, List.length_cons,
      show a + (l.length + 1) = a + 1 + l.length by omega]

theorem write_store_comm {v : ℕ} (hout : b + 4 ≤ a ∨ a + l.length ≤ b) :
    (m.store b v).write a l = (m.write a l).store b v := by
  induction l generalizing m a with
  | nil => rfl
  | cons c l ih =>
    rw [List.length_cons] at hout
    have hput : (m.store b v).put a c = (m.put a c).store b v := by
      funext x
      by_cases hx : x = a
      · rw [hx, put_self, store_apply_of_outside (by omega), put_self]
      · rw [put_apply_of_ne hx]
        unfold store
        rw [put_apply_of_ne hx]
    rw [Bytes.write, hput, ih (by omega), Bytes.write]

theorem Holds.congr {m' : Bytes} (h : m.Holds a l)
    (heq : ∀ x, a ≤ x → x < a + l.length → m' x = m x) : m'.Holds a l := by
  induction l generalizing a with
  | nil => trivial
  | cons c l ih =>
    rw [List.length_cons] at heq
    exact ⟨(heq a (by omega) (by omega)).trans h.1,
      ih h.2 fun x h₁ h₂ => heq x (by omega) (by omega)⟩

theorem Holds.getD {i : ℕ} (h : m.Holds a l) (hi : i < l.length) : m (a + i) = l.getD i 0 := by
  induction l generalizing a i with
  | nil => exact absurd hi (Nat.not_lt_zero i)
  | cons c l ih =>
    cases i with
    | zero => exact h.1
    | succ i =>
      rw [Nat.add_comm i 1, ← Nat.add_assoc, ih h.2 (Nat.lt_of_succ_lt_succ hi), Nat.add_comm 1]
      rfl

/-- A text ends with a zero. -/
structure IsText (m : Bytes) (a : ℕ) (l : List UInt8) : Prop where
  holds : m.Holds a (l ++ [0])
  nonzero : 0 ∉ l

instance : Decidable (IsText m a l) :=
  decidable_of_iff (m.Holds a (l ++ [0]) ∧ 0 ∉ l) ⟨fun h => ⟨h.1, h.2⟩, fun h => ⟨h.1, h.2⟩⟩

theorem IsText.write (h : m.IsText a l) (hout : b + k.length ≤ a ∨ a + l.length < b) :
    (m.write b k).IsText a l := by
  refine ⟨h.holds.write ?_, h.nonzero⟩
  rw [List.length_append, List.length_singleton]
  omega

theorem isText_write (hl : 0 ∉ l) : (m.write a (l ++ [0])).IsText a l := ⟨holds_write, hl⟩

theorem IsText.congr {m' : Bytes} (h : m.IsText a l)
    (heq : ∀ x, a ≤ x → x ≤ a + l.length → m' x = m x) : m'.IsText a l := by
  refine ⟨h.holds.congr fun x h₁ h₂ => heq x h₁ ?_, h.nonzero⟩
  rw [List.length_append, List.length_singleton] at h₂
  omega

/-- Two different texts agree up to the first byte where they differ. -/
theorem exists_difference (hl : 0 ∉ l) (hk : 0 ∉ k) (hne : l ≠ k) :
    ∃ p c c', c ≠ c' ∧ 0 ∉ p ∧ p ++ [c] <+: l ++ [0] ∧ p ++ [c'] <+: k ++ [0] := by
  induction l generalizing k with
  | nil =>
    cases k with
    | nil => exact absurd rfl hne
    | cons c' k =>
      refine ⟨[], 0, c', List.ne_of_not_mem_cons hk, List.not_mem_nil, ?_, ?_⟩
      · exact List.prefix_rfl
      · simp
  | cons c l ih =>
    cases k with
    | nil =>
      refine ⟨[], c, 0, (List.ne_of_not_mem_cons hl).symm, List.not_mem_nil, ?_, ?_⟩
      · simp
      · exact List.prefix_rfl
    | cons c' k =>
      by_cases hc : c = c'
      · subst hc
        obtain ⟨p, x, y, hxy, hp, h₁, h₂⟩ := ih (List.not_mem_of_not_mem_cons hl)
          (List.not_mem_of_not_mem_cons hk) fun h => hne (congrArg (c :: ·) h)
        refine ⟨c :: p, x, y, hxy, ?_, ?_, ?_⟩
        · exact List.not_mem_cons_of_ne_of_not_mem (List.ne_of_not_mem_cons hl) hp
        · exact (List.prefix_cons_inj c).mpr h₁
        · exact (List.prefix_cons_inj c).mpr h₂
      · exact ⟨[], c, c', hc, List.not_mem_nil, by simp, by simp⟩

theorem IsText.unique (hl : m.IsText a l) (hk : m.IsText a k) : l = k := by
  by_contra hne
  obtain ⟨p, c, c', hc, -, h₁, h₂⟩ := exists_difference hl.nonzero hk.nonzero hne
  have hp := (holds_concat.mp (hl.holds.of_prefix h₁)).2
  exact hc (hp.symm.trans (holds_concat.mp (hk.holds.of_prefix h₂)).2)

end Bytes

end Basis
