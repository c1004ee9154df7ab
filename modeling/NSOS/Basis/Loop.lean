import Mathlib.Data.Nat.Notation
import Mathlib.Tactic.Common

/-! # Counted loops and grids

A counted loop runs its body for each number below a bound. What the body
carries from one number to the next, the loop carries from zero to the bound.
A grid gives every pair of numbers a value. Two nested loops that write it fill
a rectangle and leave the rest alone.
-/

namespace Basis

section Loop

variable {σ τ : Type*} {n : ℕ} {body : ℕ → σ → σ} {s : σ}

/-- `for (i = 0; i < n; i++) body`. -/
def each : ℕ → (ℕ → σ → σ) → σ → σ
  | 0, _, s => s
  | n + 1, body, s => body n (each n body s)

theorem each_rule {P : ℕ → σ → Prop} (h₀ : P 0 s)
    (hs : ∀ i < n, ∀ t, P i t → P (i + 1) (body i t)) : P n (each n body s) := by
  induction n with
  | zero => exact h₀
  | succ n ih => exact hs n n.lt_succ_self _ (ih fun i hi => hs i (Nat.lt_succ_of_lt hi))

theorem each_inv {P : σ → Prop} (h₀ : P s) (hs : ∀ i < n, ∀ t, P t → P (body i t)) :
    P (each n body s) :=
  each_rule (P := fun _ t => P t) h₀ hs

theorem each_map {body' : ℕ → τ → τ} (f : σ → τ) (h : ∀ i s, f (body i s) = body' i (f s)) :
    f (each n body s) = each n body' (f s) := by
  induction n with
  | zero => rfl
  | succ n ih => exact (h n _).trans (congrArg (body' n) ih)

end Loop

abbrev Grid (α : Type*) := ℕ → ℕ → α

namespace Grid

variable {α : Type*} {g : Grid α} {p q p' q' x y w h i j : ℕ} {a : α} {v : ℕ → ℕ → α}

def put (g : Grid α) (p q : ℕ) (a : α) : Grid α :=
  fun p' q' => if p' = p ∧ q' = q then a else g p' q'

@[simp] theorem put_self : g.put p q a p q = a := if_pos ⟨rfl, rfl⟩

theorem put_of_ne (hne : ¬(p' = p ∧ q' = q)) : g.put p q a p' q' = g p' q' := if_neg hne

/-- Write a rectangle of width `w` and height `h` with its corner at `x`, `y`. -/
def fill (x y w h : ℕ) (v : ℕ → ℕ → α) (g : Grid α) : Grid α :=
  each h (fun j => each w fun i g => g.put (x + i) (y + j) (v i j)) g

theorem row_of_lt (hi : i < w) :
    each w (fun i g => Grid.put g (x + i) q (v i j)) g (x + i) q = v i j := by
  apply each_rule (P := fun n (g : Grid α) => ∀ i < n, g (x + i) q = v i j) _ _ i hi
  · rintro i hi
    exact absurd hi i.not_lt_zero
  · rintro n - g ih i hi
    rcases Nat.lt_succ_iff_lt_or_eq.mp hi with hlt | rfl
    · exact (put_of_ne (by omega)).trans (ih i hlt)
    · exact put_self

theorem row_of_outside (hout : ¬((x ≤ p' ∧ p' < x + w) ∧ q' = q)) :
    each w (fun i g => Grid.put g (x + i) q (v i j)) g p' q' = g p' q' := by
  apply each_inv (P := fun g' : Grid α => g' p' q' = g p' q') rfl
  rintro i hi g' ih
  exact (put_of_ne (by omega)).trans ih

theorem fill_inside (hi : i < w) (hj : j < h) : fill x y w h v g (x + i) (y + j) = v i j := by
  apply each_rule (P := fun n (g : Grid α) => ∀ j < n, g (x + i) (y + j) = v i j) _ _ j hj
  · rintro j hj
    exact absurd hj j.not_lt_zero
  · rintro n - g ih j hj
    rcases Nat.lt_succ_iff_lt_or_eq.mp hj with hlt | rfl
    · exact (row_of_outside (by omega)).trans (ih j hlt)
    · exact row_of_lt hi

theorem fill_outside (hout : ¬((x ≤ p ∧ p < x + w) ∧ y ≤ q ∧ q < y + h)) :
    fill x y w h v g p q = g p q := by
  apply each_inv (P := fun g' : Grid α => g' p q = g p q) rfl
  rintro j hj g' ih
  exact (row_of_outside (by omega)).trans ih

end Grid

end Basis
