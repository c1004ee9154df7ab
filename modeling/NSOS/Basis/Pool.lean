import Mathlib.Data.Nat.Notation
import Mathlib.Logic.Function.Basic

/-! # Object pools

An allocator that always hands out fresh memory gives every object a new
number. The contents of a new object are whatever its memory held before.
-/

namespace Basis

/-- The objects of one type: their contents, and how many have been handed out. -/
structure Pool (α : Type) where
  obj : ℕ → α
  size : ℕ
  deriving Inhabited

namespace Pool

variable {α : Type} (p : Pool α) (i j : ℕ) (f : α → α)

def grow : Pool α := { p with size := p.size + 1 }

def set : Pool α := { p with obj := Function.update p.obj i (f (p.obj i)) }

@[simp] theorem obj_grow : p.grow.obj = p.obj := rfl
@[simp] theorem size_grow : p.grow.size = p.size + 1 := rfl
@[simp] theorem size_set : (p.set i f).size = p.size := rfl
@[simp] theorem obj_set_self : (p.set i f).obj i = f (p.obj i) := Function.update_self ..

@[simp] theorem obj_set_of_ne (h : j ≠ i) : (p.set i f).obj j = p.obj j :=
  Function.update_of_ne h ..

theorem obj_set : (p.set i f).obj j = if j = i then f (p.obj i) else p.obj j := by
  by_cases h : j = i
  · subst h
    simp
  · simp [h]

/-- The same objects have been handed out, with the same contents. -/
structure SameHeld (q : Pool α) : Prop where
  size_eq : q.size = p.size
  obj_eq : ∀ {i}, i < p.size → q.obj i = p.obj i

theorem set_id (h : f (p.obj i) = p.obj i) : p.set i f = p := by
  rw [set, h, Function.update_eq_self]

theorem set_set (g : α → α) : (p.set i f).set i g = p.set i fun a => g (f a) := by
  simp [set]

end Pool

end Basis
