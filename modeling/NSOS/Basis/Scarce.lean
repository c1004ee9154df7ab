import Mathlib.Data.Nat.Notation
import NSOS.Basis.Twins

/-! # Scarce memory

An allocator that may refuse a request. A policy says which of its requests are
granted. A program on scarce memory asks before each allocation, and is a plain
program where everything is granted.
-/

namespace Basis

/-- A state, and how often the allocator has been asked. -/
structure Asked (σ : Type) where
  state : σ
  asks : ℕ

namespace Prog

variable {ι σ α β γ : Type}

def lift : Prog ι σ α → Prog ι (Asked σ) α
  | ret a => ret a
  | stop => stop
  | act f k => act (fun s => { s with state := f s.state }) fun s => (k s.state).lift
  | wait i k => wait i k.lift
  | signal i k => signal i k.lift

instance : MonadLift (Prog ι σ) (Prog ι (Asked σ)) := ⟨lift⟩

variable (ok : ℕ → Bool)

/-- Ask the allocator whose policy is `ok`. -/
def granted : Prog ι (Asked σ) Bool := do
  let n ← gets Asked.asks
  modify fun s => { s with asks := n + 1 }
  return ok n

/-- An allocation whose result is not checked. The first use of a null pointer halts the
machine. -/
def unchecked (p : Prog ι σ α) : Prog ι (Asked σ) α := do
  if ← granted ok then p else stop

def plenty (_ : ℕ) : Bool := true

section Run

variable {ok} {s : Asked σ} {x : σ} {p : Prog ι σ α} {f : α → Prog ι σ β}

theorem run_lift (p : Prog ι σ α) (s : Asked σ) :
    run p.lift s = (run p s.state).map fun r => (r.1, { s with state := r.2 }) := by
  induction p generalizing s with
  | ret a => rfl
  | stop => rfl
  | act f k ih => exact ih _ { s with state := f s.state }
  | wait i k ih => exact ih s
  | signal i k ih => exact ih s

theorem run_liftM (p : Prog ι σ α) (s : Asked σ) :
    run (liftM p : Prog ι (Asked σ) α) s =
      (run p s.state).map fun r => (r.1, { s with state := r.2 }) := run_lift p s

theorem run_liftM_bind {a : α} {g : α → Prog ι (Asked σ) β} (h : run p s.state = some (a, x)) :
    run (liftM p >>= g) s = run (g a) { s with state := x } := by
  rw [run_bind, run_liftM, h]
  rfl

theorem run_granted : run (granted ok : Prog ι (Asked σ) Bool) s =
    some (ok s.asks, { s with asks := s.asks + 1 }) := rfl

theorem run_unchecked (p : Prog ι σ α) : run (unchecked ok p) s =
    if ok s.asks then (run p s.state).map fun r => (r.1, ⟨r.2, s.asks + 1⟩) else none := by
  rw [unchecked, run_bind, run_granted, Option.bind_some]
  dsimp only
  split
  · exact run_liftM p _
  · rfl

end Run

section Plain

variable {p p' : Prog ι (Asked σ) α} {q q' : Prog ι σ α} {f : α → Prog ι (Asked σ) β}
  {g : α → Prog ι σ β} {s : Asked σ}

/-- `p` asks for nothing, and does what `q` does. -/
def Plain (p : Prog ι (Asked σ) α) (q : Prog ι σ α) : Prop :=
  ∀ s : Asked σ, run p s = (run q s.state).map fun r => (r.1, { s with state := r.2 })

theorem Plain.liftM : Plain (liftM q) q := run_liftM q

theorem Plain.pure (a : α) : Plain (pure a : Prog ι (Asked σ) α) (pure a) := fun _ => rfl

theorem Plain.bind (h : Plain p q) (hf : ∀ a, Plain (f a) (g a)) : Plain (p >>= f) (q >>= g) := by
  intro s
  rw [run_bind, run_bind, h]
  cases run q s.state with
  | none => rfl
  | some r => exact hf r.1 _

theorem Plain.ite {c : Prop} [Decidable c] (h : Plain p q) (h' : Plain p' q') :
    Plain (if c then p else p') (if c then q else q') := by
  split
  · exact h
  · exact h'

theorem Plain.gets {f : Asked σ → α} {g : σ → α} (h : ∀ s, f s = g s.state) :
    Plain (gets f : Prog ι (Asked σ) α) (gets g) := fun s => by
  rw [run_gets, h]
  rfl

theorem Plain.demand (o : Option α) : Plain (demand o : Prog ι (Asked σ) α) (demand o) := by
  cases o with
  | none => exact fun _ => rfl
  | some a => exact .pure a

theorem Plain.semSignal {i : ι} : Plain (semSignal i : Prog ι (Asked σ) Unit) (semSignal i) :=
  fun _ => rfl

end Plain

section Costs

variable {ok : ℕ → Bool} {m n : ℕ} {p : Prog ι (Asked σ) α} {q : Prog ι σ α}
  {f : α → Prog ι (Asked σ) β} {g : α → Prog ι σ β}

/-- `p` asks `n` times. It does what `q` does if everything is granted, and halts the machine
otherwise. -/
def Costs (ok : ℕ → Bool) (n : ℕ) (p : Prog ι (Asked σ) α) (q : Prog ι σ α) : Prop :=
  ∀ s : Asked σ, run p s =
    if ∀ k < n, ok (s.asks + k) then (run q s.state).map fun r => (r.1, ⟨r.2, s.asks + n⟩)
    else none

theorem Plain.costs (h : Plain p q) : Costs ok 0 p q := fun s => by
  rw [h, if_pos fun k hk => absurd hk k.not_lt_zero]
  rfl

theorem granted_add (c m n : ℕ) : (∀ k < m + n, ok (c + k) = true) ↔
    (∀ k < m, ok (c + k) = true) ∧ ∀ k < n, ok (c + m + k) = true := by
  constructor
  · refine fun h => ⟨fun k hk => h k (Nat.lt_add_right n hk), fun k hk => ?_⟩
    rw [Nat.add_assoc]
    exact h (m + k) (Nat.add_lt_add_left hk m)
  · rintro ⟨h₁, h₂⟩ k hk
    by_cases hlt : k < m
    · exact h₁ k hlt
    · obtain ⟨j, rfl⟩ := Nat.exists_eq_add_of_le (Nat.le_of_not_lt hlt)
      rw [← Nat.add_assoc]
      exact h₂ j (Nat.lt_of_add_lt_add_left hk)

theorem Costs.bind (h : Costs ok m p q)
    (hf : ∀ {x a y}, run q x = some (a, y) → Costs ok n (f a) (g a)) :
    Costs ok (m + n) (p >>= f) (q >>= g) := by
  intro s
  rw [run_bind, run_bind, h]
  by_cases hm : ∀ k < m, ok (s.asks + k) = true
  · rw [if_pos hm]
    cases hq : run q s.state with
    | none => rw [Option.map_none, Option.bind_none, Option.bind_none, Option.map_none, ite_self]
    | some r =>
      rw [Option.map_some, Option.bind_some, Option.bind_some, hf hq]
      simp only [granted_add, and_iff_right hm, Nat.add_assoc]
  · rw [if_neg hm, if_neg fun hall => hm ((granted_add _ _ _).mp hall).1]
    rfl

theorem Costs.plain (h : Plain p q) (hf : ∀ a, Costs ok n (f a) (g a)) :
    Costs ok n (p >>= f) (q >>= g) := by
  have hcosts := h.costs.bind fun {_ a _} _ => hf a
  rwa [Nat.zero_add] at hcosts

theorem Costs.granted (h : Costs ok n p q) :
    Costs ok (n + 1) (do if ← granted ok then p else stop) q := by
  intro s
  rw [Nat.add_comm, run_bind, run_granted, Option.bind_some]
  simp only [granted_add, Nat.lt_one_iff, forall_eq, Nat.add_zero]
  by_cases hok : ok s.asks = true
  · rw [if_pos hok, h]
    simp only [hok, true_and, Nat.add_assoc]
  · rw [if_neg hok, if_neg fun hall => hok hall.1]
    rfl

theorem Costs.unchecked (hf : ∀ a, Costs ok n (f a) (g a)) :
    Costs ok (n + 1) (unchecked ok q >>= f) (q >>= g) := by
  have h : Costs ok 1 (Prog.unchecked ok q) q := .granted (Plain.liftM.costs)
  rw [Nat.add_comm]
  exact h.bind fun {_ a _} _ => hf a

/-- From the state `x`, a program checks none of its requests. The machine halts when one of them
is refused. -/
def Heedless (x : σ) (p : (ℕ → Bool) → Prog ι (Asked σ) α) : Prop :=
  ∃ (n : ℕ) (r : Option (α × σ)), ∀ ok c, run (p ok) ⟨x, c⟩ =
    if ∀ k < n, ok (c + k) then r.map fun r => (r.1, ⟨r.2, c + n⟩) else none

section Heedless

variable {x y : σ} {p p' : (ℕ → Bool) → Prog ι (Asked σ) α} {s : Asked σ} {z : α} {c k : ℕ}

theorem Costs.heedless (h : ∀ ok, Costs ok n (p ok) q) (x : σ) : Heedless x p :=
  ⟨n, run q x, fun ok c => h ok ⟨x, c⟩⟩

theorem Heedless.pure (x : σ) (z : α) : Heedless x fun _ => (pure z : Prog ι (Asked σ) α) :=
  Costs.heedless (fun _ => (Plain.pure z).costs) x

theorem Heedless.congr (h : Heedless x p)
    (hrun : ∀ ok c, run (p' ok) ⟨y, c⟩ = run (p ok) ⟨x, c⟩) : Heedless y p' := by
  obtain ⟨n, r, h⟩ := h
  exact ⟨n, r, fun ok c => (hrun ok c).trans (h ok c)⟩

/-- A refused request halts the machine. -/
theorem Heedless.halts (h : Heedless x p) (hr : run (p plenty) ⟨x, 0⟩ = some (z, s))
    (hk : k < s.asks) (hok : ok k = false) : run (p ok) ⟨x, 0⟩ = none := by
  obtain ⟨n, r, h⟩ := h
  rw [h] at hr
  obtain ⟨-, hr⟩ := Option.ite_none_right_eq_some.mp hr
  obtain ⟨r, -, heq⟩ := Option.map_eq_some_iff.mp hr
  obtain ⟨-, rfl⟩ := Prod.mk.inj heq
  rw [h, if_neg]
  intro hall
  have hgranted := hall k (by simpa using hk)
  rw [Nat.zero_add, hok] at hgranted
  cases hgranted

theorem Heedless.plenty (h : Heedless x p) (hr : run (p ok) ⟨x, c⟩ = some (z, s)) :
    run (p plenty) ⟨x, c⟩ = some (z, s) := by
  obtain ⟨n, r, h⟩ := h
  rw [h] at hr ⊢
  exact (if_pos fun k _ => rfl).trans (Option.ite_none_right_eq_some.mp hr).2

end Heedless

theorem Costs.run_one {x : σ} {c : ℕ} (h : Costs ok 1 p q) :
    run p ⟨x, c⟩ = if ok c then (run q x).map fun r => (r.1, ⟨r.2, c + 1⟩) else none := by
  rw [h]
  simp only [Nat.lt_one_iff, forall_eq, Nat.add_zero]

end Costs

section Plenty

variable {s : Asked σ} {p : Prog ι σ α} {f : α → Prog ι (Asked σ) β} {g : α → Prog ι σ β}

def Same (a : α) (s : Asked σ) (b : α) (x : σ) : Prop := b = a ∧ x = s.state

theorem Twins.lift : Twins s s.state (liftM p : Prog ι (Asked σ) α) p Same := by
  rw [Twins, run_liftM]
  cases run p s.state with
  | none => exact .none
  | some r => exact .some ⟨rfl, rfl⟩

theorem Twins.unchecked : Twins s s.state (unchecked plenty p) p Same := by
  have hok : plenty s.asks = true := rfl
  rw [Twins, run_unchecked, if_pos hok]
  cases run p s.state with
  | none => exact .none
  | some r => exact .some ⟨rfl, rfl⟩

theorem Twins.run_same {p : Prog ι (Asked σ) α} {q : Prog ι σ α} {s' : Asked σ} {a : α}
    (h : Twins s s.state p q Same) (hr : run p s = some (a, s')) :
    run q s.state = some (a, s'.state) := by
  rw [Twins, hr] at h
  generalize run q s.state = r at h
  cases h with
  | some hsame =>
    obtain ⟨h₁, h₂⟩ := hsame
    exact congrArg some (Prod.ext h₁ h₂)

theorem Twins.granted {p p' : Prog ι (Asked σ) β} {q : Prog ι σ γ}
    {Q : β → Asked σ → γ → σ → Prop} (h : Twins { s with asks := s.asks + 1 } s.state p q Q) :
    Twins s s.state (do if ← granted plenty then p else p') q Q := h

/-- The same program on scarce memory and on plenty of it. -/
theorem Twins.same_bind {p : Prog ι (Asked σ) α} {q : Prog ι σ α} (h : Twins s s.state p q Same)
    (hf : ∀ {a} {s : Asked σ}, Twins s s.state (f a) (g a) Same) :
    Twins s s.state (p >>= f) (q >>= g) Same :=
  h.bind fun {a s' b x} hs => by
    obtain ⟨rfl, rfl⟩ := hs
    exact hf

end Plenty

end Prog

end Basis
