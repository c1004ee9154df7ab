import Mathlib.Logic.Basic

/-! # Programs that share a state

A program is a tree of atomic accesses to a shared state, with the calls that
take and give back a semaphore as nodes of their own. A program can be run
alone, and its semaphore calls can be checked against a discipline.
-/

namespace Basis

/-- Programs over the shared state `σ` with semaphores `ι` and results `α`. -/
inductive Prog (ι σ α : Type) : Type where
  | ret (a : α)
  /-- A halted machine. -/
  | stop
  /-- Replace the shared state; the rest depends on the old one. -/
  | act (f : σ → σ) (k : σ → Prog ι σ α)
  | wait (s : ι) (k : Prog ι σ α)
  | signal (s : ι) (k : Prog ι σ α)

namespace Prog

variable {ι σ α β γ : Type}

def bind : Prog ι σ α → (α → Prog ι σ β) → Prog ι σ β
  | ret a, f => f a
  | stop, _ => stop
  | act g k, f => act g fun x => (k x).bind f
  | wait s k, f => wait s (k.bind f)
  | signal s k, f => signal s (k.bind f)

instance : Monad (Prog ι σ) where
  pure := ret
  bind := bind

def get : Prog ι σ σ := act id ret
def modify (f : σ → σ) : Prog ι σ Unit := act f fun _ => ret ()
def semWait (s : ι) : Prog ι σ Unit := wait s (ret ())
def semSignal (s : ι) : Prog ι σ Unit := signal s (ret ())

def gets (f : σ → α) : Prog ι σ α := act id fun x => ret (f x)

def demand : Option α → Prog ι σ α
  | some a => ret a
  | none => stop

/-- Run a program alone. It yields no state when the machine halts. -/
def run : Prog ι σ α → σ → Option (α × σ)
  | ret a, x => some (a, x)
  | stop, _ => none
  | act f k, x => (k x).run (f x)
  | wait _ k, x => k.run x
  | signal _ k, x => k.run x

section Run

variable {x : σ} {s : ι}

@[simp] theorem run_ret (a : α) : run (ret a : Prog ι σ α) x = some (a, x) := rfl
@[simp] theorem run_pure (a : α) : run (pure a : Prog ι σ α) x = some (a, x) := rfl
@[simp] theorem run_stop : run (stop : Prog ι σ α) x = none := rfl
@[simp] theorem run_get : run (get : Prog ι σ σ) x = some (x, x) := rfl
@[simp] theorem run_gets (f : σ → α) : run (gets f : Prog ι σ α) x = some (f x, x) := rfl
@[simp] theorem run_modify (f : σ → σ) : run (modify f : Prog ι σ Unit) x = some ((), f x) := rfl
@[simp] theorem run_semWait : run (semWait s : Prog ι σ Unit) x = some ((), x) := rfl
@[simp] theorem run_semSignal : run (semSignal s : Prog ι σ Unit) x = some ((), x) := rfl

@[simp] theorem run_demand (o : Option α) :
    run (demand o : Prog ι σ α) x = o.map fun a => (a, x) := by cases o <;> rfl

@[simp] theorem run_bind (p : Prog ι σ α) (f : α → Prog ι σ β) :
    run (p >>= f) x = (run p x).bind fun r => run (f r.1) r.2 := by
  change run (p.bind f) x = _
  induction p generalizing x with
  | ret a => rfl
  | stop => rfl
  | act g k ih => exact ih _
  | wait s k ih => exact ih
  | signal s k ih => exact ih

theorem run_inj {p : Prog ι σ α} {a b : α} {y z : σ} (h : run p x = some (a, y))
    (h' : run p x = some (b, z)) : a = b ∧ y = z :=
  Prod.mk.inj (Option.some.inj (h.symm.trans h'))

theorem run_bind_some {p : Prog ι σ α} {f : α → Prog ι σ β} {y : σ} {b : β}
    (h : run (p >>= f) x = some (b, y)) :
    ∃ a z, run p x = some (a, z) ∧ run (f a) z = some (b, y) := by
  rw [run_bind, Option.bind_eq_some_iff] at h
  obtain ⟨⟨a, z⟩, hp, hf⟩ := h
  exact ⟨a, z, hp, hf⟩

end Run

section Discipline

def NoSem : Prog ι σ α → Prop
  | ret _ => True
  | stop => True
  | act _ k => ∀ x, (k x).NoSem
  | wait _ _ => False
  | signal _ _ => False

/-- Programs that are found to make no semaphore calls. -/
class Quiet (p : Prog ι σ α) : Prop where
  noSem : p.NoSem

/-- The part of a call that comes next: before its wait, up to its signal, behind it. -/
inductive Stage where
  | before | inside | after
  deriving DecidableEq

/-- The rest of a call that waits for `s` once, accesses the shared state only while it holds
`s`, and signals `s` exactly once on every path to a result. -/
def Bracketed (s : ι) : Stage → Prog ι σ α → Prop
  | st, ret _ => st = .after
  | st, stop => st = .inside
  | st, act _ k => st = .inside ∧ ∀ x, (k x).Bracketed s .inside
  | st, wait s' k => st = .before ∧ s' = s ∧ k.Bracketed s .inside
  | st, signal s' k => st = .inside ∧ s' = s ∧ k.Bracketed s .after

variable {s : ι} {p : Prog ι σ α} {f : α → Prog ι σ β}

instance quiet_pure (a : α) : Quiet (pure a : Prog ι σ α) := ⟨trivial⟩
instance quiet_stop : Quiet (stop : Prog ι σ α) := ⟨trivial⟩
instance quiet_get : Quiet (get : Prog ι σ σ) := ⟨fun _ => trivial⟩
instance quiet_gets (f : σ → α) : Quiet (gets f : Prog ι σ α) := ⟨fun _ => trivial⟩
instance quiet_modify (f : σ → σ) : Quiet (modify f : Prog ι σ Unit) := ⟨fun _ => trivial⟩

instance quiet_demand (o : Option α) : Quiet (demand o : Prog ι σ α) := by
  cases o <;> exact ⟨trivial⟩

instance quiet_bind [hp : Quiet p] [hf : ∀ a, Quiet (f a)] : Quiet (p >>= f) := by
  obtain ⟨hp⟩ := hp
  constructor
  change (p.bind f).NoSem
  induction p with
  | ret a => exact (hf a).noSem
  | stop => trivial
  | act g k ih => exact fun x => ih x (hp x)
  | wait s k => exact hp
  | signal s k => exact hp

instance quiet_ite {c : Prop} [Decidable c] {p q : Prog ι σ α} [Quiet p] [Quiet q] :
    Quiet (if c then p else q) := by split <;> infer_instance

theorem Quiet.bind (hp : Quiet p) (hf : ∀ a, Quiet (f a)) : Quiet (p >>= f) := quiet_bind

theorem Quiet.ite {c : Prop} [Decidable c] {p q : Prog ι σ α} (hp : Quiet p) (hq : Quiet q) :
    Quiet (if c then p else q) := quiet_ite

/-- Quiet parts may run while the semaphore is held. -/
theorem bracketed_bind [hp : Quiet p] (hf : ∀ a, Bracketed s .inside (f a)) :
    Bracketed s .inside (p >>= f) := by
  obtain ⟨hp⟩ := hp
  change Bracketed s .inside (p.bind f)
  induction p with
  | ret a => exact hf a
  | stop => rfl
  | act g k ih => exact ⟨rfl, fun x => ih x (hp x)⟩
  | wait s k => exact hp.elim
  | signal s k => exact hp.elim

theorem bracketed_wait {p : Unit → Prog ι σ α} (hp : Bracketed s .inside (p ())) :
    Bracketed s .before (semWait s >>= p) := ⟨rfl, rfl, hp⟩

theorem bracketed_signal (a : α) :
    Bracketed s .inside (semSignal s >>= fun _ => (pure a : Prog ι σ α)) := ⟨rfl, rfl, rfl⟩

theorem bracketed_ite {c : Prop} [Decidable c] {st : Stage} {p q : Prog ι σ α}
    (hp : Bracketed s st p) (hq : Bracketed s st q) :
    Bracketed s st (if c then p else q) := by split <;> assumption

theorem Bracketed.map {st : Stage} (h : Bracketed s st p) (g : α → β) :
    Bracketed s st (p >>= fun a => pure (g a)) := by
  change Bracketed s st (p.bind _)
  induction p generalizing st with
  | ret a => exact h
  | stop => exact h
  | act f k ih => exact ⟨h.1, fun x => ih x (h.2 x)⟩
  | wait s' k ih => exact ⟨h.1, h.2.1, ih h.2.2⟩
  | signal s' k ih => exact ⟨h.1, h.2.1, ih h.2.2⟩

theorem Bracketed.eq_ret (h : Bracketed s .after p) : ∃ a, p = ret a := by
  cases p with
  | ret a => exact ⟨a, rfl⟩
  | stop => cases h
  | act f k => cases h.1
  | wait s k => cases h.1
  | signal s k => cases h.1

end Discipline

end Prog

end Basis
