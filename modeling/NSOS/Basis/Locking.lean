import NSOS.Basis.Program

/-! # Programs that take locks

The semaphore calls of a program can be given a meaning on a second state that
nothing else touches. A program is nested when it gives back the lock that it
took last, takes no lock that it holds, and holds none at the end. A nested
program runs as if there were no locks, and leaves them as it found them.
-/

namespace Basis

namespace Prog

variable {ι σ L α β : Type}

def runWith (take give : ι → σ × L → Option (σ × L)) :
    Prog ι σ α → σ × L → Option (α × σ × L)
  | ret a, x => some (a, x)
  | stop, _ => none
  | act f k, x => (k x.1).runWith take give (f x.1, x.2)
  | wait s k, x => (take s x).bind (k.runWith take give)
  | signal s k, x => (give s x).bind (k.runWith take give)

/-- With the locks `h` taken, the newest first, the rest of a program only takes locks of `u` that
it does not hold, gives back the newest first, and returns without any. -/
def Nested (u : ι → Prop) : List ι → Prog ι σ α → Prop
  | h, ret _ => h = []
  | _, stop => True
  | h, act _ k => ∀ x, (k x).Nested u h
  | h, wait s k => u s ∧ s ∉ h ∧ k.Nested u (s :: h)
  | h, signal s k => ∃ h', h = s :: h' ∧ k.Nested u h'

section Discipline

variable {u v : ι → Prop} {h h' : List ι} {s : ι} {p q : Prog ι σ α} {f : α → Prog ι σ β}

theorem nested_pure (a : α) : Nested u [] (pure a : Prog ι σ α) := rfl

theorem nested_stop : Nested u h (stop : Prog ι σ α) := trivial

theorem nested_wait {p : Unit → Prog ι σ α} (hs : u s) (hh : s ∉ h)
    (hp : Nested u (s :: h) (p ())) : Nested u h (semWait s >>= p) := ⟨hs, hh, hp⟩

theorem nested_signal {p : Unit → Prog ι σ α} (hp : Nested u h (p ())) :
    Nested u (s :: h) (semSignal s >>= p) := ⟨h, rfl, hp⟩

theorem nested_ite {c : Prop} [Decidable c] (hp : Nested u h p) (hq : Nested u h q) :
    Nested u h (if c then p else q) := by split <;> assumption

theorem Nested.mono (hp : Nested u h p) (hu : ∀ s, u s → v s) : Nested v h p := by
  induction p generalizing h with
  | ret a => exact hp
  | stop => trivial
  | act g k ih => exact fun x => ih x (hp x)
  | wait s k ih => exact ⟨hu s hp.1, hp.2.1, ih hp.2.2⟩
  | signal s k ih =>
    obtain ⟨h₁, rfl, hk⟩ := hp
    exact ⟨h₁, rfl, ih hk⟩

theorem Quiet.nested (hp : Quiet p) : Nested u [] p := by
  obtain ⟨hp⟩ := hp
  induction p with
  | ret a => rfl
  | stop => trivial
  | act g k ih => exact fun x => ih x (hp x)
  | wait s k => exact hp.elim
  | signal s k => exact hp.elim

theorem Nested.bind (hp : Nested u h p) (hh : ∀ s, u s → v s ∧ s ∉ h')
    (hf : ∀ a, Nested v h' (f a)) : Nested v (h ++ h') (p >>= f) := by
  change Nested v (h ++ h') (p.bind f)
  induction p generalizing h with
  | ret a =>
    obtain rfl : h = [] := hp
    exact hf a
  | stop => trivial
  | act g k ih => exact fun x => ih x (hp x)
  | wait s k ih =>
    obtain ⟨hs, hn, hk⟩ := hp
    exact ⟨(hh s hs).1, List.not_mem_append hn (hh s hs).2, ih hk⟩
  | signal s k ih =>
    obtain ⟨h₁, rfl, hk⟩ := hp
    exact ⟨h₁ ++ h', rfl, ih hk⟩

theorem nested_bind (hp : Nested u [] p) (hh : ∀ s, u s → v s ∧ s ∉ h)
    (hf : ∀ a, Nested v h (f a)) : Nested v h (p >>= f) := hp.bind hh hf

theorem Nested.discard (hp : Nested u [] p) : Nested u [] (p >>= fun _ => pure ()) :=
  nested_bind hp (fun _ hs => ⟨hs, List.not_mem_nil⟩) fun _ => nested_pure ()

theorem nested_quiet_bind [hp : Quiet p] (hf : ∀ a, Nested v h (f a)) : Nested v h (p >>= f) :=
  nested_bind (u := fun _ => False) hp.nested (fun _ hs => hs.elim) hf

end Discipline

section Runs

variable {take give : ι → σ × L → Option (σ × L)} {u : ι → Prop} {h : List ι} {p : Prog ι σ α}
  {f : α → Prog ι σ β} {x y : σ} {l l' : L} {a : α} {I : L → Prop} {R : List ι → L → Prop}

/-- What the semaphore calls keep, every program keeps. -/
theorem runWith_invariant (htake : ∀ {s x y}, I x.2 → take s x = some y → I y.2)
    (hgive : ∀ {s x y}, I x.2 → give s x = some y → I y.2) {z w : σ × L} (hz : I z.2)
    (hr : runWith take give p z = some (a, w)) : I w.2 := by
  induction p generalizing z with
  | ret b =>
    obtain ⟨-, rfl⟩ := Prod.mk.inj (Option.some.inj hr)
    exact hz
  | stop => cases hr
  | act g k ih => exact ih z.1 (z := (g z.1, z.2)) hz hr
  | wait s k ih =>
    obtain ⟨z', hs, hk⟩ := Option.bind_eq_some_iff.mp hr
    exact ih (htake hz hs) hk
  | signal s k ih =>
    obtain ⟨z', hs, hk⟩ := Option.bind_eq_some_iff.mp hr
    exact ih (hgive hz hs) hk

/-- A nested program halts when it halts without locks, or it has the same result and gives back
every lock. Here `R h l` says that the locks `h` have been taken when they are in state `l`. -/
theorem Nested.runWith
    (htake : ∀ {s h} x {l}, u s → s ∉ h → R h l →
      ∃ l', take s (x, l) = some (x, l') ∧ R (s :: h) l')
    (hgive : ∀ {s h} x {l}, R (s :: h) l → ∃ l', give s (x, l) = some (x, l') ∧ R h l')
    (hp : Nested u h p) (hl : R h l) :
    (run p x = none ∧ p.runWith take give (x, l) = none) ∨
      ∃ a y l', run p x = some (a, y) ∧ p.runWith take give (x, l) = some (a, y, l') ∧
        R [] l' := by
  induction p generalizing h x l with
  | ret a =>
    obtain rfl : h = [] := hp
    exact .inr ⟨a, x, l, rfl, rfl, hl⟩
  | stop => exact .inl ⟨rfl, rfl⟩
  | act g k ih => exact ih x (hp x) hl
  | wait s k ih =>
    obtain ⟨hs, hn, hk⟩ := hp
    obtain ⟨l₁, htook, hl₁⟩ := htake x hs hn hl
    rw [Prog.runWith, htook]
    exact ih hk hl₁
  | signal s k ih =>
    obtain ⟨h₁, rfl, hk⟩ := hp
    obtain ⟨l₁, hgave, hl₁⟩ := hgive x hl
    rw [Prog.runWith, hgave]
    exact ih hk hl₁

end Runs

end Prog

end Basis
