import NSOS.Basis.Program

/-! # Programs that return

A program returns when no state makes it halt. What is built from programs
that return does so too, and in a state in which its first part yields a
result, a program returns if its rest does.
-/

namespace Basis.Prog

variable {ι σ α β : Type} {p : Prog ι σ α} {f : α → Prog ι σ β} {x y : σ} {a : α} {s : ι}

/-- Programs that yield a result in every state. -/
class Returns (p : Prog ι σ α) : Prop where
  run_eq : ∀ x, ∃ r, run p x = some r

instance returns_pure : Returns (pure a : Prog ι σ α) := ⟨fun x => ⟨(a, x), rfl⟩⟩
instance returns_gets (f : σ → α) : Returns (gets f : Prog ι σ α) := ⟨fun x => ⟨(f x, x), rfl⟩⟩
instance returns_modify (f : σ → σ) : Returns (modify f : Prog ι σ Unit) :=
  ⟨fun x => ⟨((), f x), rfl⟩⟩
instance returns_semWait : Returns (semWait s : Prog ι σ Unit) := ⟨fun x => ⟨((), x), rfl⟩⟩
instance returns_semSignal : Returns (semSignal s : Prog ι σ Unit) := ⟨fun x => ⟨((), x), rfl⟩⟩

theorem Returns.run_bind (hp : run p x = some (a, y)) [hf : Returns (f a)] :
    ∃ r, run (p >>= f) x = some r := by
  obtain ⟨r, hr⟩ := hf.run_eq y
  exact ⟨r, by rw [Prog.run_bind, hp, Option.bind_some, hr]⟩

instance returns_bind [hp : Returns p] [∀ a, Returns (f a)] : Returns (p >>= f) where
  run_eq x := by
    obtain ⟨⟨a, y⟩, hr⟩ := hp.run_eq x
    exact Returns.run_bind hr

instance returns_ite {c : Prop} [Decidable c] {q : Prog ι σ α} [Returns p] [Returns q] :
    Returns (if c then p else q) := by split <;> infer_instance

end Basis.Prog
