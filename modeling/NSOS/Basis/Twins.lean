import NSOS.Basis.Program

/-! # Two runs of programs

Two programs run from two states. Either both machines halt, or both runs yield
results and states that are related. The rules follow the programs, and each of
them takes one access of both programs at a time.
-/

namespace Basis.Prog

variable {ι κ σ τ α β γ δ : Type}

/-- Both machines halt, or both runs yield results and states that are related by `Q`. -/
def Twins (x : σ) (y : τ) (p : Prog ι σ α) (q : Prog κ τ β) (Q : α → σ → β → τ → Prop) : Prop :=
  Option.Rel (fun r s => Q r.1 r.2 s.1 s.2) (run p x) (run q y)

section Rules

variable {x x' : σ} {y y' : τ} {p p' : Prog ι σ α} {q q' : Prog κ τ β} {a : α} {b : β}
  {Q R : α → σ → β → τ → Prop} {T : γ → σ → δ → τ → Prop}

theorem Twins.of_run (hp : run p x = some (a, x')) (hq : run q y = some (b, y'))
    (h : Q a x' b y') : Twins x y p q Q := by
  rw [Twins, hp, hq]
  exact .some h

theorem Twins.mono (h : Twins x y p q Q) (hQ : ∀ {a x' b y'}, Q a x' b y' → R a x' b y') :
    Twins x y p q R := by
  unfold Twins at h ⊢
  generalize run p x = r at h ⊢
  generalize run q y = s at h ⊢
  cases h with
  | some h => exact .some (hQ h)
  | none => exact .none

theorem Twins.pure (h : Q a x b y) : Twins x y (pure a : Prog ι σ α) (pure b : Prog κ τ β) Q :=
  .some h

theorem Twins.stop : Twins x y (stop : Prog ι σ α) (stop : Prog κ τ β) Q := .none

/-- The first parts of both programs are twins, and so are the rests behind related results. -/
theorem Twins.bind {f : α → Prog ι σ γ} {g : β → Prog κ τ δ} (h : Twins x y p q Q)
    (hf : ∀ {a x' b y'}, Q a x' b y' → Twins x' y' (f a) (g b) T) :
    Twins x y (p >>= f) (q >>= g) T := by
  unfold Twins at h hf ⊢
  rw [run_bind, run_bind]
  generalize run p x = r at h
  generalize run q y = s at h
  cases h with
  | some h => exact hf h
  | none => exact .none

theorem Twins.bind_run {f : α → Prog ι σ γ} {g : β → Prog κ τ δ} (hp : run p x = some (a, x'))
    (hq : run q y = some (b, y')) (hf : Twins x' y' (f a) (g b) T) :
    Twins x y (p >>= f) (q >>= g) T := by
  rw [Twins, run_bind, run_bind, hp, hq]
  exact hf

theorem Twins.ite {c d : Prop} [Decidable c] [Decidable d] (hcd : c ↔ d)
    (h₁ : c → Twins x y p q Q) (h₂ : ¬ c → Twins x y p' q' Q) :
    Twins x y (if c then p else p') (if d then q else q') Q := by
  by_cases hc : c
  · rw [if_pos hc, if_pos (hcd.mp hc)]
    exact h₁ hc
  · rw [if_neg hc, if_neg fun hd => hc (hcd.mpr hd)]
    exact h₂ hc

theorem Twins.runs (h : Twins x y p q Q) :
    Twins x y p q fun a x' b y' => run p x = some (a, x') ∧ Q a x' b y' := by
  unfold Twins at h ⊢
  generalize run p x = r at h ⊢
  generalize run q y = s at h ⊢
  cases h with
  | some h => exact .some ⟨rfl, h⟩
  | none => exact .none

theorem Twins.both (h : Twins x y p q Q) (hp : run p x = some (a, x'))
    (hq : run q y = some (b, y')) : Q a x' b y' := by
  rw [Twins, hp, hq] at h
  cases h with
  | some h => exact h

end Rules

section Accesses

variable {x : σ} {y : τ} {k : α → Prog ι σ γ} {l : α → Prog κ τ δ} {k₀ : Unit → Prog ι σ γ}
  {l₀ : Unit → Prog κ τ δ} {T : γ → σ → δ → τ → Prop} {f : σ → α} {g : τ → α} {o o' : Option α}

theorem Twins.gets (h : g y = f x) (hk : Twins x y (k (f x)) (l (f x)) T) :
    Twins x y (gets f >>= k) (gets g >>= l) T := by
  change Twins x y (k (f x)) (l (g y)) T
  rw [h]
  exact hk

theorem Twins.modify {f : σ → σ} {g : τ → τ} (hk : Twins (f x) (g y) (k₀ ()) (l₀ ()) T) :
    Twins x y (modify f >>= k₀) (modify g >>= l₀) T := hk

theorem Twins.demand (h : o' = o) (hk : ∀ a, o = some a → Twins x y (k a) (l a) T) :
    Twins x y (demand o >>= k) (demand o' >>= l) T := by
  rw [h]
  cases o with
  | none => exact .none
  | some a => exact hk a rfl

theorem Twins.semWait {i : ι} {j : κ} (hk : Twins x y (k₀ ()) (l₀ ()) T) :
    Twins x y (semWait i >>= k₀) (semWait j >>= l₀) T := hk

theorem Twins.semSignal {i : ι} {j : κ} (hk : Twins x y (k₀ ()) (l₀ ()) T) :
    Twins x y (semSignal i >>= k₀) (semSignal j >>= l₀) T := hk

end Accesses

end Basis.Prog
