import NSOS.Basis.Runs

/-! # Traces and refinement

A trace is a run together with its labels. When every step of a system that
keeps an invariant is a step of another system under an abstraction, every
trace of the first is a trace of the second.
-/

namespace Basis

variable {σ τ ι κ : Type*} {step : σ → ι → σ → Prop} {step' : τ → κ → τ → Prop}
  {I : σ → Prop} {f : σ → τ} {g : ι → κ} {s t u : σ} {l l' : List ι}

/-- `Trace step s l t`: steps with the labels `l`, the newest one first, lead from `s` to `t`. -/
inductive Trace (step : σ → ι → σ → Prop) (s : σ) : List ι → σ → Prop where
  | nil : Trace step s [] s
  | cons {t u : σ} {i : ι} {l : List ι} : Trace step s l t → step t i u → Trace step s (i :: l) u

/-- Steps that keep `I` are steps of another system, where `f` abstracts the states and `g` the
labels. -/
structure Simulation (step : σ → ι → σ → Prop) (step' : τ → κ → τ → Prop) (I : σ → Prop)
    (f : σ → τ) (g : ι → κ) : Prop where
  keeps : ∀ {s i t}, I s → step s i t → I t
  follows : ∀ {s i t}, I s → step s i t → step' (f s) (g i) (f t)

/-- Traces of the first system are traces of the second one. -/
theorem Simulation.trace (h : Simulation step step' I f g) (h₀ : I s) (ht : Trace step s l t) :
    I t ∧ Trace step' (f s) (l.map g) (f t) := by
  induction ht with
  | nil => exact ⟨h₀, .nil⟩
  | cons _ hst ih =>
    obtain ⟨hI, ht⟩ := ih
    exact ⟨h.keeps hI hst, .cons ht (h.follows hI hst)⟩

theorem Trace.head {i : ι} (hst : step s i t) (ht : Trace step t l u) :
    Trace step s (l ++ [i]) u := by
  induction ht with
  | nil => exact .cons .nil hst
  | cons _ hst' ih => exact .cons ih hst'

theorem Trace.of_replay {exec : σ → ι → Option σ} (h : ∀ {s i t}, exec s i = some t → step s i t)
    {is : List ι} (hr : replay exec s is = some t) : Trace step s is.reverse t := by
  induction is generalizing s with
  | nil =>
    rw [replay, Option.some.injEq] at hr
    exact hr ▸ .nil
  | cons i is ih =>
    rw [replay, Option.bind_eq_some_iff] at hr
    obtain ⟨t, hi, hr⟩ := hr
    rw [List.reverse_cons]
    exact (ih hr).head (h hi)

end Basis
