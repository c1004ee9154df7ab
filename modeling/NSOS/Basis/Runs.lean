import Mathlib.Logic.Relation

/-! # Runs of a transition system

A system takes labelled steps. A run is a sequence of steps that all meet a
condition on the state before the step and on its label. What one step keeps,
a whole run keeps. An executable step function replays runs from their labels.
-/

namespace Basis

variable {σ ι : Type*} {step : σ → ι → σ → Prop} {P Q : σ → ι → Prop} {s t u : σ}

/-- `Run step P s t`: some sequence of steps that meet `P` leads from `s` to `t`. -/
inductive Run (step : σ → ι → σ → Prop) (P : σ → ι → Prop) (s : σ) : σ → Prop where
  | refl : Run step P s s
  | tail {t u : σ} {i : ι} : Run step P s t → P t i → step t i u → Run step P s u

/-- A property that every allowed step keeps holds at the end of every run. -/
theorem Run.invariant {I : σ → Prop} (hr : Run step P s t) (h₀ : I s)
    (hs : ∀ {t i u}, I t → P t i → step t i u → I u) : I t := by
  induction hr with
  | refl => exact h₀
  | tail _ hp hst ih => exact hs ih hp hst

theorem Run.mono (h : ∀ {t i}, P t i → Q t i) (hr : Run step P s t) : Run step Q s t := by
  induction hr with
  | refl => exact .refl
  | tail _ hp hst ih => exact ih.tail (h hp) hst

theorem Run.head {i : ι} (hp : P s i) (hst : step s i t) (hr : Run step P t u) :
    Run step P s u := by
  induction hr with
  | refl => exact .tail .refl hp hst
  | tail _ hp hst ih => exact ih.tail hp hst

theorem Run.trans (hr : Run step P s t) (hr' : Run step P t u) : Run step P s u := by
  induction hr' with
  | refl => exact hr
  | tail _ hp hst ih => exact ih.tail hp hst

def replay (exec : σ → ι → Option σ) : σ → List ι → Option σ
  | s, [] => some s
  | s, i :: is => (exec s i).bind fun t => replay exec t is

/-- A replay is a run when each executed step is an allowed step. -/
theorem Run.of_replay {exec : σ → ι → Option σ}
    (h : ∀ {s i t}, exec s i = some t → P s i ∧ step s i t) {is : List ι}
    (hr : replay exec s is = some t) : Run step P s t := by
  induction is generalizing s with
  | nil =>
    rw [replay, Option.some.injEq] at hr
    exact hr ▸ .refl
  | cons i is ih =>
    rw [replay, Option.bind_eq_some_iff] at hr
    obtain ⟨t, hi, hr⟩ := hr
    exact .head (h hi).1 (h hi).2 (ih hr)

def guarded (exec : σ → ι → Option σ) (P : σ → ι → Prop) [∀ s i, Decidable (P s i)] (s : σ)
    (i : ι) : Option σ :=
  if P s i then exec s i else none

theorem Run.of_guarded [∀ s i, Decidable (P s i)] {exec : σ → ι → Option σ}
    (h : ∀ {s i t}, exec s i = some t → step s i t) {is : List ι}
    (hr : replay (guarded exec P) s is = some t) : Run step P s t := by
  refine .of_replay (fun hg => ?_) hr
  rw [guarded, Option.ite_none_right_eq_some] at hg
  exact ⟨hg.1, h hg.2⟩

theorem Run.of_labels {exec : σ → ι → Option σ} (h : ∀ {s i t}, exec s i = some t → step s i t)
    {is : List ι} (hp : ∀ i ∈ is, ∀ s, P s i) (hr : replay exec s is = some t) :
    Run step P s t := by
  induction is generalizing s with
  | nil =>
    rw [replay, Option.some.injEq] at hr
    exact hr ▸ .refl
  | cons i is ih =>
    rw [replay, Option.bind_eq_some_iff] at hr
    obtain ⟨t, hi, hr⟩ := hr
    exact .head (hp i List.mem_cons_self s) (h hi)
      (ih (fun j hj => hp j (List.mem_cons_of_mem _ hj)) hr)

end Basis
