import NSOS.Vfs.Walk

/-! # Resolving paths

All threads walk from the root of the file system. `path_lookup` computes where
a path leads, and changes the state only when a driver makes an entry or has
none to make. `make_path` keeps the invariant in the same way.
-/

namespace NSOS.Vfs

open Basis Prog

section PathLookup

variable {st st' : State} {nd nd' : Nameidata} {name path : List Char} {t : ℕ} {mode : UInt16}
  {dir : Bool} {ps : List Part} {k : Kind}

/-- What a run of `path_lookup` gives, for what there is to find. -/
def Outcome (st : State) (r : Option ((Option ℕ × Nameidata) × State)) : Found → Prop
  | .hit nd => r = some ((some nd.dentry, nd), st) ∧ Seen st nd
  | .made nd name => ∃ st',
      r = some ((some st.dentries.size, ⟨st.dentries.size, nd.mnt⟩), st') ∧
        Made st st' nd name ∧ (st'.dentry st.dentries.size).dIsdir = false
  | .absent => ∃ nd st', r = some ((none, nd), st') ∧ Evolves st st'
  | .stuck => r = none

theorem Enters.evolves (he : Enters t mode st nd name k st') (h : Inv st) (hs : Seen st nd) :
    Evolves st st' ∧ Seen st' ⟨st.dentries.size, nd.mnt⟩ := by
  obtain ⟨y, j, F, he⟩ := he
  exact ⟨he.evolves h (hs.lt h), he.seen h hs⟩

theorem walkable_seen (t : ℕ) (mode : UInt16) : Walkable t mode Inv Seen Seen where
  wf h := h.wf
  lt h hs := hs.lt h
  mnt h hs := by
    obtain ⟨m, hm, hv⟩ := hs
    exact ⟨m, (hv.inTree h.wf).2.1, hm⟩
  climb h hs := hs.climb h
  arrive h hs hc := by
    obtain ⟨hlt, hp, hne⟩ := h.wf.childNamed_spec (hs.lt h) hc
    exact hs.arrive h hlt hp hne
  down _ hs _ := hs
  up _ hs := hs
  enter h hs _ _ he := by
    obtain ⟨hev, hs'⟩ := he.evolves h hs
    exact ⟨hev.inv, fun hs => hs.grown hev.grown, fun _ => hs'⟩

theorem Leads.outcome {r : Option ((Option ℕ × Nameidata) × State)} {f : Found} (h : Inv st)
    (hl : Leads t mode Seen Seen ps st r f) : Outcome st r f := by
  cases f with
  | hit nd => exact hl
  | made nd name =>
    obtain ⟨hf, st', hr, y, j, F, he⟩ := hl
    obtain ⟨hmade, hdir⟩ := he.made h hf.place
    exact ⟨st', hr, hmade, hdir.trans (he.dIsdir (by simp))⟩
  | absent =>
    obtain ⟨nd, st', hr, rfl | ⟨i, hf, -, hm⟩⟩ := hl
    · exact ⟨nd, st', hr, .refl h⟩
    · exact ⟨nd, st', hr, (hm.evolves h hf.place).1⟩
  | stuck => exact hl

/-- All threads start at the root. -/
theorem start_eq (h : Inv st) (ht : st.Running t) :
    start st t path = ⟨st.rootDentry, some 0⟩ := by
  have hhome := h.home ht
  rw [State.places, Prod.mk.injEq, Prod.mk.injEq, Prod.mk.injEq] at hhome
  obtain ⟨h₁, h₂, h₃, h₄⟩ := hhome
  rw [start, h₁, h₂, h₃, h₄, ite_self]

theorem seen_start (h : Inv st) (ht : st.Running t) : Seen st (start st t path) := by
  rw [start_eq h ht]
  exact ⟨0, rfl, .root⟩

/-- `path_lookup` computes where a path leads. -/
theorem run_pathLookup (path : List Char) (dir : Bool) (h : Inv st) (ht : st.Running t) :
    Outcome st (run (pathLookup t path dir) st) (resolvePath st t path dir) :=
  ((walkable_seen t 0).run_pathLookup h path dir (seen_start h ht)).outcome h

theorem Outcome.evolves (h : Inv st) {f : Found} {o : Option ℕ}
    (ho : Outcome st (some ((o, nd), st')) f) :
    Evolves st st' ∧ ∀ d, o = some d → nd.dentry = d ∧ Seen st' nd := by
  cases f with
  | hit nd' =>
    obtain ⟨heq, hs⟩ := ho
    simp only [Option.some.injEq, Prod.mk.injEq] at heq
    obtain ⟨⟨rfl, rfl⟩, rfl⟩ := heq
    exact ⟨.refl h, fun d hd => ⟨Option.some.inj hd, hs⟩⟩
  | made nd' name =>
    obtain ⟨st'', heq, hmade, -⟩ := ho
    simp only [Option.some.injEq, Prod.mk.injEq] at heq
    obtain ⟨⟨rfl, rfl⟩, rfl⟩ := heq
    exact ⟨hmade.evolves, fun d hd => ⟨Option.some.inj hd, hmade.seen⟩⟩
  | absent =>
    obtain ⟨nd', st'', heq, hev⟩ := ho
    simp only [Option.some.injEq, Prod.mk.injEq] at heq
    obtain ⟨⟨rfl, rfl⟩, rfl⟩ := heq
    exact ⟨hev, fun d hd => nomatch hd⟩
  | stuck => exact nomatch ho

theorem Outcome.some_cases {f : Found} {d : ℕ} (ho : Outcome st (some ((some d, nd), st')) f) :
    (f = .hit nd ∧ st' = st ∧ nd.dentry = d) ∨
      ∃ nd' name, f = .made nd' name ∧ d = st.dentries.size ∧ Made st st' nd' name ∧
        (st'.dentry d).dIsdir = false := by
  cases f with
  | hit nd' =>
    obtain ⟨heq, -⟩ := ho
    simp only [Option.some.injEq, Prod.mk.injEq] at heq
    obtain ⟨⟨rfl, rfl⟩, rfl⟩ := heq
    exact .inl ⟨rfl, rfl, rfl⟩
  | made nd' name =>
    obtain ⟨st₁, heq, hmade, hfile⟩ := ho
    simp only [Option.some.injEq, Prod.mk.injEq] at heq
    obtain ⟨⟨rfl, -⟩, rfl⟩ := heq
    exact .inr ⟨nd', name, rfl, rfl, hmade, hfile⟩
  | absent =>
    obtain ⟨nd', st₁, heq, -⟩ := ho
    simp at heq
  | stuck => exact nomatch ho

end PathLookup

section MakePath

variable {st st' : State} {t : ℕ} {mode : UInt16} {ps : List Part} {file : Bool} {o : Option ℕ}

theorem Walked.evolves (h : Inv st) (hw : Walked t mode Inv Seen ps file o st st') :
    Evolves st st' := by
  obtain ⟨st₁, hr, hst'⟩ := hw.steps
  have hev : Evolves st st₁ :=
    hr.invariant (.refl h) fun hev hi hm => hev.trans (hm.evolves hev.inv hi.1.place).1
  rcases hst' with rfl | ⟨-, i, hf, -, -, hm⟩
  · exact hev
  · exact hev.trans (hm.evolves hev.inv hf.place).1

end MakePath

end NSOS.Vfs
