import NSOS.Vfs.Agree
import NSOS.Vfs.Reference

/-! # Up again

A walk that enters a directory by its name and leaves it by `..` is back where
it was, also when a mount covers the directory. What a mount remembers of its
mountpoint still is how the walk got there.
-/

namespace NSOS.Vfs

open Basis Prog

section Paths

variable {st : State} {nd nd' : Nameidata} {p q x : List Char} {ps qs : List Part}
  {dir : Bool}

theorem components_append (p q : List Char) :
    components (p ++ '/' :: q) = components p ++ components q := by
  rw [components, List.splitOn_append_cons_self, List.filter_append]
  rfl

theorem partsOf_append (p q : List Char) : partsOf (p ++ '/' :: q) = partsOf p ++ partsOf q := by
  rw [partsOf_eq, components_append, List.map_append, ← partsOf_eq, ← partsOf_eq]

theorem partsOf_name (hx : ValidName x) : partsOf x = [.name x] := by
  obtain ⟨hne, hslash, hdot, hdd⟩ := hx
  rw [partsOf_eq, components, List.splitOn_eq_singleton hslash,
    List.filter_cons_of_pos (by simpa using hne)]
  simp [Part.of, hdot, hdd]

theorem partsOf_dotdot : partsOf "..".toList = [.dotdot] := by decide

theorem resolve_append_of_hit (h : resolve st true ps nd = .hit nd') (dir : Bool) :
    resolve st dir (ps ++ qs) nd = resolve st dir qs nd' := by
  induction ps generalizing nd with
  | nil => cases h; rfl
  | cons p ps ih =>
    rw [resolve] at h
    rw [List.cons_append, resolve]
    cases hgo : goTo st nd p with
    | hit nd₁ =>
      rw [hgo] at h
      dsimp only at h ⊢
      split at h
      · cases h
      case isFalse hnot =>
        rw [if_neg fun hc => hnot ⟨hc.1, .inr rfl, hc.2.2⟩]
        exact ih h
    | made nd₁ name => simp [hgo] at h
    | absent => simp [hgo] at h
    | stuck => simp [hgo] at h

theorem resolve_of_true (h : resolve st true ps nd = .hit nd') (dir : Bool) :
    resolve st dir ps nd = .hit nd' := by
  rw [← List.append_nil ps, resolve_append_of_hit h, resolve]

theorem resolve_append_hit (hqs : qs ≠ []) (h : resolve st dir (ps ++ qs) nd = .hit nd') :
    ∃ nd₁, resolve st true ps nd = .hit nd₁ ∧ resolve st dir qs nd₁ = .hit nd' := by
  induction ps generalizing nd with
  | nil => exact ⟨nd, rfl, h⟩
  | cons p ps ih =>
    have hne : ps ++ qs ≠ [] := fun he => hqs (List.append_eq_nil_iff.mp he).2
    rw [List.cons_append, resolve] at h
    rw [resolve]
    cases hgo : goTo st nd p with
    | hit nd₁ =>
      rw [hgo] at h
      dsimp only at h ⊢
      split at h
      · cases h
      case isFalse hnot =>
        rw [if_neg fun hc => hnot ⟨hc.1, .inl hne, hc.2.2⟩]
        exact ih h
    | made nd₁ name => simp [hgo, hne] at h
    | absent => simp [hgo] at h
    | stuck => simp [hgo] at h

end Paths

section Up

variable {st st' : State} {nd nd' : Nameidata} {x : List Char} {t : ℕ} {op : Op}

def RootMounted (st : State) : Prop := (st.mount 0).mntMountpoint = st.rootDentry

/-- `..` undoes the step into an entry. -/
theorem Seen.climb_look (h : Inv st) (hroot : RootMounted st) (hs : Seen st nd)
    (hl : look st nd x = .hit nd') : Vfs.climb st nd' = .hit nd := by
  obtain ⟨d, mnt⟩ := nd
  obtain ⟨m, rfl, hv⟩ := hs
  rw [look] at hl
  cases hc : st.childNamed d x with
  | none =>
    simp only [hc] at hl
    exact absurd hl askDriver_ne_hit
  | some c =>
    simp only [hc] at hl
    obtain ⟨hlt, hp, hne⟩ := h.wf.childNamed_spec (hv.inTree h.wf).1 hc
    have hself : st.parent c ≠ c := fun he => hne (he.symm.trans hp)
    have hcr : c ≠ st.rootDentry := by
      rintro rfl
      exact hself h.wf.root_self
    unfold Vfs.arrive at hl
    cases hcov : st.covered c with
    | false =>
      rw [if_neg (by rw [hcov]; decide)] at hl
      cases hl
      rw [Vfs.climb, if_neg hcr, if_neg hself, hp]
    | true =>
      rw [if_pos hcov] at hl
      cases htop : st.topMount c with
      | none =>
        rw [htop] at hl
        cases hl
      | some m' =>
        rw [htop] at hl
        cases hl
        have hon := Namespace.topMount_on htop
        have hlt' := h.wf.topMount_lt htop
        -- The mount on `c` is not the root mount, as `c` is not the root.
        have hroot' : (st.mount m').mntRoot ≠ st.rootDentry := fun he => by
          have hzero : m' = 0 := h.wf.mntRoot_inj hlt' h.wf.zero_lt (he.trans h.wf.root_mnt.symm)
          rw [hzero, hroot] at hon
          exact hcr hon.symm
        have hvis : st.Visible (st.mount m').mntRoot m' := .cross hv hlt hp hne hcov htop
        obtain ⟨p, hpar, -, hup⟩ := hvis.out h.wf (h.wf.mntRoot_root hlt') hroot'
        rw [hon, hp] at hup
        rw [Vfs.climb, if_neg hroot', if_pos (h.wf.mntRoot_root hlt')]
        dsimp only
        rw [hon, hp, hpar, hup.mount_unique h.wf hv]

theorem Evolves.rootMounted (he : Evolves st st') (h : RootMounted st) : RootMounted st' := by
  rw [RootMounted, he.grown.mount, he.grown.rootDentry]
  exact h

theorem rootMounted_started (h : Started st) : RootMounted st := by
  obtain ⟨st₀, st₁, hb, hr, rfl⟩ := h
  obtain ⟨x, j, st₂, -, -, hst⟩ := started_namespace hb hr
  have hns := congrArg State.toNamespace hst
  have hzero : st₁.mount 0 = ⟨0, 0, none, none, 0⟩ := by simp [hns, Namespace.mount]
  have hroot : st₁.rootDentry = 0 := by rw [hns]
  change (st₁.mount 0).mntMountpoint = st₁.rootDentry
  rw [hzero, hroot]

theorem rootMounted_exec (h : Inv st) (hroot : RootMounted st) (hs : exec st op = some st') :
    RootMounted st' := by
  cases reshapes_of_exec h hs with
  | grown hev => exact hev.rootMounted hroot
  | mounted hm =>
    rw [RootMounted, hm.mount_of_lt h.wf.zero_lt, hm.namespace_eq]
    exact hroot
  | unmounted hu =>
    obtain ⟨n, hn⟩ := Namespace.mount_dropMount st.toNamespace _ 0
    rw [RootMounted, hu.state_eq, hn, Namespace.rootDentry_dropMount]
    exact hroot
  | kept hns hfreed =>
    rw [RootMounted, hns]
    exact hroot

theorem Reach.rootMounted {P : State → Op → Prop} (hr : Reach st P) : RootMounted st := by
  obtain ⟨st₀, h₀, hr⟩ := hr
  have hboth : Inv st ∧ RootMounted st :=
    hr.invariant (I := fun st => Inv st ∧ RootMounted st)
      ⟨inv_started h₀, rootMounted_started h₀⟩
      fun h _ hs => ⟨inv_exec h.1 hs, rootMounted_exec h.1 h.2 hs⟩
  exact hboth.2

/-- Behind a path to a directory `..` leads to the dentry and the mount that the path without its
last component leads to. -/
theorem dotdot_returns (h : Reachable st) (ht : st.Running t) (p : List Char) (hx : ValidName x)
    {dir : Bool} {d : ℕ}
    (hr : run (pathLookup t (p ++ '/' :: x) dir) st = some ((some d, nd'), st'))
    (hd : (st'.dentry d).dIsdir = true) : ∃ nd, ∀ flag,
      run (pathLookup t p flag) st' = some ((some nd.dentry, nd), st') ∧
      run (pathLookup t (p ++ '/' :: x ++ '/' :: "..".toList) flag) st' =
        some ((some nd.dentry, nd), st') := by
  have hinv := Reach.inv h
  have hout := run_pathLookup (p ++ '/' :: x) dir hinv ht
  rw [hr] at hout
  -- A driver makes no directories, so the place is in memory and nothing has changed.
  obtain ⟨hres, rfl, rfl⟩ : resolvePath st t (p ++ '/' :: x) dir = .hit nd' ∧ st' = st ∧
      d = nd'.dentry := by
    rcases hout.some_cases with ⟨hf, hst, hnd⟩ | ⟨nd₁, name, -, -, -, hfile⟩
    · exact ⟨hf, hst, hnd.symm⟩
    · rw [hfile] at hd
      cases hd
  have hstart : ∀ path, start st' t path = ⟨st'.rootDentry, some 0⟩ := fun path =>
    start_eq hinv ht
  rw [resolvePath, hstart, partsOf_append, partsOf_name hx] at hres
  obtain ⟨nd, hp, hlast⟩ := resolve_append_hit (List.cons_ne_nil _ _) hres
  have hlook : look st' nd x = .hit nd' := by
    rw [resolve, goTo] at hlast
    cases hl : look st' nd x with
    | hit nd₁ =>
      simp only [hl] at hlast
      split at hlast
      · cases hlast
      · exact hlast
    | made nd₁ name =>
      simp only [hl] at hlast
      split at hlast <;> cases hlast
    | absent => simp [hl] at hlast
    | stuck => simp [hl] at hlast
  have hfound : ∀ flag, resolvePath st' t p flag = .hit nd := fun flag => by
    rw [resolvePath, hstart]
    exact resolve_of_true hp _
  have hrun : ∀ flag, run (pathLookup t p flag) st' = some ((some nd.dentry, nd), st') ∧
      Seen st' nd := fun flag => by
    have hleads := run_pathLookup p flag hinv ht
    rw [hfound flag] at hleads
    exact hleads
  have hclimb := (hrun false).2.climb_look hinv h.rootMounted hlook
  refine ⟨nd, fun flag => ⟨(hrun flag).1, ?_⟩⟩
  have hleads := run_pathLookup (p ++ '/' :: x ++ '/' :: "..".toList) flag hinv ht
  have hback : resolvePath st' t (p ++ '/' :: x ++ '/' :: "..".toList) flag = .hit nd := by
    rw [resolvePath, hstart, partsOf_append, partsOf_append, partsOf_name hx, partsOf_dotdot,
      List.append_assoc (partsOf p), resolve_append_of_hit hp, List.singleton_append,
      resolve_cons (show goTo st' nd (.name x) = .hit nd' from hlook) fun _ _ => hd, resolve, goTo,
      hclimb]
    rfl
  rw [hback] at hleads
  exact hleads.1

/-- From the root of a file system on `/a` the walk comes back to `/`. -/
theorem dotdot_returns_mounted : ∃ st st' nd,
    exec withRamdisk (.call 1 (.mount "/a".toList 3)) = some st ∧ ∀ flag,
      run (pathLookup 1 [] flag) st' = some ((some nd.dentry, nd), st') ∧
      run (pathLookup 1 "/a/..".toList flag) st' = some ((some nd.dentry, nd), st') := by
  have hret : ((exec withRamdisk (.call 1 (.mount "/a".toList 3))).bind fun st =>
      (run (pathLookup 1 "/a".toList false) st).map fun r =>
        (decide (st.Running 1), r.1.1, (r.2.dentry 4).dIsdir)) = some (true, some 4, true) := by
    decide +kernel
  obtain ⟨st, hst, hret⟩ := Option.bind_eq_some_iff.mp hret
  obtain ⟨⟨⟨o, nd'⟩, st'⟩, hr, heq⟩ := Option.map_eq_some_iff.mp hret
  simp only [Prod.mk.injEq, decide_eq_true_eq] at heq
  obtain ⟨ht, rfl, hdir⟩ := heq
  have hreach : Reachable st := by
    obtain ⟨st₀, h₀, hrun⟩ := reachable_withRamdisk
    exact ⟨st₀, h₀, hrun.tail trivial hst⟩
  have hx : ValidName "a".toList := ⟨by decide, by decide, by decide, by decide⟩
  obtain ⟨nd, hnd⟩ := dotdot_returns hreach ht [] hx hr hdir
  exact ⟨st, st', nd, hst, hnd⟩

end Up

end NSOS.Vfs
