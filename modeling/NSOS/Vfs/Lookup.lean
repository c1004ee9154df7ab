import NSOS.Vfs.Entry
import NSOS.Vfs.Frame

/-! # Lookups as functions

Where one component of a path leads, as a function of the state: to a dentry
in memory, to a dentry that the driver makes, or nowhere. The programs for
`..` and for a name compute this function and keep the invariant.
-/

namespace NSOS.Vfs

open Basis Prog

inductive Found where
  /-- A place in memory. -/
  | hit (nd : Nameidata)
  /-- An entry of a directory that the driver makes for its name. -/
  | made (nd : Nameidata) (name : List Char)
  | absent
  /-- The machine halts. -/
  | stuck
  deriving DecidableEq

section Pure

variable (st : State) (nd : Nameidata)

/-- `d_revalidate` accepts every dentry, and a covered one leads to its newest mount. -/
def arrive (c : ℕ) : Found :=
  if st.covered c then
    match st.topMount c with
    | some m => .hit ⟨(st.mount m).mntRoot, some m⟩
    | none => .stuck
  else .hit ⟨c, nd.mnt⟩

/-- The driver of a directory has an entry with a name. -/
def finds (d : Driver) (dir : ℕ) (name : List Char) : Bool :=
  match d with
  | .kvfs => false
  | .procfs => st.parent dir = dir && (procEntry st.threadPool name).isSome
  | .devfs => st.parent dir = dir && (devEntry name).isSome

def askDriver (name : List Char) : Found :=
  match (st.dentry nd.dentry).dInode with
  | none => .stuck
  | some ip =>
    if finds st (st.inode ip).iOp nd.dentry name then .made nd name else .absent

def look (name : List Char) : Found :=
  match st.childNamed nd.dentry name with
  | some c => arrive st nd c
  | none => askDriver st nd name

def climb : Found :=
  if nd.dentry = st.rootDentry then .hit nd
  else if st.parent nd.dentry = nd.dentry then
    match nd.mnt with
    | none => .stuck
    | some m => .hit ⟨st.parent (st.mount m).mntMountpoint, (st.mount m).mntParent⟩
  else .hit ⟨st.parent nd.dentry, nd.mnt⟩

def Seen : Prop := ∃ m, nd.mnt = some m ∧ st.Visible nd.dentry m

end Pure

section Places

variable {st st' : State} {nd nd' : Nameidata} {name : List Char} {c : ℕ}

theorem Seen.lt (h : Inv st) (hs : Seen st nd) : nd.dentry < st.dentries.size := by
  obtain ⟨m, -, hv⟩ := hs
  exact (hv.inTree h.wf).1

theorem Seen.grown (hg : Namespace.Grown st.toNamespace st'.toNamespace) (hs : Seen st nd) :
    Seen st' nd := by
  obtain ⟨m, hm, hv⟩ := hs
  exact ⟨m, hm, hv.grown hg⟩

theorem Seen.arrive (h : Inv st) (hs : Seen st nd) (hc : c < st.dentries.size)
    (hp : st.parent c = nd.dentry) (hne : c ≠ nd.dentry) :
    ∃ nd', arrive st nd c = .hit nd' ∧ Seen st nd' := by
  obtain ⟨m, hm, hv⟩ := hs
  unfold Vfs.arrive
  cases hcov : st.covered c with
  | false =>
    rw [if_neg (by decide)]
    exact ⟨_, rfl, m, hm, .down hv hc hp hne hcov⟩
  | true =>
    obtain ⟨m', hm'⟩ := h.wf.topMount_isSome hc (fun he => hne (he.symm.trans hp)) hcov
    rw [if_pos rfl, hm']
    exact ⟨_, rfl, m', rfl, .cross hv hc hp hne hcov hm'⟩

theorem Seen.childNamed (h : Inv st) (hs : Seen st nd)
    (hc : st.childNamed nd.dentry name = some c) :
    ∃ nd', look st nd name = .hit nd' ∧ Seen st nd' := by
  obtain ⟨hlt, hp, hne⟩ := h.wf.childNamed_spec (hs.lt h) hc
  rw [look, hc]
  exact hs.arrive h hlt hp hne

theorem Seen.climb (h : Inv st) (hs : Seen st nd) :
    ∃ nd', climb st nd = .hit nd' ∧ Seen st nd' := by
  have hs' := hs
  obtain ⟨m, hm, hv⟩ := hs
  unfold Vfs.climb
  by_cases hroot : nd.dentry = st.rootDentry
  · rw [if_pos hroot]
    exact ⟨nd, rfl, hs'⟩
  · rw [if_neg hroot]
    by_cases hself : st.parent nd.dentry = nd.dentry
    · obtain ⟨p, hp, -, hvp⟩ := hv.out h.wf hself hroot
      rw [if_pos hself, hm]
      exact ⟨_, rfl, p, hp, hvp⟩
    · rw [if_neg hself]
      exact ⟨_, rfl, m, hm, hv.up h.wf hself⟩

end Places

section Programs

variable {st st' st'' : State} {nd nd' : Nameidata} {name : List Char} {c t : ℕ} {x : Dentry}
  {mode : UInt16} {k : Kind} {j : Inode} {F : List Obj} {hit : State → ℕ → Bool}

theorem run_findEntry (h : st.toNamespace.Wf) (hd : nd.dentry < st.dentries.size) :
    run (findEntry nd name) st = some (st.childNamed nd.dentry name, st) := by
  simp only [findEntry, run_bind, run_gets, Option.bind_some]
  exact search_run _ _ (h.chain_entries hd).1 (h.length_entries hd)

theorem run_findMount (h : st.toNamespace.Wf) :
    run (findMount hit) st = some (st.mountList.find? (hit st), st) := by
  simp only [findMount, run_bind, run_gets, Option.bind_some]
  exact search_run _ _ h.chain_mountList.1 h.length_mountList

theorem run_enter (h : st.toNamespace.Wf) (ha : arrive st nd c = .hit nd') :
    run (enter nd c) st = some (nd', st) := by
  obtain ⟨k, hk⟩ : ∃ k, (st.dentry c).dOp.dRevalidate = some k := by
    cases (st.dentry c).dOp <;> exact ⟨_, rfl⟩
  have hcov : st.covered c = true ↔ (st.dentry c).dIsdir = true ∧ (st.dentry c).dMounted ≠ 0 := by
    simp [Namespace.covered]
  simp only [enter, run_bind, run_gets, Option.bind_some, hk]
  unfold arrive at ha
  by_cases hc : st.covered c = true
  · rw [if_pos hc] at ha
    cases hm : st.topMount c with
    | none =>
      rw [hm] at ha
      cases ha
    | some m =>
      rw [hm] at ha
      cases ha
      rw [if_pos (hcov.mp hc), run_bind, run_findMount h, Option.bind_some]
      have hm' : (st.mountList.find? fun m => (st.mount m).mntMountpoint = c) = some m := hm
      simp only [hm', run_demand, Option.map_some, Option.bind_some, run_bind, run_gets, run_pure]
  · rw [if_neg hc] at ha
    cases ha
    rw [if_neg fun hc' => hc (hcov.mpr hc'), run_pure]

theorem run_followDotdot (hc : climb st nd = .hit nd') :
    run (followDotdot nd) st = some (nd', st) := by
  simp only [followDotdot, run_bind, run_gets, Option.bind_some]
  unfold climb at hc
  by_cases hroot : nd.dentry = st.rootDentry
  · rw [if_pos hroot] at hc ⊢
    cases hc
    rfl
  · rw [if_neg hroot] at hc ⊢
    rw [run_bind, run_gets, Option.bind_some]
    by_cases hself : st.parent nd.dentry = nd.dentry
    · rw [if_pos hself] at hc
      rw [if_pos (show (st.dentry nd.dentry).dParent = nd.dentry from hself)]
      cases hm : nd.mnt with
      | none =>
        rw [hm] at hc
        cases hc
      | some m =>
        rw [hm] at hc
        cases hc
        rfl
    · rw [if_neg hself] at hc
      rw [if_neg (show (st.dentry nd.dentry).dParent ≠ nd.dentry from hself)]
      cases hc
      rfl

theorem finds_eq_isSome (st : State) (d : Driver) (dir : ℕ) (name : List Char) :
    finds st d dir name = (driverEntry st d dir name).isSome := by
  by_cases h : st.parent dir = dir
  · cases d <;> simp [finds, driverEntry, h]
  · cases d <;> simp [finds, driverEntry, h]

/-- A new dentry has been linked below a place, and is a place itself. -/
structure Made (st st' : State) (nd : Nameidata) (name : List Char) : Prop where
  evolves : Evolves st st'
  lt : st.dentries.size < st'.dentries.size
  parent : (st'.dentry st.dentries.size).dParent = nd.dentry
  iname : (st'.dentry st.dentries.size).dIname = name
  seen : Seen st' ⟨st.dentries.size, nd.mnt⟩

theorem Entered.rest (he : Entered t mode st st' nd name k x j F) : Rest st st' := by
  obtain rfl := he.state_eq
  refine ⟨Nat.le_succ _, fun hi => ?_, rfl, rfl, fun f => ?_⟩
  · rw [State.inode, Pool.obj_set_of_ne _ _ _ _ hi.ne]
    rfl
  · rw [List.mem_append]
    refine ⟨fun h => h.resolve_left fun hf => ?_, .inr⟩
    rcases he.freed _ hf with h | h | h
    · cases h
    · cases h
    · cases h

theorem Entered.inode_lt (he : Entered t mode st st' nd name k x j F) {i : ℕ}
    (hi : x.dInode = some i) : i < st'.inodes.size := by
  have hsize : st'.inodes.size = st.inodes.size + 1 := by
    rw [he.state_eq]
    rfl
  rcases he.dInode with h | ⟨-, h⟩
  · obtain rfl := Option.some.inj (h.symm.trans hi)
    omega
  · rw [h] at hi
    cases hi

theorem Entered.dentry_size (he : Entered t mode st st' nd name k x j F)
    (hlt : nd.dentry < st.dentries.size) :
    st.dentries.size < st'.dentries.size ∧
      ∃ o, st'.dentry st.dentries.size = { x with dChild := o } := by
  rw [he.namespace_eq, Namespace.size_enter]
  exact ⟨Nat.lt_succ_self _, Namespace.dentry_enter_size hlt⟩

/-- A new entry keeps the invariant. -/
theorem Entered.evolves (h : Inv st) (hlt : nd.dentry < st.dentries.size)
    (he : Entered t mode st st' nd name k x j F) : Evolves st st' := by
  have hns := he.namespace_eq
  have hg : Namespace.Grown st.toNamespace st'.toNamespace := hns ▸ Namespace.grown_enter hlt
  refine ⟨hg, he.rest, h.grown he.rest hg (hns ▸ h.wf.enter hlt he.leaf) ?_⟩
  intro d i hd hlt' hi
  rw [hns, Namespace.size_enter] at hlt'
  obtain rfl : d = st.dentries.size := by omega
  obtain ⟨-, o, ho⟩ := he.dentry_size hlt
  rw [ho] at hi
  exact he.inode_lt hi

theorem Entered.seen (h : Inv st) (hs : Seen st nd)
    (he : Entered t mode st st' nd name k x j F) : Seen st' ⟨st.dentries.size, nd.mnt⟩ := by
  have hlt := hs.lt h
  have hev := he.evolves h hlt
  obtain ⟨hsize, o, ho⟩ := he.dentry_size hlt
  obtain ⟨m, hm, hv⟩ := hs
  refine ⟨m, hm, .down (hv.grown hev.grown) hsize ?_ hlt.ne' ?_⟩
  · rw [Namespace.parent, ho]
    exact he.dParent
  · simp [Namespace.covered, ho, he.dMounted]

theorem Entered.made (h : Inv st) (hs : Seen st nd)
    (he : Entered t mode st st' nd name k x j F) :
    Made st st' nd name ∧ (st'.dentry st.dentries.size).dIsdir = x.dIsdir := by
  have hlt := hs.lt h
  obtain ⟨hsize, o, ho⟩ := he.dentry_size hlt
  rw [ho]
  refine ⟨⟨he.evolves h hlt, hsize, ?_, ?_, he.seen h hs⟩, rfl⟩
  · rw [ho]
    exact he.dParent
  · rw [ho]
    exact he.dIname

end Programs

end NSOS.Vfs
