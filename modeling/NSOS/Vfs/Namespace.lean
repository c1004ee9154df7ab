import NSOS.Vfs.State
import Mathlib.Dynamics.FixedPoints.Basic
import Mathlib.Data.List.Count

/-! # Trees of dentries

The dentries form trees whose roots are their own parents, and each mount puts
the root of a tree on a dentry of another one. The invariant of this structure
is kept when a dentry is made and linked, and when a mount is added or dropped.
-/

namespace NSOS.Vfs

open Basis

namespace Namespace

section Views

variable (ns : Namespace)

def parent (d : ℕ) : ℕ := (ns.dentry d).dParent

/-- The entries of a directory that are in memory, the newest one first. -/
def entries (d : ℕ) : List ℕ :=
  links (fun c => (ns.dentry c).dChild) (ns.dentries.size + 1) (ns.dentry d).dSubdirs

/-- The listed mounts, the newest one first. -/
def mountList : List ℕ := links (fun m => (ns.mount m).mntNext) (ns.mounts.size + 1) ns.mntHead

def childNamed (d : ℕ) (name : List Char) : Option ℕ :=
  (ns.entries d).find? fun c => (ns.dentry c).dIname = name

def topMount (d : ℕ) : Option ℕ :=
  ns.mountList.find? fun m => (ns.mount m).mntMountpoint = d

def covered (d : ℕ) : Bool := (ns.dentry d).dIsdir = true && (ns.dentry d).dMounted ≠ 0

def InTree (d r : ℕ) : Prop := ∃ n, ns.parent^[n] d = r

def mountsOn (d : ℕ) : ℕ := ns.mountList.countP fun m => (ns.mount m).mntMountpoint = d

/-- The dentries and mounts in memory form trees. -/
structure Wf : Prop where
  root_lt : ns.rootDentry < ns.dentries.size
  parent_le : ∀ {d}, d < ns.dentries.size → ns.parent d ≤ d
  subdirs : ∀ {d}, d < ns.dentries.size →
    ∃ l, Chain (fun c => (ns.dentry c).dChild) (ns.dentry d).dSubdirs l ∧
      ∀ c ∈ l, c < ns.dentries.size ∧ ns.parent c = d ∧ d < c
  zero_lt : 0 < ns.mounts.size
  root_mnt : (ns.mount 0).mntRoot = ns.rootDentry
  listed : ∃ l, Chain (fun m => (ns.mount m).mntNext) ns.mntHead l ∧ ∀ m ∈ l, m < ns.mounts.size
  mntRoot_lt : ∀ {m}, m < ns.mounts.size → (ns.mount m).mntRoot < ns.dentries.size
  mntRoot_root : ∀ {m}, m < ns.mounts.size →
    ns.parent (ns.mount m).mntRoot = (ns.mount m).mntRoot
  mntRoot_inj : ∀ {m m'}, m < ns.mounts.size → m' < ns.mounts.size →
    (ns.mount m).mntRoot = (ns.mount m').mntRoot → m = m'
  mountpoint_lt : ∀ {m}, m < ns.mounts.size → (ns.mount m).mntMountpoint < ns.dentries.size
  above : ∀ {m}, m < ns.mounts.size → m ≠ 0 → ∃ p < ns.mounts.size,
    (ns.mount m).mntParent = some p ∧ ns.InTree (ns.mount m).mntMountpoint (ns.mount p).mntRoot
  mounted : ∀ {d}, d < ns.dentries.size →
    (ns.dentry d).dMounted = ns.mountsOn d - if d = ns.rootDentry then 1 else 0

/-- The places that paths lead to: dentries that are not covered, in the tree of a mount. -/
inductive Visible : ℕ → ℕ → Prop
  | root : Visible ns.rootDentry 0
  | down {e m c : ℕ} : Visible e m → c < ns.dentries.size → ns.parent c = e → c ≠ e →
      ns.covered c = false → Visible c m
  | cross {e m c m' : ℕ} : Visible e m → c < ns.dentries.size → ns.parent c = e → c ≠ e →
      ns.covered c = true → ns.topMount c = some m' → Visible (ns.mount m').mntRoot m'

end Views

section Wf

variable {ns : Namespace} {d e m p r r' : ℕ} {l : List ℕ}

theorem Wf.parent_lt (h : ns.Wf) (hd : d < ns.dentries.size) : ns.parent d < ns.dentries.size :=
  (h.parent_le hd).trans_lt hd

theorem Wf.chain_entries (h : ns.Wf) (hd : d < ns.dentries.size) :
    Chain (fun c => (ns.dentry c).dChild) (ns.dentry d).dSubdirs (ns.entries d) ∧
      ∀ c ∈ ns.entries d, c < ns.dentries.size ∧ ns.parent c = d ∧ d < c := by
  obtain ⟨l, hl, hmem⟩ := h.subdirs hd
  have hlen := hl.length_le fun c hc => (hmem c hc).1
  rw [entries, hl.links_eq (by omega)]
  exact ⟨hl, hmem⟩

theorem Wf.length_entries (h : ns.Wf) (hd : d < ns.dentries.size) :
    (ns.entries d).length < ns.dentries.size + 1 := by
  obtain ⟨hl, hmem⟩ := h.chain_entries hd
  have := hl.length_le fun c hc => (hmem c hc).1
  omega

theorem Wf.chain_mountList (h : ns.Wf) :
    Chain (fun m => (ns.mount m).mntNext) ns.mntHead ns.mountList ∧
      ∀ m ∈ ns.mountList, m < ns.mounts.size := by
  obtain ⟨l, hl, hmem⟩ := h.listed
  have hlen := hl.length_le hmem
  rw [mountList, hl.links_eq (by omega)]
  exact ⟨hl, hmem⟩

theorem Wf.length_mountList (h : ns.Wf) : ns.mountList.length < ns.mounts.size + 1 := by
  obtain ⟨hl, hmem⟩ := h.chain_mountList
  have := hl.length_le hmem
  omega

theorem Wf.root_self (h : ns.Wf) : ns.parent ns.rootDentry = ns.rootDentry := by
  have := h.mntRoot_root h.zero_lt
  rwa [h.root_mnt] at this

theorem Wf.topMount_lt (h : ns.Wf) (hm : ns.topMount d = some m) : m < ns.mounts.size :=
  h.chain_mountList.2 m (List.mem_of_find?_eq_some hm)

theorem topMount_on (hm : ns.topMount d = some m) : (ns.mount m).mntMountpoint = d := by
  simpa using List.find?_some hm

theorem Wf.childNamed_spec (h : ns.Wf) (hd : d < ns.dentries.size) {name : List Char} {c : ℕ}
    (hc : ns.childNamed d name = some c) :
    c < ns.dentries.size ∧ ns.parent c = d ∧ c ≠ d := by
  obtain ⟨h₁, h₂, h₃⟩ := (h.chain_entries hd).2 c (List.mem_of_find?_eq_some hc)
  exact ⟨h₁, h₂, by omega⟩

theorem Wf.topMount_isSome (h : ns.Wf) (hd : d < ns.dentries.size) (hp : ns.parent d ≠ d)
    (hc : ns.covered d = true) : ∃ m, ns.topMount d = some m := by
  have hne : d ≠ ns.rootDentry := by
    rintro rfl
    exact hp h.root_self
  simp only [covered, Bool.and_eq_true, decide_eq_true_eq] at hc
  have hcount : 0 < ns.mountsOn d := by
    have := h.mounted hd
    rw [if_neg hne] at this
    omega
  obtain ⟨m, hm, hon⟩ := List.countP_pos_iff.mp hcount
  exact Option.isSome_iff_exists.mp (List.find?_isSome.mpr ⟨m, hm, hon⟩)

theorem InTree.refl (d : ℕ) : ns.InTree d d := ⟨0, rfl⟩

theorem InTree.up (h : ns.InTree (ns.parent d) r) : ns.InTree d r := by
  obtain ⟨n, hn⟩ := h
  exact ⟨n + 1, hn⟩

theorem InTree.eq_of_root (h : ns.InTree d r) (hd : ns.parent d = d) : r = d := by
  obtain ⟨n, hn⟩ := h
  exact hn.symm.trans ((show Function.IsFixedPt ns.parent d from hd).iterate n)

theorem Wf.le_of_inTree (h : ns.Wf) (hd : d < ns.dentries.size) (ht : ns.InTree d r) : r ≤ d := by
  obtain ⟨n, hn⟩ := ht
  induction n generalizing d with
  | zero => exact hn.ge
  | succ n ih =>
    have hle := h.parent_le hd
    exact (ih (hle.trans_lt hd) hn).trans hle

/-- Climbing ends at one root only. -/
theorem InTree.unique (h : ns.InTree d r) (h' : ns.InTree d r') (hr : ns.parent r = r)
    (hr' : ns.parent r' = r') : r = r' := by
  obtain ⟨n, hn⟩ := h
  obtain ⟨n', hn'⟩ := h'
  calc r = ns.parent^[n'] r := ((show Function.IsFixedPt ns.parent r from hr).iterate n').symm
    _ = ns.parent^[n'] (ns.parent^[n] d) := by rw [hn]
    _ = ns.parent^[n] (ns.parent^[n'] d) := by
        rw [← Function.iterate_add_apply, ← Function.iterate_add_apply, Nat.add_comm]
    _ = r' := by rw [hn', (show Function.IsFixedPt ns.parent r' from hr').iterate n]

theorem Visible.inTree (h : ns.Wf) (hv : ns.Visible d m) :
    d < ns.dentries.size ∧ m < ns.mounts.size ∧ ns.InTree d (ns.mount m).mntRoot := by
  induction hv with
  | root => exact ⟨h.root_lt, h.zero_lt, h.root_mnt.symm ▸ .refl _⟩
  | down _ hc hp _ _ ih =>
    obtain ⟨-, hm, ht⟩ := ih
    subst hp
    exact ⟨hc, hm, ht.up⟩
  | cross _ _ _ _ _ ht _ =>
    have hm := h.topMount_lt ht
    exact ⟨h.mntRoot_lt hm, hm, .refl _⟩

/-- A dentry is visible in one mount only. -/
theorem Visible.mount_unique (h : ns.Wf) {m' : ℕ} (hv : ns.Visible d m) (hv' : ns.Visible d m') :
    m = m' := by
  obtain ⟨-, hm, ht⟩ := hv.inTree h
  obtain ⟨-, hm', ht'⟩ := hv'.inTree h
  exact h.mntRoot_inj hm hm' (ht.unique ht' (h.mntRoot_root hm) (h.mntRoot_root hm'))

theorem Visible.not_covered (h : ns.Wf) (hv : ns.Visible d m) (hp : ns.parent d ≠ d) :
    ns.covered d = false := by
  cases hv with
  | root => exact absurd h.root_self hp
  | down _ _ _ _ hc => exact hc
  | cross _ _ _ _ _ ht => exact absurd (h.mntRoot_root (h.topMount_lt ht)) hp

theorem Visible.up (h : ns.Wf) (hv : ns.Visible d m) (hp : ns.parent d ≠ d) :
    ns.Visible (ns.parent d) m := by
  cases hv with
  | root => exact absurd h.root_self hp
  | down hv _ he _ _ => exact he ▸ hv
  | cross _ _ _ _ _ ht => exact absurd (h.mntRoot_root (h.topMount_lt ht)) hp

theorem Visible.out (h : ns.Wf) (hv : ns.Visible d m) (hp : ns.parent d = d)
    (hr : d ≠ ns.rootDentry) : ∃ p, (ns.mount m).mntParent = some p ∧
      ns.parent (ns.mount m).mntMountpoint ≠ (ns.mount m).mntMountpoint ∧
        ns.Visible (ns.parent (ns.mount m).mntMountpoint) p := by
  cases hv with
  | root => exact absurd rfl hr
  | down _ _ he hne _ => exact absurd (hp.symm.trans he) hne
  | @cross e m' c _ hv hc he hne _ ht =>
    have hm := h.topMount_lt ht
    have hon := topMount_on ht
    have hm₀ : m ≠ 0 := by
      rintro rfl
      exact hr h.root_mnt
    obtain ⟨q, hq, hpar, htree⟩ := h.above hm hm₀
    obtain ⟨-, hm', hte⟩ := hv.inTree h
    rw [hon] at htree
    have htc : ns.InTree c (ns.mount m').mntRoot := InTree.up (he.symm ▸ hte)
    have heq : q = m' := h.mntRoot_inj hq hm'
      (htree.unique htc (h.mntRoot_root hq) (h.mntRoot_root hm'))
    refine ⟨q, hpar, ?_, ?_⟩
    · rw [hon, he]
      exact hne.symm
    · rw [hon, he, heq]
      exact hv

theorem Visible.mem_mountList (hv : ns.Visible d m) (h₀ : 0 ∈ ns.mountList) : m ∈ ns.mountList := by
  induction hv with
  | root => exact h₀
  | down _ _ _ _ _ ih => exact ih
  | cross _ _ _ _ _ ht => exact List.mem_of_find?_eq_some ht

end Wf

section Grown

variable {ns ns' ns'' : Namespace} {d m r : ℕ}

/-- The mounts and the dentries stay what they are, but for the links between the dentries. There
may be more dentries. -/
structure Grown (ns ns' : Namespace) : Prop where
  mounts : ns'.mounts = ns.mounts
  mntHead : ns'.mntHead = ns.mntHead
  rootDentry : ns'.rootDentry = ns.rootDentry
  size_le : ns.dentries.size ≤ ns'.dentries.size
  old : ∀ {d}, d < ns.dentries.size →
    ∃ c s, ns'.dentry d = { ns.dentry d with dChild := c, dSubdirs := s }

theorem Grown.refl : Grown ns ns := ⟨rfl, rfl, rfl, le_rfl, fun _ => ⟨_, _, rfl⟩⟩

theorem Grown.trans (h : Grown ns ns') (h' : Grown ns' ns'') : Grown ns ns'' where
  mounts := h'.mounts.trans h.mounts
  mntHead := h'.mntHead.trans h.mntHead
  rootDentry := h'.rootDentry.trans h.rootDentry
  size_le := h.size_le.trans h'.size_le
  old hd := by
    obtain ⟨c, s, hc⟩ := h.old hd
    obtain ⟨c', s', hc'⟩ := h'.old (hd.trans_le h.size_le)
    exact ⟨c', s', by rw [hc', hc]⟩

theorem Grown.parent (h : Grown ns ns') (hd : d < ns.dentries.size) :
    ns'.parent d = ns.parent d := by
  obtain ⟨c, s, hc⟩ := h.old hd
  rw [Namespace.parent, hc, Namespace.parent]

theorem Grown.covered (h : Grown ns ns') (hd : d < ns.dentries.size) :
    ns'.covered d = ns.covered d := by
  obtain ⟨c, s, hc⟩ := h.old hd
  simp only [Namespace.covered, hc]

theorem Grown.mount (h : Grown ns ns') : ns'.mount m = ns.mount m := by
  rw [Namespace.mount, h.mounts, Namespace.mount]

theorem Grown.mountList (h : Grown ns ns') : ns'.mountList = ns.mountList := by
  simp only [Namespace.mountList, Namespace.mount, h.mounts, h.mntHead]

theorem Grown.topMount (h : Grown ns ns') : ns'.topMount d = ns.topMount d := by
  simp only [Namespace.topMount, h.mountList, h.mount]

theorem Grown.mountsOn (h : Grown ns ns') : ns'.mountsOn d = ns.mountsOn d := by
  simp only [Namespace.mountsOn, h.mountList, h.mount]

theorem Wf.inTree_iff (h : ns.Wf) (he : ∀ {d}, d < ns.dentries.size → ns'.parent d = ns.parent d)
    (hd : d < ns.dentries.size) : ns'.InTree d r ↔ ns.InTree d r := by
  have hiter : ∀ n, ns'.parent^[n] d = ns.parent^[n] d := by
    intro n
    induction n generalizing d with
    | zero => rfl
    | succ n ih =>
      rw [Function.iterate_succ_apply, Function.iterate_succ_apply, he hd]
      exact ih (h.parent_lt hd)
  simp only [InTree, hiter]

theorem Wf.inTree_congr (h : ns.Wf) (he : ∀ {d}, d < ns.dentries.size → ns'.parent d = ns.parent d)
    (hd : d < ns.dentries.size) (ht : ns.InTree d r) : ns'.InTree d r := (h.inTree_iff he hd).mpr ht

theorem Visible.grown (h : Grown ns ns') (hv : ns.Visible d m) : ns'.Visible d m := by
  induction hv with
  | root => exact h.rootDentry ▸ .root
  | down _ hc hp hne hcov ih =>
    refine .down ih (hc.trans_le h.size_le) ?_ hne ?_
    · rw [h.parent hc, hp]
    · rw [h.covered hc, hcov]
  | cross _ hc hp hne hcov ht ih =>
    rw [← h.mount]
    refine .cross ih (hc.trans_le h.size_le) ?_ hne ?_ ?_
    · rw [h.parent hc, hp]
    · rw [h.covered hc, hcov]
    · rw [h.topMount, ht]

/-- What more dentries and other links must respect for the trees to stay trees. -/
theorem Wf.grown (h : ns.Wf) (hg : Grown ns ns')
    (hparent : ∀ {d}, ns.dentries.size ≤ d → d < ns'.dentries.size → ns'.parent d ≤ d)
    (hmounted : ∀ {d}, ns.dentries.size ≤ d → d < ns'.dentries.size → (ns'.dentry d).dMounted = 0)
    (hsubdirs : ∀ {d}, d < ns'.dentries.size →
      ∃ l, Chain (fun c => (ns'.dentry c).dChild) (ns'.dentry d).dSubdirs l ∧
        ∀ c ∈ l, c < ns'.dentries.size ∧ ns'.parent c = d ∧ d < c) : ns'.Wf where
  root_lt := by
    rw [hg.rootDentry]
    exact h.root_lt.trans_le hg.size_le
  parent_le {d} hd := by
    by_cases hold : d < ns.dentries.size
    · rw [hg.parent hold]
      exact h.parent_le hold
    · exact hparent (by omega) hd
  subdirs := hsubdirs
  zero_lt := by
    rw [hg.mounts]
    exact h.zero_lt
  root_mnt := by rw [hg.mount, hg.rootDentry, h.root_mnt]
  listed := by
    simp only [hg.mount, hg.mounts, hg.mntHead]
    exact h.listed
  mntRoot_lt hm := by
    rw [hg.mounts] at hm
    rw [hg.mount]
    exact (h.mntRoot_lt hm).trans_le hg.size_le
  mntRoot_root hm := by
    rw [hg.mounts] at hm
    rw [hg.mount, hg.parent (h.mntRoot_lt hm), h.mntRoot_root hm]
  mntRoot_inj hm hm' he := by
    rw [hg.mounts] at hm hm'
    rw [hg.mount, hg.mount] at he
    exact h.mntRoot_inj hm hm' he
  mountpoint_lt hm := by
    rw [hg.mounts] at hm
    rw [hg.mount]
    exact (h.mountpoint_lt hm).trans_le hg.size_le
  above {m} hm hm₀ := by
    rw [hg.mounts] at hm
    obtain ⟨p, hp, hpar, ht⟩ := h.above hm hm₀
    refine ⟨p, hg.mounts.symm ▸ hp, ?_, ?_⟩
    · rw [hg.mount, hpar]
    · rw [hg.mount, hg.mount]
      exact h.inTree_congr hg.parent (h.mountpoint_lt hm) ht
  mounted {d} hd := by
    rw [hg.mountsOn, hg.rootDentry]
    by_cases hold : d < ns.dentries.size
    · obtain ⟨c, s, hc⟩ := hg.old hold
      rw [hc]
      exact h.mounted hold
    · have hroot := h.root_lt
      have hzero : ns.mountsOn d = 0 := by
        refine List.countP_eq_zero.mpr fun m hm hon => hold ?_
        have hon : (ns.mount m).mntMountpoint = d := by simpa using hon
        exact hon ▸ h.mountpoint_lt (h.chain_mountList.2 m hm)
      rw [hmounted (by omega) hd, hzero, if_neg (by omega)]
      rfl

end Grown

end Namespace

end NSOS.Vfs
