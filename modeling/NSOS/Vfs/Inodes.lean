import NSOS.Vfs.Tidy

/-! # Inodes in use

The inodes that the trees lead to have not been given back, and they belong to
the driver of the mount whose tree they are in. Walks keep this, and so do
mounts, as long as every file system belongs to one driver.
-/

namespace NSOS.Vfs

open Basis Prog

section Housed

def State.Live (st : State) (i : ℕ) : Prop := i < st.inodes.size ∧ .inode i ∉ st.freed

instance {st : State} {i : ℕ} : Decidable (st.Live i) := inferInstanceAs (Decidable (_ ∧ _))

def State.Lives (st : State) (d : ℕ) : Prop :=
  ∀ i, (st.dentry d).dInode = some i → st.Live i

/-- The tables of operations of a file system are those of the driver that mounts it. -/
def FsType.Genuine (f : FsType) : Prop := ∀ d, f.mount = some d → f.sop = d ∧ f.iop = d

instance {f : FsType} : Decidable f.Genuine :=
  decidable_of_iff (∀ d ∈ f.mount, f.sop = d ∧ f.iop = d) Iff.rfl

/-- Directories and entries have inodes in use, and mounts have drivers, to which the inodes in
their trees belong. -/
structure Housed (st : State) : Prop where
  freed_lt : ∀ {i}, .inode i ∈ st.freed → i < st.inodes.size
  parent : ∀ {d}, d < st.dentries.size → st.Lives (st.parent d)
  linked : ∀ {d c}, d < st.dentries.size → c ∈ st.entries d → st.Lives c
  genuine : ∀ {f}, f < st.fsTypes.size → (st.fsType f).Genuine
  driven : ∀ {m}, m < st.mounts.size →
    (st.mount m).mntFs < st.fsTypes.size ∧ (st.fsType (st.mount m).mntFs).mount ≠ none
  owner : ∀ {d m i}, d < st.dentries.size → m < st.mounts.size →
    st.InTree d (st.mount m).mntRoot → (st.dentry d).dInode = some i →
      (st.inode i).iOp = (st.fsType (st.mount m).mntFs).sop

/-- A place whose inode is in use. -/
structure LiveAt (st : State) (nd : Nameidata) : Prop extends At st nd where
  lives : st.Lives nd.dentry

/-- A directory whose inode is in use. -/
structure LiveDirAt (st : State) (nd : Nameidata) : Prop extends DirAt st nd where
  lives : st.Lives nd.dentry

variable {st st' : State} {nd nd' : Nameidata} {name : List Char} {t m c d i : ℕ} {mode : UInt16}
  {k : Kind} {y : Dentry} {j : Inode} {F : List Obj}

theorem Housed.ops (h : Housed st) (hm : m < st.mounts.size) :
    (st.fsType (st.mount m).mntFs).iop = (st.fsType (st.mount m).mntFs).sop := by
  obtain ⟨hlt, hne⟩ := h.driven hm
  obtain ⟨d, hd⟩ := Option.ne_none_iff_exists'.mp hne
  obtain ⟨hs, hi⟩ := h.genuine hlt d hd
  exact hi.trans hs.symm

theorem Housed.mntRoot (h : Housed st) (ho : Orderly st) (hm : m < st.mounts.size) :
    st.Lives (st.mount m).mntRoot := by
  have hlives := h.parent (ho.wf.mntRoot_lt hm)
  rwa [ho.wf.mntRoot_root hm] at hlives

theorem Entered.live (he : Entered t mode st st' nd name k y j F) (hi : st.Live i) :
    st'.Live i := by
  obtain ⟨hlt, hkept⟩ := hi
  rw [he.state_eq]
  refine ⟨hlt.trans (Nat.lt_succ_self _), fun hmem => ?_⟩
  rcases List.mem_append.mp hmem with hF | hold
  · rcases he.freed _ hF with h | h | h
    · cases h
      exact absurd hlt (Nat.lt_irrefl _)
    · cases h
    · cases h
  · exact hkept hold

theorem Entered.live_size (he : Entered t mode st st' nd name k y j F) (h : Housed st)
    (hk : k ≠ .lost) : st'.Live st.inodes.size := by
  rw [he.state_eq, he.linked hk]
  refine ⟨Nat.lt_succ_self _, fun hmem => ?_⟩
  exact absurd (h.freed_lt hmem) (Nat.lt_irrefl _)

theorem Entered.inode_of_lt (he : Entered t mode st st' nd name k y j F)
    (hi : i < st.inodes.size) : st'.inode i = st.inode i := by
  rw [he.state_eq, State.inode, Pool.obj_set_of_ne _ _ _ _ hi.ne]
  rfl

theorem Entered.inode_size (he : Entered t mode st st' nd name k y j F) :
    st'.inode st.inodes.size = j := by
  rw [he.state_eq, State.inode, Pool.obj_set_self]

theorem Entered.owned (he : Entered t mode st st' nd name k y j F) (h : Housed st)
    (ho : Orderly st) (hD : DirAt st nd) (hm : m < st.mounts.size)
    (ht : st.InTree nd.dentry (st.mount m).mntRoot) (hy : y.dInode ≠ none) :
    j.iOp = (st.fsType (st.mount m).mntFs).sop := by
  obtain ⟨m', hm', hnd, ht'⟩ := hD.mnt
  obtain ⟨p, hp, hop⟩ := he.owner hy
  obtain rfl : m' = p := Option.some.inj (hnd.symm.trans hp)
  have hroot := ht.unique ht' (ho.wf.mntRoot_root hm) (ho.wf.mntRoot_root hm')
  obtain rfl := ho.wf.mntRoot_inj hm hm' hroot
  rw [h.ops hm, or_self] at hop
  exact hop

/-- A new entry keeps the inodes in use. -/
theorem Entered.housed (he : Entered t mode st st' nd name k y j F) (hi : Inv st)
    (ho : Orderly st) (h : Housed st) (hD : LiveDirAt st nd) : Housed st' := by
  have hns := he.namespace_eq
  have hlt := hD.lt
  have hg : Namespace.Grown st.toNamespace st'.toNamespace := hns ▸ Namespace.grown_enter hlt
  have hsize : st'.dentries.size = st.dentries.size + 1 := by rw [hns, Namespace.size_enter]
  have hfs : st'.fsTypes = st.fsTypes := by rw [he.state_eq]
  obtain ⟨-, o, hnew⟩ := he.dentry_size hlt
  have hpar : st'.parent st.dentries.size = nd.dentry := by
    rw [Namespace.parent, hnew]
    exact he.dParent
  have hold : ∀ {d}, d < st.dentries.size → st.Lives d → st'.Lives d := fun hd hl i hi => by
    obtain ⟨a, b, hab⟩ := hg.old hd
    rw [hab] at hi
    exact he.live (hl i hi)
  have hcases : ∀ {d}, d < st'.dentries.size → d < st.dentries.size ∨ d = st.dentries.size :=
    fun hd => by omega
  constructor
  case freed_lt =>
    intro i hi
    rw [he.state_eq] at hi ⊢
    rcases List.mem_append.mp hi with hF | hi
    · rcases he.freed _ hF with h | h | h
      · cases h
        exact Nat.lt_succ_self _
      · cases h
      · cases h
    · exact (h.freed_lt hi).trans (Nat.lt_succ_self _)
  case parent =>
    intro d hd
    rcases hcases hd with hd | rfl
    · rw [hg.parent hd]
      exact hold (ho.wf.parent_lt hd) (h.parent hd)
    · rw [hpar]
      exact hold hlt hD.lives
  case linked =>
    intro d c hd hc
    rw [hns] at hc
    rcases hcases hd with hd | rfl
    · rw [Namespace.entries_enter ho.wf hlt he.leaf hd] at hc
      have hkept : c ∈ st.entries d → st'.Lives c := fun hc =>
        hold ((ho.wf.chain_entries hd).2 c hc).1 (h.linked hd hc)
      split at hc
      case isTrue hk =>
        rcases List.mem_cons.mp hc with rfl | hc
        · intro i hi
          rw [hnew] at hi
          rcases he.dInode with hy | ⟨hlost, -⟩
          · obtain rfl := Option.some.inj (hy.symm.trans hi)
            exact he.live_size h hk.1
          · exact absurd hlost hk.1
        · exact hkept hc
      case isFalse => exact hkept hc
    · rw [Namespace.entries_enter_size ho.wf hlt he.leaf] at hc
      cases hc
  case genuine =>
    intro f hf
    rw [State.fsType, hfs]
    exact h.genuine (hfs ▸ hf)
  case driven =>
    intro m hm
    rw [hg.mounts] at hm
    rw [hg.mount, State.fsType, hfs]
    exact h.driven hm
  case owner =>
    intro d m i hd hm ht hdi
    rw [hg.mounts] at hm
    rw [hg.mount] at ht ⊢
    rw [State.fsType, hfs]
    rcases hcases hd with hd | rfl
    · obtain ⟨a, b, hab⟩ := hg.old hd
      rw [hab] at hdi
      rw [he.inode_of_lt (hi.inode_lt hd hdi)]
      exact h.owner hd hm ((ho.wf.inTree_iff hg.parent hd).mp ht) hdi
    · rw [hnew] at hdi
      have hy : y.dInode ≠ none := fun hy => by
        rw [hy] at hdi
        cases hdi
      have hsome : i = st.inodes.size := by
        rcases he.dInode with hsome | ⟨-, hnone⟩
        · exact Option.some.inj (hdi.symm.trans hsome)
        · exact absurd hnone hy
      rw [hsome, he.inode_size]
      refine he.owned h ho hD.toDirAt hm ?_ hy
      obtain ⟨n, hn⟩ := ht
      cases n with
      | zero => exact absurd hn.symm (ho.wf.mntRoot_lt hm).ne
      | succ n =>
        rw [Function.iterate_succ_apply, hpar] at hn
        exact (ho.wf.inTree_iff hg.parent hlt).mp ⟨n, hn⟩

theorem Housed.congr (h : Housed st) (hns : st'.toNamespace = st.toNamespace)
    (hfs : st'.fsTypes = st.fsTypes) (hsize : st'.inodes.size = st.inodes.size)
    (hop : ∀ i, (st'.inode i).iOp = (st.inode i).iOp)
    (hfreed : ∀ i, .inode i ∈ st'.freed ↔ .inode i ∈ st.freed) : Housed st' := by
  have hlive : ∀ {d}, st.Lives d → st'.Lives d := fun hl i hi => by
    rw [hns] at hi
    obtain ⟨hlt, hkept⟩ := hl i hi
    exact ⟨hsize ▸ hlt, fun hmem => hkept ((hfreed i).mp hmem)⟩
  constructor
  case freed_lt => exact fun hi => hsize ▸ h.freed_lt ((hfreed _).mp hi)
  case parent =>
    intro d hd
    rw [hns] at hd ⊢
    exact hlive (h.parent hd)
  case linked =>
    intro d c hd hc
    rw [hns] at hd hc
    exact hlive (h.linked hd hc)
  case genuine =>
    intro f hf
    rw [State.fsType, hfs]
    exact h.genuine (hfs ▸ hf)
  case driven =>
    intro m hm
    rw [hns] at hm ⊢
    rw [State.fsType, hfs]
    exact h.driven hm
  case owner =>
    intro d m i hd hm ht hdi
    rw [hns] at hd hm ht hdi ⊢
    rw [hop, State.fsType, hfs]
    exact h.owner hd hm ht hdi

theorem Housed.newFs (h : Housed st) {f : FsType} (hf : f.Genuine) :
    Housed { st with fsTypes := st.fsTypes.grow.set st.fsTypes.size fun _ => f } := by
  have hold : ∀ {g}, g < st.fsTypes.size →
      (st.fsTypes.grow.set st.fsTypes.size fun _ => f).obj g = st.fsType g := fun hg =>
    Pool.obj_set_of_ne _ _ _ _ hg.ne
  constructor
  case freed_lt => exact h.freed_lt
  case parent => exact h.parent
  case linked => exact h.linked
  case genuine =>
    intro g hg
    have hg : g < st.fsTypes.size + 1 := hg
    by_cases hlt : g < st.fsTypes.size
    · rw [State.fsType, hold hlt]
      exact h.genuine hlt
    · obtain rfl : g = st.fsTypes.size := by omega
      rw [State.fsType, Pool.obj_set_self]
      exact hf
  case driven =>
    intro m hm
    obtain ⟨hlt, hne⟩ := h.driven hm
    rw [State.fsType, hold hlt]
    exact ⟨hlt.trans (Nat.lt_succ_self _), hne⟩
  case owner =>
    intro d m i hd hm ht hdi
    rw [State.fsType, hold (h.driven hm).1]
    exact h.owner hd hm ht hdi

theorem Mounts.housed {path dev : List Char} {fs d : ℕ} {x : Dentry} {driver : Driver} {st₁ : State}
    (hm : Mounts st st' t path fs d m x) (hi : Inv st) (ho : Orderly st) (h : Housed st)
    (hfs : fs < st.fsTypes.size) (hmount : (st.fsType fs).mount = some driver)
    (hroot : RootMade driver fs dev st st₁ x j)
    (hst : st' = { st₁ with toNamespace := st'.toNamespace }) : Housed st' := by
  have hns := hm.namespace_eq
  have hsize : st'.dentries.size = st.dentries.size + 1 := by rw [hns]; rfl
  have hmsize : st'.mounts.size = st.mounts.size + 1 := by rw [hns]; rfl
  have hinodes : st'.inodes = st.inodes.grow.set st.inodes.size fun _ => j := by
    rw [hst, hroot.state_eq]
    rfl
  have hfreed : st'.freed = st.freed := by
    rw [hst, hroot.state_eq]
    rfl
  have hfsTypes : st'.fsTypes = st.fsTypes.set fs fun f => { f with dev := dev } := by
    rw [hst, hroot.state_eq]
  have htypes : ∀ f, (st'.fsType f).mount = (st.fsType f).mount ∧
      (st'.fsType f).sop = (st.fsType f).sop ∧ (st'.fsType f).iop = (st.fsType f).iop := by
    intro f
    rw [State.fsType, hfsTypes, Pool.obj_set]
    split
    · subst f
      exact ⟨rfl, rfl, rfl⟩
    · exact ⟨rfl, rfl, rfl⟩
  have hinode : ∀ {e}, (st'.dentry e).dInode = ((st.toNamespace.born x).dentry e).dInode := by
    intro e
    rw [hns, Namespace.dentry_addMount]
    split <;> rfl
  have hold : ∀ {e}, e < st.dentries.size → (st'.dentry e).dInode = (st.dentry e).dInode := by
    intro e he
    rw [hinode, Namespace.dentry_born_of_lt he]
  have hnew : (st'.dentry st.dentries.size).dInode = some st.inodes.size := by
    rw [hinode, Namespace.dentry_born_size, hroot.dInode]
  have hpar : st'.parent = (st.toNamespace.born x).parent := by
    rw [hns, Namespace.parent_addMount]
  have hself : st'.parent st.dentries.size = st.dentries.size := by
    rw [hpar, Namespace.parent, Namespace.dentry_born_size, hm.root.parent]
  have hlives : ∀ {e}, e < st.dentries.size → st.Lives e → st'.Lives e := fun he hl i hdi => by
    rw [hold he] at hdi
    obtain ⟨hlt, hkept⟩ := hl i hdi
    refine ⟨?_, hfreed ▸ hkept⟩
    rw [hinodes]
    exact hlt.trans (Nat.lt_succ_self _)
  have hcases : ∀ {e}, e < st'.dentries.size → e < st.dentries.size ∨ e = st.dentries.size :=
    fun he => by omega
  have hlisted : ∀ {q}, q < st.mounts.size + 1 → q < st.mounts.size ∨ q = st.mounts.size :=
    fun hq => by omega
  have hup : ∀ {e}, e < st.dentries.size → st'.parent e = st.parent e := fun he => by
    rw [hpar]
    exact Namespace.grown_born.parent he
  constructor
  case freed_lt =>
    intro i hmem
    rw [hfreed] at hmem
    rw [hinodes]
    exact (h.freed_lt hmem).trans (Nat.lt_succ_self _)
  case parent =>
    intro e he
    rcases hcases he with he | rfl
    · rw [hup he]
      exact hlives (ho.wf.parent_lt he) (h.parent he)
    · intro i hdi
      rw [hself, hnew] at hdi
      obtain rfl := Option.some.inj hdi
      refine ⟨?_, fun hmem => ?_⟩
      · rw [hinodes]
        exact Nat.lt_succ_self _
      · rw [hfreed] at hmem
        exact absurd (h.freed_lt hmem) (Nat.lt_irrefl _)
  case linked =>
    intro e c he hc
    rw [hns, Namespace.entries_addMount] at hc
    rcases hcases he with he | rfl
    · rw [Namespace.entries_born ho.wf he] at hc
      exact hlives ((ho.wf.chain_entries he).2 c hc).1 (h.linked he hc)
    · rw [Namespace.entries_born_size hm.root.subdirs] at hc
      cases hc
  case genuine =>
    intro f hf d hd
    obtain ⟨h₁, h₂, h₃⟩ := htypes f
    rw [h₁] at hd
    rw [h₂, h₃]
    refine h.genuine ?_ d hd
    rw [hfsTypes] at hf
    exact hf
  case driven =>
    intro q hq
    rw [hmsize] at hq
    rw [(htypes _).1, hfsTypes]
    rcases hlisted hq with hq | rfl
    · rw [hm.mount_of_lt hq]
      exact h.driven hq
    · rw [hm.mount_new]
      exact ⟨hfs, fun hnone => (by rw [hmount] at hnone; cases hnone)⟩
  case owner =>
    intro e q i he hq ht hdi
    rw [hmsize] at hq
    rw [(htypes _).2.1]
    rcases hlisted hq with hq | rfl
    · rw [hm.mount_of_lt hq] at ht ⊢
      rcases hcases he with he | rfl
      · rw [hold he] at hdi
        rw [State.inode, hinodes, Pool.obj_set_of_ne _ _ _ _ (hi.inode_lt he hdi).ne]
        exact h.owner he hq ((ho.wf.inTree_iff hup he).mp ht) hdi
      · exact absurd (ht.eq_of_root hself) (ho.wf.mntRoot_lt hq).ne
    · rw [hm.mount_new] at ht ⊢
      dsimp only at ht ⊢
      rcases hcases he with he | rfl
      · exact absurd (ho.wf.le_of_inTree he ((ho.wf.inTree_iff hup he).mp ht)) (by omega)
      · obtain rfl := Option.some.inj (hnew.symm.trans hdi)
        rw [State.inode, hinodes, Pool.obj_set_self, hroot.iOp]
        exact (h.genuine hfs driver hmount).1.symm

theorem Unmounts.housed {path : List Char} (hu : Unmounts st st' t path nd m) (h : Housed st) :
    Housed st' := by
  obtain rfl := hu.state_eq
  have hfreed : ∀ {i}, .inode i ∈ .vfsmount m :: .fsType (st.mount m).mntFs :: st.freed →
      .inode i ∈ st.freed := by
    intro i hmem
    simpa using hmem
  have hinode : ∀ d, ((st.toNamespace.dropMount m).dentry d).dInode = (st.dentry d).dInode := by
    intro d
    rw [Namespace.dentry_dropMount]
    split <;> rfl
  have hlives : ∀ {d}, st.Lives d → State.Lives { st with
      toNamespace := st.toNamespace.dropMount m
      freed := .vfsmount m :: .fsType (st.mount m).mntFs :: st.freed } d := fun hl i hi => by
    obtain ⟨hlt, hkept⟩ := hl i ((hinode _).symm.trans hi)
    exact ⟨hlt, fun hmem => hkept (hfreed hmem)⟩
  constructor
  case freed_lt => exact fun hmem => h.freed_lt (hfreed hmem)
  case parent =>
    intro d hd
    rw [Namespace.size_dropMount] at hd
    rw [Namespace.parent_dropMount]
    exact hlives (h.parent hd)
  case linked =>
    intro d c hd hc
    rw [Namespace.size_dropMount] at hd
    rw [Namespace.entries_dropMount] at hc
    exact hlives (h.linked hd hc)
  case genuine => exact h.genuine
  case driven =>
    intro q hq
    rw [Namespace.mounts_size_dropMount] at hq
    obtain ⟨n, hn⟩ := Namespace.mount_dropMount st.toNamespace m q
    rw [hn]
    exact h.driven hq
  case owner =>
    intro d q i hd hq ht hi
    rw [Namespace.size_dropMount] at hd
    rw [Namespace.mounts_size_dropMount] at hq
    obtain ⟨n, hn⟩ := Namespace.mount_dropMount st.toNamespace m q
    rw [hn, Namespace.inTree_dropMount] at ht
    rw [hn]
    exact h.owner hd hq ht ((hinode d).symm.trans hi)

theorem housed_started (hs : Started st) : Housed st := by
  obtain ⟨st₀, st₁, hb, hr, rfl⟩ := hs
  obtain ⟨x, j, st₂, hmade, hx, hst⟩ := started_namespace hb hr
  have hsize : st₁.dentries.size = 1 := by
    rw [hst]
    change st₀.dentries.size + 1 = 1
    rw [hb.dentries]
  have hmsize : st₁.mounts.size = 1 := by
    rw [hst]
    exact hb.mounts
  have hmount : st₁.mount 0 = ⟨0, 0, none, none, 0⟩ := by simp [hst, Namespace.mount]
  have hfreed : st₁.freed = [] := by
    rw [hst, hmade.state_eq]
    exact hb.freed
  have hinodes : st₁.inodes = st₀.inodes.grow.set 0 fun _ => j := by
    rw [hst, hmade.state_eq, ← hb.inodes]
    rfl
  have hdent : st₁.dentry 0 = x := by
    have hborn : (st₀.toNamespace.born x).dentry st₀.dentries.size = x :=
      Namespace.dentry_born_size
    rw [hb.dentries] at hborn
    rw [hst]
    exact hborn
  have hfs : st₁.fsTypes = st₀.fsTypes.set 0 fun f => { f with dev := "ramdisk0".toList } := by
    rw [hst, hmade.state_eq]
  obtain ⟨hfsize, hkvfs, hprocfs, hdevfs⟩ := hb.fsTypes
  have hkvfs₁ : st₁.fsType 0 = { st₀.fsType 0 with dev := "ramdisk0".toList } := by
    rw [State.fsType, hfs]
    exact Pool.obj_set_self ..
  have hlives : ∀ {d}, d < 1 → st₁.Lives d := by
    intro d hd i hi
    obtain rfl : d = 0 := by omega
    rw [hdent, hmade.dInode, hb.inodes] at hi
    obtain rfl := Option.some.inj hi
    refine ⟨?_, by rw [hfreed]; exact List.not_mem_nil⟩
    rw [hinodes]
    exact Nat.succ_pos _
  have hself : st₁.parent 0 = 0 := by rw [Namespace.parent, hdent, hx.parent]
  constructor
  case freed_lt =>
    intro i hmem
    have hmem : .inode i ∈ st₁.freed := hmem
    rw [hfreed] at hmem
    cases hmem
  case parent =>
    intro d hd
    have hd : d < st₁.dentries.size := hd
    obtain rfl : d = 0 := by omega
    change st₁.Lives (st₁.parent 0)
    rw [hself]
    exact hlives Nat.one_pos
  case linked =>
    intro d c hd hc
    have hd : d < st₁.dentries.size := hd
    obtain rfl : d = 0 := by omega
    have hc : c ∈ st₁.entries 0 := hc
    rw [Namespace.entries, hdent, hx.subdirs] at hc
    cases hc
  case genuine =>
    intro f hf d hd
    have hf : f < st₁.fsTypes.size := hf
    rw [hfs, Pool.size_set, hfsize] at hf
    change (st₁.fsType f).mount = some d at hd
    change (st₁.fsType f).sop = d ∧ (st₁.fsType f).iop = d
    have hother : f ≠ 0 → st₁.fsType f = st₀.fsType f := fun hne => by
      rw [State.fsType, hfs]
      exact Pool.obj_set_of_ne _ _ _ _ hne
    have hcases : f = 0 ∨ f = 1 ∨ f = 2 := by omega
    rcases hcases with rfl | rfl | rfl
    · rw [hkvfs₁, hkvfs] at hd ⊢
      exact ⟨Option.some.inj hd, Option.some.inj hd⟩
    · rw [hother Nat.one_ne_zero, hprocfs] at hd ⊢
      exact ⟨Option.some.inj hd, Option.some.inj hd⟩
    · rw [hother (Nat.succ_ne_zero 1), hdevfs] at hd ⊢
      exact ⟨Option.some.inj hd, Option.some.inj hd⟩
  case driven =>
    intro m hm
    have hm : m < st₁.mounts.size := hm
    obtain rfl : m = 0 := by omega
    change (st₁.mount 0).mntFs < st₁.fsTypes.size ∧ (st₁.fsType (st₁.mount 0).mntFs).mount ≠ none
    rw [hmount, hkvfs₁, hkvfs, hfs, Pool.size_set, hfsize]
    exact ⟨by decide, by decide⟩
  case owner =>
    intro d m i hd hm ht hi
    have hd : d < st₁.dentries.size := hd
    have hm : m < st₁.mounts.size := hm
    obtain rfl : d = 0 := by omega
    obtain rfl : m = 0 := by omega
    change (st₁.inode i).iOp = (st₁.fsType (st₁.mount 0).mntFs).sop
    have hi : (st₁.dentry 0).dInode = some i := hi
    rw [hdent, hmade.dInode, hb.inodes] at hi
    obtain rfl := Option.some.inj hi
    rw [hmount, hkvfs₁, hkvfs, State.inode, hinodes, Pool.obj_set_self, hmade.iOp]
    rfl

end Housed

section Walks

variable {st st' : State} {nd : Nameidata} {t : ℕ} {mode : UInt16} {path : List Char}

/-- What walks to inodes in use rely on. -/
structure Sound (st : State) : Prop where
  inv : Inv st
  orderly : Orderly st
  housed : Housed st

theorem Sound.climb (h : Sound st) (hD : LiveDirAt st nd) :
    ∃ nd', climb st nd = .hit nd' ∧ LiveDirAt st nd' := by
  obtain ⟨nd', hc, hD'⟩ := h.orderly.climb hD.toDirAt
  refine ⟨nd', hc, hD', ?_⟩
  obtain ⟨m, hm, hnd, -⟩ := hD.mnt
  unfold Vfs.climb at hc
  split at hc
  case isTrue =>
    cases hc
    exact hD.lives
  case isFalse =>
    split at hc
    case isTrue =>
      rw [hnd] at hc
      cases hc
      exact h.housed.parent (h.orderly.wf.mountpoint_lt hm)
    case isFalse =>
      cases hc
      exact h.housed.parent hD.lt

theorem Sound.arrive {name : List Char} {c : ℕ} (h : Sound st) (hD : LiveDirAt st nd)
    (hc : st.childNamed nd.dentry name = some c) :
    ∃ nd', arrive st nd c = .hit nd' ∧ LiveAt st nd' := by
  obtain ⟨nd', ha, hP⟩ := h.orderly.arrive hD.toDirAt hc
  refine ⟨nd', ha, hP, ?_⟩
  unfold Vfs.arrive at ha
  split at ha
  case isTrue =>
    split at ha
    case h_1 m hm =>
      cases ha
      exact h.housed.mntRoot h.orderly (h.orderly.wf.topMount_lt hm)
    case h_2 => cases ha
  case isFalse =>
    cases ha
    exact h.housed.linked hD.lt (List.mem_of_find?_eq_some hc)

theorem Enters.sound {name : List Char} {k : Kind} (he : Enters t mode st nd name k st')
    (h : Sound st) (hD : LiveDirAt st nd) (hnone : st.childNamed nd.dentry name = none)
    (hvalid : ValidName name) :
    Sound st' ∧ (∀ {d}, d < st.dentries.size → st.Lives d → st'.Lives d) ∧
      (k ≠ .lost → LiveAt st' ⟨st.dentries.size, nd.mnt⟩) := by
  obtain ⟨ho, hP⟩ := he.orderly h.orderly hD.toDirAt hnone hvalid
  have hext := he.extends h.orderly.wf hD.lt hnone
  obtain ⟨y, j, F, he⟩ := he
  refine ⟨⟨(he.evolves h.inv hD.lt).inv, ho, he.housed h.inv h.orderly h.housed hD⟩, ?_, ?_⟩
  · intro d hd hl i hi
    obtain ⟨a, b, hab⟩ := hext.old hd
    rw [hab] at hi
    exact he.live (hl i hi)
  · intro hk
    refine ⟨hP hk, fun i hi => ?_⟩
    obtain ⟨-, o, hnew⟩ := he.dentry_size hD.lt
    rw [hnew] at hi
    rcases he.dInode with hy | ⟨hlost, -⟩
    · obtain rfl := Option.some.inj (hy.symm.trans hi)
      exact he.live_size h.housed hk
    · exact absurd hlost hk

theorem walkable_live (t : ℕ) (mode : UInt16) : Walkable t mode Sound LiveAt LiveDirAt where
  wf h := h.inv.wf
  lt _ hD := hD.lt
  mnt _ hD := by
    obtain ⟨m, hm, hnd, -⟩ := hD.mnt
    exact ⟨m, hm, hnd⟩
  climb h hD := h.climb hD
  arrive h hD hc := h.arrive hD hc
  down _ hP hdir := ⟨⟨hP.toAt, hdir⟩, hP.lives⟩
  up _ hD := ⟨hD.toAt, hD.lives⟩
  enter h hD hnone hvalid he := by
    obtain ⟨h', hkeep, hP⟩ := he.sound h hD hnone hvalid
    have hg := (he.extends h.orderly.wf hD.lt hnone).toGrown
    exact ⟨h', fun hD' => ⟨hD'.toDirAt.grown h.orderly.wf hg, hkeep hD'.lt hD'.lives⟩, hP⟩

theorem Sound.start (h : Sound st) (ht : st.Running t) : LiveDirAt st (start st t path) := by
  refine ⟨dirAt_start h.inv h.orderly.tidy ht, ?_⟩
  rw [start_eq h.inv ht, ← h.orderly.wf.root_mnt]
  exact h.housed.mntRoot h.orderly h.orderly.wf.zero_lt

end Walks

end NSOS.Vfs
