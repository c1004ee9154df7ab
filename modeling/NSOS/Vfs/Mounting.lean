import NSOS.Vfs.Resolve

/-! # Mounting and unmounting

What a successful `vfs_mount` and a successful `vfs_unmount` did: the path led
to a place, and the namespace got one more mount there or lost the newest
mount whose root the path led to. Calls that fail only look things up.
-/

namespace NSOS.Vfs

open Basis Prog

section Mount

variable {st st' : State} {t fs d m : ℕ} {path dev : List Char} {ret : ℤ} {o : Option ℕ}
  {x : Dentry}

/-- The dentry is a root without entries that gets the number `d`. -/
structure IsRoot (d : ℕ) (x : Dentry) : Prop where
  parent : x.dParent = d
  subdirs : x.dSubdirs = none
  mounted : x.dMounted = 0
  isdir : x.dIsdir = true

/-- The table of files after a driver has been mounted: `kvfs` clears it the first time. -/
def State.filesOnMount (st : State) (driver : Driver) : ℤ → KvfsFileNode :=
  if driver = .kvfs ∧ st.kvfsInited = false then fun i =>
    if 0 ≤ i ∧ i < KVFS_MAX_FILE then ⟨false, .null, .null⟩ else st.kvfsFiles i
  else st.kvfsFiles

/-- A driver has made the root of a file system: a dentry, its inode, and the name of the
device. -/
structure RootMade (driver : Driver) (fs : ℕ) (dev : List Char) (st st' : State) (x : Dentry)
    (j : Inode) : Prop where
  state_eq : st' = { st.withNew x j with
    fsTypes := st.fsTypes.set fs fun f => { f with dev := dev }
    kvfsFiles := st.filesOnMount driver
    kvfsInited := st.kvfsInited || decide (driver = .kvfs) }
  root : IsRoot st.dentries.size x
  dInode : x.dInode = some st.inodes.size
  iOp : j.iOp = driver
  iFop : j.iFop = none

theorem RootMade.namespace_eq {driver : Driver} {j : Inode}
    (h : RootMade driver fs dev st st' x j) : st'.toNamespace = st.toNamespace.born x := by
  rw [h.state_eq]
  rfl

theorem RootMade.rest {driver : Driver} {j : Inode} (h : RootMade driver fs dev st st' x j) :
    Rest st st' := by
  obtain rfl := h.state_eq
  refine ⟨Nat.le_succ _, fun hi => ?_, rfl, rfl, fun _ => Iff.rfl⟩
  rw [State.inode, State.withNew, Pool.obj_set_of_ne _ _ _ _ hi.ne]
  rfl

theorem RootMade.inode_lt {driver : Driver} {j : Inode} (h : RootMade driver fs dev st st' x j)
    {i : ℕ} (hi : x.dInode = some i) : i < st'.inodes.size := by
  obtain rfl := Option.some.inj (h.dInode.symm.trans hi)
  rw [h.state_eq]
  exact Nat.lt_succ_self _

theorem RootMade.inodes_eq {driver : Driver} {j : Inode}
    (h : RootMade driver fs dev st st' x j) :
    st'.inodes = st.inodes.grow.set st.inodes.size fun _ => j := by
  rw [h.state_eq]
  rfl

theorem RootMade.inode_size {driver : Driver} {j : Inode}
    (h : RootMade driver fs dev st st' x j) : st'.inode st.inodes.size = j := by
  rw [State.inode, h.inodes_eq, Pool.obj_set_self]

theorem RootMade.inode_of_lt {driver : Driver} {j : Inode} {i : ℕ}
    (h : RootMade driver fs dev st st' x j) (hi : i < st.inodes.size) :
    st'.inode i = st.inode i := by
  rw [State.inode, h.inodes_eq, Pool.obj_set_of_ne _ _ _ _ hi.ne]
  rfl

def Driver.hasDevice : Driver → List Char → Bool
  | kvfs, dev => isRamdisk dev
  | procfs, dev => dev = "proc".toList
  | devfs, dev => dev = "udev".toList

def Driver.rootAcl : Driver → UInt16
  | kvfs => 0x755
  | procfs => aclRead
  | devfs => 0x0666

theorem run_mountRoot (st : State) (ops : Driver) (acl : UInt16) (ino : ℤ) (fs : ℕ)
    (source : List Char) :
    ∃ x j, IsRoot st.dentries.size x ∧ x.dInode = some st.inodes.size ∧ j.iOp = ops ∧
      j.iFop = none ∧ (x.dIname = [] ∧ j.iUid = 0 ∧ j.iGid = 0 ∧ j.iAcl = acl) ∧
        run (mountRoot ops acl ino fs source) st = some (st.dentries.size,
          { st.withNew x j with fsTypes := st.fsTypes.set fs fun f => { f with dev := source } }) :=
  ⟨_, _, ⟨rfl, rfl, rfl, rfl⟩, rfl, rfl, rfl, ⟨rfl, rfl, rfl, rfl⟩, rfl⟩

theorem run_mount_root (driver : Driver) (st : State) (fs : ℕ) (dev : List Char) :
    if driver.hasDevice dev then ∃ st' x j,
      run (driver.mount fs dev) st = some (some st.dentries.size, st') ∧
        RootMade driver fs dev st st' x j ∧ x.dIname = [] ∧
          j.iUid = 0 ∧ j.iGid = 0 ∧ j.iAcl = driver.rootAcl
    else run (driver.mount fs dev) st = some (none, st) := by
  cases driver with
  | kvfs =>
    rw [Driver.mount, kvfsMount, Driver.hasDevice]
    split
    · obtain ⟨x, j, hx, hi, hop, hfop, hperm, hroot⟩ := run_mountRoot st .kvfs 0x755 (-1) fs dev
      rw [run_bind, hroot, Option.bind_some, run_bind, run_gets, Option.bind_some]
      split
      case isTrue hinit =>
        have hinit : st.kvfsInited = true := hinit
        refine ⟨_, x, j, rfl, ⟨?_, hx, hi, hop, hfop⟩, hperm⟩
        simp [State.filesOnMount, hinit, State.withNew]
      case isFalse hinit =>
        have hinit : st.kvfsInited = false := Bool.eq_false_iff.mpr hinit
        refine ⟨_, x, j, rfl, ⟨?_, hx, hi, hop, hfop⟩, hperm⟩
        simp [State.filesOnMount, hinit, State.withNew]
    · rfl
  | procfs =>
    rw [Driver.mount, procMount]
    by_cases hdev : dev = "proc".toList
    · have hdevice : Driver.procfs.hasDevice dev = true := decide_eq_true hdev
      obtain ⟨x, j, hx, hi, hop, hfop, hperm, hroot⟩ :=
        run_mountRoot st .procfs aclRead (-3) fs dev
      rw [if_pos hdev, if_pos hdevice, run_bind, hroot, Option.bind_some]
      refine ⟨_, x, j, rfl, ⟨?_, hx, hi, hop, hfop⟩, hperm⟩
      simp [State.filesOnMount, State.withNew]
    · have hdevice : ¬ Driver.procfs.hasDevice dev = true := fun h => hdev (of_decide_eq_true h)
      rw [if_neg hdev, if_neg hdevice]
      rfl
  | devfs =>
    rw [Driver.mount, devfsMount]
    by_cases hdev : dev = "udev".toList
    · have hdevice : Driver.devfs.hasDevice dev = true := decide_eq_true hdev
      obtain ⟨x, j, hx, hi, hop, hfop, hperm, hroot⟩ :=
        run_mountRoot st .devfs 0x0666 (-1) fs dev
      rw [if_pos hdev, if_pos hdevice, run_bind, hroot, Option.bind_some]
      refine ⟨_, x, j, rfl, ⟨?_, hx, hi, hop, hfop⟩, hperm⟩
      simp [State.filesOnMount, State.withNew]
    · have hdevice : ¬ Driver.devfs.hasDevice dev = true := fun h => hdev (of_decide_eq_true h)
      rw [if_neg hdev, if_neg hdevice]
      rfl

theorem run_mount (driver : Driver) (hr : run (driver.mount fs dev) st = some (o, st')) :
    (o = none ∧ st' = st) ∨
      (o = some st.dentries.size ∧ ∃ x j, RootMade driver fs dev st st' x j) := by
  have hrun := run_mount_root driver st fs dev
  split at hrun
  · obtain ⟨st₁, x, j, hrun, hroot, -⟩ := hrun
    obtain ⟨rfl, rfl⟩ := run_inj hr hrun
    exact .inr ⟨rfl, x, j, hroot⟩
  · obtain ⟨rfl, rfl⟩ := run_inj hr hrun
    exact .inl ⟨rfl, rfl⟩

/-- A file system with the root `x` is mounted on `d`, a place in the mount `m`. -/
structure Mounts (st st' : State) (t : ℕ) (path : List Char) (fs d m : ℕ) (x : Dentry) : Prop where
  resolves : resolvePath st t path false = .hit ⟨d, some m⟩
  visible : st.Visible d m
  isdir : (st.dentry d).dIsdir = true
  root : IsRoot st.dentries.size x
  namespace_eq : st'.toNamespace =
    (st.toNamespace.born x).addMount ⟨st.dentries.size, d, some m, st.mntHead, fs⟩
  rest : Rest st st'
  inode_lt : ∀ i, x.dInode = some i → i < st'.inodes.size

theorem run_addMount {root retden : ℕ} {mnt : Option ℕ} :
    run (addMount root retden fs mnt) st = some ((), { st with
      toNamespace := st.toNamespace.addMount ⟨root, retden, mnt, st.mntHead, fs⟩ }) := rfl

def LooksUp (t : ℕ) (path : List Char) (st st' : State) : Prop :=
  st' = st ∨ ∃ r, run (pathLookup t path false) st = some (r, st')

theorem LooksUp.evolves (h : Inv st) (ht : st.Running t) (hl : LooksUp t path st st') :
    Evolves st st' := by
  obtain rfl | ⟨⟨o, nd⟩, hlook⟩ := hl
  · exact .refl h
  · have hout := run_pathLookup path false h ht
    rw [hlook] at hout
    exact (hout.evolves h).1

theorem LooksUp.fails {e : ℤ} {st₁ : State} (hl : LooksUp t path st st₁)
    (hr : run (do semSignal .vfsSem; return e : Code ℤ) st₁ = some (ret, st')) :
    ret = e ∧ LooksUp t path st st' := by
  obtain ⟨rfl, rfl⟩ := Prod.mk.inj (Option.some.inj hr)
  exact ⟨rfl, hl⟩

theorem run_privileged {e : ℤ} {k : Option ℕ × Nameidata → Code ℤ}
    (hk : ∀ nd, k (none, nd) = do semSignal .vfsSem; return e)
    (hr : run (do
        semWait .vfsSem
        if ← unprivileged t then
          semSignal .vfsSem
          return e
        else k (← pathLookup t path false) : Code ℤ) st = some (ret, st')) :
    (ret = e ∧ LooksUp t path st st') ∨ ∃ d nd st₁,
      run (pathLookup t path false) st = some ((some d, nd), st₁) ∧
        run (k (some d, nd)) st₁ = some (ret, st') := by
  rw [run_bind, run_semWait, Option.bind_some, unprivileged, run_bind, run_gets,
    Option.bind_some] at hr
  split at hr
  · exact .inl (LooksUp.fails (.inl rfl) hr)
  obtain ⟨⟨o, nd⟩, st₁, hlook, hrun⟩ := run_bind_some hr
  cases o with
  | none =>
    rw [hk] at hrun
    exact .inl (LooksUp.fails (.inr ⟨_, hlook⟩) hrun)
  | some d => exact .inr ⟨d, nd, st₁, hlook, hrun⟩

/-- `vfs_mount` fails after a lookup, or it mounts. -/
theorem run_vfsMount (h : Inv st) (ht : st.Running t)
    (hr : run (vfsMount t path fs) st = some (ret, st')) :
    (ret = -1 ∧ LooksUp t path st st') ∨ (ret = 0 ∧ ∃ d m x, Mounts st st' t path fs d m x ∧
      ∃ driver j st₁, (st.fsType fs).mount = some driver ∧
        RootMade driver fs (st.fsType fs).dev st st₁ x j ∧
          st' = { st₁ with toNamespace := st'.toNamespace }) := by
  unfold vfsMount at hr
  rcases run_privileged (fun _ => rfl) hr with hfail | ⟨retden, nd, st₁, hlook, hrun⟩
  · exact .inl hfail
  · have hlooks : LooksUp t path st st₁ := .inr ⟨_, hlook⟩
    have hout := run_pathLookup path false h ht
    rw [hlook] at hout
    obtain ⟨hev, hseen⟩ := hout.evolves h
    dsimp only at hrun
    rw [run_bind, run_gets, Option.bind_some] at hrun
    split at hrun
    · exact .inl (hlooks.fails hrun)
    case isFalse hdir =>
      -- Only a place in memory can be a directory, so the lookup changed nothing.
      obtain ⟨m, hres, hst, hv⟩ : ∃ m, resolvePath st t path false = .hit ⟨retden, some m⟩ ∧
          st₁ = st ∧ st.Visible retden m := by
        rcases hout.some_cases with ⟨hf, rfl, hret⟩ | ⟨nd', name, -, -, -, hfile⟩
        · obtain ⟨-, m, hm, hv⟩ := hseen retden rfl
          obtain ⟨e, mnt⟩ := nd
          obtain rfl : e = retden := hret
          obtain rfl : mnt = some m := hm
          exact ⟨m, hf, rfl, hv⟩
        · exact absurd hfile hdir
      subst hst
      have hnd : nd = ⟨retden, some m⟩ := by
        rw [hres] at hout
        have heq := hout.1
        simp only [Option.some.injEq, Prod.mk.injEq, and_true] at heq
        exact heq.2
      rw [run_bind, run_gets, Option.bind_some] at hrun
      cases hfs : (st₁.fsType fs).mount with
      | none =>
        simp only [hfs] at hrun
        exact .inl (hlooks.fails hrun)
      | some driver =>
        simp only [hfs] at hrun
        rw [run_bind, run_gets, Option.bind_some] at hrun
        obtain ⟨root, st₂, hmount, hadd⟩ := run_bind_some hrun
        rcases run_mount driver hmount with ⟨rfl, rfl⟩ | ⟨rfl, x, j, hroot⟩
        · exact .inl (hlooks.fails hadd)
        · dsimp only at hadd
          rw [run_bind, run_addMount, Option.bind_some] at hadd
          obtain ⟨rfl, rfl⟩ := Prod.mk.inj (Option.some.inj hadd)
          refine .inr ⟨rfl, retden, m, x, ⟨hres, hv, by simpa using hdir, hroot.root, ?_,
            hroot.rest.namespace _, fun i => hroot.inode_lt⟩, driver, j, st₂, rfl, hroot, rfl⟩
          rw [hroot.namespace_eq, hnd]
          rfl

theorem Mounts.inv (h : Inv st) (hm : Mounts st st' t path fs d m x) : Inv st' := by
  obtain ⟨hd, hlt, htree⟩ := hm.visible.inTree h.wf
  have hborn : (st.toNamespace.born x).Wf :=
    h.wf.born hm.root.parent.le hm.root.subdirs hm.root.mounted
  have hg : Namespace.Grown st.toNamespace (st.toNamespace.born x) := Namespace.grown_born
  refine ⟨?_, ?_, ?_⟩
  · rw [hm.namespace_eq]
    refine hborn.addMount (q := m) rfl (Nat.lt_succ_self _) ?_ ?_ ?_ hlt rfl ?_
    · rw [Namespace.parent, Namespace.dentry_born_size, hm.root.parent]
    · intro m' hm'
      exact (h.wf.mntRoot_lt hm').ne
    · exact hd.trans_le hg.size_le
    · exact h.wf.inTree_congr hg.parent hd htree
  · intro e i he hi
    rw [hm.namespace_eq] at he hi
    have he : e < st.dentries.size + 1 := he
    have hi' : ((st.toNamespace.born x).dentry e).dInode = some i := by
      rw [Namespace.dentry_addMount] at hi
      split at hi <;> exact hi
    by_cases hold : e < st.dentries.size
    · rw [Namespace.dentry_born_of_lt hold] at hi'
      exact (h.inode_lt hold hi').trans_le hm.rest.inodes_le
    · obtain rfl : e = st.dentries.size := by omega
      rw [Namespace.dentry_born_size] at hi'
      exact hm.inode_lt i hi'
  · intro u hu
    rw [hm.rest.places, h.home ((hm.rest.running u).mp hu), hm.namespace_eq]
    rfl

theorem Mounts.mount_of_lt (hm : Mounts st st' t path fs d m x) {m' : ℕ}
    (hlt : m' < st.mounts.size) : st'.mount m' = st.mount m' := by
  rw [hm.namespace_eq]
  exact Namespace.mount_addMount_of_lt hlt

theorem Mounts.mount_new (hm : Mounts st st' t path fs d m x) :
    st'.mount st.mounts.size = ⟨st.dentries.size, d, some m, st.mntHead, fs⟩ := by
  rw [hm.namespace_eq]
  change ((st.toNamespace.born x).addMount _).mount (st.toNamespace.born x).mounts.size = _
  exact Namespace.mount_addMount_size

end Mount

section Unmount

variable {st st' : State} {t d m : ℕ} {path : List Char} {ret : ℤ} {nd : Nameidata}
  {hit : State → ℕ → Bool}

/-- The newest listed mount with a root is dropped, and its file system is freed. -/
structure Unmounts (st st' : State) (t : ℕ) (path : List Char) (nd : Nameidata) (m : ℕ) :
    Prop where
  resolves : resolvePath st t path false = .hit nd
  found : st.mountList.find? (fun m => (st.mount m).mntRoot = nd.dentry) = some m
  state_eq : st' = { st with
    toNamespace := st.toNamespace.dropMount m
    freed := .vfsmount m :: .fsType (st.mount m).mntFs :: st.freed }

theorem run_uncount : run (setDentry d fun x => { x with dMounted := x.dMounted - 1 }) st =
    some ((), { st with toNamespace := st.uncount d }) := rfl

theorem run_dropMount (h : Inv st) (hm : m ∈ st.mountList) {st₁ : State}
    (hst₁ : st₁ = { st with toNamespace := st.uncount (st.mount m).mntMountpoint }) :
    run (dropMount m) st₁ = some ((), { st with toNamespace := st.toNamespace.dropMount m }) := by
  subst hst₁
  obtain ⟨pre, post, hpre⟩ := List.append_of_mem hm
  have hl := h.wf.chain_mountList.1
  rw [hpre] at hl
  simp only [dropMount, run_bind, run_gets, Option.bind_some, Namespace.dropMount]
  by_cases hhead : st.mntHead = some m
  · have hhead' : (st.uncount (st.mount m).mntMountpoint).mntHead = some m := hhead
    rw [Namespace.unlist, if_pos hhead', if_pos hhead']
    rfl
  · have hhead' : (st.uncount (st.mount m).mntMountpoint).mntHead ≠ some m := hhead
    obtain ⟨q, hq⟩ : ∃ q, (st.mountList.find? fun q => (st.mount q).mntNext = some m) =
        some q := by
      rcases List.eq_nil_or_concat pre with rfl | ⟨pre, q, rfl⟩
      · exact absurd hl.1 hhead
      · rw [List.concat_eq_append, List.append_assoc, List.singleton_append] at hl hpre
        rw [hpre]
        exact ⟨q, hl.find?_front⟩
    have hq' : ((st.uncount (st.mount m).mntMountpoint).mountList.find? fun q =>
        ((st.uncount (st.mount m).mntMountpoint).mount q).mntNext = some m) = some q := hq
    have hfind := search_run (ι := Sem) (x := { st with
        toNamespace := st.uncount (st.mount m).mntMountpoint })
      (fun st q => (st.mount q).mntNext) (fun st q => (st.mount q).mntNext = some m)
      h.wf.chain_mountList.1 h.wf.length_mountList
    have hfind' : run (findMount fun st q => (st.mount q).mntNext = some m)
        { st with toNamespace := st.uncount (st.mount m).mntMountpoint } =
          some (some q, { st with toNamespace := st.uncount (st.mount m).mntMountpoint }) := by
      rw [← hq]
      exact hfind
    rw [Namespace.unlist, if_neg hhead', if_neg hhead', hq', run_bind, hfind', Option.bind_some]
    rfl

/-- `vfs_unmount` fails after a lookup, or it drops a mount. -/
theorem run_vfsUnmount (h : Inv st) (ht : st.Running t)
    (hr : run (vfsUnmount t path) st = some (ret, st')) :
    (ret = 1 ∧ LooksUp t path st st') ∨ (ret = 0 ∧ ∃ nd m, Unmounts st st' t path nd m) := by
  unfold vfsUnmount at hr
  rcases run_privileged (fun _ => rfl) hr with hfail | ⟨retden, nd, st₁, hlook, hrun⟩
  · exact .inl hfail
  · have hlooks : LooksUp t path st st₁ := .inr ⟨_, hlook⟩
    have hout := run_pathLookup path false h ht
    rw [hlook] at hout
    obtain ⟨hev, hseen⟩ := hout.evolves h
    dsimp only at hrun
    rw [run_bind, run_findMount hev.inv.wf, Option.bind_some] at hrun
    cases hfind : st₁.mountList.find? fun m => (st₁.mount m).mntRoot = retden with
    | none =>
      simp only [hfind] at hrun
      exact .inl (hlooks.fails hrun)
    | some m =>
      simp only [hfind] at hrun
      have hmem : m ∈ st₁.mountList := List.mem_of_find?_eq_some hfind
      -- A root of a mount is in memory, so the lookup changed nothing.
      obtain ⟨hres, rfl⟩ : resolvePath st t path false = .hit nd ∧ st₁ = st := by
        rcases hout.some_cases with ⟨hf, hst, -⟩ | ⟨nd', name, -, rfl, -, -⟩
        · exact ⟨hf, hst⟩
        · have hroot : (st₁.mount m).mntRoot = st.dentries.size := by
            simpa using List.find?_some hfind
          have hlt : m < st.mounts.size := by
            have := hev.inv.wf.chain_mountList.2 m hmem
            rwa [hev.grown.mounts] at this
          rw [hev.grown.mount] at hroot
          exact absurd hroot (h.wf.mntRoot_lt hlt).ne
      obtain ⟨hret, -⟩ := hseen retden rfl
      rw [run_bind, run_gets, Option.bind_some, run_bind, run_uncount, Option.bind_some, run_bind,
        run_dropMount h hmem rfl, Option.bind_some] at hrun
      obtain ⟨rfl, rfl⟩ := Prod.mk.inj (Option.some.inj hrun)
      exact .inr ⟨rfl, nd, m, hres, hret ▸ hfind, rfl⟩

theorem Unmounts.mem (hu : Unmounts st st' t path nd m) : m ∈ st.mountList :=
  List.mem_of_find?_eq_some hu.found

theorem Unmounts.inv (h : Inv st) (hu : Unmounts st st' t path nd m) : Inv st' := by
  obtain rfl := hu.state_eq
  refine ⟨h.wf.dropMount hu.mem, ?_, ?_⟩
  · intro d i hd hi
    rw [Namespace.size_dropMount] at hd
    rw [Namespace.dentry_dropMount] at hi
    split at hi <;> exact h.inode_lt hd hi
  · intro u hu
    have hhome := h.home (t := u) hu
    change st.places u = _
    rw [hhome, Namespace.rootDentry_dropMount]

end Unmount

end NSOS.Vfs
