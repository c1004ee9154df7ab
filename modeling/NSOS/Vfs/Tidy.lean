import NSOS.Vfs.History

/-! # Tidy trees

The parents of dentries are directories, and the entries of a directory have
names of their own that a path can name. Walks keep this from any place in the
tree of a mount, and so does every call.
-/

namespace NSOS.Vfs

open Basis Prog

namespace Namespace

/-- Parents and mountpoints are directories, and the entries of a directory have different
names. -/
structure Tidy (ns : Namespace) : Prop where
  dirs : ∀ {d}, d < ns.dentries.size →
    (ns.dentry (ns.parent d)).dIsdir = true ∧ (ns.dentry (ns.parent d)).dInode ≠ none
  linked : ∀ {d c}, d < ns.dentries.size → c ∈ ns.entries d →
    (ns.dentry c).dInode ≠ none ∧ ValidName (ns.dentry c).dIname
  nodup : ∀ {d}, d < ns.dentries.size →
    ((ns.entries d).map fun c => (ns.dentry c).dIname).Nodup
  point : ∀ {m}, m < ns.mounts.size → (ns.dentry (ns.mount m).mntMountpoint).dIsdir = true

section Kept

variable {ns ns' : Namespace} {d e m : ℕ} {k : Kind} {x y : Dentry} {v : Vfsmount}

theorem Tidy.congr (h : ns.Tidy) (hsize : ns'.dentries.size = ns.dentries.size)
    (hentries : ∀ d, ns'.entries d = ns.entries d) (hparent : ns'.parent = ns.parent)
    (hold : ∀ d, (ns'.dentry d).dIname = (ns.dentry d).dIname ∧
      (ns'.dentry d).dInode = (ns.dentry d).dInode ∧
        (ns'.dentry d).dIsdir = (ns.dentry d).dIsdir)
    (hpoint : ∀ {m}, m < ns'.mounts.size →
      (ns.dentry (ns'.mount m).mntMountpoint).dIsdir = true) : ns'.Tidy := by
  constructor
  case dirs =>
    intro d hd
    obtain ⟨-, hinode, hdir⟩ := hold (ns.parent d)
    rw [hparent, hinode, hdir]
    exact h.dirs (hsize ▸ hd)
  case linked =>
    intro d c hd hc
    obtain ⟨hname, hinode, -⟩ := hold c
    rw [hentries] at hc
    rw [hname, hinode]
    exact h.linked (hsize ▸ hd) hc
  case nodup =>
    intro d hd
    simp only [hentries, hold]
    exact h.nodup (hsize ▸ hd)
  case point =>
    intro m hm
    rw [(hold _).2.2]
    exact hpoint hm

theorem Tidy.grown (h : ns.Tidy) (hwf : ns.Wf) (hg : Grown ns ns')
    (hsize : ns'.dentries.size = ns.dentries.size + 1)
    (hparent : (ns'.dentry (ns'.parent ns.dentries.size)).dIsdir = true ∧
      (ns'.dentry (ns'.parent ns.dentries.size)).dInode ≠ none)
    (hnew : ns'.entries ns.dentries.size = [])
    (hentries : ∀ {d}, d < ns.dentries.size → ns'.entries d = ns.entries d ∨
      ns'.entries d = ns.dentries.size :: ns.entries d ∧
        (ns'.dentry ns.dentries.size).dInode ≠ none ∧
        ValidName (ns'.dentry ns.dentries.size).dIname ∧
        ns.childNamed d (ns'.dentry ns.dentries.size).dIname = none) : ns'.Tidy := by
  have hcases : ∀ {d}, d < ns'.dentries.size → d < ns.dentries.size ∨ d = ns.dentries.size := by
    intro d hd
    omega
  have hold : ∀ {d}, d < ns.dentries.size → (ns'.dentry d).dIname = (ns.dentry d).dIname ∧
      (ns'.dentry d).dInode = (ns.dentry d).dInode ∧
        (ns'.dentry d).dIsdir = (ns.dentry d).dIsdir := by
    intro d hd
    obtain ⟨c, s, hc⟩ := hg.old hd
    rw [hc]
    exact ⟨rfl, rfl, rfl⟩
  have hnames : ∀ {d}, d < ns.dentries.size →
      (ns.entries d).map (fun c => (ns'.dentry c).dIname) =
        (ns.entries d).map fun c => (ns.dentry c).dIname := fun hd =>
    List.map_congr_left fun c hc => (hold ((hwf.chain_entries hd).2 c hc).1).1
  constructor
  case dirs =>
    intro d hd
    rcases hcases hd with hd | rfl
    · obtain ⟨-, hinode, hdir⟩ := hold (hwf.parent_lt hd)
      rw [hg.parent hd, hinode, hdir]
      exact h.dirs hd
    · exact hparent
  case linked =>
    intro d c hd hc
    rcases hcases hd with hd | rfl
    · have hkept : c ∈ ns.entries d →
          (ns'.dentry c).dInode ≠ none ∧ ValidName (ns'.dentry c).dIname := by
        intro hc
        obtain ⟨hname, hinode, -⟩ := hold ((hwf.chain_entries hd).2 c hc).1
        rw [hname, hinode]
        exact h.linked hd hc
      rcases hentries hd with he | ⟨he, hinode, hvalid, -⟩
      · exact hkept (he ▸ hc)
      · rw [he, List.mem_cons] at hc
        rcases hc with rfl | hc
        · exact ⟨hinode, hvalid⟩
        · exact hkept hc
    · rw [hnew] at hc
      cases hc
  case nodup =>
    intro d hd
    rcases hcases hd with hd | rfl
    · rcases hentries hd with he | ⟨he, -, -, hnone⟩
      · rw [he, hnames hd]
        exact h.nodup hd
      · rw [he, List.map_cons, hnames hd, List.nodup_cons]
        refine ⟨fun hmem => ?_, h.nodup hd⟩
        obtain ⟨c, hc, hname⟩ := List.mem_map.mp hmem
        rw [childNamed, List.find?_eq_none] at hnone
        exact hnone c hc (by simpa using hname)
    · rw [hnew]
      exact List.nodup_nil
  case point =>
    intro m hm
    rw [hg.mounts] at hm
    rw [hg.mount, (hold (hwf.mountpoint_lt hm)).2.2]
    exact h.point hm

theorem Tidy.enter (h : ns.Tidy) (hwf : ns.Wf) (he : e < ns.dentries.size) (hy : Leaf e y)
    (hdir : (ns.dentry e).dIsdir = true) (hinode : (ns.dentry e).dInode ≠ none)
    (hlinked : k ≠ .lost → y.dInode ≠ none) (hvalid : ValidName y.dIname)
    (hnone : ns.childNamed e y.dIname = none) : (ns.enter e k y).Tidy := by
  have hg : Grown ns (ns.enter e k y) := grown_enter he
  obtain ⟨o, ho⟩ : ∃ o, (ns.enter e k y).dentry ns.dentries.size = { y with dChild := o } :=
    dentry_enter_size he
  refine h.grown hwf hg size_enter ?_ (entries_enter_size hwf he hy) fun {d} hd => ?_
  · obtain ⟨c, s, hc⟩ := hg.old he
    have hpar : (ns.enter e k y).parent ns.dentries.size = e := by
      rw [parent, ho]
      exact hy.parent
    rw [hpar, hc]
    exact ⟨hdir, hinode⟩
  · rw [entries_enter hwf he hy hd, ho]
    by_cases hk : k ≠ .lost ∧ d = e
    · obtain ⟨hk, rfl⟩ := hk
      rw [if_pos ⟨hk, rfl⟩]
      exact .inr ⟨rfl, hlinked hk, hvalid, hnone⟩
    · rw [if_neg hk]
      exact .inl rfl

theorem Tidy.born (h : ns.Tidy) (hwf : ns.Wf) (hx : IsRoot ns.dentries.size x)
    (hinode : x.dInode ≠ none) : (ns.born x).Tidy := by
  have hpar : (ns.born x).parent ns.dentries.size = ns.dentries.size := by
    rw [parent, dentry_born_size, hx.parent]
  refine h.grown hwf grown_born rfl ?_ (entries_born_size hx.subdirs)
    fun hd => .inl (entries_born hwf hd)
  rw [hpar, dentry_born_size]
  exact ⟨hx.isdir, hinode⟩

theorem Tidy.addMount (h : ns.Tidy) (hv : (ns.dentry v.mntMountpoint).dIsdir = true) :
    (ns.addMount v).Tidy := by
  refine h.congr rfl (fun d => entries_addMount) parent_addMount (fun d => ?_) fun {m} hm => ?_
  · rw [dentry_addMount]
    split <;> exact ⟨rfl, rfl, rfl⟩
  · have hm : m < ns.mounts.size + 1 := hm
    rw [mount_addMount]
    split
    · exact hv
    · exact h.point (by omega)

theorem entries_dropMount : (ns.dropMount m).entries d = ns.entries d := by
  have hchild : (fun c => ((ns.dropMount m).dentry c).dChild) =
      fun c => (ns.dentry c).dChild := by
    funext c
    rw [dentry_dropMount]
    split <;> rfl
  have hsub : ((ns.dropMount m).dentry d).dSubdirs = (ns.dentry d).dSubdirs := by
    rw [dentry_dropMount]
    split <;> rfl
  rw [entries, hchild, hsub, size_dropMount]
  rfl

theorem Tidy.dropMount (h : ns.Tidy) : (ns.dropMount m).Tidy := by
  refine h.congr size_dropMount (fun d => entries_dropMount) parent_dropMount (fun d => ?_)
    fun {q} hq => ?_
  · rw [dentry_dropMount]
    split <;> exact ⟨rfl, rfl, rfl⟩
  · obtain ⟨n, hn⟩ := mount_dropMount ns m q
    rw [mounts_size_dropMount] at hq
    rw [hn]
    exact h.point hq

end Kept

end Namespace

section Places

variable {st st' : State} {nd nd' : Nameidata} {name : List Char} {c t m : ℕ} {mode : UInt16}
  {k : Kind}

/-- A dentry with an inode in the tree of a mount. -/
structure At (st : State) (nd : Nameidata) : Prop where
  lt : nd.dentry < st.dentries.size
  inode : (st.dentry nd.dentry).dInode ≠ none
  mnt : ∃ m < st.mounts.size, nd.mnt = some m ∧ st.InTree nd.dentry (st.mount m).mntRoot

/-- A directory in the tree of a mount. -/
structure DirAt (st : State) (nd : Nameidata) : Prop extends At st nd where
  isdir : (st.dentry nd.dentry).dIsdir = true

/-- What walks rely on. -/
structure Orderly (st : State) : Prop where
  wf : st.toNamespace.Wf
  tidy : st.toNamespace.Tidy

theorem Orderly.dirAt_parent (h : Orderly st) {d : ℕ} (hd : d < st.dentries.size)
    (hm : m < st.mounts.size) (ht : st.InTree (st.parent d) (st.mount m).mntRoot) :
    DirAt st ⟨st.parent d, some m⟩ :=
  ⟨⟨h.wf.parent_lt hd, (h.tidy.dirs hd).2, m, hm, rfl, ht⟩, (h.tidy.dirs hd).1⟩

theorem Orderly.dirAt_mntRoot (h : Orderly st) (hm : m < st.mounts.size) :
    DirAt st ⟨(st.mount m).mntRoot, some m⟩ := by
  have hdir := h.dirAt_parent (h.wf.mntRoot_lt hm) hm
  rw [h.wf.mntRoot_root hm] at hdir
  exact hdir (.refl _)

theorem InTree.down {ns : Namespace} {d r : ℕ} (ht : ns.InTree d r) (hne : ns.parent d ≠ d)
    (hr : ns.parent r = r) : ns.InTree (ns.parent d) r := by
  obtain ⟨n, hn⟩ := ht
  cases n with
  | zero =>
    obtain rfl : d = r := hn
    exact absurd hr hne
  | succ n => exact ⟨n, hn⟩

theorem Orderly.climb (h : Orderly st) (hD : DirAt st nd) :
    ∃ nd', climb st nd = .hit nd' ∧ DirAt st nd' := by
  obtain ⟨m, hm, hnd, ht⟩ := hD.mnt
  have hself := h.wf.mntRoot_root hm
  unfold Vfs.climb
  by_cases hroot : nd.dentry = st.rootDentry
  · rw [if_pos hroot]
    exact ⟨nd, rfl, hD⟩
  · rw [if_neg hroot]
    by_cases hp : st.parent nd.dentry = nd.dentry
    · have hd : nd.dentry = (st.mount m).mntRoot := (Namespace.InTree.refl _).unique ht hp hself
      have hm₀ : m ≠ 0 := by
        rintro rfl
        exact hroot (hd.trans h.wf.root_mnt)
      obtain ⟨p, hplt, hpar, htree⟩ := h.wf.above hm hm₀
      rw [if_pos hp, hnd]
      dsimp only
      rw [hpar]
      refine ⟨_, rfl, h.dirAt_parent (h.wf.mountpoint_lt hm) hplt ?_⟩
      by_cases hne : st.parent (st.mount m).mntMountpoint = (st.mount m).mntMountpoint
      · rwa [hne]
      · exact InTree.down htree hne (h.wf.mntRoot_root hplt)
    · rw [if_neg hp, hnd]
      exact ⟨_, rfl, h.dirAt_parent hD.lt hm (InTree.down ht hp hself)⟩

theorem Orderly.arrive (h : Orderly st) (hD : DirAt st nd)
    (hc : st.childNamed nd.dentry name = some c) :
    ∃ nd', arrive st nd c = .hit nd' ∧ At st nd' := by
  obtain ⟨hlt, hp, hne⟩ := h.wf.childNamed_spec hD.lt hc
  obtain ⟨m, hm, hnd, ht⟩ := hD.mnt
  unfold Vfs.arrive
  cases hcov : st.covered c with
  | false =>
    rw [if_neg Bool.false_ne_true]
    refine ⟨_, rfl, hlt, (h.tidy.linked hD.lt (List.mem_of_find?_eq_some hc)).1, m, hm, hnd, ?_⟩
    exact Namespace.InTree.up (hp.symm ▸ ht)
  | true =>
    obtain ⟨m', hm'⟩ := h.wf.topMount_isSome hlt (fun he => hne (he.symm.trans hp)) hcov
    rw [if_pos rfl, hm']
    exact ⟨_, rfl, (h.dirAt_mntRoot (h.wf.topMount_lt hm')).toAt⟩

theorem At.grown (h : st.toNamespace.Wf) (hg : Namespace.Grown st.toNamespace st'.toNamespace)
    (hP : At st nd) : At st' nd := by
  obtain ⟨c, s, hc⟩ := hg.old hP.lt
  obtain ⟨m, hm, hnd, ht⟩ := hP.mnt
  refine ⟨hP.lt.trans_le hg.size_le, ?_, m, ?_, hnd, ?_⟩
  · rw [hc]
    exact hP.inode
  · rw [hg.mounts]
    exact hm
  · rw [hg.mount]
    exact h.inTree_congr hg.parent hP.lt ht

theorem DirAt.grown (h : st.toNamespace.Wf) (hg : Namespace.Grown st.toNamespace st'.toNamespace)
    (hD : DirAt st nd) : DirAt st' nd :=
  ⟨hD.toAt.grown h hg, (hg.dIsdir hD.lt).trans hD.isdir⟩

theorem Enters.orderly (he : Enters t mode st nd name k st') (h : Orderly st) (hD : DirAt st nd)
    (hnone : st.childNamed nd.dentry name = none) (hvalid : ValidName name) :
    Orderly st' ∧ (k ≠ .lost → At st' ⟨st.dentries.size, nd.mnt⟩) := by
  have hext := he.extends h.wf hD.lt hnone
  obtain ⟨y, j, F, he⟩ := he
  have hns := he.namespace_eq
  have hinode : k ≠ .lost → y.dInode ≠ none := by
    intro hk hi
    rcases he.dInode with h | ⟨h, -⟩
    · rw [hi] at h
      cases h
    · exact hk h
  refine ⟨⟨?_, ?_⟩, fun hk => ?_⟩
  · rw [hns]
    exact h.wf.enter hD.lt he.leaf
  · rw [hns]
    exact h.tidy.enter h.wf hD.lt he.leaf hD.isdir hD.inode hinode (he.dIname.symm ▸ hvalid)
      (he.dIname.symm ▸ hnone)
  · obtain ⟨hlt, o, ho⟩ := he.dentry_size hD.lt
    obtain ⟨m, hm, hnd, ht⟩ := (hD.toAt.grown h.wf hext.toGrown).mnt
    refine ⟨hlt, ?_, m, hm, hnd, Namespace.InTree.up ?_⟩
    · rw [ho]
      exact hinode hk
    · rw [Namespace.parent, ho, he.dParent]
      exact ht

theorem walkable_at (t : ℕ) (mode : UInt16) : Walkable t mode Orderly At DirAt where
  wf h := h.wf
  lt _ hD := hD.lt
  mnt _ hD := by
    obtain ⟨m, hm, hnd, -⟩ := hD.mnt
    exact ⟨m, hm, hnd⟩
  climb h hD := h.climb hD
  arrive h hD hc := h.arrive hD hc
  down _ hP hdir := ⟨hP, hdir⟩
  up _ hD := hD.toAt
  enter h hD hnone hvalid he := by
    obtain ⟨h', hP⟩ := he.orderly h hD hnone hvalid
    exact ⟨h', fun hD' => hD'.grown h.wf (he.extends h.wf hD.lt hnone).toGrown, hP⟩

end Places

section Reached

variable {st st' : State} {t : ℕ} {c : Call} {op : Op} {ret : Reply} {path : List Char}

theorem dirAt_start (h : Inv st) (htidy : st.Tidy) (ht : st.Running t) :
    DirAt st (start st t path) := by
  have hroot := Orderly.dirAt_mntRoot ⟨h.wf, htidy⟩ h.wf.zero_lt
  rwa [h.wf.root_mnt, ← start_eq h ht] at hroot

theorem Started.tree (h : Started st) : ∃ x i, IsRoot 0 x ∧ st.dentry 0 = x ∧ x.dInode = some i ∧
    st.dentries.size = 1 ∧ st.entries 0 = [] := by
  obtain ⟨st₀, st₁, hb, hr, rfl⟩ := h
  obtain ⟨x, j, st₂, hmade, hx, hst⟩ := started_namespace hb hr
  have hns := congrArg State.toNamespace hst
  have hdent : st₁.dentry 0 = x := by
    have hborn : (st₀.toNamespace.born x).dentry st₀.dentries.size = x :=
      Namespace.dentry_born_size
    rw [hb.dentries] at hborn
    rw [hns]
    exact hborn
  refine ⟨x, _, hx, hdent, hmade.dInode, ?_, ?_⟩
  · change st₁.dentries.size = 1
    rw [hns, Namespace.size_born, hb.dentries]
  · change st₁.entries 0 = []
    rw [Namespace.entries, hdent, hx.subdirs]
    rfl

theorem Started.files_size (hs : Started st) : st.files.size = 0 := by
  obtain ⟨st₀, st₁, hb, hr, rfl⟩ := hs
  obtain ⟨x, j, st₂, hmade, hx, hst⟩ := started_namespace hb hr
  change st₁.files.size = 0
  rw [hst, hmade.state_eq]
  exact hb.files

theorem Started.running (hs : Started st) : st.Running t ↔ t = 1 := by
  obtain ⟨st₀, st₁, hb, hr, rfl⟩ := hs
  obtain ⟨x, j, st₂, hmade, -, hst⟩ := started_namespace hb hr
  have hpool : st₁.threadPool = st₀.threadPool := by
    rw [hst, hmade.state_eq]
    rfl
  constructor
  · rintro ⟨hpos, hle, hin⟩
    by_contra hne
    rw [osRun] at hin
    dsimp only at hin
    rw [Function.update_of_ne (by omega), hpool] at hin
    exact hb.threadPool t ⟨hpos, hle, hin⟩
  · rintro rfl
    refine ⟨Nat.one_pos, by decide, ?_⟩
    exact Function.update_self (1 : ℤ) true st₁.threadPool

theorem Started.fileDescriptors (hs : Started st) :
    (st.thread 1).fileDescriptors = newDescriptors := by
  obtain ⟨st₀, st₁, hb, hr, rfl⟩ := hs
  rfl

theorem tidy_started (h : Started st) : st.Tidy := by
  obtain ⟨x, i, hx, hdent, hinode, hsize, hentries⟩ := h.tree
  obtain ⟨st₀, st₁, hb, hr, rfl⟩ := h
  obtain ⟨x₁, j, st₂, -, -, hst⟩ := started_namespace hb hr
  have hns := congrArg State.toNamespace hst
  change st₁.dentry 0 = x at hdent
  change st₁.dentries.size = 1 at hsize
  change st₁.entries 0 = [] at hentries
  change st₁.toNamespace.Tidy
  constructor
  case dirs =>
    intro d hd
    obtain rfl : d = 0 := by omega
    rw [Namespace.parent, hdent, hx.parent, hdent, hinode]
    exact ⟨hx.isdir, Option.some_ne_none _⟩
  case linked =>
    intro d c hd hc
    obtain rfl : d = 0 := by omega
    rw [hentries] at hc
    cases hc
  case nodup =>
    intro d hd
    obtain rfl : d = 0 := by omega
    rw [hentries]
    exact List.nodup_nil
  case point =>
    intro m hm
    rw [hns, Pool.size_set, hb.mounts] at hm
    obtain rfl : m = 0 := by omega
    have hzero : st₁.mount 0 = ⟨0, 0, none, none, 0⟩ := by simp [hns, Namespace.mount]
    rw [hzero, hdent]
    exact hx.isdir

theorem LooksUp.tidy (h : Inv st) (htidy : st.Tidy) (ht : st.Running t)
    (hl : LooksUp t path st st') : st'.Tidy := by
  obtain rfl | ⟨⟨o, nd⟩, hlook⟩ := hl
  · exact htidy
  · have hleads := (walkable_at t 0).run_pathLookup ⟨h.wf, htidy⟩ path false
      (dirAt_start h htidy ht)
    rw [hlook] at hleads
    exact ((walkable_at t 0).walked_leads ⟨h.wf, htidy⟩ hleads).inv.tidy

/-- A call keeps the trees tidy. -/
theorem tidy_body (h : Inv st) (htidy : st.Tidy) (ht : st.Running t)
    (hr : run (c.body t) st = some (ret, st')) : st'.Tidy := by
  by_cases hmount : ∃ path fs, c = .mount path fs
  · obtain ⟨path, fs, rfl⟩ := hmount
    obtain ⟨z, hr⟩ := run_plain hr
    rcases run_vfsMount h ht hr with
      ⟨-, hl⟩ | ⟨-, d, m, x, hm, driver, j, st₁, -, hmade, -⟩
    · exact hl.tidy h htidy ht
    · rw [hm.namespace_eq]
      refine Namespace.Tidy.addMount (htidy.born h.wf hm.root ?_) ?_
      · rw [hmade.dInode]
        exact Option.some_ne_none _
      · rw [Namespace.dentry_born_of_lt (hm.visible.inTree h.wf).1]
        exact hm.isdir
  by_cases hunmount : ∃ path, c = .unmount path
  · obtain ⟨path, rfl⟩ := hunmount
    obtain ⟨z, hr⟩ := run_plain hr
    rcases run_vfsUnmount h ht hr with ⟨-, hl⟩ | ⟨-, nd, m, hu⟩
    · exact hl.tidy h htidy ht
    · rw [hu.state_eq]
      exact htidy.dropMount
  obtain ⟨mode, ps, b, o, st₁, hwalk, hstill⟩ := Walkable.walks_body (walkable_at t)
    ⟨h.wf, htidy⟩ (fun path => dirAt_start h htidy ht) (fun path fs he => hmount ⟨path, fs, he⟩)
    (fun path he => hunmount ⟨path, he⟩) hr
  rw [hstill.namespace_eq]
  exact hwalk.inv.tidy

theorem tidy_exec (h : Inv st) (htidy : st.Tidy) (hs : exec st op = some st') : st'.Tidy := by
  cases op with
  | call t c =>
    obtain ⟨ht, ret, hr⟩ := run_of_runBy hs
    exact tidy_body h htidy ht hr
  | close t fd =>
    obtain ⟨-, z, hr⟩ := run_of_runBy hs
    have hns := (calm_vfsClose.still hr).namespace_eq
    rwa [← hns] at htidy
  | create t =>
    rw [exec] at hs
    split at hs
    · obtain rfl := Option.some.inj hs
      unfold kmtCreate
      dsimp only
      split <;> exact htidy
    · cases hs
  | teardown t u =>
    rw [exec] at hs
    split at hs
    · obtain rfl := Option.some.inj hs
      exact htidy
    · cases hs
  | newFs f =>
    obtain rfl := Option.some.inj hs
    exact htidy
  | world text rand =>
    obtain rfl := Option.some.inj hs
    exact htidy

/-- The trees are tidy in every state of every history. -/
theorem Reach.orderly {P : State → Op → Prop} (hr : Reach st P) : Inv st ∧ Orderly st := by
  obtain ⟨st₀, h₀, hr⟩ := hr
  have hboth : Inv st ∧ st.Tidy :=
    hr.invariant (I := fun st => Inv st ∧ st.Tidy) ⟨inv_started h₀, tidy_started h₀⟩
      fun h _ hs => ⟨inv_exec h.1 hs, tidy_exec h.1 h.2 hs⟩
  exact ⟨hboth.1, hboth.1.wf, hboth.2⟩

/-- The entries of every dentry form a finite chain without repetition. They have it as their
parent, and names that paths can name, each its own. Only directories have entries. -/
theorem entries_wellFormed (h : Reachable st) {d : ℕ} (hd : d < st.dentries.size) :
    ∃ l, Chain (fun c => (st.dentry c).dChild) (st.dentry d).dSubdirs l ∧ l.Nodup ∧
      (∀ c ∈ l, c < st.dentries.size ∧ (st.dentry c).dParent = d ∧
        ValidName (st.dentry c).dIname) ∧
      (l.map fun c => (st.dentry c).dIname).Nodup ∧
      (l ≠ [] → (st.dentry d).dIsdir = true) := by
  obtain ⟨-, hwf, htidy⟩ := Reach.orderly h
  obtain ⟨hl, hmem⟩ := hwf.chain_entries hd
  refine ⟨st.entries d, hl, hl.nodup, fun c hc => ?_, htidy.nodup hd, fun hne => ?_⟩
  · obtain ⟨hlt, hp, -⟩ := hmem c hc
    exact ⟨hlt, hp, (htidy.linked hd hc).2⟩
  · obtain ⟨c, hc⟩ := List.exists_mem_of_ne_nil _ hne
    obtain ⟨hlt, hp, -⟩ := hmem c hc
    have hdir := (htidy.dirs hlt).1
    rwa [hp] at hdir

/-- The root has two directories, and the driver of the one that is mounted has made the entries
of its own root. -/
theorem entries_wellFormed_procfs : ∃ st : State,
    (st.entries 0).map (fun c => (st.dentry c).dIname) = ["a".toList, "proc".toList] ∧
    (st.entries 4).map (fun c => (st.dentry c).dIname) =
      ["1".toList, "meminfo".toList, "cpuinfo".toList] ∧
    ∀ d ∈ [0, 4], ∃ l, Chain (fun c => (st.dentry c).dChild) (st.dentry d).dSubdirs l ∧ l.Nodup ∧
      (∀ c ∈ l, c < st.dentries.size ∧ (st.dentry c).dParent = d ∧
        ValidName (st.dentry c).dIname) ∧
      (l.map fun c => (st.dentry c).dIname).Nodup ∧
      (l ≠ [] → (st.dentry d).dIsdir = true) := by
  have hruns : ((replay exec initial [.call 1 (.mkdir "/proc".toList 0x664),
      .call 1 (.mount "/proc".toList 1), .call 1 (.open "/proc/cpuinfo".toList O_RDONLY),
      .call 1 (.access "/proc/meminfo".toList R_OK), .call 1 (.access "/proc/1".toList R_OK),
      .call 1 (.mkdir "/a".toList 0x755)]).any fun st =>
        (st.entries 0).map (fun c => (st.dentry c).dIname) = ["a".toList, "proc".toList] ∧
        (st.entries 4).map (fun c => (st.dentry c).dIname) =
          ["1".toList, "meminfo".toList, "cpuinfo".toList] ∧
        ∀ d ∈ [0, 4], d < st.dentries.size) = true := by decide +kernel
  obtain ⟨st, hst, hstate⟩ := (Option.any_eq_true _ _).mp hruns
  obtain ⟨hroot, hproc, hlt⟩ := of_decide_eq_true hstate
  exact ⟨st, hroot, hproc, fun d hd =>
    entries_wellFormed (reachable_of_replay hst) (hlt d hd)⟩

end Reached

end NSOS.Vfs
