import NSOS.Vfs.Handles

/-! # Files and directories

`make_path` returns a directory when it is asked for one, and no directory
otherwise. Only directories have no table of operations, so every open file
has one.
-/

namespace NSOS.Vfs

open Basis Prog

section Lasting

/-- What is in memory keeps its kind: dentries their inodes, and inodes their operations. -/
structure Lasts (st st' : State) : Prop where
  dentries_le : st.dentries.size ≤ st'.dentries.size
  dentry : ∀ {d}, d < st.dentries.size → (st'.dentry d).dInode = (st.dentry d).dInode ∧
    (st'.dentry d).dIsdir = (st.dentry d).dIsdir
  inodes_le : st.inodes.size ≤ st'.inodes.size
  iFop : ∀ {i}, i < st.inodes.size → (st'.inode i).iFop = (st.inode i).iFop

variable {I : State → Prop} {P D : State → Nameidata → Prop} {st st' st'' : State} {t : ℕ}
  {op : Op} {nd : Nameidata} {name : List Char} {mode : UInt16} {k : Kind} {ps : List Part}
  {file : Bool} {o : Option ℕ}

theorem Lasts.of_eq (hns : st'.toNamespace = st.toNamespace) (hinodes : st'.inodes = st.inodes) :
    Lasts st st' := by
  constructor
  · rw [hns]
  · intro d _
    rw [hns]
    exact ⟨rfl, rfl⟩
  · rw [hinodes]
  · intro i _
    rw [State.inode, hinodes]
    rfl

theorem Lasts.refl : Lasts st st := .of_eq rfl rfl

theorem Lasts.trans (h : Lasts st st') (h' : Lasts st' st'') : Lasts st st'' where
  dentries_le := h.dentries_le.trans h'.dentries_le
  dentry hd := by
    obtain ⟨h₁, h₂⟩ := h.dentry hd
    obtain ⟨h₃, h₄⟩ := h'.dentry (hd.trans_le h.dentries_le)
    exact ⟨h₃.trans h₁, h₄.trans h₂⟩
  inodes_le := h.inodes_le.trans h'.inodes_le
  iFop hi := (h'.iFop (hi.trans_le h.inodes_le)).trans (h.iFop hi)

theorem Enters.lasts (he : Enters t mode st nd name k st') (hlt : nd.dentry < st.dentries.size) :
    Lasts st st' := by
  obtain ⟨y, j, F, he⟩ := he
  have hg : Namespace.Grown st.toNamespace st'.toNamespace :=
    he.namespace_eq ▸ Namespace.grown_enter hlt
  have hinodes : st'.inodes = st.inodes.grow.set st.inodes.size fun _ => j := by rw [he.state_eq]
  constructor
  · exact hg.size_le
  · intro d hd
    obtain ⟨a, b, hab⟩ := hg.old hd
    rw [hab]
    exact ⟨rfl, rfl⟩
  · rw [hinodes]
    exact Nat.le_succ _
  · intro i hi
    rw [State.inode, hinodes, Pool.obj_set_of_ne _ _ _ _ hi.ne]
    rfl

theorem Walkable.lasts (hw : Walkable t mode I P D) (hI : I st)
    (h : Walked t mode I D ps file o st st') : Lasts st st' := by
  obtain ⟨st₁, hr, hst'⟩ := h.steps
  have hrun : I st₁ ∧ Lasts st st₁ := hr.invariant (I := fun st₁ => I st₁ ∧ Lasts st st₁)
    ⟨hI, .refl⟩ fun {st₁ i st₂} h hf hm =>
      ⟨(hw.enters h.1 hf.1 hm).1, h.2.trans (Enters.lasts hm (hw.lt h.1 hf.1.place))⟩
  rcases hst' with rfl | ⟨-, i, hf, -, -, hm⟩
  · exact hrun.2
  · exact hrun.2.trans (Enters.lasts hm (hw.lt hrun.1 hf.place))

theorem lasts_kvfsWrite {f : ℕ} {buf : List UInt8} {z : ℤ}
    (hr : run (kvfsWrite f buf) st = some (z, st')) : Lasts st st' := by
  obtain ⟨B, K, F, size, pos, rfl⟩ := run_kvfsWrite_frame hr
  refine ⟨le_rfl, fun _ => ⟨rfl, rfl⟩, le_rfl, fun {i} _ => ?_⟩
  rw [State.inode, Pool.obj_set]
  split
  case isTrue hi => rw [hi]; rfl
  case isFalse => rfl

theorem Change.lasts (hw : ∀ t mode, Walkable t mode I P D) (hI : I st)
    (hc : Change I P D st op st') : Lasts st st' := by
  cases hc with
  | same => exact .refl
  | walked hwalk => exact (hw _ _).lasts hI hwalk
  | opened _ _ hwalk _ _ hopen =>
    refine ((hw _ _).lasts hI hwalk).trans ?_
    rcases hopen with ⟨-, -, rfl⟩ | ⟨i, -, -, -, rfl⟩
    · exact .of_eq rfl rfl
    · exact .of_eq rfl rfl
  | read => exact .of_eq rfl rfl
  | printed => exact .of_eq rfl rfl
  | wrote _ _ hr => exact lasts_kvfsWrite hr
  | sought _ _ hr =>
    rcases llseek_cases hr with rfl | ⟨pos, rfl⟩
    · exact .refl
    · exact .of_eq rfl rfl
  | @mounted t fs d m path x driver j st₁ st' hm _ hroot hst =>
    have hinodes : st'.inodes = st.inodes.grow.set st.inodes.size fun _ => j := by
      rw [hst, hroot.state_eq]
      rfl
    constructor
    · rw [hm.namespace_eq]
      exact Nat.le_succ _
    · intro e he
      rw [hm.namespace_eq, Namespace.dentry_addMount, Namespace.dentry_born_of_lt he]
      split <;> exact ⟨rfl, rfl⟩
    · rw [hinodes]
      exact Nat.le_succ _
    · intro i hi
      rw [State.inode, hinodes, Pool.obj_set_of_ne _ _ _ _ hi.ne]
      rfl
  | unmounted hu =>
    obtain rfl := hu.state_eq
    refine ⟨Namespace.size_dropMount.ge, fun {d} _ => ?_, le_rfl, fun _ => rfl⟩
    rw [Namespace.dentry_dropMount]
    split <;> exact ⟨rfl, rfl⟩
  | closed => exact .of_eq rfl rfl
  | @created t =>
    rcases kmtCreate_cases st t with heq | ⟨i, -, heq⟩
    · rw [heq]
      exact .refl
    · rw [heq]
      exact .of_eq rfl rfl
  | tornDown => exact .of_eq rfl rfl
  | newFs => exact .of_eq rfl rfl
  | world => exact .of_eq rfl rfl

end Lasting

section Served

/-- What walks to files with operations rely on. -/
structure Served (st : State) : Prop where
  inv : Inv st
  orderly : Orderly st
  file : ∀ {d c i}, d < st.dentries.size → c ∈ st.entries d → (st.dentry c).dIsdir = false →
    (st.dentry c).dInode = some i → (st.inode i).iFop ≠ none

/-- A place that is a directory, or a file with a table of operations. -/
structure FileAt (st : State) (nd : Nameidata) : Prop extends At st nd where
  iFop : (st.dentry nd.dentry).dIsdir = false → ∀ i, (st.dentry nd.dentry).dInode = some i →
    (st.inode i).iFop ≠ none

variable {st st' : State} {nd : Nameidata} {name : List Char} {t c : ℕ} {mode : UInt16} {k : Kind}
  {op : Op}

theorem DirAt.fileAt (hD : DirAt st nd) : FileAt st nd :=
  ⟨hD.toAt, fun hfile => absurd (hD.isdir.symm.trans hfile) Bool.noConfusion⟩

theorem Served.arrive (h : Served st) (hD : DirAt st nd)
    (hc : st.childNamed nd.dentry name = some c) :
    ∃ nd', arrive st nd c = .hit nd' ∧ FileAt st nd' := by
  obtain ⟨nd', ha, hP⟩ := h.orderly.arrive hD hc
  refine ⟨nd', ha, ?_⟩
  unfold Vfs.arrive at ha
  split at ha
  case isTrue =>
    split at ha
    case h_1 m hm =>
      cases ha
      exact (h.orderly.dirAt_mntRoot (h.orderly.wf.topMount_lt hm)).fileAt
    case h_2 => cases ha
  case isFalse =>
    cases ha
    exact ⟨hP, fun hfile i hi => h.file hD.lt (List.mem_of_find?_eq_some hc) hfile hi⟩

theorem Served.kept (h : Served st) (hlasts : Lasts st st') {d c i : ℕ}
    (hd : d < st.dentries.size) (hc : c ∈ st.entries d) (hfile : (st'.dentry c).dIsdir = false)
    (hi : (st'.dentry c).dInode = some i) : (st'.inode i).iFop ≠ none := by
  have hlt := ((h.orderly.wf.chain_entries hd).2 c hc).1
  obtain ⟨h₁, h₂⟩ := hlasts.dentry hlt
  rw [h₂] at hfile
  rw [h₁] at hi
  rw [hlasts.iFop (h.inv.inode_lt hlt hi)]
  exact h.file hd hc hfile hi

theorem Entered.iFop {y : Dentry} {j : Inode} {F : List Obj}
    (he : Entered t mode st st' nd name k y j F) (hk : k ≠ .lost) (hfile : y.dIsdir = false) :
    j.iFop ≠ none := by
  have hkind := he.inodes
  have hdir := he.dIsdir hk
  cases k with
  | lost => exact absurd rfl hk
  | directory =>
    rw [hfile] at hdir
    cases hdir
  | cached =>
    obtain ⟨m, ip, -, -, -, -, hfop⟩ := hkind
    rw [hfop]
    exact Option.some_ne_none _
  | file i =>
    rw [hkind.2.2]
    exact Option.some_ne_none _

theorem Enters.served (he : Enters t mode st nd name k st') (h : Served st) (hD : DirAt st nd)
    (hnone : st.childNamed nd.dentry name = none) (hvalid : ValidName name) :
    Served st' ∧ (k ≠ .lost → FileAt st' ⟨st.dentries.size, nd.mnt⟩) := by
  obtain ⟨ho, hP⟩ := he.orderly h.orderly hD hnone hvalid
  have hlasts := Enters.lasts he hD.lt
  obtain ⟨y, j, F, he⟩ := he
  have hns := he.namespace_eq
  obtain ⟨-, o, hnew⟩ := he.dentry_size hD.lt
  -- The new entry.
  have hmade : k ≠ .lost → (st'.dentry st.dentries.size).dIsdir = false → ∀ i,
      (st'.dentry st.dentries.size).dInode = some i → (st'.inode i).iFop ≠ none := by
    intro hk hfile i hi
    rw [hnew] at hfile hi
    rcases he.dInode with hy | ⟨hlost, -⟩
    · obtain rfl := Option.some.inj (hy.symm.trans hi)
      rw [State.inode, he.state_eq, Pool.obj_set_self]
      exact he.iFop hk hfile
    · exact absurd hlost hk
  refine ⟨⟨(he.evolves h.inv hD.lt).inv, ho, fun {d c i} hd hc hfile hi => ?_⟩,
    fun hk => ⟨hP hk, hmade hk⟩⟩
  have hsize : d < st.dentries.size + 1 := by
    rw [hns, Namespace.size_enter] at hd
    exact hd
  rw [hns] at hc
  by_cases hlt : d < st.dentries.size
  · rw [Namespace.entries_enter h.orderly.wf hD.lt he.leaf hlt] at hc
    split at hc
    case isTrue hk =>
      rcases List.mem_cons.mp hc with rfl | hc
      · exact hmade hk.1 hfile i hi
      · exact h.kept hlasts hlt hc hfile hi
    case isFalse => exact h.kept hlasts hlt hc hfile hi
  · obtain rfl : d = st.dentries.size := by omega
    rw [Namespace.entries_enter_size h.orderly.wf hD.lt he.leaf] at hc
    cases hc

/-- Walks that start at a directory lead to directories and to files with operations. -/
theorem walkable_served (t : ℕ) (mode : UInt16) : Walkable t mode Served FileAt DirAt where
  wf h := h.inv.wf
  lt _ hD := hD.lt
  mnt _ hD := by
    obtain ⟨m, hm, hnd, -⟩ := hD.mnt
    exact ⟨m, hm, hnd⟩
  climb h hD := h.orderly.climb hD
  arrive h hD hc := h.arrive hD hc
  down _ hP hdir := ⟨hP.toAt, hdir⟩
  up _ hD := hD.fileAt
  enter h hD hnone hvalid he := by
    obtain ⟨h', hP⟩ := he.served h hD hnone hvalid
    have hg := (he.extends h.orderly.wf hD.lt hnone).toGrown
    exact ⟨h', fun hD' => hD'.grown h.orderly.wf hg, hP⟩

theorem Served.change (h : Served st) (hs : exec st op = some st') :
    Change Served FileAt DirAt st op st' :=
  change_of_exec walkable_served h h.inv (fun ht => dirAt_start h.inv h.orderly.tidy ht) hs

theorem served_exec (h : Served st) (hs : exec st op = some st') : Served st' := by
  have hc := h.change hs
  have hinv := inv_exec h.inv hs
  refine ⟨hinv, ⟨hinv.wf, tidy_exec h.inv h.orderly.tidy hs⟩, fun {d c i} hd hmem hfile hi => ?_⟩
  have hlasts := hc.lasts walkable_served h
  -- A step that makes no entries.
  have hold : st'.toNamespace = st.toNamespace → (st'.inode i).iFop ≠ none := by
    intro hns
    rw [hns] at hd hmem
    exact h.kept hlasts hd hmem hfile hi
  cases hc with
  | walked hw => exact hw.inv.file hd hmem hfile hi
  | opened _ _ hw _ _ hopen =>
    rcases hopen with ⟨-, -, rfl⟩ | ⟨k, -, -, -, rfl⟩
    · exact hw.inv.file hd hmem hfile hi
    · exact hw.inv.file hd hmem hfile hi
  | mounted hm _ _ _ =>
    rw [hm.namespace_eq, Namespace.entries_addMount] at hmem
    by_cases hlt : d < st.dentries.size
    · rw [Namespace.entries_born h.orderly.wf hlt] at hmem
      exact h.kept hlasts hlt hmem hfile hi
    · have hsize : d < st.dentries.size + 1 := by
        rw [hm.namespace_eq] at hd
        exact hd
      obtain rfl : d = st.dentries.size := by omega
      rw [Namespace.entries_born_size hm.root.subdirs] at hmem
      cases hmem
  | unmounted hu =>
    obtain rfl := hu.state_eq
    rw [Namespace.size_dropMount] at hd
    rw [Namespace.entries_dropMount] at hmem
    exact h.kept hlasts hd hmem hfile hi
  | wrote _ _ hr => exact hold (calm_kvfsWrite.still hr).namespace_eq
  | sought _ _ hr => exact hold (calm_llseek.still hr).namespace_eq
  | @created t =>
    rcases kmtCreate_cases st t with heq | ⟨u, -, heq⟩
    · exact hold (by rw [heq])
    · exact hold (by rw [heq])
  | same => exact hold rfl
  | read => exact hold rfl
  | printed => exact hold rfl
  | closed => exact hold rfl
  | tornDown => exact hold rfl
  | newFs => exact hold rfl
  | world => exact hold rfl

end Served

section Opened

/-- An open file of a dentry that is no directory, with the operations of its inode. -/
structure Usable (st : State) (f : File) : Prop where
  dentry_lt : f.fDentry < st.dentries.size
  isFile : (st.dentry f.fDentry).dIsdir = false
  dInode : (st.dentry f.fDentry).dInode = some f.fInode
  inode_lt : f.fInode < st.inodes.size
  iFop : (st.inode f.fInode).iFop = f.fOp
  fOp : f.fOp ≠ none

variable {st st' : State} {f g : File} {op : Op} {t : ℕ} {path : List Char}

theorem Usable.lasts (hu : Usable st f) (hl : Lasts st st') {pos : ℤ} :
    Usable st' { f with fPos := pos } := by
  obtain ⟨h₁, h₂⟩ := hl.dentry hu.dentry_lt
  exact ⟨hu.dentry_lt.trans_le hl.dentries_le, h₂.trans hu.isFile, h₁.trans hu.dInode,
    hu.inode_lt.trans_le hl.inodes_le, (hl.iFop hu.inode_lt).trans hu.iFop, hu.fOp⟩

/-- What `make_path` finds or makes for `vfs_open` can be opened. -/
theorem Served.usable (h : Served st) {ps : List Part} {nd₀ nd : Nameidata} {d ip : ℕ}
    {wants : Bool} {flags : UInt32} (hend : Ends FileAt false wants ps st nd₀ nd d)
    (hip : (st.dentry d).dInode = some ip) :
    Usable st ⟨d, ip, 0, flags, (st.inode ip).iFop⟩ := by
  obtain ⟨rfl, hP, hfile, -⟩ := hend
  exact ⟨hP.lt, hfile rfl, hip, h.inv.inode_lt hP.lt hip, rfl, hP.iFop (hfile rfl) ip hip⟩

theorem usable_exec (h : Served st) (hf : ∀ f < st.files.size, Usable st (st.file f))
    (hs : exec st op = some st') : ∀ f < st'.files.size, Usable st' (st'.file f) := by
  have hc := h.change hs
  have hlasts := hc.lasts walkable_served h
  -- At most one file is moved.
  have hmoved : ∀ g pos, st'.files = st.files.set g (fun x => { x with fPos := pos }) →
      ∀ f < st'.files.size, Usable st' (st'.file f) := by
    intro g pos hfiles f hlt
    rw [hfiles] at hlt
    rw [State.file, hfiles, Pool.obj_set]
    split
    case isTrue heq => exact (hf g (heq ▸ hlt)).lasts hlasts
    case isFalse => exact (hf f hlt).lasts hlasts
  have hsame : st'.files = st.files → ∀ f < st'.files.size, Usable st' (st'.file f) :=
    fun hfiles => hmoved 0 (st.file 0).fPos (hfiles.trans (Pool.set_id _ _ _ rfl).symm)
  cases hc with
  | same => exact hf
  | walked hw => exact hsame hw.unopened.1
  | @opened t d ip path flags nd ret st₁ st' _ _ hw hend hip hopen =>
    let x : File := ⟨d, ip, 0, flags, (st₁.inode ip).iFop⟩
    have hx : Usable st₁ x := hw.inv.usable hend hip
    have hnew : st'.files = st.files.grow.set st.files.size (fun _ => x) ∧ Lasts st₁ st' := by
      rw [← hw.unopened.1]
      rcases hopen with ⟨-, -, rfl⟩ | ⟨i, -, -, -, rfl⟩
      · exact ⟨rfl, .of_eq rfl rfl⟩
      · exact ⟨rfl, .of_eq rfl rfl⟩
    obtain ⟨hfiles, hlast⟩ := hnew
    intro f hlt
    rw [hfiles] at hlt
    rw [State.file, hfiles, Pool.obj_set]
    split
    case isTrue => exact hx.lasts hlast
    case isFalse hne =>
      have hlt : f < st.files.size + 1 := hlt
      exact (hf f (by omega)).lasts hlasts
  | read => exact hsame rfl
  | printed => exact hsame rfl
  | @wrote t g fd z buf st' _ _ hr =>
    obtain ⟨B, K, F, size, pos, rfl⟩ := run_kvfsWrite_frame hr
    exact hmoved _ _ rfl
  | sought _ _ hr =>
    rcases llseek_cases hr with rfl | ⟨pos, rfl⟩
    · exact hf
    · exact hmoved _ _ rfl
  | mounted _ _ hroot hst =>
    refine hsame ?_
    rw [hst, hroot.state_eq]
    rfl
  | unmounted hu =>
    obtain rfl := hu.state_eq
    exact hsame rfl
  | closed => exact hsame rfl
  | @created t =>
    rcases kmtCreate_cases st t with heq | ⟨i, -, heq⟩
    · exact hsame (by rw [heq])
    · exact hsame (by rw [heq])
  | tornDown => exact hsame rfl
  | newFs => exact hsame rfl
  | world => exact hsame rfl

theorem served_started (hs : Started st) : Served st := by
  have hinv := inv_started hs
  obtain ⟨-, -, -, -, -, hsize, hentries⟩ := hs.tree
  refine ⟨hinv, ⟨hinv.wf, tidy_started hs⟩, fun {d c i} hd hc => ?_⟩
  obtain rfl : d = 0 := by omega
  rw [hentries] at hc
  cases hc

theorem Reach.served {Q : State → Op → Prop} (hr : Reach st Q) :
    Served st ∧ ∀ f < st.files.size, Usable st (st.file f) := by
  obtain ⟨st₀, h₀, hr⟩ := hr
  refine hr.invariant (I := fun st => Served st ∧ ∀ f < st.files.size, Usable st (st.file f))
    ⟨served_started h₀, fun f hf => ?_⟩ fun h _ hs =>
      ⟨served_exec h.1 hs, usable_exec h.1 h.2 hs⟩
  rw [h₀.files_size] at hf
  exact absurd hf (Nat.not_lt_zero f)

end Opened

section Made

variable {st st' : State} {t : ℕ} {mode : UInt16} {nd nd' : Nameidata} {ps : List Part}
  {path : List Char} {dir : Bool} {o : Option ℕ}

theorem Orderly.isdir_of_resolve (h : Orderly st) (hD : DirAt st nd)
    (hr : resolve st true ps nd = .hit nd') : (st.dentry nd'.dentry).dIsdir = true := by
  induction ps generalizing nd with
  | nil =>
    obtain rfl := Found.hit.inj hr
    exact hD.isdir
  | cons p ps ih =>
    cases p with
    | dot =>
      have hgo : goTo st nd .dot = .hit nd := rfl
      rw [resolve_cons hgo fun hname => by cases hname] at hr
      exact ih hD hr
    | dotdot =>
      obtain ⟨nd₁, hc, hD₁⟩ := h.climb hD
      have hgo : goTo st nd .dotdot = .hit nd₁ := hc
      rw [resolve_cons hgo fun hname => by cases hname] at hr
      exact ih hD₁ hr
    | name s =>
      have hlook := (walkable_at 0 0).run_doLookup h hD s
      rw [resolve, goTo] at hr
      cases hf : look st nd s with
      | hit nd₁ =>
        rw [hf] at hr hlook
        dsimp only at hr
        split at hr
        case isTrue => cases hr
        case isFalse hnot =>
          refine ih ⟨hlook.2, ?_⟩ hr
          by_contra hfile
          exact hnot ⟨rfl, .inr rfl, Bool.eq_false_iff.mpr hfile⟩
      | made nd₁ name =>
        rw [hf] at hr
        simp at hr
      | absent =>
        rw [hf] at hr
        cases hr
      | stuck =>
        rw [hf] at hr
        cases hr

theorem Served.run_makePath (h : Served st) (ht : st.Running t) {d : ℕ}
    (hr : run (makePath t path dir mode) st = some ((some d, nd), st')) :
    (st'.dentry d).dIsdir = dir := by
  have hD : DirAt st (start st t path) := dirAt_start h.inv h.orderly.tidy ht
  obtain ⟨hwalk, hend⟩ := (walkable_served t mode).walked_makePath h hD hr
  obtain ⟨rfl, -, hfile, hhit⟩ := hend d rfl
  cases dir with
  | false => exact hfile rfl
  | true => exact hwalk.inv.orderly.isdir_of_resolve (hwalk.keeps hD) hhit

end Made

end NSOS.Vfs
