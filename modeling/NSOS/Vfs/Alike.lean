import NSOS.Basis.Twins
import NSOS.Vfs.Storage

/-! # Alike states

Memory that has not been handed out has any contents, and what the kernel does
not set keeps them. Alike states agree on what has been set: on the trees, the
mounts and the open files, and on the inodes in use as far as lookups,
permission checks and seeks in `kvfs` read them.
-/

namespace NSOS.Vfs

open Basis Prog

section Inodes

def Driver.unset : Driver → List Char → Bool
  | kvfs, _ => false
  | procfs, name => name = "cpuinfo".toList
  | devfs, name => name = "null".toList

def State.Unset (st : State) (d : ℕ) : Prop :=
  (st.dentry d).dIsdir = false ∧ ∃ i ∈ (st.dentry d).dInode, ∃ op ∈ (st.inode i).iFop,
    op.unset (st.dentry d).dIname = true

instance {st : State} {d : ℕ} : Decidable (st.Unset d) := inferInstanceAs (Decidable (_ ∧ _))

def Inode.SamePerms (i j : Inode) : Prop :=
  ∀ uid gid flags, checkAcl uid gid j flags = checkAcl uid gid i flags

/-- Inodes that agree on what the kernel has set, their permissions aside. -/
structure Inode.Alike (i j : Inode) : Prop where
  iOp : j.iOp = i.iOp
  iFop : j.iFop = i.iFop
  iIno : i.iFop ≠ none → j.iIno = i.iIno
  size : i.iFop = some .kvfs → j.iSize = i.iSize

variable {i j : Inode} {uid gid : UInt32} {flags : UInt32}

theorem Inode.Alike.refl : i.Alike i := ⟨rfl, rfl, fun _ => rfl, fun _ => rfl⟩

theorem Inode.samePerms (hu : j.iUid = i.iUid) (hg : j.iGid = i.iGid) (ha : j.iAcl = i.iAcl) :
    i.SamePerms j := by
  intro uid gid flags
  have hdenied : ∀ owner group other,
      denied uid gid j owner group other = denied uid gid i owner group other := by
    intro owner group other
    rw [denied, hu, hg, ha, denied]
  simp only [checkAcl, hdenied]

/-- Where everyone may read, and nobody may write, it does not matter whose file it is. -/
theorem checkAcl_aclRead (h : i.iAcl = aclRead) :
    checkAcl uid gid i flags = decide (flags &&& W_OK ≠ 0) := by
  have hread : denied uid gid i ACL_OWNER_R ACL_GROUP_R ACL_OTHER_R = false := by
    simp only [denied, h]
    split
    · decide
    · split <;> decide
  have hwrite : denied uid gid i ACL_OWNER_W ACL_GROUP_W ACL_OTHER_W = true := by
    simp only [denied, h]
    split
    · decide
    · split <;> decide
  simp [checkAcl, hread, hwrite]

theorem procEntry_acl {pool : ℤ → Bool} {name : List Char} {ino : ℤ} {acl : Option UInt16}
    (h : procEntry pool name = some (ino, acl)) :
    name = "cpuinfo".toList ∨ acl = some aclRead := by
  unfold procEntry at h
  split at h
  case isTrue hname => exact .inl hname
  · split at h
    · cases h
      exact .inr rfl
    · split at h
      · cases h
      · split at h
        · cases h
        · split at h
          · cases h
          · split at h
            · cases h
              exact .inr rfl
            · cases h

theorem devEntry_acl {name : List Char} {ino : ℤ} {acl : Option UInt16}
    (h : devEntry name = some (ino, acl)) : name = "null".toList ∨ acl = some aclRead := by
  unfold devEntry at h
  split at h
  case isTrue hname => exact .inl hname
  · split at h
    · cases h
      exact .inr rfl
    · split at h
      · cases h
        exact .inr rfl
      · cases h

theorem driverEntry_acl {st : State} {op : Driver} {dir : ℕ} {name : List Char} {ino : ℤ}
    {acl : Option UInt16} (h : driverEntry st op dir name = some (ino, acl)) :
    op.unset name = true ∨ acl = some aclRead := by
  cases op with
  | kvfs => cases h
  | procfs =>
    simp only [driverEntry] at h
    split at h
    · exact (procEntry_acl h).imp_left fun hname => decide_eq_true hname
    · cases h
  | devfs =>
    simp only [driverEntry] at h
    split at h
    · exact (devEntry_acl h).imp_left fun hname => decide_eq_true hname
    · cases h

end Inodes

section Alike

/-- States that agree on what the kernel has set. -/
structure Alike (x y : State) : Prop where
  dentries : y.dentries.size = x.dentries.size
  dentry : ∀ {d}, d < x.dentries.size → ∃ c s b o,
    y.dentry d = { x.dentry d with dChild := c, dSubdirs := s, dIsdir := b, dOp := o }
  entries : ∀ {d}, d < x.dentries.size → y.entries d = x.entries d
  isdir : ∀ {d i}, d < x.dentries.size → (x.dentry d).dInode = some i → x.Live i →
    (y.dentry d).dIsdir = (x.dentry d).dIsdir ∧
      (¬ x.Unset d → (x.inode i).SamePerms (y.inode i))
  rootDentry : y.rootDentry = x.rootDentry
  mounts : y.mounts.size = x.mounts.size
  mount : ∀ {m}, m < x.mounts.size → ∃ n, y.mount m = { x.mount m with mntNext := n }
  mountList : y.mountList = x.mountList
  inodes : y.inodes.size = x.inodes.size
  inode : ∀ {i}, x.Live i → (x.inode i).Alike (y.inode i)
  fsTypes : y.fsTypes.size = x.fsTypes.size
  fsType : ∀ {f}, f < x.fsTypes.size → y.fsType f = x.fsType f
  files : y.files.size = x.files.size
  file : ∀ {f}, f < x.files.size → y.file f = x.file f
  blocks : y.blocks.size = x.blocks.size
  kvfsFiles : y.kvfsFiles = x.kvfsFiles
  kvfsInited : y.kvfsInited = x.kvfsInited
  thread : y.thread = x.thread
  threadPool : y.threadPool = x.threadPool

variable {x y x' y' : State} {nd nd' : Nameidata} {name : List Char} {d m t : ℕ} {mode : UInt16}
  {k : Kind} {a b : Dentry} {i j : Inode} {F G : List Obj}

theorem Alike.label (h : Alike x y) (hd : d < x.dentries.size) :
    (y.dentry d).dIname = (x.dentry d).dIname ∧ (y.dentry d).dInode = (x.dentry d).dInode ∧
      y.parent d = x.parent d ∧ (y.dentry d).dMounted = (x.dentry d).dMounted := by
  obtain ⟨c, s, b, o, hdentry⟩ := h.dentry hd
  rw [Namespace.parent, hdentry]
  exact ⟨rfl, rfl, rfl, rfl⟩

theorem Alike.dInode (h : Alike x y) (hd : d < x.dentries.size) :
    (y.dentry d).dInode = (x.dentry d).dInode := (h.label hd).2.1

theorem Alike.parent (h : Alike x y) (hd : d < x.dentries.size) : y.parent d = x.parent d :=
  (h.label hd).2.2.1

theorem Alike.childNamed (h : Alike x y) (hw : x.toNamespace.Wf) (hd : d < x.dentries.size) :
    y.childNamed d name = x.childNamed d name := by
  rw [Namespace.childNamed, h.entries hd]
  refine List.find?_congr fun c hc => ?_
  rw [(h.label ((hw.chain_entries hd).2 c hc).1).1]

theorem Alike.topMount (h : Alike x y) (hw : x.toNamespace.Wf) : y.topMount d = x.topMount d := by
  rw [Namespace.topMount, h.mountList]
  refine List.find?_congr fun m hm => ?_
  obtain ⟨n, hn⟩ := h.mount (hw.chain_mountList.2 m hm)
  rw [hn]

theorem Alike.isdir_of_lives (h : Alike x y) (hd : d < x.dentries.size)
    (hi : (x.dentry d).dInode ≠ none) (hl : x.Lives d) :
    (y.dentry d).dIsdir = (x.dentry d).dIsdir := by
  obtain ⟨i, hi⟩ := Option.ne_none_iff_exists'.mp hi
  exact (h.isdir hd hi (hl i hi)).1

theorem Alike.arrive {c : ℕ} (h : Alike x y) (hs : Sound x) (hD : LiveDirAt x nd)
    (hc : x.childNamed nd.dentry name = some c) : arrive y nd c = arrive x nd c := by
  have hmem := List.mem_of_find?_eq_some hc
  have hlt := ((hs.inv.wf.chain_entries hD.lt).2 c hmem).1
  have hcov : y.covered c = x.covered c := by
    simp only [Namespace.covered, (h.label hlt).2.2.2,
      h.isdir_of_lives hlt (hs.orderly.tidy.linked hD.lt hmem).1 (hs.housed.linked hD.lt hmem)]
  rw [Vfs.arrive, hcov, h.topMount hs.inv.wf, Vfs.arrive]
  split
  · cases htop : x.topMount c with
    | none => rfl
    | some m =>
      obtain ⟨n, hn⟩ := h.mount (hs.inv.wf.topMount_lt htop)
      dsimp only
      rw [hn]
  · rfl

theorem Alike.driverEntry {op : Driver} (h : Alike x y) (hd : d < x.dentries.size) :
    driverEntry y op d name = driverEntry x op d name := by
  simp only [Vfs.driverEntry, h.parent hd, h.threadPool]

theorem Alike.climb (h : Alike x y) (hs : Sound x) (hD : LiveDirAt x nd) :
    climb y nd = climb x nd := by
  obtain ⟨m, hm, hnd, -⟩ := hD.mnt
  obtain ⟨n, hn⟩ := h.mount hm
  simp only [Vfs.climb, hnd, h.rootDentry, h.parent hD.lt, hn,
    h.parent (hs.inv.wf.mountpoint_lt hm)]

theorem Entered.live_cases (he : Entered t mode x x' nd name k a i F) {ip : ℕ} (hl : x'.Live ip) :
    x.Live ip ∨ ip = x.inodes.size ∧ k ≠ .lost := by
  obtain ⟨hlt, hkept⟩ := hl
  rw [he.state_eq] at hlt hkept
  have hlt : ip < x.inodes.size + 1 := hlt
  have hkept : .inode ip ∉ F ++ x.freed := hkept
  rw [List.mem_append, not_or] at hkept
  by_cases hold : ip < x.inodes.size
  · exact .inl ⟨hold, hkept.2⟩
  · obtain rfl : ip = x.inodes.size := by omega
    exact .inr ⟨rfl, fun hlost => hkept.1 (he.lost hlost)⟩

theorem Alike.entered (h : Alike x y) (hs : Sound x) (hy : Inv y)
    (hlt : nd.dentry < x.dentries.size)
    (he : Entered t mode x x' nd name k a i F) (he' : Entered t mode y y' nd name k b j G)
    (hab : b.dInode = a.dInode) (hij : k ≠ .lost → i.Alike j)
    (hperms : k ≠ .lost → (∀ op, k ≠ .directory → i.iFop = some op → op.unset name = false) →
      i.SamePerms j) : Alike x' y' := by
  have hlt' : nd.dentry < y.dentries.size := h.dentries ▸ hlt
  have hns := he.namespace_eq
  have hns' := he'.namespace_eq
  have hg : Namespace.Grown x.toNamespace x'.toNamespace := hns ▸ Namespace.grown_enter hlt
  have hg' : Namespace.Grown y.toNamespace y'.toNamespace := hns' ▸ Namespace.grown_enter hlt'
  have hsize : x'.dentries.size = x.dentries.size + 1 := by rw [hns, Namespace.size_enter]
  have hsize' : y'.dentries.size = x.dentries.size + 1 := by
    rw [hns', Namespace.size_enter, h.dentries]
  have hisize : x'.inodes.size = x.inodes.size + 1 := by
    rw [he.state_eq]
    rfl
  obtain ⟨-, o, hnew⟩ := he.dentry_size hlt
  obtain ⟨-, o', hnew'⟩ := he'.dentry_size hlt'
  rw [h.dentries] at hnew'
  have hcases : ∀ {d}, d < x'.dentries.size → d < x.dentries.size ∨ d = x.dentries.size := by
    intro d hd
    omega
  have hinew : y'.inode x.inodes.size = j := by
    rw [← h.inodes]
    exact he'.inode_size
  have hiold : ∀ {ip}, x.Live ip → x'.inode ip = x.inode ip ∧ y'.inode ip = y.inode ip := fun hl =>
    ⟨he.inode_of_lt hl.1, he'.inode_of_lt (h.inodes ▸ hl.1)⟩
  constructor
  case dentries => rw [hsize, hsize']
  case dentry =>
    intro d hd
    rcases hcases hd with hd | rfl
    · obtain ⟨c, s, hc⟩ := hg.old hd
      obtain ⟨c', s', hc'⟩ := hg'.old (h.dentries ▸ hd)
      obtain ⟨c₁, s₁, b₁, o₁, hxy⟩ := h.dentry hd
      rw [hc, hc', hxy]
      exact ⟨_, _, _, _, rfl⟩
    · rw [hnew, hnew']
      refine ⟨o', b.dSubdirs, b.dIsdir, b.dOp, ?_⟩
      rw [Dentry.mk.injEq]
      exact ⟨he'.dIname.trans he.dIname.symm, hab, he'.dParent.trans he.dParent.symm, rfl, rfl,
        he'.dMounted.trans he.dMounted.symm, rfl, rfl⟩
  case entries =>
    intro d hd
    rw [hns, hns']
    rcases hcases hd with hd | rfl
    · rw [Namespace.entries_enter hs.inv.wf hlt he.leaf hd,
        Namespace.entries_enter hy.wf hlt' he'.leaf (h.dentries ▸ hd), h.entries hd, h.dentries]
    · have hnil := Namespace.entries_enter_size (k := k) hy.wf hlt' he'.leaf
      rw [h.dentries] at hnil
      rw [hnil, Namespace.entries_enter_size hs.inv.wf hlt he.leaf]
  case isdir =>
    intro d ip hd hi hl
    rcases hcases hd with hd | rfl
    · obtain ⟨c, s, hc⟩ := hg.old hd
      obtain ⟨c', s', hc'⟩ := hg'.old (h.dentries ▸ hd)
      have hi : (x.dentry d).dInode = some ip := by
        rw [hc] at hi
        exact hi
      rcases he.live_cases hl with hold | ⟨rfl, -⟩
      · have hunset : x.Unset d → x'.Unset d := by
          rintro ⟨hfile, i, hdi, op, hop, hname⟩
          obtain rfl := Option.some.inj (hi.symm.trans hdi)
          rw [← (hiold hold).1] at hop
          rw [State.Unset, hc]
          exact ⟨hfile, ip, hdi, op, hop, hname⟩
        obtain ⟨hdir, hsame⟩ := h.isdir hd hi hold
        rw [(hiold hold).1, (hiold hold).2, hc, hc']
        exact ⟨hdir, fun hn => hsame fun hu => hn (hunset hu)⟩
      · exact absurd (hs.inv.inode_lt hd hi) (Nat.lt_irrefl _)
    · rw [hnew] at hi
      rcases he.live_cases hl with hold | ⟨rfl, hk⟩
      · rcases he.dInode with hx | ⟨-, hx⟩
        · obtain rfl := Option.some.inj (hx.symm.trans hi)
          exact absurd hold.1 (Nat.lt_irrefl _)
        · cases hx.symm.trans hi
      · rw [he.inode_size, hinew]
        refine ⟨?_, fun hn => hperms hk fun op hdir hop => ?_⟩
        · rw [hnew, hnew']
          exact (he'.dIsdir hk).trans (he.dIsdir hk).symm
        · rw [State.Unset, hnew] at hn
          refine Bool.eq_false_iff.mpr fun hname => hn ⟨?_, _, hi, op, ?_, ?_⟩
          · exact (he.dIsdir hk).trans (decide_eq_false hdir)
          · rw [he.inode_size]
            exact hop
          · exact he.dIname.symm ▸ hname
  case rootDentry => rw [hg.rootDentry, hg'.rootDentry, h.rootDentry]
  case mounts => rw [hg.mounts, hg'.mounts, h.mounts]
  case mount =>
    intro m hm
    rw [hg.mounts] at hm
    rw [hg.mount, hg'.mount]
    exact h.mount hm
  case mountList => rw [hg.mountList, hg'.mountList, h.mountList]
  case inodes =>
    rw [hisize, he'.state_eq, ← h.inodes]
    rfl
  case inode =>
    intro ip hl
    rcases he.live_cases hl with hold | ⟨rfl, hk⟩
    · rw [(hiold hold).1, (hiold hold).2]
      exact h.inode hold
    · rw [he.inode_size, hinew]
      exact hij hk
  case kvfsFiles =>
    rw [he.state_eq, he'.state_eq]
    cases k <;> simp only [Kind.table, h.kvfsFiles]
  all_goals rw [he.state_eq, he'.state_eq]
  case fsTypes => exact h.fsTypes
  case fsType => exact h.fsType
  case files => exact h.files
  case file => exact h.file
  case blocks => exact h.blocks
  case kvfsInited => exact h.kvfsInited
  case thread => exact h.thread
  case threadPool => exact h.threadPool

end Alike

section Updates

variable {x y : State} {f ip t u k : ℕ} {B B' : Pool (ℤ → UInt8)} {L L' : List Obj}

/-- Blocks may have different contents, and what is given back may differ but for inodes. -/
theorem Alike.blocks_freed (h : Alike x y) (hB : B'.size = B.size)
    (hL : ∀ i, .inode i ∈ L ↔ .inode i ∈ x.freed) :
    Alike { x with blocks := B, freed := L } { y with blocks := B', freed := L' } := by
  have hlive : ∀ {i}, State.Live { x with blocks := B, freed := L } i → x.Live i := fun hl =>
    ⟨hl.1, fun hmem => hl.2 ((hL _).mpr hmem)⟩
  exact { h with
    blocks := hB
    isdir := fun hd hi hl => h.isdir hd hi (hlive hl)
    inode := fun hl => h.inode (hlive hl) }

theorem Alike.moved (h : Alike x y) (hf : f < x.files.size) {g g' : File → ℤ}
    (hg : g' (x.file f) = g (x.file f)) :
    Alike { x with files := x.files.set f fun k => { k with fPos := g k } }
      { y with files := y.files.set f fun k => { k with fPos := g' k } } :=
  { h with
    file := fun {k} hk => by
      have hfile : y.files.obj k = x.files.obj k := h.file hk
      have hpos : g' (x.files.obj f) = g (x.files.obj f) := hg
      rw [State.file, Pool.obj_set, State.file, Pool.obj_set]
      split
      case isTrue heq =>
        subst heq
        rw [hfile, hpos]
      case isFalse => exact hfile }

def State.setSize (st : State) (ip : ℕ) (n : ℤ) : State :=
  { st with inodes := st.inodes.set ip fun i => { i with iSize := n } }

theorem inode_setSize (st : State) (ip i : ℕ) (n : ℤ) : (st.setSize ip n).inode i =
    { st.inode i with iSize := if i = ip then n else (st.inode i).iSize } := by
  rw [State.inode, State.setSize, Pool.obj_set]
  split
  case isTrue heq =>
    subst heq
    rfl
  case isFalse => rfl

theorem Alike.setSize (h : Alike x y) (ip : ℕ) (n : ℤ) :
    Alike (x.setSize ip n) (y.setSize ip n) := by
  have hunset : ∀ {d}, x.Unset d → (x.setSize ip n).Unset d := by
    rintro d ⟨hfile, i, hi, op, hop, hname⟩
    refine ⟨hfile, i, hi, op, ?_, hname⟩
    rw [inode_setSize]
    exact hop
  refine { h with inodes := h.inodes, isdir := fun {d i} hd hi hl => ?_, inode := fun {i} hl => ?_ }
  · obtain ⟨hdir, hsame⟩ := h.isdir hd hi hl
    rw [inode_setSize, inode_setSize]
    exact ⟨hdir, fun hn => hsame fun hu => hn (hunset hu)⟩
  · have hi := h.inode hl
    rw [inode_setSize, inode_setSize]
    refine ⟨hi.iOp, hi.iFop, hi.iIno, fun hkvfs => ?_⟩
    dsimp only
    rw [hi.size hkvfs]

end Updates

section SameHeld

/-- The states differ at most in memory that has not been handed out. -/
structure SameHeld (x y : State) : Prop where
  rest : y = { x with
    dentries := y.dentries
    mounts := y.mounts
    inodes := y.inodes
    fsTypes := y.fsTypes
    files := y.files
    blocks := y.blocks }
  dentries : x.dentries.SameHeld y.dentries
  mounts : x.mounts.SameHeld y.mounts
  inodes : x.inodes.SameHeld y.inodes
  fsTypes : x.fsTypes.SameHeld y.fsTypes
  files : x.files.SameHeld y.files
  blocks : x.blocks.SameHeld y.blocks

variable {x y : State} {d m : ℕ}

theorem SameHeld.dentry (h : SameHeld x y) (hd : d < x.dentries.size) : y.dentry d = x.dentry d :=
  h.dentries.obj_eq hd

theorem SameHeld.mount (h : SameHeld x y) (hm : m < x.mounts.size) : y.mount m = x.mount m :=
  h.mounts.obj_eq hm

theorem SameHeld.parent (h : SameHeld x y) (hd : d < x.dentries.size) : y.parent d = x.parent d :=
  congrArg Dentry.dParent (h.dentry hd)

theorem SameHeld.chain_entries (h : SameHeld x y) (hw : x.toNamespace.Wf)
    (hd : d < x.dentries.size) :
    Chain (fun c => (y.dentry c).dChild) (y.dentry d).dSubdirs (x.entries d) := by
  obtain ⟨hl, hmem⟩ := hw.chain_entries hd
  rw [h.dentry hd]
  exact hl.congr fun c hc => congrArg Dentry.dChild (h.dentry (hmem c hc).1)

theorem SameHeld.entries (h : SameHeld x y) (hw : x.toNamespace.Wf) (hd : d < x.dentries.size) :
    y.entries d = x.entries d := by
  refine (h.chain_entries hw hd).links_eq ?_
  rw [h.dentries.size_eq]
  exact hw.length_entries hd

theorem SameHeld.chain_mountList (h : SameHeld x y) (hw : x.toNamespace.Wf) :
    Chain (fun m => (y.mount m).mntNext) y.mntHead x.mountList := by
  obtain ⟨hl, hmem⟩ := hw.chain_mountList
  have hhead : y.mntHead = x.mntHead := by rw [h.rest]
  rw [hhead]
  exact hl.congr fun m hm => congrArg Vfsmount.mntNext (h.mount (hmem m hm))

theorem SameHeld.mountList (h : SameHeld x y) (hw : x.toNamespace.Wf) :
    y.mountList = x.mountList := by
  refine (h.chain_mountList hw).links_eq ?_
  rw [h.mounts.size_eq]
  exact hw.length_mountList

theorem SameHeld.wf (h : SameHeld x y) (hw : x.toNamespace.Wf) : y.toNamespace.Wf := by
  have hdsize := h.dentries.size_eq
  have hmsize := h.mounts.size_eq
  have hroot : y.rootDentry = x.rootDentry := by rw [h.rest]
  constructor
  case root_lt => exact hroot ▸ hdsize ▸ hw.root_lt
  case parent_le =>
    intro d hd
    rw [hdsize] at hd
    rw [h.parent hd]
    exact hw.parent_le hd
  case subdirs =>
    intro d hd
    rw [hdsize] at hd
    refine ⟨x.entries d, h.chain_entries hw hd, fun c hc => ?_⟩
    obtain ⟨hlt, hp, hle⟩ := (hw.chain_entries hd).2 c hc
    exact ⟨hdsize ▸ hlt, (h.parent hlt).trans hp, hle⟩
  case zero_lt => exact hmsize ▸ hw.zero_lt
  case root_mnt => rw [h.mount hw.zero_lt, hroot, hw.root_mnt]
  case listed =>
    exact ⟨x.mountList, h.chain_mountList hw, fun m hm => hmsize ▸ hw.chain_mountList.2 m hm⟩
  case mntRoot_lt =>
    intro m hm
    rw [hmsize] at hm
    rw [h.mount hm, hdsize]
    exact hw.mntRoot_lt hm
  case mntRoot_root =>
    intro m hm
    rw [hmsize] at hm
    rw [h.mount hm, h.parent (hw.mntRoot_lt hm), hw.mntRoot_root hm]
  case mntRoot_inj =>
    intro m m' hm hm' he
    rw [hmsize] at hm hm'
    rw [h.mount hm, h.mount hm'] at he
    exact hw.mntRoot_inj hm hm' he
  case mountpoint_lt =>
    intro m hm
    rw [hmsize] at hm
    rw [h.mount hm, hdsize]
    exact hw.mountpoint_lt hm
  case above =>
    intro m hm hm₀
    rw [hmsize] at hm
    obtain ⟨p, hp, hpar, ht⟩ := hw.above hm hm₀
    refine ⟨p, hmsize ▸ hp, ?_, ?_⟩
    · rw [h.mount hm, hpar]
    · rw [h.mount hm, h.mount hp]
      exact hw.inTree_congr h.parent (hw.mountpoint_lt hm) ht
  case mounted =>
    intro d hd
    rw [hdsize] at hd
    have hon : y.mountsOn d = x.mountsOn d := by
      rw [Namespace.mountsOn, h.mountList hw]
      refine List.countP_congr fun m hm => ?_
      rw [h.mount (hw.chain_mountList.2 m hm)]
    rw [h.dentry hd, hon, hroot]
    exact hw.mounted hd

theorem SameHeld.inv (h : SameHeld x y) (hi : Inv x) : Inv y where
  wf := h.wf hi.wf
  inode_lt {d i} hd hdi := by
    rw [h.dentries.size_eq] at hd
    rw [h.dentry hd] at hdi
    rw [h.inodes.size_eq]
    exact hi.inode_lt hd hdi
  home {t} ht := by
    have hplaces : y.places = x.places := by rw [h.rest]; rfl
    have hpool : y.threadPool = x.threadPool := by rw [h.rest]
    have hroot : y.rootDentry = x.rootDentry := by rw [h.rest]
    rw [hplaces, hroot]
    exact hi.home ⟨ht.1, ht.2.1, hpool ▸ ht.2.2⟩

theorem SameHeld.alike (h : SameHeld x y) (hw : x.toNamespace.Wf) : Alike x y where
  dentries := h.dentries.size_eq
  dentry hd := ⟨_, _, _, _, h.dentry hd⟩
  entries := h.entries hw
  isdir {d i} hd _ hl := by
    rw [h.dentry hd]
    refine ⟨rfl, fun _ => ?_⟩
    rw [show y.inode i = x.inode i from h.inodes.obj_eq hl.1]
    exact fun _ _ _ => rfl
  rootDentry := by rw [h.rest]
  mounts := h.mounts.size_eq
  mount hm := ⟨_, h.mount hm⟩
  mountList := h.mountList hw
  inodes := h.inodes.size_eq
  inode {i} hl := by
    rw [show y.inode i = x.inode i from h.inodes.obj_eq hl.1]
    exact .refl
  fsTypes := h.fsTypes.size_eq
  fsType := h.fsTypes.obj_eq
  files := h.files.size_eq
  file := h.files.obj_eq
  blocks := h.blocks.size_eq
  kvfsFiles := by rw [h.rest]
  kvfsInited := by rw [h.rest]
  thread := by rw [h.rest]
  threadPool := by rw [h.rest]

end SameHeld

end NSOS.Vfs
