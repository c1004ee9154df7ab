import NSOS.Vfs.Calls
import NSOS.Vfs.Relink
import Mathlib.Data.List.Find

/-! # New entries

What is changed when a component of a path is not in memory. `do_lookup` asks
the driver for it, and `make_path` makes a file or a directory of it. Both take
one new dentry and one new inode, and either link them or give them back.
-/

namespace NSOS.Vfs

open Basis Prog

/-- What becomes of a new dentry. -/
inductive Kind where
  /-- The driver has no entry with its name, or refuses to make one. -/
  | lost
  /-- The driver has an entry with its name. -/
  | cached
  | directory
  /-- A regular file, with its slot in the table. -/
  | file (i : ℕ)
  deriving DecidableEq

def Kind.table (K : ℤ → KvfsFileNode) : Kind → ℤ → KvfsFileNode
  | file i => Function.update K i ⟨true, .null, .null⟩
  | _ => K

def Namespace.enter (ns : Namespace) (e : ℕ) (k : Kind) (y : Dentry) : Namespace :=
  if k = .lost then ns.born y else (ns.born y).link e ns.dentries.size

namespace Namespace

section Enter

variable {ns ns' ns'' : Namespace} {e d c : ℕ} {k : Kind} {y : Dentry} {name : List Char}

/-- A dentry without entries and mounts, below a directory. -/
structure Leaf (e : ℕ) (y : Dentry) : Prop where
  parent : y.dParent = e
  subdirs : y.dSubdirs = none
  mounted : y.dMounted = 0

theorem grown_enter (he : e < ns.dentries.size) : Grown ns (ns.enter e k y) := by
  unfold enter
  split
  · exact grown_born
  · exact grown_born.trans (grown_link he.ne)

theorem Wf.enter (h : ns.Wf) (he : e < ns.dentries.size) (hy : Leaf e y) :
    (ns.enter e k y).Wf := by
  unfold Namespace.enter
  split
  · exact h.born (hy.parent.trans_le he.le) hy.subdirs hy.mounted
  · exact h.born_link he hy.parent hy.subdirs hy.mounted

@[simp] theorem size_enter : (ns.enter e k y).dentries.size = ns.dentries.size + 1 := by
  unfold enter
  split <;> rfl

theorem dentry_enter_size (he : e < ns.dentries.size) :
    ∃ o, (ns.enter e k y).dentry ns.dentries.size = { y with dChild := o } := by
  unfold enter
  split
  · exact ⟨_, dentry_born_size⟩
  · rw [dentry_link he.ne, if_neg he.ne', if_pos rfl, dentry_born_size]
    exact ⟨_, rfl⟩

theorem entries_enter (h : ns.Wf) (he : e < ns.dentries.size) (hy : Leaf e y)
    (hd : d < ns.dentries.size) : (ns.enter e k y).entries d =
      if k ≠ .lost ∧ d = e then ns.dentries.size :: ns.entries d else ns.entries d := by
  unfold enter
  by_cases hk : k = .lost
  · rw [if_pos hk, entries_born h hd, if_neg fun hc => hc.1 hk]
  · rw [if_neg hk, entries_born_link h he hy.parent hy.subdirs hy.mounted hd]
    simp only [ne_eq, hk, not_false_eq_true, true_and]

theorem entries_enter_size (h : ns.Wf) (he : e < ns.dentries.size) (hy : Leaf e y) :
    (ns.enter e k y).entries ns.dentries.size = [] := by
  unfold enter
  split
  · exact entries_born_size hy.subdirs
  · exact entries_born_link_size h he hy.parent hy.subdirs hy.mounted

/-- The trees have grown, and a name that was there leads to the same dentry. -/
structure Extends (ns ns' : Namespace) : Prop extends Grown ns ns' where
  childNamed : ∀ {d name c}, d < ns.dentries.size → ns.childNamed d name = some c →
    ns'.childNamed d name = some c

theorem Extends.refl : Extends ns ns := ⟨.refl, fun _ hc => hc⟩

theorem Extends.trans (h : Extends ns ns') (h' : Extends ns' ns'') : Extends ns ns'' where
  toGrown := h.toGrown.trans h'.toGrown
  childNamed hd hc := h'.childNamed (hd.trans_le h.size_le) (h.childNamed hd hc)

theorem Grown.dIname (h : Grown ns ns') (hd : d < ns.dentries.size) :
    (ns'.dentry d).dIname = (ns.dentry d).dIname := by
  obtain ⟨c, s, hc⟩ := h.old hd
  rw [hc]

theorem childNamed_enter (h : ns.Wf) (he : e < ns.dentries.size) (hy : Leaf e y)
    (hd : d < ns.dentries.size) : (ns.enter e k y).childNamed d name =
      if k ≠ .lost ∧ d = e ∧ y.dIname = name then some ns.dentries.size
      else ns.childNamed d name := by
  have hold : (ns.entries d).find? (fun c => ((ns.enter e k y).dentry c).dIname = name) =
      ns.childNamed d name := by
    refine List.find?_congr fun c hc => ?_
    rw [(grown_enter he).dIname ((h.chain_entries hd).2 c hc).1]
  have hnew : ((ns.enter e k y).dentry ns.dentries.size).dIname = y.dIname := by
    obtain ⟨o, ho⟩ : ∃ o, (ns.enter e k y).dentry ns.dentries.size = { y with dChild := o } :=
      dentry_enter_size he
    rw [ho]
  rw [childNamed, entries_enter h he hy hd]
  by_cases hk : k ≠ .lost ∧ d = e
  · rw [if_pos hk, List.find?_cons, hold, hnew]
    by_cases hn : y.dIname = name
    · simp [hk, hn]
    · simp [hn]
  · rw [if_neg hk, hold, if_neg fun hc => hk ⟨hc.1, hc.2.1⟩]

theorem extends_enter (h : ns.Wf) (he : e < ns.dentries.size) (hy : Leaf e y)
    (hnone : ns.childNamed e y.dIname = none) : Extends ns (ns.enter e k y) := by
  refine ⟨grown_enter he, fun {d name c} hd hc => ?_⟩
  rw [childNamed_enter h he hy hd, if_neg, hc]
  rintro ⟨-, rfl, rfl⟩
  rw [hnone] at hc
  cases hc

end Enter

end Namespace

section Drivers

variable (st : State)

/-- The inode number and the permissions of the entry that a driver has for a name. -/
def driverEntry (d : Driver) (dir : ℕ) (name : List Char) : Option (ℤ × Option UInt16) :=
  match d with
  | .kvfs => none
  | .procfs => if st.parent dir = dir then procEntry st.threadPool name else none
  | .devfs => if st.parent dir = dir then devEntry name else none

def State.withEntry (ip dp : ℕ) (ino : ℤ) (acl : Option UInt16) : State := { st with
  inodes := st.inodes.set ip fun i => { i with iIno := ino, iAcl := acl.getD i.iAcl }
  dentries := st.dentries.set dp fun x => { x with dInode := some ip, dIsdir := false } }

def State.withDirectory (ip dp : ℕ) : State := { st with
  inodes := st.inodes.set ip fun i =>
    { i with iIno := -1, iSize := 0, iOp := .kvfs, iFop := none }
  dentries := st.dentries.set dp fun x => { x with dInode := some ip, dIsdir := true } }

def State.withInode (d : Driver) : State := { st with
  inodes := st.inodes.grow.set st.inodes.size fun i => { i with iOp := d, iFop := some d } }

def newborn (nd : Nameidata) (name : List Char) (i : Option ℕ) (op : Driver) : Dentry :=
  { st.dentry st.dentries.size with
    dIname := name
    dInode := i
    dParent := nd.dentry
    dChild := (st.dentry nd.dentry).dChild
    dSubdirs := none
    dMounted := 0
    dOp := op }

/-- A new dentry that is in no list of entries, and a new inode. -/
def State.withNew (x : Dentry) (j : Inode) : State := { st with
  toNamespace := st.toNamespace.born x
  inodes := st.inodes.grow.set st.inodes.size fun _ => j }

variable {st} {nd : Nameidata} {name : List Char} {c ip dp m : ℕ} {i : Option ℕ} {d : Driver}
  {x : Dentry} {j : Inode}

theorem run_newDentry : run (newDentry nd name i d) st = some (st.dentries.size,
    { st with toNamespace := st.toNamespace.born (newborn st nd name i d) }) := by
  simp only [newDentry, allocDentry, setDentry, run_bind, run_gets, run_modify, run_pure,
    Option.bind_some]
  rfl

theorem run_fsOf (hm : nd.mnt = some m) :
    run (fsOf nd) st = some (st.fsType (st.mount m).mntFs, st) := by
  rw [fsOf, hm]
  rfl

theorem set_born (ns : Namespace) (x : Dentry) (f : Dentry → Dentry) :
    { ns.born x with dentries := (ns.born x).dentries.set ns.dentries.size f } =
      ns.born (f x) := by
  simp only [Namespace.born, Pool.set_set]

theorem withEntry_withNew {ino : ℤ} {acl : Option UInt16} :
    (st.withNew x j).withEntry st.inodes.size st.dentries.size ino acl =
      st.withNew { x with dInode := some st.inodes.size, dIsdir := false }
        { j with iIno := ino, iAcl := acl.getD j.iAcl } := by
  simp only [State.withNew, State.withEntry, ← set_born st.toNamespace x fun x =>
    { x with dInode := some st.inodes.size, dIsdir := false }, Pool.set_set]

theorem withDirectory_withNew : (st.withNew x j).withDirectory st.inodes.size st.dentries.size =
    st.withNew { x with dInode := some st.inodes.size, dIsdir := true }
      { j with iIno := -1, iSize := 0, iOp := .kvfs, iFop := none } := by
  simp only [State.withNew, State.withDirectory, ← set_born st.toNamespace x fun x =>
    { x with dInode := some st.inodes.size, dIsdir := true }, Pool.set_set]

theorem withFile_withNew {i : ℕ} : (st.withNew x j).withFile st.inodes.size st.dentries.size i =
    { st.withNew { x with dInode := some st.inodes.size, dIsdir := false }
        { j with iIno := i, iSize := 0, iOp := .kvfs, iFop := some .kvfs } with
      kvfsFiles := Function.update st.kvfsFiles i ⟨true, .null, .null⟩ } := by
  simp only [State.withNew, State.withFile, ← set_born st.toNamespace x fun x =>
    { x with dInode := some st.inodes.size, dIsdir := false }, Pool.set_set]

theorem run_driver_allocInode (st : State) (d : Driver) :
    run d.allocInode st = some (st.inodes.size, st.withInode d) := by
  cases d <;> rfl

theorem run_driver_lookup (st : State) (d : Driver) (ip dp : ℕ) : run (d.lookup ip dp) st =
    match driverEntry st d (st.parent dp) (st.dentry dp).dIname with
    | none => some (false, st)
    | some (ino, acl) => some (true, st.withEntry ip dp ino acl) := by
  have hentry : ∀ o : Option (ℤ × Option UInt16), run (match o with
      | none => return false
      | some (ino, acl) => do
        linkEntry ip dp ino acl
        return true : Code Bool) st =
      match o with
      | none => some (false, st)
      | some (ino, acl) => some (true, st.withEntry ip dp ino acl) := by
    rintro (_ | ⟨ino, acl⟩)
    · rfl
    · rfl
  have hatRoot : run (atRoot dp) st =
      some (decide (st.parent (st.parent dp) = st.parent dp), st) := rfl
  cases d with
  | kvfs => rfl
  | procfs =>
    rw [Driver.lookup, procLookup, run_bind, hatRoot, Option.bind_some, driverEntry]
    by_cases hroot : st.parent (st.parent dp) = st.parent dp
    · rw [decide_eq_true hroot, if_pos rfl, if_pos hroot]
      exact hentry _
    · rw [decide_eq_false hroot, if_neg Bool.false_ne_true, if_neg hroot]
      rfl
  | devfs =>
    rw [Driver.lookup, devfsLookup, run_bind, hatRoot, Option.bind_some, driverEntry]
    by_cases hroot : st.parent (st.parent dp) = st.parent dp
    · rw [decide_eq_true hroot, if_pos rfl, if_pos hroot]
      exact hentry _
    · rw [decide_eq_false hroot, if_neg Bool.false_ne_true, if_neg hroot]
      rfl

/-- What a driver makes for `make_path`: only `kvfs` makes files, in its free slots, and
directories. -/
def State.makes (st : State) : Driver → Bool → Kind
  | .kvfs, true => st.freeSlot?.elim .lost .file
  | .kvfs, false => .directory
  | _, _ => .lost

theorem run_driver_make (st : State) (d : Driver) (ip dp : ℕ) (file : Bool) :
    run (if file then d.create ip dp else d.mkdir ip dp) st =
      match st.makes d file with
      | .directory => some (false, st.withDirectory ip dp)
      | .file i => some (false, st.withFile ip dp i)
      | _ => some (true, st) := by
  cases file with
  | false => cases d <;> rfl
  | true =>
    cases d with
    | kvfs =>
      have hrun := run_kvfsCreate st ip dp
      rw [if_pos rfl, Driver.create, hrun, State.makes]
      cases st.freeSlot? with
      | none => rfl
      | some i => rfl
    | procfs => rfl
    | devfs => rfl

end Drivers

section Entered

def Kind.Inodes (t : ℕ) (mode : UInt16) (st : State) (nd : Nameidata) (name : List Char)
    (j : Inode) : Kind → Prop
  | lost => True
  | cached => ∃ m ip, nd.mnt = some m ∧ (st.dentry nd.dentry).dInode = some ip ∧
      (driverEntry st (st.inode ip).iOp nd.dentry name).isSome = true ∧
        j.iOp = (st.fsType (st.mount m).mntFs).sop ∧
          j.iFop = some (st.fsType (st.mount m).mntFs).sop
  | directory => j.iUid = (st.thread t).uid ∧ j.iGid = (st.thread t).gid ∧ j.iAcl = mode ∧
      j.iOp = .kvfs ∧ j.iFop = none
  | file i => i < KVFS_MAX_FILE ∧ (st.kvfsFiles i).inuse = false ∧
      j = ⟨(st.thread t).uid, (st.thread t).gid, mode, i, 0, .kvfs, some .kvfs⟩

/-- One new dentry with a name has been made below a directory, and one new inode. A lost dentry
and its inode have been freed, and anything else is as before. -/
structure Entered (t : ℕ) (mode : UInt16) (st st' : State) (nd : Nameidata) (name : List Char)
    (k : Kind) (y : Dentry) (j : Inode) (F : List Obj) : Prop where
  state_eq : st' = { st with
    toNamespace := st.toNamespace.enter nd.dentry k y
    inodes := st.inodes.grow.set st.inodes.size fun _ => j
    kvfsFiles := k.table st.kvfsFiles
    freed := F ++ st.freed }
  dParent : y.dParent = nd.dentry
  dIname : y.dIname = name
  dSubdirs : y.dSubdirs = none
  dMounted : y.dMounted = 0
  dInode : y.dInode = some st.inodes.size ∨ k = .lost ∧ y.dInode = none
  dIsdir : k ≠ .lost → y.dIsdir = decide (k = .directory)
  inodes : k.Inodes t mode st nd name j
  owner : y.dInode ≠ none → ∃ m, nd.mnt = some m ∧
    (j.iOp = (st.fsType (st.mount m).mntFs).sop ∨ j.iOp = (st.fsType (st.mount m).mntFs).iop)
  linked : k ≠ .lost → F = []
  lost : k = .lost → .inode st.inodes.size ∈ F
  nodup : F.Nodup
  freed : ∀ o ∈ F, o = .inode st.inodes.size ∨ o = .iname st.dentries.size ∨
    o = .dentry st.dentries.size

/-- A new dentry has been made, of some kind. -/
def Enters (t : ℕ) (mode : UInt16) (st : State) (nd : Nameidata) (name : List Char) (k : Kind)
    (st' : State) : Prop :=
  ∃ y j F, Entered t mode st st' nd name k y j F

variable {st st' : State} {nd : Nameidata} {name : List Char} {t m ip : ℕ} {mode : UInt16}

theorem Entered.leaf {k : Kind} {y : Dentry} {j : Inode} {F : List Obj}
    (he : Entered t mode st st' nd name k y j F) : Namespace.Leaf nd.dentry y :=
  ⟨he.dParent, he.dSubdirs, he.dMounted⟩

theorem Entered.namespace_eq {k : Kind} {y : Dentry} {j : Inode} {F : List Obj}
    (he : Entered t mode st st' nd name k y j F) :
    st'.toNamespace = st.toNamespace.enter nd.dentry k y := by
  rw [he.state_eq]

def newInode (st : State) (d : Driver) : Inode :=
  { st.inode st.inodes.size with iOp := d, iFop := some d }

/-- What `do_lookup` hands to the driver of a directory: a new dentry with a name, and a new inode
of the file system. -/
def State.asking (st : State) (nd : Nameidata) (name : List Char) (fs : FsType) : State :=
  st.withNew (newborn st nd name none fs.dop) (newInode st fs.sop)

theorem run_slowLookup (hm : nd.mnt = some m) (hi : (st.dentry nd.dentry).dInode = some ip) :
    run (slowLookup nd name) st =
      (run ((st.inode ip).iOp.lookup st.inodes.size st.dentries.size)
        (st.asking nd name (st.fsType (st.mount m).mntFs))).bind fun r =>
        run (if r.1 then (do
          let nd ← linkDentry nd st.dentries.size
          return (false, nd)) else do
          (st.fsType (st.mount m).mntFs).sop.destroyInode st.inodes.size
          free (.iname st.dentries.size)
          free (.dentry st.dentries.size)
          return (true, nd)) r.2 := by
  simp only [slowLookup, run_bind, run_gets, Option.bind_some, hi, run_demand, Option.map_some,
    run_fsOf hm, run_newDentry, run_driver_allocInode]
  rfl

theorem run_lookup_asking (hlt : nd.dentry < st.dentries.size) (fs : FsType) (d : Driver) :
    run (d.lookup st.inodes.size st.dentries.size) (st.asking nd name fs) =
      match driverEntry st d nd.dentry name with
      | none => some (false, st.asking nd name fs)
      | some (ino, acl) =>
        some (true, (st.asking nd name fs).withEntry st.inodes.size st.dentries.size ino acl) := by
  have hx : (st.asking nd name fs).dentry st.dentries.size = newborn st nd name none fs.dop :=
    Namespace.dentry_born_size
  have hup : (st.asking nd name fs).parent st.dentries.size = nd.dentry := by
    rw [Namespace.parent, hx]
    rfl
  have hpar : (st.asking nd name fs).parent nd.dentry = st.parent nd.dentry :=
    Namespace.grown_born.parent hlt
  have hentry : driverEntry (st.asking nd name fs) d nd.dentry name =
      driverEntry st d nd.dentry name := by
    simp only [driverEntry, hpar]
    rfl
  have hname : (newborn st nd name none fs.dop).dIname = name := rfl
  rw [run_driver_lookup, hup, hx, hname, hentry]

theorem run_slowLookup_lost (t : ℕ) (mode : UInt16) (hlt : nd.dentry < st.dentries.size)
    (hm : nd.mnt = some m) (hi : (st.dentry nd.dentry).dInode = some ip)
    (hnone : driverEntry st (st.inode ip).iOp nd.dentry name = none) : ∃ st' y j F,
      run (slowLookup nd name) st = some ((true, nd), st') ∧
        Entered t mode st st' nd name .lost y j F ∧ y.dInode = none := by
  rw [run_slowLookup hm hi, run_lookup_asking hlt, hnone]
  refine ⟨_, newborn st nd name none (st.fsType (st.mount m).mntFs).dop,
    newInode st (st.fsType (st.mount m).mntFs).sop,
    [.dentry st.dentries.size, .iname st.dentries.size, .inode st.inodes.size], rfl, ?_, rfl⟩
  constructor
  case state_eq => rfl
  case inodes => trivial
  all_goals simp [newborn]

theorem run_slowLookup_cached (t : ℕ) (mode : UInt16) (hlt : nd.dentry < st.dentries.size)
    (hm : nd.mnt = some m) (hi : (st.dentry nd.dentry).dInode = some ip) {ino : ℤ}
    {acl : Option UInt16}
    (hsome : driverEntry st (st.inode ip).iOp nd.dentry name = some (ino, acl)) : ∃ st' y j,
      run (slowLookup nd name) st = some ((false, ⟨st.dentries.size, nd.mnt⟩), st') ∧
        Entered t mode st st' nd name .cached y j [] ∧ j.iIno = ino ∧ ∀ a ∈ acl, j.iAcl = a := by
  rw [run_slowLookup hm hi, run_lookup_asking hlt, hsome]
  dsimp only [State.asking]
  rw [withEntry_withNew]
  set fs := st.fsType (st.mount m).mntFs
  refine ⟨_, { newborn st nd name none fs.dop with dInode := some st.inodes.size, dIsdir := false },
    { newInode st fs.sop with iIno := ino, iAcl := acl.getD (newInode st fs.sop).iAcl },
    rfl, ?_, rfl, fun a ha => ?_⟩
  · constructor
    case state_eq => rfl
    case inodes => exact ⟨m, ip, hm, hi, by rw [hsome]; rfl, rfl, rfl⟩
    case owner => exact fun _ => ⟨m, hm, .inl rfl⟩
    all_goals simp [newborn]
  · rw [Option.mem_def.mp ha]
    rfl

/-- The driver is asked for a name. -/
theorem run_slowLookup_enters (t : ℕ) (mode : UInt16) (name : List Char)
    (hlt : nd.dentry < st.dentries.size) (hm : nd.mnt = some m)
    (hi : (st.dentry nd.dentry).dInode = some ip) :
    ∃ st', if (driverEntry st (st.inode ip).iOp nd.dentry name).isSome then
        run (slowLookup nd name) st = some ((false, ⟨st.dentries.size, nd.mnt⟩), st') ∧
          Enters t mode st nd name .cached st'
      else run (slowLookup nd name) st = some ((true, nd), st') ∧
        Enters t mode st nd name .lost st' := by
  cases hfound : driverEntry st (st.inode ip).iOp nd.dentry name with
  | none =>
    obtain ⟨st', y, j, F, hr, he, -⟩ := run_slowLookup_lost t mode hlt hm hi hfound
    exact ⟨st', hr, y, j, F, he⟩
  | some entry =>
    obtain ⟨st', y, j, hr, he, -⟩ := run_slowLookup_cached t mode hlt hm hi hfound
    exact ⟨st', hr, y, j, [], he⟩

/-- The kinds of entries that `make_path` makes where it wants a file or a directory. -/
def Kind.MadeAs (file : Bool) : Kind → Prop
  | directory => file = false
  | .file _ => file = true
  | _ => False

theorem makes_cases (st : State) (d : Driver) (file : Bool) : st.makes d file = .lost ∨
    d = .kvfs ∧ (file = false ∧ st.makes d file = .directory ∨
      file = true ∧ ∃ i, st.freeSlot? = some i ∧ st.makes d file = .file i) := by
  cases d with
  | kvfs =>
    cases file with
    | false => exact .inr ⟨rfl, .inl ⟨rfl, rfl⟩⟩
    | true =>
      unfold State.makes
      cases hfree : st.freeSlot? with
      | none => exact .inl rfl
      | some i => exact .inr ⟨rfl, .inr ⟨rfl, i, rfl, rfl⟩⟩
  | procfs => exact .inl rfl
  | devfs => exact .inl rfl

/-- The driver makes what it can make, and what was made for it is given back otherwise. -/
theorem run_makeEntry_makes (st : State) (t : ℕ) (name : List Char) (file : Bool)
    (mode : UInt16) (hm : nd.mnt = some m) : ∃ k st' y j F,
      k = st.makes (st.fsType (st.mount m).mntFs).iop file ∧
        Entered t mode st st' nd name k y j F ∧ y.dInode = some st.inodes.size ∧
          run (makeEntry t nd name file mode) st =
            some (if k = .lost then none else some ⟨st.dentries.size, nd.mnt⟩, st') := by
  let fs := st.fsType (st.mount m).mntFs
  let j := { newInode st fs.sop with
    iUid := (st.thread t).uid
    iGid := (st.thread t).gid
    iAcl := mode
    iOp := fs.iop }
  let x := newborn st nd name (some st.inodes.size) fs.dop
  let st₁ : State := st.withNew x j
  have hset : (st.withInode fs.sop).inodes.set st.inodes.size (fun i =>
      { i with iUid := (st.thread t).uid, iGid := (st.thread t).gid, iAcl := mode, iOp := fs.iop }) =
        st₁.inodes := by
    simp only [State.withInode, Pool.set_set]
    rfl
  have hiop : (st₁.inode st.inodes.size).iOp = fs.iop := by
    simp [st₁, State.withNew, State.inode, j]
  have hrun : run (makeEntry t nd name file mode) st =
      (run (if file then fs.iop.create st.inodes.size st.dentries.size
        else fs.iop.mkdir st.inodes.size st.dentries.size) st₁).bind fun r =>
        run (if r.1 then (do
          fs.sop.destroyInode st.inodes.size
          free (.dentry st.dentries.size)
          return none) else do
          let nd ← linkDentry nd st.dentries.size
          return some nd) r.2 := by
    simp only [makeEntry, run_bind, run_fsOf hm, Option.bind_some, run_driver_allocInode, run_gets,
      setInode, run_modify, run_newDentry]
    rw [show (st.withInode fs.sop).thread = st.thread from rfl, hset]
    change (run (if file then (st₁.inode st.inodes.size).iOp.create st.inodes.size st.dentries.size
      else (st₁.inode st.inodes.size).iOp.mkdir st.inodes.size st.dentries.size) st₁).bind _ = _
    rw [hiop]
    rfl
  have hmakes : st₁.makes fs.iop file = st.makes fs.iop file := rfl
  rw [run_driver_make, hmakes] at hrun
  rcases makes_cases st fs.iop file with hlost | ⟨hkvfs, ⟨-, hdir⟩ | ⟨-, i, hi, hfile⟩⟩
  · rw [hlost] at hrun
    refine ⟨.lost, _, x, j, [.dentry st.dentries.size, .inode st.inodes.size], hlost.symm, ?_, rfl,
      hrun⟩
    constructor
    case state_eq => rfl
    case inodes => trivial
    case owner => exact fun _ => ⟨m, hm, .inr rfl⟩
    all_goals simp [x, newborn]
  · rw [hdir] at hrun
    dsimp only at hrun
    rw [withDirectory_withNew] at hrun
    refine ⟨.directory, _, { x with dInode := some st.inodes.size, dIsdir := true },
      { j with iIno := -1, iSize := 0, iOp := .kvfs, iFop := none }, [], hdir.symm, ?_, rfl, hrun⟩
    constructor
    case state_eq => rfl
    case inodes => exact ⟨rfl, rfl, rfl, rfl, rfl⟩
    case owner => exact fun _ => ⟨m, hm, .inr hkvfs.symm⟩
    all_goals simp [x, newborn]
  · rw [hfile] at hrun
    dsimp only at hrun
    rw [withFile_withNew] at hrun
    refine ⟨.file i, _, { x with dInode := some st.inodes.size, dIsdir := false },
      { j with iIno := i, iSize := 0, iOp := .kvfs, iFop := some .kvfs }, [], hfile.symm, ?_, rfl,
      hrun⟩
    constructor
    case state_eq => rfl
    case inodes => exact ⟨(freeSlot?_spec hi).1, (freeSlot?_spec hi).2, rfl⟩
    case owner => exact fun _ => ⟨m, hm, .inr hkvfs.symm⟩
    all_goals simp [x, newborn]

theorem run_makeEntry_enters (st : State) (t : ℕ) (name : List Char) (file : Bool)
    (mode : UInt16) (hm : nd.mnt = some m) : ∃ k st',
      (k = .lost ∧ run (makeEntry t nd name file mode) st = some (none, st') ∨
        k.MadeAs file ∧ run (makeEntry t nd name file mode) st =
          some (some ⟨st.dentries.size, nd.mnt⟩, st')) ∧ Enters t mode st nd name k st' := by
  obtain ⟨k, st', y, j, F, hk, he, -, hrun⟩ := run_makeEntry_makes st t name file mode hm
  refine ⟨k, st', ?_, y, j, F, he⟩
  rcases makes_cases st (st.fsType (st.mount m).mntFs).iop file with
    hlost | ⟨-, ⟨hfile, hdir⟩ | ⟨hfile, i, -, hi⟩⟩
  · rw [hk, hlost, if_pos rfl] at hrun
    exact .inl ⟨hk.trans hlost, hrun⟩
  · obtain rfl := hk.trans hdir
    exact .inr ⟨hfile, hrun⟩
  · obtain rfl := hk.trans hi
    exact .inr ⟨hfile, hrun⟩

end Entered

end NSOS.Vfs
