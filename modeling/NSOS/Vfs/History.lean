import NSOS.Basis.Runs
import NSOS.Vfs.Mounting

/-! # Histories of the file system

The states that the file system reaches from the start of the kernel by calls
of its threads, by threads that come and go, and by new file systems. The
invariant holds in all of them.
-/

namespace NSOS.Vfs

open Basis Prog

section Start

/-- The static objects `kvfs_obj`, `procfs_obj` and `devfs_obj`. -/
def kvfsObj : FsType := ⟨"ramdisk0".toList, some .kvfs, .kvfs, .kvfs, .kvfs⟩

def procfsObj : FsType := ⟨"proc".toList, some .procfs, .procfs, .procfs, .procfs⟩

def devfsObj : FsType := ⟨"udev".toList, some .devfs, .devfs, .devfs, .devfs⟩

/-- The memory before `vfs_init`: nothing has been allocated, and there are no threads. -/
structure Boot (st : State) : Prop where
  dentries : st.dentries.size = 0
  inodes : st.inodes.size = 0
  /-- The root mount is a static object. -/
  mounts : st.mounts.size = 1
  fsTypes : st.fsTypes.size = 3 ∧ st.fsType 0 = kvfsObj ∧ st.fsType 1 = procfsObj ∧
    st.fsType 2 = devfsObj
  files : st.files.size = 0
  /-- Block zero is the null pointer. -/
  blocks : st.blocks.size = 1
  kvfsInited : st.kvfsInited = false
  threadPool : ∀ t, ¬ st.Running t
  freed : st.freed = []

def newDescriptors (i : ℕ) : Fd :=
  if i = STDIN_FILENO.toNat ∨ i = STDOUT_FILENO.toNat ∨ i = STDERR_FILENO.toNat then .std else .null

/-- The part of `os_run` that makes the first thread. -/
def osRun (st : State) : State := { st with
  thread := Function.update st.thread 1 { st.thread 1 with
    root := st.rootDentry
    pwd := st.rootDentry
    rootmnt := 0
    pwdmnt := 0
    fileDescriptors := newDescriptors }
  threadPool := Function.update st.threadPool 1 true }

/-- The file system when the first thread starts. -/
def Started (st : State) : Prop := ∃ st₀ st₁, Boot st₀ ∧ run vfsInit st₀ = some ((), st₁) ∧
  st = osRun st₁

end Start

section Steps

/-- The first empty slot of the thread pool from `i` on. -/
def emptySlot (st : State) : ℕ → ℕ → ℕ
  | 0, i => i
  | n + 1, i => if st.threadPool i then emptySlot st n (i + 1) else i

/-- `kmt_create`, called by thread `t`. -/
def kmtCreate (st : State) (t : ℕ) : State :=
  let i := emptySlot st KERNEL_MAX_THREAD.toNat 1
  if KERNEL_MAX_THREAD < i then st
  else { st with
    thread := Function.update st.thread i { st.thread t with
      uid := 0
      gid := 0
      fileDescriptors := newDescriptors }
    threadPool := Function.update st.threadPool i true }

inductive Op where
  | call (t : ℕ) (c : Call)
  | close (t : ℕ) (fd : ℤ)
  | create (t : ℕ)
  /-- `kmt_teardown` of another thread. -/
  | teardown (t u : ℕ)
  /-- A client allocates a file system and fills it in. -/
  | newFs (f : FsType)
  /-- What the kernel prints into `proc`, and the seed of `rand`, change. -/
  | world (text : ℤ → List UInt8) (rand : ℕ → UInt8)

variable (st : State)

def runBy {α : Type} (t : ℕ) (p : Code α) : Option State :=
  if st.Running t then (run p st).map Prod.snd else none

def exec : Op → Option State
  | .call t c => runBy st t (c.body t)
  | .close t fd => runBy st t (vfsClose t fd)
  | .create t => if st.Running t then some (kmtCreate st t) else none
  | .teardown t u =>
    if st.Running t ∧ st.Running u ∧ t ≠ u then
      some { st with threadPool := Function.update st.threadPool u false }
    else none
  | .newFs f => some { st with fsTypes := st.fsTypes.grow.set st.fsTypes.size fun _ => f }
  | .world text rand => some { st with procText := text, randByte := rand }

abbrev Happens : State → Op → State → Prop := fun st op st' => exec st op = some st'

/-- The states that are reached by steps that all meet a condition. -/
def Reach (P : State → Op → Prop) : Prop := ∃ st₀, Started st₀ ∧ Run Happens P st₀ st

abbrev Reachable : Prop := Reach st fun _ _ => True

end Steps

section Inv

variable {st st' st₀ : State} {t u : ℕ} {c : Call} {op : Op} {ret : Reply}

theorem started_namespace (hb : Boot st₀) (hr : run vfsInit st₀ = some ((), st)) :
    ∃ x j st₁, RootMade .kvfs 0 "ramdisk0".toList st₀ st₁ x j ∧ IsRoot 0 x ∧
      st = { st₁ with toNamespace := { st₀.toNamespace with
        dentries := (st₀.toNamespace.born x).dentries
        rootDentry := 0
        mounts := st₀.mounts.set 0 fun _ => ⟨0, 0, none, none, 0⟩
        mntHead := some 0 } } := by
  rw [vfsInit] at hr
  obtain ⟨o, st₁, hmount, hinit⟩ := run_bind_some hr
  rcases run_mount .kvfs hmount with ⟨rfl, rfl⟩ | ⟨rfl, x, j, hroot⟩
  · rw [run_bind, run_demand] at hinit
    cases hinit
  · rw [hb.dentries] at hinit
    obtain ⟨-, rfl⟩ := Prod.mk.inj (Option.some.inj hinit)
    refine ⟨x, j, st₁, hroot, hb.dentries ▸ hroot.root, ?_⟩
    have hns : st₁.toNamespace = st₀.toNamespace.born x := hroot.namespace_eq
    change { st₁ with toNamespace := { st₁.toNamespace with
      rootDentry := 0
      mounts := st₁.mounts.set 0 fun _ => ⟨0, 0, none, none, 0⟩
      mntHead := some 0 } } = _
    rw [hns]
    rfl

theorem wf_started {ns : Namespace} {x : Dentry} (hx : IsRoot 0 x) (hd : ns.dentries.size = 0)
    (hm : ns.mounts.size = 1) : Namespace.Wf { ns with
      dentries := (ns.born x).dentries
      rootDentry := 0
      mounts := ns.mounts.set 0 fun _ => ⟨0, 0, none, none, 0⟩
      mntHead := some 0 } := by
  set ns' : Namespace := { ns with
    dentries := (ns.born x).dentries
    rootDentry := 0
    mounts := ns.mounts.set 0 fun _ => ⟨0, 0, none, none, 0⟩
    mntHead := some 0 } with hns'
  have hdent : ns'.dentry 0 = x := by
    have hborn : (ns.born x).dentry ns.dentries.size = x := Namespace.dentry_born_size
    rwa [hd] at hborn
  have hmount : ns'.mount 0 = ⟨0, 0, none, none, 0⟩ := by simp [hns', Namespace.mount]
  have hdsize : ns'.dentries.size = 1 := by simp [hns', hd]
  have hmsize : ns'.mounts.size = 1 := by simp [hns', hm]
  have hself : ns'.parent 0 = 0 := by rw [Namespace.parent, hdent, hx.parent]
  have hlist : Chain (fun m => (ns'.mount m).mntNext) ns'.mntHead [0] :=
    ⟨rfl, congrArg Vfsmount.mntNext hmount⟩
  have hmountList : ns'.mountList = [0] :=
    hlist.links_eq (by rw [hmsize]; exact Nat.lt_succ_self _)
  constructor
  case root_lt => exact hdsize.symm ▸ Nat.zero_lt_one
  case parent_le =>
    intro d hlt
    obtain rfl : d = 0 := by omega
    exact hself.le
  case subdirs =>
    intro d hlt
    obtain rfl : d = 0 := by omega
    refine ⟨[], ?_, by simp⟩
    rw [chain_nil, hdent, hx.subdirs]
  case zero_lt => exact hmsize.symm ▸ Nat.zero_lt_one
  case root_mnt => rw [hmount]
  case listed => exact ⟨[0], hlist, by simp [hmsize]⟩
  case mntRoot_lt =>
    intro m hlt
    obtain rfl : m = 0 := by omega
    rw [hmount, hdsize]
    exact Nat.zero_lt_one
  case mntRoot_root =>
    intro m hlt
    obtain rfl : m = 0 := by omega
    rw [hmount, hself]
  case mntRoot_inj =>
    intro m m' hlt hlt' _
    omega
  case mountpoint_lt =>
    intro m hlt
    obtain rfl : m = 0 := by omega
    rw [hmount, hdsize]
    exact Nat.zero_lt_one
  case above =>
    intro m hlt hm₀
    omega
  case mounted =>
    intro d hlt
    obtain rfl : d = 0 := by omega
    rw [hdent, hx.mounted, Namespace.mountsOn, hmountList, if_pos rfl]
    simp [hmount]

theorem inv_started (h : Started st) : Inv st := by
  obtain ⟨st₀, st₁, hb, hr, rfl⟩ := h
  obtain ⟨x, j, st₂, hmade, hx, hst⟩ := started_namespace hb hr
  have hns := congrArg State.toNamespace hst
  have hrest : Rest st₀ st₁ := hst ▸ hmade.rest.namespace _
  refine ⟨?_, ?_, ?_⟩
  · change st₁.toNamespace.Wf
    rw [hns]
    exact wf_started hx hb.dentries hb.mounts
  · intro d i hd hdi
    have hd : d < st₁.dentries.size := hd
    rw [hns, Namespace.size_born, hb.dentries] at hd
    obtain rfl : d = 0 := by omega
    have hdi : (st₁.dentry 0).dInode = some i := hdi
    rw [hns] at hdi
    have hi : i < st₂.inodes.size := by
      refine hmade.inode_lt (Eq.trans ?_ hdi)
      have hborn : (st₀.toNamespace.born x).dentry st₀.dentries.size = x :=
        Namespace.dentry_born_size
      rw [hb.dentries] at hborn
      exact congrArg Dentry.dInode hborn.symm
    rw [hst]
    exact hi
  · intro t ht
    have hroot : st₁.rootDentry = 0 := by rw [hns]
    have ht₁ : t = 1 := by
      by_contra hne
      refine hb.threadPool t ((hrest.running t).mp ⟨ht.1, ht.2.1, ?_⟩)
      have hpool : Function.update st₁.threadPool 1 true t = true := ht.2.2
      rwa [Function.update_of_ne (by omega)] at hpool
    subst ht₁
    simp [State.places, osRun]

theorem run_plain {p : Code ℤ} (hr : run (plain p) st = some (ret, st')) :
    ∃ z, run p st = some (z, st') := by
  obtain ⟨z, st₁, hp, hret⟩ := run_bind_some hr
  obtain ⟨-, rfl⟩ := Prod.mk.inj (Option.some.inj hret)
  exact ⟨z, hp⟩

theorem start_congr (h : st'.thread = st.thread) (path : List Char) :
    start st' t path = start st t path := by simp only [start, h]

/-- Calls other than `vfs_mount` and `vfs_unmount` make entries on the walk along a path, and then
leave the namespace alone. -/
theorem Walkable.walks_body {I : State → Prop} {P D : State → Nameidata → Prop}
    (hw : ∀ mode, Walkable t mode I P D) (hI : I st) (hD : ∀ path, D st (start st t path))
    (hmount : ∀ path fs, c ≠ .mount path fs) (hunmount : ∀ path, c ≠ .unmount path)
    (hr : run (c.body t) st = some (ret, st')) : ∃ mode ps b o st₁,
      Walked t mode I D ps b o st st₁ ∧ Still st₁ st' := by
  have hlookup : ∀ mode {path r st₁}, run (pathLookup t path false) st = some (r, st₁) →
      Walked t mode I D (partsOf path) false none st st₁ := fun mode {path _ _} hlook => by
    have hl := (hw mode).run_pathLookup hI path false (hD path)
    rw [hlook] at hl
    exact (hw mode).walked_leads hI hl
  cases c with
  | mount path fs => exact absurd rfl (hmount path fs)
  | unmount path => exact absurd rfl (hunmount path)
  | read fd nbyte => exact ⟨0, [], false, none, st, .refl hI, calm_vfsRead.still hr⟩
  | write fd buf =>
    have hcalm : Calm (plain (vfsWrite t fd buf)) := calm_bind
    exact ⟨0, [], false, none, st, .refl hI, hcalm.still hr⟩
  | lseek fd offset whence =>
    have hcalm : Calm (plain (vfsLseek t fd offset whence)) := calm_bind
    exact ⟨0, [], false, none, st, .refl hI, hcalm.still hr⟩
  | access path mode =>
    obtain ⟨z, hr⟩ := run_plain hr
    rw [vfsAccess, run_bind, run_semWait, Option.bind_some] at hr
    obtain ⟨⟨o, nd⟩, st₁, hlook, hr⟩ := run_bind_some hr
    refine ⟨0, _, _, _, st₁, hlookup 0 hlook, (?_ : Calm _).still hr⟩
    cases o <;> infer_instance
  | «open» path flags =>
    obtain ⟨z, hr⟩ := run_plain hr
    rw [vfsOpen, run_bind, run_semWait, Option.bind_some] at hr
    obtain ⟨⟨o, nd⟩, st₁, hmake, hr⟩ := run_bind_some hr
    obtain ⟨hwalk, -⟩ := (hw _).walked_makePath hI (hD path) hmake
    refine ⟨_, _, _, _, st₁, hwalk, (?_ : Calm _).still hr⟩
    cases o <;> infer_instance
  | mkdir path mode =>
    obtain ⟨z, hr⟩ := run_plain hr
    rw [vfsMkdir, run_bind, run_semWait, Option.bind_some] at hr
    obtain ⟨⟨o, nd⟩, st₁, hlook, hr⟩ := run_bind_some hr
    have hwalk := hlookup mode hlook
    cases o with
    | some d => exact ⟨_, _, _, _, st₁, hwalk, calm_bind.still hr⟩
    | none =>
      obtain ⟨⟨o, nd⟩, st₂, hmake, hr⟩ := run_bind_some hr
      have hstart : D st₁ (start st₁ t path) := by
        rw [start_congr hwalk.thread]
        exact hwalk.keeps (hD path)
      obtain ⟨hwalk', -⟩ := (hw _).walked_makePath hwalk.inv hstart hmake
      refine ⟨_, _, _, _, st₂, hwalk.trans hwalk', (?_ : Calm _).still hr⟩
      cases o <;> infer_instance

theorem evolves_body (h : Inv st) (ht : st.Running t)
    (hmount : ∀ path fs, c ≠ .mount path fs) (hunmount : ∀ path, c ≠ .unmount path)
    (hr : run (c.body t) st = some (ret, st')) : Evolves st st' := by
  obtain ⟨mode, ps, b, o, st₁, hwalk, hstill⟩ := Walkable.walks_body (walkable_seen t) h
    (fun path => seen_start h ht) hmount hunmount hr
  have hev := hwalk.evolves h
  exact hev.trans (hev.inv.still hstill)

/-- What a step does to the namespace and to the list of what has been given back. -/
inductive Reshapes (st : State) : Op → State → Prop
  | grown {op : Op} {st' : State} : Evolves st st' → Reshapes st op st'
  | mounted {t fs d m : ℕ} {path : List Char} {x : Dentry} {st' : State} :
    Mounts st st' t path fs d m x → Reshapes st (.call t (.mount path fs)) st'
  | unmounted {t m : ℕ} {path : List Char} {nd : Nameidata} {st' : State} :
    Unmounts st st' t path nd m → Reshapes st (.call t (.unmount path)) st'
  /-- Threads, or what the drivers read. -/
  | kept {op : Op} {st' : State} : st'.toNamespace = st.toNamespace → st'.freed = st.freed →
    Reshapes st op st'

/-- A call lets the namespace grow, or it mounts or unmounts. -/
theorem body_cases (h : Inv st) (ht : st.Running t) (hr : run (c.body t) st = some (ret, st')) :
    Evolves st st' ∨ (∃ path fs d m x, c = .mount path fs ∧ Mounts st st' t path fs d m x) ∨
      ∃ path nd m, c = .unmount path ∧ Unmounts st st' t path nd m := by
  by_cases hmount : ∃ path fs, c = .mount path fs
  · obtain ⟨path, fs, rfl⟩ := hmount
    obtain ⟨z, hr⟩ := run_plain hr
    rcases run_vfsMount h ht hr with ⟨-, hl⟩ | ⟨-, d, m, x, hm, -⟩
    · exact .inl (hl.evolves h ht)
    · exact .inr (.inl ⟨path, fs, d, m, x, rfl, hm⟩)
  by_cases hunmount : ∃ path, c = .unmount path
  · obtain ⟨path, rfl⟩ := hunmount
    obtain ⟨z, hr⟩ := run_plain hr
    rcases run_vfsUnmount h ht hr with ⟨-, hl⟩ | ⟨-, nd, m, hu⟩
    · exact .inl (hl.evolves h ht)
    · exact .inr (.inr ⟨path, nd, m, rfl, hu⟩)
  exact .inl (evolves_body h ht (fun path fs he => hmount ⟨path, fs, he⟩)
    (fun path he => hunmount ⟨path, he⟩) hr)

theorem inv_body (h : Inv st) (ht : st.Running t) (hr : run (c.body t) st = some (ret, st')) :
    Inv st' := by
  rcases body_cases h ht hr with hev | ⟨path, fs, d, m, x, -, hm⟩ | ⟨path, nd, m, -, hu⟩
  · exact hev.inv
  · exact hm.inv h
  · exact hu.inv h

theorem inv_kmtCreate (h : Inv st) (ht : st.Running t) : Inv (kmtCreate st t) := by
  unfold kmtCreate
  dsimp only
  split
  · exact h
  refine ⟨h.wf, h.inode_lt, fun {u} hu => ?_⟩
  set i := emptySlot st KERNEL_MAX_THREAD.toNat 1
  have hhome := h.home ht
  by_cases hui : u = i
  · subst hui
    rw [← hhome]
    simp [State.places]
  · have hrun : st.Running u := by
      refine ⟨hu.1, hu.2.1, ?_⟩
      have hpool : Function.update st.threadPool i true u = true := hu.2.2
      rwa [Function.update_of_ne (by omega)] at hpool
    rw [← h.home hrun]
    simp [State.places, Function.update_of_ne hui]

theorem run_of_runBy {α : Type} {p : Code α} (hs : runBy st t p = some st') :
    st.Running t ∧ ∃ a, run p st = some (a, st') := by
  unfold runBy at hs
  split at hs
  · obtain ⟨⟨a, st₁⟩, hr, rfl⟩ := Option.map_eq_some_iff.mp hs
    exact ⟨‹_›, a, hr⟩
  · cases hs

theorem exec_call {z : ℤ} {p : Code ℤ} (ht : st.Running t) (hc : c.body t = plain p)
    (hr : run p st = some (z, st')) : exec st (.call t c) = some st' := by
  rw [exec, runBy, if_pos ht, hc, plain, run_bind, hr]
  rfl

theorem reshapes_of_exec (h : Inv st) (hs : exec st op = some st') : Reshapes st op st' := by
  cases op with
  | call t c =>
    obtain ⟨ht, ret, hr⟩ := run_of_runBy hs
    rcases body_cases h ht hr with hev | ⟨path, fs, d, m, x, rfl, hm⟩ | ⟨path, nd, m, rfl, hu⟩
    · exact .grown hev
    · exact .mounted hm
    · exact .unmounted hu
  | close t fd =>
    obtain ⟨-, z, hr⟩ := run_of_runBy hs
    exact .grown (h.still (calm_vfsClose.still hr))
  | create t =>
    rw [exec] at hs
    split at hs
    · obtain rfl := Option.some.inj hs
      unfold kmtCreate
      dsimp only
      split
      · exact .kept rfl rfl
      · exact .kept rfl rfl
    · cases hs
  | teardown t u =>
    rw [exec] at hs
    split at hs
    · obtain rfl := Option.some.inj hs
      exact .kept rfl rfl
    · cases hs
  | newFs f =>
    obtain rfl := Option.some.inj hs
    exact .kept rfl rfl
  | world text rand =>
    obtain rfl := Option.some.inj hs
    exact .kept rfl rfl

theorem inv_exec (h : Inv st) (hs : exec st op = some st') : Inv st' := by
  cases op with
  | call t c =>
    obtain ⟨ht, ret, hr⟩ := run_of_runBy hs
    exact inv_body h ht hr
  | close t fd =>
    obtain ⟨-, z, hr⟩ := run_of_runBy hs
    exact (h.still (calm_vfsClose.still hr)).inv
  | create t =>
    rw [exec] at hs
    split at hs
    · obtain rfl := Option.some.inj hs
      exact inv_kmtCreate h ‹_›
    · cases hs
  | teardown t u =>
    rw [exec] at hs
    split at hs
    · obtain rfl := Option.some.inj hs
      refine ⟨h.wf, h.inode_lt, fun {v} hv => h.home (t := v) ⟨hv.1, hv.2.1, ?_⟩⟩
      have hpool : Function.update st.threadPool u false v = true := hv.2.2
      rw [Function.update_apply] at hpool
      split at hpool
      · cases hpool
      · exact hpool
    · cases hs
  | newFs f =>
    obtain rfl := Option.some.inj hs
    exact ⟨h.wf, h.inode_lt, h.home⟩
  | world text rand =>
    obtain rfl := Option.some.inj hs
    exact ⟨h.wf, h.inode_lt, h.home⟩

/-- The invariant holds in every state of every history. -/
theorem Reach.inv {P : State → Op → Prop} (hr : Reach st P) : Inv st := by
  obtain ⟨st₀, h₀, hr⟩ := hr
  exact hr.invariant (inv_started h₀) fun h _ hs => inv_exec h hs

end Inv

section Callers

variable {st : State} {t u : ℕ} {uid gid : UInt32}

/-- A thread becomes a caller with other ids. -/
def State.actAs (st : State) (t : ℕ) (uid gid : UInt32) : State :=
  { st with thread := Function.update st.thread t { st.thread t with uid := uid, gid := gid } }

@[simp] theorem running_actAs : (st.actAs t uid gid).Running u ↔ st.Running u := Iff.rfl

theorem thread_actAs : (st.actAs t uid gid).thread t =
    { st.thread t with uid := uid, gid := gid } := Function.update_self ..

theorem places_actAs : (st.actAs t uid gid).places u = st.places u := by
  unfold State.places State.actAs
  by_cases hu : u = t
  · subst hu
    simp
  · simp [hu]

theorem Inv.actAs (h : Inv st) : Inv (st.actAs t uid gid) where
  wf := h.wf
  inode_lt := h.inode_lt
  home hu := by
    rw [places_actAs]
    exact h.home hu

end Callers

section Initial

def bootMemory : State := { (default : State) with
  mounts := ⟨fun _ => default, 1⟩
  fsTypes := ⟨fun f => if f = 0 then kvfsObj else if f = 1 then procfsObj else devfsObj, 3⟩
  blocks := ⟨fun _ _ => 0, 1⟩ }

theorem boot_bootMemory : Boot bootMemory :=
  ⟨rfl, rfl, rfl, ⟨rfl, rfl, rfl, rfl⟩, rfl, rfl, rfl, fun _ ht => Bool.false_ne_true ht.2.2, rfl⟩

theorem isSome_vfsInit : (run vfsInit bootMemory).isSome = true := by decide +kernel

/-- The file system when the first thread starts in such memory. -/
def initial : State := osRun ((run vfsInit bootMemory).get isSome_vfsInit).2

theorem started_initial : Started initial :=
  ⟨bootMemory, _, boot_bootMemory, (Option.some_get isSome_vfsInit).symm, rfl⟩

theorem reachable_of_replay {ops : List Op} {st : State} (hr : replay exec initial ops = some st) :
    Reachable st :=
  ⟨initial, started_initial, Run.of_replay (fun hs => ⟨trivial, hs⟩) hr⟩

theorem Reachable.replayed {ops : List Op} {st st' : State} (h : Reachable st)
    (hr : replay exec st ops = some st') : Reachable st' := by
  obtain ⟨st₀, h₀, hrun⟩ := h
  exact ⟨st₀, h₀, hrun.trans (.of_replay (fun hs => ⟨trivial, hs⟩) hr)⟩

theorem isSome_withRamdisk : (replay exec initial [.call 1 (.mkdir "/a".toList 0x755),
    .newFs { kvfsObj with dev := "ramdisk1".toList }]).isSome = true := by decide +kernel

/-- A directory, and a file system that is not mounted yet. -/
def withRamdisk : State := Option.get _ isSome_withRamdisk

theorem reachable_withRamdisk : Reachable withRamdisk :=
  reachable_of_replay (Option.some_get isSome_withRamdisk).symm

theorem running_withRamdisk : withRamdisk.Running 1 := by decide +kernel

end Initial

end NSOS.Vfs
