import NSOS.Vfs.Lockstep

/-! # Calls in alike states

Calls in alike states return the same and leave alike states behind, unless they
check permissions or seek to an end that the kernel has not set.
-/

namespace NSOS.Vfs

open Basis Prog

def Pairs {α : Type} (r : α) (x : State) (r' : α) (y : State) : Prop := r' = r ∧ Alike x y

section Access

def Found.Unset (st : State) : Found → Prop
  | hit nd => st.Unset nd.dentry
  | made nd name => ∃ i ∈ (st.dentry nd.dentry).dInode, (st.inode i).iOp.unset name = true
  | _ => False

instance {st : State} : (f : Found) → Decidable (f.Unset st)
  | .hit nd => inferInstanceAs (Decidable (st.Unset nd.dentry))
  | .made nd _ => inferInstanceAs (Decidable (∃ i ∈ (st.dentry nd.dentry).dInode, _))
  | .absent | .stuck => inferInstanceAs (Decidable False)

variable {x y x' y' : State} {nd : Nameidata} {path : List Char} {t d : ℕ} {mode : UInt32}

/-- The permissions of what `path_lookup` yields are set, unless the path leads to one of the files
for which they never are. -/
theorem Sound.not_unset (h : Sound x) (ht : x.Running t)
    (hn : ¬ (resolvePath x t path false).Unset x)
    (hr : run (pathLookup t path false) x = some ((some d, nd), x')) : ¬ x'.Unset d := by
  have hl := (walkable_live t 0).run_pathLookup h path false (h.start ht)
  rw [hr] at hl
  cases hf : resolvePath x t path false with
  | hit nd' =>
    rw [hf] at hl hn
    obtain ⟨heq, -⟩ := hl
    simp only [Option.some.injEq, Prod.mk.injEq] at heq
    obtain ⟨⟨rfl, -⟩, rfl⟩ := heq
    exact hn
  | made nd' name =>
    rw [hf] at hl hn
    obtain ⟨hfresh, st', heq, a, i, F, he⟩ := hl
    simp only [Option.some.injEq, Prod.mk.injEq] at heq
    obtain ⟨⟨rfl, -⟩, rfl⟩ := heq
    have hD : LiveDirAt x nd' := hfresh.place
    obtain ⟨m, hm, hnd, htree⟩ := hD.mnt
    obtain ⟨m', ip, hm', hip, -, -, hfop⟩ := he.inodes
    obtain rfl : m = m' := Option.some.inj (hnd.symm.trans hm')
    obtain ⟨-, o, hnew⟩ := he.dentry_size hD.lt
    have hdi : a.dInode = some x.inodes.size := he.dInode.resolve_right fun hk => by cases hk.1
    rintro ⟨-, j, hj, op, hop, hname⟩
    rw [hnew] at hj hname
    obtain rfl := Option.some.inj (hdi.symm.trans hj)
    rw [he.inode_size, hfop] at hop
    refine hn ⟨ip, hip, ?_⟩
    rw [h.housed.owner hD.lt hm htree hip, Option.some.inj hop]
    have hname : op.unset a.dIname = true := hname
    rwa [he.dIname] at hname
  | absent =>
    rw [hf] at hl
    obtain ⟨nd', st', heq, -⟩ := hl
    simp at heq
  | stuck =>
    rw [hf] at hl
    cases hl

theorem Together.vfsAccess (h : Together x y) (ht : x.Running t)
    (hn : mode &&& R_OK ≠ 0 ∨ mode &&& W_OK ≠ 0 → ¬ (resolvePath x t path false).Unset x) :
    Twins x y (vfsAccess t path mode) (vfsAccess t path mode) Pairs := by
  unfold Vfs.vfsAccess
  apply Twins.semWait
  apply (h.pathLookup ht).runs.bind
  rintro ⟨o, nd⟩ x' _ y' ⟨hr, rfl, h', -, hP⟩
  cases o with
  | none => exact .semSignal (.pure ⟨rfl, h'.alike⟩)
  | some d =>
    obtain ⟨hd, hP⟩ := hP d rfl
    obtain rfl : nd.dentry = d := hd
    have hP : LiveAt x' nd := hP
    have hleave : ∀ z : ℤ, Twins x' y' (do semSignal .vfsSem; return z : Code ℤ)
        (do semSignal .vfsSem; return z : Code ℤ) Pairs := fun z =>
      .semSignal (.pure ⟨rfl, h'.alike⟩)
    apply Twins.ite Iff.rfl
    · exact fun _ => hleave 0
    intro _
    refine Twins.gets ?_ ?_
    · exact h'.alike.dInode hP.lt
    refine Twins.demand rfl fun ip hip => ?_
    obtain ⟨-, hperms⟩ := h'.alike.isdir hP.lt hip (hP.lives ip hip)
    have hsame : mode &&& R_OK ≠ 0 ∨ mode &&& W_OK ≠ 0 → (x'.inode ip).SamePerms (y'.inode ip) :=
      fun hm => hperms (h.sound.not_unset ht (hn hm) hr)
    apply Twins.bind_run (run_gets _) (run_gets _)
    refine Twins.gets ?_ ?_
    · rw [h'.alike.thread]
    apply Twins.ite
    · exact and_congr_right fun hm => by rw [hsame (.inl hm)]
    · exact fun _ => hleave (-1)
    intro _
    apply Twins.ite
    · exact and_congr_right fun hm => by rw [hsame (.inr hm)]
    · exact fun _ => hleave (-1)
    · exact fun _ => hleave 0

end Access

section Seeks

variable {x y : State} {t f : ℕ} {fd offset whence : ℤ}

theorem Alike.llseek (h : Alike x y) (hf : f < x.files.size) (hend : whence = SEEK_END →
      (y.inode (x.file f).fInode).iSize = (x.inode (x.file f).fInode).iSize) :
    Twins x y (llseek f offset whence) (llseek f offset whence) Pairs := by
  have hfile : y.file f = x.file f := h.file hf
  -- The position of the file is set, and read back.
  have hmove : ∀ {g g' : File → ℤ}, g' (x.file f) = g (x.file f) → Twins x y
      (do setFile f fun k => { k with fPos := g k }; gets fun st => (st.file f).fPos : Code ℤ)
      (do setFile f fun k => { k with fPos := g' k }; gets fun st => (st.file f).fPos : Code ℤ)
      Pairs := fun hg => by
    have hmoved := h.moved hf hg
    exact .bind_run rfl rfl (.of_run rfl rfl ⟨congrArg File.fPos (hmoved.file hf), hmoved⟩)
  unfold Vfs.llseek
  apply Twins.ite Iff.rfl
  · exact fun _ => hmove rfl
  intro _
  apply Twins.ite Iff.rfl
  · exact fun _ => hmove rfl
  intro _
  apply Twins.ite Iff.rfl
  · intro hw
    refine Twins.gets ?_ ?_
    · rw [hfile, hend hw]
    · exact hmove rfl
  · exact fun _ => .pure ⟨rfl, h⟩

theorem Alike.fileOf (h : Alike x y) (hh : Held x) (ht : x.Running t) :
    Twins x y (fileOf t fd) (fileOf t fd) fun r x' r' y' =>
      r' = r ∧ x' = x ∧ y' = y ∧ r.1 < x.files.size := by
  have hopen : Twins x y (openFile t fd) (openFile t fd) fun o x' o' y' =>
      o' = o ∧ x' = x ∧ y' = y ∧ ∀ f, o = some f → f < x.files.size := by
    unfold openFile
    apply Twins.ite Iff.rfl
    · intro _
      refine Twins.gets ?_ ?_
      · rw [h.thread]
      split
      case h_1 f hfd =>
        exact .pure ⟨rfl, rfl, rfl, fun g hg => Option.some.inj hg ▸ hh.held ht hfd⟩
      case h_2 => exact .pure ⟨rfl, rfl, rfl, fun g hg => by cases hg⟩
    · exact fun _ => .pure ⟨rfl, rfl, rfl, fun g hg => by cases hg⟩
  unfold Vfs.fileOf
  apply hopen.bind
  rintro o _ _ _ ⟨rfl, rfl, rfl, hlt⟩
  refine Twins.demand rfl fun f hf => ?_
  refine Twins.gets ?_ ?_
  · rw [h.file (hlt f hf)]
  refine Twins.demand rfl fun d hd => ?_
  exact .pure ⟨rfl, rfl, rfl, hlt f hf⟩

theorem Together.vfsLseek (h : Together x y) (hh : Held x) (ht : x.Running t)
    (hend : whence = SEEK_END → ∀ f d, OpenOn x t fd f d → d = .kvfs) :
    Twins x y (vfsLseek t fd offset whence) (vfsLseek t fd offset whence) Pairs := by
  unfold Vfs.vfsLseek
  apply Twins.semWait
  apply Twins.ite Iff.rfl
  · exact fun _ => .semSignal (.pure ⟨rfl, h.alike⟩)
  intro hstd
  apply (h.alike.fileOf hh ht).runs.bind
  rintro ⟨f, d⟩ x' _ y' ⟨hr, rfl, hx, hy, hlt⟩
  obtain rfl : x = x' := hx.symm
  obtain rfl : y = y' := hy.symm
  obtain ⟨hopen, -⟩ := openOn_of_fileOf (Bool.eq_false_iff.mpr hstd) hr
  dsimp only
  rw [driver_llseek]
  have hsize : whence = SEEK_END →
      (y.inode (x.file f).fInode).iSize = (x.inode (x.file f).fInode).iSize := fun hw => by
    obtain rfl := hend hw f d hopen
    have hfile := hh.isFile ht hopen
    exact (h.alike.inode hfile.1).size hfile.2
  apply (h.alike.llseek hlt hsize).bind
  rintro z x' _ y' ⟨rfl, h'⟩
  exact .semSignal (.pure ⟨rfl, h'⟩)

end Seeks

section Files

variable {x y x' y' : State} {t n i : ℕ} {fd : ℤ} {path : List Char} {flags : UInt32}
  {mode : UInt16} {buf : List UInt8}

theorem Alike.withOpen (h : Alike x y) (f : File) : Alike (x.withOpen f) (y.withOpen f) :=
  { h with
    files := congrArg (· + 1) h.files
    file := fun {g} hg => by
      have hg : g < x.files.size + 1 := hg
      rw [State.file, State.withOpen, h.files, State.file, State.withOpen]
      by_cases hold : g < x.files.size
      · rw [Pool.obj_set_of_ne _ _ _ _ hold.ne, Pool.obj_set_of_ne _ _ _ _ hold.ne]
        exact h.file hold
      · obtain rfl : g = x.files.size := by omega
        rw [Pool.obj_set_self, Pool.obj_set_self] }

theorem Alike.withFd (h : Alike x y) (t i : ℕ) (fd : Fd) :
    Alike (x.withFd t i fd) (y.withFd t i fd) :=
  { h with
    thread := by
      rw [State.withFd, h.thread]
      rfl }

theorem Alike.freeFd (h : Alike x y) :
    Twins x y (freeFd t n i) (freeFd t n i) fun j x' j' y' => j' = j ∧ x' = x ∧ y' = y := by
  induction n generalizing i with
  | zero => exact .pure ⟨rfl, rfl, rfl⟩
  | succ n ih =>
    unfold Vfs.freeFd
    refine Twins.gets ?_ ?_
    · rw [h.thread]
    apply Twins.ite Iff.rfl
    · exact fun _ => .pure ⟨rfl, rfl, rfl⟩
    · exact fun _ => ih

theorem Together.vfsOpen (h : Together x y) (ht : x.Running t) :
    Twins x y (vfsOpen t path flags) (vfsOpen t path flags) Pairs := by
  unfold Vfs.vfsOpen
  apply Twins.semWait
  apply (h.makePath ht).bind
  rintro ⟨o, nd⟩ x' _ y' ⟨rfl, h', -, hP⟩
  cases o with
  | none => exact .semSignal (.pure ⟨rfl, h'.alike⟩)
  | some d =>
    obtain ⟨hd, hP⟩ := hP d rfl
    obtain rfl : nd.dentry = d := hd
    have hP : LiveAt x' nd := hP
    have hnew : run allocFile y' = some (x'.files.size, { y' with files := y'.files.grow }) :=
      h'.alike.files ▸ rfl
    refine .bind_run rfl hnew ?_
    refine Twins.gets ?_ ?_
    · exact h'.alike.dInode hP.lt
    refine Twins.demand rfl fun ip hip => ?_
    refine Twins.gets ?_ ?_
    · exact (h'.alike.inode (hP.lives ip hip)).iFop
    have hopen := h'.alike.withOpen ⟨nd.dentry, ip, 0, flags, (x'.inode ip).iFop⟩
    have hset : run (setFile x'.files.size fun _ =>
        ⟨nd.dentry, ip, 0, flags, (x'.inode ip).iFop⟩) { y' with files := y'.files.grow } =
          some ((), y'.withOpen ⟨nd.dentry, ip, 0, flags, (x'.inode ip).iFop⟩) :=
      h'.alike.files ▸ rfl
    refine .bind_run rfl hset ?_
    apply hopen.freeFd.bind
    rintro j _ _ _ ⟨rfl, rfl, rfl⟩
    apply Twins.ite Iff.rfl
    · exact fun _ => .semSignal (.pure ⟨rfl, hopen⟩)
    · exact fun _ => .bind_run rfl rfl (.semSignal (.pure ⟨rfl, hopen.withFd ..⟩))

theorem Together.vfsMkdir (h : Together x y) (ht : x.Running t) :
    Twins x y (vfsMkdir t path mode) (vfsMkdir t path mode) Pairs := by
  unfold Vfs.vfsMkdir
  apply Twins.semWait
  apply (h.pathLookup ht).runs.bind
  rintro ⟨o, nd⟩ x' _ y' ⟨hr, rfl, h', -, -⟩
  cases o with
  | some d => exact .semSignal (.pure ⟨rfl, h'.alike⟩)
  | none =>
    have hpool : x'.threadPool = x.threadPool := by
      rw [((h.sound.looked_pathLookup ht mode hr).kept h.sound).rest]
    apply (h'.makePath ⟨ht.1, ht.2.1, hpool ▸ ht.2.2⟩).bind
    rintro ⟨o, nd⟩ x₂ _ y₂ ⟨rfl, h₂, -, -⟩
    cases o with
    | none => exact .semSignal (.pure ⟨rfl, h₂.alike⟩)
    | some d => exact .semSignal (.pure ⟨rfl, h₂.alike⟩)

end Files

section Mounts

variable {x y x' y' x₁ y₁ : State} {t fs d m : ℕ} {path dev : List Char} {a b : Dentry}
  {i j : Inode} {driver : Driver} {v v' : Vfsmount}

theorem Alike.rootMade (h : Alike x y) (hs : Sound x) (hy : Inv y) (hfs : fs < x.fsTypes.size)
    (hx : RootMade driver fs dev x x' a i) (hy' : RootMade driver fs dev y y' b j)
    (hname : b.dIname = a.dIname) (hperms : i.SamePerms j) : Alike x' y' := by
  have hcases : ∀ {d}, d < x.dentries.size + 1 → d < x.dentries.size ∨ d = x.dentries.size := by
    intro d hd
    omega
  have hold : ∀ {d}, d < x.dentries.size →
      x'.dentry d = x.dentry d ∧ y'.dentry d = y.dentry d := by
    intro d hd
    rw [hx.namespace_eq, hy'.namespace_eq, Namespace.dentry_born_of_lt hd,
      Namespace.dentry_born_of_lt (h.dentries ▸ hd)]
    exact ⟨rfl, rfl⟩
  have hnew : x'.dentry x.dentries.size = a ∧ y'.dentry x.dentries.size = b := by
    rw [hx.namespace_eq, hy'.namespace_eq, Namespace.dentry_born_size, ← h.dentries,
      Namespace.dentry_born_size]
    exact ⟨rfl, rfl⟩
  have hiold : ∀ {ip}, ip < x.inodes.size →
      x'.inode ip = x.inode ip ∧ y'.inode ip = y.inode ip := fun hip =>
    ⟨hx.inode_of_lt hip, hy'.inode_of_lt (h.inodes ▸ hip)⟩
  have hinew : x'.inode x.inodes.size = i ∧ y'.inode x.inodes.size = j := by
    rw [hx.inode_size, ← h.inodes, hy'.inode_size]
    exact ⟨rfl, rfl⟩
  have hlive : ∀ {ip}, x'.Live ip → x.Live ip ∨ ip = x.inodes.size := by
    rintro ip ⟨hlt, hkept⟩
    rw [hx.state_eq] at hlt hkept
    have hlt : ip < x.inodes.size + 1 := hlt
    by_cases hip : ip < x.inodes.size
    · exact .inl ⟨hip, hkept⟩
    · exact .inr (by omega)
  have hsize : x'.dentries.size = x.dentries.size + 1 := by rw [hx.namespace_eq]; rfl
  constructor
  case dentries =>
    rw [hsize, hy'.namespace_eq, Namespace.size_born, h.dentries]
  case dentry =>
    intro d hd
    rcases hcases (hsize ▸ hd) with hd | rfl
    · rw [(hold hd).1, (hold hd).2]
      exact h.dentry hd
    · rw [hnew.1, hnew.2]
      refine ⟨b.dChild, b.dSubdirs, b.dIsdir, b.dOp, ?_⟩
      rw [Dentry.mk.injEq]
      refine ⟨hname, ?_, ?_, rfl, rfl, hy'.root.mounted.trans hx.root.mounted.symm, rfl, rfl⟩
      · rw [hx.dInode, hy'.dInode, h.inodes]
      · rw [hx.root.parent, hy'.root.parent, h.dentries]
  case entries =>
    intro d hd
    rw [hx.namespace_eq, hy'.namespace_eq]
    rcases hcases (hsize ▸ hd) with hd | rfl
    · rw [Namespace.entries_born hs.inv.wf hd, Namespace.entries_born hy.wf (h.dentries ▸ hd),
        h.entries hd]
    · have hnil : (y.toNamespace.born b).entries y.dentries.size = [] :=
        Namespace.entries_born_size hy'.root.subdirs
      rw [h.dentries] at hnil
      rw [hnil, Namespace.entries_born_size hx.root.subdirs]
  case isdir =>
    intro d ip hd hi hl
    rcases hcases (hsize ▸ hd) with hd | rfl
    · rw [(hold hd).1] at hi
      have hip := hs.inv.inode_lt hd hi
      obtain ⟨hdir, hsame⟩ := h.isdir hd hi ((hlive hl).resolve_right hip.ne)
      rw [(hold hd).1, (hold hd).2, (hiold hip).1, (hiold hip).2]
      refine ⟨hdir, fun hn => hsame ?_⟩
      rintro ⟨hfile, i, hdi, op, hop, hset⟩
      obtain rfl := Option.some.inj (hi.symm.trans hdi)
      rw [State.Unset, (hold hd).1] at hn
      refine hn ⟨hfile, ip, hdi, op, ?_, hset⟩
      rw [(hiold hip).1]
      exact hop
    · rw [hnew.1, hx.dInode] at hi
      obtain rfl := Option.some.inj hi
      rw [hnew.1, hnew.2, hinew.1, hinew.2]
      exact ⟨hy'.root.isdir.trans hx.root.isdir.symm, fun _ => hperms⟩
  case rootDentry =>
    rw [hx.namespace_eq, hy'.namespace_eq]
    exact h.rootDentry
  case mounts =>
    rw [hx.namespace_eq, hy'.namespace_eq]
    exact h.mounts
  case mount =>
    rw [hx.namespace_eq, hy'.namespace_eq]
    exact h.mount
  case mountList =>
    rw [hx.namespace_eq, hy'.namespace_eq]
    exact h.mountList
  case inode =>
    intro ip hl
    rcases hlive hl with hold | rfl
    · rw [(hiold hold.1).1, (hiold hold.1).2]
      exact h.inode hold
    · rw [hinew.1, hinew.2]
      refine ⟨hy'.iOp.trans hx.iOp.symm, hy'.iFop.trans hx.iFop.symm, ?_, ?_⟩
      · exact fun hne => absurd hx.iFop hne
      · intro hkvfs
        rw [hx.iFop] at hkvfs
        cases hkvfs
  all_goals rw [hx.state_eq, hy'.state_eq]
  case inodes => exact congrArg (· + 1) h.inodes
  case fsTypes => exact h.fsTypes
  case fsType =>
    intro f hf
    have hf : f < x.fsTypes.size := hf
    rw [State.fsType, State.fsType, Pool.obj_set, Pool.obj_set]
    split
    · exact congrArg (fun k : FsType => { k with dev := dev }) (h.fsType hfs)
    · exact h.fsType hf
  case files => exact h.files
  case file => exact h.file
  case blocks => exact h.blocks
  case kvfsFiles => simp only [State.filesOnMount, h.kvfsFiles, h.kvfsInited]
  case kvfsInited => simp only [h.kvfsInited]
  case thread => exact h.thread
  case threadPool => exact h.threadPool

theorem Alike.addMount (h : Alike x y) (hx : x.toNamespace.Wf) (hy : y.toNamespace.Wf)
    (hv : v.mntNext = x.mntHead) (hv' : v' = { v with mntNext := y.mntHead }) :
    Alike { x with toNamespace := x.toNamespace.addMount v }
      { y with toNamespace := y.toNamespace.addMount v' } := by
  have hnext : v'.mntNext = y.mntHead := by rw [hv']
  have hdentry : ∀ (ns : Namespace) (w : Vfsmount) (d : ℕ), (ns.addMount w).dentry d =
      { ns.dentry d with dMounted := (ns.dentry d).dMounted +
          if d = w.mntMountpoint then 1 else 0 } := by
    intro ns w d
    rw [Namespace.dentry_addMount]
    split
    · rfl
    · rw [Int.add_zero]
  exact { h with
    dentry := fun {d} hd => by
      obtain ⟨c, s, b, o, hc⟩ := h.dentry hd
      rw [hdentry, hdentry, hc, hv']
      exact ⟨c, s, b, o, rfl⟩
    entries := fun {d} hd => by
      rw [Namespace.entries_addMount, Namespace.entries_addMount]
      exact h.entries hd
    isdir := fun {d i} hd hi hl => by
      rw [hdentry] at hi
      rw [State.Unset, hdentry, hdentry]
      exact h.isdir hd hi hl
    mounts := congrArg (· + 1) h.mounts
    mount := fun {m} hm => by
      have hm : m < x.mounts.size + 1 := hm
      rw [Namespace.mount_addMount, Namespace.mount_addMount, h.mounts]
      split
      · exact ⟨y.mntHead, hv'⟩
      · exact h.mount (by omega)
    mountList := by
      rw [Namespace.mountList_addMount hx hv, Namespace.mountList_addMount hy hnext, h.mounts,
        h.mountList] }

theorem Alike.dropMount (h : Alike x y) (hx : x.toNamespace.Wf) (hy : y.toNamespace.Wf)
    (hm : m ∈ x.mountList) : Alike { x with toNamespace := x.toNamespace.dropMount m }
      { y with toNamespace := y.toNamespace.dropMount m } := by
  obtain ⟨next, hnext⟩ := h.mount (hx.chain_mountList.2 m hm)
  have hdentry : ∀ (ns : Namespace) (d : ℕ), (ns.dropMount m).dentry d =
      { ns.dentry d with dMounted := (ns.dentry d).dMounted -
          if d = (ns.mount m).mntMountpoint then 1 else 0 } := by
    intro ns d
    rw [Namespace.dentry_dropMount]
    split
    · rfl
    · rw [Int.sub_zero]
  exact { h with
    dentries := by
      rw [Namespace.size_dropMount, Namespace.size_dropMount]
      exact h.dentries
    dentry := fun {d} hd => by
      rw [Namespace.size_dropMount] at hd
      obtain ⟨c, s, b, o, hc⟩ := h.dentry hd
      rw [hdentry, hdentry, hc, hnext]
      exact ⟨c, s, b, o, rfl⟩
    entries := fun {d} hd => by
      rw [Namespace.size_dropMount] at hd
      rw [Namespace.entries_dropMount, Namespace.entries_dropMount]
      exact h.entries hd
    isdir := fun {d i} hd hi hl => by
      rw [Namespace.size_dropMount] at hd
      rw [hdentry] at hi
      rw [State.Unset, hdentry, hdentry]
      exact h.isdir hd hi hl
    rootDentry := by
      rw [Namespace.rootDentry_dropMount, Namespace.rootDentry_dropMount]
      exact h.rootDentry
    mounts := by
      rw [Namespace.mounts_size_dropMount, Namespace.mounts_size_dropMount]
      exact h.mounts
    mount := fun {q} hq => by
      rw [Namespace.mounts_size_dropMount] at hq
      obtain ⟨n, hn⟩ := h.mount hq
      obtain ⟨n₁, h₁⟩ := Namespace.mount_dropMount x.toNamespace m q
      obtain ⟨n₂, h₂⟩ := Namespace.mount_dropMount y.toNamespace m q
      rw [h₁, h₂, hn]
      exact ⟨n₂, rfl⟩
    mountList := by
      rw [Namespace.mountList_dropMount hx hm,
        Namespace.mountList_dropMount hy (h.mountList ▸ hm), h.mountList] }

theorem Together.mount (h : Together x y) (hfs : fs < x.fsTypes.size) :
    Twins x y (driver.mount fs dev) (driver.mount fs dev) fun o x' o' y' =>
      o' = o ∧ Alike x' y' ∧ x'.toNamespace.Wf ∧ y'.toNamespace.Wf := by
  have hx := run_mount_root driver x fs dev
  have hy := run_mount_root driver y fs dev
  by_cases hdev : driver.hasDevice dev = true
  · rw [if_pos hdev] at hx hy
    obtain ⟨x', a, i, hrun, hroot, hname, huid, hgid, hacl⟩ := hx
    obtain ⟨y', b, j, hrun', hroot', hname', huid', hgid', hacl'⟩ := hy
    have hperms : i.SamePerms j := Inode.samePerms (huid'.trans huid.symm) (hgid'.trans hgid.symm)
      (hacl'.trans hacl.symm)
    have hwf : ∀ {st st' : State} {e k}, st.toNamespace.Wf → RootMade driver fs dev st st' e k →
        st'.toNamespace.Wf := fun hw hmade => by
      rw [hmade.namespace_eq]
      exact hw.born hmade.root.parent.le hmade.root.subdirs hmade.root.mounted
    refine .of_run hrun hrun' ⟨congrArg some h.alike.dentries, ?_, hwf h.sound.inv.wf hroot,
      hwf h.inv.wf hroot'⟩
    exact h.alike.rootMade h.sound h.inv hfs hroot hroot' (hname'.trans hname.symm) hperms
  · rw [if_neg hdev] at hx hy
    exact .of_run hx hy ⟨rfl, h.alike, h.sound.inv.wf, h.inv.wf⟩

theorem Together.vfsMount (h : Together x y) (ht : x.Running t) (hfs : fs < x.fsTypes.size) :
    Twins x y (vfsMount t path fs) (vfsMount t path fs) Pairs := by
  unfold Vfs.vfsMount unprivileged
  apply Twins.semWait
  refine Twins.gets ?_ ?_
  · rw [h.alike.thread]
  apply Twins.ite Iff.rfl
  · exact fun _ => .semSignal (.pure ⟨rfl, h.alike⟩)
  intro _
  apply (h.pathLookup ht).runs.bind
  rintro ⟨o, nd⟩ x' _ y' ⟨hr, rfl, h', -, hP⟩
  have hleave : ∀ z : ℤ, Twins x' y' (do semSignal .vfsSem; return z : Code ℤ)
      (do semSignal .vfsSem; return z : Code ℤ) Pairs := fun z =>
    .semSignal (.pure ⟨rfl, h'.alike⟩)
  cases o with
  | none => exact hleave (-1)
  | some d =>
    obtain ⟨hd, hP⟩ := hP d rfl
    obtain rfl : nd.dentry = d := hd
    have hP : LiveAt x' nd := hP
    have htypes : x'.fsTypes = x.fsTypes := by
      rw [((h.sound.looked_pathLookup ht 0 hr).kept h.sound).rest]
    have hfs' : fs < x'.fsTypes.size := htypes ▸ hfs
    refine Twins.gets ?_ ?_
    · exact h'.isdir hP
    apply Twins.ite Iff.rfl
    · exact fun _ => hleave (-1)
    intro _
    refine Twins.gets ?_ ?_
    · exact h'.alike.fsType hfs'
    cases hmount : (x'.fsType fs).mount with
    | none => exact hleave (-1)
    | some driver =>
      refine Twins.gets ?_ ?_
      · rw [h'.alike.fsType hfs']
      apply (h'.mount hfs').bind
      rintro - x₁ o y₁ ⟨rfl, h₁, hx, hy⟩
      cases o with
      | none => exact .semSignal (.pure ⟨rfl, h₁⟩)
      | some root =>
        refine .bind_run run_addMount run_addMount (.semSignal (.pure ⟨rfl, ?_⟩))
        exact h₁.addMount hx hy rfl rfl

theorem Together.vfsUnmount (h : Together x y) (ht : x.Running t) :
    Twins x y (vfsUnmount t path) (vfsUnmount t path) Pairs := by
  unfold Vfs.vfsUnmount unprivileged
  apply Twins.semWait
  refine Twins.gets ?_ ?_
  · rw [h.alike.thread]
  apply Twins.ite Iff.rfl
  · exact fun _ => .semSignal (.pure ⟨rfl, h.alike⟩)
  intro _
  apply (h.pathLookup ht).bind
  rintro ⟨o, nd⟩ x' _ y' ⟨rfl, h', -, -⟩
  have hal := h'.alike
  cases o with
  | none => exact .semSignal (.pure ⟨rfl, hal⟩)
  | some d =>
    have hfind : y'.mountList.find? (fun m => (y'.mount m).mntRoot = d) =
        x'.mountList.find? fun m => (x'.mount m).mntRoot = d := by
      rw [hal.mountList]
      refine List.find?_congr fun m hm => ?_
      obtain ⟨n, hn⟩ := hal.mount (h'.sound.inv.wf.chain_mountList.2 m hm)
      rw [hn]
    refine .bind_run (run_findMount h'.sound.inv.wf) (run_findMount h'.inv.wf) ?_
    rw [hfind]
    cases hm : x'.mountList.find? fun m => (x'.mount m).mntRoot = d with
    | none => exact .semSignal (.pure ⟨rfl, hal⟩)
    | some m =>
      have hmem : m ∈ x'.mountList := List.mem_of_find?_eq_some hm
      have hdropped := hal.dropMount h'.sound.inv.wf h'.inv.wf hmem
      refine .bind_run (run_gets _) (run_gets _) (.bind_run run_uncount run_uncount ?_)
      refine .bind_run (run_dropMount h'.sound.inv hmem rfl)
        (run_dropMount h'.inv (hal.mountList ▸ hmem) rfl) ?_
      refine .bind_run rfl rfl (.bind_run rfl rfl (.semSignal (.pure ⟨rfl, ?_⟩)))
      exact hdropped.blocks_freed hdropped.blocks (by simp)

end Mounts

end NSOS.Vfs
