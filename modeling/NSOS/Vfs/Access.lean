import NSOS.Vfs.Returning

/-! # The answer of `vfs_access`

The mode of a file has a bit for each permission and each class of callers.
`vfs_access` asks for the bits to read and to write. It does not ask for the bit
to execute, so its answer is wrong exactly when only that one is missing.
-/

namespace NSOS.Vfs

open Basis Prog

section Permissions

def X_OK : UInt32 := 1

def ACL_OWNER_X : UInt16 := 0x0100
def ACL_GROUP_X : UInt16 := 0x0010
def ACL_OTHER_X : UInt16 := 0x0001

inductive Perm where
  | read
  | write
  | execute

inductive Class where
  | owner
  | group
  | other

def Perm.mask : Perm → UInt32
  | read => R_OK
  | write => W_OK
  | execute => X_OK

/-- The bit of `i_acl` that grants a permission to a class. -/
def aclBit : Class → Perm → UInt16
  | .owner, .read => ACL_OWNER_R
  | .owner, .write => ACL_OWNER_W
  | .owner, .execute => ACL_OWNER_X
  | .group, .read => ACL_GROUP_R
  | .group, .write => ACL_GROUP_W
  | .group, .execute => ACL_GROUP_X
  | .other, .read => ACL_OTHER_R
  | .other, .write => ACL_OTHER_W
  | .other, .execute => ACL_OTHER_X

def classOf (uid gid : UInt32) (ip : Inode) : Class :=
  if uid = ip.iUid then .owner else if gid = ip.iGid then .group else .other

def HasPerm (uid gid : UInt32) (ip : Inode) (p : Perm) : Prop :=
  ip.iAcl &&& aclBit (classOf uid gid ip) p ≠ 0

def Allows (uid gid : UInt32) (ip : Inode) (mode : UInt32) : Prop :=
  ∀ p : Perm, mode &&& p.mask ≠ 0 → HasPerm uid gid ip p

/-- The caller has the permissions that `vfs_access` asks `check_acl` for. -/
def Passes (uid gid : UInt32) (ip : Inode) (mode : UInt32) : Prop :=
  (mode &&& R_OK ≠ 0 → HasPerm uid gid ip .read) ∧
    (mode &&& W_OK ≠ 0 → HasPerm uid gid ip .write)

variable {uid gid mode mode' m : UInt32} {ip : Inode} {p : Perm}

instance : Decidable (HasPerm uid gid ip p) := inferInstanceAs (Decidable (_ ≠ _))

instance : Decidable (Passes uid gid ip mode) := inferInstanceAs (Decidable (_ ∧ _))

theorem denied_eq_false : denied uid gid ip (aclBit .owner p) (aclBit .group p)
    (aclBit .other p) = false ↔ HasPerm uid gid ip p := by
  unfold denied HasPerm classOf
  split
  · exact decide_eq_false_iff_not
  split
  · exact decide_eq_false_iff_not
  · exact decide_eq_false_iff_not

theorem checkAcl_read : checkAcl uid gid ip R_OK = false ↔ HasPerm uid gid ip .read := by
  have hr : R_OK ≠ 0 := by decide
  have hw : R_OK &&& W_OK = 0 := by decide
  rw [← denied_eq_false, checkAcl]
  simp [hr, hw, aclBit]

theorem checkAcl_write : checkAcl uid gid ip W_OK = false ↔ HasPerm uid gid ip .write := by
  have hr : W_OK &&& R_OK = 0 := by decide
  have hw : W_OK ≠ 0 := by decide
  rw [← denied_eq_false, checkAcl]
  simp [hr, hw, aclBit]

theorem allows_iff : Allows uid gid ip mode ↔
    Passes uid gid ip mode ∧ (mode &&& X_OK ≠ 0 → HasPerm uid gid ip .execute) := by
  constructor
  · exact fun h => ⟨⟨h .read, h .write⟩, h .execute⟩
  · rintro ⟨⟨hr, hw⟩, hx⟩ p
    cases p with
    | read => exact hr
    | write => exact hw
    | execute => exact hx

theorem and_ne_zero_of_part (h : mode' &&& mode = mode') (hm : mode' &&& m ≠ 0) :
    mode &&& m ≠ 0 := by
  intro hz
  apply hm
  rw [← h, UInt32.and_assoc, hz, UInt32.and_zero]

theorem Passes.part (h : mode' &&& mode = mode') (hp : Passes uid gid ip mode) :
    Passes uid gid ip mode' :=
  ⟨fun hm => hp.1 (and_ne_zero_of_part h hm), fun hm => hp.2 (and_ne_zero_of_part h hm)⟩

end Permissions

section Callers

/-- A step of the kernel, or a thread that becomes another caller. -/
inductive Event where
  | op (op : Op)
  | actAs (t : ℕ) (uid gid : UInt32)

def Event.exec (st : State) : Event → Option State
  | op o => Vfs.exec st o
  | actAs t uid gid => some (st.actAs t uid gid)

/-- The states of the kernel when threads may become any callers at any time. -/
def Peopled (st : State) : Prop := ∃ st₀, Started st₀ ∧
  Run (fun st (e : Event) st' => e.exec st = some st') (fun _ _ => True) st₀ st

variable {st st' : State} {t u : ℕ} {uid gid : UInt32}

theorem Peopled.actAs (h : Peopled st) (t : ℕ) (uid gid : UInt32) :
    Peopled (st.actAs t uid gid) := by
  obtain ⟨st₀, h₀, hr⟩ := h
  exact ⟨st₀, h₀, hr.tail (i := .actAs t uid gid) trivial rfl⟩

theorem Reach.peopled {P : State → Op → Prop} (h : Reach st P) : Peopled st := by
  obtain ⟨st₀, h₀, hr⟩ := h
  refine ⟨st₀, h₀, ?_⟩
  induction hr with
  | refl => exact .refl
  | tail _ _ hs ih => exact ih.tail (i := .op _) trivial hs

theorem Peopled.orderly (h : Peopled st) : Inv st ∧ Orderly st := by
  obtain ⟨st₀, h₀, hr⟩ := h
  have hboth : Inv st ∧ st.Tidy := by
    refine hr.invariant (I := fun st => Inv st ∧ st.Tidy) ⟨inv_started h₀, tidy_started h₀⟩
      fun {st e st'} h _ hs => ?_
    cases e with
    | op o => exact ⟨inv_exec h.1 hs, tidy_exec h.1 h.2 hs⟩
    | actAs t uid gid =>
      obtain rfl := Option.some.inj hs
      exact ⟨h.1.actAs, h.2⟩
  exact ⟨hboth.1, hboth.1.wf, hboth.2⟩

end Callers

section Answers

variable {st st' st₁ : State} {t d ip : ℕ} {uid gid mode mode' : UInt32} {nd : Nameidata}
  {path : List Char} {dir : Bool}

theorem Walkable.run_pathLookup_some {I : State → Prop} {P D : State → Nameidata → Prop}
    {acl : UInt16} (hw : Walkable t acl I P D) (hI : I st) (hD : D st (start st t path))
    (hr : run (pathLookup t path dir) st = some ((some d, nd), st')) :
    P st' nd ∧ nd.dentry = d ∧ st'.thread = st.thread := by
  have hleads := hw.run_pathLookup hI path dir hD
  rw [hr] at hleads
  have hthread := (hw.walked_leads hI hleads).thread
  cases hf : resolvePath st t path dir with
  | hit nd' =>
    rw [hf] at hleads
    obtain ⟨heq, hP⟩ := hleads
    simp only [Option.some.injEq, Prod.mk.injEq] at heq
    obtain ⟨⟨rfl, rfl⟩, rfl⟩ := heq
    exact ⟨hP, rfl, rfl⟩
  | made nd' name =>
    rw [hf] at hleads
    obtain ⟨hfresh, st₁, heq, hm⟩ := hleads
    simp only [Option.some.injEq, Prod.mk.injEq] at heq
    obtain ⟨⟨rfl, rfl⟩, rfl⟩ := heq
    have henter := hw.enter hI hfresh.place hfresh.absent hfresh.valid hm
    exact ⟨henter.2.2 Kind.noConfusion, rfl, hthread⟩
  | absent =>
    rw [hf] at hleads
    obtain ⟨nd', st₁, heq, -⟩ := hleads
    simp at heq
  | stuck =>
    rw [hf] at hleads
    cases hleads

theorem run_vfsAccess_none (hlook : run (pathLookup t path false) st = some ((none, nd), st₁)) :
    run (vfsAccess t path mode) st = some (-1, st₁) := by
  rw [vfsAccess, run_bind, run_semWait, Option.bind_some, run_bind, hlook, Option.bind_some]
  rfl

theorem run_vfsAccess_some
    (hlook : run (pathLookup t path false) st = some ((some d, nd), st₁))
    (hip : (st₁.dentry d).dInode = some ip) :
    run (vfsAccess t path mode) st = some
      (if Passes (st₁.thread t).uid (st₁.thread t).gid (st₁.inode ip) mode then 0
        else -1, st₁) := by
  rw [vfsAccess, run_bind, run_semWait, Option.bind_some, run_bind, hlook, Option.bind_some]
  dsimp only
  split
  case isTrue hf =>
    have hpass : Passes (st₁.thread t).uid (st₁.thread t).gid (st₁.inode ip) mode :=
      ⟨fun hr => absurd (hf ▸ UInt32.zero_and) hr, fun hw => absurd (hf ▸ UInt32.zero_and) hw⟩
    rw [if_pos hpass]
    rfl
  rw [run_bind, run_gets, Option.bind_some, run_bind, run_demand, hip, Option.map_some,
    Option.bind_some, run_bind, run_gets, Option.bind_some, run_bind, run_gets, Option.bind_some]
  dsimp only
  split
  case isTrue hr =>
    have hfail : ¬ Passes (st₁.thread t).uid (st₁.thread t).gid (st₁.inode ip) mode := fun hp =>
      Bool.false_ne_true ((checkAcl_read.mpr (hp.1 hr.1)).symm.trans hr.2)
    rw [if_neg hfail]
    rfl
  case isFalse hr =>
    split
    case isTrue hw =>
      have hfail : ¬ Passes (st₁.thread t).uid (st₁.thread t).gid (st₁.inode ip) mode := fun hp =>
        Bool.false_ne_true ((checkAcl_write.mpr (hp.2 hw.1)).symm.trans hw.2)
      rw [if_neg hfail]
      rfl
    case isFalse hw =>
      have hpass : Passes (st₁.thread t).uid (st₁.thread t).gid (st₁.inode ip) mode :=
        ⟨fun hm => checkAcl_read.mp (Bool.eq_false_iff.mpr fun hc => hr ⟨hm, hc⟩),
          fun hm => checkAcl_write.mp (Bool.eq_false_iff.mpr fun hc => hw ⟨hm, hc⟩)⟩
      rw [if_pos hpass]
      rfl

/-- A path leads to the file `ip`. Looking it up leaves the state `st'`. -/
def NamesFile (st : State) (t : ℕ) (path : List Char) (ip : ℕ) (st' : State) : Prop :=
  ∃ d nd, run (pathLookup t path false) st = some ((some d, nd), st') ∧
    (st'.dentry d).dInode = some ip

/-- `vfs_access` answers whether a path leads to a file of which the caller has every permission
that a mode asks for. Whoever may do something may do every part of it. -/
structure Decides (st : State) (t : ℕ) (path : List Char) (mode : UInt32) : Prop where
  answers : ∃ ret st', run (vfsAccess t path mode) st = some (ret, st') ∧
    (ret = 0 ↔ ∃ ip, NamesFile st t path ip st' ∧
      Allows (st.thread t).uid (st.thread t).gid (st'.inode ip) mode)
  antitone : ∀ mode' st', mode' &&& mode = mode' → run (vfsAccess t path mode) st = some (0, st') →
    run (vfsAccess t path mode') st = some (0, st')

/-- Of the permissions that a mode asks for, the caller lacks only the one to execute. -/
def Overlooks (st : State) (t : ℕ) (path : List Char) (mode : UInt32) : Prop :=
  mode &&& X_OK ≠ 0 ∧ ∃ ip st', NamesFile st t path ip st' ∧
    Passes (st.thread t).uid (st.thread t).gid (st'.inode ip) mode ∧
      ¬ HasPerm (st.thread t).uid (st.thread t).gid (st'.inode ip) .execute

theorem namesFile_iff (hlook : run (pathLookup t path false) st = some ((some d, nd), st₁))
    (hip : (st₁.dentry d).dInode = some ip) {i : ℕ} :
    NamesFile st t path i st' ↔ i = ip ∧ st' = st₁ := by
  constructor
  · rintro ⟨d', nd', hr, hi⟩
    rw [hlook] at hr
    simp only [Option.some.injEq, Prod.mk.injEq] at hr
    obtain ⟨⟨rfl, -⟩, rfl⟩ := hr
    exact ⟨Option.some.inj (hi.symm.trans hip), rfl⟩
  · rintro ⟨rfl, rfl⟩
    exact ⟨d, nd, hlook, hip⟩

theorem not_namesFile (hlook : run (pathLookup t path false) st = some ((none, nd), st₁)) {i : ℕ} :
    ¬ NamesFile st t path i st' := by
  rintro ⟨d, nd', hr, -⟩
  rw [hlook] at hr
  simp at hr

theorem decides_none (hlook : run (pathLookup t path false) st = some ((none, nd), st₁)) :
    Decides st t path mode where
  answers := by
    refine ⟨-1, st₁, run_vfsAccess_none hlook, ?_⟩
    constructor
    · intro hret
      cases hret
    · rintro ⟨ip, hfile, -⟩
      exact absurd hfile (not_namesFile hlook)
  antitone mode' st' _ hr := by
    rw [run_vfsAccess_none hlook] at hr
    cases hr

/-- For a file the answer is right when the permissions that are asked for are all those of the
mode. -/
theorem decides_some (hlook : run (pathLookup t path false) st = some ((some d, nd), st₁))
    (hip : (st₁.dentry d).dInode = some ip) (hthread : st₁.thread = st.thread) :
    Decides st t path mode ↔
      (Passes (st.thread t).uid (st.thread t).gid (st₁.inode ip) mode →
        Allows (st.thread t).uid (st.thread t).gid (st₁.inode ip) mode) := by
  have hrun : ∀ m, run (vfsAccess t path m) st = some
      (if Passes (st.thread t).uid (st.thread t).gid (st₁.inode ip) m then 0 else -1, st₁) :=
    fun m => hthread ▸ run_vfsAccess_some hlook hip
  have hpass : ∀ m, (if Passes (st.thread t).uid (st.thread t).gid (st₁.inode ip) m then (0 : ℤ)
      else -1) = 0 ↔ Passes (st.thread t).uid (st.thread t).gid (st₁.inode ip) m := by
    intro m
    split <;> simp [*]
  have hfile : (∃ i, NamesFile st t path i st₁ ∧
      Allows (st.thread t).uid (st.thread t).gid (st₁.inode i) mode) ↔
        Allows (st.thread t).uid (st.thread t).gid (st₁.inode ip) mode := by
    simp [namesFile_iff hlook hip]
  constructor
  · rintro ⟨⟨ret, st', hr, hret⟩, -⟩ hp
    obtain ⟨rfl, rfl⟩ := run_inj hr (hrun mode)
    exact hfile.mp (hret.mp ((hpass mode).mpr hp))
  · intro h
    refine ⟨⟨_, st₁, hrun mode, ?_⟩, fun mode' st' hpart hr => ?_⟩
    · rw [hpass mode, hfile]
      exact ⟨h, fun ha => (allows_iff.mp ha).1⟩
    · obtain ⟨hzero, rfl⟩ := run_inj hr (hrun mode)
      rw [hrun mode', (hpass mode').mpr (((hpass mode).mp hzero.symm).part hpart)]

/-- For every caller and every mode `vfs_access` answers right, unless only the permission to
execute is missing. -/
theorem vfsAccess_decides_iff (h : Peopled st) (ht : st.Running t) :
    Decides (st.actAs t uid gid) t path mode ↔ ¬ Overlooks (st.actAs t uid gid) t path mode := by
  obtain ⟨hinv, horderly⟩ := (h.actAs t uid gid).orderly
  have hw := walkable_at t 0
  have hD : DirAt (st.actAs t uid gid) (start (st.actAs t uid gid) t path) :=
    dirAt_start hinv horderly.tidy ht
  obtain ⟨⟨⟨o, nd⟩, st₁⟩, hlook⟩ :=
    hw.exists_pathLookup (fun _ hD => hD.inode) horderly path false hD
  cases o with
  | none =>
    refine iff_of_true (decides_none hlook) ?_
    rintro ⟨-, ip, st', hfile, -⟩
    exact not_namesFile hlook hfile
  | some d =>
    obtain ⟨hat, rfl, hthread⟩ := hw.run_pathLookup_some horderly hD hlook
    obtain ⟨ip, hip⟩ := Option.ne_none_iff_exists'.mp hat.inode
    rw [decides_some hlook hip hthread, allows_iff]
    constructor
    · rintro hall ⟨hx, i, st', hfile, hpass, hnot⟩
      obtain ⟨rfl, rfl⟩ := (namesFile_iff hlook hip).mp hfile
      exact hnot ((hall hpass).2 hx)
    · intro hnot hpass
      refine ⟨hpass, fun hx => ?_⟩
      by_contra hno
      exact hnot ⟨hx, ip, st₁, (namesFile_iff hlook hip).mpr ⟨rfl, rfl⟩, hpass, hno⟩

/-- Everyone may enter a directory with mode `0x755`. -/
theorem decides_withRamdisk :
    Decides (withRamdisk.actAs 1 7 7) 1 "/a".toList (R_OK ||| X_OK) := by
  apply (vfsAccess_decides_iff reachable_withRamdisk.peopled running_withRamdisk).mpr
  rintro ⟨-, ip, st', ⟨d, nd, hr, hip⟩, -, hno⟩
  have hall : (run (pathLookup 1 "/a".toList false) (withRamdisk.actAs 1 7 7)).all (fun x =>
      x.1.1.all fun d => (x.2.dentry d).dInode.all fun ip =>
        HasPerm 7 7 (x.2.inode ip) .execute) = true := by decide +kernel
  rw [hr] at hall
  simp only [Option.all_some, hip, decide_eq_true_eq] at hall
  rw [thread_actAs] at hno
  exact hno hall

theorem isSome_withFile : (replay exec initial [.call 1 (.open "/f".toList O_RDWR)]).isSome = true
    := by decide +kernel

/-- The owner of a regular file may not execute it, but `vfs_access` says so. -/
theorem not_vfsAccess_decides : ¬ ∀ (st : State) (t : ℕ) (uid gid mode : UInt32)
    (path : List Char), Reachable st → st.Running t →
      Decides (st.actAs t uid gid) t path mode := by
  intro hall
  obtain ⟨st, hreplay⟩ := Option.isSome_iff_exists.mp isSome_withFile
  have hst : (replay exec initial [.call 1 (.open "/f".toList O_RDWR)]).all (fun st =>
      st.Running 1 ∧ (run (vfsAccess 1 "/f".toList X_OK) (st.actAs 1 0 0)).all (fun x => x.1 = 0) ∧
        (run (pathLookup 1 "/f".toList false) (st.actAs 1 0 0)).all fun x => x.1.1.all fun d =>
          (x.2.dentry d).dInode.all fun ip => ¬ HasPerm 0 0 (x.2.inode ip) .execute) = true := by
    decide +kernel
  rw [hreplay] at hst
  obtain ⟨ht, haccess, hfile⟩ := of_decide_eq_true hst
  obtain ⟨⟨ret, st', hr, hret⟩, -⟩ :=
    hall st 1 0 0 X_OK "/f".toList (reachable_of_replay hreplay) ht
  rw [hr] at haccess
  obtain ⟨ip, ⟨d, nd, hlook, hip⟩, hallows⟩ := hret.mp (of_decide_eq_true haccess)
  rw [hlook] at hfile
  simp only [Option.all_some, hip, decide_eq_true_eq] at hfile
  rw [thread_actAs] at hallows
  exact hfile (hallows .execute (by decide))

end Answers

end NSOS.Vfs
