import NSOS.Vfs.Access
import NSOS.Vfs.Making
import NSOS.Vfs.Storage

/-! # Permissions of files

`vfs_access` asks `check_acl` about an existing file. `vfs_open` does not ask,
and `kvfs_read` does not look at the mode of the file. As long as files are
opened only with flags that `check_acl` grants, and read only when they were
opened for reading, the permissions hold on every history.
-/

namespace NSOS.Vfs

open Basis Prog

section Grants

/-- `check_acl` grants what the flags of `vfs_open` ask for. -/
def Grants (uid gid : UInt32) (ip : Inode) (flags : UInt32) : Prop :=
  (flags &&& O_RDONLY ≠ 0 → checkAcl uid gid ip R_OK = false) ∧
    (flags &&& O_WRONLY ≠ 0 → checkAcl uid gid ip W_OK = false)

instance {uid gid : UInt32} {ip : Inode} {flags : UInt32} : Decidable (Grants uid gid ip flags) :=
  inferInstanceAs (Decidable (_ ∧ _))

def FindsByte (st : State) (f n : ℕ) : Prop :=
  0 < n ∧ 0 < toInt ((st.node (st.file f).fInode).endPtr.off -
    ((st.node (st.file f).fInode).start.off + (st.file f).fPos))

instance {st : State} {f n : ℕ} : Decidable (FindsByte st f n) :=
  inferInstanceAs (Decidable (_ ∧ _))

/-- An existing regular file is opened with flags that `check_acl` grants, and bytes are read from
files that were opened for reading. -/
def Licit (st : State) : Op → Prop
  | .call t (.open path flags) => ∀ d nd st₁ ip,
    run (makePath t path false ACL_DEFAULT) st = some ((some d, nd), st₁) →
      (st₁.dentry d).dInode = some ip → ip < st.inodes.size → (st.inode ip).iFop = some .kvfs →
        Grants (st.thread t).uid (st.thread t).gid (st.inode ip) flags
  | .call t (.read fd n) => ∀ f, OpenOn st t fd f .kvfs → FindsByte st f n →
    (st.file f).fMode &&& O_RDONLY ≠ 0
  | op => Proper st op

variable {st st' : State} {t f i ip n slot : ℕ} {fd : ℤ} {op : Op} {uid gid flags : UInt32}
  {th : Thread} {nd : Nameidata} {path : List Char} {r : ℤ × List UInt8}

theorem Licit.proper (h : Licit st op) : Proper st op := by
  apply Proper.intro
  · rintro t path fs rfl
    exact h
  · rintro f rfl
    exact h

theorem grants_newFile : Grants th.uid th.gid (newFile th ACL_DEFAULT slot) flags := by
  have hr : ACL_DEFAULT &&& ACL_OWNER_R ≠ 0 := by decide
  have hw : ACL_DEFAULT &&& ACL_OWNER_W ≠ 0 := by decide
  constructor <;> intro _ <;> simp [checkAcl, denied, newFile, hr, hw]

theorem Grants.size {j : Inode} {size : ℤ} (h : Grants uid gid j flags) :
    Grants uid gid { j with iSize := size } flags := h

def Permitted (st : State) : Prop := ∀ t k f, st.Running t →
  (st.thread t).fileDescriptors k = .file f → (st.file f).fOp = some .kvfs →
    Grants (st.thread t).uid (st.thread t).gid (st.inode (st.file f).fInode) (st.file f).fMode

theorem Permitted.effect (h : Permitted st) (hs : Settled st) (hl : Licit st op)
    (he : Effect st op st') : Permitted st' := by
  intro u k f ht hg hkvfs
  obtain ⟨ht, huid, hgid, hold | ⟨rfl, path, flags, st₁, d, ip, nd, rfl, ho⟩⟩ := he.descriptor ht hg
  · have hlt := hs.held.held ht hold
    rcases he.file (hlt.trans_le he.files_le) with ⟨-, pos, hfile⟩ | ⟨rfl, -⟩
    · rw [hfile] at hkvfs ⊢
      obtain ⟨size, hinode⟩ := he.owner hs.filed (hs.held.opened hlt hkvfs)
      rw [huid, hgid, hinode]
      exact (h u k f ht hold hkvfs).size
    · exact absurd hlt (Nat.lt_irrefl _)
  · have hisfile := (ho.isFile hkvfs).2
    have hfile : st'.file st.files.size = ⟨d, ip, 0, flags, (st₁.inode ip).iFop⟩ := by
      rw [State.file, ho.files, Pool.obj_set_self]
    have hinode : st'.inode ip = st₁.inode ip := by
      rw [State.inode, ho.inodes]
      rfl
    rw [huid, hgid, hfile]
    dsimp only
    rw [hinode]
    by_cases hlt : ip < st.inodes.size
    · have hfop := hisfile.2
      rw [ho.kept.inode hlt] at hfop ⊢
      exact hl d nd st₁ ip ho.found ho.dInode hlt hfop
    · obtain ⟨s, -, -, -, hnew⟩ := ho.kept.born hisfile (not_lt.mp hlt)
      rw [hnew]
      exact grants_newFile

theorem run_kvfsRead_none (hn : ¬ FindsByte st f n) :
    run (kvfsRead f n) st = some ((toInt (endRead [] n).length, endRead [] n), st) := by
  have hloop : run (kvfsReadLoop f n ((st.node (st.file f).fInode).start.add (st.file f).fPos) [])
      st = some ([], st) := by
    cases n with
    | zero => rfl
    | succ n =>
      rw [kvfsReadLoop, run_bind, run_gets, Option.bind_some, if_neg]
      · rfl
      · exact fun hpos => hn ⟨Nat.succ_pos n, hpos⟩
  simp only [kvfsRead, run_bind, run_gets, Option.bind_some]
  change (run (kvfsReadLoop f n ((st.node (st.file f).fInode).start.add (st.file f).fPos) [])
    st).bind _ = _
  rw [hloop]
  rfl

end Grants

section Respect

variable {st st' : State} {t f i ip n : ℕ} {fd ret : ℤ} {op : Op} {flags : UInt32}
  {nd : Nameidata} {path : List Char} {r : ℤ × List UInt8}

theorem Permitted.read (h : Permitted st) (ht : st.Running t) (ho : OpenOn st t fd f .kvfs)
    (hl : Licit st (.call t (.read fd n))) (hr : run (vfsRead t fd n) st = some (r, st')) :
    (checkAcl (st.thread t).uid (st.thread t).gid (st.inode (st.file f).fInode) R_OK = false ∧
      (st.file f).fMode &&& O_RDONLY ≠ 0) ∨ r.2 = endRead [] n := by
  by_cases hfinds : FindsByte st f n
  · have hmode := hl f ho hfinds
    exact .inl ⟨(h t fd.toNat f ht ho.entry ho.driver).1 hmode, hmode⟩
  · rw [run_vfsRead ho] at hr
    obtain ⟨rfl, -⟩ := run_inj hr (run_kvfsRead_none hfinds)
    exact .inr rfl

/-- A step that changes a file is a write through a descriptor for writing. -/
theorem Permitted.change (h : Permitted st) (hs : Settled st) (hstep : exec st op = some st')
    (hi : st.IsFile i) (hne : content st' i ≠ content st i) :
    ∃ t fd f buf, op = .call t (.write fd buf) ∧ OpenOn st t fd f .kvfs ∧
      (st.file f).fInode = i ∧
        checkAcl (st.thread t).uid (st.thread t).gid (st.inode i) W_OK = false ∧
          (st.file f).fMode &&& O_WRONLY ≠ 0 := by
  obtain ⟨t, fd, f, buf, rfl, ht, ho, rfl, hw⟩ :=
    (effect_of_exec hs.sound hstep).content hs.filed hs.held hi hne
  exact ⟨t, fd, f, buf, rfl, ho, rfl, (h t fd.toNat f ht ho.entry ho.driver).2 hw, hw⟩

end Respect

section Histories

variable {st st' : State} {op : Op}

instance : Decidable (Licit st op) :=
  match op with
  | .call t (.open path flags) =>
    decidable_of_iff (∀ x ∈ run (makePath t path false ACL_DEFAULT) st, ∀ d ∈ x.1.1,
        ∀ ip ∈ (x.2.dentry d).dInode, ip < st.inodes.size → (st.inode ip).iFop = some .kvfs →
          Grants (st.thread t).uid (st.thread t).gid (st.inode ip) flags)
      ⟨fun h d nd st₁ ip hr hip => h ((some d, nd), st₁) hr d rfl ip hip,
        fun h x hx d hd ip hip => h d x.1.2 x.2 ip (hx.trans (by rw [← hd])) hip⟩
  | .call t (.read fd n) =>
    decidable_of_iff (∀ p ∈ st.served t fd, p.2 = .kvfs → FindsByte st p.1 n →
        (st.file p.1).fMode &&& O_RDONLY ≠ 0)
      ⟨fun h f ho => h (f, .kvfs) (served_eq_some.mpr ho) rfl,
        fun h p hp hd => h p.1 (hd ▸ served_eq_some.mp hp)⟩
  | .call _ (.mount _ fs) => inferInstanceAs (Decidable (fs < st.fsTypes.size))
  | .newFs f => inferInstanceAs (Decidable f.Genuine)
  | .call _ (.access ..) | .call _ (.unmount _) | .call _ (.write ..) | .call _ (.lseek ..)
  | .call _ (.mkdir ..) | .close .. | .create _ | .teardown .. | .world .. =>
    inferInstanceAs (Decidable True)

end Histories

end NSOS.Vfs
