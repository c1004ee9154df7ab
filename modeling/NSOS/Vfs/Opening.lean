import NSOS.Vfs.Calls

/-! # Opening files

What `vfs_open` does behind `make_path`: a new open file for the dentry, and
the first free descriptor of the caller for it.
-/

namespace NSOS.Vfs

open Basis Prog

section Open

def State.withOpen (st : State) (f : File) : State :=
  { st with files := st.files.grow.set st.files.size fun _ => f }

def State.withFd (st : State) (t i : ℕ) (fd : Fd) : State := { st with
  thread := Function.update st.thread t
    { st.thread t with
      fileDescriptors := Function.update (st.thread t).fileDescriptors i fd } }

variable {st st₁ st' : State} {t d : ℕ} {path : List Char} {flags : UInt32} {ret : ℤ}
  {o : Option ℕ} {nd : Nameidata}

theorem withFd_entry {u i k : ℕ} {fd x : Fd}
    (h : ((st.withFd t i fd).thread u).fileDescriptors k = x) :
    (u = t ∧ k = i ∧ fd = x) ∨ (st.thread u).fileDescriptors k = x := by
  simp only [State.withFd, Function.update_apply] at h
  split at h
  case isTrue hu =>
    subst hu
    dsimp only at h
    rw [Function.update_apply] at h
    split at h
    case isTrue hk => exact .inl ⟨rfl, hk, h⟩
    case isFalse => exact .inr h
  case isFalse => exact .inr h

def Full (st : State) (t : ℕ) : Prop :=
  ∀ i < MAX_FILE_PER_THREAD, (st.thread t).fileDescriptors i ≠ .null

/-- What `vfs_open` returns, and the state it leaves, for a file that has been found. -/
def Opens (st : State) (t : ℕ) (f : File) (ret : ℤ) (st' : State) : Prop :=
  (Full st t ∧ ret = -1 ∧ st' = st.withOpen f) ∨
    ∃ i < MAX_FILE_PER_THREAD, (st.thread t).fileDescriptors i = .null ∧ ret = i ∧
      st' = (st.withOpen f).withFd t i (.file st.files.size)

theorem vfsOpen_makes (hr : run (vfsOpen t path flags) st = some (ret, st')) :
    ∃ o nd st₁, run (makePath t path false ACL_DEFAULT) st = some ((o, nd), st₁) := by
  rw [vfsOpen, run_bind, run_semWait, Option.bind_some] at hr
  obtain ⟨⟨o, nd⟩, st₁, hmake, -⟩ := run_bind_some hr
  exact ⟨o, nd, st₁, hmake⟩

theorem run_vfsOpen_some (flags : UInt32) {ip : ℕ}
    (hmake : run (makePath t path false ACL_DEFAULT) st = some ((some d, nd), st₁))
    (hip : (st₁.dentry d).dInode = some ip) :
    ∃ ret st', run (vfsOpen t path flags) st = some (ret, st') ∧
      Opens st₁ t ⟨d, ip, 0, flags, (st₁.inode ip).iFop⟩ ret st' ∧
        ∀ k : ℕ, (k : ℤ) < ret → (st₁.thread t).fileDescriptors k ≠ .null := by
  let f : File := ⟨d, ip, 0, flags, (st₁.inode ip).iFop⟩
  obtain ⟨i, hi, -, hle, hfull, hfree⟩ := run_freeFd (t := t) (st₁.withOpen f)
    MAX_FILE_PER_THREAD 0
  have hrun : run (vfsOpen t path flags) st = run (if i = MAX_FILE_PER_THREAD then do
      semSignal .vfsSem
      return -1
    else do
      setFd t i (.file st₁.files.size)
      semSignal .vfsSem
      return i : Code ℤ) (st₁.withOpen f) := by
    rw [vfsOpen, run_bind, run_semWait, Option.bind_some, run_bind, hmake, Option.bind_some]
    simp only [allocFile, setFile, run_bind, run_gets, run_modify, run_pure, Option.bind_some,
      run_demand, hip, Option.map_some]
    change ((run (freeFd t MAX_FILE_PER_THREAD 0) (st₁.withOpen f)).bind _) = _
    rw [hi, Option.bind_some]
  rw [hrun]
  by_cases hmax : i = MAX_FILE_PER_THREAD
  · rw [if_pos hmax]
    refine ⟨-1, _, rfl, .inl ⟨fun k hk => hfull k (Nat.zero_le k) (hmax ▸ hk), rfl, rfl⟩,
      fun k hk => ?_⟩
    omega
  · rw [if_neg hmax]
    refine ⟨i, _, rfl, .inr ⟨i, by omega, hfree (by omega), rfl, rfl⟩, fun k hk => ?_⟩
    exact hfull k (Nat.zero_le k) (by omega)

/-- `vfs_open` fails with `make_path`, or it opens the file on the first free descriptor. -/
theorem run_vfsOpen_first (hmake : run (makePath t path false ACL_DEFAULT) st = some ((o, nd), st₁))
    (hr : run (vfsOpen t path flags) st = some (ret, st')) :
    (o = none ∧ ret = -1 ∧ st' = st₁) ∨ ∃ d ip, o = some d ∧ (st₁.dentry d).dInode = some ip ∧
      Opens st₁ t ⟨d, ip, 0, flags, (st₁.inode ip).iFop⟩ ret st' ∧
        ∀ k : ℕ, (k : ℤ) < ret → (st₁.thread t).fileDescriptors k ≠ .null := by
  cases o with
  | none =>
    rw [vfsOpen, run_bind, run_semWait, Option.bind_some, run_bind, hmake, Option.bind_some] at hr
    obtain ⟨rfl, rfl⟩ := Prod.mk.inj (Option.some.inj hr)
    exact .inl ⟨rfl, rfl, rfl⟩
  | some d =>
    cases hip : (st₁.dentry d).dInode with
    | none =>
      rw [vfsOpen, run_bind, run_semWait, Option.bind_some, run_bind, hmake, Option.bind_some] at hr
      simp only [allocFile, setFile, run_bind, run_gets, run_modify, run_pure, Option.bind_some,
        run_demand, hip] at hr
      cases hr
    | some ip =>
      obtain ⟨z, st₂, hrun, hopens⟩ := run_vfsOpen_some flags hmake hip
      obtain ⟨rfl, rfl⟩ := run_inj hrun hr
      exact .inr ⟨d, ip, rfl, hip, hopens⟩

theorem run_vfsOpen (hmake : run (makePath t path false ACL_DEFAULT) st = some ((o, nd), st₁))
    (hr : run (vfsOpen t path flags) st = some (ret, st')) :
    (o = none ∧ ret = -1 ∧ st' = st₁) ∨ ∃ d ip, o = some d ∧ (st₁.dentry d).dInode = some ip ∧
      Opens st₁ t ⟨d, ip, 0, flags, (st₁.inode ip).iFop⟩ ret st' := by
  rcases run_vfsOpen_first hmake hr with hfail | ⟨d, ip, ho, hip, hopen, -⟩
  · exact .inl hfail
  · exact .inr ⟨d, ip, ho, hip, hopen⟩

end Open

end NSOS.Vfs
