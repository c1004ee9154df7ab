import NSOS.Vfs.Serving
import NSOS.Vfs.Tidy

/-! # Changes

Every step of the file system is one of a few changes, whatever file systems
are mounted: walks that make entries, an open file, a moved file, a changed
descriptor, a mount or the end of one, and changes of threads.
-/

namespace NSOS.Vfs

open Basis Prog

section Slots

theorem emptySlot_spec (st : State) (n i : ℕ) : i ≤ emptySlot st n i ∧
    (emptySlot st n i < i + n → st.threadPool (emptySlot st n i) = false) := by
  induction n generalizing i with
  | zero => exact ⟨le_rfl, fun h => absurd h (Nat.lt_irrefl i)⟩
  | succ n ih =>
    rw [emptySlot]
    split
    case isTrue =>
      obtain ⟨hle, hfree⟩ := ih (i + 1)
      exact ⟨by omega, fun h => hfree (by omega)⟩
    case isFalse hfree => exact ⟨le_rfl, fun _ => by simpa using hfree⟩

theorem kmtCreate_cases (st : State) (t : ℕ) : kmtCreate st t = st ∨ ∃ i : ℕ,
    (0 < i ∧ i ≤ KERNEL_MAX_THREAD ∧ ¬ st.Running i) ∧ kmtCreate st t = { st with
      thread := Function.update st.thread i { st.thread t with
        uid := 0
        gid := 0
        fileDescriptors := newDescriptors }
      threadPool := Function.update st.threadPool i true } := by
  obtain ⟨hpos, hfree⟩ := emptySlot_spec st KERNEL_MAX_THREAD.toNat 1
  have hmax : KERNEL_MAX_THREAD = 1024 := rfl
  unfold kmtCreate
  dsimp only
  split
  · exact .inl rfl
  · refine .inr ⟨_, ⟨hpos, by omega, fun hrunning => ?_⟩, rfl⟩
    have hempty := hfree (by omega)
    rw [hrunning.2.2] at hempty
    cases hempty

end Slots

/-- What steps can do, when walks keep the invariant `I`, go on at the places `D`, and lead to the
places `P`. -/
inductive Change (I : State → Prop) (P D : State → Nameidata → Prop) (st : State) :
    Op → State → Prop
  | same {op : Op} : Change I P D st op st
  /-- Paths have been looked up, and directories made. -/
  | walked {t : ℕ} {c : Call} {mode : UInt16} {ps : List Part} {file : Bool} {o : Option ℕ}
    {st' : State} : Walked t mode I D ps file o st st' → Change I P D st (.call t c) st'
  | opened {t d ip : ℕ} {path : List Char} {flags : UInt32} {nd : Nameidata} {ret : ℤ}
    {st₁ st' : State} : st.Running t →
      run (makePath t path false ACL_DEFAULT) st = some ((some d, nd), st₁) →
        Walked t ACL_DEFAULT I D (partsOf path) true (some d) st st₁ →
          Ends P false (wantsDir path) (partsOf path) st₁ (start st t path) nd d →
            (st₁.dentry d).dInode = some ip →
              Opens st₁ t ⟨d, ip, 0, flags, (st₁.inode ip).iFop⟩ ret st' →
                Change I P D st (.call t (.open path flags)) st'
  | read {t n : ℕ} {fd : ℤ} {b : ℤ → UInt8} :
    Change I P D st (.call t (.read fd n)) { st with filebuf := b }
  | printed {t : ℕ} {fd : ℤ} {buf out : List UInt8} :
    Change I P D st (.call t (.write fd buf)) { st with output := out }
  | wrote {t f : ℕ} {fd ret : ℤ} {buf : List UInt8} {st' : State} : st.Running t →
    OpenOn st t fd f .kvfs → run (kvfsWrite f buf) st = some (ret, st') →
      Change I P D st (.call t (.write fd buf)) st'
  | sought {t f : ℕ} {fd offset whence ret : ℤ} {d : Driver} {st' : State} : st.Running t →
    OpenOn st t fd f d → run (llseek f offset whence) st = some (ret, st') →
      Change I P D st (.call t (.lseek fd offset whence)) st'
  | mounted {t fs d m : ℕ} {path : List Char} {x : Dentry} {driver : Driver} {j : Inode}
    {st₁ st' : State} : Mounts st st' t path fs d m x → (st.fsType fs).mount = some driver →
      RootMade driver fs (st.fsType fs).dev st st₁ x j →
        st' = { st₁ with toNamespace := st'.toNamespace } →
          Change I P D st (.call t (.mount path fs)) st'
  | unmounted {t m : ℕ} {path : List Char} {nd : Nameidata} {st' : State} :
    Unmounts st st' t path nd m → Change I P D st (.call t (.unmount path)) st'
  | closed {t f : ℕ} {fd : ℤ} : st.Running t → 0 ≤ fd →
    (st.thread t).fileDescriptors fd.toNat = .file f →
      Change I P D st (.close t fd)
        ({ st with freed := .file f :: st.freed }.withFd t fd.toNat .null)
  | created {t : ℕ} : st.Running t → Change I P D st (.create t) (kmtCreate st t)
  | tornDown {t u : ℕ} : Change I P D st (.teardown t u)
      { st with threadPool := Function.update st.threadPool u false }
  | newFs {f : FsType} : Change I P D st (.newFs f)
      { st with fsTypes := st.fsTypes.grow.set st.fsTypes.size fun _ => f }
  | world {text : ℤ → List UInt8} {rand : ℕ → UInt8} : Change I P D st (.world text rand)
      { st with procText := text, randByte := rand }

section Steps

variable {I : State → Prop} {P D : State → Nameidata → Prop} {st st' : State} {t : ℕ} {c : Call}
  {op : Op} {path : List Char} {ret : Reply} {mode : UInt16}

theorem Walkable.walked_pathLookup (hw : Walkable t mode I P D) (hI : I st)
    (hD : D st (start st t path)) {r : Option ℕ × Nameidata}
    (hr : run (pathLookup t path false) st = some (r, st')) :
    Walked t mode I D (partsOf path) false none st st' := by
  obtain ⟨o, nd⟩ := r
  have hleads := hw.run_pathLookup hI path false hD
  rw [hr] at hleads
  exact hw.walked_leads hI hleads

theorem Walkable.changes_looksUp (hw : Walkable t mode I P D) (hI : I st)
    (hD : D st (start st t path)) (hl : LooksUp t path st st') :
    Change I P D st (.call t c) st' := by
  obtain rfl | ⟨r, hr⟩ := hl
  · exact .same
  · exact .walked (hw.walked_pathLookup hI hD hr)

theorem change_of_body (hw : ∀ mode, Walkable t mode I P D) (hI : I st) (h : Inv st)
    (hD : ∀ path, D st (start st t path)) (ht : st.Running t)
    (hr : run (c.body t) st = some (ret, st')) : Change I P D st (.call t c) st' := by
  cases c with
  | read fd nbyte =>
    rcases vfsRead_cases hr with ⟨-, -, rfl⟩ | ⟨f, d, -, hread⟩
    · exact .same
    · obtain ⟨b, rfl⟩ := run_driver_read hread
      exact .read
  | write fd buf =>
    obtain ⟨z, hr⟩ := run_plain hr
    rcases vfsWrite_cases hr with ⟨-, out, rfl⟩ | ⟨f, d, hopen, hwrite⟩
    · exact .printed
    · cases d with
      | kvfs => exact .wrote ht hopen hwrite
      | procfs =>
        obtain ⟨-, rfl⟩ := Prod.mk.inj (Option.some.inj hwrite)
        exact .same
      | devfs =>
        obtain rfl := idle_devfsWrite.same hwrite
        exact .same
  | lseek fd offset whence =>
    obtain ⟨z, hr⟩ := run_plain hr
    rcases vfsLseek_cases hr with ⟨-, -, rfl⟩ | ⟨f, d, hopen, hseek⟩
    · exact .same
    · exact .sought ht hopen hseek
  | mount path fs =>
    obtain ⟨z, hr⟩ := run_plain hr
    rcases run_vfsMount h ht hr with ⟨-, hl⟩ | ⟨-, d, m, x, hm, driver, j, st₁, hdriver, hroot, hst⟩
    · exact (hw 0).changes_looksUp hI (hD path) hl
    · exact .mounted hm hdriver hroot hst
  | unmount path =>
    obtain ⟨z, hr⟩ := run_plain hr
    rcases run_vfsUnmount h ht hr with ⟨-, hl⟩ | ⟨-, nd, m, hu⟩
    · exact (hw 0).changes_looksUp hI (hD path) hl
    · exact .unmounted hu
  | access path mode =>
    obtain ⟨z, hr⟩ := run_plain hr
    rw [vfsAccess, run_bind, run_semWait, Option.bind_some] at hr
    obtain ⟨⟨o, nd⟩, st₁, hlook, hrest⟩ := run_bind_some hr
    have hidle : st' = st₁ := by
      refine (?_ : Idle _).same hrest
      cases o <;> infer_instance
    exact (hw 0).changes_looksUp hI (hD path) (.inr ⟨_, hidle ▸ hlook⟩)
  | «open» path flags =>
    obtain ⟨z, hr⟩ := run_plain hr
    obtain ⟨o, nd, st₁, hmake⟩ := vfsOpen_makes hr
    obtain ⟨hwalk, hend⟩ := (hw _).walked_makePath hI (hD path) hmake
    rcases run_vfsOpen hmake hr with ⟨-, -, rfl⟩ | ⟨d, ip, rfl, hip, hopen⟩
    · exact .walked hwalk
    · exact .opened ht hmake hwalk (hend d rfl) hip hopen
  | mkdir path mode =>
    obtain ⟨z, hr⟩ := run_plain hr
    rw [vfsMkdir, run_bind, run_semWait, Option.bind_some] at hr
    obtain ⟨⟨o, nd⟩, st₁, hlook, hrest⟩ := run_bind_some hr
    have hwalk := (hw mode).walked_pathLookup hI (hD path) hlook
    cases o with
    | some d =>
      obtain ⟨-, rfl⟩ := Prod.mk.inj (Option.some.inj hrest)
      exact .walked hwalk
    | none =>
      obtain ⟨⟨o', nd'⟩, st₂, hmake, hret⟩ := run_bind_some hrest
      have hstart : D st₁ (start st₁ t path) := by
        rw [start_congr hwalk.thread]
        exact hwalk.keeps (hD path)
      obtain ⟨hwalk', -⟩ := (hw mode).walked_makePath hwalk.inv hstart hmake
      have hidle : st' = st₂ := by
        refine (?_ : Idle _).same hret
        cases o' <;> infer_instance
      rw [hidle]
      exact .walked (hwalk.trans hwalk')

/-- Every step is one of the changes. -/
theorem change_of_exec (hw : ∀ t mode, Walkable t mode I P D) (hI : I st) (h : Inv st)
    (hD : ∀ {t path}, st.Running t → D st (start st t path)) (hs : exec st op = some st') :
    Change I P D st op st' := by
  cases op with
  | call t c =>
    obtain ⟨ht, ret, hr⟩ := run_of_runBy hs
    exact change_of_body (hw t) hI h (fun path => hD ht) ht hr
  | close t fd =>
    obtain ⟨ht, z, hr⟩ := run_of_runBy hs
    rcases vfsClose_cases hr with rfl | ⟨f, hfd, hf, rfl⟩
    · exact .same
    · exact .closed ht hfd hf
  | create t =>
    rw [exec] at hs
    split at hs
    · obtain rfl := Option.some.inj hs
      exact .created ‹_›
    · cases hs
  | teardown t u =>
    rw [exec] at hs
    split at hs
    · obtain rfl := Option.some.inj hs
      exact .tornDown
    · cases hs
  | newFs f =>
    obtain rfl := Option.some.inj hs
    exact .newFs
  | world text rand =>
    obtain rfl := Option.some.inj hs
    exact .world

end Steps

end NSOS.Vfs
