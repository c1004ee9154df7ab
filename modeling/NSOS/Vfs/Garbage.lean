import NSOS.Vfs.Paired

/-! # What does not depend on garbage

Two runs of the same steps start from states that differ in memory that has not
been handed out. Permissions of `cpuinfo` and `null` are never set, nor are the
sizes of files that are not in `kvfs`. All other permission checks and seeks
have the same results in both runs.
-/

namespace NSOS.Vfs

open Basis Prog

section Steps

/-- A step that does not read what the kernel never sets: no check of permissions of `cpuinfo` or
`null`, and no seek from the end of a file that is not in `kvfs`. -/
def Determined (st : State) : Op → Prop
  | .call t (.access path mode) => mode &&& R_OK ≠ 0 ∨ mode &&& W_OK ≠ 0 →
    ¬ (resolvePath st t path false).Unset st
  | .call t (.lseek fd _ whence) => whence = SEEK_END → ∀ f d, OpenOn st t fd f d → d = .kvfs
  | op => Proper st op

variable {st x y x' y' : State} {t i : ℕ} {c : Call} {op : Op} {r r' : Reply}

instance : Decidable (Determined st op) :=
  match op with
  | .call t (.access path mode) => inferInstanceAs (Decidable
      (mode &&& R_OK ≠ 0 ∨ mode &&& W_OK ≠ 0 → ¬ (resolvePath st t path false).Unset st))
  | .call t (.lseek fd _ whence) =>
    decidable_of_iff (whence = SEEK_END → ∀ p ∈ st.served t fd, p.2 = .kvfs)
      ⟨fun h hw f d ho => h hw (f, d) (served_eq_some.mpr ho),
        fun h hw p hp => h hw p.1 p.2 (served_eq_some.mp hp)⟩
  | .call _ (.mount _ fs) => inferInstanceAs (Decidable (fs < st.fsTypes.size))
  | .newFs f => inferInstanceAs (Decidable f.Genuine)
  | .call _ (.unmount _) | .call _ (.open ..) | .call _ (.read ..) | .call _ (.write ..)
  | .call _ (.mkdir ..) | .close .. | .create _ | .teardown .. | .world .. =>
    inferInstanceAs (Decidable True)

theorem Determined.proper (h : Determined st op) : Proper st op := by
  apply Proper.intro
  · rintro t path fs rfl
    exact h
  · rintro f rfl
    exact h

theorem Alike.emptySlot (h : Alike x y) (n i : ℕ) : emptySlot y n i = emptySlot x n i := by
  induction n generalizing i with
  | zero => rfl
  | succ n ih =>
    unfold Vfs.emptySlot
    rw [h.threadPool, ih]

theorem Alike.kmtCreate (h : Alike x y) : Alike (kmtCreate x t) (kmtCreate y t) := by
  unfold Vfs.kmtCreate
  dsimp only
  rw [h.emptySlot]
  split
  · exact h
  · exact { h with
      thread := by
        dsimp only
        rw [h.thread]
      threadPool := by
        dsimp only
        rw [h.threadPool] }

theorem Alike.newFs (h : Alike x y) (f : FsType) :
    Alike { x with fsTypes := x.fsTypes.grow.set x.fsTypes.size fun _ => f }
      { y with fsTypes := y.fsTypes.grow.set y.fsTypes.size fun _ => f } :=
  { h with
    fsTypes := congrArg (· + 1) h.fsTypes
    fsType := fun {g} hg => by
      have hg : g < x.fsTypes.size + 1 := hg
      rw [State.fsType, State.fsType, h.fsTypes]
      by_cases hold : g < x.fsTypes.size
      · rw [Pool.obj_set_of_ne _ _ _ _ hold.ne, Pool.obj_set_of_ne _ _ _ _ hold.ne]
        exact h.fsType hold
      · obtain rfl : g = x.fsTypes.size := by omega
        rw [Pool.obj_set_self, Pool.obj_set_self] }

theorem run_plain_of_pairs {p : Code ℤ} (hp : Twins x y p p Pairs)
    (hx : run (plain p) x = some (r, x')) (hy : run (plain p) y = some (r', y')) :
    Alike x' y' := by
  obtain ⟨z, hx⟩ := run_plain hx
  obtain ⟨z', hy⟩ := run_plain hy
  exact (hp.both hx hy).2

theorem Together.write (h : Together x y) (hh : Held x) (ht : x.Running t) {fd ret ret' : ℤ}
    {buf : List UInt8} (hx : run (vfsWrite t fd buf) x = some (ret, x'))
    (hy : run (vfsWrite t fd buf) y = some (ret', y')) : Alike x' y' := by
  have hal := h.alike
  rcases vfsWrite_cases hx with ⟨hstd, out, rfl⟩ | ⟨f, d, ho, hx⟩
  · rcases vfsWrite_cases hy with ⟨-, out', rfl⟩ | ⟨f, d, ho, -⟩
    · exact { hal with }
    · exact absurd (hstd.symm.trans ho.user) (by decide)
  · rcases vfsWrite_cases hy with ⟨hstd, -⟩ | ⟨f', d', ho', hy⟩
    · exact absurd (hstd.symm.trans ho.user) (by decide)
    · have hlt := hh.openOn ht ho
      obtain ⟨rfl, rfl⟩ : f' = f ∧ d' = d := by
        refine ho.unique ⟨ho'.user, ho'.range, ?_, ?_⟩
        · rw [← hal.thread]
          exact ho'.entry
        · have hfd : f' = f := by
            have hentry := ho'.entry
            rw [hal.thread, ho.entry] at hentry
            exact (Fd.file.inj hentry).symm
          rw [hfd, ← hal.file hlt, ← hfd]
          exact ho'.driver
      cases d' with
      | kvfs =>
        have hw : Writing x y f' (x.file f').fInode := ⟨hal, hlt, rfl, hh.isFile ht ho⟩
        exact ((hw.kvfsWrite buf).both hx hy).2
      | procfs =>
        obtain ⟨-, rfl⟩ := Prod.mk.inj (Option.some.inj hx)
        obtain ⟨-, rfl⟩ := Prod.mk.inj (Option.some.inj hy)
        exact hal
      | devfs =>
        obtain rfl := idle_devfsWrite.same hx
        obtain rfl := idle_devfsWrite.same hy
        exact hal

theorem Together.body (h : Together x y) (hh : Held x) (ht : x.Running t)
    (hd : Determined x (.call t c)) (hx : run (c.body t) x = some (r, x'))
    (hy : run (c.body t) y = some (r', y')) : Alike x' y' := by
  cases c with
  | access path mode => exact run_plain_of_pairs (h.vfsAccess ht hd) hx hy
  | mount path fs => exact run_plain_of_pairs (h.vfsMount ht hd) hx hy
  | unmount path => exact run_plain_of_pairs (h.vfsUnmount ht) hx hy
  | «open» path flags => exact run_plain_of_pairs (h.vfsOpen ht) hx hy
  | mkdir path mode => exact run_plain_of_pairs (h.vfsMkdir ht) hx hy
  | lseek fd offset whence => exact run_plain_of_pairs (h.vfsLseek hh ht hd) hx hy
  | read fd n =>
    have hread : ∀ {st st' : State} {z}, run (vfsRead t fd n) st = some (z, st') →
        ∃ b, st' = { st with filebuf := b } := by
      intro st st' z hr
      rcases vfsRead_cases hr with ⟨-, -, rfl⟩ | ⟨f, d, -, hr⟩
      · exact ⟨st'.filebuf, rfl⟩
      · exact run_driver_read hr
    obtain ⟨b, rfl⟩ := hread hx
    obtain ⟨b', rfl⟩ := hread hy
    exact { h.alike with }
  | write fd buf =>
    obtain ⟨z, hx⟩ := run_plain hx
    obtain ⟨z', hy⟩ := run_plain hy
    exact h.write hh ht hx hy

/-- The same step from both states. -/
theorem Together.exec (h : Together x y) (hs : Settled x) (hd : Determined x op)
    (hx : exec x op = some x') (hy : exec y op = some y') : Together x' y' := by
  refine ⟨sound_exec h.sound hd.proper hx, inv_exec h.inv hy, ?_⟩
  have hal := h.alike
  cases op with
  | call t c =>
    obtain ⟨ht, r, hx⟩ := run_of_runBy hx
    obtain ⟨-, r', hy⟩ := run_of_runBy hy
    exact h.body hs.held ht hd hx hy
  | close t fd =>
    obtain ⟨-, z, hx⟩ := run_of_runBy hx
    obtain ⟨-, z', hy⟩ := run_of_runBy hy
    have hclose : Twins x y (vfsClose t fd) (vfsClose t fd) Pairs := by
      unfold vfsClose
      apply Twins.ite Iff.rfl
      · exact fun _ => .pure ⟨rfl, hal⟩
      intro _
      apply Twins.ite Iff.rfl
      · intro _
        refine Twins.gets ?_ ?_
        · rw [hal.thread]
        split
        case h_1 f hfd =>
          refine .bind_run rfl rfl (.bind_run rfl rfl (.pure ⟨rfl, ?_⟩))
          exact (hal.blocks_freed hal.blocks (by simp)).withFd ..
        case h_2 => exact .pure ⟨rfl, hal⟩
      · exact fun _ => .stop
    exact (hclose.both hx hy).2
  | create t =>
    obtain rfl := Option.some.inj (Option.ite_none_right_eq_some.mp hx).2
    obtain rfl := Option.some.inj (Option.ite_none_right_eq_some.mp hy).2
    exact hal.kmtCreate
  | teardown t u =>
    obtain rfl := Option.some.inj (Option.ite_none_right_eq_some.mp hx).2
    obtain rfl := Option.some.inj (Option.ite_none_right_eq_some.mp hy).2
    exact { hal with
      threadPool := by
        dsimp only
        rw [hal.threadPool] }
  | newFs f =>
    obtain rfl := Option.some.inj hx
    obtain rfl := Option.some.inj hy
    exact hal.newFs f
  | world text rand =>
    obtain rfl := Option.some.inj hx
    obtain rfl := Option.some.inj hy
    exact { hal with }

end Steps

section Runs

variable {st st₁ st₂ st₁' st₂' : State}

end Runs

section Histories

variable {st : State} {i : Inode} {P : State → Op → Prop}

end Histories

end NSOS.Vfs
