import NSOS.Basis.Returning
import NSOS.Vfs.Kinds

/-! # Descriptors that are not open

The calls on a descriptor take it as an index, and only `vfs_close` looks at
the entry before it follows it. So a call on a descriptor that is not open
halts the machine, unless it is a `vfs_close` inside the table.
-/

namespace NSOS.Vfs

open Basis Prog

section Accesses

variable {fp ip n count : ℕ} {p q : Ptr} {c : UInt8} {buf out : List UInt8} {mode : UInt32}
  {offset whence k len iterator : ℤ} {o : Obj}

instance returns_setFile {g : File → File} : Returns (setFile fp g) := returns_modify _
instance returns_setInode {g : Inode → Inode} : Returns (setInode ip g) := returns_modify _
instance returns_free : Returns (free o) := returns_modify _
instance returns_load : Returns (load p) := returns_gets _
instance returns_store : Returns (store p c) := returns_modify _
instance returns_allocBlock : Returns allocBlock := by unfold allocBlock; infer_instance

instance returns_memset : Returns (memset p c n) := by
  induction n with
  | zero => exact returns_pure
  | succ n ih => unfold memset; infer_instance

instance returns_memcpy : Returns (memcpy p q n) := by
  induction n with
  | zero => exact returns_pure
  | succ n ih => unfold memcpy; infer_instance

instance returns_memcpyFrom : Returns (memcpyFrom p buf n) := by
  induction n with
  | zero => exact returns_pure
  | succ n ih => unfold memcpyFrom; infer_instance

instance returns_llseek : Returns (llseek fp offset whence) := by unfold llseek; infer_instance

instance returns_kvfsReadLoop : Returns (kvfsReadLoop fp n p out) := by
  induction n generalizing p out with
  | zero => exact returns_pure
  | succ n ih => unfold kvfsReadLoop; infer_instance

instance returns_kvfsRead : Returns (kvfsRead fp count) := by unfold kvfsRead; infer_instance
instance returns_kvfsGrow : Returns (kvfsGrow fp count) := by unfold kvfsGrow; infer_instance
instance returns_seekAppend : Returns (seekAppend fp mode) := by
  unfold seekAppend
  infer_instance
instance returns_raiseSize : Returns (raiseSize ip k) := by unfold raiseSize; infer_instance
instance returns_kvfsStore : Returns (kvfsStore fp buf p q) := by
  unfold kvfsStore
  infer_instance
instance returns_kvfsWrite : Returns (kvfsWrite fp buf) := by unfold kvfsWrite; infer_instance

instance returns_procReadLoop : Returns (procReadLoop len n iterator out) := by
  induction n generalizing iterator out with
  | zero => exact returns_pure
  | succ n ih => unfold procReadLoop; infer_instance

instance returns_procRead : Returns (procRead fp count) := by unfold procRead; infer_instance

instance returns_printAll : Returns (printAll buf) := by
  induction buf with
  | nil => exact returns_pure
  | cons c buf ih => unfold printAll; infer_instance

end Accesses

section Open

variable {st st' : State} {t f n : ℕ} {fd : ℤ} {d : Driver} {buf : List UInt8}

/-- A descriptor that leads to an open file of the thread. -/
def IsOpen (st : State) (t : ℕ) (fd : ℤ) : Prop := 0 ≤ fd ∧ fd < MAX_FILE_PER_THREAD ∧
  ∃ f, (st.thread t).fileDescriptors fd.toNat = .file f

theorem OpenOn.isOpen (h : OpenOn st t fd f d) : IsOpen st t fd :=
  ⟨h.range.1, h.range.2, f, h.entry⟩

theorem Reach.openOn {Q : State → Op → Prop} (h : Reach st Q) (ht : st.Running t)
    (hstd : isStd fd = false) (ho : IsOpen st t fd) :
    ∃ f d, OpenOn st t fd f d ∧ Usable st (st.file f) := by
  obtain ⟨h₀, hmax, f, hf⟩ := ho
  obtain ⟨-, husable⟩ := Reach.served h
  have hu := husable f ((Reach.apart h).separate.lt (held_eq_some.mpr ⟨ht, hf⟩))
  obtain ⟨d, hd⟩ := Option.ne_none_iff_exists'.mp hu.fOp
  exact ⟨f, d, ⟨hstd, ⟨h₀, hmax⟩, hf, hd⟩, hu⟩

theorem Usable.run_dentryIno (hu : Usable st (st.file f)) :
    run (dentryIno f) st = some ((st.inode (st.file f).fInode).iIno, st) := by
  rw [dentryIno, run_bind, run_gets, Option.bind_some, hu.dInode]
  rfl

theorem Usable.reads (hu : Usable st (st.file f)) (d : Driver) (n : ℕ) :
    ∃ r, run (d.read f n) st = some r := by
  cases d with
  | kvfs => exact returns_kvfsRead.run_eq st
  | procfs => exact returns_procRead.run_eq st
  | devfs => exact Returns.run_bind hu.run_dentryIno

theorem Usable.writes (hu : Usable st (st.file f)) (d : Driver) (buf : List UInt8) :
    ∃ r, run (d.write f buf) st = some r := by
  cases d with
  | kvfs => exact returns_kvfsWrite.run_eq st
  | procfs => exact returns_pure.run_eq st
  | devfs => exact Returns.run_bind hu.run_dentryIno

end Open

section Checked

inductive FdCall where
  | read (nbyte : ℕ)
  | write (buf : List UInt8)
  | lseek (offset whence : ℤ)
  | close
  deriving DecidableEq

/-- The program of a call on the descriptor `fd` of thread `t`. -/
def FdCall.prog (t : ℕ) (fd : ℤ) : FdCall → Code Reply
  | read nbyte => vfsRead t fd nbyte
  | write buf => plain (vfsWrite t fd buf)
  | lseek offset whence => plain (vfsLseek t fd offset whence)
  | close => plain (vfsClose t fd)

/-- A call that looks only inside the table, and follows only entries that lead to open files:
it does not halt. On a descriptor that is neither standard nor open it fails and changes
nothing. -/
structure Checks (st : State) (t : ℕ) (c : FdCall) (fd : ℤ) : Prop where
  follows : ∃ r, run (c.prog t fd) st = some r
  fails : isStd fd = false → ¬ IsOpen st t fd →
    ∃ ret < 0, run (c.prog t fd) st = some ((ret, []), st)

variable {st st' : State} {t f n : ℕ} {fd : ℤ} {d : Driver} {c : FdCall} {buf : List UInt8}
  {ret : Reply}

theorem returns_plain {p : Code ℤ} (h : ∃ r, run p st = some r) :
    ∃ r, run (plain p) st = some r := by
  obtain ⟨⟨z, st'⟩, hr⟩ := h
  exact Returns.run_bind hr

theorem run_prog_std (hstd : isStd fd = true) (c : FdCall) :
    ∃ r, run (c.prog t fd) st = some r := by
  cases c with
  | read n =>
    rw [FdCall.prog, vfsRead, if_pos hstd]
    exact Returns.run_eq st
  | write buf =>
    refine returns_plain ?_
    by_cases hout : fd = STDOUT_FILENO ∨ fd = STDERR_FILENO
    · rw [vfsWrite, if_pos hout]
      exact Returns.run_eq st
    · have hin : ¬ fd ≠ STDIN_FILENO := by
        simp only [isStd, Bool.or_eq_true, decide_eq_true_eq] at hstd
        rcases hstd with (h | h) | h
        · exact not_not.mpr h
        · exact absurd (.inl h) hout
        · exact absurd (.inr h) hout
      rw [vfsWrite, if_neg hout, if_neg hin]
      exact Returns.run_eq st
  | lseek offset whence =>
    refine returns_plain ?_
    rw [vfsLseek, if_pos hstd]
    exact Returns.run_eq st
  | close =>
    refine returns_plain ?_
    rw [vfsClose, if_pos hstd]
    exact Returns.run_eq st

theorem run_vfsClose_inside (st : State) (t : ℕ) (hstd : isStd fd = false)
    (hrange : 0 ≤ fd ∧ fd < MAX_FILE_PER_THREAD) :
    (∃ r, run (vfsClose t fd) st = some r) ∧
      (¬ IsOpen st t fd → run (vfsClose t fd) st = some (-1, st)) := by
  have hne : ¬ isStd fd = true := Bool.eq_false_iff.mp hstd
  rw [vfsClose, if_neg hne, if_pos hrange, run_bind, run_gets, Option.bind_some]
  cases he : (st.thread t).fileDescriptors fd.toNat with
  | file f => exact ⟨⟨_, rfl⟩, fun hopen => absurd ⟨hrange.1, hrange.2, f, he⟩ hopen⟩
  | null => exact ⟨⟨_, rfl⟩, fun _ => rfl⟩
  | std => exact ⟨⟨_, rfl⟩, fun _ => rfl⟩

theorem OpenOn.run_prog (ho : OpenOn st t fd f d) (hu : Usable st (st.file f)) (c : FdCall) :
    ∃ r, run (c.prog t fd) st = some r := by
  have hne : ¬ isStd fd = true := Bool.eq_false_iff.mp ho.user
  have hfile := run_fileOf ho.range ho.entry ho.driver
  cases c with
  | read n =>
    rw [FdCall.prog, run_vfsRead ho]
    exact hu.reads d n
  | write buf =>
    refine returns_plain ?_
    have hstd := ho.user
    simp only [isStd, Bool.or_eq_false_iff, decide_eq_false_iff_not] at hstd
    obtain ⟨⟨z, st₁⟩, hwrite⟩ := hu.writes d buf
    rw [vfsWrite, run_bind, run_semWait, Option.bind_some,
      if_neg (not_or.mpr ⟨hstd.1.2, hstd.2⟩), if_pos hstd.1.1, run_bind, hfile, Option.bind_some]
    exact Returns.run_bind hwrite
  | lseek offset whence =>
    refine returns_plain ?_
    rw [vfsLseek, run_bind, run_semWait, Option.bind_some, if_neg hne, run_bind, hfile,
      Option.bind_some]
    simp only [driver_llseek]
    exact Returns.run_eq st
  | close => exact returns_plain (run_vfsClose_inside st t ho.user ho.range).1

/-- Calls that return have found a standard or an open descriptor, or a place in the table for
`vfs_close`. -/
theorem FdCall.found (hr : run (c.prog t fd) st = some (ret, st')) :
    isStd fd = true ∨ IsOpen st t fd ∨ c = .close ∧ 0 ≤ fd ∧ fd < MAX_FILE_PER_THREAD := by
  cases c with
  | read n =>
    rcases vfsRead_cases hr with ⟨hstd, -⟩ | ⟨f, d, ho, -⟩
    · exact .inl hstd
    · exact .inr (.inl ho.isOpen)
  | write buf =>
    obtain ⟨z, hr⟩ := run_plain hr
    rcases vfsWrite_cases hr with ⟨hstd, -⟩ | ⟨f, d, ho, -⟩
    · exact .inl hstd
    · exact .inr (.inl ho.isOpen)
  | lseek offset whence =>
    obtain ⟨z, hr⟩ := run_plain hr
    rcases vfsLseek_cases hr with ⟨hstd, -⟩ | ⟨f, d, ho, -⟩
    · exact .inl hstd
    · exact .inr (.inl ho.isOpen)
  | close =>
    obtain ⟨z, hr⟩ := run_plain hr
    rw [vfsClose] at hr
    split at hr
    case isTrue hstd => exact .inl hstd
    case isFalse =>
      split at hr
      case isTrue hrange => exact .inr (.inr ⟨rfl, hrange⟩)
      case isFalse => cases hr

/-- A call checks a descriptor that is standard or open in the calling thread, and `vfs_close`
every descriptor in the table. On all others the machine halts. -/
theorem checks_iff (h : Reachable st) (ht : st.Running t) (c : FdCall) (fd : ℤ) :
    Checks st t c fd ↔ isStd fd = true ∨ IsOpen st t fd ∨
      c = .close ∧ 0 ≤ fd ∧ fd < MAX_FILE_PER_THREAD := by
  constructor
  · rintro ⟨⟨⟨ret, st'⟩, hr⟩, -⟩
    exact FdCall.found hr
  · intro hfd
    cases hstd : isStd fd with
    | true => exact ⟨run_prog_std hstd c, fun hne => absurd (hstd.symm.trans hne) Bool.noConfusion⟩
    | false =>
      rw [hstd] at hfd
      rcases hfd with hne | hopen | ⟨rfl, hrange⟩
      · cases hne
      · obtain ⟨f, d, ho, hu⟩ := Reach.openOn h ht hstd hopen
        exact ⟨ho.run_prog hu c, fun _ hnot => absurd hopen hnot⟩
      · obtain ⟨hret, hclosed⟩ := run_vfsClose_inside st t hstd hrange
        refine ⟨returns_plain hret, fun _ hnot => ⟨-1, by decide, ?_⟩⟩
        rw [FdCall.prog, plain, run_bind, hclosed hnot]
        rfl

/-- A thread reads from the descriptor -1, as after a `vfs_open` that has failed. -/
theorem not_checks_failedOpen : ¬ ∀ (st : State) (t : ℕ) (c : FdCall) (fd : ℤ), Reachable st →
    st.Running t → Checks st t c fd := by
  intro h
  have hreach : Reachable initial := ⟨initial, started_initial, .refl⟩
  obtain ⟨⟨r, hr⟩, -⟩ := h initial 1 (.read 1) (-1) hreach (by decide +kernel)
  cases hr

/-- A file is open on the descriptor 3, and none on 5. -/
theorem checks_openTwice : Checks openTwice 1 (.read 8) 3 ∧ ¬ Checks openTwice 1 (.read 8) 5 ∧
    Checks openTwice 1 .close 5 := by
  have hiff := checks_iff reachable_openTwice (show openTwice.Running 1 by decide +kernel)
  have hsome : ((openTwice.thread 1).fileDescriptors 3).file?.isSome = true := by decide +kernel
  have hnone : ((openTwice.thread 1).fileDescriptors 5).file? = none := by decide +kernel
  obtain ⟨f, hf⟩ := Option.isSome_iff_exists.mp hsome
  refine ⟨(hiff _ 3).mpr (.inr (.inl ⟨by decide, by decide, f, Fd.file?_eq_some.mp hf⟩)), ?_,
    (hiff _ 5).mpr (.inr (.inr ⟨rfl, by decide, by decide⟩))⟩
  rw [hiff]
  rintro (hstd | ⟨-, -, g, hg⟩ | ⟨hclose, -⟩)
  · cases hstd
  · have hsome := Fd.file?_eq_some.mpr hg
    exact Option.some_ne_none g (hsome.symm.trans hnone)
  · cases hclose

end Checked

end NSOS.Vfs
