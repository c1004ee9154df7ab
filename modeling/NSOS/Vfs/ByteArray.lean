import NSOS.Vfs.Reading

/-! # Files as byte arrays

A file that `kvfs_create` has made behaves as a byte array under all writes
through its descriptors. Successive reads through a descriptor return parts of
the array, with a newline behind the last one.
-/

namespace NSOS.Vfs

open Basis Prog

section Writes

variable {st st' st₀ st₁ : State} {fp ip dp : ℕ} {buf : List UInt8}

/-- What the users of a file do: they write to it, and they move, open and close descriptors. -/
inductive Use where
  | write (fp : ℕ) (buf : List UInt8)
  | descriptors (files : Pool File)

def use (ip : ℕ) (st : State) : Use → Option State
  | .write fp buf =>
    if (st.file fp).fInode = ip then (run (kvfsWrite fp buf) st).map Prod.snd else none
  | .descriptors files => some { st with files := files }

abbrev Uses (ip : ℕ) : State → Use → State → Prop := fun st u st' => use ip st u = some st'

/-- The position of a write and its end are in the range of `int`. -/
def InRange (st : State) (fp : ℕ) (buf : List UInt8) : Prop :=
  0 ≤ st.writePos fp ∧ st.writePos fp + buf.length < 2 ^ 31

instance : Decidable (InRange st fp buf) := inferInstanceAs (Decidable (_ ∧ _))

/-- A write that changes the file is in range. -/
def Use.Fits (st : State) : Use → Prop
  | .write fp buf => (st.file fp).fMode &&& O_WRONLY ≠ 0 → InRange st fp buf
  | .descriptors _ => True

instance : DecidablePred (Use.Fits st) := fun u => by
  cases u <;> unfold Use.Fits <;> infer_instance

/-- A write refines the one on byte arrays: the buffer takes its place in the array, and the size,
the end of the storage and the position move with it. A read at the position of the write through
any descriptor then returns the buffer. -/
structure Refines (st st' : State) (fp ip : ℕ) (buf : List UInt8) : Prop where
  content : content st' ip = splice (content st ip) (st.writePos fp).toNat buf
  size : (st'.inode ip).iSize = max (st.inode ip).iSize (st.writePos fp + buf.length)
  pos : (st'.file fp).fPos = st.writePos fp + buf.length
  span : (st'.node ip).endPtr = (st'.node ip).start.add (st'.inode ip).iSize
  readBack : ∀ {files : Pool File} {fq}, (files.obj fq).fInode = ip →
    (files.obj fq).fPos = st.writePos fp →
      run (kvfsRead fq buf.length) { st' with files := files } =
        some (((buf.length : ℤ), buf), { st' with files := files })

theorem Stored.files (hs : Stored st ip) (files : Pool File) :
    Stored { st with files := files } ip :=
  ⟨hs.nonneg, hs.lt, hs.off, hs.fresh, hs.empty, hs.endPtr⟩

theorem stored_kvfsCreate (hb : 0 < st.blocks.size)
    (hr : run (kvfsCreate ip dp) st = some (false, st')) : Stored st' ip := by
  rw [run_kvfsCreate] at hr
  cases hfree : st.freeSlot? with
  | none =>
    rw [hfree] at hr
    cases hr
  | some i =>
    rw [hfree] at hr
    obtain ⟨-, rfl⟩ := Prod.mk.inj (Option.some.inj hr)
    constructor <;> simp [State.withFile, State.inode, State.node, Ptr.null, Ptr.add, hb]

theorem Stored.use {u : Use} (hs : Stored st ip) (hu : u.Fits st) (hst : Uses ip st u st') :
    Stored st' ip := by
  cases u with
  | descriptors files =>
    obtain rfl := Option.some.inj hst
    exact hs.files files
  | write fp buf =>
    unfold Uses Vfs.use at hst
    dsimp only at hst
    split at hst
    case isFalse => cases hst
    case isTrue hip =>
      obtain ⟨⟨n, st₁⟩, hrun, rfl⟩ := Option.map_eq_some_iff.mp hst
      by_cases hw : (st.file fp).fMode &&& O_WRONLY = 0
      · obtain ⟨-, rfl⟩ := run_inj hrun (run_kvfsWrite_readonly hw)
        exact hs.files _
      · obtain ⟨h₁, h₂⟩ := hu hw
        obtain ⟨st₂, hrun₂, hwrote, -⟩ := run_kvfsWrite buf hs hip hw h₁ h₂
        obtain ⟨-, rfl⟩ := run_inj hrun hrun₂
        exact hwrote.stored

theorem stored_of_uses (hb : 0 < st₀.blocks.size)
    (hc : run (kvfsCreate ip dp) st₀ = some (false, st₁))
    (hr : Run (Uses ip) (fun st u => u.Fits st) st₁ st) : Stored st ip :=
  hr.invariant (stored_kvfsCreate hb hc) fun h hu hst => Stored.use h hu hst

theorem Wrote.refines (h : InRange st fp buf) (hw : Wrote st st' fp ip (st.writePos fp) buf) :
    Refines st st' fp ip buf := by
  obtain ⟨h₁, h₂⟩ := h
  refine ⟨hw.content, ?_, ?_, hw.stored.endPtr, ?_⟩
  · obtain ⟨B, K, F, rfl⟩ := hw.frame
    simp [State.inode]
  · obtain ⟨B, K, F, rfl⟩ := hw.frame
    simp [State.file]
  · intro files fq hfq hpos
    have hpos' : (files.obj fq).fPos = ((st.writePos fp).toNat : ℤ) := by
      rw [hpos]
      omega
    have hread : run (kvfsRead fq buf.length) { st' with files := files } = _ :=
      run_kvfsRead (hw.stored.files files) hfq hpos' (by omega)
    have hslice : slice (Vfs.content { st' with files := files } ip) (st.writePos fp).toNat
        buf.length = buf := by
      change slice (Vfs.content st' ip) _ _ = _
      rw [hw.content, slice_splice]
    rw [hslice, endRead_of_le le_rfl, toInt_of_range (by omega) (by omega)] at hread
    exact hread

/-- After any uses of a new file, a write refines the one on byte arrays, and without the bit for
writing it changes neither the bytes nor the size. -/
theorem write_refines (fp : ℕ) (buf : List UInt8) (hb : 0 < st₀.blocks.size)
    (hc : run (kvfsCreate ip dp) st₀ = some (false, st₁))
    (hr : Run (Uses ip) (fun st u => u.Fits st) st₁ st) (hip : (st.file fp).fInode = ip) :
    ((st.file fp).fMode &&& O_WRONLY ≠ 0 → InRange st fp buf → ∃ st',
      run (kvfsWrite fp buf) st = some ((buf.length : ℤ), st') ∧ Refines st st' fp ip buf) ∧
    ((st.file fp).fMode &&& O_WRONLY = 0 → ∃ st', run (kvfsWrite fp buf) st = some (0, st') ∧
      content st' ip = content st ip ∧ (st'.inode ip).iSize = (st.inode ip).iSize) := by
  have hs := stored_of_uses hb hc hr
  constructor
  · intro hw h
    obtain ⟨st', hrun, hwrote, -⟩ := run_kvfsWrite buf hs hip hw h.1 h.2
    exact ⟨st', hrun, hwrote.refines h⟩
  · intro hw
    exact ⟨_, run_kvfsWrite_readonly hw, rfl, rfl⟩

def noFiles : State := { (default : State) with blocks := ⟨fun _ _ => 0, 1⟩ }

def writerAt (pos : ℤ) : Pool File := ⟨fun _ => ⟨0, 0, pos, O_WRONLY, some .kvfs⟩, 1⟩

def someUses : List Use := [.descriptors (writerAt 0), .write 0 [65, 66], .descriptors (writerAt 4)]

def fitting (st : State) (u : Use) : Option State := if u.Fits st then use 0 st u else none

theorem isSome_someUses :
    (replay fitting (noFiles.withFile 0 0 0) someUses).isSome = true := by decide +kernel

theorem fits_of_fitting {u : Use} (h : fitting st u = some st') : u.Fits st ∧ Uses 0 st u st' := by
  unfold fitting at h
  split at h
  · exact ⟨‹_›, h⟩
  · cases h

/-- The write after these uses leaves a hole. -/
theorem write_refines_run : ∃ st st', run (kvfsWrite 0 [67]) st = some (1, st') ∧
    content st 0 = [65, 66] ∧ content st' 0 = [65, 66, 0, 0, 67] := by
  let st : State := Option.get _ isSome_someUses
  have hc : run (kvfsCreate 0 0) noFiles = some (false, noFiles.withFile 0 0 0) := rfl
  have hr : Run (Uses 0) (fun st u => u.Fits st) (noFiles.withFile 0 0 0) st :=
    .of_replay fits_of_fitting (Option.some_get isSome_someUses).symm
  have hw : (st.file 0).fMode &&& O_WRONLY ≠ 0 := by decide +kernel
  have hfit : InRange st 0 [67] := by decide +kernel
  obtain ⟨st', hrun, h⟩ := (write_refines 0 [67] Nat.one_pos hc hr rfl).1 hw hfit
  have hold : content st 0 = [65, 66] := by decide +kernel
  refine ⟨st, st', hrun, hold, ?_⟩
  rw [h.content, hold]
  decide +kernel

end Writes

section Reads

variable {st st' st₀ : State} {t f ip pos : ℕ} {fd : ℤ}

/-- Successive reads of some sizes, and what each of them stores in the buffer. -/
def readAll (t : ℕ) (fd : ℤ) : List ℕ → Code (List (List UInt8))
  | [] => pure []
  | n :: ns => do
    let r ← vfsRead t fd n
    return r.2 :: (← readAll t fd ns)

/-- Consecutive parts of some sizes, from a position on. -/
def chunks (l : List UInt8) : ℕ → List ℕ → List (List UInt8)
  | _, [] => []
  | pos, n :: ns => slice l pos n :: chunks l (pos + (slice l pos n).length) ns

/-- A descriptor that is open on a file, at a position in the range of `int`. -/
structure Reader (st : State) (t : ℕ) (fd : ℤ) (f ip pos : ℕ) : Prop where
  stored : Stored st ip
  opened : OpenOn st t fd f .kvfs
  inode : (st.file f).fInode = ip
  position : (st.file f).fPos = pos
  range : pos < 2 ^ 31

theorem Reader.run_vfsRead (h : Reader st t fd f ip pos) (n : ℕ) :
    run (vfsRead t fd n) st =
      some ((toInt (endRead (slice (content st ip) pos n) n).length,
        endRead (slice (content st ip) pos n) n), st) := by
  rw [Vfs.run_vfsRead h.opened]
  exact run_kvfsRead h.stored h.inode h.position h.range

/-- Reads leave the file and the descriptor as they are. -/
theorem Reader.of_reads (h : Reader st₀ t fd f ip pos)
    (hr : Run (ReadsFrom t fd) (fun _ _ => True) st₀ st) : st = st₀ := by
  refine hr.invariant (I := fun st => st = st₀) rfl fun {st n st'} hst _ hread => ?_
  subst hst
  obtain ⟨r, hread⟩ := hread
  exact (run_inj hread (h.run_vfsRead n)).2

theorem endRead_slice_of_le {l : List UInt8} {n : ℕ} (h : l.length ≤ pos) :
    endRead (slice l pos n) n = if n = 0 then [] else [10] := by
  rw [slice_of_le h, endRead]
  by_cases hn : n = 0
  · simp [hn]
  · simp [hn, Nat.pos_of_ne_zero hn]

/-- After any reads through a descriptor, `vfs_read` returns the bytes of the file from the
position of the descriptor on, as many as the buffer takes or the file has, and a newline behind
them when the buffer takes more. The file stays as it is. -/
theorem read_slice (n : ℕ) (h : Reader st₀ t fd f ip pos)
    (hr : Run (ReadsFrom t fd) (fun _ _ => True) st₀ st) :
    content st ip = content st₀ ip ∧ ∃ (p : ℕ) (buf : List UInt8) (st' : State),
      (st.file f).fPos = p ∧ run (vfsRead t fd n) st = some ((toInt buf.length, buf), st') ∧
      buf = endRead (slice (content st ip) p n) n ∧
      (slice (content st ip) p n).length = min n ((content st ip).length - p) ∧
      ((content st ip).length ≤ p → buf = if n = 0 then [] else [10]) ∧
      content st' ip = content st ip := by
  obtain rfl := h.of_reads hr
  exact ⟨rfl, pos, _, st, h.position, h.run_vfsRead n, rfl, length_slice, endRead_slice_of_le, rfl⟩

/-- A file with the first `n` letters, and a descriptor at a position in it. -/
def letters (n pos : ℕ) : State := { (default : State) with
  inodes := ⟨fun _ => ⟨0, 0, 0, 0, n, .kvfs, some .kvfs⟩, 1⟩
  files := ⟨fun _ => ⟨0, 0, pos, O_RDONLY, some .kvfs⟩, 1⟩
  blocks := ⟨fun _ i => UInt8.ofNat (65 + i.toNat), 2⟩
  kvfsFiles := fun _ => ⟨true, ⟨1, 0⟩, ⟨1, n⟩⟩
  thread := fun _ => { (default : Thread) with fileDescriptors := fun _ => .file 0 } }

theorem reader_letters {n pos : ℕ} (hn : n < 2 ^ 31) (hpos : pos < 2 ^ 31) :
    Reader (letters n pos) 1 3 0 0 pos where
  stored := ⟨Int.natCast_nonneg n, Int.ofNat_lt.mpr hn, rfl, Nat.one_lt_two, fun h => (by cases h),
    congrArg (Ptr.mk 1) (Int.zero_add _).symm⟩
  opened := ⟨rfl, by decide, rfl, rfl⟩
  inode := rfl
  position := rfl
  range := hpos

/-- The second of two reads from the third letter on. -/
theorem read_slice_letters : ∃ st st',
    run (vfsRead 1 3 2) (letters 5 2) = some ((2, [67, 68]), st) ∧
      run (vfsRead 1 3 7) st = some ((4, [67, 68, 69, 10]), st') := by
  have hreader : Reader (letters 5 2) 1 3 0 0 2 := reader_letters (by decide) (by decide)
  have hhead : endRead (slice (content (letters 5 2) 0) 2 2) 2 = [67, 68] := by decide +kernel
  have hfirst : run (vfsRead 1 3 2) (letters 5 2) = some ((2, [67, 68]), letters 5 2) := by
    rw [hreader.run_vfsRead 2, hhead]
    rfl
  obtain ⟨-, p, buf, st', hp, hrun, hbuf, -⟩ :=
    read_slice 7 hreader (.tail .refl trivial ⟨_, hfirst⟩)
  obtain rfl : p = 2 := Int.ofNat_inj.mp hp.symm
  have hout : endRead (slice (content (letters 5 2) 0) 2 7) 7 = [67, 68, 69, 10] := by
    decide +kernel
  rw [hbuf, hout] at hrun
  exact ⟨_, st', hfirst, hrun⟩

/-- Successive reads do not just return consecutive parts of a file. -/
theorem reads_not_chunks : ¬ ∀ (st : State) (t : ℕ) (fd : ℤ) (f ip : ℕ),
    Reader st t fd f ip 0 → ∀ ns : List ℕ,
      (run (readAll t fd ns) st).map Prod.fst = some (chunks (content st ip) 0 ns) := by
  intro h
  exact absurd (h (letters 1 0) 1 3 0 0 (reader_letters (by decide) (by decide)) [2])
    (by decide +kernel)

end Reads

end NSOS.Vfs
