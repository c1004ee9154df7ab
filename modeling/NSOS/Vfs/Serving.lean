import NSOS.Vfs.Opening
import NSOS.Vfs.Reading

/-! # Calls on descriptors

`vfs_read`, `vfs_write` and `vfs_lseek` leave the work to the driver of the
open file. What each driver can change is stated once, for every argument.
-/

namespace NSOS.Vfs

open Basis Prog

section Calls

variable {st st' : State} {t n : ℕ} {fd offset whence ret : ℤ} {buf : List UInt8}
  {r : ℤ × List UInt8}

theorem openOn_of_fileOf {f : ℕ × Driver} (hstd : isStd fd = false)
    (hr : run (fileOf t fd) st = some (f, st')) : OpenOn st t fd f.1 f.2 ∧ st' = st := by
  obtain ⟨o, st₁, hopen, hr⟩ := run_bind_some hr
  have hentry : st₁ = st ∧ ∀ fp, o = some fp → (0 ≤ fd ∧ fd < MAX_FILE_PER_THREAD) ∧
      (st.thread t).fileDescriptors fd.toNat = .file fp := by
    rw [openFile] at hopen
    split at hopen
    case isFalse =>
      obtain ⟨rfl, rfl⟩ := Prod.mk.inj (Option.some.inj hopen)
      exact ⟨rfl, fun fp h => (by cases h)⟩
    case isTrue hrange =>
      rw [run_bind, run_gets, Option.bind_some] at hopen
      split at hopen
      case h_1 fp hfd =>
        obtain ⟨rfl, rfl⟩ := Prod.mk.inj (Option.some.inj hopen)
        exact ⟨rfl, fun fp' h => ⟨hrange, Option.some.inj h ▸ hfd⟩⟩
      case h_2 =>
        obtain ⟨rfl, rfl⟩ := Prod.mk.inj (Option.some.inj hopen)
        exact ⟨rfl, fun fp h => (by cases h)⟩
  obtain ⟨rfl, hentry⟩ := hentry
  cases o with
  | none => cases hr
  | some fp =>
    obtain ⟨hrange, hfd⟩ := hentry fp rfl
    rw [run_bind, run_demand, Option.map_some, Option.bind_some, run_bind, run_gets,
      Option.bind_some, run_bind, run_demand] at hr
    cases hop : (st₁.file fp).fOp with
    | none =>
      rw [hop] at hr
      cases hr
    | some d =>
      rw [hop] at hr
      obtain ⟨rfl, rfl⟩ := Prod.mk.inj (Option.some.inj hr)
      exact ⟨⟨hstd, hrange, hfd, hop⟩, rfl⟩

def State.served (st : State) (t : ℕ) (fd : ℤ) : Option (ℕ × Driver) :=
  if isStd fd then none else (run (fileOf t fd) st).map Prod.fst

theorem served_eq_some {f : ℕ} {d : Driver} :
    st.served t fd = some (f, d) ↔ OpenOn st t fd f d := by
  unfold State.served
  constructor
  · intro h
    split at h
    · cases h
    · obtain ⟨⟨p, st₁⟩, hrun, hp⟩ := Option.map_eq_some_iff.mp h
      obtain rfl : p = (f, d) := hp
      exact (openOn_of_fileOf (Bool.eq_false_iff.mpr ‹_›) hrun).1
  · intro h
    rw [h.user, if_neg Bool.false_ne_true, run_fileOf h.range h.entry h.driver]
    rfl

theorem served_by_driver {α : Type} {p : ℕ → Driver → Code α} {a : α} (hstd : isStd fd = false)
    (hr : run (do
      let (fp, fop) ← fileOf t fd
      let a ← p fp fop
      semSignal .vfsSem
      return a : Code α) st = some (a, st')) :
    ∃ f d, OpenOn st t fd f d ∧ run (p f d) st = some (a, st') := by
  obtain ⟨⟨f, d⟩, st₁, hfile, hrest⟩ := run_bind_some hr
  obtain ⟨hopen, rfl⟩ := openOn_of_fileOf hstd hfile
  obtain ⟨b, st₂, hp, hret⟩ := run_bind_some hrest
  obtain ⟨rfl, rfl⟩ := Prod.mk.inj (Option.some.inj hret)
  exact ⟨f, d, hopen, hp⟩

theorem vfsRead_cases (hr : run (vfsRead t fd n) st = some (r, st')) :
    (isStd fd = true ∧ r = (0, []) ∧ st' = st) ∨
      ∃ f d, OpenOn st t fd f d ∧ run (d.read f n) st = some (r, st') := by
  rw [vfsRead, run_bind, run_semWait, Option.bind_some] at hr
  split at hr
  case isTrue hstd =>
    obtain ⟨rfl, rfl⟩ := Prod.mk.inj (Option.some.inj hr)
    exact .inl ⟨hstd, rfl, rfl⟩
  case isFalse hstd => exact .inr (served_by_driver (Bool.eq_false_iff.mpr hstd) hr)

/-- All drivers seek in the same way. -/
theorem driver_llseek (d : Driver) (f : ℕ) (offset whence : ℤ) :
    d.llseek f offset whence = llseek f offset whence := by
  cases d <;> rfl

theorem vfsLseek_cases (hr : run (vfsLseek t fd offset whence) st = some (ret, st')) :
    (isStd fd = true ∧ ret = 0 ∧ st' = st) ∨
      ∃ f d, OpenOn st t fd f d ∧ run (llseek f offset whence) st = some (ret, st') := by
  rw [vfsLseek, run_bind, run_semWait, Option.bind_some] at hr
  split at hr
  case isTrue hstd =>
    obtain ⟨rfl, rfl⟩ := Prod.mk.inj (Option.some.inj hr)
    exact .inl ⟨hstd, rfl, rfl⟩
  case isFalse hstd =>
    simp only [driver_llseek] at hr
    exact .inr (served_by_driver (Bool.eq_false_iff.mpr hstd) hr)

theorem run_printAll (buf : List UInt8) (st : State) :
    ∃ out, run (printAll buf) st = some ((), { st with output := out }) := by
  induction buf generalizing st with
  | nil => exact ⟨st.output, rfl⟩
  | cons c buf ih =>
    obtain ⟨out, hout⟩ := ih { st with output := c :: st.output }
    exact ⟨out, hout⟩

theorem vfsWrite_cases (hr : run (vfsWrite t fd buf) st = some (ret, st')) :
    (isStd fd = true ∧ ∃ out, st' = { st with output := out }) ∨
      ∃ f d, OpenOn st t fd f d ∧ run (d.write f buf) st = some (ret, st') := by
  rw [vfsWrite, run_bind, run_semWait, Option.bind_some] at hr
  split at hr
  case isTrue hstd =>
    obtain ⟨out, hout⟩ := run_printAll buf st
    rw [run_bind, hout, Option.bind_some] at hr
    obtain ⟨rfl, rfl⟩ := Prod.mk.inj (Option.some.inj hr)
    refine .inl ⟨?_, out, rfl⟩
    rcases hstd with h | h <;> simp [isStd, h]
  case isFalse hout =>
    split at hr
    case isTrue hin =>
      refine .inr (served_by_driver ?_ hr)
      rw [not_or] at hout
      simp [isStd, hin, hout]
    case isFalse hin =>
      obtain ⟨rfl, rfl⟩ := Prod.mk.inj (Option.some.inj hr)
      exact .inl ⟨by simp [isStd, not_not.mp hin], st.output, rfl⟩

theorem OpenOn.unique {f' : ℕ} {d' : Driver} (h : OpenOn st t fd f d) (h' : OpenOn st t fd f' d') :
    f' = f ∧ d' = d := by
  obtain rfl : f' = f := Fd.file.inj (h'.entry.symm.trans h.entry)
  exact ⟨rfl, Option.some.inj (h'.driver.symm.trans h.driver)⟩

theorem OpenOn.write (h : OpenOn st t fd f d)
    (hr : run (vfsWrite t fd buf) st = some (ret, st')) :
    run (d.write f buf) st = some (ret, st') := by
  rcases vfsWrite_cases hr with ⟨hstd, -⟩ | ⟨f', d', h', hwrite⟩
  · rw [h.user] at hstd
    cases hstd
  · obtain ⟨rfl, rfl⟩ := h.unique h'
    exact hwrite

theorem vfsClose_cases (hr : run (vfsClose t fd) st = some (ret, st')) :
    st' = st ∨ ∃ f, 0 ≤ fd ∧ (st.thread t).fileDescriptors fd.toNat = .file f ∧
      st' = { st with freed := .file f :: st.freed }.withFd t fd.toNat .null := by
  rw [vfsClose] at hr
  split at hr
  case isTrue =>
    obtain ⟨rfl, rfl⟩ := Prod.mk.inj (Option.some.inj hr)
    exact .inl rfl
  case isFalse =>
    split at hr
    case isTrue hrange =>
      rw [run_bind, run_gets, Option.bind_some] at hr
      split at hr
      case h_1 f hfd =>
        obtain ⟨rfl, rfl⟩ := Prod.mk.inj (Option.some.inj hr)
        exact .inr ⟨f, hrange.1, hfd, rfl⟩
      case h_2 =>
        obtain ⟨rfl, rfl⟩ := Prod.mk.inj (Option.some.inj hr)
        exact .inl rfl
    case isFalse => cases hr

end Calls

section Reads

variable {α β : Type} {p : Code α} {f : α → Code β} {st st' : State} {fp n count : ℕ}
  {k len : ℤ} {q : Ptr} {buf : List UInt8} {d : Driver} {r : ℤ × List UInt8}

class Idle (p : Code α) : Prop where
  same : ∀ {st a st'}, run p st = some (a, st') → st' = st

instance idle_pure (a : α) : Idle (pure a : Code α) where
  same h := (Prod.mk.inj (Option.some.inj h)).2.symm

instance idle_gets (g : State → α) : Idle (gets g) where
  same h := (Prod.mk.inj (Option.some.inj h)).2.symm

instance idle_demand (o : Option α) : Idle (demand o) where
  same h := by
    cases o with
    | none => cases h
    | some a => exact (Prod.mk.inj (Option.some.inj h)).2.symm

instance idle_semSignal : Idle (semSignal .vfsSem) where
  same h := (Prod.mk.inj (Option.some.inj h)).2.symm

instance idle_bind [hp : Idle p] [hf : ∀ a, Idle (f a)] : Idle (p >>= f) where
  same h := by
    obtain ⟨a, st₁, h₁, h₂⟩ := run_bind_some h
    exact ((hf a).same h₂).trans (hp.same h₁)

instance idle_ite {c : Prop} [Decidable c] {p q : Code α} [Idle p] [Idle q] :
    Idle (if c then p else q) := by split <;> infer_instance

instance idle_kvfsReadLoop : Idle (kvfsReadLoop fp n q buf) := by
  have : ∀ q, Idle (load q) := fun q => idle_gets _
  induction n generalizing q buf with
  | zero => exact idle_pure buf
  | succ n ih => unfold kvfsReadLoop; infer_instance

instance idle_procReadLoop : Idle (procReadLoop len n k buf) := by
  induction n generalizing k buf with
  | zero => exact idle_pure buf
  | succ n ih => unfold procReadLoop; infer_instance

instance idle_kvfsRead : Idle (kvfsRead fp count) := by unfold kvfsRead; infer_instance

instance idle_dentryIno : Idle (dentryIno fp) := by unfold dentryIno; infer_instance

instance idle_devfsRead : Idle (devfsRead fp count) := by unfold devfsRead; infer_instance

instance idle_devfsWrite : Idle (devfsWrite fp buf) := by unfold devfsWrite; infer_instance

theorem run_procReadLoop (hlen : 0 ≤ len) (hk : k ≤ len ∨ k < 2 ^ 31) :
    ∃ m ≤ n, (∀ j : ℕ, j < m → k + j < len) ∧ run (procReadLoop len n k buf) st =
      some (buf ++ (List.range m).map fun j : ℕ => st.filebuf (k + j), st) := by
  induction n generalizing k buf with
  | zero => exact ⟨0, le_rfl, fun j hj => absurd hj (Nat.not_lt_zero j), by simp [procReadLoop]⟩
  | succ n ih =>
    rw [procReadLoop]
    split
    case isFalse => exact ⟨0, Nat.zero_le _, fun j hj => absurd hj (Nat.not_lt_zero j), by simp⟩
    case isTrue hpos =>
      have hlt : k < len := by
        by_contra hge
        have hle : toInt (len - k) ≤ 0 := by
          by_cases heq : k = len
          · rw [heq, Int.sub_self]
            decide
          · rw [toInt_of_range (by omega) (by omega)]
            omega
        omega
      obtain ⟨m, hm, hin, hrun⟩ := @ih (k + 1) (buf ++ [st.filebuf k]) (.inl (by omega))
      refine ⟨m + 1, by omega, fun j hj => ?_, ?_⟩
      · rcases j with _ | j
        · simpa using hlt
        · have := hin j (by omega)
          omega
      · rw [run_bind, run_gets, Option.bind_some, hrun, List.range_succ_eq_map, List.map_cons,
          List.map_map]
        simp [Function.comp_def, Int.add_assoc, Int.add_comm 1]

theorem run_procRead (h₁ : 0 ≤ (st.file fp).fPos) (h₂ : (st.file fp).fPos < 2 ^ 31)
    (hr : run (procRead fp count) st = some (r, st')) :
    (r = (-1, []) ∧ st' = st) ∨ (∃ b, st' = { st with filebuf := b }) ∧ ∃ m ≤ count,
      let text := st.procText (st.inode (st.file fp).fInode).iIno
      (∀ j : ℕ, j < m → (st.file fp).fPos + j < text.length) ∧
        r.2 = endRead ((List.range m).map fun j : ℕ =>
          text.getD ((st.file fp).fPos + j).toNat 0) count := by
  simp only [procRead, run_bind, run_gets, Option.bind_some] at hr
  split at hr
  case isTrue =>
    obtain ⟨rfl, rfl⟩ := Prod.mk.inj (Option.some.inj hr)
    exact .inl ⟨rfl, rfl⟩
  case isFalse =>
    set text := st.procText (st.inode (st.file fp).fInode).iIno with htext
    set k := (st.file fp).fPos with hk
    let b : ℤ → UInt8 := fun i =>
      if 0 ≤ i ∧ i ≤ text.length then text.getD i.toNat 0 else st.filebuf i
    have hread : ∃ m ≤ count, (∀ j : ℕ, j < m → k + j < text.length) ∧
        run (procReadLoop text.length count k []) { st with filebuf := b } =
          some ([] ++ (List.range m).map fun j : ℕ => b (k + j), { st with filebuf := b }) :=
      run_procReadLoop (by omega) (.inr h₂)
    obtain ⟨m, hm, hin, hloop⟩ := hread
    simp only [run_bind, run_gets, run_modify, run_pure, Option.bind_some] at hr
    rw [hloop, Option.bind_some, List.nil_append] at hr
    obtain ⟨rfl, rfl⟩ := Prod.mk.inj (Option.some.inj hr)
    refine .inr ⟨⟨b, rfl⟩, m, hm, hin, ?_⟩
    have hmap : (List.range m).map (fun j : ℕ => b (k + j)) =
        (List.range m).map fun j : ℕ => text.getD (k + j).toNat 0 := by
      refine List.map_congr_left fun j hj => if_pos ?_
      have := hin j (List.mem_range.mp hj)
      omega
    exact congrArg (endRead · count) hmap

theorem run_driver_read (hr : run (d.read fp count) st = some (r, st')) :
    ∃ b, st' = { st with filebuf := b } := by
  cases d with
  | kvfs => exact ⟨st.filebuf, idle_kvfsRead.same hr⟩
  | devfs => exact ⟨st.filebuf, idle_devfsRead.same hr⟩
  | procfs =>
    simp only [Driver.read, procRead, run_bind, run_gets, Option.bind_some] at hr
    split at hr
    case isTrue =>
      obtain ⟨rfl, rfl⟩ := Prod.mk.inj (Option.some.inj hr)
      exact ⟨st.filebuf, rfl⟩
    case isFalse =>
      rw [run_bind, run_gets, Option.bind_some, run_bind, run_gets, Option.bind_some, run_bind,
        run_modify, Option.bind_some] at hr
      obtain ⟨buf, st₁, hloop, hret⟩ := run_bind_some hr
      obtain ⟨-, rfl⟩ := Prod.mk.inj (Option.some.inj hret)
      exact ⟨_, idle_procReadLoop.same hloop⟩

end Reads

section Seeks

variable {st st' : State} {fp : ℕ} {offset whence pos : ℤ} {ret : ℤ}

/-- Where a seek leads to, unless its origin is unknown. -/
def State.target (st : State) (fp : ℕ) (offset whence : ℤ) : Option ℤ :=
  if whence = SEEK_SET then some offset
  else if whence = SEEK_CUR then some ((st.file fp).fPos + offset)
  else if whence = SEEK_END then some ((st.inode (st.file fp).fInode).iSize + offset)
  else none

theorem run_llseek_none (h : st.target fp offset whence = none) :
    run (llseek fp offset whence) st = some (-1, st) := by
  unfold State.target at h
  unfold llseek
  split at h
  · cases h
  · split at h
    · cases h
    · split at h
      · cases h
      · rw [if_neg ‹_›, if_neg ‹_›, if_neg ‹_›]
        rfl

theorem run_llseek (h : st.target fp offset whence = some pos) (h₁ : 0 ≤ pos)
    (h₂ : pos < 2 ^ 31) : run (llseek fp offset whence) st = some (pos, st.seek fp pos) := by
  have hint : toInt pos = pos := toInt_of_range (by omega) h₂
  have hdone : ∀ g : File → ℤ, g (st.file fp) = pos → run (do
      setFile fp fun f => { f with fPos := g f }
      gets fun st => (st.file fp).fPos : Code ℤ) st = some (pos, st.seek fp pos) := by
    intro g hg
    have hseek : { st with files := st.files.set fp fun f => { f with fPos := g f } } =
        st.seek fp pos := by
      rw [← hg]
      rfl
    rw [setFile, run_bind, run_modify, Option.bind_some, run_gets, hseek]
    simp [State.seek, State.file]
  unfold State.target at h
  unfold llseek
  split at h
  · obtain rfl := Option.some.inj h
    rw [if_pos ‹_›]
    exact hdone (fun _ => offset) rfl
  · rw [if_neg ‹_›]
    split at h
    · obtain rfl := Option.some.inj h
      rw [if_pos ‹_›]
      exact hdone (fun f => toInt (f.fPos + offset)) hint
    · rw [if_neg ‹_›]
      split at h
      · obtain rfl := Option.some.inj h
        rw [if_pos ‹_›]
        exact hdone (fun _ => toInt ((st.inode (st.file fp).fInode).iSize + offset)) hint
      · cases h

theorem llseek_cases (hr : run (llseek fp offset whence) st = some (ret, st')) :
    st' = st ∨ ∃ pos, st' = st.seek fp pos := by
  rw [llseek] at hr
  split at hr
  · obtain ⟨-, rfl⟩ := Prod.mk.inj (Option.some.inj hr)
    exact .inr ⟨_, rfl⟩
  · split at hr
    · obtain ⟨-, rfl⟩ := Prod.mk.inj (Option.some.inj hr)
      exact .inr ⟨_, rfl⟩
    · split at hr
      · obtain ⟨-, rfl⟩ := Prod.mk.inj (Option.some.inj hr)
        exact .inr ⟨_, rfl⟩
      · obtain ⟨-, rfl⟩ := Prod.mk.inj (Option.some.inj hr)
        exact .inl rfl

end Seeks

section Writes

variable {st st' : State} {fp ip n : ℕ} {k ret : ℤ} {p q : Ptr} {buf : List UInt8}

theorem obj_fill_of_ne {g : ℕ → UInt8} {b : ℕ} (h : b ≠ p.base) :
    (st.fill p n g).blocks.obj b = st.blocks.obj b :=
  Pool.obj_set_of_ne st.blocks p.base b (fun b => fillBytes b p.off n g) h

theorem run_memcpy_blocks (st : State) (p q : Ptr) (n : ℕ) : ∃ B, B.size = st.blocks.size ∧
    (∀ b ≠ p.base, B.obj b = st.blocks.obj b) ∧
      run (memcpy p q n) st = some ((), { st with blocks := B }) := by
  induction n generalizing st with
  | zero => exact ⟨st.blocks, rfl, fun _ _ => rfl, rfl⟩
  | succ n ih =>
    obtain ⟨B, hB, hobj, hrun⟩ := ih (st.fill (p.add n) 1 fun _ => st.byte (q.add n))
    refine ⟨B, hB, fun b hb => (hobj b hb).trans (obj_fill_of_ne hb), ?_⟩
    have hload : run (load (q.add n)) st = some (st.byte (q.add n), st) := rfl
    rw [memcpy, run_bind, hload, Option.bind_some, run_bind, run_store, Option.bind_some, hrun]
    rfl

def Grows (st : State) (fp : ℕ) (buf : List UInt8) : Prop :=
  toU32 (st.inode (st.file fp).fInode).iSize < toU32 (st.writePos fp + buf.length)

instance : Decidable (Grows st fp buf) := inferInstanceAs (Decidable (_ < _))

/-- What a write can change, whatever the sizes are. It keeps the storage of the file, or it moves
the file to a new block and gives back the old one. -/
structure Rewrote (st st' : State) (fp ip : ℕ) (buf : List UInt8) : Prop where
  frame : ∃ B K F size pos, st' = { st with
    blocks := B
    kvfsFiles := K
    freed := F
    files := st.files.set fp fun f => { f with fPos := pos }
    inodes := st.inodes.set ip fun i => { i with iSize := size } }
  table : ∀ k ≠ (st.inode ip).iIno, st'.kvfsFiles k = st.kvfsFiles k
  inuse : (st'.node ip).inuse = (st.node ip).inuse
  bytes : ∀ b ≠ (st'.node ip).start.base, st'.blocks.obj b = st.blocks.obj b
  storage : ((st'.node ip).start = (st.node ip).start ∧ st'.blocks.size = st.blocks.size ∧
      st'.freed = st.freed ∧ (st'.inode ip).iSize = (st.inode ip).iSize) ∨
    Grows st fp buf ∧ (st'.node ip).start = ⟨st.blocks.size, 0⟩ ∧
      st'.blocks.size = st.blocks.size + 1 ∧
        st'.freed = if (st.node ip).start = .null then st.freed
          else .block (st.node ip).start.base :: st.freed

theorem run_raiseSize_size (st : State) (ip : ℕ) (k : ℤ) : ∃ size,
    (¬ toU32 (st.inode ip).iSize < toU32 k → size = (st.inode ip).iSize) ∧ run (raiseSize ip k) st =
      some ((), { st with inodes := st.inodes.set ip fun i => { i with iSize := size } }) := by
  rw [raiseSize, run_bind, run_gets, Option.bind_some]
  split
  case isTrue hlt => exact ⟨toInt k, fun hle => absurd hlt hle, rfl⟩
  case isFalse =>
    refine ⟨(st.inode ip).iSize, fun _ => rfl, ?_⟩
    rw [Pool.set_id]
    · rfl
    · rfl

theorem run_kvfsStore_storage (st : State) (fp : ℕ) (buf : List UInt8) (start last : Ptr) :
    ∃ B size pos ret, B.size = st.blocks.size ∧ (∀ b ≠ start.base, B.obj b = st.blocks.obj b) ∧
      (¬ toU32 (st.inode (st.file fp).fInode).iSize < toU32 ((st.file fp).fPos + buf.length) →
        size = (st.inode (st.file fp).fInode).iSize) ∧ run (kvfsStore fp buf start last) st =
      some (ret, { st.keep (st.file fp).fInode start last with
        blocks := B
        files := st.files.set fp fun f => { f with fPos := pos }
        inodes := st.inodes.set (st.file fp).fInode fun i => { i with iSize := size } }) := by
  let ip := (st.file fp).fInode
  let st₁ : State := st.fill (start.add (st.file fp).fPos) (toInt buf.length).toNat fun i =>
    buf.getD i 0
  obtain ⟨size, hkept, hsize⟩ := run_raiseSize_size st₁ ip ((st.file fp).fPos + buf.length)
  let st₂ : State :=
    { st₁ with inodes := st₁.inodes.set ip fun i => { i with iSize := size } }
  have hinode : st₂.inode ip = { st.inode ip with iSize := size } := by
    simp [st₂, st₁, State.inode, State.fill]
  have hkeep : st₂.keep ip start last = { st.keep ip start last with
      blocks := st₂.blocks
      inodes := st₂.inodes } := by
    rw [State.keep, State.keep, State.node, hinode]
    rfl
  refine ⟨st₁.blocks, size, toInt ((st.file fp).fPos + buf.length), toInt buf.length, rfl,
    fun b hb => obj_fill_of_ne hb, hkept, ?_⟩
  have hfile : (st₁.file fp).fInode = ip := rfl
  simp only [kvfsStore, run_bind, run_gets, Option.bind_some, run_memcpyFrom]
  rw [hfile, hsize, Option.bind_some]
  change some (toInt buf.length, { st₂.keep ip start last with
    files := st.files.set fp fun f => { f with fPos := toInt (f.fPos + buf.length) } }) = _
  rw [hkeep]
  rfl

theorem run_kvfsGrow_storage (st : State) (fp count : ℕ) : ∃ B last, B.size = st.blocks.size + 1 ∧
    (∀ b ≠ st.blocks.size, B.obj b = st.blocks.obj b) ∧
    run (kvfsGrow fp count) st = some ((⟨st.blocks.size, 0⟩, last), { st with
      blocks := B
      freed := if (st.node (st.file fp).fInode).start = .null then st.freed
        else .block (st.node (st.file fp).fInode).start.base :: st.freed }) := by
  let st₁ : State := { st with blocks := st.blocks.grow }
  let n := (toInt ((st.file fp).fPos + count)).toNat
  let st₂ : State := st₁.fill ⟨st.blocks.size, 0⟩ n fun _ => 0
  have hfill : ∀ b ≠ st.blocks.size, st₂.blocks.obj b = st.blocks.obj b := fun b hb =>
    obj_fill_of_ne (p := ⟨st.blocks.size, 0⟩) hb
  have halloc : run allocBlock st = some (⟨st.blocks.size, 0⟩, st₁) := rfl
  have hnode : (st₂.kvfsFiles (st₂.inode (st₂.file fp).fInode).iIno).start =
      (st.node (st.file fp).fInode).start := rfl
  simp only [kvfsGrow, run_bind, run_gets, Option.bind_some, halloc, run_memset]
  change ∃ B last, _ ∧ _ ∧ run (if (st₂.kvfsFiles (st₂.inode (st₂.file fp).fInode).iIno).start ≠
    .null then _ else _) st₂ = _
  rw [hnode]
  by_cases hnull : (st.node (st.file fp).fInode).start = .null
  · rw [if_neg (not_not.mpr hnull), if_pos hnull]
    exact ⟨st₂.blocks, _, rfl, fun b hb => hfill b hb, rfl⟩
  · rw [if_pos hnull, if_neg hnull, run_bind, run_gets, Option.bind_some]
    obtain ⟨B, hB, hobj, hcopy⟩ := run_memcpy_blocks st₂ ⟨st.blocks.size, 0⟩
      (st.node (st.file fp).fInode).start (st₂.inode (st₂.file fp).fInode).iSize.toNat
    rw [run_bind, hcopy, Option.bind_some]
    exact ⟨B, _, hB, fun b hb => (hobj b hb).trans (hfill b hb), rfl⟩

theorem run_kvfsWrite_cases (hw : (st.file fp).fMode &&& O_WRONLY ≠ 0)
    (hr : run (kvfsWrite fp buf) st = some (ret, st')) :
    (¬ Grows st fp buf ∧ run (kvfsStore fp buf (st.node (st.file fp).fInode).start
      (st.node (st.file fp).fInode).endPtr) (st.seek fp (st.writePos fp)) = some (ret, st')) ∨
    Grows st fp buf ∧ ∃ B last, B.size = st.blocks.size + 1 ∧
      (∀ b ≠ st.blocks.size, B.obj b = st.blocks.obj b) ∧
        run (kvfsStore fp buf ⟨st.blocks.size, 0⟩ last) { st.seek fp (st.writePos fp) with
          blocks := B
          freed := if (st.node (st.file fp).fInode).start = .null then st.freed
            else .block (st.node (st.file fp).fInode).start.base :: st.freed } =
          some (ret, st') := by
  let s₀ := st.seek fp (st.writePos fp)
  have hfile : s₀.file fp = { st.file fp with fPos := st.writePos fp } := by
    simp [s₀, State.file, State.seek]
  simp only [kvfsWrite, run_bind, run_gets, Option.bind_some, run_seekAppend, if_neg hw] at hr
  change run (if toU32 (s₀.inode (s₀.file fp).fInode).iSize <
    toU32 ((s₀.file fp).fPos + buf.length) then _ else _) s₀ = _ at hr
  split at hr
  case isTrue hgrow =>
    rw [hfile] at hgrow
    obtain ⟨B, last, hB, hnew, hrun⟩ := run_kvfsGrow_storage s₀ fp buf.length
    rw [run_bind, hrun, Option.bind_some, hfile] at hr
    exact .inr ⟨hgrow, B, last, hB, hnew, hr⟩
  case isFalse hfits =>
    rw [hfile] at hfits
    exact .inl ⟨hfits, hr⟩

theorem run_kvfsStore_rewrites (hip : (st.file fp).fInode = ip) {B : Pool (ℤ → UInt8)}
    {F : List Obj} {start last : Ptr} (hr : run (kvfsStore fp buf start last)
      { st.seek fp (st.writePos fp) with blocks := B, freed := F } = some (ret, st')) :
    (∃ B K F size pos, st' = { st with
      blocks := B
      kvfsFiles := K
      freed := F
      files := st.files.set fp fun f => { f with fPos := pos }
      inodes := st.inodes.set ip fun i => { i with iSize := size } }) ∧
    (∀ k ≠ (st.inode ip).iIno, st'.kvfsFiles k = st.kvfsFiles k) ∧
    st'.node ip = { st.node ip with start := start, endPtr := last } ∧
    st'.blocks.size = B.size ∧ (∀ b ≠ start.base, st'.blocks.obj b = B.obj b) ∧ st'.freed = F ∧
      (¬ Grows st fp buf → (st'.inode ip).iSize = (st.inode ip).iSize) := by
  let s₀ := st.seek fp (st.writePos fp)
  obtain ⟨B', size, pos, ret', hB, hobj, hsize, hstore⟩ := run_kvfsStore_storage
    { s₀ with blocks := B, freed := F } fp buf start last
  obtain ⟨-, rfl⟩ := run_inj hr hstore
  have hip₁ : (({ s₀ with blocks := B, freed := F } : State).file fp).fInode = ip := by
    rw [← hip]
    simp [s₀, State.file, State.seek]
  have hpos₁ : (({ s₀ with blocks := B, freed := F } : State).file fp).fPos = st.writePos fp := by
    simp [s₀, State.file, State.seek]
  rw [hip₁, hpos₁] at hsize
  rw [hip₁]
  refine ⟨⟨B', (st.keep ip start last).kvfsFiles, F, size, pos, ?_⟩, fun k hk => ?_, ?_, hB, hobj,
    rfl, fun hgrow => ?_⟩
  · simp only [State.keep, s₀, State.seek, Pool.set_set]
    rfl
  · exact Function.update_of_ne hk _ _
  · simp [State.node, State.keep, State.inode, s₀, State.seek]
  · rw [Grows, hip] at hgrow
    simpa [State.inode, State.keep, s₀, State.seek] using hsize hgrow

theorem run_kvfsWrite_storage (hw : (st.file fp).fMode &&& O_WRONLY ≠ 0)
    (hr : run (kvfsWrite fp buf) st = some (ret, st')) :
    Rewrote st st' fp (st.file fp).fInode buf := by
  rcases run_kvfsWrite_cases hw hr with ⟨hfits, hr⟩ | ⟨hgrow, B, last, hB, hnew, hr⟩
  · obtain ⟨hframe, htable, hn, hblocks, hobj, hfreed, hsize⟩ := run_kvfsStore_rewrites rfl hr
    refine ⟨hframe, htable, by rw [hn], fun b hb => ?_,
      .inl ⟨by rw [hn], hblocks, hfreed, hsize hfits⟩⟩
    rw [hn] at hb
    exact hobj b hb
  · obtain ⟨hframe, htable, hn, hblocks, hobj, hfreed, -⟩ := run_kvfsStore_rewrites rfl hr
    refine ⟨hframe, htable, by rw [hn], fun b hb => ?_,
      .inr ⟨hgrow, by rw [hn], hblocks.trans hB, hfreed⟩⟩
    rw [hn] at hb
    exact (hobj b hb).trans (hnew b hb)

/-- Whatever a file is opened for, a write changes storage, the size of one inode and the position
of the file. -/
theorem run_kvfsWrite_frame (hr : run (kvfsWrite fp buf) st = some (ret, st')) :
    ∃ B K F size pos, st' = { st with
      blocks := B
      kvfsFiles := K
      freed := F
      files := st.files.set fp fun f => { f with fPos := pos }
      inodes := st.inodes.set (st.file fp).fInode fun i => { i with iSize := size } } := by
  by_cases hw : (st.file fp).fMode &&& O_WRONLY = 0
  · obtain ⟨-, rfl⟩ := run_inj hr (run_kvfsWrite_readonly hw)
    have hsize : st.inodes.set (st.file fp).fInode (fun i => { i with
        iSize := (st.inode (st.file fp).fInode).iSize }) = st.inodes := Pool.set_id _ _ _ rfl
    refine ⟨st.blocks, st.kvfsFiles, st.freed, (st.inode (st.file fp).fInode).iSize,
      st.writePos fp, ?_⟩
    rw [hsize]
    rfl
  · exact (run_kvfsWrite_storage hw hr).frame

end Writes

end NSOS.Vfs
