import NSOS.Vfs.ByteArray
import NSOS.Vfs.Storage

/-! # Positions of open files

`llseek` takes every offset, so a file can be moved in front of its first byte
and behind the range of `int`. As long as no seek and no write leaves the
range, reads copy bytes of the file only, and writes store bytes inside it.
-/

namespace NSOS.Vfs

open Basis Prog

section Bounds

/-- A seek in a file that has a position leads into the range of `int`, and a write to a regular
file ends there. -/
def InBounds (st : State) : Op → Prop
  | .call t (.lseek fd offset whence) => ∀ f d, OpenOn st t fd f d → d ≠ .devfs →
    ∀ pos, st.target f offset whence = some pos → 0 ≤ pos ∧ pos < 2 ^ 31
  | .call t (.write fd buf) => ∀ f, OpenOn st t fd f .kvfs → (st.file f).fMode &&& O_WRONLY ≠ 0 →
    st.writePos f + buf.length < 2 ^ 31
  | op => Proper st op

variable {st st' : State} {t f i ip : ℕ} {fd : ℤ} {d : Driver} {op : Op} {buf : List UInt8}

instance : Decidable (InBounds st op) :=
  match op with
  | .call t (.lseek fd offset whence) =>
    decidable_of_iff (∀ p ∈ st.served t fd, p.2 ≠ .devfs →
        ∀ pos ∈ st.target p.1 offset whence, 0 ≤ pos ∧ pos < 2 ^ 31)
      ⟨fun h f d ho => h (f, d) (served_eq_some.mpr ho),
        fun h p hp => h p.1 p.2 (served_eq_some.mp hp)⟩
  | .call t (.write fd buf) =>
    decidable_of_iff (∀ p ∈ st.served t fd, p.2 = .kvfs → (st.file p.1).fMode &&& O_WRONLY ≠ 0 →
        st.writePos p.1 + buf.length < 2 ^ 31)
      ⟨fun h f ho => h (f, .kvfs) (served_eq_some.mpr ho) rfl,
        fun h p hp hd => h p.1 (hd ▸ served_eq_some.mp hp)⟩
  | .call _ (.mount _ fs) => inferInstanceAs (Decidable (fs < st.fsTypes.size))
  | .newFs f => inferInstanceAs (Decidable f.Genuine)
  | .call _ (.access ..) | .call _ (.unmount _) | .call _ (.open ..) | .call _ (.read ..)
  | .call _ (.mkdir ..) | .close .. | .create _ | .teardown .. | .world .. =>
    inferInstanceAs (Decidable True)

theorem InBounds.proper (h : InBounds st op) : Proper st op := by
  apply Proper.intro
  · rintro t path fs rfl
    exact h
  · rintro f rfl
    exact h

/-- Files have the storage for their size, and the positions of open files are in range. -/
structure Ranged (st : State) : Prop where
  stored : ∀ {i}, st.IsFile i → Stored st i
  position : ∀ {f}, f < st.files.size → (st.file f).fOp ≠ some .devfs →
    0 ≤ (st.file f).fPos ∧ (st.file f).fPos < 2 ^ 31

theorem Stored.congr (hs : Stored st i) (hinode : st'.inode i = st.inode i)
    (hnode : st'.node i = st.node i) (hblocks : st.blocks.size ≤ st'.blocks.size) :
    Stored st' i := by
  constructor
  · rw [hinode]
    exact hs.nonneg
  · rw [hinode]
    exact hs.lt
  · rw [hnode]
    exact hs.off
  · rw [hnode]
    exact hs.fresh.trans_le hblocks
  · rw [hnode, hinode]
    exact hs.empty
  · rw [hnode, hinode]
    exact hs.endPtr

theorem Ranged.writePos (h : Ranged st) (hh : Held st) (ht : st.Running t)
    (ho : OpenOn st t fd f .kvfs) : 0 ≤ st.writePos f ∧ st.writePos f < 2 ^ 31 := by
  unfold State.writePos
  split
  · have hs := h.stored (hh.isFile ht ho)
    exact ⟨hs.nonneg, hs.lt⟩
  · refine h.position (hh.openOn ht ho) ?_
    rw [ho.driver]
    decide

theorem Stored.wrote {ret : ℤ} (hs : Stored st (st.file f).fInode)
    (hw : (st.file f).fMode &&& O_WRONLY ≠ 0) (hin : InRange st f buf)
    (hr : run (kvfsWrite f buf) st = some (ret, st')) :
    Wrote st st' f (st.file f).fInode (st.writePos f) buf ∧
      StoresInside st st' (st.file f).fInode := by
  obtain ⟨st₁, hrun, hwrote⟩ := run_kvfsWrite buf hs rfl hw hin.1 hin.2
  obtain ⟨-, rfl⟩ := run_inj hr hrun
  exact hwrote

theorem Effect.stored (he : Effect st op st') (hs : Settled st)
    (hstored : ∀ {i}, st.IsFile i → Stored st i)
    (hin : ∀ t fd f buf, op = .call t (.write fd buf) → st.Running t → OpenOn st t fd f .kvfs →
      (st.file f).fMode &&& O_WRONLY ≠ 0 → InRange st f buf) (hi : st'.IsFile i) :
    Stored st' i := by
  rcases he.files hs.filed with ⟨t, mode, st₁, hk, hsame⟩ | ⟨t, fd, f, z, buf, hop, ht, ho, hw, hr⟩
  · rw [hsame.isFile] at hi
    have hfile : Stored st₁ i := by
      rcases hk.cases hi with hold | ⟨s, -, -, -, hslot, hnew⟩
      · exact (hstored hold).congr (hk.inode hold.1.1) (hk.node hs.filed hold) (by rw [hk.rest])
      · have hpos := (hk.filed hs.filed).blocks_pos
        have hnode : st₁.node i = ⟨true, .null, .null⟩ := by
          rw [State.node, hnew]
          exact hslot
        constructor <;> simp [hnew, hnode, newFile, Ptr.null, Ptr.add, hpos]
    exact hfile.congr (hsame.inode hi) (hsame.node hi) (hsame.blocks ▸ le_rfl)
  · have hre := run_kvfsWrite_storage hw hr
    have hip := hs.held.isFile ht ho
    by_cases hne : i = (st.file f).fInode
    · rw [hne]
      exact ((hstored hip).wrote hw (hin t fd f buf hop ht ho hw) hr).1.stored
    · have hi₀ := (hre.isFile i).mp hi
      exact (hstored hi₀).congr ((hre.iIno i).2.2 hne) (hre.node hs.filed hip hi₀ hne)
        hre.blocks_le

theorem position_moved {pos : ℤ} (hfiles : st'.files = st.files.set f fun g =>
      { g with fPos := pos }) (hpos : (st.file f).fOp ≠ some .devfs → 0 ≤ pos ∧ pos < 2 ^ 31)
    (h : Ranged st) {g : ℕ} (hg : g < st'.files.size) (hd : (st'.file g).fOp ≠ some .devfs) :
    0 ≤ (st'.file g).fPos ∧ (st'.file g).fPos < 2 ^ 31 := by
  rw [hfiles] at hg
  rw [State.file, hfiles, Pool.obj_set] at hd ⊢
  split at hd
  case isTrue hgf =>
    rw [if_pos hgf]
    exact hpos hd
  case isFalse hgf =>
    rw [if_neg hgf]
    exact h.position hg hd

theorem Ranged.effect (h : Ranged st) (hs : Settled st) (hin : InBounds st op)
    (he : Effect st op st') : Ranged st' := by
  constructor
  case stored =>
    intro i hi
    refine he.stored hs h.stored (fun t fd f buf hop ht ho hw => ?_) hi
    subst hop
    exact ⟨(h.writePos hs.held ht ho).1, hin f ho hw⟩
  case position =>
    rcases he.opens_or_moves with hfiles | ⟨t, path, flags, st₁, d, ip, nd, -, hopened⟩ |
        ⟨t, fd, f, buf, ret, rfl, ht, ho, hr⟩ | ⟨t, fd, f, d, offset, whence, ret, rfl, ho, hr⟩
    · intro g hg hd
      rw [State.file, hfiles] at hd ⊢
      exact h.position (hfiles ▸ hg) hd
    · intro g hg hd
      rw [hopened.files] at hg
      have hg : g < st.files.size + 1 := hg
      rw [State.file, hopened.files] at hd ⊢
      by_cases hold : g < st.files.size
      · rw [Pool.obj_set_of_ne _ _ _ _ hold.ne] at hd ⊢
        exact h.position hold hd
      · obtain rfl : g = st.files.size := by omega
        rw [Pool.obj_set_self]
        exact ⟨le_rfl, Int.pow_pos (by decide)⟩
    · intro g hg hd
      have hpos := h.writePos hs.held ht ho
      by_cases hw : (st.file f).fMode &&& O_WRONLY = 0
      · obtain ⟨-, rfl⟩ := run_inj hr (run_kvfsWrite_readonly hw)
        exact position_moved rfl (fun _ => hpos) h hg hd
      · have hend := hin f ho hw
        obtain ⟨B, K, F, hst⟩ :=
          ((h.stored (hs.held.isFile ht ho)).wrote hw ⟨hpos.1, hend⟩ hr).1.frame
        exact position_moved (by rw [hst]) (fun _ => ⟨by omega, hend⟩) h hg hd
    · intro g hg hnd
      cases htarget : st.target f offset whence with
      | none =>
        obtain ⟨-, rfl⟩ := run_inj hr (run_llseek_none htarget)
        exact h.position hg hnd
      | some pos =>
        by_cases hd : d = .devfs
        · rcases llseek_cases hr with rfl | ⟨pos', rfl⟩
          · exact h.position hg hnd
          · exact position_moved rfl (fun hne => absurd (hd ▸ ho.driver) hne) h hg hnd
        · obtain ⟨h₁, h₂⟩ := hin f d ho hd pos htarget
          obtain ⟨-, rfl⟩ := run_inj hr (run_llseek htarget h₁ h₂)
          exact position_moved rfl (fun _ => ⟨h₁, h₂⟩) h hg hnd

theorem ranged_started (hs : Started st) : Ranged st where
  stored hi := absurd hi hs.not_isFile
  position {f} hf := by
    rw [hs.files_size] at hf
    exact absurd hf (Nat.not_lt_zero f)

theorem reach_inBounds (hr : Reach st InBounds) : Settled st ∧ Ranged st := by
  obtain ⟨st₀, h₀, hr⟩ := hr
  refine hr.invariant (I := fun st => Settled st ∧ Ranged st)
    ⟨settled_started h₀, ranged_started h₀⟩ fun {st op st'} h hin hstep => ?_
  exact ⟨settled_exec h.1 hin.proper hstep,
    h.2.effect h.1 hin (effect_of_exec h.1.sound hstep)⟩

end Bounds

section Copies

def State.source (st : State) (f : ℕ) : Driver → List UInt8
  | .kvfs => content st (st.file f).fInode
  | .procfs => st.procText (st.inode (st.file f).fInode).iIno
  | .devfs => []

/-- What a read stores: bytes of `l` from a position on, none of them from outside, and a newline
when the buffer takes more. -/
def CopiesInside (l : List UInt8) (pos : ℤ) (n : ℕ) (out : List UInt8) : Prop :=
  ∃ m ≤ n, (∀ j : ℕ, j < m → 0 ≤ pos + j ∧ pos + j < l.length) ∧
    out = endRead ((List.range m).map fun j : ℕ => l.getD (pos + j).toNat 0) n

variable {st st' : State} {t f i n : ℕ} {fd offset whence ret : ℤ} {d : Driver} {buf : List UInt8}
  {r : ℤ × List UInt8}

theorem copiesInside_slice (l : List UInt8) (pos n : ℕ) :
    CopiesInside l pos n (endRead (slice l pos n) n) := by
  refine ⟨(slice l pos n).length, ?_, fun j hj => ?_, ?_⟩
  · rw [length_slice]
    exact min_le_left _ _
  · rw [length_slice] at hj
    omega
  · congr 1
    refine List.ext_getElem (by simp) fun j h₁ h₂ => ?_
    rw [List.length_map, List.length_range, length_slice] at h₂
    have hlt : pos + j < l.length := by omega
    have hnat : ((pos : ℤ) + j).toNat = pos + j := by omega
    simp [slice, hnat, hlt]

theorem Ranged.read (h : Ranged st) (hh : Held st) (ht : st.Running t) (ho : OpenOn st t fd f d)
    (hd : d ≠ .devfs) (hr : run (vfsRead t fd n) st = some (r, st')) :
    r = (-1, []) ∨ CopiesInside (st.source f d) (st.file f).fPos n r.2 := by
  have hdriver : (st.file f).fOp ≠ some .devfs := by
    rw [ho.driver]
    exact fun heq => hd (Option.some.inj heq)
  obtain ⟨h₁, h₂⟩ := h.position (hh.openOn ht ho) hdriver
  rw [run_vfsRead ho] at hr
  cases d with
  | kvfs =>
    have hpos : (st.file f).fPos = ((st.file f).fPos.toNat : ℤ) := by omega
    have hread : run (kvfsRead f n) st = _ :=
      run_kvfsRead (h.stored (hh.isFile ht ho)) rfl hpos (by omega)
    obtain ⟨rfl, -⟩ := run_inj hr hread
    refine .inr ?_
    rw [hpos]
    exact copiesInside_slice _ _ _
  | procfs =>
    rcases run_procRead h₁ h₂ hr with ⟨rfl, -⟩ | ⟨-, m, hm, hin, hout⟩
    · exact .inl rfl
    · exact .inr ⟨m, hm, fun j hj => ⟨by omega, hin j hj⟩, hout⟩
  | devfs => exact absurd rfl hd

/-- Writes of an open file in range store bytes inside the file, and nowhere else. -/
theorem Ranged.write (h : Ranged st) (hs : Settled st) (ht : st.Running t)
    (ho : OpenOn st t fd f d) (hin : InBounds st (.call t (.write fd buf)))
    (hd : d ≠ .devfs) (hr : run (vfsWrite t fd buf) st = some (ret, st')) :
    StoresInside st st' (st.file f).fInode ∧
      ∀ i, st.IsFile i → i ≠ (st.file f).fInode → content st' i = content st i := by
  have hidle : ∀ {st' : State}, st'.blocks = st.blocks → st'.inodes = st.inodes →
      st'.kvfsFiles = st.kvfsFiles → StoresInside st st' (st.file f).fInode ∧
        ∀ i, st.IsFile i → i ≠ (st.file f).fInode → content st' i = content st i := by
    intro st' hb hi hk
    refine ⟨fun p hp => absurd (by rw [State.byte, hb]; rfl) hp, fun i _ _ => ?_⟩
    simp only [content, State.node, State.inode, State.byte, hb, hi, hk]
  have hwrite := ho.write hr
  cases d with
  | kvfs =>
    by_cases hw : (st.file f).fMode &&& O_WRONLY = 0
    · obtain ⟨-, rfl⟩ := run_inj hwrite (run_kvfsWrite_readonly hw)
      exact hidle rfl rfl rfl
    · have hip := hs.held.isFile ht ho
      have hrange : InRange st f buf := ⟨(h.writePos hs.held ht ho).1, hin f ho hw⟩
      exact ⟨((h.stored hip).wrote hw hrange hwrite).2,
        fun i hi hne => (run_kvfsWrite_storage hw hwrite).content hs.filed hip hi hne⟩
  | procfs =>
    obtain ⟨-, rfl⟩ := Prod.mk.inj (Option.some.inj hwrite)
    exact hidle rfl rfl rfl
  | devfs => exact absurd rfl hd

theorem seek_inBounds (ho : OpenOn st t fd f d)
    (hin : InBounds st (.call t (.lseek fd offset whence))) (hd : d ≠ .devfs)
    (hr : run (vfsLseek t fd offset whence) st = some (ret, st')) :
    (st.target f offset whence = none ∧ ret = -1 ∧ st' = st) ∨
      st.target f offset whence = some ret ∧ 0 ≤ ret ∧ st' = st.seek f ret := by
  rcases vfsLseek_cases hr with ⟨hstd, -⟩ | ⟨f', d', ho', hseek⟩
  · rw [ho.user] at hstd
    cases hstd
  · obtain ⟨rfl, rfl⟩ := ho.unique ho'
    cases htarget : st.target f' offset whence with
    | none =>
      obtain ⟨rfl, rfl⟩ := run_inj hseek (run_llseek_none htarget)
      exact .inl ⟨rfl, rfl, rfl⟩
    | some pos =>
      obtain ⟨h₁, h₂⟩ := hin f' d' ho hd pos htarget
      obtain ⟨rfl, rfl⟩ := run_inj hseek (run_llseek htarget h₁ h₂)
      exact .inr ⟨rfl, h₁, rfl⟩

/-- In bounds, the position of an open file of `kvfs` or `procfs` is never negative, every byte
that a read copies is inside the file, every byte that a write stores is inside the storage of the
file and of no other, and a seek leads to its target or leaves the position as it is. -/
theorem positions_in_bounds (h : Reach st InBounds) (ht : st.Running t) (ho : OpenOn st t fd f d)
    (hd : d ≠ .devfs) : 0 ≤ (st.file f).fPos ∧
      (∀ n r st', run (vfsRead t fd n) st = some (r, st') →
        r = (-1, []) ∨ CopiesInside (st.source f d) (st.file f).fPos n r.2) ∧
      (∀ buf ret st', InBounds st (.call t (.write fd buf)) →
        run (vfsWrite t fd buf) st = some (ret, st') → StoresInside st st' (st.file f).fInode ∧
          ∀ i, st.IsFile i → i ≠ (st.file f).fInode → content st' i = content st i) ∧
      ∀ offset whence ret st', InBounds st (.call t (.lseek fd offset whence)) →
        run (vfsLseek t fd offset whence) st = some (ret, st') →
          (st.target f offset whence = none ∧ ret = -1 ∧ st' = st) ∨
            st.target f offset whence = some ret ∧ 0 ≤ ret ∧ st' = st.seek f ret := by
  obtain ⟨hs, hranged⟩ := reach_inBounds h
  have hdriver : (st.file f).fOp ≠ some .devfs := by
    rw [ho.driver]
    exact fun heq => hd (Option.some.inj heq)
  exact ⟨(hranged.position (hs.held.openOn ht ho) hdriver).1,
    fun n r st' => hranged.read hs.held ht ho hd,
    fun buf ret st' hin => hranged.write hs ht ho hin hd,
    fun offset whence ret st' hin => seek_inBounds ho hin hd⟩

def execInBounds (st : State) (op : Op) : Option State :=
  if InBounds st op then exec st op else none

theorem reach_of_replay {ops : List Op} (hr : replay execInBounds initial ops = some st) :
    Reach st InBounds := by
  refine ⟨initial, started_initial, Run.of_replay (fun {s op s'} hs => ?_) hr⟩
  unfold execInBounds at hs
  split at hs
  · exact ⟨‹_›, hs⟩
  · cases hs

/-- A new file gets two bytes, and the descriptor moves to the second one. -/
theorem positions_in_bounds_run : ∃ st, st.Running 1 ∧ OpenOn st 1 3 0 .kvfs ∧
    (st.file 0).fPos = 1 ∧ ∀ n r st', run (vfsRead 1 3 n) st = some (r, st') →
      r = (-1, []) ∨ CopiesInside [65, 66] 1 n r.2 := by
  have hreplay : (replay execInBounds initial [.call 1 (.open "/f".toList O_RDWR),
      .call 1 (.write 3 [65, 66]), .call 1 (.lseek 3 (-1) SEEK_CUR)]).any (fun st =>
        st.Running 1 ∧ st.served 1 3 = some (0, .kvfs) ∧ (st.file 0).fPos = 1 ∧
          st.source 0 .kvfs = [65, 66]) = true := by decide +kernel
  obtain ⟨st, hr, hst⟩ := (Option.any_eq_true _ _).mp hreplay
  obtain ⟨ht, hserved, hpos, hsource⟩ := of_decide_eq_true hst
  have ho := served_eq_some.mp hserved
  refine ⟨st, ht, ho, hpos, ?_⟩
  have hread := (positions_in_bounds (reach_of_replay hr) ht ho (by decide)).2.1
  rwa [hsource, hpos] at hread

/-- A seek in front of the first byte is not rejected. -/
theorem position_negative : ¬ ∀ (st : State) (t : ℕ) (fd : ℤ) (f : ℕ), Reachable st →
    st.Running t → OpenOn st t fd f .kvfs → 0 ≤ (st.file f).fPos := by
  intro hall
  have hreplay : (replay exec initial [.call 1 (.open "/f".toList O_RDWR),
      .call 1 (.lseek 3 (-1) SEEK_SET)]).any (fun st =>
        st.Running 1 ∧ st.served 1 3 = some (0, .kvfs) ∧ (st.file 0).fPos = -1) = true := by
    decide +kernel
  obtain ⟨st, hr, hst⟩ := (Option.any_eq_true _ _).mp hreplay
  obtain ⟨ht, hserved, hpos⟩ := of_decide_eq_true hst
  have hle := hall st 1 3 0 (reachable_of_replay hr) ht (served_eq_some.mp hserved)
  rw [hpos] at hle
  exact absurd hle (by decide)

end Copies

end NSOS.Vfs
