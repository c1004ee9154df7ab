import NSOS.Basis.Trace
import NSOS.Vfs.Handles
import NSOS.Vfs.Position

/-! # The file store

What the descriptors of `kvfs` are for: files are byte arrays, and every open
descriptor is a cursor of its own in one of them. The operations of the kernel
refine those of the store, with the answers that the threads get.
-/

namespace NSOS.Vfs

open Basis Prog

section Abstract

@[ext] structure Cursor where
  file : ℕ
  pos : ℕ
  mode : UInt32

/-- Byte arrays, and the cursors of threads in them. -/
@[ext] structure Store where
  files : ℕ → Option (List UInt8)
  cursors : ℕ × ℕ → Option Cursor

namespace Cursor

/-- Where a write starts. -/
def start (c : Cursor) (l : List UInt8) : ℕ :=
  if c.mode &&& O_APPEND ≠ 0 then l.length else c.pos

/-- Where a seek leads to, unless its origin is unknown. -/
def target (c : Cursor) (l : List UInt8) (offset whence : ℤ) : Option ℤ :=
  if whence = SEEK_SET then some offset
  else if whence = SEEK_CUR then some (c.pos + offset)
  else if whence = SEEK_END then some (l.length + offset)
  else none

end Cursor

def Op.Walks : Op → Prop
  | .call _ (.access ..) | .call _ (.mount ..) | .call _ (.unmount _) | .call _ (.open ..)
  | .call _ (.mkdir ..) => True
  | _ => False

namespace Store

def empty : Store := ⟨fun _ => none, fun _ => none⟩

def Grown (F F' : ℕ → Option (List UInt8)) : Prop :=
  ∀ i, F' i = F i ∨ F i = none ∧ F' i = some []

variable (S : Store)

/-- A descriptor is a cursor in a file. -/
structure At (t : ℕ) (fd : ℤ) (c : Cursor) (l : List UInt8) : Prop where
  cursor : S.cursors (t, fd.toNat) = some c
  file : S.files c.file = some l

def move (t : ℕ) (fd : ℤ) (c : Cursor) (pos : ℕ) : Store := { S with
  cursors := Function.update S.cursors (t, fd.toNat) (some { c with pos := pos }) }

def put (i : ℕ) (l : List UInt8) : Store := { S with files := Function.update S.files i (some l) }

/-- What operations answer, and how the store changes. -/
inductive Step : Op × Reply → Store → Prop
  | read {t n : ℕ} {fd : ℤ} {c : Cursor} {l out : List UInt8} : S.At t fd c l →
    out = endRead (slice l c.pos n) n → Step (.call t (.read fd n), (toInt out.length, out)) S
  | wrote {t : ℕ} {fd : ℤ} {c : Cursor} {l buf : List UInt8} : S.At t fd c l →
    c.mode &&& O_WRONLY ≠ 0 → Step (.call t (.write fd buf), (buf.length, []))
      ((S.put c.file (splice l (c.start l) buf)).move t fd c (c.start l + buf.length))
  /-- The descriptor is not open for writing. -/
  | refused {t : ℕ} {fd : ℤ} {c : Cursor} {l buf : List UInt8} : S.At t fd c l →
    c.mode &&& O_WRONLY = 0 →
      Step (.call t (.write fd buf), (0, [])) (S.move t fd c (c.start l))
  | sought {t pos : ℕ} {fd offset whence : ℤ} {c : Cursor} {l : List UInt8} : S.At t fd c l →
    c.target l offset whence = some (pos : ℤ) →
      Step (.call t (.lseek fd offset whence), (pos, [])) (S.move t fd c pos)
  | lost {t : ℕ} {fd offset whence : ℤ} {c : Cursor} {l : List UInt8} : S.At t fd c l →
    c.target l offset whence = none → Step (.call t (.lseek fd offset whence), (-1, [])) S
  /-- The cursor of a new descriptor is at the start of the file. -/
  | opened {t k i : ℕ} {path : List Char} {flags : UInt32} {F : ℕ → Option (List UInt8)} :
    S.cursors (t, k) = none → Grown S.files F → F i ≠ none →
      Step (.call t (.open path flags), (k, []))
        ⟨F, Function.update S.cursors (t, k) (some ⟨i, 0, flags⟩)⟩
  | walked {op : Op} {r : Reply} {F : ℕ → Option (List UInt8)} : op.Walks → Grown S.files F →
    Step (op, r) ⟨F, S.cursors⟩
  | closed {t : ℕ} {fd : ℤ} {c : Cursor} : S.cursors (t, fd.toNat) = some c →
    Step (.close t fd, (0, []))
      { S with cursors := Function.update S.cursors (t, fd.toNat) none }
  | ended {t u : ℕ} {r : Reply} : Step (.teardown t u, r)
      { S with cursors := fun j => if j.1 = u then none else S.cursors j }
  /-- The operation is about no cursor. -/
  | idle {op : Op} {r : Reply} : ¬ op.Walks → (∀ t u, op ≠ .teardown t u) →
    (∀ t fd, op.handle = some (t, fd) → S.cursors (t, fd.toNat) = none) → Step (op, r) S

end Store

end Abstract

section Abstraction

variable (st : State)

def respond : Op → Option (Reply × State)
  | .call t c => if st.Running t then run (c.body t) st else none
  | .close t fd => if st.Running t then run (plain (vfsClose t fd)) st else none
  | op => (exec st op).map fun st' => ((0, []), st')

/-- An open file of `kvfs` is a cursor. -/
def File.cursor (f : File) : Option Cursor :=
  if f.fOp = some .kvfs then some ⟨f.fInode, f.fPos.toNat, f.fMode⟩ else none

def abs : Store where
  files i := if st.IsFile i then some (content st i) else none
  cursors k := (st.descriptor k).bind File.cursor

/-- Operations in bounds, with their answers. -/
abbrev Responds : State → Op × Reply → State → Prop := fun st i st' =>
  InBounds st i.1 ∧ respond st i.1 = some (i.2, st')

variable {st} {st' : State} {t f i : ℕ} {fd : ℤ} {d : Driver} {op : Op} {r : Reply}
  {c : Cursor} {l buf : List UInt8} {mode : UInt16}

theorem exec_of_respond (hr : respond st op = some (r, st')) : exec st op = some st' := by
  cases op with
  | call t c =>
    rw [respond] at hr
    rw [exec, runBy]
    split at hr
    · rw [if_pos ‹_›, hr]
      rfl
    · cases hr
  | close t fd =>
    rw [respond] at hr
    rw [exec, runBy]
    split at hr
    · obtain ⟨z, hz⟩ := run_plain hr
      rw [if_pos ‹_›, hz]
      rfl
    · cases hr
  | _ =>
    simp only [respond, Option.map_eq_some_iff, Prod.mk.injEq] at hr
    obtain ⟨st₁, hs, -, rfl⟩ := hr
    exact hs

theorem files_abs (hi : st.IsFile i) : (abs st).files i = some (content st i) := if_pos hi

theorem files_abs_eq_none : (abs st).files i = none ↔ ¬ st.IsFile i := by
  simp [abs]

theorem cursors_abs (ht : st.Running t) (hf : (st.thread t).fileDescriptors i = .file f) :
    (abs st).cursors (t, i) = (st.file f).cursor := by
  have hdesc : st.descriptor (t, i) = some (st.file f) := by
    rw [State.descriptor, view, held_eq_some.mpr ⟨ht, hf⟩]
    rfl
  rw [abs]
  dsimp only
  rw [hdesc, Option.bind_some]

theorem cursors_abs_of_not (hf : ∀ f, (st.thread t).fileDescriptors i ≠ .file f) :
    (abs st).cursors (t, i) = none := by
  have hheld : st.held (t, i) = none :=
    Option.eq_none_iff_forall_ne_some.mpr fun f hh => hf f (held_eq_some.mp hh).2
  rw [abs]
  dsimp only
  rw [State.descriptor, view, hheld]
  rfl

theorem cursors_abs_std (ha : Apart st) (hstd : isStd fd = true) :
    (abs st).cursors (t, fd.toNat) = none := by
  by_cases ht : st.Running t
  · have hlt : fd.toNat < 3 := by
      rw [isStd, Bool.or_eq_true, Bool.or_eq_true, decide_eq_true_eq, decide_eq_true_eq,
        decide_eq_true_eq] at hstd
      rcases hstd with (rfl | rfl) | rfl <;> decide
    have hentry := ha.standard t _ (fds_eq_some.mpr ⟨ht, rfl⟩) _ hlt
    refine cursors_abs_of_not fun f hf => ?_
    rw [hentry] at hf
    cases hf
  · have hheld : st.held (t, fd.toNat) = none :=
      Option.eq_none_iff_forall_ne_some.mpr fun f hh => ht (held_eq_some.mp hh).1
    rw [abs]
    dsimp only
    rw [State.descriptor, view, hheld]
    rfl

theorem cursors_abs_driver (ht : st.Running t) (ho : OpenOn st t fd f d) (hd : d ≠ .kvfs) :
    (abs st).cursors (t, fd.toNat) = none := by
  rw [cursors_abs ht ho.entry, File.cursor, ho.driver, if_neg]
  exact fun heq => hd (Option.some.inj heq)

/-- The cursor of an open file of `kvfs`. -/
def State.cursor (st : State) (f : ℕ) : Cursor :=
  ⟨(st.file f).fInode, (st.file f).fPos.toNat, (st.file f).fMode⟩

theorem abs_at (hh : Held st) (ht : st.Running t) (ho : OpenOn st t fd f .kvfs) :
    (abs st).At t fd (st.cursor f) (content st (st.file f).fInode) where
  cursor := by
    rw [cursors_abs ht ho.entry, File.cursor, if_pos ho.driver, State.cursor]
  file := files_abs (hh.isFile ht ho)

theorem Kept.content (hk : Kept t mode st st') (hf : Filed st) (hi : st.IsFile i) :
    content st' i = content st i :=
  content_congr (hk.inode hi.1.1) (hk.node hf hi) fun _ => by rw [hk.rest]

theorem SameFiles.content (hs : SameFiles st st') (hi : st.IsFile i) :
    content st' i = content st i :=
  content_congr (hs.inode hi) (hs.node hi) fun _ => by rw [hs.blocks]

theorem SameFiles.files_abs (hs : SameFiles st st') : (abs st').files = (abs st).files := by
  funext i
  by_cases hi : st.IsFile i
  · rw [Vfs.files_abs hi, Vfs.files_abs ((hs.isFile i).mpr hi), hs.content hi]
  · rw [files_abs_eq_none.mpr hi, files_abs_eq_none.mpr fun h => hi ((hs.isFile i).mp h)]

theorem Kept.grown_abs (hk : Kept t mode st st') (hf : Filed st) :
    Store.Grown (abs st).files (abs st').files := by
  intro i
  by_cases hi : st.IsFile i
  · rw [files_abs hi, files_abs ((hk.isFile hi.1.1).mpr hi), hk.content hf hi]
    exact .inl rfl
  · by_cases hi' : st'.IsFile i
    · rcases hk.cases hi' with hold | ⟨s, -, -, -, -, hnew⟩
      · exact absurd hold hi
      · refine .inr ⟨files_abs_eq_none.mpr hi, ?_⟩
        rw [files_abs hi', Vfs.content, hnew]
        rfl
    · rw [files_abs_eq_none.mpr hi, files_abs_eq_none.mpr hi']
      exact .inl rfl

end Abstraction

section Refinement

variable {st st' : State} {t f i n : ℕ} {fd offset whence pos z : ℤ} {d : Driver} {op : Op}
  {r : Reply} {c : Call} {buf : List UInt8} {path : List Char} {flags : UInt32} {k : ℕ × ℕ}
  {o : Option File}

/-- What holds in every state that is reached in bounds. -/
structure Bounded (st : State) : Prop where
  settled : Settled st
  ranged : Ranged st
  apart : Apart st

theorem bounded_started (hs : Started st) : Bounded st :=
  ⟨settled_started hs, ranged_started hs, apart_started hs⟩

theorem bounded_exec (h : Bounded st) (hin : InBounds st op) (hs : exec st op = some st') :
    Bounded st' := by
  have hsound := h.settled.sound
  have hhandles := handles_of_exec hsound.inv hsound.orderly hs
  exact ⟨settled_exec h.settled hin.proper hs,
    h.ranged.effect h.settled hin (effect_of_exec hsound hs),
    hhandles.separate h.apart.separate, hhandles.standard h.apart.standard⟩

theorem cursors_abs_update (h : st'.descriptor = Function.update st.descriptor k o) :
    (abs st').cursors = Function.update (abs st).cursors k (o.bind File.cursor) := by
  funext j
  rw [abs, abs]
  dsimp only
  rw [h, Function.update_apply, Function.update_apply]
  split
  · rfl
  · rfl

theorem cursors_abs_moved (ha : Apart st) (ht : st.Running t) (ho : OpenOn st t fd f .kvfs)
    (hheld : st'.held = st.held)
    (hfiles : st'.files = st.files.set f fun g => { g with fPos := pos }) :
    (abs st').cursors = Function.update (abs st).cursors (t, fd.toNat)
      (some { st.cursor f with pos := pos.toNat }) := by
  have hdesc : st'.descriptor = Function.update st.descriptor (t, fd.toNat)
      (some { st.file f with fPos := pos }) := by
    rw [State.descriptor, State.descriptor, hheld, hfiles]
    exact ha.separate.view_set (held_eq_some.mpr ⟨ht, ho.entry⟩)
  rw [cursors_abs_update hdesc, Option.bind_some, File.cursor, if_pos ho.driver]
  rfl

theorem abs_seek (ha : Apart st) (ht : st.Running t) (ho : OpenOn st t fd f .kvfs) :
    abs (st.seek f pos) = (abs st).move t fd (st.cursor f) pos.toNat := by
  ext1
  · rfl
  · exact cursors_abs_moved ha ht ho rfl rfl

theorem abs_seek_other (ha : Apart st) (ht : st.Running t) (ho : OpenOn st t fd f d)
    (hd : d ≠ .kvfs) : abs (st.seek f pos) = abs st := by
  have hdesc : (st.seek f pos).descriptor = Function.update st.descriptor (t, fd.toNat)
      (some { st.file f with fPos := pos }) :=
    ha.separate.view_set (held_eq_some.mpr ⟨ht, ho.entry⟩)
  have hnone : File.cursor { st.file f with fPos := pos } = none := by
    rw [File.cursor, if_neg]
    exact fun heq => hd (Option.some.inj (ho.driver.symm.trans heq))
  ext1
  · rfl
  · rw [cursors_abs_update hdesc, Option.bind_some, hnone, ← cursors_abs_driver ht ho hd,
      Function.update_eq_self]

theorem start_cursor :
    (st.cursor f).start (content st (st.file f).fInode) = (st.writePos f).toNat := by
  rw [Cursor.start, State.writePos, length_content, State.cursor]
  split
  · rfl
  · rfl

theorem target_cursor (hs : Stored st (st.file f).fInode) (hpos : 0 ≤ (st.file f).fPos) :
    (st.cursor f).target (content st (st.file f).fInode) offset whence =
      st.target f offset whence := by
  rw [Cursor.target, State.target, length_content, Int.toNat_of_nonneg hs.nonneg, State.cursor]
  dsimp only
  rw [Int.toNat_of_nonneg hpos]

theorem Bounded.position (h : Bounded st) (ht : st.Running t) (ho : OpenOn st t fd f .kvfs) :
    0 ≤ (st.file f).fPos ∧ (st.file f).fPos < 2 ^ 31 := by
  refine h.ranged.position (h.settled.held.openOn ht ho) ?_
  rw [ho.driver]
  decide

theorem Bounded.stored (h : Bounded st) (ht : st.Running t) (ho : OpenOn st t fd f .kvfs) :
    Stored st (st.file f).fInode := h.ranged.stored (h.settled.held.isFile ht ho)

/-- A call on a descriptor that is no cursor does nothing to the store. -/
theorem step_idle (hop : op.handle = some (t, fd)) (habs : abs st' = abs st)
    (hnone : (abs st).cursors (t, fd.toNat) = none) : (abs st).Step (op, r) (abs st') := by
  rw [habs]
  apply Store.Step.idle
  · cases op with
    | call u c => cases c <;> first | exact id | cases hop
    | _ => exact id
  · rintro u v rfl
    cases hop
  · intro u fd' heq
    obtain ⟨rfl, rfl⟩ := Prod.mk.inj (Option.some.inj (heq.symm.trans hop))
    exact hnone

theorem Bounded.read (h : Bounded st) (ht : st.Running t)
    (hr : run (vfsRead t fd n) st = some (r, st')) :
    (abs st).Step (.call t (.read fd n), r) (abs st') := by
  rcases vfsRead_cases hr with ⟨hstd, rfl, rfl⟩ | ⟨f, d, ho, hread⟩
  · exact step_idle rfl rfl (cursors_abs_std h.apart hstd)
  · by_cases hd : d = .kvfs
    · subst hd
      obtain ⟨h₁, h₂⟩ := h.position ht ho
      have hpos : (st.file f).fPos = ((st.cursor f).pos : ℤ) := (Int.toNat_of_nonneg h₁).symm
      have hrun : run (kvfsRead f n) st = _ :=
        run_kvfsRead (h.stored ht ho) rfl hpos (by omega)
      obtain ⟨rfl, rfl⟩ := run_inj hread hrun
      exact .read (abs_at h.settled.held ht ho) rfl
    · obtain ⟨b, rfl⟩ := run_driver_read hread
      exact step_idle rfl rfl (cursors_abs_driver ht ho hd)

theorem Bounded.lseek (h : Bounded st) (ht : st.Running t)
    (hin : InBounds st (.call t (.lseek fd offset whence)))
    (hr : run (vfsLseek t fd offset whence) st = some (z, st')) :
    (abs st).Step (.call t (.lseek fd offset whence), (z, [])) (abs st') := by
  rcases vfsLseek_cases hr with ⟨hstd, -, rfl⟩ | ⟨f, d, ho, hseek⟩
  · exact step_idle rfl rfl (cursors_abs_std h.apart hstd)
  · by_cases hd : d = .kvfs
    · subst hd
      have hat := abs_at h.settled.held ht ho
      have htarget : (st.cursor f).target (content st (st.file f).fInode) offset whence =
          st.target f offset whence := target_cursor (h.stored ht ho) (h.position ht ho).1
      rcases seek_inBounds ho hin (by decide) hr with ⟨hnone, rfl, rfl⟩ | ⟨hsome, hle, rfl⟩
      · exact .lost hat (htarget.trans hnone)
      · obtain ⟨m, rfl⟩ := Int.eq_ofNat_of_zero_le hle
        rw [abs_seek h.apart ht ho]
        exact .sought hat (htarget.trans hsome)
    · have hnone := cursors_abs_driver ht ho hd
      rcases llseek_cases hseek with rfl | ⟨pos, rfl⟩
      · exact step_idle rfl rfl hnone
      · exact step_idle rfl (abs_seek_other h.apart ht ho hd) hnone

theorem Bounded.wrote (h : Bounded st) (ht : st.Running t) (ho : OpenOn st t fd f .kvfs)
    (hw : (st.file f).fMode &&& O_WRONLY ≠ 0) (hin : InRange st f buf)
    (hr : run (kvfsWrite f buf) st = some (z, st')) :
    z = buf.length ∧ abs st' = ((abs st).put (st.file f).fInode (splice
      (content st (st.file f).fInode) (st.writePos f).toNat buf)).move t fd (st.cursor f)
        ((st.writePos f).toNat + buf.length) := by
  have hip := h.settled.held.isFile ht ho
  have hre := run_kvfsWrite_storage hw hr
  obtain ⟨hwrote, -⟩ := (h.stored ht ho).wrote hw hin hr
  obtain ⟨st₁, hrun, -⟩ := run_kvfsWrite buf (h.stored ht ho) rfl hw hin.1 hin.2
  obtain ⟨rfl, -⟩ := run_inj hr hrun
  obtain ⟨B, K, F, hframe⟩ := hwrote.frame
  refine ⟨rfl, ?_⟩
  ext1
  · funext i
    rw [Store.move, Store.put]
    dsimp only
    rw [Function.update_apply]
    split
    case isTrue hi =>
      rw [hi, files_abs ((hre.isFile _).mpr hip), hwrote.content]
    case isFalse hne =>
      by_cases hi : st.IsFile i
      · rw [files_abs hi, files_abs ((hre.isFile i).mpr hi),
          hre.content h.settled.filed hip hi hne]
      · rw [files_abs_eq_none.mpr hi, files_abs_eq_none.mpr fun hi' => hi ((hre.isFile i).mp hi')]
  · have hpos : (st.writePos f + buf.length).toNat = (st.writePos f).toNat + buf.length := by
      have := hin.1
      omega
    have hcursors : (abs st').cursors = Function.update (abs st).cursors (t, fd.toNat)
        (some { st.cursor f with pos := (st.writePos f + buf.length).toNat }) :=
      cursors_abs_moved h.apart ht ho (by rw [hframe]; rfl) (by rw [hframe])
    rw [hcursors, hpos]
    rfl

theorem Bounded.write (h : Bounded st) (ht : st.Running t)
    (hin : InBounds st (.call t (.write fd buf)))
    (hr : run (vfsWrite t fd buf) st = some (z, st')) :
    (abs st).Step (.call t (.write fd buf), (z, [])) (abs st') := by
  rcases vfsWrite_cases hr with ⟨hstd, out, rfl⟩ | ⟨f, d, ho, hwrite⟩
  · exact step_idle rfl rfl (cursors_abs_std h.apart hstd)
  cases d with
  | kvfs =>
    have hat := abs_at h.settled.held ht ho
    by_cases hw : (st.file f).fMode &&& O_WRONLY = 0
    · obtain ⟨rfl, rfl⟩ := run_inj hwrite (run_kvfsWrite_readonly hw)
      rw [abs_seek h.apart ht ho, ← start_cursor]
      exact .refused hat hw
    · have hrange : InRange st f buf :=
        ⟨(h.ranged.writePos h.settled.held ht ho).1, hin f ho hw⟩
      obtain ⟨rfl, habs⟩ := h.wrote ht ho hw hrange hwrite
      rw [habs, ← start_cursor]
      exact .wrote hat hw
  | procfs =>
    obtain ⟨-, rfl⟩ := Prod.mk.inj (Option.some.inj hwrite)
    exact step_idle rfl rfl (cursors_abs_driver ht ho (by decide))
  | devfs =>
    obtain rfl := idle_devfsWrite.same hwrite
    exact step_idle rfl rfl (cursors_abs_driver ht ho (by decide))

theorem Bounded.walked (h : Bounded st) (hs : exec st op = some st') (hop : op.Walks)
    (hopen : ∀ t path flags, op ≠ .call t (.open path flags)) :
    (abs st).Step (op, r) (abs st') := by
  have hsound := h.settled.sound
  have hhandle : op.handle = none := by
    cases op with
    | call t c => cases c <;> first | rfl | exact absurd hop id
    | _ => exact absurd hop id
  have hcursors : (abs st').cursors = (abs st).cursors := by
    have hacts := (handles_of_exec hsound.inv hsound.orderly hs).acts h.apart.separate
    have hdesc : st'.descriptor = st.descriptor := by
      generalize hV : st'.descriptor = V at hacts
      cases hacts with
      | idle => rfl
      | opens => exact absurd rfl (hopen _ _ _)
      | moves hfd => rw [hhandle] at hfd; cases hfd
      | closes hfd => rw [hhandle] at hfd; cases hfd
      | ends => exact absurd hop id
    rw [abs, abs, hdesc]
  have hfiles : Store.Grown (abs st).files (abs st').files := by
    rcases (effect_of_exec hsound hs).files h.settled.filed with ⟨u, mode, st₁, hk, hsame⟩ |
      ⟨u, fd, f, w, buf, rfl, -⟩
    · rw [hsame.files_abs]
      exact hk.grown_abs h.settled.filed
    · exact absurd hop id
  have hstep : (abs st).Step (op, r) ⟨(abs st').files, (abs st).cursors⟩ := .walked hop hfiles
  rwa [← hcursors] at hstep

theorem Bounded.open (h : Bounded st) (ht : st.Running t)
    (hr : run (vfsOpen t path flags) st = some (z, st')) :
    (abs st).Step (.call t (.open path flags), (z, [])) (abs st') := by
  have hsound := h.settled.sound
  obtain ⟨o, nd, st₁, hmake⟩ := vfsOpen_makes hr
  obtain ⟨hwalk, hend⟩ := (walkable_live t ACL_DEFAULT).walked_makePath hsound
    (hsound.start ht) hmake
  have hk := hwalk.kept hsound
  have hgrown := hk.grown_abs h.settled.filed
  obtain ⟨hfiles, hthread, hpool⟩ := hwalk.unopened
  have hheld : st₁.held = st.held := held_congr (fds_congr hthread hpool)
  have hsep : Separate st₁.held st₁.files := by
    rw [hheld, hfiles]
    exact h.apart.separate
  have hdesc : st₁.descriptor = st.descriptor := by
    rw [State.descriptor, hheld, hfiles, State.descriptor]
  have hcursors : (abs st₁).cursors = (abs st).cursors := by rw [abs, abs, hdesc]
  have hwalked : ∀ {st₂ : State}, (abs st₂).files = (abs st₁).files →
      (abs st₂).cursors = (abs st₁).cursors →
        (abs st).Step (.call t (.open path flags), (z, [])) (abs st₂) := by
    intro st₂ hf hc
    have hstep : (abs st).Step (.call t (.open path flags), (z, []))
        ⟨(abs st₂).files, (abs st).cursors⟩ := .walked trivial (hf ▸ hgrown)
    rwa [← hcursors, ← hc] at hstep
  rcases run_vfsOpen hmake hr with ⟨-, -, rfl⟩ | ⟨d, ip, rfl, hip, hopen⟩
  · exact hwalked rfl rfl
  rcases hopen with ⟨-, -, rfl⟩ | ⟨k, -, hfree, rfl, rfl⟩
  · -- The file has been allocated, but no descriptor leads to it.
    refine hwalked rfl ?_
    have hgrow : (st₁.withOpen ⟨d, ip, 0, flags, (st₁.inode ip).iFop⟩).descriptor =
        st₁.descriptor := hsep.view_grow
    rw [abs, abs, hgrow]
  · have ht₁ : st₁.Running t := ⟨ht.1, ht.2.1, hpool ▸ ht.2.2⟩
    have hnone : (abs st).cursors (t, k) = none := by
      rw [← hcursors]
      refine cursors_abs_of_not fun f hf => ?_
      rw [hfree] at hf
      cases hf
    set x : File := ⟨d, ip, 0, flags, (st₁.inode ip).iFop⟩ with hx
    set st₂ := (st₁.withOpen x).withFd t k (.file st₁.files.size) with hst₂
    have hfds : st₂.held = Function.update st₁.held (t, k) (some st₁.files.size) :=
      held_update (fds_eq_some.mpr ⟨ht₁, rfl⟩) (@fds_withFd (st₁.withOpen x) t k _ ht₁)
    have hnew : st₂.descriptor = Function.update st₁.descriptor (t, k) (some x) := by
      rw [State.descriptor, hfds]
      exact hsep.view_add
    have hupdate := cursors_abs_update hnew
    rw [Option.bind_some, File.cursor] at hupdate
    by_cases hfop : x.fOp = some .kvfs
    · rw [if_pos hfop, hcursors] at hupdate
      have hfile : st₁.IsFile ip := by
        have hends := hend d rfl
        exact ⟨hends.place.lives _ (hends.dentry.symm ▸ hip), hfop⟩
      have hstep : (abs st).Step (.call t (.open path flags), ((k : ℤ), []))
          ⟨(abs st₁).files, Function.update (abs st).cursors (t, k) (some ⟨ip, 0, flags⟩)⟩ :=
        .opened hnone hgrown (by rw [files_abs hfile]; exact Option.some_ne_none _)
      have hst : (abs st₂) = ⟨(abs st₁).files,
          Function.update (abs st).cursors (t, k) (some ⟨ip, 0, flags⟩)⟩ := by
        ext1
        · rfl
        · exact hupdate
      rwa [hst]
    · rw [if_neg hfop] at hupdate
      refine hwalked rfl (hupdate.trans ?_)
      rw [← hcursors] at hnone
      rw [← hnone, Function.update_eq_self]

theorem vfsClose_answers (hr : run (vfsClose t fd) st = some (z, st')) :
    ((isStd fd = true ∨ ∀ f, (st.thread t).fileDescriptors fd.toNat ≠ .file f) ∧ st' = st) ∨
      ∃ f, 0 ≤ fd ∧ (st.thread t).fileDescriptors fd.toNat = .file f ∧ z = 0 ∧
        st' = { st with freed := .file f :: st.freed }.withFd t fd.toNat .null := by
  rw [vfsClose] at hr
  split at hr
  case isTrue hstd =>
    obtain ⟨-, rfl⟩ := Prod.mk.inj (Option.some.inj hr)
    exact .inl ⟨.inl hstd, rfl⟩
  case isFalse =>
    split at hr
    case isFalse => cases hr
    case isTrue hrange =>
      rw [run_bind, run_gets, Option.bind_some] at hr
      split at hr
      case h_1 f hf =>
        obtain ⟨rfl, rfl⟩ := Prod.mk.inj (Option.some.inj hr)
        exact .inr ⟨f, hrange.1, hf, rfl, rfl⟩
      case h_2 hnot =>
        obtain ⟨-, rfl⟩ := Prod.mk.inj (Option.some.inj hr)
        exact .inl ⟨.inr hnot, rfl⟩

theorem Bounded.close (h : Bounded st) (ht : st.Running t)
    (hr : run (vfsClose t fd) st = some (z, st')) :
    (abs st).Step (.close t fd, (z, [])) (abs st') := by
  rcases vfsClose_answers hr with ⟨hstd | hnot, rfl⟩ | ⟨f, hfd, hf, rfl, rfl⟩
  · exact step_idle rfl rfl (cursors_abs_std h.apart hstd)
  · exact step_idle rfl rfl (cursors_abs_of_not hnot)
  set st₂ := State.withFd { st with freed := .file f :: st.freed } t fd.toNat .null with hst₂
  have hheld : st₂.held = Function.update st.held (t, fd.toNat) none :=
    held_update (fds_eq_some.mpr ⟨ht, rfl⟩) (@fds_withFd { st with freed := _ } t fd.toNat _ ht)
  have hdesc : st₂.descriptor = Function.update st.descriptor (t, fd.toNat) none := by
    rw [State.descriptor, hheld]
    exact view_update none
  have hcursors := cursors_abs_update hdesc
  have hfiles : (abs st₂).files = (abs st).files := by
    have hsame : SameFiles st st₂ := .of_eq rfl rfl rfl rfl
      (fun _ => by simp [hst₂, State.withFd]) fun _ => by simp [hst₂, State.withFd]
    exact hsame.files_abs
  cases hc : (abs st).cursors (t, fd.toNat) with
  | none =>
    refine step_idle rfl ?_ hc
    ext1
    · exact hfiles
    · rw [hcursors, Option.bind_none, ← hc, Function.update_eq_self]
  | some c =>
    have hst : abs st₂ = { abs st with
        cursors := Function.update (abs st).cursors (t, fd.toNat) none } := by
      ext1
      · exact hfiles
      · exact hcursors
    rw [hst]
    exact .closed hc

theorem Bounded.call (h : Bounded st) (ht : st.Running t) (hin : InBounds st (.call t c))
    (hr : run (c.body t) st = some (r, st')) : (abs st).Step (.call t c, r) (abs st') := by
  have hs : exec st (.call t c) = some st' := by
    rw [exec, runBy, if_pos ht, hr]
    rfl
  have hplain : ∀ {p : Code ℤ}, run (plain p) st = some (r, st') →
      ∃ z, r = (z, []) ∧ run p st = some (z, st') := by
    intro p hp
    obtain ⟨z, st₁, hz, hret⟩ := run_bind_some hp
    obtain ⟨rfl, rfl⟩ := Prod.mk.inj (Option.some.inj hret)
    exact ⟨z, rfl, hz⟩
  cases c with
  | read fd n => exact h.read ht hr
  | write fd buf =>
    obtain ⟨z, rfl, hz⟩ := hplain hr
    exact h.write ht hin hz
  | lseek fd offset whence =>
    obtain ⟨z, rfl, hz⟩ := hplain hr
    exact h.lseek ht hin hz
  | «open» path flags =>
    obtain ⟨z, rfl, hz⟩ := hplain hr
    exact h.open ht hz
  | access path mode => exact h.walked hs trivial (by rintro _ _ _ ⟨⟩)
  | mount path fs => exact h.walked hs trivial (by rintro _ _ _ ⟨⟩)
  | unmount path => exact h.walked hs trivial (by rintro _ _ _ ⟨⟩)
  | mkdir path mode => exact h.walked hs trivial (by rintro _ _ _ ⟨⟩)

theorem abs_kmtCreate (t : ℕ) : abs (kmtCreate st t) = abs st := by
  rcases kmtCreate_cases st t with heq | ⟨i, ⟨hpos, hle, hi⟩, heq⟩
  · rw [heq]
  · have hheld : (kmtCreate st t).held = st.held := by
      rw [heq]
      exact held_created (if_neg hi) (fds_pool fun _ => ⟨hpos, hle⟩)
    have hdesc : (kmtCreate st t).descriptor = st.descriptor := by
      rw [State.descriptor, hheld, heq, State.descriptor]
    ext1
    · rw [heq]
      rfl
    · rw [abs, abs, hdesc]

theorem abs_teardown (u : ℕ) :
    abs { st with threadPool := Function.update st.threadPool u false } =
      { abs st with cursors := fun j => if j.1 = u then none else (abs st).cursors j } := by
  set st₁ : State := { st with threadPool := Function.update st.threadPool u false } with hst₁
  have hfds : st₁.fds = Function.update st.fds u none := by
    have hpool := @fds_pool st u false (st.thread u) nofun
    rw [Function.update_eq_self] at hpool
    exact hpool
  ext1
  · rfl
  · funext j
    rw [abs, abs]
    dsimp only
    rw [State.descriptor, view, held_closed_thread hfds]
    split
    · rfl
    · rfl

/-- Operations in bounds are those of the store. -/
theorem Bounded.follows (h : Bounded st) (hr : Responds st (op, r) st') :
    (abs st).Step (op, r) (abs st') := by
  obtain ⟨hin, hr⟩ := hr
  have hs := exec_of_respond hr
  cases op with
  | call t c =>
    rw [respond] at hr
    split at hr
    · exact h.call ‹_› hin hr
    · cases hr
  | close t fd =>
    rw [respond] at hr
    split at hr
    · obtain ⟨z, st₁, hz, hret⟩ := run_bind_some hr
      obtain ⟨rfl, rfl⟩ := Prod.mk.inj (Option.some.inj hret)
      exact h.close ‹_› hz
    · cases hr
  | create t =>
    rw [exec] at hs
    split at hs
    · obtain rfl := Option.some.inj hs
      rw [abs_kmtCreate]
      exact .idle id (by rintro _ _ ⟨⟩) (by rintro _ _ ⟨⟩)
    · cases hs
  | teardown t u =>
    rw [exec] at hs
    split at hs
    · obtain rfl := Option.some.inj hs
      rw [abs_teardown]
      exact .ended
    · cases hs
  | newFs f =>
    obtain rfl := Option.some.inj hs
    exact .idle id (by rintro _ _ ⟨⟩) (by rintro _ _ ⟨⟩)
  | world text rand =>
    obtain rfl := Option.some.inj hs
    exact .idle id (by rintro _ _ ⟨⟩) (by rintro _ _ ⟨⟩)

theorem simulation : Simulation Responds Store.Step Bounded abs id where
  keeps h hr := bounded_exec h hr.1 (exec_of_respond hr.2)
  follows h hr := h.follows hr

theorem abs_started (hs : Started st) : abs st = .empty := by
  ext1
  · funext i
    exact files_abs_eq_none.mpr hs.not_isFile
  · funext k
    have hheld : st.held k = none := by
      rw [State.held, fds_started hs, Function.update_apply]
      split
      · rw [Option.bind_some, newDescriptors]
        split
        · rfl
        · rfl
      · rfl
    rw [abs]
    dsimp only
    rw [State.descriptor, view, hheld]
    rfl

/-- Every run in bounds from the start of the kernel, with all the answers that the threads get, is
a run of the store. -/
theorem store_refines {st₀ : State} {l : List (Op × Reply)} (h₀ : Started st₀)
    (ht : Trace Responds st₀ l st) : Trace Store.Step .empty l (abs st) := by
  have htrace := (simulation.trace (bounded_started h₀) ht).2
  rwa [abs_started h₀, List.map_id] at htrace

def answer (st : State) (i : Op × Reply) : Option State :=
  if InBounds st i.1 then
    (respond st i.1).bind fun p => if p.1 = i.2 then some p.2 else none
  else none

theorem responds_of_answer {i : Op × Reply} (ha : answer st i = some st') : Responds st i st' := by
  unfold answer at ha
  split at ha
  case isTrue hin =>
    obtain ⟨⟨r, st₁⟩, hr, heq⟩ := Option.bind_eq_some_iff.mp ha
    obtain ⟨rfl, heq⟩ := Option.ite_none_right_eq_some.mp heq
    obtain rfl := Option.some.inj heq
    exact ⟨hin, hr⟩
  case isFalse => cases ha

/-- Two threads share a file, and one of them closes its descriptor. -/
theorem store_refines_run : ∃ S, Trace Store.Step .empty
    [(.call 2 (.read 3 2), (2, [65, 66])), (.close 1 3, (0, [])),
      (.call 1 (.write 3 [65, 66]), (2, [])), (.call 2 (.open "/f".toList O_RDWR), (3, [])),
      (.call 1 (.open "/f".toList O_RDWR), (3, [])), (.create 1, (0, []))] S := by
  have hreplay : (replay answer initial [(.create 1, (0, [])),
      (.call 1 (.open "/f".toList O_RDWR), (3, [])), (.call 2 (.open "/f".toList O_RDWR), (3, [])),
      (.call 1 (.write 3 [65, 66]), (2, [])), (.close 1 3, (0, [])),
      (.call 2 (.read 3 2), (2, [65, 66]))]).isSome = true := by decide +kernel
  obtain ⟨st, hr⟩ := Option.isSome_iff_exists.mp hreplay
  exact ⟨abs st, store_refines started_initial (Trace.of_replay responds_of_answer hr)⟩

end Refinement

end NSOS.Vfs
