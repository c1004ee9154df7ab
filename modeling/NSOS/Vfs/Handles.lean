import NSOS.Basis.Handles
import NSOS.Vfs.Change

/-! # Descriptors of their own

Every open descriptor leads to a `struct file` that no other descriptor leads
to, in any thread. So the descriptors are a map to files, and an operation on
one of them is not seen through another.
-/

namespace NSOS.Vfs

open Basis Prog

section Tables

def Fd.file? : Fd → Option ℕ
  | .file f => some f
  | _ => none

@[simp] theorem Fd.file?_eq_some {e : Fd} {f : ℕ} : e.file? = some f ↔ e = .file f := by
  cases e <;> simp [Fd.file?]

variable (st : State)

def State.fds (t : ℕ) : Option (ℕ → Fd) :=
  if st.Running t then some (st.thread t).fileDescriptors else none

def State.held (k : ℕ × ℕ) : Option ℕ := (st.fds k.1).bind fun d => (d k.2).file?

/-- The open files as values. -/
def State.descriptor : ℕ × ℕ → Option File := view st.held st.files

/-- The descriptor that an operation is about. -/
def Op.handle : Op → Option (ℕ × ℤ)
  | .call t (.read fd _) | .call t (.write fd _) | .call t (.lseek fd ..) | .close t fd =>
    some (t, fd)
  | _ => none

variable {st} {st' : State} {t u k f : ℕ} {d : ℕ → Fd} {e : Fd}

theorem fds_eq_some : st.fds t = some d ↔ st.Running t ∧ (st.thread t).fileDescriptors = d := by
  unfold State.fds
  split <;> simp [*]

theorem held_eq_some : st.held (t, k) = some f ↔
    st.Running t ∧ (st.thread t).fileDescriptors k = .file f := by
  unfold State.held State.fds
  split <;> simp [*]

theorem fds_congr (hthread : st'.thread = st.thread) (hpool : st'.threadPool = st.threadPool) :
    st'.fds = st.fds := by
  funext t
  have hrun : st'.Running t ↔ st.Running t := by rw [State.Running, State.Running, hpool]
  simp only [State.fds, hrun, hthread]

theorem fds_withFd (ht : st.Running t) : (st.withFd t k e).fds = Function.update st.fds t
    (some (Function.update (st.thread t).fileDescriptors k e)) := by
  have hrun : ∀ u, (st.withFd t k e).Running u ↔ st.Running u := fun _ => Iff.rfl
  funext u
  rw [Function.update_apply, State.fds, State.fds]
  simp only [hrun]
  split
  case isTrue hu =>
    split
    case isTrue heq =>
      subst heq
      simp [State.withFd]
    case isFalse hne => simp [State.withFd, hne]
  case isFalse hu =>
    rw [if_neg]
    rintro rfl
    exact hu ht

theorem fds_pool {b : Bool} {th : Thread} (hu : b = true → 0 < u ∧ (u : ℤ) ≤ KERNEL_MAX_THREAD) :
    State.fds { st with
      thread := Function.update st.thread u th
      threadPool := Function.update st.threadPool u b } =
        Function.update st.fds u (if b then some th.fileDescriptors else none) := by
  funext t
  rw [Function.update_apply, State.fds, State.fds]
  by_cases heq : t = u
  · subst heq
    cases b with
    | true => simp [State.Running, hu rfl]
    | false => simp [State.Running]
  · have hne : (t : ℤ) ≠ u := by omega
    have hrun : State.Running { st with
        thread := Function.update st.thread u th
        threadPool := Function.update st.threadPool u b } t ↔ st.Running t := by
      simp only [State.Running, Function.update_of_ne hne]
    simp only [hrun, if_neg heq, Function.update_of_ne heq]

theorem held_congr (h : st'.fds = st.fds) : st'.held = st.held := by
  funext k
  rw [State.held, h, State.held]

theorem held_update (ht : st.fds t = some d)
    (h : st'.fds = Function.update st.fds t (some (Function.update d k e))) :
    st'.held = Function.update st.held (t, k) e.file? := by
  funext ⟨u, j⟩
  rw [Function.update_apply, State.held, h, Function.update_apply, State.held]
  by_cases hu : u = t
  · subst hu
    rw [if_pos rfl, ht, Option.bind_some, Option.bind_some, Function.update_apply]
    by_cases hj : j = k
    · simp [hj]
    · simp [hj]
  · rw [if_neg hu, if_neg fun heq => hu (congrArg Prod.fst heq)]

end Tables

section Steps

/-- What a step does to the descriptors and the open files. -/
inductive Handles (st : State) : Op → State → Prop
  | kept {op : Op} {st' : State} : st'.fds = st.fds → st'.files = st.files → Handles st op st'
  | opened {t k : ℕ} {path : List Char} {flags : UInt32} {d : ℕ → Fd} {x : File} {st' : State} :
    st.fds t = some d → d k = .null →
      st'.fds = Function.update st.fds t (some (Function.update d k (.file st.files.size))) →
        st'.files = st.files.grow.set st.files.size (fun _ => x) →
          Handles st (.call t (.open path flags)) st'
  /-- The thread has no free entry for the file. -/
  | leaked {op : Op} {x : File} {st' : State} : st'.fds = st.fds →
    st'.files = st.files.grow.set st.files.size (fun _ => x) → Handles st op st'
  | moved {t f : ℕ} {fd pos : ℤ} {d : ℕ → Fd} {op : Op} {st' : State} :
    op.handle = some (t, fd) → 0 ≤ fd → st.fds t = some d → d fd.toNat = .file f →
      st'.fds = st.fds → st'.files = st.files.set f (fun g => { g with fPos := pos }) →
        Handles st op st'
  | closed {t f : ℕ} {fd : ℤ} {d : ℕ → Fd} {op : Op} {st' : State} : op.handle = some (t, fd) →
    0 ≤ fd → st.fds t = some d → d fd.toNat = .file f →
      st'.fds = Function.update st.fds t (some (Function.update d fd.toNat .null)) →
        st'.files = st.files → Handles st op st'
  | created {t i : ℕ} {st' : State} : st.fds i = none →
    st'.fds = Function.update st.fds i (some newDescriptors) → st'.files = st.files →
      Handles st (.create t) st'
  | tornDown {t u : ℕ} {st' : State} : st'.fds = Function.update st.fds u none →
    st'.files = st.files → Handles st (.teardown t u) st'

variable {I : State → Prop} {P D : State → Nameidata → Prop} {st st' : State} {t : ℕ} {op : Op}
  {ps : List Part} {mode : UInt16} {file : Bool} {o : Option ℕ}

theorem Walked.unopened (h : Walked t mode I D ps file o st st') :
    st'.files = st.files ∧ st'.thread = st.thread ∧ st'.threadPool = st.threadPool := by
  have hstep : ∀ {st₁ i st₂}, MakesAt t mode st₁ i st₂ →
      st₂.files = st₁.files ∧ st₂.thread = st₁.thread ∧ st₂.threadPool = st₁.threadPool := by
    rintro st₁ i st₂ ⟨y, j, F, he⟩
    rw [he.state_eq]
    exact ⟨rfl, rfl, rfl⟩
  obtain ⟨st₁, hr, hst'⟩ := h.steps
  have hrun : st₁.files = st.files ∧ st₁.thread = st.thread ∧ st₁.threadPool = st.threadPool :=
    hr.invariant (I := fun st₁ => st₁.files = st.files ∧ st₁.thread = st.thread ∧
      st₁.threadPool = st.threadPool) ⟨rfl, rfl, rfl⟩ fun hI _ hm => by
        obtain ⟨h₁, h₂, h₃⟩ := hstep hm
        exact ⟨h₁.trans hI.1, h₂.trans hI.2.1, h₃.trans hI.2.2⟩
  rcases hst' with rfl | ⟨-, i, -, -, -, hm⟩
  · exact hrun
  · obtain ⟨h₁, h₂, h₃⟩ := hstep hm
    exact ⟨h₁.trans hrun.1, h₂.trans hrun.2.1, h₃.trans hrun.2.2⟩

theorem handles_moved {f : ℕ} {fd pos : ℤ} {d : Driver} (ho : OpenOn st t fd f d)
    (ht : st.Running t) (hop : op.handle = some (t, fd)) (hthread : st'.thread = st.thread)
    (hpool : st'.threadPool = st.threadPool)
    (hfiles : st'.files = st.files.set f fun g => { g with fPos := pos }) : Handles st op st' :=
  .moved hop ho.range.1 (fds_eq_some.mpr ⟨ht, rfl⟩) ho.entry (fds_congr hthread hpool) hfiles

theorem Change.handles (hc : Change I P D st op st') : Handles st op st' := by
  cases hc with
  | same => exact .kept rfl rfl
  | walked hw =>
    obtain ⟨hfiles, hthread, hpool⟩ := hw.unopened
    exact .kept (fds_congr hthread hpool) hfiles
  | @opened t d ip path flags _ _ st₁ st' ht _ hw _ _ hopen =>
    let x : File := ⟨d, ip, 0, flags, (st₁.inode ip).iFop⟩
    obtain ⟨hfiles, hthread, hpool⟩ := hw.unopened
    have hfds := fds_congr hthread hpool
    rcases hopen with ⟨-, -, rfl⟩ | ⟨i, -, hfree, -, rfl⟩
    · refine .leaked (x := x) (fds_congr hthread hpool) ?_
      rw [← hfiles]
      rfl
    · have ht₁ : st₁.Running t := ⟨ht.1, ht.2.1, hpool ▸ ht.2.2⟩
      refine .opened (x := x) (fds_eq_some.mpr ⟨ht, rfl⟩) (hthread ▸ hfree) ?_ ?_
      · rw [← hfiles, ← hfds, ← hthread]
        exact @fds_withFd (st₁.withOpen x) t i _ ht₁
      · rw [← hfiles]
        rfl
  | read => exact .kept rfl rfl
  | printed => exact .kept rfl rfl
  | @wrote t f fd z buf st' ht ho hr =>
    obtain ⟨B, K, F, size, pos, rfl⟩ := run_kvfsWrite_frame hr
    exact handles_moved ho ht rfl rfl rfl rfl
  | sought ht ho hr =>
    rcases llseek_cases hr with rfl | ⟨pos, rfl⟩
    · exact .kept rfl rfl
    · exact handles_moved ho ht rfl rfl rfl rfl
  | mounted _ _ hroot hst =>
    have hrest : st'.files = st.files ∧ st'.fds = st.fds := by
      rw [hst, hroot.state_eq]
      exact ⟨rfl, fds_congr rfl rfl⟩
    exact .kept hrest.2 hrest.1
  | unmounted hu =>
    obtain rfl := hu.state_eq
    exact .kept (fds_congr rfl rfl) rfl
  | closed ht hfd hf =>
    exact .closed rfl hfd (fds_eq_some.mpr ⟨ht, rfl⟩) hf
      (@fds_withFd { st with freed := _ } _ _ _ ht) rfl
  | @created t =>
    rcases kmtCreate_cases st t with heq | ⟨i, ⟨hpos, hle, hi⟩, heq⟩
    · rw [heq]
      exact .kept rfl rfl
    · rw [heq]
      exact .created (if_neg hi) (fds_pool fun _ => ⟨hpos, hle⟩) rfl
  | @tornDown t u =>
    refine .tornDown ?_ rfl
    have hpool := @fds_pool st u false (st.thread u) nofun
    rw [Function.update_eq_self] at hpool
    exact hpool
  | newFs => exact .kept rfl rfl
  | world => exact .kept rfl rfl

end Steps

section Separation

variable {st st' : State} {t u k f : ℕ} {op : Op} {d : ℕ → Fd}

theorem held_closed_thread (h : st'.fds = Function.update st.fds u none) (j : ℕ × ℕ) :
    st'.held j = if j.1 = u then none else st.held j := by
  rw [State.held, h, Function.update_apply, State.held]
  split
  · rfl
  · rfl

theorem held_created (hi : st.fds u = none)
    (h : st'.fds = Function.update st.fds u (some newDescriptors)) : st'.held = st.held := by
  funext j
  rw [State.held, h, Function.update_apply, State.held]
  split
  case isTrue hj =>
    rw [hj, hi, Option.bind_some, newDescriptors]
    split
    · rfl
    · rfl
  case isFalse => rfl

/-- A step keeps the open files apart. -/
theorem Handles.separate (hs : Handles st op st') (h : Separate st.held st.files) :
    Separate st'.held st'.files := by
  cases hs with
  | kept hfds hfiles =>
    rw [held_congr hfds, hfiles]
    exact h
  | opened ht _ hfds hfiles =>
    rw [held_update ht hfds]
    exact h.add (by rw [hfiles]; rfl)
  | leaked hfds hfiles =>
    rw [held_congr hfds]
    exact h.mono (by rw [hfiles]; exact Nat.le_succ _)
  | moved _ _ _ _ hfds hfiles =>
    rw [held_congr hfds]
    exact h.mono (by rw [hfiles]; exact le_rfl)
  | closed _ _ ht _ hfds hfiles =>
    rw [held_update ht hfds, hfiles]
    refine h.sub fun {j i} hj => ?_
    rw [Function.update_apply] at hj
    split at hj
    · cases hj
    · exact hj
  | created hi hfds hfiles =>
    rw [held_created hi hfds, hfiles]
    exact h
  | tornDown hfds hfiles =>
    rw [hfiles]
    refine h.sub fun {j i} hj => ?_
    rw [held_closed_thread hfds] at hj
    exact (Option.ite_none_left_eq_some.mp hj).2

/-- What the descriptors are for: a map from the descriptors of threads to files, on which every
step acts at one key, or at those of a thread that ends. -/
inductive Acts (V : ℕ × ℕ → Option File) : Op → (ℕ × ℕ → Option File) → Prop
  | idle {op : Op} : Acts V op V
  | opens {t k : ℕ} {path : List Char} {flags : UInt32} {x : File} : V (t, k) = none →
    Acts V (.call t (.open path flags)) (Function.update V (t, k) (some x))
  | moves {t : ℕ} {fd pos : ℤ} {x : File} {op : Op} : op.handle = some (t, fd) → 0 ≤ fd →
    V (t, fd.toNat) = some x →
      Acts V op (Function.update V (t, fd.toNat) (some { x with fPos := pos }))
  | closes {t : ℕ} {fd : ℤ} {op : Op} : op.handle = some (t, fd) → 0 ≤ fd →
    Acts V op (Function.update V (t, fd.toNat) none)
  | ends {t u : ℕ} : Acts V (.teardown t u) fun j => if j.1 = u then none else V j

/-- The files behind the descriptors act as values. -/
theorem Handles.acts (hs : Handles st op st') (h : Separate st.held st.files) :
    Acts st.descriptor op st'.descriptor := by
  unfold State.descriptor
  cases hs with
  | kept hfds hfiles =>
    rw [held_congr hfds, hfiles]
    exact .idle
  | @opened t k path flags d x _ ht hfree hfds hfiles =>
    rw [held_update ht hfds, hfiles, show Fd.file? (.file st.files.size) = some _ from rfl,
      h.view_add]
    refine .opens ?_
    rw [view, State.held, ht, Option.bind_some, hfree]
    rfl
  | leaked hfds hfiles =>
    rw [held_congr hfds, hfiles, h.view_grow]
    exact .idle
  | @moved t f fd pos d _ _ hop hfd ht hf hfds hfiles =>
    have hheld : st.held (t, fd.toNat) = some f := by
      rw [State.held, ht, Option.bind_some, hf]
      rfl
    rw [held_congr hfds, hfiles, h.view_set hheld]
    refine .moves hop hfd ?_
    rw [view, hheld]
    rfl
  | closed hop hfd ht _ hfds hfiles =>
    rw [held_update ht hfds, hfiles, view_update]
    exact .closes hop hfd
  | created hi hfds hfiles =>
    rw [held_created hi hfds, hfiles]
    exact .idle
  | @tornDown t u _ hfds hfiles =>
    have hview : view st'.held st'.files = fun j => if j.1 = u then none else
        view st.held st.files j := by
      funext j
      rw [view, held_closed_thread hfds, hfiles]
      split
      · rfl
      · rfl
    rw [hview]
    exact .ends

theorem Acts.other {V V' : ℕ × ℕ → Option File} {x : File} (ha : Acts V op V')
    (hx : V (u, k) = some x) (hop : op.handle ≠ some (u, (k : ℤ)))
    (hend : ∀ t, op ≠ .teardown t u) : V' (u, k) = some x := by
  have hother : ∀ {t fd}, op.handle = some (t, fd) → 0 ≤ fd → ((u, k) : ℕ × ℕ) ≠ (t, fd.toNat) := by
    rintro t fd hfd hpos heq
    obtain ⟨rfl, rfl⟩ := Prod.mk.inj heq
    exact hop (by rw [hfd, Int.toNat_of_nonneg hpos])
  cases ha with
  | idle => exact hx
  | opens hfree =>
    rw [Function.update_of_ne]
    · exact hx
    · intro heq
      rw [heq, hfree] at hx
      cases hx
  | moves hfd hpos _ => rw [Function.update_of_ne (hother hfd hpos), hx]
  | closes hfd hpos => rw [Function.update_of_ne (hother hfd hpos), hx]
  | @ends t u' =>
    have hne : u ≠ u' := fun heq => hend t (heq ▸ rfl)
    dsimp only
    rw [if_neg hne, hx]

end Separation

section Reached

variable {st st' : State} {t u k f : ℕ} {op : Op} {path : List Char} {flags : UInt32} {fd : ℤ}

def Standard (st : State) : Prop := ∀ t d, st.fds t = some d → ∀ i < 3, d i = .std

/-- The descriptors of threads lead to files of their own, behind the three standard streams. -/
structure Apart (st : State) : Prop where
  separate : Separate st.held st.files
  standard : Standard st

theorem newDescriptors_std {i : ℕ} (hi : i < 3) : newDescriptors i = .std := by
  have hcases : i = 0 ∨ i = 1 ∨ i = 2 := by omega
  rcases hcases with rfl | rfl | rfl <;> rfl

theorem Handles.standard (hs : Handles st op st') (h : Standard st) : Standard st' := by
  have hentry : ∀ {t d k e}, st.fds t = some d → d k ≠ .std →
      st'.fds = Function.update st.fds t (some (Function.update d k e)) → Standard st' := by
    intro t d k e ht hk hfds u d' hu i hi
    rw [hfds, Function.update_apply] at hu
    split at hu
    case isTrue =>
      obtain rfl := Option.some.inj hu
      have hold := h t d ht i hi
      rw [Function.update_of_ne]
      · exact hold
      · rintro rfl
        exact hk hold
    case isFalse => exact h u d' hu i hi
  cases hs with
  | kept hfds _ =>
    rw [Standard, hfds]
    exact h
  | opened ht hfree hfds _ => exact hentry ht (by rw [hfree]; exact Fd.noConfusion) hfds
  | leaked hfds _ =>
    rw [Standard, hfds]
    exact h
  | moved _ _ _ _ hfds _ =>
    rw [Standard, hfds]
    exact h
  | closed _ _ ht hf hfds _ => exact hentry ht (by rw [hf]; exact Fd.noConfusion) hfds
  | created _ hfds _ =>
    intro u d hu i hi
    rw [hfds, Function.update_apply] at hu
    split at hu
    · obtain rfl := Option.some.inj hu
      exact newDescriptors_std hi
    · exact h u d hu i hi
  | tornDown hfds _ =>
    intro u d hu i hi
    rw [hfds, Function.update_apply] at hu
    split at hu
    · cases hu
    · exact h u d hu i hi

theorem Handles.running (hs : Handles st op st') (ht : st.Running t)
    (hend : ∀ u, op ≠ .teardown u t) : st'.Running t := by
  have hfds : st.fds t ≠ none := by simp [State.fds, ht]
  suffices h : st'.fds t ≠ none by
    obtain ⟨d, hd⟩ := Option.ne_none_iff_exists'.mp h
    exact (fds_eq_some.mp hd).1
  have hset : ∀ {u d}, Function.update st.fds u (some d) t ≠ none := by
    intro u d
    rw [Function.update_apply]
    split
    · exact Option.some_ne_none d
    · exact hfds
  cases hs with
  | kept heq _ => rwa [heq]
  | opened _ _ heq _ => exact heq ▸ hset
  | leaked heq _ => rwa [heq]
  | moved _ _ _ _ heq _ => rwa [heq]
  | closed _ _ _ _ heq _ => exact heq ▸ hset
  | created _ heq _ => exact heq ▸ hset
  | tornDown heq _ =>
    rw [heq, Function.update_of_ne]
    · exact hfds
    · rintro rfl
      exact hend _ rfl

theorem handles_of_exec (h : Inv st) (ho : Orderly st) (hs : exec st op = some st') :
    Handles st op st' := by
  have hc : Change Orderly At DirAt st op st' :=
    change_of_exec walkable_at ho h (fun ht => dirAt_start h ho.tidy ht) hs
  exact hc.handles

theorem fds_started (hs : Started st) :
    st.fds = Function.update (fun _ => none) 1 (some newDescriptors) := by
  funext t
  by_cases ht : t = 1
  · subst ht
    rw [Function.update_self, State.fds, if_pos (hs.running.mpr rfl), hs.fileDescriptors]
  · rw [Function.update_of_ne ht, State.fds, if_neg fun hrunning => ht (hs.running.mp hrunning)]

theorem apart_started (hs : Started st) : Apart st := by
  have hfds := fds_started hs
  have hheld : ∀ j, st.held j = none := by
    intro j
    rw [State.held, hfds, Function.update_apply]
    split
    · rw [Option.bind_some, newDescriptors]
      split
      · rfl
      · rfl
    · rfl
  constructor
  case separate =>
    constructor
    · intro k i hk
      rw [hheld] at hk
      cases hk
    · intro k k' i hk
      rw [hheld] at hk
      cases hk
  case standard =>
    intro t d ht i hi
    rw [hfds, Function.update_apply] at ht
    split at ht
    · obtain rfl := Option.some.inj ht
      exact newDescriptors_std hi
    · cases ht

theorem Reach.apart {Q : State → Op → Prop} (hr : Reach st Q) : Apart st := by
  obtain ⟨st₀, h₀, hr⟩ := hr
  have hall : (Inv st ∧ st.Tidy) ∧ Apart st :=
    hr.invariant (I := fun st => (Inv st ∧ st.Tidy) ∧ Apart st)
      ⟨⟨inv_started h₀, tidy_started h₀⟩, apart_started h₀⟩ fun {st op st'} h _ hs => by
        obtain ⟨⟨hinv, htidy⟩, hapart⟩ := h
        have hsteps := handles_of_exec hinv ⟨hinv.wf, htidy⟩ hs
        exact ⟨⟨inv_exec hinv hs, tidy_exec hinv htidy hs⟩, hsteps.separate hapart.separate,
          hsteps.standard hapart.standard⟩
  exact hall.2

theorem isSome_openTwice : (replay exec initial [.call 1 (.open "/f".toList O_RDWR),
    .call 1 (.open "/f".toList O_RDWR)]).isSome = true := by decide +kernel

/-- A file that a thread has opened on two descriptors. -/
def openTwice : State := Option.get _ isSome_openTwice

theorem reachable_openTwice : Reachable openTwice :=
  reachable_of_replay (Option.some_get isSome_openTwice).symm

end Reached

end NSOS.Vfs
