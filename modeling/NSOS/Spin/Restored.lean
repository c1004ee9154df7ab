import NSOS.Basis.Runs
import NSOS.Spin.Agree

/-! # Every operation leaves the locks as they were

An operation whose locks are free restores the locks, the counter and the
interrupt flag on every return path, apart from a teardown of a thread that is
not in the pool. That one returns with the thread lock, and interrupts stay
disabled.
-/

namespace NSOS.Spin

open Basis Prog
open Pmm (Area)
open Vfs (KERNEL_MAX_THREAD)

section System

inductive Op where
  | kmtCreate (thread : ℕ)
  | kmtTeardown (thread : ℕ)
  | kmtSemSignal (sem : ℕ)
  | pmmAlloc (size : ℕ)
  | pmmFree (ptr : ℕ)
  | procLookup (ip dp : ℕ)
  | procRead (fp count : ℕ)
  | printchar (ch : Char)

namespace Op

/-- The locks that an operation takes. -/
def takes : Op → List Spinlock
  | kmtCreate _ => [.threadLock, .kernelMemoryLock, .consoleLock]
  | kmtTeardown _ => [.threadLock, .kernelMemoryLock, .consoleLock]
  | kmtSemSignal _ => [.semaphoreLock]
  | pmmAlloc _ => [.kernelMemoryLock, .consoleLock]
  | pmmFree _ => [.kernelMemoryLock]
  | procLookup .. => [.threadLock]
  | procRead .. => [.threadLock]
  | printchar _ => [.consoleLock]

variable (h : Area) (fuel : ℕ)

/-- The program of an operation, without its result. Loops over the heap take at most `fuel`
steps. -/
def body : Op → Code Unit
  | kmtCreate thread => Spin.kmtCreate h fuel thread >>= fun _ => pure ()
  | kmtTeardown thread => Spin.kmtTeardown h fuel thread
  | kmtSemSignal sem => Spin.kmtSemSignal sem
  | pmmAlloc size => Spin.pmmAlloc h fuel size >>= fun _ => pure ()
  | pmmFree ptr => Spin.pmmFree h fuel ptr
  | procLookup ip dp => Spin.procLookup ip dp >>= fun _ => pure ()
  | procRead fp count => Spin.procRead fp count >>= fun _ => pure ()
  | printchar ch => Spin.printchar ch

def exec (o : Op) (x : System) : Option System := (Spin.exec (o.body h fuel) x).map Prod.snd

/-- The operation is not a teardown of a thread that is in no slot of the pool. -/
def Found (k : Machine) : Op → Prop
  | kmtTeardown thread => ∃ u : ℕ, 0 < u ∧ u ≤ KERNEL_MAX_THREAD ∧ k.Holds thread u
  | _ => True

end Op

inductive Event where
  | op (o : Op)
  | semWait (sem : ℕ)
  /-- The timer schedules another thread. -/
  | switch (t : ℕ)
  /-- The running thread changes anything but the locks. -/
  | other (k : Machine)

def Happens (h : Area) (x : System) : Event → System → Prop
  | .op o, y => ∃ fuel, o.exec h fuel x = some y
  | .semWait sem, y => (exec (kmtSemWait sem) x).map Prod.snd = some y
  | .switch t, y => x.2.intr = true ∧ y = ({ x.1 with currentThreadIndex := t }, x.2)
  | .other k, y => k.currentThreadIndex = x.1.currentThreadIndex ∧ y = (k, x.2)

/-- No lock is locked, and interrupts are enabled or not. -/
def Started (x : System) : Prop := (∀ s, x.2.status s = 0) ∧ x.2.lockcount = 0

def Reach (h : Area) (x : System) : Prop :=
  ∃ x₀, Started x₀ ∧ Run (Happens h) (fun _ _ => True) x₀ x

end System

section Sanity

variable {h : Area} {x y : System} {e : Event} {o : Op} {fuel : ℕ}

theorem sane_started (hx : Started x) : x.2.Sane where
  status s := .inl (hx.1 s)
  lockcount := by
    have hnone : x.2.locked = ∅ := Finset.eq_empty_of_forall_notMem fun s hs => by
      rw [mem_locked, hx.1] at hs
      exact absurd hs (by decide)
    rw [hnone, hx.2]
    rfl
  intr hne := absurd hx.2 hne

theorem sane_op (hx : x.2.Sane) (hr : o.exec h fuel x = some y) : y.2.Sane := by
  obtain ⟨r, hrun, rfl⟩ := Option.map_eq_some_iff.mp hr
  exact sane_exec hx hrun

theorem sane_happens (hx : x.2.Sane) (hs : Happens h x e y) : y.2.Sane := by
  cases e with
  | op o => exact sane_op hx hs.choose_spec
  | semWait sem =>
    obtain ⟨r, hrun, rfl⟩ := Option.map_eq_some_iff.mp hs
    exact sane_exec hx hrun
  | switch t =>
    obtain ⟨-, rfl⟩ := hs
    exact hx
  | other k =>
    obtain ⟨-, rfl⟩ := hs
    exact hx

theorem Reach.sane (hr : Reach h x) : x.2.Sane := by
  obtain ⟨x₀, h₀, hr⟩ := hr
  exact hr.invariant (sane_started h₀) fun hx _ hs => sane_happens hx hs

/-- Threads are only scheduled while no lock is locked, so that a locked lock is one that the
running thread has locked. -/
theorem Reach.switch {t : ℕ} (hr : Reach h x) (hs : Happens h x (.switch t) y) (s : Spinlock) :
    x.2.status s = 0 := by
  refine hr.sane.lockcount_eq_zero.mp ?_ s
  by_contra hne
  have hoff := hr.sane.intr hne
  rw [hs.1] at hoff
  cases hoff

end Sanity

section Restored

variable {h : Area} {x y : System} {o : Op} {fuel n i j thread : ℕ} {α : Type} {p : Code α}
  {u : Spinlock → Prop} {found : ℕ → Bool} {k : Machine} {l : Locks} {a : α}

/-- A nested program restores the locks when those that it takes are free. -/
theorem exec_same (hp : Nested u [] p) (hx : x.2.Sane) (hu : ∀ s, u s → x.2.status s = 0)
    (hr : exec p x = some (a, y)) : x.2.Same y.2 := by
  rcases exec_nested hx (hp.mono hu) hx.holds x.1 with ⟨-, hnone⟩ | ⟨b, k, l, -, hsome, hl⟩
  · rw [hnone] at hr
    cases hr
  · rw [hsome] at hr
    obtain ⟨-, rfl⟩ := Prod.mk.inj (Option.some.inj hr)
    exact hl.same hx

theorem scan_lt : scan found n i < i + n ↔ ∃ j, i ≤ j ∧ j < i + n ∧ found j = true := by
  induction n generalizing i with
  | zero => simp only [scan, Nat.add_zero]; omega
  | succ n ih =>
    rw [scan]
    split
    case isTrue hi => exact ⟨fun _ => ⟨i, le_rfl, by omega, hi⟩, fun _ => by omega⟩
    case isFalse hi =>
      rw [show i + (n + 1) = i + 1 + n by omega, ih]
      refine exists_congr fun j => and_congr_left fun hand => ?_
      refine ⟨fun hle => by omega, fun hle => ?_⟩
      rcases Nat.eq_or_lt_of_le hle with rfl | hlt
      · exact absurd hand.2 hi
      · exact hlt

theorem scanPool_le :
    (scanPool found : ℤ) ≤ KERNEL_MAX_THREAD ↔ ∃ u : ℕ, 0 < u ∧ u ≤ KERNEL_MAX_THREAD ∧
      found u = true := by
  have hmax : (KERNEL_MAX_THREAD.toNat : ℤ) = KERNEL_MAX_THREAD := rfl
  have hlt : (scanPool found : ℤ) ≤ KERNEL_MAX_THREAD ↔
      scanPool found < 1 + KERNEL_MAX_THREAD.toNat := by omega
  rw [hlt, scanPool, scan_lt]
  refine exists_congr fun u => and_congr Iff.rfl (and_congr_left fun _ => ?_)
  omega

theorem nested_body (ho : ∀ thread, o ≠ .kmtTeardown thread) :
    Nested (· ∈ o.takes) [] (o.body h fuel) := by
  cases o with
  | kmtCreate thread => exact (nested_kmtCreate thread).discard
  | kmtTeardown thread => exact absurd rfl (ho thread)
  | kmtSemSignal sem => exact nested_kmtSemSignal sem
  | pmmAlloc size => exact (nested_pmmAlloc size).discard
  | pmmFree ptr => exact nested_pmmFree ptr
  | procLookup ip dp => exact (nested_procLookup ip dp).discard
  | procRead fp count => exact (nested_procRead fp count).discard
  | printchar ch => exact (nested_printchar ch).mono fun s hs => hs ▸ List.mem_singleton_self _

theorem exec_lock {s : Spinlock} {q : Unit → Code α} (hs : x.2.status s = 0) :
    exec (kmtSpinLock s >>= q) x = exec (q ()) (x.1, x.2.lock s) := by
  have htry : simpleLockTry report s x = some (x.1, x.2.lock s) := by
    rw [simpleLockTry, if_neg (by rw [hs]; decide)]
  change (simpleLockTry report s x).bind _ = _
  rw [htry]
  rfl

theorem exec_kmtTeardown (hx : x.2.Sane)
    (hfree : ∀ s ∈ (Op.kmtTeardown thread).takes, x.2.status s = 0)
    {b : Unit} (hr : exec (kmtTeardown h fuel thread) x = some (b, y)) :
    if KERNEL_MAX_THREAD < scanPool fun u => x.1.Holds thread u then
      y.2.status .threadLock = 1
    else x.2.Same y.2 := by
  have hlock : x.2.status .threadLock = 0 := hfree _ (by simp [Op.takes])
  rw [kmtTeardown, exec_lock hlock] at hr
  change exec (if KERNEL_MAX_THREAD < scanPool fun u => x.1.Holds thread u then
      syslog "KMT" "Attempted to kill a non-exist thread".toList
    else kmtTeardownSlot h fuel (scanPool fun u => x.1.Holds thread u))
      (x.1, x.2.lock .threadLock) = _ at hr
  split at hr
  case isTrue hnone =>
    rw [if_pos hnone]
    have hsame := exec_same (nested_syslog _ _) (hx.lock hlock) (fun s hs => ?_) hr
    · rw [hsame.status]
      simp
    · subst hs
      simpa using hfree .consoleLock (by simp [Op.takes])
  case isFalse hfound =>
    rw [if_neg hfound]
    have hholds := (hx.holds.lock hx hlock List.not_mem_nil).2
    rcases exec_nested hx (nested_kmtTeardownSlot.mono hfree) hholds x.1 with
      ⟨-, hnone⟩ | ⟨b, k, l, -, hsome, hl⟩
    · rw [hnone] at hr
      cases hr
    · rw [hsome] at hr
      obtain ⟨-, rfl⟩ := Prod.mk.inj (Option.some.inj hr)
      exact hl.same hx

/-- Every operation whose locks are free leaves the status of every lock, the counter and the
interrupt flag as they were, when it returns, if and only if it is not a teardown of a thread that
is in no slot of the pool. -/
theorem locks_restored (hreach : Reach h x) (hfree : ∀ s ∈ o.takes, x.2.status s = 0)
    (hr : o.exec h fuel x = some y) : x.2.Same y.2 ↔ o.Found x.1 := by
  have hx := hreach.sane
  obtain ⟨⟨b, z⟩, hrun, rfl⟩ := Option.map_eq_some_iff.mp hr
  by_cases ho : ∃ thread, o = .kmtTeardown thread
  · obtain ⟨thread, rfl⟩ := ho
    have hfound : (Op.kmtTeardown thread).Found x.1 ↔
        ¬ KERNEL_MAX_THREAD < scanPool fun u => x.1.Holds thread u := by
      rw [not_lt, scanPool_le]
      simp only [decide_eq_true_eq]
      rfl
    have hteardown := exec_kmtTeardown hx hfree hrun
    rw [hfound]
    split at hteardown
    case isTrue hnone =>
      refine ⟨fun hsame => ?_, fun hnot => absurd hnone hnot⟩
      rw [hsame.status, hfree _ (by simp [Op.takes])] at hteardown
      exact absurd hteardown (by decide)
    case isFalse hfound => exact ⟨fun _ => hfound, fun _ => hteardown⟩
  · have hfound : o.Found x.1 := by
      cases o with
      | kmtTeardown thread => exact absurd ⟨thread, rfl⟩ ho
      | _ => trivial
    have hnested : Nested (· ∈ o.takes) [] (o.body h fuel) :=
      nested_body fun thread heq => ho ⟨thread, heq⟩
    exact ⟨fun _ => hfound, fun _ => exec_same hnested hx hfree hrun⟩

end Restored

section Histories

def area : Area := ⟨16, 2 ^ 24, by decide, by decide, by decide, by decide⟩

/-- The kernel with `launchd` and a thread whose stack lies between two fences. -/
def boot : System where
  fst := {
    heap := ⟨fun a => if a = 99 ∨ a = 200 then STACK_MAGIC else if a = 98 then 1 else 0, 16⟩
    fs := { (default : Vfs.State) with threadPool := fun i => i = 1 ∨ i = 2 }
    struct := fun u => if u = 2 then 7 else 1
    thread := fun t => if t = 7 then ⟨2, 100, 200, false, 0⟩ else ⟨1, 0, 0, false, 0⟩
    currentThreadIndex := 1
    count := fun _ => 0
    console := ⟨0, 0, 80, 25, true, false, 0, fun _ _ => ' '⟩
    serial := []
    uptime := fun n => 1000 * n
    ticks := 0 }
  snd := ⟨fun _ => 0, 0, false, true⟩

theorem reach_boot : Reach area boot := ⟨boot, ⟨fun _ => rfl, rfl⟩, .refl⟩

/-- The thread is torn down. -/
theorem locks_restored_run : ∃ y, (Op.kmtTeardown 7).exec area 10 boot = some y ∧
    y.1.fs.threadPool 2 = false ∧ boot.2.Same y.2 := by
  have hreplay : ((Op.kmtTeardown 7).exec area 10 boot).any
      (fun y => y.1.fs.threadPool 2 = false) = true := by decide +kernel
  obtain ⟨y, hy, hpool⟩ := (Option.any_eq_true _ _).mp hreplay
  refine ⟨y, hy, of_decide_eq_true hpool, ?_⟩
  exact (locks_restored reach_boot (fun _ _ => rfl) hy).mpr ⟨2, by decide, by decide, rfl, rfl⟩

/-- A teardown of a thread that is not in the pool returns with the thread lock. -/
theorem lock_kept : ¬ ∀ (h : Area) (fuel : ℕ) (o : Op) (x y : System), Reach h x →
    (∀ s ∈ o.takes, x.2.status s = 0) → o.exec h fuel x = some y → x.2.Same y.2 := by
  intro hall
  have hreplay : ((Op.kmtTeardown 8).exec area 0 boot).any
      (fun y => y.2.status .threadLock = 1) = true := by decide +kernel
  obtain ⟨y, hy, hlocked⟩ := (Option.any_eq_true _ _).mp hreplay
  have hsame := hall area 0 (.kmtTeardown 8) boot y reach_boot (fun _ _ => rfl) hy
  have hstatus := of_decide_eq_true hlocked
  rw [hsame.status] at hstatus
  exact absurd hstatus (by decide)

end Histories

end NSOS.Spin
