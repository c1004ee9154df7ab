import NSOS.Spin.Operations

/-! # The thread pool

The thread pool as the scheduler sees it: the slots, what each `struct thread`
holds for the scheduler, and the index of the running thread. The kernel writes
the fences of a stack when it creates a thread, and no thread leaves its stack.
-/

namespace NSOS.Sched

open Basis
open Spin (STACK_MAGIC scan scanPool)
open Vfs (KERNEL_MAX_THREAD)

section State

def THREAD_POOL_MAGIC : UInt32 := 0xcccccccc

/-- What `struct thread` holds for the scheduler and the semaphores, with the two bytes that fence
its stack. Register sets are known by their addresses `R`. -/
structure Thread (R : Type) where
  status : R
  sleep : Bool
  /-- The semaphore that the thread waits for, zero for none. -/
  currentWaiting : ℕ
  below : UInt8
  above : UInt8

/-- `thread_pool` and what its pointers point to, `current_thread_index` and the semaphores. -/
structure Pool (R : Type) where
  threadPool : ℕ → UInt32
  thread : UInt32 → Thread R
  currentThreadIndex : UInt32
  count : ℕ → ℤ

variable {R : Type}

def Thread.Fenced (th : Thread R) : Prop := th.below = STACK_MAGIC ∧ th.above = STACK_MAGIC

instance (th : Thread R) : Decidable th.Fenced := inferInstanceAs (Decidable (_ ∧ _))

end State

section Functions

variable {R : Type}

namespace Pool

variable (k : Pool R)

/-- The loop of `kmt_schedule`, with the number of rounds it may still take. -/
def scheduleLoop : ℕ → UInt32 → Option UInt32
  | 0, _ => none
  | n + 1, i =>
    let i := i % UInt32.ofNat KERNEL_MAX_THREAD.toNat
    let i := i + 1
    if k.threadPool i.toNat = 0 ∨ (k.thread (k.threadPool i.toNat)).sleep = true then
      scheduleLoop n i
    else some i

/-- `kmt_schedule`. A panic halts the machine. -/
def kmtSchedule (fuel : ℕ) : Option (UInt32 × Pool R) :=
  if k.currentThreadIndex ≠ -1 ∧ (k.threadPool 0 ≠ THREAD_POOL_MAGIC ∨
      k.threadPool (KERNEL_MAX_THREAD.toNat + 1) ≠ THREAD_POOL_MAGIC) then none
  else if k.currentThreadIndex ≠ -1 ∧
      ¬(k.thread (k.threadPool k.currentThreadIndex.toNat)).Fenced then none
  else (k.scheduleLoop fuel k.currentThreadIndex).map fun i =>
    (k.threadPool i.toNat, { k with currentThreadIndex := i })

/-- `kmt_create`, with the context that `_make` builds. A null pointer is not written to. -/
def kmtCreate (thread : UInt32) (make : R) : Option (Pool R) :=
  let i := scanPool fun u => k.threadPool u = 0
  if KERNEL_MAX_THREAD < i then some k
  else if thread = 0 then none
  else some { k with
    threadPool := Function.update k.threadPool i thread
    thread := Function.update k.thread thread
      { status := make
        sleep := false
        currentWaiting := 0
        below := STACK_MAGIC
        above := STACK_MAGIC } }

/-- `kmt_teardown`. A thread that tears itself down and a broken fence halt the machine. -/
def kmtTeardown (thread : UInt32) : Option (Pool R) :=
  let i := scanPool fun u => k.threadPool u = thread
  if KERNEL_MAX_THREAD < i then some k
  else if i = k.currentThreadIndex.toNat then none
  else if thread = 0 ∨ ¬(k.thread (k.threadPool i)).Fenced then none
  else some { k with threadPool := Function.update k.threadPool i 0 }

def setThread (thread : UInt32) (f : Thread R → Thread R) : Pool R :=
  { k with thread := Function.update k.thread thread (f (k.thread thread)) }

/-- What `kmt_sem_wait` of the running thread does each time it gets the semaphore lock. -/
def kmtSemWait (sem : ℕ) : Option (Pool R) :=
  if k.currentThreadIndex = -1 then none
  else if k.count sem = 0 then
    some (k.setThread (k.threadPool k.currentThreadIndex.toNat) fun th =>
      { th with currentWaiting := sem, sleep := true })
  else some { k with count := Function.update k.count sem (toInt (k.count sem - 1)) }

/-- `kmt_sem_signal`. Empty slots match no semaphore. -/
def kmtSemSignal (sem : ℕ) : Pool R :=
  let k := { k with count := Function.update k.count sem (toInt (k.count sem + 1)) }
  let i := scanPool fun u => k.threadPool u ≠ 0 ∧ (k.thread (k.threadPool u)).sleep = true ∧
    (k.thread (k.threadPool u)).currentWaiting = sem
  if i ≤ KERNEL_MAX_THREAD then
    k.setThread (k.threadPool i) fun th => { th with sleep := false, currentWaiting := 0 }
  else k

inductive Op (R : Type) where
  | schedule
  | create (thread : UInt32) (make : R)
  | teardown (thread : UInt32)
  | semWait (sem : ℕ)
  | semSignal (sem : ℕ)

def exec : Op R → Option (Pool R)
  | .schedule => (k.kmtSchedule KERNEL_MAX_THREAD.toNat).map Prod.snd
  | .create thread make => k.kmtCreate thread make
  | .teardown thread => k.kmtTeardown thread
  | .semWait sem => k.kmtSemWait sem
  | .semSignal sem => some (k.kmtSemSignal sem)

/-- The pool after `kmt_init` and `os_run`. -/
structure Started : Prop where
  first : k.threadPool 0 = THREAD_POOL_MAGIC
  last : k.threadPool (KERNEL_MAX_THREAD.toNat + 1) = THREAD_POOL_MAGIC
  launchd : k.threadPool 1 ≠ 0
  empty : ∀ u, 1 < u → u ≤ KERNEL_MAX_THREAD.toNat → k.threadPool u = 0
  awake : (k.thread (k.threadPool 1)).sleep = false
  fenced : (k.thread (k.threadPool 1)).Fenced
  currentThreadIndex : k.currentThreadIndex = -1

/-- The states that the operations reach. -/
def Reach : Prop :=
  ∃ k₀ : Pool R, k₀.Started ∧ Run (fun k op k' => exec k op = some k') (fun _ _ => True) k₀ k

/-- A slot that the scheduler may select. -/
structure Ready (u : ℕ) : Prop where
  pos : 0 < u
  le : u ≤ KERNEL_MAX_THREAD.toNat
  occupied : k.threadPool u ≠ 0
  awake : (k.thread (k.threadPool u)).sleep = false

/-- What holds of the pool in every state. -/
structure Inv : Prop where
  first : k.threadPool 0 = THREAD_POOL_MAGIC
  last : k.threadPool (KERNEL_MAX_THREAD.toNat + 1) = THREAD_POOL_MAGIC
  fenced : ∀ u, 0 < u → u ≤ KERNEL_MAX_THREAD.toNat → k.threadPool u ≠ 0 →
    (k.thread (k.threadPool u)).Fenced
  index : k.currentThreadIndex = -1 ∨ 0 < k.currentThreadIndex.toNat ∧
    k.currentThreadIndex.toNat ≤ KERNEL_MAX_THREAD.toNat ∧
    k.threadPool k.currentThreadIndex.toNat ≠ 0

end Pool

end Functions

section Scan

variable {found : ℕ → Bool} {n i j : ℕ}

theorem scan_spec (h : scan found n i < i + n) :
    i ≤ scan found n i ∧ found (scan found n i) = true := by
  induction n generalizing i with
  | zero => simp only [scan] at h; omega
  | succ n ih =>
    rw [scan] at h ⊢
    split
    case isTrue hi => exact ⟨le_rfl, hi⟩
    case isFalse hi =>
      rw [if_neg hi] at h
      obtain ⟨hle, hf⟩ := ih (i := i + 1) (by omega)
      exact ⟨by omega, hf⟩

theorem scanPool_spec (h : (scanPool found : ℤ) ≤ KERNEL_MAX_THREAD) :
    0 < scanPool found ∧ scanPool found ≤ KERNEL_MAX_THREAD.toNat ∧
      found (scanPool found) = true := by
  have hmax : (KERNEL_MAX_THREAD.toNat : ℤ) = KERNEL_MAX_THREAD := rfl
  have hlt : scanPool found < 1 + KERNEL_MAX_THREAD.toNat := by omega
  obtain ⟨hle, hf⟩ := scan_spec hlt
  exact ⟨hle, by omega, hf⟩

end Scan

end NSOS.Sched
