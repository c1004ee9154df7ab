import NSOS.Spin.Operations

/-! # The operations are nested

Each operation gives back the locks that it takes on every return path, with
one exception. Apart from the locks the operations do what the models of the
allocator, the thread pool and `procfs` say.
-/

namespace NSOS.Spin

open Basis Prog
open Pmm (Area)
open Vfs (KERNEL_MAX_THREAD)

section Nesting

variable {h : Area} {fuel n count b i : ℕ}

instance quiet_setHeap {f} : Quiet (setHeap f) := quiet_modify _

theorem nested_unlock {u : Spinlock → Prop} {s : Spinlock} :
    Nested u [s] (kmtSpinUnlock s) := ⟨[], rfl, rfl⟩

instance quiet_onFs {α : Type} {p : Vfs.Code α} : Quiet (onFs p) :=
  ⟨fun _ => (quiet_demand _).noSem⟩

theorem nested_printBlocks :
    Nested (· = .consoleLock) [] (printBlocks h n count b) := by
  induction n generalizing count b with
  | zero => exact nested_pure ()
  | succ n ih =>
    refine nested_ite (nested_quiet_bind fun m => ?_) (nested_pure ())
    exact nested_bind (nested_printf _) (by decide) fun _ => ih

theorem nested_pmmPrintMemoryLayout : Nested (· = .consoleLock) [] (pmmPrintMemoryLayout h) :=
  nested_quiet_bind fun _ => nested_bind (nested_printf _) (by decide) fun _ =>
    nested_bind nested_printBlocks (by decide) fun _ => nested_printf _

theorem nested_pmmPlace (b a size : ℕ) :
    Nested (· ∈ [Spinlock.kernelMemoryLock, .consoleLock]) [.kernelMemoryLock]
      (pmmPlace h b a size) := by
  refine nested_ite ?_ ?_
  · refine nested_quiet_bind fun _ => nested_quiet_bind fun m => nested_ite ?_ ?_
    · exact nested_quiet_bind fun _ => nested_signal (nested_pure _)
    · exact nested_quiet_bind fun _ => nested_signal (nested_pure _)
  · exact nested_quiet_bind fun _ => nested_quiet_bind fun _ => nested_signal (nested_pure _)

theorem nested_pmmAlloc (size : ℕ) :
    Nested (· ∈ [Spinlock.kernelMemoryLock, .consoleLock]) [] (pmmAlloc h fuel size) := by
  refine nested_wait (by decide) (by decide) (nested_quiet_bind fun r => ?_)
  refine nested_quiet_bind fun b => nested_quiet_bind fun b => nested_ite ?_ ?_
  · refine nested_bind (nested_syslog _ _) (by decide) fun _ => ?_
    exact nested_bind nested_pmmPrintMemoryLayout (by decide) fun _ => nested_signal (nested_pure _)
  · exact nested_pmmPlace _ _ _

theorem nested_pmmFree (ptr : ℕ) :
    Nested (· ∈ [Spinlock.kernelMemoryLock]) [] (pmmFree h fuel ptr) := by
  refine nested_wait (by decide) (by decide) (nested_quiet_bind fun s => ?_)
  exact nested_quiet_bind fun s => nested_quiet_bind fun _ => nested_unlock

theorem nested_kmtCreate (thread : ℕ) :
    Nested (· ∈ [Spinlock.threadLock, .kernelMemoryLock, .consoleLock]) []
      (kmtCreate h fuel thread) := by
  refine nested_wait (by decide) (by decide) (nested_quiet_bind fun i => nested_ite ?_ ?_)
  · exact nested_bind (nested_syslog _ _) (by decide) fun _ => nested_signal (nested_pure _)
  · refine nested_quiet_bind fun _ => nested_quiet_bind fun _ => ?_
    refine nested_bind (nested_pmmAlloc _) (by decide) fun a => ?_
    refine nested_quiet_bind fun _ => nested_quiet_bind fun _ => nested_quiet_bind fun _ => ?_
    refine nested_quiet_bind fun _ => nested_quiet_bind fun th => nested_quiet_bind fun _ => ?_
    exact nested_bind (nested_syslog _ _) (by decide) fun _ => nested_signal (nested_pure _)

theorem nested_kmtTeardownSlot :
    Nested (· ∈ [Spinlock.threadLock, .kernelMemoryLock, .consoleLock]) [.threadLock]
      (kmtTeardownSlot h fuel i) := by
  refine nested_quiet_bind fun t => nested_ite ?_ ?_
  · exact nested_bind (nested_syslog _ _) (by decide) fun _ => nested_stop
  · refine nested_quiet_bind fun th => nested_quiet_bind fun _ => nested_quiet_bind fun _ => ?_
    refine nested_ite ?_ ?_
    · exact nested_bind (nested_syslog _ _) (by decide) fun _ => nested_stop
    · refine nested_bind (nested_pmmFree _) (by decide) fun _ => ?_
      exact nested_quiet_bind fun _ => nested_unlock

theorem nested_kmtSemSignal (sem : ℕ) :
    Nested (· ∈ [Spinlock.semaphoreLock]) [] (kmtSemSignal sem) := by
  refine nested_wait (by decide) (by decide) (nested_quiet_bind fun _ => ?_)
  exact nested_quiet_bind fun i => nested_quiet_bind fun _ => nested_unlock

theorem nested_procLookupPid (ip dp : ℕ) (pid : ℤ) (name : List Char) :
    Nested (· ∈ [Spinlock.threadLock]) [.threadLock] (procLookupPid ip dp pid name) := by
  induction name generalizing pid with
  | nil =>
    refine nested_quiet_bind fun used => nested_ite ?_ ?_
    · exact nested_quiet_bind fun _ => nested_signal (nested_pure _)
    · exact nested_signal (nested_pure _)
  | cons c cs ih => exact nested_ite (ih _) (nested_signal (nested_pure _))

theorem nested_procLookup (ip dp : ℕ) :
    Nested (· ∈ [Spinlock.threadLock]) [] (procLookup ip dp) := by
  refine nested_wait (by decide) (by decide) (nested_quiet_bind fun root => nested_ite ?_ ?_)
  · refine nested_quiet_bind fun name => ?_
    refine nested_ite ?_ (nested_ite ?_ (nested_ite ?_ (nested_ite ?_ ?_)))
    · exact nested_quiet_bind fun _ => nested_signal (nested_pure _)
    · exact nested_quiet_bind fun _ => nested_signal (nested_pure _)
    · exact nested_signal (nested_pure _)
    · exact nested_signal (nested_pure _)
    · exact nested_procLookupPid ip dp 0 name
  · exact nested_signal (nested_pure _)

theorem nested_procRead (fp count : ℕ) :
    Nested (· ∈ [Spinlock.threadLock]) [] (procRead fp count) := by
  refine nested_wait (by decide) (by decide) (nested_quiet_bind fun pid => ?_)
  refine nested_quiet_bind fun used => nested_ite (nested_signal (nested_pure _)) ?_
  refine nested_quiet_bind fun pos => nested_quiet_bind fun text => nested_quiet_bind fun _ => ?_
  exact nested_quiet_bind fun buf => nested_signal (nested_pure _)

end Nesting

end NSOS.Spin
