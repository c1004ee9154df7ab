import NSOS.Spin.Machine
import NSOS.Vfs.Drivers

/-! # Operations that take spin locks

The allocator, the thread pool, the semaphores and two functions of `procfs`,
with every lock that they take and every return path that gives it back. Apart
from the locks they do what the models of the allocator and of the file system
say.
-/

namespace NSOS.Spin

open Basis Prog
open Pmm (Area ptrAdd ptrSub)
open Vfs (KERNEL_MAX_THREAD)

section Allocator

variable (h : Area) (fuel : ℕ)

def setHeap (f : Pmm.State → Pmm.State) : Code Unit :=
  modify fun k => { k with heap := f k.heap }

/-- The loop of `pmm_print_memory_layout`, with the number of blocks it may still print. -/
def printBlocks : ℕ → ℕ → ℕ → Code Unit
  | 0, _, _ => pure ()
  | n + 1, count, b => do
    if b ≠ h.stop then
      let m ← gets fun k => k.heap.mem
      let used := if Pmm.inuse m b ≠ 0 then "yes" else "no"
      printf ("block ".toList ++ number count 10 3 ' ' ++ ": ".toList ++ address b ++ " ".toList ++
        address (Pmm.front m b) ++ " ".toList ++ address (Pmm.next m b) ++ " ".toList ++
          used.toList ++ "\n".toList)
      printBlocks n (count + 1) (Pmm.next m b)
    else pure ()

def pmmPrintMemoryLayout : Code Unit := do
  let b ← gets fun k => k.heap.memoryHead
  printf "\n           blockit    front      next       in use\n".toList
  printBlocks h 100 0 b
  printf "\n".toList

/-- `pmm_alloc` after its search, for a payload at `a` in the block `b`. -/
def pmmPlace (b a size : ℕ) : Code ℕ := do
  let hd := ptrSub a 12
  let rest := ptrAdd a size
  if Pmm.roomBefore a (Pmm.startInBlock b) then
    setHeap fun s => { s with mem := Pmm.setInuse (Pmm.setFront s.mem hd b) hd 1 }
    if Pmm.roomAfter (← gets fun k => k.heap.mem) b a size then
      setHeap fun s => { s with mem := Pmm.splitBoth h s.mem b hd rest }
      kmtSpinUnlock .kernelMemoryLock
      return a
    else
      setHeap fun s => { s with mem := Pmm.splitBefore h s.mem b hd }
      kmtSpinUnlock .kernelMemoryLock
      return a
  else
    setHeap fun s => { s with
      mem := if Pmm.roomAfter s.mem b a size then Pmm.splitAfter h s.mem b hd rest else s.mem }
    setHeap fun s => Pmm.moveHeader s s.mem b hd
    kmtSpinUnlock .kernelMemoryLock
    return a

def pmmAlloc (size : ℕ) : Code ℕ := do
  kmtSpinLock .kernelMemoryLock
  let (r, n) ← demand (Pmm.roundUp size)
  let b ← demand (← gets fun k => Pmm.search h k.heap.mem size r n fuel k.heap.memoryHead)
  if b = 0 then
    syslog "PMM" "No empty block that is large enough".toList
    pmmPrintMemoryLayout h
    kmtSpinUnlock .kernelMemoryLock
    return 0
  else pmmPlace h b (Pmm.allocAddr r n (Pmm.startInBlock b)) size

def pmmFree (ptr : ℕ) : Code Unit := do
  kmtSpinLock .kernelMemoryLock
  let s ← demand (← gets fun k => Pmm.pmmFree h fuel k.heap ptr)
  setHeap fun _ => s
  kmtSpinUnlock .kernelMemoryLock

end Allocator

section Threads

variable (h : Area) (fuel : ℕ)

def STACK_SIZE : ℕ := 2 ^ 22
def STACK_MAGIC : UInt8 := 0xcc

/-- A loop over `n` slots of the thread pool from slot `i` on. It yields where it stops. -/
def scan (found : ℕ → Bool) : ℕ → ℕ → ℕ
  | 0, i => i
  | n + 1, i => if found i then i else scan found n (i + 1)

def scanPool (found : ℕ → Bool) : ℕ := scan found KERNEL_MAX_THREAD.toNat 1

namespace Machine

variable (k : Machine)

/-- The slot of the thread pool holds the thread. -/
def Holds (thread u : ℕ) : Prop := k.fs.threadPool u = true ∧ k.struct u = thread

instance {k : Machine} {thread u : ℕ} : Decidable (k.Holds thread u) :=
  inferInstanceAs (Decidable (_ ∧ _))

def setThread (thread : ℕ) (f : Thread → Thread) : Machine :=
  { k with thread := Function.update k.thread thread (f (k.thread thread)) }

/-- Change what a `struct thread` holds for the file system, in all its slots. -/
def setFs (thread : ℕ) (f : Vfs.Thread → Vfs.Thread) : Machine := { k with fs := { k.fs with
  thread := fun u => if k.Holds thread u then f (k.fs.thread u) else k.fs.thread u } }

def setMem (a : ℕ) (c : UInt8) : Machine :=
  { k with heap := { k.heap with mem := k.heap.mem.put a c } }

def occupy (i thread : ℕ) : Machine := { k with
  struct := Function.update k.struct i thread
  fs := { k.fs with threadPool := Function.update k.fs.threadPool i true } }

def vacate (i : ℕ) : Machine :=
  { k with fs := { k.fs with threadPool := Function.update k.fs.threadPool i false } }

def wake (i : ℕ) : Machine :=
  k.setThread (k.struct i) fun th => { th with sleep := false, currentWaiting := 0 }

end Machine

/-- `kmt_create`. What the architecture puts on the new stack is left out. -/
def kmtCreate (thread : ℕ) : Code ℤ := do
  kmtSpinLock .threadLock
  let i ← gets fun k => scanPool fun u => !k.fs.threadPool u
  if KERNEL_MAX_THREAD < i then
    syslog "KMT" "Attempted to create a thread while the thread pool is full".toList
    kmtSpinUnlock .threadLock
    return -1
  else
    modify fun k => k.occupy i thread
    modify fun k => k.setThread thread fun th => { th with id := i }
    let a ← pmmAlloc h fuel (STACK_SIZE + 2)
    let start := ptrAdd a 1
    let stop := ptrAdd start STACK_SIZE
    modify fun k => k.setThread thread fun th => { th with stackStart := start, stackEnd := stop }
    modify fun k => k.setMem (ptrSub start 1) STACK_MAGIC
    modify fun k => k.setMem stop STACK_MAGIC
    modify fun k => k.setThread thread fun th => { th with sleep := false, currentWaiting := 0 }
    let current ← gets fun k => k.fs.thread k.currentThreadIndex
    modify fun k => k.setFs thread fun _ => { current with
      uid := 0
      gid := 0
      fileDescriptors := Vfs.newDescriptors }
    syslog "KMT" ("Created kernel thread with stack from ".toList ++ address start ++
      " to ".toList ++ address stop)
    kmtSpinUnlock .threadLock
    return 0

/-- `kmt_teardown` after its search, for the slot `i` of the thread. A panic halts the machine. -/
def kmtTeardownSlot (i : ℕ) : Code Unit := do
  if i = (← gets fun k => k.currentThreadIndex) then
    syslog "KMT" "FATAL: A thread commited suicide. Kernel thread stack corrupted.".toList
    stop
  else
    let th ← gets fun k => k.thread (k.struct i)
    let fence ← gets fun k => k.heap.mem (ptrSub th.stackStart 1)
    let fence' ← gets fun k => k.heap.mem th.stackEnd
    if fence ≠ STACK_MAGIC ∨ fence' ≠ STACK_MAGIC then
      syslog "KMT" "FATAL: Kernel thread stack corrupted.".toList
      stop
    else
      pmmFree h fuel (ptrSub th.stackStart 1)
      modify fun k => k.vacate i
      kmtSpinUnlock .threadLock

/-- `kmt_teardown`. It returns with the lock when the thread is not in the pool. -/
def kmtTeardown (thread : ℕ) : Code Unit := do
  kmtSpinLock .threadLock
  let i ← gets fun k => scanPool fun u => k.Holds thread u
  if KERNEL_MAX_THREAD < i then
    syslog "KMT" "Attempted to kill a non-exist thread".toList
  else kmtTeardownSlot h fuel i

/-- `kmt_sem_signal`. Empty slots of the thread pool match no semaphore. -/
def kmtSemSignal (sem : ℕ) : Code Unit := do
  kmtSpinLock .semaphoreLock
  modify fun k => { k with count := Function.update k.count sem (toInt (k.count sem + 1)) }
  let i ← gets fun k => scanPool fun u => k.fs.threadPool u && (k.thread (k.struct u)).sleep &&
    (k.thread (k.struct u)).currentWaiting == sem
  modify fun k => if (i : ℤ) ≤ KERNEL_MAX_THREAD then k.wake i else k
  kmtSpinUnlock .semaphoreLock

/-- What `kmt_sem_wait` does each time it gets the semaphore lock: it takes the semaphore, or the
thread goes to sleep. -/
def kmtSemWait (sem : ℕ) : Code Bool := do
  kmtSpinLock .semaphoreLock
  if (← gets fun k => k.count sem) = 0 then
    modify fun k => k.setThread (k.struct k.currentThreadIndex) fun th =>
      { th with currentWaiting := sem, sleep := true }
    kmtSpinUnlock .semaphoreLock
    return false
  else
    modify fun k => { k with count := Function.update k.count sem (toInt (k.count sem - 1)) }
    kmtSpinUnlock .semaphoreLock
    return true

end Threads

section Procfs

def onFs {α : Type} (p : Vfs.Code α) : Code α :=
  .act (fun k => match run p k.fs with
    | some r => { k with fs := r.2 }
    | none => k) fun k => demand ((run p k.fs).map Prod.fst)

/-- The loop of `proc_lookup` that reads a number, and what comes after it. -/
def procLookupPid (ip dp : ℕ) : ℤ → List Char → Code Bool
  | pid, [] => do
    if pid ≤ KERNEL_MAX_THREAD ∧ 0 < pid ∧ (← gets fun k => k.fs.threadPool pid) = true then
      onFs (Vfs.linkEntry ip dp pid (some Vfs.aclRead))
      kmtSpinUnlock .threadLock
      return true
    else
      kmtSpinUnlock .threadLock
      return false
  | pid, c :: cs => do
    if c ≤ '9' ∧ '0' ≤ c then procLookupPid ip dp (toInt (pid * 10 + c.toNat - '0'.toNat)) cs
    else
      kmtSpinUnlock .threadLock
      return false

/-- `proc_lookup`. It yields whether the entry exists. -/
def procLookup (ip dp : ℕ) : Code Bool := do
  kmtSpinLock .threadLock
  if ← onFs (Vfs.atRoot dp) then
    let name ← gets fun k => (k.fs.dentry dp).dIname
    if name = "cpuinfo".toList then
      onFs (Vfs.linkEntry ip dp Vfs.CPUINFO_INO none)
      kmtSpinUnlock .threadLock
      return true
    else if name = "meminfo".toList then
      onFs (Vfs.linkEntry ip dp Vfs.MEMINFO_INO (some Vfs.aclRead))
      kmtSpinUnlock .threadLock
      return true
    else if name = [] then
      kmtSpinUnlock .threadLock
      return false
    else if name.head? = some '0' then
      kmtSpinUnlock .threadLock
      return false
    else procLookupPid ip dp 0 name
  else
    kmtSpinUnlock .threadLock
    return false

def procRead (fp count : ℕ) : Code (ℤ × List UInt8) := do
  kmtSpinLock .threadLock
  let pid ← gets fun k => (k.fs.inode (k.fs.file fp).fInode).iIno
  if pid ≠ Vfs.CPUINFO_INO ∧ pid ≠ Vfs.MEMINFO_INO ∧
      (← gets fun k => k.fs.threadPool pid) = false then
    kmtSpinUnlock .threadLock
    return (-1, [])
  else
    let iterator ← gets fun k => (k.fs.file fp).fPos
    let text ← gets fun k => k.fs.procText pid
    onFs (modify fun st => { st with
      filebuf := fun i => if 0 ≤ i ∧ i ≤ text.length then text.getD i.toNat 0 else st.filebuf i })
    let buf ← onFs (Vfs.procReadLoop text.length count iterator [])
    let buf := Vfs.endRead buf count
    kmtSpinUnlock .threadLock
    return (toInt buf.length, buf)

end Procfs

end NSOS.Spin
