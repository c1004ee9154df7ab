import NSOS.Vfs.Path

/-! # System calls

The operations of the virtual file system. All of them but `vfs_close` wait
for `vfs_sem` first and signal it before they return.
-/

namespace NSOS.Vfs

open Basis Prog

def MAX_FILE_PER_THREAD : ℕ := 256
def STDIN_FILENO : ℤ := 0
def STDOUT_FILENO : ℤ := 1
def STDERR_FILENO : ℤ := 2

def isStd (fd : ℤ) : Bool := fd = STDIN_FILENO || fd = STDOUT_FILENO || fd = STDERR_FILENO

section Init

/-- `vfs_init`. The root mount and the driver `kvfs` are static objects with the number zero. -/
def vfsInit : Code Unit := do
  let root ← demand (← kvfsMount 0 "ramdisk0".toList)
  modify fun st => { st with rootDentry := root }
  setMount 0 fun _ => ⟨root, root, none, none, 0⟩
  modify fun st => { st with mntHead := some 0 }

end Init

section Calls

variable (t : ℕ)

def unprivileged : Code Bool := gets fun st => (st.thread t).uid ≠ 0 && (st.thread t).gid ≠ 0

def vfsAccess (path : List Char) (mode : UInt32) : Code ℤ := do
  semWait .vfsSem
  match (← pathLookup t path false).1 with
  | none =>
    semSignal .vfsSem
    return -1
  | some retden =>
    if mode = F_OK then
      semSignal .vfsSem
      return 0
    else
      let ip ← demand (← gets fun st => (st.dentry retden).dInode)
      let inode ← gets fun st => st.inode ip
      let cur ← gets fun st => st.thread t
      if mode &&& R_OK ≠ 0 ∧ checkAcl cur.uid cur.gid inode R_OK = true then
        semSignal .vfsSem
        return -1
      else if mode &&& W_OK ≠ 0 ∧ checkAcl cur.uid cur.gid inode W_OK = true then
        semSignal .vfsSem
        return -1
      else
        semSignal .vfsSem
        return 0

/-- The end of `vfs_mount`: a new mount in front of the list. -/
def addMount (root retden fs : ℕ) (mnt : Option ℕ) : Code Unit := do
  let mntfs ← allocMount
  let head ← gets fun st => st.mntHead
  setMount mntfs fun _ => ⟨root, retden, mnt, head, fs⟩
  modify fun st => { st with mntHead := some mntfs }
  setDentry retden fun d => { d with dMounted := d.dMounted + 1 }

def vfsMount (path : List Char) (fs : ℕ) : Code ℤ := do
  semWait .vfsSem
  if ← unprivileged t then
    semSignal .vfsSem
    return -1
  else
    match ← pathLookup t path false with
    | (none, _) =>
      semSignal .vfsSem
      return -1
    | (some retden, nd) =>
      if (← gets fun st => (st.dentry retden).dIsdir) = false then
        semSignal .vfsSem
        return -1
      else
        match (← gets fun st => st.fsType fs).mount with
        | none =>
          semSignal .vfsSem
          return -1
        | some mount =>
          let dev ← gets fun st => (st.fsType fs).dev
          match ← mount.mount fs dev with
          | none =>
            semSignal .vfsSem
            return -1
          | some root =>
            addMount root retden fs nd.mnt
            semSignal .vfsSem
            return 0

/-- The part of `vfs_unmount` that takes a mount out of the list. -/
def dropMount (mntit : ℕ) : Code Unit := do
  let next ← gets fun st => (st.mount mntit).mntNext
  if (← gets fun st => st.mntHead) = some mntit then
    modify fun st => { st with mntHead := next }
  else
    let mntremain ← demand (← findMount fun st m => (st.mount m).mntNext = some mntit)
    setMount mntremain fun m => { m with mntNext := next }

/-- `vfs_unmount`. No driver has an `umount_begin`. -/
def vfsUnmount (path : List Char) : Code ℤ := do
  semWait .vfsSem
  if ← unprivileged t then
    semSignal .vfsSem
    return 1
  else
    match (← pathLookup t path false).1 with
    | none =>
      semSignal .vfsSem
      return 1
    | some retden =>
      match ← findMount fun st m => (st.mount m).mntRoot = retden with
      | none =>
        semSignal .vfsSem
        return 1
      | some mntit =>
        let mount ← gets fun st => st.mount mntit
        setDentry mount.mntMountpoint fun d => { d with dMounted := d.dMounted - 1 }
        dropMount mntit
        free (.fsType mount.mntFs)
        free (.vfsmount mntit)
        semSignal .vfsSem
        return 0

/-- The first free entry of `file_descriptors` from `i` on. -/
def freeFd : ℕ → ℕ → Code ℕ
  | 0, i => pure i
  | n + 1, i => do
    if (← gets fun st => (st.thread t).fileDescriptors i) = .null then pure i
    else freeFd n (i + 1)

theorem run_freeFd (st : State) (n i : ℕ) : ∃ j, run (freeFd t n i) st = some (j, st) ∧ i ≤ j ∧
    j ≤ i + n ∧ (∀ k, i ≤ k → k < j → (st.thread t).fileDescriptors k ≠ .null) ∧
      (j < i + n → (st.thread t).fileDescriptors j = .null) := by
  induction n generalizing i with
  | zero => exact ⟨i, rfl, le_rfl, le_rfl, fun k hi hj => absurd hj (not_lt.mpr hi), by omega⟩
  | succ n ih =>
    rw [freeFd, run_bind, run_gets, Option.bind_some]
    by_cases hi : (st.thread t).fileDescriptors i = .null
    · rw [if_pos hi]
      exact ⟨i, rfl, le_rfl, by omega, fun k hi hj => absurd hj (not_lt.mpr hi), fun _ => hi⟩
    · obtain ⟨j, hj, hle, hle', hfull, hfree⟩ := ih (i + 1)
      rw [if_neg hi]
      refine ⟨j, hj, by omega, by omega, fun k hk hkj => ?_, fun h => hfree (by omega)⟩
      by_cases hki : k = i
      · exact hki ▸ hi
      · exact hfull k (by omega) hkj

def setFd (i : ℕ) (fd : Fd) : Code Unit := modify fun st => { st with
  thread := Function.update st.thread t
    { st.thread t with
      fileDescriptors := Function.update (st.thread t).fileDescriptors i fd } }

def vfsOpen (path : List Char) (flags : UInt32) : Code ℤ := do
  semWait .vfsSem
  match (← makePath t path false ACL_DEFAULT).1 with
  | none =>
    semSignal .vfsSem
    return -1
  | some retden =>
    let newfile ← allocFile
    let ip ← demand (← gets fun st => (st.dentry retden).dInode)
    let fop ← gets fun st => (st.inode ip).iFop
    setFile newfile fun _ => ⟨retden, ip, 0, flags, fop⟩
    let i ← freeFd t MAX_FILE_PER_THREAD 0
    if i = MAX_FILE_PER_THREAD then
      semSignal .vfsSem
      return -1
    else
      setFd t i (.file newfile)
      semSignal .vfsSem
      return i

def openFile (fd : ℤ) : Code (Option ℕ) := do
  if 0 ≤ fd ∧ fd < MAX_FILE_PER_THREAD then
    match ← gets fun st => (st.thread t).fileDescriptors fd.toNat with
    | .file f => return some f
    | _ => return none
  else return none

/-- The operations of an open file. An entry that does not lead to a file with a table of
operations halts the machine. -/
def fileOf (fd : ℤ) : Code (ℕ × Driver) := do
  let fp ← demand (← openFile t fd)
  let fop ← demand (← gets fun st => (st.file fp).fOp)
  return (fp, fop)

/-- `vfs_read`. The result is what it returns and what it stored in the buffer. -/
def vfsRead (fd : ℤ) (nbyte : ℕ) : Code (ℤ × List UInt8) := do
  semWait .vfsSem
  if isStd fd then
    semSignal .vfsSem
    return (0, [])
  else
    let (fp, fop) ← fileOf t fd
    let r ← fop.read fp nbyte
    semSignal .vfsSem
    return r

/-- The loop of `vfs_write` that prints the buffer. -/
def printAll : List UInt8 → Code Unit
  | [] => pure ()
  | c :: buf => do
    modify fun st => { st with output := c :: st.output }
    printAll buf

/-- `vfs_write`. The buffer has `nbyte` bytes. -/
def vfsWrite (fd : ℤ) (buf : List UInt8) : Code ℤ := do
  semWait .vfsSem
  if fd = STDOUT_FILENO ∨ fd = STDERR_FILENO then
    printAll buf
    semSignal .vfsSem
    return toInt buf.length
  else if fd ≠ STDIN_FILENO then
    let (fp, fop) ← fileOf t fd
    let writecount ← fop.write fp buf
    semSignal .vfsSem
    return writecount
  else
    semSignal .vfsSem
    return 0

def vfsLseek (fd offset whence : ℤ) : Code ℤ := do
  semWait .vfsSem
  if isStd fd then
    semSignal .vfsSem
    return 0
  else
    let (fp, fop) ← fileOf t fd
    let pos ← fop.llseek fp offset whence
    semSignal .vfsSem
    return pos

def vfsMkdir (path : List Char) (mode : UInt16) : Code ℤ := do
  semWait .vfsSem
  match (← pathLookup t path false).1 with
  | some _ =>
    semSignal .vfsSem
    return -1
  | none =>
    match (← makePath t path true mode).1 with
    | none =>
      semSignal .vfsSem
      return -1
    | some _ =>
      semSignal .vfsSem
      return 0

/-- `vfs_close`. Nothing is said about an index outside `file_descriptors`, where the memory that
lies there is taken for a pointer and given back. -/
def vfsClose (fd : ℤ) : Code ℤ := do
  if isStd fd then return -1
  else if 0 ≤ fd ∧ fd < MAX_FILE_PER_THREAD then
    match ← gets fun st => (st.thread t).fileDescriptors fd.toNat with
    | .file f =>
      free (.file f)
      setFd t fd.toNat .null
      return 0
    | _ => return -1
  else stop

end Calls

/-- The calls that `vfs_sem` protects. -/
inductive Call where
  | access (path : List Char) (mode : UInt32)
  | mount (path : List Char) (fs : ℕ)
  | unmount (path : List Char)
  | open (path : List Char) (flags : UInt32)
  | read (fd : ℤ) (nbyte : ℕ)
  | write (fd : ℤ) (buf : List UInt8)
  | lseek (fd offset whence : ℤ)
  | mkdir (path : List Char) (mode : UInt16)

/-- What a call returns, and what it stores in the buffer of the caller. -/
abbrev Reply := ℤ × List UInt8

def plain (p : Code ℤ) : Code Reply := do return (← p, [])

/-- The program of a call of thread `t`. -/
def Call.body (t : ℕ) : Call → Code Reply
  | access path mode => plain (vfsAccess t path mode)
  | mount path fs => plain (vfsMount t path fs)
  | unmount path => plain (vfsUnmount t path)
  | .open path flags => plain (vfsOpen t path flags)
  | read fd nbyte => vfsRead t fd nbyte
  | write fd buf => plain (vfsWrite t fd buf)
  | lseek fd offset whence => plain (vfsLseek t fd offset whence)
  | mkdir path mode => plain (vfsMkdir t path mode)

end NSOS.Vfs
