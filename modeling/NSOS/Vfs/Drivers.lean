import NSOS.Vfs.Kvfs

/-! # Drivers

The drivers `procfs` and `devfs`, whose files exist only by name, and the
operation tables of all drivers.
-/

namespace NSOS.Vfs

open Basis Prog

section Acl

def F_OK : UInt32 := 0
def R_OK : UInt32 := 4
def W_OK : UInt32 := 2

def ACL_OWNER_R : UInt16 := 0x0400
def ACL_OWNER_W : UInt16 := 0x0200
def ACL_GROUP_R : UInt16 := 0x0040
def ACL_GROUP_W : UInt16 := 0x0020
def ACL_OTHER_R : UInt16 := 0x0004
def ACL_OTHER_W : UInt16 := 0x0002
def ACL_DEFAULT : UInt16 := 0x0664

def aclRead : UInt16 := ACL_OWNER_R ||| ACL_GROUP_R ||| ACL_OTHER_R

def denied (uid gid : UInt32) (ip : Inode) (owner group other : UInt16) : Bool :=
  if uid = ip.iUid then ip.iAcl &&& owner = 0
  else if gid = ip.iGid then ip.iAcl &&& group = 0
  else ip.iAcl &&& other = 0

/-- `check_acl`. It yields whether a permission is missing. -/
def checkAcl (uid gid : UInt32) (ip : Inode) (flags : UInt32) : Bool :=
  if flags &&& R_OK ≠ 0 ∧ denied uid gid ip ACL_OWNER_R ACL_GROUP_R ACL_OTHER_R = true then true
  else if flags &&& W_OK ≠ 0 ∧ denied uid gid ip ACL_OWNER_W ACL_GROUP_W ACL_OTHER_W = true then
    true
  else false

end Acl

section Proc

def KERNEL_MAX_THREAD : ℤ := 1024
def CPUINFO_INO : ℤ := -1
def MEMINFO_INO : ℤ := -2

def procAllocInode : Code ℕ := do
  let ip ← allocInode
  setInode ip fun i => { i with iOp := .procfs, iFop := some .procfs }
  return ip

/-- The loop of `proc_lookup` that reads a number. -/
def parsePid : ℤ → List Char → Option ℤ
  | pid, [] => some pid
  | pid, c :: cs =>
    if c ≤ '9' ∧ '0' ≤ c then parsePid (toInt (pid * 10 + c.toNat - '0'.toNat)) cs else none

/-- The inode number `proc_lookup` finds for a name, and the permissions it sets. -/
def procEntry (threadPool : ℤ → Bool) (name : List Char) : Option (ℤ × Option UInt16) :=
  if name = "cpuinfo".toList then some (CPUINFO_INO, none)
  else if name = "meminfo".toList then some (MEMINFO_INO, some aclRead)
  else if name = [] then none
  else if name.head? = some '0' then none
  else
    match parsePid 0 name with
    | none => none
    | some pid =>
      if pid ≤ KERNEL_MAX_THREAD ∧ 0 < pid ∧ threadPool pid = true then some (pid, some aclRead)
      else none

def linkEntry (ip dp : ℕ) (ino : ℤ) (acl : Option UInt16) : Code Unit := do
  setInode ip fun i => { i with iIno := ino, iAcl := acl.getD i.iAcl }
  setDentry dp fun d => { d with dInode := some ip, dIsdir := false }

/-- The test of `proc_lookup` and `devfs_lookup` for an entry of the root directory. -/
def atRoot (dp : ℕ) : Code Bool := gets fun st =>
  (st.dentry (st.dentry dp).dParent).dParent = (st.dentry dp).dParent

/-- `proc_lookup`. It yields whether the entry exists. -/
def procLookup (ip dp : ℕ) : Code Bool := do
  if ← atRoot dp then
    match ← gets fun st => procEntry st.threadPool (st.dentry dp).dIname with
    | none => return false
    | some (ino, acl) =>
      linkEntry ip dp ino acl
      return true
  else return false

/-- `proc_create` and `proc_mkdir` refuse, as the file system is read-only. -/
def procCreate (_ip _dp : ℕ) : Code Bool := pure true

def procMkdir (_ip _dp : ℕ) : Code Bool := pure true

def procLlseek (fp : ℕ) (offset whence : ℤ) : Code ℤ := llseek fp offset whence

/-- The loop of `proc_read`, with the number of bytes it may still copy. -/
def procReadLoop (len : ℤ) : ℕ → ℤ → List UInt8 → Code (List UInt8)
  | 0, _, buf => pure buf
  | n + 1, iterator, buf => do
    if 0 < toInt (len - iterator) then
      procReadLoop len n (iterator + 1) (buf ++ [← gets fun st => st.filebuf iterator])
    else return buf

def procRead (fp count : ℕ) : Code (ℤ × List UInt8) := do
  let pid ← gets fun st => (st.inode (st.file fp).fInode).iIno
  if pid ≠ CPUINFO_INO ∧ pid ≠ MEMINFO_INO ∧ (← gets fun st => st.threadPool pid) = false then
    return (-1, [])
  else
    let iterator ← gets fun st => (st.file fp).fPos
    let text ← gets fun st => st.procText pid
    modify fun st => { st with
      filebuf := fun i => if 0 ≤ i ∧ i ≤ text.length then text.getD i.toNat 0 else st.filebuf i }
    let buf ← procReadLoop text.length count iterator []
    let buf := endRead buf count
    return (toInt buf.length, buf)

def procWrite (_fp : ℕ) (_buf : List UInt8) : Code ℤ := pure (-1)

def procMount (fs : ℕ) (source : List Char) : Code (Option ℕ) := do
  if source = "proc".toList then return some (← mountRoot .procfs aclRead (-3) fs source)
  else return none

end Proc

section Dev

def NULL_INO : ℤ := 0
def RANDOM_INO : ℤ := 1
def ZERO_INO : ℤ := 2

def devfsAllocInode : Code ℕ := do
  let ip ← allocInode
  setInode ip fun i => { i with iOp := .devfs, iFop := some .devfs }
  return ip

/-- The inode number `devfs_lookup` finds for a name, and the permissions it sets. -/
def devEntry (name : List Char) : Option (ℤ × Option UInt16) :=
  if name = "null".toList then some (NULL_INO, none)
  else if name = "random".toList then some (RANDOM_INO, some aclRead)
  else if name = "zero".toList then some (ZERO_INO, some aclRead)
  else none

def devfsLookup (ip dp : ℕ) : Code Bool := do
  if ← atRoot dp then
    match devEntry (← gets fun st => (st.dentry dp).dIname) with
    | none => return false
    | some (ino, acl) =>
      linkEntry ip dp ino acl
      return true
  else return false

/-- `devfs_create` and `devfs_mkdir`. -/
def devfsCreate (_ip _dp : ℕ) : Code Bool := pure true

def devfsMkdir (_ip _dp : ℕ) : Code Bool := pure true

def devfsLlseek (fp : ℕ) (offset whence : ℤ) : Code ℤ := llseek fp offset whence

def dentryIno (fp : ℕ) : Code ℤ := do
  let ip ← demand (← gets fun st => (st.dentry (st.file fp).fDentry).dInode)
  gets fun st => (st.inode ip).iIno

def devfsRead (fp count : ℕ) : Code (ℤ × List UInt8) := do
  let ino ← dentryIno fp
  if ino = NULL_INO then return (0, [])
  else if ino = RANDOM_INO then
    let rand ← gets fun st => st.randByte
    return (toInt count, (List.range count).map rand)
  else if ino = ZERO_INO then return (toInt count, List.replicate count 0)
  else return (-1, [])

def devfsWrite (fp : ℕ) (buf : List UInt8) : Code ℤ := do
  let ino ← dentryIno fp
  if ino = NULL_INO ∨ ino = RANDOM_INO ∨ ino = ZERO_INO then return toInt buf.length
  else return -1

def devfsMount (fs : ℕ) (source : List Char) : Code (Option ℕ) := do
  if source = "udev".toList then return some (← mountRoot .devfs 0x0666 (-1) fs source)
  else return none

end Dev

/-! ## Operation tables -/

namespace Driver

/-- The result of `d_revalidate`, for the drivers that have it. -/
def dRevalidate : Driver → Option ℤ
  | kvfs => some 0
  | procfs => some 1
  | devfs => some 0

def mount : Driver → ℕ → List Char → Code (Option ℕ)
  | kvfs => kvfsMount
  | procfs => procMount
  | devfs => devfsMount

def allocInode : Driver → Code ℕ
  | kvfs => kvfsAllocInode
  | procfs => procAllocInode
  | devfs => devfsAllocInode

/-- `kvfs_destroy_inode`, `proc_destroy_inode` and `devfs_destroy_inode`. -/
def destroyInode (_ : Driver) (ip : ℕ) : Code Unit := free (.inode ip)

def lookup : Driver → ℕ → ℕ → Code Bool
  | kvfs => kvfsLookup
  | procfs => procLookup
  | devfs => devfsLookup

def create : Driver → ℕ → ℕ → Code Bool
  | kvfs => kvfsCreate
  | procfs => procCreate
  | devfs => devfsCreate

def mkdir : Driver → ℕ → ℕ → Code Bool
  | kvfs => kvfsMkdir
  | procfs => procMkdir
  | devfs => devfsMkdir

def llseek : Driver → ℕ → ℤ → ℤ → Code ℤ
  | kvfs => kvfsLlseek
  | procfs => procLlseek
  | devfs => devfsLlseek

def read : Driver → ℕ → ℕ → Code (ℤ × List UInt8)
  | kvfs => kvfsRead
  | procfs => procRead
  | devfs => devfsRead

def write : Driver → ℕ → List UInt8 → Code ℤ
  | kvfs => kvfsWrite
  | procfs => procWrite
  | devfs => devfsWrite

end Driver

end NSOS.Vfs
