import NSOS.Basis.Chain
import NSOS.Basis.Int32
import NSOS.Basis.Pool

/-! # Kernel objects of the file system

The records of the virtual file system and its drivers, and the memory they
live in. A pointer to a record is its number in the pool of its type. The
allocator gives out fresh memory and never fails, and freed memory keeps its
contents.
-/

namespace NSOS.Vfs

open Basis

/-- The drivers. A pointer to a table of operations is the driver whose table it is. -/
inductive Driver where
  | kvfs
  | procfs
  | devfs
  deriving DecidableEq, Inhabited

/-- `struct dentry`. Behind `dSubdirs` the entries of a directory are linked by `dChild`. The
counter `dMounted` is exact, as each unit of it stands for a `struct vfsmount` in memory. -/
structure Dentry where
  dIname : List Char
  dInode : Option ℕ
  dParent : ℕ
  dChild : Option ℕ
  dSubdirs : Option ℕ
  dMounted : ℤ
  dIsdir : Bool
  dOp : Driver
  deriving Inhabited

structure Inode where
  iUid : UInt32
  iGid : UInt32
  iAcl : UInt16
  iIno : ℤ
  iSize : ℤ
  iOp : Driver
  iFop : Option Driver
  deriving Inhabited

structure Vfsmount where
  mntRoot : ℕ
  mntMountpoint : ℕ
  mntParent : Option ℕ
  mntNext : Option ℕ
  mntFs : ℕ
  deriving Inhabited

structure FsType where
  dev : List Char
  mount : Option Driver
  sop : Driver
  dop : Driver
  iop : Driver
  deriving Inhabited

structure File where
  fDentry : ℕ
  fInode : ℕ
  fPos : ℤ
  fMode : UInt32
  fOp : Option Driver
  deriving Inhabited

/-- An entry of `file_descriptors`: `NULL`, the mark of a standard stream, or an open file. -/
inductive Fd where
  | null
  | std
  | file (f : ℕ)
  deriving DecidableEq, Inhabited

/-- What `struct thread` holds for the file system. -/
structure Thread where
  uid : UInt32
  gid : UInt32
  root : ℕ
  pwd : ℕ
  rootmnt : ℕ
  pwdmnt : ℕ
  fileDescriptors : ℕ → Fd
  deriving Inhabited

structure Ptr where
  base : ℕ
  off : ℤ
  deriving DecidableEq, Inhabited

namespace Ptr

def null : Ptr := ⟨0, 0⟩

def add (p : Ptr) (n : ℤ) : Ptr := ⟨p.base, p.off + n⟩

@[simp] theorem base_add (p : Ptr) (n : ℤ) : (p.add n).base = p.base := rfl
@[simp] theorem off_add (p : Ptr) (n : ℤ) : (p.add n).off = p.off + n := rfl

end Ptr

structure KvfsFileNode where
  inuse : Bool
  start : Ptr
  endPtr : Ptr
  deriving Inhabited

inductive Obj where
  | dentry (d : ℕ)
  | iname (d : ℕ)
  | inode (i : ℕ)
  | vfsmount (m : ℕ)
  | fsType (f : ℕ)
  | file (f : ℕ)
  | block (b : ℕ)
  deriving DecidableEq

structure Namespace where
  dentries : Pool Dentry
  mounts : Pool Vfsmount
  mntHead : Option ℕ
  rootDentry : ℕ
  deriving Inhabited

/-- The memory of the file system. -/
structure State extends Namespace where
  inodes : Pool Inode
  fsTypes : Pool FsType
  files : Pool File
  blocks : Pool (ℤ → UInt8)
  kvfsFiles : ℤ → KvfsFileNode
  kvfsInited : Bool
  thread : ℕ → Thread
  /-- The occupied slots of `thread_pool`. -/
  threadPool : ℤ → Bool
  /-- What the kernel would print now into a file of `proc`. -/
  procText : ℤ → List UInt8
  filebuf : ℤ → UInt8
  /-- The bytes of `rand` after the next `srand`. -/
  randByte : ℕ → UInt8
  output : List UInt8
  freed : List Obj
  deriving Inhabited

namespace Namespace

variable (ns : Namespace)

def dentry (d : ℕ) : Dentry := ns.dentries.obj d

def mount (m : ℕ) : Vfsmount := ns.mounts.obj m

end Namespace

namespace State

variable (st : State)

def inode (i : ℕ) : Inode := st.inodes.obj i

def fsType (f : ℕ) : FsType := st.fsTypes.obj f

def file (f : ℕ) : File := st.files.obj f

end State

inductive Sem where
  | vfsSem
  deriving DecidableEq

abbrev Code (α : Type) := Prog Sem State α

section Access

open Prog

def allocDentry : Code ℕ := do
  let d ← gets fun st => st.dentries.size
  modify fun st => { st with dentries := st.dentries.grow }
  return d

def setDentry (d : ℕ) (f : Dentry → Dentry) : Code Unit :=
  modify fun st => { st with dentries := st.dentries.set d f }

def allocInode : Code ℕ := do
  let i ← gets fun st => st.inodes.size
  modify fun st => { st with inodes := st.inodes.grow }
  return i

def setInode (i : ℕ) (f : Inode → Inode) : Code Unit :=
  modify fun st => { st with inodes := st.inodes.set i f }

def allocMount : Code ℕ := do
  let m ← gets fun st => st.mounts.size
  modify fun st => { st with mounts := st.mounts.grow }
  return m

def setMount (m : ℕ) (f : Vfsmount → Vfsmount) : Code Unit :=
  modify fun st => { st with mounts := st.mounts.set m f }

def allocFile : Code ℕ := do
  let f ← gets fun st => st.files.size
  modify fun st => { st with files := st.files.grow }
  return f

def setFile (f : ℕ) (g : File → File) : Code Unit :=
  modify fun st => { st with files := st.files.set f g }

def allocBlock : Code Ptr := do
  let b ← gets fun st => st.blocks.size
  modify fun st => { st with blocks := st.blocks.grow }
  return ⟨b, 0⟩

def setFsType (f : ℕ) (g : FsType → FsType) : Code Unit :=
  modify fun st => { st with fsTypes := st.fsTypes.set f g }

def free (o : Obj) : Code Unit := modify fun st => { st with freed := o :: st.freed }

def load (p : Ptr) : Code UInt8 := gets fun st => st.blocks.obj p.base p.off

def store (p : Ptr) (c : UInt8) : Code Unit :=
  modify fun st =>
    { st with blocks := st.blocks.set p.base fun b => Function.update b p.off c }

/-- `memset`, which goes from the last byte down to the first. -/
def memset (p : Ptr) (c : UInt8) : ℕ → Code Unit
  | 0 => pure ()
  | n + 1 => do
    store (p.add n) c
    memset p c n

/-- `memcpy` between two blocks. -/
def memcpy (dest src : Ptr) : ℕ → Code Unit
  | 0 => pure ()
  | n + 1 => do
    store (dest.add n) (← load (src.add n))
    memcpy dest src n

/-- `memcpy` from the buffer of the caller. -/
def memcpyFrom (dest : Ptr) (buf : List UInt8) : ℕ → Code Unit
  | 0 => pure ()
  | n + 1 => do
    store (dest.add n) (buf.getD n 0)
    memcpyFrom dest buf n

section Quiet

variable {d i m f n : ℕ} {o : Obj} {p q : Ptr} {c : UInt8} {buf : List UInt8}

instance quiet_allocDentry : Quiet allocDentry := by unfold allocDentry; infer_instance
instance quiet_allocInode : Quiet allocInode := by unfold allocInode; infer_instance
instance quiet_allocMount : Quiet allocMount := by unfold allocMount; infer_instance
instance quiet_allocFile : Quiet allocFile := by unfold allocFile; infer_instance
instance quiet_allocBlock : Quiet allocBlock := by unfold allocBlock; infer_instance
instance quiet_setDentry {g} : Quiet (setDentry d g) := quiet_modify _
instance quiet_setInode {g} : Quiet (setInode i g) := quiet_modify _
instance quiet_setMount {g} : Quiet (setMount m g) := quiet_modify _
instance quiet_setFile {g} : Quiet (setFile f g) := quiet_modify _
instance quiet_setFsType {g} : Quiet (setFsType f g) := quiet_modify _
instance quiet_free : Quiet (free o) := quiet_modify _
instance quiet_load : Quiet (load p) := quiet_gets _
instance quiet_store : Quiet (store p c) := quiet_modify _

instance quiet_memset : Quiet (memset p c n) := by
  induction n with
  | zero => exact quiet_pure ()
  | succ n ih => unfold memset; infer_instance

instance quiet_memcpy : Quiet (memcpy p q n) := by
  induction n with
  | zero => exact quiet_pure ()
  | succ n ih => unfold memcpy; infer_instance

instance quiet_memcpyFrom : Quiet (memcpyFrom p buf n) := by
  induction n with
  | zero => exact quiet_pure ()
  | succ n ih => unfold memcpyFrom; infer_instance

end Quiet

end Access

end NSOS.Vfs
