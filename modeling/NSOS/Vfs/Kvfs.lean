import NSOS.Vfs.State

/-! # The file system in memory

The driver `kvfs`. A table holds the storage of every regular file. A write
behind the end of a file moves the file to a larger block.
-/

namespace NSOS.Vfs

open Basis Prog

section Constants

def KVFS_MAX_FILE : ℕ := 1024

def O_RDONLY : UInt32 := 0x1
def O_WRONLY : UInt32 := 0x2
def O_RDWR : UInt32 := 0x3
def O_APPEND : UInt32 := 0x10

def SEEK_SET : ℤ := 0
def SEEK_CUR : ℤ := 1
def SEEK_END : ℤ := 2

end Constants

section Inodes

def kvfsAllocInode : Code ℕ := do
  let ip ← allocInode
  setInode ip fun i => { i with iOp := .kvfs, iFop := some .kvfs }
  return ip

def kvfsLookup (_ip _dp : ℕ) : Code Bool := pure false

/-- The loop of `kvfs_create` that looks for a free inode from `i` on. -/
def freeSlot : ℕ → ℕ → Code ℕ
  | 0, i => pure i
  | n + 1, i => do
    if ← gets fun st => (st.kvfsFiles i).inuse then freeSlot n (i + 1) else pure i

def firstFree (K : ℤ → KvfsFileNode) : ℕ → ℕ → ℕ
  | 0, i => i
  | n + 1, i => if (K i).inuse then firstFree K n (i + 1) else i

theorem run_freeSlot (st : State) (n i : ℕ) :
    run (freeSlot n i) st = some (firstFree st.kvfsFiles n i, st) := by
  induction n generalizing i with
  | zero => rfl
  | succ n ih =>
    rw [freeSlot, run_bind, run_gets, Option.bind_some, firstFree]
    split
    · exact ih (i + 1)
    · rfl

theorem inuse_firstFree (K : ℤ → KvfsFileNode) (n i : ℕ) (h : firstFree K n i < i + n) :
    (K (firstFree K n i)).inuse = false := by
  induction n generalizing i with
  | zero => exact absurd h (Nat.lt_irrefl i)
  | succ n ih =>
    rw [firstFree] at h ⊢
    split at h
    case isTrue hi =>
      rw [if_pos hi]
      exact ih (i + 1) (by omega)
    case isFalse hi =>
      rw [if_neg hi]
      exact Bool.eq_false_iff.mpr hi

/-- `kvfs_create`. It yields whether it failed. -/
def kvfsCreate (ip dp : ℕ) : Code Bool := do
  let i ← freeSlot KVFS_MAX_FILE 0
  if KVFS_MAX_FILE ≤ i then return true
  else
    modify fun st => { st with kvfsFiles := Function.update st.kvfsFiles i ⟨true, .null, .null⟩ }
    setInode ip fun j => { j with iIno := i, iSize := 0, iOp := .kvfs, iFop := some .kvfs }
    setDentry dp fun d => { d with dInode := some ip, dIsdir := false }
    return false

def State.withFile (st : State) (ip dp i : ℕ) : State := { st with
  kvfsFiles := Function.update st.kvfsFiles i ⟨true, .null, .null⟩
  inodes := st.inodes.set ip fun j =>
    { j with iIno := i, iSize := 0, iOp := .kvfs, iFop := some .kvfs }
  dentries := st.dentries.set dp fun d => { d with dInode := some ip, dIsdir := false } }

/-- The slot that `kvfs_create` takes for a new file, unless the table is full. -/
def State.freeSlot? (st : State) : Option ℕ :=
  let i := firstFree st.kvfsFiles KVFS_MAX_FILE 0
  if KVFS_MAX_FILE ≤ i then none else some i

theorem freeSlot?_spec {st : State} {i : ℕ} (h : st.freeSlot? = some i) :
    i < KVFS_MAX_FILE ∧ (st.kvfsFiles i).inuse = false := by
  unfold State.freeSlot? at h
  dsimp only at h
  split at h
  · cases h
  · obtain rfl := Option.some.inj h
    exact ⟨by omega, inuse_firstFree _ _ 0 (by omega)⟩

theorem run_kvfsCreate (st : State) (ip dp : ℕ) : run (kvfsCreate ip dp) st =
    match st.freeSlot? with
    | none => some (true, st)
    | some i => some (false, st.withFile ip dp i) := by
  rw [kvfsCreate, run_bind, run_freeSlot, Option.bind_some, State.freeSlot?]
  dsimp only
  split
  · rfl
  · rfl

def kvfsMkdir (ip dp : ℕ) : Code Bool := do
  setInode ip fun j => { j with iIno := -1, iSize := 0, iOp := .kvfs, iFop := none }
  setDentry dp fun d => { d with dInode := some ip, dIsdir := true }
  return false

/-- `kvfs_truncate`. It gives back the storage of a file and keeps the pointer to it. -/
def kvfsTruncate (ip : ℕ) : Code Unit := do
  let start ← gets fun st => (st.kvfsFiles (st.inode ip).iIno).start
  if start ≠ .null then free (.block start.base) else pure ()
  setInode ip fun i => { i with iSize := 0 }

/-- `kvfs_truncate_range`. It moves what is left of a file to a smaller block. A range that fails
the test is reported on the console only. -/
def kvfsTruncateRange (ip : ℕ) (start last : ℤ) : Code Unit := do
  let size ← gets fun st => (st.inode ip).iSize
  if last < start ∨ size ≤ last then return ()
  else
    setInode ip fun i => { i with iSize := toInt (i.iSize - (last - start)) }
    let newstart ← allocBlock
    let node ← gets fun st => st.kvfsFiles (st.inode ip).iIno
    memcpy newstart node.start (toInt start).toNat
    let tail := toU32 (node.endPtr.off - node.start.off - last - 1)
    memcpy (newstart.add start) (node.start.add last) (toInt tail).toNat
    free (.block node.start.base)
    modify fun st => { st with
      kvfsFiles := Function.update st.kvfsFiles (st.inode ip).iIno
        { st.kvfsFiles (st.inode ip).iIno with
          start := newstart
          endPtr := newstart.add (st.inode ip).iSize } }

end Inodes

section Files

/-- What `kvfs_llseek`, `proc_llseek` and `devfs_llseek` all do. -/
def llseek (fp : ℕ) (offset whence : ℤ) : Code ℤ := do
  if whence = SEEK_SET then
    setFile fp fun f => { f with fPos := offset }
    gets fun st => (st.file fp).fPos
  else if whence = SEEK_CUR then
    setFile fp fun f => { f with fPos := toInt (f.fPos + offset) }
    gets fun st => (st.file fp).fPos
  else if whence = SEEK_END then
    let size ← gets fun st => (st.inode (st.file fp).fInode).iSize
    setFile fp fun f => { f with fPos := toInt (size + offset) }
    gets fun st => (st.file fp).fPos
  else return -1

def kvfsLlseek (fp : ℕ) (offset whence : ℤ) : Code ℤ := llseek fp offset whence

/-- The loop of `kvfs_read`, with the number of bytes it may still copy. -/
def kvfsReadLoop (fp : ℕ) : ℕ → Ptr → List UInt8 → Code (List UInt8)
  | 0, _, buf => pure buf
  | n + 1, iterator, buf => do
    let last ← gets fun st => (st.kvfsFiles (st.inode (st.file fp).fInode).iIno).endPtr
    if 0 < toInt (last.off - iterator.off) then
      kvfsReadLoop fp n (iterator.add 1) (buf ++ [← load iterator])
    else return buf

/-- The end of a read: a newline behind the bytes that were there. -/
def endRead (buf : List UInt8) (count : ℕ) : List UInt8 :=
  if buf.length < count then buf ++ [10] else buf

/-- `kvfs_read`. The result is `readcount` and what it stored in the buffer. -/
def kvfsRead (fp count : ℕ) : Code (ℤ × List UInt8) := do
  let start ← gets fun st => (st.kvfsFiles (st.inode (st.file fp).fInode).iIno).start
  let pos ← gets fun st => (st.file fp).fPos
  let buf ← kvfsReadLoop fp count (start.add pos) []
  let buf := endRead buf count
  return (toInt buf.length, buf)

/-- The part of `kvfs_write` that makes room for `count` bytes at the position of the file. -/
def kvfsGrow (fp count : ℕ) : Code (Ptr × Ptr) := do
  let pos ← gets fun st => (st.file fp).fPos
  let newstart ← allocBlock
  let newend := (newstart.add pos).add count
  memset newstart 0 (toInt (pos + count)).toNat
  let start ← gets fun st => (st.kvfsFiles (st.inode (st.file fp).fInode).iIno).start
  if start ≠ .null then
    let size ← gets fun st => (st.inode (st.file fp).fInode).iSize
    memcpy newstart start size.toNat
    free (.block start.base)
    return (newstart, newend)
  else return (newstart, newend)

/-- The part of `kvfs_write` that moves an appending file to its end. -/
def seekAppend (fp : ℕ) (mode : UInt32) : Code Unit := do
  if mode &&& O_APPEND ≠ 0 then
    let size ← gets fun st => (st.inode (st.file fp).fInode).iSize
    setFile fp fun f => { f with fPos := size }
  else pure ()

/-- The part of `kvfs_write` that raises the size of a file to `n`. -/
def raiseSize (ip : ℕ) (n : ℤ) : Code Unit := do
  let size ← gets fun st => (st.inode ip).iSize
  if toU32 size < toU32 n then setInode ip fun i => { i with iSize := toInt n } else pure ()

/-- The end of `kvfs_write`: copy the buffer to the position of the file and keep the storage. -/
def kvfsStore (fp : ℕ) (buf : List UInt8) (newstart newend : Ptr) : Code ℤ := do
  let pos ← gets fun st => (st.file fp).fPos
  memcpyFrom (newstart.add pos) buf (toInt buf.length).toNat
  let ip ← gets fun st => (st.file fp).fInode
  raiseSize ip (pos + buf.length)
  let ino ← gets fun st => (st.inode ip).iIno
  modify fun st => { st with
    kvfsFiles := Function.update st.kvfsFiles ino
      { st.kvfsFiles ino with start := newstart, endPtr := newend } }
  setFile fp fun f => { f with fPos := toInt (f.fPos + buf.length) }
  return toInt buf.length

/-- `kvfs_write`. The buffer has `count` bytes. -/
def kvfsWrite (fp : ℕ) (buf : List UInt8) : Code ℤ := do
  let node ← gets fun st => st.kvfsFiles (st.inode (st.file fp).fInode).iIno
  let mode ← gets fun st => (st.file fp).fMode
  seekAppend fp mode
  if mode &&& O_WRONLY = 0 then return 0
  else
    let pos ← gets fun st => (st.file fp).fPos
    let size ← gets fun st => (st.inode (st.file fp).fInode).iSize
    if toU32 size < toU32 (pos + buf.length) then
      let (newstart, newend) ← kvfsGrow fp buf.length
      kvfsStore fp buf newstart newend
    else kvfsStore fp buf node.start node.endPtr

end Files

section Mount

/-- The root that `kvfs_mount`, `proc_mount` and `devfs_mount` build: the inode, the dentry, and
the copied name of the device. -/
def mountRoot (ops : Driver) (acl : UInt16) (ino : ℤ) (fs : ℕ) (source : List Char) :
    Code ℕ := do
  let ip ← allocInode
  let dentry ← allocDentry
  setInode ip fun i =>
    { i with iUid := 0, iGid := 0, iAcl := acl, iIno := ino, iOp := ops, iFop := none }
  setDentry dentry fun d =>
    { d with
      dIname := []
      dInode := some ip
      dParent := dentry
      dSubdirs := none
      dMounted := 0
      dIsdir := true
      dOp := ops }
  setFsType fs fun f => { f with dev := source }
  return dentry

/-- `strncmp(source, "ramdisk", strlen("ramdisk"))` is zero and the next character a digit. -/
def isRamdisk (source : List Char) : Bool :=
  source.take 7 = "ramdisk".toList &&
    match source[7]? with
    | none => false
    | some c => '0' ≤ c && c ≤ '9'

def kvfsMount (fs : ℕ) (source : List Char) : Code (Option ℕ) := do
  if isRamdisk source then
    let dentry ← mountRoot .kvfs 0x755 (-1) fs source
    if ← gets fun st => st.kvfsInited then return some dentry
    else
      modify fun st => { st with
        kvfsFiles := fun i =>
          if 0 ≤ i ∧ i < KVFS_MAX_FILE then ⟨false, .null, .null⟩ else st.kvfsFiles i
        kvfsInited := true }
      return some dentry
  else return none

end Mount

end NSOS.Vfs
