import NSOS.Vfs.Drivers

/-! # Path lookup

The walk along a path. Each component is looked up among the cached entries of
a directory first, and then by the driver. A lookup that finds a mountpoint
goes on at the root of the mount.
-/

namespace NSOS.Vfs

open Basis Prog

structure Nameidata where
  dentry : ℕ
  mnt : Option ℕ
  deriving DecidableEq

section Walk

variable (t : ℕ) (nd : Nameidata)

def followDotdot : Code Nameidata := do
  if nd.dentry = (← gets fun st => st.rootDentry) then return nd
  else if (← gets fun st => (st.dentry nd.dentry).dParent) = nd.dentry then
    let mnt ← demand nd.mnt
    let upper ← gets fun st => st.mount mnt
    let parent ← gets fun st => (st.dentry upper.mntMountpoint).dParent
    return ⟨parent, upper.mntParent⟩
  else
    let parent ← gets fun st => (st.dentry nd.dentry).dParent
    return ⟨parent, nd.mnt⟩

/-- The entry of a directory with a name, among the entries it has in memory. -/
def findEntry (name : List Char) : Code (Option ℕ) := do
  let n ← gets fun st => st.dentries.size
  let o ← gets fun st => (st.dentry nd.dentry).dSubdirs
  search (fun st d => (st.dentry d).dChild) (fun st d => (st.dentry d).dIname = name) (n + 1) o

def findMount (hit : State → ℕ → Bool) : Code (Option ℕ) := do
  let n ← gets fun st => st.mounts.size
  let o ← gets fun st => st.mntHead
  search (fun st m => (st.mount m).mntNext) hit (n + 1) o

/-- The part of `do_lookup` for an entry in memory. A missing `d_revalidate` would be called
through a null pointer. -/
def enter (denit : ℕ) : Code Nameidata := do
  match (← gets fun st => st.dentry denit).dOp.dRevalidate with
  | none => stop
  | some _ =>
    let d ← gets fun st => st.dentry denit
    if d.dIsdir = true ∧ d.dMounted ≠ 0 then
      let mnt ← demand (← findMount fun st m => (st.mount m).mntMountpoint = denit)
      let root ← gets fun st => (st.mount mnt).mntRoot
      return ⟨root, some mnt⟩
    else return ⟨denit, nd.mnt⟩

def fsOf : Code FsType := do
  let mnt ← demand nd.mnt
  gets fun st => st.fsType (st.mount mnt).mntFs

def newDentry (name : List Char) (inode : Option ℕ) (op : Driver) : Code ℕ := do
  let denit ← allocDentry
  let child ← gets fun st => (st.dentry nd.dentry).dChild
  setDentry denit fun d =>
    { d with
      dIname := name
      dInode := inode
      dParent := nd.dentry
      dChild := child
      dSubdirs := none
      dMounted := 0
      dOp := op }
  return denit

/-- Put a new dentry in front of the list of entries, and go there. -/
def linkDentry (denit : ℕ) : Code Nameidata := do
  let subdirs ← gets fun st => (st.dentry nd.dentry).dSubdirs
  setDentry denit fun d => { d with dChild := subdirs }
  setDentry nd.dentry fun d => { d with dSubdirs := some denit }
  return { nd with dentry := denit }

/-- The part of `do_lookup` that asks the driver. -/
def slowLookup (name : List Char) : Code (Bool × Nameidata) := do
  let ip ← demand (← gets fun st => (st.dentry nd.dentry).dInode)
  let iop ← gets fun st => (st.inode ip).iOp
  let fs ← fsOf nd
  let denit ← newDentry nd name none fs.dop
  let newinode ← fs.sop.allocInode
  if ← iop.lookup newinode denit then
    let nd ← linkDentry nd denit
    return (false, nd)
  else
    fs.sop.destroyInode newinode
    free (.iname denit)
    free (.dentry denit)
    return (true, nd)

/-- `do_lookup`. It yields whether nothing was found. -/
def doLookup (name : List Char) : Code (Bool × Nameidata) := do
  match ← findEntry nd name with
  | some denit =>
    let nd ← enter nd denit
    return (false, nd)
  | none => slowLookup nd name

def startOf (name : List Char) : Code Nameidata := do
  if name.head? = some '/' then
    gets fun st => ⟨(st.thread t).root, some (st.thread t).rootmnt⟩
  else gets fun st => ⟨(st.thread t).pwd, some (st.thread t).pwdmnt⟩

def component (name : List Char) : List Char := name.takeWhile (· ≠ '/')

def remainder (name : List Char) : List Char :=
  (name.dropWhile (· ≠ '/')).dropWhile (· = '/')

def trailing (name : List Char) : Bool := component name ≠ name && remainder name = []

def isDir : Code Bool := gets fun st => (st.dentry nd.dentry).dIsdir

/-- The loop of `path_lookup`. The flag `dir` is `LOOKUP_DIRECTORY`. -/
def pathLoop : ℕ → List Char → Bool → Nameidata → Code (Option ℕ × Nameidata)
  | 0, _, _, _ => stop
  | n + 1, namestart, dir, nd => do
    let name := remainder namestart
    let dir := dir || trailing namestart
    if component namestart = ['.'] then
      if name = [] then return (some nd.dentry, nd) else pathLoop n name dir nd
    else if component namestart = ['.', '.'] then
      let nd ← followDotdot nd
      if name = [] then return (some nd.dentry, nd) else pathLoop n name dir nd
    else
      let (failed, nd) ← doLookup nd (component namestart)
      if failed then return (none, nd)
      else if name ≠ [] then
        if ← isDir nd then pathLoop n name dir nd else return (none, nd)
      else if dir = true ∧ (← isDir nd) = false then return (none, nd)
      else return (some nd.dentry, nd)

def pathLookup (path : List Char) (dir : Bool) : Code (Option ℕ × Nameidata) := do
  let nd ← startOf t path
  let name := path.dropWhile (· = '/')
  if name = [] then return (some nd.dentry, nd) else pathLoop name.length name dir nd

/-- The part of `make_path` that makes an entry that was not found. It yields no place when the
driver refuses. -/
def makeEntry (name : List Char) (file : Bool) (mode : UInt16) : Code (Option Nameidata) := do
  let fs ← fsOf nd
  let newinode ← fs.sop.allocInode
  let uid ← gets fun st => (st.thread t).uid
  let gid ← gets fun st => (st.thread t).gid
  setInode newinode fun i => { i with iUid := uid, iGid := gid, iAcl := mode, iOp := fs.iop }
  let newdentry ← newDentry nd name (some newinode) fs.dop
  let iop ← gets fun st => (st.inode newinode).iOp
  if ← (if file then iop.create newinode newdentry else iop.mkdir newinode newdentry) then
    fs.sop.destroyInode newinode
    free (.dentry newdentry)
    return none
  else
    let nd ← linkDentry nd newdentry
    return some nd

/-- A component of `make_path`: the entry that is there, or a new one. -/
def lookupOrMake (name : List Char) (file : Bool) (mode : UInt16) : Code (Option Nameidata) := do
  let (failed, nd) ← doLookup nd name
  if failed then
    let ip ← demand (← gets fun st => (st.dentry nd.dentry).dInode)
    let inode ← gets fun st => st.inode ip
    let uid ← gets fun st => (st.thread t).uid
    let gid ← gets fun st => (st.thread t).gid
    if checkAcl uid gid inode (R_OK ||| W_OK) then return none
    else makeEntry t nd name file mode
  else return some nd

def makeLoop (dir : Bool) (mode : UInt16) :
    ℕ → List Char → Nameidata → Code (Option ℕ × Nameidata)
  | 0, _, _ => stop
  | n + 1, namestart, nd => do
    let name := remainder namestart
    if trailing namestart = true ∧ dir = false then return (none, nd)
    else if component namestart = ['.'] then
      if name = [] then return (if dir then some nd.dentry else none, nd)
      else makeLoop dir mode n name nd
    else if component namestart = ['.', '.'] then
      let nd ← followDotdot nd
      if name = [] then return (if dir then some nd.dentry else none, nd)
      else makeLoop dir mode n name nd
    else
      match ← lookupOrMake t nd (component namestart) (name = [] && !dir) mode with
      | none => return (none, nd)
      | some nd =>
        if name ≠ [] then
          if ← isDir nd then makeLoop dir mode n name nd else return (none, nd)
        else if (← isDir nd) = dir then return (some nd.dentry, nd)
        else return (none, nd)

def makePath (path : List Char) (dir : Bool) (mode : UInt16) : Code (Option ℕ × Nameidata) := do
  let nd ← startOf t path
  let name := path.dropWhile (· = '/')
  if name = [] then return (if dir then some nd.dentry else none, nd)
  else makeLoop t dir mode name.length name nd

end Walk

end NSOS.Vfs
