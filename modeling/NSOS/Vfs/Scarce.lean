import NSOS.Basis.Scarce
import NSOS.Vfs.History

/-! # The file system on scarce memory

The operations that allocate, with an allocator that may refuse. Only the two
allocations of `do_lookup` are checked. With plenty of memory, the operations
are those of the kernel whose allocator never fails.
-/

namespace NSOS.Vfs.Scarce

open Basis Prog

abbrev Code (α : Type) := Prog Sem (Asked State) α

section Lookups

variable (ok : ℕ → Bool) (t : ℕ) (nd : Nameidata)

/-- The part of `do_lookup` that asks the driver. A dentry without a name is lost before anything
leads to it. -/
def slowLookup (name : List Char) : Code (Bool × Nameidata) := do
  let ip ← demand (← gets fun s => (s.state.dentry nd.dentry).dInode)
  let iop ← gets fun s => (s.state.inode ip).iOp
  if ← granted ok then
    if ← granted ok then
      let fs ← fsOf nd
      let denit ← newDentry nd name none fs.dop
      let newinode ← unchecked ok fs.sop.allocInode
      if ← iop.lookup newinode denit then
        let nd ← linkDentry nd denit
        return (false, nd)
      else
        fs.sop.destroyInode newinode
        free (.iname denit)
        free (.dentry denit)
        return (true, nd)
    else return (true, nd)
  else return (true, nd)

def doLookup (name : List Char) : Code (Bool × Nameidata) := do
  match ← findEntry nd name with
  | some denit =>
    let nd ← enter nd denit
    return (false, nd)
  | none => slowLookup ok nd name

def pathLoop : ℕ → List Char → Bool → Nameidata → Code (Option ℕ × Nameidata)
  | 0, _, _, _ => stop
  | n + 1, namestart, dir, nd => do
    let name := remainder namestart
    let dir := dir || trailing namestart
    if component namestart = ['.'] then
      if name = [] then return (some nd.dentry, nd) else pathLoop n name dir nd
    else if component namestart = ['.', '.'] then
      let nd ← followDotdot nd
      if name = [] then return (some nd.dentry, nd) else pathLoop n name dir nd
    else
      let (failed, nd) ← doLookup ok nd (component namestart)
      if failed then return (none, nd)
      else if name ≠ [] then
        if ← isDir nd then pathLoop n name dir nd else return (none, nd)
      else if dir = true ∧ (← isDir nd) = false then return (none, nd)
      else return (some nd.dentry, nd)

def pathLookup (path : List Char) (dir : Bool) : Code (Option ℕ × Nameidata) := do
  let nd ← startOf t path
  let name := path.dropWhile (· = '/')
  if name = [] then return (some nd.dentry, nd) else pathLoop ok name.length name dir nd

/-- The part of `make_path` that makes an entry. Its inode, its dentry and its name are not
checked. -/
def makeEntry (name : List Char) (file : Bool) (mode : UInt16) : Code (Option Nameidata) := do
  let fs ← fsOf nd
  let newinode ← unchecked ok fs.sop.allocInode
  let uid ← gets fun s => (s.state.thread t).uid
  let gid ← gets fun s => (s.state.thread t).gid
  setInode newinode fun i => { i with iUid := uid, iGid := gid, iAcl := mode, iOp := fs.iop }
  if ← granted ok then
    let newdentry ← unchecked ok (newDentry nd name (some newinode) fs.dop)
    let iop ← gets fun s => (s.state.inode newinode).iOp
    if ← liftM (if file then iop.create newinode newdentry
        else iop.mkdir newinode newdentry : Vfs.Code Bool) then
      fs.sop.destroyInode newinode
      free (.dentry newdentry)
      return none
    else
      let nd ← linkDentry nd newdentry
      return some nd
  else stop

/-- A component of `make_path`: the entry that is there, or a new one. -/
def lookupOrMake (name : List Char) (file : Bool) (mode : UInt16) : Code (Option Nameidata) := do
  let (failed, nd) ← doLookup ok nd name
  if failed then
    let ip ← demand (← gets fun s => (s.state.dentry nd.dentry).dInode)
    let inode ← gets fun s => s.state.inode ip
    let uid ← gets fun s => (s.state.thread t).uid
    let gid ← gets fun s => (s.state.thread t).gid
    if checkAcl uid gid inode (R_OK ||| W_OK) then return none
    else makeEntry ok t nd name file mode
  else return some nd

def makeLoop (dir : Bool) (mode : UInt16) :
    ℕ → List Char → Nameidata → Code (Option ℕ × Nameidata)
  | 0, _, _ => stop
  | n + 1, namestart, nd => do
    let name := remainder namestart
    if trailing namestart = true ∧ dir = false then return (none, nd)
    else if component namestart = ['.'] then
      if name = [] then return (if dir then some nd.dentry else none, nd)
      else makeLoop dir mode n name nd
    else if component namestart = ['.', '.'] then
      let nd ← followDotdot nd
      if name = [] then return (if dir then some nd.dentry else none, nd)
      else makeLoop dir mode n name nd
    else
      match ← lookupOrMake ok t nd (component namestart) (name = [] && !dir) mode with
      | none => return (none, nd)
      | some nd =>
        if name ≠ [] then
          if ← isDir nd then makeLoop dir mode n name nd else return (none, nd)
        else if (← isDir nd) = dir then return (some nd.dentry, nd)
        else return (none, nd)

def makePath (path : List Char) (dir : Bool) (mode : UInt16) : Code (Option ℕ × Nameidata) := do
  let nd ← startOf t path
  let name := path.dropWhile (· = '/')
  if name = [] then return (if dir then some nd.dentry else none, nd)
  else makeLoop ok t dir mode name.length name nd

end Lookups

section Mounts

variable (ok : ℕ → Bool) (t : ℕ)

/-- The root that `kvfs_mount`, `proc_mount` and `devfs_mount` build. -/
def mountRoot (ops : Driver) (acl : UInt16) (ino : ℤ) (fs : ℕ) (source : List Char) :
    Code ℕ := do
  let ip ← unchecked ok allocInode
  let dentry ← unchecked ok allocDentry
  setInode ip fun i =>
    { i with iUid := 0, iGid := 0, iAcl := acl, iIno := ino, iOp := ops, iFop := none }
  setDentry dentry fun d =>
    { d with
      dIname := []
      dInode := some ip
      dParent := dentry
      dSubdirs := none
      dMounted := 0
      dIsdir := true
      dOp := ops }
  unchecked ok (setFsType fs fun f => { f with dev := source })
  return dentry

def kvfsMount (fs : ℕ) (source : List Char) : Code (Option ℕ) := do
  if isRamdisk source then
    let dentry ← mountRoot ok .kvfs 0x755 (-1) fs source
    if ← gets fun s => s.state.kvfsInited then return some dentry
    else
      modify fun s => { s with state := { s.state with
        kvfsFiles := fun i =>
          if 0 ≤ i ∧ i < KVFS_MAX_FILE then ⟨false, .null, .null⟩ else s.state.kvfsFiles i
        kvfsInited := true } }
      return some dentry
  else return none

def procMount (fs : ℕ) (source : List Char) : Code (Option ℕ) := do
  if source = "proc".toList then return some (← mountRoot ok .procfs aclRead (-3) fs source)
  else return none

def devfsMount (fs : ℕ) (source : List Char) : Code (Option ℕ) := do
  if source = "udev".toList then return some (← mountRoot ok .devfs 0x0666 (-1) fs source)
  else return none

def mountOf : Driver → ℕ → List Char → Code (Option ℕ)
  | .kvfs => kvfsMount ok
  | .procfs => procMount ok
  | .devfs => devfsMount ok

/-- The part of `vfs_mount` that calls the driver. The new mount is not checked. -/
def mountRest (ops : Driver) (retden fs : ℕ) (mnt : Option ℕ) (source : List Char) : Code ℤ := do
  match ← mountOf ok ops fs source with
  | none =>
    semSignal .vfsSem
    return -1
  | some root =>
    unchecked ok (addMount root retden fs mnt)
    semSignal .vfsSem
    return 0

/-- The part of `vfs_mount` behind the lookup. -/
def mountOn (retden fs : ℕ) (mnt : Option ℕ) : Code ℤ := do
  if (← gets fun s => (s.state.dentry retden).dIsdir) = false then
    semSignal .vfsSem
    return -1
  else
    match (← gets fun s => s.state.fsType fs).mount with
    | none =>
      semSignal .vfsSem
      return -1
    | some mount =>
      let dev ← gets fun s => (s.state.fsType fs).dev
      mountRest ok mount retden fs mnt dev

def vfsMount (path : List Char) (fs : ℕ) : Code ℤ := do
  semWait .vfsSem
  if ← unprivileged t then
    semSignal .vfsSem
    return -1
  else
    match ← pathLookup ok t path false with
    | (none, _) =>
      semSignal .vfsSem
      return -1
    | (some retden, nd) => mountOn ok retden fs nd.mnt

end Mounts

section Files

variable (ok : ℕ → Bool) (t : ℕ)

/-- The end of `vfs_open`. The open file is not checked. -/
def openDentry (retden : ℕ) (flags : UInt32) : Code ℤ := do
  let newfile ← unchecked ok allocFile
  let ip ← demand (← gets fun s => (s.state.dentry retden).dInode)
  let fop ← gets fun s => (s.state.inode ip).iFop
  setFile newfile fun _ => ⟨retden, ip, 0, flags, fop⟩
  let i ← freeFd t MAX_FILE_PER_THREAD 0
  if i = MAX_FILE_PER_THREAD then
    semSignal .vfsSem
    return -1
  else
    setFd t i (.file newfile)
    semSignal .vfsSem
    return i

def vfsOpen (path : List Char) (flags : UInt32) : Code ℤ := do
  semWait .vfsSem
  match (← makePath ok t path false ACL_DEFAULT).1 with
  | none =>
    semSignal .vfsSem
    return -1
  | some retden => openDentry ok t retden flags

def vfsMkdir (path : List Char) (mode : UInt16) : Code ℤ := do
  semWait .vfsSem
  match (← pathLookup ok t path false).1 with
  | some _ =>
    semSignal .vfsSem
    return -1
  | none =>
    match (← makePath ok t path true mode).1 with
    | none =>
      semSignal .vfsSem
      return -1
    | some _ =>
      semSignal .vfsSem
      return 0

/-- An access to `n` bytes behind a pointer, which halts the machine when the pointer is null. -/
def touch (null : Bool) (n : ℕ) (p : Vfs.Code Unit) : Code Unit :=
  if null = true ∧ 0 < n then stop else liftM p

/-- `pmm->alloc` of a block of bytes. It yields whether the pointer is null. -/
def allocBlock : Code (Bool × Ptr) := do
  if ← granted ok then
    let p ← Vfs.allocBlock
    return (false, p)
  else return (true, .null)

/-- The part of `kvfs_write` that makes room. It yields whether the new pointer is null. -/
def kvfsGrow (fp count : ℕ) : Code (Bool × Ptr × Ptr) := do
  let pos ← gets fun s => (s.state.file fp).fPos
  let (null, newstart) ← allocBlock ok
  let newend := (newstart.add pos).add count
  touch null (toInt (pos + count)).toNat (memset newstart 0 (toInt (pos + count)).toNat)
  let start ← gets fun s =>
    (s.state.kvfsFiles (s.state.inode (s.state.file fp).fInode).iIno).start
  if start ≠ .null then
    let size ← gets fun s => (s.state.inode (s.state.file fp).fInode).iSize
    touch null size.toNat (memcpy newstart start size.toNat)
    free (.block start.base)
    return (null, newstart, newend)
  else return (null, newstart, newend)

/-- The end of `kvfs_write`. -/
def kvfsStore (null : Bool) (fp : ℕ) (buf : List UInt8) (newstart newend : Ptr) : Code ℤ := do
  let pos ← gets fun s => (s.state.file fp).fPos
  touch null (toInt buf.length).toNat
    (memcpyFrom (newstart.add pos) buf (toInt buf.length).toNat)
  let ip ← gets fun s => (s.state.file fp).fInode
  raiseSize ip (pos + buf.length)
  let ino ← gets fun s => (s.state.inode ip).iIno
  modify fun s => { s with state := { s.state with
    kvfsFiles := Function.update s.state.kvfsFiles ino
      { s.state.kvfsFiles ino with start := newstart, endPtr := newend } } }
  setFile fp fun f => { f with fPos := toInt (f.fPos + buf.length) }
  return toInt buf.length

def kvfsWrite (fp : ℕ) (buf : List UInt8) : Code ℤ := do
  let node ← gets fun s => s.state.kvfsFiles (s.state.inode (s.state.file fp).fInode).iIno
  let mode ← gets fun s => (s.state.file fp).fMode
  seekAppend fp mode
  if mode &&& O_WRONLY = 0 then return 0
  else
    let pos ← gets fun s => (s.state.file fp).fPos
    let size ← gets fun s => (s.state.inode (s.state.file fp).fInode).iSize
    if toU32 size < toU32 (pos + buf.length) then
      let (null, newstart, newend) ← kvfsGrow ok fp buf.length
      kvfsStore null fp buf newstart newend
    else kvfsStore false fp buf node.start node.endPtr

/-- `kmt_create`. The stack is not checked before its fence is written. -/
def kmtCreate : Code ℤ := do
  let i ← gets fun s => emptySlot s.state KERNEL_MAX_THREAD.toNat 1
  if KERNEL_MAX_THREAD < i then return -1
  else
    unchecked ok (modify fun st => Vfs.kmtCreate st t)
    return 0

end Files

section Plenty

variable {s : Asked State} {t fs n fp : ℕ} {nd : Nameidata} {name path source : List Char}
  {file dir : Bool} {mode : UInt16} {flags : UInt32} {buf : List UInt8} {ops : Driver}

theorem same_slowLookup :
    Twins s s.state (slowLookup plenty nd name) (Vfs.slowLookup nd name) Same := by
  unfold slowLookup Vfs.slowLookup
  refine Twins.gets rfl (Twins.demand rfl fun ip _ => Twins.gets rfl ?_)
  refine Twins.granted (Twins.granted ?_)
  refine Twins.lift.same_bind (Twins.lift.same_bind (Twins.unchecked.same_bind ?_))
  intro newinode s
  refine Twins.lift.same_bind fun {found s} => ?_
  apply Twins.ite Iff.rfl
  · exact fun _ => Twins.lift.same_bind (.pure ⟨rfl, rfl⟩)
  · intro _
    exact Twins.lift.same_bind (Twins.lift.same_bind (Twins.lift.same_bind (.pure ⟨rfl, rfl⟩)))

theorem same_doLookup :
    Twins s s.state (doLookup plenty nd name) (Vfs.doLookup nd name) Same := by
  unfold doLookup Vfs.doLookup
  refine Twins.lift.same_bind fun {o s} => ?_
  cases o with
  | some denit => exact Twins.lift.same_bind (.pure ⟨rfl, rfl⟩)
  | none => exact same_slowLookup

theorem same_pathLoop :
    Twins s s.state (pathLoop plenty n name dir nd) (Vfs.pathLoop n name dir nd) Same := by
  induction n generalizing s name dir nd with
  | zero => exact .stop
  | succ n ih =>
    have hstep : ∀ {s : Asked State} {nd : Nameidata}, Twins s s.state
        (if remainder name = [] then return (some nd.dentry, nd)
          else pathLoop plenty n (remainder name) (dir || trailing name) nd : Code _)
        (if remainder name = [] then return (some nd.dentry, nd)
          else Vfs.pathLoop n (remainder name) (dir || trailing name) nd : Vfs.Code _) Same := by
      intro s nd
      apply Twins.ite Iff.rfl
      · exact fun _ => .pure ⟨rfl, rfl⟩
      · exact fun _ => ih
    unfold pathLoop Vfs.pathLoop
    apply Twins.ite Iff.rfl
    · exact fun _ => hstep
    intro _
    apply Twins.ite Iff.rfl
    · exact fun _ => Twins.lift.same_bind hstep
    intro _
    refine same_doLookup.same_bind fun {r s} => ?_
    obtain ⟨failed, nd⟩ := r
    apply Twins.ite Iff.rfl
    · exact fun _ => .pure ⟨rfl, rfl⟩
    intro _
    apply Twins.ite Iff.rfl
    · intro _
      refine Twins.lift.same_bind fun {b s} => ?_
      apply Twins.ite Iff.rfl
      · exact fun _ => ih
      · exact fun _ => .pure ⟨rfl, rfl⟩
    · intro _
      refine Twins.lift.same_bind fun {b s} => ?_
      apply Twins.ite Iff.rfl
      · exact fun _ => .pure ⟨rfl, rfl⟩
      · exact fun _ => .pure ⟨rfl, rfl⟩

theorem same_pathLookup :
    Twins s s.state (pathLookup plenty t path dir) (Vfs.pathLookup t path dir) Same := by
  unfold pathLookup Vfs.pathLookup
  refine Twins.lift.same_bind fun {nd s} => ?_
  apply Twins.ite Iff.rfl
  · exact fun _ => .pure ⟨rfl, rfl⟩
  · exact fun _ => same_pathLoop

theorem same_makeEntry :
    Twins s s.state (makeEntry plenty t nd name file mode) (Vfs.makeEntry t nd name file mode)
      Same := by
  unfold makeEntry Vfs.makeEntry
  refine Twins.lift.same_bind (Twins.unchecked.same_bind ?_)
  intro newinode s
  refine Twins.gets rfl (Twins.gets rfl (Twins.lift.same_bind ?_))
  intro _ s
  refine Twins.granted (Twins.unchecked.same_bind ?_)
  intro newdentry s
  refine Twins.gets rfl (Twins.lift.same_bind fun {failed s} => ?_)
  apply Twins.ite Iff.rfl
  · exact fun _ => Twins.lift.same_bind (Twins.lift.same_bind (.pure ⟨rfl, rfl⟩))
  · exact fun _ => Twins.lift.same_bind (.pure ⟨rfl, rfl⟩)

theorem same_lookupOrMake :
    Twins s s.state (lookupOrMake plenty t nd name file mode)
      (Vfs.lookupOrMake t nd name file mode) Same := by
  unfold lookupOrMake Vfs.lookupOrMake
  refine same_doLookup.same_bind fun {r s} => ?_
  obtain ⟨failed, nd⟩ := r
  apply Twins.ite Iff.rfl
  · intro _
    refine Twins.gets rfl (Twins.demand rfl fun ip _ => ?_)
    refine Twins.gets rfl (Twins.gets rfl (Twins.gets rfl ?_))
    apply Twins.ite Iff.rfl
    · exact fun _ => .pure ⟨rfl, rfl⟩
    · exact fun _ => same_makeEntry
  · exact fun _ => .pure ⟨rfl, rfl⟩

theorem same_makeLoop :
    Twins s s.state (makeLoop plenty t dir mode n name nd) (Vfs.makeLoop t dir mode n name nd)
      Same := by
  induction n generalizing s name nd with
  | zero => exact .stop
  | succ n ih =>
    have hstep : ∀ {s : Asked State} {nd : Nameidata}, Twins s s.state
        (if remainder name = [] then return (if dir then some nd.dentry else none, nd)
          else makeLoop plenty t dir mode n (remainder name) nd : Code _)
        (if remainder name = [] then return (if dir then some nd.dentry else none, nd)
          else Vfs.makeLoop t dir mode n (remainder name) nd : Vfs.Code _) Same := by
      intro s nd
      apply Twins.ite Iff.rfl
      · exact fun _ => .pure ⟨rfl, rfl⟩
      · exact fun _ => ih
    unfold makeLoop Vfs.makeLoop
    apply Twins.ite Iff.rfl
    · exact fun _ => .pure ⟨rfl, rfl⟩
    intro _
    apply Twins.ite Iff.rfl
    · exact fun _ => hstep
    intro _
    apply Twins.ite Iff.rfl
    · exact fun _ => Twins.lift.same_bind hstep
    intro _
    refine same_lookupOrMake.same_bind fun {o s} => ?_
    cases o with
    | none => exact .pure ⟨rfl, rfl⟩
    | some nd =>
      apply Twins.ite Iff.rfl
      · intro _
        refine Twins.lift.same_bind fun {b s} => ?_
        apply Twins.ite Iff.rfl
        · exact fun _ => ih
        · exact fun _ => .pure ⟨rfl, rfl⟩
      · intro _
        refine Twins.lift.same_bind fun {b s} => ?_
        apply Twins.ite Iff.rfl
        · exact fun _ => .pure ⟨rfl, rfl⟩
        · exact fun _ => .pure ⟨rfl, rfl⟩

theorem same_makePath :
    Twins s s.state (makePath plenty t path dir mode) (Vfs.makePath t path dir mode) Same := by
  unfold makePath Vfs.makePath
  refine Twins.lift.same_bind fun {nd s} => ?_
  apply Twins.ite Iff.rfl
  · exact fun _ => .pure ⟨rfl, rfl⟩
  · exact fun _ => same_makeLoop

theorem same_mountRoot {acl : UInt16} {ino : ℤ} :
    Twins s s.state (mountRoot plenty ops acl ino fs source)
      (Vfs.mountRoot ops acl ino fs source) Same := by
  unfold mountRoot Vfs.mountRoot
  refine Twins.unchecked.same_bind (Twins.unchecked.same_bind ?_)
  intro dentry s
  refine Twins.lift.same_bind (Twins.lift.same_bind (Twins.unchecked.same_bind ?_))
  exact .pure ⟨rfl, rfl⟩

theorem same_mountOf :
    Twins s s.state (mountOf plenty ops fs source) (ops.mount fs source) Same := by
  cases ops with
  | kvfs =>
    unfold mountOf kvfsMount Driver.mount Vfs.kvfsMount
    apply Twins.ite Iff.rfl
    · intro _
      refine same_mountRoot.same_bind fun {dentry s} => Twins.gets rfl ?_
      apply Twins.ite Iff.rfl
      · exact fun _ => .pure ⟨rfl, rfl⟩
      · exact fun _ => Twins.modify (.pure ⟨rfl, rfl⟩)
    · exact fun _ => .pure ⟨rfl, rfl⟩
  | procfs =>
    unfold mountOf procMount Driver.mount Vfs.procMount
    apply Twins.ite Iff.rfl
    · exact fun _ => same_mountRoot.same_bind (.pure ⟨rfl, rfl⟩)
    · exact fun _ => .pure ⟨rfl, rfl⟩
  | devfs =>
    unfold mountOf devfsMount Driver.mount Vfs.devfsMount
    apply Twins.ite Iff.rfl
    · exact fun _ => same_mountRoot.same_bind (.pure ⟨rfl, rfl⟩)
    · exact fun _ => .pure ⟨rfl, rfl⟩

theorem same_leave {z : ℤ} : Twins s s.state (do semSignal .vfsSem; return z : Code ℤ)
    (do semSignal .vfsSem; return z : Vfs.Code ℤ) Same :=
  Twins.semSignal (.pure ⟨rfl, rfl⟩)

theorem same_vfsMount :
    Twins s s.state (vfsMount plenty t path fs) (Vfs.vfsMount t path fs) Same := by
  unfold vfsMount Vfs.vfsMount
  refine Twins.semWait (Twins.lift.same_bind fun {b s} => ?_)
  apply Twins.ite Iff.rfl
  · exact fun _ => same_leave
  intro _
  refine same_pathLookup.same_bind fun {r s} => ?_
  obtain ⟨o, nd⟩ := r
  cases o with
  | none => exact same_leave
  | some d =>
    unfold mountOn
    refine Twins.gets rfl ?_
    apply Twins.ite Iff.rfl
    · exact fun _ => same_leave
    intro _
    refine Twins.gets rfl ?_
    cases hmount : (s.state.fsType fs).mount with
    | none => exact same_leave
    | some driver =>
      refine Twins.gets rfl (same_mountOf.same_bind fun {o s} => ?_)
      cases o with
      | none => exact same_leave
      | some root => exact Twins.unchecked.same_bind same_leave

theorem same_vfsOpen :
    Twins s s.state (vfsOpen plenty t path flags) (Vfs.vfsOpen t path flags) Same := by
  unfold vfsOpen Vfs.vfsOpen
  refine Twins.semWait (same_makePath.same_bind fun {r s} => ?_)
  obtain ⟨o, nd⟩ := r
  cases o with
  | none => exact same_leave
  | some d =>
    unfold openDentry
    refine Twins.unchecked.same_bind fun {f s} => ?_
    refine Twins.gets rfl (Twins.demand rfl fun ip _ => Twins.gets rfl ?_)
    refine Twins.lift.same_bind (Twins.lift.same_bind fun {i s} => ?_)
    apply Twins.ite Iff.rfl
    · exact fun _ => same_leave
    · exact fun _ => Twins.lift.same_bind same_leave

theorem same_vfsMkdir :
    Twins s s.state (vfsMkdir plenty t path mode) (Vfs.vfsMkdir t path mode) Same := by
  unfold vfsMkdir Vfs.vfsMkdir
  refine Twins.semWait (same_pathLookup.same_bind fun {r s} => ?_)
  obtain ⟨o, nd⟩ := r
  cases o with
  | some d => exact same_leave
  | none =>
    refine same_makePath.same_bind fun {r s} => ?_
    obtain ⟨o, nd⟩ := r
    cases o with
    | none => exact same_leave
    | some d => exact same_leave

theorem same_touch {p : Vfs.Code Unit} : Twins s s.state (touch false n p) p Same := by
  unfold touch
  rw [if_neg (by simp)]
  exact .lift

theorem same_kvfsStore {start last : Ptr} :
    Twins s s.state (kvfsStore false fp buf start last) (Vfs.kvfsStore fp buf start last)
      Same := by
  unfold kvfsStore Vfs.kvfsStore
  refine Twins.gets rfl (same_touch.same_bind fun {_ s} => Twins.gets rfl ?_)
  refine Twins.lift.same_bind fun {_ s} => Twins.gets rfl (Twins.modify ?_)
  exact Twins.lift.same_bind (.pure ⟨rfl, rfl⟩)

theorem granted_kvfsGrow :
    Twins s s.state (kvfsGrow plenty fp n) (Vfs.kvfsGrow fp n) fun r s r' x =>
      r = (false, r') ∧ x = s.state := by
  have halloc : ∀ {s : Asked State}, Twins s s.state (allocBlock plenty) Vfs.allocBlock
      fun r s r' x => r = (false, r') ∧ x = s.state := fun {s} =>
    Twins.granted (Twins.lift.bind fun {a s' b x} h => (by
      obtain ⟨rfl, rfl⟩ := h
      exact .pure ⟨rfl, rfl⟩))
  unfold kvfsGrow Vfs.kvfsGrow
  refine Twins.gets rfl (halloc.bind ?_)
  rintro ⟨null, start⟩ s _ _ ⟨hr, rfl⟩
  obtain ⟨rfl, rfl⟩ := Prod.mk.inj hr
  refine same_touch.bind ?_
  rintro _ s _ _ ⟨-, rfl⟩
  refine Twins.gets rfl ?_
  apply Twins.ite Iff.rfl
  · intro _
    refine Twins.gets rfl (same_touch.bind ?_)
    rintro _ s _ _ ⟨-, rfl⟩
    refine Twins.lift.bind ?_
    rintro _ s _ _ ⟨-, rfl⟩
    exact .pure ⟨rfl, rfl⟩
  · exact fun _ => .pure ⟨rfl, rfl⟩

theorem same_kvfsWrite :
    Twins s s.state (kvfsWrite plenty fp buf) (Vfs.kvfsWrite fp buf) Same := by
  unfold kvfsWrite Vfs.kvfsWrite
  refine Twins.gets rfl (Twins.gets rfl (Twins.lift.same_bind fun {_ s} => ?_))
  apply Twins.ite Iff.rfl
  · exact fun _ => .pure ⟨rfl, rfl⟩
  intro _
  refine Twins.gets rfl (Twins.gets rfl ?_)
  apply Twins.ite Iff.rfl
  · intro _
    refine granted_kvfsGrow.bind ?_
    rintro ⟨null, start, last⟩ s _ _ ⟨hr, rfl⟩
    obtain ⟨rfl, rfl⟩ := Prod.mk.inj hr
    exact same_kvfsStore
  · exact fun _ => same_kvfsStore

theorem same_kmtCreate : (run (kmtCreate plenty t) s).map (fun r => r.2.state) =
    some (Vfs.kmtCreate s.state t) := by
  have hok : plenty s.asks = true := rfl
  rw [kmtCreate, run_bind, run_gets, Option.bind_some, Vfs.kmtCreate]
  dsimp only
  split
  · rfl
  · next hlt =>
    rw [run_bind, run_unchecked, if_pos hok, run_modify]
    exact congrArg some (if_neg hlt)

end Plenty

end NSOS.Vfs.Scarce
