import NSOS.Kmt.Exclusion
import NSOS.Vfs.Calls

/-! # The semaphore of the file system

Every call of the virtual file system is bracketed by `vfs_sem`: the lookups
and the drivers in between never touch a semaphore, and every way out of a
call gives it back once.
-/

namespace NSOS.Vfs

open Basis Prog Kmt

section Quiet

variable {t fp ip dp fs n count : ℕ} {nd : Nameidata} {name : List Char} {buf : List UInt8}
  {offset whence : ℤ} {p q : Ptr} {dir file : Bool} {mode : UInt16} {d : Driver}

instance quiet_llseek : Quiet (llseek fp offset whence) := by unfold llseek; infer_instance

instance quiet_freeSlot {i : ℕ} : Quiet (freeSlot n i) := by
  induction n generalizing i with
  | zero => exact quiet_pure i
  | succ n ih => unfold freeSlot; infer_instance

instance quiet_kvfsCreate : Quiet (kvfsCreate ip dp) := by unfold kvfsCreate; infer_instance
instance quiet_kvfsMkdir : Quiet (kvfsMkdir ip dp) := by unfold kvfsMkdir; infer_instance

instance quiet_kvfsReadLoop : Quiet (kvfsReadLoop fp n p buf) := by
  induction n generalizing p buf with
  | zero => exact quiet_pure buf
  | succ n ih => unfold kvfsReadLoop; infer_instance

instance quiet_kvfsRead : Quiet (kvfsRead fp count) := by unfold kvfsRead; infer_instance
instance quiet_seekAppend {m : UInt32} : Quiet (seekAppend fp m) := by
  unfold seekAppend; infer_instance

instance quiet_raiseSize {i : ℤ} : Quiet (raiseSize ip i) := by unfold raiseSize; infer_instance
instance quiet_kvfsGrow : Quiet (kvfsGrow fp count) := by unfold kvfsGrow; infer_instance
instance quiet_kvfsStore : Quiet (kvfsStore fp buf p q) := by unfold kvfsStore; infer_instance
instance quiet_kvfsWrite : Quiet (kvfsWrite fp buf) := by unfold kvfsWrite; infer_instance

instance quiet_mountRoot {acl : UInt16} {ino : ℤ} : Quiet (mountRoot d acl ino fs name) := by
  unfold mountRoot; infer_instance

instance quiet_linkEntry {ino : ℤ} {acl : Option UInt16} : Quiet (linkEntry ip dp ino acl) := by
  unfold linkEntry; infer_instance

instance quiet_atRoot : Quiet (atRoot dp) := quiet_gets _

instance quiet_procLookup : Quiet (procLookup ip dp) := by
  unfold procLookup
  refine quiet_atRoot.bind fun b => .ite ((quiet_gets _).bind fun e => ?_) (quiet_pure _)
  rcases e with - | ⟨ino, acl⟩ <;> infer_instance

instance quiet_devfsLookup : Quiet (devfsLookup ip dp) := by
  unfold devfsLookup
  refine quiet_atRoot.bind fun b => .ite ((quiet_gets _).bind fun x => ?_) (quiet_pure _)
  rcases devEntry x with - | ⟨ino, acl⟩ <;> infer_instance

instance quiet_procReadLoop {len i : ℤ} : Quiet (procReadLoop len n i buf) := by
  induction n generalizing i buf with
  | zero => exact quiet_pure buf
  | succ n ih => unfold procReadLoop; infer_instance

instance quiet_procRead : Quiet (procRead fp count) := by unfold procRead; infer_instance
instance quiet_dentryIno : Quiet (dentryIno fp) := by unfold dentryIno; infer_instance
instance quiet_devfsRead : Quiet (devfsRead fp count) := by unfold devfsRead; infer_instance
instance quiet_devfsWrite : Quiet (devfsWrite fp buf) := by unfold devfsWrite; infer_instance
instance quiet_kvfsMount : Quiet (kvfsMount fs name) := by unfold kvfsMount; infer_instance
instance quiet_procMount : Quiet (procMount fs name) := by unfold procMount; infer_instance
instance quiet_devfsMount : Quiet (devfsMount fs name) := by unfold devfsMount; infer_instance

instance quiet_kvfsAllocInode : Quiet kvfsAllocInode := by unfold kvfsAllocInode; infer_instance
instance quiet_procAllocInode : Quiet procAllocInode := by unfold procAllocInode; infer_instance
instance quiet_devfsAllocInode : Quiet devfsAllocInode := by
  unfold devfsAllocInode; infer_instance

/-! The operations of any driver. -/

instance quiet_mount : Quiet (d.mount fs name) := by
  cases d <;> dsimp only [Driver.mount] <;> infer_instance

instance quiet_driver_allocInode : Quiet d.allocInode := by
  cases d <;> dsimp only [Driver.allocInode] <;> infer_instance

instance quiet_destroyInode : Quiet (d.destroyInode ip) := quiet_free

instance quiet_lookup : Quiet (d.lookup ip dp) := by
  cases d
  · exact quiet_pure _
  · exact quiet_procLookup
  · exact quiet_devfsLookup

instance quiet_create : Quiet (d.create ip dp) := by
  cases d
  · exact quiet_kvfsCreate
  · exact quiet_pure _
  · exact quiet_pure _

instance quiet_mkdir : Quiet (d.mkdir ip dp) := by
  cases d
  · exact quiet_kvfsMkdir
  · exact quiet_pure _
  · exact quiet_pure _

instance quiet_driver_llseek : Quiet (d.llseek fp offset whence) := by
  cases d <;> exact quiet_llseek

instance quiet_read : Quiet (d.read fp count) := by
  cases d <;> dsimp only [Driver.read] <;> infer_instance

instance quiet_write : Quiet (d.write fp buf) := by
  cases d
  · exact quiet_kvfsWrite
  · exact quiet_pure _
  · exact quiet_devfsWrite

/-! The walk along a path. -/

instance quiet_followDotdot : Quiet (followDotdot nd) := by unfold followDotdot; infer_instance
instance quiet_findEntry : Quiet (findEntry nd name) := by unfold findEntry; infer_instance

instance quiet_findMount {hit : State → ℕ → Bool} : Quiet (findMount hit) := by
  unfold findMount; infer_instance

instance quiet_enter : Quiet (enter nd dp) := by
  unfold enter
  refine (quiet_gets _).bind fun e => ?_
  cases e.dOp.dRevalidate <;> infer_instance

instance quiet_fsOf : Quiet (fsOf nd) := by unfold fsOf; infer_instance

instance quiet_newDentry {i : Option ℕ} : Quiet (newDentry nd name i d) := by
  unfold newDentry; infer_instance

instance quiet_linkDentry : Quiet (linkDentry nd dp) := by unfold linkDentry; infer_instance

instance quiet_slowLookup : Quiet (slowLookup nd name) := by
  unfold slowLookup
  refine (quiet_gets _).bind fun o => (quiet_demand o).bind fun ip => ?_
  refine (quiet_gets _).bind fun iop => quiet_fsOf.bind fun fs => ?_
  infer_instance

instance quiet_doLookup : Quiet (doLookup nd name) := by
  unfold doLookup
  refine quiet_findEntry.bind fun o => ?_
  cases o <;> infer_instance

instance quiet_startOf : Quiet (startOf t name) := by unfold startOf; infer_instance
instance quiet_isDir : Quiet (isDir nd) := quiet_gets _

instance quiet_pathLoop : Quiet (pathLoop n name dir nd) := by
  induction n generalizing name dir nd with
  | zero => exact quiet_stop
  | succ n ih =>
    unfold pathLoop
    refine .ite inferInstance (.ite inferInstance (quiet_doLookup.bind fun r => ?_))
    obtain ⟨failed, nd⟩ := r
    infer_instance

instance quiet_pathLookup : Quiet (pathLookup t name dir) := by unfold pathLookup; infer_instance

instance quiet_makeEntry : Quiet (makeEntry t nd name file mode) := by
  unfold makeEntry
  refine quiet_fsOf.bind fun fs => quiet_driver_allocInode.bind fun newinode => ?_
  refine (quiet_gets _).bind fun uid => (quiet_gets _).bind fun gid => ?_
  refine quiet_setInode.bind fun _ => quiet_newDentry.bind fun newdentry => ?_
  infer_instance

instance quiet_lookupOrMake : Quiet (lookupOrMake t nd name file mode) := by
  unfold lookupOrMake
  refine quiet_doLookup.bind fun r => ?_
  obtain ⟨failed, nd⟩ := r
  infer_instance

instance quiet_makeLoop : Quiet (makeLoop t dir mode n name nd) := by
  induction n generalizing name nd with
  | zero => exact quiet_stop
  | succ n ih =>
    unfold makeLoop
    refine .ite inferInstance (.ite inferInstance (.ite inferInstance ?_))
    refine quiet_lookupOrMake.bind fun o => ?_
    cases o <;> infer_instance

instance quiet_makePath : Quiet (makePath t name dir mode) := by unfold makePath; infer_instance

/-! The parts of the calls. -/

instance quiet_unprivileged : Quiet (unprivileged t) := quiet_gets _

instance quiet_addMount {r m f : ℕ} {o : Option ℕ} : Quiet (addMount r m f o) := by
  unfold addMount; infer_instance

instance quiet_dropMount {m : ℕ} : Quiet (dropMount m) := by unfold dropMount; infer_instance

instance quiet_freeFd {i : ℕ} : Quiet (freeFd t n i) := by
  induction n generalizing i with
  | zero => exact quiet_pure i
  | succ n ih => unfold freeFd; infer_instance

instance quiet_setFd {i : ℕ} {fd : Fd} : Quiet (setFd t i fd) := quiet_modify _

instance quiet_openFile {fd : ℤ} : Quiet (openFile t fd) := by
  unfold openFile
  refine .ite ((quiet_gets _).bind fun e => ?_) (quiet_pure _)
  cases e <;> infer_instance

instance quiet_fileOf {fd : ℤ} : Quiet (fileOf t fd) := by unfold fileOf; infer_instance

instance quiet_printAll : Quiet (printAll buf) := by
  induction buf with
  | nil => exact quiet_pure ()
  | cons c buf ih => unfold printAll; infer_instance

end Quiet

section Calls

variable {t fs nbyte : ℕ} {path : List Char} {mode flags : UInt32} {acl : UInt16}
  {buf : List UInt8} {fd offset whence : ℤ} {α : Type}

theorem bracketed_leave (a : α) :
    Bracketed .vfsSem .inside (do semSignal .vfsSem; return a : Code α) := bracketed_signal a

theorem bracketed_vfsAccess : Bracketed .vfsSem .before (vfsAccess t path mode) := by
  refine bracketed_wait (bracketed_bind fun r => ?_)
  rcases r.1 with - | retden
  · exact bracketed_leave _
  · refine bracketed_ite (bracketed_leave _) ?_
    refine bracketed_bind fun _ => bracketed_bind fun ip => bracketed_bind fun inode => ?_
    refine bracketed_bind fun cur => bracketed_ite (bracketed_leave _) ?_
    exact bracketed_ite (bracketed_leave _) (bracketed_leave _)

theorem bracketed_vfsMount : Bracketed .vfsSem .before (vfsMount t path fs) := by
  refine bracketed_wait (bracketed_bind fun b => bracketed_ite (bracketed_leave _) ?_)
  refine bracketed_bind fun r => ?_
  obtain ⟨- | retden, nd⟩ := r
  · exact bracketed_leave _
  refine bracketed_bind fun dir => bracketed_ite (bracketed_leave _) ?_
  refine bracketed_bind fun type => ?_
  rcases type.mount with - | driver
  · exact bracketed_leave _
  refine bracketed_bind fun dev => bracketed_bind fun root => ?_
  rcases root with - | root
  · exact bracketed_leave _
  · exact bracketed_bind fun _ => bracketed_leave _

theorem bracketed_vfsUnmount : Bracketed .vfsSem .before (vfsUnmount t path) := by
  refine bracketed_wait (bracketed_bind fun b => bracketed_ite (bracketed_leave _) ?_)
  refine bracketed_bind fun r => ?_
  rcases r.1 with - | retden
  · exact bracketed_leave _
  refine bracketed_bind fun mntit => ?_
  rcases mntit with - | mntit
  · exact bracketed_leave _
  refine bracketed_bind fun mount => bracketed_bind fun _ => bracketed_bind fun _ => ?_
  exact bracketed_bind fun _ => bracketed_bind fun _ => bracketed_leave _

theorem bracketed_vfsOpen : Bracketed .vfsSem .before (vfsOpen t path flags) := by
  refine bracketed_wait (bracketed_bind fun r => ?_)
  rcases r.1 with - | retden
  · exact bracketed_leave _
  refine bracketed_bind fun newfile => bracketed_bind fun _ => bracketed_bind fun ip => ?_
  refine bracketed_bind fun fop => bracketed_bind fun _ => bracketed_bind fun i => ?_
  exact bracketed_ite (bracketed_leave _) (bracketed_bind fun _ => bracketed_leave _)

theorem bracketed_vfsRead : Bracketed .vfsSem .before (vfsRead t fd nbyte) := by
  refine bracketed_wait (bracketed_ite (bracketed_leave _) (bracketed_bind fun r => ?_))
  obtain ⟨fp, fop⟩ := r
  exact bracketed_bind fun r => bracketed_leave _

theorem bracketed_vfsWrite : Bracketed .vfsSem .before (vfsWrite t fd buf) := by
  refine bracketed_wait (bracketed_ite (bracketed_bind fun _ => bracketed_leave _) ?_)
  refine bracketed_ite (bracketed_bind fun r => ?_) (bracketed_leave _)
  obtain ⟨fp, fop⟩ := r
  exact bracketed_bind fun r => bracketed_leave _

theorem bracketed_vfsLseek : Bracketed .vfsSem .before (vfsLseek t fd offset whence) := by
  refine bracketed_wait (bracketed_ite (bracketed_leave _) (bracketed_bind fun r => ?_))
  obtain ⟨fp, fop⟩ := r
  exact bracketed_bind fun r => bracketed_leave _

theorem bracketed_vfsMkdir : Bracketed .vfsSem .before (vfsMkdir t path acl) := by
  refine bracketed_wait (bracketed_bind fun r => ?_)
  rcases r.1 with - | retden
  · refine bracketed_bind fun r => ?_
    rcases r.1 with - | retden
    · exact bracketed_leave _
    · exact bracketed_leave _
  · exact bracketed_leave _

/-- Every call is bracketed by the semaphore. -/
theorem bracketed_body (t : ℕ) (c : Call) : Bracketed .vfsSem .before (c.body t) := by
  cases c with
  | access path mode => exact bracketed_vfsAccess.map _
  | mount path fs => exact bracketed_vfsMount.map _
  | unmount path => exact bracketed_vfsUnmount.map _
  | «open» path flags => exact bracketed_vfsOpen.map _
  | read fd nbyte => exact bracketed_vfsRead
  | write fd buf => exact bracketed_vfsWrite.map _
  | lseek fd offset whence => exact bracketed_vfsLseek.map _
  | mkdir path mode => exact bracketed_vfsMkdir.map _

end Calls

section Machine

variable {n : ℕ}

/-- The threads of the kernel, of which each makes calls of the file system. -/
abbrev Machine (n : ℕ) : Type := Kernel Sem State Call Reply n

def body (t : Fin n) (c : Call) : Code Reply := c.body t

/-- The kernel with the semaphore as `vfs_init` leaves it. -/
def boot (st : State) (t : Fin n) : Machine n := .init st (fun _ => 1) t

abbrev Tick : Machine n → Act Call n → Machine n → Prop := Step body

abbrev Any (_ : Machine n) (_ : Act Call n) : Prop := True

/-- What the semaphore guarantees. A thread holds it from its completed wait up to its completed
signal. -/
structure Guarded (k : Machine n) : Prop where
  balance : k.count .vfsSem + {t | k.Holds t .vfsSem}.ncard = 1
  alone : ∀ t u, k.Holds t .vfsSem → k.Holds u .vfsSem → t = u
  /-- A thread about to access the memory of the file system holds the semaphore. -/
  inside : ∀ t c f p, k.phase t = .run c (.act f p) → k.Holds t .vfsSem
  /-- A thread between two calls has waited and signalled once for each call so far. -/
  settled : ∀ t, k.phase t = .idle → Settled k.events t .vfsSem
  awake : ∃ t, k.sleep t = false

theorem exclusive_serial_boot {st : State} {t : Fin n} {k : Machine n}
    (hr : Run Tick Any (boot st t) k) :
    Exclusive body (fun _ => 1) .vfsSem k ∧ Serial body .vfsSem st k :=
  exclusive_serial (fun _ => ⟨by decide, by decide⟩) rfl (fun t c => bracketed_body t c) hr

/-- The semaphore guards the file system in every state of every run. -/
theorem vfs_guarded (st : State) (t : Fin n) (k : Machine n)
    (hr : Run Tick Any (boot st t) k) : Guarded k := by
  obtain ⟨he, -⟩ := exclusive_serial_boot hr
  refine ⟨count_add_holders he.sem he.follows, fun t u => he.unique rfl, ?_, ?_, he.awake rfl⟩
  · rintro t c f p hp
    exact he.holds_of_act hp
  · intro t ht
    have hf := he.follows t
    simpa only [Kernel.Follows, ht] using hf

/-- A run in which a thread has got the semaphore. -/
theorem vfs_guarded_run : ∃ k : Machine 2, k.count .vfsSem = 0 ∧ Guarded k := by
  have h₀ : Run Tick Any (boot default 0 : Machine 2) _ := .refl
  have h₁ := run_call (c := .read 0 0) h₀ trivial rfl
  have h₂ := run_exec h₁ trivial rfl
  have h₃ := run_exec h₂ trivial rfl
  have h₄ := run_exec h₃ trivial rfl
  have h₅ := run_exec h₄ trivial rfl
  exact ⟨_, rfl, vfs_guarded default 0 _ h₅⟩

end Machine

end NSOS.Vfs
