import NSOS.Vfs.Calls
import NSOS.Vfs.Relink

/-! # What calls leave alone

Reads, writes and file descriptors leave the namespace as it is. Lookups only
add dentries to it. The invariant of the file system speaks about the trees,
the inodes of the dentries and the directories where threads start to walk.
-/

namespace NSOS.Vfs

open Basis Prog

section Rest

variable {st st' st'' : State} {t ip : ℕ}

/-- The fields `root`, `pwd`, `rootmnt` and `pwdmnt` of a thread. -/
def State.places (st : State) (t : ℕ) : ℕ × ℕ × ℕ × ℕ :=
  ((st.thread t).root, (st.thread t).pwd, (st.thread t).rootmnt, (st.thread t).pwdmnt)

/-- Behind the namespace, inodes that are there keep their operations, threads their places, and
no file system is freed. -/
structure Rest (st st' : State) : Prop where
  inodes_le : st.inodes.size ≤ st'.inodes.size
  iOp : ∀ {i}, i < st.inodes.size → (st'.inode i).iOp = (st.inode i).iOp
  places : st'.places = st.places
  threadPool : st'.threadPool = st.threadPool
  freed : ∀ f, .fsType f ∈ st'.freed ↔ .fsType f ∈ st.freed

theorem Rest.refl : Rest st st := ⟨le_rfl, fun _ => rfl, rfl, rfl, fun _ => Iff.rfl⟩

theorem Rest.trans (h : Rest st st') (h' : Rest st' st'') : Rest st st'' where
  inodes_le := h.inodes_le.trans h'.inodes_le
  iOp hi := (h'.iOp (hi.trans_le h.inodes_le)).trans (h.iOp hi)
  places := h'.places.trans h.places
  threadPool := h'.threadPool.trans h.threadPool
  freed f := (h'.freed f).trans (h.freed f)

theorem Rest.namespace (h : Rest st st') (ns : Namespace) :
    Rest st { st' with toNamespace := ns } := ⟨h.inodes_le, h.iOp, h.places, h.threadPool, h.freed⟩

/-- Nothing changes in the namespace either. -/
structure Still (st st' : State) : Prop extends Rest st st' where
  namespace_eq : st'.toNamespace = st.toNamespace

theorem Still.refl : Still st st := ⟨.refl, rfl⟩

theorem Still.trans (h : Still st st') (h' : Still st' st'') : Still st st'' :=
  ⟨h.toRest.trans h'.toRest, h'.namespace_eq.trans h.namespace_eq⟩

end Rest

section Calm

variable {α β : Type} {p : Code α} {f : α → Code β}

class Calm (p : Code α) : Prop where
  still : ∀ {st a st'}, run p st = some (a, st') → Still st st'

instance calm_pure (a : α) : Calm (pure a : Code α) where
  still h := by
    obtain ⟨-, rfl⟩ := Prod.mk.inj (Option.some.inj h)
    exact .refl

instance calm_gets (g : State → α) : Calm (gets g) where
  still h := by
    obtain ⟨-, rfl⟩ := Prod.mk.inj (Option.some.inj h)
    exact .refl

instance calm_stop : Calm (stop : Code α) where
  still h := nomatch h

instance calm_demand (o : Option α) : Calm (demand o) := by
  cases o with
  | none => exact calm_stop
  | some a => exact calm_pure a

instance calm_semWait : Calm (semWait .vfsSem) where
  still h := by
    obtain ⟨-, rfl⟩ := Prod.mk.inj (Option.some.inj h)
    exact .refl

instance calm_semSignal : Calm (semSignal .vfsSem) where
  still h := by
    obtain ⟨-, rfl⟩ := Prod.mk.inj (Option.some.inj h)
    exact .refl

theorem calm_modify {g : State → State} (hg : ∀ st, Still st (g st)) : Calm (modify g) where
  still h := by
    obtain ⟨-, rfl⟩ := Prod.mk.inj (Option.some.inj h)
    exact hg _

instance calm_bind [hp : Calm p] [hf : ∀ a, Calm (f a)] : Calm (p >>= f) where
  still h := by
    obtain ⟨a, st₁, h₁, h₂⟩ := run_bind_some h
    exact (hp.still h₁).trans ((hf a).still h₂)

instance calm_ite {c : Prop} [Decidable c] {p q : Code α} [Calm p] [Calm q] :
    Calm (if c then p else q) := by split <;> infer_instance

theorem Calm.bind (hp : Calm p) (hf : ∀ a, Calm (f a)) : Calm (p >>= f) := calm_bind

theorem Calm.ite {c : Prop} [Decidable c] {p q : Code α} (hp : Calm p) (hq : Calm q) :
    Calm (if c then p else q) := calm_ite

end Calm

section Accesses

variable {ip fp n count t i : ℕ} {p q : Ptr} {c : UInt8} {buf : List UInt8} {d : Driver}
  {offset whence fd : ℤ}

instance calm_setFile {g : File → File} : Calm (setFile fp g) :=
  calm_modify fun _ => ⟨⟨le_rfl, fun _ => rfl, rfl, rfl, fun _ => Iff.rfl⟩, rfl⟩

instance calm_allocFile : Calm allocFile := by
  have : Calm (modify fun st => { st with files := st.files.grow }) :=
    calm_modify fun _ => ⟨⟨le_rfl, fun _ => rfl, rfl, rfl, fun _ => Iff.rfl⟩, rfl⟩
  unfold allocFile
  infer_instance

instance calm_allocBlock : Calm allocBlock := by
  have : Calm (modify fun st => { st with blocks := st.blocks.grow }) :=
    calm_modify fun _ => ⟨⟨le_rfl, fun _ => rfl, rfl, rfl, fun _ => Iff.rfl⟩, rfl⟩
  unfold allocBlock
  infer_instance

theorem calm_setInode {g : Inode → Inode} (hg : ∀ x, (g x).iOp = x.iOp) : Calm (setInode ip g) := by
  refine calm_modify fun st => ⟨⟨le_rfl, fun {i} _ => ?_, rfl, rfl, fun _ => Iff.rfl⟩, rfl⟩
  rw [State.inode, Pool.obj_set]
  split
  · subst i
    exact hg _
  · rfl

theorem calm_free {o : Obj} (ho : ∀ f, o ≠ .fsType f) : Calm (free o) := by
  refine calm_modify fun st => ⟨⟨le_rfl, fun _ => rfl, rfl, rfl, fun f => ?_⟩, rfl⟩
  rw [List.mem_cons]
  exact ⟨fun h => h.resolve_left (ho f).symm, Or.inr⟩

instance calm_load : Calm (load p) := calm_gets _

instance calm_store : Calm (store p c) :=
  calm_modify fun _ => ⟨⟨le_rfl, fun _ => rfl, rfl, rfl, fun _ => Iff.rfl⟩, rfl⟩

instance calm_memset : Calm (memset p c n) := by
  induction n with
  | zero => exact calm_pure ()
  | succ n ih => unfold memset; infer_instance

instance calm_memcpy : Calm (memcpy p q n) := by
  induction n with
  | zero => exact calm_pure ()
  | succ n ih => unfold memcpy; infer_instance

instance calm_memcpyFrom : Calm (memcpyFrom p buf n) := by
  induction n with
  | zero => exact calm_pure ()
  | succ n ih => unfold memcpyFrom; infer_instance

instance calm_llseek : Calm (llseek fp offset whence) := by unfold llseek; infer_instance

instance calm_kvfsReadLoop : Calm (kvfsReadLoop fp n p buf) := by
  induction n generalizing p buf with
  | zero => exact calm_pure buf
  | succ n ih => unfold kvfsReadLoop; infer_instance

instance calm_kvfsRead : Calm (kvfsRead fp count) := by unfold kvfsRead; infer_instance

instance calm_seekAppend {m : UInt32} : Calm (seekAppend fp m) := by
  unfold seekAppend; infer_instance

instance calm_raiseSize {k : ℤ} : Calm (raiseSize ip k) := by
  unfold raiseSize
  refine (calm_gets _).bind fun _ => .ite (calm_setInode fun _ => ?_) (calm_pure ())
  rfl

instance calm_kvfsGrow : Calm (kvfsGrow fp count) := by
  have : ∀ b, Calm (free (.block b)) := fun b => calm_free fun f h => nomatch h
  unfold kvfsGrow
  infer_instance

instance calm_kvfsStore : Calm (kvfsStore fp buf p q) := by
  have : ∀ (k : ℤ) (x : State → KvfsFileNode),
      Calm (modify fun st => { st with kvfsFiles := Function.update st.kvfsFiles k (x st) }) :=
    fun k x => calm_modify fun _ => ⟨⟨le_rfl, fun _ => rfl, rfl, rfl, fun _ => Iff.rfl⟩, rfl⟩
  unfold kvfsStore
  infer_instance

instance calm_kvfsWrite : Calm (kvfsWrite fp buf) := by unfold kvfsWrite; infer_instance

instance calm_procReadLoop {len k : ℤ} : Calm (procReadLoop len n k buf) := by
  induction n generalizing k buf with
  | zero => exact calm_pure buf
  | succ n ih => unfold procReadLoop; infer_instance

instance calm_procRead : Calm (procRead fp count) := by
  have : ∀ x : State → ℤ → UInt8, Calm (modify fun st => { st with filebuf := x st }) :=
    fun x => calm_modify fun _ => ⟨⟨le_rfl, fun _ => rfl, rfl, rfl, fun _ => Iff.rfl⟩, rfl⟩
  unfold procRead
  infer_instance

instance calm_dentryIno : Calm (dentryIno fp) := by unfold dentryIno; infer_instance
instance calm_devfsRead : Calm (devfsRead fp count) := by unfold devfsRead; infer_instance
instance calm_devfsWrite : Calm (devfsWrite fp buf) := by unfold devfsWrite; infer_instance

instance calm_driver_llseek : Calm (d.llseek fp offset whence) := by
  cases d <;> exact calm_llseek

instance calm_read : Calm (d.read fp count) := by
  cases d <;> dsimp only [Driver.read] <;> infer_instance

instance calm_write : Calm (d.write fp buf) := by
  cases d
  · exact calm_kvfsWrite
  · exact calm_pure _
  · exact calm_devfsWrite

instance calm_freeFd : Calm (freeFd t n i) := by
  induction n generalizing i with
  | zero => exact calm_pure i
  | succ n ih => unfold freeFd; infer_instance

/-- File descriptors are not places. -/
instance calm_setFd {x : Fd} : Calm (setFd t i x) := by
  refine calm_modify fun st => ⟨⟨le_rfl, fun _ => rfl, ?_, rfl, fun _ => Iff.rfl⟩, rfl⟩
  funext u
  simp only [State.places, Function.update_apply]
  split
  · subst u
    rfl
  · rfl

instance calm_openFile : Calm (openFile t fd) := by
  unfold openFile
  refine .ite ((calm_gets _).bind fun e => ?_) (calm_pure _)
  cases e <;> infer_instance

instance calm_fileOf : Calm (fileOf t fd) := by unfold fileOf; infer_instance

instance calm_printAll : Calm (printAll buf) := by
  induction buf with
  | nil => exact calm_pure ()
  | cons c buf ih =>
    have : Calm (modify fun st => { st with output := c :: st.output }) :=
      calm_modify fun _ => ⟨⟨le_rfl, fun _ => rfl, rfl, rfl, fun _ => Iff.rfl⟩, rfl⟩
    unfold printAll
    infer_instance

instance calm_vfsRead {nbyte : ℕ} : Calm (vfsRead t fd nbyte) := by unfold vfsRead; infer_instance
instance calm_vfsWrite : Calm (vfsWrite t fd buf) := by unfold vfsWrite; infer_instance
instance calm_vfsLseek : Calm (vfsLseek t fd offset whence) := by unfold vfsLseek; infer_instance

instance calm_vfsClose : Calm (vfsClose t fd) := by
  unfold vfsClose
  refine .ite (calm_pure _) (.ite ((calm_gets _).bind fun e => ?_) calm_stop)
  cases e with
  | file f =>
    have : Calm (free (.file f)) := calm_free fun g h => nomatch h
    infer_instance
  | null => exact calm_pure _
  | std => exact calm_pure _

end Accesses

section Inv

variable {st st' st'' : State} {d e m t : ℕ} {x : Dentry}

/-- A slot of the pool with a thread in it. -/
def State.Running (st : State) (t : ℕ) : Prop :=
  0 < t ∧ t ≤ KERNEL_MAX_THREAD ∧ st.threadPool t = true

instance : Decidable (st.Running t) := inferInstanceAs (Decidable (_ ∧ _ ∧ _))

/-- The invariant of the file system between two calls. -/
structure Inv (st : State) : Prop where
  wf : st.toNamespace.Wf
  inode_lt : ∀ {d i}, d < st.dentries.size → (st.dentry d).dInode = some i → i < st.inodes.size
  /-- Every thread starts its walks at the root. -/
  home : ∀ {t}, st.Running t → st.places t = (st.rootDentry, st.rootDentry, 0, 0)

/-- The namespace has grown, and the invariant has been kept. -/
structure Evolves (st st' : State) : Prop where
  grown : Namespace.Grown st.toNamespace st'.toNamespace
  rest : Rest st st'
  inv : Inv st'

theorem Evolves.refl (h : Inv st) : Evolves st st := ⟨.refl, .refl, h⟩

theorem Evolves.trans (h : Evolves st st') (h' : Evolves st' st'') : Evolves st st'' :=
  ⟨h.grown.trans h'.grown, h.rest.trans h'.rest, h'.inv⟩

theorem Rest.running (h : Rest st st') (t : ℕ) : st'.Running t ↔ st.Running t := by
  rw [State.Running, h.threadPool, State.Running]

theorem Inv.grown (h : Inv st) (hr : Rest st st')
    (hg : Namespace.Grown st.toNamespace st'.toNamespace) (hwf : st'.toNamespace.Wf)
    (hnew : ∀ {d i}, st.dentries.size ≤ d → d < st'.dentries.size →
      (st'.dentry d).dInode = some i → i < st'.inodes.size) : Inv st' where
  wf := hwf
  inode_lt {d i} hd hi := by
    by_cases hold : d < st.dentries.size
    · obtain ⟨c, s, hc⟩ := hg.old hold
      rw [hc] at hi
      exact (h.inode_lt hold hi).trans_le hr.inodes_le
    · exact hnew (by omega) hd hi
  home {t} ht := by
    rw [hr.places, h.home ((hr.running t).mp ht), hg.rootDentry]

theorem Inv.still (h : Inv st) (hs : Still st st') : Evolves st st' := by
  have hg : Namespace.Grown st.toNamespace st'.toNamespace := hs.namespace_eq ▸ .refl
  refine ⟨hg, hs.toRest, h.grown hs.toRest hg (hs.namespace_eq ▸ h.wf) ?_⟩
  intro d i hd hlt
  rw [hs.namespace_eq] at hlt
  omega

end Inv

end NSOS.Vfs
