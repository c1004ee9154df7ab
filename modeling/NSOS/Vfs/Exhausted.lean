import NSOS.Vfs.Questions

/-! # Requests that are refused

The operations that allocate, on every policy of the allocator. An operation is
robust where a refused request makes it fail without a trace. This is so only
where the first thing that the operation asks for is memory for a lookup, and
where it then gives up on its own.
-/

namespace NSOS.Vfs.Scarce

open Basis Prog

section Walks

variable {ok : ℕ → Bool} {st : State} {t c : ℕ} {path : List Char} {dir : Bool} {mode : UInt16}
  {q : Question} {r : Option ℕ × Nameidata} {s : Asked State}

def Question.Idle (ok : ℕ → Bool) (c t : ℕ) (st : State) (q : Question) (file : Bool) : Prop :=
  Misses ok c st q.nd q.name ∧ GivesUp ok (c + lookupAsks ok c) t st q.nd file

theorem asks_makePath (mode : UInt16) (hord : Orderly st) (hD : DirAt st (start st t path))
    (hq : makeQuestion st t path dir = some q) : q.Open st ∧ ∀ ok c,
      AfterMake (run (lookupOrMake ok t q.nd q.name (q.last && !dir) mode) ⟨st, c⟩)
        (run (makePath ok t path dir mode) ⟨st, c⟩) := by
  have hwalk := walks_makePath t dir mode hord hD
  rw [hq] at hwalk
  exact hwalk

theorem still_makePath (mode : UInt16) (hord : Orderly st) (hD : DirAt st (start st t path))
    (hq : makeQuestion st t path dir = none) :
    ∃ x, ∀ ok c, run (makePath ok t path dir mode) ⟨st, c⟩ = some (x, ⟨st, c⟩) := by
  have hwalk := walks_makePath t dir mode hord hD
  rw [hq] at hwalk
  exact hwalk

theorem run_makePath_spared (mode : UInt16) (h : Inv st) (hord : Orderly st)
    (hD : DirAt st (start st t path))
    (hq : makeQuestion st t path dir = some q) (hidle : q.Idle ok c t st (q.last && !dir)) :
    ∃ nd s, run (makePath ok t path dir mode) ⟨st, c⟩ = some ((none, nd), s) ∧
      Spared st s.state := by
  obtain ⟨hopen, hafter⟩ := asks_makePath mode hord hD hq
  obtain ⟨s, hrun, hspared⟩ := run_lookupOrMake_spared mode h hord hopen.place
    hopen.absent hidle.1 hidle.2
  have hnext := hafter ok c
  rw [hrun] at hnext
  obtain ⟨nd, hnext⟩ := hnext
  exact ⟨nd, s, hnext, hspared⟩

theorem makePath_raises (h : Inv st) (hord : Orderly st) (hD : DirAt st (start st t path))
    (hq : makeQuestion st t path dir = some q) (hidle : ¬ q.Idle ok c t st (q.last && !dir))
    (hr : run (makePath ok t path dir mode) ⟨st, c⟩ = some (r, s)) :
    Raised q.nd.dentry st.dentries.size s.state := by
  obtain ⟨hopen, hafter⟩ := asks_makePath mode hord hD hq
  have hnext := hafter ok c
  cases hmake : run (lookupOrMake ok t q.nd q.name (q.last && !dir) mode) ⟨st, c⟩ with
  | none =>
    rw [hmake] at hnext
    cases hr.symm.trans hnext
  | some x =>
    obtain ⟨o, a⟩ := x
    obtain ⟨nd, rfl, hord₁, hat, hraised⟩ := lookupOrMake_raises h hord hopen.place hopen.absent
      hopen.valid hidle hmake
    obtain ⟨hlater, -⟩ := later_lookupOrMake h hord hopen.place hopen.valid hmake
    rw [hmake] at hnext
    exact (hnext hlater.inv hord₁ hat r s hr).raised hraised

theorem later_makePath (h : Inv st) (hord : Orderly st) (hD : DirAt st (start st t path))
    (hr : run (makePath ok t path dir mode) ⟨st, c⟩ = some (r, s)) : Later st s.state := by
  rw [makePath, run_liftM_bind run_startOf] at hr
  change run (if relative path = [] then _ else _) _ = _ at hr
  by_cases hrel : relative path = []
  · rw [if_pos hrel] at hr
    obtain ⟨-, rfl⟩ := Prod.mk.inj (Option.some.inj hr)
    exact .refl h hord
  · rw [if_neg hrel] at hr
    exact later_makeLoop h hord le_rfl (atName_dropWhile hrel) hD hr

theorem still_pathLookup (hord : Orderly st) (hD : DirAt st (start st t path))
    (hq : lookupQuestion st t path = none) :
    ∃ x, ∀ ok c, run (pathLookup ok t path false) ⟨st, c⟩ = some (x, ⟨st, c⟩) := by
  have hwalk := walks_pathLookup false hord hD
  rw [hq] at hwalk
  exact hwalk

theorem asks_pathLookup (hord : Orderly st) (hD : DirAt st (start st t path))
    (hq : lookupQuestion st t path = some q) : q.Open st ∧ ∀ ok c,
      AfterLookup (run (slowLookup ok q.nd q.name) ⟨st, c⟩)
        (run (pathLookup ok t path false) ⟨st, c⟩) := by
  have hwalk := walks_pathLookup false hord hD
  rw [hq] at hwalk
  exact hwalk

theorem run_pathLookup_misses (mode : UInt16) (hord : Orderly st)
    (hD : DirAt st (start st t path)) (hq : lookupQuestion st t path = some q)
    (hmiss : Misses ok c st q.nd q.name) : ∃ nd st₁,
      run (pathLookup ok t path false) ⟨st, c⟩ =
          some ((none, nd), ⟨st₁, c + lookupAsks ok c⟩) ∧
        Missed t mode st q.nd q.name st₁ := by
  obtain ⟨hopen, hafter⟩ := asks_pathLookup hord hD hq
  obtain ⟨st₁, hslow, hm⟩ := run_slowLookup_misses t mode hopen.place hmiss
  have hnext := hafter ok c
  rw [hslow] at hnext
  exact ⟨q.nd, st₁, hnext, hm⟩

theorem pathLookup_finds (mode : UInt16) (hord : Orderly st) (hD : DirAt st (start st t path))
    (hq : lookupQuestion st t path = some q) (hmiss : ¬ Misses ok c st q.nd q.name)
    (hr : run (pathLookup ok t path false) ⟨st, c⟩ = some (r, s)) :
    Enters t mode st q.nd q.name .cached s.state ∧
      ∀ d, r.1 = some d → (s.state.dentry d).dIsdir = false := by
  obtain ⟨hopen, hafter⟩ := asks_pathLookup hord hD hq
  have hnext := hafter ok c
  cases hslow : run (slowLookup ok q.nd q.name) ⟨st, c⟩ with
  | none =>
    rw [hslow] at hnext
    cases hr.symm.trans hnext
  | some x =>
    obtain ⟨p, a⟩ := x
    obtain ⟨rfl, -, -, he⟩ := slowLookup_finds t mode hopen.place hmiss hslow
    have hfile := he.dIsdir hopen.place.lt (by simp)
    rw [hslow] at hnext
    obtain ⟨o, hrun, hnew⟩ := hnext hfile
    obtain ⟨rfl, rfl⟩ := run_inj hr hrun
    refine ⟨he, fun d hd => ?_⟩
    rw [hnew d hd]
    exact hfile

end Walks

section Requests

inductive Request where
  | kmtCreate (t : ℕ)
  | vfsOpen (t : ℕ) (path : List Char) (flags : UInt32)
  | vfsMkdir (t : ℕ) (path : List Char) (mode : UInt16)
  | vfsMount (t : ℕ) (path : List Char) (fs : ℕ)
  | kvfsWrite (fp : ℕ) (buf : List UInt8)

namespace Request

def prog (ok : ℕ → Bool) : Request → Code ℤ
  | kmtCreate t => Scarce.kmtCreate ok t
  | vfsOpen t path flags => Scarce.vfsOpen ok t path flags
  | vfsMkdir t path mode => Scarce.vfsMkdir ok t path mode
  | vfsMount t path fs => Scarce.vfsMount ok t path fs
  | kvfsWrite fp buf => Scarce.kvfsWrite ok fp buf

/-- The caller is a thread of the pool, and what is written to is a regular file that is open. -/
def Legal (st : State) : Request → Prop
  | kmtCreate t | vfsOpen t _ _ | vfsMkdir t _ _ | vfsMount t _ _ => st.Running t
  | kvfsWrite fp _ => (st.file fp).fOp = some .kvfs ∧ st.IsFile (st.file fp).fInode

/-- The allocator refuses one of the requests of the operation. -/
def Refused (ok : ℕ → Bool) (st : State) (q : Request) : Prop :=
  ∃ z s, run (q.prog plenty) ⟨st, 0⟩ = some (z, s) ∧ ∃ k < s.asks, ok k = false

/-- The operation returns, reports failure and spares the file system. -/
def Robust (ok : ℕ → Bool) (st : State) (q : Request) : Prop :=
  ∃ z s, run (q.prog ok) ⟨st, 0⟩ = some (z, s) ∧ z < 0 ∧ Spared st s.state

end Request

section Operations

variable {ok : ℕ → Bool} {st : State} {t fs fp : ℕ} {path : List Char} {flags : UInt32}
  {mode : UInt16} {buf : List UInt8} {q : Question} {z : ℤ} {s a : Asked State}

theorem Request.not_robust_of_heedless {q : Request} (h : Heedless st q.prog)
    (hr : q.Refused ok st) : ¬ q.Robust ok st := by
  obtain ⟨z', s', hplenty, k, hk, hok⟩ := hr
  rintro ⟨z, s, hrun, -⟩
  cases hrun.symm.trans (h.halts hplenty hk hok)

/-- `kmt_create` writes the fence of a stack that it has not got. -/
theorem heedless_kmtCreate (st : State) (t : ℕ) :
    Heedless st (Request.kmtCreate t).prog := by
  have hrun : ∀ ok c, run (Scarce.kmtCreate ok t) ⟨st, c⟩ =
      run (if KERNEL_MAX_THREAD < emptySlot st KERNEL_MAX_THREAD.toNat 1 then return -1
        else do
          unchecked ok (modify fun st => Vfs.kmtCreate st t)
          return 0) ⟨st, c⟩ := fun _ _ => rfl
  by_cases hfull : KERNEL_MAX_THREAD < emptySlot st KERNEL_MAX_THREAD.toNat 1
  · refine (Heedless.pure st (-1)).congr fun ok c => ?_
    rw [Request.prog, hrun, if_pos hfull]
  · have hrest : Heedless st fun ok => (do
        unchecked ok (modify fun st => Vfs.kmtCreate st t)
        return 0 : Code ℤ) :=
      Costs.heedless (fun _ => .unchecked fun _ => (Plain.pure 0).costs) st
    refine hrest.congr fun ok c => ?_
    rw [Request.prog, hrun, if_neg hfull]

section Write

variable {x y w : State} {null : Bool} {n : ℕ} {p : Vfs.Code Unit} {u : Unit} {start last : Ptr}

def Steady (x y : State) : Prop := y.inodes = x.inodes ∧ y.files = x.files

theorem Steady.trans (h : Steady x y) (h' : Steady y w) : Steady x w :=
  ⟨h'.1.trans h.1, h'.2.trans h.2⟩

theorem Steady.run_touch (hp : ∀ st, ∃ B, run p st = some ((), { st with blocks := B }))
    (hr : run (touch null n p) s = some (u, a)) : Steady s.state a.state := by
  unfold touch at hr
  split at hr
  · cases hr
  · obtain ⟨B, hrun⟩ := hp s.state
    rw [run_liftM, hrun] at hr
    obtain ⟨-, rfl⟩ := Prod.mk.inj (Option.some.inj hr)
    exact ⟨rfl, rfl⟩

theorem Steady.run_kvfsGrow {r : Bool × Ptr × Ptr} (hr : run (kvfsGrow ok fp n) s = some (r, a)) :
    Steady s.state a.state := by
  unfold kvfsGrow at hr
  rw [run_bind, run_gets, Option.bind_some] at hr
  obtain ⟨⟨b, p⟩, s₁, halloc, hr⟩ := run_bind_some hr
  have h₁ : Steady s.state s₁.state := by
    rw [allocBlock, run_bind, run_granted, Option.bind_some] at halloc
    dsimp only at halloc
    split at halloc
    · obtain ⟨-, rfl⟩ := Prod.mk.inj (Option.some.inj halloc)
      exact ⟨rfl, rfl⟩
    · obtain ⟨-, rfl⟩ := Prod.mk.inj (Option.some.inj halloc)
      exact ⟨rfl, rfl⟩
  obtain ⟨u, s₂, hset, hr⟩ := run_bind_some hr
  have h₂ := h₁.trans (.run_touch (fun st => ⟨_, run_memset⟩) hset)
  rw [run_bind, run_gets, Option.bind_some] at hr
  dsimp only at hr
  split at hr
  · rw [run_bind, run_gets, Option.bind_some] at hr
    obtain ⟨u, s₃, hcopy, hr⟩ := run_bind_some hr
    have h₃ : Steady s₂.state s₃.state :=
      .run_touch (fun st => (run_memcpy_blocks st _ _ _).imp fun B h => h.2.2) hcopy
    obtain ⟨-, rfl⟩ := Prod.mk.inj (Option.some.inj hr)
    exact h₂.trans h₃
  · obtain ⟨-, rfl⟩ := Prod.mk.inj (Option.some.inj hr)
    exact h₂

theorem kvfsStore_raises {pos : ℤ} {ip : ℕ} (hip : (s.state.file fp).fInode = ip)
    (hpos : (s.state.file fp).fPos = pos)
    (hgrow : toU32 (s.state.inode ip).iSize < toU32 (pos + buf.length))
    (hr : run (kvfsStore null fp buf start last) s = some (z, a)) :
    (a.state.inode ip).iSize = toInt (pos + buf.length) := by
  unfold kvfsStore at hr
  rw [run_bind, run_gets, Option.bind_some] at hr
  dsimp only at hr
  rw [hpos] at hr
  obtain ⟨u, s₁, hcopy, hr⟩ := run_bind_some hr
  obtain ⟨hinodes, hfiles⟩ : Steady s.state s₁.state :=
    .run_touch (fun st => ⟨_, run_memcpyFrom⟩) hcopy
  have hip₁ : (s₁.state.file fp).fInode = ip := by rw [State.file, hfiles]; exact hip
  have hraise : run (raiseSize ip (pos + buf.length)) s₁.state = some ((), { s₁.state with
      inodes := s₁.state.inodes.set ip fun i =>
        { i with iSize := toInt (pos + buf.length) } }) := by
    rw [State.inode, ← hinodes] at hgrow
    rw [raiseSize, run_bind, run_gets, Option.bind_some]
    exact congrArg (run · s₁.state) (if_pos hgrow)
  rw [run_bind, run_gets, Option.bind_some] at hr
  dsimp only at hr
  rw [hip₁, run_liftM_bind hraise] at hr
  obtain ⟨-, rfl⟩ := Prod.mk.inj (Option.some.inj hr)
  simp [State.inode]

theorem run_kvfsWrite_cases (ok : ℕ → Bool) (st : State) (c fp : ℕ) (buf : List UInt8) :
    run (kvfsWrite ok fp buf) ⟨st, c⟩ = run (
      if (st.file fp).fMode &&& O_WRONLY = 0 then return 0
      else if Grows st fp buf then do
        let (null, start, last) ← kvfsGrow ok fp buf.length
        kvfsStore null fp buf start last
      else kvfsStore false fp buf (st.node (st.file fp).fInode).start
        (st.node (st.file fp).fInode).endPtr) ⟨st.seek fp (st.writePos fp), c⟩ := by
  rw [kvfsWrite, run_bind, run_gets, Option.bind_some, run_bind, run_gets, Option.bind_some,
    run_liftM_bind (run_seekAppend st fp)]
  dsimp only
  split
  · rfl
  · rw [run_bind, run_gets, Option.bind_some, run_bind, run_gets, Option.bind_some]
    have hpos : ((st.seek fp (st.writePos fp)).file fp).fPos = st.writePos fp := by
      simp [State.seek, State.file]
    have hip : ((st.seek fp (st.writePos fp)).file fp).fInode = (st.file fp).fInode := by
      simp [State.seek, State.file]
    dsimp only
    rw [hpos, hip]
    rfl

theorem plain_kvfsStore :
    Plain (kvfsStore false fp buf start last) (Vfs.kvfsStore fp buf start last) := by
  unfold kvfsStore Vfs.kvfsStore touch
  refine .bind (.gets fun _ => rfl) fun pos => .bind .liftM fun _ => .bind (.gets fun _ => rfl) ?_
  refine fun ip => .bind .liftM fun _ => .bind (.gets fun _ => rfl) fun ino => .bind ?_ fun _ => ?_
  · exact fun _ => rfl
  · exact .bind .liftM fun _ => .pure _

theorem heedless_kvfsWrite
    (h : ¬ ((st.file fp).fMode &&& O_WRONLY ≠ 0 ∧ Grows st fp buf)) :
    Heedless st (Request.kvfsWrite fp buf).prog := by
  by_cases hw : (st.file fp).fMode &&& O_WRONLY = 0
  · refine (Heedless.pure (st.seek fp (st.writePos fp)) 0).congr fun ok c => ?_
    rw [Request.prog, run_kvfsWrite_cases, if_pos hw]
  · have hcosts : ∀ ok, Costs ok 0 (kvfsStore false fp buf (st.node (st.file fp).fInode).start
        (st.node (st.file fp).fInode).endPtr) _ := fun ok => plain_kvfsStore.costs
    refine (Costs.heedless hcosts (st.seek fp (st.writePos fp))).congr fun ok c => ?_
    rw [Request.prog, run_kvfsWrite_cases, if_neg hw, if_neg fun hgrow => h ⟨hw, hgrow⟩]

/-- A write that needs a new block raises the size of its file, or it halts the machine. -/
theorem not_robust_kvfsWrite (hq : (Request.kvfsWrite fp buf).Legal st)
    (h : (Request.kvfsWrite fp buf).Refused ok st) :
    ¬ (Request.kvfsWrite fp buf).Robust ok st := by
  by_cases hgrows : (st.file fp).fMode &&& O_WRONLY ≠ 0 ∧ Grows st fp buf
  case neg => exact Request.not_robust_of_heedless (heedless_kvfsWrite hgrows) h
  obtain ⟨hw, hgrow⟩ := hgrows
  rintro ⟨z, s, hrun, -, hspared⟩
  change run (kvfsWrite ok fp buf) ⟨st, 0⟩ = _ at hrun
  rw [run_kvfsWrite_cases, if_neg hw, if_pos hgrow] at hrun
  obtain ⟨⟨null, start, last⟩, s₁, hgrown, hstore⟩ := run_bind_some hrun
  obtain ⟨hinodes, hfiles⟩ := Steady.run_kvfsGrow hgrown
  have hip : (s₁.state.file fp).fInode = (st.file fp).fInode := by
    rw [State.file, hfiles]
    simp [State.seek, State.file]
  have hpos : (s₁.state.file fp).fPos = st.writePos fp := by
    rw [State.file, hfiles]
    simp [State.seek]
  have hlt : toU32 (s₁.state.inode (st.file fp).fInode).iSize <
      toU32 (st.writePos fp + buf.length) := by
    rw [State.inode, hinodes]
    exact hgrow
  have hraised := kvfsStore_raises hip hpos hlt hstore
  obtain ⟨-, hsize, -⟩ := hspared.file hq.2
  have hold : toInt (st.writePos fp + buf.length) = (st.inode (st.file fp).fInode).iSize :=
    hraised.symm.trans hsize
  rw [Grows, ← hold, toU32_toInt] at hgrow
  exact lt_irrefl _ hgrow

end Write

section Open

/-- What `vfs_open` does behind `make_path` when memory is plenty. -/
def openPlainly (t retden : ℕ) (flags : UInt32) : Vfs.Code ℤ := do
  let newfile ← allocFile
  let ip ← demand (← gets fun st => (st.dentry retden).dInode)
  let fop ← gets fun st => (st.inode ip).iFop
  setFile newfile fun _ => ⟨retden, ip, 0, flags, fop⟩
  let i ← freeFd t MAX_FILE_PER_THREAD 0
  if i = MAX_FILE_PER_THREAD then
    semSignal .vfsSem
    return -1
  else
    setFd t i (.file newfile)
    semSignal .vfsSem
    return i

instance {t d : ℕ} {flags : UInt32} : Calm (openPlainly t d flags) := by
  unfold openPlainly
  infer_instance

theorem costs_openDentry (ok : ℕ → Bool) (t d : ℕ) (flags : UInt32) :
    Costs ok 1 (openDentry ok t d flags) (openPlainly t d flags) := by
  unfold openDentry openPlainly
  refine .unchecked fun newfile => Plain.costs (.bind (.gets fun _ => rfl) fun o => ?_)
  refine .bind (.demand o) fun ip => .bind (.gets fun _ => rfl) fun fop => ?_
  refine .bind .liftM fun _ => .bind .liftM fun i => .ite ?_ ?_
  · exact .bind .semSignal fun _ => .pure _
  · exact .bind .liftM fun _ => .bind .semSignal fun _ => .pure _

/-- `vfs_open` is over when `make_path` fails. -/
def openEnd (ok : ℕ → Bool) (t : ℕ) (flags : UInt32) : Option ℕ → Code ℤ
  | none => do
    semSignal .vfsSem
    return -1
  | some d => openDentry ok t d flags

theorem run_vfsOpen (ok : ℕ → Bool) (s : Asked State) (t : ℕ) (path : List Char)
    (flags : UInt32) : run (vfsOpen ok t path flags) s =
      (run (makePath ok t path false ACL_DEFAULT) s).bind fun r =>
        run (openEnd ok t flags r.1.1) r.2 := by
  rw [vfsOpen, run_bind, run_semWait, Option.bind_some, run_bind]
  refine congrArg _ (funext fun r => ?_)
  obtain ⟨⟨o, nd⟩, s⟩ := r
  cases o with
  | none => rfl
  | some d => rfl

theorem still_openEnd {o : Option ℕ} (hr : run (openEnd ok t flags o) s = some (z, a)) :
    Still s.state a.state := by
  cases o with
  | none =>
    obtain ⟨-, rfl⟩ := Prod.mk.inj (Option.some.inj hr)
    exact .refl
  | some e =>
    rw [openEnd, costs_openDentry] at hr
    obtain ⟨-, hr⟩ := Option.ite_none_right_eq_some.mp hr
    obtain ⟨⟨z', x⟩, hopen, heq⟩ := Option.map_eq_some_iff.mp hr
    obtain ⟨rfl, rfl⟩ := Prod.mk.inj heq
    exact Calm.still hopen

theorem heedless_vfsOpen (hord : Orderly st) (hD : DirAt st (start st t path))
    (hask : makeQuestion st t path false = none) :
    Heedless st (Request.vfsOpen t path flags).prog := by
  obtain ⟨⟨o, nd⟩, hmake⟩ := still_makePath ACL_DEFAULT hord hD hask
  have hrest : Heedless st fun ok => openEnd ok t flags o := by
    cases o with
    | none => exact Costs.heedless (fun ok => Plain.costs (.bind .semSignal fun _ => .pure _)) st
    | some d => exact Costs.heedless (fun ok => costs_openDentry ok t d flags) st
  refine hrest.congr fun ok c => ?_
  rw [Request.prog, run_vfsOpen, hmake, Option.bind_some]

/-- `vfs_open` survives a refusal only where `make_path` asks the driver for a name and then gives
up. -/
theorem robust_vfsOpen (h : Inv st) (hord : Orderly st)
    (hq : (Request.vfsOpen t path flags).Legal st)
    (hr : (Request.vfsOpen t path flags).Refused ok st) :
    (Request.vfsOpen t path flags).Robust ok st ↔
      ∃ q, makeQuestion st t path false = some q ∧ q.Idle ok 0 t st q.last := by
  have hD : DirAt st (start st t path) := dirAt_start h hord.tidy hq
  cases hask : makeQuestion st t path false with
  | none =>
    refine iff_of_false (Request.not_robust_of_heedless (heedless_vfsOpen hord hD hask) hr) ?_
    rintro ⟨q, hnone, -⟩
    cases hnone
  | some q =>
    have hlast : (q.last && !false) = q.last := Bool.and_true q.last
    constructor
    · rintro ⟨z, s, hdone, -, hspared⟩
      refine ⟨q, rfl, ?_⟩
      by_contra hidle
      rw [← hlast] at hidle
      rw [Request.prog, run_vfsOpen] at hdone
      obtain ⟨⟨r, s₁⟩, hmake, hopen⟩ := Option.bind_eq_some_iff.mp hdone
      have hraised := makePath_raises h hord hD hask hidle hmake
      exact (hraised.congr (still_openEnd hopen).namespace_eq).not_spared hord.wf hspared
    · rintro ⟨_, hsome, hidle⟩
      obtain rfl := Option.some.inj hsome
      rw [← hlast] at hidle
      obtain ⟨nd, s, hmake, hspared⟩ := run_makePath_spared ACL_DEFAULT h hord hD hask hidle
      refine ⟨-1, s, ?_, by decide, hspared⟩
      rw [Request.prog, run_vfsOpen, hmake]
      rfl

end Open

section Mkdir

theorem makeQuestion_true (st : State) (t : ℕ) (path : List Char) :
    makeQuestion st t path true = lookupQuestion st t path := by
  unfold makeQuestion
  cases lookupQuestion st t path with
  | none => rfl
  | some q => rfl

/-- `vfs_mkdir` goes on when the lookup has failed. -/
def mkdirEnd (ok : ℕ → Bool) (t : ℕ) (path : List Char) (mode : UInt16) : Option ℕ → Code ℤ
  | some _ => do
    semSignal .vfsSem
    return -1
  | none => do
    match (← makePath ok t path true mode).1 with
    | none =>
      semSignal .vfsSem
      return -1
    | some _ =>
      semSignal .vfsSem
      return 0

theorem run_vfsMkdir (ok : ℕ → Bool) (s : Asked State) (t : ℕ) (path : List Char)
    (mode : UInt16) : run (vfsMkdir ok t path mode) s =
      (run (pathLookup ok t path false) s).bind fun r =>
        run (mkdirEnd ok t path mode r.1.1) r.2 := by
  rw [vfsMkdir, run_bind, run_semWait, Option.bind_some, run_bind]
  refine congrArg _ (funext fun r => ?_)
  obtain ⟨⟨o, nd⟩, s⟩ := r
  cases o with
  | none => rfl
  | some d => rfl

theorem run_mkdirEnd (ok : ℕ → Bool) (s : Asked State) :
    run (mkdirEnd ok t path mode none) s = (run (makePath ok t path true mode) s).map fun r =>
      (if r.1.1 = none then -1 else 0, r.2) := by
  rw [mkdirEnd, run_bind]
  cases run (makePath ok t path true mode) s with
  | none => rfl
  | some r =>
    obtain ⟨⟨o, nd⟩, a⟩ := r
    cases o with
    | none => rfl
    | some d => rfl

theorem heedless_vfsMkdir (hord : Orderly st) (hD : DirAt st (start st t path))
    (hask : lookupQuestion st t path = none) :
    Heedless st (Request.vfsMkdir t path mode).prog := by
  obtain ⟨⟨o, nd⟩, hlook⟩ := still_pathLookup hord hD hask
  cases o with
  | some d =>
    refine (Heedless.pure st (-1)).congr fun ok c => ?_
    rw [Request.prog, run_vfsMkdir, hlook]
    rfl
  | none =>
    rw [← makeQuestion_true] at hask
    obtain ⟨x, hmake⟩ := still_makePath mode hord hD hask
    refine (Heedless.pure st (if x.1 = none then -1 else 0)).congr fun ok c => ?_
    rw [Request.prog, run_vfsMkdir, hlook, Option.bind_some, run_mkdirEnd, hmake]
    rfl

theorem not_robust_vfsMkdir (h : Inv st) (hord : Orderly st) (hD : DirAt st (start st t path))
    (hask : lookupQuestion st t path = some q) (hmiss : ¬ Misses ok 0 st q.nd q.name) :
    ¬ (Request.vfsMkdir t path mode).Robust ok st := by
  obtain ⟨hopen, -⟩ := asks_pathLookup hord hD hask
  rintro ⟨z, s, hdone, -, hspared⟩
  rw [Request.prog, run_vfsMkdir] at hdone
  obtain ⟨⟨⟨o, nd⟩, s₁⟩, hlook, hrest⟩ := Option.bind_eq_some_iff.mp hdone
  obtain ⟨he, -⟩ := pathLookup_finds mode hord hD hask hmiss hlook
  have hraised := he.raised hopen.place.lt (by simp)
  have hlater : Later st s₁.state := .enters h hord hopen.place hopen.absent hopen.valid he
  suffices hlast : Raised q.nd.dentry st.dentries.size s.state from
    hlast.not_spared hord.wf hspared
  cases o with
  | some d =>
    obtain ⟨-, rfl⟩ := Prod.mk.inj (Option.some.inj hrest)
    exact hraised
  | none =>
    have hstart : start s₁.state t path = start st t path := start_congr hlater.thread path
    have hD₁ : DirAt s₁.state (start s₁.state t path) := hstart ▸ hlater.place hD
    rw [run_mkdirEnd] at hrest
    obtain ⟨⟨r, s₂⟩, hmake, heq⟩ := Option.map_eq_some_iff.mp hrest
    obtain ⟨-, rfl⟩ := Prod.mk.inj heq
    exact (later_makePath hlater.inv hlater.orderly hD₁ hmake).raised hraised

theorem idle_missed {st₁ : State} {c : ℕ} {file : Bool} (h : Inv st)
    (hm : Missed t mode st q.nd q.name st₁) (hlt : q.nd.dentry < st.dentries.size) :
    q.Idle ok c t st₁ file ↔ q.Idle ok c t st file := by
  rw [Question.Idle, Question.Idle, Misses, Misses, GivesUp, GivesUp, hm.supplies h hlt hlt,
    hm.writable h hlt, hm.madeAt]

theorem robust_vfsMkdir_missed (h : Inv st) (hord : Orderly st) (hD : DirAt st (start st t path))
    (hask : lookupQuestion st t path = some q) (hmiss : Misses ok 0 st q.nd q.name) :
    (Request.vfsMkdir t path mode).Robust ok st ↔ q.Idle ok (lookupAsks ok 0) t st false := by
  obtain ⟨hopen, -⟩ := asks_pathLookup hord hD hask
  obtain ⟨nd, st₁, hlook, hm⟩ := run_pathLookup_misses mode hord hD hask hmiss
  have hlater : Later st st₁ := .missed h hord hopen.place hopen.absent hopen.valid hm
  have hstart : start st₁ t path = start st t path := start_congr hlater.thread path
  have hD₁ : DirAt st₁ (start st₁ t path) := hstart ▸ hlater.place hD
  have hask₁ : makeQuestion st₁ t path true = some q := by
    rw [makeQuestion_true, lookupQuestion, hstart,
      hm.question hord hlater hopen.place.lt hopen.absent hD]
    exact hask
  have hlast : (q.last && !true) = false := Bool.and_false q.last
  have hrun : run (vfsMkdir ok t path mode) ⟨st, 0⟩ =
      (run (makePath ok t path true mode) ⟨st₁, lookupAsks ok 0⟩).map fun r =>
        (if r.1.1 = none then -1 else 0, r.2) := by
    rw [run_vfsMkdir, hlook, Option.bind_some, run_mkdirEnd, Nat.zero_add]
  rw [← idle_missed h hm hopen.place.lt, ← hlast]
  constructor
  · rintro ⟨z, s, hdone, -, hspared⟩
    by_contra hno
    rw [Request.prog, hrun] at hdone
    obtain ⟨⟨r, s₁⟩, hmake, heq⟩ := Option.map_eq_some_iff.mp hdone
    obtain ⟨-, rfl⟩ := Prod.mk.inj heq
    have hraised := makePath_raises hlater.inv hlater.orderly hD₁ hask₁ hno hmake
    exact (hraised.mono hopen.place.lt hm.spared.dentries_le).not_spared hord.wf hspared
  · intro hidle
    obtain ⟨nd', s, hmake, hspared⟩ :=
      run_makePath_spared mode hlater.inv hlater.orderly hD₁ hask₁ hidle
    refine ⟨-1, s, ?_, by decide, hm.spared.trans hspared⟩
    rw [Request.prog, hrun, hmake]
    rfl

/-- `vfs_mkdir` survives a refusal only where the lookup misses, `make_path` asks once more, and
then gives up. -/
theorem robust_vfsMkdir (h : Inv st) (hord : Orderly st)
    (hq : (Request.vfsMkdir t path mode).Legal st)
    (hr : (Request.vfsMkdir t path mode).Refused ok st) :
    (Request.vfsMkdir t path mode).Robust ok st ↔ ∃ q, lookupQuestion st t path = some q ∧
      Misses ok 0 st q.nd q.name ∧ q.Idle ok (lookupAsks ok 0) t st false := by
  have hD : DirAt st (start st t path) := dirAt_start h hord.tidy hq
  cases hask : lookupQuestion st t path with
  | none =>
    refine iff_of_false (Request.not_robust_of_heedless (heedless_vfsMkdir hord hD hask) hr) ?_
    rintro ⟨q, hnone, -⟩
    cases hnone
  | some q =>
    by_cases hmiss : Misses ok 0 st q.nd q.name
    · rw [robust_vfsMkdir_missed h hord hD hask hmiss]
      constructor
      · exact fun hidle => ⟨q, rfl, hmiss, hidle⟩
      · rintro ⟨_, hsome, -, hidle⟩
        rwa [← Option.some.inj hsome] at hidle
    · refine iff_of_false (not_robust_vfsMkdir h hord hD hask hmiss) ?_
      rintro ⟨_, hsome, hyes, -⟩
      exact hmiss (Option.some.inj hsome ▸ hyes)

end Mkdir

section Mount

variable {ops : Driver} {source : List Char} {d : ℕ} {mnt : Option ℕ}

theorem costs_mountRoot {acl : UInt16} {ino : ℤ} :
    Costs ok 3 (mountRoot ok ops acl ino fs source) (Vfs.mountRoot ops acl ino fs source) := by
  unfold mountRoot Vfs.mountRoot
  refine .unchecked fun ip => .unchecked fun dentry => .plain .liftM fun _ => ?_
  exact .plain .liftM fun _ => .unchecked fun _ => (Plain.pure _).costs

theorem costs_mountOf (hdev : ops.hasDevice source = true) :
    Costs ok 3 (mountOf ok ops fs source) (ops.mount fs source) := by
  cases ops with
  | kvfs =>
    have hdev : isRamdisk source = true := hdev
    rw [mountOf, kvfsMount, Driver.mount, Vfs.kvfsMount, if_pos hdev, if_pos hdev]
    refine costs_mountRoot.bind fun _ => Plain.costs (.bind (.gets fun _ => rfl) fun b => ?_)
    exact .ite (.pure _) (.bind (fun _ => rfl) fun _ => .pure _)
  | procfs =>
    have hdev : source = "proc".toList := of_decide_eq_true hdev
    rw [mountOf, procMount, Driver.mount, Vfs.procMount, if_pos hdev, if_pos hdev]
    exact costs_mountRoot.bind fun _ => (Plain.pure _).costs
  | devfs =>
    have hdev : source = "udev".toList := of_decide_eq_true hdev
    rw [mountOf, devfsMount, Driver.mount, Vfs.devfsMount, if_pos hdev, if_pos hdev]
    exact costs_mountRoot.bind fun _ => (Plain.pure _).costs

theorem mountOf_none (ok : ℕ → Bool) (fs : ℕ) (hdev : ops.hasDevice source = false) :
    mountOf ok ops fs source = pure none := by
  cases ops with
  | kvfs =>
    have hdev : isRamdisk source = false := hdev
    rw [mountOf, kvfsMount, hdev]
    rfl
  | procfs =>
    have hdev : ¬ source = "proc".toList := of_decide_eq_false hdev
    rw [mountOf, procMount, if_neg hdev]
  | devfs =>
    have hdev : ¬ source = "udev".toList := of_decide_eq_false hdev
    rw [mountOf, devfsMount, if_neg hdev]

theorem costs_mountRest (hdev : ops.hasDevice source = true) (fs d : ℕ) (mnt : Option ℕ) :
    ∃ q, ∀ ok, Costs ok 4 (mountRest ok ops d fs mnt source) q := by
  refine ⟨do
    match ← ops.mount fs source with
    | none =>
      semSignal .vfsSem
      return -1
    | some root =>
      addMount root d fs mnt
      semSignal .vfsSem
      return 0, fun ok => Costs.bind (m := 3) (n := 1) (costs_mountOf hdev) ?_⟩
  intro st o _ hmount
  have hroot := run_mount_root ops st fs source
  rw [if_pos hdev] at hroot
  obtain ⟨_, _, _, hroot, -⟩ := hroot
  obtain ⟨rfl, -⟩ := run_inj hmount hroot
  exact .unchecked fun _ => Plain.costs (.bind .semSignal fun _ => .pure _)

theorem run_mountOn_file (h : (s.state.dentry d).dIsdir = false) :
    run (mountOn ok d fs mnt) s = some (-1, s) := by
  rw [mountOn, run_bind, run_gets, Option.bind_some]
  exact congrArg (run · s) (if_pos h)

theorem heedless_mountOn (st : State) (d fs : ℕ) (mnt : Option ℕ) :
    Heedless st fun ok => mountOn ok d fs mnt := by
  have hfail : (∀ ok c, run (mountOn ok d fs mnt) ⟨st, c⟩ = some (-1, ⟨st, c⟩)) →
      Heedless st fun ok => mountOn ok d fs mnt := (Heedless.pure st (-1)).congr
  cases hdir : (st.dentry d).dIsdir with
  | false => exact hfail fun ok c => run_mountOn_file hdir
  | true =>
    cases hmount : (st.fsType fs).mount with
    | none =>
      refine hfail fun ok c => ?_
      simp only [mountOn, run_bind, run_gets, Option.bind_some, hdir, Bool.true_eq_false,
        if_false, hmount]
      rfl
    | some ops =>
      have hrun : ∀ ok c, run (mountOn ok d fs mnt) ⟨st, c⟩ =
          run (mountRest ok ops d fs mnt (st.fsType fs).dev) ⟨st, c⟩ := by
        intro ok c
        simp only [mountOn, run_bind, run_gets, Option.bind_some, hdir, Bool.true_eq_false,
          if_false, hmount]
      cases hdev : ops.hasDevice (st.fsType fs).dev with
      | false =>
        refine hfail fun ok c => ?_
        rw [hrun, mountRest, mountOf_none ok fs hdev]
        rfl
      | true =>
        obtain ⟨q, hq⟩ := costs_mountRest hdev fs d mnt
        exact (Costs.heedless hq st).congr hrun

/-- `vfs_mount` is over when the lookup has failed. -/
def mountEnd (ok : ℕ → Bool) (fs : ℕ) : Option ℕ × Nameidata → Code ℤ
  | (none, _) => do
    semSignal .vfsSem
    return -1
  | (some retden, nd) => mountOn ok retden fs nd.mnt

theorem run_vfsMount (ok : ℕ → Bool) (st : State) (c t : ℕ) (path : List Char) (fs : ℕ) :
    run (vfsMount ok t path fs) ⟨st, c⟩ =
      if (st.thread t).uid ≠ 0 && (st.thread t).gid ≠ 0 then some (-1, ⟨st, c⟩)
      else (run (pathLookup ok t path false) ⟨st, c⟩).bind fun r =>
        run (mountEnd ok fs r.1) r.2 := by
  have hpriv : run (unprivileged t) st =
      some ((st.thread t).uid ≠ 0 && (st.thread t).gid ≠ 0, st) := rfl
  rw [vfsMount, run_bind, run_semWait, Option.bind_some, run_liftM_bind hpriv]
  split
  · rfl
  · rw [run_bind]
    refine congrArg _ (funext fun r => ?_)
    obtain ⟨⟨o, nd⟩, s⟩ := r
    cases o with
    | none => rfl
    | some d => rfl

theorem heedless_vfsMount (hord : Orderly st) (hD : DirAt st (start st t path))
    (hask : lookupQuestion st t path = none) :
    Heedless st (Request.vfsMount t path fs).prog := by
  by_cases hpriv : (decide ((st.thread t).uid ≠ 0) && decide ((st.thread t).gid ≠ 0)) = true
  · refine (Heedless.pure st (-1)).congr fun ok c => ?_
    rw [Request.prog, run_vfsMount, if_pos hpriv]
    rfl
  · obtain ⟨⟨o, nd⟩, hlook⟩ := still_pathLookup hord hD hask
    have hrest : Heedless st fun ok => mountEnd ok fs (o, nd) := by
      cases o with
      | none => exact Costs.heedless (fun ok => Plain.costs (.bind .semSignal fun _ => .pure _)) st
      | some d => exact heedless_mountOn st d fs nd.mnt
    refine hrest.congr fun ok c => ?_
    rw [Request.prog, run_vfsMount, if_neg hpriv, hlook, Option.bind_some]

theorem run_mountEnd_file {r : Option ℕ × Nameidata}
    (h : ∀ d, r.1 = some d → (s.state.dentry d).dIsdir = false) :
    run (mountEnd ok fs r) s = some (-1, s) := by
  obtain ⟨o, nd⟩ := r
  cases o with
  | none => rfl
  | some d => exact run_mountOn_file (h d rfl)

/-- `vfs_mount` survives a refusal only where the lookup asks the driver for a name, and one of its
two checked requests is refused. -/
theorem robust_vfsMount (h : Inv st) (hord : Orderly st)
    (hq : (Request.vfsMount t path fs).Legal st)
    (hr : (Request.vfsMount t path fs).Refused ok st) :
    (Request.vfsMount t path fs).Robust ok st ↔
      (∃ q, lookupQuestion st t path = some q) ∧ ¬ (ok 0 = true ∧ ok 1 = true) := by
  have hD : DirAt st (start st t path) := dirAt_start h hord.tidy hq
  cases hask : lookupQuestion st t path with
  | none =>
    refine iff_of_false (Request.not_robust_of_heedless (heedless_vfsMount hord hD hask) hr) ?_
    rintro ⟨⟨q, hnone⟩, -⟩
    cases hnone
  | some q =>
    obtain ⟨hopen, -⟩ := asks_pathLookup hord hD hask
    obtain ⟨z', s', hplenty, k, hk, hok⟩ := hr
    rw [Request.prog, run_vfsMount] at hplenty
    unfold Request.Robust
    rw [Request.prog, run_vfsMount]
    by_cases hpriv : (decide ((st.thread t).uid ≠ 0) && decide ((st.thread t).gid ≠ 0)) = true
    · rw [if_pos hpriv] at hplenty
      obtain ⟨-, rfl⟩ := Prod.mk.inj (Option.some.inj hplenty)
      exact absurd hk k.not_lt_zero
    rw [if_neg hpriv] at hplenty ⊢
    by_cases hgranted : ok 0 = true ∧ ok 1 = true
    case neg =>
      obtain ⟨nd, st₁, hlook, hm⟩ := run_pathLookup_misses 0 hord hD hask (.inl hgranted)
      rw [hlook]
      exact iff_of_true ⟨-1, _, rfl, by decide, hm.spared⟩ ⟨⟨q, rfl⟩, hgranted⟩
    refine iff_of_false ?_ fun hno => hno.2 hgranted
    rintro ⟨z, s, hdone, -, hspared⟩
    by_cases hmiss : Misses ok 0 st q.nd q.name
    case neg =>
      obtain ⟨⟨r, s₁⟩, hlook, hrest⟩ := Option.bind_eq_some_iff.mp hdone
      obtain ⟨he, hfile⟩ := pathLookup_finds 0 hord hD hask hmiss hlook
      obtain ⟨-, rfl⟩ := run_inj hrest (run_mountEnd_file hfile)
      exact (he.raised hopen.place.lt (by simp)).not_spared hord.wf hspared
    -- The lookup was granted all that it asked for.
    obtain ⟨h₂, hnone⟩ := hmiss.resolve_left (not_not.mpr hgranted)
    have hplain : Misses plenty 0 st q.nd q.name := .inr ⟨rfl, hnone⟩
    obtain ⟨nd, st₁, hlook, -⟩ := run_pathLookup_misses 0 hord hD hask hplain
    rw [hlook] at hplenty
    obtain ⟨-, rfl⟩ := Prod.mk.inj (Option.some.inj hplenty)
    have hk : k < 3 := hk
    obtain rfl | rfl | rfl : k = 0 ∨ k = 1 ∨ k = 2 := by omega
    · cases hok.symm.trans hgranted.1
    · cases hok.symm.trans hgranted.2
    · cases hok.symm.trans h₂

end Mount

end Operations

end Requests

end NSOS.Vfs.Scarce
