import NSOS.Vfs.Separate

/-! # Threads and their stacks

The file system with the `struct thread` behind each slot of `thread_pool`.
`kmt_create` allocates a stack and `kmt_teardown` gives it back. As long as
steps are thrifty, nothing is given back twice, and no static object is.
-/

namespace NSOS.Vfs

open Basis Prog

section System

/-- The file system, the threads, and what has been given back. -/
structure Kernel where
  fs : State
  /-- The `struct thread` behind each occupied slot. -/
  struct : ℕ → ℕ
  /-- The block behind `stack.start` of each `struct thread`. Block zero is `launchd_stack`. -/
  stack : ℕ → ℕ
  /-- The number of the next stack. -/
  nextStack : ℕ
  freedStacks : List ℕ
  /-- The files whose storage `kvfs_truncate` has given back. -/
  truncated : List ℕ

namespace Kernel

variable (k : Kernel)

/-- Slots with the same `struct thread` have the same contents. -/
def share (t : ℕ) : Kernel := { k with fs := { k.fs with
  thread := fun u =>
    if k.fs.Running u ∧ k.struct u = k.struct t then k.fs.thread t else k.fs.thread u } }

/-- `kmt_create` of the `struct thread` `s`, called by thread `t`. -/
def create (t s : ℕ) : Kernel :=
  let i := emptySlot k.fs KERNEL_MAX_THREAD.toNat 1
  if KERNEL_MAX_THREAD < i then k
  else share { k with
    fs := kmtCreate k.fs t
    struct := Function.update k.struct i s
    stack := Function.update k.stack s k.nextStack
    nextStack := k.nextStack + 1 } i

/-- The loop of `kmt_teardown` that looks for a `struct thread` from slot `i` on. -/
def slotOf (s : ℕ) : ℕ → ℕ → ℕ
  | 0, i => i
  | n + 1, i => if k.fs.threadPool i = true ∧ k.struct i = s then i else slotOf s n (i + 1)

/-- `kmt_teardown` of the `struct thread` `s`, called by thread `t`, for stacks with their
fences. A thread that tears itself down halts the machine. -/
def teardown (t s : ℕ) : Option Kernel :=
  let i := k.slotOf s KERNEL_MAX_THREAD.toNat 1
  if KERNEL_MAX_THREAD < i then some k
  else if i = t then none
  else some { k with
    fs := { k.fs with threadPool := Function.update k.fs.threadPool i false }
    freedStacks := k.stack s :: k.freedStacks }

inductive Op where
  | call (t : ℕ) (c : Call)
  | close (t : ℕ) (fd : ℤ)
  /-- The inode operation `kvfs_truncate`. -/
  | truncate (t ip : ℕ)
  | create (t s : ℕ)
  | teardown (t s : ℕ)
  | newFs (f : FsType)
  | world (text : ℤ → List UInt8) (rand : ℕ → UInt8)

def exec : Op → Option Kernel
  | .call t c => (Vfs.exec k.fs (.call t c)).map fun fs => share { k with fs := fs } t
  | .close t fd => (Vfs.exec k.fs (.close t fd)).map fun fs => share { k with fs := fs } t
  | .truncate t ip =>
    if k.fs.Running t ∧ k.fs.Live ip ∧ (k.fs.inode ip).iOp = .kvfs then
      (run (kvfsTruncate ip) k.fs).map fun r => { k with
        fs := r.2
        truncated := if (k.fs.node ip).start = .null then k.truncated else ip :: k.truncated }
    else none
  | .create t s => if k.fs.Running t then some (k.create t s) else none
  | .teardown t s => if k.fs.Running t then k.teardown t s else none
  | .newFs f => (Vfs.exec k.fs (.newFs f)).map fun fs => { k with fs := fs }
  | .world text rand => (Vfs.exec k.fs (.world text rand)).map fun fs => { k with fs := fs }

/-- The kernel when `launchd` starts. -/
structure Started : Prop where
  fs : Vfs.Started k.fs
  launchd : k.stack (k.struct 1) = 0
  nextStack : k.nextStack = 1
  freedStacks : k.freedStacks = []
  truncated : k.truncated = []

/-- The states that are reached by steps that all meet a condition. -/
def Reach (P : Kernel → Op → Prop) : Prop :=
  ∃ k₀ : Kernel, k₀.Started ∧ Run (fun k op k' => exec k op = some k') P k₀ k

def Given (t : ℕ) : Call → Prop
  | .read fd _ | .write fd _ | .lseek fd _ _ =>
    isStd fd = true ∨ (k.fs.served t fd).isSome = true
  | _ => True

/-- The calls of the file system are thrifty, no write leaves the storage of its file, and no
index lies outside `file_descriptors`. Only regular files are truncated, and none that has lost its
storage. Threads are made from a `struct thread` that is in no slot, and `launchd` is not torn
down. -/
def Thrifty : Op → Prop
  | .call t c => Vfs.Thrifty k.truncated k.fs (.call t c) ∧ WritesInRange k.fs (.call t c) ∧
    k.Given t c
  | .close _ fd => 0 ≤ fd ∧ fd < MAX_FILE_PER_THREAD
  | .truncate _ ip => k.fs.IsFile ip ∧ ip ∉ k.truncated
  | .create _ s => ∀ u, k.fs.Running u → k.struct u ≠ s
  | .teardown _ s => k.struct 1 ≠ s
  | .newFs f => f.Genuine
  | .world _ _ => True

end Kernel

end System

section Owned

variable {k k' : Kernel} {fs : State} {t u s i n : ℕ} {op : Op} {st st' : State}

theorem Effect.threadPool (he : Effect st op st') (hc : ∀ t, op ≠ .create t)
    (ht : ∀ t u, op ≠ .teardown t u) : st'.threadPool = st.threadPool := by
  cases he with
  | same => rfl
  | looked _ hk => rw [hk.rest]
  | opened _ _ hk _ _ hopen =>
    have hpool := congrArg State.threadPool hk.rest
    rcases hopen with ⟨-, -, rfl⟩ | ⟨i, -, -, -, rfl⟩
    · exact hpool
    · exact hpool
  | read => rfl
  | printed => rfl
  | @wrote t f fd z buf st' _ _ hr =>
    obtain ⟨B, K, F, size, pos, hst⟩ := run_kvfsWrite_frame hr
    rw [hst]
  | sought _ hr => rcases llseek_cases hr with rfl | ⟨pos, rfl⟩ <;> rfl
  | mounted _ _ hroot hst =>
    rw [hst, hroot.state_eq]
    rfl
  | unmounted hu => rw [hu.state_eq]
  | closed => rfl
  | created => exact absurd rfl (hc _)
  | tornDown => exact absurd rfl (ht _ _)
  | newFs => rfl
  | world => rfl

/-- The threads have a `struct thread` and a stack of their own. Stacks that have been given back
were on the heap, were given back once, and belong to no thread. -/
structure Owned (k : Kernel) : Prop where
  struct : ∀ t u, k.fs.Running t → k.fs.Running u → k.struct t = k.struct u → t = u
  launchd : k.fs.Running 1 ∧ k.stack (k.struct 1) = 0
  stack : ∀ t, k.fs.Running t →
    k.stack (k.struct t) < k.nextStack ∧ k.stack (k.struct t) ∉ k.freedStacks
  apart : ∀ t u, k.fs.Running t → k.fs.Running u →
    k.stack (k.struct t) = k.stack (k.struct u) → t = u
  nodup : k.freedStacks.Nodup
  onHeap : ∀ b ∈ k.freedStacks, b ≠ 0 ∧ b < k.nextStack

theorem Owned.congr (h : Owned k) (hpool : k'.fs.threadPool = k.fs.threadPool)
    (hk : k' = { k with fs := k'.fs, truncated := k'.truncated }) : Owned k' := by
  have hrun : ∀ {t}, k'.fs.Running t → k.fs.Running t := fun ht =>
    ⟨ht.1, ht.2.1, hpool ▸ ht.2.2⟩
  have hstruct : k'.struct = k.struct := by rw [hk]
  have hstack : k'.stack = k.stack := by rw [hk]
  have hnext : k'.nextStack = k.nextStack := by rw [hk]
  have hfreed : k'.freedStacks = k.freedStacks := by rw [hk]
  constructor
  case struct =>
    rw [hstruct]
    exact fun t u ht hu => h.struct t u (hrun ht) (hrun hu)
  case launchd =>
    obtain ⟨h₁, h₂, h₃⟩ := h.launchd.1
    rw [hstruct, hstack]
    exact ⟨⟨h₁, h₂, hpool ▸ h₃⟩, h.launchd.2⟩
  case stack =>
    rw [hstruct, hstack, hnext, hfreed]
    exact fun t ht => h.stack t (hrun ht)
  case apart =>
    rw [hstruct, hstack]
    exact fun t u ht hu => h.apart t u (hrun ht) (hrun hu)
  case nodup => rw [hfreed]; exact h.nodup
  case onHeap => rw [hfreed, hnext]; exact h.onHeap

theorem Owned.share (h : Owned k) (ht : k.fs.Running t) : k.share t = k := by
  have hthread : (fun u => if k.fs.Running u ∧ k.struct u = k.struct t then k.fs.thread t
      else k.fs.thread u) = k.fs.thread := by
    funext u
    split
    case isTrue hu => rw [h.struct u t hu.1 ht hu.2]
    case isFalse => rfl
  rw [Kernel.share, hthread]

theorem slotOf_spec (k : Kernel) (s n i : ℕ) : i ≤ k.slotOf s n i ∧
    (k.slotOf s n i < i + n →
      k.fs.threadPool (k.slotOf s n i) = true ∧ k.struct (k.slotOf s n i) = s) := by
  induction n generalizing i with
  | zero => exact ⟨le_rfl, fun h => absurd h (Nat.lt_irrefl i)⟩
  | succ n ih =>
    rw [Kernel.slotOf]
    split
    case isTrue hfound => exact ⟨le_rfl, fun _ => hfound⟩
    case isFalse =>
      obtain ⟨hle, hfound⟩ := ih (i + 1)
      exact ⟨by omega, fun h => hfound (by omega)⟩

theorem Owned.created (h : Owned k) (hi : ¬ k.fs.Running i) (hs : ∀ u, k.fs.Running u →
    k.struct u ≠ s) (hfs : ∀ u, fs.Running u → u = i ∨ k.fs.Running u) (h₁ : fs.Running 1) :
    Owned { k with
      fs := fs
      struct := Function.update k.struct i s
      stack := Function.update k.stack s k.nextStack
      nextStack := k.nextStack + 1 } := by
  have hold : ∀ u, k.fs.Running u → Function.update k.struct i s u = k.struct u ∧
      Function.update k.stack s k.nextStack (k.struct u) = k.stack (k.struct u) := fun u hu =>
    ⟨Function.update_of_ne (fun heq => hi (by rwa [← heq])) _ _,
      Function.update_of_ne (hs u hu) _ _⟩
  have hnew : Function.update k.struct i s i = s := Function.update_self ..
  have hnext : k.nextStack ∉ k.freedStacks := fun hin =>
    absurd (h.onHeap _ hin).2 (Nat.lt_irrefl _)
  constructor
  case struct =>
    intro t u ht hu heq
    dsimp only at ht hu heq
    rcases hfs t ht with rfl | ht
    · rcases hfs u hu with rfl | hu
      · rfl
      · rw [hnew, (hold u hu).1] at heq
        exact absurd heq.symm (hs u hu)
    · rw [(hold t ht).1] at heq
      rcases hfs u hu with rfl | hu
      · rw [hnew] at heq
        exact absurd heq (hs t ht)
      · rw [(hold u hu).1] at heq
        exact h.struct t u ht hu heq
  case launchd =>
    refine ⟨h₁, ?_⟩
    obtain ⟨hs₁, hstack⟩ := hold 1 h.launchd.1
    dsimp only
    rw [hs₁, hstack]
    exact h.launchd.2
  case stack =>
    intro t ht
    dsimp only at ht ⊢
    rcases hfs t ht with rfl | ht
    · rw [hnew, Function.update_self]
      exact ⟨Nat.lt_succ_self _, hnext⟩
    · obtain ⟨hlt, hfreed⟩ := h.stack t ht
      rw [(hold t ht).1, (hold t ht).2]
      exact ⟨hlt.trans (Nat.lt_succ_self _), hfreed⟩
  case apart =>
    intro t u ht hu heq
    dsimp only at ht hu heq
    rcases hfs t ht with rfl | ht
    · rcases hfs u hu with rfl | hu
      · rfl
      · rw [hnew, Function.update_self, (hold u hu).1, (hold u hu).2] at heq
        exact absurd (heq ▸ (h.stack u hu).1) (Nat.lt_irrefl _)
    · rw [(hold t ht).1, (hold t ht).2] at heq
      rcases hfs u hu with rfl | hu
      · rw [hnew, Function.update_self] at heq
        exact absurd (heq ▸ (h.stack t ht).1) (Nat.lt_irrefl _)
      · rw [(hold u hu).1, (hold u hu).2] at heq
        exact h.apart t u ht hu heq
  case nodup => exact h.nodup
  case onHeap => exact fun b hb => ⟨(h.onHeap b hb).1, (h.onHeap b hb).2.trans (Nat.lt_succ_self _)⟩

theorem Owned.tornDown (h : Owned k) (hi : k.fs.Running i) (h₁ : k.struct 1 ≠ k.struct i) :
    Owned { k with
      fs := { k.fs with threadPool := Function.update k.fs.threadPool i false }
      freedStacks := k.stack (k.struct i) :: k.freedStacks } := by
  have hne : i ≠ 1 := fun heq => h₁ (heq ▸ rfl)
  have hrun : ∀ {u}, State.Running
      { k.fs with threadPool := Function.update k.fs.threadPool i false } u →
        k.fs.Running u ∧ u ≠ i := by
    rintro u ⟨hpos, hle, hpool⟩
    dsimp only at hpool
    by_cases hu : u = i
    · rw [hu, Function.update_self] at hpool
      cases hpool
    · rw [Function.update_of_ne (by omega)] at hpool
      exact ⟨⟨hpos, hle, hpool⟩, hu⟩
  obtain ⟨hlt, hfreed⟩ := h.stack i hi
  constructor
  case struct => exact fun t u ht hu => h.struct t u (hrun ht).1 (hrun hu).1
  case launchd =>
    obtain ⟨⟨hpos, hle, hpool⟩, hstack⟩ := h.launchd
    refine ⟨⟨hpos, hle, ?_⟩, hstack⟩
    dsimp only
    rw [Function.update_of_ne (by omega)]
    exact hpool
  case stack =>
    intro t ht
    obtain ⟨ht, hti⟩ := hrun ht
    refine ⟨(h.stack t ht).1, fun hin => ?_⟩
    rcases List.mem_cons.mp hin with heq | hin
    · exact hti (h.apart t i ht hi heq)
    · exact (h.stack t ht).2 hin
  case apart => exact fun t u ht hu => h.apart t u (hrun ht).1 (hrun hu).1
  case nodup => exact List.nodup_cons.mpr ⟨hfreed, h.nodup⟩
  case onHeap =>
    intro b hb
    rcases List.mem_cons.mp hb with rfl | hb
    · refine ⟨fun hz => hne ?_, hlt⟩
      exact h.apart i 1 hi h.launchd.1 (hz.trans h.launchd.2.symm)
    · exact h.onHeap b hb

end Owned

section Runs

variable {k k' : Kernel} {fs : State} {t s : ℕ} {op : Op} {kop : Kernel.Op}

structure Accounted (k : Kernel) : Prop where
  settled : Settled k.fs
  ledger : Ledger k.truncated k.fs
  owned : Owned k

theorem Accounted.step (h : Accounted k) (ht : Thrifty k.truncated k.fs op)
    (hs : exec k.fs op = some fs) : Settled fs ∧ Ledger k.truncated fs :=
  ⟨settled_exec h.settled ht.proper hs,
    h.ledger.effect h.settled ht (effect_of_exec h.settled.sound hs)⟩

theorem Accounted.call (h : Accounted k) (ht : Thrifty k.truncated k.fs op)
    (hrun : k.fs.Running t) (hc : ∀ t, op ≠ .create t) (htd : ∀ t u, op ≠ .teardown t u)
    (hs : exec k.fs op = some fs) : Accounted (Kernel.share { k with fs := fs } t) := by
  obtain ⟨hsettled, hledger⟩ := h.step ht hs
  have hpool := (effect_of_exec h.settled.sound hs).threadPool hc htd
  have howned : Owned { k with fs := fs } := h.owned.congr hpool rfl
  rw [howned.share ⟨hrun.1, hrun.2.1, hpool ▸ hrun.2.2⟩]
  exact ⟨hsettled, hledger, howned⟩

theorem Accounted.create (h : Accounted k) (hrun : k.fs.Running t)
    (hs : ∀ u, k.fs.Running u → k.struct u ≠ s) : Accounted (k.create t s) := by
  have hexec : exec k.fs (.create t) = some (kmtCreate k.fs t) := by rw [exec, if_pos hrun]
  obtain ⟨hsettled, hledger⟩ := h.step (show Thrifty _ _ (.create t) from trivial) hexec
  unfold Kernel.create
  dsimp only
  split
  case isTrue => exact h
  case isFalse hle =>
    obtain ⟨hpos, hfree⟩ := emptySlot_spec k.fs KERNEL_MAX_THREAD.toNat 1
    set i := emptySlot k.fs KERNEL_MAX_THREAD.toNat 1 with hi
    have hmax : (KERNEL_MAX_THREAD.toNat : ℤ) = KERNEL_MAX_THREAD := rfl
    have hfree : k.fs.threadPool i = false := hfree (by omega)
    have hcreate : kmtCreate k.fs t = { k.fs with
        thread := Function.update k.fs.thread i { k.fs.thread t with
          uid := 0
          gid := 0
          fileDescriptors := newDescriptors }
        threadPool := Function.update k.fs.threadPool i true } := by
      unfold kmtCreate
      dsimp only
      rw [← hi, if_neg hle]
    have hi' : (kmtCreate k.fs t).Running i := by
      rw [hcreate]
      exact ⟨hpos, not_lt.mp hle, Function.update_self ..⟩
    have hnot : ¬ k.fs.Running i := fun hr => by
      rw [State.Running, hfree] at hr
      exact absurd hr.2.2 (by decide)
    have hfs : ∀ u, (kmtCreate k.fs t).Running u → u = i ∨ k.fs.Running u := by
      intro u hu
      rw [hcreate] at hu
      by_cases heq : u = i
      · exact .inl heq
      · have hpool := hu.2.2
        dsimp only at hpool
        rw [Function.update_of_ne (by omega)] at hpool
        exact .inr ⟨hu.1, hu.2.1, hpool⟩
    have h₁ : (kmtCreate k.fs t).Running 1 := by
      obtain ⟨⟨hpos₁, hle₁, hpool₁⟩, -⟩ := h.owned.launchd
      rw [hcreate]
      refine ⟨hpos₁, hle₁, ?_⟩
      dsimp only
      rw [Function.update_apply]
      split
      · rfl
      · exact hpool₁
    have howned := h.owned.created hnot hs hfs h₁
    rw [howned.share hi']
    exact ⟨hsettled, hledger, howned⟩

theorem Accounted.teardown (h : Accounted k) (hrun : k.fs.Running t) (h₁ : k.struct 1 ≠ s)
    (hs : k.teardown t s = some k') : Accounted k' := by
  unfold Kernel.teardown at hs
  dsimp only at hs
  split at hs
  case isTrue =>
    obtain rfl := Option.some.inj hs
    exact h
  case isFalse hle =>
    obtain ⟨hpos, hfound⟩ := slotOf_spec k s KERNEL_MAX_THREAD.toNat 1
    have hmax : (KERNEL_MAX_THREAD.toNat : ℤ) = KERNEL_MAX_THREAD := rfl
    generalize k.slotOf s KERNEL_MAX_THREAD.toNat 1 = i at hle hpos hfound hs
    obtain ⟨hpool, rfl⟩ := hfound (by omega)
    have hi : k.fs.Running i := ⟨hpos, not_lt.mp hle, hpool⟩
    split at hs
    case isTrue => cases hs
    case isFalse hne =>
      obtain rfl := Option.some.inj hs
      have hexec : exec k.fs (.teardown t i) =
          some { k.fs with threadPool := Function.update k.fs.threadPool i false } := by
        rw [exec, if_pos ⟨hrun, hi, Ne.symm hne⟩]
      obtain ⟨hsettled, hledger⟩ := h.step (show Thrifty _ _ (.teardown t i) from trivial) hexec
      exact ⟨hsettled, hledger, h.owned.tornDown hi h₁⟩

/-- Thrifty steps keep the accounts. -/
theorem accounted_exec (h : Accounted k) (ht : k.Thrifty kop) (hs : k.exec kop = some k') :
    Accounted k' := by
  cases kop with
  | call t c =>
    obtain ⟨fs, hexec, rfl⟩ := Option.map_eq_some_iff.mp hs
    exact h.call ht.1 (run_of_runBy hexec).1 (fun _ he => by cases he)
      (fun _ _ he => by cases he) hexec
  | close t fd =>
    obtain ⟨fs, hexec, rfl⟩ := Option.map_eq_some_iff.mp hs
    exact h.call (show Thrifty _ _ (.close t fd) from trivial) (run_of_runBy hexec).1
      (fun _ he => by cases he) (fun _ _ he => by cases he) hexec
  | truncate t ip =>
    rw [Kernel.exec] at hs
    split at hs
    case isTrue =>
      rw [run_kvfsTruncate] at hs
      obtain rfl := Option.some.inj hs
      exact ⟨h.settled.truncate, h.ledger.truncate h.settled ht.1 ht.2, h.owned.congr rfl rfl⟩
    case isFalse => cases hs
  | create t s =>
    rw [Kernel.exec] at hs
    split at hs
    case isTrue hrun =>
      obtain rfl := Option.some.inj hs
      exact h.create hrun ht
    case isFalse => cases hs
  | teardown t s =>
    rw [Kernel.exec] at hs
    split at hs
    case isTrue hrun => exact h.teardown hrun ht hs
    case isFalse => cases hs
  | newFs f =>
    rw [Kernel.exec] at hs
    obtain ⟨fs, hexec, rfl⟩ := Option.map_eq_some_iff.mp hs
    obtain ⟨hsettled, hledger⟩ := h.step (show Thrifty _ _ (.newFs f) from ht) hexec
    have hpool := (effect_of_exec h.settled.sound hexec).threadPool (fun _ he => by cases he)
      fun _ _ he => by cases he
    exact ⟨hsettled, hledger, h.owned.congr hpool rfl⟩
  | world text rand =>
    rw [Kernel.exec] at hs
    obtain ⟨fs, hexec, rfl⟩ := Option.map_eq_some_iff.mp hs
    obtain ⟨hsettled, hledger⟩ := h.step (show Thrifty _ _ (.world text rand) from trivial) hexec
    have hpool := (effect_of_exec h.settled.sound hexec).threadPool (fun _ he => by cases he)
      fun _ _ he => by cases he
    exact ⟨hsettled, hledger, h.owned.congr hpool rfl⟩

theorem accounted_started (hs : k.Started) : Accounted k := by
  have hone : ∀ {t u}, k.fs.Running t → k.fs.Running u → t = u := fun ht hu =>
    (hs.fs.running.mp ht).trans (hs.fs.running.mp hu).symm
  refine ⟨settled_started hs.fs, hs.truncated ▸ ledger_started hs.fs, ?_⟩
  constructor
  case struct => exact fun t u ht hu _ => hone ht hu
  case launchd => exact ⟨hs.fs.running.mpr rfl, hs.launchd⟩
  case stack =>
    intro t ht
    rw [hs.fs.running.mp ht, hs.launchd, hs.nextStack, hs.freedStacks]
    exact ⟨Nat.one_pos, List.not_mem_nil⟩
  case apart => exact fun t u ht hu _ => hone ht hu
  case nodup => simp [hs.freedStacks]
  case onHeap => simp [hs.freedStacks]

/-- In thrifty runs, all that has been given back was on the heap and has been given back once.
No listed mount and no file system of one has been given back, and neither has the stack of a
thread. -/
theorem frees_accounted (h : k.Reach Kernel.Thrifty) :
    (k.fs.freed.Nodup ∧ ∀ o ∈ k.fs.freed, o.OnHeap k.fs) ∧
      (k.freedStacks.Nodup ∧ ∀ b ∈ k.freedStacks, b ≠ 0 ∧ b < k.nextStack) ∧
        (∀ m ∈ k.fs.mountList,
          .vfsmount m ∉ k.fs.freed ∧ .fsType (k.fs.mount m).mntFs ∉ k.fs.freed) ∧
            ∀ t, k.fs.Running t → k.stack (k.struct t) ∉ k.freedStacks := by
  obtain ⟨k₀, h₀, hr⟩ := h
  have hk : Accounted k :=
    hr.invariant (accounted_started h₀) fun hk ht hs => accounted_exec hk ht hs
  exact ⟨⟨hk.ledger.nodup, hk.ledger.onHeap⟩, ⟨hk.owned.nodup, hk.owned.onHeap⟩,
    hk.ledger.mount, fun t ht => (hk.owned.stack t ht).2⟩

end Runs

section Histories

variable {T : List ℕ} {st : State} {op : Op} {k : Kernel} {kop : Kernel.Op}

instance : Decidable (Thrifty T st op) :=
  match op with
  | .call t (.unmount path) => inferInstanceAs (Decidable (∀ m ∈ dropped st t path, _ ∧ _ ∧
      ∀ m' ∈ st.mountList, m' ≠ m → (st.mount m').mntFs ≠ (st.mount m).mntFs))
  | .call _ (.mount _ _) => inferInstanceAs (Decidable (_ ∧ _))
  | .call t (.write fd buf) =>
    decidable_of_iff (∀ p ∈ st.served t fd, p.2 = .kvfs → (st.file p.1).fMode &&& O_WRONLY ≠ 0 →
        (st.file p.1).fInode ∈ T → ¬ Grows st p.1 buf)
      ⟨fun h f ho => h (f, .kvfs) (served_eq_some.mpr ho) rfl,
        fun h p hp hd => h p.1 (hd ▸ served_eq_some.mp hp)⟩
  | .newFs f => inferInstanceAs (Decidable f.Genuine)
  | .call _ (.access ..) | .call _ (.open ..) | .call _ (.read ..) | .call _ (.lseek ..)
  | .call _ (.mkdir ..) | .close .. | .create _ | .teardown .. | .world .. =>
    inferInstanceAs (Decidable True)

instance {t : ℕ} {c : Call} : Decidable (k.Given t c) :=
  match c with
  | .read .. | .write .. | .lseek .. => inferInstanceAs (Decidable (_ ∨ _))
  | .access .. | .mount .. | .unmount .. | .open .. | .mkdir .. => inferInstanceAs (Decidable True)

instance : Decidable (k.Thrifty kop) :=
  match kop with
  | .call t c =>
    inferInstanceAs (Decidable (Thrifty k.truncated k.fs (.call t c) ∧
      WritesInRange k.fs (.call t c) ∧ k.Given t c))
  | .close _ _ => inferInstanceAs (Decidable (_ ∧ _))
  | .truncate _ _ => inferInstanceAs (Decidable (_ ∧ _))
  | .create _ s =>
    decidable_of_iff (∀ u < KERNEL_MAX_THREAD.toNat + 1, k.fs.Running u → k.struct u ≠ s)
      ⟨fun h u hu => h u (by have := hu.2.1; simp only [KERNEL_MAX_THREAD] at this ⊢; omega) hu,
        fun h u _ => h u⟩
  | .teardown _ s => inferInstanceAs (Decidable (k.struct 1 ≠ s))
  | .newFs f => inferInstanceAs (Decidable f.Genuine)
  | .world .. => inferInstanceAs (Decidable True)

namespace Kernel

/-- The kernel when `launchd` starts in memory that is zero where it is not static. -/
def initial : Kernel := ⟨Vfs.initial, fun _ => 0, fun _ => 0, 1, [], []⟩

theorem started_initial : initial.Started := ⟨Vfs.started_initial, rfl, rfl, rfl, rfl⟩

def execThrifty (k : Kernel) (op : Op) : Option Kernel :=
  if k.Thrifty op then k.exec op else none

theorem reach_of_replay {ops : List Op} (hk : k.Reach Thrifty)
    (hr : replay execThrifty k ops = some k') : k'.Reach Thrifty := by
  obtain ⟨k₀, h₀, hrun⟩ := hk
  refine ⟨k₀, h₀, hrun.trans (Run.of_replay (fun {s op s'} hs => ?_) hr)⟩
  unfold execThrifty at hs
  split at hs
  · exact ⟨‹_›, hs⟩
  · cases hs

theorem reach_of_exec {ops : List Op} (hr : replay exec initial ops = some k) :
    k.Reach fun _ _ => True :=
  ⟨initial, started_initial, Run.of_replay (fun hs => ⟨trivial, hs⟩) hr⟩

end Kernel

/-- A file loses its storage, a mount and its file system go, and so does a thread. -/
theorem frees_accounted_run : ∃ k : Kernel, Obj.block 1 ∈ k.fs.freed ∧ .vfsmount 1 ∈ k.fs.freed ∧
    .fsType 3 ∈ k.fs.freed ∧ .file 0 ∈ k.fs.freed ∧ k.freedStacks = [1] ∧ k.fs.freed.Nodup := by
  have hreplay : ((Kernel.initial.exec (.create 1 7)).bind fun k =>
      replay Kernel.execThrifty k [.teardown 1 7, .call 1 (.open "/f".toList O_RDWR),
        .call 1 (.write 3 [65]), .truncate 1 2, .call 1 (.mkdir "/a".toList 0x755),
        .newFs { kvfsObj with dev := "ramdisk1".toList }, .call 1 (.mount "/a".toList 3),
        .close 1 3, .call 1 (.unmount "/a".toList)]).any (fun k =>
      Obj.block 1 ∈ k.fs.freed ∧ .vfsmount 1 ∈ k.fs.freed ∧ .fsType 3 ∈ k.fs.freed ∧
        .file 0 ∈ k.fs.freed ∧ k.freedStacks = [1]) = true := by decide +kernel
  obtain ⟨k, hr, hk⟩ := (Option.any_eq_true _ _).mp hreplay
  obtain ⟨hblock, hmount, hfs, hfile, hstacks⟩ := of_decide_eq_true hk
  obtain ⟨k₁, hcreate, hr⟩ := Option.bind_eq_some_iff.mp hr
  -- No slot has this `struct thread` at the start.
  have hfree : Kernel.initial.Thrifty (.create 1 7) := fun u _ => Nat.zero_ne_add_one 6
  have hreach : k₁.Reach Kernel.Thrifty :=
    ⟨_, Kernel.started_initial, .tail .refl hfree hcreate⟩
  exact ⟨k, hblock, hmount, hfs, hfile, hstacks,
    (frees_accounted (Kernel.reach_of_replay hreach hr)).1.1⟩

/-- `vfs_unmount` of the root gives back the static objects `root_mnt` and `kvfs_obj`. -/
theorem static_freed : ¬ ∀ k : Kernel, (k.Reach fun _ _ => True) →
    k.fs.freed.Nodup ∧ ∀ o ∈ k.fs.freed, o.OnHeap k.fs := by
  intro hall
  have hreplay : (replay Kernel.exec Kernel.initial [.call 1 (.unmount "/".toList)]).any
      (fun k => Obj.fsType 0 ∈ k.fs.freed) = true := by decide +kernel
  obtain ⟨k, hr, hk⟩ := (Option.any_eq_true _ _).mp hreplay
  have hheap := (hall k (Kernel.reach_of_exec hr)).2 _ (of_decide_eq_true hk)
  exact absurd hheap.1 (by decide)

end Histories

end NSOS.Vfs
