import NSOS.Basis.Int32
import NSOS.Basis.Program
import NSOS.Basis.Runs
import Mathlib.Data.Fintype.Card
import Mathlib.Logic.Function.Basic

/-! # Threads and semaphores

The threads of the kernel share one processor. A thread runs the programs of
its calls step by step, and the calls of `kmt_sem_wait` and `kmt_sem_signal`
in them statement by statement. Another thread can be scheduled whenever
interrupts are enabled. Empty slots of the thread pool match no semaphore and
are left out.
-/

namespace NSOS.Kmt

open Basis

/-- `semaphore_lock`, the static variables of the spin locks and the interrupt flag. -/
structure Lock where
  status : UInt8
  lockcount : UInt32
  releaseIntr : Bool
  intr : Bool

namespace Lock

/-- The lock while no thread holds it. -/
def free (r : Bool) : Lock := ⟨0, 0, r, true⟩

def held : Lock := ⟨1, 1, true, false⟩

end Lock

def simpleLockTry (l : Lock) : Lock :=
  let intr := l.intr
  let l := { l with intr := false }
  if l.status = 1 then l
  else
    let l := if l.lockcount = 0 then { l with releaseIntr := intr } else l
    { l with status := 1, lockcount := l.lockcount + 1 }

def simpleLockUnlock (l : Lock) : Lock :=
  if l.status = 0 then l
  else
    let l := { l with lockcount := l.lockcount - 1, status := 0 }
    if l.lockcount = 0 then if l.releaseIntr then { l with intr := true } else l else l

@[simp] theorem simpleLockTry_free (r : Bool) : simpleLockTry (.free r) = .held := rfl
@[simp] theorem simpleLockUnlock_held : simpleLockUnlock .held = .free true := rfl

/-- The statements of `kmt_sem_wait`. -/
inductive WaitPc where
  | lock
  | test (again : Bool)
  | mark
  | sleep
  | unlock
  | spin
  | relock
  | take
  | release
  deriving DecidableEq

/-- The statements of `kmt_sem_signal`. -/
inductive SignalPc (n : ℕ) where
  | lock
  | inc
  | scan (i : ℕ)
  | wake (i : Fin n)
  | clear (i : Fin n)
  | unlock
  deriving DecidableEq

/-- What a thread does: nothing, or some statement of the call `c`. -/
inductive Phase (ι σ κ α : Type) (n : ℕ) where
  | idle
  | run (c : κ) (p : Prog ι σ α)
  | waiting (c : κ) (s : ι) (pc : WaitPc) (p : Prog ι σ α)
  | signalling (c : κ) (s : ι) (pc : SignalPc n) (p : Prog ι σ α)

/-- What the threads have done so far. -/
inductive Event (ι κ α : Type) (n : ℕ) where
  | called (t : Fin n) (c : κ)
  | waited (t : Fin n) (s : ι) (c : κ)
  | signalled (t : Fin n) (s : ι)
  | returned (t : Fin n) (c : κ) (a : α)

/-- The threads, their semaphores and the state their programs share. -/
structure Kernel (ι σ κ α : Type) (n : ℕ) where
  shared : σ
  count : ι → ℤ
  sleep : Fin n → Bool
  currentWaiting : Fin n → Option ι
  lock : Lock
  current : Fin n
  phase : Fin n → Phase ι σ κ α n
  /-- The past, newest first. No thread reads it. -/
  events : List (Event ι κ α n)

section Past

variable {ι σ κ α : Type} {n : ℕ} [DecidableEq ι]

/-- A completed wait for `s`, with its thread and the call it belongs to. -/
def Event.entry (s : ι) : Event ι κ α n → Option (Fin n × κ)
  | .waited t s' c => if s' = s then some (t, c) else none
  | _ => none

/-- A completed signal of `s`, with its thread. -/
def Event.leave (s : ι) : Event ι κ α n → Option (Fin n)
  | .signalled t s' => if s' = s then some t else none
  | _ => none

/-- The completed waits for a semaphore, newest first. -/
def Kernel.entries (k : Kernel ι σ κ α n) (s : ι) : List (Fin n × κ) :=
  k.events.filterMap (Event.entry s)

def Kernel.leaves (k : Kernel ι σ κ α n) (s : ι) : List (Fin n) :=
  k.events.filterMap (Event.leave s)

def Kernel.waits (k : Kernel ι σ κ α n) (s : ι) : ℕ := (k.entries s).length
def Kernel.signals (k : Kernel ι σ κ α n) (s : ι) : ℕ := (k.leaves s).length

end Past

section Machine

variable {ι σ κ α : Type} {n : ℕ} [DecidableEq ι]

def Kernel.init (x : σ) (count : ι → ℤ) (t : Fin n) : Kernel ι σ κ α n where
  shared := x
  count := count
  sleep _ := false
  currentWaiting _ := none
  lock := .free true
  current := t
  phase _ := .idle
  events := []

def Kernel.goto (k : Kernel ι σ κ α n) (ph : Phase ι σ κ α n) : Kernel ι σ κ α n :=
  { k with phase := Function.update k.phase k.current ph }

/-- One statement of `kmt_sem_wait`. -/
def waitStep (k : Kernel ι σ κ α n) (c : κ) (s : ι) (p : Prog ι σ α) :
    WaitPc → Kernel ι σ κ α n
  | .lock => { k with lock := simpleLockTry k.lock }.goto (.waiting c s (.test false) p)
  | .test _ =>
    if k.count s = 0 then k.goto (.waiting c s .mark p) else k.goto (.waiting c s .take p)
  | .mark =>
    { k with currentWaiting := Function.update k.currentWaiting k.current (some s) }.goto
      (.waiting c s .sleep p)
  | .sleep =>
    { k with sleep := Function.update k.sleep k.current true }.goto (.waiting c s .unlock p)
  | .unlock => { k with lock := simpleLockUnlock k.lock }.goto (.waiting c s .spin p)
  | .spin => if k.sleep k.current then k else k.goto (.waiting c s .relock p)
  | .relock => { k with lock := simpleLockTry k.lock }.goto (.waiting c s (.test true) p)
  | .take =>
    { k with
      count := Function.update k.count s (toInt (k.count s - 1))
      events := .waited k.current s c :: k.events }.goto (.waiting c s .release p)
  | .release => { k with lock := simpleLockUnlock k.lock }.goto (.run c p)

/-- One statement of `kmt_sem_signal`. -/
def signalStep (k : Kernel ι σ κ α n) (c : κ) (s : ι) (p : Prog ι σ α) :
    SignalPc n → Kernel ι σ κ α n
  | .lock => { k with lock := simpleLockTry k.lock }.goto (.signalling c s .inc p)
  | .inc =>
    { k with
      count := Function.update k.count s (toInt (k.count s + 1))
      events := .signalled k.current s :: k.events }.goto (.signalling c s (.scan 0) p)
  | .scan i =>
    if h : i < n then
      if k.sleep ⟨i, h⟩ = true ∧ k.currentWaiting ⟨i, h⟩ = some s then
        k.goto (.signalling c s (.wake ⟨i, h⟩) p)
      else k.goto (.signalling c s (.scan (i + 1)) p)
    else k.goto (.signalling c s .unlock p)
  | .wake i =>
    { k with sleep := Function.update k.sleep i false }.goto (.signalling c s (.clear i) p)
  | .clear i =>
    { k with currentWaiting := Function.update k.currentWaiting i none }.goto
      (.signalling c s .unlock p)
  | .unlock => { k with lock := simpleLockUnlock k.lock }.goto (.run c p)

def advance (k : Kernel ι σ κ α n) : Option (Kernel ι σ κ α n) :=
  match k.phase k.current with
  | .idle => none
  | .run c (.ret a) => some ({ k with events := .returned k.current c a :: k.events }.goto .idle)
  | .run _ .stop => none
  | .run c (.act f p) => some ({ k with shared := f k.shared }.goto (.run c (p k.shared)))
  | .run c (.wait s p) => some (k.goto (.waiting c s .lock p))
  | .run c (.signal s p) => some (k.goto (.signalling c s .lock p))
  | .waiting c s pc p => some (waitStep k c s p pc)
  | .signalling c s pc p => some (signalStep k c s p pc)

/-- The labels of steps: the running thread makes a call or executes a statement, or the
timer schedules another thread. -/
inductive Act (κ : Type) (n : ℕ) where
  | call (c : κ)
  | exec
  | switch (t : Fin n)

/-- The steps of the machine, for calls `c` of thread `t` with program `body t c`. -/
inductive Step (body : Fin n → κ → Prog ι σ α) (k : Kernel ι σ κ α n) :
    Act κ n → Kernel ι σ κ α n → Prop where
  | call {c : κ} (h : k.phase k.current = .idle) : Step body k (.call c)
      ({ k with events := .called k.current c :: k.events }.goto (.run c (body k.current c)))
  | exec {k' : Kernel ι σ κ α n} (h : advance k = some k') : Step body k .exec k'
  | switch {t : Fin n} (h : k.lock.intr = true) (ht : k.sleep t = false) :
      Step body k (.switch t) { k with current := t }

section Extend

variable {body : Fin n → κ → Prog ι σ α} {P : Kernel ι σ κ α n → Act κ n → Prop}
  {k₀ k k' : Kernel ι σ κ α n} {c : κ}

theorem run_call (h : Run (Step body) P k₀ k) (hp : P k (.call c))
    (hi : k.phase k.current = .idle) : Run (Step body) P k₀
      ({ k with events := .called k.current c :: k.events }.goto (.run c (body k.current c))) :=
  h.tail hp (.call hi)

theorem run_exec (h : Run (Step body) P k₀ k) (hp : P k .exec) (ha : advance k = some k') :
    Run (Step body) P k₀ k' := h.tail hp (.exec ha)

def perform (body : Fin n → κ → Prog ι σ α) (k : Kernel ι σ κ α n) :
    Act κ n → Option (Kernel ι σ κ α n)
  | .call c =>
    match k.phase k.current with
    | .idle => some
        ({ k with events := .called k.current c :: k.events }.goto (.run c (body k.current c)))
    | _ => none
  | .exec => advance k
  | .switch t =>
    if k.lock.intr = true ∧ k.sleep t = false then some { k with current := t } else none

theorem step_of_perform {a : Act κ n} (h : perform body k a = some k') : Step body k a k' := by
  cases a with
  | call c =>
    cases hi : k.phase k.current with
    | idle =>
      simp only [perform, hi, Option.some.injEq] at h
      exact h ▸ .call hi
    | _ => simp [perform, hi] at h
  | exec => exact .exec h
  | switch t =>
    simp only [perform, Option.ite_none_right_eq_some, Option.some.injEq] at h
    obtain ⟨⟨hintr, ht⟩, rfl⟩ := h
    exact .switch hintr ht

end Extend

end Machine

end NSOS.Kmt
