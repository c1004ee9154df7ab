import NSOS.Sched.Fair

/-! # Context switches

Interrupts save the context of the running thread and return the context of the
thread that the scheduler selects. The past of a run tells which contexts were
made, saved and resumed for the thread of each slot. As long as a thread is only
created from a `struct thread` that is in no slot, each thread is resumed with
the context that was saved or made for it last.
-/

namespace NSOS.Sched

open Basis
open Spin (STACK_MAGIC scanPool)
open Vfs (KERNEL_MAX_THREAD)

section Machine

def KEY_NONE : ℤ := 0
def KEY_RETURN : ℤ := 54

/-- An interrupt, with what the keyboard has when a device raises it. -/
inductive Irq where
  | timer
  | yield
  | iodev (keycode keydown : ℤ)
  | error
  | other

/-- The pool, the pointer to the running thread and what the keyboard sets. -/
structure System (R : Type) where
  pool : Pool R
  current : UInt32
  keyAction : Bool

variable {R : Type}

/-- The timer and `_yield` switch to another thread. -/
def Irq.Switches : Irq → Prop
  | .timer => True
  | .yield => True
  | _ => False

instance : DecidablePred Irq.Switches
  | .timer => .isTrue trivial
  | .yield => .isTrue trivial
  | .iodev _ _ => .isFalse id
  | .error => .isFalse id
  | .other => .isFalse id

namespace System

variable (s : System R)

/-- What `os_interrupt` does when the timer or a thread asks for another thread. It yields the
context of the selected one. -/
def switchThread (regs : R) : Option (R × System R) :=
  let pool :=
    if s.current ≠ 0 then s.pool.setThread s.current fun th => { th with status := regs }
    else s.pool
  (pool.kmtSchedule KERNEL_MAX_THREAD.toNat).map fun r =>
    ((r.2.thread r.1).status, { s with pool := r.2, current := r.1 })

/-- `os_interrupt`. A null result resumes the interrupted context. An error halts the machine. -/
def osInterrupt (ev : Irq) (regs : R) : Option (Option R × System R) :=
  match ev with
  | .timer => (s.switchThread regs).map fun r => (some r.1, r.2)
  | .yield => (s.switchThread regs).map fun r => (some r.1, r.2)
  | .iodev keycode keydown =>
    if keycode ≠ KEY_NONE ∧ keydown = 0 ∧ keycode = KEY_RETURN then
      some (none, { s with keyAction := true })
    else some (none, s)
  | .error => none
  | .other => some (none, s)

end System

/-- What was done with the contexts of the thread in a slot. -/
inductive Event (R : Type) where
  | made (u : ℕ) (r : R)
  | saved (u : ℕ) (r : R)
  | resumed (u : ℕ) (r : R)
  deriving DecidableEq

/-- The slot whose thread runs, by a past with the newest event first. -/
def running : List (Event R) → Option ℕ
  | [] => none
  | .made _ _ :: h => running h
  | .saved _ _ :: h => running h
  | .resumed u _ :: _ => some u

/-- The context of the thread in a slot: the one that was saved when it was preempted last, or the
one that was made for it when it has never run. A running thread has none. -/
def context (u : ℕ) : List (Event R) → Option R
  | [] => none
  | .made v r :: h => if v = u then some r else context u h
  | .saved v r :: h => if v = u then some r else context u h
  | .resumed v _ :: h => if v = u then none else context u h

/-- The system with its past, newest first. Nothing in the system reads the past. -/
structure Traced (R : Type) where
  sys : System R
  past : List (Event R)

/-- What happens: an interrupt with the interrupted registers, or a call of the running thread. -/
inductive Act (R : Type) where
  | interrupt (ev : Irq) (regs : R)
  | call (op : Pool.Op R)

def isSchedule : Pool.Op R → Bool
  | .schedule => true
  | _ => false

def callEvents (k : Pool R) : Pool.Op R → List (Event R)
  | .create _ make =>
    let i := scanPool fun u => k.threadPool u = 0
    if KERNEL_MAX_THREAD < i then [] else [.made i make]
  | _ => []

def savedEvents (regs : R) (past : List (Event R)) : List (Event R) :=
  match running past with
  | some u => .saved u regs :: past
  | none => past

namespace Traced

variable (s : Traced R)

def exec : Act R → Option (Traced R)
  | .interrupt ev regs => (s.sys.osInterrupt ev regs).map fun
    | (some r, sys) =>
      ⟨sys, .resumed sys.pool.currentThreadIndex.toNat r :: savedEvents regs s.past⟩
    | (none, sys) => ⟨sys, s.past⟩
  | .call op =>
    if s.sys.current = 0 ∨ isSchedule op = true then none
    else (s.sys.pool.exec op).map fun pool =>
      ⟨{ s.sys with pool := pool }, callEvents s.sys.pool op ++ s.past⟩

/-- The system when `os_run` enables interrupts. -/
structure Started : Prop where
  pool : s.sys.pool.Started
  current : s.sys.current = 0
  past : s.past = [.made 1 (s.sys.pool.thread (s.sys.pool.threadPool 1)).status]

/-- The states that are reached by steps that all meet a condition. -/
def Reach (P : Traced R → Act R → Prop) : Prop :=
  ∃ s₀ : Traced R, s₀.Started ∧ Run (fun s a s' => exec s a = some s') P s₀ s

/-- Threads are made from a `struct thread` that is in no slot. -/
def Proper (s : Traced R) : Act R → Prop
  | .call (.create thread _) =>
    ∀ u, 0 < u → u ≤ KERNEL_MAX_THREAD.toNat → s.sys.pool.threadPool u ≠ thread
  | _ => True

/-- What the past and the state have to do with each other. -/
structure Kept : Prop where
  /-- From the first switch on, `current` is the thread in the current slot. -/
  current : ∀ u, running s.past = some u → s.sys.pool.currentThreadIndex.toNat = u ∧
    s.sys.current = s.sys.pool.threadPool u ∧ s.sys.pool.threadPool u ≠ 0
  /-- A context that was returned for a thread was the one that the thread had then. -/
  resumed : ∀ later u r earlier, s.past = later ++ .resumed u r :: earlier →
    context u earlier = some r
  /-- A thread that does not run still has its context. -/
  status : ∀ u, 0 < u → u ≤ KERNEL_MAX_THREAD.toNat → s.sys.pool.threadPool u ≠ 0 →
    running s.past ≠ some u →
    context u s.past = some (s.sys.pool.thread (s.sys.pool.threadPool u)).status

end Traced

end Machine

section Past

variable {R : Type} {u v : ℕ} {r regs : R} {h : List (Event R)}

theorem context_resumed_of_ne (hne : v ≠ u) : context u (.resumed v r :: h) = context u h := by
  rw [context, if_neg hne]

theorem context_savedEvents_self (hu : running h = some u) :
    context u (savedEvents regs h) = some regs := by
  rw [savedEvents, hu]
  exact if_pos rfl

theorem context_savedEvents_of_ne (hu : running h ≠ some u) :
    context u (savedEvents regs h) = context u h := by
  unfold savedEvents
  split
  case h_1 v hv =>
    refine if_neg fun he => hu ?_
    rw [hv, he]
  case h_2 => rfl

theorem resumed_not_mem_savedEvents {later earlier : List (Event R)}
    (heq : savedEvents regs h = later ++ .resumed u r :: earlier) :
    ∃ later', h = later' ++ .resumed u r :: earlier := by
  unfold savedEvents at heq
  split at heq
  · cases later with
    | nil => cases heq
    | cons e later => exact ⟨later, (List.cons.inj heq).2⟩
  · exact ⟨later, heq⟩

end Past

section Switch

variable {R : Type} {k : Pool R} {s : System R} {s' : System R} {regs r : R} {ev : Irq}
  {o : Option R} {t : UInt32} {i : UInt32}

theorem inv_setThread (hi : k.Inv) {f : Thread R → Thread R}
    (hf : ∀ th, (f th).Fenced ↔ th.Fenced) : (k.setThread t f).Inv where
  first := hi.first
  last := hi.last
  index := hi.index
  fenced u hpos hle hu := by
    have hfence := hi.fenced u hpos hle hu
    dsimp only [Pool.setThread]
    rw [Function.update_apply]
    split
    case isTrue hp => exact (hf _).mpr (hp ▸ hfence)
    case isFalse => exact hfence

/-- What a switch does: the interrupted context is saved for the current thread, and the slot that
the scheduler selects becomes the current one. -/
theorem switchThread_cases (h : s.switchThread regs = some (r, s')) : ∃ (k : Pool R) (i : UInt32),
    k = (if s.current ≠ 0 then s.pool.setThread s.current fun th => { th with status := regs }
      else s.pool) ∧
    k.scheduleLoop KERNEL_MAX_THREAD.toNat k.currentThreadIndex = some i ∧
    r = (k.thread (k.threadPool i.toNat)).status ∧
    s' = { s with
      pool := { k with currentThreadIndex := i }
      current := k.threadPool i.toNat } := by
  obtain ⟨⟨th, k'⟩, hs, he⟩ := Option.map_eq_some_iff.mp h
  obtain ⟨rfl, rfl⟩ := Prod.mk.inj he
  obtain ⟨i, hi, rfl, rfl⟩ := Pool.kmtSchedule_cases hs
  exact ⟨_, i, rfl, hi, rfl, rfl⟩

theorem osInterrupt_cases (h : s.osInterrupt ev regs = some (o, s')) :
    (ev.Switches ∧ ∃ r, o = some r ∧ s.switchThread regs = some (r, s')) ∨
      (¬ev.Switches ∧ o = none ∧ s'.pool = s.pool ∧ s'.current = s.current) := by
  have hswitch : (s.switchThread regs).map (fun r => (some r.1, r.2)) = some (o, s') →
      ∃ r, o = some r ∧ s.switchThread regs = some (r, s') := fun h => by
    obtain ⟨⟨r, s₁⟩, hr, he⟩ := Option.map_eq_some_iff.mp h
    obtain ⟨rfl, rfl⟩ := Prod.mk.inj he
    exact ⟨r, rfl, hr⟩
  cases ev with
  | timer => exact .inl ⟨trivial, hswitch h⟩
  | yield => exact .inl ⟨trivial, hswitch h⟩
  | iodev keycode keydown =>
    refine .inr ⟨id, ?_⟩
    simp only [System.osInterrupt] at h
    split at h
    all_goals
      obtain ⟨rfl, rfl⟩ := Prod.mk.inj (Option.some.inj h)
      exact ⟨rfl, rfl, rfl⟩
  | error => cases h
  | other =>
    obtain ⟨rfl, rfl⟩ := Prod.mk.inj (Option.some.inj h)
    exact .inr ⟨id, rfl, rfl, rfl⟩

end Switch

end NSOS.Sched
