import NSOS.Memory.Allocator
import NSOS.Spin.Lock
import NSOS.Vfs.History

/-! # The kernel and its log

The state that the operations of the kernel share, and how they print. Printing
a character takes the console lock. A spin lock that is used the wrong way is
reported in the log, and so the report takes the console lock as well.
-/

namespace NSOS.Spin

open Basis Prog

section State

/-- The text on the screen. The device that shows it is left out. -/
structure Console where
  cursorx : ℕ
  cursory : ℕ
  cursorxmax : ℕ
  cursorymax : ℕ
  cursoron : Bool
  linefull : Bool
  linestart : UInt8
  screenbuf : ℕ → ℕ → Char

/-- What `struct thread` holds for the scheduler, and its stack. -/
structure Thread where
  id : ℤ
  stackStart : ℕ
  stackEnd : ℕ
  sleep : Bool
  /-- The semaphore that the thread waits for, zero for none. -/
  currentWaiting : ℕ

/-- The state of the kernel besides its locks. Semaphores and `struct thread` are known by their
addresses. -/
structure Machine where
  heap : Pmm.State
  fs : Vfs.State
  /-- The `struct thread` behind each occupied slot of `thread_pool`. -/
  struct : ℕ → ℕ
  thread : ℕ → Thread
  currentThreadIndex : ℕ
  count : ℕ → ℤ
  console : Console
  /-- What `_putc` has written, newest first. -/
  serial : List Char
  /-- What the timer shows when it is read the next times. -/
  uptime : ℕ → ℕ
  ticks : ℕ

abbrev Code (α : Type) := Prog Spinlock Machine α

abbrev kmtSpinLock (s : Spinlock) : Code Unit := semWait s

abbrev kmtSpinUnlock (s : Spinlock) : Code Unit := semSignal s

end State

section Print

namespace Console

variable (c : Console)

/-- `refreshscreen`, which turns the cursor on when there is anything to draw. -/
def refreshscreen : Console :=
  if 0 < c.cursorymax ∧ 0 < c.cursorxmax then { c with cursoron := true } else c

/-- The end of a line: the cursor goes down, or the screen scrolls. -/
def newline : Console :=
  if c.cursory + 1 = c.cursorymax then
    let row := (c.linestart.toNat + c.cursory + 1) % c.cursorymax
    refreshscreen { c with
      screenbuf := fun i j => if i = row ∧ j < c.cursorxmax then ' ' else c.screenbuf i j
      linestart := UInt8.ofNat ((c.linestart.toNat + 1) % c.cursorymax) }
  else { c with cursory := c.cursory + 1 }

/-- The body of `printchar`. -/
def put (ch : Char) : Console :=
  if ch = '\n' then
    if c.linefull then { c with linefull := false }
    else newline { c with cursorx := 0 }
  else
    let row := (c.cursory + c.linestart.toNat) % c.cursorymax
    let col := c.cursorx
    let c := { c with
      screenbuf := fun i j => if i = row ∧ j = col then ch else c.screenbuf i j }
    if c.cursorx + 1 = c.cursorxmax then newline { c with linefull := true, cursorx := 0 }
    else { c with linefull := false, cursorx := c.cursorx + 1 }

end Console

def printchar (ch : Char) : Code Unit := do
  kmtSpinLock .consoleLock
  modify fun k => { k with console := k.console.put ch }
  kmtSpinUnlock .consoleLock

/-- `printf` of a formatted text. -/
def printf : List Char → Code Unit
  | [] => pure ()
  | c :: cs => do
    modify fun k => { k with serial := c :: k.serial }
    printchar c
    printf cs

/-- `number` of `vsprintf` for numbers that are not negative. -/
def number (num base size : ℕ) (c : Char) : List Char :=
  let digits := (Nat.toDigits base num).map Char.toUpper
  List.replicate (size - digits.length) c ++ digits

/-- `0x%08X`. -/
def address (a : ℕ) : List Char := "0x".toList ++ number a 16 8 '0'

def getuptime32 : Code ℕ := do
  let t ← gets fun k => k.uptime k.ticks
  modify fun k => { k with ticks := k.ticks + 1 }
  return t % 2 ^ 32

/-- `syslog` of a formatted text. -/
def syslog (who : String) (text : List Char) : Code Unit := do
  let seconds := (← getuptime32) / 1000
  let millis := (← getuptime32) % 1000
  printf ("[".toList ++ number seconds 10 5 ' ' ++ ".".toList ++ number millis 10 3 '0' ++
    "] ".toList ++ who.toList ++ ": ".toList ++ text ++ "\n".toList)

end Print

section Meaning

abbrev System := Machine × Locks

variable (complain : List Char → System → Option System) (s : Spinlock) (x : System)

/-- `simple_lock_try`, with the meaning of its call of `syslog`. -/
def simpleLockTry : Option System :=
  if x.2.status s = 1 then
    complain "Attempted to lock a locked lock".toList (x.1, { x.2 with intr := false })
  else some (x.1, x.2.lock s)

/-- `simple_lock_unlock`, with the meaning of its call of `syslog`. -/
def simpleLockUnlock : Option System :=
  if x.2.status s = 0 then complain "Attempted to unlock an unlocked lock".toList x
  else some (x.1, x.2.unlock s)

def endless : List Char → System → Option System := fun _ _ => none

/-- A complaint. It prints, and the only lock that it could complain about is the console lock. -/
def report (text : List Char) (x : System) : Option System :=
  ((syslog "KMT SPIN" text).runWith (simpleLockTry endless) (simpleLockUnlock endless) x).map
    Prod.snd

def exec {α : Type} (p : Code α) (x : System) : Option (α × System) :=
  p.runWith (simpleLockTry report) (simpleLockUnlock report) x

end Meaning

section Facts

variable {complain : List Char → System → Option System} {s : Spinlock} {x y : System}
  {l₀ l : Locks} {h : List Spinlock} {u : Spinlock → Prop} {α : Type} {p : Code α} {a : α}

theorem nested_printchar (c : Char) : Nested (· = .consoleLock) [] (printchar c) :=
  nested_wait rfl List.not_mem_nil (nested_quiet_bind fun _ => ⟨[], rfl, rfl⟩)

theorem nested_printf (cs : List Char) : Nested (· = .consoleLock) [] (printf cs) := by
  induction cs with
  | nil => exact nested_pure ()
  | cons c cs ih =>
    exact nested_quiet_bind fun _ => nested_bind (nested_printchar c)
      (fun s hs => ⟨hs, List.not_mem_nil⟩) fun _ => ih

instance quiet_getuptime32 : Quiet getuptime32 := by unfold getuptime32; infer_instance

theorem nested_syslog (who : String) (text : List Char) :
    Nested (· = .consoleLock) [] (syslog who text) :=
  nested_quiet_bind fun _ => nested_quiet_bind fun _ => nested_printf _

theorem sane_simpleLockTry (hc : ∀ {t x y}, x.2.Sane → complain t x = some y → y.2.Sane)
    (hx : x.2.Sane) (hr : simpleLockTry complain s x = some y) : y.2.Sane := by
  unfold simpleLockTry at hr
  split at hr
  case isTrue =>
    have hoff : Locks.Sane { x.2 with intr := false } := ⟨hx.status, hx.lockcount, fun _ => rfl⟩
    exact hc (x := (x.1, { x.2 with intr := false })) hoff hr
  case isFalse hs =>
    obtain rfl := Option.some.inj hr
    exact hx.lock ((hx.status s).resolve_right hs)

theorem sane_simpleLockUnlock (hc : ∀ {t x y}, x.2.Sane → complain t x = some y → y.2.Sane)
    (hx : x.2.Sane) (hr : simpleLockUnlock complain s x = some y) : y.2.Sane := by
  unfold simpleLockUnlock at hr
  split at hr
  case isTrue => exact hc hx hr
  case isFalse hs =>
    obtain rfl := Option.some.inj hr
    exact hx.unlock ((hx.status s).resolve_left hs)

theorem sane_report {t : List Char} (hx : x.2.Sane) (hr : report t x = some y) : y.2.Sane := by
  have hend : ∀ {t x y}, x.2.Sane → endless t x = some y → y.2.Sane := fun _ h => by cases h
  obtain ⟨⟨a, z⟩, hrun, rfl⟩ := Option.map_eq_some_iff.mp hr
  exact runWith_invariant (I := Locks.Sane) (sane_simpleLockTry hend) (sane_simpleLockUnlock hend)
    hx hrun

theorem sane_exec (hx : x.2.Sane) (hr : exec p x = some (a, y)) : y.2.Sane :=
  runWith_invariant (I := Locks.Sane) (sane_simpleLockTry sane_report)
    (sane_simpleLockUnlock sane_report) hx hr

/-- A nested program whose locks are free runs as if there were no locks. What it leaves of them is
as it was. -/
theorem exec_nested (h₀ : l₀.Sane) (hp : Nested (fun s => l₀.status s = 0) h p)
    (hl : l₀.Holds h l) (k : Machine) : (run p k = none ∧ exec p (k, l) = none) ∨
      ∃ a k' l', run p k = some (a, k') ∧ exec p (k, l) = some (a, k', l') ∧ l₀.Holds [] l' := by
  refine Nested.runWith (R := fun h l => l₀.Holds h l) (fun {s h} k l hs hn hl => ?_)
    (fun {s h} k l hl => ?_) hp hl
  · obtain ⟨hfree, hl'⟩ := hl.lock h₀ hs hn
    exact ⟨_, by rw [simpleLockTry, if_neg (by rw [hfree]; decide)], hl'⟩
  · obtain ⟨hlocked, hl'⟩ := hl.unlock h₀
    exact ⟨_, by rw [simpleLockUnlock, if_neg (by rw [hlocked]; decide)], hl'⟩

end Facts

end NSOS.Spin
