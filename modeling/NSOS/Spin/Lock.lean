import NSOS.Basis.Locking
import NSOS.Kmt.Semaphore
import Mathlib.Data.Fintype.Card

/-! # Spin locks

All spin locks share a counter. Interrupts are disabled while it is positive,
and the last lock that is given back restores them. Locks that are taken and
given back in a nested way leave no trace in the locks, the counter and the
interrupt flag.
-/

namespace NSOS.Spin

open Basis

inductive Spinlock where
  | threadLock
  | semaphoreLock
  | kernelMemoryLock
  | consoleLock
  deriving DecidableEq

instance : Fintype Spinlock where
  elems := {.threadLock, .semaphoreLock, .kernelMemoryLock, .consoleLock}
  complete s := by cases s <;> decide

/-- The `status` of each lock, the static variables of `simple_lock.c` and the interrupt flag. -/
structure Locks where
  status : Spinlock → UInt8
  lockcount : UInt32
  releaseIntr : Bool
  intr : Bool

namespace Locks

variable (l : Locks) (s : Spinlock)

/-- What `simple_lock_try` does to a lock that is not locked. -/
def lock : Locks :=
  let intr := l.intr
  let l := { l with intr := false }
  let l := if l.lockcount = 0 then { l with releaseIntr := intr } else l
  { l with status := Function.update l.status s 1, lockcount := l.lockcount + 1 }

/-- What `simple_lock_unlock` does to a lock that is locked. -/
def unlock : Locks :=
  let l := { l with lockcount := l.lockcount - 1, status := Function.update l.status s 0 }
  if l.lockcount = 0 then if l.releaseIntr then { l with intr := true } else l else l

def view : Kmt.Lock := ⟨l.status s, l.lockcount, l.releaseIntr, l.intr⟩

def locked : Finset Spinlock := Finset.univ.filter fun s => l.status s = 1

/-- What holds of the locks in every state of the kernel. -/
structure Sane : Prop where
  status : ∀ s, l.status s = 0 ∨ l.status s = 1
  lockcount : l.lockcount.toNat = l.locked.card
  intr : l.lockcount ≠ 0 → l.intr = false

/-- The locks, their count and the interrupt flag are as before, whatever `release_intr` holds. -/
structure Same (l l' : Locks) : Prop where
  status : l'.status = l.status
  lockcount : l'.lockcount = l.lockcount
  intr : l'.intr = l.intr

end Locks

section Sanity

variable {l l' l₀ : Locks} {s : Spinlock} {h : List Spinlock}

@[simp] theorem status_lock : (l.lock s).status = Function.update l.status s 1 := by
  unfold Locks.lock
  dsimp only
  split <;> rfl

@[simp] theorem intr_lock : (l.lock s).intr = false := by
  unfold Locks.lock
  dsimp only
  split <;> rfl

@[simp] theorem lockcount_lock : (l.lock s).lockcount = l.lockcount + 1 := by
  unfold Locks.lock
  dsimp only
  split <;> rfl

theorem releaseIntr_lock :
    (l.lock s).releaseIntr = if l.lockcount = 0 then l.intr else l.releaseIntr := by
  unfold Locks.lock
  dsimp only
  split <;> rfl

@[simp] theorem status_unlock : (l.unlock s).status = Function.update l.status s 0 := by
  unfold Locks.unlock
  dsimp only
  split
  · split <;> rfl
  · rfl

@[simp] theorem lockcount_unlock : (l.unlock s).lockcount = l.lockcount - 1 := by
  unfold Locks.unlock
  dsimp only
  split
  · split <;> rfl
  · rfl

@[simp] theorem releaseIntr_unlock : (l.unlock s).releaseIntr = l.releaseIntr := by
  unfold Locks.unlock
  dsimp only
  split
  · split <;> rfl
  · rfl

theorem intr_unlock : (l.unlock s).intr =
    if l.lockcount - 1 = 0 ∧ l.releaseIntr = true then true else l.intr := by
  unfold Locks.unlock
  dsimp only
  split
  case isTrue hz =>
    split
    case isTrue hr => rw [if_pos ⟨hz, hr⟩]
    case isFalse hr => rw [if_neg fun h => hr h.2]
  case isFalse hz => rw [if_neg fun h => hz h.1]

theorem view_lock (hs : l.status s ≠ 1) : (l.lock s).view s = Kmt.simpleLockTry (l.view s) := by
  unfold Locks.lock Kmt.simpleLockTry Locks.view
  dsimp only
  rw [if_neg hs]
  split <;> simp

theorem view_unlock (hs : l.status s ≠ 0) :
    (l.unlock s).view s = Kmt.simpleLockUnlock (l.view s) := by
  unfold Locks.unlock Kmt.simpleLockUnlock Locks.view
  dsimp only
  rw [if_neg hs]
  split
  · split <;> simp
  · simp

theorem mem_locked : s ∈ l.locked ↔ l.status s = 1 := by simp [Locks.locked]

theorem locked_lock : (l.lock s).locked = insert s l.locked := by
  ext u
  rw [mem_locked, status_lock, Finset.mem_insert, mem_locked, Function.update_apply]
  split <;> simp [*]

theorem locked_unlock : (l.unlock s).locked = l.locked.erase s := by
  ext u
  rw [mem_locked, status_unlock, Finset.mem_erase, mem_locked, Function.update_apply]
  split <;> simp [*]

theorem card_locked_le (l : Locks) : l.locked.card ≤ 4 := l.locked.card_le_univ

theorem Locks.Sane.lockcount_eq_zero (h : l.Sane) :
    l.lockcount = 0 ↔ ∀ s, l.status s = 0 := by
  have hcount : l.lockcount = 0 ↔ l.locked = ∅ := by
    rw [← Finset.card_eq_zero, ← h.lockcount, ← UInt32.toNat_inj]
    rfl
  rw [hcount, Finset.eq_empty_iff_forall_notMem]
  refine forall_congr' fun s => ?_
  rw [mem_locked]
  rcases h.status s with hs | hs <;> simp [hs]

theorem Locks.Sane.lock (h : l.Sane) (hs : l.status s = 0) : (l.lock s).Sane where
  status u := by
    rw [status_lock, Function.update_apply]
    split
    · exact .inr rfl
    · exact h.status u
  lockcount := by
    have hnot : s ∉ l.locked := by simp [mem_locked, hs]
    have hle := card_locked_le l
    rw [lockcount_lock, locked_lock, Finset.card_insert_of_notMem hnot, UInt32.toNat_add,
      h.lockcount]
    have hone : (1 : UInt32).toNat = 1 := rfl
    omega
  intr _ := intr_lock

theorem Locks.Sane.unlock (h : l.Sane) (hs : l.status s = 1) : (l.unlock s).Sane where
  status u := by
    rw [status_unlock, Function.update_apply]
    split
    · exact .inl rfl
    · exact h.status u
  lockcount := by
    have hmem : s ∈ l.locked := mem_locked.mpr hs
    have hpos := Finset.card_pos.mpr ⟨s, hmem⟩
    have hle := card_locked_le l
    have hone : (1 : UInt32).toNat = 1 := rfl
    rw [lockcount_unlock, locked_unlock, Finset.card_erase_of_mem hmem,
      UInt32.toNat_sub_of_le _ _ (UInt32.le_iff_toNat_le.mpr (by rw [h.lockcount]; exact hpos)),
      h.lockcount]
    rfl
  intr hne := by
    rw [lockcount_unlock] at hne
    rw [intr_unlock, if_neg fun hz => hne hz.1]
    refine h.intr fun hz => ?_
    rw [h.lockcount_eq_zero.mp hz s] at hs
    exact absurd hs (by decide)

end Sanity

section Holding

variable {l l' l₀ : Locks} {s : Spinlock} {h : List Spinlock}

/-- Since `l₀` the locks `h` have been taken, the newest first, and they were free. -/
structure Locks.Holds (l₀ : Locks) (h : List Spinlock) (l : Locks) : Prop where
  sane : l.Sane
  status : ∀ s, l.status s = if s ∈ h then 1 else l₀.status s
  nodup : h.Nodup
  free : ∀ s ∈ h, l₀.status s = 0
  /-- The outermost lock remembers the interrupt flag. -/
  releaseIntr : h ≠ [] → l₀.lockcount = 0 → l.releaseIntr = l₀.intr
  intr : l.intr = if h = [] then l₀.intr else false

theorem Locks.Sane.holds (h : l₀.Sane) : l₀.Holds [] l₀ :=
  ⟨h, fun s => by simp, List.nodup_nil, fun _ hs => absurd hs List.not_mem_nil,
    fun hne => absurd rfl hne, by simp⟩

theorem Locks.Holds.lockcount_ne_zero (hl : l₀.Holds h l) (hne : h ≠ []) : l.lockcount ≠ 0 := by
  obtain ⟨s, hs⟩ := List.exists_mem_of_ne_nil h hne
  intro hz
  have hstatus := hl.sane.lockcount_eq_zero.mp hz s
  rw [hl.status, if_pos hs] at hstatus
  exact absurd hstatus (by decide)

theorem Locks.Holds.status_eq (hl : l₀.Holds [] l) : l.status = l₀.status :=
  funext fun s => by simp [hl.status s]

theorem Locks.Holds.lockcount_eq (hl : l₀.Holds [] l) (h₀ : l₀.Sane) :
    l.lockcount = l₀.lockcount := by
  rw [← UInt32.toNat_inj, hl.sane.lockcount, h₀.lockcount, Locks.locked, Locks.locked,
    hl.status_eq]

theorem Locks.Holds.same (hl : l₀.Holds [] l) (h₀ : l₀.Sane) : l₀.Same l :=
  ⟨hl.status_eq, hl.lockcount_eq h₀, by simpa using hl.intr⟩

theorem Locks.Holds.lock (hl : l₀.Holds h l) (h₀ : l₀.Sane) (hs : l₀.status s = 0)
    (hn : s ∉ h) : l.status s = 0 ∧ l₀.Holds (s :: h) (l.lock s) := by
  have hfree : l.status s = 0 := by rw [hl.status, if_neg hn, hs]
  refine ⟨hfree, ⟨hl.sane.lock hfree, fun u => ?_, hl.nodup.cons hn, fun u hu => ?_,
    fun _ hz => ?_, by simp⟩⟩
  · rw [status_lock, Function.update_apply, hl.status]
    by_cases hu : u = s <;> simp [hu]
  · rcases List.mem_cons.mp hu with rfl | hu
    · exact hs
    · exact hl.free u hu
  · rw [releaseIntr_lock]
    by_cases hnil : h = []
    · subst hnil
      rw [if_pos (hl.lockcount_eq h₀ ▸ hz)]
      simpa using hl.intr
    · rw [if_neg (hl.lockcount_ne_zero hnil)]
      exact hl.releaseIntr hnil hz

theorem Locks.Holds.unlock (hl : l₀.Holds (s :: h) l) (h₀ : l₀.Sane) :
    l.status s = 1 ∧ l₀.Holds h (l.unlock s) := by
  have hlocked : l.status s = 1 := by rw [hl.status, if_pos List.mem_cons_self]
  obtain ⟨hn, hnodup⟩ := List.nodup_cons.mp hl.nodup
  have hsane := hl.sane.unlock hlocked
  have hstatus : ∀ u, (l.unlock s).status u = if u ∈ h then 1 else l₀.status u := fun u => by
    rw [status_unlock, Function.update_apply, hl.status]
    by_cases hu : u = s
    · rw [if_pos hu, hu, if_neg hn, hl.free s List.mem_cons_self]
    · simp [hu]
  have hoff : l.intr = false := by simpa using hl.intr
  refine ⟨hlocked, hsane, hstatus, hnodup, fun u hu => hl.free u (List.mem_cons_of_mem _ hu),
    fun _ hz => ?_, ?_⟩
  · rw [releaseIntr_unlock]
    exact hl.releaseIntr (List.cons_ne_nil s h) hz
  -- The flag comes back with the outermost lock, which found the counter at zero.
  · have hcount : l.lockcount - 1 = 0 ↔ ∀ u, (l.unlock s).status u = 0 := by
      rw [← hsane.lockcount_eq_zero, lockcount_unlock]
    rw [intr_unlock, hoff]
    by_cases hnil : h = []
    · subst hnil
      have hsame : (l.unlock s).status = l₀.status := funext fun u => by simp [hstatus]
      rw [hsame, ← h₀.lockcount_eq_zero] at hcount
      by_cases hz : l₀.lockcount = 0
      · rw [hl.releaseIntr (List.cons_ne_nil s []) hz]
        cases l₀.intr <;> simp [hcount.mpr hz]
      · rw [if_neg fun hand => hz (hcount.mp hand.1), if_pos rfl, h₀.intr hz]
    · obtain ⟨u, hu⟩ := List.exists_mem_of_ne_nil h hnil
      rw [if_neg hnil, if_neg]
      rintro ⟨hz, -⟩
      have hzero := hcount.mp hz u
      rw [hstatus, if_pos hu] at hzero
      exact absurd hzero (by decide)

end Holding

end NSOS.Spin
