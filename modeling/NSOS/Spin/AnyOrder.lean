import NSOS.Spin.Lock
import Mathlib.Order.Interval.Finset.Nat

/-! # Locks in any order

Spin locks at any addresses. As long as a lock is only taken while it is free
and only given back while it is held, the counter counts the held locks, and
the interrupt flag comes back with the last of them, whatever their order.
-/

namespace NSOS.Spin

section Calls

/-- The address of a `spinlock_t`. -/
abbrev Address := {p : UInt32 // p ≠ 0}

/-- The `status` of the lock at each address, the static variables of `simple_lock.c` and the
interrupt flag. -/
structure Spins where
  status : Address → UInt8
  lockcount : UInt32
  releaseIntr : Bool
  intr : Bool

namespace Spins

variable (complain : Spins → Spins) (lk : Address) (l : Spins)

/-- `simple_lock_init`, without the name. -/
def simpleLockInit : Spins := { l with status := Function.update l.status lk 0 }

/-- `simple_lock_try`, with the meaning of its call of `syslog`. -/
def simpleLockTry : Spins :=
  let intr := l.intr
  let l := { l with intr := false }
  if l.status lk = 1 then complain l
  else
    let l := if l.lockcount = 0 then { l with releaseIntr := intr } else l
    { l with status := Function.update l.status lk 1, lockcount := l.lockcount + 1 }

/-- `simple_lock_unlock`, with the meaning of its call of `syslog`. -/
def simpleLockUnlock : Spins :=
  if l.status lk = 0 then complain l
  else
    let l := { l with lockcount := l.lockcount - 1, status := Function.update l.status lk 0 }
    if l.lockcount = 0 then if l.releaseIntr then { l with intr := true } else l else l

/-- The calls of the spin lock module. -/
inductive Call where
  | spinLock (lk : Address)
  | spinUnlock (lk : Address)

/-- `kmt_spin_lock` and `kmt_spin_unlock`. -/
def exec : Call → Spins
  | .spinLock lk => simpleLockTry complain lk l
  | .spinUnlock lk => simpleLockUnlock complain lk l

def calls (cs : List Call) : Spins := cs.foldl (exec complain) l

/-- The locks held after a call, when `T` are the ones held before it. -/
def Call.holds (T : Finset Address) : Call → Finset Address
  | .spinLock lk => insert lk T
  | .spinUnlock lk => T.erase lk

/-- The locks that were taken and not given back since, counted from the calls alone. -/
def heldBy (T : Finset Address) (cs : List Call) : Finset Address := cs.foldl Call.holds T

/-- A lock of the set is only taken while it is free and only given back while it is held. -/
def Call.Orderly (S T : Finset Address) : Call → Prop
  | .spinLock lk => lk ∈ S ∧ lk ∉ T
  | .spinUnlock lk => lk ∈ T

instance (S T : Finset Address) : DecidablePred (Call.Orderly S T)
  | .spinLock lk => inferInstanceAs (Decidable (lk ∈ S ∧ lk ∉ T))
  | .spinUnlock lk => inferInstanceAs (Decidable (lk ∈ T))

/-- Each call is orderly after the calls before it, when `T` are held at first. -/
def Orderly (S T : Finset Address) : List Call → Prop
  | [] => True
  | c :: cs => c.Orderly S T ∧ Orderly S (c.holds T) cs

instance decidableOrderly (S : Finset Address) :
    ∀ (T : Finset Address) (cs : List Call), Decidable (Orderly S T cs)
  | _, [] => inferInstanceAs (Decidable True)
  | T, c :: cs =>
    have := decidableOrderly S (c.holds T) cs
    inferInstanceAs (Decidable (c.Orderly S T ∧ Orderly S (c.holds T) cs))

/-- All locks of the set are free, and none is counted. -/
structure Ready (S : Finset Address) : Prop where
  status : ∀ lk ∈ S, l.status lk = 0
  lockcount : l.lockcount = 0

/-- `kmt_spin_init` of some locks, when no lock is counted. -/
def init (locks : List Address) : Spins := locks.foldl (fun l lk => simpleLockInit lk l) l

end Spins

end Calls

section Counting

namespace Spins

variable {complain : Spins → Spins} {l : Spins} {lk : Address} {locks : List Address}

theorem status_init : (init l locks).status lk = if lk ∈ locks then 0 else l.status lk := by
  induction locks generalizing l with
  | nil => simp [init]
  | cons u us ih =>
    change (init (simpleLockInit u l) us).status lk = _
    rw [ih]
    by_cases hus : lk ∈ us
    · simp [hus]
    · by_cases hu : lk = u <;> simp [simpleLockInit, hus, hu]

theorem lockcount_init : (init l locks).lockcount = l.lockcount := by
  induction locks generalizing l with
  | nil => rfl
  | cons u us ih => exact (ih (l := simpleLockInit u l))

theorem ready_init (hl : l.lockcount = 0) : (init l locks).Ready locks.toFinset where
  status lk hlk := by rw [status_init, if_pos (List.mem_toFinset.mp hlk)]
  lockcount := by rw [lockcount_init, hl]

/-- A set of locks is smaller than the address space, so their count does not wrap. -/
theorem card_lt (S : Finset Address) : S.card < 2 ^ 32 := by
  have hmap : Set.MapsTo (fun a : Address => a.1.toNat) S (Finset.Ico 1 (2 ^ 32)) := fun a _ => by
    have hne : a.1.toNat ≠ 0 := fun h => a.2 (UInt32.toNat_inj.mp h)
    have hlt := a.1.toNat_lt
    rw [Finset.coe_Ico, Set.mem_Ico]
    exact ⟨Nat.pos_of_ne_zero hne, hlt⟩
  have hle := Finset.card_le_card_of_injOn _ hmap fun a _ b _ hab =>
    Subtype.ext (UInt32.toNat_inj.mp hab)
  rw [Nat.card_Ico] at hle
  omega

theorem exec_spinLock (hfree : l.status lk = 0) : exec complain l (.spinLock lk) =
    { status := Function.update l.status lk 1
      lockcount := l.lockcount + 1
      releaseIntr := if l.lockcount = 0 then l.intr else l.releaseIntr
      intr := false } := by
  unfold exec simpleLockTry
  dsimp only
  rw [if_neg (by rw [hfree]; decide)]
  split <;> rfl

theorem exec_spinUnlock (hheld : l.status lk = 1) : exec complain l (.spinUnlock lk) =
    { l with
      status := Function.update l.status lk 0
      lockcount := l.lockcount - 1
      intr := if l.lockcount - 1 = 0 ∧ l.releaseIntr = true then true else l.intr } := by
  unfold exec simpleLockUnlock
  dsimp only
  rw [if_neg (by rw [hheld]; decide)]
  by_cases hz : l.lockcount - 1 = 0
  · by_cases hr : l.releaseIntr = true <;> simp [hz, hr]
  · simp [hz]

end Spins

end Counting

section Runs

namespace Spins

variable {complain : Spins → Spins} {S T : Finset Address} {l₀ l : Spins} {lk : Address}
  {c : Call} {before cs : List Call}

/-- What holds of the locks since `l₀`, where none was held, when the calls since then have
left the locks of `T` held. -/
structure Counts (l₀ : Spins) (S T : Finset Address) (l : Spins) : Prop where
  subset : T ⊆ S
  status : ∀ lk ∈ S, l.status lk = if lk ∈ T then 1 else 0
  lockcount : l.lockcount.toNat = T.card
  free : T = ∅ → l.intr = l₀.intr
  taken : T.Nonempty → l.intr = false
  /-- The interrupt flag is remembered as long as a lock is held. -/
  releaseIntr : T.Nonempty → l.releaseIntr = l₀.intr

theorem Ready.counts (h : l₀.Ready S) : l₀.Counts S ∅ l₀ where
  subset := Finset.empty_subset S
  status lk hlk := h.status lk hlk
  lockcount := by rw [h.lockcount]; rfl
  free _ := rfl
  taken hne := absurd hne Finset.not_nonempty_empty
  releaseIntr hne := absurd hne Finset.not_nonempty_empty

theorem Counts.lockcount_eq_zero (h : l₀.Counts S T l) : l.lockcount = 0 ↔ T = ∅ := by
  rw [← Finset.card_eq_zero, ← h.lockcount, ← UInt32.toNat_inj]
  rfl

/-- A free lock is taken: it is counted, and the first one remembers the interrupt flag. -/
theorem Counts.spinLock (h : l₀.Counts S T l) (hS : lk ∈ S) (hT : lk ∉ T) :
    l₀.Counts S (insert lk T) (exec complain l (.spinLock lk)) := by
  have hcard := Finset.card_insert_of_notMem hT
  have hlt := card_lt (insert lk T)
  rw [exec_spinLock (by rw [h.status lk hS, if_neg hT])]
  refine ⟨Finset.insert_subset hS h.subset, fun u hu => ?_, ?_, fun hempty => ?_, fun _ => rfl,
    fun _ => ?_⟩
  · by_cases hul : u = lk <;> simp [hul, h.status u hu]
  · rw [UInt32.toNat_add, h.lockcount, hcard]
    exact Nat.mod_eq_of_lt (hcard ▸ hlt)
  · exact absurd hempty (Finset.insert_ne_empty lk T)
  · dsimp only
    split
    case isTrue hz => exact h.free (h.lockcount_eq_zero.mp hz)
    case isFalse hz =>
      exact h.releaseIntr (Finset.nonempty_iff_ne_empty.mpr fun hn =>
        hz (h.lockcount_eq_zero.mpr hn))

/-- A held lock is given back: the last one brings the remembered flag back. -/
theorem Counts.spinUnlock (h : l₀.Counts S T l) (hT : lk ∈ T) :
    l₀.Counts S (T.erase lk) (exec complain l (.spinUnlock lk)) := by
  have hpos := Finset.card_pos.mpr ⟨lk, hT⟩
  have hcount : (l.lockcount - 1).toNat = (T.erase lk).card := by
    rw [UInt32.toNat_sub_of_le _ _ (UInt32.le_iff_toNat_le.mpr (by rw [h.lockcount]; exact hpos)),
      h.lockcount, Finset.card_erase_of_mem hT]
    rfl
  have hzero : l.lockcount - 1 = 0 ↔ T.erase lk = ∅ := by
    rw [← Finset.card_eq_zero, ← hcount, ← UInt32.toNat_inj]
    rfl
  have hrel := h.releaseIntr ⟨lk, hT⟩
  have hoff := h.taken ⟨lk, hT⟩
  rw [exec_spinUnlock (by rw [h.status lk (h.subset hT), if_pos hT])]
  refine ⟨(Finset.erase_subset lk T).trans h.subset, fun u hu => ?_, hcount, fun hempty => ?_,
    fun hne => ?_, fun _ => hrel⟩
  · by_cases hul : u = lk <;> simp [hul, h.status u hu]
  · rw [hrel, hoff]
    cases l₀.intr <;> simp [hzero.mpr hempty]
  · rw [hoff]
    exact if_neg fun hand => hne.ne_empty (hzero.mp hand.1)

theorem Counts.exec (h : l₀.Counts S T l) (ho : c.Orderly S T) :
    l₀.Counts S (c.holds T) (exec complain l c) := by
  cases c with
  | spinLock lk => exact h.spinLock ho.1 ho.2
  | spinUnlock lk => exact h.spinUnlock ho

theorem Counts.calls (h : l₀.Counts S T l) (ho : Orderly S T cs) :
    l₀.Counts S (heldBy T cs) (calls complain l cs) := by
  induction cs generalizing T l with
  | nil => exact h
  | cons c cs ih => exact ih (h.exec ho.1) ho.2

theorem Orderly.of_prefix (hb : before <+: cs) (ho : Orderly S T cs) : Orderly S T before := by
  induction before generalizing T cs with
  | nil => trivial
  | cons c before ih =>
    obtain ⟨after, rfl⟩ := hb
    exact ⟨ho.1, ih ⟨after, rfl⟩ ho.2⟩

/-- The `status` of each lock says whether the calls hold it, the counter counts the locks they
hold, interrupts are off while there are any, and between two moments without any the interrupt
flag is the same. -/
theorem locks_any_order (h₀ : l₀.Ready S) (ho : Orderly S ∅ cs) :
    let l := calls complain l₀ cs
    (∀ lk ∈ S, l.status lk = if lk ∈ heldBy ∅ cs then 1 else 0) ∧
      l.lockcount.toNat = (heldBy ∅ cs).card ∧ ((heldBy ∅ cs).Nonempty → l.intr = false) ∧
      ∀ before, before <+: cs → heldBy ∅ before = ∅ → heldBy ∅ cs = ∅ →
        l.intr = (calls complain l₀ before).intr := by
  have h : l₀.Counts S (heldBy ∅ cs) (calls complain l₀ cs) := h₀.counts.calls ho
  refine ⟨h.status, h.lockcount, h.taken, fun before hb he he' => ?_⟩
  have hbefore : l₀.Counts S (heldBy ∅ before) (calls complain l₀ before) :=
    h₀.counts.calls (ho.of_prefix hb)
  exact (h.free he').trans (hbefore.free he).symm

/-- A flag that is set, and two locks that are given back in the order in which they are taken. -/
theorem locks_any_order_overlap :
    let a : Address := ⟨0x1000, by decide⟩
    let b : Address := ⟨0x2000, by decide⟩
    let fresh : Spins := ⟨fun _ => 0, 0, false, true⟩
    let cs := [Call.spinLock a, .spinLock b, .spinUnlock a]
    let halfway := calls id fresh cs
    let done := calls id fresh (cs ++ [.spinUnlock b])
    heldBy ∅ cs = {b} ∧ (∀ lk ∈ ({a, b} : Finset Address), halfway.status lk =
      if lk ∈ heldBy ∅ cs then 1 else 0) ∧ halfway.lockcount.toNat = (heldBy ∅ cs).card ∧
      ((heldBy ∅ cs).Nonempty → halfway.intr = false) ∧ heldBy ∅ (cs ++ [.spinUnlock b]) = ∅ ∧
      done.intr = fresh.intr := by
  intro a b fresh cs halfway done
  have hready : fresh.Ready {a, b} := ⟨fun _ _ => rfl, rfl⟩
  have hhalf : Orderly {a, b} ∅ cs := by decide
  have hdone : Orderly {a, b} ∅ (cs ++ [.spinUnlock b]) := by decide
  obtain ⟨hstatus, hcount, htaken, -⟩ := locks_any_order hready hhalf
  exact ⟨by decide, hstatus, hcount, htaken, by decide,
    (locks_any_order hready hdone).2.2.2 [] List.nil_prefix rfl (by decide)⟩

end Spins

end Runs

section Kernel

namespace Spins

variable {complain : Spins → Spins} {l : Spins} {addr : Spinlock → Address} {s : Spinlock}

def kernel (l : Spins) (addr : Spinlock → Address) : Locks where
  status s := l.status (addr s)
  lockcount := l.lockcount
  releaseIntr := l.releaseIntr
  intr := l.intr

theorem update_addr (ha : Function.Injective addr) {b : UInt8} :
    (fun u => Function.update l.status (addr s) b (addr u)) =
      Function.update (fun u => l.status (addr u)) s b :=
  funext fun u => by by_cases hu : u = s <;> simp [hu, ha.eq_iff]

theorem kernel_simpleLockTry (ha : Function.Injective addr) (hs : l.status (addr s) ≠ 1) :
    (simpleLockTry complain (addr s) l).kernel addr = (l.kernel addr).lock s := by
  unfold simpleLockTry Locks.lock kernel
  dsimp only
  rw [if_neg hs]
  split <;> simp only [update_addr ha]

theorem kernel_simpleLockUnlock (ha : Function.Injective addr) (hs : l.status (addr s) ≠ 0) :
    (simpleLockUnlock complain (addr s) l).kernel addr = (l.kernel addr).unlock s := by
  unfold simpleLockUnlock Locks.unlock kernel
  dsimp only
  rw [if_neg hs]
  split
  · split <;> simp only [update_addr ha]
  · simp only [update_addr ha]

end Spins

end Kernel

end NSOS.Spin
