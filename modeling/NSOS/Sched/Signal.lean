import NSOS.Sched.Pool

/-! # What a signal reads

The loop of `kmt_sem_signal` follows the pointer of each slot up to the first
thread that waits for the semaphore, without a test for empty slots. When all
these slots are occupied, the thread in the last one is woken and nothing else
happens. When one of them is empty, a null pointer is followed.
-/

namespace NSOS.Sched

open Basis
open Spin (STACK_MAGIC scan)
open Vfs (KERNEL_MAX_THREAD)

variable {R : Type}

namespace Pool

section Signal

variable (k : Pool R) (sem : ℕ)

def looksAsleep (u : ℕ) : Bool :=
  (k.thread (k.threadPool u)).sleep && (k.thread (k.threadPool u)).currentWaiting = sem

/-- The loop of `kmt_sem_signal` over `n` slots from slot `i` on: the slots whose pointers it
follows, and the slot where it stops. -/
def signalLoop : ℕ → ℕ → List ℕ × ℕ
  | 0, i => ([], i)
  | n + 1, i =>
    if k.looksAsleep sem i then ([i], i)
    else
      let (read, j) := signalLoop n (i + 1)
      (i :: read, j)

/-- `kmt_sem_signal`, with the slots whose pointers it follows. -/
def semSignal : List ℕ × Pool R :=
  let k := { k with count := Function.update k.count sem (toInt (k.count sem + 1)) }
  let (read, i) := k.signalLoop sem KERNEL_MAX_THREAD.toNat 1
  if i ≤ KERNEL_MAX_THREAD then
    (read, k.setThread (k.threadPool i) fun th => { th with sleep := false, currentWaiting := 0 })
  else (read, k)

/-- An occupied slot whose thread is asleep and waits for the semaphore. -/
structure Waits (u : ℕ) : Prop where
  pos : 0 < u
  le : u ≤ KERNEL_MAX_THREAD.toNat
  occupied : k.threadPool u ≠ 0
  asleep : k.looksAsleep sem u = true

/-- What a signal should do. -/
structure Signals : Prop where
  occupied : ∀ u ∈ (k.semSignal sem).1, k.threadPool u ≠ 0
  count : (k.semSignal sem).2.count =
    Function.update k.count sem (toInt (k.count sem + 1))
  /-- The thread in the lowest slot is woken, and no other thread changes. -/
  wakes : ∀ u, k.Waits sem u → (∀ v < u, ¬ k.Waits sem v) →
    (k.semSignal sem).2.thread = Function.update k.thread (k.threadPool u)
      { k.thread (k.threadPool u) with sleep := false, currentWaiting := 0 }
  /-- Without a waiting thread none changes. -/
  quiet : (∀ u, ¬ k.Waits sem u) → (k.semSignal sem).2.thread = k.thread

/-- There is no empty slot up to the first waiting thread, or none at all. -/
def Covered : Prop := ∀ u, 0 < u → u ≤ KERNEL_MAX_THREAD.toNat →
  (∀ v < u, ¬ k.Waits sem v) → k.threadPool u ≠ 0

end Signal

section Loop

variable {k : Pool R} {sem n i j u : ℕ}

theorem mem_signalLoop : u ∈ (k.signalLoop sem n i).1 ↔
    i ≤ u ∧ u < i + n ∧ ∀ v, i ≤ v → v < u → k.looksAsleep sem v = false := by
  induction n generalizing i with
  | zero =>
    simp only [signalLoop, List.not_mem_nil, false_iff]
    omega
  | succ n ih =>
    rw [signalLoop]
    by_cases hi : k.looksAsleep sem i = true
    · rw [if_pos hi, List.mem_singleton]
      constructor
      · rintro rfl
        exact ⟨le_rfl, by omega, fun v h₁ h₂ => absurd h₂ h₁.not_gt⟩
      · rintro ⟨hle, -, hnone⟩
        rcases hle.eq_or_lt with rfl | hlt
        · rfl
        · rw [hnone i le_rfl hlt] at hi
          cases hi
    · rw [if_neg hi]
      dsimp only
      rw [List.mem_cons, ih]
      constructor
      · rintro (rfl | ⟨hle, hlt, hnone⟩)
        · exact ⟨le_rfl, by omega, fun v h₁ h₂ => absurd h₂ h₁.not_gt⟩
        · refine ⟨by omega, by omega, fun v h₁ h₂ => ?_⟩
          rcases h₁.eq_or_lt with rfl | hlt'
          · exact Bool.eq_false_of_not_eq_true hi
          · exact hnone v hlt' h₂
      · rintro ⟨hle, hlt, hnone⟩
        rcases hle.eq_or_lt with rfl | hlt'
        · exact .inl rfl
        · exact .inr ⟨hlt', by omega, fun v h₁ h₂ => hnone v (by omega) h₂⟩

theorem signalLoop_found (hj : k.looksAsleep sem j = true) (h₁ : i ≤ j) (h₂ : j < i + n)
    (hnone : ∀ v, i ≤ v → v < j → k.looksAsleep sem v = false) :
    (k.signalLoop sem n i).2 = j := by
  induction n generalizing i with
  | zero => omega
  | succ n ih =>
    rw [signalLoop]
    rcases h₁.eq_or_lt with rfl | hlt
    · rw [if_pos hj]
    · rw [if_neg (by rw [hnone i le_rfl hlt]; decide)]
      exact ih hlt (by omega) fun v hv => hnone v (by omega)

theorem signalLoop_none (hnone : ∀ v, i ≤ v → v < i + n → k.looksAsleep sem v = false) :
    (k.signalLoop sem n i).2 = i + n := by
  induction n generalizing i with
  | zero => rfl
  | succ n ih =>
    rw [signalLoop, if_neg (by rw [hnone i le_rfl (by omega)]; decide)]
    exact (ih fun v h₁ h₂ => hnone v (by omega) (by omega)).trans (by omega)

end Loop

section Woken

variable {k : Pool R} {sem u : ℕ}

theorem mem_semSignal : u ∈ (k.semSignal sem).1 ↔ 0 < u ∧ u ≤ KERNEL_MAX_THREAD.toNat ∧
    ∀ v, 0 < v → v < u → k.looksAsleep sem v = false := by
  have hread : (k.semSignal sem).1 = (signalLoop
      { k with count := Function.update k.count sem (toInt (k.count sem + 1)) }
      sem KERNEL_MAX_THREAD.toNat 1).1 := by
    unfold semSignal
    dsimp only
    split <;> rfl
  rw [hread, mem_signalLoop]
  apply and_congr_right
  intro hpos
  apply and_congr_left
  intro hnone
  omega

theorem semSignal_found (hpos : 0 < u) (hle : u ≤ KERNEL_MAX_THREAD.toNat)
    (hu : k.looksAsleep sem u = true) (hnone : ∀ v, 0 < v → v < u → k.looksAsleep sem v = false) :
    (k.semSignal sem).2 = { k with
      count := Function.update k.count sem (toInt (k.count sem + 1))
      thread := Function.update k.thread (k.threadPool u)
        { k.thread (k.threadPool u) with sleep := false, currentWaiting := 0 } } := by
  have hi : (signalLoop { k with count := Function.update k.count sem (toInt (k.count sem + 1)) }
      sem KERNEL_MAX_THREAD.toNat 1).2 = u := signalLoop_found hu hpos (by omega) hnone
  have hmax : (u : ℤ) ≤ KERNEL_MAX_THREAD := by
    have : (KERNEL_MAX_THREAD.toNat : ℤ) = KERNEL_MAX_THREAD := rfl
    omega
  unfold semSignal
  dsimp only
  rw [hi, if_pos hmax]
  rfl

theorem semSignal_none
    (hnone : ∀ v, 0 < v → v ≤ KERNEL_MAX_THREAD.toNat → k.looksAsleep sem v = false) :
    (k.semSignal sem).2 =
      { k with count := Function.update k.count sem (toInt (k.count sem + 1)) } := by
  have hi : (signalLoop { k with count := Function.update k.count sem (toInt (k.count sem + 1)) }
      sem KERNEL_MAX_THREAD.toNat 1).2 = 1 + KERNEL_MAX_THREAD.toNat :=
    signalLoop_none fun v h₁ h₂ => hnone v h₁ (by omega)
  have hmax : ¬((1 + KERNEL_MAX_THREAD.toNat : ℕ) : ℤ) ≤ KERNEL_MAX_THREAD := by decide
  unfold semSignal
  dsimp only
  rw [hi, if_neg hmax]

theorem semSignal_count : (k.semSignal sem).2.count =
    Function.update k.count sem (toInt (k.count sem + 1)) := by
  unfold semSignal
  dsimp only
  split <;> rfl

theorem Covered.not_looksAsleep (hc : k.Covered sem) (hu : u ≤ KERNEL_MAX_THREAD.toNat)
    (hnone : ∀ v ≤ u, ¬ k.Waits sem v) {v : ℕ} (hpos : 0 < v) (hv : v ≤ u) :
    k.looksAsleep sem v = false := by
  have hocc : k.threadPool v ≠ 0 :=
    hc v hpos (hv.trans hu) fun w hw => hnone w (hw.le.trans hv)
  apply Bool.eq_false_of_not_eq_true
  intro hlook
  exact hnone v hv ⟨hpos, hv.trans hu, hocc, hlook⟩

theorem Covered.signals (hc : k.Covered sem) : k.Signals sem := by
  constructor
  · rintro u hu
    obtain ⟨hpos, hle, hnone⟩ := mem_semSignal.mp hu
    apply hc u hpos hle
    rintro v hv hw
    exact Bool.false_ne_true ((hnone v hw.pos hv).symm.trans hw.asleep)
  · exact semSignal_count
  · rintro u hu hfirst
    rw [semSignal_found hu.pos hu.le hu.asleep]
    rintro v hpos hv
    exact hc.not_looksAsleep (u := v) (hv.le.trans hu.le)
      (fun w hw => hfirst w (hw.trans_lt hv)) hpos le_rfl
  · rintro hquiet
    rw [semSignal_none]
    rintro v hpos hv
    exact hc.not_looksAsleep hv (fun w _ => hquiet w) hpos le_rfl

theorem Signals.covered (hs : k.Signals sem) : k.Covered sem := by
  rintro u hpos hle hfirst
  apply hs.occupied u
  apply mem_semSignal.mpr ⟨hpos, hle, _⟩
  -- the first slot that looks asleep is read, so it is occupied
  intro v
  induction v using Nat.strong_induction_on with
  | h v ih =>
    rintro hv hlt
    apply Bool.eq_false_of_not_eq_true
    intro hlook
    have hocc : k.threadPool v ≠ 0 := hs.occupied v (mem_semSignal.mpr
      ⟨hv, hlt.le.trans hle, fun w hw hwv => ih w hwv hw (hwv.trans hlt)⟩)
    exact hfirst v hlt ⟨hv, hlt.le.trans hle, hocc, hlook⟩

/-- A signal does what it should exactly when no empty slot comes before the first thread that
waits for the semaphore. -/
theorem signals_iff_covered (k : Pool R) (sem : ℕ) : k.Signals sem ↔ k.Covered sem :=
  ⟨Signals.covered, Covered.signals⟩

/-- Only launchd is there when the system starts. Slot 2 is empty, and a signal follows it. -/
theorem started_not_signals : ¬ ∀ (k : Pool Unit), k.Reach → ∀ sem, k.Signals sem := by
  intro hall
  set k : Pool Unit :=
    { threadPool := fun u => if u = 1 then 1 else if u = 0 ∨ u = 1025 then THREAD_POOL_MAGIC else 0
      thread := fun _ => ⟨(), false, 0, STACK_MAGIC, STACK_MAGIC⟩
      currentThreadIndex := -1
      count := fun _ => 0 } with hk
  have hstart : k.Started := by
    constructor
    · rfl
    · rfl
    · decide
    · rintro u h₁ h₂
      have hmax : KERNEL_MAX_THREAD.toNat = 1024 := rfl
      rw [hk]
      dsimp only
      rw [if_neg (by omega), if_neg (by omega)]
    · rfl
    · exact ⟨rfl, rfl⟩
    · rfl
  have hsignals : k.Signals 1 := hall k ⟨k, hstart, .refl⟩ 1
  apply hsignals.occupied 2
  · apply mem_semSignal.mpr ⟨by decide, by decide, fun _ _ _ => rfl⟩
  · rfl

end Woken

section Agree

variable {k : Pool R} {sem n i : ℕ}

theorem signalLoop_eq_scan (h : ∀ v, i ≤ v → v < i + n →
    (∀ w, i ≤ w → w < v → k.looksAsleep sem w = false) → k.threadPool v ≠ 0) :
    (k.signalLoop sem n i).2 = scan (fun u => k.threadPool u ≠ 0 ∧
      (k.thread (k.threadPool u)).sleep = true ∧
      (k.thread (k.threadPool u)).currentWaiting = sem) n i := by
  induction n generalizing i with
  | zero => rfl
  | succ n ih =>
    have hocc : k.threadPool i ≠ 0 :=
      h i le_rfl (by omega) fun w h₁ h₂ => absurd h₂ h₁.not_gt
    rw [signalLoop, scan]
    by_cases hi : k.looksAsleep sem i = true
    · rw [if_pos hi, if_pos]
      simpa [hocc, looksAsleep] using hi
    · rw [if_neg hi, if_neg (by simpa [hocc, looksAsleep] using hi)]
      apply ih
      rintro v h₁ h₂ hnone
      apply h v (by omega) (by omega)
      rintro w h₃ h₄
      rcases h₃.eq_or_lt with rfl | hlt
      · exact Bool.eq_false_of_not_eq_true hi
      · exact hnone w hlt h₄

/-- In a covered pool the signal is the one that skips empty slots. -/
theorem Covered.semSignal_eq (hc : k.Covered sem) : (k.semSignal sem).2 = k.kmtSemSignal sem := by
  have hscan : (signalLoop { k with count := Function.update k.count sem (toInt (k.count sem + 1)) }
      sem KERNEL_MAX_THREAD.toNat 1).2 = _ := signalLoop_eq_scan (by
    rintro v h₁ h₂ hnone
    apply hc v h₁ (by omega)
    rintro w hw hwait
    exact Bool.false_ne_true ((hnone w hwait.pos hw).symm.trans hwait.asleep))
  unfold semSignal kmtSemSignal
  dsimp only at hscan ⊢
  rw [hscan]
  split
  · next hle => exact (if_pos hle).symm
  · next hle => exact (if_neg hle).symm

end Agree

end Pool

end NSOS.Sched
