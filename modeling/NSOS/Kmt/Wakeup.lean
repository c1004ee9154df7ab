import NSOS.Kmt.Semaphore
import Mathlib.Data.Set.Card

/-! # No wake-up is lost

A thread that signals holds the spin lock from the increment of the count to
the wake-up, and a thread that waits holds it from its test to the decrement
or to the mark that it sleeps. While a thread sleeps on a semaphore, each unit
of its count is matched by a thread that was woken from it and has not tested
the count again, or by the one that holds the lock.
-/

namespace NSOS.Kmt

open Basis

variable {ι σ κ α : Type} {n : ℕ}

section Predicates

/-- The statements between locking and unlocking `semaphore_lock`. -/
def WaitPc.locked : WaitPc → Bool
  | .lock | .spin | .relock => false
  | _ => true

def SignalPc.locked : SignalPc n → Bool
  | .lock => false
  | _ => true

def Phase.locked : Phase ι σ κ α n → Bool
  | .waiting _ _ pc _ => pc.locked
  | .signalling _ _ pc _ => pc.locked
  | _ => false

/-- The statements of a waiter that test the count again before they sleep again. -/
def WaitPc.rechecks : WaitPc → Bool
  | .spin | .relock | .test true => true
  | _ => false

def Phase.Rechecks (ph : Phase ι σ κ α n) (s : ι) : Prop :=
  match ph with
  | .waiting _ s' pc _ => s' = s ∧ pc.rechecks = true
  | _ => False

/-- The running thread is about to take a unit of `s`, or to wake a thread for one. -/
def Phase.Owes (ph : Phase ι σ κ α n) (s : ι) : Prop :=
  match ph with
  | .waiting _ s' .take _ => s' = s
  | .signalling _ s' (.scan _) _ => s' = s
  | .signalling _ s' (.wake _) _ => s' = s
  | _ => False

namespace Kernel

variable (k : Kernel ι σ κ α n) (t : Fin n) (s : ι)

def Asleep : Prop := k.sleep t = true ∧ k.currentWaiting t = some s

/-- The thread was woken from the semaphore and has not tested its count again. -/
def Woken : Prop := k.sleep t = false ∧ (k.phase t).Rechecks s

def Pending : Prop := k.Woken t s ∨ (k.phase t).Owes s

variable [DecidableEq ι]

def Here : Prop :=
  match k.phase k.current with
  | .waiting _ s .mark _ => k.count s = 0
  | .waiting _ s .sleep _ => k.count s = 0 ∧ k.currentWaiting k.current = some s
  | .waiting _ s .take _ => 0 < k.count s
  | .signalling _ s (.scan i) _ => ∀ j : Fin n, j.val < i → ¬ k.Asleep j s
  | .signalling _ s (.wake i) _ => k.Asleep i s
  | .signalling _ _ (.clear i) _ => k.sleep i = false
  | _ => True

end Kernel

theorem Phase.not_owes {ph : Phase ι σ κ α n} {s : ι} (hl : ph.locked = false) : ¬ ph.Owes s := by
  unfold Owes
  split <;> first | exact id | simp [locked, WaitPc.locked, SignalPc.locked] at hl

/-- Only the running thread may hold the spin lock, and interrupts are disabled just then. -/
structure LockInv (k : Kernel ι σ κ α n) : Prop where
  others : ∀ t, t ≠ k.current → (k.phase t).locked = false
  held : (k.phase k.current).locked = true → k.lock = .held
  free : (k.phase k.current).locked = false → ∃ r, k.lock = .free r

variable [DecidableEq ι]

/-- The relation between the count, the sleepers and the woken threads of each semaphore. -/
structure SemInv (c₀ : ι → ℤ) (k : Kernel ι σ κ α n) : Prop extends LockInv k where
  asleep : ∀ t, k.sleep t = true → ∃ c s pc p, k.phase t = .waiting c s pc p ∧
    (pc = .unlock ∨ pc = .spin) ∧ k.currentWaiting t = some s
  here : k.Here
  balance : ∀ s, k.count s = c₀ s + k.signals s - k.waits s
  range : ∀ s, 0 ≤ k.count s ∧ k.count s < 2 ^ 31
  wakeups : ∀ s, (∃ t, k.Asleep t s) → k.count s ≤ {t | k.Pending t s}.ncard

end Predicates

section Facts

variable {k : Kernel ι σ κ α n}

theorem Kernel.here_of_unlocked (hl : (k.phase k.current).locked = false) : k.Here := by
  unfold Here
  split <;> first | trivial | (rename_i hp; simp [hp, Phase.locked, WaitPc.locked,
    SignalPc.locked] at hl)

end Facts

section Card

variable {P Q : Fin n → Prop} {t u : Fin n}

theorem ncard_mono (h : ∀ v, P v → Q v) : {v | P v}.ncard ≤ {v | Q v}.ncard :=
  Set.ncard_le_ncard h (Set.toFinite _)

theorem ncard_lose (h : ∀ v, v ≠ t → P v → Q v) : {v | P v}.ncard ≤ {v | Q v}.ncard + 1 := by
  have hsub : {v | P v} ⊆ insert t {v | Q v} := fun v hv => by
    by_cases hvt : v = t
    · exact Or.inl hvt
    · exact Or.inr (h v hvt hv)
  exact (Set.ncard_le_ncard hsub (Set.toFinite _)).trans (Set.ncard_insert_le t _)

theorem ncard_gain (h : ∀ v, P v → Q v) (hp : ¬ P t) (hq : Q t) :
    {v | P v}.ncard + 1 ≤ {v | Q v}.ncard := by
  rw [← Set.ncard_insert_of_notMem (a := t) (s := {v | P v}) hp (Set.toFinite _)]
  refine Set.ncard_le_ncard ?_ (Set.toFinite _)
  rintro v (rfl | hv)
  · exact hq
  · exact h v hv

theorem ncard_swap (h : ∀ v, v ≠ t → P v → Q v) (hp : ¬ P u) (hq : Q u) :
    {v | P v}.ncard ≤ {v | Q v}.ncard := by
  have h₁ : {v | P v}.ncard ≤ {v | Q v ∧ v ≠ u}.ncard + 1 :=
    ncard_lose (t := t) fun v hv hP => ⟨h v hv hP, fun hu => hp (hu ▸ hP)⟩
  have h₂ : {v | Q v ∧ v ≠ u}.ncard + 1 ≤ {v | Q v}.ncard :=
    ncard_gain (t := u) (fun v hv => hv.1) (fun hu => hu.2 rfl) hq
  exact h₁.trans h₂

end Card

section Locks

variable {k k' : Kernel ι σ κ α n} {ph : Phase ι σ κ α n}

theorem LockInv.intr (h : LockInv k) (hi : k.lock.intr = true) (t : Fin n) :
    (k.phase t).locked = false := by
  by_cases ht : t = k.current
  · by_contra hl
    rw [Bool.not_eq_false] at hl
    rw [h.held (ht ▸ hl)] at hi
    cases hi
  · exact h.others t ht

theorem LockInv.move (h : LockInv k) (hcur : k'.current = k.current)
    (hph : k'.phase = Function.update k.phase k.current ph)
    (hh : ph.locked = true → k'.lock = .held)
    (hf : ph.locked = false → ∃ r, k'.lock = .free r) : LockInv k' := by
  refine ⟨fun t ht => ?_, ?_, ?_⟩
  · rw [hcur] at ht
    rw [hph, Function.update_of_ne ht]
    exact h.others t ht
  · rwa [hcur, hph, Function.update_self]
  · rwa [hcur, hph, Function.update_self]

end Locks

section Moves

variable [DecidableEq ι] {c₀ : ι → ℤ} {k k' : Kernel ι σ κ α n} {ph : Phase ι σ κ α n}
  {c : κ} {s : ι} {p : Prog ι σ α}

theorem SemInv.move (h : SemInv c₀ k) (hl : LockInv k')
    (hph : k'.phase = Function.update k.phase k.current ph)
    (hcount : k'.count = k.count) (hsleep : k'.sleep = k.sleep)
    (hwait : k'.currentWaiting = k.currentWaiting)
    (hbal : ∀ s, k'.signals s = k.signals s ∧ k'.waits s = k.waits s)
    (hasleep : k.sleep k.current = true → ∃ c s p, ph = .waiting c s .spin p ∧
      k.currentWaiting k.current = some s) (hhere : k'.Here)
    (hpend : ∀ s, k.count s = 0 ∨ (¬ ∃ t, k.Asleep t s) ∨
      (k.Pending k.current s → k'.Pending k.current s)) : SemInv c₀ k' where
  toLockInv := hl
  asleep t ht := by
    rw [hsleep] at ht
    rw [hph, hwait]
    by_cases htc : t = k.current
    · subst htc
      obtain ⟨c, s, p, rfl, hs⟩ := hasleep ht
      exact ⟨c, s, .spin, p, Function.update_self .., Or.inr rfl, hs⟩
    · rw [Function.update_of_ne htc]
      exact h.asleep t ht
  here := hhere
  balance s := by
    obtain ⟨h₁, h₂⟩ := hbal s
    rw [hcount, h₁, h₂]
    exact h.balance s
  range := hcount ▸ h.range
  wakeups s := by
    rintro ⟨t, ht⟩
    have ht' : k.Asleep t s := by rwa [Kernel.Asleep, ← hsleep, ← hwait]
    rw [hcount]
    have hold := h.wakeups s ⟨t, ht'⟩
    rcases hpend s with h₀ | h₀ | h₀
    · rw [h₀]
      exact Int.natCast_nonneg _
    · exact absurd ⟨t, ht'⟩ h₀
    · refine hold.trans (Int.ofNat_le.mpr (ncard_mono fun v hv => ?_))
      by_cases hvc : v = k.current
      · exact hvc ▸ h₀ (hvc ▸ hv)
      · rwa [Kernel.Pending, Kernel.Woken, hsleep, hph, Function.update_of_ne hvc]

theorem SemInv.sleep_eq_false (h : SemInv c₀ k) {t : Fin n}
    (hu : ∀ c s p, k.phase t ≠ .waiting c s .unlock p)
    (hs : ∀ c s p, k.phase t ≠ .waiting c s .spin p) : k.sleep t = false := by
  by_contra ht
  rw [Bool.not_eq_false] at ht
  obtain ⟨c, s, pc, p, hp, rfl | rfl, -⟩ := h.asleep t ht
  · exact hu c s p hp
  · exact hs c s p hp

theorem SemInv.lock (h : SemInv c₀ k) (hf : (k.phase k.current).locked = false)
    (hsl : k.sleep k.current = false) (hl : ph.locked = true)
    (hhere : ({ k with lock := simpleLockTry k.lock }.goto ph).Here)
    (hpend : ∀ s, (k.phase k.current).Rechecks s → ph.Rechecks s)
    (howes : ∀ s, ¬ (k.phase k.current).Owes s) :
    SemInv c₀ ({ k with lock := simpleLockTry k.lock }.goto ph) := by
  obtain ⟨r, hr⟩ := h.free hf
  refine h.move (h.toLockInv.move rfl rfl (fun _ => ?_) (by simp [hl])) rfl rfl rfl rfl
    (fun _ => ⟨rfl, rfl⟩) (by simp [hsl]) hhere fun s => Or.inr (Or.inr ?_)
  · simp [Kernel.goto, hr]
  · rintro (⟨h₁, h₂⟩ | h₂)
    · exact Or.inl ⟨h₁, by simpa [Kernel.goto] using hpend s h₂⟩
    · exact absurd h₂ (howes s)

theorem SemInv.unlock (h : SemInv c₀ k) (ht : (k.phase k.current).locked = true)
    (hl : ph.locked = false)
    (hasleep : k.sleep k.current = true → ∃ c s p, ph = .waiting c s .spin p ∧
      k.currentWaiting k.current = some s)
    (hhere : ({ k with lock := simpleLockUnlock k.lock }.goto ph).Here)
    (hrech : ∀ s, ¬ (k.phase k.current).Rechecks s) (howes : ∀ s, ¬ (k.phase k.current).Owes s) :
    SemInv c₀ ({ k with lock := simpleLockUnlock k.lock }.goto ph) := by
  refine h.move (h.toLockInv.move rfl rfl (by simp [hl]) fun _ => ⟨true, ?_⟩) rfl rfl rfl rfl
    (fun _ => ⟨rfl, rfl⟩) hasleep hhere fun s => Or.inr (Or.inr ?_)
  · simp [Kernel.goto, h.held ht]
  · rintro (⟨-, h₂⟩ | h₂)
    · exact absurd h₂ (hrech s)
    · exact absurd h₂ (howes s)

theorem SemInv.goto (h : SemInv c₀ k) (hl : ph.locked = (k.phase k.current).locked)
    (hsl : k.sleep k.current = false) (hhere : (k.goto ph).Here)
    (hpend : ∀ s, k.count s = 0 ∨ (¬ ∃ t, k.Asleep t s) ∨
      (k.Pending k.current s → (k.goto ph).Pending k.current s)) : SemInv c₀ (k.goto ph) :=
  h.move (h.toLockInv.move rfl rfl (fun ht => h.held (hl ▸ ht)) fun hf => h.free (hl ▸ hf))
    rfl rfl rfl rfl (fun _ => ⟨rfl, rfl⟩) (by simp [hsl]) hhere hpend

end Moves

section Wait

variable [DecidableEq ι] {c₀ : ι → ℤ} {k : Kernel ι σ κ α n} {c : κ} {s : ι} {p : Prog ι σ α}

theorem SemInv.test (h : SemInv c₀ k) {again : Bool}
    (hp : k.phase k.current = .waiting c s (.test again) p) :
    SemInv c₀ (waitStep k c s p (.test again)) := by
  have hsl := h.sleep_eq_false (t := k.current) (by simp [hp]) (by simp [hp])
  rw [waitStep]
  split
  · rename_i h₀
    refine h.goto (by simp [hp, Phase.locked, WaitPc.locked]) hsl
      (by simpa [Kernel.Here, Kernel.goto] using h₀) fun s' => ?_
    by_cases hs : s' = s
    · exact Or.inl (hs ▸ h₀)
    · refine Or.inr (Or.inr ?_)
      rintro (⟨-, h₂⟩ | h₂) <;> simp [hp, Phase.Rechecks, Phase.Owes, Ne.symm hs] at h₂
  · rename_i h₀
    have hpos : 0 < k.count s := lt_of_le_of_ne (h.range s).1 (Ne.symm h₀)
    refine h.goto (by simp [hp, Phase.locked, WaitPc.locked]) hsl
      (by simpa [Kernel.Here, Kernel.goto] using hpos) fun s' => Or.inr (Or.inr ?_)
    rintro (⟨-, h₂⟩ | h₂)
    · simp only [hp, Phase.Rechecks] at h₂
      exact Or.inr (by simp [Kernel.goto, Phase.Owes, h₂.1])
    · simp [hp, Phase.Owes] at h₂

theorem SemInv.mark (h : SemInv c₀ k) (hp : k.phase k.current = .waiting c s .mark p) :
    SemInv c₀ (waitStep k c s p .mark) := by
  have hsl := h.sleep_eq_false (t := k.current) (by simp [hp]) (by simp [hp])
  have hzero : k.count s = 0 := by simpa [Kernel.Here, hp] using h.here
  have hne : ∀ t, k.sleep t = true → t ≠ k.current := by
    rintro t ht rfl
    rw [hsl] at ht
    cases ht
  refine ⟨h.toLockInv.move rfl rfl (fun _ => h.held ?_) ?_, fun t ht => ?_, ?_, h.balance, h.range,
    fun s' => ?_⟩
  · simp [hp, Phase.locked, WaitPc.locked]
  · simp [Phase.locked, WaitPc.locked]
  · have := hne t ht
    simpa [Kmt.waitStep, Kernel.goto, Function.update_of_ne this] using h.asleep t ht
  · simp [Kmt.waitStep, Kernel.Here, Kernel.goto, hzero]
  · rintro ⟨t, ht, hw⟩
    have htc := hne t ht
    simp only [Kmt.waitStep, Kernel.goto, Function.update_of_ne htc] at hw
    refine (h.wakeups s' ⟨t, ht, hw⟩).trans (Int.ofNat_le.mpr (ncard_mono fun v hv => ?_))
    by_cases hvc : v = k.current
    · simp [hvc, Kernel.Pending, Kernel.Woken, hp, Phase.Rechecks, Phase.Owes,
        WaitPc.rechecks] at hv
    · simpa [Kmt.waitStep, Kernel.goto, Kernel.Pending, Kernel.Woken, hvc] using hv

/-- A thread only falls asleep on a semaphore whose count is zero. -/
theorem SemInv.fallAsleep (h : SemInv c₀ k) (hp : k.phase k.current = .waiting c s .sleep p) :
    SemInv c₀ (waitStep k c s p .sleep) := by
  obtain ⟨hzero, hw⟩ : k.count s = 0 ∧ k.currentWaiting k.current = some s := by
    simpa [Kernel.Here, hp] using h.here
  refine ⟨h.toLockInv.move rfl rfl (fun _ => h.held ?_) ?_, fun t ht => ?_, ?_, h.balance, h.range,
    fun s' => ?_⟩
  · simp [hp, Phase.locked, WaitPc.locked]
  · simp [Phase.locked, WaitPc.locked]
  · by_cases htc : t = k.current
    · subst htc
      exact ⟨c, s, .unlock, p, by simp [Kmt.waitStep, Kernel.goto], Or.inl rfl, hw⟩
    · simp only [Kmt.waitStep, Kernel.goto, Function.update_of_ne htc] at ht ⊢
      exact h.asleep t ht
  · simp [Kmt.waitStep, Kernel.Here, Kernel.goto]
  · rintro ⟨t, ht, hw'⟩
    by_cases htc : t = k.current
    · subst htc
      obtain rfl : s = s' := Option.some.inj (hw.symm.trans hw')
      exact hzero.le.trans (Int.natCast_nonneg _)
    · simp only [Kmt.waitStep, Kernel.goto, Function.update_of_ne htc] at ht
      refine (h.wakeups s' ⟨t, ht, hw'⟩).trans (Int.ofNat_le.mpr (ncard_mono fun v hv => ?_))
      by_cases hvc : v = k.current
      · simp [hvc, Kernel.Pending, Kernel.Woken, hp, Phase.Rechecks, Phase.Owes,
          WaitPc.rechecks] at hv
      · simpa [Kmt.waitStep, Kernel.goto, Kernel.Pending, Kernel.Woken, hvc] using hv

theorem SemInv.spin (h : SemInv c₀ k) (hp : k.phase k.current = .waiting c s .spin p) :
    SemInv c₀ (waitStep k c s p .spin) := by
  rw [Kmt.waitStep]
  split
  · exact h
  · rename_i hsl
    refine h.goto ?_ (by simpa using hsl) ?_ fun s' => Or.inr (Or.inr ?_)
    · simp [hp, Phase.locked, WaitPc.locked]
    · simp [Kernel.Here, Kernel.goto]
    · simp [Kernel.Pending, Kernel.Woken, Kernel.goto, hp, Phase.Rechecks, Phase.Owes,
        WaitPc.rechecks]

theorem SemInv.take (h : SemInv c₀ k) (hp : k.phase k.current = .waiting c s .take p) :
    SemInv c₀ (waitStep k c s p .take) := by
  have hpos : 0 < k.count s := by simpa [Kernel.Here, hp] using h.here
  have hint : toInt (k.count s - 1) = k.count s - 1 := by
    have := h.range s
    exact toInt_of_range (by omega) (by omega)
  have hsl := h.sleep_eq_false (t := k.current) (by simp [hp]) (by simp [hp])
  refine ⟨h.toLockInv.move rfl rfl (fun _ => h.held ?_) ?_, fun t ht => ?_, ?_, fun s' => ?_,
    fun s' => ?_, fun s' => ?_⟩
  · simp [hp, Phase.locked, WaitPc.locked]
  · simp [Phase.locked, WaitPc.locked]
  · have htc : t ≠ k.current := by
      rintro rfl
      rw [show (Kmt.waitStep k c s p .take).sleep = k.sleep from rfl, hsl] at ht
      cases ht
    simpa [Kmt.waitStep, Kernel.goto, Function.update_of_ne htc] using h.asleep t ht
  · simp [Kmt.waitStep, Kernel.Here, Kernel.goto]
  · have hb := h.balance s'
    have hsig : (Kmt.waitStep k c s p .take).signals s' = k.signals s' := rfl
    by_cases hs : s' = s
    · subst hs
      have hwt : (Kmt.waitStep k c s' p .take).waits s' = k.waits s' + 1 := by
        simp [Kmt.waitStep, Kernel.goto, Kernel.waits, Kernel.entries, Event.entry]
      have hct : (Kmt.waitStep k c s' p .take).count s' = k.count s' - 1 := by
        simp [Kmt.waitStep, Kernel.goto, hint]
      omega
    · have hwt : (Kmt.waitStep k c s p .take).waits s' = k.waits s' := by
        simp [Kmt.waitStep, Kernel.goto, Kernel.waits, Kernel.entries, Event.entry, Ne.symm hs]
      rwa [hsig, hwt, show (Kmt.waitStep k c s p .take).count s' = k.count s' by
        simp [Kmt.waitStep, Kernel.goto, hs]]
  · by_cases hs : s' = s
    · have hr := h.range s
      simp only [Kmt.waitStep, Kernel.goto, hs, Function.update_self, hint]
      omega
    · simpa [Kmt.waitStep, Kernel.goto, hs] using h.range s'
  · rintro ⟨t, ht, hw⟩
    have hold := h.wakeups s' ⟨t, ht, hw⟩
    by_cases hs : s' = s
    · subst hs
      have hlose : {t | k.Pending t s'}.ncard ≤
          {t | (Kmt.waitStep k c s' p .take).Pending t s'}.ncard + 1 :=
        ncard_lose (t := k.current) fun v hv hP => by
          simpa [Kmt.waitStep, Kernel.goto, Kernel.Pending, Kernel.Woken, hv] using hP
      rw [show (Kmt.waitStep k c s' p .take).count s' = k.count s' - 1 by
        simp [Kmt.waitStep, Kernel.goto, hint]]
      omega
    · simp only [Kmt.waitStep, Kernel.goto, Function.update_of_ne hs]
      refine hold.trans (Int.ofNat_le.mpr (ncard_mono fun v hv => ?_))
      by_cases hvc : v = k.current
      · simp [hvc, Kernel.Pending, Kernel.Woken, hp, Phase.Rechecks, Phase.Owes,
          WaitPc.rechecks, Ne.symm hs] at hv
      · simpa [Kernel.Pending, Kernel.Woken, hvc] using hv

theorem SemInv.waitStep (h : SemInv c₀ k) {pc : WaitPc}
    (hp : k.phase k.current = .waiting c s pc p) : SemInv c₀ (waitStep k c s p pc) := by
  cases pc with
  | lock =>
    have hsl := h.sleep_eq_false (t := k.current) (by simp [hp]) (by simp [hp])
    refine h.lock ?_ hsl ?_ ?_ ?_ ?_
    all_goals simp [hp, Phase.locked, WaitPc.locked, Kernel.Here, Kernel.goto, Phase.Rechecks,
      Phase.Owes, WaitPc.rechecks]
  | test again => exact h.test hp
  | mark => exact h.mark hp
  | sleep => exact h.fallAsleep hp
  | unlock =>
    refine h.unlock ?_ ?_ (fun ht => ?_) ?_ ?_ ?_
    · simp [hp, Phase.locked, WaitPc.locked]
    · simp [Phase.locked, WaitPc.locked]
    · obtain ⟨c', s', pc', p', hp', -, hw⟩ := h.asleep _ ht
      rw [hp] at hp'
      cases hp'
      exact ⟨c, s, p, rfl, hw⟩
    all_goals simp [hp, Kernel.Here, Kernel.goto, Phase.Rechecks, Phase.Owes, WaitPc.rechecks]
  | spin => exact h.spin hp
  | relock =>
    have hsl := h.sleep_eq_false (t := k.current) (by simp [hp]) (by simp [hp])
    refine h.lock ?_ hsl ?_ ?_ ?_ ?_
    all_goals simp [hp, Phase.locked, WaitPc.locked, Kernel.Here, Kernel.goto, Phase.Rechecks,
      Phase.Owes, WaitPc.rechecks]
  | take => exact h.take hp
  | release =>
    have hsl := h.sleep_eq_false (t := k.current) (by simp [hp]) (by simp [hp])
    refine h.unlock ?_ ?_ (by simp [hsl]) ?_ ?_ ?_
    all_goals simp [hp, Phase.locked, WaitPc.locked, Kernel.Here, Kernel.goto, Phase.Rechecks,
      Phase.Owes, WaitPc.rechecks]

end Wait

section Signal

variable [DecidableEq ι] {c₀ : ι → ℤ} {k : Kernel ι σ κ α n} {c : κ} {s : ι} {p : Prog ι σ α}

/-- The thread that adds a unit owes it to a sleeper. -/
theorem SemInv.inc (h : SemInv c₀ k) (hp : k.phase k.current = .signalling c s .inc p)
    (hmax : k.count s < 2 ^ 31 - 1) : SemInv c₀ (signalStep k c s p .inc) := by
  have hint : toInt (k.count s + 1) = k.count s + 1 := by
    have := h.range s
    exact toInt_of_range (by omega) (by omega)
  have hsl := h.sleep_eq_false (t := k.current) (by simp [hp]) (by simp [hp])
  refine ⟨h.toLockInv.move rfl rfl (fun _ => h.held ?_) ?_, fun t ht => ?_, ?_, fun s' => ?_,
    fun s' => ?_, fun s' => ?_⟩
  · simp [hp, Phase.locked, SignalPc.locked]
  · simp [Phase.locked, SignalPc.locked]
  · have htc : t ≠ k.current := by
      rintro rfl
      rw [show (signalStep k c s p .inc).sleep = k.sleep from rfl, hsl] at ht
      cases ht
    simpa [signalStep, Kernel.goto, Function.update_of_ne htc] using h.asleep t ht
  · simp [signalStep, Kernel.Here, Kernel.goto]
  · have hb := h.balance s'
    have hwt : (signalStep k c s p .inc).waits s' = k.waits s' := rfl
    by_cases hs : s' = s
    · subst hs
      have hsig : (signalStep k c s' p .inc).signals s' = k.signals s' + 1 := by
        simp [signalStep, Kernel.goto, Kernel.signals, Kernel.leaves, Event.leave]
      have hct : (signalStep k c s' p .inc).count s' = k.count s' + 1 := by
        simp [signalStep, Kernel.goto, hint]
      omega
    · have hsig : (signalStep k c s p .inc).signals s' = k.signals s' := by
        simp [signalStep, Kernel.goto, Kernel.signals, Kernel.leaves, Event.leave, Ne.symm hs]
      rwa [hsig, hwt, show (signalStep k c s p .inc).count s' = k.count s' by
        simp [signalStep, Kernel.goto, hs]]
  · by_cases hs : s' = s
    · have hr := h.range s
      simp only [signalStep, Kernel.goto, hs, Function.update_self, hint]
      omega
    · simpa [signalStep, Kernel.goto, hs] using h.range s'
  · rintro ⟨t, ht, hw⟩
    have hold := h.wakeups s' ⟨t, ht, hw⟩
    have hkeep : ∀ v, k.Pending v s' → (signalStep k c s p .inc).Pending v s' := fun v hv => by
      by_cases hvc : v = k.current
      · simp [hvc, Kernel.Pending, Kernel.Woken, hp, Phase.Rechecks, Phase.Owes] at hv
      · simpa [signalStep, Kernel.goto, Kernel.Pending, Kernel.Woken, hvc] using hv
    by_cases hs : s' = s
    · subst hs
      have hgain := ncard_gain (t := k.current) hkeep
        (by simp [Kernel.Pending, Kernel.Woken, hp, Phase.Rechecks, Phase.Owes])
        (by simp [signalStep, Kernel.goto, Kernel.Pending, Phase.Owes])
      rw [show (signalStep k c s' p .inc).count s' = k.count s' + 1 by
        simp [signalStep, Kernel.goto, hint]]
      omega
    · rw [show (signalStep k c s p .inc).count s' = k.count s' by
        simp [signalStep, Kernel.goto, hs]]
      exact hold.trans (Int.ofNat_le.mpr (ncard_mono hkeep))

theorem SemInv.scan (h : SemInv c₀ k) {i : ℕ}
    (hp : k.phase k.current = .signalling c s (.scan i) p) :
    SemInv c₀ (signalStep k c s p (.scan i)) := by
  have hsl := h.sleep_eq_false (t := k.current) (by simp [hp]) (by simp [hp])
  have hseen : ∀ j : Fin n, j.val < i → ¬ k.Asleep j s := by
    simpa [Kernel.Here, hp] using h.here
  have hstay : ∀ {pc : SignalPc n} {s' : ι}, (pc = .scan (i + 1) ∨ ∃ j, pc = .wake j) →
      k.Pending k.current s' → (k.goto (.signalling c s pc p)).Pending k.current s' := by
    rintro pc s' hpc (⟨-, h₂⟩ | h₂)
    · simp [hp, Phase.Rechecks] at h₂
    · rw [hp] at h₂
      refine Or.inr ?_
      rcases hpc with rfl | ⟨j, rfl⟩ <;> simpa [Kernel.goto, Phase.Owes] using h₂
  rw [signalStep]
  split
  · rename_i hi
    split
    · rename_i hm
      refine h.goto ?_ hsl ?_ fun s' => Or.inr (Or.inr (hstay (Or.inr ⟨_, rfl⟩)))
      · simp [hp, Phase.locked, SignalPc.locked]
      · simpa [Kernel.Here, Kernel.goto, Kernel.Asleep] using hm
    · rename_i hm
      refine h.goto ?_ hsl ?_ fun s' => Or.inr (Or.inr (hstay (Or.inl rfl)))
      · simp [hp, Phase.locked, SignalPc.locked]
      · simp only [Kernel.Here, Kernel.goto, Function.update_self]
        intro j hj
        rcases Nat.lt_succ_iff_lt_or_eq.mp hj with hj | rfl
        · exact hseen j hj
        · exact hm
  · rename_i hi
    refine h.goto ?_ hsl ?_ fun s' => Or.inr ?_
    · simp [hp, Phase.locked, SignalPc.locked]
    · simp [Kernel.Here, Kernel.goto]
    · by_cases hs : s' = s
      · exact Or.inl (hs ▸ fun ⟨t, ht⟩ => hseen t (t.isLt.trans_le (by omega)) ht)
      · refine Or.inr fun hpend => ?_
        simp [Kernel.Pending, Kernel.Woken, hp, Phase.Rechecks, Phase.Owes, Ne.symm hs] at hpend

/-- The thread woken takes the place of the one that wakes it. -/
theorem SemInv.wake (h : SemInv c₀ k) {i : Fin n}
    (hp : k.phase k.current = .signalling c s (.wake i) p) :
    SemInv c₀ (signalStep k c s p (.wake i)) := by
  obtain ⟨hsleep, hwait⟩ : k.Asleep i s := by simpa [Kernel.Here, hp] using h.here
  have hsl := h.sleep_eq_false (t := k.current) (by simp [hp]) (by simp [hp])
  have hic : i ≠ k.current := by
    rintro rfl
    rw [hsl] at hsleep
    cases hsleep
  obtain ⟨c', s', pc, p', hi, hpc, hw⟩ := h.asleep i hsleep
  obtain rfl : s' = s := Option.some.inj (hw.symm.trans hwait)
  have hspin : pc = .spin := by
    rcases hpc with rfl | rfl
    · have := h.others i hic
      simp [hi, Phase.locked, WaitPc.locked] at this
    · rfl
  subst hspin
  refine ⟨h.toLockInv.move rfl rfl (fun _ => h.held ?_) ?_, fun t ht => ?_, ?_, h.balance, h.range,
    fun s'' => ?_⟩
  · simp [hp, Phase.locked, SignalPc.locked]
  · simp [Phase.locked, SignalPc.locked]
  · by_cases hti : t = i
    · simp [signalStep, Kernel.goto, hti] at ht
    · simp only [signalStep, Kernel.goto, Function.update_of_ne hti] at ht ⊢
      have htc : t ≠ k.current := by
        rintro rfl
        rw [hsl] at ht
        cases ht
      rw [Function.update_of_ne htc]
      exact h.asleep t ht
  · simp [signalStep, Kernel.Here, Kernel.goto]
  · rintro ⟨t, ht, hw'⟩
    have hti : t ≠ i := by
      rintro rfl
      simp [signalStep, Kernel.goto] at ht
    simp only [signalStep, Kernel.goto, Function.update_of_ne hti] at ht
    refine (h.wakeups s'' ⟨t, ht, hw'⟩).trans (Int.ofNat_le.mpr ?_)
    have hkeep : ∀ v, v ≠ k.current → k.Pending v s'' →
        (signalStep k c s' p (.wake i)).Pending v s'' := fun v hv hP => by
      by_cases hvi : v = i
      · subst hvi
        simp [Kernel.Pending, Kernel.Woken, hsleep, hi, Phase.Owes] at hP
      · simpa [signalStep, Kernel.goto, Kernel.Pending, Kernel.Woken, hv, hvi] using hP
    by_cases hs : s'' = s'
    · subst hs
      refine ncard_swap (u := i) hkeep ?_ ?_
      · simp [Kernel.Pending, Kernel.Woken, hsleep, hi, Phase.Owes]
      · simp [signalStep, Kernel.goto, Kernel.Pending, Kernel.Woken, hic, hi, Phase.Rechecks,
          WaitPc.rechecks]
    · refine ncard_mono fun v hv => ?_
      by_cases hvc : v = k.current
      · simp [hvc, Kernel.Pending, Kernel.Woken, hp, Phase.Rechecks, Phase.Owes, Ne.symm hs] at hv
      · exact hkeep v hvc hv

theorem SemInv.clear (h : SemInv c₀ k) {i : Fin n}
    (hp : k.phase k.current = .signalling c s (.clear i) p) :
    SemInv c₀ (signalStep k c s p (.clear i)) := by
  have hi : k.sleep i = false := by simpa [Kernel.Here, hp] using h.here
  have hsl := h.sleep_eq_false (t := k.current) (by simp [hp]) (by simp [hp])
  have hne : ∀ t u, k.sleep t = true → k.sleep u = false → t ≠ u := by
    rintro t u ht hu rfl
    rw [hu] at ht
    cases ht
  refine ⟨h.toLockInv.move rfl rfl (fun _ => h.held ?_) ?_, fun t ht => ?_, ?_, h.balance, h.range,
    fun s' => ?_⟩
  · simp [hp, Phase.locked, SignalPc.locked]
  · simp [Phase.locked, SignalPc.locked]
  · have h₁ := hne t i ht hi
    have h₂ := hne t _ ht hsl
    simpa [signalStep, Kernel.goto, Function.update_of_ne, h₁, h₂] using h.asleep t ht
  · simp [signalStep, Kernel.Here, Kernel.goto]
  · rintro ⟨t, ht, hw⟩
    have h₁ := hne t i ht hi
    simp only [signalStep, Kernel.goto, Function.update_of_ne h₁] at hw
    refine (h.wakeups s' ⟨t, ht, hw⟩).trans (Int.ofNat_le.mpr (ncard_mono fun v hv => ?_))
    by_cases hvc : v = k.current
    · simp [hvc, Kernel.Pending, Kernel.Woken, hp, Phase.Rechecks, Phase.Owes] at hv
    · simpa [signalStep, Kernel.goto, Kernel.Pending, Kernel.Woken, hvc] using hv

theorem SemInv.signalStep (h : SemInv c₀ k) {pc : SignalPc n}
    (hp : k.phase k.current = .signalling c s pc p) (hmax : pc = .inc → k.count s < 2 ^ 31 - 1) :
    SemInv c₀ (signalStep k c s p pc) := by
  have hsl := h.sleep_eq_false (t := k.current) (by simp [hp]) (by simp [hp])
  cases pc with
  | lock =>
    refine h.lock ?_ hsl ?_ ?_ ?_ ?_
    all_goals simp [hp, Phase.locked, SignalPc.locked, Kernel.Here, Kernel.goto, Phase.Rechecks,
      Phase.Owes]
  | inc => exact h.inc hp (hmax rfl)
  | scan i => exact h.scan hp
  | wake i => exact h.wake hp
  | clear i => exact h.clear hp
  | unlock =>
    refine h.unlock ?_ ?_ (by simp [hsl]) ?_ ?_ ?_
    all_goals simp [hp, Phase.locked, SignalPc.locked, Kernel.Here, Kernel.goto, Phase.Rechecks,
      Phase.Owes]

end Signal

section Runs

variable [DecidableEq ι] {c₀ : ι → ℤ} {body : Fin n → κ → Prog ι σ α}
  {k k' : Kernel ι σ κ α n} {a : Act κ n} {x : σ} {t : Fin n}

/-- No signal meets a count of `2 ^ 31 - 1`. -/
def NoOverflow (k : Kernel ι σ κ α n) : Act κ n → Prop
  | .exec => ∀ c s p, k.phase k.current = .signalling c s .inc p → k.count s < 2 ^ 31 - 1
  | _ => True

omit [DecidableEq ι] in
theorem noOverflow_of_lt (h : ∀ s, k.count s < 2 ^ 31 - 1) : NoOverflow k a := by
  cases a with
  | exec => exact fun _ s _ _ => h s
  | call => trivial
  | switch => trivial

theorem semInv_init (h : ∀ s, 0 ≤ c₀ s ∧ c₀ s < 2 ^ 31) :
    SemInv c₀ (.init x c₀ t : Kernel ι σ κ α n) where
  others _ _ := rfl
  held hl := by simp [Kernel.init, Phase.locked] at hl
  free _ := ⟨true, rfl⟩
  asleep t ht := by simp [Kernel.init] at ht
  here := trivial
  balance s := by simp [Kernel.init, Kernel.signals, Kernel.waits, Kernel.leaves, Kernel.entries]
  range := h
  wakeups s := by simp [Kernel.init, Kernel.Asleep]

theorem SemInv.client (h : SemInv c₀ k) {ph : Phase ι σ κ α n} (hl : ph.locked = false)
    (hf : (k.phase k.current).locked = false) (hsl : k.sleep k.current = false)
    (hlock : k'.lock = k.lock) (hph : k'.phase = Function.update k.phase k.current ph)
    (hcur : k'.current = k.current) (hcount : k'.count = k.count) (hsleep : k'.sleep = k.sleep)
    (hwait : k'.currentWaiting = k.currentWaiting)
    (hbal : ∀ s, k'.signals s = k.signals s ∧ k'.waits s = k.waits s)
    (hrech : ∀ s, ¬ (k.phase k.current).Rechecks s) : SemInv c₀ k' := by
  have hl' : (k'.phase k'.current).locked = false := by rwa [hcur, hph, Function.update_self]
  refine h.move (h.toLockInv.move hcur hph (by simp [hl]) fun _ => hlock ▸ h.free hf) hph hcount
    hsleep hwait hbal (by simp [hsl]) (Kernel.here_of_unlocked hl') fun s => Or.inr (Or.inr ?_)
  rintro (⟨-, h₂⟩ | h₂)
  · exact absurd h₂ (hrech s)
  · exact absurd h₂ (Phase.not_owes hf)

theorem SemInv.advance (h : SemInv c₀ k) (ha : advance k = some k')
    (hmax : ∀ c s p, k.phase k.current = .signalling c s .inc p → k.count s < 2 ^ 31 - 1) :
    SemInv c₀ k' := by
  unfold Kmt.advance at ha
  cases hp : k.phase k.current with
  | idle => simp [hp] at ha
  | run c p =>
    have hsl := h.sleep_eq_false (t := k.current) (by simp [hp]) (by simp [hp])
    cases p with
    | stop => simp [hp] at ha
    | _ =>
      simp only [hp, Option.some.injEq] at ha
      subst ha
      refine h.client ?_ ?_ hsl rfl rfl rfl rfl rfl rfl (fun _ => ⟨rfl, rfl⟩) ?_
      all_goals simp [hp, Phase.locked, WaitPc.locked, SignalPc.locked, Phase.Rechecks]
  | waiting c s pc p =>
    simp only [hp, Option.some.injEq] at ha
    exact ha ▸ h.waitStep hp
  | signalling c s pc p =>
    simp only [hp, Option.some.injEq] at ha
    subst ha
    exact h.signalStep hp fun hpc => hmax c s p (hpc ▸ hp)

/-- Every step keeps the relation between counts, sleepers and woken threads. -/
theorem SemInv.step (h : SemInv c₀ k) (ha : NoOverflow k a) (hs : Step body k a k') :
    SemInv c₀ k' := by
  cases hs with
  | @call c hidle =>
    have hsl := h.sleep_eq_false (t := k.current) (by simp [hidle]) (by simp [hidle])
    refine h.client ?_ ?_ hsl rfl rfl rfl rfl rfl rfl (fun _ => ⟨rfl, rfl⟩) ?_
    all_goals simp [hidle, Phase.locked, Phase.Rechecks]
  | exec hx => exact h.advance hx ha
  | @switch u hintr hu =>
    have hl := h.toLockInv.intr hintr
    refine ⟨⟨fun t _ => hl t, fun ht => ?_, fun _ => h.free (hl _)⟩, h.asleep,
      Kernel.here_of_unlocked (hl u), h.balance, h.range, h.wakeups⟩
    rw [hl] at ht
    cases ht

/-- The count of a semaphore is the units left over, and none of them is lost on a sleeper. -/
structure Counted (c₀ : ι → ℤ) (k : Kernel ι σ κ α n) (s : ι) : Prop where
  nonneg : 0 ≤ k.count s
  balance : k.count s = c₀ s + k.signals s - k.waits s
  /-- Whenever another thread can run and some thread sleeps on the semaphore, as many threads
  as the count says were woken from it and have not tested it again. -/
  woken : k.lock.intr = true → (∃ u, k.Asleep u s) → k.count s ≤ {u | k.Woken u s}.ncard

/-- No wake-up is lost in a run without an overflow. -/
theorem no_lost_wakeup (h₀ : ∀ s, 0 ≤ c₀ s ∧ c₀ s < 2 ^ 31)
    (hr : Run (Step body) NoOverflow (.init x c₀ t) k) (s : ι) : Counted c₀ k s := by
  have h : SemInv c₀ k := Run.invariant hr (semInv_init h₀) fun hi hp hs => hi.step hp hs
  refine ⟨(h.range s).1, h.balance s, fun hintr hu => ?_⟩
  exact (h.wakeups s hu).trans (Int.ofNat_le.mpr (ncard_mono fun v hv =>
    hv.resolve_right (Phase.not_owes (h.toLockInv.intr hintr v))))

/-- Threads that are given their programs, with one semaphore. -/
abbrev Threads (n : ℕ) : Type := Kernel Unit Unit (Prog Unit Unit Unit) Unit n

instance decidableRechecks (ph : Phase ι σ κ α n) (s : ι) : Decidable (ph.Rechecks s) :=
  match ph with
  | .waiting _ s' pc _ => inferInstanceAs (Decidable (s' = s ∧ pc.rechecks = true))
  | .idle | .run _ _ | .signalling _ _ _ _ => isFalse id

instance decidableAsleep (k : Kernel ι σ κ α n) (t : Fin n) (s : ι) : Decidable (k.Asleep t s) :=
  inferInstanceAs (Decidable (k.sleep t = true ∧ k.currentWaiting t = some s))

instance decidableWoken (k : Kernel ι σ κ α n) (t : Fin n) (s : ι) : Decidable (k.Woken t s) :=
  inferInstanceAs (Decidable (k.sleep t = false ∧ (k.phase t).Rechecks s))

/-- Take a step while the count is below the greatest `int`. -/
abbrev performBelow : Threads n → Act (Prog Unit Unit Unit) n → Option (Threads n) :=
  guarded (perform fun _ c => c) fun k _ => k.count () < 2 ^ 31 - 1

theorem run_of_below {k₀ k : Threads n} {as : List (Act (Prog Unit Unit Unit) n)}
    (hr : replay performBelow k₀ as = some k) : Run (Step fun _ c => c) NoOverflow k₀ k :=
  (Run.of_guarded step_of_perform hr).mono fun h => noOverflow_of_lt fun _ => h

abbrev sleeps : List (Act (Prog Unit Unit Unit) n) :=
  .call (.wait () (.ret ())) :: List.replicate 6 .exec

/-- A signal that finds the greatest `int` makes the count negative, and in a signal that does
not, between the increment and the wake-up, the count is ahead of the woken threads. -/
theorem count_overflows_and_leads :
    (¬ ∀ (c₀ : Unit → ℤ) (k : Threads 1), (∀ s, 0 ≤ c₀ s ∧ c₀ s < 2 ^ 31) →
      Run (Step fun _ c => c) (fun _ _ => True) (.init () c₀ 0) k → ∀ s, Counted c₀ k s) ∧
    ¬ ∀ (c₀ : Unit → ℤ) (k : Threads 2), (∀ s, 0 ≤ c₀ s ∧ c₀ s < 2 ^ 31) →
      Run (Step fun _ c => c) NoOverflow (.init () c₀ 0) k →
      ∀ s, (∃ u, k.Asleep u s) → k.count s ≤ {u | k.Woken u s}.ncard := by
  constructor
  · intro hall
    let k₀ : Threads 1 := .init () (fun _ => 2 ^ 31 - 1) 0
    have h₀ : Run (Step fun _ c => c) (fun _ _ => True) k₀ k₀ := .refl
    have h₁ := run_call (c := .semSignal ()) h₀ trivial rfl
    have h₂ := run_exec h₁ trivial rfl
    have h₃ := run_exec h₂ trivial rfl
    have h₄ := run_exec h₃ trivial rfl
    have hneg := (hall _ _ (by decide) h₄ ()).nonneg
    revert hneg
    decide
  · intro hall
    have hruns : ((replay performBelow (.init () (fun _ => 0) 0 : Threads 2)
        (sleeps ++ [.switch 1, .call (.semSignal ()), .exec, .exec, .exec])).any fun k =>
          k.Asleep 0 () ∧ k.count () = 1 ∧ ∀ u, ¬ k.Woken u ()) = true := by decide +kernel
    obtain ⟨k, hk, hstate⟩ := (Option.any_eq_true _ _).mp hruns
    obtain ⟨hasleep, hcount, hwoken⟩ := of_decide_eq_true hstate
    have hle := hall _ k (by decide) (run_of_below hk) () ⟨0, hasleep⟩
    have hnone : {u | k.Woken u ()} = ∅ := Set.eq_empty_iff_forall_notMem.mpr hwoken
    rw [hcount, hnone, Set.ncard_empty] at hle
    exact absurd hle (by decide)

/-- Two threads sleep, and a third one signals once: while the other one still sleeps, a thread
was woken for the unit. -/
theorem no_lost_wakeup_run : ∃ k : Threads 3, k.lock.intr = true ∧ k.Asleep 1 () ∧
    k.count () = 1 ∧ Counted (fun _ => 0) k () ∧ ∃ u, k.Woken u () := by
  have hruns : ((replay performBelow (.init () (fun _ => 0) 0 : Threads 3)
      (sleeps ++ .switch 1 :: sleeps ++ .switch 2 :: .call (.semSignal ()) ::
        List.replicate 7 .exec)).any fun k =>
          k.lock.intr = true ∧ k.Asleep 1 () ∧ k.count () = 1) = true := by decide +kernel
  obtain ⟨k, hk, hstate⟩ := (Option.any_eq_true _ _).mp hruns
  obtain ⟨hintr, hasleep, hcount⟩ := of_decide_eq_true hstate
  have hcounted := no_lost_wakeup (by decide) (run_of_below hk) ()
  have hpos : 0 < {u | k.Woken u ()}.ncard := by
    have hle := hcounted.woken hintr ⟨1, hasleep⟩
    omega
  exact ⟨k, hintr, hasleep, hcount, hcounted, Set.nonempty_of_ncard_ne_zero hpos.ne'⟩

end Runs

end NSOS.Kmt
