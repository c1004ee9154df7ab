import NSOS.Sched.Pool

/-! # Turns

The scheduler selects the first slot that is occupied and awake in the cyclic
order after the running one. The slots before a waiting slot in this order get
fewer with each selection, so no slot has two turns while another one waits.
-/

namespace NSOS.Sched

open Basis
open Spin (STACK_MAGIC scanPool)
open Vfs (KERNEL_MAX_THREAD)

section Steps

variable {R : Type} {k k' : Pool R} {op : Pool.Op R}

namespace Pool

/-- What an operation does to the pool. -/
inductive Step (k : Pool R) : Op R → Pool R → Prop where
  | selected {i : UInt32} (h : k.scheduleLoop KERNEL_MAX_THREAD.toNat k.currentThreadIndex = some i) :
      Step k .schedule { k with currentThreadIndex := i }
  | created {i : ℕ} {thread : UInt32} {make : R} (hpos : 0 < i) (hle : i ≤ KERNEL_MAX_THREAD.toNat)
      (hscan : scanPool (fun u => k.threadPool u = 0) = i) (hempty : k.threadPool i = 0)
      (hthread : thread ≠ 0) : Step k (.create thread make) { k with
        threadPool := Function.update k.threadPool i thread
        thread := Function.update k.thread thread ⟨make, false, 0, STACK_MAGIC, STACK_MAGIC⟩ }
  | torn {i : ℕ} {thread : UInt32} (hpos : 0 < i) (hle : i ≤ KERNEL_MAX_THREAD.toNat)
      (hslot : k.threadPool i = thread) (hother : i ≠ k.currentThreadIndex.toNat) :
      Step k (.teardown thread) { k with threadPool := Function.update k.threadPool i 0 }
  /-- At most the semaphores change and who sleeps. -/
  | dozed {op : Op R} {thread : UInt32 → Thread R} {count : ℕ → ℤ} (hop : op ≠ .schedule)
      (hstatus : ∀ p, (thread p).status = (k.thread p).status)
      (hfenced : ∀ p, (thread p).Fenced ↔ (k.thread p).Fenced)
      (hfull : ∀ t make, op = .create t make →
        KERNEL_MAX_THREAD < scanPool fun u => k.threadPool u = 0) :
      Step k op { k with thread := thread, count := count }

theorem step_setThread {k₁ : Pool R} {t : UInt32} {f : Thread R → Thread R} {c : ℕ → ℤ}
    (hop : op ≠ .schedule) (hnew : ∀ t make, op ≠ .create t make) (hk : k₁ = { k with count := c })
    (hs : ∀ th, (f th).status = th.status) (hf : ∀ th, (f th).Fenced ↔ th.Fenced) :
    Step k op (k₁.setThread t f) := by
  subst hk
  refine .dozed hop (fun p => ?_) (fun p => ?_) fun t make he => absurd he (hnew t make)
  · rw [Function.update_apply]
    split
    case isTrue hp => rw [hp, hs]
    case isFalse => rfl
  · rw [Function.update_apply]
    split
    case isTrue hp => rw [hp, hf]
    case isFalse => rfl

theorem kmtSchedule_cases {fuel : ℕ} {t : UInt32} (h : k.kmtSchedule fuel = some (t, k')) :
    ∃ i, k.scheduleLoop fuel k.currentThreadIndex = some i ∧ t = k.threadPool i.toNat ∧
      k' = { k with currentThreadIndex := i } := by
  unfold kmtSchedule at h
  split at h
  · cases h
  split at h
  · cases h
  obtain ⟨i, hi, he⟩ := Option.map_eq_some_iff.mp h
  obtain ⟨rfl, rfl⟩ := Prod.mk.inj he
  exact ⟨i, hi, rfl, rfl⟩

theorem step_exec (h : exec k op = some k') : Step k op k' := by
  cases op with
  | schedule =>
    obtain ⟨⟨a, k₁⟩, hs, rfl⟩ := Option.map_eq_some_iff.mp h
    obtain ⟨i, hi, -, rfl⟩ := kmtSchedule_cases hs
    exact .selected hi
  | create thread make =>
    simp only [exec, kmtCreate] at h
    split at h
    case isTrue hi =>
      obtain rfl := Option.some.inj h
      exact .dozed (by simp) (fun _ => rfl) (fun _ => Iff.rfl) fun _ _ _ => hi
    case isFalse hi =>
      split at h
      · cases h
      case isFalse hthread =>
        obtain rfl := Option.some.inj h
        obtain ⟨hpos, hle, hfound⟩ := scanPool_spec (not_lt.mp hi)
        exact .created hpos hle rfl (by simpa using hfound) hthread
  | teardown thread =>
    simp only [exec, kmtTeardown] at h
    split at h
    · obtain rfl := Option.some.inj h
      exact .dozed (by simp) (fun _ => rfl) (fun _ => Iff.rfl) (by simp)
    case isFalse hi =>
      split at h
      · cases h
      case isFalse hother =>
        split at h
        · cases h
        obtain rfl := Option.some.inj h
        obtain ⟨hpos, hle, hfound⟩ := scanPool_spec (not_lt.mp hi)
        exact .torn hpos hle (by simpa using hfound) hother
  | semWait sem =>
    simp only [exec, kmtSemWait] at h
    split at h
    · cases h
    split at h
    · obtain rfl := Option.some.inj h
      exact step_setThread (by simp) (by simp) rfl (fun _ => rfl) fun _ => Iff.rfl
    · obtain rfl := Option.some.inj h
      exact .dozed (by simp) (fun _ => rfl) (fun _ => Iff.rfl) (by simp)
  | semSignal sem =>
    simp only [exec, kmtSemSignal] at h
    obtain rfl := Option.some.inj h
    split
    · exact step_setThread (by simp) (by simp) rfl (fun _ => rfl) fun _ => Iff.rfl
    · exact .dozed (by simp) (fun _ => rfl) (fun _ => Iff.rfl) (by simp)

theorem Step.currentThreadIndex_eq (h : Step k op k') (hop : op ≠ .schedule) :
    k'.currentThreadIndex = k.currentThreadIndex := by
  cases h with
  | selected => exact absurd rfl hop
  | created => rfl
  | torn => rfl
  | dozed => rfl

end Pool

end Steps

section Order

/-- The slot that comes next but `n` after `i`. -/
def slotAfter (i n : ℕ) : ℕ := (i + n) % KERNEL_MAX_THREAD.toNat + 1

/-- How many slots come before `u` in the cyclic order after `i`. -/
def turn (i u : ℕ) : ℕ :=
  (u + KERNEL_MAX_THREAD.toNat - 1 - i % KERNEL_MAX_THREAD.toNat) % KERNEL_MAX_THREAD.toNat

variable {i j u n : ℕ}

theorem max_eq : KERNEL_MAX_THREAD.toNat = 1024 := rfl

theorem slotAfter_pos : 0 < slotAfter i n := Nat.succ_pos _

theorem slotAfter_le : slotAfter i n ≤ KERNEL_MAX_THREAD.toNat :=
  Nat.mod_lt _ (by rw [max_eq]; omega)

theorem slotAfter_slotAfter : slotAfter (slotAfter i 0) n = slotAfter i (n + 1) := by
  simp only [slotAfter, max_eq]
  omega

theorem turn_lt : turn i u < KERNEL_MAX_THREAD.toNat := Nat.mod_lt _ (by rw [max_eq]; omega)

theorem slotAfter_turn (hpos : 0 < u) (hle : u ≤ KERNEL_MAX_THREAD.toNat) :
    slotAfter i (turn i u) = u := by
  simp only [slotAfter, turn, max_eq] at *
  omega

theorem turn_slotAfter (hn : n < KERNEL_MAX_THREAD.toNat) : turn i (slotAfter i n) = n := by
  simp only [slotAfter, turn, max_eq] at *
  omega

/-- After a slot with an earlier turn, the later turn comes that much sooner. -/
theorem turn_of_lt (hpos : 0 < j) (hle : j ≤ KERNEL_MAX_THREAD.toNat) (hu : 0 < u)
    (hlt : turn i j < turn i u) : turn j u + turn i j + 1 = turn i u := by
  simp only [turn, max_eq] at *
  omega

end Order

section Loop

variable {R : Type} {k k' : Pool R} {u v : ℕ} {i j : UInt32} {fuel : ℕ}

theorem toNat_next :
    (i % UInt32.ofNat KERNEL_MAX_THREAD.toNat + 1).toNat = slotAfter i.toNat 0 := by
  have hmax : (UInt32.ofNat KERNEL_MAX_THREAD.toNat).toNat = KERNEL_MAX_THREAD.toNat := rfl
  have hone : (1 : UInt32).toNat = 1 := rfl
  rw [UInt32.toNat_add, UInt32.toNat_mod, hmax, hone, slotAfter, max_eq]
  omega

namespace Pool

theorem scheduleLoop_iff : k.scheduleLoop fuel i = some j ↔ ∃ n < fuel,
    j.toNat = slotAfter i.toNat n ∧ k.Ready (slotAfter i.toNat n) ∧
      ∀ m < n, ¬k.Ready (slotAfter i.toNat m) := by
  induction fuel generalizing i with
  | zero => simp [scheduleLoop]
  | succ fuel ih =>
    have hnext := toNat_next (i := i)
    rw [scheduleLoop, hnext]
    by_cases hr : k.Ready (slotAfter i.toNat 0)
    · rw [if_neg (by simp [hr.occupied, hr.awake]), Option.some.injEq]
      constructor
      · rintro rfl
        exact ⟨0, Nat.succ_pos _, hnext, hr, fun m hm => absurd hm (Nat.not_lt_zero m)⟩
      · rintro ⟨n, -, hj, -, hbefore⟩
        obtain rfl : n = 0 := Nat.eq_zero_of_not_pos fun hn => hbefore 0 hn hr
        exact UInt32.toNat_inj.mp (hnext.trans hj.symm)
    · rw [if_pos, ih, hnext]
      · constructor
        · rintro ⟨n, hn, hj, hready, hbefore⟩
          rw [slotAfter_slotAfter] at hj hready
          refine ⟨n + 1, by omega, hj, hready, fun m hm => ?_⟩
          cases m with
          | zero => exact hr
          | succ m => exact slotAfter_slotAfter (n := m) ▸ hbefore m (by omega)
        · rintro ⟨n, hn, hj, hready, hbefore⟩
          cases n with
          | zero => exact absurd hready hr
          | succ n =>
            rw [← slotAfter_slotAfter] at hj hready
            exact ⟨n, by omega, hj, hready, fun m hm =>
              slotAfter_slotAfter (n := m) ▸ hbefore (m + 1) (by omega)⟩
      · by_contra hnot
        rw [not_or, Bool.not_eq_true] at hnot
        exact hr ⟨slotAfter_pos, slotAfter_le, hnot.1, hnot.2⟩

/-- The loop finds the ready slot with the first turn when it is given a round for each slot. -/
theorem scheduleLoop_turn (hf : KERNEL_MAX_THREAD.toNat ≤ fuel) : k.scheduleLoop fuel i = some j ↔
    k.Ready j.toNat ∧ ∀ v, k.Ready v → turn i.toNat j.toNat ≤ turn i.toNat v := by
  rw [scheduleLoop_iff]
  constructor
  · rintro ⟨n, -, hj, hready, hbefore⟩
    rw [← hj] at hready
    refine ⟨hready, fun v hv => ?_⟩
    have hslot := slotAfter_turn (i := i.toNat) hready.pos hready.le
    have hle : turn i.toNat j.toNat ≤ n := by
      by_contra hlt
      have hturn := turn_slotAfter (i := i.toNat) ((not_le.mp hlt).trans turn_lt)
      rw [hj, hturn] at hlt
      exact hlt le_rfl
    refine hle.trans ?_
    by_contra hlt
    exact hbefore _ (not_le.mp hlt) ((slotAfter_turn hv.pos hv.le).symm ▸ hv)
  · rintro ⟨hready, hfirst⟩
    have hslot := slotAfter_turn (i := i.toNat) hready.pos hready.le
    refine ⟨turn i.toNat j.toNat, turn_lt.trans_le hf, hslot.symm, hslot.symm ▸ hready,
      fun m hm hr => ?_⟩
    have hle := hfirst _ hr
    rw [turn_slotAfter (hm.trans turn_lt)] at hle
    omega

theorem scheduleLoop_isSome (hu : k.Ready u) (i : UInt32) :
    ∃ j, ∀ fuel, KERNEL_MAX_THREAD.toNat ≤ fuel → k.scheduleLoop fuel i = some j := by
  classical
  have hex : ∃ n, k.Ready (slotAfter i.toNat n) :=
    ⟨turn i.toNat u, (slotAfter_turn hu.pos hu.le).symm ▸ hu⟩
  have hle : Nat.find hex ≤ turn i.toNat u :=
    Nat.find_min' hex ((slotAfter_turn hu.pos hu.le).symm ▸ hu)
  have hslot := slotAfter_le (i := i.toNat) (n := Nat.find hex)
  refine ⟨UInt32.ofNat (slotAfter i.toNat (Nat.find hex)), fun fuel hf => ?_⟩
  refine scheduleLoop_iff.mpr ⟨Nat.find hex, (hle.trans_lt turn_lt).trans_le hf, ?_,
    Nat.find_spec hex, fun m => Nat.find_min hex⟩
  rw [UInt32.toNat_ofNat_of_lt' (lt_of_le_of_lt hslot (by rw [max_eq]; decide))]

theorem scheduleLoop_eq_none (hk : ∀ u, ¬k.Ready u) : k.scheduleLoop fuel i = none := by
  cases h : k.scheduleLoop fuel i with
  | none => rfl
  | some j =>
    obtain ⟨n, -, -, hready, -⟩ := scheduleLoop_iff.mp h
    exact absurd hready (hk _)

end Pool

end Loop

end NSOS.Sched
