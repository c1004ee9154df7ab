import NSOS.Sched.Turns

/-! # Fair scheduling

In every state that the kernel reaches, the scheduler finds its checks met. It
returns when some slot is ready, and it selects no slot twice while another
slot stays ready without a turn.
-/

namespace NSOS.Sched

open Basis
open Vfs (KERNEL_MAX_THREAD)

section Invariant

variable {R : Type} {k k' : Pool R} {op : Pool.Op R} {u fuel : ℕ}

namespace Pool

theorem Started.inv (h : k.Started) : k.Inv where
  first := h.first
  last := h.last
  fenced u hpos hle hu := by
    rcases Nat.eq_or_lt_of_le (Nat.succ_le_of_lt hpos) with rfl | hlt
    · exact h.fenced
    · exact absurd (h.empty u hlt hle) hu
  index := .inl h.currentThreadIndex

theorem Inv.step (hi : k.Inv) (hs : Step k op k') : k'.Inv := by
  cases hs with
  | selected h =>
    obtain ⟨hready, -⟩ := (scheduleLoop_turn le_rfl).mp h
    exact ⟨hi.first, hi.last, hi.fenced, .inr ⟨hready.pos, hready.le, hready.occupied⟩⟩
  | @created i thread make hpos hle hscan hempty hthread =>
    refine ⟨?_, ?_, fun u hpos hle hu => ?_, hi.index.imp_right fun h => ⟨h.1, h.2.1, ?_⟩⟩
    · simpa [Function.update_of_ne hpos.ne] using hi.first
    · simpa [Function.update_of_ne (Nat.lt_succ_of_le hle).ne'] using hi.last
    · dsimp only at hu ⊢
      by_cases hnew : Function.update k.threadPool i thread u = thread
      · rw [hnew, Function.update_self]
        exact ⟨rfl, rfl⟩
      · rw [Function.update_of_ne hnew]
        have hother : u ≠ i := fun h => hnew (h ▸ Function.update_self ..)
        rw [Function.update_of_ne hother] at hu ⊢
        exact hi.fenced u hpos hle hu
    · dsimp only
      rw [Function.update_apply]
      split
      · exact hthread
      · exact h.2.2
  | @torn i thread hpos hle hslot hother =>
    refine ⟨?_, ?_, fun u hpos hle hu => ?_, hi.index.imp_right fun h => ⟨h.1, h.2.1, ?_⟩⟩
    · simpa [Function.update_of_ne hpos.ne] using hi.first
    · simpa [Function.update_of_ne (Nat.lt_succ_of_le hle).ne'] using hi.last
    · dsimp only at hu ⊢
      have hne : u ≠ i := fun h => hu (h ▸ Function.update_self ..)
      rw [Function.update_of_ne hne] at hu ⊢
      exact hi.fenced u hpos hle hu
    · dsimp only
      rw [Function.update_of_ne hother.symm]
      exact h.2.2
  | dozed _ _ hfenced =>
    exact ⟨hi.first, hi.last, fun u hpos hle hu => (hfenced _).mpr (hi.fenced u hpos hle hu),
      hi.index⟩

theorem Reach.inv (h : k.Reach) : k.Inv := by
  obtain ⟨k₀, hk₀, hr⟩ := h
  exact hr.invariant hk₀.inv fun hi _ hs => hi.step (step_exec hs)

theorem Inv.kmtSchedule_eq (hi : k.Inv) : k.kmtSchedule fuel =
    (k.scheduleLoop fuel k.currentThreadIndex).map fun i =>
      (k.threadPool i.toNat, { k with currentThreadIndex := i }) := by
  rw [kmtSchedule, if_neg, if_neg]
  · rintro ⟨hne, hnot⟩
    obtain ⟨hpos, hle, hocc⟩ := hi.index.resolve_left hne
    exact hnot (hi.fenced _ hpos hle hocc)
  · rintro ⟨-, hfirst | hlast⟩
    · exact hfirst hi.first
    · exact hlast hi.last

end Pool

end Invariant

section Fairness

variable {R : Type} {k k' : Pool R} {op : Pool.Op R} {ops : List (Pool.Op R)} {u c : ℕ}

namespace Pool

/-- A ready slot that has no turn gets closer to it. -/
theorem selected_closer (hs : k.exec .schedule = some k') (hu : k.Ready u)
    (hne : k'.currentThreadIndex.toNat ≠ u) :
    turn k'.currentThreadIndex.toNat u < turn k.currentThreadIndex.toNat u := by
  cases step_exec hs with
  | @selected i h =>
    obtain ⟨hready, hfirst⟩ := (scheduleLoop_turn le_rfl).mp h
    have hlt : turn k.currentThreadIndex.toNat i.toNat < turn k.currentThreadIndex.toNat u := by
      refine lt_of_le_of_ne (hfirst u hu) fun heq => hne ?_
      rw [← slotAfter_turn (i := k.currentThreadIndex.toNat) hready.pos hready.le, heq,
        slotAfter_turn hu.pos hu.le]
    have hturn := turn_of_lt hready.pos hready.le hu.pos hlt
    dsimp only
    omega
  | dozed hop => exact absurd rfl hop

/-- Over a run in which `u` stays ready without a turn, its turn does not move away. -/
theorem turn_replay (hr : replay exec k ops = some k')
    (hready : ∀ pre k₁, pre <+: ops → replay exec k pre = some k₁ → k₁.Ready u)
    (hnot : ¬∃ pre post k₁ k₂, ops = pre ++ .schedule :: post ∧ replay exec k pre = some k₁ ∧
      k₁.exec .schedule = some k₂ ∧ k₂.currentThreadIndex.toNat = u) :
    turn k'.currentThreadIndex.toNat u ≤ turn k.currentThreadIndex.toNat u := by
  induction ops generalizing k with
  | nil =>
    obtain rfl := Option.some.inj hr
    exact le_rfl
  | cons op ops ih =>
    obtain ⟨k₁, hop, hrest⟩ := Option.bind_eq_some_iff.mp hr
    have hcons : ∀ {pre : List (Op R)}, replay exec k (op :: pre) = replay exec k₁ pre :=
      fun {pre} => by rw [replay, hop, Option.bind_some]
    refine (ih hrest (fun pre k₂ hpre h => ?_) ?_).trans ?_
    · exact hready (op :: pre) k₂ (List.cons_prefix_cons.mpr ⟨rfl, hpre⟩) (hcons.trans h)
    · rintro ⟨pre, post, k₂, k₃, rfl, h, hs, hu⟩
      exact hnot ⟨op :: pre, post, k₂, k₃, rfl, hcons.trans h, hs, hu⟩
    · have hu : k.Ready u := hready [] k List.nil_prefix rfl
      by_cases hsched : op = .schedule
      · subst hsched
        exact (selected_closer hop hu fun h => hnot ⟨[], ops, k, k₁, rfl, rfl, hop, h⟩).le
      · rw [(step_exec hop).currentThreadIndex_eq hsched]

/-- The scheduler returns when some slot is ready, with the first ready slot in the cyclic order,
and changes nothing else. No slot is selected twice without a selection of each slot that stayed
ready in between. -/
theorem schedule_fair (hk : k.Reach) :
    (∀ u, k.Ready u → ∃ i, k.Ready i.toNat ∧
      (∀ v, k.Ready v →
        turn k.currentThreadIndex.toNat i.toNat ≤ turn k.currentThreadIndex.toNat v) ∧
      ∀ fuel, KERNEL_MAX_THREAD.toNat ≤ fuel → k.kmtSchedule fuel =
        some (k.threadPool i.toNat, { k with currentThreadIndex := i })) ∧
    ∀ k₁ k₂ k₃ ops u, k.exec .schedule = some k₁ → replay exec k₁ ops = some k₂ →
      k₂.exec .schedule = some k₃ → k₃.currentThreadIndex = k₁.currentThreadIndex →
      u ≠ k₁.currentThreadIndex.toNat →
      (∀ pre k', pre <+: ops → replay exec k₁ pre = some k' → k'.Ready u) →
      ∃ pre post k' k'', ops = pre ++ .schedule :: post ∧ replay exec k₁ pre = some k' ∧
        k'.exec .schedule = some k'' ∧ k''.currentThreadIndex.toNat = u := by
  refine ⟨fun u hu => ?_, fun k₁ k₂ k₃ ops u _ hr hs hsame hne hready => ?_⟩
  · obtain ⟨i, hi⟩ := scheduleLoop_isSome hu k.currentThreadIndex
    obtain ⟨hready, hfirst⟩ := (scheduleLoop_turn le_rfl).mp (hi _ le_rfl)
    refine ⟨i, hready, hfirst, fun fuel hf => ?_⟩
    rw [hk.inv.kmtSchedule_eq, hi fuel hf]
    rfl
  -- Otherwise the turn of `u` after the slot would be sooner than itself.
  · by_contra hnot
    have hend : k₂.Ready u := hready ops k₂ List.prefix_rfl hr
    have hle := turn_replay hr hready hnot
    have hcloser := selected_closer hs hend (by rw [hsame]; exact hne.symm)
    rw [hsame] at hcloser
    exact absurd hcloser (by omega)

def boot (launchd : UInt32) (make : R) : Pool R where
  threadPool u :=
    if u = 0 ∨ u = KERNEL_MAX_THREAD.toNat + 1 then THREAD_POOL_MAGIC
    else if u = 1 then launchd
    else 0
  thread _ := ⟨make, false, 0, Spin.STACK_MAGIC, Spin.STACK_MAGIC⟩
  currentThreadIndex := -1
  count _ := 0

theorem boot_started {launchd : UInt32} {make : R} (hl : launchd ≠ 0) :
    (boot launchd make).Started where
  first := rfl
  last := rfl
  launchd := hl
  empty u hlt hle := by
    dsimp only [boot]
    rw [if_neg (by omega), if_neg (by omega)]
  awake := rfl
  fenced := ⟨rfl, rfl⟩
  currentThreadIndex := rfl

instance decidableReady (k : Pool R) (u : ℕ) : Decidable (k.Ready u) :=
  decidable_of_iff (0 < u ∧ u ≤ KERNEL_MAX_THREAD.toNat ∧ k.threadPool u ≠ 0 ∧
      (k.thread (k.threadPool u)).sleep = false)
    ⟨fun ⟨hpos, hle, hocc, hawake⟩ => ⟨hpos, hle, hocc, hawake⟩,
      fun h => ⟨h.pos, h.le, h.occupied, h.awake⟩⟩

/-- Three threads are ready when slot 2 is selected, and a fourth one is created before it is
selected again. Slot 3 has its turn in between. -/
theorem schedule_fair_turns :
    ∃ k k₁ k₂ k₃ : Pool ℕ, ∃ ops : List (Op ℕ), k.Reach ∧ k.Ready 1 ∧ k.Ready 2 ∧ k.Ready 3 ∧
      k.exec .schedule = some k₁ ∧ replay exec k₁ ops = some k₂ ∧ k₂.exec .schedule = some k₃ ∧
      k₁.currentThreadIndex = 2 ∧ k₃.currentThreadIndex = 2 ∧ k₃.Ready 4 ∧
      (∃ i, k.Ready i.toNat ∧ ∀ fuel, KERNEL_MAX_THREAD.toNat ≤ fuel → k.kmtSchedule fuel =
        some (k.threadPool i.toNat, { k with currentThreadIndex := i })) ∧
      ∃ pre post k' k'', ops = pre ++ .schedule :: post ∧ replay exec k₁ pre = some k' ∧
        k'.exec .schedule = some k'' ∧ k''.currentThreadIndex.toNat = 3 := by
  let ops : List (Op ℕ) := [.schedule, .create 0x400000 3, .schedule, .schedule]
  have hruns : ((replay exec (boot 0x100000 0)
      [.schedule, .create 0x200000 1, .create 0x300000 2]).any fun k =>
        (k.exec .schedule).any fun k₁ => (replay exec k₁ ops).any fun k₂ =>
          (k₂.exec .schedule).any fun k₃ => (k.Ready 1 ∧ k.Ready 2 ∧ k.Ready 3) ∧
            k₁.currentThreadIndex = 2 ∧ k₃.currentThreadIndex = 2 ∧ k₃.Ready 4 ∧
            ∀ pre ∈ ops.inits, (replay exec k₁ pre).all fun k' => k'.Ready 3) = true := by
    decide +kernel
  simp only [Option.any_eq_true] at hruns
  obtain ⟨k, hk, k₁, hk₁, k₂, hk₂, k₃, hk₃, hstate⟩ := hruns
  obtain ⟨⟨hone, htwo, hthree⟩, hindex, hindex', hfour, hready⟩ := of_decide_eq_true hstate
  have hreach : k.Reach :=
    ⟨_, boot_started (by decide), Run.of_labels id (fun _ _ _ => trivial) hk⟩
  obtain ⟨hfirst, hfair⟩ := schedule_fair hreach
  obtain ⟨i, hi, -, hfuel⟩ := hfirst 1 hone
  refine ⟨k, k₁, k₂, k₃, ops, hreach, hone, htwo, hthree, hk₁, hk₂, hk₃, hindex, hindex', hfour,
    ⟨i, hi, hfuel⟩, hfair k₁ k₂ k₃ ops 3 hk₁ hk₂ hk₃ (hindex'.trans hindex.symm) ?_ ?_⟩
  · rw [hindex]
    decide
  · intro pre k' hpre hk'
    have hall := hready pre ((List.mem_inits _ _).mpr hpre)
    rw [hk', Option.all_some] at hall
    exact of_decide_eq_true hall

end Pool

end Fairness

end NSOS.Sched
