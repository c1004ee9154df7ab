import NSOS.Sched.Interrupt

/-! # Saved contexts

Over a whole run the context of each thread survives until the thread is
resumed with it. A `struct thread` that is put into a second slot loses it.
-/

namespace NSOS.Sched

open Basis
open Spin (scanPool)
open Vfs (KERNEL_MAX_THREAD)

section Invariant

variable {R : Type} {s s' : Traced R} {a : Act R} {op : Pool.Op R} {u v : ℕ} {r regs : R}
  {sys : System R} {k : Pool R}

namespace Traced

/-- What holds in every state that proper steps reach. -/
structure Inv (s : Traced R) : Prop where
  pool : s.sys.pool.Inv
  apart : ∀ u v, s.sys.pool.threadPool u ≠ 0 → 0 < u → u ≤ KERNEL_MAX_THREAD.toNat → 0 < v →
    v ≤ KERNEL_MAX_THREAD.toNat → s.sys.pool.threadPool u = s.sys.pool.threadPool v → u = v
  boot : running s.past = none → s.sys.current = 0
  range : ∀ u, running s.past = some u → 0 < u ∧ u ≤ KERNEL_MAX_THREAD.toNat
  kept : s.Kept

theorem Started.inv (h : s.Started) : s.Inv where
  pool := h.pool.inv
  apart u v hu hpos hle hpos' hle' heq := by
    have hone : ∀ w, 0 < w → w ≤ KERNEL_MAX_THREAD.toNat → s.sys.pool.threadPool w ≠ 0 → w = 1 :=
      fun w hw hw' hne => by
        by_contra hnot
        exact hne (h.pool.empty w (by omega) hw')
    rw [hone u hpos hle hu, hone v hpos' hle' (heq ▸ hu)]
  boot _ := h.current
  range u hu := by
    rw [h.past] at hu
    cases hu
  kept := by
    refine ⟨fun u hu => ?_, fun later u r earlier heq => ?_, fun u hpos hle hu _ => ?_⟩
    · rw [h.past] at hu
      cases hu
    · rw [h.past] at heq
      rcases later with _ | ⟨e, _ | ⟨e', later⟩⟩ <;> cases heq
    · have hone : u = 1 := by
        by_contra hnot
        exact hu (h.pool.empty u (by omega) hle)
      rw [hone, h.past]
      rfl

/-- After the interrupted context is saved, every thread has its context. -/
theorem Inv.saved_status (hi : s.Inv)
    (hk : k = if s.sys.current ≠ 0 then
      s.sys.pool.setThread s.sys.current fun th => { th with status := regs } else s.sys.pool)
    (hpos : 0 < u) (hle : u ≤ KERNEL_MAX_THREAD.toNat) (hu : k.threadPool u ≠ 0) :
    context u (savedEvents regs s.past) = some (k.thread (k.threadPool u)).status := by
  cases hrun : running s.past with
  | none =>
    rw [if_neg (not_not.mpr (hi.boot hrun))] at hk
    subst hk
    rw [context_savedEvents_of_ne (by simp [hrun])]
    exact hi.kept.status u hpos hle hu (by simp [hrun])
  | some v =>
    obtain ⟨-, hcur, hocc⟩ := hi.kept.current v hrun
    rw [if_pos (hcur ▸ hocc)] at hk
    subst hk
    dsimp only [Pool.setThread] at hu ⊢
    by_cases huv : u = v
    · rw [huv, context_savedEvents_self hrun, ← hcur, Function.update_self]
    · have hne : s.sys.pool.threadPool u ≠ s.sys.current := fun h =>
        huv (hi.apart u v hu hpos hle (hi.range v hrun).1 (hi.range v hrun).2 (h.trans hcur))
      have hnot : running s.past ≠ some u := fun h =>
        huv (Option.some.inj (h.symm.trans hrun))
      rw [Function.update_of_ne hne, context_savedEvents_of_ne hnot]
      exact hi.kept.status u hpos hle hu hnot

theorem inv_saved (hi : k.Inv) {t : UInt32} :
    (if t ≠ 0 then k.setThread t fun th => { th with status := regs } else k).Inv := by
  split
  · exact inv_setThread hi fun _ => Iff.rfl
  · exact hi

theorem Inv.switchThread (hi : s.Inv) (h : s.sys.switchThread regs = some (r, sys)) :
    Inv ⟨sys, .resumed sys.pool.currentThreadIndex.toNat r :: savedEvents regs s.past⟩ := by
  obtain ⟨k, i, hk, hloop, rfl, rfl⟩ := switchThread_cases h
  have hpool : k.threadPool = s.sys.pool.threadPool := by
    rw [hk]
    split <;> rfl
  obtain ⟨hready, -⟩ := (Pool.scheduleLoop_turn le_rfl).mp hloop
  have hstatus : ∀ {v : ℕ}, 0 < v → v ≤ KERNEL_MAX_THREAD.toNat → k.threadPool v ≠ 0 →
      context v (savedEvents regs s.past) = some (k.thread (k.threadPool v)).status :=
    hi.saved_status hk
  refine ⟨?_, fun u v hu hpos hle hpos' hle' heq => ?_, fun h => ?_, fun u hu => ?_,
    fun u hu => ?_, fun later u r earlier heq => ?_, fun u hpos hle hu hnot => ?_⟩
  · exact (hk ▸ inv_saved hi.pool : k.Inv).step (.selected hloop)
  · dsimp only at hu heq
    rw [hpool] at hu heq
    exact hi.apart u v hu hpos hle hpos' hle' heq
  · cases h
  · obtain rfl := Option.some.inj hu
    exact ⟨hready.pos, hready.le⟩
  · obtain rfl := Option.some.inj hu
    exact ⟨rfl, rfl, hready.occupied⟩
  · cases later with
    | nil =>
      obtain ⟨he, rfl⟩ := List.cons.inj heq
      cases he
      exact hstatus hready.pos hready.le hready.occupied
    | cons e later =>
      obtain ⟨later', hpast⟩ := resumed_not_mem_savedEvents (List.cons.inj heq).2
      exact hi.kept.resumed later' u r earlier hpast
  · rw [context_resumed_of_ne fun h => hnot (congrArg some h)]
    exact hstatus hpos hle hu

theorem Inv.call (hi : s.Inv) (hp : Proper s (.call op)) (hs : s.sys.pool.Step op k)
    (hop : op ≠ .schedule) :
    Inv ⟨{ s.sys with pool := k }, callEvents s.sys.pool op ++ s.past⟩ := by
  have hpool := hi.pool.step hs
  cases hs with
  | selected => exact absurd rfl hop
  | @created i thread make hpos hle hscan hempty hthread =>
    have hevents : callEvents s.sys.pool (.create thread make) = [.made i make] := by
      simp only [callEvents, hscan]
      exact if_neg (by rw [← Int.toNat_of_nonneg (show 0 ≤ KERNEL_MAX_THREAD by decide)]; omega)
    rw [hevents] at *
    have hnew : ∀ u, 0 < u → u ≤ KERNEL_MAX_THREAD.toNat → s.sys.pool.threadPool u ≠ thread := hp
    have hother : ∀ {u : ℕ}, s.sys.pool.threadPool u ≠ 0 → u ≠ i := fun hu h => hu (h ▸ hempty)
    refine ⟨hpool, fun u v hu hpos hle hpos' hle' heq => ?_, hi.boot, hi.range, fun u hu => ?_,
      fun later u r earlier heq => ?_, fun u hpos hle hu hnot => ?_⟩
    · dsimp only at heq
      by_cases hui : u = i <;> by_cases hvi : v = i
      · rw [hui, hvi]
      · rw [hui, Function.update_self, Function.update_of_ne hvi] at heq
        exact absurd heq.symm (hnew v hpos' hle')
      · rw [hvi, Function.update_self, Function.update_of_ne hui] at heq
        exact absurd heq (hnew u hpos hle)
      · dsimp only at hu
        rw [Function.update_of_ne hui] at hu
        rw [Function.update_of_ne hui, Function.update_of_ne hvi] at heq
        exact hi.apart u v hu hpos hle hpos' hle' heq
    · obtain ⟨hidx, hcur, hocc⟩ := hi.kept.current u hu
      dsimp only
      rw [Function.update_of_ne (hother hocc)]
      exact ⟨hidx, hcur, hocc⟩
    · cases later with
      | nil => cases heq
      | cons e later => exact hi.kept.resumed later u r earlier (List.cons.inj heq).2
    · dsimp only at hu ⊢
      by_cases hui : u = i
      · rw [hui, Function.update_self, Function.update_self]
        exact if_pos rfl
      · rw [Function.update_of_ne hui] at hu ⊢
        rw [Function.update_of_ne (hnew u hpos hle)]
        exact (if_neg (Ne.symm hui)).trans (hi.kept.status u hpos hle hu hnot)
  | @torn i thread hpos hle hslot hother =>
    have hne : ∀ {u : ℕ}, Function.update s.sys.pool.threadPool i 0 u ≠ 0 → u ≠ i :=
      fun hu h => hu (h ▸ Function.update_self ..)
    refine ⟨hpool, fun u v hu hpos hle hpos' hle' heq => ?_, hi.boot, hi.range, fun u hu => ?_,
      hi.kept.resumed, fun u hpos hle hu hnot => ?_⟩
    · dsimp only at hu heq
      have hv : v ≠ i := hne (heq ▸ hu)
      have hu' := hne hu
      rw [Function.update_of_ne hu'] at hu
      rw [Function.update_of_ne hu', Function.update_of_ne hv] at heq
      exact hi.apart u v hu hpos hle hpos' hle' heq
    · obtain ⟨hidx, hcur, hocc⟩ := hi.kept.current u hu
      dsimp only
      rw [Function.update_of_ne fun h => hother (h.symm.trans hidx.symm)]
      exact ⟨hidx, hcur, hocc⟩
    · dsimp only at hu ⊢
      have hu' := hne hu
      rw [Function.update_of_ne hu'] at hu ⊢
      exact hi.kept.status u hpos hle hu hnot
  | dozed hop' hstatus hfenced hfull =>
    have hevents : callEvents s.sys.pool op = [] := by
      cases op with
      | create t make => exact if_pos (hfull t make rfl)
      | _ => rfl
    rw [hevents] at *
    refine ⟨hpool, hi.apart, hi.boot, hi.range, hi.kept.current, hi.kept.resumed,
      fun u hpos hle hu hnot => ?_⟩
    dsimp only
    rw [hstatus]
    exact hi.kept.status u hpos hle hu hnot

theorem Inv.exec (hi : s.Inv) (hp : Proper s a) (h : s.exec a = some s') : s'.Inv := by
  cases a with
  | interrupt ev regs =>
    obtain ⟨⟨o, sys⟩, hr, rfl⟩ := Option.map_eq_some_iff.mp h
    rcases osInterrupt_cases hr with ⟨-, r, rfl, hs⟩ | ⟨-, rfl, hpool, hcur⟩
    · exact hi.switchThread hs
    · obtain ⟨pool, current, keyAction⟩ := sys
      subst hpool hcur
      exact ⟨hi.pool, hi.apart, hi.boot, hi.range, hi.kept.current, hi.kept.resumed,
        hi.kept.status⟩
  | call op =>
    simp only [Traced.exec] at h
    split at h
    · cases h
    case isFalse hnot =>
      obtain ⟨k, hk, rfl⟩ := Option.map_eq_some_iff.mp h
      exact hi.call hp (Pool.step_exec hk) fun he => hnot (.inr (by rw [he]; rfl))

theorem Reach.inv (h : s.Reach Proper) : s.Inv := by
  obtain ⟨s₀, hs₀, hr⟩ := h
  exact hr.invariant hs₀.inv fun hi hp hs => hi.exec hp hs

/-- As long as threads are only made from a `struct thread` that is in no slot, `current` is the
thread in the current slot, each thread is resumed with the context that was saved or made for it
last, the others keep theirs, and a switch stores the interrupted registers. -/
theorem contexts_kept (hr : s.Reach Proper) : s.Kept ∧
    ∀ ev regs s' u, Irq.Switches ev → s.exec (.interrupt ev regs) = some s' →
      running s.past = some u →
      (s'.sys.pool.thread (s'.sys.pool.threadPool u)).status = regs := by
  refine ⟨hr.inv.kept, fun ev regs s' u hev h hu => ?_⟩
  obtain ⟨⟨o, sys⟩, ho, rfl⟩ := Option.map_eq_some_iff.mp h
  rcases osInterrupt_cases ho with ⟨-, r, rfl, hs⟩ | ⟨hnot, -⟩
  · obtain ⟨k, i, hk, -, -, rfl⟩ := switchThread_cases hs
    obtain ⟨-, hcur, hocc⟩ := hr.inv.kept.current u hu
    rw [if_pos (hcur ▸ hocc)] at hk
    subst hk
    dsimp only [Pool.setThread]
    rw [← hcur, Function.update_self]
  · exact absurd hev hnot

end Traced

end Invariant

section Start

variable {R : Type}

def start (launchd : UInt32) (make : R) : Traced R where
  sys := ⟨.boot launchd make, 0, false⟩
  past := [.made 1 make]

theorem start_started {launchd : UInt32} {make : R} (hl : launchd ≠ 0) :
    (start launchd make).Started :=
  ⟨Pool.boot_started hl, rfl, rfl⟩

instance decidableProper (s : Traced R) : ∀ a, Decidable (s.Proper a)
  | .call (.create thread _) => decidable_of_iff
      (∀ u, u < KERNEL_MAX_THREAD.toNat + 1 → 0 < u → s.sys.pool.threadPool u ≠ thread)
      ⟨fun h u hpos hle => h u (Nat.lt_succ_of_le hle) hpos,
        fun h u hlt hpos => h u hpos (Nat.le_of_lt_succ hlt)⟩
  | .interrupt _ _ | .call .schedule | .call (.teardown _) | .call (.semWait _)
  | .call (.semSignal _) => .isTrue trivial

/-- `launchd` makes a thread. Each of the two is preempted, `launchd` is resumed with the context
that it was preempted with, and the next switch saves its registers. -/
theorem contexts_kept_resumed : ∃ s s' : Traced ℕ, s.Reach Traced.Proper ∧
    s.past = [.resumed 1 101, .saved 2 102, .resumed 2 10, .saved 1 101, .made 2 10,
      .resumed 1 7, .made 1 7] ∧ s.Kept ∧ s.exec (.interrupt .yield 103) = some s' ∧
    (s'.sys.pool.thread (s'.sys.pool.threadPool 1)).status = 103 := by
  let acts : List (Act ℕ) := [.interrupt .timer 100, .call (.create 0x200000 10),
    .interrupt .timer 101, .interrupt .timer 102]
  have hruns : ((replay (guarded Traced.exec Traced.Proper) (start 0x100000 7) acts).any fun s =>
      (s.exec (.interrupt .yield 103)).any fun _ => s.past = [.resumed 1 101, .saved 2 102,
        .resumed 2 10, .saved 1 101, .made 2 10, .resumed 1 7, .made 1 7]) = true := by
    decide +kernel
  simp only [Option.any_eq_true] at hruns
  obtain ⟨s, hs, s', hs', hpast⟩ := hruns
  have hpast := of_decide_eq_true hpast
  have hreach : s.Reach Traced.Proper := ⟨_, start_started (by decide), Run.of_guarded id hs⟩
  obtain ⟨hkept, hsaved⟩ := Traced.contexts_kept hreach
  exact ⟨s, s', hreach, hpast, hkept, hs', hsaved .yield 103 s' 1 trivial hs' (by rw [hpast]; rfl)⟩

/-- `launchd` makes a thread from the `struct thread` of a thread that was preempted. The second
thread lies in slot 3, and the one in slot 2 has lost its context. -/
theorem context_overwritten : ∃ s : Traced ℕ, s.Reach (fun _ _ => True) ∧ ¬s.Kept := by
  let acts : List (Act ℕ) := [.interrupt .timer 100, .call (.create 0x200000 10),
    .interrupt .timer 101, .interrupt .timer 102, .call (.create 0x200000 11)]
  have hrun : (replay Traced.exec (start 0x100000 7) acts).map (fun s =>
      (s.sys.pool.threadPool 2, running s.past, context 2 s.past,
        (s.sys.pool.thread (s.sys.pool.threadPool 2)).status)) =
      some (0x200000, some 1, some 102, 11) := by decide +kernel
  obtain ⟨s, hs, heq⟩ := Option.map_eq_some_iff.mp hrun
  simp only [Prod.mk.injEq] at heq
  obtain ⟨hslot, hrunning, hcontext, hstatus⟩ := heq
  refine ⟨s, ⟨_, start_started (by decide), Run.of_labels id (fun _ _ _ => trivial) hs⟩,
    fun hkept => ?_⟩
  have hsaved := hkept.status 2 (by decide) (by decide) (by rw [hslot]; decide)
    (by rw [hrunning]; decide)
  rw [hcontext, hstatus] at hsaved
  exact absurd hsaved (by decide)

end Start

end NSOS.Sched
