import NSOS.Kmt.Wakeup
import Mathlib.Algebra.BigOperators.Fin
import Mathlib.Algebra.BigOperators.Ring.Finset
import Mathlib.Data.Set.Card.Arithmetic

/-! # One thread at a time

When every call waits for one semaphore, accesses the shared state only while
it holds it and signals it on every path to its result, then at most one
thread is inside at any time. The calls take effect one after the other, in
the order in which they got the semaphore.
-/

namespace NSOS.Kmt

open Basis

variable {ι σ κ α : Type} {n : ℕ} [DecidableEq ι]

section Bookkeeping

def Event.thread : Event ι κ α n → Fin n
  | .called t _ => t
  | .waited t _ _ => t
  | .signalled t _ => t
  | .returned t _ _ => t

def Event.call (t : Fin n) : Event ι κ α n → Option κ
  | .called u c => if u = t then some c else none
  | _ => none

variable (ev : List (Event ι κ α n)) (t : Fin n) (s : ι)

def callsOf : List κ := ev.filterMap (Event.call t)

/-- The calls of a thread that completed their wait, newest first. -/
def entriesOf : List κ :=
  (ev.filterMap (Event.entry s)).filterMap fun e => if e.1 = t then some e.2 else none

def leavesOf : ℕ := (ev.filterMap (Event.leave s)).count t

def Settled : Prop := callsOf ev t = entriesOf ev t s ∧ leavesOf ev t s = (entriesOf ev t s).length

/-- How far the open call `c` of a thread has come. -/
def Stands (c : κ) : Prog.Stage → Prop
  | .before =>
    callsOf ev t = c :: entriesOf ev t s ∧ leavesOf ev t s = (entriesOf ev t s).length
  | .inside =>
    callsOf ev t = entriesOf ev t s ∧ leavesOf ev t s + 1 = (entriesOf ev t s).length
  | .after => Settled ev t s

section Books

variable {ev t s} {u : Fin n} {c : κ} {s' : ι} {a : α}

omit [DecidableEq ι]
@[simp] theorem callsOf_called : callsOf (.called t c :: ev) t = c :: callsOf ev t := by
  simp [callsOf, Event.call]
@[simp] theorem callsOf_waited : callsOf (.waited u s c :: ev) t = callsOf ev t := rfl
@[simp] theorem callsOf_signalled : callsOf (.signalled u s :: ev) t = callsOf ev t := rfl
@[simp] theorem callsOf_returned : callsOf (.returned u c a :: ev) t = callsOf ev t := rfl

variable [DecidableEq ι]
@[simp] theorem entriesOf_called : entriesOf (.called u c :: ev) t s = entriesOf ev t s := rfl
@[simp] theorem entriesOf_waited :
    entriesOf (.waited t s c :: ev) t s = c :: entriesOf ev t s := by
  simp [entriesOf, Event.entry]
@[simp] theorem entriesOf_signalled :
    entriesOf (.signalled u s' :: ev) t s = entriesOf ev t s := rfl
@[simp] theorem entriesOf_returned : entriesOf (.returned u c a :: ev) t s = entriesOf ev t s := rfl
@[simp] theorem leavesOf_called : leavesOf (.called u c :: ev) t s = leavesOf ev t s := rfl
@[simp] theorem leavesOf_waited : leavesOf (.waited u s' c :: ev) t s = leavesOf ev t s := rfl
@[simp] theorem leavesOf_signalled : leavesOf (.signalled t s :: ev) t s = leavesOf ev t s + 1 := by
  simp [leavesOf, Event.leave]
@[simp] theorem leavesOf_returned : leavesOf (.returned u c a :: ev) t s = leavesOf ev t s := rfl

end Books

namespace Kernel

variable (k : Kernel ι σ κ α n)

/-- The thread has completed a wait but not yet the matching signal. -/
def Holds : Prop := leavesOf k.events t s < (entriesOf k.events t s).length

def Follows (body : Fin n → κ → Prog ι σ α) : Prop :=
  match k.phase t with
  | .idle => Settled k.events t s
  | .run c p => ∃ st, p.Bracketed s st ∧ Stands k.events t s c st ∧ (st = .before → p = body t c)
  | .waiting c s' pc p => s' = s ∧ p.Bracketed s .inside ∧
    if pc = .release then Stands k.events t s c .inside
    else Stands k.events t s c .before ∧ body t c = .wait s p
  | .signalling c s' pc p => s' = s ∧ p.Bracketed s .after ∧
    Stands k.events t s c (if pc = .lock ∨ pc = .inc then .inside else .after)

end Kernel

end Bookkeeping

section Frame

variable {k k' : Kernel ι σ κ α n} {c : κ} {s : ι} {p : Prog ι σ α} {t : Fin n}
  {body : Fin n → κ → Prog ι σ α}

/-- A statement concerns the running thread only. -/
structure Local (k k' : Kernel ι σ κ α n) : Prop where
  current : k'.current = k.current
  phase : ∀ t, t ≠ k.current → k'.phase t = k.phase t
  events : k'.events = k.events ∨ ∃ e, e.thread = k.current ∧ k'.events = e :: k.events

omit [DecidableEq ι] in
theorem Local.goto {k₁ : Kernel ι σ κ α n} (ph : Phase ι σ κ α n)
    (hc : k₁.current = k.current) (hp : k₁.phase = k.phase)
    (he : k₁.events = k.events ∨ ∃ e, e.thread = k.current ∧ k₁.events = e :: k.events) :
    Local k (k₁.goto ph) where
  current := hc
  phase t ht := by simp [Kernel.goto, hc, hp, ht]
  events := he

theorem local_waitStep (pc : WaitPc) : Local k (waitStep k c s p pc) := by
  cases pc with
  | test => rw [waitStep]; split <;> exact .goto _ rfl rfl (Or.inl rfl)
  | spin =>
    rw [waitStep]
    split
    · exact ⟨rfl, fun _ _ => rfl, Or.inl rfl⟩
    · exact .goto _ rfl rfl (Or.inl rfl)
  | take => exact .goto _ rfl rfl (Or.inr ⟨_, rfl, rfl⟩)
  | _ => exact .goto _ rfl rfl (Or.inl rfl)

theorem local_signalStep (pc : SignalPc n) : Local k (signalStep k c s p pc) := by
  cases pc with
  | scan i =>
    rw [signalStep]
    split
    · split <;> exact .goto _ rfl rfl (Or.inl rfl)
    · exact .goto _ rfl rfl (Or.inl rfl)
  | inc => exact .goto _ rfl rfl (Or.inr ⟨_, rfl, rfl⟩)
  | _ => exact .goto _ rfl rfl (Or.inl rfl)

theorem local_advance (ha : advance k = some k') : Local k k' := by
  unfold advance at ha
  split at ha <;> simp only [Option.some.injEq, reduceCtorEq] at ha <;> subst ha
  · exact .goto _ rfl rfl (Or.inr ⟨_, rfl, rfl⟩)
  · exact .goto _ rfl rfl (Or.inl rfl)
  · exact .goto _ rfl rfl (Or.inl rfl)
  · exact .goto _ rfl rfl (Or.inl rfl)
  · exact local_waitStep _
  · exact local_signalStep _

theorem Local.books (h : Local k k') (ht : t ≠ k.current) :
    callsOf k'.events t = callsOf k.events t ∧
      entriesOf k'.events t s = entriesOf k.events t s ∧
        leavesOf k'.events t s = leavesOf k.events t s := by
  rcases h.events with he | ⟨e, hu, he⟩
  · simp [he]
  · have hne : ∀ {u : Fin n}, u = k.current → u ≠ t := fun hu hut => ht (hut ▸ hu)
    simp only [callsOf, entriesOf, leavesOf, he, List.filterMap_cons]
    cases e with
    | called u c =>
      have hut : u ≠ t := hne hu
      simp [Event.call, Event.entry, Event.leave, hut]
    | waited u s' c =>
      have hut : u ≠ t := hne hu
      by_cases hs : s' = s <;> simp [Event.call, Event.entry, Event.leave, hut, hs]
    | signalled u s' =>
      have hut : u ≠ t := hne hu
      by_cases hs : s' = s <;> simp [Event.call, Event.entry, Event.leave, hut, hs]
    | returned u c a => simp [Event.call, Event.entry, Event.leave]

theorem Local.follows (h : Local k k') (ht : t ≠ k.current) (hf : k.Follows t s body) :
    k'.Follows t s body := by
  obtain ⟨h₁, h₂, h₃⟩ := h.books (s := s) ht
  have hst : ∀ c st, Stands k'.events t s c st ↔ Stands k.events t s c st := fun c st => by
    cases st <;> simp [Stands, Settled, h₁, h₂, h₃]
  have hse : Settled k'.events t s ↔ Settled k.events t s := by simp [Settled, h₁, h₂, h₃]
  unfold Kernel.Follows at hf ⊢
  rw [h.phase t ht]
  simpa only [hst, hse] using hf

end Frame

section Discipline

variable {k k' : Kernel ι σ κ α n} {c : κ} {s s' : ι} {p : Prog ι σ α}
  {body : Fin n → κ → Prog ι σ α}

theorem Kernel.Follows.waitStep {pc : WaitPc} (hp : k.phase k.current = .waiting c s' pc p)
    (hf : k.Follows k.current s body) : (waitStep k c s' p pc).Follows k.current s body := by
  simp only [Kernel.Follows, hp] at hf
  obtain ⟨rfl, hb, hst⟩ := hf
  cases pc with
  | test again =>
    rw [Kmt.waitStep]
    split <;> simpa [Kernel.Follows, Kernel.goto, hb] using hst
  | spin =>
    rw [Kmt.waitStep]
    split
    · simpa [Kernel.Follows, hp, hb] using hst
    · simpa [Kernel.Follows, Kernel.goto, hb] using hst
  | take =>
    obtain ⟨⟨h₁, h₂⟩, -⟩ : Stands k.events k.current s' c .before ∧
      body k.current c = .wait s' p := by simpa using hst
    simp [Kmt.waitStep, Kernel.Follows, Kernel.goto, hb, Stands, h₁, h₂]
  | release =>
    have hin : Stands k.events k.current s' c .inside := by simpa using hst
    simp only [Kmt.waitStep, Kernel.Follows, Kernel.goto, Function.update_self]
    exact ⟨.inside, hb, hin, by simp⟩
  | _ => simpa [Kmt.waitStep, Kernel.Follows, Kernel.goto, hb] using hst

theorem Kernel.Follows.signalStep {pc : SignalPc n}
    (hp : k.phase k.current = .signalling c s' pc p) (hf : k.Follows k.current s body) :
    (signalStep k c s' p pc).Follows k.current s body := by
  simp only [Kernel.Follows, hp] at hf
  obtain ⟨rfl, hb, hst⟩ := hf
  cases pc with
  | scan i =>
    rw [Kmt.signalStep]
    split
    · split <;> simpa [Kernel.Follows, Kernel.goto, hb] using hst
    · simpa [Kernel.Follows, Kernel.goto, hb] using hst
  | inc =>
    obtain ⟨h₁, h₂⟩ : Stands k.events k.current s' c .inside := by simpa using hst
    simp [Kmt.signalStep, Kernel.Follows, Kernel.goto, hb, Stands, Settled, h₁, h₂]
  | unlock =>
    have ha : Stands k.events k.current s' c .after := by simpa using hst
    simp only [Kmt.signalStep, Kernel.Follows, Kernel.goto, Function.update_self]
    exact ⟨.after, hb, ha, by simp⟩
  | _ => simpa [Kmt.signalStep, Kernel.Follows, Kernel.goto, hb] using hst

theorem Kernel.Follows.advance (hf : k.Follows k.current s body) (ha : advance k = some k') :
    k'.Follows k.current s body := by
  unfold Kmt.advance at ha
  cases hp : k.phase k.current with
  | idle => simp [hp] at ha
  | run c p =>
    have hf' := hf
    simp only [Kernel.Follows, hp] at hf'
    obtain ⟨st, hb, hst, hbody⟩ := hf'
    cases p with
    | ret a =>
      simp only [hp, Option.some.injEq] at ha
      subst ha
      obtain rfl : st = .after := hb
      simpa [Kernel.Follows, Kernel.goto, Settled, Stands] using hst
    | stop => simp [hp] at ha
    | act f q =>
      simp only [hp, Option.some.injEq] at ha
      subst ha
      obtain ⟨rfl, hq⟩ := hb
      simp only [Kernel.Follows, Kernel.goto, Function.update_self]
      exact ⟨.inside, hq _, hst, by simp⟩
    | wait s'' q =>
      simp only [hp, Option.some.injEq] at ha
      subst ha
      obtain ⟨rfl, rfl, hq⟩ := hb
      simpa [Kernel.Follows, Kernel.goto, hq, ← hbody rfl] using hst
    | signal s'' q =>
      simp only [hp, Option.some.injEq] at ha
      subst ha
      obtain ⟨rfl, rfl, hq⟩ := hb
      simpa [Kernel.Follows, Kernel.goto, hq] using hst
  | waiting c s' pc p =>
    simp only [hp, Option.some.injEq] at ha
    exact ha ▸ hf.waitStep hp
  | signalling c s' pc p =>
    simp only [hp, Option.some.injEq] at ha
    exact ha ▸ hf.signalStep hp

theorem Kernel.Follows.step {a : Act κ n} (hbody : ∀ t c, (body t c).Bracketed s .before)
    (hf : ∀ t, k.Follows t s body) (hs : Step body k a k') (t : Fin n) : k'.Follows t s body := by
  cases hs with
  | @call c hi =>
    by_cases ht : t = k.current
    · subst ht
      have hset := hf k.current
      simp only [Kernel.Follows, hi] at hset
      simp only [Kernel.Follows, Kernel.goto, Function.update_self]
      exact ⟨.before, hbody _ _, by simpa [Stands, Settled] using hset, fun _ => trivial⟩
    · have hl : Local k ({ k with events := .called k.current c :: k.events }.goto
          (.run c (body k.current c))) := .goto _ rfl rfl (Or.inr ⟨_, rfl, rfl⟩)
      exact hl.follows ht (hf t)
  | exec ha =>
    by_cases ht : t = k.current
    · subst ht
      exact (hf _).advance ha
    · exact (local_advance ha).follows ht (hf t)
  | switch => exact hf t

end Discipline

section Holders

variable {k : Kernel ι σ κ α n} {s : ι} {t u : Fin n} {body : Fin n → κ → Prog ι σ α}
  {c₀ : ι → ℤ} (ev : List (Event ι κ α n))

theorem length_eq_sum_count (l : List (Fin n)) : l.length = ∑ t, l.count t := by
  simpa using (Multiset.sum_count_eq_card (m := (l : Multiset (Fin n)))
    (s := Finset.univ) fun t _ => Finset.mem_univ t).symm

theorem length_entriesOf (l : List (Fin n × κ)) (t : Fin n) :
    (l.filterMap fun e => if e.1 = t then some e.2 else none).length =
      (l.map Prod.fst).count t := by
  induction l with
  | nil => rfl
  | cons e l ih => by_cases he : e.1 = t <;> simp [he, ih]

theorem length_entries (s : ι) :
    (ev.filterMap (Event.entry s)).length = ∑ t, (entriesOf ev t s).length := by
  rw [← List.length_map Prod.fst, length_eq_sum_count]
  exact Finset.sum_congr rfl fun t _ => (length_entriesOf _ t).symm

theorem length_leaves (s : ι) : (ev.filterMap (Event.leave s)).length = ∑ t, leavesOf ev t s :=
  length_eq_sum_count _

theorem Kernel.Follows.balance (hf : k.Follows t s body) [Decidable (k.Holds t s)] :
    (entriesOf k.events t s).length = leavesOf k.events t s + if k.Holds t s then 1 else 0 := by
  have hcases : ∀ c st, Stands k.events t s c st →
      (entriesOf k.events t s).length = leavesOf k.events t s ∨
        (entriesOf k.events t s).length = leavesOf k.events t s + 1 := by
    rintro c st hst
    cases st with
    | before => exact Or.inl hst.2.symm
    | inside => exact Or.inr hst.2.symm
    | after => exact Or.inl hst.2.symm
  have hor : (entriesOf k.events t s).length = leavesOf k.events t s ∨
      (entriesOf k.events t s).length = leavesOf k.events t s + 1 := by
    unfold Kernel.Follows at hf
    split at hf
    · exact Or.inl hf.2.symm
    · obtain ⟨st, -, hst, -⟩ := hf
      exact hcases _ st hst
    · obtain ⟨-, -, hst⟩ := hf
      split at hst
      · exact hcases _ _ hst
      · exact hcases _ _ hst.1
    · exact hcases _ _ hf.2.2
  split
  · have hlt : leavesOf k.events t s < (entriesOf k.events t s).length := ‹_›
    omega
  · have hlt : ¬ leavesOf k.events t s < (entriesOf k.events t s).length := ‹_›
    omega

theorem count_add_holders (h : SemInv c₀ k) (hf : ∀ t, k.Follows t s body) :
    k.count s + {t | k.Holds t s}.ncard = c₀ s := by
  classical
  have hsum : k.waits s = k.signals s + {t | k.Holds t s}.ncard := by
    rw [Kernel.waits, Kernel.signals, Kernel.entries, Kernel.leaves, length_entries,
      length_leaves, Set.ncard_eq_toFinset_card', Set.toFinset_ofPred, Finset.card_filter,
      ← Finset.sum_add_distrib]
    exact Finset.sum_congr rfl fun t _ => (hf t).balance
  have := h.balance s
  omega

end Holders

section Exclusive

variable {k k' : Kernel ι σ κ α n} {s : ι} {t u : Fin n} {body : Fin n → κ → Prog ι σ α}
  {c₀ : ι → ℤ} {a : Act κ n} {x : σ}

/-- The semaphore is used as a lock by every call. -/
structure Exclusive (body : Fin n → κ → Prog ι σ α) (c₀ : ι → ℤ) (s : ι)
    (k : Kernel ι σ κ α n) : Prop where
  sem : SemInv c₀ k
  follows : ∀ t, k.Follows t s body

theorem exclusive_init (h : ∀ s, 0 ≤ c₀ s ∧ c₀ s < 2 ^ 31) :
    Exclusive body c₀ s (.init x c₀ t) :=
  ⟨semInv_init h, fun _ => ⟨rfl, rfl⟩⟩

theorem Exclusive.step (h : Exclusive body c₀ s k) (hc : c₀ s = 1)
    (hbody : ∀ t c, (body t c).Bracketed s .before) (hs : Step body k a k') :
    Exclusive body c₀ s k' := by
  refine ⟨h.sem.step ?_ hs, fun t => Kernel.Follows.step hbody h.follows hs t⟩
  cases a with
  | exec =>
    intro c s' p hp
    have hf := h.follows k.current
    simp only [Kernel.Follows, hp] at hf
    obtain ⟨rfl, -⟩ := hf
    have := count_add_holders h.sem h.follows
    omega
  | call => trivial
  | switch => trivial

theorem Exclusive.unique (h : Exclusive body c₀ s k) (hc : c₀ s = 1) (ht : k.Holds t s)
    (hu : k.Holds u s) : t = u := by
  have hsum := count_add_holders h.sem h.follows
  have hpos := (h.sem.range s).1
  have hle : {t | k.Holds t s}.ncard ≤ 1 := by omega
  exact (Set.ncard_le_one (Set.toFinite _)).mp hle t ht u hu

theorem Exclusive.holds_of_act (h : Exclusive body c₀ s k) {c : κ} {f : σ → σ}
    {p : σ → Prog ι σ α} (hp : k.phase t = .run c (.act f p)) : k.Holds t s := by
  have hf := h.follows t
  simp only [Kernel.Follows, hp] at hf
  obtain ⟨st, ⟨rfl, -⟩, ⟨-, hst⟩, -⟩ := hf
  exact Nat.lt_of_succ_le hst.le

/-- The threads never all sleep at once. -/
theorem Exclusive.awake (h : Exclusive body c₀ s k) (hc : c₀ s = 1) : ∃ t, k.sleep t = false := by
  by_contra hall
  simp only [not_exists, Bool.not_eq_false] at hall
  have hphase : ∀ t, ∃ c pc p, k.phase t = .waiting c s pc p ∧ (pc = .unlock ∨ pc = .spin) ∧
      k.currentWaiting t = some s := fun t => by
    obtain ⟨c, s', pc, p, hp, hpc, hw⟩ := h.sem.asleep t (hall t)
    have hf := h.follows t
    simp only [Kernel.Follows, hp] at hf
    obtain ⟨rfl, -⟩ := hf
    exact ⟨c, pc, p, hp, hpc, hw⟩
  have hfree : {t | k.Holds t s} = ∅ := by
    refine Set.eq_empty_of_forall_notMem fun t ht => ?_
    obtain ⟨c, pc, p, hp, hpc, -⟩ := hphase t
    have hf := h.follows t
    have ht : leavesOf k.events t s < (entriesOf k.events t s).length := ht
    simp only [Kernel.Follows, hp] at hf
    rcases hpc with rfl | rfl <;> simp [Stands] at hf <;> omega
  have hnone : {t | k.Pending t s} = ∅ := by
    refine Set.eq_empty_of_forall_notMem fun t ht => ?_
    obtain ⟨c, pc, p, hp, hpc, -⟩ := hphase t
    rcases hpc with rfl | rfl <;>
      simp [Kernel.Pending, Kernel.Woken, hall t, hp, Phase.Owes] at ht
  have hsum := count_add_holders h.sem h.follows
  obtain ⟨-, -, -, -, -, hw⟩ := hphase k.current
  have hwake := h.sem.wakeups s ⟨k.current, hall _, hw⟩
  rw [hfree, Set.ncard_empty, hc] at hsum
  rw [hnone, Set.ncard_empty] at hwake
  omega

end Exclusive

section Serial

variable {k k' : Kernel ι σ κ α n} {s : ι} {t u : Fin n} {body : Fin n → κ → Prog ι σ α}
  {c₀ : ι → ℤ} {a : Act κ n} {x x₀ : σ} {L L' : List (Fin n × κ)}

def runAll (body : Fin n → κ → Prog ι σ α) : σ → List (Fin n × κ) → Option σ
  | x, [] => some x
  | x, (t, c) :: L => ((body t c).run x).bind fun r => runAll body r.2 L

omit [DecidableEq ι] in
theorem runAll_append : runAll body x (L ++ L') = (runAll body x L).bind (runAll body · L') := by
  induction L generalizing x with
  | nil => rfl
  | cons e L ih =>
    simp only [List.cons_append, runAll, Option.bind_assoc]
    exact congrArg _ (funext fun r => ih)

def Kernel.rest (k : Kernel ι σ κ α n) (t : Fin n) : Option (κ × Prog ι σ α) :=
  match k.phase t with
  | .idle => none
  | .run c p => some (c, p)
  | .waiting c _ _ p => some (c, p)
  | .signalling c _ _ p => some (c, p)

/-- The calls that got the semaphore took effect in that order, up to the rest of the last one
while its thread still holds it. -/
structure Serial (body : Fin n → κ → Prog ι σ α) (s : ι) (x₀ : σ) (k : Kernel ι σ κ α n) :
    Prop where
  free : (∀ t, ¬ k.Holds t s) → runAll body x₀ (k.entries s).reverse = some k.shared
  held : ∀ t, k.Holds t s → ∃ c p L x, k.rest t = some (c, p) ∧ k.entries s = (t, c) :: L ∧
    runAll body x₀ L.reverse = some x ∧ (body t c).run x = p.run k.shared

theorem Local.holds (h : Local k k') (ht : t ≠ k.current) : k'.Holds t s ↔ k.Holds t s := by
  obtain ⟨-, h₁, h₂⟩ := h.books (s := s) ht
  rw [Kernel.Holds, Kernel.Holds, h₁, h₂]

omit [DecidableEq ι] in
theorem Local.rest (h : Local k k') (ht : t ≠ k.current) : k'.rest t = k.rest t := by
  rw [Kernel.rest, Kernel.rest, h.phase t ht]

theorem Serial.quiet (h : Serial body s x₀ k) (hl : Local k k') (hsh : k'.shared = k.shared)
    (hent : k'.entries s = k.entries s) (hholds : k'.Holds k.current s ↔ k.Holds k.current s)
    (hrest : k.Holds k.current s → ∀ c p, k.rest k.current = some (c, p) →
      ∃ p', k'.rest k.current = some (c, p') ∧ p'.run k.shared = p.run k.shared) :
    Serial body s x₀ k' := by
  have hall : ∀ t, k'.Holds t s ↔ k.Holds t s := fun t => by
    by_cases ht : t = k.current
    · exact ht ▸ hholds
    · exact hl.holds ht
  refine ⟨fun hf => ?_, fun t ht => ?_⟩
  · rw [hent, hsh]
    exact h.free fun t ht => hf t ((hall t).mpr ht)
  · rw [hall] at ht
    obtain ⟨c, p, L, x, h₁, h₂, h₃, h₄⟩ := h.held t ht
    by_cases htc : t = k.current
    · subst htc
      obtain ⟨p', hp', hr⟩ := hrest ht c p h₁
      exact ⟨c, p', L, x, hp', hent.trans h₂, h₃, by rw [h₄, hsh, hr]⟩
    · exact ⟨c, p, L, x, (hl.rest htc).trans h₁, hent.trans h₂, h₃, by rw [h₄, hsh]⟩

theorem Serial.move (h : Serial body s x₀ k) {c : κ} {p q : Prog ι σ α}
    (hrest : k.rest k.current = some (c, p)) (hl : Local k k') (hsh : k'.shared = k.shared)
    (hev : k'.events = k.events) (hr : k'.rest k.current = some (c, q))
    (hrun : q.run k.shared = p.run k.shared) : Serial body s x₀ k' := by
  apply h.quiet hl hsh
  · rw [Kernel.entries, hev, Kernel.entries]
  · rw [Kernel.Holds, hev, Kernel.Holds]
  · intro _ c' p' hr'
    obtain ⟨rfl, rfl⟩ := Prod.mk.inj (Option.some.inj (hrest.symm.trans hr'))
    exact ⟨q, hr, hrun⟩

theorem Serial.stay (h : Serial body s x₀ k) {c : κ} {p : Prog ι σ α}
    (hrest : k.rest k.current = some (c, p)) (hl : Local k k') (hsh : k'.shared = k.shared)
    (hev : k'.events = k.events) (hr : k'.rest k.current = some (c, p)) : Serial body s x₀ k' :=
  h.move hrest hl hsh hev hr rfl

omit [DecidableEq ι] in
theorem rest_goto (k : Kernel ι σ κ α n) (ph : Phase ι σ κ α n) :
    (k.goto ph).rest k.current =
      match ph with
      | .idle => none
      | .run c p => some (c, p)
      | .waiting c _ _ p => some (c, p)
      | .signalling c _ _ p => some (c, p) := by
  simp [Kernel.rest, Kernel.goto]

theorem Serial.waitStep (h : Serial body s x₀ k) (he : Exclusive body c₀ s k) (hc : c₀ s = 1)
    {c : κ} {s' : ι} {pc : WaitPc} {p : Prog ι σ α}
    (hp : k.phase k.current = .waiting c s' pc p) :
    Serial body s x₀ (Kmt.waitStep k c s' p pc) := by
  have hl : Local k (Kmt.waitStep k c s' p pc) := local_waitStep pc
  have hf := he.follows k.current
  simp only [Kernel.Follows, hp] at hf
  obtain ⟨rfl, hb, hst⟩ := hf
  have hrest : k.rest k.current = some (c, p) := by rw [Kernel.rest, hp]
  cases pc with
  | take =>
    obtain ⟨⟨h₁, h₂⟩, h₃⟩ : Stands k.events k.current s' c .before ∧
      body k.current c = .wait s' p := by simpa using hst
    have hpos : 0 < k.count s' := by simpa [Kernel.Here, hp] using he.sem.here
    have hnone : ∀ t, ¬ k.Holds t s' := by
      have hsum := count_add_holders he.sem he.follows
      have hzero : {t | k.Holds t s'}.ncard = 0 := by omega
      rw [Set.ncard_eq_zero (Set.toFinite _)] at hzero
      exact fun t ht => Set.notMem_empty t (hzero ▸ ht)
    have hent : (Kmt.waitStep k c s' p .take).entries s' = (k.current, c) :: k.entries s' := by
      simp [Kmt.waitStep, Kernel.goto, Kernel.entries, Event.entry]
    have hholds : (Kmt.waitStep k c s' p .take).Holds k.current s' := by
      simp [Kmt.waitStep, Kernel.goto, Kernel.Holds, h₂]
    refine ⟨fun hfree => absurd hholds (hfree _), fun t ht => ?_⟩
    by_cases htc : t = k.current
    · subst htc
      refine ⟨c, p, _, _, ?_, hent, h.free hnone, ?_⟩
      · simp [Kmt.waitStep, Kernel.goto, Kernel.rest]
      · rw [h₃]
        rfl
    · exact absurd ((hl.holds htc).mp ht) (hnone t)
  | test again =>
    rw [Kmt.waitStep] at hl ⊢
    split at hl
    · rw [if_pos ‹_›]
      exact h.stay hrest hl rfl rfl (rest_goto _ _)
    · rw [if_neg ‹_›]
      exact h.stay hrest hl rfl rfl (rest_goto _ _)
  | spin =>
    rw [Kmt.waitStep] at hl ⊢
    split at hl
    · rwa [if_pos ‹_›]
    · rw [if_neg ‹_›]
      exact h.stay hrest hl rfl rfl (rest_goto _ _)
  | _ => exact h.stay hrest hl rfl rfl (rest_goto _ _)

theorem Serial.signalStep (h : Serial body s x₀ k) (he : Exclusive body c₀ s k) (hc : c₀ s = 1)
    {c : κ} {s' : ι} {pc : SignalPc n} {p : Prog ι σ α}
    (hp : k.phase k.current = .signalling c s' pc p) :
    Serial body s x₀ (Kmt.signalStep k c s' p pc) := by
  have hl : Local k (Kmt.signalStep k c s' p pc) := local_signalStep pc
  have hf := he.follows k.current
  simp only [Kernel.Follows, hp] at hf
  obtain ⟨rfl, hb, hst⟩ := hf
  have hrest : k.rest k.current = some (c, p) := by rw [Kernel.rest, hp]
  cases pc with
  | inc =>
    obtain ⟨h₁, h₂⟩ : Stands k.events k.current s' c .inside := by simpa using hst
    have hin : k.Holds k.current s' := Nat.lt_of_succ_le h₂.le
    have hent : (Kmt.signalStep k c s' p .inc).entries s' = k.entries s' := rfl
    have hout : ¬ (Kmt.signalStep k c s' p .inc).Holds k.current s' := by
      simp [Kmt.signalStep, Kernel.goto, Kernel.Holds, h₂]
    refine ⟨fun _ => ?_, fun t ht => ?_⟩
    · -- behind the signal the call only returns, so it has had its whole effect
      obtain ⟨c', p', L, x, hr, hL, hx, hrun⟩ := h.held _ hin
      obtain ⟨rfl, rfl⟩ := Prod.mk.inj (Option.some.inj (hrest.symm.trans hr))
      obtain ⟨b, rfl⟩ := hb.eq_ret
      rw [hent, hL, List.reverse_cons, runAll_append, hx]
      simp [runAll, hrun, Kmt.signalStep, Kernel.goto]
    · by_cases htc : t = k.current
      · exact absurd (htc ▸ ht) hout
      · exact absurd (he.unique hc ((hl.holds htc).mp ht) hin) htc
  | scan i =>
    rw [Kmt.signalStep] at hl ⊢
    split at hl
    · rename_i hi
      rw [dif_pos hi]
      split at hl
      · rw [if_pos ‹_›]
        exact h.stay hrest hl rfl rfl (rest_goto _ _)
      · rw [if_neg ‹_›]
        exact h.stay hrest hl rfl rfl (rest_goto _ _)
    · rw [dif_neg ‹_›]
      exact h.stay hrest hl rfl rfl (rest_goto _ _)
  | _ => exact h.stay hrest hl rfl rfl (rest_goto _ _)

theorem Serial.advance (h : Serial body s x₀ k) (he : Exclusive body c₀ s k) (hc : c₀ s = 1)
    (ha : Kmt.advance k = some k') : Serial body s x₀ k' := by
  have hl : Local k k' := local_advance ha
  unfold Kmt.advance at ha
  cases hp : k.phase k.current with
  | idle => simp [hp] at ha
  | waiting c s' pc p =>
    simp only [hp, Option.some.injEq] at ha
    exact ha ▸ h.waitStep he hc hp
  | signalling c s' pc p =>
    simp only [hp, Option.some.injEq] at ha
    exact ha ▸ h.signalStep he hc hp
  | run c p =>
    have hrest : k.rest k.current = some (c, p) := by rw [Kernel.rest, hp]
    have hf := he.follows k.current
    simp only [Kernel.Follows, hp] at hf
    obtain ⟨st, hb, hst, -⟩ := hf
    cases p with
    | ret b =>
      simp only [hp, Option.some.injEq] at ha
      subst ha
      obtain rfl : st = .after := hb
      have hnot : ¬ k.Holds k.current s := Nat.not_lt.mpr hst.2.ge
      exact h.quiet hl rfl rfl (by simp [Kernel.Holds, Kernel.goto]) fun hh => absurd hh hnot
    | stop => simp [hp] at ha
    | act f q =>
      simp only [hp, Option.some.injEq] at ha
      have hin : k.Holds k.current s := he.holds_of_act hp
      have hholds : ∀ t, k'.Holds t s ↔ k.Holds t s := fun t => by rw [← ha]; rfl
      have hent : k'.entries s = k.entries s := by rw [← ha]; rfl
      refine ⟨fun hfree => absurd ((hholds _).mpr hin) (hfree _), fun t ht => ?_⟩
      obtain rfl := he.unique hc ((hholds t).mp ht) hin
      obtain ⟨c', p', L, x, hr, hL, hx, hrun⟩ := h.held _ hin
      obtain ⟨rfl, rfl⟩ := Prod.mk.inj (Option.some.inj (hrest.symm.trans hr))
      refine ⟨c, q k.shared, L, x, ?_, hent.trans hL, hx, ?_⟩
      · rw [← ha]
        exact rest_goto _ _
      · rw [hrun, ← ha]
        rfl
    | wait s' q =>
      simp only [hp, Option.some.injEq] at ha
      subst ha
      exact h.move hrest hl rfl rfl (rest_goto _ _) rfl
    | signal s' q =>
      simp only [hp, Option.some.injEq] at ha
      subst ha
      exact h.move hrest hl rfl rfl (rest_goto _ _) rfl

theorem Serial.step (h : Serial body s x₀ k) (he : Exclusive body c₀ s k) (hc : c₀ s = 1)
    (hs : Step body k a k') : Serial body s x₀ k' := by
  cases hs with
  | @call c hi =>
    have hset := he.follows k.current
    simp only [Kernel.Follows, hi] at hset
    have hnot : ¬ k.Holds k.current s := Nat.not_lt.mpr hset.2.ge
    exact h.quiet (.goto _ rfl rfl (Or.inr ⟨_, rfl, rfl⟩)) rfl rfl
      (by simp [Kernel.Holds, Kernel.goto]) fun hh => absurd hh hnot
  | exec ha => exact h.advance he hc ha
  | switch => exact ⟨h.free, h.held⟩

theorem serial_init : Serial body s x (.init x c₀ t) :=
  ⟨fun _ => rfl, fun _ ht => absurd ht (Nat.lt_irrefl 0)⟩

/-- In every run one thread at a time holds the semaphore, and the calls take effect in the
order in which they got it. -/
theorem exclusive_serial {P : Kernel ι σ κ α n → Act κ n → Prop}
    (hinit : ∀ s, 0 ≤ c₀ s ∧ c₀ s < 2 ^ 31) (hc : c₀ s = 1)
    (hbody : ∀ t c, (body t c).Bracketed s .before)
    (hr : Run (Step body) P (.init x c₀ t) k) :
    Exclusive body c₀ s k ∧ Serial body s x k := by
  apply hr.invariant (I := fun k => Exclusive body c₀ s k ∧ Serial body s x k)
  · exact ⟨exclusive_init hinit, serial_init⟩
  · rintro k a k' ⟨he, hser⟩ - hs
    exact ⟨he.step hc hbody hs, hser.step he hc hs⟩

end Serial

section Calls

variable {k k' : Kernel ι σ κ α n} {s : ι} {t u : Fin n} {body : Fin n → κ → Prog ι σ α}
  {c₀ : ι → ℤ} {c : κ} {x : σ} {Q : Fin n → κ → Prop} {p : Prog ι σ α}

def Calls (Q : Fin n → κ → Prop) (k : Kernel ι σ κ α n) : Act κ n → Prop
  | .call c => Q k.current c
  | _ => True

omit [DecidableEq ι] in
theorem callsOf_entry {e : Event ι κ α n} (he : e.call t = none) (ev : List (Event ι κ α n)) :
    callsOf (e :: ev) t = callsOf ev t := by
  simp [callsOf, he]

theorem callsOf_waitStep (pc : WaitPc) :
    callsOf (waitStep k c s p pc).events t = callsOf k.events t := by
  cases pc with
  | test => rw [waitStep]; split <;> rfl
  | spin => rw [waitStep]; split <;> rfl
  | _ => rfl

theorem callsOf_signalStep (pc : SignalPc n) :
    callsOf (signalStep k c s p pc).events t = callsOf k.events t := by
  cases pc with
  | scan i =>
    rw [signalStep]
    split
    · split <;> rfl
    · rfl
  | _ => rfl

theorem callsOf_advance (ha : advance k = some k') :
    callsOf k'.events t = callsOf k.events t := by
  unfold advance at ha
  split at ha <;> simp only [Option.some.injEq, reduceCtorEq] at ha <;> subst ha
  · exact callsOf_entry rfl _
  · rfl
  · rfl
  · rfl
  · exact callsOf_waitStep _
  · exact callsOf_signalStep _

theorem calls_of_run (hr : Run (Step body) (Calls Q) (.init x c₀ t) k) :
    ∀ u, ∀ c ∈ callsOf k.events u, Q u c := by
  apply hr.invariant (I := fun k => ∀ u, ∀ c ∈ callsOf k.events u, Q u c)
  · intro u c hc
    simp [Kernel.init, callsOf] at hc
  · rintro k a k' ih hq hs u c hc
    cases hs with
    | @call c' hi =>
      by_cases hu : u = k.current
      · subst hu
        have hc : c ∈ c' :: callsOf k.events k.current := by simpa [Kernel.goto] using hc
        rcases List.mem_cons.mp hc with rfl | hc
        · exact hq
        · exact ih _ _ hc
      · have hne : (Event.called k.current c' : Event ι κ α n).call u = none := by
          simp [Event.call, Ne.symm hu]
        rw [Kernel.goto, callsOf_entry hne] at hc
        exact ih _ _ hc
    | exec ha => exact ih _ _ (callsOf_advance ha ▸ hc)
    | switch => exact ih _ _ hc

theorem Exclusive.calls_of_entries (h : Exclusive body c₀ s k) :
    ∀ e ∈ k.entries s, e.2 ∈ callsOf k.events e.1 := by
  rintro ⟨t, c⟩ he
  have hc : c ∈ entriesOf k.events t s := List.mem_filterMap.mpr ⟨_, he, by simp⟩
  have hst : ∀ c' st, Stands k.events t s c' st → c ∈ callsOf k.events t := by
    rintro c' st hst
    cases st with
    | before => exact hst.1 ▸ List.mem_cons_of_mem _ hc
    | inside => exact hst.1 ▸ hc
    | after => exact hst.1 ▸ hc
  have hf := h.follows t
  unfold Kernel.Follows at hf
  split at hf
  · exact hf.1 ▸ hc
  · obtain ⟨st, -, hs, -⟩ := hf
    exact hst _ st hs
  · obtain ⟨-, -, hs⟩ := hf
    split at hs
    · exact hst _ _ hs
    · exact hst _ _ hs.1
  · exact hst _ _ hf.2.2

end Calls

end NSOS.Kmt
