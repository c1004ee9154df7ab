import NSOS.Basis.Trace
import NSOS.Kmt.Exclusion

/-! # Linearizability

When every call uses a semaphore as a lock, the threads see the results that the
calls have when they run alone, one after the other, in the order in which they
got the semaphore. A call gets it after it is made and before it returns.
-/

namespace NSOS.Kmt

open Basis

variable {ι σ κ α : Type} {n : ℕ} [DecidableEq ι]

section Results

def Event.result (t : Fin n) : Event ι κ α n → Option (κ × α)
  | .returned u c a => if u = t then some (c, a) else none
  | _ => none

/-- The results that a thread has seen, newest first. -/
def returnsOf (ev : List (Event ι κ α n)) (t : Fin n) : List (κ × α) :=
  ev.filterMap (Event.result t)

abbrev Entry (κ α : Type) (n : ℕ) : Type := (Fin n × κ) × α

def resultsOf (E : List (Entry κ α n)) (t : Fin n) : List (κ × α) :=
  E.filterMap fun e => if e.1.1 = t then some (e.1.2, e.2) else none

def Atomic (body : Fin n → κ → Prog ι σ α) (P : σ → Fin n × κ → Prop) (x : σ)
    (e : Entry κ α n) (y : σ) : Prop :=
  P x e.1 ∧ (body e.1.1 e.1.2).run x = some (e.2, y)

def Phase.entering (s : ι) : Phase ι σ κ α n → Option κ
  | .waiting c s' .take _ => if s' = s then some c else none
  | _ => none

/-- A call that gets the semaphore is allowed in the state that it finds. -/
def Admits (s : ι) (P : σ → Fin n × κ → Prop) (k : Kernel ι σ κ α n) : Act κ n → Prop
  | .exec => ∀ c ∈ (k.phase k.current).entering s, P k.shared (k.current, c)
  | _ => True

instance {s : ι} {P : σ → Fin n × κ → Prop} [∀ x, DecidablePred (P x)] {k : Kernel ι σ κ α n}
    {a : Act κ n} : Decidable (Admits s P k a) := by
  cases a <;> unfold Admits <;> infer_instance

def Phase.due : Phase ι σ κ α n → List (κ × α)
  | .run c (.ret a) => [(c, a)]
  | .signalling c _ pc (.ret a) => if pc = .lock ∨ pc = .inc then [] else [(c, a)]
  | _ => []

end Results

section Linear

variable {k k' : Kernel ι σ κ α n} {s : ι} {t : Fin n} {body : Fin n → κ → Prog ι σ α}
  {c₀ : ι → ℤ} {a : Act κ n} {x x₀ y : σ} {P : σ → Fin n × κ → Prop} {E : List (Entry κ α n)}
  {c : κ} {p : Prog ι σ α} {b : α}

/-- The history `E` leads to `y`, the state before the call that is inside. Every thread has seen
its results up to the one that it is about to return. -/
structure Linear (body : Fin n → κ → Prog ι σ α) (s : ι) (P : σ → Fin n × κ → Prop) (x₀ : σ)
    (k : Kernel ι σ κ α n) (E : List (Entry κ α n)) (y : σ) : Prop where
  trace : Trace (Atomic body P) x₀ E y
  free : (∀ t, ¬ k.Holds t s) → k.entries s = E.map Prod.fst
  held : ∀ t, k.Holds t s → ∃ c, k.entries s = (t, c) :: E.map Prod.fst ∧ P y (t, c)
  seen : ∀ t, resultsOf E t = (k.phase t).due ++ returnsOf k.events t

omit [DecidableEq ι] in
theorem runAll_of_trace (h : Trace (Atomic body P) x E y) :
    runAll body x (E.map Prod.fst).reverse = some y := by
  induction h with
  | nil => rfl
  | @cons x' y' e E _ hst ih =>
    rw [List.map_cons, List.reverse_cons, runAll_append, ih, Option.bind_some, runAll, hst.2]
    rfl

omit [DecidableEq ι] in
theorem Local.returnsOf (h : Local k k') (ht : t ≠ k.current) :
    returnsOf k'.events t = returnsOf k.events t := by
  rcases h.events with he | ⟨e, hu, he⟩
  · rw [he]
  · have hnone : e.result t = none := by
      cases e with
      | returned u c a => exact if_neg fun heq : u = t => ht (heq.symm.trans hu)
      | _ => rfl
    rw [he, Kmt.returnsOf, List.filterMap_cons_none hnone, Kmt.returnsOf]

theorem Linear.quiet (h : Linear body s P x₀ k E y) (hl : Local k k')
    (hent : k'.entries s = k.entries s) (hholds : k'.Holds k.current s ↔ k.Holds k.current s)
    (hseen : (k'.phase k.current).due ++ returnsOf k'.events k.current =
      (k.phase k.current).due ++ returnsOf k.events k.current) : Linear body s P x₀ k' E y := by
  have hall : ∀ t, k'.Holds t s ↔ k.Holds t s := fun t => by
    by_cases ht : t = k.current
    · exact ht ▸ hholds
    · exact hl.holds ht
  constructor
  case trace => exact h.trace
  case free => exact fun hf => hent.trans (h.free fun t ht => hf t ((hall t).mpr ht))
  case held =>
    intro t ht
    rw [hent]
    exact h.held t ((hall t).mp ht)
  case seen =>
    intro t
    by_cases ht : t = k.current
    · subst ht
      rw [hseen, h.seen]
    · rw [hl.phase t ht, hl.returnsOf ht, h.seen]

theorem Linear.goto (h : Linear body s P x₀ k E y) {k₁ : Kernel ι σ κ α n}
    {ph ph' : Phase ι σ κ α n} (hp : k.phase k.current = ph) (hcurrent : k₁.current = k.current)
    (hphase : k₁.phase = k.phase) (hev : k₁.events = k.events) (hdue : ph'.due = ph.due) :
    Linear body s P x₀ (k₁.goto ph') E y := by
  have hl : Local k (k₁.goto ph') := .goto _ hcurrent hphase (.inl hev)
  have hev' : (k₁.goto ph').events = k.events := hev
  apply h.quiet hl
  · rw [Kernel.entries, hev', Kernel.entries]
  · rw [Kernel.Holds, hev', Kernel.Holds]
  · have hphase' : (k₁.goto ph').phase k.current = ph' := hcurrent ▸ Function.update_self ..
    rw [hphase', hdue, hev', hp]

theorem Exclusive.free_of_take (he : Exclusive body c₀ s k) (hc : c₀ s = 1)
    (hp : k.phase k.current = .waiting c s .take p) : ∀ t, ¬ k.Holds t s := by
  have hpos : 0 < k.count s := by simpa [Kernel.Here, hp] using he.sem.here
  have hsum := count_add_holders he.sem he.follows
  have hzero : {t | k.Holds t s}.ncard = 0 := by omega
  rw [Set.ncard_eq_zero (Set.toFinite _)] at hzero
  exact fun t ht => Set.notMem_empty t (hzero ▸ ht)

omit [DecidableEq ι] in
theorem due_run {st : Prog.Stage} (h : p.Bracketed s st) (hst : st ≠ .after) :
    (Phase.run c p : Phase ι σ κ α n).due = [] := by
  cases p with
  | ret b => exact absurd h hst
  | _ => rfl

theorem Linear.waitStep (h : Linear body s P x₀ k E y) (he : Exclusive body c₀ s k)
    (hser : Serial body s x₀ k) (hc : c₀ s = 1) (hP : Admits s P k .exec) {s' : ι} {pc : WaitPc}
    (hp : k.phase k.current = .waiting c s' pc p) :
    Linear body s P x₀ (Kmt.waitStep k c s' p pc) E y := by
  have hl : Local k (Kmt.waitStep k c s' p pc) := local_waitStep pc
  have hf := he.follows k.current
  simp only [Kernel.Follows, hp] at hf
  obtain ⟨rfl, hb, hst⟩ := hf
  cases pc with
  | take =>
    obtain ⟨⟨h₁, h₂⟩, -⟩ : Stands k.events k.current s' c .before ∧
      body k.current c = .wait s' p := by simpa using hst
    have hnone := he.free_of_take hc hp
    have hshared : y = k.shared := by
      have hrun := runAll_of_trace h.trace
      rw [← h.free hnone, hser.free hnone] at hrun
      exact (Option.some.inj hrun).symm
    have hent : (Kmt.waitStep k c s' p .take).entries s' = (k.current, c) :: k.entries s' := by
      simp [Kmt.waitStep, Kernel.goto, Kernel.entries, Event.entry]
    have hholds : (Kmt.waitStep k c s' p .take).Holds k.current s' := by
      simp [Kmt.waitStep, Kernel.goto, Kernel.Holds, h₂]
    constructor
    case trace => exact h.trace
    case free => exact fun hfree => absurd hholds (hfree _)
    case held =>
      intro t ht
      by_cases htc : t = k.current
      · subst htc
        refine ⟨c, by rw [hent, h.free hnone], ?_⟩
        rw [hshared]
        exact hP c (by rw [hp, Phase.entering, if_pos rfl, Option.mem_some_iff])
      · exact absurd ((hl.holds htc).mp ht) (hnone t)
    case seen =>
      intro t
      by_cases ht : t = k.current
      · subst ht
        have hphase : (Kmt.waitStep k c s' p .take).phase k.current = .waiting c s' .release p :=
          Function.update_self ..
        rw [h.seen, hp, hphase]
        rfl
      · rw [hl.phase t ht, hl.returnsOf ht, h.seen]
  | test again =>
    rw [Kmt.waitStep]
    split
    · exact h.goto hp rfl rfl rfl rfl
    · exact h.goto hp rfl rfl rfl rfl
  | spin =>
    rw [Kmt.waitStep]
    split
    · exact h
    · exact h.goto hp rfl rfl rfl rfl
  | release => exact h.goto hp rfl rfl rfl (due_run hb (by decide))
  | _ => exact h.goto hp rfl rfl rfl rfl

theorem Linear.signalStep (h : Linear body s P x₀ k E y) (he : Exclusive body c₀ s k)
    (hser : Serial body s x₀ k) (hc : c₀ s = 1) {s' : ι} {pc : SignalPc n}
    (hp : k.phase k.current = .signalling c s' pc p) :
    ∃ E' y, Linear body s P x₀ (Kmt.signalStep k c s' p pc) E' y ∧ E <:+ E' := by
  have hl : Local k (Kmt.signalStep k c s' p pc) := local_signalStep pc
  have hf := he.follows k.current
  simp only [Kernel.Follows, hp] at hf
  obtain ⟨rfl, hb, hst⟩ := hf
  obtain ⟨b, rfl⟩ := hb.eq_ret
  cases pc with
  | inc =>
    obtain ⟨h₁, h₂⟩ : Stands k.events k.current s' c .inside := by simpa using hst
    have hin : k.Holds k.current s' := Nat.lt_of_succ_le h₂.le
    have hout : ¬ (Kmt.signalStep k c s' (.ret b) .inc).Holds k.current s' := by
      simp [Kmt.signalStep, Kernel.goto, Kernel.Holds, h₂]
    have hnone : ∀ t, ¬ (Kmt.signalStep k c s' (.ret b) .inc).Holds t s' := by
      intro t ht
      by_cases htc : t = k.current
      · exact hout (htc ▸ ht)
      · exact htc (he.unique hc ((hl.holds htc).mp ht) hin)
    -- behind the signal the call only returns, so it has had its whole effect
    obtain ⟨c', hent, hallowed⟩ := h.held _ hin
    obtain ⟨c'', p', L, x, hr, hL, hx, hrun⟩ := hser.held _ hin
    have hrest : k.rest k.current = some (c, .ret b) := by rw [Kernel.rest, hp]
    obtain ⟨rfl, rfl⟩ := Prod.mk.inj (Option.some.inj (hrest.symm.trans hr))
    obtain ⟨hcall, rfl⟩ := List.cons.inj (hL.symm.trans hent)
    obtain rfl : c = c' := congrArg Prod.snd hcall
    obtain rfl : x = y := Option.some.inj (hx.symm.trans (runAll_of_trace h.trace))
    refine ⟨((k.current, c), b) :: E, k.shared, ?_, List.suffix_cons _ _⟩
    constructor
    case trace => exact .cons h.trace ⟨hallowed, hrun⟩
    case free => exact fun _ => hent
    case held => exact fun t ht => absurd ht (hnone t)
    case seen =>
      intro t
      by_cases ht : t = k.current
      · subst ht
        have hold := h.seen k.current
        rw [hp] at hold
        have hnew : resultsOf (((k.current, c), b) :: E) k.current =
            (c, b) :: resultsOf E k.current := by simp [resultsOf]
        have hphase : (Kmt.signalStep k c s' (.ret b) .inc).phase k.current =
            .signalling c s' (.scan 0) (.ret b) := Function.update_self ..
        rw [hnew, hold, hphase]
        rfl
      · have hnew : resultsOf (((k.current, c), b) :: E) t = resultsOf E t := by
          simp [resultsOf, Ne.symm ht]
        rw [hnew, h.seen, hl.phase t ht, hl.returnsOf ht]
  | scan i =>
    refine ⟨E, y, ?_, List.suffix_rfl⟩
    rw [Kmt.signalStep]
    split
    · split
      · exact h.goto hp rfl rfl rfl rfl
      · exact h.goto hp rfl rfl rfl rfl
    · exact h.goto hp rfl rfl rfl rfl
  | _ => exact ⟨E, y, h.goto hp rfl rfl rfl rfl, List.suffix_rfl⟩

theorem Linear.advance (h : Linear body s P x₀ k E y) (he : Exclusive body c₀ s k)
    (hser : Serial body s x₀ k) (hc : c₀ s = 1) (hP : Admits s P k .exec)
    (ha : Kmt.advance k = some k') : ∃ E' y, Linear body s P x₀ k' E' y ∧ E <:+ E' := by
  have hl : Local k k' := local_advance ha
  unfold Kmt.advance at ha
  cases hp : k.phase k.current with
  | idle => simp [hp] at ha
  | waiting c s' pc p =>
    simp only [hp, Option.some.injEq] at ha
    exact ⟨E, y, ha ▸ h.waitStep he hser hc hP hp, List.suffix_rfl⟩
  | signalling c s' pc p =>
    simp only [hp, Option.some.injEq] at ha
    exact ha ▸ h.signalStep he hser hc hp
  | run c p =>
    have hf := he.follows k.current
    simp only [Kernel.Follows, hp] at hf
    obtain ⟨st, hb, hst, -⟩ := hf
    refine ⟨E, y, ?_, List.suffix_rfl⟩
    cases p with
    | ret b =>
      simp only [hp, Option.some.injEq] at ha
      subst ha
      apply h.quiet hl rfl
      · simp [Kernel.Holds, Kernel.goto]
      · rw [hp]
        simp [Kernel.goto, returnsOf, Event.result, Phase.due]
    | stop => simp [hp] at ha
    | act f q =>
      simp only [hp, Option.some.injEq] at ha
      exact ha ▸ h.goto hp rfl rfl rfl (due_run (hb.2 _) (by decide))
    | wait s' q =>
      simp only [hp, Option.some.injEq] at ha
      exact ha ▸ h.goto hp rfl rfl rfl rfl
    | signal s' q =>
      simp only [hp, Option.some.injEq] at ha
      obtain ⟨b, rfl⟩ := hb.2.2.eq_ret
      exact ha ▸ h.goto hp rfl rfl rfl rfl

theorem Linear.step (h : Linear body s P x₀ k E y) (he : Exclusive body c₀ s k)
    (hser : Serial body s x₀ k) (hc : c₀ s = 1) (hbody : ∀ t c, (body t c).Bracketed s .before)
    (hP : Admits s P k a) (hs : Step body k a k') :
    ∃ E' y, Linear body s P x₀ k' E' y ∧ E <:+ E' := by
  cases hs with
  | @call c hi =>
    refine ⟨E, y, h.quiet (.goto _ rfl rfl (.inr ⟨_, rfl, rfl⟩)) rfl ?_ ?_, List.suffix_rfl⟩
    · simp [Kernel.Holds, Kernel.goto]
    · have hphase : ({ k with events := .called k.current c :: k.events }.goto
          (.run c (body k.current c))).phase k.current = .run c (body k.current c) :=
        Function.update_self ..
      rw [hi, hphase, due_run (hbody _ _) (by decide)]
      rfl
  | exec ha => exact h.advance he hser hc hP ha
  | switch => exact ⟨E, y, ⟨h.trace, h.free, h.held, h.seen⟩, List.suffix_rfl⟩

/-- When no thread is inside, the history leads to the shared state. -/
theorem Linear.shared (h : Linear body s P x₀ k E y) (hser : Serial body s x₀ k)
    (hfree : ∀ t, ¬ k.Holds t s) : y = k.shared := by
  have hrun := runAll_of_trace h.trace
  rw [← h.free hfree, hser.free hfree] at hrun
  exact (Option.some.inj hrun).symm

theorem linear_init : Linear body s P x (.init x c₀ t) [] x where
  trace := .nil
  free _ := rfl
  held _ ht := absurd ht (Nat.lt_irrefl 0)
  seen _ := rfl

theorem Linear.run (h : Linear body s P x₀ k E y) (he : Exclusive body c₀ s k)
    (hser : Serial body s x₀ k) (hc : c₀ s = 1) (hbody : ∀ t c, (body t c).Bracketed s .before)
    (hr : Run (Step body) (Admits s P) k k') : ∃ E' y', Linear body s P x₀ k' E' y' ∧ E <:+ E' := by
  have hinv : Exclusive body c₀ s k' ∧ Serial body s x₀ k' ∧
      ∃ E' y', Linear body s P x₀ k' E' y' ∧ E <:+ E' := by
    apply hr.invariant (I := fun k' => Exclusive body c₀ s k' ∧ Serial body s x₀ k' ∧
      ∃ E' y', Linear body s P x₀ k' E' y' ∧ E <:+ E')
    · exact ⟨he, hser, E, y, h, List.suffix_rfl⟩
    · rintro k₁ a k₂ ⟨he, hser, E₁, y₁, h₁, hle⟩ hP hs
      obtain ⟨E₂, y₂, h₂, hle'⟩ := h₁.step he hser hc hbody hP hs
      exact ⟨he.step hc hbody hs, hser.step he hc hs, E₂, y₂, h₂, hle.trans hle'⟩
  exact hinv.2.2

/-- In every run there is one history in which the calls run alone, in the order in which they got
the semaphore, with the results that the threads see. It goes on when the run does, so what has
returned comes before all that is called later. -/
theorem linearizable (hinit : ∀ s, 0 ≤ c₀ s ∧ c₀ s < 2 ^ 31) (hc : c₀ s = 1)
    (hbody : ∀ t c, (body t c).Bracketed s .before)
    (hr : Run (Step body) (Admits s P) (.init x c₀ t) k)
    (hr' : Run (Step body) (Admits s P) k k') : ∃ E y E' y', Linear body s P x k E y ∧
      Linear body s P x k' E' y' ∧ E <:+ E' := by
  obtain ⟨he, hser⟩ := exclusive_serial hinit hc hbody (hr.mono fun _ => trivial)
  obtain ⟨E, y, h, -⟩ := linear_init.run (exclusive_init hinit) serial_init hc hbody hr
  obtain ⟨E', y', h', hle⟩ := h.run he hser hc hbody hr'
  exact ⟨E, y, E', y', h, h', hle⟩

end Linear

end NSOS.Kmt
