import NSOS.Kmt.Exclusion

/-! # Units handed around

Calls of several kinds pass units around a ring of semaphores. A call takes a
unit from the source of its kind, makes one change with it and gives it on to
the target of its kind. No unit gets lost or doubled: the changes made run
ahead of each other by no more than the units a semaphore starts with.
-/

namespace NSOS.Kmt

open Basis

variable {ι σ κ α : Type} {n : ℕ}

/-- What a thread has in hand: nothing, a unit it took, or a unit it has made its change with. -/
inductive Hand (κ : Type) where
  | empty
  | taken (c : κ)
  | used (c : κ)
  deriving DecidableEq

/-- Where each kind of call takes its units and gives them on to, and how many changes of the
kind a state has seen. -/
structure Relay (ι σ κ : Type) where
  source : κ ≃ ι
  target : κ ≃ ι
  made : κ → σ → ℕ

section Discipline

variable [DecidableEq κ]

/-- The rest of a call of the kind `c` keeps to the ring. -/
def Relay.Passes (r : Relay ι σ κ) (c : κ) : Hand κ → Prog ι σ α → Prop
  | h, .ret _ => h = .empty
  | h, .stop => h = .empty
  | h, .act f p => ∀ x,
    (∀ c', r.made c' (f x) = r.made c' x) ∧ Passes r c h (p x) ∨
      h = .taken c ∧ (∀ c', r.made c' (f x) = r.made c' x + if c' = c then 1 else 0) ∧
        Passes r c (.used c) (p x)
  | h, .wait s p => h = .empty ∧ s = r.source c ∧ Passes r c (.taken c) p
  | h, .signal s p => h = .used c ∧ s = r.target c ∧ Passes r c .empty p

def Relay.At (r : Relay ι σ κ) (h : Hand κ) : Phase ι σ κ α n → Prop
  | .idle => h = .empty
  | .run c p => r.Passes c h p
  | .waiting c s pc p => s = r.source c ∧ r.Passes c (.taken c) p ∧
    h = if pc = .release then .taken c else .empty
  | .signalling c s pc p => s = r.target c ∧ r.Passes c .empty p ∧
    h = if pc = .lock ∨ pc = .inc then .used c else .empty

variable [DecidableEq ι]

/-- The hands of the threads account for the units between the semaphores. -/
structure Relay.Accounts (r : Relay ι σ κ) (hand : Fin n → Hand κ) (k : Kernel ι σ κ α n) :
    Prop where
  fits : ∀ t, r.At (hand t) (k.phase t)
  waits : ∀ c, k.waits (r.source c) = r.made c k.shared + {t | hand t = .taken c}.ncard
  made : ∀ c, r.made c k.shared = k.signals (r.target c) + {t | hand t = .used c}.ncard

end Discipline

section Count

variable [DecidableEq κ] (hand : Fin n → Hand κ) (t : Fin n) (h x : Hand κ)

theorem ncard_hand : {u | hand u = x}.ncard = ∑ u, if hand u = x then 1 else 0 := by
  rw [Set.ncard_eq_toFinset_card', Set.toFinset_ofPred, Finset.card_filter]

theorem ncard_update_hand :
    {u | Function.update hand t h u = x}.ncard + (if hand t = x then 1 else 0) =
      {u | hand u = x}.ncard + if h = x then 1 else 0 := by
  have hrest : ∑ u ∈ Finset.univ.erase t, (if Function.update hand t h u = x then 1 else 0) =
      ∑ u ∈ Finset.univ.erase t, if hand u = x then 1 else 0 :=
    Finset.sum_congr rfl fun u hu => by rw [Function.update_of_ne (Finset.ne_of_mem_erase hu)]
  rw [ncard_hand, ncard_hand, ← Finset.sum_erase_add _ _ (Finset.mem_univ t), hrest,
    Function.update_self, ← Finset.sum_erase_add (a := t) _ _ (Finset.mem_univ t)]
  omega

end Count

section Steps

variable [DecidableEq κ] [DecidableEq ι] {r : Relay ι σ κ} {hand : Fin n → Hand κ}
  {k k' : Kernel ι σ κ α n} {body : Fin n → κ → Prog ι σ α} {c : κ} {s : ι} {p : Prog ι σ α}
  {x : Hand κ}

theorem Relay.Accounts.move (h : r.Accounts hand k) (hl : Local k k')
    (hx : r.At x (k'.phase k.current))
    (hw : ∀ c, k'.waits (r.source c) + r.made c k.shared +
        (if hand k.current = .taken c then 1 else 0) =
      k.waits (r.source c) + r.made c k'.shared + if x = .taken c then 1 else 0)
    (hm : ∀ c, r.made c k'.shared + k.signals (r.target c) +
        (if hand k.current = .used c then 1 else 0) =
      r.made c k.shared + k'.signals (r.target c) + if x = .used c then 1 else 0) :
    r.Accounts (Function.update hand k.current x) k' where
  fits t := by
    by_cases ht : t = k.current
    · rw [ht, Function.update_self]
      exact hx
    · rw [Function.update_of_ne ht, hl.phase t ht]
      exact h.fits t
  waits c := by
    have h₁ := ncard_update_hand hand k.current x (.taken c)
    have h₂ := h.waits c
    have h₃ := hw c
    omega
  made c := by
    have h₁ := ncard_update_hand hand k.current x (.used c)
    have h₂ := h.made c
    have h₃ := hm c
    omega

theorem Relay.Accounts.stay (h : r.Accounts hand k) (hl : Local k k')
    (hx : r.At (hand k.current) (k'.phase k.current)) (hsh : k'.shared = k.shared)
    (hent : ∀ s, k'.waits s = k.waits s ∧ k'.signals s = k.signals s) :
    r.Accounts hand k' := by
  have hmove := h.move hl hx (fun c => by rw [(hent _).1, hsh]) (fun c => by rw [(hent _).2, hsh])
  rwa [Function.update_eq_self] at hmove

theorem Relay.Accounts.waitStep (h : r.Accounts hand k) {pc : WaitPc}
    (hp : k.phase k.current = .waiting c s pc p) :
    ∃ hand', r.Accounts hand' (Kmt.waitStep k c s p pc) := by
  have hl : Local k (Kmt.waitStep k c s p pc) := local_waitStep pc
  have hfit := h.fits k.current
  rw [hp] at hfit
  obtain ⟨rfl, hb, hh⟩ := hfit
  have hquiet : ∀ pc', pc ≠ .release → pc' ≠ .release →
      r.At (hand k.current) (.waiting c (r.source c) pc' p : Phase ι σ κ α n) := fun pc' h₁ h₂ =>
    ⟨rfl, hb, by rw [hh, if_neg h₁, if_neg h₂]⟩
  cases pc with
  | test again =>
    refine ⟨hand, h.stay hl ?_ ?_ ?_⟩
    · rw [Kmt.waitStep]
      split <;> simpa [Kernel.goto] using hquiet _ (by simp) (by simp)
    · rw [Kmt.waitStep]
      split <;> rfl
    · intro s
      rw [Kmt.waitStep]
      split <;> exact ⟨rfl, rfl⟩
  | spin =>
    refine ⟨hand, h.stay hl ?_ ?_ ?_⟩
    · rw [Kmt.waitStep]
      split
      · rw [hp]
        exact hquiet _ (by simp) (by simp)
      · simpa [Kernel.goto] using hquiet _ (by simp) (by simp)
    · rw [Kmt.waitStep]
      split <;> rfl
    · intro s
      rw [Kmt.waitStep]
      split <;> exact ⟨rfl, rfl⟩
  | take =>
    rw [if_neg (by simp)] at hh
    refine ⟨_, h.move (x := .taken c) hl ?_ (fun c' => ?_) fun c' => ?_⟩
    · simpa [Kmt.waitStep, Kernel.goto, Relay.At] using hb
    · have hsh : (Kmt.waitStep k c (r.source c) p .take).shared = k.shared := rfl
      have hent : (Kmt.waitStep k c (r.source c) p .take).waits (r.source c') =
          k.waits (r.source c') + if c = c' then 1 else 0 := by
        by_cases hc : c = c' <;>
          simp [Kmt.waitStep, Kernel.goto, Kernel.waits, Kernel.entries, Event.entry, hc]
      simp only [hsh, hent, hh, reduceCtorEq, if_false, Hand.taken.injEq]
      omega
    · have hsh : (Kmt.waitStep k c (r.source c) p .take).shared = k.shared := rfl
      have hent : (Kmt.waitStep k c (r.source c) p .take).signals (r.target c') =
          k.signals (r.target c') := rfl
      simp [hsh, hent, hh]
  | release =>
    rw [if_pos rfl] at hh
    refine ⟨hand, h.stay hl ?_ rfl fun _ => ⟨rfl, rfl⟩⟩
    simpa [Kmt.waitStep, Kernel.goto, Relay.At, hh] using hb
  | _ =>
    refine ⟨hand, h.stay hl ?_ rfl fun _ => ⟨rfl, rfl⟩⟩
    simpa [Kmt.waitStep, Kernel.goto] using hquiet _ (by simp) (by simp)

theorem Relay.Accounts.signalStep (h : r.Accounts hand k) {pc : SignalPc n}
    (hp : k.phase k.current = .signalling c s pc p) :
    ∃ hand', r.Accounts hand' (Kmt.signalStep k c s p pc) := by
  have hl : Local k (Kmt.signalStep k c s p pc) := local_signalStep pc
  have hfit := h.fits k.current
  rw [hp] at hfit
  obtain ⟨rfl, hb, hh⟩ := hfit
  have hafter : ∀ pc', ¬ (pc = .lock ∨ pc = .inc) → ¬ (pc' = .lock ∨ pc' = .inc) →
      r.At (hand k.current) (.signalling c (r.target c) pc' p : Phase ι σ κ α n) :=
    fun pc' h₁ h₂ => ⟨rfl, hb, by rw [hh, if_neg h₁, if_neg h₂]⟩
  cases pc with
  | lock =>
    rw [if_pos (by simp)] at hh
    refine ⟨hand, h.stay hl ?_ rfl fun _ => ⟨rfl, rfl⟩⟩
    simpa [Kmt.signalStep, Kernel.goto, Relay.At, hh] using hb
  | inc =>
    rw [if_pos (by simp)] at hh
    refine ⟨_, h.move (x := .empty) hl ?_ (fun c' => ?_) fun c' => ?_⟩
    · simpa [Kmt.signalStep, Kernel.goto, Relay.At] using hb
    · have hsh : (Kmt.signalStep k c (r.target c) p .inc).shared = k.shared := rfl
      have hent : (Kmt.signalStep k c (r.target c) p .inc).waits (r.source c') =
          k.waits (r.source c') := rfl
      simp [hsh, hent, hh]
    · have hsh : (Kmt.signalStep k c (r.target c) p .inc).shared = k.shared := rfl
      have hent : (Kmt.signalStep k c (r.target c) p .inc).signals (r.target c') =
          k.signals (r.target c') + if c = c' then 1 else 0 := by
        by_cases hc : c = c' <;>
          simp [Kmt.signalStep, Kernel.goto, Kernel.signals, Kernel.leaves, Event.leave, hc]
      simp only [hsh, hent, hh, reduceCtorEq, if_false, Hand.used.injEq]
      omega
  | scan i =>
    refine ⟨hand, h.stay hl ?_ ?_ ?_⟩
    · rw [Kmt.signalStep]
      split
      · split <;> simpa [Kernel.goto] using hafter _ (by simp) (by simp)
      · simpa [Kernel.goto] using hafter _ (by simp) (by simp)
    · rw [Kmt.signalStep]
      split
      · split <;> rfl
      · rfl
    · intro s
      rw [Kmt.signalStep]
      split
      · split <;> exact ⟨rfl, rfl⟩
      · exact ⟨rfl, rfl⟩
  | unlock =>
    rw [if_neg (by simp)] at hh
    refine ⟨hand, h.stay hl ?_ rfl fun _ => ⟨rfl, rfl⟩⟩
    simpa [Kmt.signalStep, Kernel.goto, Relay.At, hh] using hb
  | _ =>
    refine ⟨hand, h.stay hl ?_ rfl fun _ => ⟨rfl, rfl⟩⟩
    simpa [Kmt.signalStep, Kernel.goto] using hafter _ (by simp) (by simp)

theorem Relay.Accounts.advance (h : r.Accounts hand k) (ha : Kmt.advance k = some k') :
    ∃ hand', r.Accounts hand' k' := by
  have hl : Local k k' := local_advance ha
  have hfit := h.fits k.current
  unfold Kmt.advance at ha
  cases hp : k.phase k.current with
  | idle => simp [hp] at ha
  | waiting c s pc p =>
    simp only [hp, Option.some.injEq] at ha
    exact ha ▸ h.waitStep hp
  | signalling c s pc p =>
    simp only [hp, Option.some.injEq] at ha
    exact ha ▸ h.signalStep hp
  | run c p =>
    rw [hp] at hfit
    cases p with
    | ret b =>
      simp only [hp, Option.some.injEq] at ha
      subst ha
      obtain hfit : hand k.current = .empty := hfit
      refine ⟨hand, h.stay hl ?_ rfl fun _ => ⟨rfl, rfl⟩⟩
      simpa [Kernel.goto, Relay.At] using hfit
    | stop => simp [hp] at ha
    | act f q =>
      simp only [hp, Option.some.injEq] at ha
      rcases hfit k.shared with ⟨hsame, hq⟩ | ⟨hh, hmade, hq⟩
      · refine ⟨_, h.move hl (x := hand k.current) ?_ (fun c' => ?_) fun c' => ?_⟩
        · simpa [← ha, Kernel.goto, Relay.At] using hq
        · have hsh : k'.shared = f k.shared := by rw [← ha]; rfl
          have hent : k'.waits (r.source c') = k.waits (r.source c') := by rw [← ha]; rfl
          rw [hsh, hent, hsame]
        · have hsh : k'.shared = f k.shared := by rw [← ha]; rfl
          have hent : k'.signals (r.target c') = k.signals (r.target c') := by rw [← ha]; rfl
          rw [hsh, hent, hsame]
      · refine ⟨_, h.move hl (x := .used c) ?_ (fun c' => ?_) fun c' => ?_⟩
        · simpa [← ha, Kernel.goto, Relay.At] using hq
        · have hsh : k'.shared = f k.shared := by rw [← ha]; rfl
          have hent : k'.waits (r.source c') = k.waits (r.source c') := by rw [← ha]; rfl
          simp only [hsh, hent, hmade, hh, reduceCtorEq, if_false, Hand.taken.injEq]
          simp only [eq_comm (a := c)]
          omega
        · have hsh : k'.shared = f k.shared := by rw [← ha]; rfl
          have hent : k'.signals (r.target c') = k.signals (r.target c') := by rw [← ha]; rfl
          simp only [hsh, hent, hmade, hh, reduceCtorEq, if_false, Hand.used.injEq]
          simp only [eq_comm (a := c)]
          omega
    | wait s q =>
      simp only [hp, Option.some.injEq] at ha
      subst ha
      obtain ⟨hh, rfl, hq⟩ := hfit
      refine ⟨hand, h.stay hl ?_ rfl fun _ => ⟨rfl, rfl⟩⟩
      simpa [Kernel.goto, Relay.At, hh] using hq
    | signal s q =>
      simp only [hp, Option.some.injEq] at ha
      subst ha
      obtain ⟨hh, rfl, hq⟩ := hfit
      refine ⟨hand, h.stay hl ?_ rfl fun _ => ⟨rfl, rfl⟩⟩
      simpa [Kernel.goto, Relay.At, hh] using hq

theorem Relay.Accounts.step {a : Act κ n} (h : r.Accounts hand k)
    (hbody : ∀ t c, r.Passes c .empty (body t c)) (hs : Step body k a k') :
    ∃ hand', r.Accounts hand' k' := by
  cases hs with
  | @call c hi =>
    have hfit := h.fits k.current
    rw [hi] at hfit
    obtain hfit : hand k.current = .empty := hfit
    refine ⟨hand, h.stay (.goto _ rfl rfl (Or.inr ⟨_, rfl, rfl⟩)) ?_ rfl fun _ => ⟨rfl, rfl⟩⟩
    simpa [Kernel.goto, Relay.At, hfit] using hbody k.current c
  | exec ha => exact h.advance ha
  | switch => exact ⟨hand, h.fits, h.waits, h.made⟩

end Steps

section Phases

variable [DecidableEq ι] {k : Kernel ι σ κ α n} {c : κ} {s : ι} {p : Prog ι σ α}

theorem waitStep_phase {pc : WaitPc} (hp : k.phase k.current = .waiting c s pc p) :
    (waitStep k c s p pc).shared = k.shared ∧
      ((waitStep k c s p pc).phase k.current = .run c p ∨
        ∃ pc', (waitStep k c s p pc).phase k.current = .waiting c s pc' p) := by
  cases pc with
  | test again =>
    rw [waitStep]
    split
    · exact ⟨rfl, Or.inr ⟨_, Function.update_self ..⟩⟩
    · exact ⟨rfl, Or.inr ⟨_, Function.update_self ..⟩⟩
  | spin =>
    rw [waitStep]
    split
    · exact ⟨rfl, Or.inr ⟨_, hp⟩⟩
    · exact ⟨rfl, Or.inr ⟨_, Function.update_self ..⟩⟩
  | release => exact ⟨rfl, Or.inl (Function.update_self ..)⟩
  | _ => exact ⟨rfl, Or.inr ⟨_, Function.update_self ..⟩⟩

theorem signalStep_phase {pc : SignalPc n} (hp : k.phase k.current = .signalling c s pc p) :
    (signalStep k c s p pc).shared = k.shared ∧
      ((signalStep k c s p pc).phase k.current = .run c p ∨
        ∃ pc', (signalStep k c s p pc).phase k.current = .signalling c s pc' p) := by
  cases pc with
  | scan i =>
    rw [signalStep]
    split
    · split
      · exact ⟨rfl, Or.inr ⟨_, Function.update_self ..⟩⟩
      · exact ⟨rfl, Or.inr ⟨_, Function.update_self ..⟩⟩
    · exact ⟨rfl, Or.inr ⟨_, Function.update_self ..⟩⟩
  | unlock => exact ⟨rfl, Or.inl (Function.update_self ..)⟩
  | _ => exact ⟨rfl, Or.inr ⟨_, Function.update_self ..⟩⟩

end Phases

section Units

variable [DecidableEq κ] [DecidableEq ι] [Fintype κ] [Fintype ι] {r : Relay ι σ κ}
  {hand : Fin n → Hand κ} {k k' : Kernel ι σ κ α n} {body : Fin n → κ → Prog ι σ α}
  {c₀ : ι → ℤ} {a : Act κ n} {x : σ} {t : Fin n}

/-- No unit gets lost: each is in the count of its semaphore or in the hand of a thread. -/
theorem Relay.Accounts.units (h : r.Accounts hand k) (hk : SemInv c₀ k) :
    ∑ s, k.count s + ∑ c, (({t | hand t = .taken c}.ncard : ℤ) + {t | hand t = .used c}.ncard) =
      ∑ s, c₀ s := by
  have hcount : ∑ s, k.count s =
      ∑ s, c₀ s + ∑ s, (k.signals s : ℤ) - ∑ s, (k.waits s : ℤ) := by
    rw [← Finset.sum_add_distrib, ← Finset.sum_sub_distrib]
    exact Finset.sum_congr rfl fun s _ => hk.balance s
  have hsource : ∑ s, (k.waits s : ℤ) =
      ∑ c, ((r.made c k.shared : ℤ) + {t | hand t = .taken c}.ncard) := by
    rw [← Equiv.sum_comp r.source]
    exact Finset.sum_congr rfl fun c _ => by exact_mod_cast h.waits c
  have htarget : ∑ c, (r.made c k.shared : ℤ) =
      ∑ s, (k.signals s : ℤ) + ∑ c, ({t | hand t = .used c}.ncard : ℤ) := by
    rw [← Equiv.sum_comp r.target, ← Finset.sum_add_distrib]
    exact Finset.sum_congr rfl fun c _ => by exact_mod_cast h.made c
  rw [Finset.sum_add_distrib] at hsource ⊢
  omega

theorem Relay.Accounts.count_add_used_le (h : r.Accounts hand k) (hk : SemInv c₀ k) (s : ι)
    (c : κ) : k.count s + {t | hand t = .used c}.ncard ≤ ∑ s, c₀ s := by
  have hs : k.count s ≤ ∑ s, k.count s :=
    Finset.single_le_sum (fun s _ => (hk.range s).1) (Finset.mem_univ s)
  have hc : ({t | hand t = .used c}.ncard : ℤ) ≤
      ∑ c, (({t | hand t = .taken c}.ncard : ℤ) + {t | hand t = .used c}.ncard) := by
    refine le_trans ?_ (Finset.single_le_sum (fun c _ => by omega) (Finset.mem_univ c))
    omega
  have := h.units hk
  omega

/-- The semaphores and hands of a ring of calls. -/
structure Relay.Inv (r : Relay ι σ κ) (c₀ : ι → ℤ) (k : Kernel ι σ κ α n) : Prop where
  sem : SemInv c₀ k
  accounts : ∃ hand, r.Accounts hand k

/-- A thread that gives a unit on has it, so no count can overflow. -/
theorem Relay.Inv.step (h : r.Inv c₀ k) (hbody : ∀ t c, r.Passes c .empty (body t c))
    (hsum : ∑ s, c₀ s < 2 ^ 31) (hs : Step body k a k') : r.Inv c₀ k' := by
  obtain ⟨hand, hacc⟩ := h.accounts
  refine ⟨h.sem.step ?_ hs, hacc.step hbody hs⟩
  cases a with
  | exec =>
    intro c s p hp
    have hfit := hacc.fits k.current
    rw [hp] at hfit
    obtain ⟨-, -, hh⟩ := hfit
    rw [if_pos (Or.inr rfl)] at hh
    have hle := hacc.count_add_used_le h.sem s c
    have hpos : 0 < {t | hand t = .used c}.ncard :=
      (Set.ncard_pos (Set.toFinite _)).mpr ⟨k.current, hh⟩
    omega
  | call => trivial
  | switch => trivial

omit [Fintype κ] [Fintype ι] in
theorem Relay.accounts_init (hmade : ∀ c, r.made c x = 0) :
    r.Accounts (fun _ => .empty) (.init x c₀ t : Kernel ι σ κ α n) where
  fits _ := rfl
  waits c := by simp [Kernel.init, Kernel.waits, Kernel.entries, hmade]
  made c := by simp [Kernel.init, Kernel.signals, Kernel.leaves, hmade]

omit [DecidableEq κ] [Fintype κ] [DecidableEq ι] in
theorem sum_lt_of_units (hinit : ∀ s, 0 ≤ c₀ s) (hsum : ∑ s, c₀ s < 2 ^ 31) (s : ι) :
    0 ≤ c₀ s ∧ c₀ s < 2 ^ 31 :=
  ⟨hinit s, (Finset.single_le_sum (fun s _ => hinit s) (Finset.mem_univ s)).trans_lt hsum⟩

theorem Relay.inv_of_run {P : Kernel ι σ κ α n → Act κ n → Prop} (hinit : ∀ s, 0 ≤ c₀ s)
    (hsum : ∑ s, c₀ s < 2 ^ 31) (hmade : ∀ c, r.made c x = 0)
    (hbody : ∀ t c, r.Passes c .empty (body t c))
    (hr : Run (Step body) P (.init x c₀ t) k) : r.Inv c₀ k := by
  apply hr.invariant (I := r.Inv c₀)
  · exact ⟨semInv_init (sum_lt_of_units hinit hsum), _, Relay.accounts_init hmade⟩
  · exact fun h _ hs => h.step hbody hsum hs

omit [Fintype κ] [Fintype ι] in
/-- A kind of call stays behind the one it gets its units from, and that one ahead of it by no
more than the semaphore between them started with. -/
theorem Relay.Inv.made_le (h : r.Inv c₀ k) {c c' : κ} (hc : r.target c = r.source c') :
    (r.made c' k.shared : ℤ) ≤ r.made c k.shared + c₀ (r.source c') := by
  obtain ⟨hand, hacc⟩ := h.accounts
  have h₁ := hacc.waits c'
  have h₂ := hacc.made c
  have h₃ := h.sem.balance (r.source c')
  have h₄ := (h.sem.range (r.source c')).1
  rw [hc] at h₂
  omega

end Units

end NSOS.Kmt
