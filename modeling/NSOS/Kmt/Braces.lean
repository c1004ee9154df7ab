import NSOS.Kmt.Handoff

/-! # The semaphore test

A producer prints opening braces and a consumer closing ones. Two semaphores
keep the consumer behind the producer, and the producer at most ten braces
ahead. The threads are preempted between any two statements.
-/

namespace NSOS.Kmt

open Basis

inductive Role where
  | producer
  | consumer
  deriving DecidableEq

instance : Fintype Role := ⟨{.producer, .consumer}, fun c => by cases c <;> decide⟩

inductive Slot where
  | empty
  | fill
  deriving DecidableEq

instance : Fintype Slot := ⟨{.empty, .fill}, fun s => by cases s <;> decide⟩

/-- The variables of the test, with what its threads sent to the serial port. -/
structure Braces where
  counter : ℤ
  complete : Role → Bool
  output : List UInt8

namespace Braces

def maxBraces : ℤ := 100

def slots : Slot → ℤ
  | .empty => 10
  | .fill => 0

def start : Braces := ⟨0, fun _ => false, []⟩

def brace : Role → UInt8
  | .producer => '('.toUInt8
  | .consumer => ')'.toUInt8

def putc (b : UInt8) (x : Braces) : Braces := { x with output := x.output ++ [b] }
def setCounter (v : ℤ) (x : Braces) : Braces := { x with counter := v }

def finish (c : Role) (x : Braces) : Braces :=
  { x with complete := Function.update x.complete c true }

section Fields

variable (b : UInt8) (v : ℤ) (c : Role) (x : Braces)

@[simp] theorem output_putc : (putc b x).output = x.output ++ [b] := rfl
@[simp] theorem counter_putc : (putc b x).counter = x.counter := rfl
@[simp] theorem complete_putc : (putc b x).complete = x.complete := rfl
@[simp] theorem output_setCounter : (setCounter v x).output = x.output := rfl
@[simp] theorem counter_setCounter : (setCounter v x).counter = v := rfl
@[simp] theorem complete_setCounter : (setCounter v x).complete = x.complete := rfl
@[simp] theorem output_finish : (finish c x).output = x.output := rfl
@[simp] theorem counter_finish : (finish c x).counter = x.counter := rfl

@[simp] theorem complete_finish :
    (finish c x).complete = Function.update x.complete c true := rfl

end Fields

/-- One round of the loop of `producer`, which does not return when the loop is over. -/
def producer : Prog Slot Braces Unit := do
  if (← Prog.gets counter) < maxBraces then
    Prog.semWait .empty
    Prog.modify (putc (brace .producer))
    Prog.semSignal .fill
  else
    Prog.modify (finish .producer)
    Prog.stop

/-- One round of the loop of `consumer`. Its increment is a load and a store. -/
def consumer : Prog Slot Braces Unit := do
  if (← Prog.gets counter) < maxBraces then
    Prog.semWait .fill
    Prog.modify (putc (brace .consumer))
    let v ← Prog.gets counter
    Prog.modify (setCounter (toInt (v + 1)))
    Prog.semSignal .empty
  else
    Prog.modify (finish .consumer)
    Prog.stop

def round : Role → Prog Slot Braces Unit
  | .producer => producer
  | .consumer => consumer

/-- The number of braces of a kind among some characters. -/
def made (c : Role) (out : List UInt8) : ℕ := out.count (brace c)

/-- The way of a unit: from `empty` over the producer to `fill`, and back over the consumer. -/
def relay : Relay Slot Braces Role where
  source := ⟨fun | .producer => .empty | .consumer => .fill,
    fun | .empty => .producer | .fill => .consumer, fun c => by cases c <;> rfl,
    fun s => by cases s <;> rfl⟩
  target := ⟨fun | .producer => .fill | .consumer => .empty,
    fun | .fill => .producer | .empty => .consumer, fun c => by cases c <;> rfl,
    fun s => by cases s <;> rfl⟩
  made c x := made c x.output

section Facts

variable {x : Braces} {c c' : Role} {out : List UInt8}

theorem brace_inj : brace c = brace c' ↔ c = c' := by
  cases c <;> cases c' <;> decide

@[simp] theorem made_append :
    made c (out ++ [brace c']) = made c out + if c = c' then 1 else 0 := by
  simp only [made, List.count_append, List.count_singleton, beq_iff_eq, brace_inj,
    eq_comm (a := c)]

def give (c : Role) : Prog Slot Braces Unit := .signal (relay.target c) (.ret ())

def store (c : Role) (v : ℤ) : Prog Slot Braces Unit :=
  .act (setCounter (toInt (v + 1))) fun _ => give c

def load (c : Role) : Prog Slot Braces Unit := .act id fun x => store c x.counter

/-- What a thread does once it has taken a unit. -/
def put : Role → Prog Slot Braces Unit
  | .producer => .act (putc (brace .producer)) fun _ => give .producer
  | .consumer => .act (putc (brace .consumer)) fun _ => load .consumer

def ending (c : Role) : Prog Slot Braces Unit := .act (finish c) fun _ => .stop

theorem round_eq (c : Role) : round c = .act id fun x =>
    if x.counter < maxBraces then .wait (relay.source c) (put c) else ending c := by
  cases c <;> rfl

theorem passes_put (c : Role) : relay.Passes c (.taken c) (put c) := by
  cases c with
  | producer => exact fun x => Or.inr ⟨rfl, fun c' => made_append, rfl, rfl, rfl⟩
  | consumer =>
    refine fun x => Or.inr ⟨rfl, fun c' => made_append, fun y => Or.inl ⟨fun _ => rfl, ?_⟩⟩
    exact fun z => Or.inl ⟨fun _ => rfl, rfl, rfl, rfl⟩

theorem passes_round (c : Role) : relay.Passes c .empty (round c) := by
  rw [round_eq]
  refine fun x => Or.inl ⟨fun _ => rfl, ?_⟩
  beta_reduce
  split
  · exact ⟨rfl, rfl, passes_put c⟩
  · exact fun y => Or.inl ⟨fun _ => rfl, rfl⟩

end Facts

section Places

variable {n : ℕ}

/-- Where a thread of the test is in its round. Only the consumer loads and stores. -/
inductive Place (n : ℕ) where
  | idle
  | check
  | enter
  | await (pc : WaitPc)
  | put
  | load
  | store (v : ℤ)
  | give
  | signal (pc : SignalPc n)
  | back
  | ending
  | done

def Place.phase (c : Role) : Place n → Phase Slot Braces Role Unit n
  | idle => .idle
  | check => .run c (round c)
  | enter => .run c (.wait (relay.source c) (Braces.put c))
  | await pc => .waiting c (relay.source c) pc (Braces.put c)
  | put => .run c (Braces.put c)
  | load => .run c (Braces.load c)
  | store v => .run c (Braces.store c v)
  | give => .run c (Braces.give c)
  | signal pc => .signalling c (relay.target c) pc (.ret ())
  | back => .run c (.ret ())
  | ending => .run c (Braces.ending c)
  | done => .run c .stop

/-- What one statement of a thread does to the variables and where it leads. -/
inductive Moves (x : Braces) : Role → Place n → Braces → Place n → Prop where
  | go {c : Role} (h : x.counter < maxBraces) : Moves x c .check x .enter
  | leave {c : Role} (h : maxBraces ≤ x.counter) : Moves x c .check x .ending
  | enter {c : Role} : Moves x c .enter x (.await .lock)
  | await {c : Role} {pc pc' : WaitPc} : Moves x c (.await pc) x (.await pc')
  | took {c : Role} {pc : WaitPc} : Moves x c (.await pc) x .put
  | opened : Moves x .producer .put (putc (brace .producer) x) .give
  | closed : Moves x .consumer .put (putc (brace .consumer) x) .load
  | load {c : Role} : Moves x c .load x (.store x.counter)
  | store {c : Role} {v : ℤ} : Moves x c (.store v) (setCounter (toInt (v + 1)) x) .give
  | give {c : Role} : Moves x c .give x (.signal .lock)
  | signal {c : Role} {pc pc' : SignalPc n} : Moves x c (.signal pc) x (.signal pc')
  | gave {c : Role} {pc : SignalPc n} : Moves x c (.signal pc) x .back
  | ret {c : Role} : Moves x c .back x .idle
  | finish {c : Role} : Moves x c .ending (Braces.finish c x) .done

variable {k k' : Kernel Slot Braces Role Unit n} {c : Role} {pl : Place n}

/-- Each statement leads from one place of a round to another. -/
theorem moves_of_advance (hp : k.phase k.current = pl.phase c) (ha : advance k = some k') :
    ∃ pl', k'.phase k.current = pl'.phase c ∧ Moves k.shared c pl k'.shared pl' := by
  cases pl with
  | idle => simp [advance, hp, Place.phase] at ha
  | done => simp [advance, hp, Place.phase] at ha
  | await pc =>
    simp only [advance, hp, Place.phase, Option.some.injEq] at ha
    obtain ⟨hsh, hph | ⟨pc', hph⟩⟩ := waitStep_phase hp
    · exact ⟨.put, ha ▸ hph, ha ▸ hsh ▸ .took⟩
    · exact ⟨.await pc', ha ▸ hph, ha ▸ hsh ▸ .await⟩
  | signal pc =>
    simp only [advance, hp, Place.phase, Option.some.injEq] at ha
    obtain ⟨hsh, hph | ⟨pc', hph⟩⟩ := signalStep_phase hp
    · exact ⟨.back, ha ▸ hph, ha ▸ hsh ▸ .gave⟩
    · exact ⟨.signal pc', ha ▸ hph, ha ▸ hsh ▸ .signal⟩
  | check =>
    simp only [advance, hp, Place.phase, round_eq, Option.some.injEq] at ha
    subst ha
    by_cases hlt : k.shared.counter < maxBraces
    · exact ⟨.enter, by simp [Kernel.goto, Place.phase, hlt], .go hlt⟩
    · exact ⟨.ending, by simp [Kernel.goto, Place.phase, hlt], .leave (not_lt.mp hlt)⟩
  | put =>
    cases c with
    | producer =>
      simp only [advance, hp, Place.phase, Braces.put, Option.some.injEq] at ha
      exact ⟨.give, by simp [← ha, Kernel.goto, Place.phase], ha ▸ .opened⟩
    | consumer =>
      simp only [advance, hp, Place.phase, Braces.put, Option.some.injEq] at ha
      exact ⟨.load, by simp [← ha, Kernel.goto, Place.phase], ha ▸ .closed⟩
  | enter =>
    simp only [advance, hp, Place.phase, Option.some.injEq] at ha
    exact ⟨.await .lock, by simp [← ha, Kernel.goto, Place.phase], ha ▸ .enter⟩
  | load =>
    simp only [advance, hp, Place.phase, Braces.load, Option.some.injEq] at ha
    exact ⟨.store k.shared.counter, by simp [← ha, Kernel.goto, Place.phase], ha ▸ .load⟩
  | store v =>
    simp only [advance, hp, Place.phase, Braces.store, Option.some.injEq] at ha
    exact ⟨.give, by simp [← ha, Kernel.goto, Place.phase], ha ▸ .store⟩
  | give =>
    simp only [advance, hp, Place.phase, Braces.give, Option.some.injEq] at ha
    exact ⟨.signal .lock, by simp [← ha, Kernel.goto, Place.phase], ha ▸ .give⟩
  | back =>
    simp only [advance, hp, Place.phase, Option.some.injEq] at ha
    exact ⟨.idle, by simp [← ha, Kernel.goto, Place.phase], ha ▸ .ret⟩
  | ending =>
    simp only [advance, hp, Place.phase, Braces.ending, Option.some.injEq] at ha
    exact ⟨.done, by simp [← ha, Kernel.goto, Place.phase], ha ▸ .finish⟩

end Places

section Balance

variable {n : ℕ} {k k' : Kernel Slot Braces Role Unit n} {x x' : Braces} {c : Role}
  {pl pl' : Place n} {t : Fin n} {P : Kernel Slot Braces Role Unit n → Act Role n → Prop}

/-- Every initial part of the characters closes no brace it has not opened, and leaves at most
ten open. -/
def Balanced (out : List UInt8) : Prop :=
  ∀ pre, pre <+: out → made .consumer pre ≤ made .producer pre ∧
    made .producer pre ≤ made .consumer pre + 10

theorem Balanced.append {out : List UInt8} {b : UInt8} (h : Balanced out)
    (hle : made .consumer (out ++ [b]) ≤ made .producer (out ++ [b]) ∧
      made .producer (out ++ [b]) ≤ made .consumer (out ++ [b]) + 10) : Balanced (out ++ [b]) := by
  intro pre hpre
  rw [List.prefix_concat_iff] at hpre
  rcases hpre with rfl | hpre
  · exact hle
  · exact h pre hpre

theorem Moves.output (h : Moves x c pl x' pl') :
    x'.output = x.output ∨ ∃ b, x'.output = x.output ++ [b] := by
  cases h with
  | opened => exact Or.inr ⟨_, rfl⟩
  | closed => exact Or.inr ⟨_, rfl⟩
  | _ => exact Or.inl rfl

theorem sum_slots : ∑ s, slots s < 2 ^ 31 := by decide

theorem made_le_of_inv (h : relay.Inv slots k) :
    made .consumer k.shared.output ≤ made .producer k.shared.output ∧
      made .producer k.shared.output ≤ made .consumer k.shared.output + 10 := by
  have hfill : relay.target .producer = relay.source .consumer := rfl
  have hempty : relay.target .consumer = relay.source .producer := rfl
  have h₁ : (made .consumer k.shared.output : ℤ) ≤ made .producer k.shared.output + slots .fill :=
    h.made_le hfill
  have h₂ : (made .producer k.shared.output : ℤ) ≤ made .consumer k.shared.output + slots .empty :=
    h.made_le hempty
  simp only [slots] at h₁ h₂
  omega

theorem inv_start :
    relay.Inv slots (.init start slots t : Kernel Slot Braces Role Unit n) := by
  refine Relay.inv_of_run (P := fun _ _ => True) (fun s => ?_) sum_slots (fun c => ?_)
    (fun _ => passes_round) .refl
  · cases s <;> decide
  · cases c <;> rfl

/-- Whatever the threads of a kernel call, all of them are at places of the rounds. -/
structure Placed (k : Kernel Slot Braces Role Unit n) : Prop where
  inv : relay.Inv slots k
  place : ∀ t, ∃ (c : Role) (pl : Place n), k.phase t = pl.phase c
  balanced : Balanced k.shared.output

theorem Placed.step {a : Act Role n} (h : Placed k) (hs : Step (fun _ => round) k a k') :
    Placed k' := by
  have hinv : relay.Inv slots k' := h.inv.step (fun _ => passes_round) sum_slots hs
  refine ⟨hinv, fun t => ?_, ?_⟩
  · cases hs with
    | @call c hi =>
      by_cases ht : t = k.current
      · exact ⟨c, .check, by simp [ht, Kernel.goto, Place.phase]⟩
      · obtain ⟨c', pl, hp⟩ := h.place t
        exact ⟨c', pl, by simpa [Kernel.goto, ht] using hp⟩
    | exec ha =>
      by_cases ht : t = k.current
      · subst ht
        obtain ⟨c, pl, hp⟩ := h.place k.current
        obtain ⟨pl', hp', -⟩ := moves_of_advance hp ha
        exact ⟨c, pl', hp'⟩
      · rw [(local_advance ha).phase t ht]
        exact h.place t
    | switch => exact h.place t
  · cases hs with
    | call => exact h.balanced
    | switch => exact h.balanced
    | exec ha =>
      obtain ⟨c, pl, hp⟩ := h.place k.current
      obtain ⟨pl', -, hm⟩ := moves_of_advance hp ha
      rcases hm.output with hout | ⟨b, hout⟩
      · rw [hout]
        exact h.balanced
      · rw [hout]
        exact h.balanced.append (hout ▸ made_le_of_inv hinv)

/-- Any number of producers and consumers, preempted anywhere, print balanced braces. -/
theorem braces_balanced (hr : Run (Step fun _ => round) P (.init start slots t) k) :
    Balanced k.shared.output := by
  refine Placed.balanced (hr.invariant (I := Placed)
    ⟨inv_start, fun _ => ⟨.producer, .idle, rfl⟩, fun pre hpre => ?_⟩ fun h _ hs => h.step hs)
  obtain rfl : pre = [] := List.prefix_nil.mp hpre
  decide

def firstBraces : List (Act Role 3) :=
  .call .consumer :: List.replicate 7 .exec ++ .switch 1 :: .call .producer ::
    List.replicate 16 .exec ++ .switch 2 :: List.replicate 6 .exec

def firstThread : Role → Fin 3
  | .producer => 1
  | .consumer => 2

theorem isSome_firstBraces :
    (replay (perform fun _ => round) (.init start slots 2) firstBraces).isSome = true := by
  decide +kernel

/-- A run in which each thread prints a brace. -/
theorem braces_balanced_first : ∃ k : Kernel Slot Braces Role Unit 3,
    k.shared.output = "()".toUTF8.toList ∧ Balanced k.shared.output := by
  let k : Kernel Slot Braces Role Unit 3 := Option.get _ isSome_firstBraces
  have hr : Run (Step fun _ => round) (fun _ _ => True) (.init start slots 2) k :=
    Run.of_labels step_of_perform (fun _ _ _ => trivial) (Option.some_get isSome_firstBraces).symm
  have hout : k.shared.output = "()".toUTF8.toList := by decide +kernel
  exact ⟨k, hout, braces_balanced hr⟩

end Balance

section Test

variable {n : ℕ} {k k' : Kernel Slot Braces Role Unit n} {x x' : Braces} {c c' : Role}
  {pl pl' q q' : Place n} {t : Fin n} {thread : Role → Fin n}

def Fact (x : Braces) : Role → Place n → Prop
  | .producer, .enter | .producer, .await _ | .producer, .put => made .producer x.output < 110
  | .producer, .load | .producer, .store _ => False
  | .producer, .ending | .producer, .done => maxBraces ≤ x.counter
  | .producer, _ => True
  | .consumer, .enter | .consumer, .await _ | .consumer, .put =>
    x.counter < maxBraces ∧ x.counter = made .consumer x.output
  | .consumer, .load => x.counter < maxBraces ∧ x.counter + 1 = made .consumer x.output
  | .consumer, .store v =>
    v = x.counter ∧ x.counter < maxBraces ∧ x.counter + 1 = made .consumer x.output
  | .consumer, .ending | .consumer, .done =>
    x.counter = maxBraces ∧ x.counter = made .consumer x.output
  | .consumer, _ => x.counter ≤ maxBraces ∧ x.counter = made .consumer x.output

structure Knows (x : Braces) (c : Role) (pl : Place n) : Prop where
  fact : Fact x c pl
  complete : x.complete c = true ↔ pl = .done

theorem Knows.store {v : ℤ} (h : Knows x c (.store v : Place n)) :
    c = .consumer ∧ x.counter < maxBraces ∧ x.counter + 1 = made .consumer x.output ∧
      toInt (v + 1) = x.counter + 1 := by
  cases c with
  | producer => exact h.fact.elim
  | consumer =>
    obtain ⟨rfl, hlt, hmade⟩ := h.fact
    refine ⟨rfl, hlt, hmade, toInt_of_range ?_ ?_⟩
    · omega
    · unfold maxBraces at hlt
      omega

theorem fact_congr (h₁ : x'.counter = x.counter)
    (h₂ : made c x'.output = made c x.output) : Fact x' c pl ↔ Fact x c pl := by
  cases c <;> cases pl <;> simp [Fact, h₁, h₂]

theorem Knows.other (h : Knows x c pl) (hq : Knows x c' q) (hm : Moves x c' q x' q')
    (hne : c ≠ c') : Knows x' c pl := by
  cases hm with
  | opened =>
    refine ⟨(fact_congr (counter_putc _ _) ?_).mpr h.fact, h.complete⟩
    rw [output_putc, made_append, if_neg hne, add_zero]
  | closed =>
    refine ⟨(fact_congr (counter_putc _ _) ?_).mpr h.fact, h.complete⟩
    rw [output_putc, made_append, if_neg hne, add_zero]
  | store =>
    obtain ⟨rfl, hlt, -, hv⟩ := hq.store
    obtain rfl : c = .producer := by cases c <;> simp_all
    refine ⟨?_, h.complete⟩
    have hfact := h.fact
    cases pl <;> simp only [Fact, output_setCounter, counter_setCounter, hv] at hfact ⊢ <;> omega
  | finish =>
    refine ⟨(fact_congr rfl rfl).mpr h.fact, ?_⟩
    rw [complete_finish, Function.update_of_ne hne]
    exact h.complete
  | _ => exact h

theorem Knows.own (h : Knows x c pl) (hm : Moves x c pl x' pl')
    (hroom : x.counter < maxBraces → made .producer x.output < 110) : Knows x' c pl' := by
  have hfact := h.fact
  have hcomplete := h.complete
  cases hm with
  | go hlt =>
    refine ⟨?_, by simpa using hcomplete⟩
    cases c with
    | producer => exact hroom hlt
    | consumer => exact ⟨hlt, hfact.2⟩
  | leave hle =>
    refine ⟨?_, by simpa using hcomplete⟩
    cases c with
    | producer => exact hle
    | consumer => exact ⟨le_antisymm hfact.1 hle, hfact.2⟩
  | opened => exact ⟨trivial, by simpa using hcomplete⟩
  | closed =>
    refine ⟨⟨hfact.1, ?_⟩, by simpa using hcomplete⟩
    rw [counter_putc, output_putc, made_append, if_pos rfl, hfact.2, Nat.cast_succ]
  | load =>
    refine ⟨?_, by simpa using hcomplete⟩
    cases c with
    | producer => exact hfact.elim
    | consumer => exact ⟨rfl, hfact⟩
  | store =>
    obtain ⟨rfl, hlt, hmade, hv⟩ := h.store
    refine ⟨⟨?_, ?_⟩, by simpa using hcomplete⟩
    · rw [counter_setCounter, hv]
      omega
    · rw [counter_setCounter, output_setCounter, hv, hmade]
  | finish => exact ⟨by cases c <;> exact hfact, by simp⟩
  | took => exact ⟨by cases c <;> exact hfact, by simpa using hcomplete⟩
  | _ => exact ⟨by cases c <;> exact hfact, by simpa using hcomplete⟩

/-- The state of the test: `thread` says which threads play the roles, and the others do not
touch its semaphores. -/
structure Testing (thread : Role → Fin n) (k : Kernel Slot Braces Role Unit n) : Prop where
  inv : relay.Inv slots k
  others : ∀ t, (∀ c, t ≠ thread c) → k.phase t = .idle
  place : ∀ c, ∃ pl : Place n, k.phase (thread c) = pl.phase c ∧ Knows k.shared c pl

theorem hand_of_store {h : Hand Role} {v : ℤ}
    (hp : relay.At h (Place.phase c (.store v) : Phase Slot Braces Role Unit n)) :
    h = .used c := by
  rcases hp start with ⟨-, hh, -⟩ | ⟨-, hmade, -⟩
  · exact hh
  · have := hmade c
    simp only [relay, output_setCounter, if_pos] at this
    omega

theorem hand_of_load {h : Hand Role}
    (hp : relay.At h (Place.phase c .load : Phase Slot Braces Role Unit n)) : h = .used c := by
  rcases hp start with ⟨-, hh⟩ | ⟨-, hmade, -⟩
  · exact hand_of_store (n := n) hh
  · have := hmade c
    simp only [relay, id, if_pos] at this
    omega

theorem Testing.opened_le (h : Testing thread k) :
    (made .producer k.shared.output : ℤ) ≤ k.shared.counter + 10 := by
  obtain ⟨hand, hacc⟩ := h.inv.accounts
  obtain ⟨pl, hp, hk⟩ := h.place .consumer
  have hwaits : k.waits .empty =
    made .producer k.shared.output + {t | hand t = .taken .producer}.ncard := hacc.waits .producer
  have hmade : made .consumer k.shared.output =
    k.signals .empty + {t | hand t = .used .consumer}.ncard := hacc.made .consumer
  have hbal : k.count .empty = 10 + k.signals .empty - k.waits .empty :=
    h.inv.sem.balance .empty
  have hpos := (h.inv.sem.range .empty).1
  -- the consumer has a unit in hand whenever its brace is not in the counter yet
  have hcounter : (k.signals .empty : ℤ) ≤ k.shared.counter := by
    have hfact := hk.fact
    have hfit := hacc.fits (thread .consumer)
    rw [hp] at hfit
    have hused : hand (thread .consumer) = .used .consumer →
        0 < {t | hand t = .used .consumer}.ncard := fun hu =>
      (Set.ncard_pos (Set.toFinite _)).mpr ⟨_, hu⟩
    cases pl with
    | load =>
      have hc : k.shared.counter + 1 = made .consumer k.shared.output := hfact.2
      have := hused (hand_of_load hfit)
      omega
    | store v =>
      have hc : k.shared.counter + 1 = made .consumer k.shared.output := hfact.2.2
      have := hused (hand_of_store hfit)
      omega
    | _ =>
      have hc : k.shared.counter = made .consumer k.shared.output := hfact.2
      omega
  omega

theorem Place.eq_idle (h : pl.phase c = .idle) : pl = .idle := by
  cases pl <;> first | rfl | cases h

theorem Knows.call (h : Knows x c (.idle : Place n)) : Knows x c (.check : Place n) :=
  ⟨by cases c <;> exact h.fact, by simpa using h.complete⟩

theorem Testing.step {a : Act Role n} (h : Testing thread k) (hne : Function.Injective thread)
    (ha : Calls (fun t c => t = thread c) k a) (hs : Step (fun _ => round) k a k') :
    Testing thread k' := by
  refine ⟨h.inv.step (fun _ => passes_round) sum_slots hs, fun t ht => ?_, fun c => ?_⟩
  · cases hs with
    | @call c hi =>
      have htc : t ≠ k.current := fun htc => ht c (htc.trans ha)
      simpa [Kernel.goto, htc] using h.others t ht
    | exec hx =>
      have htc : t ≠ k.current := by
        rintro rfl
        simp [advance, h.others _ ht] at hx
      rw [(local_advance hx).phase t htc]
      exact h.others t ht
    | switch => exact h.others t ht
  · obtain ⟨pl, hp, hk⟩ := h.place c
    cases hs with
    | @call c' hi =>
      have hcur : k.current = thread c' := ha
      by_cases hc : c = c'
      · subst hc
        rw [← hcur, hi] at hp
        obtain rfl : pl = .idle := Place.eq_idle hp.symm
        exact ⟨.check, by simp [Kernel.goto, hcur, Place.phase], hk.call⟩
      · have hcc : thread c ≠ k.current := fun hcc => hc (hne (hcc.trans hcur))
        exact ⟨pl, by simpa [Kernel.goto, hcc] using hp, hk⟩
    | switch => exact ⟨pl, hp, hk⟩
    | exec hx =>
      by_cases hcur : ∃ c', k.current = thread c'
      · obtain ⟨c', hcur⟩ := hcur
        obtain ⟨q, hq, hkq⟩ := h.place c'
        rw [← hcur] at hq
        obtain ⟨q', hq', hm⟩ := moves_of_advance hq hx
        by_cases hc : c = c'
        · subst hc
          refine ⟨q', hcur ▸ hq', hkq.own hm fun hlt => ?_⟩
          have := h.opened_le
          unfold maxBraces at hlt
          omega
        · have hcc : thread c ≠ k.current := fun hcc => hc (hne (hcc.trans hcur))
          rw [(local_advance hx).phase _ hcc]
          exact ⟨pl, hp, hk.other hkq hm hc⟩
      · have hidle := h.others k.current fun c' hc => hcur ⟨c', hc⟩
        simp [advance, hidle] at hx

theorem testing_start {t : Fin n} : Testing thread (.init start slots t) where
  inv := inv_start
  others _ _ := rfl
  place c := by
    refine ⟨.idle, rfl, ?_, by simp [Kernel.init, start]⟩
    cases c with
    | producer => trivial
    | consumer => exact ⟨Int.zero_le_ofNat 100, rfl⟩

/-- A thread that cannot go on: it sleeps, or its loop is over. -/
structure Halted (k : Kernel Slot Braces Role Unit n) (hand : Hand Role) (c : Role) (t : Fin n)
    (pl : Place n) : Prop where
  phase : k.phase t = pl.phase c
  empty : hand = .empty
  pending : ∀ s, ¬ k.Pending t s
  place : pl = .done ∨ (∃ pc, pl = .await pc) ∧ k.Asleep t (relay.source c)

theorem Testing.halted (h : Testing thread k) {hand : Fin n → Hand Role}
    (hacc : relay.Accounts hand k) {t : Fin n} (hp : k.phase t = pl.phase c)
    (hstop : k.sleep t = true ∨ pl = .done) : Halted k (hand t) c t pl := by
  have hfit := hacc.fits t
  by_cases hd : pl = .done
  · subst hd
    rw [hp] at hfit
    refine ⟨hp, hfit, fun s => ?_, Or.inl rfl⟩
    simp [Kernel.Pending, Kernel.Woken, hp, Place.phase, Phase.Rechecks, Phase.Owes]
  · have hsl : k.sleep t = true := hstop.resolve_right hd
    obtain ⟨c', s, pc, p, hp', hpc, hw⟩ := h.inv.sem.asleep t hsl
    have hpl : ∃ pc', pl = .await pc' := by
      rw [hp'] at hp
      cases pl <;> first | exact ⟨_, rfl⟩ | cases hp
    obtain ⟨pc', rfl⟩ := hpl
    rw [hp'] at hp
    obtain ⟨rfl, rfl, rfl, rfl⟩ := Phase.waiting.inj hp
    rw [hp'] at hfit
    refine ⟨hp', ?_, fun s => ?_, Or.inr ⟨⟨_, rfl⟩, hsl, hw⟩⟩
    · rw [hfit.2.2, if_neg]
      rcases hpc with rfl | rfl <;> simp
    · rcases hpc with rfl | rfl <;>
        simp [Kernel.Pending, Kernel.Woken, hsl, hp', Phase.Owes]

/-- Of two threads that are not through, one can go on. -/
theorem Testing.progress (h : Testing thread k) :
    (∀ c, k.shared.complete c = true) ∨
      ∃ c, k.sleep (thread c) = false ∧ k.shared.complete c = false := by
  by_contra hstuck
  simp only [not_or, not_exists, not_and, Bool.not_eq_false] at hstuck
  obtain ⟨hnot, hstop⟩ := hstuck
  obtain ⟨hand, hacc⟩ := h.inv.accounts
  choose pl hp hk using h.place
  have hhalt : ∀ c, Halted k (hand (thread c)) c (thread c) (pl c) := fun c => by
    refine h.halted hacc (hp c) ?_
    by_cases hsl : k.sleep (thread c) = true
    · exact Or.inl hsl
    · exact Or.inr ((hk c).complete.mp (hstop c (Bool.not_eq_true _ ▸ hsl)))
  have hrest : ∀ t, hand t = .empty ∧ ∀ s, ¬ k.Pending t s := fun t => by
    by_cases ht : ∃ c, t = thread c
    · obtain ⟨c, rfl⟩ := ht
      exact ⟨(hhalt c).empty, (hhalt c).pending⟩
    · have hidle := h.others t fun c hc => ht ⟨c, hc⟩
      have hfit := hacc.fits t
      rw [hidle] at hfit
      refine ⟨hfit, fun s => ?_⟩
      simp [Kernel.Pending, Kernel.Woken, hidle, Phase.Rechecks, Phase.Owes]
  have hnone : ∀ y, y ≠ .empty → {t | hand t = y}.ncard = 0 := fun y hy => by
    rw [Set.ncard_eq_zero (Set.toFinite _)]
    exact Set.eq_empty_of_forall_notMem fun t ht => hy (ht ▸ (hrest t).1)
  -- nobody was woken, so a thread only sleeps on a count of zero
  have hzero : ∀ c, k.Asleep (thread c) (relay.source c) → k.count (relay.source c) = 0 :=
    fun c hc => by
      have hwake := h.inv.sem.wakeups _ ⟨_, hc⟩
      have hpend : {t | k.Pending t (relay.source c)} = ∅ :=
        Set.eq_empty_of_forall_notMem fun t ht => (hrest t).2 _ ht
      rw [hpend, Set.ncard_empty] at hwake
      exact le_antisymm hwake (h.inv.sem.range _).1
  have hw : ∀ c, k.waits (relay.source c) = made c k.shared.output := fun c => by
    rw [hacc.waits c, hnone _ (by simp)]
    rfl
  have hm : ∀ c, made c k.shared.output = k.signals (relay.target c) := fun c =>
    (hacc.made c).trans (by rw [hnone _ (by simp), add_zero])
  have hempty : k.count .empty = 10 + made .consumer k.shared.output -
      made .producer k.shared.output := by
    rw [← hw .producer, hm .consumer]
    exact h.inv.sem.balance .empty
  have hfill : k.count .fill = made .producer k.shared.output -
      made .consumer k.shared.output := by
    rw [← hw .consumer, hm .producer, ← zero_add (k.signals (relay.target .producer) : ℤ)]
    exact h.inv.sem.balance .fill
  have hproducer := (hk .producer).fact
  have hconsumer := (hk .consumer).fact
  rcases (hhalt .producer).place with hp₁ | ⟨⟨pc₁, hp₁⟩, hs₁⟩ <;>
    rcases (hhalt .consumer).place with hp₂ | ⟨⟨pc₂, hp₂⟩, hs₂⟩ <;>
    rw [hp₁] at hproducer <;> rw [hp₂] at hconsumer
  · refine hnot fun c => ?_
    cases c with
    | producer => exact (hk .producer).complete.mpr hp₁
    | consumer => exact (hk .consumer).complete.mpr hp₂
  · exact absurd hconsumer.1 (not_lt.mpr hproducer)
  · have hcount : k.count .empty = 0 := hzero .producer hs₁
    obtain ⟨hc, hmade⟩ : k.shared.counter = 100 ∧ k.shared.counter = made .consumer _ := hconsumer
    have hlt : made .producer k.shared.output < 110 := hproducer
    omega
  · have hcount₁ : k.count .empty = 0 := hzero .producer hs₁
    have hcount₂ : k.count .fill = 0 := hzero .consumer hs₂
    omega

/-- The test cannot hang. When both threads are through, it has closed a hundred braces and
opened at most ten more. -/
theorem sem_test_completes (hne : Function.Injective thread) {t : Fin n}
    (hr : Run (Step fun _ => round) (Calls fun t c => t = thread c) (.init start slots t) k) :
    (∃ c, k.sleep (thread c) = false ∧ k.shared.complete c = false) ∨
      (∀ c, k.shared.complete c = true) ∧ made .consumer k.shared.output = 100 ∧
        100 ≤ made .producer k.shared.output ∧ made .producer k.shared.output ≤ 110 := by
  have h : Testing thread k :=
    hr.invariant (I := Testing thread) testing_start fun h hc hs => h.step hne hc hs
  refine h.progress.symm.imp_right fun hall => ⟨hall, ?_⟩
  obtain ⟨pl, -, hk⟩ := h.place .consumer
  obtain rfl := hk.complete.mp (hall .consumer)
  obtain ⟨hc, hmade⟩ : k.shared.counter = 100 ∧ k.shared.counter = made .consumer _ := hk.fact
  have hle := made_le_of_inv h.inv
  have hopen := h.opened_le
  omega

def perform (thread : Role → Fin n) (k : Kernel Slot Braces Role Unit n) (a : Act Role n) :
    Option (Kernel Slot Braces Role Unit n) :=
  match a with
  | .call c => if k.current = thread c then Kmt.perform (fun _ => round) k (.call c) else none
  | .exec => Kmt.perform (fun _ => round) k .exec
  | .switch t => Kmt.perform (fun _ => round) k (.switch t)

theorem step_of_perform {a : Act Role n} (h : perform thread k a = some k') :
    Calls (fun t c => t = thread c) k a ∧ Step (fun _ => round) k a k' := by
  cases a with
  | call c =>
    rw [perform, Option.ite_none_right_eq_some] at h
    exact ⟨h.1, Kmt.step_of_perform h.2⟩
  | exec => exact ⟨trivial, Kmt.step_of_perform h⟩
  | switch t => exact ⟨trivial, Kmt.step_of_perform h⟩

theorem isSome_firstTest :
    (replay (perform firstThread) (.init start slots 2) firstBraces).isSome = true := by
  decide +kernel

/-- A run of the test in which each thread prints a brace. -/
theorem sem_test_completes_first : ∃ k : Kernel Slot Braces Role Unit 3,
    k.shared.output = "()".toUTF8.toList ∧
      ((∃ c, k.sleep (firstThread c) = false ∧ k.shared.complete c = false) ∨
        (∀ c, k.shared.complete c = true) ∧ made .consumer k.shared.output = 100 ∧
          100 ≤ made .producer k.shared.output ∧ made .producer k.shared.output ≤ 110) := by
  let k : Kernel Slot Braces Role Unit 3 := Option.get _ isSome_firstTest
  have hout : k.shared.output = "()".toUTF8.toList := by decide +kernel
  have hne : Function.Injective firstThread := fun c c' => by cases c <;> cases c' <;> decide
  have hr := Run.of_replay step_of_perform (Option.some_get isSome_firstTest).symm
  exact ⟨k, hout, sem_test_completes hne hr⟩

end Test

end Braces

end NSOS.Kmt
