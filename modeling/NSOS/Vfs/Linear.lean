import NSOS.Kmt.Linear
import NSOS.Vfs.Guard
import NSOS.Vfs.Store

/-! # The file store under threads

Threads that call the virtual file system in any order, with context switches
anywhere, see the answers of one store on which the calls act one after the
other.
-/

namespace NSOS.Vfs

open Basis Kmt

variable {n : ℕ} {st : State} {t : Fin n} {k k' : Machine n}

/-- A thread of the pool makes a call in bounds. -/
abbrev Allowed (st : State) (e : Fin n × Call) : Prop :=
  st.Running e.1 ∧ InBounds st (.call e.1 e.2)

def operation (e : Entry Call Reply n) : Op × Reply := (.call e.1.1 e.1.2, e.2)

/-- A history of the store that explains what the threads have seen so far. Its calls are the ones
that have got the semaphore and given it back, in this order. -/
structure Explains (S₀ : Store) (k : Machine n) (E : List (Entry Call Reply n)) (S : Store) :
    Prop where
  trace : Trace Store.Step S₀ (E.map operation) S
  seen : ∀ u, resultsOf E u = (k.phase u).due ++ returnsOf k.events u
  order : ∃ L, k.entries .vfsSem = L ++ E.map Prod.fst ∧ L.length ≤ 1
  shared : (∀ u, ¬ k.Holds u .vfsSem) → k.entries .vfsSem = E.map Prod.fst ∧ S = abs k.shared

theorem atomic_simulation :
    Simulation (Atomic (body (n := n)) Allowed) Store.Step Bounded abs operation where
  keeps {st e st'} h ha := by
    obtain ⟨⟨ht, hin⟩, hr⟩ := ha
    refine bounded_exec h hin (?_ : exec st (.call e.1.1 e.1.2) = some st')
    rw [exec, runBy, if_pos ht]
    exact congrArg (Option.map Prod.snd) hr
  follows h ha := h.call ha.1.1 ha.1.2 ha.2

theorem Linear.explains {E : List (Entry Call Reply n)} {st' : State} (h₀ : Bounded st)
    (h : Linear body .vfsSem Allowed st k E st') (hser : Serial body .vfsSem st k) :
    Explains (abs st) k E (abs st') where
  trace := (atomic_simulation.trace h₀ h.trace).2
  seen := h.seen
  order := by
    by_cases hin : ∃ u, k.Holds u .vfsSem
    · obtain ⟨u, hu⟩ := hin
      obtain ⟨c, hent, -⟩ := h.held u hu
      exact ⟨[(u, c)], hent, le_rfl⟩
    · exact ⟨[], h.free (not_exists.mp hin), Nat.zero_le 1⟩
  shared hfree := ⟨h.free hfree, congrArg abs (h.shared hser hfree)⟩

/-- Whatever the threads do, what they see is explained by one history of the store, on which the
calls act one after the other. The history only grows, so calls that have returned come before
calls that are made later. -/
theorem vfs_linearizable (h : Reach st InBounds)
    (hr : Run Tick (Admits .vfsSem Allowed) (boot st t) k)
    (hr' : Run Tick (Admits .vfsSem Allowed) k k') : ∃ E S E' S', E <:+ E' ∧
      Explains (abs st) k E S ∧ Explains (abs st) k' E' S' := by
  have hbody : ∀ (t : Fin n) c, (body t c).Bracketed .vfsSem .before :=
    fun t c => bracketed_body t c
  have h₀ : Bounded st := ⟨(reach_inBounds h).1, (reach_inBounds h).2, Reach.apart h⟩
  have hboth : Run Tick (Admits .vfsSem Allowed) (boot st t) k' := hr.trans hr'
  obtain ⟨-, hser⟩ := exclusive_serial_boot (hr.mono fun _ => trivial)
  obtain ⟨-, hser'⟩ := exclusive_serial_boot (hboth.mono fun _ => trivial)
  have hinit : ∀ _ : Sem, (0 : ℤ) ≤ 1 ∧ (1 : ℤ) < 2 ^ 31 := fun _ => ⟨by decide, by decide⟩
  obtain ⟨E, st₁, E', st₂, hl, hl', hle⟩ := linearizable hinit rfl hbody hr hr'
  exact ⟨E, abs st₁, E', abs st₂, hle, Linear.explains h₀ hl hser, Linear.explains h₀ hl' hser'⟩

def performAllowed (k : Machine n) (a : Act Call n) : Option (Machine n) :=
  if Admits .vfsSem Allowed k a then perform body k a else none

theorem run_of_performAllowed {acts : List (Act Call n)}
    (hr : replay performAllowed k acts = some k') : Run Tick (Admits .vfsSem Allowed) k k' := by
  refine Run.of_replay (fun {s a s'} hs => ?_) hr
  unfold performAllowed at hs
  split at hs
  · exact ⟨‹_›, step_of_perform hs⟩
  · cases hs

theorem isSome_openBoth : (replay execInBounds initial [.create 1,
    .call 1 (.open "/f".toList O_RDWR), .call 2 (.open "/f".toList O_RDWR)]).isSome = true := by
  decide +kernel

def openBoth : State := Option.get _ isSome_openBoth

/-- The second thread calls while the first one is inside, and sleeps until it has left. -/
theorem vfs_linearizable_run : ∃ k k' : Machine 3,
    (returnsOf k.events 1).map Prod.snd = [(2, [])] ∧
    (returnsOf k'.events 2).map Prod.snd = [(3, [65, 66, 10])] ∧ ∃ E S E' S', E <:+ E' ∧
      Explains (abs openBoth) k E S ∧ Explains (abs openBoth) k' E' S' := by
  have hreach : Reach openBoth InBounds := reach_of_replay (Option.some_get isSome_openBoth).symm
  have hruns : ((replay performAllowed (boot openBoth (1 : Fin 3))
      (.call (.write 3 [65, 66]) :: List.replicate 12 .exec ++ .switch 2 :: .call (.read 3 5) ::
        List.replicate 6 .exec ++ .switch 1 :: List.replicate 24 .exec)).any fun k =>
      (returnsOf k.events 1).map Prod.snd = [(2, [])] ∧
      (replay performAllowed k (.switch 2 :: List.replicate 23 .exec)).any fun k' =>
        (returnsOf k'.events 2).map Prod.snd = [(3, [65, 66, 10])]) = true := by decide +kernel
  obtain ⟨k, hr, hk⟩ := (Option.any_eq_true _ _).mp hruns
  obtain ⟨hfirst, hk'⟩ := of_decide_eq_true hk
  obtain ⟨k', hr', hsecond⟩ := (Option.any_eq_true _ _).mp hk'
  exact ⟨k, k', hfirst, of_decide_eq_true hsecond,
    vfs_linearizable hreach (run_of_performAllowed hr) (run_of_performAllowed hr')⟩

end NSOS.Vfs
