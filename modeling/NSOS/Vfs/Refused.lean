import NSOS.Vfs.Exhausted

/-! # Histories with refused requests

Requests may be refused at any time. Whatever has been refused before, the trees
are in order, and the operations that allocate are robust in the same few cases
only.
-/

namespace NSOS.Vfs.Scarce

open Basis Prog

section Placid

variable {α β : Type} {ok : ℕ → Bool} {fp n : ℕ} {buf : List UInt8} {null : Bool}
  {p : Code α} {f : α → Code β} {start last : Ptr}

/-- Programs that leave the namespace alone. -/
class Placid (p : Code α) : Prop where
  still : ∀ {s a s'}, run p s = some (a, s') → Still s.state s'.state

instance placid_pure (a : α) : Placid (pure a : Code α) where
  still h := by
    obtain ⟨-, rfl⟩ := Prod.mk.inj (Option.some.inj h)
    exact .refl

instance placid_gets (g : Asked State → α) : Placid (gets g) where
  still h := by
    obtain ⟨-, rfl⟩ := Prod.mk.inj (Option.some.inj h)
    exact .refl

instance placid_granted : Placid (granted ok) where
  still h := by
    obtain ⟨-, rfl⟩ := Prod.mk.inj (Option.some.inj h)
    exact .refl

instance placid_bind [hp : Placid p] [hf : ∀ a, Placid (f a)] : Placid (p >>= f) where
  still h := by
    obtain ⟨a, s₁, h₁, h₂⟩ := run_bind_some h
    exact (hp.still h₁).trans ((hf a).still h₂)

instance placid_ite {c : Prop} [Decidable c] {p q : Code α} [Placid p] [Placid q] :
    Placid (if c then p else q) := by split <;> infer_instance

instance placid_liftM {p : Vfs.Code α} [hp : Calm p] : Placid (liftM p : Code α) where
  still {s a s'} h := by
    rw [run_liftM] at h
    obtain ⟨⟨b, x⟩, hrun, heq⟩ := Option.map_eq_some_iff.mp h
    obtain ⟨-, rfl⟩ := Prod.mk.inj heq
    exact hp.still hrun

instance placid_touch {p : Vfs.Code Unit} [Calm p] : Placid (touch null n p) := by
  have : Placid (stop : Code Unit) := ⟨fun h => by cases h⟩
  unfold touch
  infer_instance

instance placid_kvfsGrow : Placid (kvfsGrow ok fp n) := by
  have : ∀ b, Calm (free (.block b)) := fun b => calm_free fun f h => by cases h
  unfold kvfsGrow allocBlock
  infer_instance

instance placid_kvfsStore : Placid (kvfsStore null fp buf start last) := by
  have : ∀ (k : Asked State → ℤ) (x : Asked State → KvfsFileNode), Placid (modify fun s =>
      { s with state := { s.state with
        kvfsFiles := Function.update s.state.kvfsFiles (k s) (x s) } } : Code Unit) := fun k x =>
    ⟨fun h => by
      obtain ⟨-, rfl⟩ := Prod.mk.inj (Option.some.inj h)
      exact ⟨⟨le_rfl, fun _ => rfl, rfl, rfl, fun _ => Iff.rfl⟩, rfl⟩⟩
  unfold kvfsStore
  infer_instance

instance placid_kvfsWrite : Placid (kvfsWrite ok fp buf) := by
  unfold kvfsWrite
  infer_instance

end Placid

section Histories

/-- What happens: a step whose requests are all granted, a lookup, or an operation that
allocates. -/
inductive Event where
  | plain (op : Op)
  | lookup (ok : ℕ → Bool) (t : ℕ) (path : List Char)
  | request (ok : ℕ → Bool) (q : Request)

def Event.Occurs (st : State) (e : Event) (st' : State) : Prop :=
  match e with
  | plain op => exec st op = some st'
  | lookup ok t path =>
    st.Running t ∧ ∃ r n, run (pathLookup ok t path false) ⟨st, 0⟩ = some (r, ⟨st', n⟩)
  | request ok q => q.Legal st ∧ ∃ z n, run (q.prog ok) ⟨st, 0⟩ = some (z, ⟨st', n⟩)

/-- The states of histories in which requests may be refused. -/
def Reachable (st : State) : Prop :=
  ∃ st₀, Started st₀ ∧ Run Event.Occurs (fun _ _ => True) st₀ st

variable {ok : ℕ → Bool} {st st' : State} {t fs fp c : ℕ} {path : List Char} {flags : UInt32}
  {mode : UInt16} {buf : List UInt8} {q : Question} {z : ℤ} {s a : Asked State} {e : Event}

abbrev InOrder (st : State) : Prop := Inv st ∧ Orderly st

theorem inOrder_exec {op : Op} (h : InOrder st) (hs : exec st op = some st') : InOrder st' := by
  have hinv := inv_exec h.1 hs
  exact ⟨hinv, hinv.wf, tidy_exec h.1 h.2.tidy hs⟩

theorem inOrder_still (h : InOrder st) (hs : Still st st') : InOrder st' := by
  have hinv := (h.1.still hs).inv
  refine ⟨hinv, hinv.wf, ?_⟩
  rw [hs.namespace_eq]
  exact h.2.tidy

theorem Later.inOrder (h : Later st st') : InOrder st' := ⟨h.inv, h.orderly⟩

theorem later_pathLookup {r : Option ℕ × Nameidata} (h : InOrder st)
    (hD : DirAt st (start st t path))
    (hr : run (pathLookup ok t path false) ⟨st, c⟩ = some (r, s)) : Later st s.state := by
  obtain ⟨hinv, hord⟩ := h
  cases hask : lookupQuestion st t path with
  | none =>
    obtain ⟨x, hlook⟩ := still_pathLookup hord hD hask
    obtain ⟨-, rfl⟩ := run_inj hr (hlook ok c)
    exact .refl hinv hord
  | some q =>
    obtain ⟨hopen, -⟩ := asks_pathLookup hord hD hask
    by_cases hmiss : Misses ok c st q.nd q.name
    · obtain ⟨nd, st₁, hlook, hm⟩ := run_pathLookup_misses 0 hord hD hask hmiss
      obtain ⟨-, rfl⟩ := run_inj hr hlook
      exact .missed hinv hord hopen.place hopen.absent hopen.valid hm
    · obtain ⟨he, -⟩ := pathLookup_finds 0 hord hD hask hmiss hr
      exact .enters hinv hord hopen.place hopen.absent hopen.valid he

theorem pathLookup_file {r : Option ℕ × Nameidata} (hord : Orderly st)
    (hD : DirAt st (start st t path)) (hask : lookupQuestion st t path = some q)
    (hr : run (pathLookup ok t path false) ⟨st, c⟩ = some (r, s)) :
    ∀ d, r.1 = some d → (s.state.dentry d).dIsdir = false := by
  by_cases hmiss : Misses ok c st q.nd q.name
  · obtain ⟨nd, st₁, hlook, -⟩ := run_pathLookup_misses 0 hord hD hask hmiss
    obtain ⟨rfl, -⟩ := run_inj hr hlook
    rintro d hd
    cases hd
  · exact (pathLookup_finds 0 hord hD hask hmiss hr).2

theorem inOrder_kmtCreate (h : InOrder st) (ht : st.Running t)
    (hr : run (Scarce.kmtCreate ok t) ⟨st, 0⟩ = some (z, a)) : InOrder a.state := by
  have hplenty : run (Scarce.kmtCreate plenty t) ⟨st, 0⟩ = some (z, a) :=
    (heedless_kmtCreate st t).plenty hr
  have hsame := same_kmtCreate (s := ⟨st, 0⟩) (t := t)
  rw [hplenty] at hsame
  have hexec : exec st (.create t) = some a.state := (if_pos ht).trans hsame.symm
  exact inOrder_exec h hexec

theorem inOrder_vfsOpen (h : InOrder st) (hD : DirAt st (start st t path))
    (hr : run (vfsOpen ok t path flags) ⟨st, 0⟩ = some (z, a)) : InOrder a.state := by
  rw [run_vfsOpen] at hr
  obtain ⟨⟨r, s⟩, hmake, hopen⟩ := Option.bind_eq_some_iff.mp hr
  exact inOrder_still (later_makePath h.1 h.2 hD hmake).inOrder (still_openEnd hopen)

theorem inOrder_vfsMkdir (h : InOrder st) (hD : DirAt st (start st t path))
    (hr : run (vfsMkdir ok t path mode) ⟨st, 0⟩ = some (z, a)) : InOrder a.state := by
  rw [run_vfsMkdir] at hr
  obtain ⟨⟨⟨o, nd⟩, s⟩, hlook, hrest⟩ := Option.bind_eq_some_iff.mp hr
  have hlater := later_pathLookup h hD hlook
  cases o with
  | some d =>
    obtain ⟨-, rfl⟩ := Prod.mk.inj (Option.some.inj hrest)
    exact hlater.inOrder
  | none =>
    have hstart : start s.state t path = start st t path := start_congr hlater.thread path
    have hD₁ : DirAt s.state (start s.state t path) := hstart ▸ hlater.place hD
    rw [run_mkdirEnd] at hrest
    obtain ⟨⟨r, s₁⟩, hmake, heq⟩ := Option.map_eq_some_iff.mp hrest
    obtain ⟨-, rfl⟩ := Prod.mk.inj heq
    exact (later_makePath hlater.inv hlater.orderly hD₁ hmake).inOrder

/-- A mount without a question goes as with plenty of memory. -/
theorem inOrder_vfsMount (h : InOrder st) (ht : st.Running t)
    (hr : run (vfsMount ok t path fs) ⟨st, 0⟩ = some (z, a)) : InOrder a.state := by
  have hD : DirAt st (start st t path) := dirAt_start h.1 h.2.tidy ht
  cases hask : lookupQuestion st t path with
  | none =>
    have hplenty := (heedless_vfsMount h.2 hD hask).plenty hr
    have hbody : (Call.mount path fs).body t = plain (Vfs.vfsMount t path fs) := rfl
    exact inOrder_exec h (exec_call ht hbody (same_vfsMount.run_same hplenty))
  | some q =>
    rw [run_vfsMount] at hr
    split at hr
    · obtain ⟨-, rfl⟩ := Prod.mk.inj (Option.some.inj hr)
      exact h
    · obtain ⟨⟨r, s⟩, hlook, hend⟩ := Option.bind_eq_some_iff.mp hr
      obtain ⟨-, rfl⟩ := run_inj hend (run_mountEnd_file (pathLookup_file h.2 hD hask hlook))
      exact (later_pathLookup h hD hlook).inOrder

theorem inOrder_occurs (h : InOrder st) (ho : e.Occurs st st') : InOrder st' := by
  have hD : ∀ {t path}, st.Running t → DirAt st (start st t path) := fun ht =>
    dirAt_start h.1 h.2.tidy ht
  cases e with
  | plain op => exact inOrder_exec h ho
  | lookup ok t path =>
    obtain ⟨ht, r, n, hlook⟩ := ho
    exact (later_pathLookup h (hD ht) hlook).inOrder
  | request ok q =>
    obtain ⟨hq, z, n, hr⟩ := ho
    cases q with
    | kmtCreate t => exact inOrder_kmtCreate h hq hr
    | vfsOpen t path flags => exact inOrder_vfsOpen h (hD hq) hr
    | vfsMkdir t path mode => exact inOrder_vfsMkdir h (hD hq) hr
    | vfsMount t path fs => exact inOrder_vfsMount h hq hr
    | kvfsWrite fp buf => exact inOrder_still h (placid_kvfsWrite.still hr)

/-- Every history keeps the trees in order. -/
theorem Reachable.inOrder (h : Reachable st) : InOrder st := by
  obtain ⟨st₀, h₀, hr⟩ := h
  refine hr.invariant (I := InOrder) ⟨inv_started h₀, (inv_started h₀).wf, tidy_started h₀⟩ ?_
  exact fun h _ ho => inOrder_occurs h ho

theorem legal_kvfsWrite {fd : ℤ} (h : Reach st Proper) (ht : st.Running t)
    (ho : OpenOn st t fd fp .kvfs) : (Request.kvfsWrite fp buf).Legal st :=
  ⟨ho.driver, (reach_settled h).held.isFile ht ho⟩

end Histories

section Survival

variable {ok : ℕ → Bool} {st : State} {q : Request}

/-- Where an operation survives a refused request: the walk comes to a name that is not in memory,
the lookup for it misses, and nothing is made behind it. For `vfs_mount`, one of the two checked
requests of the lookup has been refused. -/
def Request.Survives (ok : ℕ → Bool) (st : State) : Request → Prop
  | kmtCreate _ => False
  | vfsOpen t path _ => ∃ q, makeQuestion st t path false = some q ∧ q.Idle ok 0 t st q.last
  | vfsMkdir t path _ => ∃ q, lookupQuestion st t path = some q ∧
      Misses ok 0 st q.nd q.name ∧ q.Idle ok (lookupAsks ok 0) t st false
  | vfsMount t path _ =>
      (∃ q, lookupQuestion st t path = some q) ∧ ¬ (ok 0 = true ∧ ok 1 = true)
  | kvfsWrite _ _ => False

/-- These are the cases in which an operation that is refused a request fails without a trace. -/
theorem refused_robust_iff (h : Reachable st) (hq : q.Legal st) (hr : q.Refused ok st) :
    q.Robust ok st ↔ q.Survives ok st := by
  obtain ⟨hinv, hord⟩ := h.inOrder
  cases q with
  | kmtCreate t =>
    exact iff_of_false (Request.not_robust_of_heedless (heedless_kmtCreate st t) hr) id
  | vfsOpen t path flags => exact robust_vfsOpen hinv hord hq hr
  | vfsMkdir t path mode => exact robust_vfsMkdir hinv hord hq hr
  | vfsMount t path fs => exact robust_vfsMount hinv hord hq hr
  | kvfsWrite fp buf => exact iff_of_false (not_robust_kvfsWrite hq hr) id

def firstRefused (k : ℕ) : Bool := k ≠ 0

theorem refused_of_asks (hok : ok 0 = false)
    (h : (run (q.prog plenty) ⟨st, 0⟩).any (fun r => 0 < r.2.asks) = true) : q.Refused ok st := by
  obtain ⟨⟨z, s⟩, hrun, hs⟩ := (Option.any_eq_true _ _).mp h
  exact ⟨z, s, hrun, 0, of_decide_eq_true hs, hok⟩

theorem reachable_initial : Reachable initial := ⟨initial, started_initial, .refl⟩

theorem running_initial : initial.Running 1 := by decide +kernel

/-- A mount on a name that is not in memory fails without a trace. -/
theorem refused_robust_mount :
    (Request.vfsMount 1 "/x".toList 0).Robust firstRefused initial := by
  have hrefused : (Request.vfsMount 1 "/x".toList 0).Refused firstRefused initial :=
    refused_of_asks rfl (by decide +kernel)
  have hlegal : (Request.vfsMount 1 "/x".toList 0).Legal initial := running_initial
  have hask : (lookupQuestion initial 1 "/x".toList).isSome = true := by decide +kernel
  exact (refused_robust_iff reachable_initial hlegal hrefused).mpr
    ⟨Option.isSome_iff_exists.mp hask, by decide⟩

/-- A refused lookup is taken for a name that is not there: the file is made, and opened. -/
theorem refused_not_robust : ¬ ∀ (ok : ℕ → Bool) (st : State) (q : Request), Reachable st →
    q.Legal st → q.Refused ok st → q.Robust ok st := by
  intro hall
  have hrefused : (Request.vfsOpen 1 "/f".toList O_RDWR).Refused firstRefused initial :=
    refused_of_asks rfl (by decide +kernel)
  have hopened : (run (vfsOpen firstRefused 1 "/f".toList O_RDWR) ⟨initial, 0⟩).all
      (fun r => 0 ≤ r.1) = true := by decide +kernel
  obtain ⟨z, s, hrun, hz, -⟩ := hall firstRefused initial (.vfsOpen 1 "/f".toList O_RDWR)
    reachable_initial running_initial hrefused
  have hrun : run (vfsOpen firstRefused 1 "/f".toList O_RDWR) ⟨initial, 0⟩ = some (z, s) := hrun
  rw [hrun] at hopened
  exact absurd hz (not_lt.mpr (of_decide_eq_true hopened))

end Survival

end NSOS.Vfs.Scarce
