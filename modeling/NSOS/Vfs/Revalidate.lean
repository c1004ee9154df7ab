import NSOS.Vfs.Tidy

/-! # Revalidation

`do_lookup` for drivers with any operations `d_revalidate`, or without them.
An entry in memory is used whenever its driver has the operation, whatever the
operation returns, and a missing operation is called.
-/

namespace NSOS.Vfs

open Basis Prog

section Source

/-- The operations `d_revalidate`: what that of a driver returns for a dentry, if it has one. -/
abbrev Revalidation := Driver → Option (State → ℕ → ℤ)

def revalidation : Revalidation := fun d => d.dRevalidate.map fun z _ _ => z

def dDrop (dp : ℕ) : Code Unit := do
  let parent ← gets fun st => (st.dentry dp).dParent
  let child ← gets fun st => (st.dentry dp).dChild
  let head ← gets fun st => (st.dentry parent).dSubdirs
  if head = some dp then setDentry parent fun d => { d with dSubdirs := child }
  else
    let n ← gets fun st => st.dentries.size
    let denit ← demand (← search (fun st d => (st.dentry d).dChild)
      (fun st d => (st.dentry d).dChild = none || (st.dentry d).dChild = some dp) (n + 1) head)
    if (← gets fun st => (st.dentry denit).dChild) = none then return ()
    else setDentry denit fun d => { d with dChild := child }

/-- The condition of `do_lookup` on an entry in memory. It calls `d_revalidate` when there is
none. -/
def isValid (rev : Revalidation) (denit : ℕ) : Code Bool := do
  let op ← gets fun st => rev (st.dentry denit).dOp
  if op.isSome then return true
  else
    let dRevalidate ← demand op
    return (← gets fun st => dRevalidate st denit) = 0

/-- The part of `do_lookup` for a valid entry: go there, or to the newest mount on it. -/
def cross (nd : Nameidata) (denit : ℕ) : Code Nameidata := do
  let d ← gets fun st => st.dentry denit
  if d.dIsdir = true ∧ d.dMounted ≠ 0 then
    let mnt ← demand (← findMount fun st m => (st.mount m).mntMountpoint = denit)
    let root ← gets fun st => (st.mount mnt).mntRoot
    return ⟨root, some mnt⟩
  else return ⟨denit, nd.mnt⟩

/-- `do_lookup`, for drivers with the operations `rev`. -/
def doLookupBy (rev : Revalidation) (nd : Nameidata) (name : List Char) :
    Code (Bool × Nameidata) := do
  match ← findEntry nd name with
  | some denit =>
    if ← isValid rev denit then
      let nd ← cross nd denit
      return (false, nd)
    else
      dDrop denit
      slowLookup nd name
  | none => slowLookup nd name

end Source

section Siblings

variable {st st' : State} {p q dp : ℕ} {l pre post : List ℕ}

/-- The entries of a directory, from the first one on. -/
structure Siblings (st : State) (p : ℕ) (l : List ℕ) : Prop where
  chain : Chain (fun a => (st.dentry a).dChild) (st.dentry p).dSubdirs l
  lt : ∀ a ∈ l, a < st.dentries.size

theorem run_dDrop_first (hp : (st.dentry dp).dParent = p)
    (hfirst : (st.dentry p).dSubdirs = some dp) : run (dDrop dp) st = some ((), { st with
      dentries := st.dentries.set p fun d => { d with dSubdirs := (st.dentry dp).dChild } }) := by
  simp only [dDrop, run_bind, run_gets, Option.bind_some, hp, if_pos hfirst]
  rfl

theorem Siblings.run_dDrop (hs : Siblings st p l) (hp : (st.dentry dp).dParent = p)
    (hfirst : (st.dentry p).dSubdirs ≠ some dp) : run (dDrop dp) st =
      (l.find? fun a => (st.dentry a).dChild = none || (st.dentry a).dChild = some dp).bind
        fun q => if (st.dentry q).dChild = none then some ((), st) else some ((), { st with
          dentries := st.dentries.set q fun d => { d with dChild := (st.dentry dp).dChild } }) := by
  have hlen : l.length < st.dentries.size + 1 := Nat.lt_succ_of_le (hs.chain.length_le hs.lt)
  have hsearch := search_run (ι := Sem) (fun (st : State) a => (st.dentry a).dChild)
    (fun st a => (st.dentry a).dChild = none || (st.dentry a).dChild = some dp) hs.chain hlen
  simp only [dDrop, run_bind, run_gets, Option.bind_some, hp, if_neg hfirst, hsearch, run_demand]
  cases l.find? fun a => (st.dentry a).dChild = none || (st.dentry a).dChild = some dp with
  | none => rfl
  | some q =>
    simp only [Option.map_some, Option.bind_some]
    split <;> rfl

theorem Siblings.run_dDrop_behind (hs : Siblings st p (pre ++ q :: dp :: post))
    (hp : (st.dentry dp).dParent = p) : run (dDrop dp) st = some ((), { st with
      dentries := st.dentries.set q fun d => { d with dChild := (st.dentry dp).dChild } }) := by
  have hlink : (st.dentry q).dChild = some dp := hs.chain.behind.1
  rw [hs.run_dDrop hp hs.chain.ne_head, hs.chain.find?_front_or_end, Option.bind_some, hlink,
    if_neg (Option.some_ne_none dp)]

end Siblings

section Drop

variable {st st' : State} {c d : ℕ}

/-- An entry has been taken out of the list of its directory. The other entries are as before. -/
structure Drops (st : State) (c : ℕ) (st' : State) : Prop where
  rest : st' = { st with dentries := st'.dentries }
  size : st'.dentries.size = st.dentries.size
  dentry : ∀ d, ∃ o s, st'.dentry d = { st.dentry d with dChild := o, dSubdirs := s }
  entries : ∀ {d}, d < st.dentries.size →
    st'.entries d = if d = st.parent c then (st.entries d).erase c else st.entries d

theorem dentry_of_set {l : ℕ} {f : Dentry → Dentry}
    (hst : st' = { st with dentries := st.dentries.set l f }) (d : ℕ) :
    st'.dentry d = if d = l then f (st.dentry l) else st.dentry d := by
  rw [hst, Namespace.dentry, Pool.obj_set]
  rfl

theorem dChild_of_set {q : ℕ} {v : Option ℕ} (hst : st' = { st with
      dentries := st.dentries.set q fun x => { x with dChild := v } }) :
    (fun a => (st'.dentry a).dChild) = Function.update (fun a => (st.dentry a).dChild) q v ∧
      ∀ a, (st'.dentry a).dSubdirs = (st.dentry a).dSubdirs := by
  have hdentry := dentry_of_set hst
  constructor
  · ext a : 1
    rw [hdentry, Function.update_apply]
    split <;> rfl
  · intro a
    rw [hdentry]
    split
    case isTrue h => rw [h]
    case isFalse => rfl

theorem dSubdirs_of_set {q : ℕ} {v : Option ℕ} (hst : st' = { st with
      dentries := st.dentries.set q fun x => { x with dSubdirs := v } }) :
    (fun a => (st'.dentry a).dChild) = (fun a => (st.dentry a).dChild) ∧
      ∀ a, (st'.dentry a).dSubdirs = if a = q then v else (st.dentry a).dSubdirs := by
  have hdentry := dentry_of_set hst
  constructor
  · ext a : 1
    rw [hdentry]
    split
    case isTrue h => rw [h]
    case isFalse => rfl
  · intro a
    rw [hdentry]
    split <;> rfl

theorem Drops.of_set {l : ℕ} {f : Dentry → Dentry}
    (hf : ∀ x, ∃ o s, f x = { x with dChild := o, dSubdirs := s })
    (hst : st' = { st with dentries := st.dentries.set l f })
    (he : ∀ {d}, d < st.dentries.size →
      st'.entries d = if d = st.parent c then (st.entries d).erase c else st.entries d) :
    Drops st c st' where
  rest := by rw [hst]
  size := by rw [hst]; rfl
  dentry d := by
    rw [dentry_of_set hst]
    split
    case isTrue h =>
      rw [h]
      exact hf _
    case isFalse => exact ⟨_, _, rfl⟩
  entries := he

theorem drops_first (h : st.toNamespace.Wf) (hd : d < st.dentries.size) (hp : st.parent c = d)
    {post : List ℕ} (hl : st.entries d = c :: post)
    (hst : st' = { st with dentries := st.dentries.set d fun x =>
      { x with dSubdirs := (st.dentry c).dChild } }) : Drops st c st' := by
  apply Drops.of_set (fun x => ⟨_, _, rfl⟩) hst
  intro e he
  obtain ⟨hnext, hsub⟩ := dSubdirs_of_set hst
  have hsize : st'.dentries.size = st.dentries.size := by rw [hst]; rfl
  rw [Namespace.entries, hnext, hsize, hsub]
  by_cases hed : e = d
  · subst hed
    obtain ⟨hchain, -⟩ := h.chain_entries hd
    have hlen := h.length_entries hd
    rw [hl] at hchain hlen
    rw [if_pos rfl, if_pos hp.symm, hl, List.erase_cons_head]
    apply hchain.2.links_eq
    simp only [List.length_cons] at hlen
    omega
  · rw [if_neg hed, if_neg (hp ▸ hed)]
    rfl

theorem drops_behind (h : st.toNamespace.Wf) (hd : d < st.dentries.size) (hp : st.parent c = d)
    {pre post : List ℕ} {q : ℕ} (hl : st.entries d = pre ++ q :: c :: post)
    (hst : st' = { st with dentries := st.dentries.set q fun x =>
      { x with dChild := (st.dentry c).dChild } }) : Drops st c st' := by
  apply Drops.of_set (fun x => ⟨_, _, rfl⟩) hst
  intro e he
  obtain ⟨hnext, hsub⟩ := dChild_of_set hst
  have hsize : st'.dentries.size = st.dentries.size := by rw [hst]; rfl
  obtain ⟨hchain, hmem⟩ := h.chain_entries hd
  rw [Namespace.entries, hnext, hsize, hsub]
  by_cases hed : e = d
  · subst hed
    have hlen := h.length_entries hd
    rw [hl] at hchain hlen
    rw [if_pos hp.symm, hl, hchain.erase_behind]
    apply hchain.unlink.links_eq
    simp only [List.length_append, List.length_cons] at hlen ⊢
    omega
  · have hq : q ∉ st.entries e := fun hin => by
      have hqd := (hmem q (by rw [hl]; simp)).2.1
      exact hed (((h.chain_entries he).2 q hin).2.1.symm.trans hqd)
    rw [if_neg (hp ▸ hed)]
    exact ((h.chain_entries he).1.update_of_notMem hq).links_eq (h.length_entries he)

/-- `d_drop` takes a linked entry out of its directory. -/
theorem run_dDrop (h : st.toNamespace.Wf) (hd : d < st.dentries.size) (hc : c ∈ st.entries d) :
    ∃ st', run (dDrop c) st = some ((), st') ∧ Drops st c st' := by
  obtain ⟨hchain, hmem⟩ := h.chain_entries hd
  have hp : st.parent c = d := (hmem c hc).2.1
  have hs : Siblings st d (st.entries d) := ⟨hchain, fun a ha => (hmem a ha).1⟩
  obtain ⟨pre, post, hl⟩ := List.append_of_mem hc
  rcases List.eq_nil_or_concat pre with rfl | ⟨pre, q, rfl⟩
  · rw [hl] at hs
    exact ⟨_, run_dDrop_first hp hs.chain.1, drops_first h hd hp hl rfl⟩
  · rw [List.concat_eq_append, List.append_assoc, List.singleton_append] at hl
    rw [hl] at hs
    exact ⟨_, hs.run_dDrop_behind hp, drops_behind h hd hp hl rfl⟩

end Drop

section Outcome

variable {rev : Revalidation} {st st' st₁ : State} {nd nd' : Nameidata} {name : List Char} {c : ℕ}
  {r : Bool × Nameidata}

/-- What is to happen for an entry in memory: it is used when its driver has no `d_revalidate`, or
when that returns zero. Otherwise it is dropped, and the driver decides. -/
inductive Revalidates (rev : Revalidation) (st : State) (nd : Nameidata) (name : List Char)
    (c : ℕ) : Bool × Nameidata → State → Prop
  | used {nd' : Nameidata} : (∀ f, rev (st.dentry c).dOp = some f → f st c = 0) →
      arrive st nd c = .hit nd' → Revalidates rev st nd name c (false, nd') st
  | dropped {f : State → ℕ → ℤ} {r : Bool × Nameidata} {st₁ st' : State} :
      rev (st.dentry c).dOp = some f → f st c ≠ 0 → Drops st c st₁ →
        run (slowLookup nd name) st₁ = some (r, st') → Revalidates rev st nd name c r st'

theorem exists_dRevalidate (d : Driver) : ∃ k, d.dRevalidate = some k := by
  cases d <;> exact ⟨_, rfl⟩

theorem run_cross (nd : Nameidata) (c : ℕ) (st : State) :
    run (cross nd c) st = run (enter nd c) st := by
  obtain ⟨k, hk⟩ := exists_dRevalidate (st.dentry c).dOp
  simp only [enter, cross, run_bind, run_gets, Option.bind_some, hk]

theorem run_isValid {f : State → ℕ → ℤ} (hf : rev (st.dentry c).dOp = some f) :
    run (isValid rev c) st = some (true, st) := by
  simp only [isValid, run_bind, run_gets, Option.bind_some, hf, Option.isSome_some, if_true,
    run_pure]

theorem run_isValid_none (hf : rev (st.dentry c).dOp = none) : run (isValid rev c) st = none := by
  simp only [isValid, run_bind, run_gets, Option.bind_some, hf]
  rfl

/-- This is the `do_lookup` of the kernel. -/
theorem run_doLookupBy_revalidation (nd : Nameidata) (name : List Char) (st : State) :
    run (doLookupBy revalidation nd name) st = run (doLookup nd name) st := by
  rw [doLookupBy, doLookup, run_bind, run_bind]
  cases run (findEntry nd name) st with
  | none => rfl
  | some r =>
    obtain ⟨o, st₁⟩ := r
    rw [Option.bind_some, Option.bind_some]
    cases o with
    | none => rfl
    | some c =>
      obtain ⟨k, hk⟩ := exists_dRevalidate (st₁.dentry c).dOp
      have hrev : revalidation (st₁.dentry c).dOp = some fun _ _ => k := by
        rw [revalidation, hk, Option.map_some]
      dsimp only
      rw [run_bind, run_isValid hrev, Option.bind_some]
      dsimp only
      rw [if_pos rfl, run_bind, run_cross, run_bind]

theorem size_slowLookup {m : ℕ} (hlt : nd.dentry < st.dentries.size) (hm : nd.mnt = some m)
    (hinode : (st.dentry nd.dentry).dInode ≠ none)
    (hr : run (slowLookup nd name) st = some (r, st')) :
    st'.dentries.size = st.dentries.size + 1 := by
  obtain ⟨ip, hip⟩ := Option.ne_none_iff_exists'.mp hinode
  have hsize : ∀ {k st₂ r₂}, run (slowLookup nd name) st = some (r₂, st₂) →
      Enters 0 0 st nd name k st₂ → st'.dentries.size = st.dentries.size + 1 := by
    rintro k st₂ r₂ hr₂ ⟨y, j, F, he⟩
    obtain ⟨-, rfl⟩ := run_inj hr hr₂
    rw [he.namespace_eq, Namespace.size_enter]
  obtain ⟨st₂, hst₂⟩ := run_slowLookup_enters 0 0 name hlt hm hip
  split at hst₂
  · exact hsize hst₂.1 hst₂.2
  · exact hsize hst₂.1 hst₂.2

theorem exists_revalidates (rev : Revalidation) (h : Orderly st) (hD : DirAt st nd)
    (hc : st.childNamed nd.dentry name = some c) :
    ∃ r st', Revalidates rev st nd name c r st' := by
  obtain ⟨nd', harr, -⟩ := (walkable_at 0 0).arrive h hD hc
  by_cases hstale : ∃ f, rev (st.dentry c).dOp = some f ∧ f st c ≠ 0
  · obtain ⟨f, hf, hne⟩ := hstale
    obtain ⟨st₁, -, hdrop⟩ := run_dDrop h.wf hD.lt (List.mem_of_find?_eq_some hc)
    obtain ⟨m, -, hm, -⟩ := hD.mnt
    obtain ⟨ip, hip⟩ := Option.ne_none_iff_exists'.mp hD.inode
    obtain ⟨o, s, hdir⟩ := hdrop.dentry nd.dentry
    have hip₁ : (st₁.dentry nd.dentry).dInode = some ip := by rw [hdir, hip]
    obtain ⟨st₂, hst₂⟩ := run_slowLookup_enters 0 0 name (hdrop.size ▸ hD.lt) hm hip₁
    split at hst₂
    · exact ⟨_, st₂, .dropped hf hne hdrop hst₂.1⟩
    · exact ⟨_, st₂, .dropped hf hne hdrop hst₂.1⟩
  · refine ⟨_, _, .used (fun f hf => ?_) harr⟩
    by_contra hne
    exact hstale ⟨f, hf, hne⟩

theorem doLookupBy_revalidates_iff (h : Orderly st) (hD : DirAt st nd)
    (hc : st.childNamed nd.dentry name = some c) :
    (∃ r st', run (doLookupBy rev nd name) st = some (r, st') ∧
      Revalidates rev st nd name c r st') ↔ ∃ f, rev (st.dentry c).dOp = some f ∧ f st c = 0 := by
  obtain ⟨nd', harr, -⟩ := (walkable_at 0 0).arrive h hD hc
  have hrun : run (doLookupBy rev nd name) st = (run (isValid rev c) st).bind fun x =>
      run (if x.1 = true then (do
        let nd ← cross nd c
        return (false, nd)) else do
        dDrop c
        slowLookup nd name) x.2 := by
    rw [doLookupBy, run_bind, run_findEntry h.wf hD.lt, Option.bind_some, hc]
    dsimp only
    rw [run_bind]
  have hused : ∀ {f}, rev (st.dentry c).dOp = some f →
      run (doLookupBy rev nd name) st = some ((false, nd'), st) := fun hf => by
    rw [hrun, run_isValid hf, Option.bind_some, if_pos rfl, run_bind, run_cross,
      run_enter h.wf harr]
    rfl
  constructor
  · rintro ⟨r, st', hr, hre⟩
    cases hf : rev (st.dentry c).dOp with
    | none =>
      rw [hrun, run_isValid_none hf] at hr
      cases hr
    | some f =>
      obtain ⟨-, rfl⟩ := run_inj hr (hused hf)
      refine ⟨f, rfl, ?_⟩
      cases hre with
      | used hzero => exact hzero f hf
      | @dropped _ _ st₁ _ _ _ hdrop hslow =>
        -- The driver would have made a dentry, but the state has not changed.
        obtain ⟨m, -, hm, -⟩ := hD.mnt
        obtain ⟨o, s, hdir⟩ := hdrop.dentry nd.dentry
        have hinode : (st₁.dentry nd.dentry).dInode ≠ none := by
          rw [hdir]
          exact hD.inode
        have hsize := size_slowLookup (hdrop.size ▸ hD.lt) hm hinode hslow
        rw [hdrop.size] at hsize
        omega
  · rintro ⟨f, hf, hzero⟩
    refine ⟨_, _, hused hf, .used (fun g hg => ?_) harr⟩
    obtain rfl := Option.some.inj (hf.symm.trans hg)
    exact hzero

end Outcome

end NSOS.Vfs
