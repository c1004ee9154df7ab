import NSOS.Vfs.Tidy

/-! # Entries with permission

`make_path` changes the state where `do_lookup` asks a driver for a name and
where it has the driver make an entry. The directory of an entry that is made
has passed `check_acl` right before. So nobody adds an entry to a directory
without permission, but for the files that its driver has anyway.
-/

namespace NSOS.Vfs

open Basis Prog

section Steps

/-- What changes the state on the way of `make_path`. -/
inductive Linking where
  /-- `do_lookup` asks the driver of a directory for a name. -/
  | asks (nd : Nameidata) (name : List Char)
  /-- The driver makes an entry in a directory. -/
  | makes (nd : Nameidata) (name : List Char) (file : Bool)

namespace Linking

def Does (t : ℕ) (mode : UInt16) (st : State) : Linking → State → Prop
  | asks nd name, st' => ∃ r, run (slowLookup nd name) st = some (r, st')
  | makes nd name file, st' => ∃ r, run (makeEntry t nd name file mode) st = some (r, st')

def place : Linking → Nameidata
  | asks nd _ => nd
  | makes nd _ _ => nd

def name : Linking → List Char
  | asks _ name => name
  | makes _ name _ => name

end Linking

/-- `check_acl` lets the thread read and write the inode of the directory. -/
def Writable (st : State) (t d : ℕ) : Prop := ∃ ip, (st.dentry d).dInode = some ip ∧
  checkAcl (st.thread t).uid (st.thread t).gid (st.inode ip) (R_OK ||| W_OK) = false

/-- The step takes place in a directory that has no such entry in memory. To make an entry there
is permitted. -/
structure Permits (t : ℕ) (st : State) (a : Linking) : Prop where
  place : DirAt st a.place
  absent : st.childNamed a.place.dentry a.name = none
  valid : ValidName a.name
  writable : ∀ nd name file, a = .makes nd name file → Writable st t nd.dentry

variable {t n d : ℕ} {mode : UInt16} {st st' : State} {nd nd' : Nameidata} {a : Linking}
  {name s path : List Char} {dir file failed : Bool} {o : Option Nameidata}

abbrev Linked (t : ℕ) (mode : UInt16) : State → State → Prop :=
  Run (Linking.Does t mode) (Permits t)

theorem doLookup_cases (t : ℕ) (mode : UInt16) (h : Orderly st) (hD : DirAt st nd)
    (hr : run (doLookup nd name) st = some ((failed, nd'), st')) :
    (st' = st ∨ st.childNamed nd.dentry name = none ∧ Linking.Does t mode st (.asks nd name) st') ∧
      (failed = true → nd' = nd ∧ st.childNamed nd.dentry name = none ∧
        Enters t mode st nd name .lost st') := by
  have hlook := (walkable_at t mode).run_doLookup h hD name
  rw [hr] at hlook
  have hslow : st.childNamed nd.dentry name = none →
      Linking.Does t mode st (.asks nd name) st' := fun hnone => by
    rw [doLookup, run_bind, run_findEntry h.wf hD.lt, Option.bind_some, hnone] at hr
    exact ⟨_, hr⟩
  cases hf : look st nd name with
  | stuck =>
    rw [hf] at hlook
    cases hlook
  | hit nd₁ =>
    rw [hf] at hlook
    obtain ⟨heq, -⟩ := hlook
    simp only [Option.some.injEq, Prod.mk.injEq] at heq
    obtain ⟨⟨rfl, rfl⟩, rfl⟩ := heq
    exact ⟨.inl rfl, Bool.noConfusion⟩
  | made nd₁ name₁ =>
    rw [hf] at hlook
    obtain ⟨-, -, hnone, st₁, heq, -⟩ := hlook
    simp only [Option.some.injEq, Prod.mk.injEq] at heq
    obtain ⟨⟨rfl, -⟩, rfl⟩ := heq
    exact ⟨.inr ⟨hnone, hslow hnone⟩, Bool.noConfusion⟩
  | absent =>
    rw [hf] at hlook
    obtain ⟨hnone, st₁, heq, he⟩ := hlook
    simp only [Option.some.injEq, Prod.mk.injEq] at heq
    obtain ⟨⟨-, rfl⟩, rfl⟩ := heq
    exact ⟨.inr ⟨hnone, hslow hnone⟩, fun _ => ⟨rfl, hnone, he⟩⟩

theorem linked_doLookup (h : Orderly st) (hD : DirAt st nd) (hvalid : ValidName name)
    (hr : run (doLookup nd name) st = some ((failed, nd'), st')) : Linked t mode st st' := by
  rcases (doLookup_cases t mode h hD hr).1 with rfl | ⟨hnone, hdoes⟩
  · exact .refl
  · exact Run.refl.tail (i := .asks nd name) ⟨hD, hnone, hvalid, fun _ _ _ he => by cases he⟩
      hdoes

/-- An entry is made right after its directory has passed `check_acl`. -/
theorem linked_lookupOrMake (h : Orderly st) (hD : DirAt st nd) (hvalid : ValidName name)
    (hr : run (lookupOrMake t nd name file mode) st = some (o, st')) : Linked t mode st st' := by
  obtain ⟨⟨failed, nd₁⟩, st₁, hlook, hrest⟩ := run_bind_some hr
  have hlinked : Linked t mode st st₁ := linked_doLookup h hD hvalid hlook
  cases failed with
  | false =>
    obtain ⟨-, rfl⟩ := Prod.mk.inj (Option.some.inj hrest)
    exact hlinked
  | true =>
    obtain ⟨rfl, hnone, he⟩ := (doLookup_cases t mode h hD hlook).2 rfl
    obtain ⟨h₁, hkeep, -⟩ := (walkable_at t mode).enter h hD hnone hvalid he
    have hnone₁ := (he.childNamed_of_lost h.wf hD.lt).trans hnone
    obtain ⟨ip, hip⟩ := Option.ne_none_iff_exists'.mp (hkeep hD).inode
    simp only [if_true, run_bind, run_gets, Option.bind_some, hip, run_demand,
      Option.map_some] at hrest
    split at hrest
    · obtain ⟨-, rfl⟩ := Prod.mk.inj (Option.some.inj hrest)
      exact hlinked
    case isFalse hgranted =>
      refine hlinked.tail (i := .makes nd₁ name file)
        ⟨hkeep hD, hnone₁, hvalid, fun _ _ _ heq => ?_⟩ ⟨_, hrest⟩
      cases heq
      exact ⟨ip, hip, Bool.eq_false_iff.mpr hgranted⟩

theorem linked_makeLoop (h : Orderly st) (hn : s.length ≤ n) (hs : AtName s) (hD : DirAt st nd)
    {r : Option ℕ × Nameidata} (hr : run (makeLoop t dir mode n s nd) st = some (r, st')) :
    Linked t mode st st' := by
  have hw := walkable_at t mode
  induction n generalizing s nd st with
  | zero => exact absurd (List.length_eq_zero_iff.mp (Nat.le_zero.mp hn)) hs.1
  | succ n ih =>
    have hlen := length_remainder_lt hs.1
    have hdone : ∀ {st₁ : State} {r' : Option ℕ × Nameidata},
        run (pure r' : Code (Option ℕ × Nameidata)) st₁ = some (r, st') → st' = st₁ :=
      fun h => (Prod.mk.inj (Option.some.inj h)).2.symm
    -- A part that needs no directory.
    have hstep : ∀ {nd₁}, DirAt st nd₁ →
        run (if remainder s = [] then return (if dir then some nd₁.dentry else none, nd₁)
          else makeLoop t dir mode n (remainder s) nd₁) st = some (r, st') →
          Linked t mode st st' := by
      intro nd₁ hD₁ hr
      by_cases hrem : remainder s = []
      · rw [if_pos hrem] at hr
        exact hdone hr ▸ .refl
      · rw [if_neg hrem] at hr
        exact ih h (by omega) (atName_remainder hrem) hD₁ hr
    rw [makeLoop] at hr
    split at hr
    · exact hdone hr ▸ .refl
    split at hr
    · exact hstep hD hr
    case isFalse hdot =>
      split at hr
      · obtain ⟨nd₁, hc, hD₁⟩ := hw.climb h hD
        rw [run_bind, run_followDotdot hc, Option.bind_some] at hr
        exact hstep hD₁ hr
      case isFalse hdd =>
        have hvalid := hs.validName hdot hdd
        obtain ⟨o, st₁, hmake, hrest⟩ := run_bind_some hr
        obtain ⟨hwalk, hplace⟩ := hw.walked_lookupOrMake h hD hvalid hmake
        have hlinked := linked_lookupOrMake h hD hvalid hmake
        cases o with
        | none => exact hdone hrest ▸ hlinked
        | some nd₁ =>
          obtain ⟨hP, -⟩ := hplace nd₁ rfl
          dsimp only at hrest
          by_cases hrem : remainder s = []
          · rw [if_neg (not_not.mpr hrem), run_bind, run_isDir, Option.bind_some] at hrest
            split at hrest <;> exact hdone hrest ▸ hlinked
          · rw [if_pos hrem, run_bind, run_isDir, Option.bind_some] at hrest
            split at hrest
            case isTrue hdir =>
              exact hlinked.trans (ih hwalk.inv (by omega) (atName_remainder hrem)
                (hw.down hwalk.inv hP hdir) hrest)
            case isFalse => exact hdone hrest ▸ hlinked

theorem linked_makePath (h : Orderly st) (hD : DirAt st (start st t path))
    {r : Option ℕ × Nameidata} (hr : run (makePath t path dir mode) st = some (r, st')) :
    Linked t mode st st' := by
  rw [makePath, run_bind, run_startOf, Option.bind_some] at hr
  change run (if relative path = [] then _ else _) st = _ at hr
  split at hr
  case isTrue =>
    obtain ⟨-, rfl⟩ := Prod.mk.inj (Option.some.inj hr)
    exact .refl
  case isFalse hrel => exact linked_makeLoop h le_rfl (atName_dropWhile hrel) hD hr

end Steps

section Refused

variable {t d ip : ℕ} {mode : UInt16} {st st' st₁ st₂ : State} {nd : Nameidata} {k : Kind}
  {name path : List Char} {a : Linking} {c : Call}

/-- Since `st` a directory has got no entries but files that its driver has. -/
structure Refuses (d ip : ℕ) (st st' : State) : Prop where
  lt : d < st'.dentries.size
  inode_lt : ip < st'.inodes.size
  dInode : (st'.dentry d).dInode = some ip
  inode : st'.inode ip = st.inode ip
  thread : st'.thread = st.thread
  threadPool : st'.threadPool = st.threadPool
  parent : st'.parent d = st.parent d
  entries : ∀ e ∈ st'.entries d, e ∈ st.entries d ∨
    finds st (st.inode ip).iOp d (st'.dentry e).dIname = true

theorem Refuses.refl (h : Inv st) (hd : d < st.dentries.size)
    (hi : (st.dentry d).dInode = some ip) : Refuses d ip st st :=
  ⟨hd, h.inode_lt hd hi, hi, rfl, rfl, rfl, rfl, fun _ he => .inl he⟩

theorem finds_congr (hp : st'.threadPool = st.threadPool) (hd : st'.parent d = st.parent d)
    (driver : Driver) : finds st' driver d name = finds st driver d name := by
  unfold finds
  rw [hp, hd]

theorem Refuses.enters (h : Refuses d ip st st₁) (ho : Orderly st₁)
    (hlt : nd.dentry < st₁.dentries.size) (he : Enters t mode st₁ nd name k st₂)
    (hk : nd.dentry = d → k = .lost ∨ k = .cached) : Refuses d ip st st₂ := by
  obtain ⟨y, j, F, he⟩ := he
  have hns := he.namespace_eq
  have hg : Namespace.Grown st₁.toNamespace st₂.toNamespace := hns ▸ Namespace.grown_enter hlt
  have hinodes : st₂.inodes = st₁.inodes.grow.set st₁.inodes.size fun _ => j := by
    rw [he.state_eq]
  have hname : ∀ {e}, e ∈ st₁.entries d → (st₂.dentry e).dIname = (st₁.dentry e).dIname :=
    fun hm => hg.dIname ((ho.wf.chain_entries h.lt).2 _ hm).1
  refine ⟨h.lt.trans_le hg.size_le, ?_, ?_, ?_, ?_, ?_, ?_, fun e hm => ?_⟩
  · rw [hinodes]
    exact Nat.lt_succ_of_lt h.inode_lt
  · obtain ⟨x, y, hx⟩ := hg.old h.lt
    rw [hx]
    exact h.dInode
  · rw [State.inode, hinodes, Pool.obj_set_of_ne _ _ _ _ h.inode_lt.ne]
    exact h.inode
  · rw [he.state_eq]
    exact h.thread
  · rw [he.state_eq]
    exact h.threadPool
  · rw [hg.parent h.lt, h.parent]
  · rw [hns, Namespace.entries_enter ho.wf hlt he.leaf h.lt] at hm
    split at hm
    case isTrue hnew =>
      rcases List.mem_cons.mp hm with rfl | hm
      -- The new entry is one that the driver has.
      · obtain rfl : k = .cached := (hk hnew.2.symm).resolve_left hnew.1
        obtain ⟨m, ip', -, hip', hfound, -⟩ := he.inodes
        rw [← hnew.2, h.dInode] at hip'
        obtain rfl := Option.some.inj hip'
        obtain ⟨-, o, hdent⟩ := he.dentry_size hlt
        rw [← finds_eq_isSome, h.inode, ← hnew.2] at hfound
        refine .inr ?_
        rw [← finds_congr h.threadPool h.parent, hdent]
        exact he.dIname.symm ▸ hfound
      · exact (h.entries e hm).imp_right fun hf => (hname hm).symm ▸ hf
    case isFalse => exact (h.entries e hm).imp_right fun hf => (hname hm).symm ▸ hf

/-- A step of `make_path` puts no entry into a directory without permission. -/
theorem Refuses.does (h : Refuses d ip st st₁) (ho : Orderly st₁)
    (hdenied : checkAcl (st.thread t).uid (st.thread t).gid (st.inode ip) (R_OK ||| W_OK) = true)
    (hp : Permits t st₁ a) (hdoes : a.Does t mode st₁ st₂) :
    Orderly st₂ ∧ Refuses d ip st st₂ := by
  obtain ⟨m, -, hm, -⟩ := hp.place.mnt
  obtain ⟨k, he, hk⟩ : ∃ k, Enters t mode st₁ a.place a.name k st₂ ∧
      (a.place.dentry = d → k = .lost ∨ k = .cached) := by
    cases a with
    | asks nd name =>
      obtain ⟨r, hr⟩ := hdoes
      obtain ⟨i, hi⟩ := Option.ne_none_iff_exists'.mp hp.place.inode
      obtain ⟨st₃, hst₃⟩ := run_slowLookup_enters t mode name hp.place.lt hm hi
      split at hst₃
      · obtain ⟨hrun, he⟩ := hst₃
        obtain ⟨-, rfl⟩ := run_inj hr hrun
        exact ⟨_, he, fun _ => .inr rfl⟩
      · obtain ⟨hrun, he⟩ := hst₃
        obtain ⟨-, rfl⟩ := run_inj hr hrun
        exact ⟨_, he, fun _ => .inl rfl⟩
    | makes nd name file =>
      obtain ⟨r, hr⟩ := hdoes
      obtain ⟨k, st₃, hrun, he⟩ := run_makeEntry_enters st₁ t name file mode hm
      have hst₃ : st₃ = st₂ := by
        rcases hrun with ⟨-, hrun⟩ | ⟨-, hrun⟩
        all_goals exact ((run_inj hr hrun).2).symm
      subst hst₃
      refine ⟨k, he, fun hd => ?_⟩
      obtain ⟨i, hi, hgranted⟩ := hp.writable nd name file rfl
      have hd : nd.dentry = d := hd
      rw [hd, h.dInode] at hi
      obtain rfl := Option.some.inj hi
      rw [h.inode, h.thread, hdenied] at hgranted
      cases hgranted
  exact ⟨(he.orderly ho hp.place hp.absent hp.valid).1, h.enters ho hp.place.lt he hk⟩

theorem Refuses.linked (h : Refuses d ip st st₁) (ho : Orderly st₁)
    (hdenied : checkAcl (st.thread t).uid (st.thread t).gid (st.inode ip) (R_OK ||| W_OK) = true)
    (hl : Linked t mode st₁ st₂) : Orderly st₂ ∧ Refuses d ip st st₂ :=
  hl.invariant (I := fun st₂ => Orderly st₂ ∧ Refuses d ip st st₂) ⟨ho, h⟩
    fun hI hp hdoes => hI.2.does hI.1 hdenied hp hdoes

theorem Refuses.pathLookup (h : Refuses d ip st st₁) (ho : Orderly st₁)
    (hD : DirAt st₁ (start st₁ t path)) {r : Option ℕ × Nameidata}
    (hr : run (pathLookup t path false) st₁ = some (r, st₂)) :
    Orderly st₂ ∧ Refuses d ip st st₂ := by
  have hleads := (walkable_at t 0).run_pathLookup ho path false hD
  rw [hr] at hleads
  have hmade : ∀ {i : Making}, Fresh DirAt (partsOf path) st₁ i →
      (i.kind = .lost ∨ i.kind = .cached) → MakesAt t 0 st₁ i st₂ →
        Orderly st₂ ∧ Refuses d ip st st₂ := fun hf hk hm =>
    ⟨(Enters.orderly hm ho hf.place hf.absent hf.valid).1,
      h.enters ho hf.place.lt hm fun _ => hk⟩
  cases hf : resolvePath st₁ t path false with
  | hit nd =>
    rw [hf] at hleads
    obtain ⟨heq, -⟩ := hleads
    obtain ⟨-, rfl⟩ := Prod.mk.inj (Option.some.inj heq)
    exact ⟨ho, h⟩
  | made nd name =>
    rw [hf] at hleads
    obtain ⟨hfresh, st₃, heq, hm⟩ := hleads
    obtain ⟨-, rfl⟩ := Prod.mk.inj (Option.some.inj heq)
    exact hmade hfresh (.inr rfl) hm
  | absent =>
    rw [hf] at hleads
    obtain ⟨nd, st₃, heq, rfl | ⟨i, hfresh, hk, hm⟩⟩ := hleads
    · obtain ⟨-, rfl⟩ := Prod.mk.inj (Option.some.inj heq)
      exact ⟨ho, h⟩
    · obtain ⟨-, rfl⟩ := Prod.mk.inj (Option.some.inj heq)
      exact hmade hfresh hk hm
  | stuck =>
    rw [hf] at hleads
    cases hleads

theorem Refuses.still (h : Refuses d ip st st₁) (hs : Still st₁ st₂) :
    ∀ e ∈ st₂.entries d, e ∈ st.entries d ∨
      finds st (st.inode ip).iOp d (st₂.dentry e).dIname = true := by
  rw [hs.namespace_eq]
  exact h.entries

/-- `vfs_open` and `vfs_mkdir` put no entry into a directory without permission. -/
theorem refuses_body (h : Inv st) (ho : Orderly st) (ht : st.Running t)
    (hc : (∃ path flags, c = .open path flags) ∨ ∃ path mode, c = .mkdir path mode)
    {ret : Reply} (hr : run (c.body t) st = some (ret, st')) (hd : d < st.dentries.size)
    (hi : (st.dentry d).dInode = some ip)
    (hdenied : checkAcl (st.thread t).uid (st.thread t).gid (st.inode ip) (R_OK ||| W_OK) = true) :
    ∀ e ∈ st'.entries d, e ∈ st.entries d ∨
      finds st (st.inode ip).iOp d (st'.dentry e).dIname = true := by
  have hD : ∀ path, DirAt st (start st t path) := fun path => dirAt_start h ho.tidy ht
  have hrefl := Refuses.refl h hd hi
  rcases hc with ⟨path, flags, rfl⟩ | ⟨path, mode, rfl⟩
  · obtain ⟨z, hr⟩ := run_plain hr
    rw [vfsOpen, run_bind, run_semWait, Option.bind_some] at hr
    obtain ⟨⟨o, nd⟩, st₁, hmake, hr⟩ := run_bind_some hr
    have hlinked := hrefl.linked ho hdenied (linked_makePath ho (hD path) hmake)
    refine hlinked.2.still ((?_ : Calm _).still hr)
    cases o <;> infer_instance
  · obtain ⟨z, hr⟩ := run_plain hr
    rw [vfsMkdir, run_bind, run_semWait, Option.bind_some] at hr
    obtain ⟨⟨o, nd⟩, st₁, hlook, hr⟩ := run_bind_some hr
    obtain ⟨ho₁, hrefuses⟩ := hrefl.pathLookup ho (hD path) hlook
    cases o with
    | some e => exact hrefuses.still (calm_bind.still hr)
    | none =>
      obtain ⟨⟨o, nd⟩, st₂, hmake, hr⟩ := run_bind_some hr
      have hwalk := (walkable_at t 0).walked_leads ho
        (hlook ▸ (walkable_at t 0).run_pathLookup ho path false (hD path))
      have hstart : DirAt st₁ (start st₁ t path) := by
        rw [start_congr hwalk.thread]
        exact hwalk.keeps (hD path)
      have hlinked := hrefuses.linked ho₁ hdenied (linked_makePath ho₁ hstart hmake)
      refine hlinked.2.still ((?_ : Calm _).still hr)
      cases o <;> infer_instance

end Refused

section Callers

variable {t u : ℕ} {uid gid : UInt32} {st : State}

/-- For every caller, `make_path` only makes entries in directories that have passed `check_acl`
right before. Through `vfs_open` and `vfs_mkdir` a caller without permission adds nothing to a
directory, but for what its driver has anyway. -/
theorem entries_granted (h : Reachable st) (ht : st.Running t) (uid gid : UInt32) :
    (∀ path dir mode r st',
      run (makePath t path dir mode) (st.actAs t uid gid) = some (r, st') →
        Linked t mode (st.actAs t uid gid) st') ∧
    ∀ c ret st' d ip, ((∃ path flags, c = .open path flags) ∨ ∃ path mode, c = .mkdir path mode) →
      run (Call.body t c) (st.actAs t uid gid) = some (ret, st') → d < st.dentries.size →
        (st.dentry d).dInode = some ip →
          checkAcl uid gid (st.inode ip) (R_OK ||| W_OK) = true →
            ∀ e ∈ st'.entries d, e ∈ st.entries d ∨
              finds st (st.inode ip).iOp d (st'.dentry e).dIname = true := by
  obtain ⟨hinv, horderly⟩ := Reach.orderly h
  have hinv' : Inv (st.actAs t uid gid) := hinv.actAs
  have horderly' : Orderly (st.actAs t uid gid) := ⟨horderly.wf, horderly.tidy⟩
  refine ⟨fun path dir mode r st' hr => ?_, fun c ret st' d ip hc hr hd hi hdenied => ?_⟩
  · exact linked_makePath horderly' (dirAt_start hinv' horderly'.tidy ht) hr
  · have hdenied' : checkAcl ((st.actAs t uid gid).thread t).uid ((st.actAs t uid gid).thread t).gid
        ((st.actAs t uid gid).inode ip) (R_OK ||| W_OK) = true := by
      rw [thread_actAs]
      exact hdenied
    have hrefuses := refuses_body hinv' horderly' ht hc hr hd hi hdenied'
    exact hrefuses

/-- Another user than its owner makes no directory in `/`. -/
theorem entries_granted_withRamdisk : ∃ ret st',
    run (Call.body 1 (.mkdir "/b".toList 0x777)) (withRamdisk.actAs 1 1 1) = some (ret, st') ∧
      ∀ e ∈ st'.entries 0, e ∈ withRamdisk.entries 0 ∨
        finds withRamdisk .kvfs 0 (st'.dentry e).dIname = true := by
  have hsome : (run (Call.body 1 (.mkdir "/b".toList 0x777)) (withRamdisk.actAs 1 1 1)).isSome =
      true := by decide +kernel
  obtain ⟨⟨ret, st'⟩, hr⟩ := Option.isSome_iff_exists.mp hsome
  have hop : (withRamdisk.inode 0).iOp = .kvfs := by decide +kernel
  refine ⟨ret, st', hr, ?_⟩
  rw [← hop]
  exact (entries_granted reachable_withRamdisk running_withRamdisk 1 1).2 _ ret st' 0 0
    (.inr ⟨_, _, rfl⟩) hr (by decide +kernel) (by decide +kernel) (by decide +kernel)

end Callers

end NSOS.Vfs
