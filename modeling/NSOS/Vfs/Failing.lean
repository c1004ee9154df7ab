import NSOS.Vfs.Opening
import NSOS.Vfs.Reference

/-! # Failed calls

What `vfs_open` and `vfs_mkdir` leave behind when they fail. Descriptors stay
what they were. Directories that were made for the first components of the
path stay, and so does a new file for which there is no descriptor.
-/

namespace NSOS.Vfs

open Basis Prog

section Leaves

/-- The descriptors, the mounts, the inodes and the trees are as before, but for new entries in
front of the old ones. `L st d c` says which entries `c` of `d` may be new. -/
structure Leaves (L : State → ℕ → ℕ → Prop) (st st' : State) : Prop where
  thread : st'.thread = st.thread
  grown : Namespace.Grown st.toNamespace st'.toNamespace
  inode : ∀ i < st.inodes.size, st'.inode i = st.inode i
  entries : ∀ {d}, d < st'.dentries.size → ∃ new,
    st'.entries d = new ++ (if d < st.dentries.size then st.entries d else []) ∧
      ∀ c ∈ new, st.dentries.size ≤ c ∧ L st' d c

def Cached (st : State) (d c : ℕ) : Prop := (st.dentry c).dIsdir = false ∧
  Reference.supplies st ⟨d, none⟩ (st.dentry c).dIname = true

def OnWay (path : List Char) (st : State) (c : ℕ) : Prop := (st.dentry c).dIsdir = true ∧
  (st.dentry c).dIname ∈ (components path).dropLast

variable {L : State → ℕ → ℕ → Prop} {st st₁ st₂ : State} {t d c : ℕ} {mode : UInt16}
  {nd : Nameidata} {name path : List Char} {k : Kind}

theorem Leaves.refl : Leaves L st st := by
  refine ⟨rfl, .refl, fun _ _ => rfl, fun {d} hd => ⟨[], ?_, by simp⟩⟩
  rw [if_pos hd, List.nil_append]

theorem Leaves.enters (h : Leaves L st st₁) (hwf : st₁.toNamespace.Wf)
    (hle : st.inodes.size ≤ st₁.inodes.size) (hlt : nd.dentry < st₁.dentries.size)
    (he : Enters t mode st₁ nd name k st₂)
    (hkeep : ∀ {d c}, d < st₁.dentries.size → c ∈ st₁.entries d → L st₁ d c → L st₂ d c)
    (hnew : k ≠ .lost → L st₂ nd.dentry st₁.dentries.size) : Leaves L st st₂ := by
  have hthread := he.thread
  obtain ⟨y, j, F, he⟩ := he
  have hns := he.namespace_eq
  have hg : Namespace.Grown st₁.toNamespace st₂.toNamespace := hns ▸ Namespace.grown_enter hlt
  have hsize := h.grown.size_le
  refine ⟨hthread.trans h.thread, h.grown.trans hg, fun i hi => ?_, fun {d} hd => ?_⟩
  · rw [← h.inode i hi, he.state_eq, State.inode, Pool.obj_set_of_ne _ _ _ _ (by omega)]
    rfl
  · rw [hns, Namespace.size_enter] at hd
    by_cases hold : d < st₁.dentries.size
    · obtain ⟨new, hentries, hmem⟩ := h.entries hold
      have hkept : ∀ c ∈ new, st.dentries.size ≤ c ∧ L st₂ d c := fun c hc =>
        ⟨(hmem c hc).1, hkeep hold (hentries ▸ List.mem_append_left _ hc) (hmem c hc).2⟩
      rw [hns, Namespace.entries_enter hwf hlt he.leaf hold]
      by_cases hk : k ≠ .lost ∧ d = nd.dentry
      · rw [if_pos hk, hentries]
        refine ⟨st₁.dentries.size :: new, rfl, fun c hc => ?_⟩
        rcases List.mem_cons.mp hc with rfl | hc
        · exact ⟨hsize, hk.2 ▸ hnew hk.1⟩
        · exact hkept c hc
      · rw [if_neg hk]
        exact ⟨new, hentries, hkept⟩
    · obtain rfl : d = st₁.dentries.size := by omega
      refine ⟨[], ?_, by simp⟩
      rw [hns, Namespace.entries_enter_size hwf hlt he.leaf, if_neg (by omega), List.nil_append]

theorem Enters.supplies (he : Enters t mode st nd name k st₁) (h : Inv st)
    (hlt : nd.dentry < st.dentries.size) (hd : d < st.dentries.size) (s : List Char) :
    Reference.supplies st₁ ⟨d, none⟩ s = Reference.supplies st ⟨d, none⟩ s := by
  obtain ⟨y, j, F, he⟩ := he
  have hev := he.evolves h hlt
  obtain ⟨a, b, hab⟩ := hev.grown.old hd
  rw [Reference.supplies, hab, Reference.supplies]
  dsimp only
  cases hi : (st.dentry d).dInode with
  | none => rfl
  | some i =>
    dsimp only
    rw [hev.rest.iOp (h.inode_lt hd hi)]
    simp only [driverEntry, hev.grown.parent hd, hev.rest.threadPool]

/-- What a walk makes on its way. -/
def Left (path : List Char) (st : State) (d c : ℕ) : Prop := Cached st d c ∨ OnWay path st c

theorem Enters.left (he : Enters t mode st nd name k st₁) (h : Inv st)
    (hlt : nd.dentry < st.dentries.size) (hd : d < st.dentries.size) (hc : c ∈ st.entries d)
    (hl : Left path st d c) : Left path st₁ d c := by
  have hsup := he.supplies h hlt hd
  obtain ⟨y, j, F, he⟩ := he
  have hev := he.evolves h hlt
  obtain ⟨hlt', -⟩ := (h.wf.chain_entries hd).2 c hc
  refine hl.imp (fun hl => ?_) fun hl => ?_
  · rw [Cached, hev.grown.dIsdir hlt', hev.grown.dIname hlt', hsup]
    exact hl
  · rw [OnWay, hev.grown.dIsdir hlt', hev.grown.dIname hlt']
    exact hl

theorem Enters.dIname (he : Enters t mode st nd name k st₁) (hlt : nd.dentry < st.dentries.size) :
    (st₁.dentry st.dentries.size).dIname = name := by
  obtain ⟨y, j, F, he⟩ := he
  obtain ⟨-, o, ho⟩ := he.dentry_size hlt
  rw [ho]
  exact he.dIname

theorem Enters.cached (he : Enters t mode st nd name .cached st₁) (h : Inv st)
    (hlt : nd.dentry < st.dentries.size) : Cached st₁ nd.dentry st.dentries.size := by
  refine ⟨(he.dIsdir hlt (by simp)).trans rfl, ?_⟩
  rw [he.dIname hlt, he.supplies h hlt hlt]
  obtain ⟨y, j, F, he⟩ := he
  obtain ⟨m, ip, -, hi, hsome, -⟩ := he.inodes
  rw [Reference.supplies, hi]
  exact hsome

theorem Part.eq_of_of {s : List Char} (h : Part.of s = .name name) : s = name := by
  rw [Part.of] at h
  split at h
  · cases h
  · split at h
    · cases h
    · cases h
      rfl

theorem mem_components_of_mem_parts (h : .name name ∈ (partsOf path).dropLast) :
    name ∈ (components path).dropLast := by
  rw [partsOf_eq, ← List.map_dropLast] at h
  obtain ⟨s, hs, he⟩ := List.mem_map.mp h
  exact Part.eq_of_of he ▸ hs

theorem getLast_components (h : (partsOf path).getLast? = some (.name name)) :
    (components path).getLast? = some name := by
  rw [partsOf_eq, List.getLast?_map] at h
  obtain ⟨s, hs, he⟩ := Option.map_eq_some_iff.mp h
  exact Part.eq_of_of he ▸ hs

/-- A walk leaves entries of drivers, and directories for components that others follow. -/
theorem leaves_of_run (hi : Inv st) (h : Orderly st)
    (hr : Run (MakesAt t mode) (Passing DirAt (partsOf path)) st st₁) :
    Evolves st st₁ ∧ Orderly st₁ ∧ Leaves (Left path) st st₁ ∧ st₁.kvfsFiles = st.kvfsFiles := by
  refine hr.invariant (I := fun st₁ => Evolves st st₁ ∧ Orderly st₁ ∧
    Leaves (Left path) st st₁ ∧ st₁.kvfsFiles = st.kvfsFiles) ⟨.refl hi, h, .refl, rfl⟩ ?_
  rintro st₂ i st₃ ⟨hev, h₂, hleaves, hfiles⟩ ⟨hf, hk⟩ hm
  have hlt := hf.place.lt
  have he : Enters t mode st₂ i.nd i.name i.kind st₃ := hm
  refine ⟨?_, ?_, ?_, ?_⟩
  · obtain ⟨y, j, F, he⟩ := hm
    exact hev.trans (he.evolves hev.inv hlt)
  · exact (he.orderly h₂ hf.place hf.absent hf.valid).1
  · refine hleaves.enters h₂.wf hev.rest.inodes_le hlt he
      (fun hd hc hl => he.left hev.inv hlt hd hc hl) fun hlost => ?_
    cases hkind : i.kind with
    | lost => exact absurd hkind hlost
    | cached =>
      rw [hkind] at he
      exact .inl (he.cached hev.inv hlt)
    | directory =>
      rw [hkind] at hk he
      refine .inr ⟨(he.dIsdir hlt (by simp)).trans rfl, ?_⟩
      rw [he.dIname hlt]
      exact mem_components_of_mem_parts hk
    | file j =>
      rw [hkind] at hk
      cases hk
  · obtain ⟨y, j, F, he⟩ := hm
    rw [he.state_eq, ← hfiles]
    cases hkind : i.kind with
    | file j =>
      rw [hkind] at hk
      cases hk
    | lost => rfl
    | cached => rfl
    | directory => rfl

end Leaves

section Calls

variable {st st' : State} {t : ℕ} {path : List Char} {flags : UInt32} {mode : UInt16}

theorem run_vfsMkdir_failed (hi : Inv st) (h : Orderly st) (ht : st.Running t)
    (hr : run (vfsMkdir t path mode) st = some (-1, st')) :
    Run (MakesAt t mode) (Passing DirAt (partsOf path)) st st' := by
  have hD : DirAt st (start st t path) := dirAt_start hi h.tidy ht
  rw [vfsMkdir, run_bind, run_semWait, Option.bind_some] at hr
  obtain ⟨⟨o, nd⟩, st₁, hlook, hr₁⟩ := run_bind_some hr
  have hleads := (walkable_at t mode).run_pathLookup h path false hD
  rw [hlook] at hleads
  have hwalk := (walkable_at t mode).walked_leads h hleads
  have hrun : ∀ {st₂}, Walked t mode Orderly DirAt (partsOf path) false none st₁ st₂ →
      Run (MakesAt t mode) (Passing DirAt (partsOf path)) st st₂ := fun hwalk₂ => by
    obtain ⟨st₃, hr, rfl | ⟨ho, -⟩⟩ := (hwalk.trans hwalk₂).steps
    · exact hr
    · cases ho
  cases o with
  | some d =>
    obtain ⟨-, rfl⟩ := Prod.mk.inj (Option.some.inj hr₁)
    exact hrun (.refl hwalk.inv)
  | none =>
    obtain ⟨⟨o, nd'⟩, st₂, hmake, hr₂⟩ := run_bind_some hr₁
    have hD₁ : DirAt st₁ (start st₁ t path) := by
      rw [start_congr hwalk.thread]
      exact hwalk.keeps hD
    obtain ⟨hwalk', -⟩ := (walkable_at t mode).walked_makePath hwalk.inv hD₁ hmake
    cases o with
    | none =>
      obtain ⟨-, rfl⟩ := Prod.mk.inj (Option.some.inj hr₂)
      exact hrun (hwalk'.of_none _ _)
    | some d =>
      obtain ⟨hret, -⟩ := Prod.mk.inj (Option.some.inj hr₂)
      cases hret

theorem run_vfsOpen_failed (hi : Inv st) (h : Orderly st) (ht : st.Running t)
    (hr : run (vfsOpen t path flags) st = some (-1, st')) :
    ∃ st₁ st₂, Run (MakesAt t ACL_DEFAULT) (Passing DirAt (partsOf path)) st st₁ ∧
      (st₂ = st₁ ∨ Full st t ∧ ∃ i, Fresh DirAt (partsOf path) st₁ i ∧
        (partsOf path).getLast? = some (.name i.name) ∧ i.kind.MadeAs true ∧
          MakesAt t ACL_DEFAULT st₁ i st₂) ∧
      st' = { st₂ with files := st'.files } := by
  have hD : DirAt st (start st t path) := dirAt_start hi h.tidy ht
  obtain ⟨o, nd, st₂, hmake⟩ := vfsOpen_makes hr
  obtain ⟨hwalk, -⟩ := (walkable_at t _).walked_makePath h hD hmake
  obtain ⟨st₁, hrun, hst₂⟩ := hwalk.steps
  rcases run_vfsOpen hmake hr with ⟨rfl, -, rfl⟩ | ⟨d, ip, rfl, -, hopen⟩
  · rcases hst₂ with rfl | ⟨ho, -⟩
    · exact ⟨_, _, hrun, .inl rfl, rfl⟩
    · cases ho
  · rcases hopen with ⟨hfull, -, rfl⟩ | ⟨i, -, -, hret, -⟩
    · refine ⟨st₁, st₂, hrun, hst₂.imp_right fun h => ⟨?_, h.2⟩, rfl⟩
      rw [Full, ← hwalk.thread]
      exact hfull
    · omega

theorem Leaves.mono {L M : State → ℕ → ℕ → Prop} (h : Leaves L st st') {files : Pool File}
    (hL : ∀ {d c}, L st' d c → M { st' with files := files } d c) :
    Leaves M st { st' with files := files } := by
  refine ⟨h.thread, h.grown, h.inode, fun {d} hd => ?_⟩
  obtain ⟨new, hentries, hmem⟩ := h.entries hd
  exact ⟨new, hentries, fun c hc => ⟨(hmem c hc).1, hL (hmem c hc).2⟩⟩

/-- A failed call changes no descriptor, and no entry that was there. What is new are entries that
drivers supply, and directories for components of the path that others follow. When there is no
free descriptor, `vfs_open` may also leave the new file, in a slot of the table that was free. -/
theorem failed_call_leaves (h : Reachable st) (ht : st.Running t) (path : List Char) :
    (∀ mode st', run (vfsMkdir t path mode) st = some (-1, st') →
      Leaves (Left path) st st' ∧ st'.kvfsFiles = st.kvfsFiles) ∧
    ∀ flags st', run (vfsOpen t path flags) st = some (-1, st') →
      (Leaves (Left path) st st' ∧ st'.kvfsFiles = st.kvfsFiles) ∨
      Full st t ∧ ∃ f, ∃ i < KVFS_MAX_FILE, (st.kvfsFiles i).inuse = false ∧
        st'.kvfsFiles = Function.update st.kvfsFiles i ⟨true, .null, .null⟩ ∧
        Leaves (fun st d c => Left path st d c ∨ c = f) st st' ∧
        (components path).getLast? = some (st'.dentry f).dIname ∧
          (st'.dentry f).dIsdir = false := by
  obtain ⟨hinv, horder⟩ := Reach.orderly h
  refine ⟨fun mode st' hr => ?_, fun flags st' hr => ?_⟩
  · exact (leaves_of_run hinv horder (run_vfsMkdir_failed hinv horder ht hr)).2.2
  · obtain ⟨st₁, st₂, hrun, hst₂, hst'⟩ := run_vfsOpen_failed hinv horder ht hr
    obtain ⟨hev, h₁, hleaves, hfiles⟩ := leaves_of_run hinv horder hrun
    rw [hst']
    rcases hst₂ with rfl | ⟨hfull, i, hf, hlast, hk, hm⟩
    · exact .inl ⟨hleaves.mono id, hfiles⟩
    · have he : Enters t ACL_DEFAULT st₁ i.nd i.name i.kind st₂ := hm
      have hlt := hf.place.lt
      cases hkind : i.kind with
      | file j =>
        rw [hkind] at he
        have hname := he.dIname hlt
        have hdir := (he.dIsdir hlt (by simp)).trans rfl
        have hnew : Leaves (fun st d c => Left path st d c ∨ c = st₁.dentries.size) st st₂ :=
          (hleaves.mono Or.inl).enters h₁.wf hev.rest.inodes_le hlt he
            (fun hd hc hl => hl.imp_left (he.left hev.inv hlt hd hc)) fun _ => .inr rfl
        obtain ⟨y, x, F, he⟩ := he
        obtain ⟨hj, hfree, -⟩ := he.inodes
        refine .inr ⟨hfull, st₁.dentries.size, j, hj, hfiles ▸ hfree, ?_, hnew.mono id, ?_, hdir⟩
        · rw [← hfiles, he.state_eq]
          rfl
        · exact (getLast_components hlast).trans (congrArg some hname.symm)
      | lost =>
        rw [hkind] at hk
        cases hk
      | cached =>
        rw [hkind] at hk
        cases hk
      | directory =>
        rw [hkind] at hk
        cases hk

/-- Making `/x/y` fails on the permissions of `/x`, which has just been made. -/
theorem failed_call_leaves_withRamdisk : ∃ st',
    run (vfsMkdir 1 "/x/y".toList 0) withRamdisk = some (-1, st') ∧
      Leaves (Left "/x/y".toList) withRamdisk st' ∧ st'.kvfsFiles = withRamdisk.kvfsFiles := by
  have hrun : (run (vfsMkdir 1 "/x/y".toList 0) withRamdisk).any (fun r => r.1 = -1) = true := by
    decide +kernel
  obtain ⟨⟨ret, st'⟩, hr, hret⟩ := (Option.any_eq_true _ _).mp hrun
  obtain rfl : ret = -1 := of_decide_eq_true hret
  exact ⟨st', hr, (failed_call_leaves reachable_withRamdisk running_withRamdisk _).1 0 st' hr⟩

/-- Nothing but entries of drivers is left behind. -/
def Unspoilt (st st' : State) : Prop := Leaves Cached st st' ∧ st'.kvfsFiles = st.kvfsFiles

theorem not_unspoilt {d c : ℕ} (hd : d < st.dentries.size) (hle : d < st'.dentries.size)
    (hc : c ∈ st'.entries d) (hnew : c ∉ st.entries d) (hdir : (st'.dentry c).dIsdir = true) :
    ¬ Unspoilt st st' := by
  rintro ⟨h, -⟩
  obtain ⟨new, hentries, hmem⟩ := h.entries hle
  rw [if_pos hd] at hentries
  rw [hentries, List.mem_append] at hc
  obtain ⟨-, hfile, -⟩ := hmem c (hc.resolve_right hnew)
  rw [hdir] at hfile
  cases hfile

/-- A thread that opens `/f` until all its descriptors are in use. -/
def fillUp : List Op := List.replicate 253 (.call 1 (.open "/f".toList O_RDWR))

theorem isSome_opened : ∃ h : (replay exec initial
    [.call 1 (.open "/f".toList O_RDWR)]).isSome = true, (Option.get _ h).Running 1 ∧
      ∀ i < MAX_FILE_PER_THREAD,
        ((Option.get _ h).thread 1).fileDescriptors i = .null ↔ 4 ≤ i := by decide +kernel

def opened : State := Option.get _ isSome_opened.1

def reopened : ℕ → State
  | 0 => opened
  | n + 1 => ((reopened n).withOpen ⟨2, 2, 0, O_RDWR, some .kvfs⟩).withFd 1 (4 + n)
      (.file (reopened n).files.size)

def State.withFiles (st : State) (F : Pool File) (D : ℕ → Fd) : State := { st with
  files := F
  thread := Function.update st.thread 1 { st.thread 1 with fileDescriptors := D } }

theorem reopened_eq (n : ℕ) : ∃ F, reopened n =
    opened.withFiles F ((reopened n).thread 1).fileDescriptors := by
  induction n with
  | zero =>
    refine ⟨opened.files, ?_⟩
    simp only [reopened, State.withFiles, Function.update_eq_self]
  | succ n ih =>
    obtain ⟨F, hF⟩ := ih
    refine ⟨F.grow.set F.size fun _ => ⟨2, 2, 0, O_RDWR, some .kvfs⟩, ?_⟩
    rw [reopened, hF]
    simp only [State.withFd, State.withOpen, State.withFiles, Function.update_self,
      Function.update_idem]

theorem running_reopened (n : ℕ) : (reopened n).Running 1 := by
  obtain ⟨F, hF⟩ := reopened_eq n
  rw [hF]
  exact isSome_opened.2.1

theorem null_reopened (n : ℕ) {i : ℕ} (hi : i < MAX_FILE_PER_THREAD) :
    ((reopened n).thread 1).fileDescriptors i = .null ↔ 4 + n ≤ i := by
  induction n with
  | zero => exact isSome_opened.2.2 i hi
  | succ n ih =>
    have hfds : ((reopened (n + 1)).thread 1).fileDescriptors =
        Function.update ((reopened n).thread 1).fileDescriptors (4 + n)
          (.file (reopened n).files.size) := by
      simp only [reopened, State.withFd, State.withOpen, Function.update_self]
    rw [hfds, Function.update_apply]
    split
    case isTrue heq => exact ⟨Fd.noConfusion, fun hle => by omega⟩
    case isFalse hne =>
      rw [ih]
      omega

theorem exec_reopened {n : ℕ} (hn : 4 + n < MAX_FILE_PER_THREAD) :
    exec (reopened n) (.call 1 (.open "/f".toList O_RDWR)) = some (reopened (n + 1)) := by
  obtain ⟨F, hF⟩ := reopened_eq n
  have hmake : run (makePath 1 "/f".toList false ACL_DEFAULT) (reopened n) =
      some ((some 2, ⟨2, some 0⟩), reopened n) := by
    rw [hF]
    rfl
  have hip : ((reopened n).dentry 2).dInode = some 2 := by
    rw [hF]
    rfl
  have hfop : ((reopened n).inode 2).iFop = some .kvfs := by
    rw [hF]
    rfl
  obtain ⟨ret, st', hrun, hopens, hleast⟩ := run_vfsOpen_some O_RDWR hmake hip
  rw [hfop] at hopens
  rcases hopens with ⟨hfull, -, -⟩ | ⟨i, hi, hfree, rfl, rfl⟩
  · exact absurd ((null_reopened n hn).mpr le_rfl) (hfull _ hn)
  · -- The first entry that is free.
    have hle := (null_reopened n hi).mp hfree
    have hge : ¬ 4 + n < i := fun hlt =>
      hleast (4 + n) (Int.ofNat_lt.mpr hlt) ((null_reopened n hn).mpr le_rfl)
    obtain rfl : i = 4 + n := by omega
    exact exec_call (running_reopened n) rfl hrun

theorem replay_reopened {n k : ℕ} (h : 4 + (n + k) ≤ MAX_FILE_PER_THREAD) :
    replay exec (reopened n) (List.replicate k (.call 1 (.open "/f".toList O_RDWR))) =
      some (reopened (n + k)) := by
  induction k generalizing n with
  | zero => rfl
  | succ k ih =>
    rw [List.replicate_succ, replay, exec_reopened (by omega), Option.bind_some,
      ih (by omega), show n + 1 + k = n + (k + 1) by omega]

theorem fillUp_spoils : (replay exec initial fillUp).any (fun st => st.Running 1 ∧
    (run (vfsOpen 1 "/g".toList O_RDWR) st).any (fun r => r.1 = -1 ∧
      (r.2.kvfsFiles 1).inuse ≠ (st.kvfsFiles 1).inuse) = true) = true := by
  obtain ⟨hsome, -⟩ := isSome_opened
  have hfirst : exec initial (.call 1 (.open "/f".toList O_RDWR)) = some (reopened 0) :=
    (Option.bind_fun_some _).symm.trans (Option.some_get hsome).symm
  have hfill : replay exec initial fillUp = some (reopened 252) := by
    rw [fillUp, List.replicate_succ, replay, hfirst, Option.bind_some,
      replay_reopened (n := 0) (k := 252) le_rfl]
  -- `/g` takes the second slot of the table.
  have hmade : (run (makePath 1 "/g".toList false ACL_DEFAULT) (reopened 252)).any (fun r =>
      r.1.1 = some 4 ∧ (r.2.dentry 4).dInode = some 4 ∧
        (r.2.kvfsFiles 1).inuse ≠ ((reopened 252).kvfsFiles 1).inuse) = true := by decide +kernel
  obtain ⟨⟨⟨o, nd⟩, st₁⟩, hmake, hspec⟩ := (Option.any_eq_true _ _).mp hmade
  obtain ⟨rfl, hip, hne⟩ := of_decide_eq_true hspec
  have ht := running_reopened 252
  obtain ⟨hinv, horder⟩ := Reach.orderly (reachable_of_replay hfill)
  obtain ⟨hwalk, -⟩ := (walkable_at 1 ACL_DEFAULT).walked_makePath horder
    (dirAt_start hinv horder.tidy ht) hmake
  obtain ⟨ret, st', hrun, hopens, -⟩ := run_vfsOpen_some O_RDWR hmake hip
  rw [hfill, Option.any_some, hrun, Option.any_some]
  rcases hopens with ⟨-, rfl, rfl⟩ | ⟨i, hi, hnull, -, -⟩
  · exact decide_eq_true ⟨ht, decide_eq_true ⟨rfl, hne⟩⟩
  · rw [hwalk.thread] at hnull
    have hle := (null_reopened 252 hi).mp hnull
    exact absurd (hle.trans_lt hi) (by decide)

/-- Opening `/x/f/` fails on the slash and leaves the directory `/x`. Making `/x/y` without
permissions for `/x` leaves `/x`. Opening `/g` without a free descriptor leaves the file `/g`. -/
theorem failed_calls_spoil :
    (∃ st', run (vfsOpen 1 "/x/f/".toList O_RDWR) initial = some (-1, st') ∧
      ¬ Unspoilt initial st') ∧
    (∃ st', run (vfsMkdir 1 "/x/y".toList 0) initial = some (-1, st') ∧
      ¬ Unspoilt initial st') ∧
    ∃ st st', Reachable st ∧ st.Running 1 ∧
      run (vfsOpen 1 "/g".toList O_RDWR) st = some (-1, st') ∧ ¬ Unspoilt st st' := by
  refine ⟨?_, ?_, ?_⟩
  · have hrun : (run (vfsOpen 1 "/x/f/".toList O_RDWR) initial).any (fun r => r.1 = -1 ∧
        0 < r.2.dentries.size ∧ 2 ∈ r.2.entries 0 ∧ (r.2.dentry 2).dIsdir = true) = true := by
      decide +kernel
    obtain ⟨⟨ret, st'⟩, hr, hleft⟩ := (Option.any_eq_true _ _).mp hrun
    obtain ⟨rfl, hlt, hmem, hdir⟩ := of_decide_eq_true hleft
    exact ⟨st', hr, not_unspoilt (by decide +kernel) hlt hmem (by decide +kernel) hdir⟩
  · have hrun : (run (vfsMkdir 1 "/x/y".toList 0) initial).any (fun r => r.1 = -1 ∧
        0 < r.2.dentries.size ∧ 3 ∈ r.2.entries 0 ∧ (r.2.dentry 3).dIsdir = true) = true := by
      decide +kernel
    obtain ⟨⟨ret, st'⟩, hr, hleft⟩ := (Option.any_eq_true _ _).mp hrun
    obtain ⟨rfl, hlt, hmem, hdir⟩ := of_decide_eq_true hleft
    exact ⟨st', hr, not_unspoilt (by decide +kernel) hlt hmem (by decide +kernel) hdir⟩
  · obtain ⟨st, hreplay, hst⟩ := (Option.any_eq_true _ _).mp fillUp_spoils
    obtain ⟨ht, hopen⟩ := of_decide_eq_true hst
    obtain ⟨⟨ret, st'⟩, hr, hslot⟩ := (Option.any_eq_true _ _).mp hopen
    obtain ⟨rfl, hne⟩ := of_decide_eq_true hslot
    refine ⟨st, st', reachable_of_replay hreplay, ht, hr, fun h => hne ?_⟩
    rw [h.2]

end Calls

end NSOS.Vfs
