import NSOS.Vfs.Pids
import NSOS.Vfs.Revalidate
import NSOS.Vfs.Storage
import NSOS.Vfs.Upward

/-! # Stale entries

The entries that `procfs` has in memory are never looked up again, so that a
thread that has been looked up still has its file when it is gone. As long as
no such thread is torn down, the files are those of the threads that exist.
-/

namespace NSOS.Vfs

open Basis Prog

section Current

variable {st st' : State} {t d c n : ℕ} {mode : UInt16} {op : Op} {nd : Nameidata}
  {name : List Char} {k : Kind} {y : Dentry} {j : Inode} {F : List Obj}

/-- A directory of `procfs`. -/
def State.ProcDir (st : State) (d : ℕ) : Prop :=
  ∃ ip ∈ (st.dentry d).dInode, (st.inode ip).iOp = .procfs

instance : Decidable (st.ProcDir d) :=
  decidable_of_iff (∃ ip ∈ (st.dentry d).dInode, (st.inode ip).iOp = .procfs) Iff.rfl

/-- The entries that `procfs` has in memory are files that exist. -/
def Current (st : State) : Prop := ∀ d c, d < st.dentries.size → st.ProcDir d →
  c ∈ st.entries d → (procEntry st.threadPool (st.dentry c).dIname).isSome = true

/-- No thread is torn down while `procfs` has its file in memory. -/
def Lasting (st : State) : Op → Prop
  | .teardown _ u => ∀ d < st.dentries.size, st.ProcDir d → ∀ c ∈ st.entries d,
    (procEntry st.threadPool (st.dentry c).dIname).map Prod.fst ≠ some (u : ℤ)
  | op => Proper st op

theorem Lasting.proper (h : Lasting st op) : Proper st op := by
  cases op with
  | teardown => exact trivial
  | _ => exact h

theorem State.ProcDir.before (h : st'.ProcDir d) (hinv : Inv st) (hd : d < st.dentries.size)
    (hdentry : (st'.dentry d).dInode = (st.dentry d).dInode)
    (hiop : ∀ {i}, i < st.inodes.size → (st'.inode i).iOp = (st.inode i).iOp) : st.ProcDir d := by
  obtain ⟨ip, hip, hop⟩ := h
  rw [hdentry] at hip
  refine ⟨ip, hip, ?_⟩
  rw [← hiop (hinv.inode_lt hd hip), hop]

theorem Current.of_entries (h : Current st) (hinv : Inv st)
    (hnew : ∀ {d}, d < st'.dentries.size → ¬ d < st.dentries.size → st'.entries d = [])
    (hentries : ∀ {d}, d < st.dentries.size → st'.entries d = st.entries d)
    (hname : ∀ {c}, c < st.dentries.size → (st'.dentry c).dIname = (st.dentry c).dIname)
    (hinode : ∀ {d}, d < st.dentries.size → (st'.dentry d).dInode = (st.dentry d).dInode)
    (hiop : ∀ {i}, i < st.inodes.size → (st'.inode i).iOp = (st.inode i).iOp)
    (hpool : ∀ {d c x}, d < st.dentries.size → st.ProcDir d → c ∈ st.entries d →
      procEntry st.threadPool (st.dentry c).dIname = some x →
        procEntry st'.threadPool (st.dentry c).dIname = some x) : Current st' := by
  intro d c hd hproc hc
  by_cases hlt : d < st.dentries.size
  · rw [hentries hlt] at hc
    have hproc₀ := hproc.before hinv hlt (hinode hlt) hiop
    obtain ⟨x, hx⟩ := Option.isSome_iff_exists.mp (h d c hlt hproc₀ hc)
    rw [hname ((hinv.wf.chain_entries hlt).2 c hc).1, hpool hlt hproc₀ hc hx]
    rfl
  · rw [hnew hd hlt] at hc
    cases hc

theorem Current.of_pool (h : Current st) (hinv : Inv st)
    (hns : st'.toNamespace = st.toNamespace)
    (hiop : ∀ {i}, i < st.inodes.size → (st'.inode i).iOp = (st.inode i).iOp)
    (hpool : ∀ {d c x}, d < st.dentries.size → st.ProcDir d → c ∈ st.entries d →
      procEntry st.threadPool (st.dentry c).dIname = some x →
        procEntry st'.threadPool (st.dentry c).dIname = some x) : Current st' := by
  apply h.of_entries hinv
  case hnew =>
    intro d hd hlt
    rw [hns] at hd
    exact absurd hd hlt
  case hentries => intro d _; rw [hns]
  case hname => intro c _; rw [hns]
  case hinode => intro d _; rw [hns]
  case hiop => exact hiop
  case hpool => exact hpool

theorem Namespace.Grown.dInode {ns ns' : Namespace} (h : Namespace.Grown ns ns')
    (hd : d < ns.dentries.size) : (ns'.dentry d).dInode = (ns.dentry d).dInode := by
  obtain ⟨c, s, hc⟩ := h.old hd
  rw [hc]

/-- In a directory of `procfs` only its driver makes entries, and only for files that exist. -/
theorem Entered.shown (he : Entered t mode st st' nd name k y j F) (hs : Sound st)
    (hD : DirAt st nd) (hproc : st.ProcDir nd.dentry) (hk : k ≠ .lost) :
    (procEntry st.threadPool name).isSome = true := by
  obtain ⟨ip, hip, hop⟩ := hproc
  obtain ⟨m, hm, hnd, htree⟩ := hD.mnt
  have hsop : (st.inode ip).iOp = (st.fsType (st.mount m).mntFs).sop :=
    hs.housed.owner hD.lt hm htree hip
  have hmade : j.iOp ≠ .kvfs := by
    have hdinode : y.dInode ≠ none := by
      rcases he.dInode with hsome | ⟨hlost, -⟩
      · rw [hsome]
        exact Option.some_ne_none _
      · exact absurd hlost hk
    obtain ⟨m', hm', howner⟩ := he.owner hdinode
    obtain rfl : m = m' := Option.some.inj (hnd.symm.trans hm')
    rw [hs.housed.ops hm, or_self, ← hsop, hop] at howner
    rw [howner]
    decide
  cases k with
  | lost => exact absurd rfl hk
  | directory => exact absurd he.inodes.2.2.2.1 hmade
  | file i =>
    obtain ⟨-, -, hj⟩ := he.inodes
    exact absurd (congrArg Inode.iOp hj) hmade
  | cached =>
    obtain ⟨m', ip', -, hip', hsome, -⟩ := he.inodes
    obtain rfl : ip = ip' := Option.some.inj (hip.symm.trans hip')
    rw [hop, driverEntry] at hsome
    split at hsome
    · exact hsome
    · cases hsome

/-- A new entry of a directory of `procfs` is a file that exists. -/
theorem Entered.current (he : Entered t mode st st' nd name k y j F) (hs : Sound st)
    (hD : DirAt st nd) (h : Current st) : Current st' := by
  have hpool : st'.threadPool = st.threadPool := by rw [he.state_eq]
  have hsize : st'.dentries.size = st.dentries.size + 1 := by
    rw [he.namespace_eq, Namespace.size_enter]
  have hgrown : Namespace.Grown st.toNamespace st'.toNamespace :=
    he.namespace_eq ▸ Namespace.grown_enter hD.lt
  have hwf := hs.inv.wf
  intro d c hd hproc hc
  rw [hpool]
  by_cases hlt : d < st.dentries.size
  · have hproc₀ : st.ProcDir d := hproc.before hs.inv hlt (hgrown.dInode hlt) fun hi => by
      rw [he.inode_of_lt hi]
    rw [he.namespace_eq, Namespace.entries_enter hwf hD.lt he.leaf hlt] at hc
    have hold : c ∈ st.entries d →
        (procEntry st.threadPool (st'.dentry c).dIname).isSome = true := fun hin => by
      rw [hgrown.dIname ((hwf.chain_entries hlt).2 c hin).1]
      exact h d c hlt hproc₀ hin
    split at hc
    case isFalse => exact hold hc
    case isTrue hnew =>
      obtain ⟨hk, rfl⟩ := hnew
      rcases List.mem_cons.mp hc with rfl | hin
      · obtain ⟨o, ho⟩ : ∃ o, st'.dentry st.dentries.size = { y with dChild := o } :=
          he.namespace_eq ▸ Namespace.dentry_enter_size hD.lt
        have hname : (st'.dentry st.dentries.size).dIname = name := by
          rw [ho]
          exact he.dIname
        rw [hname]
        exact he.shown hs hD hproc₀ hk
      · exact hold hin
  · obtain rfl : d = st.dentries.size := by omega
    rw [he.namespace_eq, Namespace.entries_enter_size hwf hD.lt he.leaf] at hc
    cases hc

theorem Walked.current {ps : List Part} {file : Bool} {o : Option ℕ} (hs : Sound st)
    (h : Current st) (hw : Walked t mode Sound LiveDirAt ps file o st st') : Current st' := by
  have hstep : ∀ {st₁ i st₂}, Sound st₁ → Current st₁ → Fresh LiveDirAt ps st₁ i →
      MakesAt t mode st₁ i st₂ → Sound st₂ ∧ Current st₂ := by
    intro st₁ i st₂ h₁ hc hf hm
    refine ⟨((walkable_live t mode).enters h₁ hf hm).1, ?_⟩
    obtain ⟨y, j, F, he⟩ := hm
    exact he.current h₁ hf.place.toDirAt hc
  obtain ⟨st₁, hr, hst'⟩ := hw.steps
  have hrun : Sound st₁ ∧ Current st₁ :=
    hr.invariant (I := fun st => Sound st ∧ Current st) ⟨hs, h⟩
      fun hI hf hm => hstep hI.1 hI.2 hf.1 hm
  rcases hst' with rfl | ⟨-, i, hf, -, -, hm⟩
  · exact hrun.2
  · exact (hstep hrun.1 hrun.2 hf hm).2

theorem Still.current (hst : Still st st') (hinv : Inv st) (h : Current st) : Current st' := by
  apply h.of_pool hinv hst.namespace_eq hst.iOp
  intro d c x _ _ _ hx
  rw [hst.threadPool, hx]

theorem Mounts.current {path : List Char} {fs m : ℕ} {x : Dentry}
    (hm : Mounts st st' t path fs d m x) (hinv : Inv st) (h : Current st) : Current st' := by
  have hns := hm.namespace_eq
  apply h.of_entries hinv
  case hnew =>
    intro e he hlt
    have hsize : st'.dentries.size = st.dentries.size + 1 := by rw [hns]; rfl
    obtain rfl : e = st.dentries.size := by omega
    rw [hns, Namespace.entries_addMount, Namespace.entries_born_size hm.root.subdirs]
  case hentries =>
    intro e he
    rw [hns, Namespace.entries_addMount, Namespace.entries_born hinv.wf he]
  case hname =>
    intro e he
    rw [hns, Namespace.dentry_addMount, Namespace.dentry_born_of_lt he]
    split <;> rfl
  case hinode =>
    intro e he
    rw [hns, Namespace.dentry_addMount, Namespace.dentry_born_of_lt he]
    split <;> rfl
  case hiop => exact hm.rest.iOp
  case hpool =>
    intro d c x _ _ _ hx
    rw [hm.rest.threadPool, hx]

theorem Unmounts.current {path : List Char} {m : ℕ} (hu : Unmounts st st' t path nd m)
    (hinv : Inv st) (h : Current st) : Current st' := by
  obtain rfl := hu.state_eq
  apply h.of_entries hinv
  case hnew =>
    intro e he hlt
    rw [Namespace.size_dropMount] at he
    exact absurd he hlt
  case hentries => intro e _; exact Namespace.entries_dropMount
  case hname =>
    intro e _
    rw [Namespace.dentry_dropMount]
    split <;> rfl
  case hinode =>
    intro e _
    rw [Namespace.dentry_dropMount]
    split <;> rfl
  case hiop => intro i _; rfl
  case hpool => intro d c x _ _ _ hx; exact hx

theorem current_kmtCreate (hinv : Inv st) (h : Current st) (t : ℕ) : Current (kmtCreate st t) := by
  rcases kmtCreate_cases st t with heq | ⟨i, -, heq⟩
  · rw [heq]
    exact h
  · rw [heq]
    refine h.of_pool hinv rfl (fun _ => rfl) ?_
    intro d c x _ _ _ hx
    apply procEntry_of_pool hx
    intro _ _ hpool
    dsimp only
    rw [Function.update_apply]
    split
    · rfl
    · exact hpool

theorem current_tornDown {u : ℕ} (hinv : Inv st) (h : Current st)
    (hl : Lasting st (.teardown t u)) :
    Current { st with threadPool := Function.update st.threadPool u false } := by
  refine h.of_pool hinv rfl (fun _ => rfl) ?_
  intro d c x hd hproc hc hx
  have hne := hl d hd hproc c hc
  rw [hx, Option.map_some] at hne
  apply procEntry_of_pool hx
  intro _ _ hpool
  dsimp only
  rw [Function.update_of_ne fun he => hne (congrArg some he), hpool]

theorem current_started (hs : Started st) : Current st := by
  have hinv := inv_started hs
  obtain ⟨st₀, st₁, hb, hr, rfl⟩ := hs
  obtain ⟨x, j, st₂, hmade, hx, hst⟩ := started_namespace hb hr
  intro d c hd hproc hc
  have hns := congrArg State.toNamespace hst
  have hsize : st₁.dentries.size = 1 := by simp [hns, hb.dentries]
  -- The root has no entries.
  have hmem := (hinv.wf.chain_entries hd).2 c hc
  have hlt : c < st₁.dentries.size := hmem.1
  omega

theorem current_exec (hs : Sound st) (h : Current st) (hl : Lasting st op)
    (hstep : exec st op = some st') : Current st' := by
  have hinv := hs.inv
  cases op with
  | call t c =>
    obtain ⟨ht, ret, hr⟩ := run_of_runBy hstep
    have hlooks : ∀ {path}, LooksUp t path st st' → Current st' := by
      rintro path (rfl | ⟨r, hlook⟩)
      · exact h
      · exact (hs.looked_pathLookup ht 0 hlook).current hs h
    by_cases hmount : ∃ path fs, c = .mount path fs
    · obtain ⟨path, fs, rfl⟩ := hmount
      obtain ⟨z, hr⟩ := run_plain hr
      rcases run_vfsMount hinv ht hr with ⟨-, hlook⟩ | ⟨-, d, m, x, hm, -⟩
      · exact hlooks hlook
      · exact hm.current hinv h
    by_cases hunmount : ∃ path, c = .unmount path
    · obtain ⟨path, rfl⟩ := hunmount
      obtain ⟨z, hr⟩ := run_plain hr
      rcases run_vfsUnmount hinv ht hr with ⟨-, hlook⟩ | ⟨-, nd, m, hu⟩
      · exact hlooks hlook
      · exact hu.current hinv h
    obtain ⟨mode, ps, b, o, st₁, hwalk, hstill⟩ := Walkable.walks_body (walkable_live t) hs
      (fun path => hs.start ht) (fun path fs he => hmount ⟨path, fs, he⟩)
      (fun path he => hunmount ⟨path, he⟩) hr
    exact hstill.current hwalk.inv.inv (hwalk.current hs h)
  | close t fd =>
    obtain ⟨-, z, hr⟩ := run_of_runBy hstep
    exact (calm_vfsClose.still hr).current hinv h
  | create t =>
    rw [exec] at hstep
    split at hstep
    · obtain rfl := Option.some.inj hstep
      exact current_kmtCreate hinv h t
    · cases hstep
  | teardown t u =>
    rw [exec] at hstep
    split at hstep
    · obtain rfl := Option.some.inj hstep
      exact current_tornDown hinv h hl
    · cases hstep
  | newFs f =>
    obtain rfl := Option.some.inj hstep
    exact h
  | world text rand =>
    obtain rfl := Option.some.inj hstep
    exact h

theorem reach_current (h : Reach st Lasting) : Sound st ∧ Current st := by
  obtain ⟨st₀, h₀, hr⟩ := h
  exact hr.invariant (I := fun st => Sound st ∧ Current st)
    ⟨sound_started h₀, current_started h₀⟩ fun hI hl hstep =>
      ⟨sound_exec hI.1 hl.proper hstep, current_exec hI.1 hI.2 hl hstep⟩

end Current

section Files

variable {st st' : State} {t n : ℕ} {nd nd' : Nameidata} {p path x : List Char} {op : Op}

def ProcRoot (st : State) (d : ℕ) : Prop := st.parent d = d ∧ st.ProcDir d

instance {d : ℕ} : Decidable (ProcRoot st d) := inferInstanceAs (Decidable (_ ∧ _))

theorem askDriver_procRoot (hroot : ProcRoot st nd.dentry) (name : List Char) :
    askDriver st nd name =
      if (procEntry st.threadPool name).isSome = true then .made nd name else .absent := by
  obtain ⟨hself, ip, hip, hop⟩ := hroot
  rw [askDriver, Option.mem_def.mp hip]
  dsimp only
  rw [hop]
  simp [finds, hself]

theorem look_procRoot (hs : Sound st) (h : Current st) (hseen : Seen st nd)
    (hroot : ProcRoot st nd.dentry) (name : List Char) :
    (∃ nd', look st nd name = .hit nd' ∨ ∃ found, look st nd name = .made nd' found) ↔
      (procEntry st.threadPool name).isSome = true := by
  cases hc : st.childNamed nd.dentry name with
  | some c =>
    have hname : (st.dentry c).dIname = name := by simpa using List.find?_some hc
    have hfile := h nd.dentry c (hseen.lt hs.inv) hroot.2 (List.mem_of_find?_eq_some hc)
    rw [hname] at hfile
    obtain ⟨nd', hlook, -⟩ := hseen.childNamed hs.inv hc
    exact ⟨fun _ => hfile, fun _ => ⟨nd', .inl hlook⟩⟩
  | none =>
    have hlook : look st nd name = askDriver st nd name := by rw [look, hc]
    rw [hlook, askDriver_procRoot hroot]
    constructor
    · rintro ⟨nd', hfound⟩
      by_contra hnone
      rw [if_neg hnone] at hfound
      rcases hfound with hfound | ⟨found, hfound⟩
      · cases hfound
      · cases hfound
    · intro hfile
      exact ⟨nd, .inr ⟨name, if_pos hfile⟩⟩

theorem relative_append_name (hx : ValidName x) : relative (p ++ '/' :: x) ≠ [] := by
  intro hnil
  obtain ⟨c, cs, rfl⟩ := List.exists_cons_of_ne_nil hx.1
  have hall := List.dropWhile_eq_nil_iff.mp hnil c (by simp)
  have hc : c = '/' := by simpa using hall
  exact hx.2.1 (hc ▸ List.mem_cons_self)

theorem wantsDir_append_name (hx : ValidName x) : wantsDir (p ++ '/' :: x) = false := by
  rw [wantsDir_eq (relative_append_name hx), endsInSlash,
    List.getLast?_append_of_ne_nil _ (List.cons_ne_nil _ _),
    List.getLast?_cons_of_ne_nil hx.1, decide_eq_false_iff_not]
  exact fun hlast => hx.2.1 (List.mem_of_getLast? hlast)

theorem resolvePath_append_name (h : Inv st) (ht : st.Running t) (hx : ValidName x)
    (hp : resolvePath st t p true = .hit nd) :
    resolvePath st t (p ++ '/' :: x) false = look st nd x := by
  have hp' : resolve st true (partsOf p) (start st t (p ++ '/' :: x)) = .hit nd := by
    have hsame : start st t p = start st t (p ++ '/' :: x) := by rw [start_eq h ht, start_eq h ht]
    rw [← hsame]
    exact hp
  rw [resolvePath, wantsDir_append_name hx, partsOf_append, partsOf_name hx,
    resolve_append_of_hit hp', resolve, goTo]
  cases look st nd x <;> simp [Part.isName, resolve]

theorem resolvePath_of_run (h : Inv st) (ht : st.Running t) {dir : Bool}
    (hr : run (pathLookup t p dir) st = some ((some nd.dentry, nd), st)) :
    resolvePath st t p dir = .hit nd := by
  have hout := run_pathLookup p dir h ht
  rw [hr] at hout
  rcases hout.some_cases with ⟨hf, -, -⟩ | ⟨nd', name, -, -, hmade, -⟩
  · exact hf
  · exact absurd hmade.lt (Nat.lt_irrefl _)

theorem succeeds_iff (h : Inv st) (ht : st.Running t) :
    (∃ d nd' st', run (pathLookup t path false) st = some ((some d, nd'), st')) ↔
      ∃ nd', resolvePath st t path false = .hit nd' ∨
        ∃ name, resolvePath st t path false = .made nd' name := by
  have hout := run_pathLookup path false h ht
  constructor
  · rintro ⟨d, nd', st', hr⟩
    rw [hr] at hout
    rcases hout.some_cases with ⟨hf, -, -⟩ | ⟨nd₁, name, hf, -, -, -⟩
    · exact ⟨nd', .inl hf⟩
    · exact ⟨nd₁, .inr ⟨name, hf⟩⟩
  · rintro ⟨nd', hhit | ⟨name, hmade⟩⟩
    · rw [hhit] at hout
      exact ⟨_, _, _, hout.1⟩
    · rw [hmade] at hout
      obtain ⟨st₁, hr, -⟩ := hout
      exact ⟨_, _, _, hr⟩

theorem validName_toDigits (n : ℕ) : ValidName (Nat.toDigits 10 n) := by
  have hdot : ∀ {c w}, Nat.toDigits 10 n = c :: w → c.isDigit = true := fun he =>
    isDigit_toDigits (he ▸ List.mem_cons_self)
  refine ⟨Nat.toDigits_ne_nil, fun hin => ?_, fun he => ?_, fun he => ?_⟩
  · exact absurd (isDigit_toDigits hin) (by decide)
  · exact absurd (hdot he) (by decide)
  · exact absurd (hdot he) (by decide)

/-- The file of a thread is found when the thread exists, unless the number is read as that of
another thread. -/
theorem Current.file_iff (h : Current st) (hs : Sound st) (ht : st.Running t)
    (hp : run (pathLookup t p true) st = some ((some nd.dentry, nd), st))
    (hroot : ProcRoot st nd.dentry) (hn : ∀ k : ℕ, st.Running k → toInt n = k → n = k) :
    (∃ d nd' st', run (pathLookup t (p ++ '/' :: Nat.toDigits 10 n) false) st =
      some ((some d, nd'), st')) ↔ st.Running n := by
  have hres := resolvePath_of_run hs.inv ht hp
  have hseen : Seen st nd := by
    have hout := run_pathLookup p true hs.inv ht
    rw [hres] at hout
    exact hout.2
  have hfile : (∃ d nd' st', run (pathLookup t (p ++ '/' :: Nat.toDigits 10 n) false) st =
      some ((some d, nd'), st')) ↔ (procEntry st.threadPool (Nat.toDigits 10 n)).isSome = true := by
    rw [succeeds_iff hs.inv ht, resolvePath_append_name hs.inv ht (validName_toDigits n) hres]
    exact look_procRoot hs h hseen hroot _
  rw [hfile, procEntry_toDigits]
  constructor
  · rintro ⟨hpos, hle, hlt, hpool⟩
    have hk : toInt n = ((toInt n).toNat : ℤ) := (Int.toNat_of_nonneg hlt.le).symm
    have hrunning : st.Running (toInt n).toNat := by
      refine ⟨by omega, hk ▸ hle, hk ▸ hpool⟩
    rw [hn _ hrunning hk]
    exact hrunning
  · rintro ⟨hpos, hle, hpool⟩
    have hle' : (n : ℤ) ≤ 1024 := hle
    rw [toInt_of_range (by omega) (by omega)]
    exact ⟨hpos, hle, by omega, hpool⟩

/-- A cached entry is used as it is to be only when its driver has a `d_revalidate` that returns
zero for it. As long as no thread is torn down while `procfs` has its file in memory, a thread has
a file in `procfs` when it exists, if its number is not read as that of another one. -/
theorem lookups_current (rev : Revalidation) (st : State) :
    (∀ (nd : Nameidata) (name : List Char) (c : ℕ), Orderly st → DirAt st nd →
      st.childNamed nd.dentry name = some c →
        ((∃ r st', run (doLookupBy rev nd name) st = some (r, st') ∧
          Revalidates rev st nd name c r st') ↔
            ∃ f, rev (st.dentry c).dOp = some f ∧ f st c = 0)) ∧
    ∀ (t : ℕ) (p : List Char) (nd : Nameidata) (n : ℕ), Reach st Lasting →
      st.Running t → run (pathLookup t p true) st = some ((some nd.dentry, nd), st) →
        ProcRoot st nd.dentry → (∀ k : ℕ, st.Running k → toInt n = k → n = k) →
          ((∃ d nd' st', run (pathLookup t (p ++ '/' :: Nat.toDigits 10 n) false) st =
            some ((some d, nd'), st')) ↔ st.Running n) := by
  refine ⟨fun nd name c h hD hc => doLookupBy_revalidates_iff h hD hc, ?_⟩
  intro t p nd n hr ht hp hroot hn
  obtain ⟨hs, hc⟩ := reach_current hr
  exact hc.file_iff hs ht hp hroot hn

instance : Decidable (Lasting st op) :=
  match op with
  | .teardown _ u => decidable_of_iff (∀ d < st.dentries.size, st.ProcDir d →
      ∀ c ∈ st.entries d,
        (procEntry st.threadPool (st.dentry c).dIname).map Prod.fst ≠ some (u : ℤ)) Iff.rfl
  | .call _ (.mount _ fs) => inferInstanceAs (Decidable (fs < st.fsTypes.size))
  | .newFs f => inferInstanceAs (Decidable f.Genuine)
  | .call _ (.access ..) | .call _ (.unmount _) | .call _ (.open ..) | .call _ (.read ..)
  | .call _ (.write ..) | .call _ (.lseek ..) | .call _ (.mkdir ..) | .close .. | .create _
  | .world .. => inferInstanceAs (Decidable True)

def execLasting (st : State) (op : Op) : Option State :=
  if Lasting st op then exec st op else none

theorem reach_lasting {ops : List Op} (hr : replay execLasting initial ops = some st) :
    Reach st Lasting := by
  refine ⟨initial, started_initial, Run.of_replay (fun {s op s'} hs => ?_) hr⟩
  unfold execLasting at hs
  split at hs
  · exact ⟨‹_›, hs⟩
  · cases hs

def withProc : List Op := [.call 1 (.mkdir "/proc".toList 0x755), .call 1 (.mount "/proc".toList 1),
  .create 1, .create 1]

/-- The file of the second thread is found, and the one of the third thread, which has been torn
down before anyone looked for it, is not. `proc` itself is looked up as it is to be. -/
theorem lookups_current_run : ∃ st,
    (∃ d nd' st', run (pathLookup 1 "/proc/2".toList false) st = some ((some d, nd'), st')) ∧
    (¬ ∃ d nd' st', run (pathLookup 1 "/proc/3".toList false) st = some ((some d, nd'), st')) ∧
      ∃ r st', run (doLookupBy revalidation (start st 1 "/".toList) "proc".toList) st =
        some (r, st') ∧ Revalidates revalidation st (start st 1 "/".toList) "proc".toList 3 r st' := by
  have hreplay : (replay execLasting initial (withProc ++
      [.call 1 (.access "/proc/2".toList F_OK), .teardown 1 3])).any (fun st =>
        st.Running 1 ∧ st.Running 2 ∧ ¬ st.Running 3 ∧ ProcRoot st 4 ∧
          st.childNamed (start st 1 "/".toList).dentry "proc".toList = some 3 ∧
            (st.dentry 3).dOp = .kvfs ∧
              resolvePath st 1 "/proc".toList true = .hit ⟨4, some 1⟩) = true := by decide +kernel
  obtain ⟨st, hr, hst⟩ := (Option.any_eq_true _ _).mp hreplay
  obtain ⟨h₁, h₂, h₃, hroot, hchild, hop, hres⟩ := of_decide_eq_true hst
  have hreach := reach_lasting hr
  obtain ⟨hinv, horderly⟩ := hreach.orderly
  have hp : run (pathLookup 1 "/proc".toList true) st = some ((some 4, ⟨4, some 1⟩), st) := by
    have hout := run_pathLookup "/proc".toList true hinv h₁
    rw [hres] at hout
    exact hout.1
  have hnumber : ∀ n : ℕ, n < 4 → ∀ k : ℕ, st.Running k → toInt n = k → n = k := by
    intro n hn k _ hk
    rw [toInt_of_range (by omega) (by omega)] at hk
    exact Int.ofNat_inj.mp hk
  refine ⟨st, ?_, fun hfound => h₃ ?_, ?_⟩
  · exact ((lookups_current revalidation st).2 1 "/proc".toList ⟨4, some 1⟩ 2 hreach h₁ hp hroot
      (hnumber 2 (by decide))).mpr h₂
  · exact ((lookups_current revalidation st).2 1 "/proc".toList ⟨4, some 1⟩ 3 hreach h₁ hp hroot
      (hnumber 3 (by decide))).mp hfound
  · have hop : revalidation (st.dentry 3).dOp = some fun _ _ => 0 := by
      rw [hop]
      rfl
    exact ((lookups_current revalidation st).1 _ _ 3 horderly
      (dirAt_start hinv horderly.tidy h₁) hchild).mpr ⟨_, hop, rfl⟩

/-- A thread that has been looked up and torn down still has its file. -/
theorem lookup_stale : ¬ ((∀ (rev : Revalidation) (st : State) (nd : Nameidata) (name : List Char)
      (c : ℕ), Orderly st → DirAt st nd → st.childNamed nd.dentry name = some c →
        ∃ r st', run (doLookupBy rev nd name) st = some (r, st') ∧
          Revalidates rev st nd name c r st') ∧
    ∀ (st : State) (t : ℕ) (p : List Char) (nd : Nameidata) (n : ℕ), Reachable st →
      st.Running t → run (pathLookup t p true) st = some ((some nd.dentry, nd), st) →
        ProcRoot st nd.dentry →
          ((∃ d nd' st', run (pathLookup t (p ++ '/' :: Nat.toDigits 10 n) false) st =
            some ((some d, nd'), st')) ↔ st.Running n)) := by
  rintro ⟨-, hall⟩
  have hreplay : (replay exec initial (withProc ++
      [.call 1 (.access "/proc/2".toList F_OK), .teardown 1 2])).any (fun st =>
        st.Running 1 ∧ ¬ st.Running 2 ∧ ProcRoot st 4 ∧
          resolvePath st 1 "/proc".toList true = .hit ⟨4, some 1⟩ ∧
            (run (pathLookup 1 "/proc/2".toList false) st).any fun r => r.1.1.isSome) = true := by
    decide +kernel
  obtain ⟨st, hr, hst⟩ := (Option.any_eq_true _ _).mp hreplay
  obtain ⟨h₁, h₂, hroot, hres, hfound⟩ := of_decide_eq_true hst
  obtain ⟨⟨⟨o, nd'⟩, st'⟩, hfound, hsome⟩ := (Option.any_eq_true _ _).mp hfound
  obtain ⟨d, rfl⟩ := Option.isSome_iff_exists.mp hsome
  have hreach := reachable_of_replay hr
  have hp : run (pathLookup 1 "/proc".toList true) st = some ((some 4, ⟨4, some 1⟩), st) := by
    have hout := run_pathLookup "/proc".toList true (Reach.inv hreach) h₁
    rw [hres] at hout
    exact hout.1
  exact h₂ ((hall st 1 "/proc".toList ⟨4, some 1⟩ 2 hreach h₁ hp hroot).mp ⟨d, nd', st', hfound⟩)

end Files

end NSOS.Vfs
