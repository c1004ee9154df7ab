import NSOS.Vfs.Tidy

/-! # The reference resolver

What a path means, stated without the scanner of the kernel: its components
are what the slashes separate, and each of them leads one step further through
trees that mounts join. `path_lookup` computes this.
-/

namespace NSOS.Vfs

open Basis Prog

section Components

/-- What the slashes of a path separate, but for the empty strings. -/
def components (path : List Char) : List (List Char) := (path.splitOn '/').filter (· ≠ [])

def endsInSlash (path : List Char) : Bool := path.getLast? = some '/'

variable {s : List Char} {n : ℕ}

theorem components_slash (s : List Char) : components ('/' :: s) = components s := by
  have hsplit : ('/' :: s).splitOn '/' = [] :: s.splitOn '/' :=
    List.splitOn_append_cons_self_of_not_mem List.not_mem_nil s
  rw [components, hsplit]
  rfl

theorem components_relative (path : List Char) : components (relative path) = components path := by
  induction path with
  | nil => rfl
  | cons c path ih =>
    by_cases hc : c = '/'
    · subst hc
      rw [components_slash, ← ih]
      rfl
    · rw [relative, List.dropWhile_cons_of_neg (by simpa using hc)]

theorem eq_component_append (hdrop : s.dropWhile (· ≠ '/') ≠ []) :
    ∃ rest, s = component s ++ '/' :: rest ∧ remainder s = relative rest := by
  obtain ⟨c, rest, hcons⟩ := List.exists_cons_of_ne_nil hdrop
  have hhead := List.head?_dropWhile_not (fun c => decide (c ≠ '/')) s
  rw [hcons] at hhead
  obtain rfl : c = '/' := by simpa using hhead
  refine ⟨rest, ?_, ?_⟩
  · rw [← hcons]
    exact List.takeWhile_append_dropWhile.symm
  · rw [remainder, hcons]
    rfl

theorem eq_component (hdrop : s.dropWhile (· ≠ '/') = []) : component s = s ∧ remainder s = [] := by
  constructor
  · have hsplit : component s ++ s.dropWhile (· ≠ '/') = s := List.takeWhile_append_dropWhile
    rwa [hdrop, List.append_nil] at hsplit
  · rw [remainder, hdrop]
    rfl

theorem components_of_atName (hs : AtName s) :
    components s = component s :: components (remainder s) := by
  have hne : component s ≠ [] := hs.component_ne_nil
  by_cases hdrop : s.dropWhile (· ≠ '/') = []
  · obtain ⟨hcomp, hrem⟩ := eq_component hdrop
    have hnot : '/' ∉ s := hcomp ▸ slash_notMem_component
    rw [hrem, hcomp, components, List.splitOn_eq_singleton hnot]
    simp [components, hs.1]
  · obtain ⟨rest, hsplit, hrem⟩ := eq_component_append hdrop
    rw [hrem, components_relative]
    conv_lhs => rw [hsplit]
    rw [components, List.splitOn_append_cons_self_of_not_mem slash_notMem_component,
      List.filter_cons_of_pos (by simpa using hne)]
    rfl

/-- The scanner cuts a path into its components. -/
theorem parts_eq (hn : s.length ≤ n) (hs : AtName s) : parts n s = (components s).map Part.of := by
  induction n generalizing s with
  | zero => exact absurd (List.length_eq_zero_iff.mp (Nat.le_zero.mp hn)) hs.1
  | succ n ih =>
    have hlen := length_remainder_lt hs.1
    rw [parts, components_of_atName hs, List.map_cons]
    by_cases hrem : remainder s = []
    · rw [if_pos hrem, hrem]
      rfl
    · rw [if_neg hrem, ih (by omega) (atName_remainder hrem)]

theorem partsOf_eq (path : List Char) : partsOf path = (components path).map Part.of := by
  rw [← components_relative, partsOf]
  by_cases hrel : relative path = []
  · rw [hrel]
    rfl
  · exact parts_eq le_rfl (atName_dropWhile hrel)

theorem endsInSlash_of_suffix {r : List Char} (h : r <:+ s) (hr : r ≠ []) :
    endsInSlash s = endsInSlash r := by
  obtain ⟨u, rfl⟩ := h
  rw [endsInSlash, List.getLast?_append_of_ne_nil _ hr, endsInSlash]

theorem slashed_eq (hn : s.length ≤ n) (hs : AtName s) : slashed n s = endsInSlash s := by
  induction n generalizing s with
  | zero => exact absurd (List.length_eq_zero_iff.mp (Nat.le_zero.mp hn)) hs.1
  | succ n ih =>
    have hlen := length_remainder_lt hs.1
    rw [slashed]
    by_cases hrem : remainder s = []
    · rw [if_pos hrem]
      by_cases hdrop : s.dropWhile (· ≠ '/') = []
      · obtain ⟨hcomp, -⟩ := eq_component hdrop
        have hnot : '/' ∉ s := hcomp ▸ slash_notMem_component
        have hlast : s.getLast? ≠ some '/' := fun h => hnot (List.mem_of_getLast? h)
        simp [trailing, endsInSlash, hcomp, hlast]
      · obtain ⟨rest, hsplit, hrest⟩ := eq_component_append hdrop
        have hne : component s ≠ s := fun h => by
          have hmem : '/' ∈ component s := by
            rw [h, hsplit]
            simp
          exact slash_notMem_component hmem
        have hslashes : ∀ c ∈ rest, c = '/' := by
          have hrel : rest.dropWhile (fun c => decide (c = '/')) = [] := hrest.symm.trans hrem
          simpa [List.dropWhile_eq_nil_iff] using hrel
        have hlast : endsInSlash s = true := by
          rw [endsInSlash_of_suffix ⟨component s, hsplit.symm⟩ (List.cons_ne_nil _ _), endsInSlash,
            List.getLast?_eq_some_getLast (List.cons_ne_nil _ _), decide_eq_true_eq,
            Option.some_inj]
          rcases List.mem_cons.mp (List.getLast_mem (List.cons_ne_nil '/' rest)) with h | h
          · exact h
          · exact hslashes _ h
        rw [hlast]
        simp [trailing, hne, hrem]
    · rw [if_neg hrem, ih (by omega) (atName_remainder hrem)]
      refine (endsInSlash_of_suffix ?_ hrem).symm
      exact (List.dropWhile_suffix _).trans (List.dropWhile_suffix _)

theorem wantsDir_eq {path : List Char} (hrel : relative path ≠ []) :
    wantsDir path = endsInSlash path := by
  have hs : AtName (relative path) := atName_dropWhile hrel
  have hsuffix : relative path <:+ path := List.dropWhile_suffix _
  rw [wantsDir, slashed_eq le_rfl hs, endsInSlash_of_suffix hsuffix hrel]

end Components

section Resolver

inductive Target where
  | place (nd : Nameidata)
  /-- A file in a directory that only the driver knows by its name. -/
  | supplied (nd : Nameidata) (name : List Char)
  deriving DecidableEq

namespace Reference

variable (st : State) (nd : Nameidata)

/-- From a dentry to the root of the newest file system that is mounted on it. -/
def cross (c : ℕ) : Nameidata :=
  match st.topMount c with
  | some m => ⟨(st.mount m).mntRoot, some m⟩
  | none => ⟨c, nd.mnt⟩

/-- The parent. Above the root of a mount lies the parent of its mountpoint. -/
def above : Nameidata :=
  if nd.dentry = st.rootDentry then nd
  else
    match nd.mnt with
    | some m =>
      if nd.dentry = (st.mount m).mntRoot then
        ⟨st.parent (st.mount m).mntMountpoint, (st.mount m).mntParent⟩
      else ⟨st.parent nd.dentry, some m⟩
    | none => ⟨st.parent nd.dentry, none⟩

def supplies (name : List Char) : Bool :=
  match (st.dentry nd.dentry).dInode with
  | some ip => (driverEntry st (st.inode ip).iOp nd.dentry name).isSome
  | none => false

def step (s : List Char) : Option Target :=
  if s = ['.'] then some (.place nd)
  else if s = ['.', '.'] then some (.place (above st nd))
  else
    match st.childNamed nd.dentry s with
    | some c => some (.place (cross st nd c))
    | none => if supplies st nd s then some (.supplied nd s) else none

def isDirectory : Target → Bool
  | .place nd => (st.dentry nd.dentry).dIsdir
  | .supplied _ _ => false

def continueAt (next : Nameidata → Option Target) : Target → Option Target
  | .place nd => next nd
  | .supplied nd name => some (.supplied nd name)

/-- Where the components of a path lead. A component with another one or a slash behind it must
lead to a directory. -/
def walk (dir : Bool) : List (List Char) → Nameidata → Option Target
  | [], nd => some (.place nd)
  | s :: ss, nd => do
    let target ← step st nd s
    if (ss ≠ [] ∨ dir = true) ∧ isDirectory st target = false then none
    else continueAt (walk dir ss) target

/-- Where a path leads from the directories of a thread. -/
def resolve (t : ℕ) (path : List Char) (dir : Bool) : Option Target :=
  walk st (dir || endsInSlash path) (components path) (start st t path)

end Reference

def Found.of : Option Target → Found
  | none => .absent
  | some (.place nd) => .hit nd
  | some (.supplied nd name) => .made nd name

variable {st st' : State} {nd nd' : Nameidata} {t c : ℕ} {dir : Bool} {s path name : List Char}
  {ss : List (List Char)}

theorem climb_eq_above (h : Orderly st) (hD : DirAt st nd) :
    climb st nd = .hit (Reference.above st nd) := by
  obtain ⟨m, hm, hnd, ht⟩ := hD.mnt
  have hself := h.wf.mntRoot_root hm
  have hiff : st.parent nd.dentry = nd.dentry ↔ nd.dentry = (st.mount m).mntRoot := by
    constructor
    · exact fun hp => (Namespace.InTree.refl _).unique ht hp hself
    · rintro he
      rw [he, hself]
  rw [climb, Reference.above, hnd]
  simp only [hiff]
  split
  · rfl
  · split <;> rfl

theorem arrive_eq_cross (h : Orderly st) (hD : DirAt st nd)
    (hc : st.childNamed nd.dentry name = some c) :
    arrive st nd c = .hit (Reference.cross st nd c) := by
  obtain ⟨hlt, hp, hne⟩ := h.wf.childNamed_spec hD.lt hc
  have hparent : st.parent c ≠ c := fun he => hne (he.symm.trans hp)
  rw [arrive, Reference.cross]
  cases htop : st.topMount c with
  | none =>
    have hcov : st.covered c = false := by
      by_contra hcov
      obtain ⟨m, hm⟩ := h.wf.topMount_isSome hlt hparent (by simpa using hcov)
      rw [htop] at hm
      cases hm
    rw [hcov, if_neg Bool.false_ne_true]
  | some m =>
    have hcov : st.covered c = true := by
      have hroot : c ≠ st.rootDentry := fun he => hparent (he ▸ h.wf.root_self)
      have hcount := h.wf.mounted hlt
      have hon := Namespace.topMount_on htop
      have hpos : 0 < st.mountsOn c :=
        List.countP_pos_iff.mpr ⟨m, List.mem_of_find?_eq_some htop, decide_eq_true hon⟩
      have hdir := h.tidy.point (h.wf.topMount_lt htop)
      rw [hon] at hdir
      rw [if_neg hroot] at hcount
      have hne : (st.dentry c).dMounted ≠ 0 := by omega
      simp [Namespace.covered, hdir, hne]
    rw [if_pos hcov]

theorem look_eq_step (h : Orderly st) (hD : DirAt st nd) (hdot : s ≠ ['.'])
    (hdd : s ≠ ['.', '.']) : look st nd s = Found.of (Reference.step st nd s) := by
  rw [look, Reference.step, if_neg hdot, if_neg hdd]
  cases hc : st.childNamed nd.dentry s with
  | some c => exact arrive_eq_cross h hD hc
  | none =>
    dsimp only
    obtain ⟨ip, hip⟩ := Option.ne_none_iff_exists'.mp hD.inode
    rw [askDriver, Reference.supplies, hip]
    dsimp only
    rw [finds_eq_isSome]
    split <;> rfl

theorem goTo_eq_step (h : Orderly st) (hD : DirAt st nd) (s : List Char) :
    goTo st nd (.of s) = Found.of (Reference.step st nd s) := by
  rw [Part.of]
  by_cases hdot : s = ['.']
  · rw [if_pos hdot, Reference.step, if_pos hdot]
    rfl
  by_cases hdd : s = ['.', '.']
  · rw [if_neg hdot, if_pos hdd, Reference.step, if_neg hdot, if_pos hdd]
    exact climb_eq_above h hD
  · rw [if_neg hdot, if_neg hdd]
    exact look_eq_step h hD hdot hdd

theorem at_of_step (h : Orderly st) (hD : DirAt st nd)
    (hs : Reference.step st nd s = some (.place nd')) : At st nd' ∧
      ((Part.of s).isName = false → (st.dentry nd'.dentry).dIsdir = true) := by
  have hgo := goTo_eq_step h hD s
  rw [hs] at hgo
  cases hp : Part.of s with
  | dot =>
    rw [hp] at hgo
    cases hgo
    exact ⟨hD.toAt, fun _ => hD.isdir⟩
  | dotdot =>
    obtain ⟨nd₁, hc, hD₁⟩ := h.climb hD
    rw [hp] at hgo
    cases hc.symm.trans hgo
    exact ⟨hD₁.toAt, fun _ => hD₁.isdir⟩
  | name s' =>
    refine ⟨?_, fun hname => by cases hname⟩
    rw [hp] at hgo
    have hlook := (walkable_at 0 0).run_doLookup h hD s'
    rw [show look st nd s' = .hit nd' from hgo] at hlook
    exact hlook.2

/-- The walk of the kernel along the components is the one of the reference. -/
theorem resolve_eq_walk (h : Orderly st) (hD : DirAt st nd) (ss : List (List Char)) :
    resolve st dir (ss.map Part.of) nd = Found.of (Reference.walk st dir ss nd) := by
  induction ss generalizing nd with
  | nil => rfl
  | cons s ss ih =>
    rw [List.map_cons, resolve, goTo_eq_step h hD, Reference.walk]
    cases hs : Reference.step st nd s with
    | none => rfl
    | some target =>
      simp only [Option.bind_eq_bind, Option.bind_some]
      cases target with
      | supplied nd₁ name =>
        cases ss <;> cases dir <;> rfl
      | place nd₁ =>
        obtain ⟨hP, hdots⟩ := at_of_step h hD hs
        change (if (Part.of s).isName = true ∧ (ss.map Part.of ≠ [] ∨ dir = true) ∧
          (st.dentry nd₁.dentry).dIsdir = false then Found.absent
          else resolve st dir (ss.map Part.of) nd₁) = _
        have hmore : ss.map Part.of ≠ [] ∨ dir = true ↔ ss ≠ [] ∨ dir = true := by
          rw [ne_eq, List.map_eq_nil_iff]
        by_cases hfail : (ss ≠ [] ∨ dir = true) ∧ Reference.isDirectory st (.place nd₁) = false
        · have hname : (Part.of s).isName = true := by
            by_contra hname
            exact absurd (hdots (by simpa using hname)) (ne_true_of_eq_false hfail.2)
          rw [if_pos hfail, if_pos ⟨hname, hmore.mpr hfail.1, hfail.2⟩]
          rfl
        · rw [if_neg hfail, if_neg fun hc => hfail ⟨hmore.mp hc.2.1, hc.2.2⟩]
          cases hdir : (st.dentry nd₁.dentry).dIsdir with
          | true => exact ih ⟨hP, hdir⟩
          | false =>
            obtain ⟨rfl, -⟩ : ss = [] ∧ dir = false := by
              simpa [Reference.isDirectory, hdir] using hfail
            rfl

/-- The place lies in the tree of its mount, and in no tree of another one. -/
def Holds (st : State) (nd : Nameidata) : Prop := ∃ m < st.mounts.size, nd.mnt = some m ∧
  ∀ m' < st.mounts.size, st.InTree nd.dentry (st.mount m').mntRoot ↔ m' = m

theorem At.holds (h : Orderly st) (hP : At st nd) : Holds st nd := by
  obtain ⟨m, hm, hnd, ht⟩ := hP.mnt
  refine ⟨m, hm, hnd, fun m' hm' => ⟨fun ht' => ?_, ?_⟩⟩
  · exact h.wf.mntRoot_inj hm' hm
      (ht'.unique ht (h.wf.mntRoot_root hm') (h.wf.mntRoot_root hm))
  · rintro rfl
    exact ht

/-- In orderly trees, and from any directory, `path_lookup` agrees with the reference: it returns
the dentry in memory that the path leads to, or the new dentry of the file that the driver
supplies, or `NULL`. The place is in the mount that the tree of the dentry belongs to. -/
theorem pathLookup_eq_reference (h : Orderly st) (hD : DirAt st (start st t path)) (dir : Bool) :
    match Reference.resolve st t path dir with
    | none => ∃ nd st', run (pathLookup t path dir) st = some ((none, nd), st')
    | some (.place nd) =>
      run (pathLookup t path dir) st = some ((some nd.dentry, nd), st) ∧ Holds st nd
    | some (.supplied nd name) => ∃ st', run (pathLookup t path dir) st =
        some ((some st.dentries.size, ⟨st.dentries.size, nd.mnt⟩), st') ∧
          Enters t 0 st nd name .cached st' ∧ Holds st' ⟨st.dentries.size, nd.mnt⟩ := by
  have hwalk : resolvePath st t path dir = Found.of (Reference.resolve st t path dir) := by
    rw [resolvePath, partsOf_eq, resolve_eq_walk h hD, Reference.resolve]
    by_cases hrel : relative path = []
    · have hnil : components path = [] := by
        rw [← components_relative, hrel]
        rfl
      rw [hnil]
      rfl
    · rw [wantsDir_eq hrel]
  have hleads := (walkable_at t 0).run_pathLookup h path dir hD
  rw [hwalk] at hleads
  cases hres : Reference.resolve st t path dir with
  | none =>
    rw [hres] at hleads
    obtain ⟨nd, st', hr, -⟩ := hleads
    exact ⟨nd, st', hr⟩
  | some target =>
    rw [hres] at hleads
    cases target with
    | place nd =>
      obtain ⟨hr, hP⟩ := hleads
      exact ⟨hr, hP.holds h⟩
    | supplied nd name =>
      obtain ⟨hf, st', hr, hm⟩ := hleads
      obtain ⟨h', hP⟩ := hm.orderly h hf.place hf.absent hf.valid
      exact ⟨st', hr, hm, (hP (by simp)).holds h'⟩

/-- The reference and the kernel find the directory `/a`. -/
theorem pathLookup_eq_reference_withRamdisk :
    run (pathLookup 1 "//a/./../a/".toList false) withRamdisk =
      some ((some 3, ⟨3, some 0⟩), withRamdisk) ∧ Holds withRamdisk ⟨3, some 0⟩ := by
  obtain ⟨hinv, horder⟩ := Reach.orderly reachable_withRamdisk
  have hD : DirAt withRamdisk (start withRamdisk 1 "//a/./../a/".toList) :=
    dirAt_start hinv horder.tidy running_withRamdisk
  have hagree := pathLookup_eq_reference horder hD false
  have hres : Reference.resolve withRamdisk 1 "//a/./../a/".toList false =
      some (.place ⟨3, some 0⟩) := by decide +kernel
  rw [hres] at hagree
  exact hagree

end Resolver

end NSOS.Vfs
