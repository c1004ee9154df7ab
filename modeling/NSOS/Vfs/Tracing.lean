import NSOS.Vfs.Stale

/-! # Tracing a file

`do_tracefile` climbs from a dentry to the root of the file system, across the
roots of mounts, and prints the names on its way. For every place that a path
leads to it ends without a report, and the names read backwards are a path to
the same place.
-/

namespace NSOS.Vfs

open Basis Prog

/-- What `do_tracefile` prints: the root of a mount, a report, a name, or the root. -/
inductive Crumb where
  | mount (d : ℕ)
  | issue
  | entry (name : List Char) (d : ℕ)
  | root (d : ℕ)
  deriving DecidableEq

namespace Crumb

def name? : Crumb → Option (List Char)
  | entry name _ => some name
  | _ => none

end Crumb

def pathOf : List (List Char) → List Char
  | [] => ['/']
  | names => names.flatMap ('/' :: ·)

def tracedPath (cs : List Crumb) : List Char := pathOf (cs.filterMap Crumb.name?).reverse

namespace Namespace

section Trace

variable (ns : Namespace)

/-- The step of `do_tracefile` from the root of a mount to its mountpoint. -/
def crossMount (d : ℕ) : ℕ × List Crumb :=
  if ns.parent d = d then
    match ns.mountList.find? fun m => (ns.mount m).mntRoot = d with
    | some m =>
      let p := (ns.mount m).mntMountpoint
      (p, .mount d :: if (ns.dentry p).dMounted = 0 then [.issue] else [])
    | none => (d, [.issue])
  else (d, [])

/-- `do_tracefile`, with the number of turns that its loop may take. -/
def doTracefile : ℕ → ℕ → Option (List Crumb)
  | 0, _ => none
  | n + 1, d =>
    if d = ns.rootDentry then some [.root d]
    else
      let (p, cs) := ns.crossMount d
      (doTracefile n (ns.parent p)).map fun rest => cs ++ .entry (ns.dentry p).dIname p :: rest

/-- The places that paths lead to, with the names on the way from the root. -/
inductive Named : ℕ → ℕ → List (List Char) → Prop
  | root : Named ns.rootDentry 0 []
  | down {e m c : ℕ} {names : List (List Char)} : Named e m names → c ∈ ns.entries e →
      ns.covered c = false → Named c m (names ++ [(ns.dentry c).dIname])
  | cross {e m c m' : ℕ} {names : List (List Char)} : Named e m names → c ∈ ns.entries e →
      ns.covered c = true → ns.topMount c = some m' →
        Named (ns.mount m').mntRoot m' (names ++ [(ns.dentry c).dIname])

end Trace

variable {ns : Namespace} {d m c e : ℕ} {names : List (List Char)}

theorem Named.visible (h : ns.Wf) (hn : ns.Named d m names) : ns.Visible d m := by
  induction hn with
  | root => exact .root
  | down _ hc hcov ih =>
    obtain ⟨hlt, hp, hne⟩ := (h.chain_entries (ih.inTree h).1).2 _ hc
    exact .down ih hlt hp hne.ne' hcov
  | cross _ hc hcov ht ih =>
    obtain ⟨hlt, hp, hne⟩ := (h.chain_entries (ih.inTree h).1).2 _ hc
    exact .cross ih hlt hp hne.ne' hcov ht

theorem Named.entry (h : ns.Wf) (hn : ns.Named e m names) (hc : c ∈ ns.entries e) :
    c < ns.dentries.size ∧ ns.parent c = e ∧ ns.parent c ≠ c ∧ c ≠ ns.rootDentry := by
  obtain ⟨hlt, hp, hgt⟩ := (h.chain_entries ((hn.visible h).inTree h).1).2 c hc
  have hne : ns.parent c ≠ c := by omega
  refine ⟨hlt, hp, hne, ?_⟩
  rintro rfl
  exact hne h.root_self

theorem doTracefile_turn {n p : ℕ} {cs rest : List Crumb} (hd : d ≠ ns.rootDentry)
    (hcross : ns.crossMount d = (p, cs)) (hp : ns.parent p = e)
    (hrest : ∀ k ≥ n, ns.doTracefile k e = some rest) :
    ∀ k ≥ n + 1, ns.doTracefile k d = some (cs ++ .entry (ns.dentry p).dIname p :: rest) := by
  intro k hk
  obtain ⟨j, rfl⟩ := Nat.exists_eq_add_of_le' (Nat.le_of_add_left_le hk)
  rw [doTracefile, if_neg hd, hcross]
  dsimp only
  rw [hp, hrest j (by omega)]
  rfl

theorem crossMount_of_ne (hd : ns.parent d ≠ d) : ns.crossMount d = (d, []) := if_neg hd

theorem find?_mntRoot (h : ns.Wf) (hm : m ∈ ns.mountList) :
    (ns.mountList.find? fun m' => (ns.mount m').mntRoot = (ns.mount m).mntRoot) = some m := by
  have hlt := h.chain_mountList.2
  obtain ⟨m', hfind⟩ : ∃ m', (ns.mountList.find? fun m' =>
      (ns.mount m').mntRoot = (ns.mount m).mntRoot) = some m' :=
    Option.isSome_iff_exists.mp (List.find?_isSome.mpr ⟨m, hm, by simp⟩)
  have hmem := List.mem_of_find?_eq_some hfind
  have heq : (ns.mount m').mntRoot = (ns.mount m).mntRoot := by simpa using List.find?_some hfind
  rw [hfind, h.mntRoot_inj (hlt m' hmem) (hlt m hm) heq]

theorem crossMount_root (h : ns.Wf) (hm : m ∈ ns.mountList) :
    ns.crossMount (ns.mount m).mntRoot = ((ns.mount m).mntMountpoint,
      .mount (ns.mount m).mntRoot ::
        if (ns.dentry (ns.mount m).mntMountpoint).dMounted = 0 then [.issue] else []) := by
  rw [crossMount, if_pos (h.mntRoot_root (h.chain_mountList.2 m hm)), find?_mntRoot h hm]

theorem Named.doTracefile (h : ns.Wf) (hroot : (ns.mount 0).mntMountpoint = ns.rootDentry)
    (hn : ns.Named d m names) : ∃ cs, (∃ n, ∀ k ≥ n, ns.doTracefile k d = some cs) ∧
      .issue ∉ cs ∧ (cs.filterMap Crumb.name?).reverse = names := by
  induction hn with
  | root =>
    refine ⟨[.root ns.rootDentry], ⟨1, fun k hk => ?_⟩, by simp, rfl⟩
    obtain ⟨k, rfl⟩ := Nat.exists_eq_add_of_le' hk
    rw [Namespace.doTracefile, if_pos rfl]
  | @down e m c names hn hc hcov ih =>
    obtain ⟨cs, ⟨n, hrun⟩, hissue, hnames⟩ := ih
    obtain ⟨-, hp, hself, hcr⟩ := hn.entry h hc
    refine ⟨_, ⟨n + 1, doTracefile_turn hcr (crossMount_of_ne hself) hp hrun⟩, ?_, ?_⟩
    · simp [hissue]
    · simp [Crumb.name?, hnames]
  | @cross e m c m' names hn hc hcov ht ih =>
    obtain ⟨cs, ⟨n, hrun⟩, hissue, hnames⟩ := ih
    obtain ⟨-, hp, -, hcr⟩ := hn.entry h hc
    have hon := topMount_on ht
    have hmem : m' ∈ ns.mountList := List.mem_of_find?_eq_some ht
    -- The mount on `c` is not the root mount, as `c` is not the root.
    have hne : (ns.mount m').mntRoot ≠ ns.rootDentry := fun he => by
      have hzero : m' = 0 := h.mntRoot_inj (h.topMount_lt ht) h.zero_lt (he.trans h.root_mnt.symm)
      rw [hzero, hroot] at hon
      exact hcr hon.symm
    have hmounted : (ns.dentry c).dMounted ≠ 0 := by
      simp only [covered, Bool.and_eq_true, decide_eq_true_eq] at hcov
      exact hcov.2
    have hcross := crossMount_root h hmem
    rw [hon, if_neg hmounted] at hcross
    refine ⟨_, ⟨n + 1, doTracefile_turn hne hcross hp hrun⟩, ?_, ?_⟩
    · simp [hissue]
    · simp [List.filterMap_cons, Crumb.name?, hnames]

/-- The mounts that are listed, down to the root mount. -/
inductive Anchored (ns : Namespace) : ℕ → Prop
  | root : Anchored ns 0
  | on {m p : ℕ} : m ∈ ns.mountList → (ns.mount m).mntParent = some p → Anchored ns p →
      Anchored ns m

def TraceEnds (ns : Namespace) (d : ℕ) : Prop :=
  ∃ cs n, ∀ k ≥ n, ns.doTracefile k d = some cs

theorem traceEnds_root : ns.TraceEnds ns.rootDentry := by
  refine ⟨[.root ns.rootDentry], 1, fun k hk => ?_⟩
  obtain ⟨k, rfl⟩ := Nat.exists_eq_add_of_le' hk
  rw [Namespace.doTracefile, if_pos rfl]

theorem TraceEnds.turn {p : ℕ} {cs : List Crumb} (hcross : ns.crossMount d = (p, cs))
    (h : ns.TraceEnds (ns.parent p)) : ns.TraceEnds d := by
  by_cases hd : d = ns.rootDentry
  · exact hd ▸ traceEnds_root
  · obtain ⟨rest, n, hrest⟩ := h
    exact ⟨_, n + 1, doTracefile_turn hd hcross rfl hrest⟩

theorem InTree.parent {r : ℕ} (ht : ns.InTree d r) (hr : ns.parent r = r) :
    ns.InTree (ns.parent d) r := by
  by_cases hd : ns.parent d = d
  · rwa [hd]
  · exact Vfs.InTree.down ht hd hr

/-- Below a dentry whose trace ends, traces end. -/
theorem TraceEnds.below {r : ℕ} (h : ns.TraceEnds r) (ht : ns.InTree d r) : ns.TraceEnds d := by
  obtain ⟨n, hn⟩ := ht
  induction n generalizing d with
  | zero => exact (show d = r from hn) ▸ h
  | succ n ih =>
    by_cases hd : ns.parent d = d
    · have hr : r = d := InTree.eq_of_root ⟨n + 1, hn⟩ hd
      exact hr ▸ h
    · exact .turn (crossMount_of_ne hd) (ih hn)

theorem Wf.mountpoint (h : ns.Wf) (hm : m < ns.mounts.size) (hm₀ : m ≠ 0) :
    ∃ p < ns.mounts.size, (ns.mount m).mntParent = some p ∧
      ns.InTree (ns.parent (ns.mount m).mntMountpoint) (ns.mount p).mntRoot := by
  obtain ⟨p, hp, hpar, ht⟩ := h.above hm hm₀
  exact ⟨p, hp, hpar, ht.parent (h.mntRoot_root hp)⟩

theorem Anchored.traceEnds (h : ns.Wf) (ha : ns.Anchored m) (hm : m < ns.mounts.size) :
    ns.TraceEnds (ns.mount m).mntRoot := by
  induction ha with
  | root => exact h.root_mnt ▸ traceEnds_root
  | @on m p hmem hpar _ ih =>
    by_cases hm₀ : m = 0
    · rw [hm₀, h.root_mnt]
      exact traceEnds_root
    · obtain ⟨q, hq, hq', ht⟩ := h.mountpoint hm hm₀
      obtain rfl : q = p := Option.some.inj (hq'.symm.trans hpar)
      exact .turn (crossMount_root h hmem) ((ih hq).below ht)

/-- In a tree without a way to the root the loop goes on for ever. -/
theorem doTracefile_eq_none (h : ns.Wf) (hm : m < ns.mounts.size) (ha : ¬ ns.Anchored m)
    (ht : ns.InTree d (ns.mount m).mntRoot) (n : ℕ) : ns.doTracefile n d = none := by
  induction n generalizing m d with
  | zero => rfl
  | succ n ih =>
    have hm₀ : m ≠ 0 := by
      rintro rfl
      exact ha .root
    have hd : d ≠ ns.rootDentry := by
      rintro rfl
      have heq := (ht.eq_of_root h.root_self).trans h.root_mnt.symm
      exact hm₀ (h.mntRoot_inj hm h.zero_lt heq)
    rw [doTracefile, if_neg hd]
    by_cases hself : ns.parent d = d
    · obtain rfl := ht.eq_of_root hself
      by_cases hmem : m ∈ ns.mountList
      · obtain ⟨p, hp, hpar, hup⟩ := h.mountpoint hm hm₀
        rw [crossMount_root h hmem]
        dsimp only
        rw [ih hp (fun hap => ha (.on hmem hpar hap)) hup]
        rfl
      · have hfind : (ns.mountList.find? fun m' =>
            (ns.mount m').mntRoot = (ns.mount m).mntRoot) = none := by
          rw [List.find?_eq_none]
          intro m' hm' heq
          have heq : (ns.mount m').mntRoot = (ns.mount m).mntRoot := by simpa using heq
          exact hmem (h.mntRoot_inj (h.chain_mountList.2 m' hm') hm heq ▸ hm')
        rw [crossMount, if_pos hself, hfind]
        dsimp only
        rw [hself, ih hm ha ht]
        rfl
    · rw [crossMount_of_ne hself]
      dsimp only
      rw [ih hm ha (ht.parent (h.mntRoot_root hm))]
      rfl

theorem traceEnds_iff (h : ns.Wf) (hm : m < ns.mounts.size)
    (ht : ns.InTree d (ns.mount m).mntRoot) : ns.TraceEnds d ↔ ns.Anchored m := by
  constructor
  · rintro ⟨cs, n, hrun⟩
    by_contra ha
    have hnone := doTracefile_eq_none h hm ha ht n
    rw [hrun n le_rfl] at hnone
    cases hnone
  · exact fun ha => (ha.traceEnds h hm).below ht

end Namespace

section Names

variable {st st' : State} {nd nd' : Nameidata} {t d m c : ℕ} {names : List (List Char)}
  {name path : List Char} {ps : List Part} {dir : Bool}

def NamedAt (st : State) (nd : Nameidata) (names : List (List Char)) : Prop :=
  ∃ m, nd.mnt = some m ∧ st.Named nd.dentry m names

theorem childNamed_entry (h : Orderly st) (hd : d < st.dentries.size) (hc : c ∈ st.entries d) :
    st.childNamed d (st.dentry c).dIname = some c := by
  obtain ⟨c', hfind⟩ : ∃ c', st.childNamed d (st.dentry c).dIname = some c' :=
    Option.isSome_iff_exists.mp (List.find?_isSome.mpr ⟨c, hc, by simp⟩)
  have hname : (st.dentry c').dIname = (st.dentry c).dIname := by simpa using List.find?_some hfind
  rw [hfind, List.inj_on_of_nodup_map (h.tidy.nodup hd) (List.mem_of_find?_eq_some hfind) hc hname]

theorem NamedAt.look (hn : NamedAt st nd names) (hl : look st nd name = .hit nd') :
    NamedAt st nd' (names ++ [name]) := by
  obtain ⟨m, hm, hn⟩ := hn
  rw [Vfs.look] at hl
  cases hc : st.childNamed nd.dentry name with
  | none =>
    rw [hc] at hl
    exact absurd hl askDriver_ne_hit
  | some c =>
    have hmem : c ∈ st.entries nd.dentry := List.mem_of_find?_eq_some hc
    obtain rfl : (st.dentry c).dIname = name := by simpa using List.find?_some hc
    simp only [hc, arrive] at hl
    split at hl
    case isTrue hcov =>
      cases ht : st.topMount c with
      | none => simp [ht] at hl
      | some m' =>
        simp only [ht, Found.hit.injEq] at hl
        subst hl
        exact ⟨m', rfl, .cross hn hmem hcov ht⟩
    case isFalse hcov =>
      obtain rfl := Found.hit.inj hl
      exact ⟨m, hm, .down hn hmem (by simpa using hcov)⟩

theorem NamedAt.look_entry (h : Orderly st) (hd : nd.dentry < st.dentries.size)
    (hc : c ∈ st.entries nd.dentry) :
    Vfs.look st nd (st.dentry c).dIname = arrive st nd c := by
  rw [Vfs.look, childNamed_entry h hd hc]

theorem NamedAt.climb (h : Inv st) (ho : Orderly st) (hroot : RootMounted st)
    (hn : NamedAt st nd names) (hl : climb st nd = .hit nd') : ∃ names', NamedAt st nd' names' := by
  have hback : ∀ {e m₀ c : ℕ} {ns : List (List Char)}, st.Named e m₀ ns → c ∈ st.entries e →
      arrive st ⟨e, some m₀⟩ c = .hit nd → ∃ names', NamedAt st nd' names' := by
    intro e m₀ c ns he hc harrive
    have hseen : Seen st ⟨e, some m₀⟩ := ⟨m₀, rfl, he.visible h.wf⟩
    have hlook : Vfs.look st ⟨e, some m₀⟩ (st.dentry c).dIname = arrive st ⟨e, some m₀⟩ c :=
      NamedAt.look_entry ho (hseen.lt h) hc
    rw [harrive] at hlook
    obtain rfl := Found.hit.inj (hl.symm.trans (hseen.climb_look h hroot hlook))
    exact ⟨ns, m₀, rfl, he⟩
  obtain ⟨d, mnt⟩ := nd
  obtain ⟨m, rfl, hn⟩ := hn
  cases hn with
  | root =>
    rw [Vfs.climb, if_pos rfl] at hl
    obtain rfl := Found.hit.inj hl
    exact ⟨[], 0, rfl, .root⟩
  | down he hc hcov => exact hback he hc (by rw [arrive, if_neg (by simp [hcov])])
  | cross he hc hcov ht => exact hback he hc (by rw [arrive, if_pos hcov, ht])

/-- Walks lead from named places to named places. -/
theorem NamedAt.resolve (h : Inv st) (ho : Orderly st) (hroot : RootMounted st)
    (hn : NamedAt st nd names) (hr : resolve st dir ps nd = .hit nd') :
    ∃ names', NamedAt st nd' names' := by
  induction ps generalizing nd names with
  | nil =>
    obtain rfl := Found.hit.inj hr
    exact ⟨names, hn⟩
  | cons p ps ih =>
    rw [Vfs.resolve] at hr
    have hgo : ∀ {nd₁}, goTo st nd p = .hit nd₁ → ∃ names', NamedAt st nd₁ names' := by
      intro nd₁ hgo
      cases p with
      | dot =>
        obtain rfl := Found.hit.inj hgo
        exact ⟨names, hn⟩
      | dotdot => exact hn.climb h ho hroot hgo
      | name s => exact ⟨_, hn.look hgo⟩
    cases hg : goTo st nd p with
    | hit nd₁ =>
      simp only [hg] at hr
      split at hr
      · cases hr
      · obtain ⟨names', hn'⟩ := hgo hg
        exact ih hn' hr
    | made nd₁ name =>
      simp only [hg] at hr
      split at hr <;> cases hr
    | absent => simp [hg] at hr
    | stuck => simp [hg] at hr

theorem resolve_of_isdir (hr : resolve st false ps nd = .hit nd')
    (hd : (st.dentry nd'.dentry).dIsdir = true) : resolve st true ps nd = .hit nd' := by
  induction ps generalizing nd with
  | nil => exact hr
  | cons p ps ih =>
    rw [resolve] at hr ⊢
    cases hg : goTo st nd p with
    | hit nd₁ =>
      simp only [hg] at hr ⊢
      split at hr
      · cases hr
      case isFalse hnot =>
        rw [if_neg]
        · exact ih hr
        · rintro ⟨hname, -, hfile⟩
          cases ps with
          | nil =>
            obtain rfl := Found.hit.inj hr
            rw [hd] at hfile
            cases hfile
          | cons q qs => exact hnot ⟨hname, .inl (List.cons_ne_nil q qs), hfile⟩
    | made nd₁ name =>
      simp only [hg] at hr
      split at hr <;> cases hr
    | absent => simp [hg] at hr
    | stuck => simp [hg] at hr

theorem Namespace.Named.resolvePath (h : Inv st) (ho : Orderly st) (ht : st.Running t)
    (hn : st.Named d m names) :
    resolvePath st t (names.flatMap ('/' :: ·)) false = .hit ⟨d, some m⟩ := by
  have hstep : ∀ {e m₀ c : ℕ} {ns : List (List Char)}, st.Named e m₀ ns → c ∈ st.entries e →
      Vfs.resolvePath st t (ns.flatMap ('/' :: ·)) false = .hit ⟨e, some m₀⟩ →
        Vfs.resolvePath st t ((ns ++ [(st.dentry c).dIname]).flatMap ('/' :: ·)) false =
          arrive st ⟨e, some m₀⟩ c := by
    intro e m₀ c ns he hc hp
    have hlt : e < st.dentries.size := ((he.visible h.wf).inTree h.wf).1
    obtain ⟨hclt, hparent, -, -⟩ := he.entry h.wf hc
    have hdir : (st.dentry e).dIsdir = true := by
      rw [← hparent]
      exact (ho.tidy.dirs hclt).1
    have hp' : Vfs.resolvePath st t (ns.flatMap ('/' :: ·)) true = .hit ⟨e, some m₀⟩ := by
      rw [Vfs.resolvePath, Bool.true_or]
      rw [Vfs.resolvePath, Bool.false_or] at hp
      cases hw : wantsDir (ns.flatMap ('/' :: ·)) with
      | true => rwa [hw] at hp
      | false =>
        rw [hw] at hp
        exact resolve_of_isdir hp hdir
    have happ : (ns ++ [(st.dentry c).dIname]).flatMap ('/' :: ·) =
        ns.flatMap ('/' :: ·) ++ '/' :: (st.dentry c).dIname := by simp
    rw [happ, resolvePath_append_name h ht (ho.tidy.linked hlt hc).2 hp',
      NamedAt.look_entry ho hlt hc]
  induction hn with
  | root => rw [List.flatMap_nil, Vfs.resolvePath, start_eq h ht]; rfl
  | down he hc hcov ih => rw [hstep he hc ih, arrive, if_neg (by simp [hcov])]
  | cross he hc hcov ht ih => rw [hstep he hc ih, arrive, if_pos hcov, ht]

theorem NamedAt.resolvePath (h : Inv st) (ho : Orderly st) (ht : st.Running t)
    (hn : NamedAt st nd names) : Vfs.resolvePath st t (pathOf names) false = .hit nd := by
  obtain ⟨d, mnt⟩ := nd
  obtain ⟨m, rfl, hn⟩ := hn
  have hpath := hn.resolvePath h ho ht
  cases names with
  | nil =>
    rw [Vfs.resolvePath, start_eq h ht] at hpath ⊢
    exact hpath
  | cons name names => exact hpath

/-- What a trace of a place is worth: the loop ends, nothing is reported, and every thread that
looks up the path that the trace shows is led to the dentry in the same mount. -/
structure TracedBack (st : State) (nd : Nameidata) (cs : List Crumb) : Prop where
  ends : ∃ n, ∀ k ≥ n, st.doTracefile k nd.dentry = some cs
  quiet : .issue ∉ cs
  back : ∀ t, st.Running t →
    run (pathLookup t (tracedPath cs) false) st = some ((some nd.dentry, nd), st)

theorem NamedAt.tracedBack (h : Inv st) (ho : Orderly st) (hroot : RootMounted st)
    (hn : NamedAt st nd names) : ∃ cs, TracedBack st nd cs := by
  obtain ⟨m, hm, hnamed⟩ := id hn
  obtain ⟨cs, hends, hquiet, hnames⟩ := hnamed.doTracefile h.wf hroot
  refine ⟨cs, hends, hquiet, fun t ht => ?_⟩
  have hleads := run_pathLookup (tracedPath cs) false h ht
  rw [tracedPath, hnames, hn.resolvePath h ho ht] at hleads
  rw [tracedPath, hnames]
  exact hleads.1

theorem namedAt_start (h : Inv st) (ht : st.Running t) : NamedAt st (start st t path) [] := by
  rw [start_eq h ht]
  exact ⟨0, rfl, .root⟩

end Names

section Files

variable {st st' : State} {t : ℕ} {path : List Char} {flags : UInt32} {fd : ℤ} {nd : Nameidata}
  {dir : Bool} {d m : ℕ}

/-- `tracefile`, for an entry that is an open file. -/
def tracefile (st : State) (n t : ℕ) (fd : ℤ) : Option (List Crumb) :=
  match (st.thread t).fileDescriptors fd.toNat with
  | .file f => st.doTracefile n (st.file f).fDentry
  | _ => none

theorem lookup_traced (h : Reachable st) (ht : st.Running t)
    (hr : resolvePath st t path dir = .hit nd) : ∃ cs, TracedBack st nd cs := by
  obtain ⟨hinv, ho⟩ := Reach.orderly h
  have hroot := Reach.rootMounted h
  obtain ⟨names, hn⟩ := (namedAt_start hinv ht).resolve hinv ho hroot hr
  exact hn.tracedBack hinv ho hroot

/-- The trace of a file that has just been opened ends, reports nothing, and shows a path to the
file. -/
theorem open_traced (h : Reachable st) (ht : st.Running t)
    (hr : run (vfsOpen t path flags) st = some (fd, st')) (hfd : fd ≠ -1) :
    ∃ f nd cs, (st'.thread t).fileDescriptors fd.toNat = .file f ∧
      nd.dentry = (st'.file f).fDentry ∧ TracedBack st' nd cs ∧
        ∃ n, ∀ k ≥ n, tracefile st' k t fd = some cs := by
  have hst' : Reachable st' := by
    obtain ⟨st₀, h₀, hrun⟩ := h
    exact ⟨st₀, h₀, hrun.tail trivial (exec_call (c := .open path flags) ht rfl hr)⟩
  obtain ⟨hinv, ho⟩ := Reach.orderly h
  obtain ⟨o, nd, st₁, hmake⟩ := vfsOpen_makes hr
  obtain ⟨hwalk, hend⟩ := (walkable_seen t ACL_DEFAULT).walked_makePath hinv (seen_start hinv ht)
    hmake
  obtain ⟨hordered, -⟩ := (walkable_at t ACL_DEFAULT).walked_makePath ho
    (dirAt_start hinv ho.tidy ht) hmake
  have hevolves := hwalk.evolves hinv
  rcases run_vfsOpen hmake hr with ⟨-, rfl, -⟩ | ⟨d, ip, rfl, hip, hopen⟩
  · exact absurd rfl hfd
  rcases hopen with ⟨-, rfl, -⟩ | ⟨i, -, -, rfl, rfl⟩
  · exact absurd rfl hfd
  obtain ⟨hdentry, -, -, hhit⟩ := hend d rfl
  have hstart : NamedAt st₁ (start st t path) [] := by
    rw [← start_congr hordered.thread]
    exact namedAt_start hevolves.inv ((hevolves.rest.running t).mpr ht)
  obtain ⟨names, hn⟩ := hstart.resolve hevolves.inv hordered.inv
    (hevolves.rootMounted (Reach.rootMounted h)) hhit
  obtain ⟨hinv', ho'⟩ := Reach.orderly hst'
  obtain ⟨cs, hback⟩ := NamedAt.tracedBack hinv' ho' (Reach.rootMounted hst')
    (show NamedAt _ nd names from hn)
  set x : File := ⟨d, ip, 0, flags, (st₁.inode ip).iFop⟩
  have hentry : (((st₁.withOpen x).withFd t i (.file st₁.files.size)).thread t).fileDescriptors
      (i : ℤ).toNat = .file st₁.files.size := by simp [State.withFd]
  have hfile : ((st₁.withOpen x).withFd t i (.file st₁.files.size)).file st₁.files.size = x := by
    simp [State.file, State.withFd, State.withOpen]
  obtain ⟨n, hends⟩ := hback.ends
  refine ⟨_, nd, cs, hentry, ?_, hback, n, fun k hk => ?_⟩
  · rw [hfile, hdentry]
  · rw [tracefile, hentry]
    dsimp only
    rw [hfile, ← hends k hk, hdentry]

/-- A file in a mounted file system is traced across the mount. -/
theorem open_traced_mounted : ∃ st' f nd cs,
    (st'.thread 1).fileDescriptors 3 = .file f ∧ nd.dentry = (st'.file f).fDentry ∧
      TracedBack st' nd cs ∧ ∃ n, ∀ k ≥ n, tracefile st' k 1 3 = some cs := by
  have hret : ((exec withRamdisk (.call 1 (.mount "/a".toList 3))).bind fun st =>
      (run (vfsOpen 1 "/a/..//a/f".toList O_RDWR) st).map fun r =>
        (decide (st.Running 1), r.1)) = some (true, 3) := by decide +kernel
  obtain ⟨st, hst, hret⟩ := Option.bind_eq_some_iff.mp hret
  obtain ⟨⟨fd, st'⟩, hr, heq⟩ := Option.map_eq_some_iff.mp hret
  simp only [Prod.mk.injEq, decide_eq_true_eq] at heq
  obtain ⟨ht, rfl⟩ := heq
  have hreach : Reachable st := by
    obtain ⟨st₀, h₀, hrun⟩ := reachable_withRamdisk
    exact ⟨st₀, h₀, hrun.tail trivial hst⟩
  exact ⟨st', open_traced hreach ht hr (by decide)⟩

/-- The trace of a dentry ends exactly if the mounts below it are all listed. -/
theorem trace_ends_iff (h : Reachable st) (hm : m < st.mounts.size)
    (ht : st.InTree d (st.mount m).mntRoot) : st.TraceEnds d ↔ st.Anchored m :=
  Namespace.traceEnds_iff (Reach.inv h).wf hm ht

/-- A file stays open when its file system is unmounted, and its trace never ends. -/
theorem trace_ends_iff_unmounted : ∃ st : State, (st.thread 1).fileDescriptors 3 = .file 0 ∧
    ¬ st.TraceEnds (st.file 0).fDentry := by
  have hreplay : (replay exec withRamdisk [.call 1 (.mount "/a".toList 3),
      .call 1 (.open "/a/f".toList O_RDWR), .call 1 (.unmount "/a".toList)]).any (fun st =>
        (st.thread 1).fileDescriptors 3 = .file 0 ∧ 1 < st.mounts.size ∧ st.mountList = [0] ∧
          st.parent (st.file 0).fDentry = (st.mount 1).mntRoot) = true := by decide +kernel
  obtain ⟨st, hr, hst⟩ := (Option.any_eq_true _ _).mp hreplay
  obtain ⟨hentry, hm, hlist, hparent⟩ := of_decide_eq_true hst
  have hreach : Reachable st := reachable_withRamdisk.replayed hr
  refine ⟨st, hentry, fun hends => ?_⟩
  have hanchored := (trace_ends_iff hreach hm ⟨1, hparent⟩).mp hends
  cases hanchored with
  | on hmem =>
    rw [hlist] at hmem
    exact absurd hmem (by decide)

end Files

end NSOS.Vfs
