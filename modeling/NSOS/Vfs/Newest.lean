import NSOS.Vfs.Agree

/-! # The newest mount on a path

Right after a mount the path leads to its root, unless the directory is the
root of a mount itself or the path looks up a name in it. Mounting and
unmounting a path changes nothing, unless the directory is the root of a
mount: then the old mount is dropped instead of the new one.
-/

namespace NSOS.Vfs

open Basis Prog

section Ramdisk

/-- No mount uses a file system that a client allocated. -/
structure FreshFs (st : State) (fs : ℕ) : Prop where
  lt : fs < st.fsTypes.size
  live : .fsType fs ∉ st.freed
  unused : ∀ m < st.mounts.size, (st.mount m).mntFs ≠ fs

instance {st : State} {fs : ℕ} : Decidable (FreshFs st fs) :=
  decidable_of_iff (fs < st.fsTypes.size ∧ .fsType fs ∉ st.freed ∧
      ∀ m < st.mounts.size, (st.mount m).mntFs ≠ fs)
    ⟨fun ⟨hlt, hlive, hunused⟩ => ⟨hlt, hlive, hunused⟩, fun h => ⟨h.lt, h.live, h.unused⟩⟩

theorem fresh_withRamdisk : FreshFs withRamdisk 3 := by decide +kernel

end Ramdisk

section Newest

variable {st st' : State} {t u fs d m : ℕ} {path : List Char} {x : Dentry} {nd : Nameidata}
  {dir : Bool} {f : Found} {o : Option ℕ}

theorem resolvePath_eq (h : Inv st) (ht : st.Running t) (hu : st.Running u) :
    resolvePath st u path dir = resolvePath st t path dir := by
  rw [resolvePath, start_eq h hu, resolvePath, start_eq h ht]

theorem Mounts.start_shadow (hi : Inv st) (ht : st.Running t)
    (hm : Mounts st st' t path fs d m x) (hd : st.parent d ≠ d) :
    start st' t path = shadow d st.dentries.size st.mounts.size (start st t path) ∧
      Seen st' (shadow d st.dentries.size st.mounts.size (start st t path)) := by
  have ht' : st'.Running t := (hm.rest.running t).mpr ht
  have hne : (start st t path).dentry ≠ d := by
    rw [start_eq hi ht]
    rintro rfl
    exact hd hi.wf.root_self
  have hstart : start st' t path =
      shadow d st.dentries.size st.mounts.size (start st t path) := by
    rw [shadow_of_ne hne, start_eq (hm.inv hi) ht', (hm.agree hi).rootDentry, start_eq hi ht]
  exact ⟨hstart, hstart ▸ seen_start (hm.inv hi) ht'⟩

theorem Mounts.dir_shadow (hi : Inv st) (ht : st.Running t) (hm : Mounts st st' t path fs d m x)
    (hd : st.parent d ≠ d) (hl : looksIn st d (partsOf path) (start st t path) = false) :
    resolvePath st' t path false = .hit ⟨st.dentries.size, some st.mounts.size⟩ := by
  obtain ⟨hstart, hs'⟩ := hm.start_shadow hi ht hd
  have hres := hm.resolves
  rw [resolvePath] at hres
  rw [resolvePath, hstart, hm.resolve_shadow hi hd (seen_start hi ht) hs' hl, hres, Found.map,
    shadow, if_pos rfl]

theorem Mounts.dir_looksIn (hi : Inv st) (ht : st.Running t) (hm : Mounts st st' t path fs d m x)
    (hd : st.parent d ≠ d) (hl : looksIn st d (partsOf path) (start st t path) = true)
    (nd : Nameidata) : resolvePath st' t path false ≠ .hit nd := by
  obtain ⟨hstart, hs'⟩ := hm.start_shadow hi ht hd
  rw [resolvePath, hstart]
  exact hm.resolve_looksIn hi hd (seen_start hi ht) hs' hl nd

theorem Mounts.root_same (hi : Inv st) (ht : st.Running t) (hm : Mounts st st' t path fs d m x)
    (hd : st.parent d = d) : resolvePath st' t path false = .hit ⟨d, some m⟩ := by
  rw [(hm.agree hi).resolvePath hi (fun c _ hc => fun he => hc (he ▸ hd)) ht, hm.resolves]

theorem Outcome.hit_of_lt (ho : Outcome st (some ((some d, nd), st')) f)
    (hd : d < st.dentries.size) : f = .hit nd := by
  rcases ho.some_cases with ⟨hf, -, -⟩ | ⟨nd', name, -, hnew, -, -⟩
  · exact hf
  · exact absurd hnew hd.ne

/-- `path_lookup` leads to the root of a mount that was not there before and is the newest one. -/
def SeesNewest (st st' : State) (t : ℕ) (path : List Char) : Prop :=
  ∃ m st'', st'.mntHead = some m ∧ st.mounts.size ≤ m ∧ run (pathLookup t path false) st' =
    some ((some (st'.mount m).mntRoot, ⟨(st'.mount m).mntRoot, some m⟩), st'')

/-- A path leads to a directory that is not the root of a mount, and looks up no name in it. -/
def LeadsBelow (st : State) (t : ℕ) (path : List Char) : Prop :=
  ∃ nd, resolvePath st t path false = .hit nd ∧ st.parent nd.dentry ≠ nd.dentry ∧
    looksIn st nd.dentry (partsOf path) (start st t path) = false

theorem Mounts.seesNewest_iff (hi : Inv st) (ht : st.Running t) (hu : st.Running u)
    (hm : Mounts st st' t path fs d m x) :
    SeesNewest st st' u path ↔
      resolvePath st' t path false = .hit ⟨st.dentries.size, some st.mounts.size⟩ := by
  have ht' : st'.Running t := (hm.rest.running t).mpr ht
  have hu' : st'.Running u := (hm.rest.running u).mpr hu
  have hrun := run_pathLookup path false (hm.inv hi) hu'
  rw [resolvePath_eq (hm.inv hi) ht' hu'] at hrun
  have hhead : st'.mntHead = some st.mounts.size := by
    rw [hm.namespace_eq]
    rfl
  have hroot : (st'.mount st.mounts.size).mntRoot = st.dentries.size := by rw [hm.mount_new]
  constructor
  · rintro ⟨m', st'', hm', -, hlook⟩
    obtain rfl : st.mounts.size = m' := Option.some.inj (hhead.symm.trans hm')
    rw [hlook, hroot] at hrun
    refine hrun.hit_of_lt ?_
    rw [hm.namespace_eq]
    exact Nat.lt_succ_self _
  · intro hres
    rw [hres] at hrun
    exact ⟨_, st', hhead, le_rfl, by rw [hroot]; exact hrun.1⟩

theorem Mounts.seesNewest_iff_leadsBelow (hi : Inv st) (ht : st.Running t) (hu : st.Running u)
    (hm : Mounts st st' t path fs d m x) :
    SeesNewest st st' u path ↔ LeadsBelow st t path := by
  have hlt := (hm.visible.inTree hi.wf).1
  rw [hm.seesNewest_iff hi ht hu]
  constructor
  · intro hnew
    refine ⟨_, hm.resolves, ?_, ?_⟩
    · intro hd
      rw [hm.root_same hi ht hd] at hnew
      exact hlt.ne (congrArg Nameidata.dentry (Found.hit.inj hnew))
    · by_contra hl
      rw [Bool.not_eq_false] at hl
      refine hm.dir_looksIn hi ht (fun hd => ?_) hl _ hnew
      rw [hm.root_same hi ht hd] at hnew
      exact hlt.ne (congrArg Nameidata.dentry (Found.hit.inj hnew))
  · rintro ⟨nd, hres, hd, hl⟩
    obtain rfl := Found.hit.inj (hm.resolves.symm.trans hres)
    exact hm.dir_shadow hi ht hd hl

/-- After a mount the path leads to its root, for every thread, exactly if the directory is not the
root of a mount and the path looks up no name in it. -/
theorem newest_mount_seen (st st' : State) (t u fs : ℕ) (path : List Char)
    (hreach : Reachable st) (ht : st.Running t) (hu : st.Running u)
    (hr : run (vfsMount t path fs) st = some (0, st')) :
    SeesNewest st st' u path ↔ LeadsBelow st t path := by
  have hi := hreach.inv
  rcases run_vfsMount hi ht hr with ⟨hret, -⟩ | ⟨-, d, m, x, hm, -⟩
  · exact absurd hret (by decide)
  · exact hm.seesNewest_iff_leadsBelow hi ht hu

/-- A mount on `/` is not seen: the path still leads to the root of the root mount. -/
theorem root_mount_hidden : ¬ ∀ (st st' : State) (t u fs : ℕ) (path : List Char),
    Reachable st → st.Running t → st.Running u → FreshFs st fs →
      run (vfsMount t path fs) st = some (0, st') → SeesNewest st st' u path := by
  intro hall
  have hrun : ((run (vfsMount 1 "/".toList 3) withRamdisk).bind fun r =>
      (run (pathLookup 1 "/".toList false) r.2).map fun q =>
        (r.1, r.2.mntHead.map fun m => (r.2.mount m).mntRoot, q.1.1)) =
          some (0, some 4, some 0) := by decide +kernel
  obtain ⟨⟨ret, st'⟩, hr, hrun⟩ := Option.bind_eq_some_iff.mp hrun
  obtain ⟨q, hlook, hq⟩ := Option.map_eq_some_iff.mp hrun
  simp only [Prod.mk.injEq] at hq
  obtain ⟨rfl, hhead, hzero⟩ := hq
  obtain ⟨m, st'', hm, -, hnewest⟩ := hall _ st' 1 1 3 _ reachable_withRamdisk running_withRamdisk
    running_withRamdisk fresh_withRamdisk hr
  rw [hm, Option.map_some] at hhead
  rw [hlook] at hnewest
  have hroot : (st'.mount m).mntRoot = 4 := Option.some.inj hhead
  rw [Option.some.inj hnewest, hroot] at hzero
  simp at hzero

/-- A mount on a directory below the root is seen. -/
theorem newest_mount_seen_run : ∃ st',
    run (vfsMount 1 "/a".toList 3) withRamdisk = some (0, st') ∧
      SeesNewest withRamdisk st' 1 "/a".toList := by
  have hret : (run (vfsMount 1 "/a".toList 3) withRamdisk).map Prod.fst = some 0 := by
    decide +kernel
  obtain ⟨⟨ret, st'⟩, hr, rfl⟩ := Option.map_eq_some_iff.mp hret
  have hbelow : LeadsBelow withRamdisk 1 "/a".toList := by
    refine ⟨⟨3, some 0⟩, ?_, ?_, ?_⟩
    · decide +kernel
    · decide +kernel
    · decide +kernel
  exact ⟨st', hr, (newest_mount_seen withRamdisk st' 1 1 3 _ reachable_withRamdisk
    running_withRamdisk running_withRamdisk hr).mpr hbelow⟩

end Newest

section Restored

variable {st st' st'' : State} {t u fs d m : ℕ} {path : List Char} {x : Dentry} {nd : Nameidata}
  {dir : Bool}

/-- What a lookup leads to. A dentry that it had to make is given by its directory and name. -/
inductive Spot where
  | old (nd : Nameidata)
  | new (dir : Nameidata) (name : List Char)
  deriving DecidableEq

/-- Where `path_lookup` leads: nowhere, to a spot, or to a halt of the machine. -/
def spot (st : State) (t : ℕ) (path : List Char) (dir : Bool) : Option (Option Spot) :=
  (run (pathLookup t path dir) st).map fun r => r.1.1.map fun d =>
    if d < st.dentries.size then .old ⟨d, r.1.2.mnt⟩
    else .new ⟨(r.2.dentry d).dParent, r.1.2.mnt⟩ (r.2.dentry d).dIname

/-- The listed mounts, the number of mounts on each dentry and all lookups are as before. -/
structure Restored (st st' : State) : Prop where
  mountList : st'.mountList = st.mountList
  mount : ∀ m ∈ st.mountList, st'.mount m = st.mount m
  dMounted : ∀ d < st.dentries.size, (st'.dentry d).dMounted = (st.dentry d).dMounted
  spot : ∀ t path dir, st.Running t → spot st' t path dir = spot st t path dir

def Found.spot : Found → Option (Option Spot)
  | .hit nd => some (some (.old nd))
  | .made nd name => some (some (.new nd name))
  | .absent => some none
  | .stuck => none

theorem spot_eq (hi : Inv st) (ht : st.Running t) :
    spot st t path dir = (resolvePath st t path dir).spot := by
  have hrun := run_pathLookup path dir hi ht
  rw [spot]
  cases hf : resolvePath st t path dir with
  | hit nd =>
    rw [hf] at hrun
    obtain ⟨heq, hs⟩ := hrun
    rw [heq]
    simp only [Option.map_some, if_pos (hs.lt hi), Found.spot]
  | made nd name =>
    rw [hf] at hrun
    obtain ⟨st₁, heq, hmade, -⟩ := hrun
    rw [heq]
    simp only [Option.map_some, lt_irrefl, if_false, hmade.parent, hmade.iname, Found.spot]
  | absent =>
    rw [hf] at hrun
    obtain ⟨nd, st₁, heq, -⟩ := hrun
    rw [heq]
    rfl
  | stuck =>
    rw [hf] at hrun
    have heq : run (pathLookup t path dir) st = none := hrun
    rw [heq]
    rfl

theorem dropMount_addMount (ns : Namespace) {v : Vfsmount} (hn : v.mntNext = ns.mntHead) :
    (ns.addMount v).dropMount ns.mounts.size =
      { ns with mounts := ns.mounts.grow.set ns.mounts.size fun _ => v } := by
  have hv : (ns.addMount v).mount ns.mounts.size = v := Namespace.mount_addMount_size
  have hhead : ((ns.addMount v).uncount v.mntMountpoint).mntHead = some ns.mounts.size := rfl
  have hv' : ((ns.addMount v).uncount v.mntMountpoint).mount ns.mounts.size = v := hv
  have hdentries : ((ns.addMount v).uncount v.mntMountpoint).dentries = ns.dentries := by
    change ((ns.dentries.set v.mntMountpoint fun x => { x with dMounted := x.dMounted + 1 }).set
      v.mntMountpoint fun x => { x with dMounted := x.dMounted - 1 }) = ns.dentries
    rw [Pool.set_set]
    refine Pool.set_id _ _ _ ?_
    simp only [Int.add_sub_cancel]
  rw [Namespace.dropMount, hv, Namespace.unlist, if_pos hhead, hv', hdentries, hn]
  rfl

theorem Mounts.unmounts_namespace (hm : Mounts st st' t path fs d m x)
    (hu : Unmounts st' st'' u path nd st.mounts.size) :
    st''.toNamespace = { st.toNamespace.born x with
      mounts := st.mounts.grow.set st.mounts.size fun _ =>
        ⟨st.dentries.size, d, some m, st.mntHead, fs⟩ } := by
  rw [hu.state_eq]
  change st'.toNamespace.dropMount st.mounts.size = _
  rw [hm.namespace_eq]
  exact dropMount_addMount (st.toNamespace.born x) rfl

theorem Mounts.unmounts_mountList (hi : Inv st) (hm : Mounts st st' t path fs d m x)
    (hu : Unmounts st' st'' u path nd st.mounts.size) : st''.mountList = st.mountList := by
  obtain ⟨hl, hlt⟩ := hi.wf.chain_mountList
  rw [hm.unmounts_namespace hu]
  refine Chain.links_eq (hl.congr fun m' hm' => ?_) ?_
  · rw [Namespace.mount, Pool.obj_set_of_ne _ _ _ _ (hlt m' hm').ne]
    rfl
  · exact hi.wf.length_mountList.trans (Nat.lt_succ_self _)

theorem Mounts.unmounts_agree (hi : Inv st) (hm : Mounts st st' t path fs d m x)
    (hu : Unmounts st' st'' u path nd st.mounts.size) : Agree (fun _ => True) st st'' := by
  have hns := hm.unmounts_namespace hu
  have hdentry : ∀ {e}, e < st.dentries.size → st''.dentry e = st.dentry e := fun he => by
    rw [hns]
    exact Namespace.dentry_born_of_lt he
  have hmount : ∀ {m'}, m' < st.mounts.size → st''.mount m' = st.mount m' := fun hlt => by
    rw [hns, Namespace.mount, Pool.obj_set_of_ne _ _ _ _ hlt.ne]
    rfl
  have hstate := hu.state_eq
  constructor
  case dentry => exact fun he => ⟨_, hdentry he⟩
  case entries =>
    intro e he
    rw [hns]
    exact Namespace.entries_born hi.wf he
  case covered =>
    intro e he _
    rw [Namespace.covered, hdentry he, Namespace.covered]
  case topMount =>
    intro e _ _
    rw [Namespace.topMount, hm.unmounts_mountList hi hu, Namespace.topMount]
    refine List.find?_congr fun m' hm' => ?_
    rw [hmount (hi.wf.chain_mountList.2 m' hm')]
  case mount => exact hmount
  case rootDentry => rw [hns]; rfl
  case iOp =>
    intro i hlt
    rw [hstate]
    exact hm.rest.iOp hlt
  case places =>
    rw [hstate]
    exact hm.rest.places
  case threadPool =>
    rw [hstate]
    exact hm.rest.threadPool

theorem Mounts.restored (hi : Inv st) (hm : Mounts st st' t path fs d m x)
    (hu : Unmounts st' st'' u path nd st.mounts.size) : Restored st st'' := by
  have ha := hm.unmounts_agree hi hu
  refine ⟨hm.unmounts_mountList hi hu, ?_, ?_, ?_⟩
  · exact fun m' hm' => ha.mount (hi.wf.chain_mountList.2 m' hm')
  · intro e he
    rw [hm.unmounts_namespace hu]
    exact congrArg Dentry.dMounted (Namespace.dentry_born_of_lt he)
  · intro v p b hv
    have hv' : st''.Running v := by
      rw [State.Running, ha.threadPool]
      exact hv
    rw [spot_eq (hu.inv (hm.inv hi)) hv', spot_eq hi hv,
      ha.resolvePath hi (fun _ _ _ => trivial) hv]

/-- A path leads to a directory that is not the root of a mount. -/
def LeadsInside (st : State) (t : ℕ) (path : List Char) : Prop :=
  ∃ nd, resolvePath st t path false = .hit nd ∧ st.parent nd.dentry ≠ nd.dentry

/-- The mount that is dropped is the new one exactly if its directory is not a root. -/
theorem Mounts.unmounts_new_iff (hi : Inv st) (ht : st.Running t)
    (hm : Mounts st st' t path fs d m x) {m' : ℕ} (hu : Unmounts st' st'' t path nd m') :
    m' = st.mounts.size ↔ st.parent d ≠ d := by
  have hlt := (hm.visible.inTree hi.wf).1
  have hfound := hu.found
  rw [hm.mountList hi, List.find?_cons, hm.mount_new] at hfound
  constructor
  · rintro rfl hd
    have hnd := Found.hit.inj ((hm.root_same hi ht hd).symm.trans hu.resolves)
    rw [← hnd] at hfound
    simp only [decide_eq_false hlt.ne'] at hfound
    exact lt_irrefl _ (hi.wf.chain_mountList.2 _ (List.mem_of_find?_eq_some hfound))
  · intro hd
    cases hl : looksIn st d (partsOf path) (start st t path) with
    | true => exact absurd hu.resolves (hm.dir_looksIn hi ht hd hl nd)
    | false =>
      have hnd := Found.hit.inj ((hm.dir_shadow hi ht hd hl).symm.trans hu.resolves)
      rw [← hnd] at hfound
      simp only [decide_true] at hfound
      exact (Option.some.inj hfound).symm

/-- If another mount is dropped, the new one stays in the list. -/
theorem Mounts.not_restored (hi : Inv st) (hm : Mounts st st' t path fs d m x) {m' : ℕ}
    (hu : Unmounts st' st'' t path nd m') (hne : m' ≠ st.mounts.size) : ¬ Restored st st'' := by
  intro hr
  have hlist : st''.mountList = (st.mounts.size :: st.mountList).erase m' := by
    rw [← hm.mountList hi, hu.state_eq]
    exact Namespace.mountList_dropMount (hm.inv hi).wf hu.mem
  have hmem : st.mounts.size ∈ st''.mountList := by
    rw [hlist]
    exact (List.mem_erase_of_ne hne.symm).mpr List.mem_cons_self
  rw [hr.mountList] at hmem
  exact lt_irrefl _ (hi.wf.chain_mountList.2 _ hmem)

/-- Mounting and unmounting a path restores everything exactly if the directory is not the root of
a mount. -/
theorem mount_unmount_restores (st st' st'' : State) (t u fs : ℕ) (path : List Char)
    (hreach : Reachable st) (ht : st.Running t) (hu : st.Running u)
    (hmount : run (vfsMount t path fs) st = some (0, st'))
    (hunmount : run (vfsUnmount u path) st' = some (0, st'')) :
    Restored st st'' ↔ LeadsInside st t path := by
  have hi := hreach.inv
  rcases run_vfsMount hi ht hmount with ⟨hret, -⟩ | ⟨-, d, m, x, hm, -⟩
  · exact absurd hret (by decide)
  have ht' : st'.Running t := (hm.rest.running t).mpr ht
  have hu' : st'.Running u := (hm.rest.running u).mpr hu
  rcases run_vfsUnmount (hm.inv hi) hu' hunmount with ⟨hret, -⟩ | ⟨-, nd, m', hdrop⟩
  · exact absurd hret (by decide)
  have hdrop : Unmounts st' st'' t path nd m' :=
    ⟨(resolvePath_eq (hm.inv hi) hu' ht').trans hdrop.resolves, hdrop.found, hdrop.state_eq⟩
  have hinside : LeadsInside st t path ↔ st.parent d ≠ d := by
    constructor
    · rintro ⟨nd', hres, hd⟩
      obtain rfl := Found.hit.inj (hm.resolves.symm.trans hres)
      exact hd
    · exact fun hd => ⟨_, hm.resolves, hd⟩
  rw [hinside, ← hm.unmounts_new_iff hi ht hdrop]
  constructor
  · intro hr
    by_contra hne
    exact hm.not_restored hi hdrop hne hr
  · rintro rfl
    exact hm.restored hi hdrop

/-- With a mount on `/a`, mounting another file system on `/a` and unmounting `/a` drops the first
of them. -/
theorem older_mount_dropped : ¬ ∀ (st st' st'' : State) (t u fs : ℕ) (path : List Char),
    Reachable st → st.Running t → st.Running u → FreshFs st fs →
      run (vfsMount t path fs) st = some (0, st') →
        run (vfsUnmount u path) st' = some (0, st'') → Restored st st'' := by
  intro hall
  have hruns : ((replay exec withRamdisk [.call 1 (.mount "/a".toList 3),
      .newFs { kvfsObj with dev := "ramdisk2".toList }]).any fun st =>
        (run (vfsMount 1 "/a".toList 4) st).any fun r =>
          (run (vfsUnmount 1 "/a".toList) r.2).any fun q => st.Running 1 ∧ FreshFs st 4 ∧
            r.1 = 0 ∧ q.1 = 0 ∧ st.mountList = [1, 0] ∧ q.2.mountList = [2, 0]) = true := by
    decide +kernel
  simp only [Option.any_eq_true] at hruns
  obtain ⟨st, hst, ⟨ret, st'⟩, hmount, ⟨ret', st''⟩, hunmount, hstate⟩ := hruns
  obtain ⟨hrun, hfresh, rfl, rfl, hold, hnew⟩ := of_decide_eq_true hstate
  have hr := hall st st' st'' 1 1 4 _ (reachable_withRamdisk.replayed hst) hrun hrun hfresh
    hmount hunmount
  rw [hr.mountList, hold] at hnew
  exact absurd hnew (by decide)

/-- A mount on a directory below the root is undone. -/
theorem mount_unmount_restores_run : ∃ st' st'',
    run (vfsMount 1 "/a".toList 3) withRamdisk = some (0, st') ∧
      run (vfsUnmount 1 "/a".toList) st' = some (0, st'') ∧ Restored withRamdisk st'' := by
  have hrets : ((run (vfsMount 1 "/a".toList 3) withRamdisk).bind fun r =>
      (run (vfsUnmount 1 "/a".toList) r.2).map fun q => (r.1, q.1)) = some (0, 0) := by
    decide +kernel
  obtain ⟨⟨ret, st'⟩, hmount, hrets⟩ := Option.bind_eq_some_iff.mp hrets
  obtain ⟨⟨ret', st''⟩, hunmount, hq⟩ := Option.map_eq_some_iff.mp hrets
  simp only [Prod.mk.injEq] at hq
  obtain ⟨rfl, rfl⟩ := hq
  have hinside : LeadsInside withRamdisk 1 "/a".toList := by
    refine ⟨⟨3, some 0⟩, ?_, ?_⟩
    · decide +kernel
    · decide +kernel
  exact ⟨st', st'', hmount, hunmount, (mount_unmount_restores withRamdisk st' st'' 1 1 3 _
    reachable_withRamdisk running_withRamdisk running_withRamdisk hmount hunmount).mpr hinside⟩

end Restored

end NSOS.Vfs
