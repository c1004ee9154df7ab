import NSOS.Vfs.Namespace

/-! # Changes of the trees

What the file system does to the namespace: it makes a dentry, links it below
its parent, adds a mount and drops one. Each change keeps the trees in order.
-/

namespace NSOS.Vfs

open Basis

namespace Namespace

section Changes

variable (ns : Namespace)

def born (x : Dentry) : Namespace :=
  { ns with dentries := ns.dentries.grow.set ns.dentries.size fun _ => x }

def link (e c : ℕ) : Namespace :=
  { ns with
    dentries := (ns.dentries.set c fun x => { x with dChild := (ns.dentry e).dSubdirs }).set e
      fun x => { x with dSubdirs := some c } }

def addMount (v : Vfsmount) : Namespace :=
  { ns with
    mounts := ns.mounts.grow.set ns.mounts.size fun _ => v
    mntHead := some ns.mounts.size
    dentries := ns.dentries.set v.mntMountpoint fun x => { x with dMounted := x.dMounted + 1 } }

def unlist (m : ℕ) : Namespace :=
  if ns.mntHead = some m then { ns with mntHead := (ns.mount m).mntNext }
  else
    match ns.mountList.find? fun q => (ns.mount q).mntNext = some m with
    | none => ns
    | some q => { ns with
        mounts := ns.mounts.set q fun x => { x with mntNext := (ns.mount m).mntNext } }

def uncount (d : ℕ) : Namespace :=
  { ns with dentries := ns.dentries.set d fun x => { x with dMounted := x.dMounted - 1 } }

def dropMount (m : ℕ) : Namespace := (ns.uncount (ns.mount m).mntMountpoint).unlist m

end Changes

variable {ns : Namespace} {x : Dentry} {v : Vfsmount} {c d e m q r : ℕ}

section Dentries

theorem dentry_born : (ns.born x).dentry d = if d = ns.dentries.size then x else ns.dentry d := by
  rw [dentry, born, Pool.obj_set]
  rfl

@[simp] theorem size_born : (ns.born x).dentries.size = ns.dentries.size + 1 := rfl

theorem dentry_born_of_lt (hd : d < ns.dentries.size) : (ns.born x).dentry d = ns.dentry d := by
  rw [dentry_born, if_neg hd.ne]

@[simp] theorem dentry_born_size : (ns.born x).dentry ns.dentries.size = x := by
  rw [dentry_born, if_pos rfl]

theorem grown_born : Grown ns (ns.born x) where
  mounts := rfl
  mntHead := rfl
  rootDentry := rfl
  size_le := Nat.le_succ _
  old hd := ⟨_, _, dentry_born_of_lt hd⟩

theorem Wf.born (h : ns.Wf) (hp : x.dParent ≤ ns.dentries.size) (hs : x.dSubdirs = none)
    (hm : x.dMounted = 0) : (ns.born x).Wf := by
  refine h.grown grown_born ?_ ?_ ?_
  · intro d hd hlt
    obtain rfl : d = ns.dentries.size := by
      rw [size_born] at hlt
      omega
    rwa [parent, dentry_born_size]
  · intro d hd hlt
    obtain rfl : d = ns.dentries.size := by
      rw [size_born] at hlt
      omega
    rwa [dentry_born_size]
  · intro d hd
    by_cases hold : d < ns.dentries.size
    · obtain ⟨l, hl, hmem⟩ := h.subdirs hold
      rw [dentry_born_of_lt hold]
      refine ⟨l, hl.congr fun c hc => ?_, fun c hc => ?_⟩
      · rw [dentry_born_of_lt (hmem c hc).1]
      · obtain ⟨h₁, h₂, h₃⟩ := hmem c hc
        refine ⟨h₁.trans_le (Nat.le_succ _), ?_, h₃⟩
        rw [grown_born.parent h₁, h₂]
    · obtain rfl : d = ns.dentries.size := by
        rw [size_born] at hd
        omega
      refine ⟨[], ?_, by simp⟩
      rw [chain_nil, dentry_born_size, hs]

theorem dentry_link (hne : e ≠ c) : (ns.link e c).dentry d =
    if d = e then { ns.dentry e with dSubdirs := some c }
    else if d = c then { ns.dentry c with dChild := (ns.dentry e).dSubdirs } else ns.dentry d := by
  rw [dentry, link, Pool.obj_set]
  by_cases hd : d = e
  · rw [if_pos hd, if_pos hd, Pool.obj_set_of_ne _ _ _ _ hne]
    rfl
  · rw [if_neg hd, if_neg hd, Pool.obj_set]
    rfl

theorem grown_link (hne : e ≠ c) : Grown ns (ns.link e c) where
  mounts := rfl
  mntHead := rfl
  rootDentry := rfl
  size_le := le_rfl
  old {d} _ := by
    rw [dentry_link hne]
    split
    · subst d
      exact ⟨_, _, rfl⟩
    · split
      · subst d
        exact ⟨_, _, rfl⟩
      · exact ⟨_, _, rfl⟩

theorem dChild_link (hne : e ≠ c) : (fun d => ((ns.link e c).dentry d).dChild) =
    Function.update (fun d => (ns.dentry d).dChild) c (ns.dentry e).dSubdirs := by
  funext d
  rw [dentry_link hne]
  by_cases hd : d = c
  · subst d
    rw [if_neg hne.symm, if_pos rfl, Function.update_self]
  · rw [Function.update_of_ne hd, if_neg hd]
    split
    · subst d
      rfl
    · rfl

theorem chain_link (h : ns.Wf) (hp : ns.parent c = e) (hlt : e < c) (hnot : c ∉ ns.entries e)
    (hd : d < ns.dentries.size) :
    Chain (fun b => ((ns.link e c).dentry b).dChild) ((ns.link e c).dentry d).dSubdirs
      (if d = e then c :: ns.entries d else ns.entries d) := by
  obtain ⟨hl, hmem⟩ := h.chain_entries hd
  rw [dChild_link hlt.ne, dentry_link hlt.ne]
  by_cases hde : d = e
  · subst hde
    rw [if_pos rfl, if_pos rfl]
    exact hl.push hnot
  · have hsub : (if d = c then { ns.dentry c with dChild := (ns.dentry e).dSubdirs }
        else ns.dentry d).dSubdirs = (ns.dentry d).dSubdirs := by
      split
      · subst d
        rfl
      · rfl
    rw [if_neg hde, if_neg hde, hsub]
    refine hl.congr fun b hb => Function.update_of_ne ?_ ..
    rintro rfl
    exact hde ((hmem _ hb).2.1.symm.trans hp)

theorem Wf.link (h : ns.Wf) (hc : c < ns.dentries.size) (hp : ns.parent c = e) (hlt : e < c)
    (hnot : c ∉ ns.entries e) : (ns.link e c).Wf := by
  have hg : Grown ns (ns.link e c) := grown_link hlt.ne
  refine h.grown hg (fun hd hlt => absurd hlt (not_lt.mpr hd))
    (fun hd hlt => absurd hlt (not_lt.mpr hd)) fun {d} hd => ?_
  have hd : d < ns.dentries.size := hd
  refine ⟨_, chain_link h hp hlt hnot hd, fun b hb => ?_⟩
  have hb : b = c ∧ d = e ∨ b ∈ ns.entries d := by
    split at hb
    · exact (List.mem_cons.mp hb).imp_left fun hbc => ⟨hbc, ‹_›⟩
    · exact .inr hb
  rcases hb with ⟨rfl, rfl⟩ | hb
  · exact ⟨hc, (hg.parent hc).trans hp, hlt⟩
  · obtain ⟨h₁, h₂, h₃⟩ := (h.chain_entries hd).2 b hb
    exact ⟨h₁, (hg.parent h₁).trans h₂, h₃⟩

theorem entries_link (h : ns.Wf) (hc : c < ns.dentries.size) (hp : ns.parent c = e) (hlt : e < c)
    (hnot : c ∉ ns.entries e) (hd : d < ns.dentries.size) :
    (ns.link e c).entries d = if d = e then c :: ns.entries d else ns.entries d := by
  have hchain := chain_link h hp hlt hnot hd
  have hwf : (ns.link e c).Wf := h.link hc hp hlt hnot
  rw [← hchain.unique (hwf.chain_entries hd).1]

theorem entries_born (h : ns.Wf) (hd : d < ns.dentries.size) :
    (ns.born x).entries d = ns.entries d := by
  obtain ⟨hl, hmem⟩ := h.chain_entries hd
  rw [entries, dentry_born_of_lt hd]
  refine (hl.congr fun c hc => ?_).links_eq ?_
  · rw [dentry_born_of_lt (hmem c hc).1]
  · have := h.length_entries hd
    rw [size_born]
    omega

theorem notMem_entries_born (h : ns.Wf) (he : e < ns.dentries.size) :
    ns.dentries.size ∉ (ns.born x).entries e := by
  rw [entries_born h he]
  exact fun hmem => lt_irrefl _ ((h.chain_entries he).2 _ hmem).1

theorem Wf.born_link (h : ns.Wf) (he : e < ns.dentries.size) (hp : x.dParent = e)
    (hs : x.dSubdirs = none) (hm : x.dMounted = 0) :
    ((ns.born x).link e ns.dentries.size).Wf := by
  have hborn : (ns.born x).Wf := h.born (by omega) hs hm
  refine hborn.link (Nat.lt_succ_self _) ?_ he (notMem_entries_born h he)
  rw [parent, dentry_born_size, hp]

theorem entries_born_size (hs : x.dSubdirs = none) : (ns.born x).entries ns.dentries.size = [] := by
  rw [entries, dentry_born_size, hs]
  rfl

theorem entries_born_link (h : ns.Wf) (he : e < ns.dentries.size) (hp : x.dParent = e)
    (hs : x.dSubdirs = none) (hm : x.dMounted = 0) (hd : d < ns.dentries.size) :
    ((ns.born x).link e ns.dentries.size).entries d =
      if d = e then ns.dentries.size :: ns.entries d else ns.entries d := by
  have hborn : (ns.born x).Wf := h.born (by omega) hs hm
  have hpar : (ns.born x).parent ns.dentries.size = e := by rw [parent, dentry_born_size, hp]
  rw [entries_link hborn (Nat.lt_succ_self _) hpar he (notMem_entries_born h he)
    (hd.trans (Nat.lt_succ_self _)), entries_born h hd]

theorem entries_born_link_size (h : ns.Wf) (he : e < ns.dentries.size) (hp : x.dParent = e)
    (hs : x.dSubdirs = none) (hm : x.dMounted = 0) :
    ((ns.born x).link e ns.dentries.size).entries ns.dentries.size = [] := by
  have hborn : (ns.born x).Wf := h.born (by omega) hs hm
  have hpar : (ns.born x).parent ns.dentries.size = e := by rw [parent, dentry_born_size, hp]
  rw [entries_link hborn (Nat.lt_succ_self _) hpar he (notMem_entries_born h he)
    (Nat.lt_succ_self _), if_neg he.ne', entries_born_size hs]

end Dentries

section AddMount

theorem dentry_addMount : (ns.addMount v).dentry d =
    if d = v.mntMountpoint then { ns.dentry d with dMounted := (ns.dentry d).dMounted + 1 }
    else ns.dentry d := by
  rw [dentry, addMount, Pool.obj_set]
  split
  · subst d
    rfl
  · rfl

theorem mount_addMount : (ns.addMount v).mount m =
    if m = ns.mounts.size then v else ns.mount m := by
  rw [mount, addMount, Pool.obj_set]
  rfl

theorem mount_addMount_of_lt (hm : m < ns.mounts.size) :
    (ns.addMount v).mount m = ns.mount m := by
  rw [mount_addMount, if_neg hm.ne]

@[simp] theorem mount_addMount_size : (ns.addMount v).mount ns.mounts.size = v := by
  rw [mount_addMount, if_pos rfl]

@[simp] theorem parent_addMount : (ns.addMount v).parent = ns.parent := by
  funext d
  rw [parent, dentry_addMount, parent]
  split <;> rfl

theorem inTree_addMount : (ns.addMount v).InTree d r ↔ ns.InTree d r := by
  rw [InTree, parent_addMount, InTree]

@[simp] theorem entries_addMount : (ns.addMount v).entries d = ns.entries d := by
  have hchild : (fun c => ((ns.addMount v).dentry c).dChild) =
      fun c => (ns.dentry c).dChild := by
    funext c
    rw [dentry_addMount]
    split <;> rfl
  have hsub : ((ns.addMount v).dentry d).dSubdirs = (ns.dentry d).dSubdirs := by
    rw [dentry_addMount]
    split <;> rfl
  rw [entries, hchild, hsub]
  rfl

theorem chain_addMount (h : ns.Wf) (hn : v.mntNext = ns.mntHead) :
    Chain (fun m => ((ns.addMount v).mount m).mntNext) (some ns.mounts.size)
      (ns.mounts.size :: ns.mountList) := by
  obtain ⟨hl, hmem⟩ := h.chain_mountList
  refine ⟨rfl, ?_⟩
  beta_reduce
  rw [mount_addMount_size, hn]
  exact hl.congr fun m hm => by rw [mount_addMount_of_lt (hmem m hm)]

theorem mountList_addMount (h : ns.Wf) (hn : v.mntNext = ns.mntHead) :
    (ns.addMount v).mountList = ns.mounts.size :: ns.mountList :=
  (chain_addMount h hn).links_eq (Nat.succ_lt_succ h.length_mountList)

theorem mountsOn_addMount (h : ns.Wf) (hn : v.mntNext = ns.mntHead) :
    (ns.addMount v).mountsOn d = ns.mountsOn d + if d = v.mntMountpoint then 1 else 0 := by
  rw [mountsOn, mountList_addMount h hn, List.countP_cons, mount_addMount_size]
  congr 1
  · refine List.countP_congr fun m hm => ?_
    rw [mount_addMount_of_lt (h.chain_mountList.2 m hm)]
  · simp only [decide_eq_true_eq, @eq_comm _ d]

theorem Wf.addMount (h : ns.Wf) (hn : v.mntNext = ns.mntHead)
    (hroot : v.mntRoot < ns.dentries.size) (hself : ns.parent v.mntRoot = v.mntRoot)
    (hnew : ∀ m < ns.mounts.size, (ns.mount m).mntRoot ≠ v.mntRoot)
    (hpoint : v.mntMountpoint < ns.dentries.size) (hq : q < ns.mounts.size)
    (hpar : v.mntParent = some q) (htree : ns.InTree v.mntMountpoint (ns.mount q).mntRoot) :
    (ns.addMount v).Wf := by
  have hcases : ∀ {m}, m < (ns.addMount v).mounts.size → m = ns.mounts.size ∨
      m < ns.mounts.size := fun {m} hm => by
    have hm : m < ns.mounts.size + 1 := hm
    omega
  refine ⟨h.root_lt, ?_, ?_, Nat.succ_pos _, ?_, ?_, ?_, ?_, ?_, ?_, ?_, ?_⟩
  · intro d hd
    rw [parent_addMount]
    exact h.parent_le hd
  · intro d hd
    have hd : d < ns.dentries.size := hd
    obtain ⟨hl, hmem⟩ := h.chain_entries hd
    rw [parent_addMount]
    refine ⟨ns.entries d, ?_, hmem⟩
    have hsub : ((ns.addMount v).dentry d).dSubdirs = (ns.dentry d).dSubdirs := by
      rw [dentry_addMount]
      split <;> rfl
    rw [hsub]
    refine hl.congr fun c _ => ?_
    rw [dentry_addMount]
    split <;> rfl
  · rw [mount_addMount_of_lt h.zero_lt]
    exact h.root_mnt
  · refine ⟨_, chain_addMount h hn, fun m hm => ?_⟩
    rcases List.mem_cons.mp hm with rfl | hm
    · exact Nat.lt_succ_self _
    · exact (h.chain_mountList.2 m hm).trans (Nat.lt_succ_self _)
  · intro m hm
    rcases hcases hm with rfl | hm
    · rw [mount_addMount_size]
      exact hroot
    · rw [mount_addMount_of_lt hm]
      exact h.mntRoot_lt hm
  · intro m hm
    rw [parent_addMount]
    rcases hcases hm with rfl | hm
    · rw [mount_addMount_size]
      exact hself
    · rw [mount_addMount_of_lt hm]
      exact h.mntRoot_root hm
  · intro m m' hm hm' he
    rcases hcases hm with rfl | hm
    · rcases hcases hm' with rfl | hm'
      · rfl
      · rw [mount_addMount_size, mount_addMount_of_lt hm'] at he
        exact absurd he.symm (hnew m' hm')
    · rcases hcases hm' with rfl | hm'
      · rw [mount_addMount_size, mount_addMount_of_lt hm] at he
        exact absurd he (hnew m hm)
      · rw [mount_addMount_of_lt hm, mount_addMount_of_lt hm'] at he
        exact h.mntRoot_inj hm hm' he
  · intro m hm
    rcases hcases hm with rfl | hm
    · rw [mount_addMount_size]
      exact hpoint
    · rw [mount_addMount_of_lt hm]
      exact h.mountpoint_lt hm
  · intro m hm hm₀
    rcases hcases hm with rfl | hm
    · refine ⟨q, hq.trans (Nat.lt_succ_self _), ?_, ?_⟩
      · rw [mount_addMount_size, hpar]
      · rw [mount_addMount_size, mount_addMount_of_lt hq]
        exact inTree_addMount.mpr htree
    · obtain ⟨p, hp, hpar, ht⟩ := h.above hm hm₀
      refine ⟨p, hp.trans (Nat.lt_succ_self _), ?_, ?_⟩
      · rw [mount_addMount_of_lt hm, hpar]
      · rw [mount_addMount_of_lt hm, mount_addMount_of_lt hp]
        exact inTree_addMount.mpr ht
  · intro d hd
    have hcount := h.mounted (d := d) hd
    have hrd : (ns.addMount v).rootDentry = ns.rootDentry := rfl
    rw [mountsOn_addMount h hn, dentry_addMount, hrd]
    by_cases hd : d = v.mntMountpoint
    · rw [if_pos hd, if_pos hd]
      simp only
      omega
    · rw [if_neg hd, if_neg hd, Nat.add_zero]
      exact hcount

end AddMount

section DropMount

theorem dentry_uncount : (ns.uncount e).dentry d =
    if d = e then { ns.dentry d with dMounted := (ns.dentry d).dMounted - 1 }
    else ns.dentry d := by
  rw [dentry, uncount, Pool.obj_set]
  split
  · subst d
    rfl
  · rfl

theorem unlist_dentries : (ns.unlist m).dentries = ns.dentries ∧
    (ns.unlist m).rootDentry = ns.rootDentry ∧ (ns.unlist m).mounts.size = ns.mounts.size := by
  unfold unlist
  split
  · exact ⟨rfl, rfl, rfl⟩
  · split <;> exact ⟨rfl, rfl, rfl⟩

theorem mount_unlist : ∃ n, (ns.unlist m).mount q = { ns.mount q with mntNext := n } := by
  unfold unlist
  split
  · exact ⟨_, rfl⟩
  · split
    · exact ⟨_, rfl⟩
    · rw [mount, Pool.obj_set]
      split
      · subst q
        exact ⟨_, rfl⟩
      · exact ⟨_, rfl⟩

/-- The mounts that are still listed are the other ones, in the same order. -/
theorem chain_unlist (ns : Namespace) {l : List ℕ}
    (h : Chain (fun m => (ns.mount m).mntNext) ns.mntHead l) (hlist : ns.mountList = l)
    (hm : m ∈ l) :
    Chain (fun q => ((ns.unlist m).mount q).mntNext) (ns.unlist m).mntHead (l.erase m) := by
  obtain ⟨pre, post, rfl⟩ := List.append_of_mem hm
  rcases List.eq_nil_or_concat pre with rfl | ⟨pre, q, rfl⟩
  · obtain ⟨hhead, hpost⟩ := h
    rw [List.nil_append, List.erase_cons_head, unlist, if_pos hhead]
    exact hpost
  · rw [List.concat_eq_append, List.append_assoc, List.singleton_append] at h hlist ⊢
    rw [h.erase_behind, unlist, if_neg h.ne_head, hlist, h.find?_front]
    have hlinks := h.unlink
    refine hlinks.congr fun a _ => ?_
    simp only [mount, Pool.obj_set, Function.update_apply]
    split
    · rfl
    · rfl

theorem dentry_dropMount : (ns.dropMount m).dentry d =
    if d = (ns.mount m).mntMountpoint then
      { ns.dentry d with dMounted := (ns.dentry d).dMounted - 1 } else ns.dentry d := by
  rw [dentry, dropMount, unlist_dentries.1]
  exact dentry_uncount

theorem mount_dropMount (ns : Namespace) (m q : ℕ) :
    ∃ n, (ns.dropMount m).mount q = { ns.mount q with mntNext := n } :=
  mount_unlist

@[simp] theorem size_dropMount : (ns.dropMount m).dentries.size = ns.dentries.size := by
  rw [dropMount, unlist_dentries.1]
  rfl

@[simp] theorem mounts_size_dropMount : (ns.dropMount m).mounts.size = ns.mounts.size := by
  rw [dropMount, unlist_dentries.2.2]
  rfl

@[simp] theorem rootDentry_dropMount : (ns.dropMount m).rootDentry = ns.rootDentry := by
  rw [dropMount, unlist_dentries.2.1]
  rfl

@[simp] theorem parent_dropMount : (ns.dropMount m).parent = ns.parent := by
  funext d
  rw [parent, dentry_dropMount, parent]
  split <;> rfl

theorem inTree_dropMount : (ns.dropMount m).InTree d r ↔ ns.InTree d r := by
  rw [InTree, parent_dropMount, InTree]

theorem chain_dropMount (h : ns.Wf) (hm : m ∈ ns.mountList) :
    Chain (fun q => ((ns.dropMount m).mount q).mntNext) (ns.dropMount m).mntHead
      (ns.mountList.erase m) :=
  chain_unlist (ns.uncount _) h.chain_mountList.1 rfl hm

theorem mountList_dropMount (h : ns.Wf) (hm : m ∈ ns.mountList) :
    (ns.dropMount m).mountList = ns.mountList.erase m := by
  refine (chain_dropMount h hm).links_eq ?_
  have := h.length_mountList
  have := List.length_erase_le (l := ns.mountList) (a := m)
  rw [mounts_size_dropMount]
  omega

theorem mountsOn_dropMount (h : ns.Wf) (hm : m ∈ ns.mountList) :
    (ns.dropMount m).mountsOn d + (if d = (ns.mount m).mntMountpoint then 1 else 0) =
      ns.mountsOn d := by
  have hperm := (List.perm_cons_erase hm).countP_eq
    (fun m => decide ((ns.mount m).mntMountpoint = d))
  rw [mountsOn, mountList_dropMount h hm, mountsOn, hperm, List.countP_cons]
  congr 1
  · refine List.countP_congr fun q _ => ?_
    obtain ⟨n, hn⟩ := mount_dropMount ns m q
    rw [hn]
  · simp only [decide_eq_true_eq, @eq_comm _ d]

theorem Wf.dropMount (h : ns.Wf) (hm : m ∈ ns.mountList) : (ns.dropMount m).Wf := by
  have hroot : ∀ q, ((ns.dropMount m).mount q).mntRoot = (ns.mount q).mntRoot := fun q => by
    obtain ⟨n, hn⟩ := mount_dropMount ns m q
    rw [hn]
  have hpoint : ∀ q, ((ns.dropMount m).mount q).mntMountpoint = (ns.mount q).mntMountpoint :=
    fun q => by
      obtain ⟨n, hn⟩ := mount_dropMount ns m q
      rw [hn]
  have hpar : ∀ q, ((ns.dropMount m).mount q).mntParent = (ns.mount q).mntParent := fun q => by
    obtain ⟨n, hn⟩ := mount_dropMount ns m q
    rw [hn]
  constructor
  case root_lt => simpa using h.root_lt
  case parent_le =>
    intro d hd
    rw [parent_dropMount]
    exact h.parent_le (by simpa using hd)
  case subdirs =>
    intro d hd
    rw [size_dropMount] at hd ⊢
    obtain ⟨l, hl, hmem⟩ := h.subdirs hd
    rw [parent_dropMount]
    refine ⟨l, ?_, hmem⟩
    have hsub : ((ns.dropMount m).dentry d).dSubdirs = (ns.dentry d).dSubdirs := by
      rw [dentry_dropMount]
      split <;> rfl
    rw [hsub]
    refine hl.congr fun c _ => ?_
    rw [dentry_dropMount]
    split <;> rfl
  case zero_lt => simpa using h.zero_lt
  case root_mnt => rw [hroot, h.root_mnt, rootDentry_dropMount]
  case listed =>
    refine ⟨_, chain_dropMount h hm, fun q hq => ?_⟩
    rw [mounts_size_dropMount]
    exact h.chain_mountList.2 q (List.mem_of_mem_erase hq)
  case mntRoot_lt =>
    intro q hq
    rw [hroot, size_dropMount]
    exact h.mntRoot_lt (by simpa using hq)
  case mntRoot_root =>
    intro q hq
    rw [hroot, parent_dropMount]
    exact h.mntRoot_root (by simpa using hq)
  case mntRoot_inj =>
    intro q q' hq hq' he
    rw [hroot, hroot] at he
    exact h.mntRoot_inj (by simpa using hq) (by simpa using hq') he
  case mountpoint_lt =>
    intro q hq
    rw [hpoint, size_dropMount]
    exact h.mountpoint_lt (by simpa using hq)
  case above =>
    intro q hq hq₀
    rw [mounts_size_dropMount] at hq ⊢
    obtain ⟨p, hp, hparent, ht⟩ := h.above hq hq₀
    refine ⟨p, hp, ?_, ?_⟩
    · rw [hpar, hparent]
    · rw [hpoint, hroot]
      exact inTree_dropMount.mpr ht
  case mounted =>
    intro d hd
    have hcount := h.mounted (d := d) (by simpa using hd)
    have hon := mountsOn_dropMount (d := d) h hm
    rw [dentry_dropMount, rootDentry_dropMount]
    split at hon
    · rw [if_pos ‹_›]
      simp only
      omega
    · rw [if_neg ‹_›]
      omega

end DropMount

end Namespace

end NSOS.Vfs
