import NSOS.Vfs.History

/-! # The mount table

The table stays well formed as long as no mount is dropped that is the root
mount, that another mount lies on, or whose file system another mount uses.
Nothing in `vfs_unmount` checks for that: unmounting `/` empties the table.
-/

namespace NSOS.Vfs

open Basis Prog

section Table

variable {st st' : State} {t fs d m : ℕ} {path : List Char} {nd : Nameidata} {x : Dentry}
  {op : Op}

def MountTable (st : State) : Prop :=
  ∃ l, Chain (fun m => (st.mount m).mntNext) st.mntHead l ∧ 0 ∈ l ∧
    ∀ m ∈ l, m ≠ 0 → (∃ p ∈ l, (st.mount m).mntParent = some p ∧
      st.InTree (st.mount m).mntMountpoint (st.mount p).mntRoot) ∧
        .fsType (st.mount m).mntFs ∉ st.freed

/-- What the table needs beyond the invariant. -/
structure Rooted (st : State) : Prop where
  root : 0 ∈ st.mountList
  parent : ∀ m ∈ st.mountList, m ≠ 0 → ∃ p ∈ st.mountList, (st.mount m).mntParent = some p
  live : ∀ m ∈ st.mountList, m ≠ 0 → .fsType (st.mount m).mntFs ∉ st.freed

theorem Rooted.mountTable (h : Inv st) (hr : Rooted st) : MountTable st := by
  obtain ⟨hl, hlt⟩ := h.wf.chain_mountList
  refine ⟨st.mountList, hl, hr.root, fun m hm hm₀ => ⟨?_, hr.live m hm hm₀⟩⟩
  obtain ⟨p, hp, hpar⟩ := hr.parent m hm hm₀
  obtain ⟨q, -, hq, htree⟩ := h.wf.above (hlt m hm) hm₀
  obtain rfl : p = q := Option.some.inj (hpar.symm.trans hq)
  exact ⟨p, hp, hpar, htree⟩

theorem Rooted.congr (h : Rooted st) (hlist : st'.mountList = st.mountList)
    (hmount : ∀ m, st'.mount m = st.mount m)
    (hfreed : ∀ f, .fsType f ∈ st'.freed ↔ .fsType f ∈ st.freed) : Rooted st' := by
  constructor
  case root => rw [hlist]; exact h.root
  case parent =>
    intro m hm hm₀
    rw [hlist] at hm ⊢
    rw [hmount]
    exact h.parent m hm hm₀
  case live =>
    intro m hm hm₀
    rw [hlist] at hm
    rw [hmount, hfreed]
    exact h.live m hm hm₀

theorem Rooted.evolves (h : Rooted st) (hev : Evolves st st') : Rooted st' :=
  h.congr hev.grown.mountList (fun _ => hev.grown.mount) hev.rest.freed

theorem Mounts.mountList (h : Inv st) (hm : Mounts st st' t path fs d m x) :
    st'.mountList = st.mounts.size :: st.mountList := by
  have hborn : (st.toNamespace.born x).Wf :=
    h.wf.born hm.root.parent.le hm.root.subdirs hm.root.mounted
  rw [hm.namespace_eq]
  exact Namespace.mountList_addMount hborn rfl

theorem Rooted.mounts (hi : Inv st) (h : Rooted st) (hm : Mounts st st' t path fs d m x)
    (hfs : .fsType fs ∉ st.freed) : Rooted st' := by
  have hlt := hi.wf.chain_mountList.2
  constructor
  case root =>
    rw [hm.mountList hi]
    exact List.mem_cons_of_mem _ h.root
  case parent =>
    intro m' hm' hm₀
    rw [hm.mountList hi] at hm' ⊢
    rcases List.mem_cons.mp hm' with rfl | hm'
    · rw [hm.mount_new]
      exact ⟨m, List.mem_cons_of_mem _ (hm.visible.mem_mountList h.root), rfl⟩
    · obtain ⟨p, hp, hpar⟩ := h.parent m' hm' hm₀
      rw [hm.mount_of_lt (hlt m' hm')]
      exact ⟨p, List.mem_cons_of_mem _ hp, hpar⟩
  case live =>
    intro m' hm' hm₀
    rw [hm.mountList hi] at hm'
    rw [hm.rest.freed]
    rcases List.mem_cons.mp hm' with rfl | hm'
    · rw [hm.mount_new]
      exact hfs
    · rw [hm.mount_of_lt (hlt m' hm')]
      exact h.live m' hm' hm₀

/-- The mount that `vfs_unmount` would drop. -/
def dropped (st : State) (t : ℕ) (path : List Char) : Option ℕ :=
  match resolvePath st t path false with
  | .hit nd => st.mountList.find? fun m => (st.mount m).mntRoot = nd.dentry
  | _ => none

/-- No other listed mount depends on a mount, which is not the root mount. -/
structure Unused (st : State) (m : ℕ) : Prop where
  ne_root : m ≠ 0
  not_parent : ∀ m' ∈ st.mountList, (st.mount m').mntParent ≠ some m
  own_fs : ∀ m' ∈ st.mountList, m' ≠ 0 → m' ≠ m → (st.mount m').mntFs ≠ (st.mount m).mntFs

theorem Rooted.unmounts (hi : Inv st) (h : Rooted st) (hu : Unmounts st st' t path nd m)
    (hm : Unused st m) : Rooted st' := by
  have hlist : st'.mountList = st.mountList.erase m := by
    rw [hu.state_eq]
    exact Namespace.mountList_dropMount hi.wf hu.mem
  have hnodup := hi.wf.chain_mountList.1.nodup
  have hmount : ∀ m', ∃ n, st'.mount m' = { st.mount m' with mntNext := n } := fun m' => by
    rw [hu.state_eq]
    exact Namespace.mount_dropMount _ _ _
  constructor
  case root =>
    rw [hlist]
    exact (List.mem_erase_of_ne hm.ne_root.symm).mpr h.root
  case parent =>
    intro m' hm' hm₀
    rw [hlist] at hm' ⊢
    have hmem := List.mem_of_mem_erase hm'
    obtain ⟨p, hp, hpar⟩ := h.parent m' hmem hm₀
    obtain ⟨n, hn⟩ := hmount m'
    refine ⟨p, (List.mem_erase_of_ne ?_).mpr hp, ?_⟩
    · rintro rfl
      exact hm.not_parent m' hmem hpar
    · rw [hn, hpar]
  case live =>
    intro m' hm' hm₀
    rw [hlist] at hm'
    obtain ⟨hne, hmem⟩ := hnodup.mem_erase_iff.mp hm'
    obtain ⟨n, hn⟩ := hmount m'
    rw [hn, hu.state_eq]
    have hold := h.live m' hmem hm₀
    have hown := hm.own_fs m' hmem hm₀ hne
    simp only [List.mem_cons, reduceCtorEq, Obj.fsType.injEq, false_or, not_or]
    exact ⟨hown, hold⟩

end Table

section Runs

variable {st st' : State} {t : ℕ} {c : Call} {op : Op} {ret : Reply}

/-- A call of `vfs_unmount` drops only what nothing else depends on, and one of `vfs_mount` is
given a file system that has not been freed. -/
def Careful (st : State) : Op → Prop
  | .call t (.unmount path) => ∀ m ∈ dropped st t path, Unused st m
  | .call _ (.mount _ fs) => .fsType fs ∉ st.freed
  | _ => True

instance {m : ℕ} : Decidable (Unused st m) :=
  decidable_of_iff (m ≠ 0 ∧ (∀ m' ∈ st.mountList, (st.mount m').mntParent ≠ some m) ∧
      ∀ m' ∈ st.mountList, m' ≠ 0 → m' ≠ m → (st.mount m').mntFs ≠ (st.mount m).mntFs)
    ⟨fun ⟨h₁, h₂, h₃⟩ => ⟨h₁, h₂, h₃⟩, fun ⟨h₁, h₂, h₃⟩ => ⟨h₁, h₂, h₃⟩⟩

instance : Decidable (Careful st op) :=
  match op with
  | .call _ (.unmount _) => inferInstanceAs (Decidable (∀ _ ∈ _, _))
  | .call _ (.mount _ _) => inferInstanceAs (Decidable (_ ∉ _))
  | .call _ (.access _ _) => .isTrue trivial
  | .call _ (.open _ _) => .isTrue trivial
  | .call _ (.read _ _) => .isTrue trivial
  | .call _ (.write _ _) => .isTrue trivial
  | .call _ (.lseek _ _ _) => .isTrue trivial
  | .call _ (.mkdir _ _) => .isTrue trivial
  | .close _ _ => .isTrue trivial
  | .create _ => .isTrue trivial
  | .teardown _ _ => .isTrue trivial
  | .newFs _ => .isTrue trivial
  | .world _ _ => .isTrue trivial

theorem rooted_started (h : Started st) : Rooted st := by
  obtain ⟨st₀, st₁, hb, hr, rfl⟩ := h
  obtain ⟨x, j, st₂, -, -, hst⟩ := started_namespace hb hr
  have hns := congrArg State.toNamespace hst
  have hsize : st₁.mounts.size = 1 := by
    rw [hns]
    exact hb.mounts
  have hzero : st₁.mount 0 = ⟨0, 0, none, none, 0⟩ := by
    rw [hns]
    simp [Namespace.mount]
  have hhead : st₁.mntHead = some 0 := by rw [hns]
  have hlist : (osRun st₁).mountList = [0] := by
    have hchain : Chain (fun m => (st₁.mount m).mntNext) st₁.mntHead [0] :=
      ⟨hhead, congrArg Vfsmount.mntNext hzero⟩
    refine hchain.links_eq ?_
    change 1 < st₁.mounts.size + 1
    omega
  constructor
  case root => simp [hlist]
  case parent => simp [hlist]
  case live => simp [hlist]

theorem rooted_exec (hi : Inv st) (h : Rooted st) (hc : Careful st op)
    (hs : exec st op = some st') : Rooted st' := by
  cases reshapes_of_exec hi hs with
  | grown hev => exact h.evolves hev
  | mounted hm => exact h.mounts hi hm hc
  | unmounted hu =>
    refine h.unmounts hi hu (hc _ ?_)
    rw [dropped, hu.resolves]
    exact hu.found
  | kept hns hfreed =>
    apply h.congr
    · rw [Namespace.mountList, hns, Namespace.mountList]
    · rw [hns]
      exact fun _ => rfl
    · rw [hfreed]
      exact fun _ => Iff.rfl

theorem rooted_of_reach (hr : Reach st Careful) : Rooted st := by
  obtain ⟨st₀, h₀, hr⟩ := hr
  have hboth : Inv st ∧ Rooted st :=
    hr.invariant (I := fun st => Inv st ∧ Rooted st) ⟨inv_started h₀, rooted_started h₀⟩
      fun h hc hs => ⟨inv_exec h.1 hs, rooted_exec h.1 h.2 hc hs⟩
  exact hboth.2

/-- The mount table is well formed in every state of every careful history. -/
theorem mount_table_kept (st : State) (hr : Reach st Careful) : MountTable st :=
  (rooted_of_reach hr).mountTable hr.inv

/-- Unmounting `/` is a careless step: it leaves no mount in the list. -/
theorem root_unmounted : ¬ ∀ st, Reachable st → MountTable st := by
  intro hall
  have hhead : (replay exec initial [.call 1 (.unmount "/".toList)]).map
      (fun st => st.mntHead) = some none := by decide +kernel
  obtain ⟨st, hr, hnone⟩ := Option.map_eq_some_iff.mp hhead
  obtain ⟨l, hl, hmem, -⟩ := hall st (reachable_of_replay hr)
  cases l with
  | nil => cases hmem
  | cons m l =>
    rw [hnone] at hl
    cases hl.1

/-- A history with a mount inside another mount that is dropped again. -/
theorem mount_table_kept_run : ∃ st, st.mountList = [1, 0] ∧ MountTable st := by
  have hlist : (replay (fun st op => if Careful st op then exec st op else none) initial
      [.call 1 (.mkdir "/a".toList 0x755), .newFs { kvfsObj with dev := "ramdisk1".toList },
        .call 1 (.mount "/a".toList 3), .call 1 (.mkdir "/a/b".toList 0x755),
        .newFs { kvfsObj with dev := "ramdisk2".toList }, .call 1 (.mount "/a/b".toList 4),
        .call 1 (.open "/a/b/f".toList O_RDWR), .call 1 (.unmount "/a/b".toList)]).map
      (fun st => st.mountList) = some [1, 0] := by decide +kernel
  obtain ⟨st, hr, hst⟩ := Option.map_eq_some_iff.mp hlist
  refine ⟨st, hst, mount_table_kept st ⟨initial, started_initial, Run.of_replay ?_ hr⟩⟩
  intro st op st' hs
  split at hs
  · exact ⟨‹_›, hs⟩
  · cases hs

end Runs

end NSOS.Vfs
