import NSOS.Vfs.Storage
import NSOS.Vfs.Table

/-! # What the file system gives back

The objects that steps give back, and what must not be given back again: the
listed mounts and their file systems, the storage of files, and the open files
of descriptors. The ledger is kept as long as steps are thrifty.
-/

namespace NSOS.Vfs

open Basis Prog

section Heap

/-- The object is memory that `pmm->alloc` has returned. The root mount, the file systems `kvfs`,
`procfs` and `devfs`, and the names of roots are static, and block zero is the null pointer. -/
def Obj.OnHeap (st : State) : Obj → Prop
  | dentry d => d < st.dentries.size
  | iname d => d < st.dentries.size ∧ st.parent d ≠ d
  | inode i => i < st.inodes.size
  | vfsmount m => m ≠ 0 ∧ m < st.mounts.size
  | fsType f => 3 ≤ f ∧ f < st.fsTypes.size
  | file f => f < st.files.size
  | block b => b ≠ 0 ∧ b < st.blocks.size

/-- There are more objects, and the old dentries have the parents that they had. -/
structure Grew (st st' : State) : Prop where
  dentries : st.dentries.size ≤ st'.dentries.size
  parent : ∀ {d}, d < st.dentries.size → st'.parent d = st.parent d
  inodes : st.inodes.size ≤ st'.inodes.size
  mounts : st.mounts.size ≤ st'.mounts.size
  fsTypes : st.fsTypes.size ≤ st'.fsTypes.size
  files : st.files.size ≤ st'.files.size
  blocks : st.blocks.size ≤ st'.blocks.size

variable {st st' st'' : State} {t u f i m : ℕ} {o : Obj} {mode : UInt16} {op : Op} {T : List ℕ}

theorem Grew.refl : Grew st st := ⟨le_rfl, fun _ => rfl, le_rfl, le_rfl, le_rfl, le_rfl, le_rfl⟩

theorem Grew.trans (h : Grew st st') (h' : Grew st' st'') : Grew st st'' where
  dentries := h.dentries.trans h'.dentries
  parent hd := (h'.parent (hd.trans_le h.dentries)).trans (h.parent hd)
  inodes := h.inodes.trans h'.inodes
  mounts := h.mounts.trans h'.mounts
  fsTypes := h.fsTypes.trans h'.fsTypes
  files := h.files.trans h'.files
  blocks := h.blocks.trans h'.blocks

theorem Obj.OnHeap.mono (h : o.OnHeap st) (hg : Grew st st') : o.OnHeap st' := by
  cases o with
  | dentry d => exact h.trans_le hg.dentries
  | iname d => exact ⟨h.1.trans_le hg.dentries, (hg.parent h.1).symm ▸ h.2⟩
  | inode i => exact h.trans_le hg.inodes
  | vfsmount m => exact ⟨h.1, h.2.trans_le hg.mounts⟩
  | fsType f => exact ⟨h.1, h.2.trans_le hg.fsTypes⟩
  | file f => exact h.trans_le hg.files
  | block b => exact ⟨h.1, h.2.trans_le hg.blocks⟩

theorem Obj.Since.onHeap (h : o.Since st st') : o.OnHeap st' := by
  cases o with
  | dentry d => exact h.2
  | iname d => exact h.2
  | inode i => exact h.2
  | vfsmount m => exact h.elim
  | fsType f => exact h.elim
  | file f => exact h.elim
  | block b => exact h.elim

theorem Obj.Since.not_onHeap (h : o.Since st st') : ¬ o.OnHeap st := by
  cases o with
  | dentry d => exact not_lt.mpr h.1
  | iname d => exact fun ho => absurd ho.1 (not_lt.mpr h.1)
  | inode i => exact not_lt.mpr h.1
  | vfsmount m => exact h.elim
  | fsType f => exact h.elim
  | file f => exact h.elim
  | block b => exact h.elim

theorem Kept.grew (h : Kept t mode st st') : Grew st st' := by
  have hrest := h.rest
  refine ⟨h.grown.size_le, h.grown.parent, h.inodes_le, h.grown.mounts ▸ le_rfl, ?_, ?_, ?_⟩
  · rw [hrest]
  · rw [hrest]
  · rw [hrest]

theorem Effect.grew (he : Effect st op st') : Grew st st' := by
  cases he with
  | same => exact .refl
  | looked _ hk => exact hk.grew
  | opened _ _ hk _ _ hopen =>
    rcases hopen with ⟨-, -, rfl⟩ | ⟨i, -, -, -, rfl⟩
    · exact hk.grew.trans { Grew.refl with files := Nat.le_succ _ }
    · exact hk.grew.trans { Grew.refl with files := Nat.le_succ _ }
  | read => exact { Grew.refl with }
  | printed => exact { Grew.refl with }
  | @wrote t f fd z buf st' _ _ hr =>
    by_cases hw : (st.file f).fMode &&& O_WRONLY = 0
    · obtain ⟨-, rfl⟩ := run_inj hr (run_kvfsWrite_readonly hw)
      exact { Grew.refl with }
    · have hre := run_kvfsWrite_storage hw hr
      have hblocks := hre.blocks_le
      obtain ⟨B, K, F, size, pos, hst⟩ := hre.frame
      rw [hst] at hblocks ⊢
      exact { Grew.refl with blocks := hblocks }
  | sought _ hr =>
    rcases llseek_cases hr with rfl | ⟨pos, rfl⟩
    · exact .refl
    · exact { Grew.refl with }
  | mounted hm _ hroot hst =>
    have hns := hm.namespace_eq
    constructor
    case dentries =>
      rw [hns]
      exact Nat.le_succ _
    case parent =>
      intro d hd
      rw [hns, Namespace.parent_addMount]
      exact Namespace.grown_born.parent hd
    case inodes =>
      rw [hst, hroot.state_eq]
      exact Nat.le_succ _
    case mounts =>
      rw [hns]
      exact Nat.le_succ _
    case fsTypes =>
      rw [hst, hroot.state_eq]
      exact le_rfl
    case files =>
      rw [hst, hroot.state_eq]
      exact le_rfl
    case blocks =>
      rw [hst, hroot.state_eq]
      exact le_rfl
  | unmounted hu =>
    rw [hu.state_eq]
    refine ⟨?_, fun _ => ?_, le_rfl, ?_, le_rfl, le_rfl, le_rfl⟩
    · exact Namespace.size_dropMount.ge
    · rw [Namespace.parent_dropMount]
    · exact Namespace.mounts_size_dropMount.ge
  | closed => exact { Grew.refl with }
  | @created t =>
    rcases kmtCreate_cases st t with heq | ⟨i, -, heq⟩
    · rw [heq]
      exact .refl
    · rw [heq]
      exact { Grew.refl with }
  | tornDown => exact { Grew.refl with }
  | newFs => exact { Grew.refl with fsTypes := Nat.le_succ _ }
  | world => exact { Grew.refl with }

end Heap

section Frees

variable {st st' : State} {t u f i k m : ℕ} {o : Obj} {mode : UInt16} {op : Op} {T : List ℕ}

def SameMounts (st st' : State) : Prop :=
  st'.mountList = st.mountList ∧ ∀ m, st'.mount m = st.mount m

theorem Kept.sameMounts (h : Kept t mode st st') : SameMounts st st' :=
  ⟨h.grown.mountList, fun _ => h.grown.mount⟩

/-- What a step gives back: new objects that it does not keep, the storage of a file that moves,
the open file of a descriptor, or a mount and its file system. -/
theorem Effect.frees (he : Effect st op st') :
    (SameMounts st st' ∧
      ((∃ F, st'.freed = F ++ st.freed ∧ F.Nodup ∧ ∀ o ∈ F, o.Since st st') ∨
        (∃ t fd f buf, op = .call t (.write fd buf) ∧ st.Running t ∧ OpenOn st t fd f .kvfs ∧
          (st.file f).fMode &&& O_WRONLY ≠ 0 ∧ Grows st f buf ∧
            (st.node (st.file f).fInode).start ≠ .null ∧
              st'.freed = .block (st.node (st.file f).fInode).start.base :: st.freed) ∨
        ∃ t fd f, op = .close t fd ∧ st.Running t ∧
          (st.thread t).fileDescriptors fd.toNat = .file f ∧
            (st'.thread t).fileDescriptors fd.toNat = .null ∧ st'.freed = .file f :: st.freed)) ∨
    (∃ t path fs d m x, op = .call t (.mount path fs) ∧ Mounts st st' t path fs d m x ∧
      st'.freed = st.freed) ∨
    ∃ t path nd m, op = .call t (.unmount path) ∧ Unmounts st st' t path nd m := by
  have hnone : SameMounts st st' → st'.freed = st.freed → SameMounts st st' ∧
      ∃ F, st'.freed = F ++ st.freed ∧ F.Nodup ∧ ∀ o ∈ F, o.Since st st' :=
    fun hm hf => ⟨hm, [], hf, List.nodup_nil, fun _ ho => absurd ho List.not_mem_nil⟩
  cases he with
  | same => exact .inl ((hnone ⟨rfl, fun _ => rfl⟩ rfl).imp_right .inl)
  | looked _ hk => exact .inl ⟨hk.sameMounts, .inl hk.freed⟩
  | opened _ _ hk _ _ hopen =>
    obtain ⟨F, hF, hnodup, hsince⟩ := hk.freed
    rcases hopen with ⟨-, -, rfl⟩ | ⟨i, -, -, -, rfl⟩
    · exact .inl ⟨hk.sameMounts, .inl ⟨F, hF, hnodup, hsince⟩⟩
    · exact .inl ⟨hk.sameMounts, .inl ⟨F, hF, hnodup, hsince⟩⟩
  | read => exact .inl ((hnone ⟨rfl, fun _ => rfl⟩ rfl).imp_right .inl)
  | printed => exact .inl ((hnone ⟨rfl, fun _ => rfl⟩ rfl).imp_right .inl)
  | @wrote t f fd z buf st' ht ho hr =>
    by_cases hw : (st.file f).fMode &&& O_WRONLY = 0
    · obtain ⟨-, rfl⟩ := run_inj hr (run_kvfsWrite_readonly hw)
      exact .inl ((hnone ⟨rfl, fun _ => rfl⟩ rfl).imp_right .inl)
    · have hre := run_kvfsWrite_storage hw hr
      have hmounts : SameMounts st st' := by
        obtain ⟨B, K, F, size, pos, hst⟩ := hre.frame
        rw [hst]
        exact ⟨rfl, fun _ => rfl⟩
      rcases hre.storage with ⟨-, -, hfreed, -⟩ | ⟨hgrow, -, -, hfreed⟩
      · exact .inl ((hnone hmounts hfreed).imp_right .inl)
      · split at hfreed
        case isTrue => exact .inl ((hnone hmounts hfreed).imp_right .inl)
        case isFalse hnull =>
          exact .inl ⟨hmounts, .inr (.inl ⟨t, fd, f, buf, rfl, ht, ho, hw, hgrow, hnull, hfreed⟩)⟩
  | sought _ hr =>
    rcases llseek_cases hr with rfl | ⟨pos, rfl⟩
    · exact .inl ((hnone ⟨rfl, fun _ => rfl⟩ rfl).imp_right .inl)
    · exact .inl ((hnone ⟨rfl, fun _ => rfl⟩ rfl).imp_right .inl)
  | @mounted t fs d m path x driver j st₁ st' hm _ hroot hst =>
    exact .inr (.inl ⟨t, path, fs, d, m, x, rfl, hm, by rw [hst, hroot.state_eq]; rfl⟩)
  | @unmounted t m path nd st' hu => exact .inr (.inr ⟨t, path, nd, m, rfl, hu⟩)
  | @closed t f fd ht _ hf =>
    refine .inl ⟨⟨rfl, fun _ => rfl⟩, .inr (.inr ⟨t, fd, f, rfl, ht, hf, ?_, rfl⟩)⟩
    simp [State.withFd]
  | @created t =>
    rcases kmtCreate_cases st t with heq | ⟨i, -, heq⟩
    · exact .inl ((hnone (by rw [heq]; exact ⟨rfl, fun _ => rfl⟩) (by rw [heq])).imp_right .inl)
    · exact .inl ((hnone (by rw [heq]; exact ⟨rfl, fun _ => rfl⟩) (by rw [heq])).imp_right .inl)
  | tornDown => exact .inl ((hnone ⟨rfl, fun _ => rfl⟩ rfl).imp_right .inl)
  | newFs => exact .inl ((hnone ⟨rfl, fun _ => rfl⟩ rfl).imp_right .inl)
  | world => exact .inl ((hnone ⟨rfl, fun _ => rfl⟩ rfl).imp_right .inl)

/-- The objects that have been given back, and those that must not be: no object has been given
back twice, all of them were on the heap, and none of them is still in use. The files `T` have lost
their storage. -/
structure Ledger (T : List ℕ) (st : State) : Prop where
  nodup : st.freed.Nodup
  onHeap : ∀ o ∈ st.freed, o.OnHeap st
  mount : ∀ m ∈ st.mountList, .vfsmount m ∉ st.freed ∧ .fsType (st.mount m).mntFs ∉ st.freed
  block : ∀ i, st.IsFile i → i ∉ T → .block (st.node i).start.base ∉ st.freed
  file : ∀ t k f, st.Running t → (st.thread t).fileDescriptors k = .file f → .file f ∉ st.freed
  unique : ∀ t u k l f, st.Running t → st.Running u → (st.thread t).fileDescriptors k = .file f →
    (st.thread u).fileDescriptors l = .file f → t = u ∧ k = l

/-- `vfs_unmount` drops a mount that is not static, whose file system is not static and belongs to
no other listed mount. `vfs_mount` is given a file system that has not been given back. No file
of `T` grows. -/
def Thrifty (T : List ℕ) (st : State) : Op → Prop
  | .call t (.unmount path) => ∀ m ∈ dropped st t path, m ≠ 0 ∧ 3 ≤ (st.mount m).mntFs ∧
    ∀ m' ∈ st.mountList, m' ≠ m → (st.mount m').mntFs ≠ (st.mount m).mntFs
  | .call _ (.mount _ fs) => fs < st.fsTypes.size ∧ .fsType fs ∉ st.freed
  | .call t (.write fd buf) => ∀ f, OpenOn st t fd f .kvfs → (st.file f).fMode &&& O_WRONLY ≠ 0 →
    (st.file f).fInode ∈ T → ¬ Grows st f buf
  | .newFs f => f.Genuine
  | _ => True

theorem Thrifty.proper (h : Thrifty T st op) : Proper st op := by
  apply Proper.intro
  · rintro t path fs rfl
    exact h.1
  · rintro f rfl
    exact h

theorem Filed.onHeap (h : Filed st) (hi : st.IsFile i) (hnull : (st.node i).start ≠ .null) :
    (Obj.block (st.node i).start.base).OnHeap st := by
  refine ⟨fun hz => hnull ?_, h.fresh hi⟩
  rw [Ptr.null, ← hz, ← h.off hi]

/-- The storage that has been given back was on the heap, and the files outside of `T` have
theirs. -/
structure Banked (T : List ℕ) (st : State) : Prop where
  onHeap : ∀ b, .block b ∈ st.freed → (Obj.block b).OnHeap st
  kept : ∀ i, st.IsFile i → i ∉ T → .block (st.node i).start.base ∉ st.freed

theorem Banked.onHeap_effect (h : Banked T st) (hs : Settled st) (he : Effect st op st') {b : ℕ}
    (hb : .block b ∈ st'.freed) : (Obj.block b).OnHeap st' := by
  have hold : .block b ∈ st.freed → (Obj.block b).OnHeap st' := fun hin =>
    (h.onHeap b hin).mono he.grew
  rcases he.frees with ⟨-, ⟨F, hF, -, hsince⟩ | ⟨t, fd, f, buf, -, ht, ho, -, -, hnull, heq⟩ |
      ⟨t, fd, f, -, -, -, -, heq⟩⟩ | ⟨t, path, fs, d, m, x, -, -, heq⟩ | ⟨t, path, nd, m, -, hu⟩
  · rw [hF] at hb
    exact (List.mem_append.mp hb).elim (fun hin => (hsince _ hin).onHeap) hold
  · rw [heq] at hb
    rcases List.mem_cons.mp hb with hnew | hin
    · rw [hnew]
      exact (hs.filed.onHeap (hs.held.isFile ht ho) hnull).mono he.grew
    · exact hold hin
  · rw [heq] at hb
    exact hold (by simpa using hb)
  · rw [heq] at hb
    exact hold hb
  · rw [hu.state_eq] at hb
    exact hold (by simpa using hb)

/-- A write gives back the old storage of a file only when it has stored the new one. -/
theorem Banked.effect (h : Banked T st) (hs : Settled st) (he : Effect st op st') :
    Banked T st' := by
  refine ⟨fun b hb => h.onHeap_effect hs he hb, ?_⟩
  intro i hi hiT
  rcases he.files hs.filed with ⟨t, mode, st₁, hk, hsame⟩ | ⟨t, fd, f, z, buf, -, ht, ho, hw, hr⟩
  · rw [hsame.isFile] at hi
    rw [hsame.node hi, hsame.freed]
    obtain ⟨F, hF, -, hsince⟩ := hk.freed
    have hblock : ∀ b, .block b ∈ st₁.freed → .block b ∈ st.freed := fun b hin => by
      rw [hF] at hin
      exact (List.mem_append.mp hin).resolve_left fun hmem => hsince _ hmem
    rcases hk.cases hi with hold | ⟨s, -, -, -, hslot, hnew⟩
    · rw [hk.node hs.filed hold]
      exact fun hin => h.kept i hold hiT (hblock _ hin)
    · have hnode : st₁.node i = ⟨true, .null, .null⟩ := by
        rw [State.node, hnew]
        exact hslot
      rw [hnode]
      exact fun hin => (h.onHeap _ (hblock _ hin)).1 rfl
  · have hre := run_kvfsWrite_storage hw hr
    have hip := hs.held.isFile ht ho
    have hi₀ := (hre.isFile i).mp hi
    rcases hre.storage with ⟨hstart, -, hfreed, -⟩ | ⟨-, hstart, -, hfreed⟩
    · rw [hfreed]
      by_cases hne : i = (st.file f).fInode
      · rw [hne, hstart]
        exact h.kept _ hip (hne ▸ hiT)
      · rw [hre.node hs.filed hip hi₀ hne]
        exact h.kept i hi₀ hiT
    · rw [hfreed]
      by_cases hne : i = (st.file f).fInode
      · rw [hne, hstart]
        dsimp only
        have hnew : .block st.blocks.size ∉ st.freed := fun hin =>
          absurd (h.onHeap _ hin).2 (Nat.lt_irrefl _)
        split
        · exact hnew
        · have hlt := hs.filed.fresh hip
          simp only [List.mem_cons, Obj.block.injEq, not_or]
          exact ⟨hlt.ne', hnew⟩
      · rw [hre.node hs.filed hip hi₀ hne]
        have hkept := h.kept i hi₀ hiT
        split
        · exact hkept
        case isFalse hnull =>
          simp only [List.mem_cons, Obj.block.injEq, not_or]
          refine ⟨fun hbase => hne ?_, hkept⟩
          refine hs.filed.own hi₀ hip hbase ?_
          rw [hbase]
          exact (hs.filed.onHeap hip hnull).1

theorem Unmounts.onHeap {path : List Char} {nd : Nameidata} (h : Sound st)
    (hu : Unmounts st st' t path nd m) (ht : Thrifty T st (.call t (.unmount path))) :
    (Obj.vfsmount m).OnHeap st ∧ (Obj.fsType (st.mount m).mntFs).OnHeap st ∧
      ∀ m' ∈ st.mountList, m' ≠ m → (st.mount m').mntFs ≠ (st.mount m).mntFs := by
  have hdrop : m ∈ dropped st t path := by
    rw [dropped, hu.resolves]
    exact hu.found
  obtain ⟨hm, hfs, hown⟩ := ht m hdrop
  have hlt := h.inv.wf.chain_mountList.2 m hu.mem
  exact ⟨⟨hm, hlt⟩, ⟨hfs, (h.housed.driven hlt).1⟩, hown⟩

/-- What a step gives back was on the heap, and has not been given back before. -/
theorem Ledger.frees (h : Ledger T st) (hs : Settled st) (ht : Thrifty T st op)
    (he : Effect st op st') : st'.freed.Nodup ∧ ∀ o ∈ st'.freed, o.OnHeap st' := by
  have hold : ∀ o ∈ st.freed, o.OnHeap st' := fun o ho => (h.onHeap o ho).mono he.grew
  have hcons : ∀ o, st'.freed = o :: st.freed → o.OnHeap st → o ∉ st.freed →
      st'.freed.Nodup ∧ ∀ o ∈ st'.freed, o.OnHeap st' := by
    intro o heq ho hnot
    rw [heq]
    refine ⟨List.nodup_cons.mpr ⟨hnot, h.nodup⟩, fun o' ho' => ?_⟩
    rcases List.mem_cons.mp ho' with rfl | ho'
    · exact ho.mono he.grew
    · exact hold o' ho'
  rcases he.frees with ⟨-, ⟨F, hF, hnodup, hsince⟩ |
      ⟨t, fd, f, buf, rfl, hrun, ho, hw, hgrow, hnull, heq⟩ | ⟨t, fd, f, rfl, hrun, hf, -, heq⟩⟩ |
      ⟨t, path, fs, d, m, x, rfl, -, heq⟩ | ⟨t, path, nd, m, rfl, hu⟩
  · rw [hF]
    refine ⟨hnodup.append h.nodup fun o ho hmem => ?_, fun o ho => ?_⟩
    · exact (hsince o ho).not_onHeap (h.onHeap o hmem)
    · rcases List.mem_append.mp ho with ho | ho
      · exact (hsince o ho).onHeap
      · exact hold o ho
  · have hfile := hs.held.isFile hrun ho
    refine hcons _ heq (hs.filed.onHeap hfile hnull) (h.block _ hfile fun hT => ?_)
    exact ht f ho hw hT hgrow
  · exact hcons _ heq (hs.held.held hrun hf) (h.file t _ f hrun hf)
  · rw [heq]
    exact ⟨h.nodup, hold⟩
  · obtain ⟨hm, hfs, -⟩ := hu.onHeap hs.sound ht
    obtain ⟨hm', hfs'⟩ := h.mount m hu.mem
    have heq : st'.freed = .vfsmount m :: .fsType (st.mount m).mntFs :: st.freed := by
      rw [hu.state_eq]
    rw [heq]
    refine ⟨List.nodup_cons.mpr ⟨?_, List.nodup_cons.mpr ⟨hfs', h.nodup⟩⟩, fun o ho => ?_⟩
    · simpa using hm'
    · rcases List.mem_cons.mp ho with rfl | ho
      · exact hm.mono he.grew
      · rcases List.mem_cons.mp ho with rfl | ho
        · exact hfs.mono he.grew
        · exact hold o ho

theorem Ledger.mounts (h : Ledger T st) (hs : Settled st) (ht : Thrifty T st op)
    (he : Effect st op st') :
    ∀ m ∈ st'.mountList, .vfsmount m ∉ st'.freed ∧ .fsType (st'.mount m).mntFs ∉ st'.freed := by
  intro q hq
  have hsame : SameMounts st st' → (∀ m, .vfsmount m ∈ st'.freed → .vfsmount m ∈ st.freed) →
      (∀ f, .fsType f ∈ st'.freed → .fsType f ∈ st.freed) →
        .vfsmount q ∉ st'.freed ∧ .fsType (st'.mount q).mntFs ∉ st'.freed := by
    rintro ⟨hlist, hmount⟩ hm hf
    rw [hlist] at hq
    rw [hmount]
    exact ⟨fun hin => (h.mount q hq).1 (hm q hin), fun hin => (h.mount q hq).2 (hf _ hin)⟩
  rcases he.frees with ⟨hmounts, ⟨F, hF, -, hsince⟩ | ⟨t, fd, f, buf, -, -, -, -, -, -, heq⟩ |
      ⟨t, fd, f, -, -, -, -, heq⟩⟩ | ⟨t, path, fs, d, m, x, rfl, hm, heq⟩ |
      ⟨t, path, nd, m, rfl, hu⟩
  · refine hsame hmounts (fun m hin => ?_) fun f hin => ?_
    · rw [hF] at hin
      exact (List.mem_append.mp hin).resolve_left fun hmem => hsince _ hmem
    · rw [hF] at hin
      exact (List.mem_append.mp hin).resolve_left fun hmem => hsince _ hmem
  · exact hsame hmounts (fun m hin => by simpa [heq] using hin) fun f hin => by
      simpa [heq] using hin
  · exact hsame hmounts (fun m hin => by simpa [heq] using hin) fun f hin => by
      simpa [heq] using hin
  · have hlt := hs.sound.inv.wf.chain_mountList.2
    rw [hm.mountList hs.sound.inv] at hq
    rw [heq]
    rcases List.mem_cons.mp hq with rfl | hq
    · rw [hm.mount_new]
      exact ⟨fun hin => absurd (h.onHeap _ hin).2 (Nat.lt_irrefl _), ht.2⟩
    · rw [hm.mount_of_lt (hlt q hq)]
      exact h.mount q hq
  · obtain ⟨-, -, hown⟩ := hu.onHeap hs.sound ht
    have hlist : st'.mountList = st.mountList.erase m := by
      rw [hu.state_eq]
      exact Namespace.mountList_dropMount hs.sound.inv.wf hu.mem
    have hmount : ∃ n, st'.mount q = { st.mount q with mntNext := n } := by
      rw [hu.state_eq]
      exact Namespace.mount_dropMount _ _ _
    rw [hlist] at hq
    obtain ⟨hne, hmem⟩ := hs.sound.inv.wf.chain_mountList.1.nodup.mem_erase_iff.mp hq
    obtain ⟨n, hn⟩ := hmount
    obtain ⟨hm', hfs'⟩ := h.mount q hmem
    rw [hn, hu.state_eq]
    simp only [List.mem_cons, reduceCtorEq, Obj.vfsmount.injEq, Obj.fsType.injEq, false_or,
      not_or]
    exact ⟨⟨hne, hm'⟩, hown q hmem hne, hfs'⟩

theorem Ledger.blocks (h : Ledger T st) (hs : Settled st) (he : Effect st op st') :
    ∀ i, st'.IsFile i → i ∉ T → .block (st'.node i).start.base ∉ st'.freed :=
  (Banked.effect ⟨fun b => h.onHeap (.block b), h.block⟩ hs he).kept

theorem Ledger.openFiles (h : Ledger T st) (hs : Settled st) (he : Effect st op st') :
    ∀ u k f, st'.Running u → (st'.thread u).fileDescriptors k = .file f →
      .file f ∉ st'.freed := by
  intro u k f hu hf
  obtain ⟨hu₀, -, -, hcases⟩ := he.descriptor hu hf
  have hkept : .file f ∉ st.freed := by
    rcases hcases with hold | ⟨rfl, -⟩
    · exact h.file u k f hu₀ hold
    · exact fun hin => absurd (h.onHeap _ hin) (Nat.lt_irrefl _)
  rcases he.frees with ⟨-, ⟨F, hF, -, hsince⟩ | ⟨t, fd, g, buf, -, -, -, -, -, -, heq⟩ |
      ⟨t, fd, g, rfl, ht, hg, hnull, heq⟩⟩ | ⟨t, path, fs, d, m, x, -, -, heq⟩ |
      ⟨t, path, nd, m, -, hu'⟩
  · rw [hF]
    exact fun hin => hkept ((List.mem_append.mp hin).resolve_left fun hmem => hsince _ hmem)
  · rw [heq]
    simpa using hkept
  · rw [heq]
    simp only [List.mem_cons, Obj.file.injEq, not_or]
    refine ⟨?_, hkept⟩
    rintro rfl
    -- The descriptor that is closed was the only one that led to the file.
    rcases hcases with hold | ⟨rfl, -⟩
    · obtain ⟨rfl, rfl⟩ := h.unique u t k fd.toNat f hu₀ ht hold hg
      rw [hnull] at hf
      cases hf
    · exact absurd (hs.held.held ht hg) (Nat.lt_irrefl _)
  · rw [heq]
    exact hkept
  · rw [hu'.state_eq]
    simpa using hkept

theorem Effect.opened_unique (hh : Held st) (he : Effect st op st') {l : ℕ}
    (hu : st'.Running u) (ht : st'.Running t)
    (hk : (st'.thread u).fileDescriptors k = .file st.files.size)
    (hl : (st'.thread t).fileDescriptors l = .file st.files.size) : u = t ∧ k = l := by
  obtain ⟨hu₀, -, -, hold | ⟨-, path, flags, s, d, ip, nd, rfl, -⟩⟩ := he.descriptor hu hk
  · exact absurd (hh.held hu₀ hold) (Nat.lt_irrefl _)
  obtain ⟨ht₀, -, -, hold | ⟨-, path', flags', s', d', ip', nd', heq, -⟩⟩ := he.descriptor ht hl
  · exact absurd (hh.held ht₀ hold) (Nat.lt_irrefl _)
  cases heq
  refine ⟨rfl, ?_⟩
  have hnone : ∀ {k}, (st.thread t).fileDescriptors k ≠ .file st.files.size := fun hin =>
    absurd (hh.held ht₀ hin) (Nat.lt_irrefl _)
  cases he with
  | same => exact absurd hk hnone
  | looked _ hkept =>
    rw [hkept.rest] at hk
    exact absurd hk hnone
  | @opened _ _ _ _ _ _ _ st₁ _ _ _ hkept _ _ hopen =>
    have hthread : st₁.thread = st.thread := by rw [hkept.rest]
    rcases hopen with ⟨-, -, rfl⟩ | ⟨i, -, -, -, rfl⟩
    · rw [State.withOpen, hthread] at hk
      exact absurd hk hnone
    · rcases withFd_entry hk with ⟨-, rfl, -⟩ | hin
      · rcases withFd_entry hl with ⟨-, rfl, -⟩ | hin
        · rfl
        · rw [State.withOpen, hthread] at hin
          exact absurd hin hnone
      · rw [State.withOpen, hthread] at hin
        exact absurd hin hnone

/-- Thrifty steps keep the ledger. -/
theorem Ledger.effect (h : Ledger T st) (hs : Settled st) (ht : Thrifty T st op)
    (he : Effect st op st') : Ledger T st' where
  nodup := (h.frees hs ht he).1
  onHeap := (h.frees hs ht he).2
  mount := h.mounts hs ht he
  block := h.blocks hs he
  file := h.openFiles hs he
  unique t u k l f ht hu hk hl := by
    obtain ⟨ht₀, -, -, hkold | ⟨rfl, -⟩⟩ := he.descriptor ht hk
    · obtain ⟨hu₀, -, -, hlold | ⟨rfl, -⟩⟩ := he.descriptor hu hl
      · exact h.unique t u k l f ht₀ hu₀ hkold hlold
      · exact absurd (hs.held.held ht₀ hkold) (Nat.lt_irrefl _)
    · exact he.opened_unique hs.held ht hu hk hl

theorem ledger_started (hs : Started st) : Ledger [] st := by
  have hfreed : st.freed = [] := by
    obtain ⟨st₀, st₁, hb, hr, rfl⟩ := hs
    obtain ⟨x, j, st₂, hmade, hx, hst⟩ := started_namespace hb hr
    change st₁.freed = []
    rw [hst, hmade.state_eq]
    exact hb.freed
  have hnone : ∀ {t k f}, st.Running t → (st.thread t).fileDescriptors k ≠ .file f := by
    intro t k f ht hf
    have hlt := (held_started hs).held ht hf
    rw [hs.files_size] at hlt
    exact absurd hlt (Nat.not_lt_zero f)
  constructor
  case nodup => simp [hfreed]
  case onHeap => simp [hfreed]
  case mount => simp [hfreed]
  case block => simp [hfreed]
  case file => simp [hfreed]
  case unique => exact fun t u k l f ht _ hf => absurd hf (hnone ht)

end Frees

section Truncate

variable {st st' : State} {ip i : ℕ} {T : List ℕ}

def State.truncate (st : State) (ip : ℕ) : State := { st with
  freed := if (st.node ip).start = .null then st.freed
    else .block (st.node ip).start.base :: st.freed
  inodes := st.inodes.set ip fun i => { i with iSize := 0 } }

theorem run_kvfsTruncate : run (kvfsTruncate ip) st = some ((), st.truncate ip) := by
  rw [kvfsTruncate, run_bind, run_gets, Option.bind_some, State.truncate]
  by_cases hnull : (st.node ip).start = .null
  · have hnull' : ¬ (st.kvfsFiles (st.inode ip).iIno).start ≠ .null := not_not.mpr hnull
    rw [if_neg hnull', if_pos hnull]
    rfl
  · have hnull' : (st.kvfsFiles (st.inode ip).iIno).start ≠ .null := hnull
    rw [if_pos hnull', if_neg hnull]
    rfl

theorem inode_truncate (st : State) (ip i : ℕ) : (st.truncate ip).inode i = st.inode i ∨
    i = ip ∧ (st.truncate ip).inode i = { st.inode i with iSize := 0 } := by
  rw [State.truncate, State.inode, Pool.obj_set]
  split
  case isTrue heq => exact .inr ⟨heq, by rw [heq]; rfl⟩
  case isFalse => exact .inl rfl

theorem node_truncate : (st.truncate ip).node i = st.node i := by
  rw [State.node, State.node]
  rcases inode_truncate st ip i with heq | ⟨-, heq⟩ <;> rw [heq] <;> rfl

theorem mem_freed_truncate {o : Obj} (ho : o ∈ (st.truncate ip).freed) :
    o ∈ st.freed ∨ o = .block (st.node ip).start.base ∧ (st.node ip).start ≠ .null := by
  unfold State.truncate at ho
  dsimp only at ho
  split at ho
  · exact .inl ho
  · exact (List.mem_cons.mp ho).symm.imp_right fun heq => ⟨heq, ‹_›⟩

theorem freed_truncate_iff {o : Obj} (ho : ∀ b, o ≠ .block b) :
    o ∈ (st.truncate ip).freed ↔ o ∈ st.freed := by
  unfold State.truncate
  dsimp only
  split
  · rfl
  · rw [List.mem_cons, or_iff_right (ho _)]

theorem isFile_truncate : (st.truncate ip).IsFile i ↔ st.IsFile i := by
  have hfop : ((st.truncate ip).inode i).iFop = (st.inode i).iFop := by
    rcases inode_truncate st ip i with heq | ⟨-, heq⟩ <;> rw [heq]
  rw [State.IsFile, State.IsFile, State.Live, State.Live, hfop,
    freed_truncate_iff fun b => by simp]
  rfl

theorem grew_truncate : Grew st (st.truncate ip) := { Grew.refl with }

theorem Filed.truncate (h : Filed st) : Filed (st.truncate ip) := by
  have hino : ∀ i, ((st.truncate ip).inode i).iIno = (st.inode i).iIno := fun i => by
    rcases inode_truncate st ip i with heq | ⟨-, heq⟩ <;> rw [heq]
  constructor
  case inited => exact h.inited
  case blocks_pos => exact h.blocks_pos
  case slot =>
    intro i hi
    rw [hino]
    exact h.slot (isFile_truncate.mp hi)
  case apart =>
    intro i j hi hj
    rw [hino, hino]
    exact h.apart (isFile_truncate.mp hi) (isFile_truncate.mp hj)
  case off =>
    intro i hi
    rw [node_truncate]
    exact h.off (isFile_truncate.mp hi)
  case fresh =>
    intro i hi
    rw [node_truncate]
    exact h.fresh (isFile_truncate.mp hi)
  case empty =>
    intro i hi hz
    rw [node_truncate] at hz
    rcases inode_truncate st ip i with heq | ⟨-, heq⟩
    · rw [heq]
      exact h.empty (isFile_truncate.mp hi) hz
    · rw [heq]
  case own =>
    intro i j hi hj
    rw [node_truncate, node_truncate]
    exact h.own (isFile_truncate.mp hi) (isFile_truncate.mp hj)

theorem Settled.truncate (h : Settled st) : Settled (st.truncate ip) where
  sound := by
    have hiop : ∀ i, ((st.truncate ip).inode i).iOp = (st.inode i).iOp := fun i => by
      rcases inode_truncate st ip i with heq | ⟨-, heq⟩ <;> rw [heq]
    exact ⟨⟨h.sound.inv.wf, h.sound.inv.inode_lt, h.sound.inv.home⟩,
      ⟨h.sound.orderly.wf, h.sound.orderly.tidy⟩,
      h.sound.housed.congr rfl rfl rfl hiop fun i => freed_truncate_iff fun b => by simp⟩
  filed := h.filed.truncate
  held := ⟨fun hlt hkvfs => isFile_truncate.mpr (h.held.opened hlt hkvfs), h.held.held⟩

theorem Ledger.truncate (h : Ledger T st) (hs : Settled st) (hip : st.IsFile ip) (hT : ip ∉ T) :
    Ledger (if (st.node ip).start = .null then T else ip :: T) (st.truncate ip) := by
  have hkept : .block (st.node ip).start.base ∉ st.freed := h.block ip hip hT
  constructor
  case nodup =>
    unfold State.truncate
    dsimp only
    split
    · exact h.nodup
    · exact List.nodup_cons.mpr ⟨hkept, h.nodup⟩
  case onHeap =>
    intro o ho
    refine Obj.OnHeap.mono ?_ grew_truncate
    rcases mem_freed_truncate ho with ho | ⟨rfl, hnull⟩
    · exact h.onHeap o ho
    · exact hs.filed.onHeap hip hnull
  case mount =>
    intro m hm
    rw [freed_truncate_iff fun b => by simp, freed_truncate_iff fun b => by simp]
    exact h.mount m hm
  case block =>
    intro i hi hiT hin
    rw [isFile_truncate] at hi
    rw [node_truncate] at hin
    have hiT' : i ∉ T ∧ ((st.node ip).start ≠ .null → i ≠ ip) := by
      split at hiT
      case isTrue hnull => exact ⟨hiT, fun hne => absurd hnull hne⟩
      case isFalse => exact ⟨fun hm => hiT (List.mem_cons_of_mem _ hm),
        fun _ heq => hiT (heq ▸ List.mem_cons_self)⟩
    rcases mem_freed_truncate hin with hin | ⟨heq, hnull⟩
    · exact h.block i hi hiT'.1 hin
    · have hbase := Obj.block.inj heq
      refine hiT'.2 hnull (hs.filed.own hi hip hbase ?_)
      rw [hbase]
      exact (hs.filed.onHeap hip hnull).1
  case file =>
    intro t k f ht hf
    rw [freed_truncate_iff fun b => by simp]
    exact h.file t k f ht hf
  case unique => exact h.unique

end Truncate

end NSOS.Vfs
