import NSOS.Vfs.Effects

/-! # The storage of files

Every regular file has a slot of the table and a block of its own, and an open
file of `kvfs` leads to a regular file. Every step keeps this. The sizes and
positions stay in the range of `int` as long as no seek and no write leaves it.
-/

namespace NSOS.Vfs

open Basis Prog

section Filed

/-- Regular files have slots and blocks of their own. -/
structure Filed (st : State) : Prop where
  inited : st.kvfsInited = true
  blocks_pos : 0 < st.blocks.size
  slot : ∀ {i}, st.IsFile i → ∃ k < KVFS_MAX_FILE, (st.inode i).iIno = k ∧
    (st.kvfsFiles k).inuse = true
  apart : ∀ {i j}, st.IsFile i → st.IsFile j → (st.inode i).iIno = (st.inode j).iIno → i = j
  off : ∀ {i}, st.IsFile i → (st.node i).start.off = 0
  fresh : ∀ {i}, st.IsFile i → (st.node i).start.base < st.blocks.size
  empty : ∀ {i}, st.IsFile i → (st.node i).start.base = 0 → (st.inode i).iSize = 0
  own : ∀ {i j}, st.IsFile i → st.IsFile j →
    (st.node i).start.base = (st.node j).start.base → (st.node i).start.base ≠ 0 → i = j

/-- Open files of `kvfs` lead to regular files, and descriptors to open files. -/
structure Held (st : State) : Prop where
  opened : ∀ {f}, f < st.files.size → (st.file f).fOp = some .kvfs → st.IsFile (st.file f).fInode
  held : ∀ {t k f}, st.Running t → (st.thread t).fileDescriptors k = .file f → f < st.files.size

/-- The regular files and their storage are as before. -/
structure SameFiles (st st' : State) : Prop where
  inited : st'.kvfsInited = st.kvfsInited
  blocks : st'.blocks = st.blocks
  table : st'.kvfsFiles = st.kvfsFiles
  isFile : ∀ i, st'.IsFile i ↔ st.IsFile i
  inode : ∀ {i}, st.IsFile i → st'.inode i = st.inode i
  freed : ∀ b, .block b ∈ st'.freed ↔ .block b ∈ st.freed

variable {st st' : State} {t i f : ℕ} {mode : UInt16} {op : Op}

theorem SameFiles.refl : SameFiles st st :=
  ⟨rfl, rfl, rfl, fun _ => Iff.rfl, fun _ => rfl, fun _ => Iff.rfl⟩

theorem SameFiles.node (h : SameFiles st st') (hi : st.IsFile i) : st'.node i = st.node i := by
  rw [State.node, h.inode hi, h.table, State.node]

theorem SameFiles.of_eq (hinodes : st'.inodes = st.inodes) (hinit : st'.kvfsInited = st.kvfsInited)
    (hblocks : st'.blocks = st.blocks) (htable : st'.kvfsFiles = st.kvfsFiles)
    (hfreed : ∀ i, .inode i ∈ st'.freed ↔ .inode i ∈ st.freed)
    (hfreed' : ∀ b, .block b ∈ st'.freed ↔ .block b ∈ st.freed) : SameFiles st st' where
  inited := hinit
  blocks := hblocks
  table := htable
  isFile i := by
    rw [State.IsFile, State.IsFile, State.Live, State.Live, hfreed, State.inode, hinodes]
    rfl
  inode _ := by
    rw [State.inode, hinodes]
    rfl
  freed := hfreed'

theorem Filed.same (h : Filed st) (hs : SameFiles st st') : Filed st' := by
  constructor
  case inited => exact hs.inited.trans h.inited
  case blocks_pos => exact hs.blocks ▸ h.blocks_pos
  case slot =>
    intro i hi
    rw [hs.isFile] at hi
    rw [hs.inode hi, hs.table]
    exact h.slot hi
  case apart =>
    intro i j hi hj
    rw [hs.isFile] at hi hj
    rw [hs.inode hi, hs.inode hj]
    exact h.apart hi hj
  case off =>
    intro i hi
    rw [hs.isFile] at hi
    rw [hs.node hi]
    exact h.off hi
  case fresh =>
    intro i hi
    rw [hs.isFile] at hi
    rw [hs.node hi, hs.blocks]
    exact h.fresh hi
  case empty =>
    intro i hi
    rw [hs.isFile] at hi
    rw [hs.node hi, hs.inode hi]
    exact h.empty hi
  case own =>
    intro i j hi hj
    rw [hs.isFile] at hi hj
    rw [hs.node hi, hs.node hj]
    exact h.own hi hj

theorem Kept.node (h : Kept t mode st st') (hf : Filed st) (hi : st.IsFile i) :
    st'.node i = st.node i := by
  obtain ⟨k, -, hk, huse⟩ := hf.slot hi
  rw [State.node, h.inode hi.1.1, hk, h.table huse, State.node, hk]

theorem Kept.cases (h : Kept t mode st st') (hi : st'.IsFile i) :
    st.IsFile i ∨ ∃ s < KVFS_MAX_FILE, st.inodes.size ≤ i ∧ (st.kvfsFiles s).inuse = false ∧
      st'.kvfsFiles s = ⟨true, .null, .null⟩ ∧ st'.inode i = newFile (st.thread t) mode s := by
  by_cases hlt : i < st.inodes.size
  · exact .inl ((h.isFile hlt).mp hi)
  · obtain ⟨s, hs, hfree, hslot, hnew⟩ := h.born hi (not_lt.mp hlt)
    exact .inr ⟨s, hs, not_lt.mp hlt, hfree, hslot, hnew⟩

theorem Kept.filed (h : Kept t mode st st') (hf : Filed st) : Filed st' := by
  have hblocks : st'.blocks = st.blocks := by rw [h.rest]
  have hnew : ∀ {i}, st'.IsFile i → ¬ st.IsFile i → (st'.node i).start = .null := by
    intro i hi hold
    rcases h.cases hi with hi | ⟨s, -, -, -, hslot, hs⟩
    · exact absurd hi hold
    · rw [State.node, hs]
      exact congrArg KvfsFileNode.start hslot
  have hmixed : ∀ {i j}, st.IsFile i → st'.IsFile j → ¬ st.IsFile j →
      (st'.inode i).iIno ≠ (st'.inode j).iIno := by
    intro i j hi hj hold heq
    obtain ⟨k, -, hk, huse⟩ := hf.slot hi
    rcases h.cases hj with hj | ⟨s, -, -, hfree, -, hs⟩
    · exact hold hj
    · rw [h.inode hi.1.1, hk, hs] at heq
      have heq : (k : ℤ) = s := heq
      rw [← heq, huse] at hfree
      cases hfree
  constructor
  case inited => rw [h.rest]; exact hf.inited
  case blocks_pos => exact hblocks ▸ hf.blocks_pos
  case slot =>
    intro i hi
    rcases h.cases hi with hi | ⟨s, hs, -, -, hslot, hnew⟩
    · obtain ⟨k, hk, hino, huse⟩ := hf.slot hi
      exact ⟨k, hk, by rw [h.inode hi.1.1, hino], by rw [h.table huse, huse]⟩
    · exact ⟨s, hs, by rw [hnew]; rfl, by rw [hslot]⟩
  case apart =>
    intro i j hi hj heq
    by_cases hi₀ : st.IsFile i
    · by_cases hj₀ : st.IsFile j
      · rw [h.inode hi₀.1.1, h.inode hj₀.1.1] at heq
        exact hf.apart hi₀ hj₀ heq
      · exact absurd heq (hmixed hi₀ hj hj₀)
    · by_cases hj₀ : st.IsFile j
      · exact absurd heq.symm (hmixed hj₀ hi hi₀)
      · refine h.apart hi hj ?_ ?_ heq
        · exact not_lt.mp fun hlt => hi₀ ((h.isFile hlt).mp hi)
        · exact not_lt.mp fun hlt => hj₀ ((h.isFile hlt).mp hj)
  case off =>
    intro i hi
    by_cases hold : st.IsFile i
    · rw [h.node hf hold]
      exact hf.off hold
    · rw [hnew hi hold]
      rfl
  case fresh =>
    intro i hi
    rw [hblocks]
    by_cases hold : st.IsFile i
    · rw [h.node hf hold]
      exact hf.fresh hold
    · rw [hnew hi hold]
      exact hf.blocks_pos
  case empty =>
    intro i hi hz
    rcases h.cases hi with hold | ⟨s, -, -, -, -, hs⟩
    · rw [h.node hf hold] at hz
      rw [h.inode hold.1.1]
      exact hf.empty hold hz
    · rw [hs]
      rfl
  case own =>
    intro i j hi hj heq hne
    have hi₀ : st.IsFile i := by
      by_contra hold
      rw [hnew hi hold] at hne
      exact hne rfl
    have hj₀ : st.IsFile j := by
      by_contra hold
      rw [heq, hnew hj hold] at hne
      exact hne rfl
    rw [h.node hf hi₀, h.node hf hj₀] at heq
    rw [h.node hf hi₀] at hne
    exact hf.own hi₀ hj₀ heq hne

end Filed

section Steps

variable {st st' : State} {t i f ip : ℕ} {mode : UInt16} {op : Op} {buf : List UInt8} {z : ℤ}

theorem Rewrote.iIno (hre : Rewrote st st' f ip buf) (j : ℕ) :
    (st'.inode j).iIno = (st.inode j).iIno ∧ (st'.inode j).iFop = (st.inode j).iFop ∧
      (j ≠ ip → st'.inode j = st.inode j) := by
  obtain ⟨B, K, F, size, pos, hst⟩ := hre.frame
  rw [hst, State.inode, Pool.obj_set]
  split
  case isTrue h =>
    subst h
    exact ⟨rfl, rfl, fun hne => absurd rfl hne⟩
  case isFalse => exact ⟨rfl, rfl, fun _ => rfl⟩

theorem Rewrote.isFile (hre : Rewrote st st' f ip buf) (j : ℕ) : st'.IsFile j ↔ st.IsFile j := by
  have hfreed : .inode j ∈ st'.freed ↔ .inode j ∈ st.freed := by
    rcases hre.storage with ⟨-, -, hF, -⟩ | ⟨-, -, -, hF⟩
    · rw [hF]
    · rw [hF]
      split
      · rfl
      · simp
  have hsize : st'.inodes.size = st.inodes.size := by
    obtain ⟨B, K, F, size, pos, hst⟩ := hre.frame
    rw [hst]
    rfl
  rw [State.IsFile, State.IsFile, State.Live, State.Live, hfreed, hsize, (hre.iIno j).2.1]

theorem Rewrote.node (hre : Rewrote st st' f ip buf) (hf : Filed st) (hip : st.IsFile ip)
    {j : ℕ} (hj : st.IsFile j) (hne : j ≠ ip) : st'.node j = st.node j := by
  rw [State.node, (hre.iIno j).1, State.node]
  exact hre.table _ fun heq => hne (hf.apart hj hip heq)

theorem Rewrote.blocks_le (hre : Rewrote st st' f ip buf) : st.blocks.size ≤ st'.blocks.size := by
  rcases hre.storage with ⟨-, hB, -⟩ | ⟨-, -, hB, -⟩ <;> omega

theorem Filed.wrote (hf : Filed st) (hip : st.IsFile ip) (hre : Rewrote st st' f ip buf) :
    Filed st' := by
  have hle := hre.blocks_le
  have hbase : ∀ {j}, st.IsFile j → j ≠ ip →
      (st'.node j).start.base = (st.node j).start.base := fun hj hne => by
    rw [hre.node hf hip hj hne]
  -- The block of the file is new, or the one that it had.
  have hown : ∀ {j}, st.IsFile j → j ≠ ip →
      (st'.node j).start.base = (st'.node ip).start.base → (st'.node j).start.base = 0 := by
    intro j hj hne heq
    rw [hbase hj hne] at heq ⊢
    have hfresh := hf.fresh hj
    rcases hre.storage with ⟨hs, -, -⟩ | ⟨-, hs, -, -⟩
    · rw [hs] at heq
      by_contra hz
      exact hne (hf.own hj hip heq hz)
    · rw [hs] at heq
      dsimp only at heq
      omega
  constructor
  case inited =>
    obtain ⟨B, K, F, size, pos, hst⟩ := hre.frame
    rw [hst]
    exact hf.inited
  case blocks_pos => exact hf.blocks_pos.trans_le hle
  case slot =>
    intro j hj
    rw [hre.isFile] at hj
    obtain ⟨k, hk, hino, huse⟩ := hf.slot hj
    refine ⟨k, hk, (hre.iIno j).1.trans hino, ?_⟩
    by_cases hkip : (k : ℤ) = (st.inode ip).iIno
    · have hnode := hre.inuse
      rw [State.node, State.node, (hre.iIno ip).1, ← hkip] at hnode
      exact hnode.trans huse
    · rw [hre.table _ hkip, huse]
  case apart =>
    intro j j' hj hj' heq
    rw [(hre.iIno j).1, (hre.iIno j').1] at heq
    exact hf.apart ((hre.isFile j).mp hj) ((hre.isFile j').mp hj') heq
  case off =>
    intro j hj
    rw [hre.isFile] at hj
    by_cases hne : j = ip
    · rw [hne]
      rcases hre.storage with ⟨hs, -, -, -⟩ | ⟨-, hs, -, -⟩
      · rw [hs]
        exact hf.off hip
      · rw [hs]
    · rw [hre.node hf hip hj hne]
      exact hf.off hj
  case fresh =>
    intro j hj
    rw [hre.isFile] at hj
    by_cases hne : j = ip
    · rw [hne]
      rcases hre.storage with ⟨hs, hB, -, -⟩ | ⟨-, hs, hB, -⟩
      · rw [hs, hB]
        exact hf.fresh hip
      · rw [hs, hB]
        exact Nat.lt_succ_self _
    · rw [hbase hj hne]
      exact (hf.fresh hj).trans_le hle
  case empty =>
    intro j hj hz
    rw [hre.isFile] at hj
    by_cases hne : j = ip
    · subst hne
      rcases hre.storage with ⟨hs, -, -, hsize⟩ | ⟨-, hs, -, -⟩
      · rw [hs] at hz
        rw [hsize]
        exact hf.empty hip hz
      · rw [hs] at hz
        exact absurd hz hf.blocks_pos.ne'
    · rw [hbase hj hne] at hz
      rw [(hre.iIno j).2.2 hne]
      exact hf.empty hj hz
  case own =>
    intro j j' hj hj' heq hz
    rw [hre.isFile] at hj hj'
    by_cases hne : j = ip
    · by_contra hne'
      rw [hne] at heq hne'
      have := hown hj' (fun h => hne' h.symm) heq.symm
      rw [hne, heq] at hz
      exact hz this
    · by_cases hne' : j' = ip
      · rw [hne'] at heq
        exact absurd (hown hj hne heq) hz
      · rw [hbase hj hne] at hz
        rw [hbase hj hne, hbase hj' hne'] at heq
        exact hf.own hj hj' heq hz

theorem content_congr (hinode : st'.inode i = st.inode i) (hnode : st'.node i = st.node i)
    (hobj : (st.inode i).iSize ≠ 0 →
      st'.blocks.obj (st.node i).start.base = st.blocks.obj (st.node i).start.base) :
    content st' i = content st i := by
  rw [content, content, hinode, hnode]
  by_cases hz : (st.inode i).iSize = 0
  · rw [hz]
    rfl
  · refine List.map_congr_left fun k _ => ?_
    simp only [State.byte, Ptr.base_add, hobj hz]

theorem Rewrote.content (hre : Rewrote st st' f ip buf) (hf : Filed st) (hip : st.IsFile ip)
    (hi : st.IsFile i) (hne : i ≠ ip) : content st' i = content st i := by
  have hnode := hre.node hf hip hi hne
  refine content_congr ((hre.iIno i).2.2 hne) hnode fun hsize => hre.bytes _ fun hbase => hne ?_
  refine (hf.wrote hip hre).own ((hre.isFile i).mpr hi) ((hre.isFile ip).mpr hip) ?_ fun hz => ?_
  · rw [hnode, hbase]
  · rw [hnode] at hz
    exact hsize (hf.empty hi hz)

theorem RootMade.sameFiles (hf : Filed st) {driver : Driver} {fs : ℕ} {dev : List Char}
    {x : Dentry} {j : Inode} {st₁ : State} (hroot : RootMade driver fs dev st st₁ x j)
    (hst : st' = { st₁ with toNamespace := st'.toNamespace }) : SameFiles st st' := by
  have hinit := hf.inited
  have hinodes : st'.inodes = st.inodes.grow.set st.inodes.size fun _ => j := by
    rw [hst, hroot.state_eq]
    rfl
  have hold : ∀ {i}, i < st.inodes.size → st'.inode i = st.inode i := fun hi => by
    rw [State.inode, hinodes, Pool.obj_set_of_ne _ _ _ _ hi.ne]
    rfl
  have hfreed : st'.freed = st.freed := by
    rw [hst, hroot.state_eq]
    rfl
  constructor
  case inited =>
    rw [hst, hroot.state_eq, hinit]
    rfl
  case blocks =>
    rw [hst, hroot.state_eq]
    rfl
  case table =>
    rw [hst, hroot.state_eq]
    simp [State.filesOnMount, hinit]
  case isFile =>
    intro i
    rw [State.IsFile, State.IsFile, State.Live, State.Live, hfreed]
    have hsize : st'.inodes.size = st.inodes.size + 1 := by rw [hinodes]; rfl
    by_cases hlt : i < st.inodes.size
    · rw [hold hlt]
      simp [hlt, hsize, hlt.trans (Nat.lt_succ_self _)]
    · constructor
      · rintro ⟨⟨hlt', -⟩, hfop⟩
        obtain rfl : i = st.inodes.size := by omega
        rw [State.inode, hinodes, Pool.obj_set_self, hroot.iFop] at hfop
        cases hfop
      · exact fun hi => absurd hi.1.1 hlt
  case inode => exact fun hi => hold hi.1.1
  case freed => exact fun b => hfreed ▸ Iff.rfl

/-- A step makes new files and leaves the others alone, or it is a write to a file. -/
theorem Effect.files (hf : Filed st) (he : Effect st op st') :
    (∃ t mode st₁, Kept t mode st st₁ ∧ SameFiles st₁ st') ∨ ∃ t fd f z buf,
      op = .call t (.write fd buf) ∧ st.Running t ∧ OpenOn st t fd f .kvfs ∧
        (st.file f).fMode &&& O_WRONLY ≠ 0 ∧ run (kvfsWrite f buf) st = some (z, st') := by
  have hsame : SameFiles st st' → ∃ t mode st₁, Kept t mode st st₁ ∧ SameFiles st₁ st' :=
    fun hs => ⟨0, 0, st, .refl, hs⟩
  cases he with
  | same => exact .inl (hsame .refl)
  | looked _ hk => exact .inl ⟨_, _, _, hk, .refl⟩
  | opened _ _ hk _ _ hopen =>
    refine .inl ⟨_, _, _, hk, ?_⟩
    rcases hopen with ⟨-, -, rfl⟩ | ⟨k, -, -, -, rfl⟩
    · exact .of_eq rfl rfl rfl rfl (fun _ => Iff.rfl) fun _ => Iff.rfl
    · exact .of_eq rfl rfl rfl rfl (fun _ => Iff.rfl) fun _ => Iff.rfl
  | read => exact .inl (hsame (.of_eq rfl rfl rfl rfl (fun _ => Iff.rfl) fun _ => Iff.rfl))
  | printed => exact .inl (hsame (.of_eq rfl rfl rfl rfl (fun _ => Iff.rfl) fun _ => Iff.rfl))
  | @wrote t f fd z buf st' ht ho hr =>
    by_cases hw : (st.file f).fMode &&& O_WRONLY = 0
    · obtain ⟨-, rfl⟩ := run_inj hr (run_kvfsWrite_readonly hw)
      exact .inl (hsame (.of_eq rfl rfl rfl rfl (fun _ => Iff.rfl) fun _ => Iff.rfl))
    · exact .inr ⟨t, fd, f, z, buf, rfl, ht, ho, hw, hr⟩
  | sought _ hr =>
    rcases llseek_cases hr with rfl | ⟨pos, rfl⟩
    · exact .inl (hsame .refl)
    · exact .inl (hsame (.of_eq rfl rfl rfl rfl (fun _ => Iff.rfl) fun _ => Iff.rfl))
  | mounted _ _ hroot hst => exact .inl (hsame (hroot.sameFiles hf hst))
  | unmounted hu =>
    refine .inl (hsame ?_)
    rw [hu.state_eq]
    exact .of_eq rfl rfl rfl rfl (fun _ => by simp) fun _ => by simp
  | closed =>
    exact .inl (hsame (.of_eq rfl rfl rfl rfl (fun _ => by simp [State.withFd])
      fun _ => by simp [State.withFd]))
  | created =>
    refine .inl (hsame ?_)
    unfold kmtCreate
    dsimp only
    split
    · exact .refl
    · exact .of_eq rfl rfl rfl rfl (fun _ => Iff.rfl) fun _ => Iff.rfl
  | tornDown => exact .inl (hsame (.of_eq rfl rfl rfl rfl (fun _ => Iff.rfl) fun _ => Iff.rfl))
  | newFs => exact .inl (hsame (.of_eq rfl rfl rfl rfl (fun _ => Iff.rfl) fun _ => Iff.rfl))
  | world => exact .inl (hsame (.of_eq rfl rfl rfl rfl (fun _ => Iff.rfl) fun _ => Iff.rfl))

theorem Held.openOn (h : Held st) {fd : ℤ} {d : Driver} (ht : st.Running t)
    (ho : OpenOn st t fd f d) : f < st.files.size := h.held ht ho.entry

theorem Held.isFile (h : Held st) {fd : ℤ} (ht : st.Running t) (ho : OpenOn st t fd f .kvfs) :
    st.IsFile (st.file f).fInode := h.opened (h.openOn ht ho) ho.driver

theorem Filed.effect (hf : Filed st) (hh : Held st) (he : Effect st op st') : Filed st' := by
  rcases he.files hf with ⟨t, mode, st₁, hk, hs⟩ | ⟨t, fd, f, z, buf, -, ht, ho, hw, hr⟩
  · exact (hk.filed hf).same hs
  · exact hf.wrote (hh.isFile ht ho) (run_kvfsWrite_storage hw hr)

theorem Effect.isFile (hf : Filed st) (he : Effect st op st') (hi : st.IsFile i) :
    st'.IsFile i := by
  rcases he.files hf with ⟨t, mode, st₁, hk, hs⟩ | ⟨t, fd, f, z, buf, -, ht, ho, hw, hr⟩
  · exact (hs.isFile i).mpr ((hk.isFile hi.1.1).mpr hi)
  · exact ((run_kvfsWrite_storage hw hr).isFile i).mpr hi

theorem Effect.content (hf : Filed st) (hh : Held st) (he : Effect st op st') (hi : st.IsFile i)
    (hne : content st' i ≠ content st i) : ∃ t fd f buf, op = .call t (.write fd buf) ∧
      st.Running t ∧ OpenOn st t fd f .kvfs ∧ (st.file f).fInode = i ∧
        (st.file f).fMode &&& O_WRONLY ≠ 0 := by
  rcases he.files hf with ⟨t, mode, st₁, hk, hs⟩ | ⟨t, fd, f, z, buf, rfl, ht, ho, hw, hr⟩
  · have hi₁ := (hk.isFile hi.1.1).mpr hi
    have hblocks : st'.blocks = st.blocks := by rw [hs.blocks, hk.rest]
    refine absurd (content_congr ?_ ?_ fun _ => by rw [hblocks]) hne
    · rw [hs.inode hi₁, hk.inode hi.1.1]
    · rw [hs.node hi₁, hk.node hf hi]
  · refine ⟨t, fd, f, buf, rfl, ht, ho, ?_, hw⟩
    by_contra hfile
    exact hne ((run_kvfsWrite_storage hw hr).content hf (hh.isFile ht ho) hi (Ne.symm hfile))

theorem Effect.owner (hf : Filed st) (he : Effect st op st') (hi : st.IsFile i) :
    ∃ size, st'.inode i = { st.inode i with iSize := size } := by
  rcases he.files hf with ⟨t, mode, st₁, hk, hs⟩ | ⟨t, fd, f, z, buf, -, ht, ho, hw, hr⟩
  · refine ⟨(st.inode i).iSize, ?_⟩
    rw [hs.inode ((hk.isFile hi.1.1).mpr hi), hk.inode hi.1.1]
  · obtain ⟨B, K, F, size, pos, hst⟩ := (run_kvfsWrite_storage hw hr).frame
    rw [hst, State.inode, Pool.obj_set]
    split
    case isTrue heq => exact ⟨size, by rw [heq]; rfl⟩
    case isFalse => exact ⟨(st.inode i).iSize, rfl⟩

theorem kmtCreate_entry {u k g : ℕ} (ht : (kmtCreate st t).Running u)
    (hg : ((kmtCreate st t).thread u).fileDescriptors k = .file g) :
    st.Running u ∧ (kmtCreate st t).thread u = st.thread u := by
  rcases kmtCreate_cases st t with heq | ⟨i, -, heq⟩
  · rw [heq] at ht ⊢
    exact ⟨ht, rfl⟩
  · rw [heq, State.Running] at ht
    rw [heq] at hg ⊢
    dsimp only at ht hg ⊢
    rw [Function.update_apply] at hg ht ⊢
    split at hg
    case isTrue =>
      dsimp only [newDescriptors] at hg
      split at hg <;> cases hg
    case isFalse hne =>
      rw [if_neg (by omega)] at ht
      rw [if_neg hne]
      exact ⟨ht, rfl⟩

/-- `vfs_open` makes an open file for the dentry that `make_path` has found or made. -/
structure Opened (t : ℕ) (path : List Char) (flags : UInt32) (st st₁ st' : State) (d ip : ℕ)
    (nd : Nameidata) : Prop where
  found : run (makePath t path false ACL_DEFAULT) st = some ((some d, nd), st₁)
  kept : Kept t ACL_DEFAULT st st₁
  dInode : (st₁.dentry d).dInode = some ip
  live : st₁.Live ip
  inodes : st'.inodes = st₁.inodes
  freed : st'.freed = st₁.freed
  files : st'.files =
    st.files.grow.set st.files.size fun _ => ⟨d, ip, 0, flags, (st₁.inode ip).iFop⟩

theorem run_kvfsWrite_files (hr : run (kvfsWrite f buf) st = some (z, st')) :
    ∃ pos, st'.files = st.files.set f fun g => { g with fPos := pos } := by
  obtain ⟨B, K, F, size, pos, hst⟩ := run_kvfsWrite_frame hr
  exact ⟨pos, congrArg State.files hst⟩

theorem run_llseek_files {offset whence : ℤ}
    (hr : run (llseek f offset whence) st = some (z, st')) :
    ∃ pos, st'.files = st.files.set f fun g => { g with fPos := pos } := by
  rcases llseek_cases hr with rfl | ⟨pos, rfl⟩
  · exact ⟨(st'.file f).fPos, (Pool.set_id _ _ _ rfl).symm⟩
  · exact ⟨pos, rfl⟩

/-- A step opens a file, moves one by a write or a seek, or changes no open file. -/
theorem Effect.opens_or_moves (he : Effect st op st') : st'.files = st.files ∨
    (∃ t path flags st₁ d ip nd, op = .call t (.open path flags) ∧
      Opened t path flags st st₁ st' d ip nd) ∨
    (∃ t fd f buf ret, op = .call t (.write fd buf) ∧ st.Running t ∧ OpenOn st t fd f .kvfs ∧
      run (kvfsWrite f buf) st = some (ret, st')) ∨
    ∃ t fd f d offset whence ret, op = .call t (.lseek fd offset whence) ∧ OpenOn st t fd f d ∧
      run (llseek f offset whence) st = some (ret, st') := by
  cases he with
  | same => exact .inl rfl
  | looked _ hk => exact .inl (by rw [hk.rest])
  | @opened t d ip path flags nd ret st₁ st' hmake _ hk hip hlive hopen =>
    have hfiles : st₁.files = st.files := by rw [hk.rest]
    refine .inr (.inl ⟨t, path, flags, st₁, d, ip, nd, rfl, ⟨hmake, hk, hip, hlive, ?_, ?_, ?_⟩⟩)
    · rcases hopen with ⟨-, -, rfl⟩ | ⟨i, -, -, -, rfl⟩ <;> rfl
    · rcases hopen with ⟨-, -, rfl⟩ | ⟨i, -, -, -, rfl⟩ <;> rfl
    · rw [← hfiles]
      rcases hopen with ⟨-, -, rfl⟩ | ⟨i, -, -, -, rfl⟩ <;> rfl
  | read => exact .inl rfl
  | printed => exact .inl rfl
  | wrote ht ho hr => exact .inr (.inr (.inl ⟨_, _, _, _, _, rfl, ht, ho, hr⟩))
  | sought ho hr => exact .inr (.inr (.inr ⟨_, _, _, _, _, _, _, rfl, ho, hr⟩))
  | mounted _ _ hroot hst => exact .inl (by rw [hst, hroot.state_eq]; rfl)
  | unmounted hu => exact .inl (by rw [hu.state_eq])
  | closed => exact .inl rfl
  | @created t =>
    rcases kmtCreate_cases st t with heq | ⟨i, -, heq⟩
    · exact .inl (by rw [heq])
    · exact .inl (by rw [heq])
  | tornDown => exact .inl rfl
  | newFs => exact .inl rfl
  | world => exact .inl rfl

theorem Effect.file (he : Effect st op st') (hf : f < st'.files.size) :
    (f < st.files.size ∧ ∃ pos, st'.file f = { st.file f with fPos := pos }) ∨
      f = st.files.size ∧ ∃ t path flags st₁ d ip nd, op = .call t (.open path flags) ∧
        Opened t path flags st st₁ st' d ip nd := by
  have hmoved : ∀ {g pos}, st'.files = st.files.set g (fun x => { x with fPos := pos }) →
      f < st.files.size ∧ ∃ pos, st'.file f = { st.file f with fPos := pos } := by
    intro g pos hfiles
    refine ⟨by rwa [hfiles] at hf, ?_⟩
    rw [State.file, hfiles, Pool.obj_set]
    split
    case isTrue heq => exact ⟨pos, by rw [heq]; rfl⟩
    case isFalse => exact ⟨(st.file f).fPos, rfl⟩
  rcases he.opens_or_moves with hfiles | ⟨t, path, flags, st₁, d, ip, nd, hop, ho⟩ |
      ⟨t, fd, g, buf, ret, -, -, ho, hr⟩ | ⟨t, fd, g, d, offset, whence, ret, -, -, hr⟩
  · rw [State.file, hfiles]
    exact .inl ⟨hfiles ▸ hf, (st.file f).fPos, rfl⟩
  · have hlt : f < st.files.size + 1 := by
      rw [ho.files] at hf
      exact hf
    by_cases hold : f < st.files.size
    · rw [State.file, ho.files, Pool.obj_set_of_ne _ _ _ _ hold.ne]
      exact .inl ⟨hold, (st.file f).fPos, rfl⟩
    · exact .inr ⟨by omega, t, path, flags, st₁, d, ip, nd, hop, ho⟩
  · obtain ⟨pos, hfiles⟩ := run_kvfsWrite_files hr
    exact .inl (hmoved hfiles)
  · obtain ⟨pos, hfiles⟩ := run_llseek_files hr
    exact .inl (hmoved hfiles)

theorem Effect.descriptor {u k : ℕ} (he : Effect st op st') (ht : st'.Running u)
    (hg : (st'.thread u).fileDescriptors k = .file f) :
    st.Running u ∧ (st'.thread u).uid = (st.thread u).uid ∧
      (st'.thread u).gid = (st.thread u).gid ∧ ((st.thread u).fileDescriptors k = .file f ∨
        f = st.files.size ∧ ∃ path flags st₁ d ip nd, op = .call u (.open path flags) ∧
          Opened u path flags st st₁ st' d ip nd) := by
  have hsame : st'.thread = st.thread → st'.threadPool = st.threadPool →
      st.Running u ∧ (st'.thread u).uid = (st.thread u).uid ∧
        (st'.thread u).gid = (st.thread u).gid ∧ ((st.thread u).fileDescriptors k = .file f ∨
          f = st.files.size ∧ ∃ path flags st₁ d ip nd, op = .call u (.open path flags) ∧
            Opened u path flags st st₁ st' d ip nd) := by
    intro hthread hpool
    rw [hthread] at hg ⊢
    exact ⟨⟨ht.1, ht.2.1, hpool ▸ ht.2.2⟩, rfl, rfl, .inl hg⟩
  cases he with
  | same => exact hsame rfl rfl
  | looked _ hk => exact hsame (by rw [hk.rest]) (by rw [hk.rest])
  | @opened t d ip path flags nd ret st₁ st' hmake h₁ hk hip hlive hopen =>
    have hfiles : st₁.files = st.files := by rw [hk.rest]
    have hthread : st₁.thread = st.thread := by rw [hk.rest]
    have hpool : st₁.threadPool = st.threadPool := by rw [hk.rest]
    rcases hopen with ⟨hfull, hret, rfl⟩ | ⟨i, hi, hfree, hret, rfl⟩
    · exact hsame hthread hpool
    · have hrunning : st.Running u := ⟨ht.1, ht.2.1, hpool ▸ ht.2.2⟩
      have howner : (((st₁.withOpen ⟨d, ip, 0, flags, (st₁.inode ip).iFop⟩).withFd t i
          (.file st₁.files.size)).thread u).uid = (st.thread u).uid ∧
          (((st₁.withOpen ⟨d, ip, 0, flags, (st₁.inode ip).iFop⟩).withFd t i
            (.file st₁.files.size)).thread u).gid = (st.thread u).gid := by
        simp only [State.withFd, State.withOpen, hthread, Function.update_apply]
        split
        case isTrue heq => exact ⟨by rw [heq], by rw [heq]⟩
        case isFalse => exact ⟨rfl, rfl⟩
      refine ⟨hrunning, howner.1, howner.2, ?_⟩
      rcases withFd_entry hg with ⟨rfl, -, hnew⟩ | hold
      · cases hnew
        exact .inr ⟨by rw [hfiles], path, flags, st₁, d, ip, nd, rfl, hmake, hk, hip, hlive, rfl,
          rfl, by rw [← hfiles]; rfl⟩
      · rw [State.withOpen, hthread] at hold
        exact .inl hold
  | read => exact hsame rfl rfl
  | printed => exact hsame rfl rfl
  | @wrote t g fd z buf st' _ ho hr =>
    obtain ⟨B, K, F, size, pos, hst⟩ := run_kvfsWrite_frame hr
    exact hsame (by rw [hst]) (by rw [hst])
  | sought _ hr =>
    rcases llseek_cases hr with rfl | ⟨pos, rfl⟩
    · exact hsame rfl rfl
    · exact hsame rfl rfl
  | mounted _ _ hroot hst =>
    exact hsame (by rw [hst, hroot.state_eq]; rfl) (by rw [hst, hroot.state_eq]; rfl)
  | unmounted hu => exact hsame (by rw [hu.state_eq]) (by rw [hu.state_eq])
  | @closed t g fd =>
    refine ⟨ht, ?_, ?_, ?_⟩
    · simp only [State.withFd, Function.update_apply]
      split
      case isTrue heq => rw [heq]
      case isFalse => rfl
    · simp only [State.withFd, Function.update_apply]
      split
      case isTrue heq => rw [heq]
      case isFalse => rfl
    · rcases withFd_entry hg with ⟨-, -, hnull⟩ | hold
      · cases hnull
      · exact .inl hold
  | @created t =>
    obtain ⟨hrunning, hthread⟩ := kmtCreate_entry ht hg
    rw [hthread] at hg ⊢
    exact ⟨hrunning, rfl, rfl, .inl hg⟩
  | @tornDown t v =>
    refine ⟨⟨ht.1, ht.2.1, ?_⟩, rfl, rfl, .inl hg⟩
    have hpool := ht.2.2
    dsimp only at hpool
    rw [Function.update_apply] at hpool
    split at hpool
    · cases hpool
    · exact hpool
  | newFs => exact hsame rfl rfl
  | world => exact hsame rfl rfl

theorem Opened.isFile {st₁ : State} {path : List Char} {flags : UInt32} {d : ℕ} {nd : Nameidata}
    (ho : Opened t path flags st st₁ st' d ip nd)
    (hkvfs : (st'.file st.files.size).fOp = some .kvfs) :
    st'.IsFile (st'.file st.files.size).fInode ∧ st₁.IsFile ip := by
  have hfile : st'.file st.files.size = ⟨d, ip, 0, flags, (st₁.inode ip).iFop⟩ := by
    rw [State.file, ho.files, Pool.obj_set_self]
  rw [hfile] at hkvfs ⊢
  have hlive := ho.live
  refine ⟨?_, hlive, hkvfs⟩
  rw [State.Live, ← ho.inodes, ← ho.freed] at hlive
  refine ⟨hlive, ?_⟩
  rw [State.inode, ho.inodes]
  exact hkvfs

theorem Effect.files_le (he : Effect st op st') : st.files.size ≤ st'.files.size := by
  rcases he.opens_or_moves with hfiles | ⟨t, path, flags, st₁, d, ip, nd, -, ho⟩ |
      ⟨t, fd, f, buf, ret, -, -, -, hr⟩ | ⟨t, fd, f, d, offset, whence, ret, -, -, hr⟩
  · rw [hfiles]
  · rw [ho.files]
    exact Nat.le_succ _
  · obtain ⟨pos, hfiles⟩ := run_kvfsWrite_files hr
    rw [hfiles]
    exact le_rfl
  · obtain ⟨pos, hfiles⟩ := run_llseek_files hr
    rw [hfiles]
    exact le_rfl

theorem Held.effect (h : Held st) (hf : Filed st) (he : Effect st op st') : Held st' where
  opened hlt hkvfs := by
    rcases he.file hlt with ⟨hold, pos, hfile⟩ | ⟨rfl, t, path, flags, st₁, d, ip, nd, -, ho⟩
    · rw [hfile] at hkvfs ⊢
      exact he.isFile hf (h.opened hold hkvfs)
    · exact (ho.isFile hkvfs).1
  held ht hg := by
    obtain ⟨ht, -, -, hold | ⟨rfl, path, flags, st₁, d, ip, nd, -, ho⟩⟩ := he.descriptor ht hg
    · exact (h.held ht hold).trans_le he.files_le
    · rw [ho.files]
      exact Nat.lt_succ_self _

theorem Started.not_isFile (hs : Started st) : ¬ st.IsFile i := by
  obtain ⟨st₀, st₁, hb, hr, rfl⟩ := hs
  obtain ⟨x, j, st₂, hmade, hx, hst⟩ := started_namespace hb hr
  have hinodes : st₁.inodes = st₀.inodes.grow.set 0 fun _ => j := by
    rw [hst, hmade.state_eq, ← hb.inodes]
    rfl
  rintro ⟨⟨hlt, -⟩, hfop⟩
  change i < st₁.inodes.size at hlt
  change (st₁.inode i).iFop = some .kvfs at hfop
  rw [hinodes, Pool.size_set, Pool.size_grow, hb.inodes] at hlt
  obtain rfl : i = 0 := by omega
  rw [State.inode, hinodes, Pool.obj_set_self, hmade.iFop] at hfop
  cases hfop

theorem filed_started (hs : Started st) : Filed st := by
  have hnone : ∀ {i}, ¬ st.IsFile i := hs.not_isFile
  obtain ⟨st₀, st₁, hb, hr, rfl⟩ := hs
  obtain ⟨x, j, st₂, hmade, hx, hst⟩ := started_namespace hb hr
  constructor
  case inited =>
    change st₁.kvfsInited = true
    rw [hst, hmade.state_eq]
    exact Bool.or_true _
  case blocks_pos =>
    change 0 < st₁.blocks.size
    rw [hst, hmade.state_eq]
    change 0 < st₀.blocks.size
    rw [hb.blocks]
    exact Nat.one_pos
  case slot => exact fun hi => absurd hi hnone
  case apart => exact fun hi => absurd hi hnone
  case off => exact fun hi => absurd hi hnone
  case fresh => exact fun hi => absurd hi hnone
  case empty => exact fun hi => absurd hi hnone
  case own => exact fun hi => absurd hi hnone

theorem held_started (hs : Started st) : Held st := by
  have hfiles := hs.files_size
  constructor
  case opened =>
    intro f hlt
    omega
  case held =>
    intro t k f ht hfd
    obtain rfl := hs.running.mp ht
    rw [hs.fileDescriptors, newDescriptors] at hfd
    split at hfd <;> cases hfd

/-- What holds along runs with proper file systems. -/
structure Settled (st : State) : Prop where
  sound : Sound st
  filed : Filed st
  held : Held st

theorem settled_started (hs : Started st) : Settled st :=
  ⟨sound_started hs, filed_started hs, held_started hs⟩

theorem settled_exec (h : Settled st) (hp : Proper st op) (hs : exec st op = some st') :
    Settled st' :=
  have he := effect_of_exec h.sound hs
  ⟨sound_exec h.sound hp hs, h.filed.effect h.held he, h.held.effect h.filed he⟩

theorem reach_settled (hr : Reach st Proper) : Settled st := by
  obtain ⟨st₀, h₀, hr⟩ := hr
  exact hr.invariant (settled_started h₀) fun h hp hs => settled_exec h hp hs

end Steps

end NSOS.Vfs
