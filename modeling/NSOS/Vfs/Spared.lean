import NSOS.Vfs.Failing
import NSOS.Vfs.Storage

/-! # Spared states

What an operation must leave alone when it fails for lack of memory, and how a
new entry of a directory shows for good. A lookup that finds nothing spares the
file system.
-/

namespace NSOS.Vfs

open Basis Prog

/-- The thread pool, the trees, the mounts, the descriptors and the contents of the files are as
before. There may be memory that nothing leads to. -/
structure Spared (st st' : State) : Prop where
  threadPool : st'.threadPool = st.threadPool
  thread : st'.thread = st.thread
  rootDentry : st'.rootDentry = st.rootDentry
  dentries_le : st.dentries.size ≤ st'.dentries.size
  dentry : ∀ {d}, d < st.dentries.size → st'.dentry d = st.dentry d
  mntHead : st'.mntHead = st.mntHead
  mounts_le : st.mounts.size ≤ st'.mounts.size
  mount : ∀ {m}, m < st.mounts.size → st'.mount m = st.mount m
  file : ∀ {i}, st.IsFile i → st'.IsFile i ∧ (st'.inode i).iSize = (st.inode i).iSize ∧
    content st' i = content st i

/-- The directory `d` has an entry that is not older than `n`. -/
structure Raised (d n : ℕ) (st : State) : Prop where
  lt : d < n
  le : n ≤ st.dentries.size
  newer : ∃ c, (st.dentry d).dSubdirs = some c ∧ n ≤ c

variable {st st' st'' : State} {nd : Nameidata} {name : List Char} {k : Kind} {t d n : ℕ}
  {mode : UInt16}

theorem Spared.refl : Spared st st :=
  ⟨rfl, rfl, rfl, le_rfl, fun _ => rfl, rfl, le_rfl, fun _ => rfl, fun hi => ⟨hi, rfl, rfl⟩⟩

theorem Spared.trans (h : Spared st st') (h' : Spared st' st'') : Spared st st'' where
  threadPool := h'.threadPool.trans h.threadPool
  thread := h'.thread.trans h.thread
  rootDentry := h'.rootDentry.trans h.rootDentry
  dentries_le := h.dentries_le.trans h'.dentries_le
  dentry hd := (h'.dentry (hd.trans_le h.dentries_le)).trans (h.dentry hd)
  mntHead := h'.mntHead.trans h.mntHead
  mounts_le := h.mounts_le.trans h'.mounts_le
  mount hm := (h'.mount (hm.trans_le h.mounts_le)).trans (h.mount hm)
  file hi := by
    obtain ⟨hi₁, hsize₁, hcontent₁⟩ := h.file hi
    obtain ⟨hi₂, hsize₂, hcontent₂⟩ := h'.file hi₁
    exact ⟨hi₂, hsize₂.trans hsize₁, hcontent₂.trans hcontent₁⟩

theorem Enters.spared (he : Enters t mode st nd name .lost st') : Spared st st' := by
  obtain ⟨y, j, F, he⟩ := he
  have hns : st'.toNamespace = st.toNamespace.born y := he.namespace_eq
  have hinode : ∀ {i}, st.IsFile i → st'.inode i = st.inode i := fun hi => he.inode_of_lt hi.1.1
  constructor
  case threadPool => rw [he.state_eq]
  case thread => rw [he.state_eq]
  case rootDentry => rw [hns]; rfl
  case dentries_le =>
    rw [hns]
    exact Nat.le_succ _
  case dentry =>
    intro d hd
    rw [hns, Namespace.dentry_born_of_lt hd]
  case mntHead => rw [hns]; rfl
  case mounts_le => exact (congrArg (·.mounts.size) hns).ge
  case mount =>
    intro m hm
    rw [hns]
    rfl
  case file =>
    intro i hi
    have hnode : st'.node i = st.node i := by
      rw [State.node, State.node, hinode hi, he.state_eq]
      rfl
    refine ⟨⟨he.live hi.1, ?_⟩, ?_, content_congr (hinode hi) hnode fun _ => ?_⟩
    · rw [hinode hi]
      exact hi.2
    · rw [hinode hi]
    · rw [he.state_eq]

theorem Enters.raised (he : Enters t mode st nd name k st') (hlt : nd.dentry < st.dentries.size)
    (hk : k ≠ .lost) : Raised nd.dentry st.dentries.size st' := by
  obtain ⟨y, j, F, he⟩ := he
  have hns := he.namespace_eq
  refine ⟨hlt, ?_, st.dentries.size, ?_, le_rfl⟩
  · rw [hns, Namespace.size_enter]
    exact Nat.le_succ _
  · rw [hns, Namespace.enter, if_neg hk, Namespace.dentry_link hlt.ne, if_pos rfl]

theorem Raised.enters (h : Raised d n st) (he : Enters t mode st nd name k st')
    (hlt : nd.dentry < st.dentries.size) : Raised d n st' := by
  obtain ⟨y, j, F, he⟩ := he
  have hns := he.namespace_eq
  have hd := h.lt.trans_le h.le
  have hborn : (st.toNamespace.born y).dentry d = st.dentry d := Namespace.dentry_born_of_lt hd
  refine ⟨h.lt, ?_, ?_⟩
  · rw [hns, Namespace.size_enter]
    exact h.le.trans (Nat.le_succ _)
  rw [hns, Namespace.enter]
  split
  · rw [hborn]
    exact h.newer
  · rw [Namespace.dentry_link hlt.ne]
    by_cases hnd : d = nd.dentry
    · rw [if_pos hnd]
      exact ⟨_, rfl, h.le⟩
    · rw [if_neg hnd, if_neg hd.ne, hborn]
      exact h.newer

theorem Raised.mono {n' : ℕ} (h : Raised d n st) (hlt : d < n') (hle : n' ≤ n) :
    Raised d n' st := by
  obtain ⟨c, hc, hn⟩ := h.newer
  exact ⟨hlt, hle.trans h.le, c, hc, hle.trans hn⟩

theorem Raised.congr (h : Raised d n st) (hns : st'.toNamespace = st.toNamespace) :
    Raised d n st' := by
  refine ⟨h.lt, ?_, ?_⟩
  · rw [hns]
    exact h.le
  · rw [hns]
    exact h.newer

theorem Raised.not_spared (h : Raised d st.dentries.size st') (hwf : st.toNamespace.Wf) :
    ¬ Spared st st' := by
  intro hs
  obtain ⟨c, hc, hle⟩ := h.newer
  obtain ⟨hchain, hmem⟩ := hwf.chain_entries h.lt
  rw [hs.dentry h.lt] at hc
  rw [hc] at hchain
  cases hl : st.entries d with
  | nil =>
    rw [hl] at hchain
    cases hchain
  | cons a l =>
    rw [hl] at hchain
    obtain rfl := Option.some.inj hchain.1
    exact absurd (hmem c (hl ▸ List.mem_cons_self)).1 (not_lt.mpr hle)

end NSOS.Vfs
