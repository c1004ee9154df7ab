import NSOS.Vfs.ByteArray
import NSOS.Vfs.Ledger

/-! # Emptying a file

`kvfs_truncate` gives back the storage of a file, but the slot of the file keeps
pointing to it. Reads then return the old bytes, and the storage is given back
again later. So the operation empties a file exactly when there is no storage.
-/

namespace NSOS.Vfs

open Basis Prog

section Uses

variable {st st' st₀ st₁ : State} {fp ip dp n : ℕ} {buf : List UInt8} {ret : ℤ}

/-- What the users of a file do when they may empty it: they read it, write to it and move in it,
and they open and close descriptors. -/
inductive Treatment where
  | truncate
  | write (fp : ℕ) (buf : List UInt8)
  | read (fp count : ℕ)
  | seek (fp : ℕ) (offset whence : ℤ)
  | descriptors (files : Pool File)

/-- The file with the inode `ip` is treated. -/
def treat (ip : ℕ) (st : State) : Treatment → Option State
  | .truncate => (run (kvfsTruncate ip) st).map Prod.snd
  | .write fp buf =>
    if (st.file fp).fInode = ip then (run (kvfsWrite fp buf) st).map Prod.snd else none
  | .read fp count =>
    if (st.file fp).fInode = ip then (run (kvfsRead fp count) st).map Prod.snd else none
  | .seek fp offset whence =>
    if (st.file fp).fInode = ip then (run (kvfsLlseek fp offset whence) st).map Prod.snd else none
  | .descriptors files => some { st with files := files }

abbrev Treats (ip : ℕ) : State → Treatment → State → Prop :=
  fun st u st' => treat ip st u = some st'

/-- While a file has no storage, it is empty. -/
structure Bare (st : State) (ip : ℕ) : Prop where
  blocks_pos : 0 < st.blocks.size
  endPtr : (st.node ip).start = .null → (st.node ip).endPtr = .null
  size : (st.node ip).start = .null → (st.inode ip).iSize = 0

theorem Bare.congr (h : Bare st ip) (hnode : st'.node ip = st.node ip)
    (hsize : (st'.inode ip).iSize = (st.inode ip).iSize)
    (hblocks : st.blocks.size ≤ st'.blocks.size) : Bare st' ip where
  blocks_pos := h.blocks_pos.trans_le hblocks
  endPtr hs := by
    rw [hnode] at hs ⊢
    exact h.endPtr hs
  size hs := by
    rw [hnode] at hs
    exact hsize.trans (h.size hs)

theorem Stored.bare (hs : Stored st ip) : Bare st ip where
  blocks_pos := (Nat.zero_le _).trans_lt hs.fresh
  endPtr hnull := by
    rw [hs.endPtr, hs.empty hnull, hnull]
    rfl
  size := hs.empty

theorem Bare.wrote (h : Bare st (st.file fp).fInode)
    (hr : run (kvfsWrite fp buf) st = some (ret, st')) : Bare st' (st.file fp).fInode := by
  by_cases hw : (st.file fp).fMode &&& O_WRONLY = 0
  · obtain ⟨-, rfl⟩ := run_inj hr (run_kvfsWrite_readonly hw)
    exact h.congr rfl rfl le_rfl
  rcases run_kvfsWrite_cases hw hr with ⟨hfits, hr⟩ | ⟨-, B, last, hB, -, hr⟩
  · -- The storage stays, and the size with it.
    obtain ⟨-, -, hnode, hblocks, -, -, hsize⟩ := run_kvfsStore_rewrites rfl hr
    exact h.congr hnode (hsize hfits) hblocks.ge
  · -- The new block is not at the null pointer.
    obtain ⟨-, -, hnode, hblocks, -⟩ := run_kvfsStore_rewrites rfl hr
    have hne : (st'.node (st.file fp).fInode).start ≠ .null := by
      rw [hnode]
      intro hnull
      exact h.blocks_pos.ne' (congrArg Ptr.base hnull)
    refine ⟨?_, fun hnull => absurd hnull hne, fun hnull => absurd hnull hne⟩
    rw [hblocks, hB]
    exact Nat.succ_pos _

/-- A treatment truncates the file or writes to it, or it changes descriptors only. -/
theorem Treats.cases {u : Treatment} (h : Treats ip st u st') :
    st' = st.truncate ip ∨
      (∃ fp buf ret, (st.file fp).fInode = ip ∧ run (kvfsWrite fp buf) st = some (ret, st')) ∨
        ∃ files, st' = { st with files := files } := by
  unfold Treats treat at h
  cases u with
  | truncate =>
    rw [run_kvfsTruncate] at h
    exact .inl (Option.some.inj h).symm
  | write fp buf =>
    obtain ⟨hip, h⟩ := Option.ite_none_right_eq_some.mp h
    obtain ⟨⟨ret, st₁⟩, hr, rfl⟩ := Option.map_eq_some_iff.mp h
    exact .inr (.inl ⟨fp, buf, ret, hip, hr⟩)
  | read fp count =>
    obtain ⟨-, h⟩ := Option.ite_none_right_eq_some.mp h
    obtain ⟨⟨ret, st₁⟩, hr, rfl⟩ := Option.map_eq_some_iff.mp h
    exact .inr (.inr ⟨st.files, idle_kvfsRead.same hr⟩)
  | seek fp offset whence =>
    obtain ⟨-, h⟩ := Option.ite_none_right_eq_some.mp h
    obtain ⟨⟨ret, st₁⟩, hr, rfl⟩ := Option.map_eq_some_iff.mp h
    rcases llseek_cases hr with rfl | ⟨pos, rfl⟩
    · exact .inr (.inr ⟨st₁.files, rfl⟩)
    · exact .inr (.inr ⟨_, rfl⟩)
  | descriptors files => exact .inr (.inr ⟨files, (Option.some.inj h).symm⟩)

theorem Bare.treat {u : Treatment} (h : Bare st ip) (hs : Treats ip st u st') : Bare st' ip := by
  rcases hs.cases with rfl | ⟨fp, buf, ret, rfl, hr⟩ | ⟨files, rfl⟩
  · refine ⟨h.blocks_pos, ?_, fun _ => ?_⟩
    · rw [node_truncate]
      exact h.endPtr
    · simp [State.truncate, State.inode]
  · exact h.wrote hr
  · exact h.congr rfl rfl le_rfl

theorem bare_of_treats (hb : 0 < st₀.blocks.size)
    (hc : run (kvfsCreate ip dp) st₀ = some (false, st₁))
    (hr : Run (Treats ip) (fun _ _ => True) st₁ st) : Bare st ip :=
  hr.invariant (stored_kvfsCreate hb hc).bare fun h _ hs => Bare.treat h hs

theorem Bare.stored (h : Bare st ip) (hnull : (st.node ip).start = .null) : Stored st ip := by
  have hsize := h.size hnull
  have hend := h.endPtr hnull
  have hpos := h.blocks_pos
  constructor <;> simp [hnull, hsize, hend, Ptr.null, Ptr.add, hpos]

end Uses

section Emptied

variable {st st' st₀ st₁ : State} {ip dp : ℕ}

/-- `kvfs_truncate` has made a file empty. Its size is zero, reads at any position store only the
newline, the storage that it had is given back once, whatever happens to the file from then on, and
the end of the storage is where the size says. -/
structure Empties (st : State) (ip : ℕ) (st' : State) : Prop where
  size : (st'.inode ip).iSize = 0
  reads : ∀ {files : Pool File} {fq : ℕ} (count : ℕ), (files.obj fq).fInode = ip →
    0 ≤ (files.obj fq).fPos → (files.obj fq).fPos < 2 ^ 31 →
      run (kvfsRead fq count) { st' with files := files } =
        some ((toInt (endRead [] count).length, endRead [] count), { st' with files := files })
  released : ∀ {st₂}, (st.node ip).start ≠ .null → Run (Treats ip) (fun _ _ => True) st' st₂ →
    st₂.freed.count (.block (st.node ip).start.base) = 1
  span : (st'.node ip).endPtr = (st'.node ip).start.add (st'.inode ip).iSize

theorem treats_truncate : Treats ip st .truncate (st.truncate ip) := by
  rw [Treats, treat, run_kvfsTruncate]
  rfl

theorem Bare.empties (h : Bare st ip) (hnull : (st.node ip).start = .null) :
    Empties st ip (st.truncate ip) := by
  have hbare := h.treat treats_truncate
  have hnull' : ((st.truncate ip).node ip).start = .null := by rw [node_truncate, hnull]
  have hs := hbare.stored hnull'
  refine ⟨hbare.size hnull', ?_, fun hne => absurd hnull hne, hs.endPtr⟩
  intro files fq count hip h₁ h₂
  obtain ⟨pos, hpos⟩ := Int.eq_ofNat_of_zero_le h₁
  have hslice : slice (content { st.truncate ip with files := files } ip) pos count = [] := by
    apply slice_of_le
    rw [length_content]
    change ((st.truncate ip).inode ip).iSize.toNat ≤ pos
    rw [hbare.size hnull']
    exact Nat.zero_le pos
  have hread : run (kvfsRead fq count) { st.truncate ip with files := files } = _ :=
    run_kvfsRead (hs.files files) hip hpos (by omega)
  rwa [hslice] at hread

/-- A second `kvfs_truncate` gives back the same storage. -/
theorem two_le_count_truncate (hne : (st.node ip).start ≠ .null) :
    2 ≤ ((st.truncate ip).truncate ip).freed.count (.block (st.node ip).start.base) := by
  have hfreed : ((st.truncate ip).truncate ip).freed =
      .block (st.node ip).start.base :: .block (st.node ip).start.base :: st.freed := by
    rw [State.truncate]
    dsimp only
    rw [node_truncate, if_neg hne, State.truncate, if_neg hne]
  rw [hfreed, List.count_cons_self, List.count_cons_self]
  exact Nat.le_add_left 2 _

/-- After any treatment of a new file `kvfs_truncate` makes it empty exactly when it has no
storage. -/
theorem kvfsTruncate_empties_iff (hb : 0 < st₀.blocks.size)
    (hc : run (kvfsCreate ip dp) st₀ = some (false, st₁))
    (hr : Run (Treats ip) (fun _ _ => True) st₁ st) :
    (∃ st', run (kvfsTruncate ip) st = some ((), st') ∧ Empties st ip st') ↔
      (st.node ip).start = .null := by
  constructor
  · rintro ⟨st', hrun, he⟩
    obtain rfl : st.truncate ip = st' :=
      (run_inj run_kvfsTruncate hrun).2
    by_contra hne
    have honce := he.released hne (.tail .refl trivial treats_truncate)
    have htwice := two_le_count_truncate hne
    omega
  · exact fun hnull => ⟨_, run_kvfsTruncate, (bare_of_treats hb hc hr).empties hnull⟩

theorem run_kvfsCreate_noFiles :
    run (kvfsCreate 0 0) noFiles = some (false, noFiles.withFile 0 0 0) := rfl

theorem isSome_treated : (replay (treat 0) (noFiles.withFile 0 0 0)
    [.descriptors (writerAt 0), .seek 0 7 SEEK_SET, .read 0 4, .truncate]).isSome = true ∧
      (replay (treat 0) (noFiles.withFile 0 0 0)
        [.descriptors (writerAt 0), .write 0 [65]]).isSome = true := by decide +kernel

/-- A new file that nobody has written to is empty. -/
theorem kvfsTruncate_empties_noFiles : ∃ st', run (kvfsTruncate 0) (Option.get _ isSome_treated.1) =
    some ((), st') ∧ Empties (Option.get _ isSome_treated.1) 0 st' := by
  apply (kvfsTruncate_empties_iff Nat.one_pos run_kvfsCreate_noFiles
    (.of_replay (fun hs => ⟨trivial, hs⟩) (Option.some_get isSome_treated.1).symm)).mpr
  decide +kernel

/-- A read still finds the letter in a file that has been emptied. -/
theorem not_kvfsTruncate_empties : ¬ ∀ (st₀ st₁ st : State) (ip dp : ℕ), 0 < st₀.blocks.size →
    run (kvfsCreate ip dp) st₀ = some (false, st₁) → Run (Treats ip) (fun _ _ => True) st₁ st →
      ∃ st', run (kvfsTruncate ip) st = some ((), st') ∧ Empties st ip st' := by
  intro hall
  let st : State := Option.get _ isSome_treated.2
  have hr : Run (Treats 0) (fun _ _ => True) (noFiles.withFile 0 0 0) st :=
    .of_replay (fun hs => ⟨trivial, hs⟩) (Option.some_get isSome_treated.2).symm
  obtain ⟨st', hrun, he⟩ := hall noFiles _ st 0 0 Nat.one_pos run_kvfsCreate_noFiles hr
  have hread : run (kvfsRead 0 1) { st' with files := writerAt 0 } = _ :=
    he.reads 1 rfl le_rfl (by decide)
  have hfound : (run (kvfsTruncate 0) st).all (fun r =>
      (run (kvfsRead 0 1) { r.2 with files := writerAt 0 }).all fun r => r.1.2 = [65]) = true := by
    decide +kernel
  rw [hrun, Option.all_some, hread, Option.all_some] at hfound
  have hletter : endRead [] 1 = [65] := of_decide_eq_true hfound
  exact absurd hletter (by decide)

end Emptied

end NSOS.Vfs
