import NSOS.Vfs.Ledger
import NSOS.Vfs.Position

/-! # Files of all mounts

The mounts of `kvfs` share one table, and the first of them clears it. Regular
files have slots and storage of their own nevertheless, whatever mounts they
are in, and a write to one of them leaves the others alone.
-/

namespace NSOS.Vfs

open Basis Prog

section Regions

/-- The byte is in the storage of the file, from the start up to the end. -/
def State.Stores (st : State) (i : ℕ) (p : Ptr) : Prop :=
  p.base = (st.node i).start.base ∧ (st.node i).start.off ≤ p.off ∧
    p.off < (st.node i).endPtr.off

/-- A write that changes a regular file is in range. -/
def WritesInRange (st : State) : Op → Prop
  | .call t (.write fd buf) => ∀ f, OpenOn st t fd f .kvfs →
    (st.file f).fMode &&& O_WRONLY ≠ 0 → InRange st f buf
  | op => Proper st op

/-- Regular files have the storage for their size, and it has not been given back. -/
structure Stocked (st : State) : Prop where
  settled : Settled st
  banked : Banked [] st
  stored : ∀ {i}, st.IsFile i → Stored st i

variable {st st' : State} {t f i j : ℕ} {fd ret : ℤ} {op : Op} {buf : List UInt8} {p : Ptr}

instance : Decidable (WritesInRange st op) :=
  match op with
  | .call t (.write fd buf) =>
    decidable_of_iff (∀ p ∈ st.served t fd, p.2 = .kvfs → (st.file p.1).fMode &&& O_WRONLY ≠ 0 →
        InRange st p.1 buf)
      ⟨fun h f ho => h (f, .kvfs) (served_eq_some.mpr ho) rfl,
        fun h p hp hd => h p.1 (hd ▸ served_eq_some.mp hp)⟩
  | .call _ (.mount _ fs) => inferInstanceAs (Decidable (fs < st.fsTypes.size))
  | .newFs f => inferInstanceAs (Decidable f.Genuine)
  | .call _ (.access ..) | .call _ (.unmount _) | .call _ (.open ..) | .call _ (.read ..)
  | .call _ (.lseek ..) | .call _ (.mkdir ..) | .close .. | .create _ | .teardown .. | .world .. =>
    inferInstanceAs (Decidable True)

theorem WritesInRange.proper (h : WritesInRange st op) : Proper st op := by
  apply Proper.intro
  · rintro t path fs rfl
    exact h
  · rintro f rfl
    exact h

theorem stocked_started (hs : Started st) : Stocked st where
  settled := settled_started hs
  banked := ⟨fun b => (ledger_started hs).onHeap (.block b), (ledger_started hs).block⟩
  stored hi := absurd hi hs.not_isFile

theorem stocked_exec (h : Stocked st) (hin : WritesInRange st op)
    (hstep : exec st op = some st') : Stocked st' := by
  have he := effect_of_exec h.settled.sound hstep
  constructor
  case settled => exact settled_exec h.settled hin.proper hstep
  case banked => exact h.banked.effect h.settled he
  case stored =>
    intro i
    apply he.stored h.settled h.stored
    rintro t fd f buf rfl - ho hw
    exact hin f ho hw

theorem reach_stocked (h : Reach st WritesInRange) : Stocked st := by
  obtain ⟨st₀, h₀, hr⟩ := h
  exact hr.invariant (stocked_started h₀) stocked_exec

theorem Stocked.apart (h : Stocked st) (hi : st.IsFile i) (hj : st.IsFile j) (hne : i ≠ j) :
    ¬ (st.Stores i p ∧ st.Stores j p) := by
  rintro ⟨⟨hbase, hlo, hhi⟩, ⟨hbase', -, -⟩⟩
  apply hne
  apply h.settled.filed.own hi hj (hbase.symm.trans hbase')
  -- A file without a block is empty, so that no byte is in its storage.
  intro hz
  have hsize := h.settled.filed.empty hi hz
  have hend := (h.stored hi).endPtr
  rw [hend, hsize, Ptr.off_add] at hhi
  omega

/-- A write stores bytes in the storage of its file only. -/
theorem Wrote.stores {pos : ℤ} (hw : Wrote st st' f i pos buf) (hin : StoresInside st st' i)
    (hp : st'.byte p ≠ st.byte p) : st'.Stores i p := by
  obtain ⟨hbase, hlo, hhi⟩ := hin p hp
  have hend := hw.stored.endPtr
  have hoff := hw.stored.off
  refine ⟨hbase, hoff ▸ hlo, ?_⟩
  rw [hend, Ptr.off_add, hoff]
  omega

theorem Stocked.write (h : Stocked st) (ht : st.Running t) (ho : OpenOn st t fd f .kvfs)
    (hin : WritesInRange st (.call t (.write fd buf)))
    (hr : run (vfsWrite t fd buf) st = some (ret, st')) :
    (∀ p, st'.byte p ≠ st.byte p → st'.Stores (st.file f).fInode p) ∧
      ∀ j, st.IsFile j → j ≠ (st.file f).fInode →
        content st' j = content st j ∧ (st'.inode j).iSize = (st.inode j).iSize := by
  replace hr : run (kvfsWrite f buf) st = some (ret, st') := ho.write hr
  have hip := h.settled.held.isFile ht ho
  by_cases hw : (st.file f).fMode &&& O_WRONLY = 0
  · obtain ⟨-, rfl⟩ := run_inj hr (run_kvfsWrite_readonly hw)
    exact ⟨fun p hp => absurd rfl hp, fun j _ _ => ⟨rfl, rfl⟩⟩
  · obtain ⟨hwrote, hinside⟩ := (h.stored hip).wrote hw (hin f ho hw) hr
    have hre := run_kvfsWrite_storage hw hr
    refine ⟨fun p => hwrote.stores hinside, fun j hj hne => ⟨?_, ?_⟩⟩
    · exact hre.content h.settled.filed hip hj hne
    · rw [(hre.iIno j).2.2 hne]

/-- In every state that is reached by writes in range, regular files have slots of the table that
are in use, no two of them have the same slot or a byte of storage in common, no storage has been
given back, and a write through a descriptor of a file stores bytes in its storage and leaves the
bytes and the size of every other file alone. -/
theorem files_separate (h : Reach st WritesInRange) :
    (∀ i j, st.IsFile i → st.IsFile j → i ≠ j →
      (st.inode i).iIno ≠ (st.inode j).iIno ∧ ∀ p, ¬ (st.Stores i p ∧ st.Stores j p)) ∧
    (∀ i, st.IsFile i → 0 ≤ (st.inode i).iIno ∧ (st.inode i).iIno < KVFS_MAX_FILE ∧
      (st.kvfsFiles (st.inode i).iIno).inuse = true ∧
        .block (st.node i).start.base ∉ st.freed) ∧
    ∀ t fd f buf ret st', st.Running t → OpenOn st t fd f .kvfs →
      WritesInRange st (.call t (.write fd buf)) →
        run (vfsWrite t fd buf) st = some (ret, st') →
          (∀ p, st'.byte p ≠ st.byte p → st'.Stores (st.file f).fInode p) ∧
            ∀ j, st.IsFile j → j ≠ (st.file f).fInode →
              content st' j = content st j ∧ (st'.inode j).iSize = (st.inode j).iSize := by
  have hs := reach_stocked h
  refine ⟨fun i j hi hj hne => ⟨?_, fun p => hs.apart hi hj hne⟩, fun i hi => ?_,
    fun t fd f buf ret st' => hs.write⟩
  · exact fun heq => hne (hs.settled.filed.apart hi hj heq)
  · obtain ⟨k, hk, hino, huse⟩ := hs.settled.filed.slot hi
    rw [hino]
    exact ⟨by omega, by omega, huse, hs.banked.kept i hi List.not_mem_nil⟩

def execWritesInRange (st : State) (op : Op) : Option State :=
  if WritesInRange st op then exec st op else none

theorem reach_writesInRange {ops : List Op} (hr : replay execWritesInRange initial ops = some st) :
    Reach st WritesInRange := by
  refine ⟨initial, started_initial, Run.of_replay (fun {s op s'} hs => ?_) hr⟩
  unfold execWritesInRange at hs
  split at hs
  · exact ⟨‹_›, hs⟩
  · cases hs

/-- A file in the first mount and one in another, and a byte in the first of them. -/
def twoMounts : List Op := [.newFs ⟨"ramdisk1".toList, some .kvfs, .kvfs, .kvfs, .kvfs⟩,
  .call 1 (.mkdir "/a".toList 0x755), .call 1 (.mount "/a".toList 3),
  .call 1 (.open "/f".toList O_RDWR), .call 1 (.open "/a/f".toList O_RDWR),
  .call 1 (.write 3 [65])]

/-- The files with the inodes 6 and 8 are in different mounts, and a write to the second one
leaves the byte of the first one alone. -/
theorem files_separate_run : ∃ st st', (st.inode 6).iIno ≠ (st.inode 8).iIno ∧
    run (vfsWrite 1 4 [66, 67]) st = some (2, st') ∧ content st' 8 = [66, 67] ∧
      content st' 6 = [65] := by
  have hreplay : (replay execWritesInRange initial twoMounts).any (fun st => st.Running 1 ∧
      st.IsFile 6 ∧ st.IsFile 8 ∧ content st 6 = [65] ∧ (st.file 1).fInode = 8 ∧
        st.served 1 4 = some (1, .kvfs) ∧
          WritesInRange st (.call 1 (.write 4 [66, 67])) ∧
            (run (vfsWrite 1 4 [66, 67]) st).any fun x =>
              x.1 = 2 ∧ content x.2 8 = [66, 67]) = true := by decide +kernel
  obtain ⟨st, hr, hst⟩ := (Option.any_eq_true _ _).mp hreplay
  obtain ⟨ht, h₆, h₈, hold, hip, hserved, hin, hwrite⟩ := of_decide_eq_true hst
  obtain ⟨⟨ret, st'⟩, hwrite, hret⟩ := (Option.any_eq_true _ _).mp hwrite
  obtain ⟨rfl, hnew⟩ := of_decide_eq_true hret
  obtain ⟨hapart, -, hleaves⟩ := files_separate (reach_writesInRange hr)
  obtain ⟨-, hothers⟩ := hleaves 1 4 1 [66, 67] 2 st' ht (served_eq_some.mp hserved) hin hwrite
  refine ⟨st, st', (hapart 6 8 h₆ h₈ (by decide)).1, hwrite, hnew, ?_⟩
  rw [(hothers 6 h₆ (by rw [hip]; decide)).1, hold]

end Regions

end NSOS.Vfs
