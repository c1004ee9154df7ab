import NSOS.Basis.Runs
import NSOS.Vfs.Calls
import NSOS.Vfs.Content

/-! # Reading files

A read copies a slice of the file, from the position of the descriptor on, and
puts a newline behind it when the file ends before the buffer does.
-/

namespace NSOS.Vfs

open Basis Prog

section Loops

variable {st : State} {fp ip n count pos : ℕ} {buf l : List UInt8}

def slice (l : List UInt8) (pos n : ℕ) : List UInt8 := (l.drop pos).take n

theorem slice_zero : slice l pos 0 = [] := List.take_zero

theorem slice_of_le (h : l.length ≤ pos) : slice l pos n = [] := by
  rw [slice, List.drop_eq_nil_of_le h, List.take_nil]

theorem slice_succ (h : pos < l.length) : slice l pos (n + 1) = l[pos] :: slice l (pos + 1) n := by
  rw [slice, slice, List.drop_eq_getElem_cons h, List.take_succ_cons]

theorem length_slice : (slice l pos n).length = min n (l.length - pos) := by
  rw [slice, List.length_take, List.length_drop]

/-- The loop stops at the end of the file or when the buffer is full. -/
theorem run_kvfsReadLoop (hs : Stored st ip) (hip : (st.file fp).fInode = ip) (hp : pos < 2 ^ 31) :
    run (kvfsReadLoop fp n ((st.node ip).start.add pos) buf) st =
      some (buf ++ slice (content st ip) pos n, st) := by
  induction n generalizing pos buf with
  | zero => rw [slice_zero, List.append_nil]; rfl
  | succ n ih =>
    have hnn := hs.nonneg
    have hlt := hs.lt
    have hlen : (content st ip).length = (st.inode ip).iSize.toNat := length_content
    have hend : (st.kvfsFiles (st.inode (st.file fp).fInode).iIno).endPtr =
        (st.node ip).start.add (st.inode ip).iSize := by
      rw [hip]
      exact hs.endPtr
    have hleft : toInt (((st.node ip).start.add (st.inode ip).iSize).off -
        ((st.node ip).start.add pos).off) = (st.inode ip).iSize - pos := by
      rw [Ptr.off_add, Ptr.off_add, Int.add_sub_add_left]
      exact toInt_of_range (by omega) (by omega)
    rw [kvfsReadLoop, run_bind, run_gets, Option.bind_some, hend, hleft]
    by_cases hin : pos < (content st ip).length
    · have hload : run (load ((st.node ip).start.add pos)) st =
          some ((content st ip)[pos], st) := by
        rw [getElem_content hin]
        rfl
      have hadd : ((st.node ip).start.add pos).add 1 = (st.node ip).start.add (pos + 1 : ℕ) := by
        simp [Ptr.add, Int.add_assoc]
      rw [if_pos (by omega), run_bind, hload, Option.bind_some, hadd, ih (by omega),
        slice_succ hin, List.append_assoc, List.singleton_append]
    · rw [if_neg (by omega), slice_of_le (by omega), List.append_nil]
      rfl

theorem run_kvfsRead (hs : Stored st ip) (hip : (st.file fp).fInode = ip)
    (hpos : (st.file fp).fPos = pos) (hp : pos < 2 ^ 31) :
    run (kvfsRead fp count) st =
      some ((toInt (endRead (slice (content st ip) pos count) count).length,
        endRead (slice (content st ip) pos count) count), st) := by
  have hstart : (st.kvfsFiles (st.inode (st.file fp).fInode).iIno).start =
      (st.node ip).start := by rw [hip]; rfl
  simp only [kvfsRead, run_bind, run_gets, Option.bind_some, hstart, hpos,
    run_kvfsReadLoop hs hip hp, List.nil_append, run_pure]

theorem endRead_of_le (h : count ≤ buf.length) : endRead buf count = buf :=
  if_neg (Nat.not_lt.mpr h)

theorem slice_splice : slice (splice l pos buf) pos buf.length = buf := by
  have hpre : ((l ++ List.replicate (pos - l.length) 0).take pos).length = pos := by
    simp
    omega
  rw [slice, splice, List.append_assoc, List.drop_left' hpre, List.take_left]

end Loops

section Calls

variable {st st' : State} {t f ip n : ℕ} {fd : ℤ} {d : Driver}

/-- A descriptor of a thread that is open on a file of a driver. -/
structure OpenOn (st : State) (t : ℕ) (fd : ℤ) (f : ℕ) (d : Driver) : Prop where
  user : isStd fd = false
  range : 0 ≤ fd ∧ fd < MAX_FILE_PER_THREAD
  entry : (st.thread t).fileDescriptors fd.toNat = .file f
  driver : (st.file f).fOp = some d

theorem run_fileOf (hr : 0 ≤ fd ∧ fd < MAX_FILE_PER_THREAD)
    (hf : (st.thread t).fileDescriptors fd.toNat = .file f)
    (hd : (st.file f).fOp = some d) : run (fileOf t fd) st = some ((f, d), st) := by
  have hopen : run (openFile t fd) st = some (some f, st) := by
    rw [openFile, if_pos hr, run_bind, run_gets, Option.bind_some]
    simp only [hf, run_pure]
  simp only [fileOf, run_bind, hopen, Option.bind_some, run_demand, Option.map_some, run_gets, hd,
    run_pure]

theorem run_vfsRead (h : OpenOn st t fd f d) : run (vfsRead t fd n) st = run (d.read f n) st := by
  have hret : ∀ r : Option ((ℤ × List UInt8) × State),
      (r.bind fun r => run (do semSignal .vfsSem; return r.1 : Code (ℤ × List UInt8)) r.2) = r := by
    intro r
    cases r <;> rfl
  rw [vfsRead, run_bind, run_semWait, Option.bind_some, h.user, if_neg Bool.false_ne_true,
    run_bind, run_fileOf h.range h.entry h.driver, Option.bind_some]
  dsimp only
  rw [run_bind]
  exact hret _

/-- The thread reads from the descriptor, any number of bytes at a time. -/
def ReadsFrom (t : ℕ) (fd : ℤ) (st : State) (n : ℕ) (st' : State) : Prop :=
  ∃ r, run (vfsRead t fd n) st = some (r, st')

end Calls

end NSOS.Vfs
