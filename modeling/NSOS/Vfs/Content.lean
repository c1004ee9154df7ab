import NSOS.Vfs.Kvfs
import Mathlib.Data.List.GetD

/-! # Contents of regular files

The bytes of a file of `kvfs`, and what a write makes of them: the file is
padded with zeros up to the position of the write, and the buffer takes the
place of the bytes that were there.
-/

namespace NSOS.Vfs

open Basis Prog

section Fill

variable {st : State} {p q : Ptr} {n : ℕ} {g : ℕ → UInt8} {c : UInt8} {buf : List UInt8} {i : ℤ}

/-- Write `n` bytes from an offset on. -/
def fillBytes (b : ℤ → UInt8) (o : ℤ) (n : ℕ) (g : ℕ → UInt8) : ℤ → UInt8 := fun i =>
  if o ≤ i ∧ i < o + n then g (i - o).toNat else b i

theorem fillBytes_zero (b : ℤ → UInt8) (o : ℤ) : fillBytes b o 0 g = b := by
  funext i
  rw [fillBytes, if_neg (by omega)]

theorem fillBytes_succ (b : ℤ → UInt8) (o : ℤ) :
    fillBytes (fillBytes b (o + n) 1 fun _ => g n) o n g = fillBytes b o (n + 1) g := by
  funext i
  unfold fillBytes
  by_cases h₁ : o ≤ i ∧ i < o + n
  · rw [if_pos h₁, if_pos (by omega)]
  · rw [if_neg h₁]
    by_cases h₂ : i = o + n
    · rw [if_pos (by omega), if_pos (by omega), show (i - o).toNat = n by omega]
    · rw [if_neg (by omega), if_neg (by omega)]

theorem update_eq_fillBytes (b : ℤ → UInt8) (o : ℤ) :
    Function.update b o c = fillBytes b o 1 fun _ => c := by
  funext i
  unfold fillBytes
  by_cases hi : i = o
  · subst hi
    rw [Function.update_self, if_pos (by omega)]
  · rw [Function.update_of_ne hi, if_neg (by omega)]

/-- Write `n` bytes from a pointer on. -/
def State.fill (st : State) (p : Ptr) (n : ℕ) (g : ℕ → UInt8) : State := { st with
  blocks := st.blocks.set p.base fun b => fillBytes b p.off n g }

def State.byte (st : State) (p : Ptr) : UInt8 := st.blocks.obj p.base p.off

theorem fill_zero : st.fill p 0 g = st := by
  simp [State.fill, Pool.set, fillBytes_zero]

theorem fill_succ : (st.fill (p.add n) 1 fun _ => g n).fill p n g = st.fill p (n + 1) g := by
  simp [State.fill, Pool.set, fillBytes_succ]

theorem run_store : run (store p c) st = some ((), st.fill p 1 fun _ => c) := by
  simp [store, State.fill, update_eq_fillBytes]

theorem run_memset : run (memset p c n) st = some ((), st.fill p n fun _ => c) := by
  induction n generalizing st with
  | zero => rw [fill_zero]; rfl
  | succ n ih =>
    rw [memset, run_bind, run_store, Option.bind_some, ih]
    exact congrArg (fun s => some ((), s)) (fill_succ (g := fun _ => c))

theorem run_memcpyFrom :
    run (memcpyFrom p buf n) st = some ((), st.fill p n fun i => buf.getD i 0) := by
  induction n generalizing st with
  | zero => rw [fill_zero]; rfl
  | succ n ih =>
    rw [memcpyFrom, run_bind, run_store, Option.bind_some, ih]
    exact congrArg (fun s => some ((), s)) (fill_succ (g := fun i => buf.getD i 0))

theorem byte_fill_of_ne (h : q.base ≠ p.base) : (st.fill p n g).byte q = st.byte q := by
  simp [State.byte, State.fill, h]

theorem byte_fill (h : q.base = p.base) :
    (st.fill p n g).byte q =
      if p.off ≤ q.off ∧ q.off < p.off + n then g (q.off - p.off).toNat else st.byte q := by
  simp [State.byte, State.fill, h, fillBytes]

theorem mem_of_byte_fill_ne (h : (st.fill p n g).byte q ≠ st.byte q) :
    q.base = p.base ∧ p.off ≤ q.off ∧ q.off < p.off + n := by
  by_cases hbase : q.base = p.base
  · rw [byte_fill hbase] at h
    refine ⟨hbase, ?_⟩
    by_contra hout
    exact h (if_neg hout)
  · exact absurd (byte_fill_of_ne hbase) h

theorem run_memcpy (h : q.base ≠ p.base) :
    run (memcpy p q n) st = some ((), st.fill p n fun i => st.byte (q.add i)) := by
  induction n generalizing st with
  | zero => rw [fill_zero]; rfl
  | succ n ih =>
    have hload : run (load (q.add n)) st = some (st.byte (q.add n), st) := rfl
    have hbyte : (fun i : ℕ => (st.fill (p.add n) 1 fun _ => st.byte (q.add n)).byte (q.add i)) =
        fun i : ℕ => st.byte (q.add i) := by
      funext i
      exact byte_fill_of_ne h
    rw [memcpy, run_bind, hload, Option.bind_some, run_bind, run_store, Option.bind_some, ih,
      hbyte]
    exact congrArg (fun s => some ((), s)) (fill_succ (g := fun i : ℕ => st.byte (q.add i)))

end Fill

section Content

variable (st : State) (ip : ℕ)

def State.node : KvfsFileNode := st.kvfsFiles (st.inode ip).iIno

def content : List UInt8 :=
  (List.range (st.inode ip).iSize.toNat).map fun i : ℕ => st.byte ((st.node ip).start.add i)

/-- The storage of a regular file has the size of the file. -/
structure Stored : Prop where
  nonneg : 0 ≤ (st.inode ip).iSize
  lt : (st.inode ip).iSize < 2 ^ 31
  off : (st.node ip).start.off = 0
  fresh : (st.node ip).start.base < st.blocks.size
  empty : (st.node ip).start = .null → (st.inode ip).iSize = 0
  endPtr : (st.node ip).endPtr = (st.node ip).start.add (st.inode ip).iSize

instance : Decidable (Stored st ip) :=
  decidable_of_iff (0 ≤ (st.inode ip).iSize ∧ (st.inode ip).iSize < 2 ^ 31 ∧
      (st.node ip).start.off = 0 ∧ (st.node ip).start.base < st.blocks.size ∧
      ((st.node ip).start = .null → (st.inode ip).iSize = 0) ∧
      (st.node ip).endPtr = (st.node ip).start.add (st.inode ip).iSize)
    ⟨fun ⟨h₁, h₂, h₃, h₄, h₅, h₆⟩ => ⟨h₁, h₂, h₃, h₄, h₅, h₆⟩,
      fun h => ⟨h.nonneg, h.lt, h.off, h.fresh, h.empty, h.endPtr⟩⟩

def splice (l : List UInt8) (pos : ℕ) (buf : List UInt8) : List UInt8 :=
  (l ++ List.replicate (pos - l.length) 0).take pos ++ buf ++ l.drop (pos + buf.length)

variable {st ip} {l buf : List UInt8} {pos i : ℕ}

@[simp] theorem length_content : (content st ip).length = (st.inode ip).iSize.toNat := by
  simp [content]

theorem length_splice : (splice l pos buf).length = max l.length (pos + buf.length) := by
  simp only [splice, List.length_append, List.length_take, List.length_replicate, List.length_drop]
  omega

theorem splice_length (l buf : List UInt8) : splice l l.length buf = l ++ buf := by
  have h : l.length ≤ l.length + buf.length := Nat.le_add_right _ _
  simp [splice, List.drop_eq_nil_of_le h]

theorem getElem_content (h : i < (content st ip).length) :
    (content st ip)[i] = st.byte ((st.node ip).start.add i) := by
  simp only [content, List.getElem_map, List.getElem_range]

theorem getD_content : (content st ip).getD i 0 =
    if (i : ℤ) < (st.inode ip).iSize then st.byte ((st.node ip).start.add i) else 0 := by
  by_cases hlen : i < (content st ip).length
  · rw [List.getD_eq_getElem _ _ hlen, getElem_content]
    rw [length_content] at hlen
    rw [if_pos (by omega)]
  · rw [List.getD_eq_default _ _ (by omega)]
    rw [length_content] at hlen
    rw [if_neg (by omega)]

theorem getElem_splice (h : i < (splice l pos buf).length) :
    (splice l pos buf)[i] =
      if pos ≤ i ∧ i < pos + buf.length then buf.getD (i - pos) 0 else l.getD i 0 := by
  have hlen := h
  rw [length_splice] at hlen
  have htake : ((l ++ List.replicate (pos - l.length) 0).take pos).length = pos := by
    simp
    omega
  simp only [splice]
  by_cases h₁ : i < pos
  · rw [if_neg (by omega), List.getElem_append_left (by simp; omega),
      List.getElem_append_left (by omega), List.getElem_take]
    by_cases h₂ : i < l.length
    · rw [List.getElem_append_left h₂, List.getD_eq_getElem _ _ h₂]
    · rw [List.getElem_append_right (by omega), List.getElem_replicate,
        List.getD_eq_default _ _ (by omega)]
  · by_cases h₂ : i < pos + buf.length
    · rw [if_pos ⟨by omega, h₂⟩, List.getElem_append_left (by simp; omega),
        List.getElem_append_right (by omega)]
      simp only [htake]
      rw [List.getD_eq_getElem]
    · rw [if_neg (by omega), List.getElem_append_right (by simp; omega), List.getElem_drop]
      have hi : pos + buf.length + (i - ((l ++ List.replicate (pos - l.length) 0).take pos ++
          buf).length) = i := by
        rw [List.length_append, htake]
        omega
      simp only [hi]
      rw [List.getD_eq_getElem]

end Content

section Write

variable {st : State} {fp ip count : ℕ} {buf : List UInt8} {n pos : ℤ} {start last : Ptr}

def State.writePos (st : State) (fp : ℕ) : ℤ :=
  if (st.file fp).fMode &&& O_APPEND ≠ 0 then (st.inode (st.file fp).fInode).iSize
  else (st.file fp).fPos

def State.seek (st : State) (fp : ℕ) (pos : ℤ) : State :=
  { st with files := st.files.set fp fun f => { f with fPos := pos } }

def State.raise (st : State) (ip : ℕ) (n : ℤ) : State :=
  { st with inodes := st.inodes.set ip fun i => { i with iSize := max i.iSize n } }

def State.keep (st : State) (ip : ℕ) (start last : Ptr) : State := { st with
  kvfsFiles := Function.update st.kvfsFiles (st.inode ip).iIno
    { st.node ip with start := start, endPtr := last } }

section Updates

variable {g : ℕ → UInt8} {p : Ptr}

@[simp] theorem inode_fill : (st.fill p count g).inode ip = st.inode ip := rfl
@[simp] theorem inode_seek : (st.seek fp pos).inode ip = st.inode ip := rfl
@[simp] theorem inode_keep : (st.keep ip start last).inode ip = st.inode ip := rfl
@[simp] theorem node_fill : (st.fill p count g).node ip = st.node ip := rfl
@[simp] theorem node_seek : (st.seek fp pos).node ip = st.node ip := rfl

@[simp] theorem inode_raise :
    (st.raise ip n).inode ip = { st.inode ip with iSize := max (st.inode ip).iSize n } := by
  simp [State.inode, State.raise]

@[simp] theorem node_raise : (st.raise ip n).node ip = st.node ip := by
  simp [State.node, State.raise, State.inode]

@[simp] theorem node_keep :
    (st.keep ip start last).node ip = { st.node ip with start := start, endPtr := last } := by
  simp [State.node, State.keep, State.inode]

end Updates

theorem run_seekAppend (st : State) (fp : ℕ) :
    run (seekAppend fp (st.file fp).fMode) st = some ((), st.seek fp (st.writePos fp)) := by
  unfold seekAppend State.writePos State.seek
  split
  · rfl
  · rw [Pool.set_id]
    · rfl
    · rfl

theorem run_raiseSize (h₁ : 0 ≤ (st.inode ip).iSize) (h₂ : (st.inode ip).iSize < 2 ^ 31)
    (h₃ : 0 ≤ n) (h₄ : n < 2 ^ 31) : run (raiseSize ip n) st = some ((), st.raise ip n) := by
  have hs := toU32_of_range h₁ (by omega)
  have hn := toU32_of_range h₃ (by omega)
  rw [raiseSize, run_bind, run_gets, Option.bind_some, hs, hn]
  unfold State.raise
  split
  · have hmax : max (st.inode ip).iSize n = n := max_eq_right (by omega)
    have hset : st.inodes.set ip (fun i => { i with iSize := max i.iSize n }) =
        st.inodes.set ip fun i => { i with iSize := toInt n } := by
      simp only [Pool.set]
      rw [show (st.inodes.obj ip).iSize = (st.inode ip).iSize from rfl, hmax,
        toInt_of_range (by omega) h₄]
    rw [hset]
    rfl
  · rw [Pool.set_id]
    · rfl
    · rw [show (st.inodes.obj ip).iSize = (st.inode ip).iSize from rfl, max_eq_left (by omega)]
      rfl

theorem run_kvfsStore (hip : (st.file fp).fInode = ip) (hpos : (st.file fp).fPos = pos)
    (h₁ : 0 ≤ (st.inode ip).iSize) (h₂ : (st.inode ip).iSize < 2 ^ 31)
    (h₃ : 0 ≤ pos) (h₄ : pos + buf.length < 2 ^ 31) :
    run (kvfsStore fp buf start last) st = some ((buf.length : ℤ),
      ((((st.fill (start.add pos) buf.length fun i => buf.getD i 0).raise ip
        (pos + buf.length)).keep ip start last).seek fp (pos + buf.length))) := by
  have hlen : toInt buf.length = buf.length := toInt_of_range (by omega) (by omega)
  have hsum : toInt (pos + buf.length) = pos + buf.length := toInt_of_range (by omega) h₄
  have hraise : ∀ st' : State, st'.inodes = st.inodes →
      run (raiseSize ip (pos + buf.length)) st' = some ((), st'.raise ip (pos + buf.length)) := by
    intro st' hi
    have hsize : (st'.inode ip).iSize = (st.inode ip).iSize := by rw [State.inode, hi]; rfl
    exact run_raiseSize (by omega) (by omega) (by omega) h₄
  have hfill := hraise (st.fill (start.add pos) buf.length fun i => buf.getD i 0) rfl
  have hseek : ∀ st' : State, st'.files = st.files →
      { st' with files := st'.files.set fp fun f =>
        { f with fPos := toInt (f.fPos + buf.length) } } = st'.seek fp (pos + buf.length) := by
    intro st' hf
    have hp : (st'.files.obj fp).fPos = pos := by rw [hf]; exact hpos
    simp only [State.seek, Pool.set, hp, hsum]
  have hfile : ∀ p n g, ((st.fill p n g).file fp).fInode = ip := fun _ _ _ => hip
  simp only [kvfsStore, run_bind, run_gets, Option.bind_some, hpos, hlen, Int.toNat_natCast,
    run_memcpyFrom, hfile, hfill, run_modify, setFile, run_pure]
  exact congrArg (fun s => some ((buf.length : ℤ), s)) (hseek
    (((st.fill (start.add pos) buf.length fun i => buf.getD i 0).raise ip
      (pos + buf.length)).keep ip start last) rfl)

theorem run_kvfsGrow (hs : Stored st ip) (hip : (st.file fp).fInode = ip)
    (hpos : (st.file fp).fPos = pos) (h₁ : 0 ≤ pos) (h₂ : pos + count < 2 ^ 31) :
    ∃ st', run (kvfsGrow fp count) st =
        some ((⟨st.blocks.size, 0⟩, ⟨st.blocks.size, pos + count⟩), st') ∧
      st' = { st with blocks := st'.blocks, freed := st'.freed } ∧
      st'.blocks.size = st.blocks.size + 1 ∧
      (∀ i, 0 ≤ i → i < pos + count → st'.byte ⟨st.blocks.size, i⟩ =
        if i < (st.inode ip).iSize then st.byte ((st.node ip).start.add i) else 0) ∧
      ∀ p, st'.byte p ≠ st.byte p → p.base = st.blocks.size ∧ 0 ≤ p.off ∧
        p.off < max (st.inode ip).iSize (pos + count) := by
  have hnn := hs.nonneg
  have hn : toInt (pos + count) = pos + count := toInt_of_range (by omega) h₂
  let st₁ : State := { st with blocks := st.blocks.grow }
  let st₂ : State := st₁.fill ⟨st.blocks.size, 0⟩ (pos + count).toNat fun _ => 0
  have halloc : run allocBlock st = some (⟨st.blocks.size, 0⟩, st₁) := rfl
  have hend : ((⟨st.blocks.size, 0⟩ : Ptr).add pos).add count =
      ⟨st.blocks.size, pos + count⟩ := by simp [Ptr.add]
  have hnode : (st₂.kvfsFiles (st₂.inode (st₂.file fp).fInode).iIno).start =
      (st.node ip).start := by rw [← hip]; rfl
  have hsize : (st₂.inode (st₂.file fp).fInode).iSize = (st.inode ip).iSize := by rw [← hip]; rfl
  have hzero : ∀ i, 0 ≤ i → i < pos + count → st₂.byte ⟨st.blocks.size, i⟩ = 0 := by
    intro i hi₁ hi₂
    refine (byte_fill (p := ⟨st.blocks.size, 0⟩) (q := ⟨st.blocks.size, i⟩) rfl).trans ?_
    rw [if_pos (by simp; omega)]
  have hfresh := hs.fresh
  have hne : (st.node ip).start.base ≠ st.blocks.size := by omega
  have hinside : ∀ p, st₂.byte p ≠ st.byte p → p.base = st.blocks.size ∧ 0 ≤ p.off ∧
      p.off < max (st.inode ip).iSize (pos + count) := by
    intro p hp
    have hbytes := mem_of_byte_fill_ne (show st₂.byte p ≠ st₁.byte p from hp)
    simp only at hbytes
    omega
  by_cases hnull : (st.node ip).start = .null
  · refine ⟨st₂, ?_, rfl, rfl, fun i hi₁ hi₂ => ?_, hinside⟩
    · simp only [kvfsGrow, run_bind, run_gets, Option.bind_some, hpos, halloc, hn, run_memset]
      change run (if (st₂.kvfsFiles (st₂.inode (st₂.file fp).fInode).iIno).start ≠ .null then _
        else _) st₂ = _
      rw [hnode, if_neg (not_not.mpr hnull), hend]
      rfl
    · rw [hs.empty hnull, if_neg (by omega), hzero i hi₁ hi₂]
  · let st₃ : State := st₂.fill ⟨st.blocks.size, 0⟩ (st.inode ip).iSize.toNat fun i =>
      st₂.byte ((st.node ip).start.add i)
    have hcopy : run (memcpy ⟨st.blocks.size, 0⟩ (st.node ip).start (st.inode ip).iSize.toNat)
        st₂ = some ((), st₃) := run_memcpy hne
    let o : Obj := .block (st.node ip).start.base
    refine ⟨{ st₃ with freed := o :: st.freed }, ?_, rfl, rfl, fun i hi₁ hi₂ => ?_, fun p hp => ?_⟩
    · simp only [kvfsGrow, run_bind, run_gets, Option.bind_some, hpos, halloc, hn, run_memset]
      change (run (if (st₂.kvfsFiles (st₂.inode (st₂.file fp).fInode).iIno).start ≠ .null then _
        else _) st₂) = _
      rw [hnode, if_pos hnull]
      simp only [run_bind, run_gets, Option.bind_some, hsize, hcopy, free, run_modify, run_pure,
        hend]
      rfl
    · have hbyte : State.byte { st₃ with freed := o :: st.freed } ⟨st.blocks.size, i⟩ =
          st₃.byte ⟨st.blocks.size, i⟩ := rfl
      have hold : st₂.byte ((st.node ip).start.add i) = st.byte ((st.node ip).start.add i) :=
        byte_fill_of_ne hne
      refine hbyte.trans ((byte_fill (p := ⟨st.blocks.size, 0⟩) (q := ⟨st.blocks.size, i⟩)
        rfl).trans ?_)
      by_cases hi : i < (st.inode ip).iSize
      · rw [if_pos (by simp; omega), if_pos hi, ← hold]
        simp [hi₁]
      · rw [if_neg (by simp; omega), if_neg hi, hzero i hi₁ hi₂]
    · by_cases hp₂ : st₃.byte p = st₂.byte p
      · exact hinside p (hp₂ ▸ hp)
      · have hbytes := mem_of_byte_fill_ne hp₂
        simp only at hbytes
        omega

/-- A write of a buffer at a position, and what it leaves alone. -/
structure Wrote (st st' : State) (fp ip : ℕ) (pos : ℤ) (buf : List UInt8) : Prop where
  frame : ∃ B K F, st' = { st with
    blocks := B
    kvfsFiles := K
    freed := F
    files := st.files.set fp fun f => { f with fPos := pos + buf.length }
    inodes := st.inodes.set ip fun i => { i with iSize := max i.iSize (pos + buf.length) } }
  stored : Stored st' ip
  content : content st' ip = splice (content st ip) pos.toNat buf

/-- The bytes that have changed are in the storage of the file, below its size. -/
def StoresInside (st st' : State) (ip : ℕ) : Prop := ∀ p, st'.byte p ≠ st.byte p →
  p.base = (st'.node ip).start.base ∧ 0 ≤ p.off ∧ p.off < (st'.inode ip).iSize

/-- Storage with the old bytes and zeros behind them, and the buffer at its position. -/
theorem content_of_padded {s st' : State} (h₁ : 0 ≤ pos)
    (hsize : (st'.inode ip).iSize = max (st.inode ip).iSize (pos + buf.length))
    (hstart : (st'.node ip).start = start)
    (hbytes : ∀ i, 0 ≤ i → i < max (st.inode ip).iSize (pos + buf.length) →
      s.byte (start.add i) =
        if i < (st.inode ip).iSize then st.byte ((st.node ip).start.add i) else 0)
    (hfill : ∀ i, st'.byte (start.add i) =
      if pos ≤ i ∧ i < pos + buf.length then buf.getD (i - pos).toNat 0
      else s.byte (start.add i)) : content st' ip = splice (content st ip) pos.toNat buf := by
  refine List.ext_getElem ?_ fun i hi₁ hi₂ => ?_
  · rw [length_content, length_splice, length_content, hsize]
    omega
  · have hi : (i : ℤ) < max (st.inode ip).iSize (pos + buf.length) := by
      rw [length_content, hsize] at hi₁
      omega
    have hiff : (pos ≤ (i : ℤ) ∧ (i : ℤ) < pos + buf.length) ↔
        (pos.toNat ≤ i ∧ i < pos.toNat + buf.length) := by omega
    rw [getElem_content, getElem_splice, hstart, hfill, hbytes i (by omega) hi, getD_content]
    by_cases hin : pos ≤ (i : ℤ) ∧ (i : ℤ) < pos + buf.length
    · rw [if_pos hin, if_pos (hiff.mp hin)]
      congr 1
      omega
    · rw [if_neg hin, if_neg (hiff.not.mp hin)]

theorem wrote_of_padded {s : State} (hs : Stored st ip) (h₁ : 0 ≤ pos)
    (h₂ : pos + buf.length < 2 ^ 31)
    (hf : s = { st.seek fp pos with blocks := s.blocks, freed := s.freed })
    (hoff : start.off = 0) (hbase : start.base < s.blocks.size)
    (hnull : start = .null → max (st.inode ip).iSize (pos + buf.length) = 0)
    (hlast : last = start.add (max (st.inode ip).iSize (pos + buf.length)))
    (hbytes : ∀ i, 0 ≤ i → i < max (st.inode ip).iSize (pos + buf.length) →
      s.byte (start.add i) =
        if i < (st.inode ip).iSize then st.byte ((st.node ip).start.add i) else 0)
    (hinside : ∀ p, s.byte p ≠ st.byte p → p.base = start.base ∧ 0 ≤ p.off ∧
      p.off < max (st.inode ip).iSize (pos + buf.length))
    {st' : State} (hs' : st' = (((s.fill (start.add pos) buf.length fun i => buf.getD i 0).raise ip
      (pos + buf.length)).keep ip start last).seek fp (pos + buf.length)) :
    Wrote st st' fp ip pos buf ∧ StoresInside st st' ip := by
  have hnn := hs.nonneg
  have hlt := hs.lt
  have hsi : s.inode ip = st.inode ip := by rw [hf]; rfl
  have hsn : s.node ip = st.node ip := by rw [hf]; rfl
  have hinode : st'.inode ip =
      { st.inode ip with iSize := max (st.inode ip).iSize (pos + buf.length) } := by
    rw [hs', inode_seek, inode_keep, inode_raise, inode_fill, hsi]
  have hnode : st'.node ip = { st.node ip with start := start, endPtr := last } := by
    rw [hs', node_seek, node_keep, node_raise, node_fill, hsn]
  refine ⟨⟨⟨st'.blocks, st'.kvfsFiles, st'.freed, ?_⟩, ⟨?_, ?_, ?_, ?_, ?_, ?_⟩, ?_⟩, ?_⟩
  · rw [hs', hf]
    simp only [State.seek, State.keep, State.raise, State.fill, Pool.set_set]
  · rw [hinode]
    exact le_max_of_le_left hnn
  · rw [hinode]
    exact max_lt hlt h₂
  · rw [hnode]
    exact hoff
  · rw [hnode, hs']
    exact hbase
  · rw [hnode, hinode]
    exact hnull
  · rw [hnode, hinode]
    exact hlast
  · have hsize : (st'.inode ip).iSize = max (st.inode ip).iSize (pos + buf.length) := by
      rw [hinode]
    have hstart : (st'.node ip).start = start := by rw [hnode]
    apply content_of_padded h₁ hsize hstart hbytes
    intro i
    have hbyte : st'.byte (start.add i) =
        if (start.add pos).off ≤ (start.add i).off ∧
            (start.add i).off < (start.add pos).off + buf.length then
          buf.getD ((start.add i).off - (start.add pos).off).toNat 0
        else s.byte (start.add i) := by
      rw [hs']
      exact byte_fill rfl
    simp only [hbyte, Ptr.off_add, hoff, Int.zero_add]
  · intro p hp
    have hfill : st'.byte p =
        (s.fill (start.add pos) buf.length fun i => buf.getD i 0).byte p := by
      rw [hs']
      rfl
    rw [hnode, hinode]
    dsimp only
    by_cases hsame : (s.fill (start.add pos) buf.length fun i => buf.getD i 0).byte p = s.byte p
    · exact hinside p (hsame ▸ hfill ▸ hp)
    · obtain ⟨hb, h₃, h₄⟩ := mem_of_byte_fill_ne hsame
      simp only [Ptr.base_add, Ptr.off_add, hoff, Int.zero_add] at hb h₃ h₄
      exact ⟨hb, by omega, lt_max_of_lt_right h₄⟩

theorem run_kvfsWrite_readonly (h : (st.file fp).fMode &&& O_WRONLY = 0) :
    run (kvfsWrite fp buf) st = some (0, st.seek fp (st.writePos fp)) := by
  simp only [kvfsWrite, run_bind, run_gets, Option.bind_some, run_seekAppend, if_pos h, run_pure]

theorem run_kvfsWrite (buf : List UInt8) (hs : Stored st ip) (hip : (st.file fp).fInode = ip)
    (hw : (st.file fp).fMode &&& O_WRONLY ≠ 0) (h₁ : 0 ≤ st.writePos fp)
    (h₂ : st.writePos fp + buf.length < 2 ^ 31) :
    ∃ st', run (kvfsWrite fp buf) st = some ((buf.length : ℤ), st') ∧
      Wrote st st' fp ip (st.writePos fp) buf ∧ StoresInside st st' ip := by
  have hnn := hs.nonneg
  have hlt := hs.lt
  generalize hpos : st.writePos fp = pos at h₁ h₂ ⊢
  let s₀ := st.seek fp pos
  have hfile : s₀.file fp = { st.file fp with fPos := pos } := by
    simp [s₀, State.file, State.seek]
  have hip₀ : (s₀.file fp).fInode = ip := by rw [hfile]; exact hip
  have hpos₀ : (s₀.file fp).fPos = pos := by rw [hfile]
  have hs₀ : Stored s₀ ip := ⟨hs.nonneg, hs.lt, hs.off, hs.fresh, hs.empty, hs.endPtr⟩
  have hsize : toU32 (s₀.inode ip).iSize = (st.inode ip).iSize :=
    toU32_of_range hnn (hlt.trans (by decide))
  have hsum : toU32 (pos + buf.length) = pos + buf.length := toU32_of_range (by omega) (by omega)
  have hnode : st.kvfsFiles (st.inode (st.file fp).fInode).iIno = st.node ip := by rw [hip]; rfl
  have hseek := run_seekAppend st fp
  rw [hpos] at hseek
  simp only [kvfsWrite, run_bind, run_gets, Option.bind_some, hseek, if_neg hw]
  change ∃ st', run (if toU32 (s₀.inode (s₀.file fp).fInode).iSize <
    toU32 ((s₀.file fp).fPos + buf.length) then _ else _) s₀ = _ ∧ _
  rw [hip₀, hpos₀, hsize, hsum, hnode]
  by_cases hgrow : (st.inode ip).iSize < pos + buf.length
  · rw [if_pos hgrow]
    obtain ⟨s₁, hrun, hframe, hblocks, hbytes, hinside⟩ := run_kvfsGrow hs₀ hip₀ hpos₀ h₁ h₂
    have hip₁ : (s₁.file fp).fInode = ip := by rw [hframe]; exact hip₀
    have hpos₁ : (s₁.file fp).fPos = pos := by rw [hframe]; exact hpos₀
    have hsize₁ : (s₁.inode ip).iSize = (st.inode ip).iSize := by rw [hframe]; rfl
    have hmax : max (st.inode ip).iSize (pos + buf.length) = pos + buf.length :=
      max_eq_right hgrow.le
    have hfresh := hs.fresh
    have hstore : run (kvfsStore fp buf ⟨st.blocks.size, 0⟩ ⟨st.blocks.size, pos + buf.length⟩)
        s₁ = _ := run_kvfsStore hip₁ hpos₁ (by omega) (by omega) h₁ h₂
    rw [run_bind, hrun, Option.bind_some]
    refine ⟨_, hstore,
      wrote_of_padded hs h₁ h₂ hframe (show (⟨st.blocks.size, 0⟩ : Ptr).off = 0 from rfl) ?_
        (fun h => ?_) ?_ (fun i hi₁ hi₂ => ?_) hinside rfl⟩
    · rw [hblocks]
      exact Nat.lt_succ_self _
    · have hzero : st.blocks.size = 0 := congrArg Ptr.base h
      omega
    · simp [Ptr.add, hmax]
    · rw [hmax] at hi₂
      have hadd : (⟨st.blocks.size, 0⟩ : Ptr).add i = ⟨st.blocks.size, i⟩ := by simp [Ptr.add]
      rw [hadd]
      exact hbytes i hi₁ hi₂
  · rw [if_neg hgrow]
    have hmax : max (st.inode ip).iSize (pos + buf.length) = (st.inode ip).iSize :=
      max_eq_left (by omega)
    refine ⟨_, run_kvfsStore hip₀ hpos₀ hnn hlt h₁ h₂,
      wrote_of_padded (s := s₀) hs h₁ h₂ rfl hs.off hs.fresh (fun h => ?_) ?_ (fun i hi₁ hi₂ => ?_)
        (fun p hp => absurd rfl hp) rfl⟩
    · rw [hmax]
      exact hs.empty h
    · rw [hmax]
      exact hs.endPtr
    · rw [hmax] at hi₂
      rw [if_pos hi₂]
      rfl

end Write

end NSOS.Vfs
