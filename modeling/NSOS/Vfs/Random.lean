import NSOS.Nslibc.Stdlib
import NSOS.Vfs.Reading

/-! # Random bytes

A read of the file `random` of `devfs` seeds the generator with the uptime and
takes the lowest bytes of its results.
-/

namespace NSOS.Vfs

open Basis Prog Nslibc

section Loop

variable {n i : ℕ} {s : UInt32} {buf : List UInt8}

/-- The loop of `devfs_read` that calls `rand`, with the number of bytes it still reads. -/
def randLoop : ℕ → UInt32 → List UInt8 → List UInt8
  | 0, _, buf => buf
  | n + 1, randseed, buf => randLoop n (rand randseed) (buf ++ [(rand randseed).toUInt8])

def randomBytes (seed : UInt32) (count : ℕ) : List UInt8 := randLoop count (srand seed) []

theorem append_iterate (g : UInt32 → UInt32) (n : ℕ) (s : UInt32) (buf : List UInt8) :
    (buf ++ [(g s).toUInt8]) ++ (List.range n).map (fun i => (g^[i + 1] (g s)).toUInt8) =
      buf ++ (List.range (n + 1)).map fun i => (g^[i + 1] s).toUInt8 := by
  rw [List.append_assoc, List.range_succ_eq_map, List.map_cons, List.map_map]
  rfl

theorem randLoop_eq (n : ℕ) (s : UInt32) (buf : List UInt8) :
    randLoop n s buf = buf ++ (List.range n).map fun i => (rand^[i + 1] s).toUInt8 := by
  induction n generalizing s buf with
  | zero => exact (List.append_nil buf).symm
  | succ n ih => exact (ih _ _).trans (append_iterate rand n s buf)

theorem randomBytes_eq (s : UInt32) (n : ℕ) :
    randomBytes s n = (List.range n).map fun i => (randAt s i).toUInt8 :=
  randLoop_eq n _ _

@[simp] theorem length_randomBytes : (randomBytes s n).length = n := by
  rw [randomBytes_eq, List.length_map, List.length_range]

theorem getElem_randomBytes (hi : i < (randomBytes s n).length) :
    (randomBytes s n)[i] = (randAt s i).toUInt8 := by
  simp [randomBytes_eq]

end Loop

section Reads

variable {st : State} {t f ip n : ℕ} {fd : ℤ} {seed : UInt32}

/-- A descriptor that is open on the file `random`, while the uptime is `seed`. -/
structure RandomOn (st : State) (t : ℕ) (fd : ℤ) (f ip : ℕ) (seed : UInt32) : Prop where
  opened : OpenOn st t fd f .devfs
  inode : (st.dentry (st.file f).fDentry).dInode = some ip
  number : (st.inode ip).iIno = RANDOM_INO
  uptime : ∀ i, st.randByte i = (randAt seed i).toUInt8

theorem RandomOn.run_vfsRead (h : RandomOn st t fd f ip seed) (n : ℕ) :
    run (vfsRead t fd n) st = some ((toInt n, randomBytes seed n), st) := by
  have hino : run (dentryIno f) st = some (RANDOM_INO, st) := by
    rw [dentryIno, run_bind, run_gets, Option.bind_some, h.inode, run_bind, run_demand,
      Option.map_some, Option.bind_some, run_gets, h.number]
  have hbytes : (List.range n).map st.randByte = randomBytes seed n := by
    rw [randomBytes_eq]
    exact List.map_congr_left fun i _ => h.uptime i
  rw [Vfs.run_vfsRead h.opened, Driver.read, devfsRead, run_bind, hino, Option.bind_some,
    if_neg (show ¬ RANDOM_INO = NULL_INO by decide), if_pos rfl, run_bind, run_gets,
    Option.bind_some, run_pure, hbytes]

/-- A read of `random` returns as many bytes as it is asked for. They repeat after `256` bytes
and not before, and all byte values are among them when there are so many. -/
theorem random_read (h : RandomOn st t fd f ip seed) (n : ℕ) :
    ∃ buf, run (vfsRead t fd n) st = some ((toInt n, buf), st) ∧ buf.length = n ∧
      (∀ i j (hi : i < buf.length) (hj : j < buf.length),
        buf[i] = buf[j] ↔ i ≡ j [MOD 256]) ∧ (256 ≤ n → ∀ b, b ∈ buf) := by
  refine ⟨_, h.run_vfsRead n, length_randomBytes, fun i j hi hj => ?_, fun hn b => ?_⟩
  · rw [getElem_randomBytes, getElem_randomBytes]
    exact toUInt8_randAt_eq_iff
  · obtain ⟨i, hi, hb⟩ := exists_toUInt8_randAt_eq seed b
    rw [randomBytes_eq, List.mem_map]
    exact ⟨i, List.mem_range.mpr (hi.trans_le hn), hb⟩

/-- At any two uptimes, one read is a part of a longer one behind fewer than `256` bytes. -/
theorem random_rotates (seed seed' : UInt32) :
    ∃ k < 256, ∀ n, randomBytes seed' n = (randomBytes seed (k + n)).drop k := by
  obtain ⟨k, hk, hbyte⟩ := exists_toUInt8_randAt seed seed'
  refine ⟨k, hk, fun n => ?_⟩
  refine List.ext_getElem (by simp) fun i hi _ => ?_
  rw [List.getElem_drop, getElem_randomBytes, getElem_randomBytes, hbyte]

def oneRandom : State := { (default : State) with
  inodes := ⟨fun _ => ⟨0, 0, aclRead, RANDOM_INO, 0, .devfs, some .devfs⟩, 1⟩
  files := ⟨fun _ => ⟨0, 0, 0, O_RDONLY, some .devfs⟩, 1⟩
  dentries := ⟨fun _ => { (default : Dentry) with dInode := some 0 }, 1⟩
  randByte := fun i => (randAt 0 i).toUInt8
  thread := fun _ => { (default : Thread) with fileDescriptors := fun _ => .file 0 } }

theorem randomOn_oneRandom : RandomOn oneRandom 1 3 0 0 0 where
  opened := ⟨rfl, by decide, rfl, rfl⟩
  inode := rfl
  number := rfl
  uptime _ := rfl

theorem random_read_once : ∃ buf, run (vfsRead 1 3 512) oneRandom =
    some ((toInt (512 : ℕ), buf), oneRandom) ∧ ∀ b, b ∈ buf := by
  obtain ⟨buf, hrun, -, -, hall⟩ := random_read randomOn_oneRandom 512
  exact ⟨buf, hrun, hall (Nat.le_add_left 256 256)⟩

end Reads

end NSOS.Vfs
