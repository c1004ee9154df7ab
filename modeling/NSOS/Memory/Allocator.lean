import NSOS.Basis.Bytes
import NSOS.Basis.Int32

/-! # The physical memory manager

The heap is one run of bytes cut into blocks. Each block starts with a header
of twelve bytes: the previous block, a use flag and the next block. Headers
need not be aligned, so the model keeps the bytes and not the records.
Addresses are numbers below `2 ^ 32`, and address arithmetic wraps there.
-/

namespace NSOS.Pmm

open Basis

/-- `_heap`: the addresses from `start` up to but not including `stop`. -/
structure Area where
  start : ℕ
  stop : ℕ
  aligned : start % 16 = 0
  nonnull : 0 < start
  room : start + 12 ≤ stop
  bound : stop < 2 ^ 32

section Header

variable (m : Bytes) (b v : ℕ)

def front : ℕ := m.load b

def inuse : UInt8 := m (b + 4)

def next : ℕ := m.load (b + 8)

def setFront : Bytes := m.store b v
def setInuse (c : UInt8) : Bytes := m.put (b + 4) c
def setNext : Bytes := m.store (b + 8) v

end Header

section HeaderLemmas

variable {m : Bytes} {b c v : ℕ} {u : UInt8}

@[simp] theorem front_setFront_self (h : v < 2 ^ 32) : front (setFront m b v) b = v :=
  Bytes.load_store_self h
@[simp] theorem front_setFront (h : c + 4 ≤ b ∨ b + 4 ≤ c) : front (setFront m b v) c = front m c :=
  Bytes.load_store_of_disjoint h
@[simp] theorem front_setInuse (h : c + 4 ≤ b + 4 ∨ b + 5 ≤ c) :
    front (setInuse m b u) c = front m c := Bytes.load_put_of_outside (by omega)
@[simp] theorem front_setNext (h : c + 4 ≤ b + 8 ∨ b + 12 ≤ c) :
    front (setNext m b v) c = front m c := Bytes.load_store_of_disjoint (by omega)

@[simp] theorem inuse_setFront (h : c + 5 ≤ b ∨ b ≤ c) : inuse (setFront m b v) c = inuse m c :=
  Bytes.store_apply_of_outside (by omega)
@[simp] theorem inuse_setInuse_self : inuse (setInuse m b u) b = u := Bytes.put_self u
@[simp] theorem inuse_setInuse (h : c < b ∨ b < c) : inuse (setInuse m b u) c = inuse m c :=
  Bytes.put_apply_of_ne (by omega)
@[simp] theorem inuse_setNext (h : c + 5 ≤ b + 8 ∨ b + 8 ≤ c) :
    inuse (setNext m b v) c = inuse m c := Bytes.store_apply_of_outside (by omega)

@[simp] theorem next_setFront (h : c + 12 ≤ b ∨ b + 4 ≤ c + 8) :
    next (setFront m b v) c = next m c := Bytes.load_store_of_disjoint (by omega)
@[simp] theorem next_setInuse (h : c + 12 ≤ b + 4 ∨ b + 5 ≤ c + 8) :
    next (setInuse m b u) c = next m c := Bytes.load_put_of_outside (by omega)
@[simp] theorem next_setNext_self (h : v < 2 ^ 32) : next (setNext m b v) b = v :=
  Bytes.load_store_self h
@[simp] theorem next_setNext (h : c + 4 ≤ b ∨ b + 4 ≤ c) : next (setNext m b v) c = next m c :=
  Bytes.load_store_of_disjoint (by omega)

@[simp] theorem setFront_apply (h : c < b ∨ b + 4 ≤ c) : setFront m b v c = m c :=
  Bytes.store_apply_of_outside h
@[simp] theorem setInuse_apply (h : c < b + 4 ∨ b + 5 ≤ c) : setInuse m b u c = m c :=
  Bytes.put_apply_of_ne (by omega)
@[simp] theorem setNext_apply (h : c < b + 8 ∨ b + 12 ≤ c) : setNext m b v c = m c :=
  Bytes.store_apply_of_outside (by omega)

end HeaderLemmas

def ptrAdd (p n : ℕ) : ℕ := (p + n) % 2 ^ 32
def ptrSub (p n : ℕ) : ℕ := (p + (2 ^ 32 - n)) % 2 ^ 32

/-- The memory and the global `memory_head`. -/
structure State where
  mem : Bytes
  memoryHead : ℕ

def pmmInit (h : Area) (m : Bytes) : State :=
  let m := setFront m h.start 0
  let m := setInuse m h.start 0
  { mem := setNext m h.start h.stop, memoryHead := h.start }

section Alloc

/-- `while (realallocsize < size)`. After 32 doublings the register is zero. -/
def roundLoop (size : ℕ) : ℕ → ℕ → ℕ → Option (ℕ × ℕ)
  | 0, _, _ => none
  | fuel + 1, r, k =>
    if r < size then roundLoop size fuel (2 * r % 2 ^ 32) (k + 1) else some (r, k)

/-- The pair `realallocsize`, `k`, or nothing when the loop does not end. -/
def roundUp (size : ℕ) : Option (ℕ × ℕ) := roundLoop size 33 1 0

def startInBlock (b : ℕ) : ℕ := ptrAdd b 12

/-- `allocaddr`: the first multiple of `realallocsize` from `startinblock` on. -/
def allocAddr (r k start : ℕ) : ℕ :=
  if start % r = 0 then start else ((start >>> k) <<< k + r) % 2 ^ 32

/-- "block not large enough". -/
def tooSmall (m : Bytes) (b a size : ℕ) : Prop := toInt ((next m b : ℤ) - a - size) < 0

def roomBefore (a start : ℕ) : Prop := 0 < toInt ((a : ℤ) - start - 12)

def roomAfter (m : Bytes) (b a size : ℕ) : Prop :=
  0 < toInt ((next m b : ℤ) - a - size - 12)

instance (m : Bytes) (b a size : ℕ) : Decidable (tooSmall m b a size) :=
  inferInstanceAs (Decidable (_ < _))
instance (a start : ℕ) : Decidable (roomBefore a start) := inferInstanceAs (Decidable (_ < _))
instance (m : Bytes) (b a size : ℕ) : Decidable (roomAfter m b a size) :=
  inferInstanceAs (Decidable (_ < _))

/-- The search loop of `pmm_alloc`: the block where it stops. -/
def search (h : Area) (m : Bytes) (size r k : ℕ) : ℕ → ℕ → Option ℕ
  | 0, _ => none
  | fuel + 1, b =>
    if b ≠ 0 ∧ b ≠ h.stop ∧
        (inuse m b = 1 ∨ tooSmall m b (allocAddr r k (startInBlock b)) size) then
      search h m size r k fuel (next m b)
    else some b

def splitBoth (h : Area) (m : Bytes) (b hd rest : ℕ) : Bytes :=
  let m := setFront m rest hd
  let m := setInuse m rest 0
  let m := setNext m rest (next m b)
  let m := setNext m hd rest
  let m := if next m b ≠ h.stop then setFront m (next m b) rest else m
  setNext m b hd

def splitBefore (h : Area) (m : Bytes) (b hd : ℕ) : Bytes :=
  let m := setNext m hd (next m b)
  let m := if next m b ≠ h.stop then setFront m (next m b) hd else m
  setNext m b hd

def splitAfter (h : Area) (m : Bytes) (b hd rest : ℕ) : Bytes :=
  let m := setFront m rest hd
  let m := setInuse m rest 0
  let m := setNext m rest (next m b)
  let m := if next m b ≠ h.stop then setFront m (next m b) rest else m
  setNext m b rest

def moveHeader (s : State) (m : Bytes) (b hd : ℕ) : State :=
  if front m b = 0 then
    let m := setNext m hd (next m b)
    { mem := setInuse m hd 1, memoryHead := hd }
  else
    let currentNext := next m b
    let currentFront := front m b
    let m := setNext m (front m b) hd
    let m := setFront m currentNext hd
    let m := setNext m hd currentNext
    let m := setFront m hd currentFront
    { s with mem := setInuse m hd 1 }

/-- The part of `pmm_alloc` after the search. -/
def place (h : Area) (s : State) (b a size : ℕ) : State :=
  let hd := ptrSub a 12
  let rest := ptrAdd a size
  if roomBefore a (startInBlock b) then
    let m := setFront s.mem hd b
    let m := setInuse m hd 1
    if roomAfter m b a size then { s with mem := splitBoth h m b hd rest }
    else { s with mem := splitBefore h m b hd }
  else
    let m := if roomAfter s.mem b a size then splitAfter h s.mem b hd rest else s.mem
    moveHeader s m b hd

/-- `pmm_alloc`: the new state and the address returned, `0` for `NULL`. -/
def pmmAlloc (h : Area) (fuel : ℕ) (s : State) (size : ℕ) : Option (State × ℕ) := do
  let (r, k) ← roundUp size
  let b ← search h s.mem size r k fuel s.memoryHead
  if b = 0 then some (s, 0)
  else
    let a := allocAddr r k (startInBlock b)
    some (place h s b a size, a)

end Alloc

section Free

/-- The first loop of `pmm_free`: join the block to the free blocks in front of it. -/
def mergeBack : ℕ → Bytes → ℕ → Option (Bytes × ℕ)
  | 0, _, _ => none
  | fuel + 1, m, cur =>
    if front m cur ≠ 0 ∧ inuse m (front m cur) = 0 then
      let m := setNext m (front m cur) (next m cur)
      let m := setFront m (next m cur) (front m cur)
      mergeBack fuel m (front m cur)
    else some (m, cur)

/-- The branch of `pmm_free` for the first block of the list, with the new `current`. -/
def resetHead (h : Area) (s : State) (m : Bytes) (cur : ℕ) : State × ℕ :=
  if front m cur = 0 then
    let m := setNext m h.start (next m cur)
    let m := setFront m h.start 0
    let m := setFront m (next m h.start) h.start
    ({ mem := setInuse m h.start 0, memoryHead := h.start }, h.start)
  else ({ s with mem := m }, cur)

/-- The last loop of `pmm_free`: join the free blocks behind. -/
def mergeForward (h : Area) : ℕ → Bytes → ℕ → Option Bytes
  | 0, _, _ => none
  | fuel + 1, m, cur =>
    if next m cur ≠ h.stop ∧ inuse m (next m cur) = 0 then
      let m := setFront m (next m cur) cur
      let m := setNext m cur (next m (next m cur))
      mergeForward h fuel m cur
    else some m

def pmmFree (h : Area) (fuel : ℕ) (s : State) (ptr : ℕ) : Option State := do
  let cur := ptrSub ptr 12
  let (m, cur) ← mergeBack fuel (setInuse s.mem cur 0) cur
  let (s, cur) := resetHead h s m cur
  let m ← mergeForward h fuel s.mem cur
  some { s with mem := m }

end Free

end NSOS.Pmm
