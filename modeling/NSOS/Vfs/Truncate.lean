import NSOS.Vfs.Content
import NSOS.Vfs.History

/-! # Cutting a range out of a file

`kvfs_truncate_range` copies what is left of a file to a new block. The length
of the second copy is one too small, so the last byte of the file is lost,
unless the new block happens to hold it already.
-/

namespace NSOS.Vfs

open Basis Prog

/-- A byte array without the bytes from `start` up to `last`. -/
def cut (l : List UInt8) (start last : ℕ) : List UInt8 := l.take start ++ l.drop last

section Cut

variable {l : List UInt8} {start last i : ℕ}

theorem length_cut (h₁ : start ≤ last) (h₂ : last ≤ l.length) :
    (cut l start last).length = l.length - (last - start) := by
  rw [cut, List.length_append, List.length_take, List.length_drop]
  omega

theorem getElem_cut_left (h : i < (cut l start last).length) (hi : i < start)
    (hl : start ≤ l.length) : (cut l start last)[i] = l[i] := by
  simp only [cut]
  rw [List.getElem_append_left (by rw [List.length_take]; omega), List.getElem_take]

theorem getElem_cut_right (h : i < (cut l start last).length) (hi : start ≤ i)
    (hl : start ≤ l.length) (hlast : last + (i - start) < l.length) :
    (cut l start last)[i] = l[last + (i - start)] := by
  have htake : (l.take start).length = start := by rw [List.length_take]; omega
  simp only [cut]
  rw [List.getElem_append_right (by omega), List.getElem_drop]
  simp only [htake]

end Cut

section Range

variable {st st' : State} {ip : ℕ} {start last i : ℤ}

def InFile (st : State) (ip : ℕ) (start last : ℤ) : Prop :=
  0 ≤ start ∧ start ≤ last ∧ last < (st.inode ip).iSize

/-- What the operation is for: the bytes of the range are gone, and the storage has the size of
the file. Nothing happens for other ranges. -/
structure Removes (st st' : State) (ip : ℕ) (start last : ℤ) : Prop where
  inside : InFile st ip start last →
    (st'.inode ip).iSize = (st.inode ip).iSize - (last - start) ∧
    content st' ip = cut (content st ip) start.toNat last.toNat ∧
    (st'.node ip).endPtr = (st'.node ip).start.add (st'.inode ip).iSize
  outside : ¬ InFile st ip start last → st' = st

def State.tail (st : State) (ip : ℕ) (last : ℤ) : ℕ :=
  (toInt (toU32 ((st.node ip).endPtr.off - (st.node ip).start.off - last - 1))).toNat

/-- What the operation does with a range that passes its test. -/
structure Shrinks (st st' : State) (ip : ℕ) (start last : ℤ) : Prop where
  iSize : (st'.inode ip).iSize = toInt ((st.inode ip).iSize - (last - start))
  start_eq : (st'.node ip).start = ⟨st.blocks.size, 0⟩
  endPtr : (st'.node ip).endPtr = (st'.node ip).start.add (st'.inode ip).iSize
  blocks : st'.blocks.size = st.blocks.size + 1
  byte : ∀ i : ℤ, 0 ≤ i → st'.byte ⟨st.blocks.size, i⟩ =
    if start ≤ i ∧ i < start + st.tail ip last then
      st.byte ((st.node ip).start.add (last + (i - start)))
    else if i < (toInt start).toNat then st.byte ((st.node ip).start.add i)
    else st.byte ⟨st.blocks.size, i⟩

theorem run_kvfsTruncateRange_refused (h : last < start ∨ (st.inode ip).iSize ≤ last) :
    run (kvfsTruncateRange ip start last) st = some ((), st) := by
  rw [kvfsTruncateRange, run_bind, run_gets, Option.bind_some, if_pos h]
  rfl

theorem run_kvfsTruncateRange (hs : Stored st ip)
    (h : ¬ (last < start ∨ (st.inode ip).iSize ≤ last)) :
    ∃ st', run (kvfsTruncateRange ip start last) st = some ((), st') ∧
      Shrinks st st' ip start last := by
  let size := toInt ((st.inode ip).iSize - (last - start))
  let b : Ptr := ⟨st.blocks.size, 0⟩
  let p := (st.node ip).start
  let st₁ : State := { st with
    inodes := st.inodes.set ip fun i => { i with iSize := toInt (i.iSize - (last - start)) }
    blocks := st.blocks.grow }
  let st₂ := st₁.fill b (toInt start).toNat fun i => st₁.byte (p.add i)
  let st₃ := st₂.fill (b.add start) (st.tail ip last) fun i => st₂.byte ((p.add last).add i)
  have hinode : st₁.inode ip = { st.inode ip with iSize := size } := by
    simp [st₁, State.inode, size]
  have hnode : st₁.kvfsFiles (st₁.inode ip).iIno = st.node ip := by
    rw [hinode]
    rfl
  have hne : p.base ≠ b.base := hs.fresh.ne
  have hhead : run (memcpy b p (toInt start).toNat) st₁ = some ((), st₂) := run_memcpy hne
  have htail : run (memcpy (b.add start) (p.add last) (st.tail ip last)) st₂ = some ((), st₃) :=
    run_memcpy hne
  let st₄ : State := { st₃ with
    freed := .block p.base :: st₃.freed
    kvfsFiles := Function.update st₃.kvfsFiles (st₃.inode ip).iIno
      { st₃.kvfsFiles (st₃.inode ip).iIno with start := b, endPtr := b.add (st₃.inode ip).iSize } }
  have hsize : st₄.inode ip = { st.inode ip with iSize := size } := hinode
  have hkept : st₄.node ip = { st.node ip with start := b, endPtr := b.add size } := by
    have hfiles : st₃.kvfsFiles (st₃.inode ip).iIno = st.node ip := hnode
    have hino : (st₄.inode ip).iIno = (st₃.inode ip).iIno := rfl
    have hnew : (st₃.inode ip).iSize = size := by rw [show st₃.inode ip = _ from hinode]
    rw [State.node, hino]
    simp only [st₄, Function.update_self, hfiles, hnew]
  refine ⟨st₄, ?_, by rw [hsize], by rw [hkept], by rw [hkept, hsize], rfl, fun i hi => ?_⟩
  · rw [kvfsTruncateRange, run_bind, run_gets, Option.bind_some, if_neg h]
    simp only [setInode, run_bind, run_modify, Option.bind_some, run_gets]
    rw [show run allocBlock _ = some (b, st₁) from rfl, Option.bind_some]
    dsimp only
    rw [hnode, hhead, Option.bind_some]
    change (run (memcpy (b.add start) (p.add last) (st.tail ip last)) st₂).bind _ = _
    rw [htail]
    rfl
  · -- The second copy lies over the first one, and reads bytes that the first has not changed.
    have hold : ∀ q : Ptr, q.base ≠ b.base → st₂.byte q = st.byte q := fun q hq =>
      byte_fill_of_ne hq
    have hfirst : st₂.byte ⟨st.blocks.size, i⟩ =
        if b.off ≤ i ∧ i < b.off + (toInt start).toNat then
          st₁.byte (p.add (i - b.off).toNat) else st₁.byte ⟨st.blocks.size, i⟩ :=
      byte_fill (q := ⟨st.blocks.size, i⟩) rfl
    have hsecond : st₄.byte ⟨st.blocks.size, i⟩ =
        if (b.add start).off ≤ i ∧ i < (b.add start).off + st.tail ip last then
          st₂.byte ((p.add last).add (i - (b.add start).off).toNat)
        else st₂.byte ⟨st.blocks.size, i⟩ :=
      byte_fill (p := b.add start) (q := ⟨st.blocks.size, i⟩) rfl
    have hoff : (b.add start).off = start := Int.zero_add start
    rw [hsecond, hfirst, hoff]
    by_cases hin : start ≤ i ∧ i < start + st.tail ip last
    · have hadd : (p.add last).add (i - start).toNat = p.add (last + (i - start)) := by
        simp only [Ptr.add, Ptr.mk.injEq, true_and]
        omega
      rw [if_pos hin, if_pos hin, hadd]
      exact hold (p.add (last + (i - start))) hne
    · rw [if_neg hin, if_neg hin]
      have hzero : b.off = 0 := rfl
      rw [hzero]
      by_cases hlt : i < (toInt start).toNat
      · rw [if_pos (by omega), if_pos hlt, show (((i - 0).toNat : ℕ) : ℤ) = i by omega]
        rfl
      · rw [if_neg (by omega), if_neg hlt]
        rfl

theorem Stored.inFile (hs : Stored st ip) (hin : InFile st ip start last) :
    toInt start = start ∧ (st.tail ip last : ℤ) = (st.inode ip).iSize - last - 1 ∧
      toInt ((st.inode ip).iSize - (last - start)) = (st.inode ip).iSize - (last - start) := by
  obtain ⟨h₁, h₂, h₃⟩ := hin
  have hlt := hs.lt
  have hlen : (st.node ip).endPtr.off - (st.node ip).start.off = (st.inode ip).iSize := by
    rw [hs.endPtr, Ptr.off_add]
    omega
  refine ⟨toInt_of_range (by omega) (by omega), ?_, toInt_of_range (by omega) (by omega)⟩
  rw [State.tail, hlen, toU32_of_range (by omega) (by omega),
    toInt_of_range (by omega) (by omega)]
  omega

/-- What is left of the file, byte by byte. Behind the second copy there is one byte of the new
block that has not been written. -/
theorem Shrinks.getElem (h : Shrinks st st' ip start last) (hs : Stored st ip)
    (hin : InFile st ip start last) {k : ℕ} (hk : k < (content st' ip).length)
    (hk' : k < (cut (content st ip) start.toNat last.toNat).length) :
    (content st' ip)[k] =
      if (k : ℤ) = (st.inode ip).iSize - (last - start) - 1 then st.byte ⟨st.blocks.size, k⟩
      else (cut (content st ip) start.toNat last.toNat)[k] := by
  obtain ⟨hstart, htail, hsize⟩ := hs.inFile hin
  obtain ⟨h₁, h₂, h₃⟩ := hin
  have hlen : (content st ip).length = (st.inode ip).iSize.toNat := length_content
  have hk₂ : (k : ℤ) < (st.inode ip).iSize - (last - start) := by
    rw [length_content, h.iSize, hsize] at hk
    omega
  have hadd : (⟨st.blocks.size, 0⟩ : Ptr).add k = ⟨st.blocks.size, k⟩ := by simp [Ptr.add]
  rw [getElem_content, h.start_eq, hadd, h.byte k (by omega), htail, hstart]
  by_cases hlast : (k : ℤ) = (st.inode ip).iSize - (last - start) - 1
  · rw [if_neg (by omega), if_neg (by omega), if_pos hlast]
  · rw [if_neg hlast]
    by_cases hhead : (k : ℤ) < start
    · rw [if_neg (by omega), if_pos (by omega), getElem_cut_left hk' (by omega) (by omega),
        getElem_content]
    · have hoff : last + (k - start) = ((last.toNat + (k - start.toNat) : ℕ) : ℤ) := by omega
      rw [if_pos (by omega), getElem_cut_right hk' (by omega) (by omega) (by omega),
        getElem_content, hoff]

/-- The memory behind the last block holds the last byte of the file where it is left out. -/
def KeepsLast (st : State) (ip : ℕ) (start last : ℤ) : Prop :=
  st.byte ⟨st.blocks.size, (st.inode ip).iSize - (last - start) - 1⟩ =
    st.byte ((st.node ip).start.add ((st.inode ip).iSize - 1))

theorem Shrinks.content_iff (h : Shrinks st st' ip start last) (hs : Stored st ip)
    (hin : InFile st ip start last) :
    content st' ip = cut (content st ip) start.toNat last.toNat ↔ KeepsLast st ip start last := by
  have hbytes := fun k => @h.getElem _ _ _ _ _ hs hin k
  obtain ⟨-, -, hsize⟩ := hs.inFile hin
  obtain ⟨h₁, h₂, h₃⟩ := hin
  have hlen : (content st ip).length = (st.inode ip).iSize.toNat := length_content
  have hnew : (content st' ip).length = ((st.inode ip).iSize - (last - start)).toNat := by
    rw [length_content, h.iSize, hsize]
  have hcut : (cut (content st ip) start.toNat last.toNat).length =
      ((st.inode ip).iSize - (last - start)).toNat := by
    rw [length_cut (by omega) (by omega), hlen]
    omega
  -- The byte that the second copy leaves out.
  obtain ⟨m, hm⟩ : ∃ m : ℕ, (m : ℤ) = (st.inode ip).iSize - (last - start) - 1 :=
    ⟨((st.inode ip).iSize - (last - start) - 1).toNat, by omega⟩
  have hin : m < (cut (content st ip) start.toNat last.toNat).length := by omega
  have hlast : (cut (content st ip) start.toNat last.toNat)[m] =
      st.byte ((st.node ip).start.add ((st.inode ip).iSize - 1)) := by
    rw [getElem_cut_right (by omega) (by omega) (by omega) (by omega), getElem_content,
      show ((last.toNat + (m - start.toNat) : ℕ) : ℤ) = (st.inode ip).iSize - 1 by omega]
  rw [KeepsLast, ← hm, ← hlast]
  constructor
  · intro heq
    have hat := hbytes m (by omega) (by omega)
    rw [if_pos hm] at hat
    rw [← hat]
    simp only [heq]
  · intro hkeep
    refine List.ext_getElem (by omega) fun k hk hk' => ?_
    rw [hbytes k hk hk']
    split
    case isTrue heq =>
      obtain rfl : k = m := by omega
      exact hkeep
    case isFalse => rfl

/-- The operation removes exactly the range, or does nothing for a range that is not inside the
file, if and only if the range fails its test, or starts in the file and the last byte of the
file happens to be in the new block. -/
theorem kvfsTruncateRange_removes_iff (hs : Stored st ip) (start last : ℤ) :
    (∃ st', run (kvfsTruncateRange ip start last) st = some ((), st') ∧
      Removes st st' ip start last) ↔
    (last < start ∨ (st.inode ip).iSize ≤ last) ∨ 0 ≤ start ∧ KeepsLast st ip start last := by
  by_cases hrefused : last < start ∨ (st.inode ip).iSize ≤ last
  · have hout : ¬ InFile st ip start last := by
      rintro ⟨h₁, h₂, h₃⟩
      omega
    refine iff_of_true ⟨st, run_kvfsTruncateRange_refused hrefused, ?_⟩ (.inl hrefused)
    exact ⟨fun hin => absurd hin hout, fun _ => rfl⟩
  · obtain ⟨st', hrun, hshrinks⟩ := run_kvfsTruncateRange hs hrefused
    constructor
    · rintro ⟨st₁, hrun₁, hremoves⟩
      obtain rfl : st₁ = st' := (run_inj hrun₁ hrun).2
      by_cases hstart : 0 ≤ start
      · have hin : InFile st ip start last := ⟨hstart, by omega, by omega⟩
        exact .inr ⟨hstart, (hshrinks.content_iff hs hin).mp (hremoves.inside hin).2.1⟩
      · -- The file has moved to a new block.
        have hblocks := hshrinks.blocks
        rw [hremoves.outside fun hin => hstart hin.1] at hblocks
        omega
    · rintro (hout | ⟨hstart, hkeep⟩)
      · exact absurd hout hrefused
      · have hin : InFile st ip start last := ⟨hstart, by omega, by omega⟩
        refine ⟨st', hrun, fun _ => ⟨?_, (hshrinks.content_iff hs hin).mpr hkeep,
          hshrinks.endPtr⟩, fun hout => absurd hin hout⟩
        rw [hshrinks.iSize, (hs.inFile hin).2.2]

end Range

section Examples

def written (buf : List UInt8) : Option State :=
  replay exec initial [.call 1 (.open "/f".toList O_RDWR), .call 1 (.write 3 buf)]

theorem isSome_written : (written [65, 0]).isSome = true ∧ (written [65, 66]).isSome = true := by
  decide +kernel

def endsWithZero : State := Option.get _ isSome_written.1

def endsWithLetter : State := Option.get _ isSome_written.2

theorem written_spec : (Stored endsWithZero 2 ∧ KeepsLast endsWithZero 2 0 1) ∧
    (Stored endsWithLetter 2 ∧ InFile endsWithLetter 2 0 1) ∧
      (run (kvfsTruncateRange 2 0 1) endsWithLetter).map (fun r => content r.2 2) = some [0] ∧
        cut (content endsWithLetter 2) 0 1 = [66] := by
  unfold KeepsLast InFile
  decide +kernel

theorem kvfsTruncateRange_removes_endsWithZero :
    ∃ st', run (kvfsTruncateRange 2 0 1) endsWithZero = some ((), st') ∧
      Removes endsWithZero st' 2 0 1 :=
  (kvfsTruncateRange_removes_iff written_spec.1.1 0 1).mpr (.inr ⟨le_rfl, written_spec.1.2⟩)

/-- A file with two letters loses the second one when the first is removed. -/
theorem kvfsTruncateRange_not_removes : ¬ ∀ (st : State) (ip : ℕ) (start last : ℤ),
    Stored st ip → ∃ st', run (kvfsTruncateRange ip start last) st = some ((), st') ∧
      Removes st st' ip start last := by
  intro h
  obtain ⟨-, ⟨hstored, hin⟩, hleft, hcut⟩ := written_spec
  obtain ⟨st', hrun, hremoves⟩ := h _ 2 0 1 hstored
  have hcontent := (hremoves.inside hin).2.1
  rw [hrun, Option.map_some, hcontent, show Int.toNat 0 = 0 from rfl,
    show Int.toNat 1 = 1 from rfl, hcut] at hleft
  exact absurd hleft (by decide)

end Examples

end NSOS.Vfs
