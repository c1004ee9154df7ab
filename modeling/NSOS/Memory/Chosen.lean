import NSOS.Memory.Rounding
import NSOS.Memory.Runs

/-! # The block an allocation takes

In a heap below `2 ^ 31`, and for requests of at most `2 ^ 30` bytes, the signed
test of the search says of each listed block whether the request fits. So the
first free block with room is taken, at its first aligned address.
-/

namespace NSOS.Pmm

open Basis

variable {size r k fuel a b x : ℕ} {h : Area} {s : State} {m : Bytes} {bs : List ℕ}

section Heap

/-- The blocks that the links lead through from some address to the end of the heap. Each
has room for its header and a proper use flag. -/
def Blocks (h : Area) (m : Bytes) : List ℕ → ℕ → Prop
  | [], x => x = h.stop
  | b :: bs, x => x = b ∧ h.start ≤ b ∧ b + 12 ≤ next m b ∧ (inuse m b = 0 ∨ inuse m b = 1) ∧
      Blocks h m bs (next m b)

/-- The block list is in address order and ends at `_heap.end`, which is below `2 ^ 31`. -/
structure WellFormed (h : Area) (s : State) (bs : List ℕ) : Prop where
  below : h.stop < 2 ^ 31
  blocks : Blocks h s.mem bs s.memoryHead

theorem Blocks.le (hb : Blocks h m bs x) : x ≤ h.stop := by
  induction bs generalizing x with
  | nil => exact hb.le
  | cons b bs ih =>
    obtain ⟨rfl, -, hroom, -, hbs⟩ := hb
    exact ((Nat.le_add_right _ _).trans hroom).trans (ih hbs)

/-- What is known of a listed block. -/
structure IsBlock (h : Area) (m : Bytes) (b : ℕ) : Prop where
  start_le : h.start ≤ b
  room : b + 12 ≤ next m b
  flag : inuse m b = 0 ∨ inuse m b = 1
  le_stop : next m b ≤ h.stop

theorem Blocks.isBlock (hb : Blocks h m bs x) : ∀ c ∈ bs, IsBlock h m c := by
  induction bs generalizing x with
  | nil => simp
  | cons b bs ih =>
    obtain ⟨rfl, hstart, hroom, hflag, hbs⟩ := hb
    exact List.forall_mem_cons.mpr ⟨⟨hstart, hroom, hflag, hbs.le⟩, ih hbs⟩

theorem IsBlock.ne_zero (hb : IsBlock h m b) : b ≠ 0 := by
  have := h.nonnull
  have := hb.start_le
  omega

theorem IsBlock.ne_stop (hb : IsBlock h m b) : b ≠ h.stop := by
  have := hb.room
  have := hb.le_stop
  omega

end Heap

section Search

def Rejects (m : Bytes) (size r k b : ℕ) : Prop :=
  inuse m b = 1 ∨ tooSmall m b (candidate r k b) size

/-- The search stops at the first block that it does not reject, or at the end of the heap. -/
theorem Blocks.search (hb : Blocks h m bs x) (size r k : ℕ) : ∃ pre post c,
    (bs = pre ++ c :: post ∧ ¬ Rejects m size r k c ∨ bs = pre ∧ c = h.stop) ∧
      (∀ b ∈ pre, Rejects m size r k b) ∧ ∃ fuel, Pmm.search h m size r k fuel x = some c := by
  induction bs generalizing x with
  | nil =>
    exact ⟨[], [], x, .inr ⟨rfl, hb⟩, by simp, 1, if_neg fun hc => hc.2.1 hb⟩
  | cons b bs ih =>
    have hblock := hb.isBlock b List.mem_cons_self
    obtain ⟨rfl, -, -, -, hbs⟩ := hb
    by_cases hrej : Rejects m size r k x
    · obtain ⟨pre, post, c, hc, hpre, fuel, hs⟩ := ih hbs
      refine ⟨x :: pre, post, c, ?_, List.forall_mem_cons.mpr ⟨hrej, hpre⟩, fuel + 1,
        (if_pos ⟨hblock.ne_zero, hblock.ne_stop, hrej⟩).trans hs⟩
      rcases hc with ⟨rfl, hc⟩ | ⟨rfl, hc⟩
      · exact .inl ⟨rfl, hc⟩
      · exact .inr ⟨rfl, hc⟩
    · exact ⟨[], bs, x, .inl ⟨rfl, hrej⟩, by simp, 1, if_neg fun hc => hrej hc.2.2⟩

end Search

section Candidate

/-- The first address behind the header of a block that is aligned to `r`. -/
def FirstAligned (r b a : ℕ) : Prop := IsLeast {x | r ∣ x ∧ b + 12 ≤ x} a

theorem firstAligned_of_near (h₁ : b + 12 ≤ a) (h₂ : a < b + 12 + r) (hd : r ∣ a) :
    FirstAligned r b a := by
  constructor
  · exact ⟨hd, h₁⟩
  · rintro x ⟨hx, hb⟩
    by_contra hlt
    have hstep : r ∣ a - x := Nat.dvd_sub hd hx
    have hle : r ≤ a - x := Nat.le_of_dvd (by omega) hstep
    omega

theorem firstAligned_candidate (hr : r = 2 ^ k) (hb : b + 12 + r ≤ 2 ^ 32) :
    FirstAligned r b (candidate r k b) ∧ candidate r k b < b + 12 + r := by
  have hpos : 0 < r := by rw [hr]; exact Nat.two_pow_pos k
  have hst : startInBlock b = b + 12 := by
    unfold startInBlock ptrAdd
    omega
  obtain ⟨A, h₁, h₂, h₃, h₄⟩ := allocAddr_spec (x := b + 12) hr (by omega)
  rw [candidate, hst, h₄, Nat.mod_eq_of_lt (h₂.trans_le hb)]
  exact ⟨firstAligned_of_near h₁ h₂ h₃, h₂⟩

/-- The test is exact as long as the difference is an `int`. -/
theorem tooSmall_iff (hn : next m b < 2 ^ 31) (ha : a + size ≤ next m b + 2 ^ 31) :
    tooSmall m b a size ↔ next m b < a + size := by
  unfold tooSmall
  rw [toInt_of_range (by omega) (by omega)]
  omega

theorem IsBlock.judged (hb : IsBlock h m b) (hstop : h.stop < 2 ^ 31) (hr : r = 2 ^ k)
    (hr' : r ≤ 2 ^ 30) (hs : size ≤ 2 ^ 30) : FirstAligned r b (candidate r k b) ∧
      (tooSmall m b (candidate r k b) size ↔ next m b < candidate r k b + size) := by
  have hroom := hb.room
  have hle := hb.le_stop
  obtain ⟨hfirst, hnear⟩ := firstAligned_candidate (b := b) hr (by omega)
  exact ⟨hfirst, tooSmall_iff (by omega) (by omega)⟩

end Candidate

section FirstFit

/-- The block is free and the request fits behind an aligned address. -/
def HasRoom (m : Bytes) (size r b : ℕ) : Prop := ∃ a, Holds m size r b a

theorem hasRoom_iff (hf : FirstAligned r b a) :
    HasRoom m size r b ↔ inuse m b = 0 ∧ a + size ≤ next m b := by
  constructor
  · rintro ⟨x, hu, hb, hd, hx⟩
    have hle : a ≤ x := hf.2 ⟨hd, hb⟩
    exact ⟨hu, by omega⟩
  · rintro ⟨hu, hx⟩
    exact ⟨a, hu, hf.1.2, hf.1.1, hx⟩

theorem IsBlock.rejects_iff (hb : IsBlock h m b) (hf : FirstAligned r b (candidate r k b))
    (ht : tooSmall m b (candidate r k b) size ↔ next m b < candidate r k b + size) :
    Rejects m size r k b ↔ ¬ HasRoom m size r b := by
  rw [hasRoom_iff hf, Rejects, ht, not_and_or, Nat.not_le]
  apply or_congr_left
  rcases hb.flag with hu | hu
  · rw [hu]
    decide
  · rw [hu]
    decide

theorem pmmAlloc_eq (hr : roundUp size = some (r, k))
    (hs : search h s.mem size r k fuel s.memoryHead = some b) (hb : b ≠ 0) {fuel' : ℕ}
    (hf : fuel ≤ fuel') : pmmAlloc h fuel' s size =
      some (place h s b (candidate r k b) size, candidate r k b) := by
  unfold pmmAlloc
  simp only [hr, Option.bind_eq_bind, Option.bind_some, search_mono hf hs, if_neg hb]
  rfl

/-- The request gets the first aligned address of the first free block with room for it. The
candidate and the test of the code are exact for every block. -/
theorem pmmAlloc_firstFit (hwf : WellFormed h s bs) (hs : size ≤ 2 ^ 30)
    (hr : LeastPower size r) (hroom : ∃ b ∈ bs, HasRoom s.mem size r b) :
    (∃ pre b post a s', bs = pre ++ b :: post ∧ (∀ c ∈ pre, ¬ HasRoom s.mem size r c) ∧
      inuse s.mem b = 0 ∧ FirstAligned r b a ∧ a + size ≤ next s.mem b ∧
      ∃ fuel, ∀ fuel' ≥ fuel, pmmAlloc h fuel' s size = some (s', a)) ∧
    ∃ k, roundUp size = some (r, k) ∧ ∀ c ∈ bs, FirstAligned r c (candidate r k c) ∧
      (tooSmall s.mem c (candidate r k c) size ↔ next s.mem c < candidate r k c + size) := by
  obtain rfl := hr.unique leastPower_clog
  set k := Nat.clog 2 size
  have hup : roundUp size = some (2 ^ k, k) := roundUp_eq (hs.trans (by decide))
  have hr' : 2 ^ k ≤ 2 ^ 30 := Nat.pow_le_pow_right (by decide) (Nat.clog_le_of_le_pow hs)
  have hjudged : ∀ c ∈ bs, FirstAligned (2 ^ k) c (candidate (2 ^ k) k c) ∧
      (tooSmall s.mem c (candidate (2 ^ k) k c) size ↔
        next s.mem c < candidate (2 ^ k) k c + size) :=
    fun c hc => (hwf.blocks.isBlock c hc).judged hwf.below rfl hr' hs
  have hrej : ∀ c ∈ bs, Rejects s.mem size (2 ^ k) k c ↔ ¬ HasRoom s.mem size (2 ^ k) c :=
    fun c hc => (hwf.blocks.isBlock c hc).rejects_iff (hjudged c hc).1 (hjudged c hc).2
  refine ⟨?_, k, hup, hjudged⟩
  obtain ⟨pre, post, b, hb, hpre, fuel, hsearch⟩ := hwf.blocks.search size (2 ^ k) k
  rcases hb with ⟨rfl, hacc⟩ | ⟨rfl, -⟩
  · have hmem : b ∈ pre ++ b :: post := List.mem_append_right _ List.mem_cons_self
    have hhas : HasRoom s.mem size (2 ^ k) b := not_not.mp (mt (hrej b hmem).mpr hacc)
    obtain ⟨hfree, hfits⟩ := (hasRoom_iff (hjudged b hmem).1).mp hhas
    refine ⟨pre, b, post, _, place h s b (candidate (2 ^ k) k b) size, rfl, ?_, hfree,
      (hjudged b hmem).1, hfits, fuel, ?_⟩
    · rintro c hc
      exact (hrej c (List.mem_append_left _ hc)).mp (hpre c hc)
    · rintro fuel' hf
      exact pmmAlloc_eq hup hsearch (hwf.blocks.isBlock b hmem).ne_zero hf
  · obtain ⟨c, hc, hhas⟩ := hroom
    exact absurd hhas ((hrej c hc).mp (hpre c hc))

theorem wellFormed_pmmInit (hstop : h.stop < 2 ^ 31) (m : Bytes) :
    WellFormed h (pmmInit h m) [h.start] := by
  have hnext : next (pmmInit h m).mem h.start = h.stop := next_setNext_self h.bound
  have hflag : inuse (pmmInit h m).mem h.start = 0 :=
    (inuse_setNext (by omega)).trans inuse_setInuse_self
  exact ⟨hstop, rfl, le_rfl, h.room.trans hnext.ge, .inl hflag, hnext⟩

instance decidableBlocks (h : Area) (m : Bytes) :
    ∀ (bs : List ℕ) (x : ℕ), Decidable (Blocks h m bs x)
  | [], x => inferInstanceAs (Decidable (x = h.stop))
  | b :: bs, x =>
    have := decidableBlocks h m bs (next m b)
    inferInstanceAs (Decidable (x = b ∧ h.start ≤ b ∧ b + 12 ≤ next m b ∧
      (inuse m b = 0 ∨ inuse m b = 1) ∧ Blocks h m bs (next m b)))

/-- A block that is taken, one that was given back and is too small, and another one that is taken
lie in front of the free rest of the heap. -/
theorem pmmAlloc_firstFit_run :
    let h : Area := ⟨0x1000, 0x1100, by decide, by decide, by decide, by decide⟩
    let bs := [0x1004, 0x1024, 0x1044, 0x1060]
    ∃ s, WellFormed h s bs ∧ bs.map (inuse s.mem) = [1, 0, 1, 0] ∧ ¬HasRoom s.mem 40 64 0x1024 ∧
      ∃ pre b post a s', bs = pre ++ b :: post ∧ (∀ c ∈ pre, ¬HasRoom s.mem 40 64 c) ∧
        inuse s.mem b = 0 ∧ FirstAligned 64 b a ∧ a + 40 ≤ next s.mem b ∧
        ∃ fuel, ∀ fuel' ≥ fuel, pmmAlloc h fuel' s 40 = some (s', a) := by
  intro h bs
  have hruns : ((replay (execLegal h 4) (.init h fun _ => 0)
      [.alloc 16, .alloc 16, .alloc 16, .free (0x1030, 16)]).any fun w =>
        Blocks h w.pmm.mem bs w.pmm.memoryHead ∧ bs.map (inuse w.pmm.mem) = [1, 0, 1, 0] ∧
          next w.pmm.mem 0x1024 = 0x1044 ∧ Holds w.pmm.mem 40 64 0x1060 0x1080) = true := by
    decide +kernel
  obtain ⟨w, -, hstate⟩ := (Option.any_eq_true _ _).mp hruns
  obtain ⟨hblocks, hused, hsmall, hholds⟩ := of_decide_eq_true hstate
  have hwf : WellFormed h w.pmm bs := ⟨by decide, hblocks⟩
  have hpow : LeastPower 40 64 := by
    have hclog : 2 ^ Nat.clog 2 40 = 64 := by decide +kernel
    rw [← hclog]
    exact leastPower_clog
  refine ⟨w.pmm, hwf, hused, ?_, (pmmAlloc_firstFit hwf (by decide) hpow
    ⟨0x1060, by decide, 0x1080, hholds⟩).1⟩
  rintro ⟨a, -, habove, ⟨q, rfl⟩, hin⟩
  omega

end FirstFit

end NSOS.Pmm
