import NSOS.Memory.Chosen
import NSOS.Memory.Safety

/-! # Requests that nothing fits

The search for a block has no exit for an exhausted list: at the end of the
heap it stops like at a block that is taken. The header behind the heap is then
cut as if it were free. Requests over `2 ^ 30` bytes are also misjudged by the
signed test. Only when the candidate address wraps to zero does the call return
`NULL`.
-/

namespace NSOS.Pmm

open Basis

variable {size r k fuel b x : ℕ} {h : Area} {s : State} {m m' : Bytes} {bs : List ℕ}

section Large

/-- Between `2 ^ 30` and `2 ^ 31` the only aligned address below `2 ^ 32` is `2 ^ 31`. -/
theorem candidate_large (hb : b + 12 ≤ 2 ^ 31) : candidate (2 ^ 31) 31 b = 2 ^ 31 := by
  obtain ⟨⟨⟨hd, hle⟩, -⟩, hlt⟩ := firstAligned_candidate (r := 2 ^ 31) (k := 31) (b := b) rfl
    (by omega)
  obtain ⟨q, hq⟩ := hd
  omega

theorem candidate_wraps (hb : 2 ^ 31 < b + 12) (hb' : b < 2 ^ 31) :
    candidate (2 ^ 31) 31 b = 0 := by
  have hst : startInBlock b = b + 12 := by
    unfold startInBlock ptrAdd
    omega
  obtain ⟨A, h₁, h₂, ⟨q, rfl⟩, h₄⟩ := allocAddr_spec (x := b + 12) (r := 2 ^ 31) (k := 31) rfl
    (by omega)
  rw [candidate, hst, h₄]
  omega

/-- The test for a large request takes exactly the blocks that end too early. -/
theorem tooSmall_large (hn : next m b < 2 ^ 31) (hs : size ≤ 2 ^ 31) :
    tooSmall m b (2 ^ 31) size ↔ size ≤ next m b := by
  unfold tooSmall
  by_cases hle : size ≤ next m b
  · rw [toInt_of_range (by omega) (by omega)]
    omega
  · rw [← toInt_add_wrap, toInt_of_range (by omega) (by omega)]
    omega

end Large

section Behind

def top : ℕ := 2 ^ 32 - 12

/-- The header words that handing out address zero behind the heap writes are there already. -/
def Settled (h : Area) (m : Bytes) (size : ℕ) : Prop :=
  next m h.stop = top ∧
    if size + 24 ≤ 2 ^ 31 then front m top = top ∧ inuse m top = 1 ∧ next m top = top
    else splitBoth h (setInuse (setFront m top h.stop) top 1) h.stop top size = m

theorem next_splitBoth {hd rest : ℕ} (hh : hd < 2 ^ 32) : next (splitBoth h m b hd rest) b = hd :=
  next_setNext_self hh

theorem next_splitBefore {hd : ℕ} (hh : hd < 2 ^ 32) : next (splitBefore h m b hd) b = hd :=
  next_setNext_self hh

theorem splitBefore_settled (hstop : h.stop < 2 ^ 31) (hn : next m h.stop = top) :
    splitBefore h (setInuse (setFront m top h.stop) top 1) h.stop top = m ↔
      front m top = top ∧ inuse m top = 1 ∧ next m top = top := by
  have htop : top = 2 ^ 32 - 12 := rfl
  set m₁ := setInuse (setFront m top h.stop) top 1 with hm₁
  have hn₁ : next m₁ h.stop = top := by simp (disch := omega) [hm₁, hn]
  have hn₂ : next (setNext m₁ top top) h.stop = top := by simp (disch := omega) [hn₁]
  have hsplit : splitBefore h m₁ h.stop top =
      setNext (setFront (setNext m₁ top top) top top) h.stop top := by
    simp only [splitBefore, hn₁, hn₂]
    rw [if_pos (by omega)]
  rw [hsplit]
  constructor
  · intro heq
    rw [← heq]
    simp (disch := omega) [hm₁]
  · rintro ⟨hf, hu, hx⟩
    funext x
    by_cases h₁ : h.stop + 8 ≤ x ∧ x < h.stop + 12
    · exact Bytes.store_apply_of_load hn h₁.1 (by omega)
    by_cases h₂ : top ≤ x ∧ x < top + 4
    · exact (setNext_apply (by omega)).trans (Bytes.store_apply_of_load hf h₂.1 h₂.2)
    by_cases h₃ : top + 8 ≤ x ∧ x < top + 12
    · apply (setNext_apply (by omega)).trans
      exact (setFront_apply (by omega)).trans (Bytes.store_apply_of_load hx h₃.1 (by omega))
    by_cases h₄ : x = top + 4
    · subst h₄
      rw [setNext_apply (by omega), setFront_apply (by omega), setNext_apply (by omega), hm₁]
      exact inuse_setInuse_self.trans hu.symm
    · rw [setNext_apply (by omega), setFront_apply (by omega), setNext_apply (by omega), hm₁,
        setInuse_apply (by omega), setFront_apply (by omega)]

theorem place_zero (hstop : h.stop < 2 ^ 31) (hend : 2 ^ 31 < h.stop + 12) (hs : 2 ^ 30 < size)
    (hs' : size ≤ 2 ^ 31) : place h s h.stop 0 size = s ↔ Settled h s.mem size := by
  have htop : top = 2 ^ 32 - 12 := rfl
  have hhd : ptrSub 0 12 = top := by decide
  have hrest : ptrAdd 0 size = size := by
    unfold ptrAdd
    omega
  have hbefore : roomBefore 0 (startInBlock h.stop) := by
    have hst : startInBlock h.stop = h.stop + 12 := by
      unfold startInBlock ptrAdd
      omega
    unfold roomBefore
    rw [hst, ← toInt_add_wrap, toInt_of_range (by omega) (by omega)]
    omega
  unfold place Settled
  simp only [hhd, hrest, if_pos hbefore]
  set m₁ := setInuse (setFront s.mem top h.stop) top 1 with hm₁
  have hn₁ : next m₁ h.stop = next s.mem h.stop := by simp (disch := omega) [hm₁]
  have hafter (hn : next s.mem h.stop = top) : roomAfter m₁ h.stop 0 size ↔ 2 ^ 31 < size + 24 := by
    have hdiff : (next m₁ h.stop : ℤ) - (0 : ℕ) - size - 12 = -24 - size + 2 ^ 32 := by omega
    unfold roomAfter
    rw [hdiff]
    by_cases hle : size + 24 ≤ 2 ^ 31
    · rw [toInt_add_wrap, toInt_of_range (by omega) (by omega)]
      omega
    · rw [toInt_of_range (by omega) (by omega)]
      omega
  constructor
  · intro heq
    have hn : next s.mem h.stop = top := by
      have hlt : top < 2 ^ 32 := by omega
      rw [← heq]
      split
      · exact next_splitBoth hlt
      · exact next_splitBefore hlt
    refine ⟨hn, ?_⟩
    by_cases hle : size + 24 ≤ 2 ^ 31
    · rw [if_pos hle]
      rw [if_neg (by rw [hafter hn]; omega)] at heq
      exact (splitBefore_settled hstop hn).mp (congrArg State.mem heq)
    · rw [if_neg hle]
      rw [if_pos (by rw [hafter hn]; omega)] at heq
      exact congrArg State.mem heq
  · rintro ⟨hn, hset⟩
    by_cases hle : size + 24 ≤ 2 ^ 31
    · rw [if_pos hle] at hset
      rw [if_neg (by rw [hafter hn]; omega), (splitBefore_settled hstop hn).mpr hset]
    · rw [if_neg hle] at hset
      rw [if_pos (by rw [hafter hn]; omega), hset]

end Behind

section Refusal

/-- The only way to get `NULL`: the request is large, the heap ends within eleven bytes of
`2 ^ 31`, no free block ends too early, and the header words written are there already. -/
def Refusable (h : Area) (m : Bytes) (size : ℕ) (bs : List ℕ) : Prop :=
  2 ^ 30 < size ∧ 2 ^ 31 < h.stop + 12 ∧
    (∀ b ∈ bs, inuse m b = 0 → size ≤ next m b) ∧ Settled h m size

theorem pmmAlloc_eq_iff {t : State} {a : ℕ} (hr : roundUp size = some (r, k))
    (hs : search h s.mem size r k fuel s.memoryHead = some b) (hb : b ≠ 0) :
    (∃ fuel', pmmAlloc h fuel' s size = some (t, a)) ↔
      place h s b (candidate r k b) size = t ∧ candidate r k b = a := by
  have heq := pmmAlloc_eq hr hs hb le_rfl
  constructor
  · rintro ⟨fuel', ha⟩
    exact pmmAlloc_unique heq ha
  · rintro ⟨rfl, rfl⟩
    exact ⟨fuel, heq⟩

/-- Up to `2 ^ 30` bytes no listed block is taken, and the address behind the heap is. -/
theorem pmmAlloc_small (hwf : WellFormed h s bs) (hs : size ≤ 2 ^ 30)
    (hno : ∀ b ∈ bs, ¬ HasRoom s.mem size (2 ^ Nat.clog 2 size) b) :
    ¬ ∃ fuel, pmmAlloc h fuel s size = some (s, 0) := by
  set k := Nat.clog 2 size
  have hr' : 2 ^ k ≤ 2 ^ 30 := Nat.pow_le_pow_right (by decide) (Nat.clog_le_of_le_pow hs)
  have hstop := hwf.below
  have hroom := h.room
  obtain ⟨pre, post, c, hc, -, fuel, hsearch⟩ := hwf.blocks.search size (2 ^ k) k
  rcases hc with ⟨rfl, hacc⟩ | ⟨rfl, rfl⟩
  · have hmem : c ∈ pre ++ c :: post := List.mem_append_right _ List.mem_cons_self
    have hblock := hwf.blocks.isBlock c hmem
    have hjudged := hblock.judged hstop rfl hr' hs
    exact absurd ((hblock.rejects_iff hjudged.1 hjudged.2).mpr (hno c hmem)) hacc
  · rw [pmmAlloc_eq_iff (roundUp_eq (hs.trans (by decide))) hsearch (by omega)]
    rintro ⟨-, hzero⟩
    have hfirst := (firstAligned_candidate (b := h.stop) (r := 2 ^ k) (k := k) rfl (by omega)).1
    have habove : h.stop + 12 ≤ 0 := hfirst.1.2.trans hzero.le
    omega

theorem clog_large (h₁ : 2 ^ 30 < size) (h₂ : size ≤ 2 ^ 31) : Nat.clog 2 size = 31 :=
  Nat.le_antisymm (Nat.clog_le_of_le_pow h₂) ((Nat.lt_clog_iff_pow_lt (by decide)).mpr h₁)

theorem IsBlock.rejects_large (hb : IsBlock h m b) (hstop : h.stop < 2 ^ 31)
    (hs : size ≤ 2 ^ 31) : Rejects m size (2 ^ 31) 31 b ↔ (inuse m b = 0 → size ≤ next m b) := by
  have hroom := hb.room
  have hle := hb.le_stop
  rw [Rejects, candidate_large (by omega), tooSmall_large (by omega) hs]
  rcases hb.flag with hu | hu
  · simp [hu]
  · simp [hu]

theorem pmmAlloc_large (hwf : WellFormed h s bs) (hs : 2 ^ 30 < size) (hs' : size ≤ 2 ^ 31) :
    (∃ fuel, pmmAlloc h fuel s size = some (s, 0)) ↔ Refusable h s.mem size bs := by
  have hstop := hwf.below
  have hroom := h.room
  have hup : roundUp size = some (2 ^ 31, 31) := clog_large hs hs' ▸ roundUp_eq hs'
  have hrej : ∀ b ∈ bs, Rejects s.mem size (2 ^ 31) 31 b ↔
      (inuse s.mem b = 0 → size ≤ next s.mem b) :=
    fun b hb => (hwf.blocks.isBlock b hb).rejects_large hstop hs'
  obtain ⟨pre, post, c, hc, hpre, fuel, hsearch⟩ := hwf.blocks.search size (2 ^ 31) 31
  rcases hc with ⟨rfl, hacc⟩ | ⟨rfl, rfl⟩
  · have hmem : c ∈ pre ++ c :: post := List.mem_append_right _ List.mem_cons_self
    have hblock := hwf.blocks.isBlock c hmem
    have hbelow : c + 12 ≤ 2 ^ 31 := (hblock.room.trans hblock.le_stop).trans hstop.le
    rw [pmmAlloc_eq_iff hup hsearch hblock.ne_zero, candidate_large hbelow]
    constructor
    · rintro ⟨-, hzero⟩
      exact absurd hzero (by decide)
    · rintro ⟨-, -, hall, -⟩
      exact absurd ((hrej c hmem).mpr (hall c hmem)) hacc
  · rw [pmmAlloc_eq_iff hup hsearch (by omega)]
    have hall : ∀ b ∈ bs, inuse s.mem b = 0 → size ≤ next s.mem b :=
      fun b hb => (hrej b hb).mp (hpre b hb)
    by_cases hend : 2 ^ 31 < h.stop + 12
    · rw [candidate_wraps hend hstop, place_zero hstop hend hs hs']
      constructor
      · rintro ⟨hset, -⟩
        exact ⟨hs, hend, hall, hset⟩
      · rintro ⟨-, -, -, hset⟩
        exact ⟨hset, rfl⟩
    · rw [candidate_large (by omega)]
      constructor
      · rintro ⟨-, hzero⟩
        exact absurd hzero (by decide)
      · rintro ⟨-, hend', -⟩
        exact absurd hend' hend

/-- When no free block has room, the call returns `NULL` and leaves the memory alone only in the
refusable case. -/
theorem pmmAlloc_refuses_iff (hwf : WellFormed h s bs) (hs : size ≤ 2 ^ 31)
    (hr : LeastPower size r) (hno : ∀ b ∈ bs, ¬ HasRoom s.mem size r b) :
    (∃ fuel, pmmAlloc h fuel s size = some (s, 0)) ↔ Refusable h s.mem size bs := by
  obtain rfl := hr.unique leastPower_clog
  by_cases hlarge : 2 ^ 30 < size
  · exact pmmAlloc_large hwf hlarge hs
  · constructor
    · intro ha
      exact absurd ha (pmmAlloc_small hwf (Nat.le_of_not_lt hlarge) hno)
    · rintro ⟨hs', -⟩
      exact absurd hs' hlarge

theorem no_room_init {m : Bytes} (hm : next m 0x1000 = 0x1100) :
    ∀ b ∈ [0x1000], ¬ HasRoom m 512 r b := by
  rintro b hb ⟨a, -, habove, -, hin⟩
  rw [List.mem_singleton.mp hb] at habove hin
  omega

theorem next_init : next (pmmInit (heapAt 0x1000 256) fun _ => 0).mem 0x1000 = 0x1100 :=
  next_setNext_self (heapAt 0x1000 256).bound

theorem wellFormed_init :
    WellFormed (heapAt 0x1000 256) (pmmInit (heapAt 0x1000 256) fun _ => 0) [0x1000] :=
  wellFormed_pmmInit (by decide) _

/-- Memory with the header words that are written behind a heap that ends at `stop`. -/
def headed (stop : ℕ) : Bytes :=
  setNext (setNext (setInuse (setFront (fun _ => 0) top top) top 1) top top) stop top

/-- More than half of a heap that ends eight bytes below `2 ^ 31`, and 512 bytes in a heap
of 256. -/
theorem pmmAlloc_refuses_run :
    (∃ h s bs, Refusable h s.mem (2 ^ 30 + 1) bs ∧
      ∃ fuel, pmmAlloc h fuel s (2 ^ 30 + 1) = some (s, 0)) ∧
    let h := heapAt 0x1000 256
    let s := pmmInit h fun _ => 0
    ¬∃ fuel, pmmAlloc h fuel s 512 = some (s, 0) := by
  constructor
  · let h := heapAt 0x1000 0x7fffeff8
    let s := pmmInit h (headed h.stop)
    have hnext : next s.mem 0x1000 = 0x7ffffff8 := next_setNext_self h.bound
    have hpow : LeastPower (2 ^ 30 + 1) (2 ^ 31) := by
      have hleast : LeastPower (2 ^ 30 + 1) (2 ^ Nat.clog 2 (2 ^ 30 + 1)) := leastPower_clog
      rwa [clog_large (by decide) (by decide)] at hleast
    have hsettled : Settled h s.mem (2 ^ 30 + 1) := by
      refine ⟨by decide +kernel, ?_⟩
      rw [if_pos (by decide)]
      decide +kernel
    have hrefusable : Refusable h s.mem (2 ^ 30 + 1) [0x1000] := by
      refine ⟨by decide, by decide, fun b hb _ => ?_, hsettled⟩
      rw [List.mem_singleton.mp hb, hnext]
      decide
    refine ⟨h, s, _, hrefusable, (pmmAlloc_refuses_iff (wellFormed_pmmInit (by decide) _)
      (by decide) hpow fun b hb => ?_).mpr hrefusable⟩
    obtain rfl : b = 0x1000 := List.mem_singleton.mp hb
    rintro ⟨a, -, habove, ⟨q, rfl⟩, hin⟩
    rw [hnext] at hin
    omega
  · intro h s
    have hclog : 2 ^ Nat.clog 2 512 = 512 := by decide +kernel
    have hpow : LeastPower 512 (2 ^ Nat.clog 2 512) := leastPower_clog
    rw [hclog] at hpow
    rw [pmmAlloc_refuses_iff wellFormed_init (by decide) hpow (no_room_init next_init)]
    rintro ⟨hlarge, -⟩
    exact absurd hlarge (by decide)

/-- An address behind the heap is returned for them. -/
theorem pmmAlloc_not_refuses : ¬ ∀ (h : Area) (s : State) (bs : List ℕ) (size r : ℕ),
    WellFormed h s bs → 1 ≤ size → size ≤ 2 ^ 31 → LeastPower size r →
    (∀ b ∈ bs, ¬ HasRoom s.mem size r b) → ∃ fuel, pmmAlloc h fuel s size = some (s, 0) := by
  intro hall
  have hsome := hall _ _ _ 512 _ wellFormed_init (by decide) (by decide) leastPower_clog
    (no_room_init next_init)
  exact pmmAlloc_small wellFormed_init (by decide) (no_room_init next_init) hsome

end Refusal

end NSOS.Pmm
