import NSOS.Memory.Fit
import NSOS.Memory.Layout
import Mathlib.Tactic.IntervalCases

/-! # Allocation keeps the layout

Each branch of the placement code replaces the chosen free block by the new
block and the free blocks around it. The blocks before and behind it stay
where they are.
-/

namespace NSOS.Pmm

open Basis

section Branches

variable {J : Bytes → Blk → ℕ → Prop} {h : Area} {m m' : Bytes} {f : Blk} {b hd rest nx n : ℕ}

theorem splitBoth_placed (hJ : BackLink J) (hb : b + 12 < hd) (hn : hd + 12 + n = rest)
    (hr : rest + 12 ≤ nx) (hx : nx < 2 ^ 32) (hnx : next m b = nx) (hu : inuse m b = 0)
    (hm : m' = splitBoth h (setInuse (setFront m hd b) hd 1) b hd rest) :
    Placed J h m m' [⟨b, none⟩, ⟨hd, some n⟩, ⟨rest, none⟩] (b + 4) nx ∧
      (nx = h.stop → ∀ hi, Same m m' nx hi) := by
  simp (disch := omega) only [splitBoth, next_setNext, next_setFront, next_setInuse, hnx] at hm
  have h₁ : Header m' ⟨b, none⟩ hd := by
    subst hm
    refine ⟨?_, ?_, hb.le⟩ <;> split <;> simp (disch := omega) [hu]
  have h₂ : Header m' ⟨hd, some n⟩ rest := by
    subst hm
    refine ⟨?_, ?_, hn.le⟩ <;> split <;> simp (disch := omega)
  have h₃ : Header m' ⟨rest, none⟩ nx := by
    subst hm
    refine ⟨?_, ?_, hr⟩ <;> split <;> simp (disch := omega)
  have j₁ : front m' hd = b := by subst hm; split <;> simp (disch := omega)
  have j₂ : front m' rest = hd := by subst hm; split <;> simp (disch := omega)
  refine ⟨⟨?_, fun hs => ?_, fun r hr x _ _ => ?_, fun x _ _ => ?_, fun hi x _ _ => ?_⟩,
    fun hs hi x _ _ => ?_⟩
  · rw [links_cons_cons, links_cons_cons, links_singleton]
    exact ⟨h₁, hJ.of_front j₁ hb.le, h₂, hJ.of_front j₂ (by simp only; omega), h₃⟩
  · subst hm; rw [if_pos hs]; simp (disch := omega)
  · simp only [payloads_cons_none, payloads_cons_some, payloads_nil, List.mem_singleton] at hr
    subst hr hm
    split <;> simp (disch := omega)
  · subst hm; split <;> simp (disch := omega)
  · subst hm; split <;> simp (disch := omega)
  · subst hm; rw [if_neg (not_not.mpr hs)]; simp (disch := omega)

theorem splitBefore_placed (hJ : BackLink J) (hb : b + 12 < hd) (hn : hd + 12 + n = rest)
    (hr : rest ≤ nx) (hx : nx < 2 ^ 32) (hnx : next m b = nx) (hu : inuse m b = 0)
    (hm : m' = splitBefore h (setInuse (setFront m hd b) hd 1) b hd) :
    Placed J h m m' [⟨b, none⟩, ⟨hd, some n⟩] (b + 4) nx ∧
      (nx = h.stop → ∀ hi, Same m m' nx hi) := by
  simp (disch := omega) only [splitBefore, next_setNext, next_setFront, next_setInuse, hnx] at hm
  have h₁ : Header m' ⟨b, none⟩ hd := by
    subst hm
    refine ⟨?_, ?_, hb.le⟩ <;> split <;> simp (disch := omega) [hu]
  have h₂ : Header m' ⟨hd, some n⟩ nx := by
    subst hm
    refine ⟨?_, ?_, hn.le.trans hr⟩ <;> split <;> simp (disch := omega)
  have j₁ : front m' hd = b := by subst hm; split <;> simp (disch := omega)
  refine ⟨⟨?_, fun hs => ?_, fun r hr x _ _ => ?_, fun x _ _ => ?_, fun hi x _ _ => ?_⟩,
    fun hs hi x _ _ => ?_⟩
  · rw [links_cons_cons, links_singleton]
    exact ⟨h₁, hJ.of_front j₁ hb.le, h₂⟩
  · subst hm; rw [if_pos hs]; simp (disch := omega)
  · simp only [payloads_cons_none, payloads_cons_some, payloads_nil, List.mem_singleton] at hr
    subst hr hm
    split <;> simp (disch := omega)
  · subst hm; split <;> simp (disch := omega)
  · subst hm; split <;> simp (disch := omega)
  · subst hm; rw [if_neg (not_not.mpr hs)]; simp (disch := omega)

/-- What cutting the tail off the block at `b` does before its header moves. -/
structure Tailed (h : Area) (m m' : Bytes) (b hd rest nx : ℕ) : Prop where
  header : Header m' ⟨rest, none⟩ nx
  front : front m' rest = hd
  next : next m' b = rest
  back : nx ≠ h.stop → Pmm.front m' nx = rest
  low : Same m m' 0 (b + 8)
  payload : Same m m' (b + 12) rest
  high : ∀ hi, Same m m' (nx + 4) hi
  stop : nx = h.stop → ∀ hi, Same m m' nx hi

theorem splitAfter_tailed (hb : b + 12 ≤ rest) (hd' : hd < 2 ^ 32) (hr : rest + 12 ≤ nx)
    (hx : nx < 2 ^ 32) (hnx : next m b = nx) :
    Tailed h m (splitAfter h m b hd rest) b hd rest nx := by
  simp (disch := omega) only [splitAfter, next_setNext, next_setFront, next_setInuse, hnx]
  refine ⟨⟨?_, ?_, hr⟩, ?_, ?_, fun hs => ?_, fun x _ _ => ?_, fun x _ _ => ?_, fun hi x _ _ => ?_,
    fun hs hi x _ _ => ?_⟩
  · split <;> simp (disch := omega)
  · split <;> simp (disch := omega)
  · split <;> simp (disch := omega)
  · split <;> simp (disch := omega)
  · rw [if_pos hs]; simp (disch := omega)
  · split <;> simp (disch := omega)
  · split <;> simp (disch := omega)
  · split <;> simp (disch := omega)
  · rw [if_neg (not_not.mpr hs)]; simp (disch := omega)

/-- What moving the header of a block behind a block in use does. -/
structure Moved (m m' : Bytes) (f : Blk) (b hd nx : ℕ) : Prop where
  prev : Header m' f hd
  flag : inuse m' hd = 1
  next : next m' hd = nx
  front : front m' hd = f.addr
  back : Pmm.front m' nx = hd
  low : Same m m' 0 (f.addr + 8)
  before : Same m m' (f.addr + 12) hd
  behind : Same m m' (hd + 12) nx
  high : ∀ hi, Same m m' (nx + 4) hi

theorem moveHeader_moved {s : State} (hf : Header m f b) (hfb : front m b = f.addr)
    (hf0 : 0 < f.addr) (hb : b ≤ hd) (hr : hd + 12 ≤ nx) (hx : nx < 2 ^ 32)
    (hnx : next m b = nx) : (moveHeader s m b hd).memoryHead = s.memoryHead ∧
      Moved m (moveHeader s m b hd).mem f b hd nx := by
  have hfit := hf.fits
  unfold moveHeader
  rw [if_neg (by omega)]
  simp (disch := omega) only [hnx, hfb]
  refine ⟨trivial, ⟨?_, ?_, by omega⟩, ?_, ?_, ?_, ?_, fun x _ _ => ?_, fun x _ _ => ?_,
    fun x _ _ => ?_, fun hi x _ _ => ?_⟩
  · simp (disch := omega) [hf.flag]
  all_goals simp (disch := omega)

structure MovedHead (m m' : Bytes) (b hd nx : ℕ) : Prop where
  flag : inuse m' hd = 1
  next : next m' hd = nx
  front : front m' hd = Pmm.front m hd
  low : Same m m' 0 b
  above : ∀ hi, Same m m' (hd + 12) hi

theorem moveHeader_movedHead {s : State} (hfb : front m b = 0) (hb : b ≤ hd) (hx : nx < 2 ^ 32)
    (hnx : next m b = nx) : (moveHeader s m b hd).memoryHead = hd ∧
      MovedHead m (moveHeader s m b hd).mem b hd nx := by
  unfold moveHeader
  rw [if_pos hfb]
  simp only [hnx]
  refine ⟨trivial, ?_, ?_, ?_, fun x _ _ => ?_, fun hi x _ _ => ?_⟩
  all_goals simp (disch := omega)

theorem Moved.placed (hJ : BackLink J) {fa fn : ℕ} (hv : Moved m m' ⟨fa, some fn⟩ b hd nx)
    (hf : fa + 12 + fn ≤ b) (hb : b ≤ hd) (hn : hd + 12 + n ≤ nx) :
    Placed J h m m' [⟨fa, some fn⟩, ⟨hd, some n⟩] (fa + 4) nx := by
  refine ⟨?_, fun hs l hl => ?_, fun r hr => ?_, hv.low.mono le_rfl (by simp), hv.high⟩
  · rw [links_cons_cons, links_singleton]
    exact ⟨hv.prev, hJ.of_front hv.front (by simp only; omega), hv.flag, hv.next, hn⟩
  · simp only [List.getLast?_cons_cons, List.getLast?_singleton, Option.mem_some_iff] at hl
    subst hl
    exact hv.back
  · simp only [payloads_cons_some, payloads_nil, List.mem_cons, List.not_mem_nil, or_false] at hr
    rcases hr with rfl | rfl
    · exact hv.before.mono le_rfl (by simp only; omega)
    · exact hv.behind.mono le_rfl hn

theorem Moved.placed_tail (hJ : BackLink J) {m₁ : Bytes} {fa fn : ℕ}
    (ht : Tailed h m m₁ b hd rest nx) (hv : Moved m₁ m' ⟨fa, some fn⟩ b hd rest)
    (hf : fa + 12 + fn ≤ b) (hb : b ≤ hd) (hn : hd + 12 + n = rest) :
    Placed J h m m' [⟨fa, some fn⟩, ⟨hd, some n⟩, ⟨rest, none⟩] (fa + 4) nx ∧
      (nx = h.stop → ∀ hi, Same m m' nx hi) := by
  have hr : rest + 12 ≤ nx := ht.header.fits
  refine ⟨⟨?_, fun hs l hl => ?_, fun r hr => ?_, fun x h₁ h₂ => ?_, fun hi => ?_⟩, fun hs hi => ?_⟩
  · rw [links_cons_cons, links_cons_cons, links_singleton]
    exact ⟨hv.prev, hJ.of_front hv.front (by simp only; omega), ⟨hv.flag, hv.next, hn.le⟩,
      hJ.of_front hv.back (by simp only; omega), ht.header.congr ((hv.high _).mono le_rfl le_rfl)⟩
  · simp only [List.getLast?_cons_cons, List.getLast?_singleton, Option.mem_some_iff] at hl
    subst hl
    rw [(hv.high (nx + 4)).front (by omega) le_rfl]
    exact ht.back hs
  · simp only [payloads_cons_some, payloads_cons_none, payloads_nil, List.mem_cons,
      List.not_mem_nil, or_false] at hr
    rcases hr with rfl | rfl
    · exact (ht.low.mono (Nat.zero_le _) (by simp only; omega)).trans
        (hv.before.mono le_rfl (by simp only; omega))
    · exact (ht.payload.mono (by simp only; omega) hn.le).trans (hv.behind.mono le_rfl hn.le)
  · exact (hv.low x h₁ (by simp only; omega)).trans (ht.low x h₁ (by omega))
  · exact (ht.high hi).trans ((hv.high hi).mono (by omega) le_rfl)
  · exact (ht.stop hs hi).trans ((hv.high hi).mono (by omega) le_rfl)

theorem MovedHead.placed (hv : MovedHead m m' b hd nx) (hn : hd + 12 + n ≤ nx)
    (hback : nx ≠ h.stop → Pmm.front m nx = hd) : Placed J h m m' [⟨hd, some n⟩] b nx ∧
      (nx = h.stop → ∀ hi, Same m m' nx hi) := by
  refine ⟨⟨links_singleton.mpr ⟨hv.flag, hv.next, hn⟩, fun hs l hl => ?_, fun r hr => ?_, hv.low,
    fun hi => (hv.above hi).mono (by omega) le_rfl⟩,
    fun _ hi => (hv.above hi).mono (by omega) le_rfl⟩
  · simp only [List.getLast?_singleton, Option.mem_some_iff] at hl
    subst hl
    rw [(hv.above (nx + 4)).front (by omega) le_rfl, hback hs]
  · simp only [payloads_cons_some, payloads_nil, List.mem_singleton] at hr
    subst hr
    exact hv.above _

theorem MovedHead.placed_tail (hJ : BackLink J) {m₁ : Bytes}
    (ht : Tailed h m m₁ b hd rest nx) (hv : MovedHead m₁ m' b hd rest)
    (hb : b ≤ hd) (hn : hd + 12 + n = rest) :
    Placed J h m m' [⟨hd, some n⟩, ⟨rest, none⟩] b nx ∧
      (nx = h.stop → ∀ hi, Same m m' nx hi) := by
  have hr : rest + 12 ≤ nx := ht.header.fits
  refine ⟨⟨?_, fun hs l hl => ?_, fun r hr => ?_, fun x h₁ h₂ => ?_, fun hi => ?_⟩, fun hs hi => ?_⟩
  · rw [links_cons_cons, links_singleton]
    refine ⟨⟨hv.flag, hv.next, hn.le⟩, hJ.of_front ?_ (by simp only; omega),
      ht.header.congr ((hv.above _).mono (by simp only; omega) le_rfl)⟩
    rw [(hv.above (rest + 4)).front (by omega) le_rfl]
    exact ht.front
  · simp only [List.getLast?_cons_cons, List.getLast?_singleton, Option.mem_some_iff] at hl
    subst hl
    rw [(hv.above (nx + 4)).front (by omega) le_rfl]
    exact ht.back hs
  · simp only [payloads_cons_some, payloads_cons_none, payloads_nil, List.mem_singleton] at hr
    subst hr
    exact (ht.payload.mono (by simp only; omega) hn.le).trans (hv.above _)
  · exact (hv.low x h₁ h₂).trans (ht.low x h₁ (by omega))
  · exact (ht.high hi).trans ((hv.above hi).mono (by omega) le_rfl)
  · exact (ht.stop hs hi).trans ((hv.above hi).mono (by omega) le_rfl)

end Branches

section Place

variable {J : Bytes → Blk → ℕ → Prop} {h : Area} {s : State} {pre post : List Blk}
  {b a size r k : ℕ}

/-- The first block keeps a valid header when the allocation only moves that header:
the word read as its back link is zero, and the block behind already points at it. -/
def HeadKept (h : Area) (m : Bytes) (b a size : ℕ) : Prop :=
  front m b = 0 → ¬ roomBefore a (startInBlock b) →
    front m (ptrSub a 12) = 0 ∧
      (roomAfter m b a size ∨ next m b = h.stop ∨ front m (next m b) = ptrSub a 12)

def EndKept (h : Area) (m : Bytes) (b a size : ℕ) : Prop :=
  roomBefore a (startInBlock b) ∨ roomAfter m b a size ∨ front m b = 0 ∨ next m b ≠ h.stop

theorem Outcome.of_placed_head (hJ : BackLink J) {mid : List Blk} {m' : Bytes} {safe : Prop}
    (hl : Layout J h s (⟨b, none⟩ :: post)) (hp : Placed J h s.mem m' mid b (headAddr post h.stop))
    (hm : ∃ n bs, mid = ⟨a, some n⟩ :: bs) (hb : b ≤ a) (hfront : front m' a = 0)
    (hstop : safe → headAddr post h.stop = h.stop → ∀ hi, Same s.mem m' (headAddr post h.stop) hi)
    (halt : Alternating (mid ++ post)) :
    Outcome J h s { mem := m', memoryHead := a } safe (mid ++ post) := by
  have hst : h.start ≤ b := hl.start.trans hl.head.le
  obtain ⟨n, bs, rfl⟩ := hm
  have hl' : Chained J h s ([⟨b, none⟩] ++ post) := hl.toChained
  obtain ⟨h₁, h₂⟩ := hl'.placed_head hJ hp rfl rfl hst
    (hst.trans hb) (by simp) hfront
  exact ⟨⟨h₁, halt⟩, h₂, fun hs hi => hp.same_stop hl.links.2.2 (hstop hs) hi⟩

theorem roomAfter_congr {m m' : Bytes} (hn : next m' b = next m b) :
    roomAfter m' b a size ↔ roomAfter m b a size := by unfold roomAfter; rw [hn]

theorem place_split (hJ : BackLink J) (hl : Layout J h s (pre ++ ([⟨b, none⟩] ++ post)))
    (hf : Fits s.mem size r b a) (hr : r ≤ 2 ^ 30) (hB : roomBefore a (startInBlock b)) :
    ∃ bs, Outcome J h s (place h s b a size) (EndKept h s.mem b a size) bs ∧
      (payloads bs).Perm ((a, size) :: payloads (pre ++ ([⟨b, none⟩] ++ post))) := by
  obtain ⟨hhd, hpost, -, -, hpost'⟩ := hl.at_free hJ
  have hnx : next s.mem b = headAddr post h.stop := hhd.next
  have hx : headAddr post h.stop < 2 ^ 32 := hnx ▸ Bytes.load_lt _ _
  have hin := hf.inside
  have hab := hf.above
  have hne := hf.near
  have hB' := (roomBefore_iff hab (by omega) (by omega)).mp hB
  have hd : ptrSub a 12 = a - 12 := by unfold ptrSub; omega
  have hrest : ptrAdd a size = a + size := by unfold ptrAdd; omega
  have hA : roomAfter (setInuse (setFront s.mem (a - 12) b) (a - 12) 1) b a size ↔
      a + size + 12 < headAddr post h.stop := by
    rw [roomAfter_congr (m := s.mem) (by simp (disch := omega)), roomAfter_iff hf, hnx]
  unfold place
  rw [if_pos hB, hd, hrest]
  dsimp only
  have hu : inuse s.mem b = 0 := hhd.flag
  have hpre := (List.isChain_append.mp hl.alternating).2.2
  have hperm : ∀ bs : List Blk, payloads bs = [(a, size)] →
      (payloads (pre ++ (bs ++ post))).Perm
        ((a, size) :: payloads (pre ++ ([⟨b, none⟩] ++ post))) := by
    intro bs hbs
    simp only [payloads_append, hbs]
    exact List.perm_middle
  by_cases hA' : a + size + 12 < headAddr post h.stop
  · rw [if_pos (hA.mpr hA')]
    obtain ⟨hp, hs⟩ := splitBoth_placed (h := h) hJ (show b + 12 < a - 12 by omega)
      (show a - 12 + 12 + size = a + size by omega) hA'.le hx hnx hu rfl
    refine ⟨_, .of_placed hJ hl.toChained hp (by simp) (by simp) rfl (fun _ => hs) (Or.inr rfl)
      (hl.alternating.splice (by simp) (by simp) hpre (by simpa using hpost')), hperm _ ?_⟩
    simp; omega
  · rw [if_neg (fun h => hA' (hA.mp h))]
    obtain ⟨hp, hs⟩ := splitBefore_placed (h := h) hJ (show b + 12 < a - 12 by omega)
      (show a - 12 + 12 + size = a + size by omega) (by omega) hx hnx hu rfl
    refine ⟨_, .of_placed hJ hl.toChained hp (by simp) (by simp) rfl (fun _ => hs) (Or.inr rfl)
      (hl.alternating.splice (by simp) (by simp) hpre (by simp)), hperm _ ?_⟩
    simp; omega

theorem State.eta (s : State) : (⟨s.mem, s.memoryHead⟩ : State) = s := rfl

theorem State.eq_of_head {s s' : State} (h : s'.memoryHead = s.memoryHead) :
    s' = { s with mem := s'.mem } := by
  cases s'; simp_all

theorem place_inner (hJ : BackLink J) {fa fn : ℕ}
    (hl : Layout J h s (pre ++ ([⟨fa, some fn⟩, ⟨b, none⟩] ++ post)))
    (hf : Fits s.mem size r b a) (hr : r ≤ 2 ^ 30) (hB : ¬ roomBefore a (startInBlock b)) :
    ∃ bs, Outcome J h s (place h s b a size) (EndKept h s.mem b a size) bs ∧
      (payloads bs).Perm
        ((a, size) :: payloads (pre ++ ([⟨fa, some fn⟩, ⟨b, none⟩] ++ post))) := by
  obtain ⟨hpre, -, hfh, hj, hhd, -, hpost⟩ := links_append.mp hl.links
  have hnx : next s.mem b = headAddr post h.stop := hhd.next
  have hx : headAddr post h.stop < 2 ^ 32 := hnx ▸ Bytes.load_lt _ _
  have hfa : 0 < fa := by
    have := hpre.headAddr_le
    rw [← headAddr_append, ← hl.head] at this
    exact h.nonnull.trans_le (hl.start.trans this)
  have hfb : front s.mem b = fa := hJ.used (hj _ rfl)
  have hfh : Header s.mem ⟨fa, some fn⟩ b := hfh
  have hfit : fa + 12 + fn ≤ b := hfh.fits
  have hin := hf.inside
  have hab := hf.above
  have hne := hf.near
  have hB' := (roomBefore_iff hab (by omega) (by omega)).not.mp hB
  have hd : ptrSub a 12 = a - 12 := by unfold ptrSub; omega
  have hrest : ptrAdd a size = a + size := by unfold ptrAdd; omega
  have hA := roomAfter_iff hf
  have hfirst := (List.isChain_append.mp hl.alternating).2.2
  have hperm : ∀ bs : List Blk, payloads bs = [(fa + 12, fn), (a, size)] →
      (payloads (pre ++ (bs ++ post))).Perm
        ((a, size) :: payloads (pre ++ ([⟨fa, some fn⟩, ⟨b, none⟩] ++ post))) := by
    intro bs hbs
    simp only [payloads_append, hbs]
    exact (List.Perm.append_left _ (.swap _ _ _)).trans List.perm_middle
  have hpost' : ∀ c ∈ post.head?, c.size.isSome := by
    have hl' : Layout J h s (pre ++ [⟨fa, some fn⟩] ++ ⟨b, none⟩ :: post) := by simpa using hl
    exact (hl'.at_free hJ).2.2.2.2
  unfold place
  rw [if_neg hB, hd, hrest]
  dsimp only
  split
  · rename_i hA'
    rw [hA, hnx] at hA'
    have ht := splitAfter_tailed (h := h) (show b + 12 ≤ a + size by omega)
      (show a - 12 < 2 ^ 32 by omega) hA'.le hx hnx
    obtain ⟨h₁, hv⟩ := moveHeader_moved (s := s)
      (hfh.congr (ht.low.mono (Nat.zero_le _) (by simp only; omega)))
      ((ht.low.front (Nat.zero_le _) (by omega)).trans hfb) hfa (show b ≤ a - 12 by omega)
      (show a - 12 + 12 ≤ a + size by omega) (by omega) ht.next
    rw [State.eq_of_head h₁]
    obtain ⟨hp, hs⟩ := hv.placed_tail hJ ht hfit (by omega)
      (show a - 12 + 12 + size = a + size by omega)
    refine ⟨_, .of_placed hJ hl.toChained hp (by simp) (by simp) rfl (fun _ => hs) (Or.inr rfl)
      (hl.alternating.splice (by simp) (by simp) hfirst (by simpa using hpost')), hperm _ ?_⟩
    simp; omega
  · rename_i hA'
    rw [hA, hnx] at hA'
    obtain ⟨h₁, hv⟩ := moveHeader_moved (s := s) hfh hfb hfa (show b ≤ a - 12 by omega)
      (by omega) hx hnx
    rw [State.eq_of_head h₁]
    have hp := hv.placed (h := h) hJ hfit (by omega) (show a - 12 + 12 + size ≤ _ by omega)
    refine ⟨_, .of_placed hJ hl.toChained hp (by simp) (by simp) rfl (fun hs he => ?_) (Or.inr rfl)
      (hl.alternating.splice (by simp) (by simp) hfirst (by simp)), hperm _ ?_⟩
    · rcases hs with hs | hs | hs | hs
      · exact absurd hs hB
      · exact absurd (hA.mp hs) (by omega)
      · omega
      · exact absurd (hnx.trans he) hs
    · simp; omega

/-- On a 16-byte aligned block, a header that moves by at most twelve bytes moves by none or
four. -/
theorem head_shift (hb : b % 16 = 0) (hr : r = 2 ^ k) (h₁ : b + 12 ≤ a) (h₂ : a < b + 12 + r)
    (hd : r ∣ a) (h₃ : a ≤ b + 24) : a = b + 12 ∨ a = b + 16 := by
  subst hr
  rcases Nat.lt_or_ge k 4 with hk | hk
  · interval_cases k <;> omega
  · have h16 : 16 ∣ a := (Nat.pow_dvd_pow 2 hk).trans hd
    omega

theorem place_head (hJ : BackLink J) (hl : Layout J h s (⟨b, none⟩ :: post))
    (hf : Fits s.mem size r b a) (hr : r = 2 ^ k) (hr' : r ≤ 2 ^ 30)
    (hB : ¬ roomBefore a (startInBlock b)) (hslip : HeadKept h s.mem b a size) :
    ∃ bs, Outcome J h s (place h s b a size) (EndKept h s.mem b a size) bs ∧
      (payloads bs).Perm ((a, size) :: payloads (⟨b, none⟩ :: post)) := by
  have hl' : Layout J h s ([] ++ ⟨b, none⟩ :: post) := hl
  obtain ⟨hhd, hpost, hnil, -, hpost'⟩ := hl'.at_free hJ
  obtain ⟨rfl, hfb⟩ := hnil rfl
  have hnx : next s.mem h.start = headAddr post h.stop := hhd.next
  have hx : headAddr post h.stop < 2 ^ 32 := hnx ▸ Bytes.load_lt _ _
  have hin := hf.inside
  have hab := hf.above
  have hne := hf.near
  have hB' := (roomBefore_iff hab (by omega) (by omega)).not.mp hB
  have hshift := head_shift h.aligned hr hab hne hf.dvd (by omega)
  have hd : ptrSub a 12 = a - 12 := by unfold ptrSub; omega
  have hrest : ptrAdd a size = a + size := by unfold ptrAdd; omega
  have hA := roomAfter_iff hf
  obtain ⟨hzero, hslip⟩ := hslip hfb hB
  rw [hd] at hzero hslip
  have halt := (List.isChain_cons.mp hl.alternating).2
  have hperm : ∀ bs : List Blk, payloads bs = [(a, size)] →
      (payloads (bs ++ post)).Perm ((a, size) :: payloads (⟨h.start, none⟩ :: post)) := by
    intro bs hbs
    simp only [payloads_append, hbs]
    exact .refl _
  unfold place
  rw [if_neg hB, hd, hrest]
  dsimp only
  split
  · rename_i hA'
    rw [hA, hnx] at hA'
    have ht := splitAfter_tailed (h := h) (show h.start + 12 ≤ a + size by omega)
      (show a - 12 < 2 ^ 32 by omega) hA'.le hx hnx
    obtain ⟨h₁, hv⟩ := moveHeader_movedHead (s := s)
      ((ht.low.front (Nat.zero_le _) (by omega)).trans hfb)
      (show h.start ≤ a - 12 by omega) (by omega) ht.next
    obtain ⟨hp, hs⟩ := hv.placed_tail hJ ht (by omega) (show a - 12 + 12 + size = _ by omega)
    have hz := (hv.front.trans (ht.low.front (Nat.zero_le _) (by omega))).trans hzero
    refine ⟨_, ?_, hperm [⟨a - 12, some size⟩, ⟨a + size, none⟩] (by simp; omega)⟩
    rw [← State.eta (moveHeader _ _ _ _), h₁]
    exact .of_placed_head hJ hl hp ⟨_, _, rfl⟩ (by omega) hz (fun _ => hs)
      (by simpa [List.isChain_cons] using ⟨hpost', halt⟩)
  · rename_i hA'
    rw [hA, hnx] at hA'
    obtain ⟨h₁, hv⟩ := moveHeader_movedHead (s := s) hfb (show h.start ≤ a - 12 by omega) hx hnx
    obtain ⟨hp, hs⟩ := hv.placed (h := h) (n := size) (by omega) (fun hne => by
      rw [hA, hnx] at hslip
      exact (hslip.resolve_left hA').resolve_left hne)
    refine ⟨_, ?_, hperm [⟨a - 12, some size⟩] (by simp; omega)⟩
    rw [← State.eta (moveHeader _ _ _ _), h₁]
    exact .of_placed_head hJ hl hp ⟨_, _, rfl⟩ (by omega) (hv.front.trans hzero) (fun _ => hs)
      (by simpa [List.isChain_cons] using halt)

/-- The new block appears in the layout next to the old ones. -/
theorem place_outcome (hJ : BackLink J) (hl : Layout J h s (pre ++ (⟨b, none⟩ :: post)))
    (hf : Fits s.mem size r b a) (hr : r = 2 ^ k) (hr' : r ≤ 2 ^ 30)
    (hslip : HeadKept h s.mem b a size) :
    ∃ bs, Outcome J h s (place h s b a size) (EndKept h s.mem b a size) bs ∧
      (payloads bs).Perm ((a, size) :: payloads (pre ++ (⟨b, none⟩ :: post))) := by
  by_cases hB : roomBefore a (startInBlock b)
  · exact place_split hJ hl hf hr' hB
  · rcases List.eq_nil_or_concat pre with rfl | ⟨pre, f, rfl⟩
    · exact place_head hJ hl hf hr hr' hB hslip
    · obtain ⟨-, -, -, hlast, -⟩ := hl.at_free hJ
      obtain ⟨fa, fn, rfl, -, -⟩ := hlast f (by simp)
      simp only [List.concat_eq_append, List.append_assoc] at hl ⊢
      exact place_inner hJ hl hf hr' hB

end Place

section Alloc

variable {J : Bytes → Blk → ℕ → Prop} {h : Area} {s s' s'' : State} {m : Bytes} {bs : List Blk}
  {size r k b p q fuel fuel' : ℕ}

theorem FirstFit.mem (hl : Links J m h.stop bs)
    (hf : FirstFit h m size r k (headAddr bs h.stop) b) :
    Accepts m size r k b ∧ ∃ pre post, bs = pre ++ ⟨b, none⟩ :: post := by
  induction bs with
  | nil => cases hf <;> contradiction
  | cons c bs ih =>
    obtain ⟨hc, -, hl⟩ := hl
    cases hf with
    | here _ ha =>
      obtain ⟨a, n | n⟩ := c
      · exact ⟨ha, [], bs, rfl⟩
      · exact absurd hc.flag ha.1
    | skip _ _ _ hf =>
      rw [headAddr_cons, hc.next] at hf
      obtain ⟨ha, pre, post, rfl⟩ := ih hl hf
      exact ⟨ha, c :: pre, post, rfl⟩

theorem FirstFit.fits (hl : Links J m h.stop bs) (hr : roundUp size = some (r, k))
    (hs : size ≤ 2 ^ 30) (hf : FirstFit h m size r k (headAddr bs h.stop) b) :
    Fits m size r b (candidate r k b) := by
  obtain ⟨⟨-, ha⟩, pre, post, rfl⟩ := hf.mem hl
  obtain ⟨hr₁, hr₂⟩ := roundUp_spec hs hr
  obtain ⟨-, -, hb, -⟩ := links_append.mp hl
  have hfit : b + 12 ≤ headAddr post h.stop := hb.fits
  exact fits_of_not_tooSmall hr₁ hr₂ hs (hfit.trans hb.next.ge) ha

/-- An allocation the search finds a block for returns and adds its payload to the layout. -/
theorem pmmAlloc_outcome (hJ : BackLink J) (hl : Layout J h s bs)
    (hr : roundUp size = some (r, k)) (hs : size ≤ 2 ^ 30)
    (hf : FirstFit h s.mem size r k s.memoryHead b)
    (hk : HeadKept h s.mem b (candidate r k b) size) :
    ∃ fuel s' bs', pmmAlloc h fuel s size = some (s', candidate r k b) ∧
      Outcome J h s s' (EndKept h s.mem b (candidate r k b) size) bs' ∧
      (payloads bs').Perm ((candidate r k b, size) :: payloads bs) := by
  obtain ⟨fuel, hb⟩ := hf.search
  rw [hl.head] at hf
  have hfits := hf.fits hl.links hr hs
  obtain ⟨hr₁, hr₂⟩ := roundUp_spec hs hr
  obtain ⟨-, pre, post, rfl⟩ := hf.mem hl.links
  have hpos : 0 < b := h.nonnull.trans_le (hl.start_le (b := ⟨b, none⟩) (by simp))
  obtain ⟨bs', ho, hp⟩ := place_outcome hJ hl hfits hr₁ hr₂ hk
  refine ⟨fuel, _, bs', ?_, ho, hp⟩
  unfold pmmAlloc
  simp only [hr, Option.bind_eq_bind, Option.bind_some, hb, if_neg hpos.ne']
  rfl

theorem pmmAlloc_mono (hk : fuel ≤ fuel') (ha : pmmAlloc h fuel s size = some (s', p)) :
    pmmAlloc h fuel' s size = some (s', p) := by
  unfold pmmAlloc at ha ⊢
  simp only [Option.bind_eq_bind, Option.bind_eq_some_iff] at ha ⊢
  obtain ⟨rk, hr, b, hb, ha⟩ := ha
  exact ⟨rk, hr, b, search_mono hk hb, ha⟩

theorem pmmAlloc_unique (h₁ : pmmAlloc h fuel s size = some (s', p))
    (h₂ : pmmAlloc h fuel' s size = some (s'', q)) : s' = s'' ∧ p = q := by
  have h := (pmmAlloc_mono (le_max_left fuel fuel') h₁).symm.trans
    (pmmAlloc_mono (le_max_right fuel fuel') h₂)
  simpa using h

end Alloc

end NSOS.Pmm
