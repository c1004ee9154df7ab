import NSOS.Memory.Layout

/-! # Freeing keeps the layout

A free first joins the block to a free block in front of it, following back
links through headers that were merged away. The first block of the heap
starts over at the bottom of the heap. Then a free block behind is absorbed.
-/

namespace NSOS.Pmm

open Basis

section Loops

variable {h : Area} {m m' : Bytes} {f x nx fuel k : ℕ}

theorem mergeBack_mono {p : Bytes × ℕ} (hk : fuel ≤ k) (hm : mergeBack fuel m x = some p) :
    mergeBack k m x = some p := by
  induction fuel generalizing m x k with
  | zero => simp [mergeBack] at hm
  | succ fuel ih =>
    obtain ⟨k, rfl⟩ : ∃ j, k = j + 1 := ⟨k - 1, by omega⟩
    rw [mergeBack] at hm ⊢
    split at hm
    · rw [if_pos ‹_›]
      exact ih (by omega) hm
    · rwa [if_neg ‹_›]

theorem mergeForward_mono (hk : fuel ≤ k) (hm : mergeForward h fuel m x = some m') :
    mergeForward h k m x = some m' := by
  induction fuel generalizing m x k with
  | zero => simp [mergeForward] at hm
  | succ fuel ih =>
    obtain ⟨k, rfl⟩ : ∃ j, k = j + 1 := ⟨k - 1, by omega⟩
    rw [mergeForward] at hm ⊢
    split at hm
    · rw [if_pos ‹_›]
      exact ih (by omega) hm
    · rwa [if_neg ‹_›]

/-- What joining the headers on a trail does: the block at its end takes their space. -/
structure Joined (m m' : Bytes) (f x nx : ℕ) : Prop where
  next : next m' f = nx
  back : x ≠ f → front m' nx = f
  low : Same m m' 0 (f + 8)
  high : ∀ hi, Same m m' (nx + 4) hi
  same : x = f → m' = m

theorem mergeBack_joined (ht : Trail m f x) (hf : 0 < f) (hu : inuse m f = 0)
    (hstop : front m f = 0 ∨ front m f + 12 ≤ f ∧ inuse m (front m f) ≠ 0)
    (hnx : next m x = nx) (hx : x + 12 ≤ nx) (hlt : nx < 2 ^ 32) :
    ∃ fuel m', mergeBack fuel m x = some (m', f) ∧ Joined m m' f x nx := by
  induction x using Nat.strong_induction_on generalizing m with
  | _ x ih =>
    cases ht with
    | here =>
      refine ⟨1, m, ?_, hnx, fun hne => absurd rfl hne, fun _ _ _ => rfl, fun _ _ _ _ => rfl,
        fun _ => rfl⟩
      rw [mergeBack, if_neg]
      rintro ⟨h₁, h₂⟩
      rcases hstop with hs | ⟨-, hs⟩
      · exact h₁ hs
      · exact hs h₂
    | back hlow hfree ht =>
      have hfx := ht.le
      have hu₁ : inuse m (front m x) = 0 := by cases ht <;> assumption
      let m₁ := setFront (setNext m (front m x) nx) nx (front m x)
      have hsame : Same m m₁ 0 (front m x + 8) := fun y _ _ => by
        simp (disch := omega) [m₁]
      have hn₁ : next m₁ (front m x) = nx := by simp (disch := omega) [m₁]
      have hstop₁ : front m₁ f = 0 ∨ front m₁ f + 12 ≤ f ∧ inuse m₁ (front m₁ f) ≠ 0 := by
        rw [hsame.front (by omega) (by omega)]
        refine hstop.imp_right fun ⟨h₁, h₂⟩ => ⟨h₁, ?_⟩
        rwa [hsame.inuse (by omega) (by omega)]
      have hu' : inuse m₁ f = 0 := by rw [hsame.inuse (by omega) (by omega), hu]
      obtain ⟨fuel, m', hm, hj⟩ := ih (front m x) (by omega)
        (ht.congr (hsame.mono (by omega) le_rfl)) hu' hstop₁ hn₁ (by omega)
      refine ⟨fuel + 1, m', ?_, hj.next, fun _ => ?_, fun y h₁ h₂ => ?_, fun hi y h₁ h₂ => ?_,
        fun he => by omega⟩
      · rw [mergeBack, if_pos ⟨by omega, hu₁⟩]
        dsimp only
        have h₁ : front m₁ x = front m x := by simp (disch := omega) [m₁]
        have h₂ : next (setNext m (front m x) nx) x = nx := by simp (disch := omega) [hnx]
        have h₃ : front (setNext m (front m x) nx) x = front m x := by simp (disch := omega)
        rw [hnx, h₂, h₃]
        rwa [h₁]
      · by_cases he : front m x = f
        · rw [hj.same he, front_setFront_self (by omega), he]
        · exact hj.back he
      · rw [hj.low y h₁ h₂, hsame y h₁ (by omega)]
      · rw [hj.high hi y h₁ h₂]
        simp (disch := omega) [m₁]

end Loops

section Back

variable {J : Bytes → Blk → ℕ → Prop} {h : Area} {s : State} {m m' : Bytes}
  {pre post : List Blk} {c n nx : ℕ}

/-- The free writes no header at the end of the heap: the freed block does not end there, or
the block in front of it exists and is in use. -/
def FreeEndKept (h : Area) (m : Bytes) (c : ℕ) : Prop :=
  next m c ≠ h.stop ∨ front m c ≠ 0 ∧ inuse m (front m c) ≠ 0

/-- What the first loop of a free leaves: the blocks `old` became one free block at `f`. -/
structure MergedBack (J : Bytes → Blk → ℕ → Prop) (h : Area) (m m' : Bytes) (pre : List Blk)
    (c n nx f : ℕ) (pre' old : List Blk) : Prop where
  cut : pre ++ [⟨c, some n⟩] = pre' ++ old
  old_ne : old ≠ []
  old_head : ∀ e, headAddr old e = f
  payloads : payloads pre = payloads pre'
  placed : Placed J h m m' [⟨f, none⟩] (f + 4) nx
  first : pre' = [] → front m' f = 0
  inner : ∀ p ∈ pre'.getLast?, p.size.isSome ∧ front m' f = p.addr
  stop : FreeEndKept h m c → nx = h.stop → pre' ≠ [] ∧ ∀ hi, Same m m' nx hi

theorem setInuse_placed (hc : Header m ⟨c, some n⟩ nx)
    (hback : nx ≠ h.stop → front m nx = c) :
    Placed J h m (setInuse m c 0) [⟨c, none⟩] (c + 4) nx := by
  have hfit := hc.fits
  have hnx := hc.next
  dsimp only [Blk.fill_some] at hfit hnx
  refine ⟨links_singleton.mpr ⟨by simp, ?_, by simp only [Blk.fill_none]; omega⟩, fun hs l hl => ?_,
    by simp, fun x _ _ => ?_, fun hi x _ _ => ?_⟩
  · simpa (disch := omega) using hnx
  · simp only [List.getLast?_singleton, Option.mem_some_iff] at hl
    subst hl
    simpa (disch := omega) using hback hs
  all_goals simp (disch := omega)

theorem Layout.at_used (hJ : BackLink J) (hl : Layout J h s (pre ++ (⟨c, some n⟩ :: post))) :
    h.start ≤ c ∧ Header s.mem ⟨c, some n⟩ (headAddr post h.stop) ∧
      (headAddr post h.stop ≠ h.stop → front s.mem (headAddr post h.stop) = c) ∧
      (pre = [] → front s.mem c = 0) := by
  obtain ⟨hpre, hj, hhd, hj', hpost⟩ := links_append.mp hl.links
  refine ⟨hl.start_le (b := ⟨c, some n⟩) (by simp), hhd, fun hne => ?_, fun hp => ?_⟩
  · cases post with
    | nil => exact absurd rfl hne
    | cons d post => exact hJ.used (hj' d rfl)
  · subst hp
    have hf := hl.first
    rwa [hl.head] at hf

theorem Layout.at_free_used (hJ : BackLink J) {f : ℕ}
    (hl : Layout J h s (pre ++ ([⟨f, none⟩, ⟨c, some n⟩] ++ post))) :
    f + 12 ≤ c ∧ inuse s.mem f = 0 ∧ h.start ≤ f ∧ front s.mem c + 12 ≤ c ∧
      Trail s.mem f (front s.mem c) ∧ (pre = [] → front s.mem f = 0) ∧
      (∀ p ∈ pre.getLast?, p.size.isSome ∧ front s.mem f = p.addr ∧ p.addr + 12 ≤ f ∧
        h.start ≤ p.addr ∧ inuse s.mem p.addr ≠ 0) := by
  obtain ⟨hfh, -, hnil, hlast, -⟩ := Layout.at_free hJ hl
  obtain ⟨-, -, -, hj, -⟩ := links_append.mp hl.links
  have hfc : f + 12 ≤ c := hfh.fits
  obtain ⟨h₁, h₂⟩ := hJ.free (hj _ rfl) hfc
  refine ⟨hfc, hfh.flag, hl.start_le (b := ⟨f, none⟩) (by simp), h₁, h₂, fun hp => (hnil hp).2,
    fun p hp => ?_⟩
  have hmem : p ∈ pre ++ ([⟨f, none⟩, ⟨c, some n⟩] ++ post) :=
    List.mem_append_left _ (List.mem_of_getLast? hp)
  obtain ⟨a, k, rfl, h₃, h₄⟩ := hlast p hp
  refine ⟨rfl, h₃, by simp only; omega, hl.start_le hmem, ?_⟩
  rw [hl.links.flag_of_mem hmem]
  simp

theorem MergedBack.of_stay (hJ : BackLink J) (hl : Layout J h s (pre ++ (⟨c, some n⟩ :: post)))
    (hnx : nx = headAddr post h.stop)
    (hlast : ∀ p ∈ pre.getLast?, p.size.isSome ∧ front s.mem c = p.addr ∧
      p.addr + 12 ≤ c ∧ h.start ≤ p.addr ∧ inuse s.mem p.addr ≠ 0) :
    mergeBack 1 (setInuse s.mem c 0) c = some (setInuse s.mem c 0, c) ∧
      MergedBack J h s.mem (setInuse s.mem c 0) pre c n nx c pre [⟨c, some n⟩] := by
  obtain ⟨hc, hhd, hback, hnil⟩ := hl.at_used hJ
  rw [← hnx] at hhd hback
  have hf : front (setInuse s.mem c 0) c = front s.mem c := by simp (disch := omega)
  have hfit : c + 12 + n ≤ nx := hhd.fits
  refine ⟨?_, rfl, by simp, fun _ => rfl, rfl, setInuse_placed hhd hback,
    fun hp => hf.trans (hnil hp), fun p hp => ?_, fun hk he => ?_⟩
  · rw [mergeBack, if_neg]
    rintro ⟨h₁, h₂⟩
    rw [hf] at h₁ h₂
    rcases List.eq_nil_or_concat pre with rfl | ⟨pre, p, rfl⟩
    · exact h₁ (hnil rfl)
    · obtain ⟨-, h₃, h₄, -, h₅⟩ := hlast p (by simp)
      rw [h₃, inuse_setInuse (by omega)] at h₂
      exact h₅ h₂
  · exact ⟨(hlast p hp).1, hf.trans (hlast p hp).2.1⟩
  · refine ⟨?_, fun hi x _ _ => by simp (disch := omega)⟩
    rcases hk with hk | ⟨hk, -⟩
    · exact absurd (hhd.next.trans he) hk
    · exact fun hp => hk (hnil hp)

theorem MergedBack.of_join (hJ : BackLink J) {f : ℕ}
    (hl : Layout J h s (pre ++ ([⟨f, none⟩, ⟨c, some n⟩] ++ post)))
    (hnx : nx = headAddr post h.stop) :
    ∃ fuel m', mergeBack fuel (setInuse s.mem c 0) c = some (m', f) ∧
      MergedBack J h s.mem m' (pre ++ [⟨f, none⟩]) c n nx f pre [⟨f, none⟩, ⟨c, some n⟩] := by
  obtain ⟨hfc, hu, hfs, hfr, ht, hnil, hlast⟩ := hl.at_free_used hJ
  have hl' : Layout J h s ((pre ++ [⟨f, none⟩]) ++ (⟨c, some n⟩ :: post)) := by simpa using hl
  obtain ⟨hc, hhd, hback, -⟩ := hl'.at_used hJ
  rw [← hnx] at hhd
  have hfit : c + 12 + n ≤ nx := hhd.fits
  have hnext : next s.mem c = nx := hhd.next
  have hlt : nx < 2 ^ 32 := hnext ▸ Bytes.load_lt _ _
  have hpos : 0 < f := h.nonnull.trans_le hfs
  have hfne : front s.mem c ≠ 0 := by have := ht.le; omega
  have hfree : inuse s.mem (front s.mem c) = 0 := by
    cases ht <;> assumption
  let m₀ := setInuse s.mem c 0
  have hlow : Same s.mem m₀ 0 (c + 4) := fun x _ _ => by simp (disch := omega) [m₀]
  have hf₀ : front m₀ c = front s.mem c := hlow.front (Nat.zero_le _) le_rfl
  have ht₀ : Trail m₀ f c := by
    refine .back (by rwa [hf₀]) (by simp [m₀]) ?_
    rw [hf₀]
    exact ht.congr (hlow.mono (Nat.zero_le _) (by omega))
  have hstop : front m₀ f = 0 ∨ front m₀ f + 12 ≤ f ∧ inuse m₀ (front m₀ f) ≠ 0 := by
    rw [hlow.front (Nat.zero_le _) (by omega)]
    rcases List.eq_nil_or_concat pre with rfl | ⟨pre, p, rfl⟩
    · exact Or.inl (hnil rfl)
    · obtain ⟨-, h₁, h₂, -, h₃⟩ := hlast p (by simp)
      rw [h₁, hlow.inuse (Nat.zero_le _) (by omega)]
      exact Or.inr ⟨h₂, h₃⟩
  obtain ⟨fuel, m', hm, hj⟩ := mergeBack_joined ht₀ hpos
    ((hlow.inuse (Nat.zero_le _) (by omega)).trans hu) hstop
    (show next m₀ c = nx by simpa (disch := omega) [m₀] using hnext) (by omega) hlt
  have hlow' : Same s.mem m' 0 (f + 8) := fun x h₁ h₂ =>
    (hj.low x h₁ h₂).trans (hlow x h₁ (by omega))
  have hff : front m' f = front s.mem f := hlow'.front (Nat.zero_le _) (by omega)
  refine ⟨fuel, m', hm, by simp, by simp, fun _ => rfl, by simp,
    ⟨links_singleton.mpr ⟨?_, hj.next, by simp only [Blk.fill_none]; omega⟩, fun _ l hl => ?_,
      by simp, hlow'.mono le_rfl (by omega), fun hi x h₁ h₂ => ?_⟩,
    fun hp => hff.trans (hnil hp), fun p hp => ?_, fun hk he => ?_⟩
  · exact (hlow'.inuse (Nat.zero_le _) (by simp only; omega)).trans hu
  · simp only [List.getLast?_singleton, Option.mem_some_iff] at hl
    subst hl
    exact hj.back (by omega)
  · rw [hj.high hi x h₁ h₂]
    exact setInuse_apply (by omega)
  · exact ⟨(hlast p hp).1, hff.trans (hlast p hp).2.1⟩
  · rcases hk with hk | ⟨-, hk⟩
    · exact absurd (hnext.trans he) hk
    · exact absurd hfree hk

/-- The first loop of a free joins the freed block to a free block in front of it. -/
theorem mergeBack_merged (hJ : BackLink J) (hl : Layout J h s (pre ++ (⟨c, some n⟩ :: post))) :
    ∃ fuel m' f pre' old, mergeBack fuel (setInuse s.mem c 0) c = some (m', f) ∧
      MergedBack J h s.mem m' pre c n (headAddr post h.stop) f pre' old := by
  rcases List.eq_nil_or_concat pre with rfl | ⟨pre, ⟨f, _ | k⟩, rfl⟩
  · obtain ⟨h₁, h₂⟩ := MergedBack.of_stay hJ hl rfl (by simp)
    exact ⟨_, _, _, _, _, h₁, h₂⟩
  · simp only [List.concat_eq_append] at hl ⊢
    obtain ⟨fuel, m', h₁, h₂⟩ := MergedBack.of_join hJ
      (show Layout J h s (pre ++ ([⟨f, none⟩, ⟨c, some n⟩] ++ post)) by simpa using hl) rfl
    exact ⟨_, _, _, _, _, h₁, h₂⟩
  · simp only [List.concat_eq_append] at hl ⊢
    obtain ⟨hpre, hj, -⟩ := links_append.mp hl.links
    have hfit := (hpre.mem_le (b := ⟨f, some k⟩) (by simp)).2
    have hmem : (⟨f, some k⟩ : Blk) ∈ pre ++ [⟨f, some k⟩] ++ ⟨c, some n⟩ :: post := by simp
    have hfr : front s.mem c = f := hJ.used (hj ⟨f, some k⟩ (by simp) ⟨c, some n⟩ rfl)
    simp only [Blk.fill_some, headAddr_cons] at hfit
    obtain ⟨h₁, h₂⟩ := MergedBack.of_stay hJ hl rfl fun p hp => by
      simp only [List.getLast?_append, List.getLast?_singleton, Option.some_or,
        Option.mem_some_iff] at hp
      subst hp
      refine ⟨rfl, hfr, by simp only; omega, hl.start_le hmem, ?_⟩
      rw [hl.links.flag_of_mem hmem]
      simp
    exact ⟨_, _, _, _, _, h₁, h₂⟩

end Back

section Reset

variable {J : Bytes → Blk → ℕ → Prop} {h : Area} {s : State} {m m' : Bytes}
  {pre post : List Blk} {c n f nx fuel : ℕ}

theorem resetHead_placed (hfront : front m' f = 0) (hlow : Same m m' 0 h.start)
    (hhigh : ∀ hi, Same m m' (nx + 4) hi) (hf : next m' f = nx) (hnx : h.start + 12 ≤ nx)
    (hx : nx < 2 ^ 32) : ∃ m₁, resetHead h s m' f = (⟨m₁, h.start⟩, h.start) ∧
      Placed J h m m₁ [⟨h.start, none⟩] h.start nx ∧ front m₁ h.start = 0 := by
  have hst := h.bound
  have hroom := h.room
  unfold resetHead
  rw [if_pos hfront, hf]
  simp (disch := omega) only [next_setFront, next_setNext_self]
  refine ⟨_, rfl, ⟨links_singleton.mpr ⟨by simp, ?_, by simpa using hnx⟩, fun _ l hl => ?_, by simp,
    fun x h₁ h₂ => ?_, fun hi x h₁ h₂ => ?_⟩, ?_⟩
  · simp (disch := omega)
  · simp only [List.getLast?_singleton, Option.mem_some_iff] at hl
    subst hl
    simp (disch := omega)
  · rw [← hlow x h₁ h₂]
    simp (disch := omega)
  · rw [← hhigh hi x h₁ h₂]
    simp (disch := omega)
  · simp (disch := omega)

/-- The state between the two loops: one free block stands for the freed one and the free
block in front of it. -/
structure Released (J : Bytes → Blk → ℕ → Prop) (h : Area) (s s' : State) (safe : Prop)
    (pre post : List Blk) (f : ℕ) : Prop where
  chained : Chained J h s' (pre ++ ([⟨f, none⟩] ++ post))
  framed : Framed h s.mem s'.mem (payloads (pre ++ ([⟨f, none⟩] ++ post)))
  stop : safe → ∀ hi, Same s.mem s'.mem h.stop hi
  inner : ∀ p ∈ pre.getLast?, p.size.isSome

theorem resetHead_released (hJ : BackLink J) {pre' old : List Blk}
    (hl : Layout J h s (pre ++ (⟨c, some n⟩ :: post)))
    (hm : MergedBack J h s.mem m pre c n (headAddr post h.stop) f pre' old) :
    ∃ s' f', resetHead h s m f = (s', f') ∧
      Released J h s s' (FreeEndKept h s.mem c) pre' post f' := by
  have hcut : pre ++ ⟨c, some n⟩ :: post = pre' ++ (old ++ post) := by
    rw [← List.append_assoc, ← hm.cut]
    simp
  have hl' : Layout J h s (pre' ++ (old ++ post)) := hcut ▸ hl
  obtain ⟨-, -, hpost⟩ := links_append.mp (links_append.mp hl'.links).2.2
  obtain ⟨hc, hhd, -, -⟩ := hl.at_used hJ
  have hx : headAddr post h.stop < 2 ^ 32 := hhd.next ▸ Bytes.load_lt _ _
  have hfit : c + 12 + n ≤ headAddr post h.stop := hhd.fits
  rcases List.eq_nil_or_concat pre' with rfl | ⟨pre', p, rfl⟩
  · have hfs : h.start ≤ f := by
      have := hl'.start
      rwa [hl'.head, List.nil_append, headAddr_append, hm.old_head] at this
    have hlow : Same s.mem m 0 h.start := hm.placed.low.mono le_rfl (by omega)
    obtain ⟨m₁, hr, hp, hf⟩ := resetHead_placed (s := s) (J := J) (hm.first rfl) hlow
      hm.placed.high (hm.placed.links.1.next) (by omega) hx
    have hl'' : Chained J h s (old ++ post) := hl'.toChained
    obtain ⟨h₁, h₂⟩ := hl''.placed_head hJ hp rfl rfl le_rfl le_rfl (fun _ => rfl) hf
    refine ⟨_, _, hr, h₁, h₂, fun hk hi => hp.same_stop hpost (fun he => ?_) hi, by simp⟩
    exact absurd rfl (hm.stop hk he).1
  · obtain ⟨hp, hfp⟩ := hm.inner p (by simp)
    have hmem : p ∈ pre'.concat p ++ (old ++ post) := by simp
    have hpos : front m f ≠ 0 := hfp ▸ (h.nonnull.trans_le (hl'.start_le hmem)).ne'
    have hp : Placed J h s.mem m [⟨f, none⟩] (headAddr old (headAddr post h.stop) + 4)
        (headAddr post h.stop) := by
      rw [hm.old_head]
      exact hm.placed
    obtain ⟨h₁, h₂⟩ := hl'.toChained.placed hJ hp hm.old_ne (by simp)
      (hm.old_head (headAddr post h.stop)).symm (Or.inl (by simp))
    refine ⟨_, _, if_neg hpos, h₁, h₂, fun hk hi => hm.placed.same_stop hpost (fun he => ?_) hi,
      fun q hq => (hm.inner q hq).1⟩
    exact (hm.stop hk he).2

end Reset

section Forward

variable {J : Bytes → Blk → ℕ → Prop} {h : Area} {s : State} {m : Bytes}
  {pre post : List Blk} {f x nx : ℕ}

/-- Back links to a free block lead to the block in front of it after the two are joined. -/
def Merges (J : Bytes → Blk → ℕ → Prop) : Prop :=
  ∀ {m b x y}, J m ⟨x, none⟩ y → front m x = b → b + 12 ≤ x → inuse m x = 0 → J m ⟨b, none⟩ y

theorem merges_loose : Merges Loose := by
  rintro m b x y ⟨h₁, h₂⟩ rfl hb hu
  exact ⟨h₁, Trail.trans h₂ (.back hb hu .here)⟩

def FreeLast (post : List Blk) : Prop := ∀ x y bs, post ≠ ⟨x, none⟩ :: y :: bs

theorem mergeForward_stay (hs : next m f = h.stop ∨ inuse m (next m f) ≠ 0) :
    mergeForward h 1 m f = some m := by
  rw [mergeForward, if_neg]
  rintro ⟨h₁, h₂⟩
  exact hs.elim h₁ fun hu => hu h₂

/-- The memory after the free block at `x` is absorbed by the one at `f`. -/
def absorb (m : Bytes) (f x nx : ℕ) : Bytes := setNext (setFront m x f) f nx

theorem mergeForward_absorb (hf : next m f = x) (hx : x ≠ h.stop) (hu : inuse m x = 0)
    (hn : next m x = nx) (hfx : f + 12 ≤ x) (hlt : nx < 2 ^ 32) (hxn : x + 12 ≤ nx)
    (hs : nx = h.stop ∨ inuse m nx ≠ 0) :
    mergeForward h 2 m f = some (absorb m f x nx) := by
  have h₁ : next (setFront m x f) f = x := by simp (disch := omega) [hf]
  have h₂ : next (setFront m x f) x = nx := by simp (disch := omega) [hn]
  rw [mergeForward, if_pos ⟨by rwa [hf], by rwa [hf]⟩]
  dsimp only
  rw [hf, h₁, h₂]
  refine mergeForward_stay ?_
  rw [next_setNext_self hlt, inuse_setNext (by omega), inuse_setFront (by omega)]
  exact hs

theorem absorb_back (hJ : BackLink J) {y : ℕ} (hk : Merges J) (hy : J m ⟨x, none⟩ y)
    (hu : inuse m x = 0) (hfx : f + 12 ≤ x) (hx : x < 2 ^ 32) (hxy : x + 12 ≤ y) :
    J (absorb m f x nx) ⟨f, none⟩ y := by
  have hsame : Same m (absorb m f x nx) (x + 12) (y + 4) := fun z _ _ => by
    simp (disch := omega) [absorb]
  refine hk (hJ.congr hy hsame hxy) ?_ hfx ?_
  all_goals simp (disch := omega) [absorb, hu]

theorem absorb_outcome (hJ : BackLink J)
    (hl : Chained J h s (pre ++ ([⟨f, none⟩, ⟨x, none⟩] ++ post)))
    (hpre : Alternating (pre ++ [⟨f, none⟩])) (hpost : Alternating (⟨x, none⟩ :: post))
    (hk : Merges J ∨ post = []) :
    ∃ m', mergeForward h 2 s.mem f = some m' ∧
      Outcome J h s { s with mem := m' } True (pre ++ ([⟨f, none⟩] ++ post)) := by
  obtain ⟨hp, -, hf, -, hx, hj, hpo⟩ := links_append.mp hl.links
  have hpo : Links J s.mem h.stop post := hpo
  have hnf : next s.mem f = x := hf.next
  have hfx : f + 12 ≤ x := hf.fits
  have hnx : next s.mem x = headAddr post h.stop := hx.next
  have hxn : x + 12 ≤ headAddr post h.stop := hx.fits
  have hux : inuse s.mem x = 0 := hx.flag
  have hlt : headAddr post h.stop < 2 ^ 32 := hnx ▸ Bytes.load_lt _ _
  have hle := hpo.headAddr_le
  have hused := (List.isChain_cons.mp hpost).1
  simp only [Option.isSome_none, Bool.false_eq_true, false_or] at hused
  have hst : h.start ≤ f := hl.start_le (b := ⟨f, none⟩) (by simp)
  have hstop : headAddr post h.stop = h.stop ∨ inuse s.mem (headAddr post h.stop) ≠ 0 := by
    cases post with
    | nil => exact Or.inl rfl
    | cons b post =>
      have hb := hpo.1.flag
      simp only [Blk.flag, hused b rfl, if_true] at hb
      exact Or.inr (by simp [hb])
  have hlow : Same s.mem (absorb s.mem f x (headAddr post h.stop)) 0 (f + 8) := fun y _ _ => by
    simp (disch := omega) [absorb]
  have hhigh : ∀ hi, Same s.mem (absorb s.mem f x (headAddr post h.stop)) (x + 4) hi :=
    fun hi y _ _ => by simp (disch := omega) [absorb]
  refine ⟨_, mergeForward_absorb hnf (by omega) hux hnx hfx hlt hxn hstop, ⟨⟨?_, ?_⟩,
    ⟨fun r hr => ?_, hlow.mono le_rfl (by omega),
      fun hi => (hhigh hi).mono (by omega) le_rfl⟩, fun _ hi => (hhigh hi).mono (by omega) le_rfl⟩⟩
  · refine hl.splice hJ (by simp) (by simp) rfl (hlow.mono le_rfl (by simp))
      ((hhigh h.stop).mono (by omega) le_rfl) (links_singleton.mpr ⟨?_, ?_, ?_⟩)
      (fun l hl c hc => ?_) (Or.inr rfl)
    · exact (hlow.inuse (Nat.zero_le _) (by simp only; omega)).trans hf.flag
    · exact next_setNext_self hlt
    · simp only [Blk.fill_none]
      omega
    · simp only [List.getLast?_singleton, Option.mem_some_iff] at hl
      subst hl
      rcases hk with hk | rfl
      · obtain ⟨post, rfl⟩ : ∃ post', post = c :: post' := by
          cases post <;> simp at hc
          exact ⟨_, by rw [hc]⟩
        exact absorb_back hJ hk (hj c rfl) hux hfx (by omega) hxn
      · simp at hc
  · exact List.isChain_append.mpr ⟨hpre.left_of_append, List.isChain_cons.mpr
      ⟨by simpa using hused, (List.isChain_cons.mp hpost).2⟩, (List.isChain_append.mp hpre).2.2⟩
  · simp only [payloads_append, payloads_cons_none, payloads_nil, List.nil_append,
      List.mem_append] at hr
    rcases hr with hr | hr
    · have := (hp.payload_le (p := r.1) (n := r.2) hr).2
      simp only [List.cons_append, headAddr_cons] at this
      exact hlow.mono (Nat.zero_le _) (by omega)
    · have := (hpo.payload_le (p := r.1) (n := r.2) hr).1
      exact (hhigh _).mono (by omega) le_rfl

theorem mergeForward_outcome (hJ : BackLink J)
    (hl : Chained J h s (pre ++ ([⟨f, none⟩] ++ post))) (hpre : Alternating (pre ++ [⟨f, none⟩]))
    (hpost : Alternating post) (hk : Merges J ∨ FreeLast post) :
    ∃ fuel m' bs, mergeForward h fuel s.mem f = some m' ∧
      Outcome J h s { s with mem := m' } True bs ∧ payloads bs = payloads (pre ++ post) := by
  obtain ⟨-, -, hf, -, hpo⟩ := links_append.mp hl.links
  by_cases hb : ∀ b ∈ post.head?, b.size.isSome
  · have halt : Alternating (pre ++ ([⟨f, none⟩] ++ post)) := by
      rw [← List.append_assoc]
      exact List.isChain_append.mpr ⟨hpre, hpost, by simpa using hb⟩
    refine ⟨1, s.mem, _, mergeForward_stay ?_, ⟨⟨hl, halt⟩, ⟨fun _ _ _ _ _ => rfl,
      fun _ _ _ => rfl, fun _ _ _ _ => rfl⟩, fun _ _ _ _ _ => rfl⟩, by simp⟩
    rw [show next s.mem f = headAddr post h.stop from hf.next]
    cases post with
    | nil => exact Or.inl rfl
    | cons b post =>
      have hu := hpo.1.flag
      simp only [Blk.flag, hb b rfl, if_true] at hu
      exact Or.inr (by simp [hu])
  · rcases post with _ | ⟨⟨x, _ | k⟩, post⟩
    · simp at hb
    · have hk' : Merges J ∨ post = [] := hk.imp_right fun hk => by
        cases post with
        | nil => rfl
        | cons y post => exact absurd rfl (hk x y post)
      obtain ⟨m', h₁, h₂⟩ := absorb_outcome hJ hl hpre hpost hk'
      exact ⟨2, m', _, h₁, h₂, by simp⟩
    · simp at hb

end Forward

section Free

variable {J : Bytes → Blk → ℕ → Prop} {h : Area} {s s' s'' : State} {m : Bytes}
  {pre post bs : List Blk} {c n ptr fuel k : ℕ}

/-- The free joins its block with no free block behind it but the last one of the heap. -/
def ForwardKept (h : Area) (m : Bytes) (c : ℕ) : Prop :=
  next m c ≠ h.stop → inuse m (next m c) = 0 → next m (next m c) = h.stop

theorem freeLast_of_forwardKept (hc : Header m ⟨c, some n⟩ (headAddr post h.stop))
    (hl : Links J m h.stop post) (hk : ForwardKept h m c) : FreeLast post := by
  rintro x y bs rfl
  obtain ⟨hx, -, hy⟩ := links_cons_cons.mp hl
  have hnc : next m c = x := hc.next
  have hnx : next m x = y.addr := hx.next
  have hfx : x + 12 ≤ y.addr := hx.fits
  have hfy := (hy.mem_le (b := y) (by simp)).2
  unfold ForwardKept at hk
  rw [hnc, hnx] at hk
  have := hk (by omega) hx.flag
  omega

theorem Outcome.trans {safe : Prop} {bs' : List Blk} (h₁ : Framed h s.mem s'.mem (payloads bs'))
    (hstop : safe → ∀ hi, Same s.mem s'.mem h.stop hi) (h₂ : Outcome J h s' s'' True bs)
    (hp : payloads bs = payloads bs') : Outcome J h s s'' safe bs where
  layout := h₂.layout
  framed := ⟨fun r hr => (h₁.kept r (hp ▸ hr)).trans (h₂.framed.kept r hr),
    h₁.below.trans h₂.framed.below, fun hi => (h₁.above hi).trans (h₂.framed.above hi)⟩
  stop hs hi := (hstop hs hi).trans (h₂.stop trivial hi)

/-- A free of a block in use returns and takes its payload out of the layout. -/
theorem pmmFree_outcome (hJ : BackLink J) (hl : Layout J h s (pre ++ (⟨c, some n⟩ :: post)))
    (hk : Merges J ∨ ForwardKept h s.mem c) :
    ∃ fuel s' bs, pmmFree h fuel s (c + 12) = some s' ∧
      Outcome J h s s' (FreeEndKept h s.mem c) bs ∧ payloads bs = payloads (pre ++ post) := by
  obtain ⟨hc, hhd, -, -⟩ := hl.at_used hJ
  obtain ⟨-, -, -, -, hpo⟩ := links_append.mp hl.links
  have hlt : headAddr post h.stop < 2 ^ 32 := hhd.next ▸ Bytes.load_lt _ _
  have hfit : c + 12 + n ≤ headAddr post h.stop := hhd.fits
  have hptr : ptrSub (c + 12) 12 = c := by unfold ptrSub; omega
  obtain ⟨fuel₁, m₁, f, pre', old, hb, hm⟩ := mergeBack_merged hJ hl
  obtain ⟨s₁, f', hr, hrel⟩ := resetHead_released hJ hl hm
  have hpre' : Alternating pre' := by
    have halt := hl.alternating
    rw [show pre ++ ⟨c, some n⟩ :: post = pre' ++ (old ++ post) by
      rw [← List.append_assoc, ← hm.cut]; simp] at halt
    exact halt.left_of_append
  have halt : Alternating (pre' ++ [⟨f', none⟩]) := List.isChain_append.mpr
    ⟨hpre', .singleton _, fun p hp _ _ => Or.inl (hrel.inner p hp)⟩
  have hpost : Alternating post := (List.isChain_cons.mp hl.alternating.right_of_append).2
  obtain ⟨fuel₂, m₂, bs, hf, ho, hp⟩ := mergeForward_outcome hJ hrel.chained halt hpost
    (hk.imp_right fun hk => freeLast_of_forwardKept hhd hpo hk)
  refine ⟨max fuel₁ fuel₂, { s₁ with mem := m₂ }, bs, ?_,
    .trans hrel.framed hrel.stop ho (by simpa using hp), ?_⟩
  · unfold pmmFree
    simp only [hptr, mergeBack_mono (le_max_left _ _) hb, Option.bind_eq_bind, Option.bind_some,
      hr, mergeForward_mono (le_max_right _ _) hf]
  · rw [hp, payloads_append, payloads_append, hm.payloads]

theorem pmmFree_mono (hk : fuel ≤ k) (hf : pmmFree h fuel s ptr = some s') :
    pmmFree h k s ptr = some s' := by
  unfold pmmFree at hf ⊢
  simp only [Option.bind_eq_bind, Option.bind_eq_some_iff] at hf ⊢
  obtain ⟨p, hb, m, hm, hs⟩ := hf
  exact ⟨p, mergeBack_mono hk hb, m, mergeForward_mono hk hm, hs⟩

theorem pmmFree_unique (h₁ : pmmFree h fuel s ptr = some s')
    (h₂ : pmmFree h k s ptr = some s'') : s' = s'' :=
  Option.some.inj ((pmmFree_mono (le_max_left fuel k) h₁).symm.trans
    (pmmFree_mono (le_max_right fuel k) h₂))

end Free

end NSOS.Pmm
