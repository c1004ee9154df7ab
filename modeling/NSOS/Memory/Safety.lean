import NSOS.Memory.Runs

/-! # What holds over every run of the allocator

Live regions stay apart and the block list stays in order as long as each
request finds a block and the head of the list survives the request. Exact
back links, writes that stay inside the heap and a heap that returns to its
initial form each need a condition of that kind. Runs without it break them.
-/

namespace NSOS.Pmm

open Basis

variable {h : Area} {m : Bytes} {w w' : World} {bs : List Blk} {op : Op}

def heapAt (start size : ℕ) (h₁ : start % 16 = 0 := by decide) (h₂ : 0 < start := by decide)
    (h₃ : 12 ≤ size := by decide) (h₄ : start + size < 2 ^ 32 := by decide) : Area :=
  ⟨start, start + size, h₁, h₂, by omega, h₄⟩

section Regions

/-- The live regions are pairwise disjoint and lie inside the heap. -/
def RegionsApart (h : Area) (live : List (ℕ × ℕ)) : Prop :=
  (live.Pairwise fun r r' => r.1 + r.2 ≤ r'.1 ∨ r'.1 + r'.2 ≤ r.1) ∧
    ∀ r ∈ live, h.start ≤ r.1 ∧ r.1 + r.2 ≤ h.stop

instance (h : Area) (live : List (ℕ × ℕ)) : Decidable (RegionsApart h live) :=
  inferInstanceAs (Decidable (_ ∧ _))

theorem Tracks.regionsApart {J : Bytes → Blk → ℕ → Prop} (ht : Tracks J h w bs) :
    RegionsApart h w.live := by
  refine ⟨(ht.live.pairwise_iff fun {_ _} => Or.symm).mp ?_, fun ⟨p, n⟩ hr => ?_⟩
  · exact ht.layout.links.payloads_apart.imp Or.inl
  · have hp := ht.layout.links.payload_le (ht.live.mem_iff.mpr hr)
    have := ht.layout.start
    rw [ht.layout.head] at this
    simp only
    omega

/-- Live regions never overlap in runs with safe heads. -/
theorem live_regions_apart (hr : Reach h (HeadSafe h) m w) : RegionsApart h w.live := by
  obtain ⟨bs, ht⟩ := hr.tracks_loose
  exact ht.regionsApart

/-- An allocation right behind the list's head that leaves no room for another header
forgets the back link of the next block. A later request gets live memory. -/
theorem live_regions_overlap : ¬ ∀ (h : Area) (m : Bytes) (w : World),
    Reach h (fun _ _ => True) m w → RegionsApart h w.live := by
  intro hall
  let h := heapAt 0x1010 256
  have hlive : (replay (execLegal h 9) (.init h fun _ => 0)
      [.alloc 64, .alloc 20, .free (0x1040, 64), .alloc 20]).map World.live =
        some [(0x1020, 20), (0x1020, 20)] := by decide +kernel
  obtain ⟨w, hw, hl⟩ := Option.map_eq_some_iff.mp hlive
  have := hall h _ w (reach_of_replay hw)
  rw [hl] at this
  exact absurd this (by decide)

theorem exists_safeRun : ∃ w : World, replay (execSafe (heapAt 0x1000 256) 9)
    (.init (heapAt 0x1000 256) fun _ => 0)
    [.alloc 16, .alloc 16, .alloc 16, .free (0x1050, 16)] = some w ∧
      w.live = [(0x1030, 16), (0x1010, 16)] := by
  apply Option.map_eq_some_iff.mp
  decide +kernel

/-- A run that satisfies the conditions of `live_regions_apart`. -/
theorem live_regions_apart_run :
    let h := heapAt 0x1000 256
    ∃ w : World, w.live = [(0x1030, 16), (0x1010, 16)] ∧ RegionsApart h w.live := by
  intro h
  obtain ⟨w, hw, hl⟩ := exists_safeRun
  exact ⟨w, hl, live_regions_apart ((reach_safe_of_replay hw).mono LinkSafe.headSafe)⟩

end Regions

section BlockList

variable {live : List (ℕ × ℕ)} {s : State}

/-- The list of block headers that starts at `memory_head`. -/
structure BlockList (h : Area) (s : State) (live : List (ℕ × ℕ)) (bs : List ℕ) : Prop where
  head : bs.head? = some s.memoryHead
  follows : (bs ++ [h.stop]).IsChain fun b c => next s.mem b = c ∧ b < c
  inside : ∀ b ∈ bs, h.start ≤ b ∧ b + 12 ≤ h.stop
  first : front s.mem s.memoryHead = 0
  back : ∀ b ∈ bs, next s.mem b ≠ h.stop → front s.mem (next s.mem b) = b
  apart : bs.Pairwise fun b c => b + 12 ≤ c
  payload : ∀ b ∈ bs, ∀ r ∈ live, b + 12 ≤ r.1 ∨ r.1 + r.2 ≤ b
  alternating : bs.IsChain fun b c => inuse s.mem b ≠ 0 ∨ inuse s.mem c ≠ 0

theorem Links.follows {J : Bytes → Blk → ℕ → Prop} {e : ℕ} (hl : Links J m e bs) :
    (bs.map Blk.addr ++ [e]).IsChain fun b c => next m b = c ∧ b < c := by
  induction bs with
  | nil => exact .singleton _
  | cons b bs ih =>
    have hfit := hl.1.fits
    refine List.isChain_cons.mpr ⟨fun c hc => ?_, ih hl.2.2⟩
    have he : c = headAddr bs e := by
      cases bs <;> simpa [eq_comm] using hc
    subst he
    exact ⟨hl.1.next, by omega⟩

theorem Links.back {e : ℕ} (hl : Links Strict m e bs) {b : Blk} (hb : b ∈ bs)
    (hn : next m b.addr ≠ e) : front m (next m b.addr) = b.addr := by
  induction bs with
  | nil => simp at hb
  | cons c bs ih =>
    rcases List.mem_cons.mp hb with rfl | hb
    · rw [hl.1.next] at hn ⊢
      cases bs with
      | nil => exact absurd rfl hn
      | cons d bs => exact hl.2.1 d rfl
    · exact ih hl.2.2 hb

theorem Links.headers_apart {J : Bytes → Blk → ℕ → Prop} {e : ℕ} (hl : Links J m e bs) :
    bs.Pairwise fun b c => b.addr + 12 ≤ c.addr := by
  induction bs with
  | nil => exact .nil
  | cons b bs ih =>
    refine List.pairwise_cons.mpr ⟨fun c hc => ?_, ih hl.2.2⟩
    have h₁ := hl.1.fits
    have h₂ := (hl.2.2.mem_le hc).1
    omega

theorem Links.header_payload {J : Bytes → Blk → ℕ → Prop} {e : ℕ} (hl : Links J m e bs)
    {b : Blk} {p n : ℕ} (hb : b ∈ bs) (hr : (p, n) ∈ payloads bs) :
    b.addr + 12 ≤ p ∨ p + n ≤ b.addr := by
  induction bs with
  | nil => simp at hb
  | cons c bs ih =>
    have hfit := hl.1.fits
    have hown : p = c.addr + 12 ∧ c.fill = n ∨ (p, n) ∈ payloads bs := by
      obtain ⟨a, n' | n'⟩ := c
      · exact Or.inr hr
      · simpa [eq_comm] using hr
    rcases List.mem_cons.mp hb with rfl | hb <;> rcases hown with ⟨rfl, rfl⟩ | hr
    · exact Or.inl le_rfl
    · have := hl.2.2.payload_le hr
      omega
    · have := hl.2.2.mem_le hb
      omega
    · exact ih hl.2.2 hb hr

theorem Tracks.blockList (ht : Tracks Strict h w bs) :
    BlockList h w.pmm w.live (bs.map Blk.addr) := by
  obtain ⟨hl, hlive⟩ := ht
  refine ⟨?_, hl.links.follows, ?_, hl.first, ?_, ?_, ?_, ?_⟩
  · obtain ⟨b, bs, rfl⟩ := List.exists_cons_of_ne_nil hl.nonempty
    simp [hl.head]
  · intro a ha
    obtain ⟨b, hb, rfl⟩ := List.mem_map.mp ha
    have := (hl.links.mem_le hb).2
    exact ⟨hl.start_le hb, by omega⟩
  · intro a ha hn
    obtain ⟨b, hb, rfl⟩ := List.mem_map.mp ha
    exact hl.links.back hb hn
  · exact List.pairwise_map.mpr hl.links.headers_apart
  · intro a ha r hr
    obtain ⟨b, hb, rfl⟩ := List.mem_map.mp ha
    exact hl.links.header_payload hb (hlive.mem_iff.mpr hr)
  · refine (List.isChain_map _).mpr (hl.alternating.imp_of_mem_imp fun b c hb hc hbc => ?_)
    rw [hl.links.flag_of_mem hb, hl.links.flag_of_mem hc]
    exact hbc.imp Blk.flag_ne_zero Blk.flag_ne_zero

/-- The block list is in order after every call of a run with safe links. -/
theorem block_list_kept (hr : Reach h (LinkSafe h) m w) :
    ∃ bs, BlockList h w.pmm w.live bs := by
  obtain ⟨bs, ht⟩ := hr.tracks_strict
  exact ⟨_, ht.blockList⟩

/-- Absorbing a free block leaves the back link of the block behind it as it was. -/
theorem back_link_stale : ¬ ∀ (h : Area) (m : Bytes) (w : World),
    Reach h (fun _ _ => True) m w → ∃ bs, BlockList h w.pmm w.live bs := by
  intro hall
  let h := heapAt 0x1000 256
  have hend : (replay (execLegal h 9) (.init h fun _ => 0)
      [.alloc 16, .alloc 16, .alloc 16, .free (0x1030, 16), .free (0x1010, 16)]).map
        (fun w => (next w.pmm.mem w.pmm.memoryHead,
          front w.pmm.mem (next w.pmm.mem w.pmm.memoryHead), w.pmm.memoryHead)) =
        some (0x1044, 0x1024, 0x1000) := by decide +kernel
  obtain ⟨w, hw, hl⟩ := Option.map_eq_some_iff.mp hend
  simp only [Prod.mk.injEq] at hl
  obtain ⟨h₁, h₂, h₃⟩ := hl
  obtain ⟨bs, hb⟩ := hall h _ w (reach_of_replay hw)
  have hback := hb.back w.pmm.memoryHead (List.mem_of_head? hb.head) (by rw [h₁]; decide)
  rw [h₂, h₃] at hback
  exact absurd hback (by decide)

/-- A run that satisfies the conditions of `block_list_kept`. -/
theorem block_list_kept_run :
    let h := heapAt 0x1000 256
    ∃ w : World, w.live = [(0x1030, 16), (0x1010, 16)] ∧ ∃ bs, BlockList h w.pmm w.live bs := by
  intro h
  obtain ⟨w, hw, hl⟩ := exists_safeRun
  exact ⟨w, hl, block_list_kept (reach_safe_of_replay hw)⟩

end BlockList

section Frame

def kept (w : World) : Op → List (ℕ × ℕ)
  | .free r => w.live.erase r
  | _ => w.live

/-- A call changes no byte outside the heap and no byte of another live region. -/
def Spares (h : Area) (w : World) (op : Op) (w' : World) : Prop :=
  ∀ x, x < h.start ∨ h.stop ≤ x ∨ (∃ r ∈ kept w op, r.1 ≤ x ∧ x < r.1 + r.2) →
    w'.pmm.mem x = w.pmm.mem x

/-- The writes of clients are no calls. -/
def Op.IsCall : Op → Prop
  | .store _ _ => False
  | _ => True

theorem Outcome.spares {J : Bytes → Blk → ℕ → Prop} {safe : Prop} {bs' : List Blk}
    (ho : Outcome J h w.pmm w'.pmm safe bs') (hs : safe) (ht : Tracks J h w' bs')
    (hk : ∀ r ∈ kept w op, r ∈ w'.live) : Spares h w op w' := by
  rintro x (hx | hx | ⟨r, hr, h₁, h₂⟩)
  · exact ho.framed.below x (Nat.zero_le _) hx
  · exact ho.stop hs (x + 1) x hx (Nat.lt_succ_self x)
  · exact ho.framed.kept r (ht.live.mem_iff.mpr (hk r hr)) x h₁ h₂

/-- After a run with safe heads, a call that spares the end of the heap changes only its
own bytes. -/
theorem call_spares (hr : Reach h (HeadSafe h) m w) (hc : op.IsCall) (hs : Step h w op w')
    (he : EndSafe h w op) : Spares h w op w' := by
  obtain ⟨bs, ht⟩ := hr.tracks_loose
  obtain ⟨hl, fuel, hx⟩ := hs
  cases op with
  | alloc size =>
    obtain ⟨bs', a, hlive, ht', ho⟩ := exec_alloc backLink_loose ht hl.2.1 he.1 hx
    exact ho.spares he.2 ht' fun r hr => hlive ▸ List.mem_cons_of_mem _ hr
  | free r =>
    obtain ⟨bs', hlive, ht', ho⟩ := exec_free backLink_loose ht hl (Or.inl merges_loose) hx
    exact ho.spares he ht' fun r hr => hlive ▸ hr
  | store x c => exact hc.elim

/-- Freeing a block that ends at the end of the heap writes behind the heap. -/
theorem free_writes_behind : ¬ ∀ (h : Area) (m : Bytes) (w w' : World) (op : Op),
    Reach h (fun _ _ => True) m w → op.IsCall → Step h w op w' → Spares h w op w' := by
  intro hall
  let h := heapAt 0x1000 32
  have h₁ : (replay (execLegal h 9) (.init h fun _ => 0) [.alloc 16]).map
      (fun w => (w.pmm.mem 0x1021, (execLegal h 9 w (.free (0x1010, 16))).map
        fun w => w.pmm.mem 0x1021)) = some (0, some 16) := by decide +kernel
  obtain ⟨w, hw, hl⟩ := Option.map_eq_some_iff.mp h₁
  simp only [Prod.mk.injEq, Option.map_eq_some_iff] at hl
  obtain ⟨h₂, w', hf, h₃⟩ := hl
  have := hall h _ w w' (.free (0x1010, 16)) (reach_of_replay hw) trivial
    (step_of_execLegal hf) 0x1021 (Or.inr (Or.inl (by decide)))
  rw [h₂, h₃] at this
  exact absurd this (by decide)

/-- A run that satisfies the conditions of `call_spares`. -/
theorem call_spares_run :
    let h := heapAt 0x1000 256
    ∃ w w' : World, w.live = [(0x1030, 16), (0x1010, 16)] ∧ w'.live = [(0x1010, 16)] ∧
      Spares h w (.free (0x1030, 16)) w' := by
  intro h
  have h₁ : (replay (execSafe h 9) (.init h fun _ => 0) [.alloc 16, .alloc 16]).map
      (fun w => (w.live, safeB h 9 w (.free (0x1030, 16)),
        (execLegal h 9 w (.free (0x1030, 16))).map World.live)) =
      some ([(0x1030, 16), (0x1010, 16)], true, some [(0x1010, 16)]) := by decide +kernel
  obtain ⟨w, hw, hl⟩ := Option.map_eq_some_iff.mp h₁
  simp only [Prod.mk.injEq, Option.map_eq_some_iff] at hl
  obtain ⟨h₂, hs, w', hf, h₃⟩ := hl
  exact ⟨w, w', h₂, h₃, call_spares ((reach_safe_of_replay hw).mono LinkSafe.headSafe) trivial
    (step_of_execLegal hf) (safe_of_safeB hs).2⟩

end Frame

section Coalesced

/-- The form of the heap right after `pmm_init`. -/
structure Initial (h : Area) (s : State) : Prop where
  head : s.memoryHead = h.start
  front : front s.mem s.memoryHead = 0
  inuse : inuse s.mem s.memoryHead = 0
  next : next s.mem s.memoryHead = h.stop

theorem all_free_of_payloads_nil (hp : payloads bs = []) : ∀ b ∈ bs, b.size = none := by
  rintro ⟨a, _ | n⟩ hb
  · rfl
  · have := mem_payloads.mpr ⟨a, rfl, hb⟩
    simp [hp] at this

theorem Layout.initial {J : Bytes → Blk → ℕ → Prop} {s : State} (hl : Layout J h s bs)
    (hp : payloads bs = []) : Initial h s := by
  have hfree := all_free_of_payloads_nil hp
  have hhead := hl.head
  have hfirst := hl.free_head
  have hlinks := hl.links
  rcases bs with _ | ⟨b, _ | ⟨c, bs⟩⟩
  · exact absurd rfl hl.nonempty
  · have hb := hfree b (by simp)
    rw [headAddr_cons] at hhead
    refine ⟨hhead.trans (hfirst b rfl hb), hl.first, ?_, ?_⟩
    · rw [hhead, hlinks.1.flag]
      simp [Blk.flag, hb]
    · rw [hhead, hlinks.1.next]
      rfl
  · have halt := (List.isChain_cons_cons.mp hl.alternating).1
    simp [hfree b (by simp), hfree c (by simp)] at halt

/-- When everything is freed again, the heap is one free block. -/
theorem all_freed_initial (hr : Reach h (HeadSafe h) m w) (hw : w.live = []) :
    Initial h w.pmm := by
  obtain ⟨bs, ht⟩ := hr.tracks_loose
  exact ht.layout.initial (List.perm_nil.mp (hw ▸ ht.live))

/-- A forgotten back link keeps free blocks apart for ever. -/
theorem all_freed_split : ¬ ∀ (h : Area) (m : Bytes) (w : World),
    Reach h (fun _ _ => True) m w → w.live = [] → Initial h w.pmm := by
  intro hall
  let h := heapAt 0x1000 256
  have hend : (replay (execLegal h 9) (.init h fun _ => 0)
      [.alloc 8, .alloc 1, .free (0x1010, 8), .alloc 8, .free (0x1024, 1), .alloc 20,
        .free (0x1020, 20), .free (0x1010, 8)]).map
        (fun w => (w.live, next w.pmm.mem w.pmm.memoryHead)) = some ([], 0x1018) := by
    decide +kernel
  obtain ⟨w, hw, hl⟩ := Option.map_eq_some_iff.mp hend
  simp only [Prod.mk.injEq] at hl
  have hnext := (hall h _ w (reach_of_replay hw) hl.1).next
  rw [hl.2] at hnext
  exact absurd hnext (by decide)

/-- A run that satisfies the conditions of `all_freed_initial`. -/
theorem all_freed_initial_run :
    let h := heapAt 0x1000 256
    ∃ w : World, w.live = [] ∧ Initial h w.pmm := by
  intro h
  have hlive : (replay (execSafe h 9) (.init h fun _ => 0)
      [.alloc 16, .alloc 16, .free (0x1010, 16), .free (0x1030, 16)]).map World.live =
        some [] := by decide +kernel
  obtain ⟨w, hw, hl⟩ := Option.map_eq_some_iff.mp hlive
  exact ⟨w, hl, all_freed_initial ((reach_safe_of_replay hw).mono LinkSafe.headSafe) hl⟩

end Coalesced

end NSOS.Pmm
