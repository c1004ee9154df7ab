import NSOS.Basis.Runs
import NSOS.Memory.Alloc
import NSOS.Memory.Free

/-! # Runs of the allocator

A run starts right after `pmm_init` in arbitrary memory. It allocates and
frees, and between the calls the owners of live regions write into them.
-/

namespace NSOS.Pmm

open Basis

/-- The allocator and the regions handed out and not freed since. -/
structure World where
  pmm : State
  live : List (ℕ × ℕ)

def World.init (h : Area) (m : Bytes) : World := ⟨pmmInit h m, []⟩

/-- A call, or a byte written by the owner of a region. -/
inductive Op where
  | alloc (size : ℕ)
  | free (r : ℕ × ℕ)
  | store (x : ℕ) (c : UInt8)

/-- The blocks from some block on, following `next` up to the end of the heap. -/
inductive Listed (h : Area) (m : Bytes) : ℕ → ℕ → Prop where
  | here {b : ℕ} : b ≠ h.stop → Listed h m b b
  | step {b c : ℕ} : b ≠ h.stop → Listed h m (next m b) c → Listed h m b c

/-- The free block at `b` holds an address aligned to `r` with `size` bytes behind it. -/
def Holds (m : Bytes) (size r b a : ℕ) : Prop :=
  inuse m b = 0 ∧ b + 12 ≤ a ∧ r ∣ a ∧ a + size ≤ next m b

instance (m : Bytes) (size r b a : ℕ) : Decidable (Holds m size r b a) :=
  inferInstanceAs (Decidable (_ ∧ _))

def Satisfiable (h : Area) (s : State) (size : ℕ) : Prop :=
  ∃ r k b a, roundUp size = some (r, k) ∧ Listed h s.mem s.memoryHead b ∧ Holds s.mem size r b a

/-- The calls and writes a client may make. -/
def Legal (h : Area) (w : World) : Op → Prop
  | .alloc size => 1 ≤ size ∧ size ≤ 2 ^ 30 ∧ Satisfiable h w.pmm size
  | .free r => r ∈ w.live
  | .store x _ => ∃ r ∈ w.live, r.1 ≤ x ∧ x < r.1 + r.2

/-- The effect of a call or a write. -/
def exec (h : Area) (fuel : ℕ) (w : World) : Op → Option World
  | .alloc size => (pmmAlloc h fuel w.pmm size).map fun p =>
      ⟨p.1, if p.2 = 0 then w.live else (p.2, size) :: w.live⟩
  | .free r => (pmmFree h fuel w.pmm r.1).map fun s => ⟨s, w.live.erase r⟩
  | .store x c => some ⟨{ w.pmm with mem := w.pmm.mem.put x c }, w.live⟩

def Step (h : Area) (w : World) (op : Op) (w' : World) : Prop :=
  Legal h w op ∧ ∃ fuel, exec h fuel w op = some w'

/-- The calls and writes that follow `pmm_init`. -/
abbrev Reach (h : Area) (P : World → Op → Prop) (m : Bytes) (w : World) : Prop :=
  Run (Step h) P (.init h m) w

section Conditions

variable (h : Area) (s : State) (size : ℕ)

/-- The search finds a free block, and taking it leaves the head of the list in order. -/
def AllocSafe : Prop := ∃ r k b, roundUp size = some (r, k) ∧
  FirstFit h s.mem size r k s.memoryHead b ∧ HeadKept h s.mem b (candidate r k b) size

/-- The block the search finds is taken without writing a header at the end of the heap. -/
def AllocEndKept : Prop := ∃ r k b, roundUp size = some (r, k) ∧
  FirstFit h s.mem size r k s.memoryHead b ∧ EndKept h s.mem b (candidate r k b) size

/-- The calls that keep the block list. -/
def HeadSafe (w : World) : Op → Prop
  | .alloc size => AllocSafe h w.pmm size
  | _ => True

/-- The calls that keep the block list with exact back links. -/
def LinkSafe (w : World) : Op → Prop
  | .alloc size => AllocSafe h w.pmm size
  | .free r => ForwardKept h w.pmm.mem (r.1 - 12)
  | .store _ _ => True

/-- The calls that keep the block list and stay inside the heap. -/
def EndSafe (w : World) : Op → Prop
  | .alloc size => AllocSafe h w.pmm size ∧ AllocEndKept h w.pmm size
  | .free r => FreeEndKept h w.pmm.mem (r.1 - 12)
  | .store _ _ => True

end Conditions

section Steps

variable {J : Bytes → Blk → ℕ → Prop} {h : Area} {w w' : World} {bs : List Blk} {m : Bytes}
  {size fuel x : ℕ} {r : ℕ × ℕ} {c : UInt8}

/-- The block list with exactly the live regions as payloads. -/
structure Tracks (J : Bytes → Blk → ℕ → Prop) (h : Area) (w : World) (bs : List Blk) : Prop where
  layout : Layout J h w.pmm bs
  live : (payloads bs).Perm w.live

theorem tracks_init : Tracks J h (.init h m) [⟨h.start, none⟩] := by
  have h₁ := h.room
  have h₂ := h.bound
  refine ⟨⟨⟨by simp, rfl, links_singleton.mpr ⟨?_, ?_, by simpa using h₁⟩, ?_, le_rfl,
    fun b hb _ => ?_⟩, .singleton _⟩, .refl _⟩
  · simp (disch := omega) [World.init, pmmInit]
  · simp (disch := omega) [World.init, pmmInit]
  · simp (disch := omega) [World.init, pmmInit]
  · simp only [List.head?_cons, Option.mem_some_iff] at hb
    rw [← hb]

theorem exec_alloc (hJ : BackLink J) (ht : Tracks J h w bs) (hs : size ≤ 2 ^ 30)
    (hk : AllocSafe h w.pmm size) (he : exec h fuel w (.alloc size) = some w') :
    ∃ bs' a, w'.live = (a, size) :: w.live ∧ Tracks J h w' bs' ∧
      Outcome J h w.pmm w'.pmm (AllocEndKept h w.pmm size) bs' := by
  obtain ⟨r, k, b, hr, hf, hk⟩ := hk
  obtain ⟨fuel', s', bs', ha, ho, hp⟩ := pmmAlloc_outcome hJ ht.layout hr hs hf hk
  simp only [exec, Option.map_eq_some_iff] at he
  obtain ⟨⟨s'', p⟩, ha', rfl⟩ := he
  obtain ⟨rfl, rfl⟩ := pmmAlloc_unique ha ha'
  have hpos : candidate r k b ≠ 0 := by
    have hfits := (ht.layout.head ▸ hf).fits ht.layout.links hr hs
    have := hfits.above
    omega
  refine ⟨bs', candidate r k b, if_neg hpos, ⟨ho.layout, ?_⟩, ho.layout, ho.framed, ?_⟩
  · rw [if_neg hpos]
    exact hp.trans (ht.live.cons _)
  · rintro ⟨r', k', b', hr', hf', hk'⟩
    obtain ⟨rfl, rfl⟩ : r = r' ∧ k = k' := by simpa [hr] using hr'
    obtain rfl := hf.unique hf'
    exact ho.stop hk'

theorem exec_free (hJ : BackLink J) (ht : Tracks J h w bs) (hr : r ∈ w.live)
    (hk : Merges J ∨ ForwardKept h w.pmm.mem (r.1 - 12))
    (he : exec h fuel w (.free r) = some w') :
    ∃ bs', w'.live = w.live.erase r ∧ Tracks J h w' bs' ∧
      Outcome J h w.pmm w'.pmm (FreeEndKept h w.pmm.mem (r.1 - 12)) bs' := by
  obtain ⟨p, n⟩ := r
  obtain ⟨c, rfl, hb⟩ := mem_payloads.mp (ht.live.mem_iff.mpr hr)
  obtain ⟨pre, post, rfl⟩ := List.append_of_mem hb
  rw [Nat.add_sub_cancel] at hk ⊢
  obtain ⟨fuel', s', bs', hf, ho, hp⟩ := pmmFree_outcome hJ ht.layout hk
  simp only [exec, Option.map_eq_some_iff] at he
  obtain ⟨s'', hf', rfl⟩ := he
  obtain rfl := pmmFree_unique hf hf'
  refine ⟨bs', rfl, ⟨ho.layout, ?_⟩, ho⟩
  have hlive := ht.live.erase (c + 12, n)
  rw [payloads_append, payloads_cons_some] at hlive
  have hmid : (payloads pre ++ (c + 12, n) :: payloads post).Perm
      ((c + 12, n) :: (payloads pre ++ payloads post)) := List.perm_middle
  have hmid := hmid.erase (c + 12, n)
  rw [List.erase_cons_head, ← payloads_append, ← hp] at hmid
  exact hmid.symm.trans hlive

theorem exec_store (hJ : BackLink J) (ht : Tracks J h w bs)
    (hx : ∃ r ∈ w.live, r.1 ≤ x ∧ x < r.1 + r.2) (he : exec h fuel w (.store x c) = some w') :
    w'.live = w.live ∧ Tracks J h w' bs := by
  obtain ⟨⟨p, n⟩, hr, hlo, hhi⟩ := hx
  rw [exec, Option.some.injEq] at he
  subst he
  exact ⟨rfl, ht.layout.put hJ (ht.live.mem_iff.mpr hr) hlo hhi, ht.live⟩

theorem Step.tracks {op : Op} (hJ : BackLink J) (hs : Step h w op w') (ht : Tracks J h w bs)
    (ha : HeadSafe h w op)
    (hf : ∀ r, op = .free r → Merges J ∨ ForwardKept h w.pmm.mem (r.1 - 12)) :
    ∃ bs', Tracks J h w' bs' := by
  obtain ⟨hl, fuel, he⟩ := hs
  cases op with
  | alloc size =>
    obtain ⟨bs', a, -, ht', -⟩ := exec_alloc hJ ht hl.2.1 ha he
    exact ⟨bs', ht'⟩
  | free r =>
    obtain ⟨bs', -, ht', -⟩ := exec_free hJ ht hl (hf r rfl) he
    exact ⟨bs', ht'⟩
  | store x c => exact ⟨bs, (exec_store hJ ht hl he).2⟩

/-- Every run with safe heads keeps the block list, up to stale back links. -/
theorem Reach.tracks_loose (hr : Reach h (HeadSafe h) m w) : ∃ bs, Tracks Loose h w bs := by
  refine Run.invariant (I := fun w => ∃ bs, Tracks Loose h w bs) hr ⟨_, tracks_init⟩ ?_
  rintro t op u ⟨bs, ht⟩ hp hs
  exact hs.tracks backLink_loose ht hp fun _ _ => Or.inl merges_loose

theorem LinkSafe.headSafe {op : Op} (hl : LinkSafe h w op) : HeadSafe h w op := by
  cases op <;> first | exact hl | trivial

/-- Every run with safe links keeps the block list with exact back links. -/
theorem Reach.tracks_strict (hr : Reach h (LinkSafe h) m w) : ∃ bs, Tracks Strict h w bs := by
  refine Run.invariant (I := fun w => ∃ bs, Tracks Strict h w bs) hr ⟨_, tracks_init⟩ ?_
  rintro t op u ⟨bs, ht⟩ hp hs
  refine hs.tracks backLink_strict ht hp.headSafe ?_
  rintro r rfl
  exact Or.inr hp

/-- In a run with safe heads every legal call with a safe head returns. -/
theorem Tracks.returns {op : Op} (hJ : BackLink J) (hm : Merges J) (ht : Tracks J h w bs)
    (hl : Legal h w op) (ha : HeadSafe h w op) : ∃ w', Step h w op w' := by
  cases op with
  | alloc size =>
    obtain ⟨r, k, b, hr, hf, hk⟩ := ha
    obtain ⟨fuel, s', bs', he, -, -⟩ := pmmAlloc_outcome hJ ht.layout hr hl.2.1 hf hk
    exact ⟨_, hl, fuel, by rw [exec, he]; rfl⟩
  | free r =>
    obtain ⟨p, n⟩ := r
    obtain ⟨c, rfl, hb⟩ := mem_payloads.mp (ht.live.mem_iff.mpr hl)
    obtain ⟨pre, post, rfl⟩ := List.append_of_mem hb
    obtain ⟨fuel, s', bs', he, -, -⟩ := pmmFree_outcome hJ ht.layout (Or.inl hm)
    exact ⟨_, hl, fuel, by rw [exec, he]; rfl⟩
  | store x c => exact ⟨_, hl, 0, rfl⟩

end Steps

section Replay

variable {h : Area} {w w' : World} {m : Bytes} {size r k fuel b x : ℕ} {op : Op} {ops : List Op}

instance (h : Area) (m : Bytes) (b a size : ℕ) : Decidable (HeadKept h m b a size) :=
  inferInstanceAs (Decidable (_ → _ → _))
instance (h : Area) (m : Bytes) (b a size : ℕ) : Decidable (EndKept h m b a size) :=
  inferInstanceAs (Decidable (_ ∨ _))
instance (h : Area) (m : Bytes) (c : ℕ) : Decidable (ForwardKept h m c) :=
  inferInstanceAs (Decidable (_ → _))
instance (h : Area) (m : Bytes) (c : ℕ) : Decidable (FreeEndKept h m c) :=
  inferInstanceAs (Decidable (_ ∨ _))

def findsHolder (h : Area) (m : Bytes) (size r k : ℕ) : ℕ → ℕ → Bool
  | 0, _ => false
  | fuel + 1, b =>
    b ≠ h.stop && (Holds m size r b (candidate r k b) || findsHolder h m size r k fuel (next m b))

theorem listed_of_findsHolder (hf : findsHolder h m size r k fuel b = true) :
    ∃ c, Listed h m b c ∧ Holds m size r c (candidate r k c) := by
  induction fuel generalizing b with
  | zero => simp [findsHolder] at hf
  | succ fuel ih =>
    rw [findsHolder, Bool.and_eq_true, Bool.or_eq_true] at hf
    obtain ⟨hb, hh | hf⟩ := hf
    · exact ⟨b, .here (by simpa using hb), by simpa using hh⟩
    · obtain ⟨c, hc, hh⟩ := ih hf
      exact ⟨c, .step (by simpa using hb) hc, hh⟩

def legalB (h : Area) (fuel : ℕ) (w : World) : Op → Bool
  | .alloc size => decide (1 ≤ size ∧ size ≤ 2 ^ 30) && (roundUp size).any fun p =>
      findsHolder h w.pmm.mem size p.1 p.2 fuel w.pmm.memoryHead
  | .free r => r ∈ w.live
  | .store x _ => w.live.any fun r => r.1 ≤ x && x < r.1 + r.2

theorem legal_of_legalB (hl : legalB h fuel w op = true) : Legal h w op := by
  cases op with
  | alloc size =>
    rw [legalB, Bool.and_eq_true, decide_eq_true_iff, Option.any_eq_true] at hl
    obtain ⟨⟨h₁, h₂⟩, ⟨r, k⟩, hr, hf⟩ := hl
    obtain ⟨c, hc, hh⟩ := listed_of_findsHolder hf
    exact ⟨h₁, h₂, r, k, c, _, hr, hc, hh⟩
  | free r => simpa [legalB, Legal] using hl
  | store x c => simpa [legalB, Legal] using hl

/-- Decide that a call keeps the list, its back links and the end of the heap. -/
def safeB (h : Area) (fuel : ℕ) (w : World) : Op → Bool
  | .alloc size => (roundUp size).any fun p =>
      (search h w.pmm.mem size p.1 p.2 fuel w.pmm.memoryHead).any fun b =>
        b ≠ 0 && b ≠ h.stop && HeadKept h w.pmm.mem b (candidate p.1 p.2 b) size &&
          EndKept h w.pmm.mem b (candidate p.1 p.2 b) size
  | .free r => ForwardKept h w.pmm.mem (r.1 - 12) && FreeEndKept h w.pmm.mem (r.1 - 12)
  | .store _ _ => true

theorem safe_of_safeB (hs : safeB h fuel w op = true) : LinkSafe h w op ∧ EndSafe h w op := by
  cases op with
  | alloc size =>
    simp only [safeB, Option.any_eq_true, Bool.and_eq_true, decide_eq_true_iff] at hs
    obtain ⟨⟨r, k⟩, hr, b, hb, ⟨⟨h₀, h₁⟩, h₂⟩, h₃⟩ := hs
    have hf := firstFit_of_search hb h₀ h₁
    exact ⟨⟨r, k, b, hr, hf, h₂⟩, ⟨r, k, b, hr, hf, h₂⟩, r, k, b, hr, hf, h₃⟩
  | free r => simpa [safeB, LinkSafe, EndSafe] using hs
  | store x c => exact ⟨trivial, trivial⟩

def execLegal (h : Area) (fuel : ℕ) (w : World) (op : Op) : Option World :=
  if legalB h fuel w op then exec h fuel w op else none

def execSafe (h : Area) (fuel : ℕ) (w : World) (op : Op) : Option World :=
  if safeB h fuel w op then execLegal h fuel w op else none

theorem step_of_execLegal (he : execLegal h fuel w op = some w') : Step h w op w' := by
  rw [execLegal, Option.ite_none_right_eq_some] at he
  exact ⟨legal_of_legalB he.1, fuel, he.2⟩

theorem reach_of_replay (hr : replay (execLegal h fuel) (.init h m) ops = some w) :
    Reach h (fun _ _ => True) m w :=
  Run.of_replay (fun he => ⟨trivial, step_of_execLegal he⟩) hr

theorem reach_safe_of_replay (hr : replay (execSafe h fuel) (.init h m) ops = some w) :
    Reach h (LinkSafe h) m w := by
  refine Run.of_replay (fun he => ?_) hr
  rw [execSafe, Option.ite_none_right_eq_some] at he
  exact ⟨(safe_of_safeB he.1).1, step_of_execLegal he.2⟩

end Replay

end NSOS.Pmm
