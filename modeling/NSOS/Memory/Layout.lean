import NSOS.Memory.Allocator
import Mathlib.Data.List.Chain
import Mathlib.Tactic.Common

/-! # Block layouts

A layout lists the blocks of the heap in address order, with the payload sizes
of the blocks in use. The memory represents a layout when its headers link
these blocks in both directions. After a free, the back link of a block may
point into the free block in front of it. It then leads back to that block
through headers that were merged away and that nobody has touched since.
-/

namespace NSOS.Pmm

open Basis

/-- A block and the size of its payload, when it is in use. -/
structure Blk where
  addr : ℕ
  size : Option ℕ
  deriving DecidableEq

namespace Blk

def fill (b : Blk) : ℕ := b.size.getD 0

def flag (b : Blk) : UInt8 := if b.size.isSome then 1 else 0

def payload (b : Blk) : Option (ℕ × ℕ) := b.size.map fun n => (b.addr + 12, n)

@[simp] theorem fill_some (a n : ℕ) : fill ⟨a, some n⟩ = n := rfl
@[simp] theorem fill_none (a : ℕ) : fill ⟨a, none⟩ = 0 := rfl
@[simp] theorem flag_some (a n : ℕ) : flag ⟨a, some n⟩ = 1 := rfl
@[simp] theorem flag_none (a : ℕ) : flag ⟨a, none⟩ = 0 := rfl
theorem flag_ne_zero {b : Blk} (h : b.size.isSome) : b.flag ≠ 0 := by simp [flag, h]
@[simp] theorem payload_some (a n : ℕ) : payload ⟨a, some n⟩ = some (a + 12, n) := rfl
@[simp] theorem payload_none (a : ℕ) : payload ⟨a, none⟩ = none := rfl

end Blk

def headAddr : List Blk → ℕ → ℕ
  | [], e => e
  | b :: _, _ => b.addr

@[simp] theorem headAddr_nil (e : ℕ) : headAddr [] e = e := rfl
@[simp] theorem headAddr_cons (b : Blk) (bs : List Blk) (e : ℕ) :
    headAddr (b :: bs) e = b.addr := rfl

theorem headAddr_append (bs cs : List Blk) (e : ℕ) :
    headAddr (bs ++ cs) e = headAddr bs (headAddr cs e) := by cases bs <;> rfl

def payloads (bs : List Blk) : List (ℕ × ℕ) := bs.filterMap Blk.payload

@[simp] theorem payloads_nil : payloads [] = [] := rfl
@[simp] theorem payloads_cons_some (a n : ℕ) (bs : List Blk) :
    payloads (⟨a, some n⟩ :: bs) = (a + 12, n) :: payloads bs := rfl
@[simp] theorem payloads_cons_none (a : ℕ) (bs : List Blk) :
    payloads (⟨a, none⟩ :: bs) = payloads bs := rfl
@[simp] theorem payloads_append (bs cs : List Blk) :
    payloads (bs ++ cs) = payloads bs ++ payloads cs := List.filterMap_append

theorem mem_payloads {bs : List Blk} {p n : ℕ} :
    (p, n) ∈ payloads bs ↔ ∃ a, p = a + 12 ∧ ⟨a, some n⟩ ∈ bs := by
  unfold payloads Blk.payload
  simp only [List.mem_filterMap, Option.map_eq_some_iff, Prod.mk.injEq]
  constructor
  · rintro ⟨⟨a, _⟩, hb, n, rfl, rfl, rfl⟩
    exact ⟨a, rfl, hb⟩
  · rintro ⟨a, rfl, hb⟩
    exact ⟨_, hb, n, rfl, rfl, rfl⟩

section Same

variable {m m' m'' : Bytes} {lo hi lo' hi' x : ℕ}

/-- Two memories with the same bytes from `lo` up to `hi`. -/
def Same (m m' : Bytes) (lo hi : ℕ) : Prop := ∀ x, lo ≤ x → x < hi → m' x = m x

theorem Same.mono (h : Same m m' lo hi) (hl : lo ≤ lo') (hh : hi' ≤ hi) : Same m m' lo' hi' :=
  fun x h₁ h₂ => h x (hl.trans h₁) (h₂.trans_le hh)

theorem Same.trans (h : Same m m' lo hi) (h' : Same m' m'' lo hi) : Same m m'' lo hi :=
  fun x h₁ h₂ => (h' x h₁ h₂).trans (h x h₁ h₂)

theorem Same.load (h : Same m m' lo hi) (hl : lo ≤ x) (hh : x + 4 ≤ hi) :
    m'.load x = m.load x :=
  Bytes.load_congr fun y h₁ h₂ => h y (hl.trans h₁) (by omega)

theorem Same.front (h : Same m m' lo hi) (hl : lo ≤ x) (hh : x + 4 ≤ hi) :
    front m' x = front m x := h.load hl hh

theorem Same.inuse (h : Same m m' lo hi) (hl : lo ≤ x + 4) (hh : x + 5 ≤ hi) :
    inuse m' x = inuse m x := h _ hl (by omega)

theorem Same.next (h : Same m m' lo hi) (hl : lo ≤ x + 8) (hh : x + 12 ≤ hi) :
    next m' x = next m x := h.load hl (by omega)

end Same

/-- A way back from an address to a block through headers merged into it. -/
inductive Trail (m : Bytes) (b : ℕ) : ℕ → Prop where
  | here : Trail m b b
  | back {x : ℕ} : front m x + 12 ≤ x → inuse m x = 0 → Trail m b (front m x) → Trail m b x

theorem Trail.le {m : Bytes} {b x : ℕ} (h : Trail m b x) : b ≤ x := by
  induction h with
  | here => exact le_rfl
  | back hx _ _ ih => omega

theorem Trail.congr {m m' : Bytes} {b x : ℕ} (h : Trail m b x)
    (hs : Same m m' (b + 12) (x + 8)) : Trail m' b x := by
  induction h with
  | here => exact .here
  | @back x hx hu ht ih =>
    have hb := ht.le
    have hf := hs.front (x := x) (by omega) (by omega)
    exact .back (by rwa [hf]) (by rwa [hs.inuse (by omega) (by omega)])
      (hf ▸ ih (hs.mono le_rfl (by omega)))

theorem Trail.trans {m : Bytes} {b c x : ℕ} (h : Trail m c x) (ht : Trail m b c) :
    Trail m b x := by
  induction h with
  | here => exact ht
  | back hx hu _ ih => exact .back hx hu ih

/-- What the back link of the block at `c` may say about the block `b` in front of it. -/
structure BackLink (J : Bytes → Blk → ℕ → Prop) : Prop where
  congr : ∀ {m m' b c}, J m b c → Same m m' (b.addr + 12) (c + 4) → b.addr + 12 ≤ c → J m' b c
  of_front : ∀ {m b c}, front m c = b.addr → b.addr + 12 ≤ c → J m b c
  used : ∀ {m a n c}, J m ⟨a, some n⟩ c → front m c = a
  free : ∀ {m a c}, J m ⟨a, none⟩ c → a + 12 ≤ c → front m c + 12 ≤ c ∧ Trail m a (front m c)

def Strict (m : Bytes) (b : Blk) (c : ℕ) : Prop := front m c = b.addr

/-- The back link is the block in front, or leads back to it when that block is free. -/
def Loose (m : Bytes) (b : Blk) (c : ℕ) : Prop :=
  front m c + 12 ≤ c ∧
    if b.size.isSome then front m c = b.addr else Trail m b.addr (front m c)

theorem backLink_strict : BackLink Strict where
  congr h hs hb := (hs.front hb le_rfl).trans h
  of_front h _ := h
  used h := h
  free h hb := ⟨by rwa [show front _ _ = _ from h], (show front _ _ = _ from h) ▸ .here⟩

theorem backLink_loose : BackLink Loose where
  congr := by
    rintro m m' b c ⟨h₁, h₂⟩ hs hb
    have hf := hs.front (x := c) hb le_rfl
    refine ⟨by rwa [hf], ?_⟩
    split at h₂
    · rw [if_pos ‹_›, hf, h₂]
    · rw [if_neg ‹_›, hf]
      exact h₂.congr (hs.mono le_rfl (by omega))
  of_front h hb := ⟨by rwa [h], by split <;> [exact h; exact h ▸ .here]⟩
  used h := h.2
  free h _ := h

/-- The header of a block that ends at `nx`. -/
structure Header (m : Bytes) (b : Blk) (nx : ℕ) : Prop where
  flag : inuse m b.addr = b.flag
  next : next m b.addr = nx
  fits : b.addr + 12 + b.fill ≤ nx

theorem Header.congr {m m' : Bytes} {b : Blk} {nx : ℕ} (h : Header m b nx)
    (hs : Same m m' (b.addr + 4) (b.addr + 12)) : Header m' b nx :=
  ⟨by rw [hs.inuse le_rfl (by omega), h.flag], by rw [hs.next (by omega) le_rfl, h.next], h.fits⟩

/-- The headers of a segment of blocks that ends at `e`. -/
def Links (J : Bytes → Blk → ℕ → Prop) (m : Bytes) (e : ℕ) : List Blk → Prop
  | [] => True
  | b :: bs => Header m b (headAddr bs e) ∧ (∀ c ∈ bs.head?, J m b c.addr) ∧ Links J m e bs

section Links

variable {J : Bytes → Blk → ℕ → Prop} {m m' : Bytes} {b : Blk}
  {bs pre old mid post : List Blk} {e p n : ℕ}

theorem links_singleton : Links J m e [b] ↔ Header m b e := by simp [Links]

theorem links_cons_cons {c : Blk} : Links J m e (b :: c :: bs) ↔
    Header m b c.addr ∧ J m b c.addr ∧ Links J m e (c :: bs) := by simp [Links]

theorem links_append : Links J m e (pre ++ post) ↔
    Links J m (headAddr post e) pre ∧
      (∀ b ∈ pre.getLast?, ∀ c ∈ post.head?, J m b c.addr) ∧ Links J m e post := by
  induction pre with
  | nil => simp [Links]
  | cons b pre ih =>
    simp only [List.cons_append, Links, headAddr_append, ih]
    cases pre with
    | nil => simp; tauto
    | cons c pre => simp [and_assoc]

theorem Links.headAddr_le (h : Links J m e bs) : headAddr bs e ≤ e := by
  induction bs with
  | nil => exact le_rfl
  | cons b bs ih =>
    have := h.1.fits
    have := ih h.2.2
    simp only [headAddr_cons]; omega

theorem Links.mem_le (h : Links J m e bs) (hb : b ∈ bs) :
    headAddr bs e ≤ b.addr ∧ b.addr + 12 + b.fill ≤ e := by
  induction bs with
  | nil => simp at hb
  | cons c bs ih =>
    have hc := h.1.fits
    have hl := h.2.2.headAddr_le
    rcases List.mem_cons.mp hb with rfl | hb
    · exact ⟨le_rfl, hc.trans hl⟩
    · have := ih h.2.2 hb
      simp only [headAddr_cons]; omega

theorem Links.flag_of_mem (h : Links J m e bs) (hb : b ∈ bs) : inuse m b.addr = b.flag := by
  induction bs with
  | nil => simp at hb
  | cons c bs ih =>
    rcases List.mem_cons.mp hb with rfl | hb
    · exact h.1.flag
    · exact ih h.2.2 hb

theorem Links.payload_le (h : Links J m e bs) (hp : (p, n) ∈ payloads bs) :
    headAddr bs e + 12 ≤ p ∧ p + n ≤ e := by
  obtain ⟨a, rfl, hb⟩ := mem_payloads.mp hp
  have := h.mem_le hb
  simp only [Blk.fill_some] at this
  omega

theorem Links.congr (hJ : BackLink J) (h : Links J m e bs)
    (hs : Same m m' (headAddr bs e + 4) e) : Links J m' e bs := by
  induction bs with
  | nil => trivial
  | cons b bs ih =>
    obtain ⟨hb, hj, hl⟩ := h
    have hfit := hb.fits
    have hle := hl.headAddr_le
    simp only [headAddr_cons] at hs
    refine ⟨hb.congr (hs.mono le_rfl (by omega)), fun c hc => ?_, ih hl (hs.mono (by omega) le_rfl)⟩
    obtain ⟨bs', rfl⟩ : ∃ bs', bs = c :: bs' := by
      cases bs <;> simp at hc
      exact ⟨_, by rw [hc]⟩
    have hc' := (hl.mem_le (b := c) (by simp)).2
    simp only [headAddr_cons] at hfit
    exact hJ.congr (hj c (by simp)) (hs.mono (by omega) (by omega)) (by omega)

theorem Links.payloads_apart (h : Links J m e bs) :
    (payloads bs).Pairwise fun r r' => r.1 + r.2 ≤ r'.1 := by
  induction bs with
  | nil => simp
  | cons b bs ih =>
    obtain ⟨a, n | n⟩ := b
    · exact ih h.2.2
    · refine List.pairwise_cons.mpr ⟨fun ⟨p, n'⟩ hp => ?_, ih h.2.2⟩
      have h₁ := h.1.fits
      have h₂ := h.2.2.payload_le hp
      simp only [Blk.fill_some] at h₁ ⊢
      omega

theorem Links.put (hJ : BackLink J) (h : Links J m e bs) {x : ℕ} {c : UInt8}
    (hp : (p, n) ∈ payloads bs) (hl : p ≤ x) (hu : x < p + n) : Links J (m.put x c) e bs := by
  have hsame : ∀ lo hi, hi ≤ x ∨ x < lo → Same m (m.put x c) lo hi := fun lo hi _ y _ _ =>
    Bytes.put_apply_of_ne (by omega)
  induction bs with
  | nil => simp at hp
  | cons b bs ih =>
    obtain ⟨hb, hj, ht⟩ := h
    have hfit := hb.fits
    have hbelow : p = b.addr + 12 ∧ b.size = some n ∨ (p, n) ∈ payloads bs := by
      obtain ⟨a, n' | n'⟩ := b
      · exact Or.inr hp
      · simp only [payloads_cons_some, List.mem_cons, Prod.mk.injEq] at hp
        rcases hp with ⟨rfl, rfl⟩ | hp
        · exact Or.inl ⟨rfl, rfl⟩
        · exact Or.inr hp
    rcases hbelow with ⟨rfl, hn⟩ | hp
    · obtain ⟨a, _ | k⟩ := b <;> simp only [Option.some.injEq, reduceCtorEq] at hn
      subst hn
      simp only [Blk.fill_some] at hfit hl hu
      refine ⟨hb.congr (hsame _ _ (Or.inl hl)), fun d hd => ?_,
        ht.congr hJ (hsame _ _ (Or.inr (by omega)))⟩
      obtain ⟨ds, rfl⟩ : ∃ ds, bs = d :: ds := by
        cases bs <;> simp at hd
        exact ⟨_, by rw [hd]⟩
      simp only [headAddr_cons] at hfit
      have hf := (hsame d.addr (d.addr + 4) (by omega)).front le_rfl le_rfl
      exact hJ.of_front (hf.trans (hJ.used (hj d rfl))) (by simp only; omega)
    · have hle := ht.payload_le hp
      refine ⟨hb.congr (hsame _ _ (Or.inl (by omega))), fun d hd => ?_, ih ht hp⟩
      obtain ⟨ds, rfl⟩ : ∃ ds, bs = d :: ds := by
        cases bs <;> simp at hd
        exact ⟨_, by rw [hd]⟩
      simp only [headAddr_cons] at hfit hle
      exact hJ.congr (hj d rfl) (hsame _ _ (Or.inl (by omega))) (by omega)

theorem Links.splice_head (hJ : BackLink J) (h : Links J m e post)
    (hhigh : Same m m' (headAddr post e + 4) e) (hmid : Links J m' (headAddr post e) mid)
    (hlast : ∀ l ∈ mid.getLast?, ∀ c ∈ post.head?, J m' l c.addr) :
    Links J m' e (mid ++ post) :=
  links_append.mpr ⟨hmid, hlast, h.congr hJ hhigh⟩

/-- Replace some blocks inside a segment by others that start at the same address. -/
theorem Links.splice (hJ : BackLink J) (h : Links J m e (pre ++ (old ++ post)))
    (ho : old ≠ []) (hm : mid ≠ [])
    (hh : headAddr mid (headAddr post e) = headAddr old (headAddr post e))
    (hlow : Same m m' 0 (headAddr old (headAddr post e) + 4))
    (hhigh : Same m m' (headAddr post e + 4) e) (hmid : Links J m' (headAddr post e) mid)
    (hlast : ∀ l ∈ mid.getLast?, ∀ c ∈ post.head?, J m' l c.addr) :
    Links J m' e (pre ++ (mid ++ post)) := by
  obtain ⟨hpre, hj, hl⟩ := links_append.mp h
  obtain ⟨_, _, hpost⟩ := links_append.mp hl
  rw [headAddr_append] at hpre
  refine links_append.mpr ⟨?_, fun b hb c hc => ?_, hpost.splice_head hJ hhigh hmid hlast⟩
  · rw [headAddr_append, hh]
    exact hpre.congr hJ (hlow.mono (by omega) (by omega))
  · obtain ⟨c, mid, rfl⟩ := List.exists_cons_of_ne_nil hm
    obtain ⟨d, old, rfl⟩ := List.exists_cons_of_ne_nil ho
    simp only [headAddr_cons, List.cons_append, List.head?_cons, Option.mem_some_iff] at hh hc hj
    subst hc
    have hb' := (hpre.mem_le (List.mem_of_getLast? hb)).2
    simp only [headAddr_cons] at hb' hlow
    rw [hh]
    exact hJ.congr (hj b hb d rfl) (hlow.mono (by omega) (by omega)) (by omega)

end Links

abbrev Alternating (bs : List Blk) : Prop :=
  bs.IsChain fun b c => b.size.isSome ∨ c.size.isSome

theorem Alternating.splice {pre old mid post : List Blk} (h : Alternating (pre ++ (old ++ post)))
    (hm : Alternating mid) (hne : mid ≠ [])
    (hfirst : ∀ x ∈ pre.getLast?, ∀ y ∈ mid.head?, x.size.isSome ∨ y.size.isSome)
    (hlast : ∀ x ∈ mid.getLast?, ∀ y ∈ post.head?, x.size.isSome ∨ y.size.isSome) :
    Alternating (pre ++ (mid ++ post)) := by
  obtain ⟨hpre, hop, -⟩ := List.isChain_append.mp h
  obtain ⟨-, hpost, -⟩ := List.isChain_append.mp hop
  obtain ⟨c, mid, rfl⟩ := List.exists_cons_of_ne_nil hne
  exact List.isChain_append.mpr ⟨hpre, List.isChain_append.mpr ⟨hm, hpost, hlast⟩, hfirst⟩

/-- The headers in memory form a list of blocks that covers the heap. -/
structure Chained (J : Bytes → Blk → ℕ → Prop) (h : Area) (s : State) (bs : List Blk) : Prop where
  nonempty : bs ≠ []
  head : s.memoryHead = headAddr bs h.stop
  links : Links J s.mem h.stop bs
  first : front s.mem s.memoryHead = 0
  start : h.start ≤ s.memoryHead
  free_head : ∀ b ∈ bs.head?, b.size = none → b.addr = h.start

/-- The heap state represents a list of blocks. -/
structure Layout (J : Bytes → Blk → ℕ → Prop) (h : Area) (s : State) (bs : List Blk) : Prop
    extends Chained J h s bs where
  alternating : Alternating bs

section Layout

variable {J : Bytes → Blk → ℕ → Prop} {h : Area} {s : State} {m' : Bytes}
  {bs pre old mid post : List Blk}

theorem Chained.start_le {b : Blk} (hl : Chained J h s bs) (hb : b ∈ bs) : h.start ≤ b.addr :=
  (hl.start.trans hl.head.le).trans (hl.links.mem_le hb).1

theorem Chained.splice (hJ : BackLink J) (hl : Chained J h s (pre ++ (old ++ post)))
    (ho : old ≠ []) (hm : mid ≠ [])
    (hh : headAddr mid (headAddr post h.stop) = headAddr old (headAddr post h.stop))
    (hlow : Same s.mem m' 0 (headAddr old (headAddr post h.stop) + 4))
    (hhigh : Same s.mem m' (headAddr post h.stop + 4) h.stop)
    (hmid : Links J m' (headAddr post h.stop) mid)
    (hlast : ∀ l ∈ mid.getLast?, ∀ c ∈ post.head?, J m' l c.addr)
    (hfree : pre ≠ [] ∨ mid.head? = old.head?) :
    Chained J h { s with mem := m' } (pre ++ (mid ++ post)) := by
  have hhd : headAddr (pre ++ (mid ++ post)) h.stop = s.memoryHead := by
    rw [hl.head, headAddr_append, headAddr_append, headAddr_append, headAddr_append, hh]
  have hle : s.memoryHead ≤ headAddr old (headAddr post h.stop) := by
    have := (links_append.mp hl.links).1.headAddr_le
    rw [hl.head, headAddr_append, headAddr_append]
    rwa [headAddr_append] at this
  refine ⟨by simp [hm], hhd.symm, hl.links.splice hJ ho hm hh hlow hhigh hmid hlast, ?_, hl.start,
    fun b hb hf => ?_⟩
  · exact (hlow.front (Nat.zero_le _) (Nat.add_le_add_right hle 4)).trans hl.first
  · refine hl.free_head b ?_ hf
    rcases hfree with hp | hp
    · obtain ⟨c, pre, rfl⟩ := List.exists_cons_of_ne_nil hp
      exact hb
    · cases pre with
      | cons c pre => exact hb
      | nil =>
        obtain ⟨c, mid, rfl⟩ := List.exists_cons_of_ne_nil hm
        obtain ⟨d, old, rfl⟩ := List.exists_cons_of_ne_nil ho
        simp only [List.head?_cons, Option.some.injEq] at hp
        simpa [hp] using hb

theorem Layout.put (hJ : BackLink J) (hl : Layout J h s bs) {p n x : ℕ} {c : UInt8}
    (hp : (p, n) ∈ payloads bs) (hlo : p ≤ x) (hhi : x < p + n) :
    Layout J h { s with mem := s.mem.put x c } bs := by
  have hle := (hl.links.payload_le hp).1
  rw [← hl.head] at hle
  refine ⟨⟨hl.nonempty, hl.head, hl.links.put hJ hp hlo hhi, ?_, hl.start, hl.free_head⟩,
    hl.alternating⟩
  exact (Bytes.load_put_of_outside (by simp only; omega)).trans hl.first

/-- No byte of these regions changes, and none outside the heap except the word behind it. -/
structure Framed (h : Area) (m m' : Bytes) (rs : List (ℕ × ℕ)) : Prop where
  kept : ∀ r ∈ rs, Same m m' r.1 (r.1 + r.2)
  below : Same m m' 0 h.start
  above : ∀ hi, Same m m' (h.stop + 4) hi

/-- A change to the memory of some blocks that turns them into the blocks `mid`. -/
structure Placed (J : Bytes → Blk → ℕ → Prop) (h : Area) (m m' : Bytes) (mid : List Blk)
    (lo nx : ℕ) : Prop where
  links : Links J m' nx mid
  back : nx ≠ h.stop → ∀ l ∈ mid.getLast?, front m' nx = l.addr
  payload : ∀ r ∈ payloads mid, Same m m' r.1 (r.1 + r.2)
  low : Same m m' 0 lo
  high : ∀ hi, Same m m' (nx + 4) hi

variable {lo : ℕ}

theorem Placed.joint (hJ : BackLink J) (hp : Placed J h s.mem m' mid lo (headAddr post h.stop))
    (hl : Links J s.mem h.stop post) :
    ∀ l ∈ mid.getLast?, ∀ c ∈ post.head?, J m' l c.addr := by
  intro l hlm c hc
  obtain ⟨post, rfl⟩ : ∃ post', post = c :: post' := by
    cases post <;> simp at hc
    exact ⟨_, by rw [hc]⟩
  have hc' := (hl.mem_le (b := c) (by simp)).2
  have hl' := (hp.links.mem_le (List.mem_of_getLast? hlm)).2
  simp only [headAddr_cons] at hl' hp
  exact hJ.of_front (hp.back (by omega) l hlm) (by omega)

theorem Placed.framed (hp : Placed J h s.mem m' mid lo (headAddr post h.stop))
    (hlo : h.start ≤ lo) (hpre : ∀ r ∈ payloads pre, r.1 + r.2 ≤ lo)
    (hl : Links J s.mem h.stop post) : Framed h s.mem m' (payloads (pre ++ (mid ++ post))) := by
  refine ⟨fun r hr => ?_, hp.low.mono le_rfl hlo, fun hi => (hp.high hi).mono ?_ le_rfl⟩
  · simp only [payloads_append, List.mem_append] at hr
    rcases hr with hr | hr | hr
    · exact hp.low.mono (Nat.zero_le _) (hpre r hr)
    · exact hp.payload r hr
    · have := hl.payload_le (p := r.1) (n := r.2) hr
      exact (hp.high (r.1 + r.2)).mono (by omega) le_rfl
  · exact Nat.add_le_add_right hl.headAddr_le 4

/-- A change that spares the end of the heap when it borders on it always spares it. -/
theorem Placed.same_stop (hp : Placed J h s.mem m' mid lo (headAddr post h.stop))
    (hl : Links J s.mem h.stop post)
    (hs : headAddr post h.stop = h.stop → ∀ hi, Same s.mem m' (headAddr post h.stop) hi) (hi : ℕ) :
    Same s.mem m' h.stop hi := by
  by_cases he : headAddr post h.stop = h.stop
  · simpa only [he] using hs he hi
  · cases post with
    | nil => exact absurd rfl he
    | cons c post =>
      have := (hl.mem_le (b := c) (by simp)).2
      exact (hp.high hi).mono (by simp only [headAddr_cons]; omega) le_rfl

theorem Chained.placed (hJ : BackLink J) (hl : Chained J h s (pre ++ (old ++ post)))
    (hp : Placed J h s.mem m' mid (headAddr old (headAddr post h.stop) + 4)
      (headAddr post h.stop)) (ho : old ≠ []) (hm : mid ≠ [])
    (hh : headAddr mid (headAddr post h.stop) = headAddr old (headAddr post h.stop))
    (hfree : pre ≠ [] ∨ mid.head? = old.head?) :
    Chained J h { s with mem := m' } (pre ++ (mid ++ post)) ∧
      Framed h s.mem m' (payloads (pre ++ (mid ++ post))) := by
  obtain ⟨hpre, -, hpost⟩ := links_append.mp hl.links
  obtain ⟨-, -, hpost⟩ := links_append.mp hpost
  have hle := hpre.headAddr_le
  rw [← headAddr_append, ← hl.head, headAddr_append] at hle
  refine ⟨hl.splice hJ ho hm hh hp.low (hp.high _) hp.links (hp.joint hJ hpost) hfree,
    hp.framed ?_ (fun r hr => ?_) hpost⟩
  · have := hl.start
    omega
  · have := (hpre.payload_le (p := r.1) (n := r.2) hr).2
    rw [headAddr_append] at this
    omega

theorem Chained.placed_head (hJ : BackLink J) {b : Blk} {a : ℕ}
    (hl : Chained J h s (old ++ post)) (hp : Placed J h s.mem m' mid lo (headAddr post h.stop))
    (hm : mid.head? = some b) (hba : b.addr = a) (hlo : h.start ≤ lo) (hb : h.start ≤ a)
    (hfree : b.size = none → a = h.start) (hfront : front m' a = 0) :
    Chained J h { mem := m', memoryHead := a } (mid ++ post) ∧
      Framed h s.mem m' (payloads (mid ++ post)) := by
  obtain ⟨-, -, hpost⟩ := links_append.mp hl.links
  obtain ⟨mid, rfl⟩ : ∃ mid', mid = b :: mid' := by
    cases mid <;> simp at hm
    exact ⟨_, by rw [hm]⟩
  refine ⟨⟨by simp, hba.symm, hpost.splice_head hJ (hp.high _) hp.links (hp.joint hJ hpost),
    hfront, hb, fun c hc hf => ?_⟩,
    hp.framed hlo (show ∀ r ∈ payloads [], r.1 + r.2 ≤ lo by simp) hpost⟩
  simp only [List.cons_append, List.head?_cons, Option.mem_some_iff] at hc
  subst hc
  rw [hba, hfree hf]

/-- What a call does to the layout: the blocks it leaves, and the bytes it does not touch. -/
structure Outcome (J : Bytes → Blk → ℕ → Prop) (h : Area) (s s' : State) (safe : Prop)
    (bs : List Blk) : Prop where
  layout : Layout J h s' bs
  framed : Framed h s.mem s'.mem (payloads bs)
  stop : safe → ∀ hi, Same s.mem s'.mem h.stop hi

theorem Layout.at_free {b : ℕ} (hJ : BackLink J) (hl : Layout J h s (pre ++ (⟨b, none⟩ :: post))) :
    Header s.mem ⟨b, none⟩ (headAddr post h.stop) ∧ Links J s.mem h.stop post ∧
      (pre = [] → b = h.start ∧ front s.mem b = 0) ∧
      (∀ p ∈ pre.getLast?, ∃ a n, p = ⟨a, some n⟩ ∧ front s.mem b = a ∧ a + 12 + n ≤ b) ∧
      (∀ c ∈ post.head?, c.size.isSome) := by
  obtain ⟨hpre, hj, hhd, hj', hpost⟩ := links_append.mp hl.links
  obtain ⟨-, halt, hlast⟩ := List.isChain_append.mp hl.alternating
  refine ⟨hhd, hpost, fun hp => ?_, fun ⟨a, sz⟩ hp => ?_, fun c hc => ?_⟩
  · subst hp
    have hf := hl.first
    rw [hl.head] at hf
    exact ⟨hl.free_head _ rfl rfl, hf⟩
  · have hu := hlast _ hp ⟨b, none⟩ rfl
    simp only [Option.isSome_none, Bool.false_eq_true, or_false] at hu
    obtain ⟨n, rfl⟩ := Option.isSome_iff_exists.mp hu
    have hm := (hpre.mem_le (List.mem_of_getLast? hp)).2
    exact ⟨a, n, rfl, hJ.used (hj _ hp _ rfl), hm⟩
  · have := (List.isChain_cons.mp halt).1 c hc
    simpa using this

theorem Outcome.of_placed (hJ : BackLink J) {safe : Prop}
    (hl : Chained J h s (pre ++ (old ++ post)))
    (hp : Placed J h s.mem m' mid (headAddr old (headAddr post h.stop) + 4)
      (headAddr post h.stop)) (ho : old ≠ []) (hm : mid ≠ [])
    (hh : headAddr mid (headAddr post h.stop) = headAddr old (headAddr post h.stop))
    (hstop : safe → headAddr post h.stop = h.stop → ∀ hi, Same s.mem m' (headAddr post h.stop) hi)
    (hfree : pre ≠ [] ∨ mid.head? = old.head?)
    (halt : Alternating (pre ++ (mid ++ post))) :
    Outcome J h s { s with mem := m' } safe (pre ++ (mid ++ post)) := by
  obtain ⟨h₁, h₂⟩ := hl.placed hJ hp ho hm hh hfree
  have hpost := (links_append.mp (links_append.mp hl.links).2.2).2.2
  exact ⟨⟨h₁, halt⟩, h₂, fun hs hi => hp.same_stop hpost (hstop hs) hi⟩

end Layout

end NSOS.Pmm
