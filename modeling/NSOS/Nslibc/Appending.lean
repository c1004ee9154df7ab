import NSOS.Nslibc.Fields
import NSOS.Nslibc.Strings

/-! # Texts that are put together in a buffer

A file of `proc` is put together in a buffer by calls of `sprintf`, which print
behind the text that is there already. The buffer holds the texts one behind the
other, as long as there is room for them.
-/

namespace NSOS.Nslibc

open Basis Bytes

/-- `sprintf(buf + strlen(buf), fmt, ..)`. -/
def sprintfEnd (fuel buf fmt : ℕ) (args : List UInt32) (m : Bytes) : Option Bytes := do
  let n ← strlen fuel m buf
  let (_, m) ← sprintf fuel m (buf + n) fmt args
  return m

/-- Two regions of memory that do not meet. -/
def Clear (a k b n : ℕ) : Prop := a + k ≤ b ∨ b + n ≤ a

instance {a k b n : ℕ} : Decidable (Clear a k b n) :=
  inferInstanceAs (Decidable (a + k ≤ b ∨ b + n ≤ a))

/-- A text in memory, apart from a buffer. -/
structure Sees (m : Bytes) (buf size x : ℕ) (l : List UInt8) : Prop where
  text : m.IsText x l
  short : l.length < 2 ^ 31
  clear : Clear x (l.length + 1) buf size

/-- A memory whose buffer has been filled with a text. -/
structure Filled (m : Bytes) (buf size : ℕ) (l : List UInt8) (m' : Bytes) : Prop where
  text : m'.IsText buf l
  fits : l.length < size
  kept : ∀ x, ¬ (buf ≤ x ∧ x < buf + size) → m' x = m x

variable {m m' : Bytes} {a b k n buf size x fmt : ℕ} {l f : List UInt8} {args : List UInt32}
  {str : ℕ → List UInt8} {r : Printed}

theorem Sees.congr (h : Sees m buf size x l)
    (hkept : ∀ y, ¬ (buf ≤ y ∧ y < buf + size) → m' y = m y) : Sees m' buf size x l where
  text := by
    refine h.text.congr fun y h₁ h₂ => hkept y fun ⟨h₃, h₄⟩ => ?_
    rcases h.clear with hout | hout <;> omega
  short := h.short
  clear := h.clear

theorem Apart.behind (hf : Sees m buf size fmt f) (hcounts : r.counts = [])
    (hreads : ∀ s ∈ r.reads, Sees m buf size s (str s)) (hlen : k + r.text.length < size) :
    Apart m (buf + k) fmt (fmt + f.length) str r := by
  have hout {x : ℕ} {l : List UInt8} (h : Sees m buf size x l) :
      ∀ y, x ≤ y → y ≤ x + l.length → ¬ r.Touches (buf + k) y := by
    rintro y h₁ h₂ (⟨h₃, h₄⟩ | ⟨c, hc, -⟩)
    · rcases h.clear with hclear | hclear <;> omega
    · rw [hcounts] at hc
      cases hc
  constructor
  · exact hout hf
  · intro s hs
    exact ⟨(hreads s hs).text, (hreads s hs).short, hout (hreads s hs)⟩
  · intro c hc
    rw [hcounts] at hc
    cases hc

theorem Filled.sprintf (hl : Filled m buf size l m') (hf : Sees m buf size fmt f)
    (hr : render str (pieces f) (.start args) = some r) (hcounts : r.counts = [])
    (hreads : ∀ s ∈ r.reads, Sees m buf size s (str s)) (hm : ∀ x ∈ pieces f, x.Modest)
    (hzero : 0 ∉ r.text) (hlen : l.length + r.text.length < size) :
    ∃ m'', Filled m buf size (l ++ r.text) m'' ∧ ∃ n, ∀ fuel, n ≤ fuel →
      Nslibc.sprintf fuel m' (buf + l.length) fmt args = some (r.text.length, m'') := by
  have hapart := Apart.behind (hf.congr hl.kept) hcounts
    (fun s hs => (hreads s hs).congr hl.kept) hlen
  obtain ⟨n, hrun⟩ := vsprintf_eq (hf.congr hl.kept).text hr hapart hm
  rw [hcounts] at hrun
  refine ⟨m'.write (buf + l.length) (r.text ++ [0]), ⟨⟨?_, ?_⟩, ?_, fun x hx => ?_⟩, n, hrun⟩
  · have hbefore := (holds_concat.mp hl.text.holds).1
    rw [List.append_assoc]
    exact holds_append.mpr ⟨hbefore.write (.inr le_rfl), holds_write⟩
  · exact List.not_mem_append hl.text.nonzero hzero
  · rwa [List.length_append]
  · refine (write_apply_of_outside ?_).trans (hl.kept x hx)
    rw [List.length_append, List.length_singleton]
    omega

theorem modest_plain (hf : byte '%' ∉ f) : ∀ x ∈ pieces f, x.Modest := by
  rw [pieces_plain hf]
  rintro x hx
  obtain ⟨c, -, rfl⟩ := List.mem_map.mp hx
  trivial

theorem Filled.sprintf_plain (hm : Filled m buf size [] m') (hf : Sees m buf size fmt f)
    (hp : byte '%' ∉ f) (hlen : f.length < size) :
    ∃ m'', Filled m buf size f m'' ∧ ∃ n, ∀ fuel, n ≤ fuel →
      Nslibc.sprintf fuel m' buf fmt [] = some (f.length, m'') := by
  have hrender : render (fun _ => []) (pieces f) (.start []) = some ⟨f, [], [], []⟩ :=
    render_plain hp
  exact hm.sprintf hf hrender rfl (by simp) (modest_plain hp) hf.text.nonzero (by simpa using hlen)

theorem Filled.sprintfEnd (hl : Filled m buf size l m') (hf : Sees m buf size fmt f)
    (hr : render str (pieces f) (.start args) = some r) (hcounts : r.counts = [])
    (hreads : ∀ s ∈ r.reads, Sees m buf size s (str s)) (hm : ∀ x ∈ pieces f, x.Modest)
    (hzero : 0 ∉ r.text) (hlen : l.length + r.text.length < size) :
    ∃ m'', Filled m buf size (l ++ r.text) m'' ∧ ∃ n, ∀ fuel, n ≤ fuel →
      Nslibc.sprintfEnd fuel buf fmt args m' = some m'' := by
  obtain ⟨m'', hfilled, n, hrun⟩ := hl.sprintf hf hr hcounts hreads hm hzero hlen
  refine ⟨m'', hfilled, max n (l.length + 1), fun fuel hfuel => ?_⟩
  rw [Nslibc.sprintfEnd, strlen_eq hl.text, if_pos (by omega)]
  simp only [Option.bind_eq_bind, Option.bind_some, hrun fuel (le_of_max_le_left hfuel)]
  rfl

theorem filled_nil (hsize : 0 < size) : Filled m buf size [] (m.put buf 0) where
  text := ⟨⟨put_self 0, trivial⟩, List.not_mem_nil⟩
  fits := hsize
  kept x hx := put_apply_of_ne (by omega)

end NSOS.Nslibc
