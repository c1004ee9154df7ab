import Mathlib.Order.Nat
import NSOS.Console.Printing

/-! # What the drawing loops do

Each drawing routine changes the cells of the device that it is meant to change
and no other cell. The loops over the text keep every variable they do not
assign, and stay inside `screenbuf`.
-/

namespace NSOS.Console

open Basis

variable {around : ℤ → UInt8} {c : State} {d : Display} {ch : UInt8} {x y x' y' i j : ℕ}

section Cells

variable {v : ℕ → ℕ → UInt32} {g : Grid UInt32}

/-- The character cell in column `x` and row `y` shows these pixels. -/
def Display.Shows (d : Display) (x y : ℕ) (v : ℕ → ℕ → UInt32) : Prop :=
  ∀ i < 8, ∀ j < 16, d.pixel (8 * x + i + 3) (16 * y + j + 3) = v i j

theorem Display.Shows.congr {v' : ℕ → ℕ → UInt32} (h : d.Shows x y v)
    (hv : ∀ i < 8, ∀ j < 16, v i j = v' i j) : d.Shows x y v' :=
  fun i hi j hj => (h i hi j hj).trans (hv i hi j hj)

theorem shows_of_fill (hp : d.pixel = Grid.fill (8 * x + 3) (16 * y + 3) 8 16 v g) :
    d.Shows x y v := by
  rintro i hi j hj
  rw [hp, Nat.add_right_comm (8 * x), Nat.add_right_comm (16 * y)]
  exact Grid.fill_inside hi hj

theorem Display.Shows.of_fill {d' : Display} {v' : ℕ → ℕ → UInt32} (h : d.Shows x y v)
    (hne : ¬(x = x' ∧ y = y'))
    (hp : d'.pixel = Grid.fill (8 * x' + 3) (16 * y' + 3) 8 16 v' d.pixel) : d'.Shows x y v := by
  rintro i hi j hj
  rw [hp]
  exact (Grid.fill_outside (by omega)).trans (h i hi j hj)

theorem pixel_printcharpos : (printcharpos around ch x y d).pixel =
    Grid.fill (8 * x + 3) (16 * y + 3) 8 16
      (fun i j => glyphPixel around (16 * charToInt ch + j) i) d.pixel := by
  apply each_map Display.pixel
  rintro j d
  apply each_map Display.pixel
  rintro i d
  simp only [Display.write, Nat.add_right_comm _ 3]

theorem pixel_printcursor : (printcursor x y d).pixel =
    Grid.fill (8 * x + 3) (16 * y + 3) 8 16 (fun _ _ => white) d.pixel := by
  apply each_map Display.pixel
  rintro j d
  apply each_map Display.pixel
  rintro i d
  simp only [Display.write, Nat.add_right_comm _ 3]

theorem fontReads_printcursor : (printcursor x y d).fontReads = d.fontReads := by
  apply each_inv (P := fun d' : Display => d'.fontReads = d.fontReads) rfl
  rintro j - d' h
  apply each_inv (P := fun d' : Display => d'.fontReads = d.fontReads) h
  rintro i - d' h
  exact h

/-- No index outside the table has been read. -/
def Display.ReadsInside (d : Display) : Prop := ∀ k ∈ d.fontReads, 0 ≤ k ∧ k < 256 * 16

theorem mem_fontReads_printcharpos {k : ℤ} : k ∈ (printcharpos around ch x y d).fontReads ↔
    (∃ j < 16, k = 16 * charToInt ch + (j : ℕ)) ∨ k ∈ d.fontReads := by
  apply each_rule (P := fun n (t : Display) => k ∈ t.fontReads ↔
    (∃ j < n, k = 16 * charToInt ch + (j : ℕ)) ∨ k ∈ d.fontReads)
  · simp
  · rintro n - t ih
    have hrow : ∀ m, k ∈ (each m (fun i d =>
        { d.write (8 * x + i + 3) (16 * y + n + 3)
            (glyphPixel around (16 * charToInt ch + n) i) with
          fontReads := (16 * charToInt ch + n) :: d.fontReads }) t).fontReads ↔
        (0 < m ∧ k = 16 * charToInt ch + n) ∨ k ∈ t.fontReads := by
      intro m
      induction m with
      | zero => simp [each]
      | succ m ihm => simp only [each, List.mem_cons, ihm]; grind
    rw [hrow, ih]
    constructor
    · rintro (⟨-, h⟩ | ⟨j, hj, h⟩ | h)
      · exact .inl ⟨n, n.lt_succ_self, h⟩
      · exact .inl ⟨j, hj.trans n.lt_succ_self, h⟩
      · exact .inr h
    · rintro (⟨j, hj, h⟩ | h)
      · rcases Nat.lt_succ_iff_lt_or_eq.mp hj with hlt | rfl
        · exact .inr (.inl ⟨j, hlt, h⟩)
        · exact .inl ⟨by decide, h⟩
      · exact .inr (.inr h)

theorem charToInt_of_lt (hch : ch < 128) : charToInt ch = ch.toNat := if_pos hch

theorem charToInt_neg (hch : ¬ ch < 128) : charToInt ch < 0 := by
  have := ch.toNat_lt
  rw [charToInt, if_neg hch]
  omega

/-- A glyph is read from the table exactly for the characters below 128. -/
theorem readsInside_printcharpos :
    (printcharpos around ch x y d).ReadsInside ↔ ch < 128 ∧ d.ReadsInside := by
  unfold Display.ReadsInside
  simp only [mem_fontReads_printcharpos]
  constructor
  · intro h
    refine ⟨?_, fun k hk => h k (.inr hk)⟩
    by_contra hch
    have hk := h (16 * charToInt ch) (.inl ⟨0, by decide, by simp⟩)
    have := charToInt_neg hch
    omega
  · rintro ⟨hch, h⟩ k (⟨j, hj, rfl⟩ | hk)
    · have := UInt8.lt_iff_toNat_lt.mp hch
      rw [charToInt_of_lt hch]
      simp only [UInt8.reduceToNat] at this
      omega
    · exact h k hk

def drawnPixels (around : ℤ → UInt8) (ch : UInt8) (i j : ℕ) : UInt32 :=
  glyphPixel around (16 * charToInt ch + j) i

theorem shows_printcharpos : (printcharpos around ch x y d).Shows x y (drawnPixels around ch) :=
  shows_of_fill pixel_printcharpos

theorem Display.Shows.printcharpos (h : d.Shows x y v) (hne : ¬(x = x' ∧ y = y')) :
    (printcharpos around ch x' y' d).Shows x y v :=
  h.of_fill hne pixel_printcharpos

theorem shows_printcursor : (printcursor x y d).Shows x y fun _ _ => white :=
  shows_of_fill pixel_printcursor

theorem Display.Shows.printcursor (h : d.Shows x y v) (hne : ¬(x = x' ∧ y = y')) :
    (printcursor x' y' d).Shows x y v :=
  h.of_fill hne pixel_printcursor

end Cells

section Loops

/-- No access was outside `screenbuf`. -/
def State.InBounds (c : State) : Prop := ∀ a ∈ c.accesses, a.1 < 200 ∧ a.2 < 200

theorem State.InBounds.touch (h : c.InBounds) (hi : i < 200) (hj : j < 200) :
    (c.touch i j).InBounds := by
  rintro a ha
  rcases List.mem_cons.mp ha with rfl | ha
  · exact ⟨hi, hj⟩
  · exact h a ha

/-- What a part of `refreshscreen` has done when it has drawn these cells. -/
structure Redrawn (around : ℤ → UInt8) (c : State) (drawn : ℕ → ℕ → Prop) (c' : State) : Prop where
  frame : ∃ d a b, c' = { c with display := d, accesses := a, cursoron := b }
  on : c.cursoron = true → c'.cursoron = true
  bounds : c.InBounds → c'.InBounds
  reads : c'.display.ReadsInside → c.display.ReadsInside
  inside : (∀ i < c.cursorymax, ∀ j < c.cursorxmax, c.text i j < 128) → c.display.ReadsInside →
    c'.display.ReadsInside
  shows : ∀ i j, drawn i j → c'.display.Shows j i (drawnPixels around (c.text i j))

theorem Redrawn.cell {c' : State} {drawn drawn' : ℕ → ℕ → Prop} (h : Redrawn around c drawn c')
    (hy : c.cursorymax ≤ 200) (hx : c.cursorxmax ≤ 200) (hi : i < c.cursorymax)
    (hj : j < c.cursorxmax) (hd : ∀ i' j', drawn' i' j' → drawn i' j' ∨ j' = j ∧ i' = i) :
    Redrawn around c drawn'
      { (c'.touch ((c'.linestart + i) % c'.cursorymax) j).draw around
          (c'.screenbuf ((c'.linestart + i) % c'.cursorymax) j) j i with cursoron := true } := by
  obtain ⟨⟨d, a, b, rfl⟩, hon, hbounds, hreads, hinside, hshows⟩ := h
  constructor
  · exact ⟨_, _, _, rfl⟩
  · exact fun _ => rfl
  · exact fun hin => (hbounds hin).touch
      ((Nat.mod_lt _ (Nat.zero_lt_of_lt hi)).trans_le hy) (hj.trans_le hx)
  · exact fun hr => hreads (readsInside_printcharpos.mp hr).2
  · exact fun hascii hr => readsInside_printcharpos.mpr ⟨hascii i hi j hj, hinside hascii hr⟩
  · rintro i' j' hd'
    by_cases hcell : j' = j ∧ i' = i
    · obtain ⟨rfl, rfl⟩ := hcell
      exact shows_printcharpos
    · exact (hshows i' j' ((hd i' j' hd').resolve_right hcell)).printcharpos hcell

theorem Redrawn.mono {c' : State} {drawn drawn' : ℕ → ℕ → Prop} (h : Redrawn around c drawn c')
    (hd : ∀ i j, drawn' i j → drawn i j) : Redrawn around c drawn' c' :=
  { h with shows := fun i j hij => h.shows i j (hd i j hij) }

theorem redrawn_refreshscreen (hy : c.cursorymax ≤ 200) (hx : c.cursorxmax ≤ 200) :
    Redrawn around c (fun i j => i < c.cursorymax ∧ j < c.cursorxmax)
      (c.refreshscreen around) := by
  apply each_rule (P := fun n t => Redrawn around c (fun i j => i < n ∧ j < c.cursorxmax) t)
  · exact ⟨⟨_, _, _, rfl⟩, id, id, id, fun _ => id, fun _ _ h => absurd h.1 (Nat.not_lt_zero _)⟩
  · rintro i hi t ht
    apply Redrawn.mono
    · apply each_rule (P := fun m t => Redrawn around c (fun i' j =>
        (i' < i ∧ j < c.cursorxmax) ∨ i' = i ∧ j < m) t)
      · exact ht.mono fun i' j h => h.resolve_right fun hj => absurd hj.2 (Nat.not_lt_zero _)
      · rintro j hj t' ht'
        apply ht'.cell hy hx hi hj
        rintro i' j' (h | ⟨rfl, h⟩)
        · exact .inl (.inl h)
        · exact (Nat.lt_succ_iff_lt_or_eq.mp h).imp (fun h => .inr ⟨rfl, h⟩) fun h => ⟨h, rfl⟩
    · rintro i' j ⟨h, hj⟩
      rcases Nat.lt_succ_iff_lt_or_eq.mp h with hlt | rfl
      · exact .inl ⟨hlt, hj⟩
      · exact .inr ⟨rfl, hj⟩

theorem each_store (r n : ℕ) (ch : UInt8) (c : State) :
    each n (fun i c => c.store r i ch) c = { c with
      screenbuf := fun p q => if p = r ∧ q < n then ch else c.screenbuf p q
      accesses := (List.range n).reverse.map (fun i => (r, i)) ++ c.accesses } := by
  induction n with
  | zero => simp [each]
  | succ n ih =>
    rw [each, ih]
    simp only [State.store, State.touch, State.mk.injEq, true_and, List.range_succ,
      List.reverse_append, List.reverse_singleton, List.map_cons, List.nil_append,
      List.cons_append, and_true]
    funext p q
    grind [Grid.put]

theorem State.InBounds.clearRow {r n : ℕ} (h : c.InBounds) (hr : r < 200) (hn : n ≤ 200)
    (ch : UInt8) : (each n (fun i c => c.store r i ch) c).InBounds := by
  apply each_inv h
  rintro i hi c hc
  exact hc.touch hr (hi.trans_le hn)

/-- What `clearscreen` has done when it has cleared `n` rows. -/
structure Cleared (c : State) (n : ℕ) (c' : State) : Prop where
  frame : ∃ d g a, c' = { c with display := d, screenbuf := g, accesses := a }
  reads : c'.display.fontReads = c.display.fontReads
  blank : ∀ i < n, ∀ j < c.cursorxmax, c'.screenbuf i j = 32
  bounds : c.InBounds → c'.InBounds

theorem Cleared.row {c' : State} (h : Cleared c i c') (hi : i < 200) (hx : c.cursorxmax < 200) :
    Cleared c (i + 1)
      ((each c.cursorxmax (fun j c => c.store i j 32) c').store i c.cursorxmax 0) := by
  obtain ⟨⟨d, g, a, rfl⟩, hreads, hblank, hbounds⟩ := h
  constructor
  · rw [each_store]
    exact ⟨_, _, _, rfl⟩
  · rw [each_store]
    exact hreads
  · rintro i' hi' j hj
    rw [each_store]
    apply (Grid.put_of_ne fun h => hj.ne h.2).trans
    rcases Nat.lt_succ_iff_lt_or_eq.mp hi' with hlt | rfl
    · exact (if_neg fun h => hlt.ne h.1).trans (hblank i' hlt j hj)
    · exact if_pos ⟨rfl, hj⟩
  · exact fun hin => ((hbounds hin).clearRow hi hx.le 32).touch hi hx

theorem cleared_clearscreen (hy : c.cursorymax ≤ 200) (hx : c.cursorxmax < 200) :
    Cleared c c.cursorymax c.clearscreen := by
  have hrows : Cleared c c.cursorymax (each c.cursorymax (fun i c =>
      (each c.cursorxmax (fun j c => c.store i j 32) c).store i c.cursorxmax 0) c) := by
    apply each_rule (P := Cleared c)
    · exact ⟨⟨_, _, _, rfl⟩, rfl, fun _ h => absurd h (Nat.not_lt_zero _), id⟩
    · rintro i hi t ht
      obtain ⟨d, g, a, rfl⟩ := ht.frame
      exact ht.row (hi.trans_le hy) hx
  apply each_inv hrows
  rintro i - t ht
  apply each_inv ht
  rintro j - t ht
  obtain ⟨⟨d, g, a, rfl⟩, hreads, hblank, hbounds⟩ := ht
  exact ⟨⟨_, _, _, rfl⟩, hreads, hblank, hbounds⟩

end Loops

end NSOS.Console
