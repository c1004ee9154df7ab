import Mathlib.Data.Nat.ModEq
import NSOS.Basis.Terminal
import NSOS.Console.Screen

/-! # The console is a terminal

The rows of `screenbuf` from `linestart` on, taken around the ring, are the
rows of a terminal. Typing a character keeps this: the row that is cleared on a
scroll is the oldest one, which then becomes the last.
-/

namespace NSOS.Console

open Basis

variable {around : ℤ → UInt8} {c : State} {ch : UInt8} {h w : ℕ} {t : Terminal UInt8 h w}

section Ring

variable {start i i' : ℕ}

theorem ring_inj (hi : i < h) (hi' : i' < h) (heq : (start + i) % h = (start + i') % h) :
    i = i' := by
  have hmod : Nat.ModEq h i i' := Nat.ModEq.add_left_cancel' start heq
  rwa [Nat.ModEq, Nat.mod_eq_of_lt hi, Nat.mod_eq_of_lt hi'] at hmod

theorem ring_succ : ((start + 1) % h + i) % h = (start + (i + 1)) % h := by
  rw [Nat.mod_add_mod, Nat.add_assoc, Nat.add_comm 1]

end Ring

/-- The console shows the text and the cursor of the terminal. -/
structure Models (c : State) (t : Terminal UInt8 h w) : Prop where
  width : c.cursorxmax = w
  height : c.cursorymax = h
  start : c.linestart < h
  row : c.cursory = t.row
  col : c.cursorx = t.col
  full : c.linefull = t.wrapped
  text : ∀ (i : Fin h) (j : Fin w), c.text i j = t.cell i j

theorem Models.store (hm : Models c t) :
    Models (c.store ((c.cursory + c.linestart) % c.cursorymax) c.cursorx ch) (t.store ch) := by
  obtain ⟨rfl, rfl, hstart, hrow, hcol, hfull, htext⟩ := hm
  refine ⟨rfl, rfl, hstart, hrow, hcol, hfull, fun i j => ?_⟩
  unfold Terminal.store
  by_cases hij : i = t.row ∧ j = t.col
  · obtain ⟨rfl, rfl⟩ := hij
    apply (if_pos _).trans (if_pos _).symm
    · exact ⟨(congrArg (· % c.cursorymax) (hrow ▸ Nat.add_comm _ _)).symm, hcol.symm⟩
    · exact ⟨rfl, rfl⟩
  · apply ((if_neg _).trans (htext i j)).trans (if_neg hij).symm
    rintro ⟨hi, hj⟩
    rw [hrow, Nat.add_comm _ c.linestart] at hi
    exact hij ⟨Fin.ext (ring_inj i.2 t.row.2 hi), Fin.ext (hj.trans hcol)⟩

theorem Models.refreshscreen (hm : Models c t) (hh : h ≤ 200) (hw : w < 200) :
    Models (c.refreshscreen around) t := by
  obtain ⟨rfl, rfl, hstart, hrow, hcol, hfull, htext⟩ := hm
  obtain ⟨d, a, b, hframe⟩ : ∃ d a b, c.refreshscreen around = _ :=
    (redrawn_refreshscreen hh hw.le).frame
  rw [hframe]
  exact ⟨rfl, rfl, hstart, hrow, hcol, hfull, htext⟩

/-- On the last row, the row that is cleared is the oldest one. -/
theorem Models.scrollText (hm : Models c t) (hh : h ≤ 200) (hlast : (t.row : ℕ) + 1 = h) :
    Models c.scrollText (t.scroll 32) := by
  obtain ⟨rfl, rfl, hstart, hrow, hcol, hfull, htext⟩ := hm
  have hnew : (c.linestart + 1) % c.cursorymax % 2 ^ 8 = (c.linestart + 1) % c.cursorymax :=
    Nat.mod_eq_of_lt ((Nat.mod_lt _ t.row.pos).trans_le (hh.trans (by decide)))
  have hold : (c.linestart + c.cursory + 1) % c.cursorymax = c.linestart := by
    rw [Nat.add_assoc, hrow, hlast, Nat.add_mod_right, Nat.mod_eq_of_lt hstart]
  unfold State.scrollText
  simp only [each_store, hold, hnew]
  refine ⟨rfl, rfl, Nat.mod_lt _ t.row.pos, hrow, hcol, hfull, fun i j => ?_⟩
  have hview : ((c.linestart + 1) % c.cursorymax + i) % c.cursorymax =
      (c.linestart + (i + 1)) % c.cursorymax := ring_succ
  unfold State.text Terminal.scroll
  simp only [hview]
  by_cases hi : (i : ℕ) + 1 < c.cursorymax
  · rw [dif_pos hi, ← htext ⟨i + 1, hi⟩ j]
    apply if_neg
    rintro ⟨heq, -⟩
    have hzero : (i : ℕ) + 1 = 0 :=
      ring_inj hi t.row.pos (heq.trans (Nat.mod_eq_of_lt hstart).symm)
    exact absurd hzero (Nat.succ_ne_zero _)
  · rw [dif_neg hi]
    have hlast' : (i : ℕ) + 1 = c.cursorymax := by omega
    apply if_pos
    exact ⟨by rw [hlast', Nat.add_mod_right, Nat.mod_eq_of_lt hstart], j.2⟩

theorem Models.succ_row (hm : Models c t) (hh : h ≤ 200) : succ32 c.cursory = t.row + 1 := by
  have hlt := t.row.2
  rw [hm.row]
  exact Nat.mod_eq_of_lt (by omega)

theorem Models.home (hm : Models c t) :
    Models { c with cursorx := 0 } { t with col := ⟨0, t.col.pos⟩ } :=
  ⟨hm.width, hm.height, hm.start, hm.row, rfl, hm.full, hm.text⟩

theorem Models.nextLine (hm : Models c t) (hh : h ≤ 200) (hw : w < 200) :
    Models (c.nextLine around) (t.nextRow 32) := by
  unfold State.nextLine Terminal.nextRow
  dsimp only
  have hsucc : succ32 c.cursory = t.row + 1 := hm.succ_row hh
  by_cases hr : (t.row : ℕ) + 1 < h
  · rw [if_neg (by rw [hsucc, hm.height]; exact hr.ne), dif_pos hr]
    exact ⟨hm.width, hm.height, hm.start, hsucc, rfl, hm.full, hm.text⟩
  · have hlast : (t.row : ℕ) + 1 = h := by omega
    rw [if_pos (by rw [hsucc, hm.height, hlast]), dif_neg hr]
    exact (hm.home.scrollText hh hlast).refreshscreen hh hw

theorem Models.succ_col (hm : Models c t) (hw : w < 200) : succ32 c.cursorx = t.col + 1 := by
  have hlt := t.col.2
  rw [hm.col]
  exact Nat.mod_eq_of_lt (by omega)

theorem Models.wrap (hm : Models c t) :
    Models { c with linefull := true } { t with wrapped := true } :=
  ⟨hm.width, hm.height, hm.start, hm.row, hm.col, rfl, hm.text⟩

theorem Models.advance (hm : Models c t) (hh : h ≤ 200) (hw : w < 200) :
    Models (c.advance around) (t.advance 32) := by
  unfold State.advance Terminal.advance
  have hsucc : succ32 c.cursorx = t.col + 1 := hm.succ_col hw
  by_cases hc : (t.col : ℕ) + 1 < w
  · rw [if_neg (by rw [hsucc, hm.width]; exact hc.ne), dif_pos hc]
    exact ⟨hm.width, hm.height, hm.start, hm.row, hsucc, rfl, hm.text⟩
  · rw [if_pos (by rw [hsucc, hm.width]; omega), dif_neg hc]
    exact hm.wrap.nextLine hh hw

theorem Models.draw {x y : ℕ} (hm : Models c t) : Models (c.draw around ch x y) t :=
  ⟨hm.width, hm.height, hm.start, hm.row, hm.col, hm.full, hm.text⟩

theorem Models.place (hm : Models c t) (hh : h ≤ 200) (hw : w < 200) :
    Models (c.place around ch) (t.type 32 10 ch) := by
  unfold State.place Terminal.type Terminal.newline
  by_cases hch : ch = 10
  · rw [if_pos hch, if_pos hch, hm.full]
    by_cases hwrap : t.wrapped = true
    · rw [if_neg (by rw [hwrap]; decide), if_pos hwrap]
      exact ⟨hm.width, hm.height, hm.start, hm.row, hm.col, rfl, hm.text⟩
    · rw [if_pos (Bool.eq_false_of_not_eq_true hwrap), if_neg hwrap]
      exact hm.draw.nextLine hh hw
  · rw [if_neg hch, if_neg hch]
    exact hm.draw.store.advance hh hw

theorem Models.printchar (hm : Models c t) (hh : h ≤ 200) (hw : w < 200) :
    Models (c.printchar around ch) (t.type 32 10 ch) := by
  have hp : Models (c.place around ch) (t.type 32 10 ch) := hm.place hh hw
  unfold State.printchar
  dsimp only
  split
  · exact ⟨hp.width, hp.height, hp.start, hp.row, hp.col, hp.full, hp.text⟩
  · exact hp

section Bounds

theorem State.InBounds.refreshscreen (hin : c.InBounds) (hh : c.cursorymax ≤ 200)
    (hw : c.cursorxmax < 200) : (c.refreshscreen around).InBounds :=
  (redrawn_refreshscreen hh hw.le).bounds hin

theorem State.InBounds.nextLine (hin : c.InBounds) (h₀ : 0 < c.cursorymax)
    (hh : c.cursorymax ≤ 200) (hw : c.cursorxmax < 200) : (c.nextLine around).InBounds := by
  unfold State.nextLine State.scrollText
  dsimp only
  split
  · have hrow : (c.linestart + c.cursory + 1) % c.cursorymax < 200 :=
      (Nat.mod_lt _ h₀).trans_le hh
    have hcleared := (show State.InBounds { c with cursorx := 0 } from hin).clearRow hrow hw.le 32
    simp only [each_store] at hcleared ⊢
    apply State.InBounds.refreshscreen
    · exact hcleared
    · exact hh
    · exact hw
  · exact hin

theorem State.InBounds.printchar (hin : c.InBounds) (hm : Models c t) (hh : h ≤ 200)
    (hw : w < 200) : (c.printchar around ch).InBounds := by
  obtain ⟨rfl, rfl, hstart, hrow, hcol, hfull, htext⟩ := hm
  have hplace : (c.place around ch).InBounds := by
    unfold State.place State.advance
    dsimp only
    split
    · split
      · exact State.InBounds.nextLine (c := c.draw around ch _ _) hin t.row.pos hh hw
      · exact hin
    · have hstore : ((c.draw around ch c.cursorx c.cursory).store
          ((c.cursory + c.linestart) % c.cursorymax) c.cursorx ch).InBounds :=
        State.InBounds.touch (c := c.draw around ch _ _) hin
          ((Nat.mod_lt _ t.row.pos).trans_le hh) (hcol ▸ t.col.2.trans hw)
      split
      · exact State.InBounds.nextLine (c := { State.store _ _ _ _ with linefull := true })
          hstore t.row.pos hh hw
      · exact hstore
  unfold State.printchar
  dsimp only
  split
  · exact hplace
  · exact hplace

end Bounds

section Printed

variable {width height : ℤ}

theorem models_clearscreen (h₀ : 0 < lines height) (w₀ : 0 < columns width)
    (hh : lines height ≤ 200) (hw : columns width < 200) :
    Models (c.sized width height).clearscreen
      { Terminal.clear 32 h₀ w₀ with wrapped := c.linefull } := by
  obtain ⟨⟨d, g, a, hframe⟩, -, hblank, -⟩ := cleared_clearscreen (c := c.sized width height) hh hw
  rw [hframe] at hblank ⊢
  refine ⟨rfl, rfl, h₀, rfl, rfl, rfl, fun i j => hblank _ ?_ j j.2⟩
  exact Nat.mod_lt _ h₀

theorem models_initconsole (h₀ : 0 < lines height) (w₀ : 0 < columns width)
    (hh : lines height ≤ 200) (hw : columns width < 200) :
    Models (c.initconsole around width height) (.clear 32 h₀ w₀) := by
  have hm : Models ((c.sized width height).clearscreen.refreshscreen around) _ :=
    (models_clearscreen h₀ w₀ hh hw).refreshscreen hh hw
  exact ⟨hm.width, hm.height, hm.start, rfl, rfl, rfl, hm.text⟩

theorem inBounds_initconsole (hin : c.InBounds) (hh : lines height ≤ 200)
    (hw : columns width < 200) : (c.initconsole around width height).InBounds := by
  obtain ⟨⟨d, g, a, hframe⟩, -, -, hbounds⟩ :=
    cleared_clearscreen (c := c.sized width height) hh hw
  have hclear := hbounds hin
  unfold State.initconsole
  rw [hframe] at hclear ⊢
  exact hclear.refreshscreen hh hw

theorem Models.foldl (hm : Models c t) (hin : c.InBounds) (hh : h ≤ 200) (hw : w < 200)
    (s : List UInt8) : (s.foldl (State.printchar around) c).InBounds ∧
      Models (s.foldl (State.printchar around) c) (s.foldl (Terminal.type 32 10) t) := by
  induction s generalizing c t with
  | nil => exact ⟨hin, hm⟩
  | cons ch s ih => exact ih (hm.printchar hh hw) (hin.printchar hm hh hw)

/-- What is printed after `initconsole` appears as on a terminal, and `screenbuf` is only
accessed inside its bounds. -/
theorem models_printed (around : ℤ → UInt8) (pixel : Grid UInt32) (h₀ : 0 < lines height)
    (w₀ : 0 < columns width) (hh : lines height ≤ 200) (hw : columns width < 200)
    (s : List UInt8) : (printed around pixel width height s).InBounds ∧
      Models (printed around pixel width height s)
        (s.foldl (Terminal.type 32 10) (.clear 32 h₀ w₀)) := by
  apply (models_initconsole h₀ w₀ hh hw).foldl _ hh hw
  apply inBounds_initconsole _ hh hw
  rintro a ha
  cases ha

theorem models_printed_small :
    (printed (fun _ => 0) (fun _ _ => 0) 22 38 [104, 105, 10, 33]).InBounds ∧
      Models (printed (fun _ => 0) (fun _ _ => 0) 22 38 [104, 105, 10, 33])
        ([104, 105, 10, 33].foldl (Terminal.type 32 10)
          (.clear (h := lines 38) (w := columns 22) 32 (by decide) (by decide))) :=
  models_printed _ _ (by decide) (by decide) (by decide) (by decide) _

end Printed

end NSOS.Console
