import NSOS.Console.Scrolling

/-! # The screen is what a full redraw would show

A cell is drawn when its character is stored, the cursor is erased by the next
character, and a scroll draws every cell. So each cell but the cursor's shows
the glyph of its character, for all characters below 128. A greater character
is negative, and its glyph is read from outside the font.
-/

namespace NSOS.Console

open Basis

variable {around : ℤ → UInt8} {c : State} {d : Display} {ch : UInt8} {h w : ℕ}
  {t : Terminal UInt8 h w}

def glyph (ch : UInt8) (i j : ℕ) : UInt32 :=
  if (isoFont (16 * ch.toNat + j)).toNat.testBit i then white else black

theorem fontByte_of_lt {j : ℕ} (hch : ch < 128) (hj : j < 16) :
    fontByte around (16 * charToInt ch + j) = isoFont (16 * ch.toNat + j) := by
  have hlt : ch.toNat < 128 := UInt8.lt_iff_toNat_lt.mp hch
  rw [charToInt_of_lt hch]
  apply (if_pos (by omega)).trans
  congr 1

theorem drawnPixels_of_lt {i j : ℕ} (hch : ch < 128) (hj : j < 16) :
    drawnPixels around ch i j = glyph ch i j := by
  rw [drawnPixels, glyphPixel, fontByte_of_lt hch hj, glyph]

theorem drawnPixels_newline {i j : ℕ} (hj : j < 16) :
    drawnPixels around 10 i j = drawnPixels around 32 i j := by
  rw [drawnPixels_of_lt (by decide) hj, drawnPixels_of_lt (by decide) hj]
  unfold glyph
  rw [show (10 : UInt8).toNat = 10 from rfl, show (32 : UInt8).toNat = 32 from rfl,
    isoFont_newline hj]

section Cells

def Drawn (around : ℤ → UInt8) (d : Display) (t : Terminal UInt8 h w) : Prop :=
  ∀ (i : Fin h) (j : Fin w), d.Shows j i (drawnPixels around (t.cell i j))

def DrawnApart (around : ℤ → UInt8) (d : Display) (t : Terminal UInt8 h w) : Prop :=
  ∀ (i : Fin h) (j : Fin w), ¬(i = t.row ∧ j = t.col) →
    d.Shows j i (drawnPixels around (t.cell i j))

theorem Drawn.apart (hd : Drawn around d t) : DrawnApart around d t := fun i j _ => hd i j

theorem DrawnApart.draw (hd : DrawnApart around d t)
    (hcell : ∀ i < 8, ∀ j < 16,
      drawnPixels around ch i j = drawnPixels around (t.cell t.row t.col) i j) :
    Drawn around (printcharpos around ch t.col t.row d) t := by
  rintro i j
  by_cases hij : i = t.row ∧ j = t.col
  · obtain ⟨rfl, rfl⟩ := hij
    exact shows_printcharpos.congr hcell
  · apply (hd i j hij).printcharpos
    rintro ⟨hj, hi⟩
    exact hij ⟨Fin.ext hi, Fin.ext hj⟩

theorem DrawnApart.newline (hd : DrawnApart around d t) (hb : t.BlankAhead 32) :
    Drawn around (printcharpos around 10 t.col t.row d) t := by
  apply hd.draw
  rintro i hi j hj
  rw [hb t.row t.col (.inr ⟨rfl, le_rfl⟩)]
  exact drawnPixels_newline hj

theorem DrawnApart.store (hd : DrawnApart around d t) :
    Drawn around (printcharpos around ch t.col t.row d) (t.store ch) := by
  have hd' : DrawnApart around d (t.store ch) := by
    rintro i j hij
    have hcell : (t.store ch).cell i j = t.cell i j := if_neg hij
    rw [hcell]
    exact hd i j hij
  apply hd'.draw
  rintro i - j -
  have hcell : (t.store ch).cell t.row t.col = ch := if_pos ⟨rfl, rfl⟩
  exact congrArg (drawnPixels around · i j) hcell.symm

theorem DrawnApart.printcursor (hd : DrawnApart around d t) :
    DrawnApart around (printcursor t.col t.row d) t := by
  rintro i j hij
  apply (hd i j hij).printcursor
  rintro ⟨hj, hi⟩
  exact hij ⟨Fin.ext hi, Fin.ext hj⟩

theorem Models.drawn_refreshscreen (hm : Models c t) (hh : h ≤ 200) (hw : w < 200) :
    Drawn around (c.refreshscreen around).display t := by
  obtain ⟨rfl, rfl, hstart, hrow, hcol, hfull, htext⟩ := hm
  rintro i j
  rw [← htext i j]
  exact (redrawn_refreshscreen hh hw.le).shows i j ⟨i.2, j.2⟩

theorem Models.drawn_nextLine (hm : Models c t) (hh : h ≤ 200) (hw : w < 200)
    (hd : Drawn around c.display t) :
    Drawn around (c.nextLine around).display (t.nextRow 32) := by
  unfold State.nextLine Terminal.nextRow
  dsimp only
  have hsucc : succ32 c.cursory = t.row + 1 := hm.succ_row hh
  by_cases hr : (t.row : ℕ) + 1 < h
  · rw [if_neg (by rw [hsucc, hm.height]; exact hr.ne), dif_pos hr]
    exact hd
  · have hlast : (t.row : ℕ) + 1 = h := by omega
    rw [if_pos (by rw [hsucc, hm.height, hlast]), dif_neg hr]
    exact (hm.home.scrollText hh hlast).drawn_refreshscreen hh hw

theorem Models.drawn_advance (hm : Models c t) (hh : h ≤ 200) (hw : w < 200)
    (hd : Drawn around c.display t) :
    Drawn around (c.advance around).display (t.advance 32) := by
  unfold State.advance Terminal.advance
  have hsucc : succ32 c.cursorx = t.col + 1 := hm.succ_col hw
  by_cases hc : (t.col : ℕ) + 1 < w
  · rw [if_neg (by rw [hsucc, hm.width]; exact hc.ne), dif_pos hc]
    exact hd
  · rw [if_pos (by rw [hsucc, hm.width]; omega), dif_neg hc]
    exact hm.wrap.drawn_nextLine hh hw hd

theorem Models.drawn_place (hm : Models c t) (hh : h ≤ 200) (hw : w < 200)
    (hb : t.BlankAhead 32) (hd : DrawnApart around c.display t) :
    DrawnApart around (c.place around ch).display (t.type 32 10 ch) := by
  unfold State.place Terminal.type Terminal.newline
  by_cases hch : ch = 10
  · rw [if_pos hch, if_pos hch, hm.full]
    by_cases hwrap : t.wrapped = true
    · rw [if_neg (by rw [hwrap]; decide), if_pos hwrap]
      exact hd
    · rw [if_pos (Bool.eq_false_of_not_eq_true hwrap), if_neg hwrap]
      apply Drawn.apart
      apply hm.draw.drawn_nextLine hh hw
      subst hch
      unfold State.draw
      rw [hm.row, hm.col]
      exact hd.newline hb
  · rw [if_neg hch, if_neg hch]
    apply Drawn.apart
    apply hm.draw.store.drawn_advance hh hw
    unfold State.draw State.store State.touch
    dsimp only
    rw [hm.row, hm.col]
    exact hd.store

end Cells

section Reads

theorem reads_refreshscreen (hr : (c.refreshscreen around).display.ReadsInside)
    (hh : c.cursorymax ≤ 200) (hw : c.cursorxmax < 200) : c.display.ReadsInside :=
  (redrawn_refreshscreen hh hw.le).reads hr

theorem on_refreshscreen (hon : c.cursoron = true) (hh : c.cursorymax ≤ 200)
    (hw : c.cursorxmax < 200) : (c.refreshscreen around).cursoron = true :=
  (redrawn_refreshscreen hh hw.le).on hon

theorem Models.inside_refreshscreen (hm : Models c t) (hh : h ≤ 200) (hw : w < 200)
    (ha : t.All (· < 128)) (hr : c.display.ReadsInside) :
    (c.refreshscreen around).display.ReadsInside := by
  obtain ⟨rfl, rfl, hstart, hrow, hcol, hfull, htext⟩ := hm
  apply (redrawn_refreshscreen hh hw.le).inside _ hr
  rintro i hi j hj
  exact (htext ⟨i, hi⟩ ⟨j, hj⟩).symm ▸ ha _ _

theorem Models.inside_nextLine (hm : Models c t) (hh : h ≤ 200) (hw : w < 200)
    (ha : t.All (· < 128)) (hr : c.display.ReadsInside) :
    (c.nextLine around).display.ReadsInside := by
  unfold State.nextLine
  dsimp only
  split
  · next hlast =>
    rw [hm.succ_row hh, hm.height] at hlast
    apply (hm.home.scrollText hh hlast).inside_refreshscreen hh hw (ha.scroll (by decide))
    unfold State.scrollText
    simp only [each_store]
    exact hr
  · exact hr

theorem Models.reads_nextLine (hm : Models c t) (hh : h ≤ 200) (hw : w < 200)
    (hr : (c.nextLine around).display.ReadsInside) : c.display.ReadsInside := by
  obtain ⟨rfl, rfl, -⟩ := hm
  unfold State.nextLine State.scrollText at hr
  simp only [each_store] at hr
  split at hr
  · have hrows := reads_refreshscreen hr hh hw
    exact hrows
  · exact hr

theorem Models.inside_place (hm : Models c t) (hh : h ≤ 200) (hw : w < 200)
    (ha : t.All (· < 128)) (hch : ch < 128) (hr : c.display.ReadsInside) :
    (c.place around ch).display.ReadsInside := by
  have hdraw : (c.draw around ch c.cursorx c.cursory).display.ReadsInside :=
    readsInside_printcharpos.mpr ⟨hch, hr⟩
  unfold State.place State.advance
  dsimp only
  split
  · split
    · exact hm.draw.inside_nextLine hh hw ha hdraw
    · exact hr
  · split
    · exact hm.draw.store.wrap.inside_nextLine hh hw (ha.store hch) hdraw
    · exact hdraw

theorem Models.reads_place (hm : Models c t) (hh : h ≤ 200) (hw : w < 200)
    (hr : (c.place around ch).display.ReadsInside) : ch < 128 ∧ c.display.ReadsInside := by
  unfold State.place State.advance at hr
  dsimp only at hr
  split at hr
  · next hch =>
    have hlt : ch < 128 := by rw [hch]; decide
    split at hr
    · exact ⟨hlt, (readsInside_printcharpos.mp (hm.draw.reads_nextLine hh hw hr)).2⟩
    · exact ⟨hlt, hr⟩
  · split at hr
    · exact readsInside_printcharpos.mp (hm.draw.store.wrap.reads_nextLine hh hw hr)
    · exact readsInside_printcharpos.mp hr

theorem on_nextLine (hon : c.cursoron = true) (hh : c.cursorymax ≤ 200)
    (hw : c.cursorxmax < 200) : (c.nextLine around).cursoron = true := by
  unfold State.nextLine State.scrollText
  simp only [each_store]
  split
  · apply on_refreshscreen
    · exact hon
    · exact hh
    · exact hw
  · exact hon

theorem on_place (hon : c.cursoron = true) (hh : c.cursorymax ≤ 200) (hw : c.cursorxmax < 200) :
    (c.place around ch).cursoron = true := by
  unfold State.place State.advance
  dsimp only
  split
  · split
    · exact on_nextLine (c := c.draw around ch _ _) hon hh hw
    · exact hon
  · split
    · exact on_nextLine
        (c := { State.store _ _ _ (c.draw _ _ _ _) with linefull := true }) hon hh hw
    · exact hon

end Reads

section Printed

/-- The screen agrees with the terminal, but for the cursor's cell. -/
structure Screen (around : ℤ → UInt8) (c : State) (t : Terminal UInt8 h w) : Prop where
  models : Models c t
  blank : t.BlankAhead 32
  on : c.cursoron = true
  drawn : DrawnApart around c.display t
  cursor : c.display.Shows t.col t.row fun _ _ => white

theorem Screen.printchar (hs : Screen around c t) (hh : h ≤ 200) (hw : w < 200) :
    Screen around (c.printchar around ch) (t.type 32 10 ch) := by
  obtain ⟨hm, hb, hon, hd, -⟩ := hs
  have hplace : Models (c.place around ch) (t.type 32 10 ch) := hm.place hh hw
  have hon' : (c.place around ch).cursoron = true :=
    on_place hon (hm.height.trans_le hh) (hm.width.trans_lt hw)
  have hd' : DrawnApart around (c.place around ch).display (t.type 32 10 ch) :=
    hm.drawn_place hh hw hb hd
  refine ⟨hm.printchar hh hw, hb.type ch, ?_, ?_, ?_⟩
  all_goals
    unfold State.printchar
    dsimp only
    rw [if_pos hon']
  · exact hon'
  · rw [hplace.row, hplace.col]
    exact hd'.printcursor
  · rw [hplace.row, hplace.col]
    exact shows_printcursor

theorem readsInside_printcursor {x y : ℕ} :
    (printcursor x y d).ReadsInside ↔ d.ReadsInside := by
  rw [Display.ReadsInside, fontReads_printcursor, Display.ReadsInside]

theorem readsInside_printchar :
    (c.printchar around ch).display.ReadsInside ↔ (c.place around ch).display.ReadsInside := by
  unfold State.printchar
  dsimp only
  split
  · exact readsInside_printcursor
  · rfl

theorem Screen.foldl (hs : Screen around c t) (hh : h ≤ 200) (hw : w < 200) (s : List UInt8) :
    Screen around (s.foldl (State.printchar around) c) (s.foldl (Terminal.type 32 10) t) := by
  induction s generalizing c t with
  | nil => exact hs
  | cons ch s ih => exact ih (hs.printchar hh hw)

theorem Models.reads_foldl (hm : Models c t) (hh : h ≤ 200) (hw : w < 200) {s : List UInt8}
    (hr : (s.foldl (State.printchar around) c).display.ReadsInside) : c.display.ReadsInside := by
  induction s generalizing c t with
  | nil => exact hr
  | cons ch s ih =>
    have hr' := readsInside_printchar.mp (ih (hm.printchar hh hw) hr)
    exact (hm.reads_place hh hw hr').2

/-- The font is read inside its table exactly when all characters are below 128. -/
theorem Models.readsInside_foldl (hm : Models c t) (hh : h ≤ 200) (hw : w < 200)
    (ha : t.All (· < 128)) (s : List UInt8) :
    (s.foldl (State.printchar around) c).display.ReadsInside ↔
      c.display.ReadsInside ∧ ∀ ch ∈ s, ch < 128 := by
  induction s generalizing c t with
  | nil => simp
  | cons ch s ih =>
    rw [List.foldl_cons, List.forall_mem_cons]
    constructor
    · intro hr
      have hr' := readsInside_printchar.mp ((hm.printchar hh hw).reads_foldl hh hw hr)
      obtain ⟨hch, hr₀⟩ := hm.reads_place hh hw hr'
      exact ⟨hr₀, hch, ((ih (hm.printchar hh hw) (ha.type (by decide) hch)).mp hr).2⟩
    · rintro ⟨hr₀, hch, hs⟩
      apply (ih (hm.printchar hh hw) (ha.type (by decide) hch)).mpr ⟨_, hs⟩
      exact readsInside_printchar.mpr (hm.inside_place hh hw ha hch hr₀)

theorem all_foldl {p : UInt8 → Prop} (ha : t.All p) (hb : p 32) {s : List UInt8}
    (hs : ∀ ch ∈ s, p ch) : (s.foldl (Terminal.type 32 10) t).All p := by
  induction s generalizing t with
  | nil => exact ha
  | cons ch s ih =>
    exact ih (ha.type hb (hs ch List.mem_cons_self)) fun x hx => hs x (List.mem_cons_of_mem _ hx)

variable {width height : ℤ}

theorem screen_initconsole (h₀ : 0 < lines height) (w₀ : 0 < columns width)
    (hh : lines height ≤ 200) (hw : columns width < 200) :
    Screen around (c.initconsole around width height) (.clear 32 h₀ w₀) := by
  have hd : Drawn around ((c.sized width height).clearscreen.refreshscreen around).display _ :=
    (models_clearscreen h₀ w₀ hh hw).drawn_refreshscreen hh hw
  have hapart : DrawnApart around _ (Terminal.clear 32 h₀ w₀) := fun i j _ => hd i j
  exact ⟨models_initconsole h₀ w₀ hh hw, Terminal.blankAhead_clear, rfl, hapart.printcursor,
    shows_printcursor⟩

theorem inside_initconsole (hr : c.display.ReadsInside) (h₀ : 0 < lines height)
    (w₀ : 0 < columns width) (hh : lines height ≤ 200) (hw : columns width < 200) :
    (c.initconsole around width height).display.ReadsInside := by
  have hclear : Cleared (c.sized width height) _ _ := cleared_clearscreen hh hw
  apply readsInside_printcursor.mpr
  apply (models_clearscreen h₀ w₀ hh hw).inside_refreshscreen hh hw
  · rintro i j
    exact (by decide : (32 : UInt8) < 128)
  · rw [Display.ReadsInside, hclear.reads]
    exact hr

/-- Each cell shows the glyph of its character, and the cursor's cell is a solid block. -/
def ShowsText (c : State) : Prop :=
  ∀ y < c.cursorymax, ∀ x < c.cursorxmax, c.display.Shows x y
    (if x = c.cursorx ∧ y = c.cursory then fun _ _ => white else glyph (c.text y x))

theorem Screen.showsText (hs : Screen around c t) (ha : t.All (· < 128)) : ShowsText c := by
  obtain ⟨⟨rfl, rfl, hstart, hrow, hcol, hfull, htext⟩, hb, hon, hd, hcursor⟩ := hs
  rintro y hy x hx
  by_cases hxy : x = c.cursorx ∧ y = c.cursory
  · rw [if_pos hxy, hxy.1, hxy.2, hrow, hcol]
    exact hcursor
  · rw [if_neg hxy, htext ⟨y, hy⟩ ⟨x, hx⟩]
    apply (hd ⟨y, hy⟩ ⟨x, hx⟩ _).congr
    · rintro i - j hj
      exact drawnPixels_of_lt (ha _ _) hj
    · rintro ⟨hrow', hcol'⟩
      exact hxy ⟨(congrArg Fin.val hcol').trans hcol.symm, (congrArg Fin.val hrow').trans hrow.symm⟩

/-- The screen is right and the font is read inside its table exactly when no character is
negative. -/
theorem printed_showsText_iff (around : ℤ → UInt8) (pixel : Grid UInt32) (h₀ : 0 < lines height)
    (w₀ : 0 < columns width) (hh : lines height ≤ 200) (hw : columns width < 200)
    (s : List UInt8) : (ShowsText (printed around pixel width height s) ∧
      (printed around pixel width height s).display.ReadsInside) ↔ ∀ ch ∈ s, ch < 128 := by
  have hs : Screen around _ (Terminal.clear 32 h₀ w₀) :=
    screen_initconsole (c := boot pixel) h₀ w₀ hh hw
  have ha : (Terminal.clear 32 h₀ w₀).All (· < (128 : UInt8)) := by
    rintro i j
    exact (by decide : (32 : UInt8) < 128)
  have hiff : (printed around pixel width height s).display.ReadsInside ↔ _ ∧ _ :=
    hs.models.readsInside_foldl hh hw ha s
  constructor
  · rintro ⟨-, hr⟩
    exact (hiff.mp hr).2
  · intro hlt
    constructor
    · exact (hs.foldl hh hw s).showsText (all_foldl ha (by decide) hlt)
    · apply hiff.mpr ⟨inside_initconsole _ h₀ w₀ hh hw, hlt⟩
      rintro k hk
      cases hk

/-- On a screen with two rows and two columns the text scrolls. The character 233 spoils it. -/
theorem printed_showsText_small :
    (ShowsText (printed (fun _ => 0) (fun _ _ => 0) 22 38 [104, 105, 10, 33]) ∧
      (printed (fun _ => 0) (fun _ _ => 0) 22 38 [104, 105, 10, 33]).display.ReadsInside) ∧
    ¬(ShowsText (printed (fun _ => 0) (fun _ _ => 0) 22 38 [104, 233]) ∧
      (printed (fun _ => 0) (fun _ _ => 0) 22 38 [104, 233]).display.ReadsInside) := by
  constructor
  · apply (printed_showsText_iff _ _ (by decide) (by decide) (by decide) (by decide) _).mpr
    decide +kernel
  · rw [printed_showsText_iff _ _ (by decide) (by decide) (by decide) (by decide)]
    decide +kernel

/-- The character 128 is read from 2048 bytes in front of the font. -/
theorem printed_not_showsText : ¬ ∀ (around : ℤ → UInt8) (pixel : Grid UInt32) (width height : ℤ),
    0 < columns width → columns width < 200 → 0 < lines height → lines height ≤ 200 →
    ∀ s : List UInt8, ShowsText (printed around pixel width height s) ∧
      (printed around pixel width height s).display.ReadsInside := by
  intro hall
  have hr : ((State.initconsole (fun _ => 0) 14 22 (boot fun _ _ => 0)).printchar (fun _ => 0)
      128).display.ReadsInside :=
    (hall (fun _ => 0) (fun _ _ => 0) 14 22 (by decide) (by decide) (by decide) (by decide)
      [128]).2
  have hm : Models (State.initconsole (fun _ => 0) 14 22 (boot fun _ _ => 0))
      (.clear (h := lines 22) (w := columns 14) 32 (by decide) (by decide)) :=
    models_initconsole (by decide) (by decide) (by decide) (by decide)
  have hlt := (hm.reads_place (by decide) (by decide) (readsInside_printchar.mp hr)).1
  exact absurd hlt (by decide)

end Printed

end NSOS.Console
