import Mathlib.Order.Fin.Basic
import Mathlib.Data.Nat.Notation

/-! # Terminals

A terminal shows a grid of characters and a cursor. A character is stored at
the cursor, which then moves right and wraps after the last column. A newline
goes to the next row, but not directly after a wrap. Below the last row the
oldest row is scrolled out.
-/

namespace Basis

/-- A terminal with `h` rows and `w` columns. The cursor is on the screen. -/
structure Terminal (α : Type*) (h w : ℕ) where
  cell : Fin h → Fin w → α
  row : Fin h
  col : Fin w
  wrapped : Bool

namespace Terminal

variable {α : Type*} {h w : ℕ} {blank nl ch : α} {t : Terminal α h w}

/-- A blank screen with the cursor in its corner. -/
def clear (blank : α) (hh : 0 < h) (hw : 0 < w) : Terminal α h w :=
  ⟨fun _ _ => blank, ⟨0, hh⟩, ⟨0, hw⟩, false⟩

def scroll (blank : α) (t : Terminal α h w) : Terminal α h w :=
  { t with cell := fun i j => if hi : i + 1 < h then t.cell ⟨i + 1, hi⟩ j else blank }

def nextRow (blank : α) (t : Terminal α h w) : Terminal α h w :=
  if hr : t.row + 1 < h then { t with row := ⟨t.row + 1, hr⟩, col := ⟨0, t.col.pos⟩ }
  else { t.scroll blank with col := ⟨0, t.col.pos⟩ }

def store (ch : α) (t : Terminal α h w) : Terminal α h w :=
  { t with cell := fun i j => if i = t.row ∧ j = t.col then ch else t.cell i j }

def advance (blank : α) (t : Terminal α h w) : Terminal α h w :=
  if hc : t.col + 1 < w then { t with col := ⟨t.col + 1, hc⟩, wrapped := false }
  else { t with wrapped := true }.nextRow blank

def newline (blank : α) (t : Terminal α h w) : Terminal α h w :=
  if t.wrapped then { t with wrapped := false } else t.nextRow blank

/-- One character is typed. -/
def type [DecidableEq α] (blank nl : α) (t : Terminal α h w) (ch : α) : Terminal α h w :=
  if ch = nl then t.newline blank else (t.store ch).advance blank

def Ahead (t : Terminal α h w) (i : Fin h) (j : Fin w) : Prop :=
  t.row < i ∨ t.row = i ∧ t.col ≤ j

def BlankAhead (blank : α) (t : Terminal α h w) : Prop :=
  ∀ i j, t.Ahead i j → t.cell i j = blank

def All (p : α → Prop) (t : Terminal α h w) : Prop := ∀ i j, p (t.cell i j)

section All

variable {p : α → Prop}

theorem All.scroll (ha : t.All p) (hb : p blank) : (t.scroll blank).All p := by
  rintro i j
  unfold Terminal.scroll
  dsimp only
  split
  · exact ha _ j
  · exact hb

theorem All.nextRow (ha : t.All p) (hb : p blank) : (t.nextRow blank).All p := by
  unfold Terminal.nextRow
  split
  · exact ha
  · exact ha.scroll hb

theorem All.store (ha : t.All p) (hch : p ch) : (t.store ch).All p := by
  rintro i j
  unfold Terminal.store
  dsimp only
  split
  · exact hch
  · exact ha i j

theorem All.type [DecidableEq α] (ha : t.All p) (hb : p blank) (hch : p ch) :
    (t.type blank nl ch).All p := by
  unfold Terminal.type newline advance
  split
  · split
    · exact ha
    · exact ha.nextRow hb
  · split
    · exact ha.store hch
    · exact All.nextRow (t := { t.store ch with wrapped := true }) (ha.store hch) hb

end All

theorem blankAhead_clear {hh : 0 < h} {hw : 0 < w} : (clear blank hh hw).BlankAhead blank :=
  fun _ _ _ => rfl

theorem BlankAhead.nextRow (hb : ∀ i j, t.row < i → t.cell i j = blank) :
    (t.nextRow blank).BlankAhead blank := by
  rintro i j hij
  unfold Terminal.nextRow at hij ⊢
  split at hij
  · next hr =>
    rw [dif_pos hr]
    apply hb i j
    rcases hij with hlt | ⟨rfl, -⟩
    · exact Nat.lt_of_succ_lt hlt
    · exact Nat.lt_succ_self _
  · next hr =>
    rw [dif_neg hr]
    have hlast : ¬ (i : ℕ) + 1 < h := by
      rcases hij with hlt | ⟨rfl, -⟩
      · exact fun hi => hr ((Nat.succ_lt_succ hlt).trans hi)
      · exact hr
    exact dif_neg hlast

theorem BlankAhead.type [DecidableEq α] (hb : t.BlankAhead blank) (ch : α) :
    (t.type blank nl ch).BlankAhead blank := by
  unfold Terminal.type newline advance
  split
  · split
    · exact hb
    · exact .nextRow fun i j hi => hb i j (.inl hi)
  · split
    · next hc =>
      rintro i j hij
      have hahead : t.Ahead i j ∧ ¬(i = t.row ∧ j = t.col) := by
        rcases hij with hlt | ⟨rfl, hle⟩
        · exact ⟨.inl hlt, fun h => hlt.ne' h.1⟩
        · exact ⟨.inr ⟨rfl, (Nat.le_succ _).trans hle⟩,
            fun h => Nat.not_succ_le_self _ (h.2 ▸ hle)⟩
      exact (if_neg hahead.2).trans (hb i j hahead.1)
    · apply BlankAhead.nextRow
      rintro i j hi
      exact (if_neg fun h => hi.ne' h.1).trans (hb i j (.inl hi))

end Terminal

end Basis
