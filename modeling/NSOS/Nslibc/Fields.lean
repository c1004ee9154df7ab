import NSOS.Nslibc.RoundTrip

/-! # Fields of log lines and of tables

The kernel prints its log and the files of `proc` with a few kinds of fields:
decimal numbers in columns, hexadecimal addresses of eight digits, and
strings. These are the texts of such fields.
-/

namespace NSOS.Nslibc

open Basis Bytes

def padded (c : UInt8) (width : ℤ) (l : List UInt8) : List UInt8 :=
  List.replicate (width - l.length).toNat c ++ l

def decimal (n : ℕ) : List UInt8 := digitText false 10 n

def hex8 (n : ℕ) : List UInt8 := padded (byte '0') 8 (digitText false 16 n)

/-- The field `%d` with a width, filled with zeros or with spaces. -/
def decimalField (zeropad : Bool) (width : ℤ) : Field :=
  ⟨{ Flags.none with zeropad }, width, -1, false, byte 'd'⟩

/-- The field `%08X`. -/
def hexField : Field := ⟨{ Flags.none with zeropad := true }, 8, -1, false, byte 'X'⟩

def signed (w : UInt32) : List UInt8 := (toString (toInt w.toNat)).toList.map byte

def stringField : Field := ⟨.none, -1, -1, false, byte 's'⟩

def literal (s : String) : List Piece := s.toUTF8.toList.map .char

section Texts

variable {str : ℕ → List UInt8} {text : List UInt8} {w : UInt32} {args : List UInt32}
  {reads : List ℕ} {counts : List (ℕ × ℕ)} {zeropad : Bool} {width : ℤ} {n : ℕ}

theorem length_padded (c : UInt8) (l : List UInt8) :
    (padded c width l).length = max width.toNat l.length := by
  rw [padded, List.length_append, List.length_replicate]
  omega

theorem length_decimal_le {k : ℕ} (hk : 0 < k) (hn : n < 10 ^ k) : (decimal n).length ≤ k := by
  rw [decimal, length_digitText]
  exact length_numeral_le (by decide) hk hn

theorem length_hex8 (hn : n < 2 ^ 32) : (hex8 n).length = 8 := by
  have hle : (digitText false 16 n).length ≤ 8 := by
    rw [length_digitText]
    exact length_numeral_le (by decide) (by decide) hn
  rw [hex8, length_padded]
  exact max_eq_left hle

theorem hex8_inj {k : ℕ} (h : hex8 n = hex8 k) : n = k := by
  have hvalue (x : ℕ) : readDigits 16 0 ((hex8 x).map digitValue) = x := by
    rw [hex8, padded, length_digitText]
    exact (isNumeral_preciseText false x (by decide) le_rfl 8).value
  rw [← hvalue n, h, hvalue]

theorem zero_not_mem_digitText {base : ℕ} {small : Bool} (hb : 1 < base) (hb' : base ≤ 16) :
    0 ∉ digitText small base n := by
  intro h
  have hdigit := (digitText_isDigitOf hb hb' 0 h).1
  exact absurd hdigit (by decide +kernel)

theorem zero_not_mem_padded {c : UInt8} {l : List UInt8} (hc : c ≠ 0) (hl : 0 ∉ l) :
    0 ∉ padded c width l := by
  intro h
  rcases List.mem_append.mp h with h | h
  · exact hc (List.eq_of_mem_replicate h).symm
  · exact hl h

theorem zero_not_mem_decimal : 0 ∉ decimal n := zero_not_mem_digitText (by decide) (by decide)

theorem zero_not_mem_hex8 : 0 ∉ hex8 n :=
  zero_not_mem_padded (by decide) (zero_not_mem_digitText (by decide) le_rfl)

theorem preciseText_bare (small : Bool) (base n : ℕ) :
    preciseText small base n (-1) = digitText small base n := by
  have hzero (k : ℕ) : (-1 - (k : ℤ)).toNat = 0 := by omega
  rw [preciseText, hzero, List.replicate_zero, List.nil_append]

theorem number_decimal (hw : w.toNat < 2 ^ 31) :
    numberText (toInt w.toNat) 10 width (-1) { Flags.none with sign := true, zeropad } =
      padded (if zeropad then byte '0' else byte ' ') width (decimal w.toNat) := by
  have hint : toInt w.toNat = w.toNat := toInt_of_range (by omega) (by omega)
  have hneg : ¬ (w.toNat : ℤ) < 0 := by omega
  have hsign : signOf { Flags.none with sign := true, zeropad } w.toNat = [] := by
    simp [signOf, hneg, Flags.none]
  have hmag : magnitude { Flags.none with sign := true, zeropad } w.toNat = w.toNat := by
    rw [magnitude, if_neg (fun h => hneg h.2), toU32_of_range (by omega) (by omega),
      Int.toNat_natCast]
  have hfront : prefixOf { Flags.none with sign := true, zeropad } 10 = [] := rfl
  rw [numberText, hint, hsign, hmag, hfront, preciseText_bare, fieldText, padded, decimal]
  cases zeropad <;> simp [Flags.none]

theorem number_signed :
    numberText (toInt w.toNat) 10 (-1) (-1) { Flags.none with sign := true } = signed w :=
  numberText_signed (toInt_bounds _).2

theorem zero_not_mem_signed : 0 ∉ signed w := by
  have hsign : 0 ∉ signOf { Flags.none with sign := true } (toInt w.toNat) := by
    unfold signOf
    split_ifs <;> decide
  rw [← number_signed, numberText_bare]
  refine List.not_mem_append (List.not_mem_append hsign List.not_mem_nil) ?_
  exact zero_not_mem_digitText (by decide) (by decide)

theorem number_hex :
    numberText (toInt w.toNat) 16 8 (-1) { Flags.none with zeropad := true } = hex8 w.toNat := by
  have hsign : signOf { Flags.none with zeropad := true } (toInt w.toNat) = [] := rfl
  have hmag : magnitude { Flags.none with zeropad := true } (toInt w.toNat) = w.toNat := by
    rw [magnitude, if_neg (fun h => Bool.false_ne_true h.1), toU32_word]
  have hfront : prefixOf { Flags.none with zeropad := true } 16 = [] := rfl
  rw [numberText, hsign, hmag, hfront, preciseText_bare, fieldText, hex8, padded]
  simp [Flags.none]

@[simp] theorem render_nil (p : Printed) : render str [] p = some p := rfl

@[simp] theorem render_char (c : UInt8) (l : List Piece) :
    render str (.char c :: l) ⟨text, args, reads, counts⟩ =
      render str l ⟨text ++ [c], args, reads, counts⟩ := rfl

theorem render_chars (k : List UInt8) (l : List Piece) :
    render str (k.map .char ++ l) ⟨text, args, reads, counts⟩ =
      render str l ⟨text ++ k, args, reads, counts⟩ := by
  induction k generalizing text with
  | nil => rw [List.map_nil, List.nil_append, List.append_nil]
  | cons c k ih => rw [List.map_cons, List.cons_append, render_char, ih, List.append_cons text c k]

theorem render_literal (s : String) (l : List Piece) :
    render str (literal s ++ l) ⟨text, args, reads, counts⟩ =
      render str l ⟨text ++ s.toUTF8.toList, args, reads, counts⟩ := render_chars _ l

theorem pieces_plain {f : List UInt8} (hf : byte '%' ∉ f) : pieces f = f.map .char := by
  unfold pieces
  induction f with
  | nil => rfl
  | cons c f ih =>
    have hc := List.ne_of_not_mem_cons hf
    rw [List.length_cons, piecesUpTo, if_neg (Ne.symm hc), ih (List.not_mem_of_not_mem_cons hf),
      List.map_cons]

theorem render_plain {f : List UInt8} (hf : byte '%' ∉ f) :
    render str (pieces f) (.start []) = some ⟨f, [], [], []⟩ := by
  have hchars : render str (f.map .char ++ []) ⟨[], [], [], []⟩ =
      render str [] ⟨[] ++ f, [], [], []⟩ := render_chars f []
  rw [List.append_nil, List.nil_append] at hchars
  rw [pieces_plain hf]
  exact hchars

theorem render_decimal (hw : w.toNat < 2 ^ 31) (l : List Piece) :
    render str (.field (decimalField zeropad width) :: l) ⟨text, w :: args, reads, counts⟩ =
      render str l ⟨text ++ padded (if zeropad then byte '0' else byte ' ') width
        (decimal w.toNat), args, reads, counts⟩ := by
  rw [← number_decimal hw]
  rfl

theorem render_signed (l : List Piece) :
    render str (.field (bare 'd') :: l) ⟨text, w :: args, reads, counts⟩ =
      render str l ⟨text ++ signed w, args, reads, counts⟩ := by
  rw [← number_signed]
  rfl

@[simp] theorem render_hex (l : List Piece) :
    render str (.field hexField :: l) ⟨text, w :: args, reads, counts⟩ =
      render str l ⟨text ++ hex8 w.toNat, args, reads, counts⟩ := by
  rw [← number_hex]
  rfl

theorem render_string (hw : w ≠ 0) (l : List Piece) :
    render str (.field stringField :: l) ⟨text, w :: args, reads, counts⟩ =
      render str l ⟨text ++ str w.toNat, args, reads ++ [w.toNat], counts⟩ := by
  have hplain : stringField.plain (cut stringField.precision (str w.toNat)) = str w.toNat := by
    have hzero (k : ℕ) : (-1 - (k : ℤ)).toNat = 0 := by omega
    simp [Field.plain, cut, stringField, fieldText, Flags.none, hzero]
  have hfield : stringField.render str ⟨text, w :: args, reads, counts⟩ =
      some ⟨text ++ stringField.plain (cut stringField.precision (str w.toNat)), args,
        reads ++ [w.toNat], counts⟩ := if_neg hw
  rw [render_cons, Piece.render, hfield, hplain]
  rfl

end Texts

end NSOS.Nslibc
