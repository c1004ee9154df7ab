import NSOS.Nslibc.Ctype
import NSOS.Nslibc.Number

/-! # Formats

A format is a list of characters and fields. A field has flags, a width, a
precision and a conversion. The text of a field is made from the next argument.
A star stands for an argument in the width and in the precision. It is not
skipped, so that it becomes the conversion of its field, which no argument is
printed for.
-/

namespace NSOS.Nslibc

open Basis

/-- A field of a format. An absent width or precision is -1. The conversion of a field at the end of
the format is zero. -/
structure Field where
  flags : Flags
  width : ℤ
  precision : ℤ
  star : Bool
  conv : UInt8
  deriving DecidableEq

/-- A character of a format that stands for itself, or a field. -/
inductive Piece where
  | char (c : UInt8)
  | field (d : Field)
  deriving DecidableEq

section Parsing

def setFlag (flags : Flags) (c : UInt8) : Option Flags :=
  if c = byte '-' then some { flags with left := true }
  else if c = byte '+' then some { flags with plus := true }
  else if c = byte ' ' then some { flags with space := true }
  else if c = byte '#' then some { flags with special := true }
  else if c = byte '0' then some { flags with zeropad := true }
  else none

def flagsOf : Flags → List UInt8 → Flags × List UInt8
  | flags, [] => (flags, [])
  | flags, c :: l =>
    match setFlag flags c with
    | some flags => flagsOf flags l
    | none => (flags, c :: l)

/-- Read digits behind an `int`, and the rest of the text. -/
def intOf : ℤ → List UInt8 → ℤ × List UInt8
  | i, [] => (i, [])
  | i, c :: l =>
    if isdigit c then intOf (toInt (i * 10 + c.toNat - 48)) l else (i, c :: l)

def widthOf (l : List UInt8) : ℤ × Bool × List UInt8 :=
  if isdigit (l.headD 0) then ((intOf 0 l).1, false, (intOf 0 l).2)
  else (-1, l.headD 0 == byte '*', l)

def precisionOf (l : List UInt8) : ℤ × Bool × List UInt8 :=
  if l.headD 0 = byte '.' then (max (widthOf l.tail).1 0, (widthOf l.tail).2) else (-1, false, l)

def skipQualifier (l : List UInt8) : List UInt8 :=
  if l.headD 0 = byte 'h' ∨ l.headD 0 = byte 'l' ∨ l.headD 0 = byte 'L' then l.tail else l

/-- A field, from the character behind the percent sign on, and the rest of the text. -/
def fieldOf (l : List UInt8) : Field × List UInt8 :=
  let (flags, l) := flagsOf .none l
  let (width, star, l) := widthOf l
  let (precision, star', l) := precisionOf l
  let l := skipQualifier l
  (⟨flags, width, precision, star || star', l.headD 0⟩, l.tail)

def piecesUpTo : ℕ → List UInt8 → List Piece
  | 0, _ => []
  | _ + 1, [] => []
  | n + 1, c :: l =>
    if c = byte '%' then .field (fieldOf l).1 :: piecesUpTo n (fieldOf l).2
    else .char c :: piecesUpTo n l

def pieces (f : List UInt8) : List Piece := piecesUpTo f.length f

end Parsing

section Rendering

/-- What has been printed, the arguments that are left, the strings that were read and the lengths
that were stored. -/
structure Printed where
  text : List UInt8
  args : List UInt32
  reads : List ℕ
  counts : List (ℕ × ℕ)
  deriving DecidableEq

def nullText : List UInt8 := ['<', 'N', 'U', 'L', 'L', '>'].map byte

/-- The flags, the base, the width and the precision that a conversion calls `number` with. -/
def Field.numeric (d : Field) : Option (Flags × ℕ × ℤ) :=
  if d.conv = byte 'o' then some (d.flags, 8, d.width)
  else if d.conv = byte 'p' then
    if d.width = -1 then some ({ d.flags with zeropad := true }, 16, 8)
    else some (d.flags, 16, d.width)
  else if d.conv = byte 'x' then some ({ d.flags with small := true }, 16, d.width)
  else if d.conv = byte 'X' then some (d.flags, 16, d.width)
  else if d.conv = byte 'd' ∨ d.conv = byte 'i' then
    some ({ d.flags with sign := true }, 10, d.width)
  else if d.conv = byte 'u' then some (d.flags, 10, d.width)
  else none

def cut (precision : ℤ) (l : List UInt8) : List UInt8 :=
  if precision < 0 then l else l.take precision.toNat

def Field.plain (d : Field) (l : List UInt8) : List UInt8 :=
  fieldText { d.flags with zeropad := false } d.width [] l

/-- The text of a number in its field. -/
def Field.number (d : Field) (flags : Flags) (base : ℕ) (width : ℤ) (w : UInt32) : List UInt8 :=
  numberText (toInt w.toNat) base width d.precision flags

def Field.echo (d : Field) : List UInt8 :=
  (if d.conv ≠ byte '%' then [byte '%'] else []) ++ (if d.conv ≠ 0 then [d.conv] else [])

/-- Print an argument in a field, where `str` has the string at each address. A star uses up an
argument. -/
def Field.render (str : ℕ → List UInt8) (d : Field) (p : Printed) : Option Printed :=
  match d.star, d.numeric, p.args with
  | true, _, [] => none
  | true, _, _ :: args => some { p with text := p.text ++ d.echo, args }
  | false, some _, [] => none
  | false, some (flags, base, width), w :: args =>
    some { p with text := p.text ++ d.number flags base width w, args }
  | false, none, args =>
    if d.conv = byte 'c' then
      match args with
      | [] => none
      | w :: args => some { p with text := p.text ++ d.plain [UInt8.ofNat w.toNat], args }
    else if d.conv = byte 's' then
      match args with
      | [] => none
      | w :: args =>
        if w = 0 then some { p with text := p.text ++ d.plain (cut d.precision nullText), args }
        else some { p with
          text := p.text ++ d.plain (cut d.precision (str w.toNat))
          args
          reads := p.reads ++ [w.toNat] }
    else if d.conv = byte 'n' then
      match args with
      | [] => none
      | w :: args => some { p with args, counts := p.counts ++ [(w.toNat, p.text.length)] }
    else some { p with text := p.text ++ d.echo }

def Piece.render (str : ℕ → List UInt8) : Piece → Printed → Option Printed
  | .char c, p => some { p with text := p.text ++ [c] }
  | .field d, p => d.render str p

def render (str : ℕ → List UInt8) (l : List Piece) (p : Printed) : Option Printed :=
  l.foldlM (fun p x => x.render str p) p

end Rendering

end NSOS.Nslibc
