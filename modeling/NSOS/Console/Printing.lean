import Mathlib.Algebra.Group.Int.Defs
import Mathlib.Algebra.Group.Nat.Defs
import NSOS.Basis.Loop
import NSOS.Console.Font

/-! # The text console

The text is kept in `screenbuf`, a ring of rows that begins at `linestart`. The
device is written one pixel at a time. The model also keeps which entries of
`screenbuf` and of `iso_font` have been accessed.
-/

namespace NSOS.Console

open Basis

/-- The device behind `consolescreen`, with the indices of `iso_font` read so far. -/
structure Display where
  pixel : Grid UInt32
  fontReads : List ℤ

/-- The static variables of the console. -/
structure State where
  display : Display
  screenwidth : ℕ
  screenheight : ℕ
  cursorx : ℕ
  cursory : ℕ
  cursorxmax : ℕ
  cursorymax : ℕ
  cursoron : Bool
  linefull : Bool
  screenbuf : Grid UInt8
  linestart : ℕ
  /-- The entries of `screenbuf` accessed so far. -/
  accesses : List (ℕ × ℕ)

/-- The console before `initconsole`. -/
def boot (pixel : Grid UInt32) : State :=
  { display := ⟨pixel, []⟩, screenwidth := 0, screenheight := 0, cursorx := 0, cursory := 0,
    cursorxmax := 0, cursorymax := 0, cursoron := false, linefull := false,
    screenbuf := fun _ _ => 0, linestart := 0, accesses := [] }

def succ32 (n : ℕ) : ℕ := (n + 1) % 2 ^ 32

/-- A `char` is signed. -/
def charToInt (ch : UInt8) : ℤ := if ch < 128 then ch.toNat else ch.toNat - 256

def white : UInt32 := 0x00FFFFFF
def black : UInt32 := 0x00000000

section Drawing

variable (around : ℤ → UInt8)

/-- `consolescreen->write(_DEVREG_VIDEO_FBCTL, ..)` with one pixel. -/
def Display.write (p q : ℕ) (pixel : UInt32) (d : Display) : Display :=
  { d with pixel := d.pixel.put p q pixel }

/-- The pixel of a glyph in column `i`, when the byte of its row is at index `k`. -/
def glyphPixel (k : ℤ) (i : ℕ) : UInt32 :=
  if (fontByte around k).toNat.testBit i then white else black

/-- `printcharpos`. The selector is the bit `i`. -/
def printcharpos (ch : UInt8) (x y : ℕ) (d : Display) : Display :=
  each 16 (fun j => each 8 fun i d =>
    let k := 16 * charToInt ch + j
    { d.write (8 * x + i + 3) (16 * y + j + 3) (glyphPixel around k i) with
      fontReads := k :: d.fontReads }) d

def printcursor (x y : ℕ) (d : Display) : Display :=
  each 16 (fun j => each 8 fun i d => d.write (8 * x + i + 3) (16 * y + j + 3) white) d

end Drawing

/-- `cursorxmax` of a device of this width. The quotient is signed, the variable is not. -/
def columns (width : ℤ) : ℕ := ((width - 6).tdiv 8 % 2 ^ 32).toNat

/-- `cursorymax` of a device of this height. -/
def lines (height : ℤ) : ℕ := ((height - 6).tdiv 16 % 2 ^ 32).toNat

namespace State

variable (around : ℤ → UInt8)

/-- An access to `screenbuf[i][j]`. -/
def touch (i j : ℕ) (c : State) : State := { c with accesses := (i, j) :: c.accesses }

def store (i j : ℕ) (ch : UInt8) (c : State) : State :=
  { c.touch i j with screenbuf := c.screenbuf.put i j ch }

/-- `printcharpos` on the device of the console. -/
def draw (ch : UInt8) (x y : ℕ) (c : State) : State :=
  { c with display := printcharpos around ch x y c.display }

def clearscreen (c : State) : State :=
  let c := each c.cursorymax (fun i c =>
    (each c.cursorxmax (fun j c => c.store i j 32) c).store i c.cursorxmax 0) c
  each c.screenwidth (fun i => each c.screenheight fun j c =>
    { c with display := c.display.write i j black }) c

def refreshscreen (c : State) : State :=
  each c.cursorymax (fun i => each c.cursorxmax fun j c =>
    let c := { c with cursoron := false }
    let r := (c.linestart + i) % c.cursorymax
    { (c.touch r j).draw around (c.screenbuf r j) j i with cursoron := true }) c

/-- The assignments of `initconsole` before the screen is cleared. -/
def sized (width height : ℤ) (c : State) : State :=
  { c with
    screenwidth := (width % 2 ^ 32).toNat
    screenheight := (height % 2 ^ 32).toNat
    cursorx := 0
    cursory := 0
    cursorxmax := columns width
    cursorymax := lines height
    linestart := 0 }

/-- `initconsole` on a device of the given size. -/
def initconsole (width height : ℤ) (c : State) : State :=
  let c := (c.sized width height).clearscreen.refreshscreen around
  let c := { c with cursorx := 0, cursory := 0, cursoron := true, linefull := false }
  { c with display := printcursor 0 0 c.display }

def scrollText (c : State) : State :=
  let r := (c.linestart + c.cursory + 1) % c.cursorymax
  let c := each c.cursorxmax (fun i c => c.store r i 32) c
  { c with linestart := (c.linestart + 1) % c.cursorymax % 2 ^ 8 }

/-- The two branches of `printchar` that go to the next row. -/
def nextLine (c : State) : State :=
  let c := { c with cursorx := 0 }
  if succ32 c.cursory = c.cursorymax then c.scrollText.refreshscreen around
  else { c with cursory := succ32 c.cursory }

/-- The branch of `printchar` that moves the cursor behind a stored character. -/
def advance (c : State) : State :=
  if succ32 c.cursorx = c.cursorxmax then { c with linefull := true }.nextLine around
  else { c with linefull := false, cursorx := succ32 c.cursorx }

/-- `printchar` before it draws the cursor. -/
def place (ch : UInt8) (c : State) : State :=
  if ch = 10 then
    if c.linefull = false then (c.draw around ch c.cursorx c.cursory).nextLine around
    else { c with linefull := false }
  else
    let c := c.draw around ch c.cursorx c.cursory
    (c.store ((c.cursory + c.linestart) % c.cursorymax) c.cursorx ch).advance around

def printchar (c : State) (ch : UInt8) : State :=
  let c := c.place around ch
  if c.cursoron then { c with display := printcursor c.cursorx c.cursory c.display } else c

def text (c : State) (i j : ℕ) : UInt8 := c.screenbuf ((c.linestart + i) % c.cursorymax) j

end State

/-- The console after `initconsole` and a sequence of characters. -/
def printed (around : ℤ → UInt8) (pixel : Grid UInt32) (width height : ℤ) (s : List UInt8) :
    State :=
  s.foldl (State.printchar around) (State.initconsole around width height (boot pixel))

end NSOS.Console
