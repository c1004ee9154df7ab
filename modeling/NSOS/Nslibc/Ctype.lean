import Mathlib.Data.Nat.Notation
import Mathlib.Data.UInt
import Mathlib.Tactic.Common

/-! # Character classes

The table of `ctype.c` has the classes of every byte, one bit for each class.
The characters that `simple_strtoul` takes for digits are the hexadecimal ones.
-/

namespace NSOS.Nslibc

namespace Ctype

def U : UInt8 := 0x01
def L : UInt8 := 0x02
def D : UInt8 := 0x04
def C : UInt8 := 0x08
/-- Punctuation. -/
def P : UInt8 := 0x10
/-- White space. -/
def S : UInt8 := 0x20
def X : UInt8 := 0x40
def SP : UInt8 := 0x80

/-- `_ctype`, eight bytes a line, from 128 on in runs of one class. -/
def table : List UInt8 :=
  [C, C, C, C, C, C, C, C,
   C, C ||| S, C ||| S, C ||| S, C ||| S, C ||| S, C, C,
   C, C, C, C, C, C, C, C,
   C, C, C, C, C, C, C, C,
   S ||| SP, P, P, P, P, P, P, P,
   P, P, P, P, P, P, P, P,
   D, D, D, D, D, D, D, D,
   D, D, P, P, P, P, P, P,
   P, U ||| X, U ||| X, U ||| X, U ||| X, U ||| X, U ||| X, U,
   U, U, U, U, U, U, U, U,
   U, U, U, U, U, U, U, U,
   U, U, U, P, P, P, P, P,
   P, L ||| X, L ||| X, L ||| X, L ||| X, L ||| X, L ||| X, L,
   L, L, L, L, L, L, L, L,
   L, L, L, L, L, L, L, L,
   L, L, L, P, P, P, P, C] ++
  List.replicate 32 0 ++ (S ||| SP) :: List.replicate 31 P ++
  List.replicate 23 U ++ P :: List.replicate 7 U ++ L :: List.replicate 23 L ++
  P :: List.replicate 8 L

def ismask (c : UInt8) : UInt8 := table.getD c.toNat 0

end Ctype

open Ctype

def isdigit (c : UInt8) : Bool := 48 ≤ c && c ≤ 57

def islower (c : UInt8) : Bool := ismask c &&& L != 0

def isxdigit (c : UInt8) : Bool := ismask c &&& (D ||| X) != 0

def toupper (c : UInt8) : UInt8 := if islower c then c - (97 - 65) else c

/-- The value that `simple_strtoul` gives a digit. -/
def digitValue (c : UInt8) : ℕ :=
  if isdigit c then c.toNat - 48
  else (if islower c then toupper c else c).toNat - 65 + 10

example : table.length = 256 := by decide +kernel

variable {c : UInt8}

theorem forall_byte {p : UInt8 → Prop} (h : ∀ n < 256, p (UInt8.ofNat n)) (c : UInt8) : p c := by
  have hc := h c.toNat c.toNat_lt
  rwa [UInt8.ofNat_toNat] at hc

theorem isxdigit_iff : isxdigit c = true ↔
    (48 ≤ c.toNat ∧ c.toNat ≤ 57) ∨ (65 ≤ c.toNat ∧ c.toNat ≤ 70) ∨
      (97 ≤ c.toNat ∧ c.toNat ≤ 102) :=
  forall_byte (p := fun c => isxdigit c = true ↔ (48 ≤ c.toNat ∧ c.toNat ≤ 57) ∨
    (65 ≤ c.toNat ∧ c.toNat ≤ 70) ∨ (97 ≤ c.toNat ∧ c.toNat ≤ 102)) (by decide +kernel) c

end NSOS.Nslibc
