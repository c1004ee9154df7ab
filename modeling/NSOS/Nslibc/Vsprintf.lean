import NSOS.Nslibc.Format
import NSOS.Nslibc.Strings

/-! # Formatted printing

`vsprintf` reads a format from memory and writes the text of its pieces behind
each other, with a zero at the end.
-/

namespace NSOS.Nslibc

open Basis Bytes

section Functions

/-- The loop `repeat:` from a place in front of the next character on. -/
def flagsLoop (m : Bytes) : ℕ → ℕ → Flags → Option (ℕ × Flags)
  | 0, _, _ => none
  | fuel + 1, fmt, flags =>
    match setFlag flags (m (fmt + 1)) with
    | some flags => flagsLoop m fuel (fmt + 1) flags
    | none => some (fmt + 1, flags)

def skipAtoiLoop (m : Bytes) : ℕ → ℕ → ℤ → Option (ℤ × ℕ)
  | 0, _, _ => none
  | fuel + 1, s, i =>
    if isdigit (m s) then skipAtoiLoop m fuel (s + 1) (toInt (i * 10 + (m s).toNat - 48))
    else some (i, s)

/-- `skip_atoi`. It returns the number, and the place behind it. -/
def skipAtoi (fuel : ℕ) (m : Bytes) (s : ℕ) : Option (ℤ × ℕ) := skipAtoiLoop m fuel s 0

/-- The part of `vsprintf` that gets the width. -/
def getWidth (fuel : ℕ) (m : Bytes) (fmt : ℕ) (flags : Flags) (args : List UInt32) :
    Option (ℤ × Flags × ℕ × List UInt32) :=
  if isdigit (m fmt) then (skipAtoi fuel m fmt).map fun (w, fmt) => (w, flags, fmt, args)
  else if m fmt = byte '*' then
    match args with
    | [] => none
    | w :: args =>
      let width := toInt w.toNat
      if width < 0 then some (toInt (-width), { flags with left := true }, fmt, args)
      else some (width, flags, fmt, args)
  else some (-1, flags, fmt, args)

/-- The part of `vsprintf` that gets the precision. -/
def getPrecision (fuel : ℕ) (m : Bytes) (fmt : ℕ) (args : List UInt32) :
    Option (ℤ × ℕ × List UInt32) :=
  if m fmt = byte '.' then
    if isdigit (m (fmt + 1)) then
      (skipAtoi fuel m (fmt + 1)).map fun (p, fmt) => (max p 0, fmt, args)
    else if m (fmt + 1) = byte '*' then
      match args with
      | [] => none
      | p :: args => some (max (toInt p.toNat) 0, fmt + 1, args)
    else some (0, fmt + 1, args)
  else some (-1, fmt, args)

namespace Out

/-- `while (--size > 0) *str++ = ' '`, with what `size` is behind the loop. -/
def prePad (o : Out) (size : ℤ) : Out × ℤ :=
  (o.puts (List.replicate (toInt (size - 1)).toNat (byte ' ')), min (toInt (size - 1)) 0)

/-- `while (len < size--) *str++ = ' '`, with what `size` is behind the loop. -/
def padTo (o : Out) (len size : ℤ) : Out × ℤ :=
  (o.puts (List.replicate (size - len).toNat (byte ' ')), toInt (min size len - 1))

end Out

/-- The character of the string `s` at the index `i`, where a null pointer is a string too. -/
def strChar (m : Bytes) (s i : ℕ) : UInt8 :=
  if s = 0 then (nullText ++ [0]).getD i 0 else m (s + i)

/-- The loop that copies `n` characters from the index `i` on. -/
def copyLoop (s : ℕ) : ℕ → ℕ → Out → Out
  | 0, _, o => o
  | n + 1, i, o => copyLoop s n (i + 1) (o.putc (strChar o.mem s i))

/-- The case `'c'`. -/
def printChar (o : Out) (flags : Flags) (width : ℤ) (w : UInt32) : Out :=
  let (o, width) := if ¬ flags.left then o.prePad width else (o, width)
  let o := o.putc (UInt8.ofNat w.toNat)
  (o.prePad width).1

/-- The case `'s'`. -/
def printString (fuel : ℕ) (o : Out) (flags : Flags) (width precision : ℤ) (s : ℕ) : Option Out :=
  let len := if s = 0 then some nullText.length else strlen fuel o.mem s
  len.map fun (n : ℕ) =>
    let len := toInt n
    let len := if precision < 0 then len else if precision < len then precision else len
    let (o, width) := if ¬ flags.left then o.padTo len width else (o, width)
    let o := copyLoop s len.toNat 0 o
    (o.padTo len width).1

/-- Use the next argument, `va_arg`. -/
def vaArg (args : List UInt32) (f : UInt32 → Option Out) : Option (Out × List UInt32) :=
  match args with
  | [] => none
  | w :: args => (f w).map (·, args)

/-- The cases of the switch over the conversion `c` that use an argument. -/
def convert (fuel buf : ℕ) (c : UInt8) (o : Out) (flags : Flags) (width precision : ℤ)
    (args : List UInt32) : Option (Option (Out × List UInt32)) :=
  if c = byte 'c' then some (vaArg args fun w => some (printChar o flags width w))
  else if c = byte 's' then
    some (vaArg args fun s => printString fuel o flags width precision s.toNat)
  else if c = byte 'o' then
    some (vaArg args fun w => number o (toInt w.toNat) 8 width precision flags)
  else if c = byte 'p' then
    let (width, flags) := if width = -1 then (8, { flags with zeropad := true }) else (width, flags)
    some (vaArg args fun w => number o (toInt w.toNat) 16 width precision flags)
  else if c = byte 'x' ∨ c = byte 'X' then
    let flags := if c = byte 'x' then { flags with small := true } else flags
    some (vaArg args fun w => number o (toInt w.toNat) 16 width precision flags)
  else if c = byte 'd' ∨ c = byte 'i' ∨ c = byte 'u' then
    let flags := if c = byte 'd' ∨ c = byte 'i' then { flags with sign := true } else flags
    some (vaArg args fun w => number o (toInt w.toNat) 10 width precision flags)
  else if c = byte 'n' then
    some (vaArg args fun ip => some { o with mem := o.mem.store ip.toNat (o.str - buf) })
  else none

/-- The default case, and the place where the format goes on. At the end of the format it stays. -/
def printOther (fmt : ℕ) (o : Out) : ℕ × Out :=
  let o := if o.mem fmt ≠ byte '%' then o.putc (byte '%') else o
  if o.mem fmt ≠ 0 then (fmt + 1, o.putc (o.mem fmt)) else (fmt, o)

/-- The part of `vsprintf` that reads a field up to its conversion. -/
def getField (fuel : ℕ) (m : Bytes) (fmt : ℕ) (args : List UInt32) :
    Option (Flags × ℤ × ℤ × ℕ × List UInt32) := do
  let (fmt, flags) ← flagsLoop m fuel fmt .none
  let (width, flags, fmt, args) ← getWidth fuel m fmt flags args
  let (precision, fmt, args) ← getPrecision fuel m fmt args
  let c := m fmt
  let fmt := if c = byte 'h' ∨ c = byte 'l' ∨ c = byte 'L' then fmt + 1 else fmt
  return (flags, width, precision, fmt, args)

def printField (fuel buf fmt : ℕ) (o : Out) (args : List UInt32) :
    Option (ℕ × Out × List UInt32) := do
  let (flags, width, precision, fmt, args) ← getField fuel o.mem fmt args
  match convert fuel buf (o.mem fmt) o flags width precision args with
  | some printed => printed.map fun (o, args) => (fmt + 1, o, args)
  | none => some ((printOther fmt o).1, (printOther fmt o).2, args)

def vsprintfLoop (buf : ℕ) : ℕ → ℕ → Out → List UInt32 → Option Out
  | 0, _, _, _ => none
  | fuel + 1, fmt, o, args =>
    if o.mem fmt = 0 then some o
    else if o.mem fmt ≠ byte '%' then vsprintfLoop buf fuel (fmt + 1) (o.putc (o.mem fmt)) args
    else do
      let (fmt, o, args) ← printField fuel buf fmt o args
      vsprintfLoop buf fuel fmt o args

/-- `vsprintf`. It returns the length of the text. -/
def vsprintf (fuel : ℕ) (m : Bytes) (buf fmt : ℕ) (args : List UInt32) : Option (ℕ × Bytes) :=
  (vsprintfLoop buf fuel fmt ⟨m, buf⟩ args).map fun o => (o.str - buf, o.mem.put o.str 0)

def sprintf (fuel : ℕ) (m : Bytes) (buf fmt : ℕ) (args : List UInt32) : Option (ℕ × Bytes) :=
  vsprintf fuel m buf fmt args

end Functions

section Reading

variable {m m' : Bytes} {a b e fuel : ℕ} {c : UInt8} {l : List UInt8} {i : ℤ} {flags : Flags}
  {args : List UInt32}

/-- What is left of a format that ends at `e`. -/
structure Rest (m : Bytes) (e a : ℕ) (l : List UInt8) : Prop where
  text : m.IsText a l
  ends : a + l.length = e

theorem Rest.head (h : Rest m e a l) : m a = l.headD 0 := by
  cases l with
  | nil => exact h.text.holds.1
  | cons c l => exact h.text.holds.1

theorem Rest.tail (h : Rest m e a (c :: l)) : Rest m e (a + 1) l := by
  refine ⟨⟨h.text.holds.2, List.not_mem_of_not_mem_cons h.text.nonzero⟩, ?_⟩
  rw [← h.ends, List.length_cons]
  omega

theorem Rest.tail_of_ne (h : Rest m e a l) (hc : l.headD 0 ≠ 0) : Rest m e (a + 1) l.tail := by
  cases l with
  | nil => exact absurd rfl hc
  | cons c l => exact h.tail

theorem Rest.headD_eq_zero (h : Rest m e a l) : l.headD 0 = 0 ↔ l = [] := by
  cases l with
  | nil => simp
  | cons c l => simpa using (List.ne_of_not_mem_cons h.text.nonzero).symm

theorem not_isdigit_zero : isdigit 0 = false := by decide

theorem setFlag_zero : setFlag flags 0 = none := by
  simp [setFlag, byte]

theorem length_flagsOf_le (flags : Flags) (l : List UInt8) :
    (flagsOf flags l).2.length ≤ l.length := by
  induction l generalizing flags with
  | nil => exact le_rfl
  | cons c l ih =>
    rw [flagsOf]
    split
    · exact (ih _).trans (Nat.le_succ _)
    · exact le_rfl

theorem length_intOf_le : (intOf i l).2.length ≤ l.length := by
  induction l generalizing i with
  | nil => exact le_rfl
  | cons c l ih =>
    rw [intOf]
    split
    · exact ih.trans (Nat.le_succ _)
    · exact le_rfl

theorem flagsLoop_eq (flags : Flags) (h : Rest m e (a + 1) l) (hfuel : l.length < fuel) :
    ∃ b, flagsLoop m fuel a flags = some (b, (flagsOf flags l).1) ∧
      Rest m e b (flagsOf flags l).2 := by
  induction l generalizing a flags fuel with
  | nil =>
    obtain ⟨fuel, rfl⟩ := Nat.exists_eq_succ_of_ne_zero (Nat.ne_zero_of_lt hfuel)
    refine ⟨a + 1, ?_, h⟩
    rw [flagsLoop, h.head, List.headD_nil, setFlag_zero]
    rfl
  | cons c l ih =>
    obtain ⟨fuel, rfl⟩ := Nat.exists_eq_succ_of_ne_zero (Nat.ne_zero_of_lt hfuel)
    rw [flagsLoop, flagsOf, h.head, List.headD_cons]
    cases hset : setFlag flags c with
    | some flags' => exact ih flags' h.tail (Nat.lt_of_succ_lt_succ hfuel)
    | none => exact ⟨a + 1, rfl, h⟩

theorem skipAtoiLoop_eq (h : Rest m e a l) (hfuel : l.length < fuel) :
    ∃ b, skipAtoiLoop m fuel a i = some ((intOf i l).1, b) ∧ Rest m e b (intOf i l).2 := by
  induction l generalizing a i fuel with
  | nil =>
    obtain ⟨fuel, rfl⟩ := Nat.exists_eq_succ_of_ne_zero (Nat.ne_zero_of_lt hfuel)
    refine ⟨a, ?_, h⟩
    rw [skipAtoiLoop, h.head, List.headD_nil, not_isdigit_zero]
    rfl
  | cons c l ih =>
    obtain ⟨fuel, rfl⟩ := Nat.exists_eq_succ_of_ne_zero (Nat.ne_zero_of_lt hfuel)
    rw [skipAtoiLoop, intOf, h.head, List.headD_cons]
    split
    · exact ih h.tail (Nat.lt_of_succ_lt_succ hfuel)
    · exact ⟨a, rfl, h⟩

def dropStar (star : Bool) (args : List UInt32) : Option (List UInt32) :=
  if star then args.tail? else some args

theorem widthOf_of_isdigit (h : isdigit (l.headD 0) = true) :
    widthOf l = ((intOf 0 l).1, false, (intOf 0 l).2) := if_pos h

theorem widthOf_of_not (h : ¬ isdigit (l.headD 0) = true) :
    widthOf l = (-1, l.headD 0 == byte '*', l) := if_neg h

theorem dropStar_or {star star' : Bool} (h : star = true → star' = false) :
    dropStar (star || star') args = (dropStar star args).bind (dropStar star') := by
  cases star with
  | true =>
    rw [h rfl]
    cases args <;> rfl
  | false => rfl

theorem length_widthOf_le : (widthOf l).2.2.length ≤ l.length := by
  unfold widthOf
  split
  · exact length_intOf_le
  · exact le_rfl

theorem widthOf_star (h : (widthOf l).2.1 = true) :
    (widthOf l).2.2 = l ∧ l.headD 0 = byte '*' := by
  unfold widthOf at h ⊢
  split at h
  · cases h
  case isFalse hd =>
    rw [if_neg hd]
    exact ⟨rfl, eq_of_beq h⟩

theorem getWidth_eq (flags : Flags) (args : List UInt32) (h : Rest m e a l)
    (hfuel : l.length < fuel) :
    ∃ b w f, Rest m e b (widthOf l).2.2 ∧
      ((widthOf l).2.1 = false → w = (widthOf l).1 ∧ f = flags) ∧
      getWidth fuel m a flags args =
        (dropStar (widthOf l).2.1 args).map fun args => (w, f, b, args) := by
  unfold getWidth
  rw [h.head]
  by_cases hd : isdigit (l.headD 0)
  · obtain ⟨b, hrun, hrest⟩ := skipAtoiLoop_eq (i := 0) h hfuel
    rw [if_pos hd, widthOf_of_isdigit hd, skipAtoi, hrun]
    exact ⟨b, _, _, hrest, fun _ => ⟨rfl, rfl⟩, rfl⟩
  · rw [if_neg hd, widthOf_of_not hd]
    by_cases hs : l.headD 0 = byte '*'
    · rw [if_pos hs, hs]
      cases args with
      | nil => exact ⟨a, 0, flags, h, by simp, rfl⟩
      | cons w args =>
        by_cases hneg : toInt w.toNat < 0
        · exact ⟨a, toInt (-toInt w.toNat), { flags with left := true }, h, by simp,
            by simp only [if_pos hneg]; rfl⟩
        · exact ⟨a, toInt w.toNat, flags, h, by simp, by simp only [if_neg hneg]; rfl⟩
    · rw [if_neg hs, beq_eq_false_iff_ne.mpr hs]
      exact ⟨a, -1, flags, h, fun _ => ⟨rfl, rfl⟩, rfl⟩

theorem length_precisionOf_le : (precisionOf l).2.2.length ≤ l.length := by
  unfold precisionOf
  split
  · exact length_widthOf_le.trans (by simp)
  · exact le_rfl

theorem precisionOf_star (h : (precisionOf l).2.1 = true) :
    (precisionOf l).2.2.headD 0 = byte '*' := by
  unfold precisionOf at h ⊢
  split at h
  case isTrue hd =>
    rw [if_pos hd]
    obtain ⟨heq, hstar⟩ := widthOf_star h
    exact (congrArg (·.headD 0) heq).trans hstar
  case isFalse => cases h

theorem getPrecision_eq (args : List UInt32) (h : Rest m e a l) (hfuel : l.length < fuel) :
    ∃ b p, Rest m e b (precisionOf l).2.2 ∧
      ((precisionOf l).2.1 = false → p = (precisionOf l).1) ∧
      getPrecision fuel m a args =
        (dropStar (precisionOf l).2.1 args).map fun args => (p, b, args) := by
  unfold getPrecision precisionOf
  rw [h.head]
  by_cases hdot : l.headD 0 = byte '.'
  · rw [if_pos hdot, if_pos hdot]
    have htail := h.tail_of_ne (by rw [hdot]; decide)
    have hfuel' : l.tail.length < fuel := (by simp : l.tail.length ≤ l.length).trans_lt hfuel
    rw [htail.head]
    by_cases hd : isdigit (l.tail.headD 0)
    · obtain ⟨b, hrun, hrest⟩ := skipAtoiLoop_eq (i := 0) htail hfuel'
      rw [if_pos hd, widthOf_of_isdigit hd, skipAtoi, hrun]
      exact ⟨b, _, hrest, fun _ => rfl, rfl⟩
    · rw [if_neg hd, widthOf_of_not hd]
      by_cases hs : l.tail.headD 0 = byte '*'
      · rw [if_pos hs, hs]
        cases args with
        | nil => exact ⟨a + 1, 0, htail, by simp, rfl⟩
        | cons p args => exact ⟨a + 1, max (toInt p.toNat) 0, htail, by simp, rfl⟩
      · rw [if_neg hs, beq_eq_false_iff_ne.mpr hs]
        exact ⟨a + 1, 0, htail, fun _ => rfl, rfl⟩
  · rw [if_neg hdot, if_neg hdot]
    exact ⟨a, -1, h, fun _ => rfl, rfl⟩

def fromConv (l : List UInt8) : List UInt8 :=
  skipQualifier (precisionOf (widthOf (flagsOf .none l).2).2.2).2.2

theorem fieldOf_eq : fieldOf l = (⟨(flagsOf .none l).1, (widthOf (flagsOf .none l).2).1,
    (precisionOf (widthOf (flagsOf .none l).2).2.2).1,
    (widthOf (flagsOf .none l).2).2.1 || (precisionOf (widthOf (flagsOf .none l).2).2.2).2.1,
    (fromConv l).headD 0⟩, (fromConv l).tail) := rfl

theorem precisionOf_of_star (h : l.headD 0 = byte '*') : precisionOf l = (-1, false, l) := by
  rw [precisionOf, h, if_neg (by decide)]

theorem skipQualifier_of_star (h : l.headD 0 = byte '*') : skipQualifier l = l := by
  rw [skipQualifier, h, if_neg (by decide)]

theorem conv_of_star (h : (fieldOf l).1.star = true) : (fieldOf l).1.conv = byte '*' := by
  rw [fieldOf_eq] at h ⊢
  change (_ || _) = true at h
  change (fromConv l).headD 0 = _
  rw [fromConv]
  rcases Bool.or_eq_true_iff.mp h with hw | hp
  · obtain ⟨heq, hstar⟩ := widthOf_star hw
    rw [heq, precisionOf_of_star hstar, skipQualifier_of_star hstar, hstar]
  · rw [skipQualifier_of_star (precisionOf_star hp), precisionOf_star hp]

theorem length_skipQualifier_le : (skipQualifier l).length ≤ l.length := by
  unfold skipQualifier
  split
  · simp
  · exact le_rfl

theorem length_fromConv_le : (fromConv l).length ≤ l.length :=
  length_skipQualifier_le.trans (length_precisionOf_le.trans
    (length_widthOf_le.trans (length_flagsOf_le _ _)))

theorem skipQualifier_rest (h : Rest m e a l) :
    Rest m e (if m a = byte 'h' ∨ m a = byte 'l' ∨ m a = byte 'L' then a + 1 else a)
      (skipQualifier l) := by
  rw [skipQualifier, h.head]
  split
  case isTrue hq =>
    apply h.tail_of_ne
    rcases hq with hq | hq | hq <;>
    · rw [hq]
      decide
  case isFalse => exact h

theorem getField_eq (args : List UInt32) (h : Rest m e (a + 1) l) (hfuel : l.length < fuel) :
    ∃ b w p f, Rest m e b (fromConv l) ∧
      ((fieldOf l).1.star = false →
        w = (fieldOf l).1.width ∧ p = (fieldOf l).1.precision ∧ f = (fieldOf l).1.flags) ∧
      getField fuel m a args =
        (dropStar (fieldOf l).1.star args).map fun args => (f, w, p, b, args) := by
  obtain ⟨a₁, hflags, h₁⟩ := flagsLoop_eq .none h hfuel
  have hl₁ := (length_flagsOf_le .none l).trans_lt hfuel
  obtain ⟨a₂, w, f, h₂, hw, hwidth⟩ :=
    getWidth_eq (flagsOf .none l).1 args h₁ hl₁
  have hl₂ := length_widthOf_le.trans_lt hl₁
  have hstars : (widthOf (flagsOf .none l).2).2.1 = true →
      (precisionOf (widthOf (flagsOf .none l).2).2.2).2.1 = false := by
    intro hstar
    obtain ⟨heq, hhead⟩ := widthOf_star hstar
    rw [heq, precisionOf_of_star hhead]
  have hstar : (fieldOf l).1.star = ((widthOf (flagsOf .none l).2).2.1 ||
      (precisionOf (widthOf (flagsOf .none l).2).2.2).2.1) := rfl
  rw [hstar, dropStar_or hstars]
  unfold getField
  rw [hflags, Option.bind_eq_bind, Option.bind_some]
  simp only [hwidth]
  cases hdrop : dropStar (widthOf (flagsOf .none l).2).2.1 args with
  | none =>
    obtain ⟨a₃, p, h₃, hp, -⟩ := getPrecision_eq [] h₂ hl₂
    refine ⟨_, w, p, f, skipQualifier_rest h₃, ?_, rfl⟩
    intro hno
    obtain ⟨hno₁, hno₂⟩ := Bool.or_eq_false_iff.mp hno
    exact ⟨(hw hno₁).1, hp hno₂, (hw hno₁).2⟩
  | some args₂ =>
    obtain ⟨a₃, p, h₃, hp, hprecision⟩ := getPrecision_eq args₂ h₂ hl₂
    refine ⟨_, w, p, f, skipQualifier_rest h₃, ?_, ?_⟩
    · intro hno
      obtain ⟨hno₁, hno₂⟩ := Bool.or_eq_false_iff.mp hno
      exact ⟨(hw hno₁).1, hp hno₂, (hw hno₁).2⟩
    · simp only [Option.map_some, Option.bind_eq_bind, Option.bind_some, hprecision]
      cases dropStar (precisionOf (widthOf (flagsOf .none l).2).2.2).2.1 args₂ <;> rfl

end Reading

section Printing

variable {m : Bytes} {o : Out} {flags : Flags} {width precision : ℤ} {w : UInt32} {s n i : ℕ}
  {fuel buf : ℕ} {l k : List UInt8} {d : Field} {args : List UInt32}

theorem Out.prePad_eq (o : Out) {w : ℤ} (h : -2 ^ 31 < w) (h' : w < 2 ^ 31) :
    o.prePad w = (o.puts (List.replicate (w - 1).toNat (byte ' ')), min (w - 1) 0) := by
  rw [Out.prePad, toInt_of_range (by omega) (by omega)]

theorem printChar_eq (h : -1 ≤ width) (h' : width < 2 ^ 31) :
    printChar o flags width w =
      o.puts (fieldText { flags with zeropad := false } width [] [UInt8.ofNat w.toNat]) := by
  have h₁ (o : Out) := Out.prePad_eq o (w := width) (by omega) h'
  have h₂ (o : Out) := Out.prePad_eq o (w := min (width - 1) 0) (by omega) (by omega)
  have hroom : (min (width - 1) 0 - 1).toNat = 0 := by omega
  unfold printChar fieldText
  cases flags.left <;> simp [h₁, h₂, hroom, Out.puts_append, Out.puts]

theorem Out.padTo_eq (o : Out) {w len : ℤ} (h : -2 ≤ w) (hlen : 0 ≤ len)
    (hlen' : len < 2 ^ 31) :
    o.padTo len w = (o.puts (List.replicate (w - len).toNat (byte ' ')), min w len - 1) := by
  rw [Out.padTo, toInt_of_range (by omega) (by omega)]

theorem copyLoop_eq (hs : s ≠ 0) (h : o.mem.Holds (s + i) l)
    (hout : s + i + l.length ≤ o.str ∨ o.str + l.length ≤ s + i) :
    copyLoop s l.length i o = o.puts l := by
  induction l generalizing i o with
  | nil => rfl
  | cons c l ih =>
    rw [List.length_cons] at hout
    obtain ⟨hc, h⟩ := h
    rw [List.length_cons, copyLoop, strChar, if_neg hs, hc]
    refine ih ?_ ?_
    · exact h.put (by omega)
    · change s + (i + 1) + l.length ≤ o.str + 1 ∨ o.str + 1 + l.length ≤ s + (i + 1)
      omega

/-- The loop does not overwrite what it still has to read, even when it starts inside of it. -/
theorem copyLoop_null (hn : n ≤ nullText.length) :
    copyLoop 0 n 0 o = o.puts (nullText.take n) := by
  have hn : n ≤ 6 := hn
  interval_cases n <;> rfl

theorem length_cut (precision : ℤ) (hl : l.length < 2 ^ 31) :
    ((cut precision l).length : ℤ) =
      if precision < 0 then (l.length : ℤ) else if precision < l.length then precision
      else l.length := by
  unfold cut
  split
  · rfl
  · rw [List.length_take]
    split <;> omega

theorem printString_of_copy (h : -1 ≤ width) (hl : l.length < 2 ^ 31)
    (hlen : (if s = 0 then some nullText.length else strlen fuel o.mem s) = some l.length)
    (hcopy : ∀ k ≤ (width - (cut precision l).length).toNat,
      copyLoop s (cut precision l).length 0 (o.puts (List.replicate k (byte ' '))) =
        (o.puts (List.replicate k (byte ' '))).puts (cut precision l)) :
    printString fuel o flags width precision s =
      some (o.puts (fieldText { flags with zeropad := false } width [] (cut precision l))) := by
  obtain ⟨k, hk⟩ : ∃ k, k = cut precision l := ⟨_, rfl⟩
  have hklen : k.length < 2 ^ 31 := by
    rw [hk, cut]
    split
    · exact hl
    · exact (List.length_take_le' _ _).trans_lt hl
  have hcut := length_cut precision hl
  rw [← hk] at hcopy hcut ⊢
  have h₁ (o : Out) := Out.padTo_eq o (w := width) (by omega)
    (Int.natCast_nonneg k.length) (by omega)
  have h₂ (o : Out) := Out.padTo_eq o (w := min width k.length - 1) (by omega)
    (Int.natCast_nonneg k.length) (by omega)
  have hroom : (min width k.length - 1 - k.length).toNat = 0 := by omega
  unfold printString fieldText
  rw [hlen, Option.map_some, toInt_of_range (by omega) (by omega)]
  simp only [← hcut, Int.toNat_natCast]
  cases flags.left with
  | true =>
    have hstart := hcopy 0 (Nat.zero_le _)
    rw [List.replicate_zero, Out.puts_nil] at hstart
    simp [h₁, hstart, Out.puts_append]
  | false =>
    have hfull := hcopy _ le_rfl
    simp only [Bool.false_eq_true, not_false_eq_true, if_true, h₁, hfull, h₂, hroom,
      List.replicate_zero, Out.puts_nil, List.length_nil, Nat.zero_add, Bool.false_eq_true,
      if_false, List.append_nil, Out.puts_append]

end Printing

end NSOS.Nslibc
