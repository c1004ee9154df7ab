import NSOS.Basis.Int32
import NSOS.Basis.Numeral
import NSOS.Basis.Text

/-! # Writing numbers

`number` writes the numeral of a word with a sign, a prefix and padding. It
collects the digits in an array of 36 bytes. A base is at least two and a word
has 32 bits, so at most 32 bytes of the array are used. What it writes is the
text that the field of the number must hold.
-/

namespace NSOS.Nslibc

open Basis Bytes

def byte (c : Char) : UInt8 := UInt8.ofNat c.toNat

/-- The flags of a field. Each is a bit in the source. -/
structure Flags where
  zeropad : Bool
  sign : Bool
  plus : Bool
  space : Bool
  left : Bool
  special : Bool
  small : Bool
  deriving DecidableEq

def Flags.none : Flags := ⟨false, false, false, false, false, false, false⟩

/-- The memory, and the place in it where the next character goes. -/
structure Out where
  mem : Bytes
  str : ℕ

namespace Out

def putc (o : Out) (c : UInt8) : Out := ⟨o.mem.put o.str c, o.str + 1⟩

def puts : Out → List UInt8 → Out
  | o, [] => o
  | o, c :: l => (o.putc c).puts l

/-- `while (size-- > 0) *str++ = c`, with what `size` is behind the loop. -/
def pad (o : Out) (c : UInt8) (size : ℤ) : Out × ℤ :=
  (o.puts (List.replicate size.toNat c), toInt (min size 0 - 1))

@[simp] theorem puts_nil (o : Out) : o.puts [] = o := rfl

theorem puts_append (o : Out) (l k : List UInt8) : o.puts (l ++ k) = (o.puts l).puts k := by
  induction l generalizing o with
  | nil => rfl
  | cons c l ih => exact ih (o.putc c)

theorem puts_eq (o : Out) (l : List UInt8) :
    o.puts l = ⟨o.mem.write o.str l, o.str + l.length⟩ := by
  induction l generalizing o with
  | nil => rfl
  | cons c l ih =>
    rw [puts, ih, putc, List.length_cons, Nat.add_assoc, Nat.add_comm 1]
    rfl

end Out

/-- The digits of `number`, with small letters or without. -/
def digits (small : Bool) : List UInt8 :=
  if small then
    ['0', '1', '2', '3', '4', '5', '6', '7', '8', '9', 'a', 'b', 'c', 'd', 'e', 'f', 'g', 'h',
      'i', 'j', 'k', 'l', 'm', 'n', 'o', 'p', 'q', 'r', 's', 't', 'u', 'v', 'w', 'x', 'y',
      'z'].map byte
  else
    ['0', '1', '2', '3', '4', '5', '6', '7', '8', '9', 'A', 'B', 'C', 'D', 'E', 'F', 'G', 'H',
      'I', 'J', 'K', 'L', 'M', 'N', 'O', 'P', 'Q', 'R', 'S', 'T', 'U', 'V', 'W', 'X', 'Y',
      'Z'].map byte

def digit (small : Bool) (d : ℕ) : UInt8 := (digits small).getD d 0

/-- The loop that fills `tmp`, with the room that is left there. Without room it would write behind
the array. -/
def tmpLoop (small : Bool) (base : ℕ) : ℕ → ℕ → Option (List UInt8)
  | room, num =>
    if num = 0 then some []
    else match room with
      | 0 => none
      | room + 1 => (tmpLoop small base room (num / base)).map (digit small (num % base) :: ·)

def signOf (type : Flags) (num : ℤ) : List UInt8 :=
  if type.sign ∧ num < 0 then [byte '-']
  else if type.plus then [byte '+']
  else if type.space then [byte ' ']
  else []

/-- `number`. Where the base is wrong it returns a null pointer. There is no result when `tmp` has
no room. -/
def number (o : Out) (num : ℤ) (base : ℕ) (size precision : ℤ) (type : Flags) : Option Out :=
  let small := type.small
  let type := if type.left then { type with zeropad := false } else type
  if base < 2 ∨ 36 < base then some { o with str := 0 }
  else
    let c := if type.zeropad then byte '0' else byte ' '
    let sign := signOf type num
    let num := if type.sign ∧ num < 0 then toInt (-num) else num
    let size := if sign ≠ [] then toInt (size - 1) else size
    let size :=
      if type.special then
        if base = 16 then toInt (size - 2) else if base = 8 then toInt (size - 1) else size
      else size
    let tmp := if num = 0 then some [byte '0'] else tmpLoop small base 36 (toU32 num).toNat
    tmp.map fun tmp =>
      let i : ℤ := tmp.length
      let precision := if precision < i then i else precision
      let size := toInt (size - precision)
      let (o, size) := if ¬ (type.zeropad ∨ type.left) then o.pad (byte ' ') size else (o, size)
      let o := o.puts sign
      let o :=
        if type.special then
          if base = 8 then o.putc (byte '0')
          else if base = 16 then (o.putc (byte '0')).putc (digit small 33)
          else o
        else o
      let (o, size) := if ¬ type.left then o.pad c size else (o, size)
      let o := o.puts (List.replicate (precision - i).toNat (byte '0'))
      let o := o.puts tmp.reverse
      (o.pad (byte ' ') size).1

section Text

def magnitude (type : Flags) (num : ℤ) : ℕ :=
  if type.sign ∧ num < 0 then num.natAbs else (toU32 num).toNat

/-- What stands in front of the digits to tell the base. -/
def prefixOf (type : Flags) (base : ℕ) : List UInt8 :=
  if type.special then
    if base = 8 then [byte '0'] else if base = 16 then [byte '0', digit type.small 33] else []
  else []

def digitText (small : Bool) (base n : ℕ) : List UInt8 := (numeral base n).map (digit small)

def preciseText (small : Bool) (base n : ℕ) (precision : ℤ) : List UInt8 :=
  List.replicate (precision - (numeral base n).length).toNat (byte '0') ++ digitText small base n

/-- A text in a field of some width, between what stands in front of it and what fills the field. -/
def fieldText (type : Flags) (size : ℤ) (front text : List UInt8) : List UInt8 :=
  let room := (size - (front.length + text.length : ℕ)).toNat
  if type.left then front ++ text ++ List.replicate room (byte ' ')
  else if type.zeropad then front ++ List.replicate room (byte '0') ++ text
  else List.replicate room (byte ' ') ++ front ++ text

def numberText (num : ℤ) (base : ℕ) (size precision : ℤ) (type : Flags) : List UInt8 :=
  fieldText type size (signOf type num ++ prefixOf type base)
    (preciseText type.small base (magnitude type num) precision)

end Text

section Digits

variable {small : Bool} {base n room : ℕ}

@[simp] theorem length_digitText : (digitText small base n).length = (numeral base n).length :=
  List.length_map _

theorem digit_zero : digit small 0 = byte '0' := by
  cases small <;> rfl

@[simp] theorem digitText_zero : digitText small base 0 = [byte '0'] := by
  rw [digitText, numeral_zero, List.map_singleton, digit_zero]

theorem digitText_of_lt (h : n < base) : digitText small base n = [digit small n] := by
  rw [digitText, numeral_of_lt h, List.map_singleton]

theorem digitText_of_le (hb : 1 < base) (h : base ≤ n) :
    digitText small base n = digitText small base (n / base) ++ [digit small (n % base)] := by
  rw [digitText, numeral_of_le hb h, List.map_append, List.map_singleton, digitText]

theorem tmpLoop_eq (hb : 1 < base) (hn : n < base ^ room) :
    tmpLoop small base room n = some (if n = 0 then [] else (digitText small base n).reverse) := by
  induction room generalizing n with
  | zero =>
    rw [Nat.pow_zero, Nat.lt_one_iff] at hn
    rw [tmpLoop, if_pos hn, if_pos hn]
  | succ room ih =>
    rw [tmpLoop]
    split
    case isTrue => rfl
    case isFalse hne =>
      have hdiv : n / base < base ^ room := Nat.div_lt_of_lt_mul (by rwa [← Nat.pow_succ'])
      rw [ih hdiv, Option.map_some]
      by_cases hlt : n < base
      · rw [if_pos (Nat.div_eq_of_lt hlt), digitText_of_lt hlt, Nat.mod_eq_of_lt hlt]
        rfl
      · have hle := Nat.le_of_not_lt hlt
        rw [if_neg (Nat.div_pos hle (by omega)).ne', digitText_of_le hb hle, List.reverse_concat]

theorem tmp_eq (hb : 1 < base) (hn : n < 2 ^ 32) :
    (if n = 0 then some [byte '0'] else tmpLoop small base 36 n) =
      some (digitText small base n).reverse := by
  split
  case isTrue hz =>
    rw [hz, digitText_zero]
    rfl
  case isFalse hne =>
    have hpow : n < base ^ 36 := calc
      n < 2 ^ 32 := hn
      _ ≤ 2 ^ 36 := by decide
      _ ≤ base ^ 36 := Nat.pow_le_pow_left hb 36
    rw [tmpLoop_eq hb hpow, if_neg hne]

end Digits

section Written

variable {o : Out} {c : UInt8} {type : Flags} {num size precision : ℤ} {base : ℕ}

theorem Out.pad_eq (h : -2 ^ 31 < size) :
    o.pad c size = (o.puts (List.replicate size.toNat c), min size 0 - 1) := by
  rw [Out.pad, toInt_of_range (by omega) (by omega)]

theorem Out.pad_of_nonpos (h : size ≤ 0) (h' : -2 ^ 31 < size) : o.pad c size = (o, size - 1) := by
  rw [Out.pad_eq h', Int.toNat_of_nonpos h, min_eq_left h]
  rfl

theorem magnitude_lt (type : Flags) (h : -2 ^ 31 ≤ num) : magnitude type num < 2 ^ 32 := by
  unfold magnitude toU32
  split <;> omega

/-- The code negates in 32 bits. The smallest number stays what it is, and as a word that is its
absolute value. -/
theorem toU32_negated (h₁ : -2 ^ 31 ≤ num) (h₂ : num < 2 ^ 31) :
    (toU32 (if type.sign ∧ num < 0 then toInt (-num) else num)).toNat = magnitude type num := by
  unfold magnitude
  split
  case isTrue h =>
    rw [toU32_toInt, toU32_of_range (by omega) (by omega)]
    omega
  case isFalse => rfl

theorem negated_eq_zero_iff (h₁ : -2 ^ 31 ≤ num) (h₂ : num < 2 ^ 31) :
    (if type.sign ∧ num < 0 then toInt (-num) else num) = 0 ↔ magnitude type num = 0 := by
  rw [← toU32_negated h₁ h₂]
  set x := if type.sign ∧ num < 0 then toInt (-num) else num with hx
  have hrange : -2 ^ 31 ≤ x ∧ x < 2 ^ 31 := by
    rw [hx]
    split
    · exact toInt_bounds _
    · exact ⟨h₁, h₂⟩
  unfold toU32
  omega

theorem length_fieldText {front text : List UInt8} : (fieldText type size front text).length =
    front.length + text.length + (size - (front.length + text.length : ℕ)).toNat := by
  unfold fieldText
  split_ifs <;> simp only [List.length_append, List.length_replicate] <;> omega

theorem size_sign (sign : List UInt8) (hsign : sign.length ≤ 1) (hsize : -1 ≤ size)
    (hsize' : size < 2 ^ 31) :
    (if sign ≠ [] then toInt (size - 1) else size) = size - sign.length := by
  cases sign with
  | nil => simp
  | cons c l =>
    rw [if_pos (List.cons_ne_nil c l), toInt_of_range (by omega) (by omega)]
    simp only [List.length_cons] at hsign ⊢
    omega

theorem length_signOf_le (type : Flags) (num : ℤ) : (signOf type num).length ≤ 1 := by
  unfold signOf
  split_ifs <;> simp

theorem length_prefixOf_le (type : Flags) (base : ℕ) : (prefixOf type base).length ≤ 2 := by
  unfold prefixOf
  split_ifs <;> simp

theorem size_prefix (hsize : -2 ≤ size) (hsize' : size < 2 ^ 31) :
    (if type.special then
      if base = 16 then toInt (size - 2) else if base = 8 then toInt (size - 1) else size
    else size) = size - (prefixOf type base).length := by
  unfold prefixOf
  split_ifs
  · omega
  · rw [toInt_of_range (by omega) (by omega)]
    rfl
  · rw [toInt_of_range (by omega) (by omega)]
    rfl
  · simp
  · simp

theorem puts_prefixOf : (if type.special then
      if base = 8 then o.putc (byte '0')
      else if base = 16 then (o.putc (byte '0')).putc (digit type.small 33)
      else o
    else o) = o.puts (prefixOf type base) := by
  unfold prefixOf
  split_ifs <;> rfl

/-- The three loops that fill a field put the padding into one of three places. -/
theorem pads_eq {zeropad left : Bool} {front text : List UInt8} (hsize : -2 ^ 31 + 2 < size) :
    (let (o, size) := if ¬ (zeropad ∨ left) then o.pad (byte ' ') size else (o, size)
     let o := o.puts front
     let (o, size) := if ¬ left then o.pad c size else (o, size)
     ((o.puts text).pad (byte ' ') size).1) =
    o.puts (if left then front ++ text ++ List.replicate size.toNat (byte ' ')
      else if zeropad then front ++ List.replicate size.toNat c ++ text
      else List.replicate size.toNat (byte ' ') ++ front ++ text) := by
  have h₁ (o : Out) (c : UInt8) :
      o.pad c size = (o.puts (List.replicate size.toNat c), min size 0 - 1) :=
    Out.pad_eq (by omega)
  have h₂ (o : Out) (c : UInt8) : o.pad c (min size 0 - 1) = (o, min size 0 - 1 - 1) :=
    Out.pad_of_nonpos (by omega) (by omega)
  have h₃ (o : Out) (c : UInt8) : o.pad c (min size 0 - 1 - 1) = (o, min size 0 - 1 - 1 - 1) :=
    Out.pad_of_nonpos (by omega) (by omega)
  cases left <;> cases zeropad <;> simp [h₁, h₂, h₃, Out.puts_append]

/-- `number` writes the text of the number. -/
theorem number_eq (hnum : -2 ^ 31 ≤ num) (hnum' : num < 2 ^ 31) (hb : 2 ≤ base) (hb' : base ≤ 36)
    (hsize : -1 ≤ size) (hsize' : size < 2 ^ 31) (hprec : precision < 2 ^ 31 - 40) :
    number o num base size precision type =
      some (o.puts (numberText num base size precision type)) := by
  have hmag := magnitude_lt type hnum
  have hlen : (numeral base (magnitude type num)).length ≤ 32 :=
    length_numeral_le hb (by decide) (hmag.trans_le (Nat.pow_le_pow_left hb 32))
  -- Justified to the left, a field is not filled with zeros.
  obtain ⟨t, ht⟩ : ∃ t, t = if type.left then { type with zeropad := false } else type := ⟨_, rfl⟩
  have hfields : t.small = type.small ∧ t.sign = type.sign ∧ t.left = type.left ∧
      t.special = type.special ∧ signOf t num = signOf type num := by
    rw [ht]
    split <;> exact ⟨rfl, rfl, rfl, rfl, rfl⟩
  obtain ⟨hsmall, hsgn, hleft, hspecial, hsign⟩ := hfields
  have htmp : (if (if t.sign ∧ num < 0 then toInt (-num) else num) = 0 then some [byte '0']
      else tmpLoop type.small base 36
        (toU32 (if t.sign ∧ num < 0 then toInt (-num) else num)).toNat) =
      some (digitText type.small base (magnitude type num)).reverse := by
    rw [hsgn, toU32_negated hnum hnum', ← tmp_eq hb hmag]
    exact if_congr (negated_eq_zero_iff hnum hnum') rfl rfl
  have hfront := length_signOf_le type num
  have hspec := length_prefixOf_le type base
  unfold number
  rw [if_neg (by omega)]
  simp only [← ht, htmp, Option.map_some, List.length_reverse, length_digitText,
    List.reverse_reverse, hsign, hspecial, hleft]
  rw [size_sign _ hfront hsize hsize', size_prefix (by omega) (by omega)]
  simp only [puts_prefixOf, ← Out.puts_append]
  obtain ⟨L, hL⟩ : ∃ L, L = (numeral base (magnitude type num)).length := ⟨_, rfl⟩
  obtain ⟨p, hp⟩ : ∃ p : ℤ, p = if precision < L then (L : ℤ) else precision := ⟨_, rfl⟩
  have hzeros : (p - L).toNat = (precision - L).toNat := by
    rw [hp]
    split <;> omega
  obtain ⟨k, hk⟩ : ∃ k : ℕ, k = (signOf type num ++ prefixOf type base).length +
      (preciseText type.small base (magnitude type num) precision).length := ⟨_, rfl⟩
  have hp' : (signOf type num).length + (prefixOf type base).length + p = k := by
    rw [hk, hp, preciseText, List.length_append, List.length_append, List.length_replicate,
      length_digitText, ← hL]
    split <;> omega
  have hrange : p < 2 ^ 31 - 8 := by
    rw [hp]
    split <;> omega
  have hroom : toInt (size - (signOf type num).length - (prefixOf type base).length - p) =
      size - k := by
    rw [toInt_of_range] <;> omega
  rw [← hL, ← hp, hroom, hzeros]
  refine congrArg some ((pads_eq (by omega)).trans ?_)
  rw [numberText, fieldText, ← hk, preciseText, ← hL]
  by_cases hl : type.left
  · rw [if_pos hl, if_pos hl]
  · rw [if_neg hl, if_neg hl, ht, if_neg hl]
    split
    · rfl
    · rfl

end Written

end NSOS.Nslibc
