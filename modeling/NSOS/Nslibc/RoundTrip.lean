import NSOS.Basis.Decimal
import NSOS.Nslibc.Rendering
import NSOS.Nslibc.Strtoul

/-! # Numbers that are printed and read again

A format that is a single field prints one argument. Without flags, a width or
a precision, the text is the usual numeral of the argument. What `%#o` and
`%#x` print is read back by `simple_strtoul` without being told the base.
-/

namespace NSOS.Nslibc

open Basis Bytes

section Single

variable {m : Bytes} {buf lo hi fmt base : ℕ} {str : ℕ → List UInt8} {r : Printed} {d : Field}
  {flags : Flags} {width : ℤ} {w : UInt32} {f l : List UInt8} {args : List UInt32}

theorem vsprintf_field (hf : m.IsText fmt f) (hd : pieces f = [.field d]) (hm : d.Modest)
    (hstar : d.star = false) (hnum : d.numeric = some (flags, base, width))
    (hout : buf + (d.number flags base width w).length < fmt ∨ fmt + f.length < buf)
    (args : List UInt32) : ∃ n, ∀ fuel, n ≤ fuel → vsprintf fuel m buf fmt (w :: args) =
      some ((d.number flags base width w).length,
        m.write buf (d.number flags base width w ++ [0])) := by
  have hr : render (fun _ => []) (pieces f) (.start (w :: args)) =
      some ⟨d.number flags base width w, args, [], []⟩ := by
    rw [hd, render_cons, Piece.render, Field.render, hstar, hnum]
    rfl
  have hmodest : ∀ x ∈ pieces f, x.Modest := by
    intro x hx
    rw [hd, List.mem_singleton] at hx
    rwa [hx]
  exact vsprintf_eq hf hr (apart_of_plain rfl rfl hout) hmodest

end Single

section Usual

variable {m : Bytes} {buf fmt base n : ℕ} {w : UInt32} {x : ℤ} {c : Char} {small : Bool}

theorem digit_eq (small : Bool) (h : n < 10 ∨ small = true ∧ n < 16) :
    digit small n = byte n.digitChar := by
  have hall : ∀ n < 16, ∀ small, (n < 10 ∨ small = true) → digit small n = byte n.digitChar := by
    decide
  exact hall n (by omega) small (by tauto)

/-- The digits are those of the usual numeral, up to ten or in small letters. -/
theorem digitText_eq (hb : 1 < base) (hb' : base ≤ 10 ∨ small = true ∧ base ≤ 16) :
    digitText small base n = (Nat.toDigits base n).map byte := by
  have hdigit {d : ℕ} (h : d < base) : digit small d = byte d.digitChar :=
    digit_eq small (hb'.imp h.trans_le fun hs => ⟨hs.1, h.trans_le hs.2⟩)
  induction n using Nat.strongRecOn with
  | ind n ih =>
    by_cases hlt : n < base
    · rw [digitText_of_lt hlt, Nat.toDigits_of_lt_base hlt, hdigit hlt]
      rfl
    · have hle := Nat.le_of_not_lt hlt
      rw [digitText_of_le hb hle, Nat.toDigits_of_base_le hb hle,
        ih (n / base) (Nat.div_lt_self (by omega) hb), List.map_append,
        hdigit (Nat.mod_lt n (Nat.zero_lt_of_lt hb))]
      rfl

def bare (c : Char) : Field := ⟨.none, -1, -1, false, byte c⟩

theorem modest_bare (c : Char) : (bare c).Modest := by
  refine ⟨le_rfl, ?_, ?_⟩ <;> simp [bare]

/-- The usual numeral of an argument in a conversion. -/
def usual (c : Char) (w : UInt32) : List Char :=
  if c = 'd' ∨ c = 'i' then (toString (toInt w.toNat)).toList
  else if c = 'u' then Nat.toDigits 10 w.toNat
  else if c = 'o' then Nat.toDigits 8 w.toNat
  else Nat.toDigits 16 w.toNat

theorem toU32_word (w : UInt32) : (toU32 (toInt w.toNat)).toNat = w.toNat := by
  have hw := w.toNat_lt
  rw [toU32_toInt, toU32_of_range (by omega) (by omega)]
  omega

theorem numberText_bare (type : Flags) (num : ℤ) (base : ℕ) :
    numberText num base (-1) (-1) type =
      signOf type num ++ prefixOf type base ++ digitText type.small base (magnitude type num) := by
  have hzero (k : ℕ) : (-1 - (k : ℤ)).toNat = 0 := by omega
  unfold numberText fieldText preciseText
  simp only [hzero, List.replicate_zero, List.nil_append, List.append_nil]
  split_ifs <;> rfl

theorem numberText_signed (hx : x < 2 ^ 31) :
    numberText x 10 (-1) (-1) { Flags.none with sign := true } = (toString x).toList.map byte := by
  have hdigits : digitText false 10 x.natAbs = (Nat.toDigits 10 x.natAbs).map byte :=
    digitText_eq (by decide) (.inl le_rfl)
  rw [numberText_bare, Int.toString_eq_repr, Int.repr_eq_if]
  by_cases hneg : x < 0
  · have hsign : signOf { Flags.none with sign := true } x = [byte '-'] := if_pos ⟨rfl, hneg⟩
    have hmag : magnitude { Flags.none with sign := true } x = x.natAbs := if_pos ⟨rfl, hneg⟩
    have habs : (-x).toNat = x.natAbs := by omega
    rw [if_neg (by omega), hsign, hmag, habs, String.toList_append, Nat.toList_repr,
      List.map_append]
    exact congrArg ([byte '-'] ++ ·) hdigits
  · have hsign : signOf { Flags.none with sign := true } x = [] := by
      simp [signOf, hneg, Flags.none]
    have hmag : magnitude { Flags.none with sign := true } x = x.natAbs := by
      rw [magnitude, if_neg (fun h => hneg h.2), toU32_of_range (by omega) (by omega)]
      omega
    have habs : x.toNat = x.natAbs := by omega
    rw [if_pos (by omega), hsign, hmag, habs, Nat.toList_repr]
    exact hdigits

theorem numberText_unsigned {type : Flags} (hs : type.sign = false) (hp : type.plus = false)
    (hsp : type.space = false) (hsc : type.special = false) (hb : 1 < base)
    (hb' : base ≤ 10 ∨ type.small = true ∧ base ≤ 16) :
    numberText (toInt w.toNat) base (-1) (-1) type = (Nat.toDigits base w.toNat).map byte := by
  have hsign : signOf type (toInt w.toNat) = [] := by simp [signOf, hs, hp, hsp]
  have hfront : prefixOf type base = [] := by simp [prefixOf, hsc]
  have hmag : magnitude type (toInt w.toNat) = w.toNat := by simp [magnitude, hs, toU32_word]
  rw [numberText_bare, hsign, hfront, hmag, digitText_eq hb hb']
  rfl

theorem usual_eq (hc : c ∈ ['d', 'i', 'u', 'o', 'x']) : ∃ flags base,
    (bare c).numeric = some (flags, base, -1) ∧
      (bare c).number flags base (-1) w = (usual c w).map byte := by
  have hsigned := numberText_signed (x := toInt w.toNat) (toInt_bounds _).2
  have hunsigned {base : ℕ} {small : Bool} (hb : 1 < base)
      (hb' : base ≤ 10 ∨ small = true ∧ base ≤ 16) :
      numberText (toInt w.toNat) base (-1) (-1) { Flags.none with small := small } =
        (Nat.toDigits base w.toNat).map byte :=
    numberText_unsigned rfl rfl rfl rfl hb hb'
  simp only [List.mem_cons, List.not_mem_nil, or_false] at hc
  rcases hc with rfl | rfl | rfl | rfl | rfl
  · refine ⟨{ Flags.none with sign := true }, 10, rfl, ?_⟩
    rw [usual, if_pos (by decide), ← hsigned]
    rfl
  · refine ⟨{ Flags.none with sign := true }, 10, rfl, ?_⟩
    rw [usual, if_pos (by decide), ← hsigned]
    rfl
  · refine ⟨.none, 10, rfl, ?_⟩
    rw [usual, if_neg (by decide), if_pos (by decide), ← hunsigned (by decide) (.inl le_rfl)]
    rfl
  · refine ⟨.none, 8, rfl, ?_⟩
    rw [usual, if_neg (by decide), if_neg (by decide), if_pos (by decide),
      ← hunsigned (by decide) (.inl (by decide))]
    rfl
  · refine ⟨{ Flags.none with small := true }, 16, rfl, ?_⟩
    rw [usual, if_neg (by decide), if_neg (by decide), if_neg (by decide),
      ← hunsigned (by decide) (.inr ⟨rfl, le_rfl⟩)]
    rfl

/-- A conversion without flags, width and precision prints the usual numeral of its argument. The
signed ones do so for every `int`. -/
theorem vsprintf_usual (hc : c ∈ ['d', 'i', 'u', 'o', 'x'])
    (hf : m.IsText fmt [byte '%', byte c])
    (hout : buf + (usual c w).length < fmt ∨ fmt + 2 < buf) (args : List UInt32) :
    ∃ n, ∀ fuel, n ≤ fuel → vsprintf fuel m buf fmt (w :: args) =
      some ((usual c w).length, m.write buf ((usual c w).map byte ++ [0])) := by
  obtain ⟨flags, base, hnum, htext⟩ := usual_eq (w := w) hc
  have hpieces : pieces [byte '%', byte c] = [.field (bare c)] := by
    simp only [List.mem_cons, List.not_mem_nil, or_false] at hc
    rcases hc with rfl | rfl | rfl | rfl | rfl <;> rfl
  have hlen : ((bare c).number flags base (-1) w).length = (usual c w).length := by
    rw [htext, List.length_map]
  have hrun := vsprintf_field hf hpieces (modest_bare c) rfl hnum (by rwa [hlen]) args
  rwa [hlen, htext] at hrun

def decimalFormat : Bytes := fun x => [byte '%', byte 'd'].getD x 0

/-- The smallest number is printed with all its digits. -/
theorem vsprintf_usual_smallest : ∃ n, ∀ fuel, n ≤ fuel →
    vsprintf fuel decimalFormat 10 0 [0x80000000] =
      some ((usual 'd' 0x80000000).length,
        decimalFormat.write 10 ((usual 'd' 0x80000000).map byte ++ [0])) :=
  vsprintf_usual (by decide) (by decide) (.inr (by decide)) []

end Usual

section Again

variable {m : Bytes} {buf fmt base : ℕ} {d : Field} {flags : Flags} {width : ℤ} {w : UInt32}
  {f : List UInt8}

/-- What a field has printed is read back as the argument behind the prefix, when the base is told.
When the base is to be found out it is read back from its prefix on, unless the prefix is in capital
letters. Then it is read as zero. -/
theorem strtoul_vsprintf (hf : m.IsText fmt f) (hd : pieces f = [.field d]) (hm : d.Modest)
    (hstar : d.star = false) (hnum : d.numeric = some (flags, base, width))
    (hflush : Flush flags (toInt w.toNat) base width d.precision)
    (hout : buf + (d.number flags base width w).length < fmt ∨ fmt + f.length < buf)
    (args : List UInt32) :
    ∃ n, ∀ fuel, n ≤ fuel → ∃ len m' e, vsprintf fuel m buf fmt (w :: args) = some (len, m') ∧
      simpleStrtoul fuel m' (buf + (prefixOf flags base).length) base = some (w.toNat, e) ∧
      (flags.special = true → base ≠ 10 → ∃ e', simpleStrtoul fuel m' buf 0 =
        some (if base = 16 ∧ flags.small = false then 0 else w.toNat, e')) := by
  obtain ⟨n, hrun⟩ := vsprintf_field hf hd hm hstar hnum hout args
  refine ⟨n + (d.number flags base width w).length + 1, fun fuel hfuel => ?_⟩
  have hbase := numeric_base hnum
  have hzero : isxdigit 0 = false := by decide +kernel
  have hholds : (m.write buf (d.number flags base width w ++ [0])).Holds buf
    (numberText (toInt w.toNat) base width d.precision flags ++ [0]) := holds_write
  have hlen : (numberText (toInt w.toNat) base width d.precision flags).length < fuel := by
    change (d.number flags base width w).length < fuel
    omega
  obtain ⟨e, -, hread, -⟩ := strtoul_base hflush (by omega) (by omega) hzero hholds hlen
  refine ⟨_, _, e, hrun fuel (by omega), by rw [hread, toU32_word], fun hs hne => ?_⟩
  split
  case isTrue hcap =>
    obtain ⟨rfl, hsmall⟩ := hcap
    have hread := strtoul_capital hflush hs hsmall (holds_append.mp hholds).1
      (Nat.zero_lt_of_lt hlen)
    exact ⟨buf + 1, hread⟩
  case isFalse hcap =>
    have hb : base = 8 ∨ base = 16 ∧ flags.small = true := by
      rcases hbase with rfl | rfl | rfl
      · exact .inl rfl
      · exact absurd rfl hne
      · exact .inr ⟨rfl, Bool.eq_true_of_not_eq_false fun h => hcap ⟨rfl, h⟩⟩
    obtain ⟨e', -, hread, -⟩ := strtoul_prefix hflush hs hb hzero hholds hlen
    exact ⟨e', by rw [hread, toU32_word]⟩

def prefixedFormat : Bytes := fun x => [byte '%', byte '#', byte 'x'].getD x 0

def prefixedField : Field := ⟨{ Flags.none with special := true }, -1, -1, false, byte 'x'⟩

theorem strtoul_vsprintf_hex : ∃ n, ∀ fuel, n ≤ fuel → ∃ len m' e,
    vsprintf fuel prefixedFormat 10 0 [255] = some (len, m') ∧
      simpleStrtoul fuel m' 12 16 = some (255, e) ∧
      (true = true → (16 : ℕ) ≠ 10 → ∃ e', simpleStrtoul fuel m' 10 0 =
        some (if (16 : ℕ) = 16 ∧ true = false then 0 else 255, e')) :=
  strtoul_vsprintf (m := prefixedFormat) (f := [byte '%', byte '#', byte 'x'])
    (d := prefixedField) (w := 255) (by decide) rfl (by decide) rfl rfl
    ⟨rfl, rfl, rfl, .inr (.inr (by decide))⟩ (.inr (by decide)) []

end Again

end NSOS.Nslibc
