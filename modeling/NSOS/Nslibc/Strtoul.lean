import NSOS.Nslibc.Ctype
import NSOS.Nslibc.Number

/-! # Reading numbers

`simple_strtoul` reads the digits of a base up to the first character that is
none. It knows sixteen digits, in upper and in lower case, but the prefix of
hexadecimal numbers in lower case only. What `number` writes is read back when
nothing stands in front of the digits, or the prefix that tells the base.
-/

namespace NSOS.Nslibc

open Basis Bytes

/-- A character that `simple_strtoul` takes for a digit. -/
def IsDigitOf (base : ℕ) (c : UInt8) : Prop := isxdigit c = true ∧ digitValue c < base

instance (base : ℕ) (c : UInt8) : Decidable (IsDigitOf base c) :=
  inferInstanceAs (Decidable (_ ∧ _))

section Functions

/-- The loop of `simple_strtoul` from the place `cp` on, behind the digits of `result`. -/
def strtoulLoop (m : Bytes) (base : ℕ) : ℕ → ℕ → ℕ → Option (ℕ × ℕ)
  | 0, _, _ => none
  | fuel + 1, result, cp =>
    if IsDigitOf base (m cp) then
      strtoulLoop m base fuel ((result * base + digitValue (m cp)) % 2 ^ 32) (cp + 1)
    else some (result, cp)

/-- `simple_strtoul`. It returns the number, and the place behind it. -/
def simpleStrtoul (fuel : ℕ) (m : Bytes) (cp base : ℕ) : Option (ℕ × ℕ) :=
  if base = 0 then
    if m cp = byte '0' then
      if m (cp + 1) = byte 'x' ∧ isxdigit (m (cp + 2)) then strtoulLoop m 16 fuel 0 (cp + 2)
      else strtoulLoop m 8 fuel 0 (cp + 1)
    else strtoulLoop m 10 fuel 0 cp
  else strtoulLoop m base fuel 0 cp

end Functions

section Digits

variable {small : Bool} {base n d : ℕ} {c : UInt8}

theorem isxdigit_digit (small : Bool) (h : d < 16) : isxdigit (digit small d) = true := by
  have hall : ∀ small, ∀ d < 16, isxdigit (digit small d) = true := by decide +kernel
  exact hall small d h

theorem digitValue_digit (small : Bool) (h : d < 16) : digitValue (digit small d) = d := by
  have hall : ∀ small, ∀ d < 16, digitValue (digit small d) = d := by decide +kernel
  exact hall small d h

theorem isDigitOf_digit (small : Bool) (h : d < base) (h' : d < 16) :
    IsDigitOf base (digit small d) := by
  refine ⟨isxdigit_digit small h', ?_⟩
  rwa [digitValue_digit small h']

theorem not_isDigitOf (h : isxdigit c = false) : ¬ IsDigitOf base c :=
  fun hc => Bool.false_ne_true (h.symm.trans hc.1)

end Digits

section Reading

variable {m : Bytes} {base cp k n fuel : ℕ} {l : List UInt8} {c : UInt8} {small : Bool}

theorem wrap_step : (k % 2 ^ 32 * base + n) % 2 ^ 32 = (k * base + n) % 2 ^ 32 := by
  rw [Nat.add_mod, Nat.mul_mod, Nat.mod_mod, ← Nat.mul_mod, ← Nat.add_mod]

theorem strtoulLoop_eq (h : m.Holds cp (l ++ [c])) (hl : ∀ d ∈ l, IsDigitOf base d)
    (hc : ¬ IsDigitOf base c) (hfuel : l.length < fuel) :
    strtoulLoop m base fuel (k % 2 ^ 32) cp =
      some (readDigits base k (l.map digitValue) % 2 ^ 32, cp + l.length) := by
  induction l generalizing cp k fuel with
  | nil =>
    obtain ⟨fuel, rfl⟩ := Nat.exists_eq_succ_of_ne_zero (Nat.ne_zero_of_lt hfuel)
    rw [strtoulLoop, h.1, if_neg hc]
    rfl
  | cons d l ih =>
    obtain ⟨fuel, rfl⟩ := Nat.exists_eq_succ_of_ne_zero (Nat.ne_zero_of_lt hfuel)
    rw [strtoulLoop, h.1, if_pos (hl d List.mem_cons_self), wrap_step,
      ih h.2 (fun x hx => hl x (List.mem_cons_of_mem d hx)) (Nat.lt_of_succ_lt_succ hfuel),
      List.map_cons, readDigits_cons, List.length_cons, Nat.add_assoc, Nat.add_comm 1]

theorem digitText_isDigitOf (hb : 1 < base) (hb' : base ≤ 16) :
    ∀ d ∈ digitText small base n, IsDigitOf base d := by
  intro d hd
  obtain ⟨x, hx, rfl⟩ := List.mem_map.mp hd
  have hlt := lt_of_mem_numeral hb hx
  exact isDigitOf_digit small hlt (hlt.trans_le hb')

theorem map_digitValue_digitText (hb : 1 < base) (hb' : base ≤ 16) :
    (digitText small base n).map digitValue = numeral base n := by
  rw [digitText, List.map_map]
  refine (List.map_congr_left fun x hx => ?_).trans (List.map_id _)
  exact digitValue_digit small ((lt_of_mem_numeral hb hx).trans_le hb')

theorem read_preciseText (small : Bool) (n : ℕ) (hb : 1 < base) (hb' : base ≤ 16) (precision : ℤ) :
    (∀ d ∈ preciseText small base n precision, IsDigitOf base d) ∧
      readDigits base 0 ((preciseText small base n precision).map digitValue) = n := by
  have hzero : byte '0' = digit small 0 := digit_zero.symm
  constructor
  · intro d hd
    rcases List.mem_append.mp hd with hd | hd
    · rw [List.eq_of_mem_replicate hd, hzero]
      exact isDigitOf_digit small (by omega) (by decide)
    · exact digitText_isDigitOf hb hb' d hd
  · rw [preciseText, List.map_append, List.map_replicate, map_digitValue_digitText hb hb', hzero,
      digitValue_digit small (by decide), readDigits_append, readDigits_replicate_zero,
      readDigits_numeral]

end Reading

section RoundTrip

variable {m : Bytes} {a base cp fuel n : ℕ} {l k : List UInt8} {c : UInt8} {num size precision : ℤ}
  {type : Flags}

/-- A text of digits for a number. -/
structure IsNumeral (base : ℕ) (l : List UInt8) (n : ℕ) : Prop where
  digits : ∀ d ∈ l, IsDigitOf base d
  value : readDigits base 0 (l.map digitValue) = n
  nonempty : l ≠ []

theorem IsNumeral.zeros (h : IsNumeral base l n) (hb : 1 < base) (z : ℕ) :
    IsNumeral base (List.replicate z (byte '0') ++ l) n := by
  refine ⟨fun d hd => ?_, ?_, List.append_ne_nil_of_right_ne_nil _ h.nonempty⟩
  · rcases List.mem_append.mp hd with hd | hd
    · rw [List.eq_of_mem_replicate hd]
      exact ⟨by decide, hb.trans_le' (by decide)⟩
    · exact h.digits d hd
  · have hzero : digitValue (byte '0') = 0 := by decide
    rw [List.map_append, List.map_replicate, hzero, readDigits_append, readDigits_replicate_zero,
      h.value]

theorem isNumeral_preciseText (small : Bool) (n : ℕ) (hb : 1 < base) (hb' : base ≤ 16)
    (precision : ℤ) : IsNumeral base (preciseText small base n precision) n := by
  obtain ⟨hdigits, hvalue⟩ := read_preciseText small n hb hb' precision
  refine ⟨hdigits, hvalue, List.append_ne_nil_of_right_ne_nil _ ?_⟩
  exact fun hnil => numeral_ne_nil (List.map_eq_nil_iff.mp hnil)

theorem IsNumeral.read (h : IsNumeral base l n) (hn : n < 2 ^ 32) {s : ℕ}
    (hm : m.Holds cp (l ++ (List.replicate s (byte ' ') ++ [c]))) (hc : isxdigit c = false)
    (hfuel : l.length < fuel) :
    strtoulLoop m base fuel 0 cp = some (n, cp + l.length) := by
  have hstop : ∃ c', m.Holds cp (l ++ [c']) ∧ isxdigit c' = false := by
    obtain ⟨hl, hnext⟩ := holds_append.mp hm
    cases s with
    | zero => exact ⟨c, holds_append.mpr ⟨hl, hnext⟩, hc⟩
    | succ s => exact ⟨byte ' ', holds_append.mpr ⟨hl, hnext.1, trivial⟩, by decide +kernel⟩
  obtain ⟨c', hm', hc'⟩ := hstop
  have hrun := strtoulLoop_eq (k := 0) hm' h.digits (not_isDigitOf hc') hfuel
  rwa [h.value, Nat.mod_eq_of_lt hn] at hrun

/-- No sign and no space stands in front of the number. -/
structure Flush (type : Flags) (num : ℤ) (base : ℕ) (size precision : ℤ) : Prop where
  sign : type.sign = false
  plus : type.plus = false
  space : type.space = false
  start : type.left ∨ type.zeropad ∨ size ≤ ((prefixOf type base).length +
    (preciseText type.small base (magnitude type num) precision).length : ℕ)

theorem numberText_flush (hf : Flush type num base size precision) (hb : 1 < base)
    (hb' : base ≤ 16) :
    ∃ ds s, numberText num base size precision type =
        prefixOf type base ++ ds ++ List.replicate s (byte ' ') ∧
      IsNumeral base ds (toU32 num).toNat := by
  have hmag : magnitude type num = (toU32 num).toNat := by simp [magnitude, hf.sign]
  have hsign : signOf type num = [] := by simp [signOf, hf.sign, hf.plus, hf.space]
  have hnum := isNumeral_preciseText type.small (toU32 num).toNat hb hb' precision
  have hstart := hf.start
  rw [hmag] at hstart
  unfold numberText
  rw [hmag, hsign, List.nil_append]
  obtain ⟨room, hroom⟩ : ∃ room, room = (size - ((prefixOf type base).length +
    (preciseText type.small base (toU32 num).toNat precision).length : ℕ)).toNat := ⟨_, rfl⟩
  unfold fieldText
  rw [← hroom]
  split_ifs with hl hz
  · exact ⟨_, room, rfl, hnum⟩
  · exact ⟨_, 0, by simp, hnum.zeros hb room⟩
  · have hzero : room = 0 := by
      rw [hroom]
      exact Int.toNat_of_nonpos
        (Int.sub_nonpos_of_le ((hstart.resolve_left hl).resolve_left hz))
    exact ⟨_, 0, by simp [hzero], hnum⟩

theorem toU32_toNat_lt (x : ℤ) : (toU32 x).toNat < 2 ^ 32 := by
  unfold toU32
  omega

theorem read_digits (hf : Flush type num base size precision) (hb : 1 < base) (hb' : base ≤ 16)
    (hc : isxdigit c = false) (hm : m.Holds a (numberText num base size precision type ++ [c]))
    (hfuel : (numberText num base size precision type).length < fuel) :
    m.Holds a (prefixOf type base) ∧ IsDigitOf base (m (a + (prefixOf type base).length)) ∧
      ∃ e s, m.Holds e (List.replicate s (byte ' ') ++ [c]) ∧
        strtoulLoop m base fuel 0 (a + (prefixOf type base).length) =
          some ((toU32 num).toNat, e) := by
  obtain ⟨ds, s, htext, hnum⟩ := numberText_flush hf hb hb'
  rw [htext, List.append_assoc, List.append_assoc] at hm
  rw [htext] at hfuel
  simp only [List.length_append] at hfuel
  obtain ⟨hpre, hds⟩ := holds_append.mp hm
  have hread := hnum.read (toU32_toNat_lt num) hds hc (by omega : ds.length < fuel)
  refine ⟨hpre, ?_, _, s, (holds_append.mp hds).2, hread⟩
  obtain ⟨d, l, rfl⟩ := List.exists_cons_of_ne_nil hnum.nonempty
  rw [hds.1]
  exact hnum.digits d List.mem_cons_self

/-- Read in its base, behind its prefix, a number is what has been written. Only spaces stand behind
it. -/
theorem strtoul_base (hf : Flush type num base size precision) (hb : 1 < base)
    (hb' : base ≤ 16) (hc : isxdigit c = false)
    (hm : m.Holds a (numberText num base size precision type ++ [c]))
    (hfuel : (numberText num base size precision type).length < fuel) :
    ∃ e s, simpleStrtoul fuel m (a + (prefixOf type base).length) base =
        some ((toU32 num).toNat, e) ∧ m.Holds e (List.replicate s (byte ' ') ++ [c]) := by
  obtain ⟨-, -, e, s, hend, hread⟩ := read_digits hf hb hb' hc hm hfuel
  refine ⟨e, s, ?_, hend⟩
  rw [simpleStrtoul, if_neg (by omega), hread]

/-- Read with the base that its prefix tells, a number in small letters is what has been written. -/
theorem strtoul_prefix (hf : Flush type num base size precision) (hs : type.special = true)
    (hb : base = 8 ∨ base = 16 ∧ type.small = true) (hc : isxdigit c = false)
    (hm : m.Holds a (numberText num base size precision type ++ [c]))
    (hfuel : (numberText num base size precision type).length < fuel) :
    ∃ e s, simpleStrtoul fuel m a 0 = some ((toU32 num).toNat, e) ∧
      m.Holds e (List.replicate s (byte ' ') ++ [c]) := by
  obtain ⟨hpre, hd, e, s, hend, hread⟩ := read_digits hf (by omega) (by omega) hc hm hfuel
  refine ⟨e, s, ?_, hend⟩
  rcases hb with rfl | ⟨rfl, hsmall⟩
  · have hfront : prefixOf type 8 = [byte '0'] := by simp [prefixOf, hs]
    rw [hfront, List.length_singleton] at hread hd
    rw [hfront] at hpre
    have hx : ¬ (m (a + 1) = byte 'x' ∧ isxdigit (m (a + 2))) := by
      rintro ⟨hx, -⟩
      rw [hx] at hd
      exact absurd hd (by decide +kernel)
    rw [simpleStrtoul, if_pos rfl, if_pos hpre.1, if_neg hx]
    exact hread
  · have hfront : prefixOf type 16 = [byte '0', byte 'x'] := by
      simp [prefixOf, hs, hsmall]
      rfl
    rw [hfront] at hpre hread hd
    have hx : m (a + 1) = byte 'x' ∧ isxdigit (m (a + 2)) = true := ⟨hpre.2.1, hd.1⟩
    rw [simpleStrtoul, if_pos rfl, if_pos hpre.1, if_pos hx]
    exact hread

/-- The prefix in capital letters is not known. Only its zero is read. -/
theorem strtoul_capital (hf : Flush type num 16 size precision) (hs : type.special = true)
    (hsmall : type.small = false)
    (hm : m.Holds a (numberText num 16 size precision type)) (hfuel : 0 < fuel) :
    simpleStrtoul fuel m a 0 = some (0, a + 1) := by
  obtain ⟨ds, s, htext, -⟩ := numberText_flush hf (by decide) le_rfl
  have hfront : prefixOf type 16 = [byte '0', byte 'X'] := by
    simp [prefixOf, hs, hsmall]
    rfl
  rw [htext, hfront, List.append_assoc] at hm
  have hpre := (holds_append.mp hm).1
  have hcap : m (a + 1) = byte 'X' := hpre.2.1
  have hx : ¬ (m (a + 1) = byte 'x' ∧ isxdigit (m (a + 2))) := by
    rw [hcap]
    exact fun h => absurd h.1 (by decide)
  obtain ⟨fuel, rfl⟩ := Nat.exists_eq_succ_of_ne_zero hfuel.ne'
  have hstop : ¬ IsDigitOf 8 (byte 'X') := by decide +kernel
  rw [simpleStrtoul, if_pos rfl, if_pos hpre.1, if_neg hx, strtoulLoop, hcap, if_neg hstop]

end RoundTrip

end NSOS.Nslibc
