import NSOS.Nslibc.Vsprintf
import Mathlib.Algebra.Order.BigOperators.Group.List

/-! # What `vsprintf` leaves in memory

`vsprintf` puts the text that its format and its arguments stand for into the
buffer and stores the lengths that the format asks for. Nothing else changes.
The strings that it reads must be apart from what it writes, and so must the
format.
-/

namespace NSOS.Nslibc

open Basis Bytes

section Memory

variable {m : Bytes} {buf x : ℕ} {p q r : Printed} {l : List UInt8} {counts : List (ℕ × ℕ)}
  {args : List UInt32}

def storeAll (m : Bytes) (counts : List (ℕ × ℕ)) : Bytes :=
  counts.foldl (fun m c => m.store c.1 c.2) m

namespace Printed

def memory (p : Printed) (m : Bytes) (buf : ℕ) : Bytes := storeAll (m.write buf p.text) p.counts

def out (p : Printed) (m : Bytes) (buf : ℕ) : Out := ⟨p.memory m buf, buf + p.text.length⟩

def Touches (p : Printed) (buf x : ℕ) : Prop :=
  (buf ≤ x ∧ x ≤ buf + p.text.length) ∨ ∃ c ∈ p.counts, c.1 ≤ x ∧ x < c.1 + 4

/-- Printing goes on behind what is there. -/
structure Le (p q : Printed) : Prop where
  text : p.text <+: q.text
  reads : p.reads <+: q.reads
  counts : p.counts <+: q.counts

theorem Le.refl (p : Printed) : p.Le p := ⟨List.prefix_rfl, List.prefix_rfl, List.prefix_rfl⟩

theorem Le.trans (h : p.Le q) (h' : q.Le r) : p.Le r :=
  ⟨h.text.trans h'.text, h.reads.trans h'.reads, h.counts.trans h'.counts⟩

theorem Touches.mono (h : p.Touches buf x) (hle : p.Le q) : q.Touches buf x := by
  rcases h with ⟨h₁, h₂⟩ | ⟨c, hc, h⟩
  · exact .inl ⟨h₁, h₂.trans (Nat.add_le_add_left hle.text.length_le buf)⟩
  · exact .inr ⟨c, hle.counts.subset hc, h⟩

end Printed

theorem storeAll_apply_of_outside (h : ∀ c ∈ counts, ¬ (c.1 ≤ x ∧ x < c.1 + 4)) :
    storeAll m counts x = m x := by
  induction counts generalizing m with
  | nil => rfl
  | cons c counts ih =>
    have hc := h c List.mem_cons_self
    refine (ih fun d hd => h d (List.mem_cons_of_mem c hd)).trans ?_
    exact store_apply_of_outside (by omega)

theorem storeAll_write (h : ∀ c ∈ counts, c.1 + 4 ≤ x ∨ x + l.length ≤ c.1) :
    (storeAll m counts).write x l = storeAll (m.write x l) counts := by
  induction counts generalizing m with
  | nil => rfl
  | cons c counts ih =>
    refine (ih fun d hd => h d (List.mem_cons_of_mem c hd)).trans ?_
    rw [write_store_comm (h c List.mem_cons_self)]
    rfl

theorem Printed.memory_apply (h : ¬ p.Touches buf x) : p.memory m buf x = m x := by
  obtain ⟨htext, hcounts⟩ := not_or.mp h
  rw [Printed.memory, storeAll_apply_of_outside fun c hc hx => hcounts ⟨c, hc, hx⟩]
  exact write_apply_of_outside (by omega)

/-- What is read is apart from what is written: the format, from `lo` to `hi`, and the strings. The
lengths are stored apart from the buffer. -/
structure Apart (m : Bytes) (buf lo hi : ℕ) (str : ℕ → List UInt8) (r : Printed) : Prop where
  format : ∀ x, lo ≤ x → x ≤ hi → ¬ r.Touches buf x
  strings : ∀ s ∈ r.reads, m.IsText s (str s) ∧ (str s).length < 2 ^ 31 ∧
    ∀ x, s ≤ x → x ≤ s + (str s).length → ¬ r.Touches buf x
  counts : ∀ c ∈ r.counts, c.1 + 4 ≤ buf ∨ buf + r.text.length < c.1

variable {lo hi : ℕ} {str : ℕ → List UInt8}

theorem Apart.puts (p : Printed) (args : List UInt32) (h : Apart m buf lo hi str r)
    (hle : ({ p with text := p.text ++ l, args := args } : Printed).Le r) :
    (p.out m buf).puts l = ({ p with text := p.text ++ l, args := args } : Printed).out m buf := by
  have htext := hle.text.length_le
  rw [List.length_append] at htext
  rw [Out.puts_eq]
  unfold Printed.out Printed.memory
  rw [write_append, storeAll_write, List.length_append, Nat.add_assoc]
  intro c hc
  have hcount := h.counts c (hle.counts.subset hc)
  change c.1 + 4 ≤ buf + p.text.length ∨ buf + p.text.length + l.length ≤ c.1
  omega

theorem Apart.isText (h : Apart m buf lo hi str r) (hle : p.Le r) {s : ℕ} (hs : s ∈ r.reads) :
    (p.memory m buf).IsText s (str s) := by
  obtain ⟨htext, -, hout⟩ := h.strings s hs
  exact htext.congr fun x h₁ h₂ => Printed.memory_apply fun ht => hout x h₁ h₂ (ht.mono hle)

theorem Apart.rest_iff (h : Apart m buf lo hi str r) (hle : p.Le r) {a : ℕ} (ha : lo ≤ a) :
    Rest (p.memory m buf) hi a l ↔ Rest m hi a l := by
  have heq : a + l.length = hi → ∀ x, a ≤ x → x ≤ a + l.length → p.memory m buf x = m x := by
    intro hends x h₁ h₂
    refine Printed.memory_apply fun ht => h.format x (ha.trans h₁) (h₂.trans hends.le) ?_
    exact ht.mono hle
  constructor
  · rintro ⟨htext, hends⟩
    exact ⟨htext.congr fun x h₁ h₂ => (heq hends x h₁ h₂).symm, hends⟩
  · rintro ⟨htext, hends⟩
    exact ⟨htext.congr (heq hends), hends⟩

theorem apart_of_plain (hreads : r.reads = []) (hcounts : r.counts = [])
    (hout : buf + r.text.length < lo ∨ hi < buf) : Apart m buf lo hi str r := by
  constructor
  · rintro x h₁ h₂ (⟨h₃, h₄⟩ | ⟨c, hc, -⟩)
    · omega
    · rw [hcounts] at hc
      cases hc
  · intro s hs
    rw [hreads] at hs
    cases hs
  · intro c hc
    rw [hcounts] at hc
    cases hc

end Memory

section Order

variable {str : ℕ → List UInt8} {p q : Printed} {d : Field} {x : Piece} {l : List Piece}

inductive Field.Shows (str : ℕ → List UInt8) (d : Field) (p : Printed) : Printed → Prop where
  | star {w args} : d.star = true → p.args = w :: args →
      d.Shows str p { p with text := p.text ++ d.echo, args }
  | number {flags base width w args} : d.star = false → d.numeric = some (flags, base, width) →
      p.args = w :: args →
      d.Shows str p { p with text := p.text ++ d.number flags base width w, args }
  | char {w args} : d.star = false → d.conv = byte 'c' → p.args = w :: args →
      d.Shows str p { p with text := p.text ++ d.plain [UInt8.ofNat w.toNat], args }
  | null {w args} : d.star = false → d.conv = byte 's' → p.args = w :: args → w = 0 →
      d.Shows str p { p with text := p.text ++ d.plain (cut d.precision nullText), args }
  | string {w args} : d.star = false → d.conv = byte 's' → p.args = w :: args → w ≠ 0 →
      d.Shows str p { p with
        text := p.text ++ d.plain (cut d.precision (str w.toNat))
        args
        reads := p.reads ++ [w.toNat] }
  | count {w args} : d.star = false → d.conv = byte 'n' → p.args = w :: args →
      d.Shows str p { p with args, counts := p.counts ++ [(w.toNat, p.text.length)] }
  | echo : d.star = false → d.numeric = none → d.conv ≠ byte 'c' → d.conv ≠ byte 's' →
      d.conv ≠ byte 'n' → d.Shows str p { p with text := p.text ++ d.echo }

theorem Field.shows_of_render (h : d.render str p = some q) : d.Shows str p q := by
  unfold Field.render at h
  split at h
  · cases h
  case h_2 hstar hargs =>
    obtain rfl := Option.some.inj h
    exact .star hstar hargs
  · cases h
  case h_4 hstar hnum hargs =>
    obtain rfl := Option.some.inj h
    exact .number hstar hnum hargs
  case h_5 hstar hnum =>
    split_ifs at h with hc hs hn
    · split at h
      · cases h
      case h_2 hargs =>
        obtain rfl := Option.some.inj h
        exact .char hstar hc hargs
    · split at h
      · cases h
      case h_2 hargs =>
        split_ifs at h with hw
        · obtain rfl := Option.some.inj h
          exact .null hstar hs hargs hw
        · obtain rfl := Option.some.inj h
          exact .string hstar hs hargs hw
    · split at h
      · cases h
      case h_2 hargs =>
        obtain rfl := Option.some.inj h
        exact .count hstar hn hargs
    · obtain rfl := Option.some.inj h
      exact .echo hstar hnum hc hs hn

theorem Field.render_le (h : d.render str p = some q) : p.Le q := by
  have hmore {l k : List UInt8} : l <+: l ++ k := List.prefix_append l k
  cases Field.shows_of_render h with
  | star | number | char | null | echo => exact ⟨hmore, List.prefix_rfl, List.prefix_rfl⟩
  | string => exact ⟨hmore, List.prefix_append _ _, List.prefix_rfl⟩
  | count => exact ⟨List.prefix_rfl, List.prefix_rfl, List.prefix_append _ _⟩

theorem Piece.render_le (h : x.render str p = some q) : p.Le q := by
  cases x with
  | char c =>
    obtain rfl := Option.some.inj h
    exact ⟨List.prefix_append _ _, List.prefix_rfl, List.prefix_rfl⟩
  | field d => exact Field.render_le h

theorem render_cons : render str (x :: l) p = (x.render str p).bind (render str l) := rfl

theorem render_le (h : render str l p = some q) : p.Le q := by
  induction l generalizing p with
  | nil =>
    obtain rfl := Option.some.inj h
    exact .refl p
  | cons x l ih =>
    obtain ⟨p', hx, hl⟩ := Option.bind_eq_some_iff.mp (render_cons.symm.trans h)
    exact (Piece.render_le hx).trans (ih hl)

end Order

/-- The width and the precision of a field do not come near to the limits of an `int`. -/
def Field.Modest (d : Field) : Prop :=
  -1 ≤ d.width ∧ d.width < 2 ^ 31 ∧ d.precision < 2 ^ 31 - 40

instance (d : Field) : Decidable d.Modest := inferInstanceAs (Decidable (_ ∧ _ ∧ _))

def Piece.Modest : Piece → Prop
  | .char _ => True
  | .field d => d.Modest

instance : ∀ x : Piece, Decidable x.Modest
  | .char _ => .isTrue trivial
  | .field d => inferInstanceAs (Decidable d.Modest)

section Conversions

variable {m : Bytes} {buf lo hi a fuel base : ℕ} {str : ℕ → List UInt8} {p q r : Printed}
  {d : Field} {o : Out} {flags : Flags} {width precision : ℤ} {w : UInt32} {args : List UInt32}
  {l : List UInt8}

theorem convert_of_numeric (h : d.numeric = some (flags, base, width)) :
    convert fuel buf d.conv o d.flags d.width d.precision args =
      some (vaArg args fun w => number o (toInt w.toNat) base width d.precision flags) := by
  unfold Field.numeric at h
  split_ifs at h with ho hp hw hx hX hd hu
  all_goals
    obtain ⟨rfl, hrest⟩ := Prod.mk.inj (Option.some.inj h)
    obtain ⟨rfl, rfl⟩ := Prod.mk.inj hrest
  · rw [ho]
    rfl
  · rw [hp, hw]
    rfl
  · rw [hp]
    simp [convert, hw, byte]
  · rw [hx]
    rfl
  · rw [hX]
    rfl
  · rcases hd with hd | hd <;>
    · rw [hd]
      rfl
  · rw [hu]
    rfl

theorem convert_of_echo (h : d.numeric = none) (hc : d.conv ≠ byte 'c') (hs : d.conv ≠ byte 's')
    (hn : d.conv ≠ byte 'n') : convert fuel buf d.conv o flags width precision args = none := by
  unfold Field.numeric at h
  split_ifs at h with ho hp hw hx hX hd hu
  unfold convert
  rw [if_neg hc, if_neg hs, if_neg ho, if_neg hp, if_neg (not_or.mpr ⟨hx, hX⟩),
    if_neg (by rwa [← or_assoc, not_or, and_iff_right hd]), if_neg hn]

theorem convert_char : convert fuel buf (byte 'c') o flags width precision (w :: args) =
    some (some (printChar o flags width w, args)) := rfl

theorem convert_string : convert fuel buf (byte 's') o flags width precision (w :: args) =
    some ((printString fuel o flags width precision w.toNat).map (·, args)) := rfl

theorem convert_count : convert fuel buf (byte 'n') o flags width precision (w :: args) =
    some (some ({ o with mem := o.mem.store w.toNat (o.str - buf) }, args)) := rfl

theorem convert_star : convert fuel buf (byte '*') o flags width precision args = none := rfl

theorem numeric_base (h : d.numeric = some (flags, base, width)) :
    base = 8 ∨ base = 10 ∨ base = 16 := by
  unfold Field.numeric at h
  split_ifs at h
  all_goals
    obtain ⟨-, hrest⟩ := Prod.mk.inj (Option.some.inj h)
    obtain ⟨rfl, -⟩ := Prod.mk.inj hrest
    decide

theorem numeric_width (h : d.numeric = some (flags, base, width)) (hm : d.Modest) :
    -1 ≤ width ∧ width < 2 ^ 31 := by
  unfold Field.numeric at h
  split_ifs at h
  all_goals
    obtain ⟨-, hrest⟩ := Prod.mk.inj (Option.some.inj h)
    obtain ⟨-, rfl⟩ := Prod.mk.inj hrest
    first | exact ⟨hm.1, hm.2.1⟩ | decide

theorem number_of_numeric (h : d.numeric = some (flags, base, width)) (hm : d.Modest) :
    number o (toInt w.toNat) base width d.precision flags =
      some (o.puts (d.number flags base width w)) := by
  have hb := numeric_base h
  obtain ⟨hw, hw'⟩ := numeric_width h hm
  obtain ⟨hn, hn'⟩ := toInt_bounds w.toNat
  exact number_eq hn hn' (by omega) (by omega) hw hw' hm.2.2

theorem conv_ne_zero (h : d.numeric = some (flags, base, width)) : d.conv ≠ 0 := by
  intro hz
  rw [Field.numeric, hz] at h
  exact absurd h (by simp [byte])

end Conversions

section Fields

variable {m : Bytes} {buf lo hi a b fuel base : ℕ} {str : ℕ → List UInt8} {p q r : Printed}
  {d : Field} {l k : List UInt8} {c : UInt8}

theorem printOther_eq (h : Apart m buf lo hi str r) (hb : lo ≤ b) (hrest : Rest m hi b k)
    (hc : d.conv = k.headD 0) (hle : ({ p with text := p.text ++ d.echo } : Printed).Le r) :
    ∃ b', printOther b (p.out m buf) =
        (b', ({ p with text := p.text ++ d.echo } : Printed).out m buf) ∧
      lo ≤ b' ∧ Rest m hi b' k.tail := by
  have hmem {q : Printed} (hq : q.Le r) : (q.out m buf).mem b = d.conv :=
    ((h.rest_iff hq hb).mpr hrest).head.trans hc.symm
  have hp : p.Le r := Printed.Le.trans (q := { p with text := p.text ++ d.echo })
    ⟨List.prefix_append _ _, List.prefix_rfl, List.prefix_rfl⟩ hle
  have hnext (hz : d.conv ≠ 0) : lo ≤ b + 1 ∧ Rest m hi (b + 1) k.tail :=
    ⟨hb.trans (Nat.le_succ b), hrest.tail_of_ne (hc ▸ hz)⟩
  unfold printOther
  by_cases hpercent : d.conv = byte '%'
  · have hecho : d.echo = [d.conv] := by
      rw [Field.echo, hpercent]
      rfl
    have hz : d.conv ≠ 0 := by
      rw [hpercent]
      decide
    rw [hecho] at hle ⊢
    simp only [hmem hp, hpercent, ne_eq, not_true_eq_false, if_false]
    rw [← hpercent, if_pos hz]
    exact ⟨b + 1, congrArg (Prod.mk _) (h.puts p p.args hle), hnext hz⟩
  · -- Behind the percent sign the conversion is read again.
    have hsub : [byte '%'] <+: d.echo := by
      rw [Field.echo, if_pos hpercent]
      exact List.prefix_append _ _
    have hq : ({ p with text := p.text ++ [byte '%'] } : Printed).Le r :=
      Printed.Le.trans (q := { p with text := p.text ++ d.echo })
        ⟨(List.prefix_append_right_inj _).mpr hsub, List.prefix_rfl, List.prefix_rfl⟩ hle
    have hput : (p.out m buf).putc (byte '%') =
        ({ p with text := p.text ++ [byte '%'] } : Printed).out m buf := h.puts p p.args hq
    simp only [hmem hp, ne_eq, hpercent, not_false_eq_true, if_true, hput, hmem hq]
    by_cases hz : d.conv = 0
    · have hecho : d.echo = [byte '%'] := by
        rw [Field.echo, hz]
        rfl
      have hk : k = [] := hrest.headD_eq_zero.mp (hc ▸ hz)
      refine ⟨b, ?_, hb, ?_⟩
      · rw [if_neg (not_not.mpr hz), hecho]
      · rw [hk] at hrest ⊢
        exact hrest
    · have hecho : d.echo = [byte '%'] ++ [d.conv] := by
        rw [Field.echo, if_pos hpercent, if_pos hz]
      rw [if_pos hz]
      rw [hecho, ← List.append_assoc] at hle ⊢
      exact ⟨b + 1, congrArg (Prod.mk _)
        (h.puts { p with text := p.text ++ [byte '%'] } p.args hle), hnext hz⟩

theorem Apart.string_out (h : Apart m buf lo hi str r) {s : ℕ} (hs : s ∈ r.reads) :
    s + (str s).length < buf ∨ buf + r.text.length < s := by
  by_contra hno
  obtain ⟨h₁, h₂⟩ := not_or.mp hno
  exact (h.strings s hs).2.2 (max s buf) (le_max_left s buf) (by omega) (.inl (by omega))

theorem printString_eq (h : Apart m buf lo hi str r) (hm : d.Modest) {s : ℕ} (hz : s ≠ 0)
    (hs : s ∈ r.reads) (hfuel : (str s).length < fuel) (hp : p.Le r)
    (hlen : p.text.length + (d.plain (cut d.precision (str s))).length ≤ r.text.length) :
    printString fuel (p.out m buf) d.flags d.width d.precision s =
      some ((p.out m buf).puts (d.plain (cut d.precision (str s)))) := by
  have htext := h.isText hp hs
  have hout := h.string_out hs
  have hcut : cut d.precision (str s) <+: str s := by
    rw [cut]
    split
    · exact List.prefix_rfl
    · exact List.take_prefix _ _
  rw [Field.plain, length_fieldText, List.length_nil, Nat.zero_add] at hlen
  refine printString_of_copy hm.1 (h.strings s hs).2.1 ?_ fun k hk => ?_
  · rw [if_neg hz]
    exact (strlen_eq htext).trans (if_pos hfuel)
  · have hstring := htext.holds.of_prefix (List.prefix_append _ _)
    have hread := hstring.of_prefix hcut
    have hcutlen := hcut.length_le
    have hstr : (p.out m buf).str = buf + p.text.length := rfl
    rw [Out.puts_eq]
    refine copyLoop_eq hz (hread.write ?_) ?_
    · rw [List.length_replicate, hstr]
      omega
    · simp only [List.length_replicate, hstr]
      omega

theorem printString_null (hm : d.Modest) (o : Out) :
    printString fuel o d.flags d.width d.precision 0 =
      some (o.puts (d.plain (cut d.precision nullText))) := by
  refine printString_of_copy hm.1 (by decide) (if_pos rfl) fun k _ => ?_
  rw [cut]
  split
  · exact copyLoop_null le_rfl
  · rw [List.length_take, copyLoop_null (min_le_right _ _), ← List.take_eq_take_min]

theorem convert_of_render (h : Apart m buf lo hi str r) (hm : d.Modest)
    (hstrings : ∀ s ∈ r.reads, (str s).length < fuel) (hstar : d.star = false)
    (hr : d.render str p = some q) (hle : q.Le r) :
    (convert fuel buf d.conv (p.out m buf) d.flags d.width d.precision p.args =
        some (some (q.out m buf, q.args)) ∧ d.conv ≠ 0) ∨
      (convert fuel buf d.conv (p.out m buf) d.flags d.width d.precision p.args = none ∧
        q = { p with text := p.text ++ d.echo }) := by
  cases Field.shows_of_render hr with
  | star htrue => exact absurd (htrue.symm.trans hstar) (by decide)
  | number _ hnum hargs =>
    left
    rw [convert_of_numeric hnum, hargs, vaArg, number_of_numeric hnum hm, h.puts p _ hle]
    exact ⟨rfl, conv_ne_zero hnum⟩
  | char _ hc hargs =>
    left
    rw [hc, hargs, convert_char, printChar_eq hm.1 hm.2.1, ← h.puts p _ hle]
    exact ⟨rfl, by decide⟩
  | null _ hs hargs hz =>
    left
    rw [hs, hargs, convert_string, hz, UInt32.toNat_zero, printString_null hm, h.puts p _ hle]
    exact ⟨rfl, by decide⟩
  | string _ hs hargs hz =>
    left
    have hread := hle.reads.subset (List.mem_append_right _ (List.mem_singleton_self _))
    have hlen := hle.text.length_le
    rw [List.length_append] at hlen
    rw [hs, hargs, convert_string, printString_eq h hm (fun h₀ => hz (UInt32.toNat_inj.mp h₀))
      hread (hstrings _ hread) ((Field.render_le hr).trans hle) hlen]
    refine ⟨congrArg (fun o => some (some (o, _))) ?_, by decide⟩
    exact h.puts p [] ⟨hle.text, (List.prefix_append _ _).trans hle.reads, hle.counts⟩
  | count _ hn hargs =>
    left
    rw [hn, hargs, convert_count]
    refine ⟨congrArg (fun o => some (some (o, _))) ?_, by decide⟩
    simp only [Printed.out, Printed.memory, storeAll, List.foldl_append, List.foldl_cons,
      List.foldl_nil, Nat.add_sub_cancel_left]
  | echo _ hnum hc hs hn => exact .inr ⟨convert_of_echo hnum hc hs hn, rfl⟩

theorem printField_eq (h : Apart m buf lo hi str r) (ha : lo ≤ a + 1)
    (hrest : Rest m hi (a + 1) l) (hfuel : l.length < fuel)
    (hstrings : ∀ s ∈ r.reads, (str s).length < fuel) (hm : (fieldOf l).1.Modest)
    (hr : (fieldOf l).1.render str p = some q) (hle : q.Le r) :
    ∃ b, printField fuel buf a (p.out m buf) p.args = some (b, q.out m buf, q.args) ∧
      lo ≤ b ∧ Rest m hi b (fieldOf l).2 := by
  obtain ⟨d, hd⟩ : ∃ d, d = (fieldOf l).1 := ⟨_, rfl⟩
  have hp := (Field.render_le hr).trans hle
  obtain ⟨b, w, precision, flags, hread, hfields, hget⟩ :=
    getField_eq p.args ((h.rest_iff hp ha).mpr hrest) hfuel
  have hb : lo ≤ b := by
    have hlen := length_fromConv_le (l := l)
    have h₁ := hread.ends
    have h₂ := hrest.ends
    omega
  have hconv : (p.out m buf).mem b = d.conv := by
    rw [hd]
    exact hread.head
  have hrest' : Rest m hi b (fromConv l) := (h.rest_iff hp hb).mp hread
  have hmem : (p.out m buf).mem = p.memory m buf := rfl
  unfold printField
  rw [hmem, hget, ← hmem]
  rw [← hd] at hm hr hfields ⊢
  cases hstar : d.star with
  | true =>
    cases Field.shows_of_render hr with
    | star _ hargs =>
      have hstar' := conv_of_star (l := l) (hd ▸ hstar)
      rw [← hd] at hstar'
      obtain ⟨b', hother, hb'⟩ := printOther_eq h hb hrest' (congrArg Field.conv hd)
        ⟨hle.text, hle.reads, hle.counts⟩
      refine ⟨b', ?_, hb'⟩
      simp only [dropStar, if_true, hargs, List.tail?_cons, Option.map_some,
        Option.bind_eq_bind, Option.bind_some, hconv, hstar', convert_star, hother]
      rfl
    | number hno | char hno | null hno | string hno | count hno | echo hno =>
      exact absurd (hstar.symm.trans hno) (by decide)
  | false =>
    obtain ⟨rfl, rfl, rfl⟩ := hfields hstar
    simp only [dropStar, Bool.false_eq_true, if_false, Option.map_some, Option.bind_eq_bind,
      Option.bind_some, hconv]
    rcases convert_of_render h hm hstrings hstar hr hle with ⟨hrun, hz⟩ | ⟨hrun, rfl⟩
    · simp only [hrun, Option.map_some]
      exact ⟨b + 1, rfl, hb.trans (Nat.le_succ b), hrest'.tail_of_ne (by rwa [hd] at hz)⟩
    · obtain ⟨b', hother, hb'⟩ := printOther_eq h hb hrest' (congrArg Field.conv hd) hle
      simp only [hrun, hother]
      exact ⟨b', rfl, hb'⟩

end Fields

section Whole

variable {m : Bytes} {buf lo hi fmt fuel n : ℕ} {str : ℕ → List UInt8} {p r : Printed}
  {f l : List UInt8} {args : List UInt32} {x : Piece}

theorem length_fieldOf_le : (fieldOf l).2.length ≤ l.length := by
  have h := length_fromConv_le (l := l)
  rw [fieldOf_eq, List.length_tail]
  omega

/-- The loop prints piece after piece. -/
theorem vsprintfLoop_eq (h : Apart m buf lo hi str r) (ha : lo ≤ fmt) (hrest : Rest m hi fmt l)
    (hn : l.length ≤ n) (hfuel : l.length < fuel)
    (hstrings : ∀ s ∈ r.reads, l.length + (str s).length < fuel)
    (hm : ∀ x ∈ piecesUpTo n l, x.Modest)
    (hr : render str (piecesUpTo n l) p = some r) :
    vsprintfLoop buf fuel fmt (p.out m buf) p.args = some (r.out m buf) := by
  induction n generalizing fuel fmt l p with
  | zero =>
    obtain rfl := List.length_eq_zero_iff.mp (Nat.le_zero.mp hn)
    obtain rfl := Option.some.inj hr
    obtain ⟨fuel, rfl⟩ := Nat.exists_eq_succ_of_ne_zero (Nat.ne_zero_of_lt hfuel)
    have hmem : (p.out m buf).mem fmt = 0 := ((h.rest_iff (.refl p) ha).mpr hrest).head
    rw [vsprintfLoop, if_pos hmem]
  | succ n ih =>
    obtain ⟨fuel, rfl⟩ := Nat.exists_eq_succ_of_ne_zero (Nat.ne_zero_of_lt hfuel)
    have hmem : (p.out m buf).mem fmt = l.headD 0 :=
      ((h.rest_iff (render_le hr) ha).mpr hrest).head
    cases l with
    | nil =>
      obtain rfl := Option.some.inj hr
      rw [List.headD_nil] at hmem
      rw [vsprintfLoop, if_pos hmem]
    | cons c l =>
      rw [List.length_cons] at hn hfuel hstrings
      have hc : c ≠ 0 := (List.ne_of_not_mem_cons hrest.text.nonzero).symm
      rw [List.headD_cons] at hmem
      rw [vsprintfLoop, hmem, if_neg hc]
      rw [piecesUpTo] at hm hr
      by_cases hp : c = byte '%'
      · rw [if_pos hp, render_cons] at hr
        rw [if_pos hp] at hm
        obtain ⟨q, hq, hr⟩ := Option.bind_eq_some_iff.mp hr
        have hlen := length_fieldOf_le (l := l)
        obtain ⟨b, hrun, hb, hrest'⟩ := printField_eq h (ha.trans (Nat.le_succ _)) hrest.tail
          (Nat.lt_of_succ_lt_succ hfuel) (fun s hs => by have := hstrings s hs; omega)
          (hm _ List.mem_cons_self) hq (render_le hr)
        rw [if_neg (not_not.mpr hp), hrun]
        exact ih hb hrest' (by omega) (by omega) (fun s hs => by have := hstrings s hs; omega)
          (fun d hd => hm d (List.mem_cons_of_mem _ hd)) hr
      · rw [if_neg hp, render_cons] at hr
        rw [if_neg hp] at hm
        rw [if_pos hp]
        have hput := h.puts p p.args (l := [c]) (render_le hr)
        have hgo := ih (ha.trans (Nat.le_succ _)) hrest.tail (by omega)
          (Nat.lt_of_succ_lt_succ hfuel) (fun s hs => by have := hstrings s hs; omega)
          (fun d hd => hm d (List.mem_cons_of_mem _ hd)) hr
        rwa [← hput] at hgo

def Printed.start (args : List UInt32) : Printed := ⟨[], args, [], []⟩

/-- `vsprintf` leaves the text that the format and the arguments stand for in the buffer, with a
zero behind it, and the lengths that the format asks for where it asks for them. All other bytes
are what they were. It returns the length of the text. -/
theorem vsprintf_eq (hf : m.IsText fmt f) (hr : render str (pieces f) (.start args) = some r)
    (h : Apart m buf fmt (fmt + f.length) str r) (hm : ∀ x ∈ pieces f, x.Modest) :
    ∃ n, ∀ fuel, n ≤ fuel → vsprintf fuel m buf fmt args =
      some (r.text.length, storeAll (m.write buf (r.text ++ [0])) r.counts) := by
  obtain ⟨k, hk⟩ : ∃ k, ∀ s ∈ r.reads, (str s).length ≤ k :=
    ⟨(r.reads.map fun s => (str s).length).sum, fun s hs =>
      List.le_sum_of_mem (List.mem_map_of_mem hs)⟩
  refine ⟨f.length + k + 1, fun fuel hfuel => ?_⟩
  have hrun := vsprintfLoop_eq (p := .start args) h le_rfl ⟨hf, rfl⟩ le_rfl
    (by omega : f.length < fuel) (fun s hs => by have := hk s hs; omega) hm hr
  change vsprintfLoop buf fuel fmt ⟨m, buf⟩ args = _ at hrun
  rw [vsprintf, hrun, Option.map_some, Printed.out, Nat.add_sub_cancel_left]
  refine congrArg (fun m => some (_, m)) ?_
  have hcounts : ∀ c ∈ r.counts, c.1 + 4 ≤ buf + r.text.length ∨ buf + r.text.length + 1 ≤ c.1 := by
    intro c hc
    have hcount := h.counts c hc
    omega
  rw [write_append]
  exact storeAll_write (l := [0]) hcounts

/-- The format `%3d|%s%n` at the address 0, and the string `ab` at the address 20. -/
def someFormat : Bytes := fun x =>
  if x < 20 then (['%', '3', 'd', '|', '%', 's', '%', 'n'].map byte).getD x 0
  else (['a', 'b'].map byte).getD (x - 20) 0

theorem apart_someFormat : Apart someFormat 100 0 8 (fun _ => ['a', 'b'].map byte)
    ⟨[' ', ' ', '7', '|', 'a', 'b'].map byte, [], [20], [(40, 6)]⟩ := by
  constructor
  · rintro x h₁ h₂ (⟨h₃, h₄⟩ | ⟨c, hc, h₃, h₄⟩)
    · omega
    · obtain rfl := List.mem_singleton.mp hc
      exact absurd (h₃.trans h₂) (by decide)
  · intro s hs
    obtain rfl := List.mem_singleton.mp hs
    refine ⟨by decide, by decide, ?_⟩
    rintro x h₁ (h₂ : x ≤ 22) (⟨h₃, h₄⟩ | ⟨c, hc, h₃, h₄⟩)
    · omega
    · obtain rfl := List.mem_singleton.mp hc
      exact absurd (h₃.trans h₂) (by decide)
  · intro c hc
    obtain rfl := List.mem_singleton.mp hc
    decide

/-- A number in a field of three characters, a string and the length up to there. -/
example : ∃ n, ∀ fuel, n ≤ fuel →
    vsprintf fuel someFormat 100 0 [7, 20, 40] =
      some (6, storeAll (someFormat.write 100
        ([' ', ' ', '7', '|', 'a', 'b'].map byte ++ [0])) [(40, 6)]) :=
  vsprintf_eq (f := ['%', '3', 'd', '|', '%', 's', '%', 'n'].map byte)
    (r := ⟨[' ', ' ', '7', '|', 'a', 'b'].map byte, [], [20], [(40, 6)]⟩) (by decide) (by decide)
    apart_someFormat (by decide)

end Whole

section Stars

variable {m : Bytes} {buf fmt n k : ℕ} {str : ℕ → List UInt8} {p r : Printed} {q ds l : List UInt8}
  {flags : Flags} {w : UInt32} {args : List UInt32} {i : ℤ}

theorem piecesUpTo_eq (hn : l.length ≤ n) (hk : l.length ≤ k) :
    piecesUpTo n l = piecesUpTo k l := by
  induction n generalizing l k with
  | zero =>
    obtain rfl := List.length_eq_zero_iff.mp (Nat.le_zero.mp hn)
    cases k <;> rfl
  | succ n ih =>
    cases l with
    | nil => cases k <;> rfl
    | cons c l =>
      obtain ⟨k, rfl⟩ := Nat.exists_eq_add_of_lt (Nat.lt_of_lt_of_le (Nat.succ_pos _) hk)
      rw [List.length_cons] at hn hk
      have hlen := length_fieldOf_le (l := l)
      rw [Nat.zero_add, piecesUpTo, piecesUpTo, ih (l := l) (k := k) (by omega) (by omega),
        ih (l := (fieldOf l).2) (k := k) (by omega) (by omega)]

theorem pieces_percent :
    pieces (byte '%' :: l) = .field (fieldOf l).1 :: pieces (fieldOf l).2 := by
  rw [pieces, List.length_cons, piecesUpTo, if_pos rfl, pieces,
    piecesUpTo_eq length_fieldOf_le le_rfl]

theorem setFlag_eq_none (flags flags' : Flags) {c : UInt8} (h : setFlag flags c = none) :
    setFlag flags' c = none := by
  unfold setFlag at h ⊢
  split_ifs at h with h₁ h₂ h₃ h₄ h₅
  rw [if_neg h₁, if_neg h₂, if_neg h₃, if_neg h₄, if_neg h₅]

theorem flagsOf_append (flags : Flags) (hq : ∀ c ∈ q, setFlag .none c ≠ none)
    (hl : setFlag .none (l.headD 0) = none) : (flagsOf flags (q ++ l)).2 = l := by
  induction q generalizing flags with
  | nil =>
    cases l with
    | nil => rfl
    | cons c l =>
      rw [List.headD_cons] at hl
      rw [List.nil_append, flagsOf, setFlag_eq_none .none flags hl]
  | cons c q ih =>
    rw [List.cons_append, flagsOf]
    cases hset : setFlag flags c with
    | none => exact absurd (setFlag_eq_none flags .none hset) (hq c List.mem_cons_self)
    | some flags => exact ih flags fun d hd => hq d (List.mem_cons_of_mem c hd)

theorem intOf_append (i : ℤ) (hq : ∀ c ∈ q, isdigit c = true) (hl : isdigit (l.headD 0) = false) :
    (intOf i (q ++ l)).2 = l := by
  induction q generalizing i with
  | nil =>
    cases l with
    | nil => rfl
    | cons c l =>
      rw [List.headD_cons] at hl
      rw [List.nil_append, intOf, if_neg (by rw [hl]; decide)]
  | cons c q ih =>
    rw [List.cons_append, intOf, if_pos (hq c List.mem_cons_self)]
    exact ih _ fun d hd => hq d (List.mem_cons_of_mem c hd)

/-- Flags in front of a star, and digits and a period between them. -/
def BeforeStar (k : List UInt8) : Prop :=
  ∃ q es, (∀ c ∈ q, setFlag .none c ≠ none) ∧ (∀ c ∈ es, isdigit c = true) ∧
    es.head? ≠ some (byte '0') ∧ (k = q ∨ k = q ++ es ++ [byte '.'])

theorem setFlag_of_isdigit {c : UInt8} (h : isdigit c = true) (hz : c ≠ byte '0') :
    setFlag .none c = none := by
  have hne (c' : UInt8) (h' : isdigit c' = false) : c ≠ c' := by
    rintro rfl
    exact Bool.false_ne_true (h'.symm.trans h)
  rw [setFlag, if_neg (hne _ (by decide)), if_neg (hne _ (by decide)), if_neg (hne _ (by decide)),
    if_neg (hne _ (by decide)), if_neg hz]

theorem fieldOf_star {k : List UInt8} (hk : BeforeStar k) :
    (fieldOf (k ++ byte '*' :: l)).1.star = true ∧ (fieldOf (k ++ byte '*' :: l)).2 = l := by
  obtain ⟨q, es, hq, hes, hhead, rfl | rfl⟩ := hk
  · have hflags := flagsOf_append .none hq (l := byte '*' :: l) rfl
    rw [fieldOf_eq, fromConv, hflags]
    exact ⟨rfl, rfl⟩
  · rw [List.append_assoc, List.append_assoc, List.singleton_append]
    have hflags : (flagsOf .none (q ++ (es ++ byte '.' :: byte '*' :: l))).2 =
        es ++ byte '.' :: byte '*' :: l := by
      refine flagsOf_append .none hq ?_
      cases es with
      | nil => rfl
      | cons c es =>
        refine setFlag_of_isdigit (hes c List.mem_cons_self) ?_
        rintro rfl
        exact hhead rfl
    have hwidth : (widthOf (es ++ byte '.' :: byte '*' :: l)).2 =
        (false, byte '.' :: byte '*' :: l) := by
      cases es with
      | nil => rfl
      | cons c es =>
        have hfirst : isdigit ((c :: es ++ byte '.' :: byte '*' :: l).headD 0) = true :=
          hes c List.mem_cons_self
        rw [widthOf_of_isdigit hfirst, intOf_append 0 hes rfl]
    rw [fieldOf_eq, fromConv, hflags, hwidth]
    exact ⟨rfl, rfl⟩

/-- A star uses up an argument and is printed behind a percent sign. Neither flags nor digits in
front of it have an effect, and the conversion behind it is printed as text. -/
theorem render_star {k : List UInt8} (hk : BeforeStar k) (hp : p.args = w :: args) :
    render str (pieces (byte '%' :: (k ++ byte '*' :: l))) p =
      render str (pieces l) { p with text := p.text ++ [byte '%', byte '*'], args := args } := by
  obtain ⟨hstar, hrest⟩ := fieldOf_star (l := l) hk
  have hecho : (fieldOf (k ++ byte '*' :: l)).1.echo = [byte '%', byte '*'] := by
    rw [Field.echo, conv_of_star hstar]
    rfl
  rw [pieces_percent, render_cons, hrest, Piece.render, Field.render, hstar, hp]
  simp only [Option.bind_some, hecho]

/-- In memory: the text behind a star is printed as if the star were not a field, with one argument
less. -/
theorem vsprintf_star {k : List UInt8} (hk : BeforeStar k)
    (hf : m.IsText fmt (byte '%' :: (k ++ byte '*' :: l)))
    (hr : render str (pieces l) ⟨[byte '%', byte '*'], args, [], []⟩ = some r)
    (h : Apart m buf fmt (fmt + (byte '%' :: (k ++ byte '*' :: l)).length) str r)
    (hm : ∀ x ∈ pieces (byte '%' :: (k ++ byte '*' :: l)), x.Modest) (w : UInt32) :
    [byte '%', byte '*'] <+: r.text ∧ ∃ n, ∀ fuel, n ≤ fuel → vsprintf fuel m buf fmt (w :: args) =
      some (r.text.length, storeAll (m.write buf (r.text ++ [0])) r.counts) := by
  have hstart : render str (pieces (byte '%' :: (k ++ byte '*' :: l))) (.start (w :: args)) =
      render str (pieces l) ⟨[byte '%', byte '*'], args, [], []⟩ := render_star hk rfl
  exact ⟨(render_le hr).text, vsprintf_eq hf (hstart.trans hr) h hm⟩

def starFormat : Bytes := fun x => (['%', '*', 'd'].map byte).getD x 0

theorem vsprintf_star_width : [byte '%', byte '*'] <+: ['%', '*', 'd'].map byte ∧
    ∃ n, ∀ fuel, n ≤ fuel → vsprintf fuel starFormat 10 0 [5, 42] =
      some (3, storeAll (starFormat.write 10 (['%', '*', 'd'].map byte ++ [0])) []) :=
  vsprintf_star (k := []) (l := [byte 'd']) (r := ⟨['%', '*', 'd'].map byte, [42], [], []⟩)
    ⟨[], [], by simp, by simp, by decide, .inl rfl⟩ (by decide) (by decide)
    (show Apart starFormat 10 0 3 (fun _ => []) _ from
      apart_of_plain rfl rfl (.inr (by decide))) (by decide) 5

end Stars

end NSOS.Nslibc
