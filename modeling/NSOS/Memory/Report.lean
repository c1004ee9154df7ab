import NSOS.Console.Printf
import NSOS.Memory.Safety
import NSOS.Nslibc.Appending

/-! # Reports of the block list

`pmm_print_memory_layout` prints the block list on the console, and a read of
`/proc/meminfo` puts it into `filebuf`. Both go through the list and show the
header of each block in a row, up to some number of rows. Two such reports are
the same only if the headers are.
-/

namespace NSOS.Pmm

open Basis Bytes Nslibc

section Code

/-- The formats of a report and the answers in its rows. -/
structure Phrases where
  heading : ℕ
  row : ℕ
  newline : ℕ
  yes : UInt32
  no : UInt32

def rowArgs (x : Phrases) (m : Bytes) (count blockit : ℕ) : List UInt32 :=
  [.ofNat count, .ofNat blockit, .ofNat (front m blockit), .ofNat (next m blockit),
    if inuse m blockit ≠ 0 then x.yes else x.no]

/-- The loop over the block list. It calls `print` for each row, up to `limit` times. -/
def layoutLoop {σ : Type} (h : Area) (x : Phrases) (mem : σ → Bytes)
    (print : List UInt32 → σ → Option σ) (limit : ℕ) : ℕ → ℕ → ℕ → σ → Option σ
  | 0, _, _, _ => none
  | fuel + 1, count, blockit, s =>
    if blockit ≠ h.stop ∧ count < limit then do
      let s ← print (rowArgs x (mem s) count blockit) s
      layoutLoop h x mem print limit fuel (count + 1) (next (mem s) blockit) s
    else some s

/-- `pmm_print_memory_layout`, with `printbuf` at the address `buf`. -/
def pmmPrintMemoryLayout (around : ℤ → UInt8) (h : Area) (x : Phrases) (buf memoryHead fuel : ℕ)
    (s : Console.Machine) : Option Console.Machine := do
  let (_, s) ← Console.printf around fuel buf x.heading [] s
  let s ← layoutLoop h x Console.Machine.mem
    (fun args s => (Console.printf around fuel buf x.row args s).map (·.2)) 100 101 0 memoryHead s
  let (_, s) ← Console.printf around fuel buf x.newline [] s
  return s

/-- The branch of `proc_read` that puts `/proc/meminfo` into `filebuf`. -/
def meminfo (h : Area) (x : Phrases) (filebuf memoryHead fuel : ℕ) (m : Bytes) :
    Option Bytes := do
  let m ← sprintfEnd fuel filebuf x.heading [] m
  layoutLoop h x id (sprintfEnd fuel filebuf x.row) 50 51 0 memoryHead m

def headingText : List UInt8 :=
  "\n           blockit    front      next       in use\n".toUTF8.toList

def rowFormat : List UInt8 := "block %3d: 0x%08X 0x%08X 0x%08X %s\n".toUTF8.toList

def filebufSize : ℕ := 5000

end Code

section Rows

structure Row where
  addr : ℕ
  front : ℕ
  next : ℕ
  used : Bool
  deriving DecidableEq

def answer (used : Bool) : List UInt8 := if used then "yes".toUTF8.toList else "no".toUTF8.toList

def Row.fields (i : ℕ) (r : Row) : List UInt8 :=
  "block ".toUTF8.toList ++ padded (byte ' ') 3 (decimal i) ++ ": 0x".toUTF8.toList ++
    hex8 r.addr ++ " 0x".toUTF8.toList ++ hex8 r.front ++ " 0x".toUTF8.toList ++ hex8 r.next ++
      " ".toUTF8.toList

def Row.text (i : ℕ) (r : Row) : List UInt8 := r.fields i ++ answer r.used ++ [10]

def rowTexts : ℕ → List Row → List UInt8
  | _, [] => []
  | i, r :: rs => r.text i ++ rowTexts (i + 1) rs

def Blk.row (m : Bytes) (b : Blk) : Row :=
  ⟨b.addr, Pmm.front m b.addr, Pmm.next m b.addr, b.size.isSome⟩

/-- The text of a report with at most `limit` rows. -/
def report (m : Bytes) (limit : ℕ) (bs : List Blk) : List UInt8 :=
  headingText ++ rowTexts 0 ((bs.take limit).map (Blk.row m))

/-- The addresses of a row fit into words. -/
def Row.Fits (r : Row) : Prop := r.addr < 2 ^ 32 ∧ r.front < 2 ^ 32 ∧ r.next < 2 ^ 32

variable {m : Bytes} {str : ℕ → List UInt8} {i : ℕ} {r r' : Row} {rs rs' : List Row}
  {b : Blk} {x : Phrases} {bs : List Blk} {e : ℕ}

theorem percent_not_mem_heading : byte '%' ∉ headingText := by decide +kernel

theorem pieces_rowFormat : pieces rowFormat = [literal "block ", [.field (decimalField false 3)],
    literal ": 0x", [.field hexField], literal " 0x", [.field hexField], literal " 0x",
    [.field hexField], literal " ", [.field stringField], [.char 10]].flatten := by decide +kernel

theorem render_heading : render (fun _ => []) (pieces headingText) (.start []) =
    some ⟨headingText, [], [], []⟩ := render_plain percent_not_mem_heading

theorem length_headingText : headingText.length = 52 := by decide +kernel

theorem modest_rowFormat : ∀ x ∈ pieces rowFormat, x.Modest := by
  rw [pieces_rowFormat]
  decide +kernel

theorem render_row {i b f n w : UInt32} {used : Bool} (hi : i.toNat < 2 ^ 31) (hw : w ≠ 0)
    (hs : str w.toNat = answer used) : render str (pieces rowFormat) (.start [i, b, f, n, w]) =
      some ⟨Row.text i.toNat ⟨b.toNat, f.toNat, n.toNat, used⟩, [], [w.toNat], []⟩ := by
  rw [pieces_rowFormat, Printed.start]
  simp only [List.flatten_cons, List.flatten_nil, List.singleton_append]
  rw [render_literal, render_decimal hi, render_literal, render_hex, render_literal, render_hex,
    render_literal, render_hex, render_literal, render_string hw, render_char, render_nil, hs]
  simp [Row.text, Row.fields]

theorem length_answer_le (used : Bool) : (answer used).length ≤ 3 := by
  cases used <;> decide +kernel

theorem Row.length_fields (hi : i < 1000) (hr : r.Fits) : (r.fields i).length = 44 := by
  have hdecimal := length_decimal_le (k := 3) (by decide) hi
  have hpad : (padded (byte ' ') 3 (decimal i)).length = 3 := by
    rw [length_padded]
    exact max_eq_left hdecimal
  simp only [Row.fields, List.length_append, hpad, length_hex8 hr.1, length_hex8 hr.2.1,
    length_hex8 hr.2.2]
  decide +kernel

theorem Row.length_text_le (hi : i < 1000) (hr : r.Fits) : (r.text i).length ≤ 48 := by
  have hanswer := length_answer_le r.used
  rw [Row.text, List.length_append, List.length_append, Row.length_fields hi hr,
    List.length_singleton]
  omega

theorem Row.zero_not_mem_text : 0 ∉ r.text i := by
  have hanswer : 0 ∉ answer r.used := by cases r.used <;> decide +kernel
  have hwords : 0 ∉ "block ".toUTF8.toList ∧ 0 ∉ ": 0x".toUTF8.toList ∧
      0 ∉ " 0x".toUTF8.toList ∧ 0 ∉ " ".toUTF8.toList := by decide +kernel
  have hpad : 0 ∉ padded (byte ' ') 3 (decimal i) :=
    zero_not_mem_padded (by decide) zero_not_mem_decimal
  simp only [Row.text, Row.fields, List.mem_append, not_or, List.mem_singleton]
  exact ⟨⟨⟨⟨⟨⟨⟨⟨⟨⟨hwords.1, hpad⟩, hwords.2.1⟩, zero_not_mem_hex8⟩, hwords.2.2.1⟩,
    zero_not_mem_hex8⟩, hwords.2.2.1⟩, zero_not_mem_hex8⟩, hwords.2.2.2⟩, hanswer⟩, by decide⟩

theorem Row.fields_inj (hr : r.Fits) (hr' : r'.Fits) (h : r.fields i = r'.fields i) :
    r.addr = r'.addr ∧ r.front = r'.front ∧ r.next = r'.next := by
  have hlen {n k : ℕ} (hn : n < 2 ^ 32) (hk : k < 2 ^ 32) : (hex8 n).length = (hex8 k).length := by
    rw [length_hex8 hn, length_hex8 hk]
  obtain ⟨h, hnext⟩ := List.append_inj' (List.append_cancel_right h) (hlen hr.2.2 hr'.2.2)
  obtain ⟨h, hfront⟩ := List.append_inj' (List.append_cancel_right h) (hlen hr.2.1 hr'.2.1)
  obtain ⟨-, haddr⟩ := List.append_inj' (List.append_cancel_right h) (hlen hr.1 hr'.1)
  exact ⟨hex8_inj haddr, hex8_inj hfront, hex8_inj hnext⟩

theorem answer_inj {u u' : Bool} {k k' : List UInt8} (h : answer u ++ k = answer u' ++ k') :
    u = u' ∧ k = k' := by
  have hyes : answer true = [121, 101, 115] := by decide +kernel
  have hno : answer false = [110, 111] := by decide +kernel
  cases u <;> cases u' <;> simp_all

theorem Row.text_inj (hi : i < 1000) (hr : r.Fits) (hr' : r'.Fits) {k k' : List UInt8}
    (h : r.text i ++ k = r'.text i ++ k') : r = r' ∧ k = k' := by
  simp only [Row.text, List.append_assoc] at h
  obtain ⟨hfields, hrest⟩ := List.append_inj h
    ((Row.length_fields hi hr).trans (Row.length_fields hi hr').symm)
  obtain ⟨haddr, hfront, hnext⟩ := Row.fields_inj hr hr' hfields
  obtain ⟨hused, hk⟩ := answer_inj hrest
  refine ⟨?_, List.append_cancel_left hk⟩
  cases r
  cases r'
  simp_all

theorem rowTexts_inj (hi : i + rs.length ≤ 1000) (hrs : ∀ r ∈ rs, r.Fits)
    (hrs' : ∀ r ∈ rs', r.Fits) (h : rowTexts i rs = rowTexts i rs') : rs = rs' := by
  have hne {r : Row} {k : List UInt8} : r.text i ++ k ≠ [] := by simp [Row.text]
  induction rs generalizing i rs' with
  | nil =>
    cases rs' with
    | nil => rfl
    | cons r' rs' => exact absurd h.symm hne
  | cons r rs ih =>
    cases rs' with
    | nil => exact absurd h hne
    | cons r' rs' =>
      rw [List.length_cons] at hi
      obtain ⟨rfl, hrest⟩ := Row.text_inj (by omega) (hrs _ List.mem_cons_self)
        (hrs' _ List.mem_cons_self) h
      rw [ih (by omega) (fun r hr => hrs r (List.mem_cons_of_mem _ hr))
        (fun r hr => hrs' r (List.mem_cons_of_mem _ hr)) hrest (by simp [Row.text])]

theorem row_fits (hb : b.addr < 2 ^ 32) : (b.row m).Fits :=
  ⟨hb, load_lt m _, load_lt m _⟩

def Phrases.answer (x : Phrases) (used : Bool) : UInt32 := if used then x.yes else x.no

def Row.args (x : Phrases) (i : ℕ) (r : Row) : List UInt32 :=
  [.ofNat i, .ofNat r.addr, .ofNat r.front, .ofNat r.next, x.answer r.used]

theorem rowArgs_eq (hflag : inuse m b.addr = b.flag) :
    rowArgs x m i b.addr = (b.row m).args x i := by
  have hanswer : (if inuse m b.addr ≠ 0 then x.yes else x.no) = x.answer b.size.isSome := by
    rw [hflag, Blk.flag, Phrases.answer]
    cases b.size.isSome <;> rfl
  rw [rowArgs, hanswer]
  rfl

theorem render_args (hi : i < 2 ^ 31) (hr : r.Fits) (hw : x.answer r.used ≠ 0)
    (hs : str (x.answer r.used).toNat = answer r.used) :
    render str (pieces rowFormat) (.start (r.args x i)) =
      some ⟨r.text i, [], [(x.answer r.used).toNat], []⟩ := by
  have hword {n : ℕ} (hn : n < 2 ^ 32) : (UInt32.ofNat n).toNat = n := UInt32.toNat_ofNat_of_lt' hn
  have hi' : (UInt32.ofNat i).toNat = i := hword (by omega)
  rw [Row.args, render_row (by rw [hi']; exact hi) hw hs, hi', hword hr.1, hword hr.2.1,
    hword hr.2.2]

end Rows

section Loop

variable {J : Bytes → Blk → ℕ → Prop} {h : Area} {x : Phrases} {m : Bytes} {bs : List Blk}
  {σ : Type} (mem : σ → Bytes) (print : ℕ → List UInt32 → σ → Option σ) (limit : ℕ) {lo n i : ℕ}
  {l : List UInt8} {s : σ} {P : ℕ → List UInt8 → σ → Prop}

/-- The loop prints a row for each block up to the limit, if each row can be printed and the block
list stays as it is. -/
theorem layoutLoop_rows (hmem : ∀ i l s, P i l s → Same m (mem s) lo h.stop)
    (hprint : ∀ i l s (r : Row), P i l s → i < limit → r.Fits → ∃ s', P (i + 1) (l ++ r.text i) s' ∧
      ∃ n, ∀ fuel, n ≤ fuel → print fuel (r.args x i) s = some s')
    (hl : Links J m h.stop bs) (hlo : lo ≤ headAddr bs h.stop) (hP : P i l s) (hi : i ≤ limit)
    (hn : limit - i < n) :
    ∃ j s', P j (l ++ rowTexts i ((bs.take (limit - i)).map (Blk.row m))) s' ∧
      ∃ k, ∀ fuel, k ≤ fuel →
        layoutLoop h x mem (print fuel) limit n i (headAddr bs h.stop) s = some s' := by
  induction bs generalizing i l s n with
  | nil =>
    obtain ⟨n, rfl⟩ := Nat.exists_eq_succ_of_ne_zero (Nat.ne_zero_of_lt hn)
    refine ⟨i, s, ?_, 0, fun fuel _ => ?_⟩
    · rw [List.take_nil]
      exact (List.append_nil l).symm ▸ hP
    · rw [layoutLoop, headAddr_nil, if_neg (fun h => h.1 rfl)]
  | cons b bs ih =>
    obtain ⟨n, rfl⟩ := Nat.exists_eq_succ_of_ne_zero (Nat.ne_zero_of_lt hn)
    by_cases hlimit : i < limit
    · obtain ⟨hheader, -, hrest⟩ := hl
      have hfits := hheader.fits
      have hend := hrest.headAddr_le
      have hbound := h.bound
      rw [headAddr_cons] at hlo ⊢
      have hflag {s : σ} {l : List UInt8} {i : ℕ} (hP : P i l s) :
          inuse (mem s) b.addr = b.flag ∧ b.row (mem s) = b.row m ∧
            next (mem s) b.addr = headAddr bs h.stop := by
        have hsame := hmem i l s hP
        have hfront : front (mem s) b.addr = front m b.addr := hsame.front hlo (by omega)
        have hnext : next (mem s) b.addr = next m b.addr := hsame.next (by omega) (by omega)
        refine ⟨(hsame.inuse (by omega) (by omega)).trans hheader.flag, ?_,
          hnext.trans hheader.next⟩
        rw [Blk.row, Blk.row, hfront, hnext]
      have hfits : (b.row m).Fits := row_fits (by omega)
      obtain ⟨s₁, hP₁, k₁, hrun₁⟩ := hprint i l s (b.row m) hP hlimit hfits
      obtain ⟨j, s', hP', k', hrun'⟩ := ih (i := i + 1) (n := n) hrest (by omega) hP₁ hlimit
        (by omega)
      refine ⟨j, s', ?_, max k₁ k', fun fuel hfuel => ?_⟩
      · rw [show limit - i = limit - (i + 1) + 1 by omega, List.take_succ_cons, List.map_cons,
          rowTexts, ← List.append_assoc]
        exact hP'
      · rw [layoutLoop, if_pos ⟨by omega, hlimit⟩, rowArgs_eq (hflag hP).1, (hflag hP).2.1,
          hrun₁ fuel (le_of_max_le_left hfuel), Option.bind_eq_bind, Option.bind_some,
          (hflag hP₁).2.2]
        exact hrun' fuel (le_of_max_le_right hfuel)
    · refine ⟨i, s, ?_, 0, fun fuel _ => ?_⟩
      · rw [show limit - i = 0 by omega, List.take_zero]
        exact (List.append_nil l).symm ▸ hP
      · rw [layoutLoop, if_neg (fun h => hlimit h.2)]

end Loop

section Reports

variable {h : Area} {x : Phrases} {m : Bytes} {w w' : World} {bs bs' : List Blk}
  {J J' : Bytes → Blk → ℕ → Prop} {buf size filebuf limit : ℕ}

/-- The phrases are in memory, and a buffer is apart from them and from the heap. -/
structure Phrases.Laid (x : Phrases) (h : Area) (m : Bytes) (buf size : ℕ) : Prop where
  heading : Sees m buf size x.heading headingText
  row : Sees m buf size x.row rowFormat
  nonzero : ∀ used, x.answer used ≠ 0
  answer : ∀ used, Sees m buf size (x.answer used).toNat (Pmm.answer used)
  heap : Clear h.start (h.stop - h.start) buf size

theorem Phrases.Laid.same (hx : x.Laid h m buf size) {m' : Bytes}
    (hkept : ∀ y, ¬ (buf ≤ y ∧ y < buf + size) → m' y = m y) : Same m m' h.start h.stop := by
  intro y h₁ h₂
  refine hkept y ?_
  rintro ⟨h₃, h₄⟩
  rcases hx.heap with hout | hout <;> omega

theorem sprintfEnd_row (hx : x.Laid h m filebuf filebufSize) {m₁ : Bytes} {l : List UInt8}
    {i : ℕ} {r : Row} (hm₁ : Filled m filebuf filebufSize l m₁) (hle : l.length ≤ 52 + 48 * i)
    (hi : i < 50) (hr : r.Fits) :
    ∃ m₂, (Filled m filebuf filebufSize (l ++ r.text i) m₂ ∧
        (l ++ r.text i).length ≤ 52 + 48 * (i + 1)) ∧
      ∃ n, ∀ fuel, n ≤ fuel → sprintfEnd fuel filebuf x.row (r.args x i) m₁ = some m₂ := by
  have hlen := Row.length_text_le (i := i) (by omega) hr
  have hsize : filebufSize = 5000 := rfl
  have hreads : ∀ s ∈ [(x.answer r.used).toNat],
      Sees m filebuf filebufSize s ((fun _ => answer r.used) s) := by
    rintro s hs
    rw [List.mem_singleton.mp hs]
    exact hx.answer r.used
  obtain ⟨m₂, hm₂, n, hrun⟩ := hm₁.sprintfEnd hx.row
    (render_args (i := i) (by omega) hr (hx.nonzero r.used) rfl) rfl hreads modest_rowFormat
    Row.zero_not_mem_text (by simp only; omega)
  refine ⟨m₂, ⟨hm₂, ?_⟩, n, hrun⟩
  rw [List.length_append]
  omega

theorem Tracks.meminfo (ht : Tracks J h w bs) (hx : x.Laid h w.pmm.mem filebuf filebufSize) :
    ∃ m', Filled w.pmm.mem filebuf filebufSize (report w.pmm.mem 50 bs) m' ∧
      ∃ n, ∀ fuel, n ≤ fuel → Pmm.meminfo h x filebuf w.pmm.memoryHead fuel
        (w.pmm.mem.put filebuf 0) = some m' := by
  have hstart : h.start ≤ headAddr bs h.stop := ht.layout.start.trans_eq ht.layout.head
  have hempty : Filled w.pmm.mem filebuf filebufSize [] (w.pmm.mem.put filebuf 0) :=
    filled_nil (by decide)
  obtain ⟨m₁, hm₁, n₁, hrun₁⟩ := hempty.sprintfEnd hx.heading
    render_heading rfl (by simp)
    (modest_plain percent_not_mem_heading) hx.heading.text.nonzero
    (by rw [List.length_nil, length_headingText]; decide)
  obtain ⟨j, m', ⟨hm', -⟩, n₂, hrun₂⟩ := layoutLoop_rows id
    (fun fuel => sprintfEnd fuel filebuf x.row) 50 (n := 51)
    (P := fun i l m' => Filled w.pmm.mem filebuf filebufSize l m' ∧ l.length ≤ 52 + 48 * i)
    (fun i l m₁ hm₁ => hx.same hm₁.1.kept)
    (fun i l m₁ r hm₁ hi hr => sprintfEnd_row hx hm₁.1 hm₁.2 hi hr)
    ht.layout.links hstart ⟨hm₁, length_headingText.le⟩ (Nat.zero_le 50) (by decide)
  refine ⟨m', hm', max n₁ n₂, fun fuel hfuel => ?_⟩
  rw [Pmm.meminfo, hrun₁ fuel (le_of_max_le_left hfuel), Option.bind_eq_bind, Option.bind_some,
    ht.layout.head]
  exact hrun₂ fuel (le_of_max_le_right hfuel)

def reportMemory : Bytes := fun x =>
  if x < 70 then headingText.getD (x - 8) 0
  else if x < 120 then rowFormat.getD (x - 70) 0
  else if x < 130 then (answer true).getD (x - 120) 0
  else if x < 140 then (answer false).getD (x - 130) 0
  else [10].getD (x - 140) 0

def somePhrases : Phrases := ⟨8, 70, 140, 120, 130⟩

/-- Two reports are the same only if the headers that they show are. -/
theorem report_eq_iff (ht : Tracks J h w bs) (ht' : Tracks J' h w' bs') (hlimit : limit ≤ 1000) :
    report w.pmm.mem limit bs = report w'.pmm.mem limit bs' ↔
      (bs.take limit).map (Blk.row w.pmm.mem) = (bs'.take limit).map (Blk.row w'.pmm.mem) := by
  have hfits {J : Bytes → Blk → ℕ → Prop} {w : World} {bs : List Blk} (ht : Tracks J h w bs) :
      ∀ r ∈ (bs.take limit).map (Blk.row w.pmm.mem), r.Fits := by
    rintro r hr
    obtain ⟨b, hb, rfl⟩ := List.mem_map.mp hr
    have hle := (ht.layout.links.mem_le (List.mem_of_mem_take hb)).2
    have hbound := h.bound
    exact row_fits (by omega)
  constructor
  · intro heq
    refine rowTexts_inj ?_ (hfits ht) (hfits ht') (List.append_cancel_left heq)
    rw [List.length_map, List.length_take]
    omega
  · intro heq
    rw [report, report, heq]

end Reports

section Console

open Console (Machine Sent Models printbufSize)

variable (around : ℤ → UInt8) {h : Area} {x : Phrases} {m : Bytes} {w : World} {s s₁ : Machine}
  {l f : List UInt8} {buf fmt i height width : ℕ} {t : Terminal UInt8 height width} {r : Row}
  {args : List UInt32} {str : ℕ → List UInt8} {p : Printed}

theorem Sent.printf (hs : Sent buf [] s t l s₁) (hf : Sees s.mem buf printbufSize fmt f)
    (hr : render str (pieces f) (.start args) = some p) (hcounts : p.counts = [])
    (hreads : ∀ a ∈ p.reads, Sees s.mem buf printbufSize a (str a))
    (hm : ∀ x ∈ pieces f, x.Modest) (hlen : p.text.length < printbufSize) (hh : height ≤ 200)
    (hw : width < 200) :
    ∃ s₂, Sent buf [] s t (l ++ p.text) s₂ ∧ ∃ n, ∀ fuel, n ≤ fuel →
      Console.printf around fuel buf fmt args s₁ = some (p.text.length, s₂) := by
  have hkept : ∀ y, ¬ (buf ≤ y ∧ y < buf + printbufSize) → s₁.mem y = s.mem y :=
    fun y hy => hs.kept y hy (by simp)
  have hapart := Apart.behind (k := 0) (hf.congr hkept) hcounts
    (fun a ha => (hreads a ha).congr hkept) (by rwa [Nat.zero_add])
  obtain ⟨s₂, hsent, n, hrun⟩ := Console.printf_sent around (hf.congr hkept).text hr hapart hm hlen
    hs.models hs.inBounds hh hw
  rw [hcounts] at hsent
  exact ⟨s₂, hs.trans hsent, n, hrun⟩

end Console

end NSOS.Pmm
