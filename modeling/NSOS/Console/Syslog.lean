import NSOS.Console.Printf
import NSOS.Nslibc.Appending

/-! # The log

`syslog` renders its message into a buffer and prints it in a line, behind the
time and the part of the kernel that it comes from.
-/

namespace NSOS.Console

open Basis Bytes Nslibc

section Code

variable (around : ℤ → UInt8)

/-- The buffers and the formats of `syslog`. -/
structure Log where
  ringbuf : UInt32
  printbuf : ℕ
  long : ℕ
  short : ℕ

/-- `syslog`, where the two calls of `getuptime32` return `up` and `later`. -/
def syslog (fuel : ℕ) (a : Log) (who : UInt32) (fmt : ℕ) (args : List UInt32) (up later : UInt32)
    (s : Machine) : Option Machine := do
  let (i, m) ← vsprintf fuel s.mem a.ringbuf.toNat fmt args
  let s := { s with mem := m.put (a.ringbuf.toNat + i) 0 }
  let (_, s) ←
    if who ≠ 0 then
      printf around fuel a.printbuf a.long [up / 1000, later % 1000, who, a.ringbuf] s
    else printf around fuel a.printbuf a.short [up / 1000, later % 1000, a.ringbuf] s
  return s

def longFormat : List UInt8 := "[%5d.%03d] %s: %s\n".toUTF8.toList

def shortFormat : List UInt8 := "[%5d.%03d] %s\n".toUTF8.toList

end Code

section Lines

variable {str : ℕ → List UInt8} {up later who ringbuf : UInt32}

def stamp (up later : UInt32) : List UInt8 :=
  [byte '['] ++ padded (byte ' ') 5 (decimal (up.toNat / 1000)) ++ [byte '.'] ++
    padded (byte '0') 3 (decimal (later.toNat % 1000)) ++ [byte ']', byte ' ']

def logLine (up later : UInt32) (who : Option (List UInt8)) (message : List UInt8) : List UInt8 :=
  stamp up later ++ (who.map (· ++ [byte ':', byte ' '])).getD [] ++ message ++ [10]

theorem pieces_longFormat : pieces longFormat = [.char (byte '['), .field (decimalField false 5),
    .char (byte '.'), .field (decimalField true 3), .char (byte ']'), .char (byte ' '),
    .field stringField, .char (byte ':'), .char (byte ' '), .field stringField, .char 10] := by
  decide +kernel

theorem pieces_shortFormat : pieces shortFormat = [.char (byte '['),
    .field (decimalField false 5), .char (byte '.'), .field (decimalField true 3),
    .char (byte ']'), .char (byte ' '), .field stringField, .char 10] := by
  decide +kernel

theorem render_longFormat (hwho : who ≠ 0) (hring : ringbuf ≠ 0) :
    render str (pieces longFormat) (.start [up / 1000, later % 1000, who, ringbuf]) =
      some ⟨logLine up later (some (str who.toNat)) (str ringbuf.toNat), [],
        [who.toNat, ringbuf.toNat], []⟩ := by
  have hup := up.toNat_lt
  have hdiv : (up / 1000).toNat = up.toNat / 1000 := UInt32.toNat_div ..
  have hmod : (later % 1000).toNat = later.toNat % 1000 := UInt32.toNat_mod ..
  rw [pieces_longFormat, Printed.start, render_char, render_decimal (by omega), render_char,
    render_decimal (by omega), render_char, render_char, render_string hwho, render_char,
    render_char, render_string hring, render_char, render_nil, hdiv, hmod]
  simp [logLine, stamp]

theorem render_shortFormat (hring : ringbuf ≠ 0) :
    render str (pieces shortFormat) (.start [up / 1000, later % 1000, ringbuf]) =
      some ⟨logLine up later none (str ringbuf.toNat), [], [ringbuf.toNat], []⟩ := by
  have hup := up.toNat_lt
  have hdiv : (up / 1000).toNat = up.toNat / 1000 := UInt32.toNat_div ..
  have hmod : (later % 1000).toNat = later.toNat % 1000 := UInt32.toNat_mod ..
  rw [pieces_shortFormat, Printed.start, render_char, render_decimal (by omega), render_char,
    render_decimal (by omega), render_char, render_char, render_string hring, render_char,
    render_nil, hdiv, hmod]
  simp [logLine, stamp]

end Lines

section Layout

def ringbufSize : ℕ := 1024

/-- A text in memory, apart from the buffers of `syslog`. -/
structure Log.Sees (a : Log) (m : Bytes) (x : ℕ) (l : List UInt8) : Prop where
  text : m.IsText x l
  short : l.length < 2 ^ 31
  ringbuf : Clear x (l.length + 1) a.ringbuf.toNat ringbufSize
  printbuf : Clear x (l.length + 1) a.printbuf printbufSize

/-- What `syslog` relies on: its buffers do not meet, and its formats and the name that `who`
points to are apart from them. -/
structure Log.Laid (a : Log) (m : Bytes) (who : UInt32) (name : Option (List UInt8)) : Prop where
  buffers : Clear a.ringbuf.toNat ringbufSize a.printbuf printbufSize
  nonzero : a.ringbuf ≠ 0
  long : a.Sees m a.long longFormat
  short : a.Sees m a.short shortFormat
  unnamed : who = 0 → name = none
  named : who ≠ 0 → ∃ l, name = some l ∧ a.Sees m who.toNat l

variable {m : Bytes} {a : Log} {x : ℕ} {l k : List UInt8} {r : Printed} {str : ℕ → List UInt8}

/-- The part of a message up to a zero in it. -/
def message (r : Printed) : List UInt8 := r.text.takeWhile (· ≠ 0)

theorem isText_takeWhile (h : m.Holds x (l ++ [0])) : m.IsText x (l.takeWhile (· ≠ 0)) := by
  induction l generalizing x with
  | nil => exact ⟨h, List.not_mem_nil⟩
  | cons c l ih =>
    by_cases hc : c = 0
    · have hnil : (c :: l).takeWhile (· ≠ 0) = [] := by simp [hc]
      rw [hnil]
      exact ⟨⟨h.1.trans hc, trivial⟩, List.not_mem_nil⟩
    · have hcons : (c :: l).takeWhile (· ≠ 0) = c :: l.takeWhile (· ≠ 0) := by simp [hc]
      obtain ⟨hholds, hnot⟩ := ih h.2
      rw [hcons]
      exact ⟨⟨h.1, hholds⟩, List.not_mem_cons_of_ne_of_not_mem (Ne.symm hc) hnot⟩

theorem length_message_le (r : Printed) : (message r).length ≤ r.text.length :=
  (List.takeWhile_prefix _).length_le

theorem Log.Sees.write (h : a.Sees m x l) (hk : k.length ≤ ringbufSize) :
    (m.write a.ringbuf.toNat k).IsText x l := by
  refine h.text.write ?_
  rcases h.ringbuf with hout | hout
  · exact .inr (by omega)
  · exact .inl (by omega)

def lineStrings (a : Log) (name : Option (List UInt8)) (r : Printed) : ℕ → List UInt8 :=
  fun x => if x = a.ringbuf.toNat then message r else name.getD []

theorem Log.Laid.apart {who : UInt32} {name : Option (List UInt8)} (h : a.Laid m who name)
    (hr : r.text.length < ringbufSize) (hl : a.Sees m x l) {line : Printed}
    (hc : line.counts = []) (hline : line.text.length < printbufSize)
    (hreads : ∀ y ∈ line.reads, y = a.ringbuf.toNat ∨ y = who.toNat ∧ who ≠ 0) :
    Apart (m.write a.ringbuf.toNat (r.text ++ [0])) a.printbuf x (x + l.length)
      (lineStrings a name r) line := by
  have hsee {x : ℕ} {l : List UInt8} (hl : a.Sees m x l) :
      Nslibc.Sees (m.write a.ringbuf.toNat (r.text ++ [0])) a.printbuf printbufSize x l := by
    refine ⟨hl.write ?_, hl.short, hl.printbuf⟩
    rw [List.length_append, List.length_singleton]
    omega
  refine Apart.behind (k := 0) (hsee hl) hc (fun y hy => ?_) (by omega)
  by_cases hring : y = a.ringbuf.toNat
  · subst hring
    have hle := length_message_le r
    have hsize : ringbufSize < 2 ^ 31 := by decide
    rw [lineStrings, if_pos rfl]
    refine ⟨isText_takeWhile holds_write, by omega, ?_⟩
    rcases h.buffers with hout | hout
    · exact .inl (hout.trans' (Nat.add_le_add_left (by omega) _))
    · exact .inr hout
  · obtain ⟨rfl, hwho⟩ := (hreads y hy).resolve_left hring
    obtain ⟨k, rfl, hk⟩ := h.named hwho
    rw [lineStrings, if_neg hring, Option.getD_some]
    exact hsee hk

end Layout

section Logging

variable (around : ℤ → UInt8) {s : Machine} {a : Log} {who : UInt32} (up later : UInt32) {fmt : ℕ}
  {f : List UInt8} {args : List UInt32} {str : ℕ → List UInt8} {r : Printed}
  {name : Option (List UInt8)} {h w : ℕ} {t : Terminal UInt8 h w}

theorem printLine (hl : a.Laid s.mem who name) (hr : r.text.length < ringbufSize)
    (hline : (logLine up later name (message r)).length < printbufSize)
    (hc : Models s.console t) (hin : s.console.InBounds) (hh : h ≤ 200) (hw : w < 200) :
    ∃ s', Sent a.printbuf [] { s with mem := s.mem.write a.ringbuf.toNat (r.text ++ [0]) } t
        (logLine up later name (message r)) s' ∧ ∃ n, ∀ fuel, n ≤ fuel → (if who ≠ 0 then
        printf around fuel a.printbuf a.long [up / 1000, later % 1000, who, a.ringbuf]
          { s with mem := s.mem.write a.ringbuf.toNat (r.text ++ [0]) }
      else printf around fuel a.printbuf a.short [up / 1000, later % 1000, a.ringbuf]
          { s with mem := s.mem.write a.ringbuf.toNat (r.text ++ [0]) }) =
            some ((logLine up later name (message r)).length, s') := by
  have hself : lineStrings a name r a.ringbuf.toNat = message r := if_pos rfl
  have hwrite : (r.text ++ [0]).length ≤ ringbufSize := by
    rw [List.length_append, List.length_singleton]
    omega
  by_cases hwho : who = 0
  · obtain rfl := hl.unnamed hwho
    have hrender : render (lineStrings a none r) (pieces shortFormat)
        (.start [up / 1000, later % 1000, a.ringbuf]) =
          some ⟨logLine up later none (message r), [], [a.ringbuf.toNat], []⟩ := by
      rw [render_shortFormat hl.nonzero, hself]
    have hapart : Apart (s.mem.write a.ringbuf.toNat (r.text ++ [0])) a.printbuf a.short
        (a.short + shortFormat.length) (lineStrings a none r)
        ⟨logLine up later none (message r), [], [a.ringbuf.toNat], []⟩ :=
      hl.apart hr hl.short rfl hline (by simp)
    obtain ⟨s', hsent, n, hrun⟩ := printf_sent around
      (s := { s with mem := s.mem.write a.ringbuf.toNat (r.text ++ [0]) })
      (hl.short.write hwrite) hrender hapart (by decide +kernel) hline hc hin hh hw
    refine ⟨s', hsent, n, fun fuel hfuel => ?_⟩
    rw [if_neg (not_not.mpr hwho)]
    exact hrun fuel hfuel
  · obtain ⟨l, rfl, hlname⟩ := hl.named hwho
    have hne : who.toNat ≠ a.ringbuf.toNat := by
      have hpos : 0 < ringbufSize := by decide
      rcases hlname.ringbuf with hout | hout <;> omega
    have hother : lineStrings a (some l) r who.toNat = l := if_neg hne
    have hrender : render (lineStrings a (some l) r) (pieces longFormat)
        (.start [up / 1000, later % 1000, who, a.ringbuf]) =
          some ⟨logLine up later (some l) (message r), [], [who.toNat, a.ringbuf.toNat], []⟩ := by
      rw [render_longFormat hwho hl.nonzero, hself, hother]
    have hapart : Apart (s.mem.write a.ringbuf.toNat (r.text ++ [0])) a.printbuf a.long
        (a.long + longFormat.length) (lineStrings a (some l) r)
        ⟨logLine up later (some l) (message r), [], [who.toNat, a.ringbuf.toNat], []⟩ :=
      hl.apart hr hl.long rfl hline (by simp [hwho])
    obtain ⟨s', hsent, n, hrun⟩ := printf_sent around
      (s := { s with mem := s.mem.write a.ringbuf.toNat (r.text ++ [0]) })
      (hl.long.write hwrite) hrender hapart (by decide +kernel) hline hc hin hh hw
    refine ⟨s', hsent, n, fun fuel hfuel => ?_⟩
    rw [if_pos hwho]
    exact hrun fuel hfuel

/-- `syslog` sends a line with the time, the name of its origin and the message up to a zero in it
to the serial port and types it on the console, when the message and the line fit into their
buffers. Memory only changes in the two buffers. -/
theorem syslog_types (hf : s.mem.IsText fmt f)
    (hr : render str (pieces f) (.start args) = some r)
    (ha : Apart s.mem a.ringbuf.toNat fmt (fmt + f.length) str r)
    (hm : ∀ x ∈ pieces f, x.Modest) (hcounts : r.counts = [])
    (hl : a.Laid s.mem who name) (hfits : r.text.length < ringbufSize)
    (hline : (logLine up later name (message r)).length < printbufSize)
    (hc : Models s.console t) (hin : s.console.InBounds) (hh : h ≤ 200) (hw : w < 200) :
    ∃ n, ∀ fuel, n ≤ fuel → ∃ s', syslog around fuel a who fmt args up later s = some s' ∧
      s'.serial = s.serial ++ logLine up later name (message r) ∧
      Models s'.console ((logLine up later name (message r)).foldl (Terminal.type 32 10) t) ∧
      s'.console.InBounds ∧
      ∀ x, ¬ (a.ringbuf.toNat ≤ x ∧ x < a.ringbuf.toNat + ringbufSize) →
        ¬ (a.printbuf ≤ x ∧ x < a.printbuf + printbufSize) → s'.mem x = s.mem x := by
  obtain ⟨n₁, hrender⟩ := vsprintf_eq hf hr ha hm
  obtain ⟨s', hsent, n₂, hprint⟩ := printLine around up later hl hfits hline hc hin hh hw
  refine ⟨max n₁ n₂, fun fuel hfuel => ?_⟩
  have hs := hprint fuel (le_of_max_le_right hfuel)
  -- the zero that `syslog` stores behind the message is there already
  have hzero : (s.mem.write a.ringbuf.toNat (r.text ++ [0])).put (a.ringbuf.toNat + r.text.length)
      0 = s.mem.write a.ringbuf.toNat (r.text ++ [0]) :=
    put_of_eq (holds_concat.mp holds_write).2
  refine ⟨s', ?_, hsent.serial, hsent.models, hsent.inBounds,
    fun x h₁ h₂ => (hsent.kept x h₂ (by simp)).trans ?_⟩
  · rw [syslog, hrender fuel (le_of_max_le_left hfuel), hcounts]
    simp only [storeAll, List.foldl_nil, Option.bind_eq_bind, Option.bind_some, hzero]
    by_cases hwho : who = 0
    · rw [if_neg (not_not.mpr hwho)] at hs ⊢
      rw [hs]
      rfl
    · rw [if_pos hwho] at hs ⊢
      rw [hs]
      rfl
  · refine write_apply_of_outside ?_
    rw [List.length_append, List.length_singleton]
    omega

/-- The format `%d!` at the address 0, the formats of a line and the name `kmt`. -/
def logMemory : Bytes := fun x =>
  if x < 10 then (['%', 'd', '!'].map byte).getD x 0
  else if x < 40 then longFormat.getD (x - 10) 0
  else if x < 50 then (['k', 'm', 't'].map byte).getD (x - 40) 0
  else shortFormat.getD (x - 50) 0

def smallLog : Log := ⟨100, 2000, 10, 50⟩

theorem laid_smallLog : smallLog.Laid logMemory 40 (some (['k', 'm', 't'].map byte)) where
  buffers := by decide
  nonzero := by decide
  long := ⟨by decide +kernel, by decide +kernel, by decide +kernel, by decide +kernel⟩
  short := ⟨by decide +kernel, by decide +kernel, by decide +kernel, by decide +kernel⟩
  unnamed h := absurd h (by decide)
  named _ := ⟨_, rfl, by decide +kernel, by decide, by decide, by decide⟩

theorem apart_logMemory : Apart logMemory 100 0 3 (fun _ => [])
    ⟨['7', '!'].map byte, [], [], []⟩ where
  format x h₁ h₂ := by
    rintro (⟨h₃, h₄⟩ | ⟨c, hc, -⟩)
    · omega
    · cases hc
  strings s hs := by cases hs
  counts c hc := by cases hc

theorem syslog_types_small : ∃ n, ∀ fuel, n ≤ fuel → ∃ s',
    syslog (fun _ => 0) fuel smallLog 40 0 [7] 1234 1240
        { smallMachine with mem := logMemory } = some s' ∧
      s'.serial = "[    1.240] kmt: 7!\n".toUTF8.toList ∧ s'.console.InBounds := by
  obtain ⟨n, hrun⟩ := syslog_types (fun _ => 0) 1234 1240
    (a := smallLog)
    (s := { smallMachine with mem := logMemory })
    (show logMemory.IsText 0 (['%', 'd', '!'].map byte) by decide)
    (show render (fun _ => []) _ (.start [7]) = some ⟨['7', '!'].map byte, [], [], []⟩ by decide)
    apart_logMemory (by decide) rfl laid_smallLog (by decide) (by decide) models_smallMachine.2
    models_smallMachine.1 (by decide) (by decide)
  refine ⟨n, fun fuel hfuel => ?_⟩
  obtain ⟨s', hs, hserial, -, hin, -⟩ := hrun fuel hfuel
  exact ⟨s', hs, hserial.trans (by decide +kernel), hin⟩

end Logging

end NSOS.Console
