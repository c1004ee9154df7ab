import NSOS.Console.Redraw
import NSOS.Nslibc.RoundTrip

/-! # Formatted printing on the console

`printf` renders its format into a buffer of its own and sends the text to the
serial port and to the console.
-/

namespace NSOS.Console

open Basis Bytes Nslibc

/-- The memory, what the serial port has sent and the console. -/
structure Machine where
  mem : Bytes
  serial : List UInt8
  console : State

section Code

variable (around : ℤ → UInt8)

/-- A round of the loop of `printf`: `_putc` and `printchar`. -/
def Machine.emit (ch : UInt8) (s : Machine) : Machine :=
  { s with serial := s.serial ++ [ch], console := s.console.printchar around ch }

/-- `printf` with `printbuf` at the address `buf`. It returns the length of the text. -/
def printf (fuel buf fmt : ℕ) (args : List UInt32) (s : Machine) : Option (ℕ × Machine) :=
  (vsprintf fuel s.mem buf fmt args).map fun (i, m) =>
    (i, each i (fun j s => s.emit around (s.mem (buf + j))) { s with mem := m })

end Code

section Printing

variable (around : ℤ → UInt8) {s : Machine} {l f : List UInt8} {buf fmt n : ℕ}
  {str : ℕ → List UInt8} {r : Printed} {args : List UInt32} {h w : ℕ} {t : Terminal UInt8 h w}

def Machine.send (l : List UInt8) (s : Machine) : Machine :=
  { s with serial := s.serial ++ l, console := l.foldl (State.printchar around) s.console }

theorem send_append (k : List UInt8) :
    s.send around (l ++ k) = (s.send around l).send around k := by
  simp [Machine.send]

theorem each_emit (hl : s.mem.Holds buf l) :
    each l.length (fun j s => s.emit around (s.mem (buf + j))) s = s.send around l := by
  induction l using List.reverseRecOn with
  | nil => simp [each, Machine.send]
  | append_singleton l c ih =>
    obtain ⟨hholds, hc⟩ := holds_concat.mp hl
    rw [List.length_append, List.length_singleton, each, ih hholds, send_append around]
    change (s.send around l).emit around (s.mem (buf + l.length)) = _
    rw [hc]
    rfl

theorem printf_eq (hf : s.mem.IsText fmt f) (hr : render str (pieces f) (.start args) = some r)
    (ha : Apart s.mem buf fmt (fmt + f.length) str r) (hm : ∀ x ∈ pieces f, x.Modest) :
    ∃ n, ∀ fuel, n ≤ fuel → printf around fuel buf fmt args s = some (r.text.length,
      Machine.send around r.text
        { s with mem := storeAll (s.mem.write buf (r.text ++ [0])) r.counts }) := by
  obtain ⟨n, hrun⟩ := vsprintf_eq hf hr ha hm
  refine ⟨n, fun fuel hfuel => ?_⟩
  rw [printf, hrun fuel hfuel, Option.map_some]
  refine congrArg (fun s => some (_, s)) (each_emit around ?_)
  refine (holds_append.mp holds_write).1.congr fun x h₁ h₂ => storeAll_apply_of_outside ?_
  intro c hc
  have hcount := ha.counts c hc
  omega

def printbufSize : ℕ := 5024

/-- What has been sent to a machine since its console showed a terminal. Memory has only changed in
the buffer, and where lengths have been stored. -/
structure Sent (buf : ℕ) (counts : List (ℕ × ℕ)) (s : Machine) (t : Terminal UInt8 h w)
    (l : List UInt8) (s' : Machine) : Prop where
  serial : s'.serial = s.serial ++ l
  models : Models s'.console (l.foldl (Terminal.type 32 10) t)
  inBounds : s'.console.InBounds
  kept : ∀ x, ¬ (buf ≤ x ∧ x < buf + printbufSize) →
    (∀ c ∈ counts, ¬ (c.1 ≤ x ∧ x < c.1 + 4)) → s'.mem x = s.mem x

theorem Sent.trans {s₁ s₂ : Machine} {counts : List (ℕ × ℕ)} (h₁ : Sent buf [] s t l s₁)
    (h₂ : Sent buf counts s₁ (l.foldl (Terminal.type 32 10) t) f s₂) :
    Sent buf counts s t (l ++ f) s₂ where
  serial := by rw [h₂.serial, h₁.serial, List.append_assoc]
  models := by
    rw [List.foldl_append]
    exact h₂.models
  inBounds := h₂.inBounds
  kept x hx hcounts := (h₂.kept x hx hcounts).trans (h₁.kept x hx (by simp))

/-- When its text fits into the buffer, `printf` sends it to the serial port and types it on the
console, in the same way with all fuel that is enough. -/
theorem printf_sent (hf : s.mem.IsText fmt f)
    (hr : render str (pieces f) (.start args) = some r)
    (ha : Apart s.mem buf fmt (fmt + f.length) str r) (hm : ∀ x ∈ pieces f, x.Modest)
    (hlen : r.text.length < printbufSize) (hc : Models s.console t) (hin : s.console.InBounds)
    (hh : h ≤ 200) (hw : w < 200) :
    ∃ s', Sent buf r.counts s t r.text s' ∧
      ∃ n, ∀ fuel, n ≤ fuel → printf around fuel buf fmt args s = some (r.text.length, s') := by
  obtain ⟨n, hrun⟩ := printf_eq around hf hr ha hm
  have hconsole : (r.text.foldl (State.printchar around) s.console).InBounds ∧
      Models (r.text.foldl (State.printchar around) s.console)
        (r.text.foldl (Terminal.type 32 10) t) := hc.foldl hin hh hw r.text
  refine ⟨_, ⟨rfl, hconsole.2, hconsole.1, fun x hx hcounts => ?_⟩, n, hrun⟩
  have hout := storeAll_apply_of_outside (m := s.mem.write buf (r.text ++ [0])) hcounts
  refine hout.trans (write_apply_of_outside ?_)
  rw [List.length_append, List.length_singleton]
  omega

/-- When its text fits into the buffer, `printf` sends it to the serial port and types it on the
console. Memory only changes in the buffer, and where the format asks for the length. -/
theorem printf_types (hf : s.mem.IsText fmt f)
    (hr : render str (pieces f) (.start args) = some r)
    (ha : Apart s.mem buf fmt (fmt + f.length) str r) (hm : ∀ x ∈ pieces f, x.Modest)
    (hlen : r.text.length < printbufSize) (hc : Models s.console t) (hin : s.console.InBounds)
    (hh : h ≤ 200) (hw : w < 200) :
    ∃ n, ∀ fuel, n ≤ fuel → ∃ s', printf around fuel buf fmt args s = some (r.text.length, s') ∧
      s'.serial = s.serial ++ r.text ∧
      Models s'.console (r.text.foldl (Terminal.type 32 10) t) ∧ s'.console.InBounds ∧
      ∀ x, ¬ (buf ≤ x ∧ x < buf + printbufSize) →
        (∀ c ∈ r.counts, ¬ (c.1 ≤ x ∧ x < c.1 + 4)) → s'.mem x = s.mem x := by
  obtain ⟨s', hsent, n, hrun⟩ := printf_sent around hf hr ha hm hlen hc hin hh hw
  exact ⟨n, fun fuel hfuel => ⟨s', hrun fuel hfuel, hsent.serial, hsent.models, hsent.inBounds,
    hsent.kept⟩⟩

/-- A console of two rows and two columns, and the format `%3d|%s%n` in memory. -/
def smallMachine : Machine := ⟨someFormat, [], printed (fun _ => 0) (fun _ _ => 0) 22 38 []⟩

theorem models_smallMachine : smallMachine.console.InBounds ∧
    Models smallMachine.console
      (Terminal.clear (h := lines 38) (w := columns 22) 32 (by decide) (by decide)) :=
  models_printed _ _ (by decide) (by decide) (by decide) (by decide) []

theorem printf_types_small : ∃ n, ∀ fuel, n ≤ fuel → ∃ s',
    printf (fun _ => 0) fuel 100 0 [7, 20, 40] smallMachine = some (6, s') ∧
      s'.serial = [' ', ' ', '7', '|', 'a', 'b'].map byte ∧ s'.console.InBounds := by
  obtain ⟨n, hrun⟩ := printf_types (fun _ => 0) (s := smallMachine)
    (f := ['%', '3', 'd', '|', '%', 's', '%', 'n'].map byte) (by decide)
    (show render (fun _ => ['a', 'b'].map byte) _ (.start [7, 20, 40]) =
      some ⟨[' ', ' ', '7', '|', 'a', 'b'].map byte, [], [20], [(40, 6)]⟩ by decide)
    apart_someFormat (by decide) (by decide) models_smallMachine.2
    models_smallMachine.1 (by decide) (by decide)
  refine ⟨n, fun fuel hfuel => ?_⟩
  obtain ⟨s', hs, hserial, -, hin, -⟩ := hrun fuel hfuel
  exact ⟨s', hs, hserial, hin⟩

end Printing

end NSOS.Console
