import NSOS.Memory.Report
import NSOS.Vfs.Descriptors
import NSOS.Vfs.Serving

/-! # The texts of `proc`

`proc_read` prints the text of a file into `filebuf` and copies a part of it to
the caller. The driver that the file system works with is given the texts. Here
they are printed in memory, and what `proc_read` does there is what the driver
does with the texts that it prints.
-/

namespace NSOS.Vfs.ProcText

open Basis Bytes Nslibc
open Pmm (Area Phrases World Tracks Loose filebufSize)
open Prog (run run_bind run_gets run_pure run_modify)

section Code

/-- What `proc_read` shows of a thread. -/
structure Thread where
  name : UInt32
  uid : UInt32
  gid : UInt32
  sleep : Bool
  stackStart : UInt32
  stackEnd : UInt32

/-- The heap, the threads, the buffer and the phrases that `proc_read` uses. -/
structure Kernel where
  heap : Area
  threadPool : ℤ → Option Thread
  filebuf : ℕ
  meminfo : Phrases
  cpuinfo : ℕ
  thread : ℕ
  asleep : UInt32
  awake : UInt32

def cpuinfoText : List UInt8 := [
    "processor       : 0\n",
    "vendor_id       : Jiang Yanyan\n",
    "cpu family      : 0\n",
    "model           : 114514\n",
    "model name      : Shitty Abstract Machine\n",
    "stepping        : 1\n",
    "microcode       : 0x1\n",
    "cpu MHz         : 2333.333\n",
    "cache size      : 2333 KB\n",
    "physical id     : 0\n",
    "siblings        : 1\n",
    "core id         : 0\n",
    "cpu cores       : 1\n",
    "fpu             : no\n",
    "flags           : nothing-available\n",
    "bugs            : cpu_meltdown spectre_v1 spectre_v2 spec_store_bypass and *a lot*\n",
    "address sizes   : 20 bits physical, 32 bits virtual\n",
    "\n"].flatMap (·.toUTF8.toList)

def threadFormat : List UInt8 :=
  "PID:   %d\nname:  %s\nuid:   %d\ngid:   %d\nsleep: %s\nstack: 0x%08X-0x%08X\n".toUTF8.toList

variable (k : Kernel) (fuel : ℕ)

def Kernel.sleep (asleep : Bool) : UInt32 := if asleep then k.asleep else k.awake

/-- The part of `proc_read` that prints the text into `filebuf`. -/
def printText (pid : ℤ) (s : Pmm.State) : Option Bytes :=
  let m := s.mem.put k.filebuf 0
  if pid = CPUINFO_INO then (sprintf fuel m k.filebuf k.cpuinfo []).map (·.2)
  else if pid = MEMINFO_INO then Pmm.meminfo k.heap k.meminfo k.filebuf s.memoryHead fuel m
  else (k.threadPool pid).bind fun t =>
    (sprintf fuel m k.filebuf k.thread [.ofInt pid, t.name, t.uid, t.gid, k.sleep t.sleep,
      t.stackStart, t.stackEnd]).map (·.2)

/-- The loop of `proc_read`, with the number of bytes that may still be copied. -/
def copyText (buf : ℕ) : ℕ → ℕ → ℕ → Bytes → Option (ℕ × Bytes)
  | 0, _, readcount, m => some (readcount, m)
  | n + 1, iterator, readcount, m => do
    let len ← strlen fuel m k.filebuf
    if 0 < toInt ((k.filebuf + len : ℕ) - iterator) then
      copyText buf n (iterator + 1) (readcount + 1) (m.put (buf + readcount) (m iterator))
    else some (readcount, m)

/-- `proc_read`, for the inode number and the position of the file. -/
def procRead (pid fPos : ℤ) (buf count : ℕ) (s : Pmm.State) : Option (ℤ × Bytes) :=
  if pid ≠ CPUINFO_INO ∧ pid ≠ MEMINFO_INO ∧ k.threadPool pid = none then some (-1, s.mem)
  else do
    let m ← printText k fuel pid s
    let (readcount, m) ← copyText k fuel buf count (k.filebuf + fPos).toNat 0 m
    if readcount < count then some (toInt (readcount + 1 : ℕ), m.put (buf + readcount) 10)
    else some (toInt readcount, m)

end Code

section Texts

def threadText (pid : ℤ) (t : Thread) (name : List UInt8) : List UInt8 :=
  "PID:   ".toUTF8.toList ++ signed (.ofInt pid) ++ "\nname:  ".toUTF8.toList ++ name ++
    "\nuid:   ".toUTF8.toList ++ signed t.uid ++ "\ngid:   ".toUTF8.toList ++ signed t.gid ++
    "\nsleep: ".toUTF8.toList ++ (if t.sleep then "true" else "false").toUTF8.toList ++
    "\nstack: 0x".toUTF8.toList ++ hex8 t.stackStart.toNat ++ "-0x".toUTF8.toList ++
    hex8 t.stackEnd.toNat ++ [10]

/-- What the kernel shows in a file. -/
inductive Shows (k : Kernel) (w : World) : ℤ → List UInt8 → Prop where
  | cpuinfo : Shows k w CPUINFO_INO cpuinfoText
  | meminfo {bs} : Tracks Loose k.heap w bs → Shows k w MEMINFO_INO (Pmm.report w.pmm.mem 50 bs)
  | thread {pid t name} : pid ≠ CPUINFO_INO → pid ≠ MEMINFO_INO → k.threadPool pid = some t →
      t.name ≠ 0 → Sees w.pmm.mem k.filebuf filebufSize t.name.toNat name →
      (threadText pid t name).length < filebufSize → Shows k w pid (threadText pid t name)

/-- The phrases are in memory, and `filebuf` is apart from them and from the heap. -/
structure Kernel.Laid (k : Kernel) (m : Bytes) : Prop where
  meminfo : k.meminfo.Laid k.heap m k.filebuf filebufSize
  cpuinfo : Sees m k.filebuf filebufSize k.cpuinfo cpuinfoText
  thread : Sees m k.filebuf filebufSize k.thread threadFormat
  nonzero : ∀ asleep, k.sleep asleep ≠ 0
  sleep : ∀ asleep, Sees m k.filebuf filebufSize (k.sleep asleep).toNat
    (if asleep then "true" else "false").toUTF8.toList

variable {k : Kernel} {w : World} {pid : ℤ} {text name : List UInt8} {t : Thread} {m : Bytes}
  {str : ℕ → List UInt8}

theorem percent_not_mem_cpuinfoText : byte '%' ∉ cpuinfoText := by decide +kernel

theorem pieces_threadFormat : pieces threadFormat = [literal "PID:   ", [.field (bare 'd')],
    literal "\nname:  ", [.field stringField], literal "\nuid:   ", [.field (bare 'd')],
    literal "\ngid:   ", [.field (bare 'd')], literal "\nsleep: ", [.field stringField],
    literal "\nstack: 0x", [.field hexField], literal "-0x", [.field hexField],
    [.char 10]].flatten := by decide +kernel

theorem modest_threadFormat : ∀ x ∈ pieces threadFormat, x.Modest := by
  rw [pieces_threadFormat]
  decide +kernel

theorem render_threadFormat (pid : ℤ) (hname : t.name ≠ 0) (hsleep : k.sleep t.sleep ≠ 0)
    (hs : str (k.sleep t.sleep).toNat = (if t.sleep then "true" else "false").toUTF8.toList) :
    render str (pieces threadFormat) (.start [.ofInt pid, t.name, t.uid, t.gid, k.sleep t.sleep,
      t.stackStart, t.stackEnd]) = some ⟨threadText pid t (str t.name.toNat), [],
        [t.name.toNat, (k.sleep t.sleep).toNat], []⟩ := by
  rw [pieces_threadFormat, Printed.start]
  simp only [List.flatten_cons, List.flatten_nil, List.singleton_append]
  rw [render_literal, render_signed, render_literal, render_string hname, render_literal,
    render_signed, render_literal, render_signed, render_literal, render_string hsleep,
    render_literal, render_hex, render_literal, render_hex, render_char, render_nil, hs]
  simp [threadText]

theorem zero_not_mem_threadText (hname : 0 ∉ name) : 0 ∉ threadText pid t name := by
  obtain ⟨hpid, hn, huid, hgid, hsl, hstack, hto, htrue, hfalse⟩ :
      0 ∉ "PID:   ".toUTF8.toList ∧ 0 ∉ "\nname:  ".toUTF8.toList ∧
      0 ∉ "\nuid:   ".toUTF8.toList ∧ 0 ∉ "\ngid:   ".toUTF8.toList ∧
      0 ∉ "\nsleep: ".toUTF8.toList ∧ 0 ∉ "\nstack: 0x".toUTF8.toList ∧
      0 ∉ "-0x".toUTF8.toList ∧ 0 ∉ "true".toUTF8.toList ∧ 0 ∉ "false".toUTF8.toList := by
    decide +kernel
  have hsleep : 0 ∉ (if t.sleep then "true" else "false").toUTF8.toList := by
    split
    · exact htrue
    · exact hfalse
  simp only [threadText, List.mem_append, not_or, List.mem_singleton]
  exact ⟨⟨⟨⟨⟨⟨⟨⟨⟨⟨⟨⟨⟨⟨hpid, zero_not_mem_signed⟩, hn⟩, hname⟩, huid⟩, zero_not_mem_signed⟩, hgid⟩,
    zero_not_mem_signed⟩, hsl⟩, hsleep⟩, hstack⟩, zero_not_mem_hex8⟩, hto⟩, zero_not_mem_hex8⟩,
    by decide⟩

def threadStrings (t : Thread) (name : List UInt8) (a : ℕ) : List UInt8 :=
  if a = t.name.toNat then name else (if t.sleep then "true" else "false").toUTF8.toList

theorem Shows.printText (hs : Shows k w pid text) (hk : k.Laid w.pmm.mem) :
    ∃ m', Filled w.pmm.mem k.filebuf filebufSize text m' ∧
      ∃ n, ∀ fuel, n ≤ fuel → ProcText.printText k fuel pid w.pmm = some m' := by
  have hempty : Filled w.pmm.mem k.filebuf filebufSize [] (w.pmm.mem.put k.filebuf 0) :=
    filled_nil (by decide)
  cases hs with
  | cpuinfo =>
    obtain ⟨m', hm', n, hrun⟩ := hempty.sprintf_plain hk.cpuinfo percent_not_mem_cpuinfoText
      (by decide +kernel)
    refine ⟨m', hm', n, fun fuel hfuel => ?_⟩
    rw [ProcText.printText, if_pos rfl]
    exact congrArg (Option.map (·.2)) (hrun fuel hfuel)
  | meminfo ht =>
    obtain ⟨m', hm', n, hrun⟩ := ht.meminfo hk.meminfo
    refine ⟨m', hm', n, fun fuel hfuel => ?_⟩
    rw [ProcText.printText, if_neg (by decide), if_pos rfl]
    exact hrun fuel hfuel
  | @thread pid t name hcpu hmem ht hne hname hfits =>
    have hself : threadStrings t name t.name.toNat = name := if_pos rfl
    have hsleep : threadStrings t name (k.sleep t.sleep).toNat =
        (if t.sleep then "true" else "false").toUTF8.toList := by
      by_cases heq : (k.sleep t.sleep).toNat = t.name.toNat
      · rw [heq, hself]
        exact hname.text.unique (heq ▸ (hk.sleep t.sleep).text)
      · exact if_neg heq
    have hrender := render_threadFormat pid hne (hk.nonzero t.sleep) hsleep
    rw [hself] at hrender
    have hreads : ∀ a ∈ [t.name.toNat, (k.sleep t.sleep).toNat],
        Sees w.pmm.mem k.filebuf filebufSize a (threadStrings t name a) := by
      simp only [List.mem_cons, List.not_mem_nil, or_false]
      rintro a (rfl | rfl)
      · rwa [hself]
      · rw [hsleep]
        exact hk.sleep t.sleep
    obtain ⟨m', hm', n, hrun⟩ := hempty.sprintf hk.thread hrender rfl hreads modest_threadFormat
      (zero_not_mem_threadText hname.text.nonzero) (by rwa [List.length_nil, Nat.zero_add])
    refine ⟨m', hm', n, fun fuel hfuel => ?_⟩
    rw [ProcText.printText, if_neg hcpu, if_neg hmem, ht, Option.bind_some]
    exact congrArg (Option.map (·.2)) (hrun fuel hfuel)

end Texts

section Copying

variable {k : Kernel} {w : World} {pid : ℤ} {text acc out : List UInt8} {m m' : Bytes}
  {st st' : State} {buf count n pos fuel fp : ℕ} {ret : ℤ}

theorem copyText_eq (hm : m.IsText k.filebuf text) (hsize : text.length < filebufSize)
    (hbuf : Clear buf count k.filebuf filebufSize)
    (hfile : ∀ i : ℕ, i < text.length → st.filebuf i = text.getD i 0)
    (hacc : m.Holds buf acc) (hn : acc.length + n = count) (hpos : pos ≤ text.length ∨ pos < 2 ^ 31)
    (hr : run (procReadLoop text.length n pos acc) st = some (out, st')) :
    ∃ m', m'.Holds buf out ∧ out.length ≤ count ∧
      (∀ x, ¬ (buf ≤ x ∧ x < buf + count) → m' x = m x) ∧ ∀ fuel, text.length < fuel →
        copyText k fuel buf n (k.filebuf + pos) acc.length m = some (out.length, m') := by
  induction n generalizing pos acc m with
  | zero =>
    obtain ⟨rfl, -⟩ := Prod.mk.inj (Option.some.inj hr)
    exact ⟨m, hacc, by omega, fun _ _ => rfl, fun _ _ => rfl⟩
  | succ n ih =>
    have hlen : ((k.filebuf + text.length : ℕ) : ℤ) - (k.filebuf + pos : ℕ) =
        text.length - pos := by
      push_cast
      exact add_sub_add_left_eq_sub ..
    have hturn (fuel : ℕ) (hfuel : text.length < fuel) :
        copyText k fuel buf (n + 1) (k.filebuf + pos) acc.length m =
          if 0 < toInt ((text.length : ℤ) - pos) then
            copyText k fuel buf n (k.filebuf + pos + 1) (acc.length + 1)
              (m.put (buf + acc.length) (m (k.filebuf + pos)))
          else some (acc.length, m) := by
      rw [copyText, strlen_eq hm, if_pos hfuel, Option.bind_eq_bind, Option.bind_some, hlen]
    rw [procReadLoop] at hr
    by_cases hlt : 0 < toInt ((text.length : ℤ) - pos)
    · have hin : pos < text.length := by
        by_contra hge
        by_cases heq : pos = text.length
        · rw [heq, sub_self] at hlt
          exact absurd hlt (by decide)
        · rw [toInt_of_range (by omega) (by omega)] at hlt
          omega
      have hbyte : st.filebuf pos = m (k.filebuf + pos) :=
        (hfile pos hin).trans ((holds_append.mp hm.holds).1.getD hin).symm
      have hclear : buf + acc.length < k.filebuf ∨ k.filebuf + text.length < buf + acc.length := by
        rcases hbuf with hout | hout <;> omega
      rw [if_pos hlt, run_bind, run_gets, Option.bind_some, hbyte, ← Nat.cast_succ] at hr
      obtain ⟨m', hout, hle, hkept, hrun⟩ := @ih (acc ++ [m (k.filebuf + pos)])
        (m.put (buf + acc.length) (m (k.filebuf + pos))) (pos + 1)
        (hm.congr fun x h₁ h₂ => put_apply_of_ne (by omega))
        (holds_concat.mpr ⟨hacc.put (.inr le_rfl), put_self _⟩)
        (by rw [List.length_append, List.length_singleton]; omega) (.inl hin) hr
      rw [List.length_append, List.length_singleton] at hrun
      refine ⟨m', hout, hle, fun x hx => (hkept x hx).trans (put_apply_of_ne (by omega)), ?_⟩
      intro fuel hfuel
      rw [hturn fuel hfuel, if_pos hlt]
      exact hrun fuel hfuel
    · rw [if_neg hlt] at hr
      obtain ⟨rfl, -⟩ := Prod.mk.inj (Option.some.inj hr)
      refine ⟨m, hacc, by omega, fun _ _ => rfl, fun fuel hfuel => ?_⟩
      rw [hturn fuel hfuel, if_neg hlt]

theorem holds_endRead (hm : m.Holds buf acc) (hle : acc.length ≤ count) :
    ∃ m', m'.Holds buf (endRead acc count) ∧ (endRead acc count).length ≤ count ∧
      (∀ x, ¬ (buf ≤ x ∧ x < buf + count) → m' x = m x) ∧
      (if acc.length < count then some (toInt (acc.length + 1 : ℕ), m.put (buf + acc.length) 10)
        else some (toInt acc.length, m)) = some (toInt (endRead acc count).length, m') := by
  unfold endRead
  by_cases hlt : acc.length < count
  · simp only [if_pos hlt]
    refine ⟨_, holds_concat.mpr ⟨hm.put (.inr le_rfl), put_self _⟩, ?_, fun x hx => ?_, ?_⟩
    · rwa [List.length_append, List.length_singleton]
    · exact put_apply_of_ne (by omega)
    · rw [List.length_append, List.length_singleton]
  · simp only [if_neg hlt]
    exact ⟨m, hm, hle, fun _ _ => rfl, rfl⟩

/-- The file system's state knows which threads there are, and the text of the file. -/
structure Kernel.Agrees (k : Kernel) (w : World) (st : State) (pid : ℤ) : Prop where
  pool : st.threadPool pid = (k.threadPool pid).isSome
  text : pid = CPUINFO_INO ∨ pid = MEMINFO_INO ∨ (k.threadPool pid).isSome →
    Shows k w pid (st.procText pid)

/-- What `proc_read` does in memory is what the driver does with the text that the kernel shows. -/
theorem procRead_refines (hk : k.Laid w.pmm.mem)
    (hbuf : Clear buf count k.filebuf filebufSize)
    (ha : k.Agrees w st (st.inode (st.file fp).fInode).iIno)
    (h₁ : 0 ≤ (st.file fp).fPos) (h₂ : (st.file fp).fPos < 2 ^ 31)
    (hr : run (Vfs.procRead fp count) st = some ((ret, out), st')) :
    ∃ m', m'.Holds buf out ∧ out.length ≤ count ∧
      (∀ x, ¬ (k.filebuf ≤ x ∧ x < k.filebuf + filebufSize) →
        ¬ (buf ≤ x ∧ x < buf + count) → m' x = w.pmm.mem x) ∧
      ∃ n, ∀ fuel, n ≤ fuel → procRead k fuel (st.inode (st.file fp).fInode).iIno
        (st.file fp).fPos buf count w.pmm = some (ret, m') := by
  obtain ⟨pid, hpid⟩ : ∃ pid, pid = (st.inode (st.file fp).fInode).iIno := ⟨_, rfl⟩
  simp only [Vfs.procRead, run_bind, run_gets, Option.bind_some, ← hpid] at hr
  rw [← hpid] at ha ⊢
  have hpool : st.threadPool pid = false ↔ k.threadPool pid = none := by
    rw [ha.pool]
    cases k.threadPool pid <;> simp
  by_cases hmissing : pid ≠ CPUINFO_INO ∧ pid ≠ MEMINFO_INO ∧ k.threadPool pid = none
  · rw [if_pos ⟨hmissing.1, hmissing.2.1, hpool.mpr hmissing.2.2⟩] at hr
    obtain ⟨hres, -⟩ := Prod.mk.inj (Option.some.inj hr)
    obtain ⟨rfl, rfl⟩ := Prod.mk.inj hres
    refine ⟨w.pmm.mem, trivial, Nat.zero_le _, fun _ _ _ => rfl, 0, fun fuel _ => ?_⟩
    rw [procRead, if_pos hmissing]
  · rw [if_neg fun h => hmissing ⟨h.1, h.2.1, hpool.mp h.2.2⟩] at hr
    have hthere : pid = CPUINFO_INO ∨ pid = MEMINFO_INO ∨ (k.threadPool pid).isSome := by
      rw [Option.isSome_iff_ne_none]
      tauto
    obtain ⟨m₁, hm₁, n₁, hprint⟩ := (ha.text hthere).printText hk
    simp only [run_bind, run_gets, run_modify, run_pure, Option.bind_some] at hr
    set text := st.procText pid with htext
    obtain ⟨⟨acc, st₁⟩, hloop, hend⟩ := Option.bind_eq_some_iff.mp hr
    obtain ⟨hres, -⟩ := Prod.mk.inj (Option.some.inj hend)
    obtain ⟨rfl, rfl⟩ := Prod.mk.inj hres
    obtain ⟨pos, hpos⟩ := Int.eq_ofNat_of_zero_le h₁
    rw [hpos] at h₂ hloop ⊢
    obtain ⟨m₂, hholds, hle, hkept, hcopy⟩ := copyText_eq (k := k) hm₁.text hm₁.fits hbuf
      (fun i hi => by
        change (if _ then _ else _) = _
        rw [if_pos (by omega)]
        rfl)
      (show m₁.Holds buf [] from trivial) (Nat.zero_add count) (.inr (by omega)) hloop
    obtain ⟨m₃, hholds', hle', hkept', hlast⟩ := holds_endRead hholds hle
    have hstart : ((k.filebuf : ℤ) + (pos : ℤ)).toNat = k.filebuf + pos := by omega
    refine ⟨m₃, hholds', hle', fun x h₃ h₄ => ?_, max n₁ (text.length + 1), fun fuel hfuel => ?_⟩
    · exact (hkept' x h₄).trans ((hkept x h₄).trans (hm₁.kept x h₃))
    · rw [procRead, if_neg hmissing, hprint fuel (le_of_max_le_left hfuel), hstart,
        Option.bind_eq_bind, Option.bind_some]
      have hcopied := hcopy fuel (le_of_max_le_right hfuel)
      rw [List.length_nil] at hcopied
      rw [hcopied, Option.bind_eq_bind, Option.bind_some]
      exact hlast

end Copying

section Example

open Pmm (heapAt reportMemory somePhrases)

/-- The phrases of a kernel in the memory below a heap. -/
def procMemory : Bytes := ((((reportMemory.write 200 (cpuinfoText ++ [0])).write 800
  (threadFormat ++ [0])).write 900 ("true".toUTF8.toList ++ [0])).write 910
    ("false".toUTF8.toList ++ [0]))

def someKernel : Kernel :=
  ⟨heapAt 0x1000 256, fun _ => none, 0x2000, somePhrases, 200, 800, 900, 910⟩

def cpuinfoOpened : State := { (default : State) with
  inodes := ⟨fun _ => { (default : Inode) with iIno := CPUINFO_INO }, 1⟩
  procText := fun _ => cpuinfoText }

theorem length_cpuinfoText : cpuinfoText.length < 590 := by decide +kernel

theorem isText_init {h : Area} {m : Bytes} {a : ℕ} {l : List UInt8} (hl : m.IsText a l)
    (ha : a + l.length < h.start) : (World.init h m).pmm.mem.IsText a l := by
  refine hl.congr fun x h₁ h₂ => ?_
  simp (disch := omega) [World.init, Pmm.pmmInit]

theorem length_threadFormat : threadFormat.length = 71 := by decide +kernel

theorem isText_procMemory {a : ℕ} {l : List UInt8} (hl : reportMemory.IsText a l)
    (ha : a + l.length < 200) : procMemory.IsText a l := by
  refine IsText.write (IsText.write (IsText.write (hl.write ?_) ?_) ?_) ?_
  all_goals exact .inr (by omega)

theorem isText_cpuinfo : procMemory.IsText 200 cpuinfoText := by
  have hlen := length_cpuinfoText
  refine IsText.write (IsText.write (IsText.write (isText_write (by decide +kernel)) ?_) ?_) ?_
  all_goals exact .inr (by omega)

theorem isText_thread : procMemory.IsText 800 threadFormat := by
  have hlen := length_threadFormat
  refine IsText.write (IsText.write (isText_write (by decide +kernel)) ?_) ?_
  all_goals exact .inr (by omega)

theorem isText_sleep (asleep : Bool) : procMemory.IsText (someKernel.sleep asleep).toNat
    (if asleep then "true" else "false").toUTF8.toList := by
  cases asleep with
  | true => exact (isText_write (by decide +kernel)).write (.inr (by decide +kernel))
  | false => exact isText_write (by decide +kernel)

theorem laid_someKernel : someKernel.Laid (World.init (heapAt 0x1000 256) procMemory).pmm.mem := by
  have hsees {a : ℕ} {l : List UInt8} (hl : procMemory.IsText a l) (ha : a + l.length < 0x1000) :
      Sees (World.init (heapAt 0x1000 256) procMemory).pmm.mem 0x2000 filebufSize a l :=
    ⟨isText_init hl ha, by omega, .inl (by omega)⟩
  have hlow {a : ℕ} {l : List UInt8} (hl : reportMemory.IsText a l) (ha : a + l.length < 200) :
      Sees (World.init (heapAt 0x1000 256) procMemory).pmm.mem 0x2000 filebufSize a l :=
    hsees (isText_procMemory hl ha) (by omega)
  have hlen := length_cpuinfoText
  have hthread := length_threadFormat
  constructor
  · constructor
    · exact hlow (by decide +kernel) (by decide +kernel)
    · exact hlow (by decide +kernel) (by decide +kernel)
    · decide
    · rintro (_ | _)
      · exact hlow (by decide +kernel) (by decide +kernel)
      · exact hlow (by decide +kernel) (by decide +kernel)
    · exact .inl (by decide)
  · exact hsees isText_cpuinfo (show 200 + cpuinfoText.length < 0x1000 by omega)
  · exact hsees isText_thread (show 800 + threadFormat.length < 0x1000 by omega)
  · decide
  · rintro (_ | _)
    · exact hsees (isText_sleep false) (by decide +kernel)
    · exact hsees (isText_sleep true) (by decide +kernel)

/-- Forty bytes of `/proc/cpuinfo`. -/
theorem procRead_refines_cpuinfo : ∃ ret out st' m',
    run (Vfs.procRead 0 40) cpuinfoOpened = some ((ret, out), st') ∧ m'.Holds 0x4000 out ∧
      ∃ n, ∀ fuel, n ≤ fuel → procRead someKernel fuel CPUINFO_INO 0 0x4000 40
        (World.init (heapAt 0x1000 256) procMemory).pmm = some (ret, m') := by
  obtain ⟨⟨⟨ret, out⟩, st'⟩, hr⟩ := Prog.Returns.run_eq (p := Vfs.procRead 0 40) cpuinfoOpened
  have hbuf : Clear 0x4000 40 0x2000 filebufSize := .inr (by decide)
  obtain ⟨m', hholds, -, -, hrun⟩ := procRead_refines laid_someKernel hbuf
    ⟨rfl, fun _ => .cpuinfo⟩ (by decide) (by decide) hr
  exact ⟨ret, out, st', m', hr, hholds, hrun⟩

end Example

end NSOS.Vfs.ProcText
