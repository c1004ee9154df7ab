import NSOS.Basis.Decimal
import NSOS.Vfs.Entry

/-! # The names of threads

In the root of `procfs` a thread has a file whose name is its number. A name is
read into an `int`, so that the numeral of a number that does not fit is taken
for that of a thread, when the number wraps to it. All other names find what
they mean.
-/

namespace NSOS.Vfs

open Basis Prog

section Numerals

variable {n : ℕ} {pid k i : ℤ} {cs name : List Char} {pool pool' : ℤ → Bool}
  {x : ℤ × Option UInt16}

/-- `proc_lookup` reads digits into an `int`. -/
theorem parsePid_digits (h : ∀ c ∈ cs, c.isDigit = true) (k : ℕ) :
    parsePid (toInt k) cs = some (toInt (Nat.ofDigitChars 10 cs k)) := by
  induction cs generalizing k with
  | nil => rw [parsePid, Nat.ofDigitChars_nil]
  | cons c cs ih =>
    have hc := isDigit_iff.mp (h c List.mem_cons_self)
    have hle : '0'.toNat ≤ c.toNat := hc.2
    have hstep : toInt (toInt k * 10 + c.toNat - '0'.toNat) =
        toInt ((10 * k + (c.toNat - '0'.toNat) : ℕ) : ℤ) := by
      rw [add_sub_assoc, toInt_mul_add]
      congr 1
      omega
    rw [parsePid, if_pos hc, hstep, Nat.ofDigitChars_cons]
    exact ih (fun d hd => h d (List.mem_cons_of_mem c hd)) _

theorem digits_of_parsePid (h : parsePid k cs = some pid) : ∀ c ∈ cs, c.isDigit = true := by
  induction cs generalizing k with
  | nil =>
    intro c hc
    cases hc
  | cons c cs ih =>
    rw [parsePid] at h
    split at h
    case isTrue hc =>
      intro d hd
      rcases List.mem_cons.mp hd with rfl | hd
      · exact isDigit_iff.mpr hc
      · exact ih h d hd
    case isFalse => cases h

theorem parsePid_toDigits (n : ℕ) : parsePid 0 (Nat.toDigits 10 n) = some (toInt n) := by
  have hread := parsePid_digits (fun c hc => isDigit_toDigits (n := n) hc) 0
  rwa [Nat.ofDigitChars_toDigits (by decide) le_rfl] at hread

theorem numeral_of_parsePid (hne : name ≠ []) (hhead : name.head? ≠ some '0')
    (h : parsePid 0 name = some pid) :
    ∃ n : ℕ, 0 < n ∧ name = Nat.toDigits 10 n ∧ pid = toInt n := by
  have hname := toDigits_ofDigitChars hne hhead (digits_of_parsePid h)
  refine ⟨Nat.ofDigitChars 10 name 0, ?_, hname.symm, ?_⟩
  · apply Nat.pos_of_ne_zero
    intro hzero
    rw [hzero, Nat.toDigits_zero] at hname
    rw [← hname] at hhead
    exact hhead rfl
  · rw [← hname, parsePid_toDigits] at h
    exact (Option.some.inj h).symm

theorem procEntry_numeral (pool : ℤ → Bool) (hn : 0 < n) : procEntry pool (Nat.toDigits 10 n) =
    if toInt n ≤ KERNEL_MAX_THREAD ∧ 0 < toInt n ∧ pool (toInt n) = true then
      some (toInt n, some aclRead) else none := by
  have hword : ∀ w c, c ∈ w → c.isDigit = false → Nat.toDigits 10 n ≠ w := by
    rintro w c hcw hc rfl
    rw [isDigit_toDigits hcw] at hc
    cases hc
  rw [procEntry, if_neg (hword _ 'c' (by decide) (by decide)),
    if_neg (hword _ 'm' (by decide) (by decide)), if_neg Nat.toDigits_ne_nil,
    if_neg (head_toDigits hn), parsePid_toDigits]

theorem procEntry_toDigits (pool : ℤ → Bool) (n : ℕ) :
    (procEntry pool (Nat.toDigits 10 n)).isSome = true ↔
      0 < n ∧ toInt n ≤ KERNEL_MAX_THREAD ∧ 0 < toInt n ∧ pool (toInt n) = true := by
  rcases Nat.eq_zero_or_pos n with rfl | hn
  · simp [procEntry]
  · rw [procEntry_numeral pool hn]
    split
    case isTrue h => simp [hn, h]
    case isFalse h => simp [hn, h]

/-- The names that `proc_lookup` knows: two words, and numerals of numbers that are read as that of
a thread. -/
theorem procEntry_cases (h : procEntry pool name = some x) :
    (name = "cpuinfo".toList ∧ x.1 = CPUINFO_INO) ∨ (name = "meminfo".toList ∧ x.1 = MEMINFO_INO) ∨
      ∃ n : ℕ, 0 < n ∧ name = Nat.toDigits 10 n ∧ x.1 = toInt n ∧ toInt n ≤ KERNEL_MAX_THREAD ∧
        0 < toInt n ∧ pool (toInt n) = true := by
  unfold procEntry at h
  split at h
  case isTrue hcpu =>
    obtain rfl := Option.some.inj h
    exact .inl ⟨hcpu, rfl⟩
  case isFalse =>
    split at h
    case isTrue hmem =>
      obtain rfl := Option.some.inj h
      exact .inr (.inl ⟨hmem, rfl⟩)
    case isFalse =>
      split at h
      · cases h
      case isFalse hne =>
        split at h
        · cases h
        case isFalse hhead =>
          cases hpid : parsePid 0 name with
          | none =>
            rw [hpid] at h
            cases h
          | some pid =>
            rw [hpid] at h
            dsimp only at h
            split at h
            case isTrue hrange =>
              obtain rfl := Option.some.inj h
              obtain ⟨n, hn, hname, hval⟩ := numeral_of_parsePid hne hhead hpid
              rw [hval] at hrange
              exact .inr (.inr ⟨n, hn, hname, hval, hrange⟩)
            case isFalse => cases h

theorem procEntry_of_pool (h : procEntry pool name = some x)
    (hp : 0 < x.1 → x.1 ≤ KERNEL_MAX_THREAD → pool x.1 = true → pool' x.1 = true) :
    procEntry pool' name = some x := by
  rcases procEntry_cases h with ⟨rfl, -⟩ | ⟨rfl, -⟩ | ⟨n, hn, rfl, hx, hle, hpos, hin⟩
  · rwa [procEntry, if_pos rfl] at h ⊢
  · rwa [procEntry, if_neg (by decide), if_pos rfl] at h ⊢
  · rw [procEntry_numeral pool hn, if_pos ⟨hle, hpos, hin⟩] at h
    rw [hx] at hp
    rw [procEntry_numeral pool' hn, if_pos ⟨hle, hpos, hp hpos hle hin⟩, h]

end Numerals

section Files

variable {st : State} {ip iq dp dq : ℕ} {i j : ℤ} {name name' : List Char} {pool : ℤ → Bool}

/-- The names in the root of `procfs`, and the inode numbers of their files. A thread has the
numeral of its number. -/
inductive ProcFile (pool : ℤ → Bool) : List Char → ℤ → Prop where
  | cpuinfo : ProcFile pool "cpuinfo".toList CPUINFO_INO
  | meminfo : ProcFile pool "meminfo".toList MEMINFO_INO
  | thread {n : ℕ} : 1 ≤ n → n ≤ KERNEL_MAX_THREAD → pool n = true →
      ProcFile pool (Nat.toDigits 10 n) n

/-- The numeral of a number that is too large for a thread and wraps to that of one. -/
def Wraps (pool : ℤ → Bool) (name : List Char) : Prop := ∃ n : ℕ, name = Nat.toDigits 10 n ∧
  KERNEL_MAX_THREAD < n ∧ toInt n ≤ KERNEL_MAX_THREAD ∧ 0 < toInt n ∧ pool (toInt n) = true

def ResolvesTo (st : State) (ip dp : ℕ) (i : ℤ) : Prop := ∃ st',
  run (procLookup ip dp) st = some (true, st') ∧ (st'.dentry dp).dInode = some ip ∧
    (st'.inode ip).iIno = i

/-- `proc_lookup` finds the file that the name of a dentry means, and fails for other names. -/
structure Finds (st : State) (ip dp : ℕ) : Prop where
  returns : ∃ r, run (procLookup ip dp) st = some r
  resolvesTo : ∀ i, ResolvesTo st ip dp i ↔ ProcFile st.threadPool (st.dentry dp).dIname i

theorem toInt_thread {n : ℕ} (hn : n ≤ KERNEL_MAX_THREAD) : toInt n = n := by
  have hn : (n : ℤ) ≤ 1024 := hn
  exact toInt_of_range (by omega) (by omega)

theorem ProcFile.procEntry (h : ProcFile pool name i) :
    ∃ acl, procEntry pool name = some (i, acl) := by
  cases h with
  | cpuinfo => exact ⟨none, by rw [Vfs.procEntry, if_pos rfl]⟩
  | meminfo => exact ⟨some aclRead, by rw [Vfs.procEntry, if_neg (by decide), if_pos rfl]⟩
  | thread hpos hle hin =>
    refine ⟨some aclRead, ?_⟩
    rw [procEntry_numeral pool (by omega), toInt_thread hle, if_pos ⟨hle, by omega, hin⟩]

theorem ProcFile.unique (h : ProcFile pool name i) (h' : ProcFile pool name' j) (hij : i = j) :
    name = name' := by
  have hcpu : CPUINFO_INO = -1 := rfl
  have hmem : MEMINFO_INO = -2 := rfl
  cases h with
  | cpuinfo =>
    cases h' with
    | cpuinfo => rfl
    | meminfo => omega
    | thread => omega
  | meminfo =>
    cases h' with
    | cpuinfo => omega
    | meminfo => rfl
    | thread => omega
  | thread =>
    cases h' with
    | cpuinfo => omega
    | meminfo => omega
    | thread => rw [Int.ofNat_inj.mp hij]

theorem procFile_of_procEntry {acl : Option UInt16} (hw : ¬ Wraps pool name)
    (h : procEntry pool name = some (i, acl)) : ProcFile pool name i := by
  rcases procEntry_cases h with ⟨rfl, rfl⟩ | ⟨rfl, rfl⟩ | ⟨n, hn, rfl, hi, hle, hpos, hin⟩
  · exact .cpuinfo
  · exact .meminfo
  · have hi : i = toInt n := hi
    have hfits : (n : ℤ) ≤ KERNEL_MAX_THREAD := by
      by_contra hlarge
      exact hw ⟨n, rfl, by omega, hle, hpos, hin⟩
    rw [toInt_thread hfits] at hin hi
    rw [hi]
    exact .thread hn hfits hin

/-- A name that wraps means no file. -/
theorem Wraps.not_procFile (h : Wraps pool name) : ¬ ProcFile pool name i := by
  obtain ⟨n, hname, hlarge, -⟩ := h
  intro hfile
  have hdigit : ∀ c ∈ name, c.isDigit = true := by
    rintro c hc
    rw [hname] at hc
    exact isDigit_toDigits hc
  generalize hw : name = w at hfile
  cases hfile with
  | cpuinfo => exact absurd (hdigit 'c' (by simp [hw])) (by decide)
  | meminfo => exact absurd (hdigit 'm' (by simp [hw])) (by decide)
  | @thread m _ hle =>
    obtain rfl : n = m := toDigits_inj (hname.symm.trans hw)
    omega

theorem resolvesTo_iff (hp : st.parent (st.parent dp) = st.parent dp) :
    ResolvesTo st ip dp i ↔
      ∃ acl, procEntry st.threadPool (st.dentry dp).dIname = some (i, acl) := by
  have hrun := run_driver_lookup st .procfs ip dp
  rw [driverEntry, if_pos hp] at hrun
  unfold ResolvesTo
  cases hentry : procEntry st.threadPool (st.dentry dp).dIname with
  | none =>
    rw [hentry] at hrun
    constructor
    · rintro ⟨st', hr, -⟩
      cases hr.symm.trans hrun
    · rintro ⟨acl, hnone⟩
      cases hnone
  | some x =>
    obtain ⟨ino, acl⟩ := x
    rw [hentry] at hrun
    have hinode : ((st.withEntry ip dp ino acl).inode ip).iIno = ino := by
      simp [State.withEntry, State.inode]
    have hdentry : ((st.withEntry ip dp ino acl).dentry dp).dInode = some ip := by
      simp [State.withEntry, Namespace.dentry]
    constructor
    · rintro ⟨st', hr, -, rfl⟩
      obtain ⟨-, rfl⟩ := run_inj hr hrun
      exact ⟨acl, by rw [hinode]⟩
    · rintro ⟨acl', hsome⟩
      obtain ⟨rfl, -⟩ := Prod.mk.inj (Option.some.inj hsome)
      exact ⟨_, hrun, hdentry, hinode⟩

theorem finds_iff (hp : st.parent (st.parent dp) = st.parent dp) :
    Finds st ip dp ↔ ¬ Wraps st.threadPool (st.dentry dp).dIname := by
  constructor
  · intro hfinds hw
    obtain ⟨n, hname, hlarge, hin⟩ := id hw
    have hpos : 0 < n := by
      have hlarge : 1024 < (n : ℤ) := hlarge
      omega
    have hentry := procEntry_numeral st.threadPool hpos
    rw [← hname, if_pos hin] at hentry
    exact hw.not_procFile ((hfinds.resolvesTo _).mp ((resolvesTo_iff hp).mpr ⟨_, hentry⟩))
  · intro hw
    constructor
    case returns =>
      have hrun : run (procLookup ip dp) st = _ := run_driver_lookup st .procfs ip dp
      rw [hrun]
      split <;> exact ⟨_, rfl⟩
    case resolvesTo =>
      intro i
      rw [resolvesTo_iff hp]
      constructor
      · rintro ⟨acl, hentry⟩
        exact procFile_of_procEntry hw hentry
      · exact ProcFile.procEntry

/-- `proc_lookup` finds the files that two names mean, with different inode numbers for different
names, exactly when none of the names wraps. -/
theorem procLookup_finds_iff (hp : st.parent (st.parent dp) = st.parent dp)
    (hq : st.parent (st.parent dq) = st.parent dq) :
    (Finds st ip dp ∧ Finds st iq dq ∧ ∀ i, ResolvesTo st ip dp i → ResolvesTo st iq dq i →
      (st.dentry dp).dIname = (st.dentry dq).dIname) ↔
    ¬ Wraps st.threadPool (st.dentry dp).dIname ∧ ¬ Wraps st.threadPool (st.dentry dq).dIname := by
  rw [finds_iff hp, finds_iff hq]
  constructor
  · rintro ⟨hwp, hwq, -⟩
    exact ⟨hwp, hwq⟩
  · rintro ⟨hwp, hwq⟩
    refine ⟨hwp, hwq, fun i hi hj => ?_⟩
    exact (((finds_iff hp).mpr hwp).resolvesTo i |>.mp hi).unique
      (((finds_iff hq).mpr hwq).resolvesTo i |>.mp hj) rfl

/-- Two entries right below a root of `procfs`, while there is only the first thread. -/
def entriesNamed (name name' : List Char) : State := { (default : State) with
  dentries := ⟨fun d => { (default : Dentry) with dIname := if d = 1 then name else name' }, 3⟩
  threadPool := fun i => i = 1 }

theorem procLookup_finds_thread : ResolvesTo (entriesNamed "1".toList "cpuinfo".toList) 0 1 1 ∧
    ResolvesTo (entriesNamed "1".toList "cpuinfo".toList) 0 2 CPUINFO_INO := by
  have hthread : ProcFile (fun i => decide (i = 1)) "1".toList 1 :=
    .thread (n := 1) le_rfl (by decide) rfl
  have hfinds : Finds (entriesNamed "1".toList "cpuinfo".toList) 0 1 ∧
      Finds (entriesNamed "1".toList "cpuinfo".toList) 0 2 ∧ _ :=
    (procLookup_finds_iff rfl rfl).mpr
      ⟨fun hw => hw.not_procFile hthread, fun hw => hw.not_procFile .cpuinfo⟩
  exact ⟨(hfinds.1.resolvesTo 1).mpr hthread, (hfinds.2.1.resolvesTo _).mpr .cpuinfo⟩

/-- The numeral of `2 ^ 32 + 1` finds the first thread. -/
theorem not_procLookup_finds : ¬ ∀ (st : State) (ip iq dp dq : ℕ),
    st.parent (st.parent dp) = st.parent dp → st.parent (st.parent dq) = st.parent dq →
      Finds st ip dp ∧ Finds st iq dq ∧ ∀ i, ResolvesTo st ip dp i → ResolvesTo st iq dq i →
        (st.dentry dp).dIname = (st.dentry dq).dIname := by
  intro h
  obtain ⟨-, -, hsame⟩ := h (entriesNamed "1".toList "4294967297".toList) 0 0 1 2 rfl rfl
  have hnames := hsame 1 ((resolvesTo_iff rfl).mpr ⟨some aclRead, by decide +kernel⟩)
    ((resolvesTo_iff rfl).mpr ⟨some aclRead, by decide +kernel⟩)
  exact absurd hnames (by decide)

end Files

end NSOS.Vfs
