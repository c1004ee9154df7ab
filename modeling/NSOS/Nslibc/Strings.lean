import NSOS.Basis.Text
import Mathlib.Algebra.Order.Group.Nat

/-! # Copying and comparing strings

The string functions of the library. `strcpy` does not copy the terminator, and
`strncmp` does not stop at one. So they agree with `strncpy` and `strcmp`
exactly when the terminator is there already and no comparison goes on behind
the end of two equal strings.
-/

namespace NSOS.Nslibc

open Basis Bytes

section Functions

/-- The loop of `strlen` from the index `len` on. -/
def strlenLoop (m : Bytes) (s : ℕ) : ℕ → ℕ → Option ℕ
  | 0, _ => none
  | fuel + 1, len => if m (s + len) ≠ 0 then strlenLoop m s fuel (len + 1) else some len

def strlen (fuel : ℕ) (m : Bytes) (s : ℕ) : Option ℕ := strlenLoop m s fuel 0

/-- The loop of `strcpy` from the index `i` on. -/
def strcpyLoop (dest src : ℕ) : ℕ → Bytes → ℕ → Option Bytes
  | 0, _, _ => none
  | fuel + 1, m, i =>
    if m (src + i) ≠ 0 then strcpyLoop dest src fuel (m.put (dest + i) (m (src + i))) (i + 1)
    else some m

/-- `strcpy`. It returns the destination. -/
def strcpy (fuel : ℕ) (m : Bytes) (dest src : ℕ) : Option (ℕ × Bytes) :=
  (strcpyLoop dest src fuel m 0).map fun m => (dest, m)

/-- The second loop of `strncpy`, with the number of bytes that are left. -/
def strncpyPad (dest : ℕ) : ℕ → Bytes → ℕ → Bytes
  | 0, m, _ => m
  | n + 1, m, i => strncpyPad dest n (m.put (dest + i) 0) (i + 1)

/-- The first loop of `strncpy`, with the number of bytes that are left, and then the second. -/
def strncpyLoop (dest src : ℕ) : ℕ → Bytes → ℕ → Bytes
  | 0, m, i => strncpyPad dest 0 m i
  | n + 1, m, i =>
    if m (src + i) ≠ 0 then strncpyLoop dest src n (m.put (dest + i) (m (src + i))) (i + 1)
    else strncpyPad dest (n + 1) m i

/-- `strncpy`. It returns the destination. -/
def strncpy (m : Bytes) (dest src n : ℕ) : ℕ × Bytes := (dest, strncpyLoop dest src n m 0)

/-- What a comparison returns, and how many bytes of each string it has read. -/
structure Compared where
  result : ℤ
  read : ℕ
  deriving DecidableEq

/-- A comparison that goes on behind a byte. -/
def Compared.next (x : Compared) : Compared := { x with read := x.read + 1 }

def strcmp (m : Bytes) : ℕ → ℕ → ℕ → Option Compared
  | 0, _, _ => none
  | fuel + 1, cs, ct =>
    if m cs ≠ m ct then some ⟨if m cs < m ct then -1 else 1, 1⟩
    else if m cs = 0 then some ⟨0, 1⟩
    else (strcmp m fuel (cs + 1) (ct + 1)).map Compared.next

def strncmp (m : Bytes) : ℕ → ℕ → ℕ → Compared
  | _, _, 0 => ⟨0, 0⟩
  | s₁, s₂, n + 1 =>
    if m s₁ ≠ m s₂ then ⟨(m s₁).toNat - (m s₂).toNat, 1⟩
    else (strncmp m (s₁ + 1) (s₂ + 1) n).next

end Functions

section Copies

variable {m m' : Bytes} {dest src a b i n fuel : ℕ} {l k p : List UInt8}

theorem strcpyLoop_eq (hs : m.Holds (src + i) (l ++ [0])) (hl : 0 ∉ l)
    (hout : dest + i + l.length ≤ src + i ∨ src + i + l.length < dest + i) :
    strcpyLoop dest src fuel m i =
      if l.length < fuel then some (m.write (dest + i) l) else none := by
  induction l generalizing m i fuel with
  | nil =>
    cases fuel with
    | zero => rfl
    | succ fuel => simp [strcpyLoop, hs.1, Bytes.write]
  | cons c l ih =>
    rw [List.length_cons] at hout
    rw [List.cons_append, holds_cons] at hs
    obtain ⟨hc, hs⟩ := hs
    have hz : c ≠ 0 := (List.ne_of_not_mem_cons hl).symm
    cases fuel with
    | zero => rfl
    | succ fuel =>
      have hrest : (m.put (dest + i) c).Holds (src + (i + 1)) (l ++ [0]) := by
        apply hs.put
        simp only [List.length_append, List.length_singleton]
        omega
      rw [strcpyLoop, hc, if_pos hz, ih hrest (List.not_mem_of_not_mem_cons hl) (by omega),
        Bytes.write, List.length_cons, ← Nat.add_assoc]
      simp only [Nat.add_lt_add_iff_right]

theorem strncpyPad_eq : strncpyPad dest n m i = m.write (dest + i) (List.replicate n 0) := by
  induction n generalizing m i with
  | zero => rfl
  | succ n ih =>
    rw [strncpyPad, ih, List.replicate_succ, Bytes.write, ← Nat.add_assoc]

theorem strncpyLoop_eq (hs : m.Holds (src + i) (l ++ [0])) (hl : 0 ∉ l)
    (hout : dest + i + l.length ≤ src + i ∨ src + i + l.length < dest + i) :
    strncpyLoop dest src (l.length + n) m i =
      m.write (dest + i) (l ++ List.replicate n 0) := by
  induction l generalizing m i with
  | nil =>
    rw [List.length_nil, Nat.zero_add, List.nil_append]
    cases n with
    | zero => rfl
    | succ n =>
      rw [strncpyLoop, hs.1, if_neg (not_not.mpr rfl), strncpyPad_eq]
  | cons c l ih =>
    rw [List.length_cons] at hout
    rw [List.cons_append, holds_cons] at hs
    obtain ⟨hc, hs⟩ := hs
    have hz : c ≠ 0 := (List.ne_of_not_mem_cons hl).symm
    have hrest : (m.put (dest + i) c).Holds (src + (i + 1)) (l ++ [0]) := by
      apply hs.put
      simp only [List.length_append, List.length_singleton]
      omega
    rw [List.length_cons, show l.length + 1 + n = l.length + n + 1 by omega, strncpyLoop, hc,
      if_pos hz, ih hrest (List.not_mem_of_not_mem_cons hl) (by omega), List.cons_append,
      Bytes.write, ← Nat.add_assoc]

end Copies

section Comparisons

variable {m : Bytes} {a b n fuel : ℕ} {c c' : UInt8} {p : List UInt8}

/-- What `strcmp` returns for the bytes that it ends with. -/
def order (c c' : UInt8) : ℤ := if c ≠ c' then if c < c' then -1 else 1 else 0

theorem order_eq_zero : order c c' = 0 ↔ c = c' := by
  unfold order
  split
  · split <;> simp_all
  · simp_all

/-- The difference that `strncmp` returns has the sign of what `strcmp` returns. -/
theorem sign_sub : ((c.toNat : ℤ) - c'.toNat).sign = (order c c').sign := by
  unfold order
  split
  case isFalse h =>
    rw [not_not.mp h, Int.sub_self]
  case isTrue hne =>
    have hne : c.toNat ≠ c'.toNat := fun h => hne (UInt8.toNat_inj.mp h)
    split
    case isTrue hlt =>
      have hlt := UInt8.lt_iff_toNat_lt.mp hlt
      rw [Int.sign_eq_neg_one_of_neg (by omega)]
      rfl
    case isFalse hge =>
      have hge : ¬ c.toNat < c'.toNat := fun h => hge (UInt8.lt_iff_toNat_lt.mpr h)
      rw [Int.sign_eq_one_of_pos (by omega)]
      rfl

theorem strcmp_eq (h₁ : m.Holds a (p ++ [c])) (h₂ : m.Holds b (p ++ [c'])) (hp : 0 ∉ p)
    (hstop : c ≠ c' ∨ c = 0) :
    strcmp m fuel a b =
      if p.length < fuel then some ⟨order c c', p.length + 1⟩ else none := by
  induction p generalizing a b fuel with
  | nil =>
    cases fuel with
    | zero => rfl
    | succ fuel =>
      rw [strcmp, h₁.1, h₂.1, order]
      by_cases hc : c = c'
      · rw [if_neg (not_not.mpr hc), if_pos (hstop.resolve_left (not_not.mpr hc)),
          if_neg (not_not.mpr hc)]
        rfl
      · rw [if_pos hc, if_pos hc]
        rfl
  | cons x p ih =>
    rw [List.cons_append, holds_cons] at h₁ h₂
    obtain ⟨hx₁, h₁⟩ := h₁
    obtain ⟨hx₂, h₂⟩ := h₂
    have hx : x ≠ 0 := (List.ne_of_not_mem_cons hp).symm
    cases fuel with
    | zero => rfl
    | succ fuel =>
      rw [strcmp, hx₁, hx₂, if_neg (not_not.mpr rfl), if_neg hx,
        ih h₁ h₂ (List.not_mem_of_not_mem_cons hp)]
      simp only [List.length_cons, Nat.add_lt_add_iff_right]
      split <;> rfl

theorem strncmp_of_ne (h₁ : m.Holds a (p ++ [c])) (h₂ : m.Holds b (p ++ [c'])) (hne : c ≠ c')
    (hn : p.length < n) : strncmp m a b n = ⟨c.toNat - c'.toNat, p.length + 1⟩ := by
  obtain ⟨n, rfl⟩ := Nat.exists_eq_succ_of_ne_zero (Nat.ne_zero_of_lt hn)
  induction p generalizing a b n with
  | nil => rw [strncmp, h₁.1, h₂.1, if_pos hne]; rfl
  | cons x p ih =>
    rw [List.cons_append, holds_cons] at h₁ h₂
    obtain ⟨n, rfl⟩ := Nat.exists_eq_succ_of_ne_zero
      (Nat.ne_zero_of_lt (Nat.lt_of_succ_lt_succ hn))
    rw [strncmp, h₁.1, h₂.1, if_neg (not_not.mpr rfl),
      ih h₁.2 h₂.2 n (Nat.lt_of_succ_lt_succ hn)]
    rfl

theorem strncmp_of_holds (h₁ : m.Holds a p) (h₂ : m.Holds b p) (hn : n ≤ p.length) :
    strncmp m a b n = ⟨0, n⟩ := by
  induction n generalizing a b p with
  | zero => rfl
  | succ n ih =>
    obtain ⟨x, p, rfl⟩ := List.exists_cons_of_length_pos (Nat.zero_lt_of_lt hn)
    rw [strncmp, h₁.1, h₂.1, if_neg (not_not.mpr rfl),
      ih h₁.2 h₂.2 (Nat.le_of_succ_le_succ hn)]
    rfl

theorem lt_read_strncmp (h₁ : m.Holds a p) (h₂ : m.Holds b p) (hn : p.length < n) :
    p.length < (strncmp m a b n).read := by
  induction p generalizing a b n with
  | nil =>
    obtain ⟨n, rfl⟩ := Nat.exists_eq_succ_of_ne_zero (Nat.ne_zero_of_lt hn)
    rw [strncmp]
    split
    · exact Nat.one_pos
    · exact Nat.succ_pos _
  | cons x p ih =>
    obtain ⟨n, rfl⟩ := Nat.exists_eq_succ_of_ne_zero (Nat.ne_zero_of_lt hn)
    rw [strncmp, h₁.1, h₂.1, if_neg (not_not.mpr rfl)]
    exact Nat.succ_lt_succ (ih h₁.2 h₂.2 (Nat.lt_of_succ_lt_succ hn))

end Comparisons

section Names

variable {m : Bytes} {a b i fuel : ℕ} {l k : List UInt8}

theorem strlenLoop_eq (h : m.Holds (a + i) (l ++ [0])) (hl : 0 ∉ l) :
    strlenLoop m a fuel i = if l.length < fuel then some (i + l.length) else none := by
  induction l generalizing i fuel with
  | nil =>
    cases fuel with
    | zero => rfl
    | succ fuel => simp [strlenLoop, h.1]
  | cons c l ih =>
    rw [List.cons_append, holds_cons] at h
    obtain ⟨hc, h⟩ := h
    have hz : c ≠ 0 := (List.ne_of_not_mem_cons hl).symm
    cases fuel with
    | zero => rfl
    | succ fuel =>
      rw [strlenLoop, hc, if_pos hz, ih h (List.not_mem_of_not_mem_cons hl),
        List.length_cons]
      simp only [Nat.add_lt_add_iff_right, Nat.add_assoc, Nat.add_comm 1]

theorem strlen_eq (h : m.IsText a l) :
    strlen fuel m a = if l.length < fuel then some l.length else none := by
  rw [strlen, strlenLoop_eq h.holds h.nonzero, Nat.zero_add]

theorem strncmp_eq_zero_iff (ha : m.Holds a l) (hb : m.Holds b k) (hlen : l.length = k.length) :
    (strncmp m a b k.length).result = 0 ↔ l = k := by
  induction k generalizing a b l with
  | nil => exact iff_of_true rfl (List.length_eq_zero_iff.mp hlen)
  | cons c k ih =>
    obtain ⟨x, l, rfl⟩ := List.exists_cons_of_length_eq_add_one hlen
    rw [List.length_cons, strncmp, ha.1, hb.1]
    by_cases hc : x = c
    · subst hc
      rw [if_neg (not_not.mpr rfl), List.cons.injEq, and_iff_right rfl]
      exact ih ha.2 hb.2 (Nat.succ.inj hlen)
    · rw [if_pos hc]
      refine iff_of_false (fun hz => hc ?_) fun heq => hc (List.cons.inj heq).1
      exact UInt8.toNat_inj.mp (Int.ofNat_inj.mp (Int.sub_eq_zero.mp hz))

/-- The test of `do_lookup` finds out whether an entry has the name that a part of a path spells. -/
theorem lookup_test_iff (ha : m.IsText a l) (hb : m.Holds b k) :
    (∃ fuel, strlen fuel m a = some k.length) ∧ (strncmp m a b k.length).result = 0 ↔ l = k := by
  constructor
  · rintro ⟨⟨fuel, hlen⟩, hcmp⟩
    rw [strlen_eq ha] at hlen
    split at hlen
    case isFalse => cases hlen
    case isTrue =>
      exact (strncmp_eq_zero_iff (holds_append.mp ha.holds).1 hb (Option.some.inj hlen)).mp hcmp
  · rintro rfl
    refine ⟨⟨l.length + 1, ?_⟩, ?_⟩
    · rw [strlen_eq ha, if_pos (Nat.lt_succ_self _)]
    · exact (strncmp_eq_zero_iff (holds_append.mp ha.holds).1 hb rfl).mpr rfl

end Names

section Agreement

variable {m : Bytes} {a b dest s t j j' n : ℕ} {l k : List UInt8}

/-- Both comparisons find a copy equal to a string of length `len`, and stop at its end. -/
structure Matches (m : Bytes) (a b len n : ℕ) : Prop where
  strcmp : ∃ fuel x, strcmp m fuel a b = some x ∧ x.result = 0 ∧ x.read ≤ len + 1
  strncmp : (strncmp m a b n).result = 0 ∧ (strncmp m a b n).read ≤ len + 1

/-- Both comparisons order two strings the same way. No comparison reads behind both of them, whose
lengths are at most `len`. -/
def SameOrder (m : Bytes) (a b len n : ℕ) : Prop :=
  ∃ fuel x, strcmp m fuel a b = some x ∧ (strncmp m a b n).result.sign = x.result.sign ∧
    x.read ≤ len + 1 ∧ (strncmp m a b n).read ≤ len + 1

/-- Copies of `s` match it, and the comparisons agree about `s` and `t`. -/
structure Agrees (m : Bytes) (dest s t : ℕ) (l k : List UInt8) (n j j' : ℕ) : Prop where
  strcpy : ∃ fuel m', strcpy fuel m dest s = some (dest, m') ∧ Matches m' dest s l.length j
  strncpy : ∃ m', strncpy m dest s n = (dest, m') ∧ Matches m' dest s l.length j
  compare : SameOrder m s t (max l.length k.length) j'

/-- Behind the bytes of a string there must be a terminator, and the comparison must end there. -/
theorem matches_iff (ha : m.Holds a l) (hb : m.IsText b l) :
    Matches m a b l.length n ↔ m (a + l.length) = 0 ∧ n ≤ l.length + 1 := by
  have hcmp : ∀ {fuel}, strcmp m fuel a b =
      if l.length < fuel then some ⟨order (m (a + l.length)) 0, l.length + 1⟩ else none :=
    strcmp_eq (holds_concat.mpr ⟨ha, rfl⟩) hb.holds hb.nonzero (ne_or_eq _ _)
  constructor
  · rintro ⟨⟨fuel, x, hrun, hx, -⟩, -, hread⟩
    rw [hcmp] at hrun
    split at hrun
    case isFalse => cases hrun
    case isTrue =>
      obtain rfl := Option.some.inj hrun
      have hzero := order_eq_zero.mp hx
      refine ⟨hzero, ?_⟩
      by_contra hlt
      have hlong := lt_read_strncmp (holds_concat.mpr ⟨ha, hzero⟩) hb.holds (n := n)
      simp only [List.length_append, List.length_singleton] at hlong
      exact hread.not_gt (hlong (by omega))
  · rintro ⟨hzero, hn⟩
    have hstop := strncmp_of_holds (n := n) (holds_concat.mpr ⟨ha, hzero⟩) hb.holds (by simpa)
    refine ⟨⟨l.length + 1, _, hcmp.trans (if_pos (Nat.lt_succ_self _)), ?_, le_rfl⟩, ?_⟩
    · exact order_eq_zero.mpr hzero
    · rw [hstop]
      exact ⟨rfl, hn⟩

theorem sameOrder_iff (hs : m.IsText s l) (ht : m.IsText t k)
    (hj : max l.length k.length < j) :
    SameOrder m s t (max l.length k.length) j ↔ l ≠ k ∨ j ≤ l.length + 1 := by
  by_cases heq : l = k
  · subst heq
    rw [max_self] at hj ⊢
    have hcmp : ∀ {fuel}, strcmp m fuel s t =
        if l.length < fuel then some ⟨order 0 0, l.length + 1⟩ else none :=
      strcmp_eq hs.holds ht.holds hs.nonzero (.inr rfl)
    constructor
    · rintro ⟨-, -, -, -, -, hread⟩
      right
      by_contra hlt
      have hlong := lt_read_strncmp hs.holds ht.holds (n := j)
      simp only [List.length_append, List.length_singleton] at hlong
      exact hread.not_gt (hlong (by omega))
    · intro h
      have hle := h.resolve_left (not_not.mpr rfl)
      have hstop := strncmp_of_holds (n := j) hs.holds ht.holds (by simpa)
      refine ⟨l.length + 1, _, hcmp.trans (if_pos (Nat.lt_succ_self _)), ?_, le_rfl, ?_⟩
      · rw [hstop]
        rfl
      · rw [hstop]
        exact hle
  · -- Different strings have a first difference, which is not behind their ends.
    refine iff_of_true ?_ (.inl heq)
    obtain ⟨p, c, c', hne, hp, h₁, h₂⟩ := exists_difference hs.nonzero ht.nonzero heq
    have hlen := h₁.length_le
    simp only [List.length_append, List.length_singleton] at hlen
    have hle : p.length ≤ max l.length k.length := le_max_iff.mpr (.inl (by omega))
    have hcmp : strcmp m (p.length + 1) s t = _ :=
      strcmp_eq (hs.holds.of_prefix h₁) (ht.holds.of_prefix h₂) hp (.inl hne)
    have hncmp := strncmp_of_ne (hs.holds.of_prefix h₁) (ht.holds.of_prefix h₂) hne
      (hle.trans_lt hj)
    refine ⟨p.length + 1, _, hcmp.trans (if_pos (Nat.lt_succ_self _)), ?_, ?_, ?_⟩
    · rw [hncmp]
      exact sign_sub
    · exact Nat.succ_le_succ hle
    · rw [hncmp]
      exact Nat.succ_le_succ hle

theorem strcpy_matches_iff (hs : m.IsText s l)
    (hout : dest + l.length ≤ s ∨ s + l.length < dest) :
    (∃ fuel m', strcpy fuel m dest s = some (dest, m') ∧ Matches m' dest s l.length j) ↔
      m (dest + l.length) = 0 ∧ j ≤ l.length + 1 := by
  have hrun : ∀ fuel, strcpy fuel m dest s =
      if l.length < fuel then some (dest, m.write dest l) else none := by
    intro fuel
    rw [strcpy, strcpyLoop_eq hs.holds hs.nonzero hout]
    split <;> rfl
  have hmatches := matches_iff (n := j) (holds_write (m := m) (a := dest)) (hs.write hout)
  rw [write_apply_of_outside (by omega)] at hmatches
  rw [← hmatches]
  constructor
  · rintro ⟨fuel, m', hr, hm⟩
    rw [hrun] at hr
    split at hr
    · obtain ⟨-, rfl⟩ := Prod.mk.inj (Option.some.inj hr)
      exact hm
    · cases hr
  · exact fun hm => ⟨l.length + 1, _, (hrun _).trans (if_pos (Nat.lt_succ_self _)), hm⟩

theorem strncpy_matches_iff (hs : m.IsText s l) (hn : l.length < n)
    (hout : dest + n ≤ s ∨ s + l.length < dest) :
    (∃ m', strncpy m dest s n = (dest, m') ∧ Matches m' dest s l.length j) ↔
      j ≤ l.length + 1 := by
  obtain ⟨r, rfl⟩ := Nat.exists_eq_add_of_lt hn
  have hrun : strncpy m dest s (l.length + (r + 1)) =
      (dest, m.write dest (l ++ List.replicate (r + 1) 0)) :=
    congrArg (Prod.mk dest) (strncpyLoop_eq (i := 0) hs.holds hs.nonzero (by omega))
  obtain ⟨hcopy, hpad⟩ := holds_append.mp
    (holds_write (m := m) (a := dest) (l := l ++ List.replicate (r + 1) 0))
  have htext : (m.write dest (l ++ List.replicate (r + 1) 0)).IsText s l := by
    apply hs.write
    rw [List.length_append, List.length_replicate]
    omega
  have hmatches := matches_iff (n := j) hcopy htext
  rw [and_iff_right hpad.1] at hmatches
  rw [← hmatches, Nat.add_assoc, hrun]
  constructor
  · rintro ⟨m', hr, hm⟩
    obtain ⟨-, rfl⟩ := Prod.mk.inj hr
    exact hm
  · exact fun hm => ⟨_, rfl, hm⟩

/-- Copying and comparing agree exactly when the destination of `strcpy` has a terminator already,
and no comparison goes on behind the end of equal strings. -/
theorem agrees_iff (hs : m.IsText s l) (ht : m.IsText t k) (hn : l.length < n)
    (hout : dest + n ≤ s ∨ s + l.length < dest) (hj : max l.length k.length < j') :
    Agrees m dest s t l k n j j' ↔
      m (dest + l.length) = 0 ∧ j ≤ l.length + 1 ∧ (l ≠ k ∨ j' ≤ l.length + 1) := by
  have hcpy := strcpy_matches_iff (j := j) hs (hout.imp_left fun h => by omega)
  have hncpy := strncpy_matches_iff (j := j) hs hn hout
  have horder := sameOrder_iff hs ht hj
  constructor
  · rintro ⟨h₁, -, h₃⟩
    obtain ⟨hzero, hle⟩ := hcpy.mp h₁
    exact ⟨hzero, hle, horder.mp h₃⟩
  · rintro ⟨hzero, hle, h⟩
    exact ⟨hcpy.mpr ⟨hzero, hle⟩, hncpy.mpr hle, horder.mpr h⟩

def someStrings : Bytes := fun x => [97, 0, 66, 98, 0, 120, 121, 122].getD x 0

/-- A copy that ends where a string has ended before. -/
theorem agrees_someStrings : Agrees someStrings 7 0 3 [97] [98] 2 2 5 :=
  (agrees_iff (by decide) (by decide) (by decide) (by decide) (by decide)).mpr (by decide)

/-- A copy over the start of a longer string does not match. -/
theorem not_agrees : ¬ ∀ (m : Bytes) (dest s t : ℕ) (l k : List UInt8) (n j j' : ℕ),
    m.IsText s l → m.IsText t k → l.length < n → dest + n ≤ s ∨ s + l.length < dest →
      max l.length k.length < j' → Agrees m dest s t l k n j j' := by
  intro hall
  have hagrees := hall someStrings 5 0 3 [97] [98] 2 2 5 (by decide) (by decide) (by decide)
    (by decide) (by decide)
  have hzero := ((strcpy_matches_iff (by decide) (by decide)).mp hagrees.strcpy).1
  exact absurd hzero (by decide)

end Agreement

end NSOS.Nslibc
