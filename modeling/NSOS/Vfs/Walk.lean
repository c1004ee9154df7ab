import NSOS.Basis.Runs
import NSOS.Vfs.Lookup
import Mathlib.Data.List.TakeWhile

/-! # Walks

The walk along the parts of a path as a function of the state, and the rules
for the loops of `path_lookup` and `make_path`. A walk stays on places, and it
changes the state only by making entries for names that are not in memory.
-/

namespace NSOS.Vfs

open Basis Prog

inductive Part where
  | dot
  | dotdot
  | name (s : List Char)
  deriving DecidableEq

namespace Part

def of (s : List Char) : Part :=
  if s = ['.'] then .dot else if s = ['.', '.'] then .dotdot else .name s

def isName : Part → Bool
  | name _ => true
  | _ => false

end Part

section Resolve

/-- The parts of a path, the number of which is bounded by its length. -/
def parts : ℕ → List Char → List Part
  | 0, _ => []
  | n + 1, s => .of (component s) :: if remainder s = [] then [] else parts n (remainder s)

def slashed : ℕ → List Char → Bool
  | 0, _ => false
  | n + 1, s => if remainder s = [] then trailing s else slashed n (remainder s)

variable (st : State)

def goTo (nd : Nameidata) : Part → Found
  | .dot => .hit nd
  | .dotdot => climb st nd
  | .name s => look st nd s

/-- Where the parts of a path lead. With `dir` only a directory is found. -/
def resolve (dir : Bool) : List Part → Nameidata → Found
  | [], nd => .hit nd
  | p :: ps, nd =>
    match goTo st nd p with
    | .hit nd' =>
      if p.isName = true ∧ (ps ≠ [] ∨ dir = true) ∧ (st.dentry nd'.dentry).dIsdir = false then
        .absent
      else resolve dir ps nd'
    | .made nd' name => if ps = [] ∧ dir = false then .made nd' name else .absent
    | .absent => .absent
    | .stuck => .stuck

def start (t : ℕ) (path : List Char) : Nameidata :=
  if path.head? = some '/' then ⟨(st.thread t).root, some (st.thread t).rootmnt⟩
  else ⟨(st.thread t).pwd, some (st.thread t).pwdmnt⟩

def relative (path : List Char) : List Char := path.dropWhile (· = '/')

def partsOf (path : List Char) : List Part := parts (relative path).length (relative path)

def wantsDir (path : List Char) : Bool := slashed (relative path).length (relative path)

def resolvePath (t : ℕ) (path : List Char) (dir : Bool) : Found :=
  resolve st (dir || wantsDir path) (partsOf path) (start st t path)

end Resolve

section Names

variable {s : List Char} {n : ℕ}

/-- A name that an entry can have. -/
def ValidName (s : List Char) : Prop := s ≠ [] ∧ '/' ∉ s ∧ s ≠ ['.'] ∧ s ≠ ['.', '.']

def AtName (s : List Char) : Prop := s ≠ [] ∧ s.head? ≠ some '/'

theorem length_remainder_lt (hs : s ≠ []) : (remainder s).length < s.length := by
  obtain ⟨c, cs, rfl⟩ := List.exists_cons_of_ne_nil hs
  rw [remainder]
  by_cases hc : c = '/'
  · subst hc
    have hdrop : ('/' :: cs).dropWhile (· ≠ '/') = '/' :: cs := by simp
    rw [hdrop, List.dropWhile_cons_of_pos (by simp)]
    exact Nat.lt_succ_of_le (List.dropWhile_suffix _).length_le
  · rw [List.dropWhile_cons_of_pos (by simpa using hc)]
    calc ((cs.dropWhile _).dropWhile _).length ≤ (cs.dropWhile (· ≠ '/')).length :=
          (List.dropWhile_suffix _).length_le
      _ ≤ cs.length := (List.dropWhile_suffix _).length_le
      _ < (c :: cs).length := Nat.lt_succ_self _

theorem trailing_of_remainder (h : remainder s ≠ []) : trailing s = false := by
  simp [trailing, h]

theorem parts_ne_nil (hn : s.length ≤ n) (hs : s ≠ []) : parts n s ≠ [] := by
  cases n with
  | zero => exact absurd (List.length_eq_zero_iff.mp (Nat.le_zero.mp hn)) hs
  | succ n => exact List.cons_ne_nil _ _

theorem atName_dropWhile (h : s.dropWhile (· = '/') ≠ []) : AtName (s.dropWhile (· = '/')) := by
  refine ⟨h, fun he => ?_⟩
  have hhead := List.head?_dropWhile_not (fun c => decide (c = '/')) s
  rw [he] at hhead
  simp at hhead

theorem atName_remainder (h : remainder s ≠ []) : AtName (remainder s) := atName_dropWhile h

theorem AtName.component_ne_nil (h : AtName s) : component s ≠ [] := by
  obtain ⟨hs, hhead⟩ := h
  obtain ⟨c, cs, rfl⟩ := List.exists_cons_of_ne_nil hs
  have hc : c ≠ '/' := by simpa using hhead
  simp [component, hc]

theorem slash_notMem_component : '/' ∉ component s := fun h => by
  simpa using List.mem_takeWhile_imp h

theorem AtName.validName (h : AtName s) (hdot : component s ≠ ['.'])
    (hdd : component s ≠ ['.', '.']) : ValidName (component s) :=
  ⟨h.component_ne_nil, slash_notMem_component, hdot, hdd⟩

end Names

section Rule

/-- An entry that is made at a place. -/
structure Making where
  nd : Nameidata
  name : List Char
  kind : Kind

/-- The kinds of entries that are made on the way, where `inner` says that more follows. -/
def Kind.Passing (inner : Prop) : Kind → Prop
  | directory => inner
  | file _ => False
  | _ => True

def MakesAt (t : ℕ) (mode : UInt16) (st : State) (i : Making) (st' : State) : Prop :=
  Enters t mode st i.nd i.name i.kind st'

/-- An entry is made at a place for a part of a path that has no entry there yet. -/
structure Fresh (D : State → Nameidata → Prop) (ps : List Part) (st : State) (i : Making) :
    Prop where
  place : D st i.nd
  absent : st.childNamed i.nd.dentry i.name = none
  valid : ValidName i.name
  part : .name i.name ∈ ps

/-- The places of walks while an invariant `I` holds. A walk goes on at the places in `D`, and a
name leads to the places in `P`. -/
structure Walkable (t : ℕ) (mode : UInt16) (I : State → Prop) (P D : State → Nameidata → Prop) :
    Prop where
  wf : ∀ {st}, I st → st.toNamespace.Wf
  lt : ∀ {st nd}, I st → D st nd → nd.dentry < st.dentries.size
  mnt : ∀ {st nd}, I st → D st nd → ∃ m < st.mounts.size, nd.mnt = some m
  climb : ∀ {st nd}, I st → D st nd → ∃ nd', climb st nd = .hit nd' ∧ D st nd'
  arrive : ∀ {st nd name c}, I st → D st nd → st.childNamed nd.dentry name = some c →
    ∃ nd', arrive st nd c = .hit nd' ∧ P st nd'
  down : ∀ {st nd}, I st → P st nd → (st.dentry nd.dentry).dIsdir = true → D st nd
  up : ∀ {st nd}, I st → D st nd → P st nd
  enter : ∀ {st st' nd name k}, I st → D st nd → st.childNamed nd.dentry name = none →
    ValidName name → Enters t mode st nd name k st' →
      I st' ∧ (∀ {nd'}, D st nd' → D st' nd') ∧ (k ≠ .lost → P st' ⟨st.dentries.size, nd.mnt⟩)

variable {t n : ℕ} {mode : UInt16} {I : State → Prop} {P D : State → Nameidata → Prop}
  {st st' st₁ : State} {nd nd' nd₁ : Nameidata} {name s path : List Char}
  {ps qs : List Part} {k : Kind} {dir wants file : Bool} {o : Option ℕ}

theorem run_isDir : run (isDir nd) st = some ((st.dentry nd.dentry).dIsdir, st) := rfl

/-- What a run of `do_lookup` gives at a place, for what there is to find. -/
def Comes (t : ℕ) (mode : UInt16) (P : State → Nameidata → Prop) (st : State) (nd : Nameidata)
    (name : List Char) (r : Option ((Bool × Nameidata) × State)) : Found → Prop
  | .hit nd' => r = some ((false, nd'), st) ∧ P st nd'
  | .made nd' name' => nd' = nd ∧ name' = name ∧ st.childNamed nd.dentry name = none ∧ ∃ st',
      r = some ((false, ⟨st.dentries.size, nd.mnt⟩), st') ∧ Enters t mode st nd name .cached st'
  | .absent => st.childNamed nd.dentry name = none ∧ ∃ st',
      r = some ((true, nd), st') ∧ Enters t mode st nd name .lost st'
  | .stuck => r = none

theorem Walkable.run_doLookup (hw : Walkable t mode I P D) (hI : I st) (hD : D st nd)
    (name : List Char) :
    Comes t mode P st nd name (run (doLookup nd name) st) (look st nd name) := by
  have hlt := hw.lt hI hD
  obtain ⟨m, -, hm⟩ := hw.mnt hI hD
  rw [doLookup, run_bind, run_findEntry (hw.wf hI) hlt, Option.bind_some, look]
  cases hc : st.childNamed nd.dentry name with
  | some c =>
    obtain ⟨nd', harr, hP⟩ := hw.arrive hI hD hc
    dsimp only
    rw [harr, run_bind, run_enter (hw.wf hI) harr]
    exact ⟨rfl, hP⟩
  | none =>
    dsimp only
    rw [askDriver]
    cases hi : (st.dentry nd.dentry).dInode with
    | none =>
      simp only [slowLookup, run_bind, run_gets, Option.bind_some, hi]
      rfl
    | some ip =>
      dsimp only
      obtain ⟨st', hst'⟩ := run_slowLookup_enters t mode name hlt hm hi
      rw [← finds_eq_isSome] at hst'
      by_cases hf : finds st (st.inode ip).iOp nd.dentry name = true
      · rw [if_pos hf] at hst' ⊢
        exact ⟨rfl, rfl, hc, st', hst'⟩
      · rw [if_neg hf] at hst' ⊢
        exact ⟨hc, st', hst'⟩

/-- What a run of `path_lookup` gives from a place, for what there is to find. -/
def Leads (t : ℕ) (mode : UInt16) (P D : State → Nameidata → Prop) (ps : List Part) (st : State)
    (r : Option ((Option ℕ × Nameidata) × State)) : Found → Prop
  | .hit nd => r = some ((some nd.dentry, nd), st) ∧ P st nd
  | .made nd name => Fresh D ps st ⟨nd, name, .cached⟩ ∧ ∃ st',
      r = some ((some st.dentries.size, ⟨st.dentries.size, nd.mnt⟩), st') ∧
        MakesAt t mode st ⟨nd, name, .cached⟩ st'
  | .absent => ∃ nd st', r = some ((none, nd), st') ∧ (st' = st ∨ ∃ i, Fresh D ps st i ∧
      (i.kind = .lost ∨ i.kind = .cached) ∧ MakesAt t mode st i st')
  | .stuck => r = none

theorem Fresh.mono {i : Making} (hps : ps ⊆ qs) (h : Fresh D ps st i) : Fresh D qs st i :=
  ⟨h.place, h.absent, h.valid, hps h.part⟩

theorem Leads.mono {r : Option ((Option ℕ × Nameidata) × State)} {f : Found} (hps : ps ⊆ qs)
    (h : Leads t mode P D ps st r f) : Leads t mode P D qs st r f := by
  cases f with
  | hit nd => exact h
  | made nd name => exact ⟨h.1.mono hps, h.2⟩
  | absent =>
    obtain ⟨nd, st', hr, hst'⟩ := h
    refine ⟨nd, st', hr, hst'.imp_right ?_⟩
    rintro ⟨i, hf, hi⟩
    exact ⟨i, hf.mono hps, hi⟩
  | stuck => exact h

theorem Enters.dIsdir (he : Enters t mode st nd name k st') (hlt : nd.dentry < st.dentries.size)
    (hk : k ≠ .lost) : (st'.dentry st.dentries.size).dIsdir = decide (k = .directory) := by
  obtain ⟨y, j, F, he⟩ := he
  obtain ⟨o, ho⟩ : ∃ o, st'.dentry st.dentries.size = { y with dChild := o } :=
    he.namespace_eq ▸ Namespace.dentry_enter_size hlt
  rw [ho]
  exact he.dIsdir hk

theorem part_mem_parts (hdot : component s ≠ ['.']) (hdd : component s ≠ ['.', '.']) :
    .name (component s) ∈ parts (n + 1) s := by
  rw [parts, Part.of, if_neg hdot, if_neg hdd]
  exact List.mem_cons_self

theorem parts_remainder_subset (hr : remainder s ≠ []) :
    parts n (remainder s) ⊆ parts (n + 1) s := by
  rw [parts, if_neg hr]
  exact List.subset_cons_self _ _

theorem dropLast_parts_cons (hn : (remainder s).length ≤ n) (hr : remainder s ≠ []) :
    (parts (n + 1) s).dropLast = .of (component s) :: (parts n (remainder s)).dropLast := by
  rw [parts, if_neg hr, List.dropLast_cons_of_ne_nil (parts_ne_nil hn hr)]

theorem Walkable.leads_name (hw : Walkable t mode I P D) (hI : I st) (hs : AtName s)
    (hD : D st nd) (hdot : component s ≠ ['.']) (hdd : component s ≠ ['.', '.'])
    (hn : (remainder s).length ≤ n)
    (hrest : ∀ {nd'}, D st nd' → remainder s ≠ [] → Leads t mode P D (parts (n + 1) s) st
      (run (pathLoop n (remainder s) (dir || trailing s) nd') st)
      (resolve st (dir || slashed (n + 1) s) (parts n (remainder s)) nd')) :
    Leads t mode P D (parts (n + 1) s) st
      (run (do
        let (failed, nd) ← doLookup nd (component s)
        if failed then return (none, nd)
        else if remainder s ≠ [] then
          if ← isDir nd then pathLoop n (remainder s) (dir || trailing s) nd else return (none, nd)
        else if (dir || trailing s) = true ∧ (← isDir nd) = false then return (none, nd)
        else return (some nd.dentry, nd)) st)
      (resolve st (dir || slashed (n + 1) s)
        (.name (component s) :: if remainder s = [] then [] else parts n (remainder s)) nd) := by
  have hparts : (if remainder s = [] then [] else parts n (remainder s)) = [] ↔
      remainder s = [] := by
    by_cases hr : remainder s = []
    · simp [hr]
    · simpa [hr] using parts_ne_nil hn hr
  have hwants : remainder s = [] → slashed (n + 1) s = trailing s := fun hr => by
    rw [slashed, if_pos hr]
  have hlt := hw.lt hI hD
  have hvalid := hs.validName hdot hdd
  have hfresh : ∀ k, st.childNamed nd.dentry (component s) = none →
      Fresh D (parts (n + 1) s) st ⟨nd, component s, k⟩ := fun k hnone =>
    ⟨hD, hnone, hvalid, part_mem_parts hdot hdd⟩
  have hlook := hw.run_doLookup hI hD (component s)
  rw [resolve, goTo, run_bind]
  cases hf : look st nd (component s) with
  | stuck =>
    rw [hf] at hlook
    rw [hlook]
    rfl
  | absent =>
    rw [hf] at hlook
    obtain ⟨hnone, st', hrun, he⟩ := hlook
    rw [hrun]
    exact ⟨nd, st', rfl, .inr ⟨_, hfresh .lost hnone, .inl rfl, he⟩⟩
  | made nd' name =>
    rw [hf] at hlook
    obtain ⟨rfl, rfl, hnone, st', hrun, he⟩ := hlook
    have hdir : run (isDir ⟨st.dentries.size, nd'.mnt⟩) st' = some (false, st') := by
      rw [run_isDir, he.dIsdir hlt (by simp)]
      rfl
    have hlost : Leads t mode P D (parts (n + 1) s) st
        (some ((none, ⟨st.dentries.size, nd'.mnt⟩), st')) .absent :=
      ⟨_, st', rfl, .inr ⟨_, hfresh .cached hnone, .inr rfl, he⟩⟩
    rw [hrun, Option.bind_some]
    simp only [Bool.false_eq_true, if_false, hparts]
    by_cases hr : remainder s = []
    · rw [if_neg (not_not.mpr hr), hwants hr, run_bind, hdir, Option.bind_some]
      cases hw : dir || trailing s with
      | true =>
        rw [if_pos ⟨rfl, rfl⟩, if_neg fun hc => Bool.noConfusion hc.2]
        exact hlost
      | false =>
        rw [if_neg (by simp), if_pos (And.intro hr rfl)]
        exact ⟨hfresh .cached hnone, st', rfl, he⟩
    · rw [if_pos hr, if_neg fun hc => hr hc.1, run_bind, hdir]
      exact hlost
  | hit nd' =>
    rw [hf] at hlook
    obtain ⟨hrun, hP⟩ := hlook
    have habsent : Leads t mode P D (parts (n + 1) s) st (some ((none, nd'), st)) .absent :=
      ⟨nd', st, rfl, .inl rfl⟩
    rw [hrun, Option.bind_some]
    simp only [Bool.false_eq_true, if_false, hparts, ne_eq, Part.isName, true_and]
    by_cases hr : remainder s = []
    · rw [if_neg (not_not.mpr hr), run_bind, run_isDir, Option.bind_some, hwants hr,
        if_pos hr]
      simp only [hr, not_true_eq_false, false_or]
      split
      · exact habsent
      · exact ⟨rfl, hP⟩
    · rw [if_pos hr, run_bind, run_isDir, Option.bind_some]
      cases hd : (st.dentry nd'.dentry).dIsdir with
      | true =>
        rw [if_pos rfl, if_neg (by simp), if_neg hr]
        exact hrest (hw.down hI hP hd) hr
      | false =>
        rw [if_neg (by simp), if_pos (And.intro (.inl hr) rfl)]
        exact habsent

theorem Walkable.run_pathLoop (hw : Walkable t mode I P D) (hI : I st) (hn : s.length ≤ n)
    (hs : AtName s) (hD : D st nd) : Leads t mode P D (parts n s) st
      (run (pathLoop n s dir nd) st) (resolve st (dir || slashed n s) (parts n s) nd) := by
  induction n generalizing s dir nd with
  | zero => exact absurd (List.length_eq_zero_iff.mp (Nat.le_zero.mp hn)) hs.1
  | succ n ih =>
    have hlen := length_remainder_lt hs.1
    -- The rest of the walk from a place where it goes on.
    have hrest : ∀ {nd'}, D st nd' → remainder s ≠ [] →
        Leads t mode P D (parts (n + 1) s) st
          (run (pathLoop n (remainder s) (dir || trailing s) nd') st)
          (resolve st (dir || slashed (n + 1) s) (parts n (remainder s)) nd') := by
      intro nd' hD' hr
      have hih : Leads t mode P D (parts n (remainder s)) st
          (run (pathLoop n (remainder s) (dir || trailing s) nd') st) _ :=
        ih (by omega) (atName_remainder hr) hD'
      rw [slashed, if_neg hr]
      rw [trailing_of_remainder hr, Bool.or_false] at hih ⊢
      exact hih.mono (parts_remainder_subset hr)
    -- A part that needs no directory.
    have hstep : ∀ {nd'}, D st nd' → Leads t mode P D (parts (n + 1) s) st
        (run (if remainder s = [] then return (some nd'.dentry, nd')
          else pathLoop n (remainder s) (dir || trailing s) nd') st)
        (resolve st (dir || slashed (n + 1) s)
          (if remainder s = [] then [] else parts n (remainder s)) nd') := by
      intro nd' hD'
      by_cases hr : remainder s = []
      · rw [if_pos hr, if_pos hr]
        exact ⟨rfl, hw.up hI hD'⟩
      · rw [if_neg hr, if_neg hr]
        exact hrest hD' hr
    rw [pathLoop]
    change Leads t mode P D (parts (n + 1) s) st _ (resolve st _
      (.of (component s) :: if remainder s = [] then [] else parts n (remainder s)) nd)
    by_cases hdot : component s = ['.']
    · rw [Part.of, if_pos hdot, if_pos hdot]
      exact hstep hD
    · rw [Part.of, if_neg hdot, if_neg hdot]
      by_cases hdd : component s = ['.', '.']
      · obtain ⟨nd', hc, hD'⟩ := hw.climb hI hD
        rw [if_pos hdd, if_pos hdd, resolve, goTo, hc, run_bind, run_followDotdot hc,
          Option.bind_some]
        exact hstep hD'
      · rw [if_neg hdd, if_neg hdd]
        exact hw.leads_name hI hs hD hdot hdd (by omega) hrest

theorem run_startOf : run (startOf t path) st = some (start st t path, st) := by
  unfold startOf start
  split <;> rfl

theorem Walkable.run_pathLookup (hw : Walkable t mode I P D) (hI : I st) (path : List Char)
    (dir : Bool) (hD : D st (start st t path)) : Leads t mode P D (partsOf path) st
      (run (pathLookup t path dir) st) (resolvePath st t path dir) := by
  rw [pathLookup, run_bind, run_startOf, Option.bind_some, resolvePath, partsOf, wantsDir]
  change Leads t mode P D _ st (run (if relative path = [] then _ else _) st) _
  by_cases hr : relative path = []
  · rw [if_pos hr, hr]
    exact ⟨rfl, hw.up hI hD⟩
  · rw [if_neg hr]
    exact hw.run_pathLoop hI le_rfl (atName_dropWhile hr) hD

/-- What a walk makes on its way: entries of drivers, and directories for parts that others
follow. -/
def Passing (D : State → Nameidata → Prop) (ps : List Part) (st : State) (i : Making) : Prop :=
  Fresh D ps st i ∧ i.kind.Passing (.name i.name ∈ ps.dropLast)

/-- What a walk along the parts of a path did to the state. It made entries on its way, and it may
have made the dentry that it returns, a regular file or a directory. -/
structure Walked (t : ℕ) (mode : UInt16) (I : State → Prop) (D : State → Nameidata → Prop)
    (ps : List Part) (file : Bool) (o : Option ℕ) (st st' : State) : Prop where
  inv : I st'
  ext : Namespace.Extends st.toNamespace st'.toNamespace
  keeps : ∀ {nd}, D st nd → D st' nd
  steps : ∃ st₁, Run (MakesAt t mode) (Passing D ps) st st₁ ∧
    (st' = st₁ ∨ o = some st₁.dentries.size ∧ ∃ i, Fresh D ps st₁ i ∧
      ps.getLast? = some (.name i.name) ∧ i.kind.MadeAs file ∧ MakesAt t mode st₁ i st')

theorem Walked.refl (hI : I st) : Walked t mode I D ps file o st st :=
  ⟨hI, .refl, id, st, .refl, .inl rfl⟩

theorem Walked.trans {st₁ : State} {b : Bool} (h : Walked t mode I D ps b none st st₁)
    (h' : Walked t mode I D ps file o st₁ st') : Walked t mode I D ps file o st st' := by
  obtain ⟨st₂, hr, rfl | ⟨hc, -⟩⟩ := h.steps
  · obtain ⟨st₃, hr', hst'⟩ := h'.steps
    exact ⟨h'.inv, h.ext.trans h'.ext, fun hD => h'.keeps (h.keeps hD), st₃, hr.trans hr', hst'⟩
  · cases hc

theorem Kind.Passing.mono {p q : Prop} (h : p → q) (hk : k.Passing p) : k.Passing q := by
  cases k with
  | directory => exact h hk
  | file i => exact hk
  | lost => trivial
  | cached => trivial

theorem Walked.cons {p : Part} (hps : ps ≠ []) (h : Walked t mode I D ps file o st st') :
    Walked t mode I D (p :: ps) file o st st' := by
  obtain ⟨st₁, hr, hst'⟩ := h.steps
  have hsub : ps ⊆ p :: ps := List.subset_cons_self _ _
  have hdrop : ps.dropLast ⊆ (p :: ps).dropLast := by
    rw [List.dropLast_cons_of_ne_nil hps]
    exact List.subset_cons_self _ _
  refine ⟨h.inv, h.ext, h.keeps, st₁,
    hr.mono fun hi => ⟨hi.1.mono hsub, hi.2.mono fun hm => hdrop hm⟩, hst'.imp_right ?_⟩
  rintro ⟨ho, i, hi, hlast, hk⟩
  refine ⟨ho, i, hi.mono hsub, ?_, hk⟩
  rw [List.getLast?_cons_of_ne_nil hps, hlast]

theorem Walked.of_none (h : Walked t mode I D ps file none st st') (b : Bool) (o : Option ℕ) :
    Walked t mode I D ps b o st st' := by
  obtain ⟨st₁, hr, rfl | ⟨ho, -⟩⟩ := h.steps
  · exact ⟨h.inv, h.ext, h.keeps, st', hr, .inl rfl⟩
  · cases ho

/-- A walk along parts that others follow makes directories for them on its way. -/
theorem Walked.inner (h : Walked t mode I D ps false o st st') (hps : ps ⊆ qs.dropLast) :
    Walked t mode I D qs file none st st' := by
  obtain ⟨st₁, hr, hst'⟩ := h.steps
  have hqs : ps ⊆ qs := fun p hp => List.mem_of_mem_dropLast (hps hp)
  have hr' : Run (MakesAt t mode) (Passing D qs) st st₁ := hr.mono fun hi =>
    ⟨hi.1.mono hqs, hi.2.mono fun hm => hps (List.mem_of_mem_dropLast hm)⟩
  refine ⟨h.inv, h.ext, h.keeps, st', ?_, .inl rfl⟩
  rcases hst' with rfl | ⟨-, i, hf, -, hk, hm⟩
  · exact hr'
  · refine hr'.tail ⟨hf.mono hqs, ?_⟩ hm
    cases hkind : i.kind with
    | directory => exact hps hf.part
    | file j =>
      rw [hkind] at hk
      cases hk
    | lost => trivial
    | cached => trivial

theorem Enters.extends (he : Enters t mode st nd name k st') (h : st.toNamespace.Wf)
    (hlt : nd.dentry < st.dentries.size) (hnone : st.childNamed nd.dentry name = none) :
    Namespace.Extends st.toNamespace st'.toNamespace := by
  obtain ⟨y, j, F, he⟩ := he
  rw [he.namespace_eq]
  exact Namespace.extends_enter h hlt he.leaf (he.dIname ▸ hnone)

theorem Enters.look (he : Enters t mode st nd name k st') (h : st.toNamespace.Wf)
    (hlt : nd.dentry < st.dentries.size) (hk : k ≠ .lost) :
    look st' nd name = .hit ⟨st.dentries.size, nd.mnt⟩ := by
  obtain ⟨y, j, F, he⟩ := he
  have hns := he.namespace_eq
  obtain ⟨c, hc⟩ : ∃ c, st'.dentry st.dentries.size = { y with dChild := c } :=
    hns ▸ Namespace.dentry_enter_size hlt
  have hchild : st'.childNamed nd.dentry name = some st.dentries.size := by
    rw [hns, Namespace.childNamed_enter h hlt he.leaf hlt, if_pos ⟨hk, rfl, he.dIname⟩]
  have hcov : st'.covered st.dentries.size = false := by
    simp [Namespace.covered, hc, he.dMounted]
  rw [Vfs.look, hchild]
  dsimp only
  rw [arrive, hcov, if_neg Bool.false_ne_true]

theorem Walkable.enters {i : Making} (hw : Walkable t mode I P D) (hI : I st)
    (hf : Fresh D ps st i) (he : MakesAt t mode st i st') : I st' ∧
      Namespace.Extends st.toNamespace st'.toNamespace ∧ ∀ {nd}, D st nd → D st' nd :=
  have h := hw.enter hI hf.place hf.absent hf.valid he
  ⟨h.1, he.extends (hw.wf hI) (hw.lt hI hf.place) hf.absent, h.2.1⟩

theorem Walkable.walked {i : Making} (hw : Walkable t mode I P D) (hI : I st)
    (hf : Fresh D ps st i) (hk : i.kind.Passing (.name i.name ∈ ps.dropLast))
    (he : MakesAt t mode st i st') : Walked t mode I D ps file o st st' :=
  have h := hw.enters hI hf he
  ⟨h.1, h.2.1, h.2.2, st', .tail .refl ⟨hf, hk⟩ he, .inl rfl⟩

theorem Enters.childNamed_of_lost (he : Enters t mode st nd name .lost st')
    (h : st.toNamespace.Wf) (hlt : nd.dentry < st.dentries.size) :
    st'.childNamed nd.dentry name = st.childNamed nd.dentry name := by
  obtain ⟨y, j, F, he⟩ := he
  rw [he.namespace_eq, Namespace.childNamed_enter h hlt he.leaf hlt, if_neg fun hc => hc.1 rfl]

theorem Walkable.walked_makeEntry (hw : Walkable t mode I P D) (hI : I st) (hD : D st nd)
    (hvalid : ValidName name) (hnone : st.childNamed nd.dentry name = none)
    {o : Option Nameidata} (hr : run (makeEntry t nd name file mode) st = some (o, st')) :
    Walked t mode I D [.name name] file (o.map Nameidata.dentry) st st' ∧
      ∀ nd', o = some nd' → P st' nd' ∧ look st' nd name = .hit nd' := by
  have hlt := hw.lt hI hD
  have hf : ∀ k, Fresh D [.name name] st ⟨nd, name, k⟩ := fun k =>
    ⟨hD, hnone, hvalid, List.mem_singleton_self _⟩
  obtain ⟨m, -, hm⟩ := hw.mnt hI hD
  obtain ⟨k, st₁, hrun, he⟩ := run_makeEntry_enters st t name file mode hm
  rcases hrun with ⟨rfl, hrun⟩ | ⟨hk, hrun⟩
  · obtain ⟨rfl, rfl⟩ := run_inj hr hrun
    exact ⟨hw.walked hI (hf .lost) trivial he, fun nd' hnd => by cases hnd⟩
  · obtain ⟨rfl, rfl⟩ := run_inj hr hrun
    have hlost : k ≠ .lost := by
      rintro rfl
      exact hk
    refine ⟨?_, fun nd' hnd => ?_⟩
    · obtain ⟨h₁, h₂, h₃⟩ := hw.enters hI (hf k) he
      exact ⟨h₁, h₂, h₃, st, .refl, .inr ⟨rfl, _, hf k, rfl, hk, he⟩⟩
    · obtain rfl := Option.some.inj hnd
      exact ⟨(hw.enter hI hD hnone hvalid he).2.2 hlost, he.look (hw.wf hI) hlt hlost⟩

theorem Walkable.walked_lookupOrMake (hw : Walkable t mode I P D) (hI : I st) (hD : D st nd)
    (hvalid : ValidName name) {o : Option Nameidata}
    (hr : run (lookupOrMake t nd name file mode) st = some (o, st')) :
    Walked t mode I D [.name name] file (o.map Nameidata.dentry) st st' ∧
      ∀ nd', o = some nd' → P st' nd' ∧ look st' nd name = .hit nd' := by
  have hlt := hw.lt hI hD
  have hf : ∀ k, st.childNamed nd.dentry name = none →
      Fresh D [.name name] st ⟨nd, name, k⟩ := fun k hnone =>
    ⟨hD, hnone, hvalid, List.mem_singleton_self _⟩
  have hlook := hw.run_doLookup hI hD name
  obtain ⟨⟨failed, nd₁⟩, st₁, hrun, hrest⟩ := run_bind_some hr
  clear hr
  rw [hrun] at hlook
  cases hfound : look st nd name with
  | stuck =>
    rw [hfound] at hlook
    cases hlook
  | hit nd₂ =>
    rw [hfound] at hlook
    obtain ⟨heq, hP⟩ := hlook
    simp only [Option.some.injEq, Prod.mk.injEq] at heq
    obtain ⟨⟨rfl, rfl⟩, rfl⟩ := heq
    obtain ⟨rfl, rfl⟩ := Prod.mk.inj (Option.some.inj hrest)
    refine ⟨.refl hI, fun nd' hnd => ?_⟩
    obtain rfl := Option.some.inj hnd
    exact ⟨hP, hfound⟩
  | made nd₂ name₂ =>
    rw [hfound] at hlook
    obtain ⟨-, -, hnone, st₂, heq, he⟩ := hlook
    simp only [Option.some.injEq, Prod.mk.injEq] at heq
    obtain ⟨⟨rfl, rfl⟩, rfl⟩ := heq
    obtain ⟨rfl, rfl⟩ := Prod.mk.inj (Option.some.inj hrest)
    refine ⟨hw.walked hI (hf .cached hnone) trivial he, fun nd' hnd => ?_⟩
    obtain rfl := Option.some.inj hnd
    exact ⟨(hw.enter hI hD hnone hvalid he).2.2 (by simp), he.look (hw.wf hI) hlt (by simp)⟩
  | absent =>
    rw [hfound] at hlook
    obtain ⟨hnone, st₂, heq, he⟩ := hlook
    simp only [Option.some.injEq, Prod.mk.injEq] at heq
    obtain ⟨⟨rfl, rfl⟩, rfl⟩ := heq
    have hwalk : ∀ {b o}, Walked t mode I D [.name name] b o st st₁ := fun {b o} =>
      hw.walked hI (hf .lost hnone) trivial he
    simp only [if_true, run_bind, run_gets, Option.bind_some, run_demand] at hrest
    cases hi : (st₁.dentry nd₁.dentry).dInode with
    | none =>
      rw [hi] at hrest
      cases hrest
    | some ip =>
      rw [hi, Option.map_some, Option.bind_some] at hrest
      split at hrest
      · obtain ⟨rfl, rfl⟩ := Prod.mk.inj (Option.some.inj hrest)
        exact ⟨hwalk, fun nd' hnd => by cases hnd⟩
      · have hstep : Walked t mode I D [.name name] false none st st₁ := hwalk
        have hnone₁ := (he.childNamed_of_lost (hw.wf hI) hlt).trans hnone
        obtain ⟨hmade, hplace⟩ :=
          hw.walked_makeEntry hstep.inv (hstep.keeps hD) hvalid hnone₁ hrest
        exact ⟨hstep.trans hmade, hplace⟩

theorem Enters.thread (he : Enters t mode st nd name k st') : st'.thread = st.thread := by
  obtain ⟨y, j, F, he⟩ := he
  rw [he.state_eq]

theorem Walked.thread (h : Walked t mode I D ps file o st st') : st'.thread = st.thread := by
  obtain ⟨st₁, hr, hst'⟩ := h.steps
  have hthread : st₁.thread = st.thread :=
    hr.invariant (I := fun st₁ => st₁.thread = st.thread) rfl fun he _ hm => hm.thread.trans he
  rcases hst' with rfl | ⟨-, i, -, -, -, hm⟩
  · exact hthread
  · exact hm.thread.trans hthread

theorem Walkable.walked_leads (hw : Walkable t mode I P D) (hI : I st) {f : Found}
    (hl : Leads t mode P D ps st (some ((o, nd'), st')) f) :
    Walked t mode I D ps false none st st' := by
  cases f with
  | hit nd =>
    obtain ⟨heq, -⟩ := hl
    simp only [Option.some.injEq, Prod.mk.injEq] at heq
    obtain ⟨-, rfl⟩ := heq
    exact .refl hI
  | made nd name =>
    obtain ⟨hf, st₁, heq, hm⟩ := hl
    simp only [Option.some.injEq, Prod.mk.injEq] at heq
    obtain ⟨-, rfl⟩ := heq
    exact hw.walked hI hf trivial hm
  | absent =>
    obtain ⟨nd, st₁, heq, hst₁⟩ := hl
    simp only [Option.some.injEq, Prod.mk.injEq] at heq
    obtain ⟨-, rfl⟩ := heq
    rcases hst₁ with rfl | ⟨i, hf, hk, hm⟩
    · exact .refl hI
    · refine hw.walked hI hf ?_ hm
      rcases hk with hk | hk <;> rw [hk] <;> trivial
  | stuck => cases hl

theorem climb_grown (h : st.toNamespace.Wf) (hg : Namespace.Grown st.toNamespace st'.toNamespace)
    (hlt : nd.dentry < st.dentries.size) (hm : ∃ m < st.mounts.size, nd.mnt = some m) :
    climb st' nd = climb st nd := by
  obtain ⟨m, hm, hnd⟩ := hm
  simp only [climb, hnd, hg.rootDentry, hg.parent hlt, hg.mount, hg.parent (h.mountpoint_lt hm)]

theorem look_extends (h : st.toNamespace.Wf)
    (he : Namespace.Extends st.toNamespace st'.toNamespace) (hlt : nd.dentry < st.dentries.size)
    (hl : look st nd name = .hit nd') : look st' nd name = .hit nd' := by
  rw [look] at hl
  cases hc : st.childNamed nd.dentry name with
  | none =>
    rw [hc] at hl
    dsimp only at hl
    unfold askDriver at hl
    split at hl
    · cases hl
    · split at hl <;> cases hl
  | some c =>
    have hlt' := (h.childNamed_spec hlt hc).1
    rw [hc] at hl
    rw [look, he.childNamed hlt hc, ← hl]
    simp only [arrive, he.toGrown.covered hlt', he.toGrown.topMount, he.toGrown.mount]

theorem Namespace.Grown.dIsdir {ns ns' : Namespace} (h : Namespace.Grown ns ns') {d : ℕ}
    (hd : d < ns.dentries.size) : (ns'.dentry d).dIsdir = (ns.dentry d).dIsdir := by
  obtain ⟨c, s, hc⟩ := h.old hd
  rw [hc]

theorem resolve_cons {p : Part} (hp : goTo st nd p = .hit nd')
    (hd : p.isName = true → ps ≠ [] ∨ dir = true → (st.dentry nd'.dentry).dIsdir = true) :
    resolve st dir (p :: ps) nd = resolve st dir ps nd' := by
  rw [resolve, hp]
  dsimp only
  rw [if_neg]
  rintro ⟨h₁, h₂, h₃⟩
  rw [hd h₁ h₂] at h₃
  cases h₃

theorem Walked.of_dIsdir {d : ℕ} (hw : Walkable t mode I P D) (hI : I st)
    (h : Walked t mode I D ps file (some d) st st') (hd : (st'.dentry d).dIsdir = file)
    (b : Bool) (o : Option ℕ) : Walked t mode I D ps b o st st' := by
  obtain ⟨st₁, hr, rfl | ⟨hsize, i, hf, -, hk, hm⟩⟩ := h.steps
  · exact ⟨h.inv, h.ext, h.keeps, st', hr, .inl rfl⟩
  · have hI₁ : I st₁ := hr.invariant hI fun hI hi hm => (hw.enters hI hi.1 hm).1
    have hlost : i.kind ≠ .lost := fun hc => by
      rw [hc] at hk
      exact hk
    rw [Option.some.inj hsize, hm.dIsdir (hw.lt hI₁ hf.place) hlost] at hd
    cases hkind : i.kind with
    | directory =>
      rw [hkind] at hk hd
      rw [show file = false from hk] at hd
      cases hd
    | file j =>
      rw [hkind] at hk hd
      rw [show file = true from hk] at hd
      cases hd
    | lost => exact absurd hkind hlost
    | cached =>
      rw [hkind] at hk
      cases hk

/-- The dentry that a walk of `make_path` returns: the parts of the path lead to it. -/
structure Ends (P : State → Nameidata → Prop) (dir wants : Bool) (ps : List Part) (st : State)
    (nd nd' : Nameidata) (d : ℕ) : Prop where
  dentry : nd'.dentry = d
  place : P st nd'
  file : dir = false → (st.dentry d).dIsdir = false
  hit : resolve st wants ps nd = .hit nd'

/-- What a run of `make_path` does: it makes entries for the parts of a path, and then they lead to
its result. -/
def Arrives (t : ℕ) (mode : UInt16) (I : State → Prop) (P D : State → Nameidata → Prop)
    (dir wants : Bool) (ps : List Part) (st : State) (nd : Nameidata)
    (r : (Option ℕ × Nameidata) × State) : Prop :=
  Walked t mode I D ps (!dir) r.1.1 st r.2 ∧
    ∀ d, r.1.1 = some d → Ends P dir wants ps r.2 nd r.1.2 d

theorem Walked.fails {r : (Option ℕ × Nameidata) × State}
    (h : Walked t mode I D ps (!dir) none st st₁)
    (hr : run (pure (none, nd₁) : Code (Option ℕ × Nameidata)) st₁ = some r) :
    Arrives t mode I P D dir wants ps st nd r := by
  obtain rfl := Option.some.inj hr
  exact ⟨h, fun d hd => by cases hd⟩

theorem Walkable.goesOn {r : (Option ℕ × Nameidata) × State} (hw : Walkable t mode I P D)
    (hn : (remainder s).length ≤ n) (hrem : remainder s ≠ [])
    (hwalk : Walked t mode I D (parts (n + 1) s) false none st st₁) (hD : D st₁ nd₁)
    (hgo : ∀ {st'}, Namespace.Extends st₁.toNamespace st'.toNamespace →
      goTo st' nd (.of (component s)) = .hit nd₁)
    (hdir : (Part.of (component s)).isName = true → (st₁.dentry nd₁.dentry).dIsdir = true)
    (h : Arrives t mode I P D dir (dir || slashed n (remainder s)) (parts n (remainder s)) st₁ nd₁
      r) : Arrives t mode I P D dir (dir || slashed (n + 1) s) (parts (n + 1) s) st nd r := by
  obtain ⟨hwalk', hend⟩ := h
  have hwalk₂ : Walked t mode I D (parts (n + 1) s) (!dir) r.1.1 st₁ r.2 := by
    rw [parts, if_neg hrem]
    exact hwalk'.cons (parts_ne_nil hn hrem)
  refine ⟨hwalk.trans hwalk₂, fun d hd => ?_⟩
  obtain ⟨h₁, h₂, h₃, h₄⟩ := hend d hd
  refine ⟨h₁, h₂, h₃, ?_⟩
  rw [parts, if_neg hrem, slashed, if_neg hrem, resolve_cons (hgo hwalk'.ext), h₄]
  intro hname _
  rw [hwalk'.ext.toGrown.dIsdir (hw.lt hwalk.inv hD)]
  exact hdir hname

theorem Walkable.arrives_last {r : (Option ℕ × Nameidata) × State} (hw : Walkable t mode I P D)
    (hI : I st) (hof : Part.of (component s) = .name (component s)) (hrem : remainder s = [])
    (htr : ¬ (trailing s = true ∧ dir = false))
    (hwalk : Walked t mode I D [.name (component s)] (!dir) (some nd₁.dentry) st st₁)
    (hP : P st₁ nd₁) (hlook : look st₁ nd (component s) = .hit nd₁)
    (hr : run (do if (← isDir nd₁) = dir then return (some nd₁.dentry, nd₁) else return (none, nd₁) :
      Code (Option ℕ × Nameidata)) st₁ = some r) :
    Arrives t mode I P D dir (dir || slashed (n + 1) s) (parts (n + 1) s) st nd r := by
  have hparts : parts (n + 1) s = [.name (component s)] := by rw [parts, if_pos hrem, hof]
  rw [run_bind, run_isDir, Option.bind_some] at hr
  by_cases hd : (st₁.dentry nd₁.dentry).dIsdir = dir
  · rw [if_pos hd] at hr
    obtain rfl := Option.some.inj hr
    rw [hparts]
    refine ⟨hwalk, fun d he => ?_⟩
    obtain rfl := Option.some.inj he
    refine ⟨rfl, hP, fun h => hd.trans h, ?_⟩
    rw [resolve_cons (by rw [goTo, hlook]) fun _ hwants => ?_, resolve]
    rw [slashed, if_pos hrem] at hwants
    rw [hd]
    cases dir with
    | true => rfl
    | false => exact absurd ⟨by simpa using hwants, rfl⟩ htr
  · rw [if_neg hd] at hr
    rw [hparts]
    exact (hwalk.of_dIsdir hw hI (Bool.eq_not.mpr hd) _ _).fails hr

/-- `make_path` makes entries for the parts of a path, and then they lead to its result. -/
theorem Walkable.walked_makeLoop (hw : Walkable t mode I P D) (hI : I st) (hn : s.length ≤ n)
    (hs : AtName s) (hD : D st nd)
    (hr : run (makeLoop t dir mode n s nd) st = some ((o, nd'), st')) :
    Walked t mode I D (parts n s) (!dir) o st st' ∧
      ∀ d, o = some d → Ends P dir (dir || slashed n s) (parts n s) st' nd nd' d := by
  induction n generalizing s nd st with
  | zero => exact absurd (List.length_eq_zero_iff.mp (Nat.le_zero.mp hn)) hs.1
  | succ n ih =>
    have hlen := length_remainder_lt hs.1
    have hlt := hw.lt hI hD
    have hlen' : (remainder s).length ≤ n := by omega
    change Arrives t mode I P D dir (dir || slashed (n + 1) s) (parts (n + 1) s) st nd
      ((o, nd'), st')
    -- A part that needs no directory.
    have hstep : ∀ {nd₁}, (Part.of (component s)).isName = false → D st nd₁ →
        (∀ {st'}, Namespace.Extends st.toNamespace st'.toNamespace →
          goTo st' nd (.of (component s)) = .hit nd₁) →
        run (if remainder s = [] then return (if dir then some nd₁.dentry else none, nd₁)
          else makeLoop t dir mode n (remainder s) nd₁) st = some ((o, nd'), st') →
          Arrives t mode I P D dir (dir || slashed (n + 1) s) (parts (n + 1) s) st nd
            ((o, nd'), st') := by
      intro nd₁ hname hD₁ hgo hrun
      by_cases hrem : remainder s = []
      · rw [if_pos hrem] at hrun
        cases dir with
        | false => exact Walked.fails (.refl hI) hrun
        | true =>
          simp only [if_true, run_pure, Option.some.injEq, Prod.mk.injEq] at hrun
          obtain ⟨⟨rfl, rfl⟩, rfl⟩ := hrun
          refine ⟨.refl hI, fun d hd => ⟨Option.some.inj hd, hw.up hI hD₁, by simp, ?_⟩⟩
          rw [parts, if_pos hrem, resolve_cons (hgo .refl) fun h => by simp [hname] at h, resolve]
      · rw [if_neg hrem] at hrun
        exact hw.goesOn hlen' hrem (.refl hI) hD₁ hgo (fun h => by simp [hname] at h)
          (ih hI hlen' (atName_remainder hrem) hD₁ hrun)
    rw [makeLoop] at hr
    by_cases htr : trailing s = true ∧ dir = false
    · rw [if_pos htr] at hr
      exact Walked.fails (.refl hI) hr
    rw [if_neg htr] at hr
    by_cases hdot : component s = ['.']
    · rw [if_pos hdot] at hr
      have hof : Part.of (component s) = .dot := by rw [Part.of, if_pos hdot]
      exact hstep (by rw [hof]; rfl) hD (fun _ => by rw [hof]; rfl) hr
    rw [if_neg hdot] at hr
    by_cases hdd : component s = ['.', '.']
    · obtain ⟨nd₁, hc, hD₁⟩ := hw.climb hI hD
      rw [if_pos hdd, run_bind, run_followDotdot hc, Option.bind_some] at hr
      have hof : Part.of (component s) = .dotdot := by rw [Part.of, if_neg hdot, if_pos hdd]
      refine hstep (by rw [hof]; rfl) hD₁ (fun hext => ?_) hr
      rw [hof, goTo, climb_grown (hw.wf hI) hext.toGrown hlt (hw.mnt hI hD), hc]
    rw [if_neg hdd] at hr
    have hof : Part.of (component s) = .name (component s) := by
      rw [Part.of, if_neg hdot, if_neg hdd]
    obtain ⟨o₁, st₁, hmake, hrest⟩ := run_bind_some hr
    clear hr
    obtain ⟨hwalk, hplace⟩ := hw.walked_lookupOrMake hI hD (hs.validName hdot hdd) hmake
    by_cases hrem : remainder s = []
    · simp only [hrem, decide_true, Bool.true_and] at hwalk
      cases o₁ with
      | none =>
        have hparts : parts (n + 1) s = [.name (component s)] := by rw [parts, if_pos hrem, hof]
        rw [hparts]
        exact (hwalk.of_none _ _).fails hrest
      | some nd₁ =>
        obtain ⟨hP, hlook⟩ := hplace nd₁ rfl
        dsimp only at hrest
        rw [if_neg (not_not.mpr hrem)] at hrest
        exact hw.arrives_last hI hof hrem htr hwalk hP hlook hrest
    · have hfile : (remainder s = [] && !dir) = false := by simp [hrem]
      have hsub : [.name (component s)] ⊆ (parts (n + 1) s).dropLast := by
        rw [dropLast_parts_cons hlen' hrem, hof]
        exact List.cons_subset_cons _ (List.nil_subset _)
      rw [hfile] at hwalk
      have hin : ∀ {b}, Walked t mode I D (parts (n + 1) s) b none st st₁ := hwalk.inner hsub
      cases o₁ with
      | none => exact hin.fails hrest
      | some nd₁ =>
        obtain ⟨hP, hlook⟩ := hplace nd₁ rfl
        dsimp only at hrest
        rw [if_pos hrem, run_bind, run_isDir, Option.bind_some] at hrest
        by_cases hd : (st₁.dentry nd₁.dentry).dIsdir = true
        · rw [if_pos hd] at hrest
          have hD₁ : D st₁ nd₁ := hw.down hwalk.inv hP hd
          refine hw.goesOn hlen' hrem hin hD₁ (fun hext => ?_) (fun _ => hd)
            (ih hwalk.inv hlen' (atName_remainder hrem) hD₁ hrest)
          rw [hof, goTo]
          exact look_extends (hw.wf hwalk.inv) hext (hlt.trans_le hwalk.ext.size_le) hlook
        · rw [if_neg hd] at hrest
          exact hin.fails hrest

theorem Walkable.walked_makePath (hw : Walkable t mode I P D) (hI : I st)
    (hD : D st (start st t path))
    (hr : run (makePath t path dir mode) st = some ((o, nd'), st')) :
    Walked t mode I D (partsOf path) (!dir) o st st' ∧ ∀ d, o = some d →
      Ends P dir (dir || wantsDir path) (partsOf path) st' (start st t path) nd' d := by
  rw [makePath, run_bind, run_startOf, Option.bind_some] at hr
  change run (if relative path = [] then _ else _) st = _ at hr
  by_cases hrel : relative path = []
  · rw [if_pos hrel] at hr
    simp only [run_pure, Option.some.injEq, Prod.mk.injEq] at hr
    obtain ⟨⟨rfl, rfl⟩, rfl⟩ := hr
    refine ⟨.refl hI, fun d hd => ?_⟩
    cases dir with
    | false => cases hd
    | true =>
      refine ⟨Option.some.inj hd, hw.up hI hD, fun h => (by cases h), ?_⟩
      rw [partsOf, hrel]
      rfl
  · rw [if_neg hrel] at hr
    exact hw.walked_makeLoop hI le_rfl (atName_dropWhile hrel) hD hr

end Rule

end NSOS.Vfs
