import NSOS.Vfs.Asking

/-! # The first question of a walk

A walk goes along entries in memory up to the first name that is not there.
Before it asks the driver for that name, it changes nothing and makes no
request. Whatever it does later, new entries of directories stay.
-/

namespace NSOS.Vfs.Scarce

open Basis Prog

section Later

/-- A later state of a walk. What walks rely on still holds, and new entries have stayed. -/
structure Later (st st' : State) : Prop where
  inv : Inv st'
  orderly : Orderly st'
  thread : st'.thread = st.thread
  place : ∀ {nd}, DirAt st nd → DirAt st' nd
  raised : ∀ {d n}, Raised d n st → Raised d n st'

variable {ok : ℕ → Bool} {st st' st'' : State} {nd nd' : Nameidata} {name s : List Char}
  {t n c : ℕ} {mode : UInt16} {dir file : Bool} {k : Kind} {a : Asked State}
  {o : Option Nameidata}

theorem Later.refl (h : Inv st) (hord : Orderly st) : Later st st := ⟨h, hord, rfl, id, id⟩

theorem Later.trans (h : Later st st') (h' : Later st' st'') : Later st st'' :=
  ⟨h'.inv, h'.orderly, h'.thread.trans h.thread, fun hD => h'.place (h.place hD),
    fun hr => h'.raised (h.raised hr)⟩

theorem Later.enters (h : Inv st) (hord : Orderly st) (hD : DirAt st nd)
    (hnone : st.childNamed nd.dentry name = none) (hvalid : ValidName name)
    (he : Enters t mode st nd name k st') : Later st st' := by
  refine ⟨?_, (he.orderly hord hD hnone hvalid).1, ?_, fun hD' => ?_, fun hr => hr.enters he hD.lt⟩
  · obtain ⟨y, j, F, he⟩ := he
    exact (he.evolves h hD.lt).inv
  · obtain ⟨y, j, F, he⟩ := he
    rw [he.state_eq]
  · exact hD'.grown hord.wf (he.extends hord.wf hD.lt hnone).toGrown

theorem Later.missed (h : Inv st) (hord : Orderly st) (hD : DirAt st nd)
    (hnone : st.childNamed nd.dentry name = none) (hvalid : ValidName name)
    (hm : Missed t mode st nd name st') : Later st st' := by
  rcases hm with rfl | he
  · exact .refl h hord
  · exact .enters h hord hD hnone hvalid he

theorem look_cases (hord : Orderly st) (hD : DirAt st nd) (name : List Char) :
    (∃ nd', look st nd name = .hit nd' ∧ At st nd') ∨
      st.childNamed nd.dentry name = none ∧
        (look st nd name = .made nd name ∨ look st nd name = .absent) := by
  unfold look
  cases hc : st.childNamed nd.dentry name with
  | some d => exact .inl (hord.arrive hD hc)
  | none =>
    obtain ⟨ip, hi⟩ := Option.ne_none_iff_exists'.mp hD.inode
    refine .inr ⟨rfl, ?_⟩
    dsimp only
    unfold askDriver
    rw [hi]
    dsimp only
    split
    · exact .inl rfl
    · exact .inr rfl

theorem run_lookupOrMake_hit (hord : Orderly st) (hlt : nd.dentry < st.dentries.size)
    (hl : look st nd name = .hit nd') :
    run (lookupOrMake ok t nd name file mode) ⟨st, c⟩ = some (some nd', ⟨st, c⟩) := by
  rw [lookupOrMake, run_bind, run_doLookup_hit hord hlt hl]
  rfl

theorem later_lookupOrMake (h : Inv st) (hord : Orderly st) (hD : DirAt st nd)
    (hvalid : ValidName name)
    (hr : run (lookupOrMake ok t nd name file mode) ⟨st, c⟩ = some (o, a)) :
    Later st a.state ∧ ∀ nd', o = some nd' → At a.state nd' := by
  rcases look_cases hord hD name with ⟨nd', hl, hat⟩ | ⟨hnone, -⟩
  · obtain ⟨rfl, rfl⟩ := run_inj hr (run_lookupOrMake_hit hord hD.lt hl)
    refine ⟨.refl h hord, fun nd₁ hnd => ?_⟩
    obtain rfl := Option.some.inj hnd
    exact hat
  by_cases hmiss : Misses ok c st nd name
  · obtain ⟨st₁, hslow, hm⟩ := run_slowLookup_misses t mode hD hmiss
    obtain ⟨hdenied, hyes⟩ := run_lookupOrMake_missed file h hord hD hnone hm hslow
    have hlater : Later st st₁ := .missed h hord hD hnone hvalid hm
    by_cases hacl : Writable st t nd.dentry
    case neg =>
      obtain ⟨rfl, rfl⟩ := Prod.mk.inj (Option.some.inj ((hdenied hacl).symm.trans hr))
      exact ⟨hlater, fun nd₁ hnd => by cases hnd⟩
    have hnone₁ := (hm.childNamed (s := name) hord.wf hD.lt hD.lt).trans hnone
    have hD₁ := hlater.place hD
    rw [hyes hacl, costs_makeEntry] at hr
    obtain ⟨-, hr⟩ := Option.ite_none_right_eq_some.mp hr
    obtain ⟨m, -, hmnt, -⟩ := hD.mnt
    obtain ⟨k, st₂, y, j, F, -, he, -, hrun⟩ := run_makeEntry_makes st₁ t name file mode hmnt
    have he : Enters t mode st₁ nd name k st₂ := ⟨y, j, F, he⟩
    rw [hrun] at hr
    obtain ⟨rfl, rfl⟩ := Prod.mk.inj (Option.some.inj hr)
    refine ⟨hlater.trans (.enters hlater.inv hlater.orderly hD₁ hnone₁ hvalid he), ?_⟩
    intro nd₁ hnd
    obtain ⟨hk, hnd⟩ := Option.ite_none_left_eq_some.mp hnd
    obtain rfl := Option.some.inj hnd
    exact (he.orderly hlater.orderly hD₁ hnone₁ hvalid).2 hk
  · rw [lookupOrMake, run_bind, run_doLookup_none hord hD.lt hnone] at hr
    obtain ⟨⟨r, s₁⟩, hslow, hrest⟩ := Option.bind_eq_some_iff.mp hr
    obtain ⟨rfl, -, -, he⟩ := slowLookup_finds t mode hD hmiss hslow
    obtain ⟨rfl, rfl⟩ := Prod.mk.inj (Option.some.inj hrest)
    refine ⟨.enters h hord hD hnone hvalid he, fun nd₁ hnd => ?_⟩
    obtain rfl := Option.some.inj hnd
    exact (he.orderly hord hD hnone hvalid).2 (by simp)

theorem Later.rest {a₁ : Asked State} {r : Option ℕ × Nameidata} (h : Inv a₁.state)
    (hord : Orderly a₁.state) (hat : At a₁.state nd)
    (hgo : remainder s ≠ [] → DirAt a₁.state nd →
      run (makeLoop ok t dir mode n (remainder s) nd) a₁ = some (r, a) → Later a₁.state a.state)
    (hr : run (if remainder s ≠ [] then do
        if ← isDir nd then makeLoop ok t dir mode n (remainder s) nd else return (none, nd)
      else do
        if (← isDir nd) = dir then return (some nd.dentry, nd) else return (none, nd) :
          Code (Option ℕ × Nameidata)) a₁ = some (r, a)) : Later a₁.state a.state := by
  have hend : ∀ {x : Option ℕ × Nameidata},
      run (pure x : Code (Option ℕ × Nameidata)) a₁ = some (r, a) → Later a₁.state a.state := by
    intro x hrun
    obtain ⟨-, rfl⟩ := Prod.mk.inj (Option.some.inj hrun)
    exact .refl h hord
  by_cases hrem : remainder s = []
  · rw [if_neg (not_not.mpr hrem), run_liftM_bind run_isDir] at hr
    split at hr
    · exact hend hr
    · exact hend hr
  · rw [if_pos hrem, run_liftM_bind run_isDir] at hr
    by_cases hdir : (a₁.state.dentry nd.dentry).dIsdir = true
    · rw [if_pos hdir] at hr
      exact hgo hrem ⟨hat, hdir⟩ hr
    · rw [if_neg hdir] at hr
      exact hend hr

/-- The loop of `make_path` goes from one component to the next. -/
theorem later_makeLoop {r : Option ℕ × Nameidata} (h : Inv st) (hord : Orderly st)
    (hn : s.length ≤ n) (hs : AtName s) (hD : DirAt st nd)
    (hr : run (makeLoop ok t dir mode n s nd) ⟨st, c⟩ = some (r, a)) : Later st a.state := by
  induction n generalizing s nd st c with
  | zero => exact absurd (List.length_eq_zero_iff.mp (Nat.le_zero.mp hn)) hs.1
  | succ n ih =>
    have hlen := length_remainder_lt hs.1
    -- A part that needs no lookup.
    have hstep : ∀ {nd₁}, DirAt st nd₁ →
        run (if remainder s = [] then return (if dir then some nd₁.dentry else none, nd₁)
          else makeLoop ok t dir mode n (remainder s) nd₁) ⟨st, c⟩ = some (r, a) →
          Later st a.state := by
      intro nd₁ hD₁ hrun
      by_cases hrem : remainder s = []
      · rw [if_pos hrem] at hrun
        obtain ⟨-, rfl⟩ := Prod.mk.inj (Option.some.inj hrun)
        exact .refl h hord
      · rw [if_neg hrem] at hrun
        exact ih h hord (by omega) (atName_remainder hrem) hD₁ hrun
    rw [makeLoop] at hr
    by_cases htr : trailing s = true ∧ dir = false
    · rw [if_pos htr] at hr
      obtain ⟨-, rfl⟩ := Prod.mk.inj (Option.some.inj hr)
      exact .refl h hord
    rw [if_neg htr] at hr
    by_cases hdot : component s = ['.']
    · rw [if_pos hdot] at hr
      exact hstep hD hr
    rw [if_neg hdot] at hr
    by_cases hdd : component s = ['.', '.']
    · obtain ⟨nd₁, hc, hD₁⟩ := hord.climb hD
      rw [if_pos hdd, run_liftM_bind (run_followDotdot hc)] at hr
      exact hstep hD₁ hr
    rw [if_neg hdd] at hr
    obtain ⟨o, a₁, hmake, hrest⟩ := run_bind_some hr
    obtain ⟨hlater, hplace⟩ := later_lookupOrMake h hord hD (hs.validName hdot hdd) hmake
    cases o with
    | none =>
      obtain ⟨-, rfl⟩ := Prod.mk.inj (Option.some.inj hrest)
      exact hlater
    | some nd₁ =>
      apply hlater.trans
      apply Later.rest hlater.inv hlater.orderly (hplace nd₁ rfl) _ hrest
      intro hrem hD₁ hrun
      exact ih hlater.inv hlater.orderly (by omega) (atName_remainder hrem) hD₁ hrun

end Later

section Question

/-- A name that is not in memory, the directory in which it is looked for, and whether the path
ends there. -/
structure Question where
  nd : Nameidata
  name : List Char
  last : Bool
  deriving DecidableEq

/-- The first name on the way along the parts of a path that is not in memory. -/
def question (st : State) : List Part → Nameidata → Option Question
  | [], _ => none
  | .dot :: ps, nd => question st ps nd
  | .dotdot :: ps, nd =>
    match climb st nd with
    | .hit nd' => question st ps nd'
    | _ => none
  | .name s :: ps, nd =>
    match look st nd s with
    | .hit nd' => if (st.dentry nd'.dentry).dIsdir then question st ps nd' else none
    | .stuck => none
    | _ => some ⟨nd, s, ps = []⟩

def lookupQuestion (st : State) (t : ℕ) (path : List Char) : Option Question :=
  question st (partsOf path) (start st t path)

/-- The question that `make_path` asks. It wants no file behind a slash. -/
def makeQuestion (st : State) (t : ℕ) (path : List Char) (dir : Bool) : Option Question :=
  (lookupQuestion st t path).filter fun q => dir || !(q.last && wantsDir path)

/-- The driver of a directory may be asked. -/
structure Question.Open (st : State) (q : Question) : Prop where
  place : DirAt st q.nd
  absent : st.childNamed q.nd.dentry q.name = none
  valid : ValidName q.name

abbrev Outcome := Option ((Option ℕ × Nameidata) × Asked State)

/-- A walk makes no request and changes nothing, or it comes to an open question first. -/
def Walks (st : State) (After : Question → (ℕ → Bool) → ℕ → Outcome → Prop) :
    Option Question → ((ℕ → Bool) → ℕ → Outcome) → Prop
  | none, r => ∃ x, ∀ ok c, r ok c = some (x, ⟨st, c⟩)
  | some q, r => q.Open st ∧ ∀ ok c, After q ok c (r ok c)

/-- How `path_lookup` goes on behind the lookup for a question. -/
def AfterLookup (l : Option ((Bool × Nameidata) × Asked State)) (r : Outcome) : Prop :=
  match l with
  | none => r = none
  | some ((true, nd), a) => r = some ((none, nd), a)
  | some ((false, nd), a) => (a.state.dentry nd.dentry).dIsdir = false →
    ∃ o, r = some ((o, nd), a) ∧ ∀ d, o = some d → d = nd.dentry

/-- How `make_path` goes on behind the lookup for a question. -/
def AfterMake (l : Option (Option Nameidata × Asked State)) (r : Outcome) : Prop :=
  match l with
  | none => r = none
  | some (none, a) => ∃ nd, r = some ((none, nd), a)
  | some (some nd, a) => Inv a.state → Orderly a.state → At a.state nd →
    ∀ x b, r = some (x, b) → Later a.state b.state

variable {ok : ℕ → Bool} {st : State} {nd nd' : Nameidata} {s path : List Char} {t n c : ℕ}
  {mode : UInt16} {dir : Bool} {ps : List Part} {q : Question} {o : Option Question}
  {After : Question → (ℕ → Bool) → ℕ → Outcome → Prop}

theorem question_name (hl : look st nd s = .made nd s ∨ look st nd s = .absent) :
    question st (.name s :: ps) nd = some ⟨nd, s, ps = []⟩ := by
  rw [question]
  rcases hl with hl | hl
  · rw [hl]
  · rw [hl]

theorem question_hit (hl : look st nd s = .hit nd') : question st (.name s :: ps) nd =
    if (st.dentry nd'.dentry).dIsdir then question st ps nd' else none := by
  rw [question, hl]

theorem question_dotdot (hc : climb st nd = .hit nd') :
    question st (.dotdot :: ps) nd = question st ps nd' := by
  rw [question, hc]

theorem part_of_name (hdot : s ≠ ['.']) (hdd : s ≠ ['.', '.']) : Part.of s = .name s := by
  rw [Part.of, if_neg hdot, if_neg hdd]

theorem walks_end {p : Bool → Prop} [DecidablePred p] {x y : Option ℕ × Nameidata} :
    Walks st After none fun _ c =>
      run (do if p (← isDir nd) then return x else return y : Code (Option ℕ × Nameidata))
        ⟨st, c⟩ := by
  refine ⟨if p (st.dentry nd.dentry).dIsdir then x else y, fun ok c => ?_⟩
  dsimp only
  rw [run_liftM_bind run_isDir]
  split
  · rfl
  · rfl

theorem walks_descend {k : (ℕ → Bool) → Code (Option ℕ × Nameidata)} (hat : At st nd)
    (hk : DirAt st nd → Walks st After o fun ok c => run (k ok) ⟨st, c⟩) :
    Walks st After (if (st.dentry nd.dentry).dIsdir then o else none) fun ok c =>
      run (do if ← isDir nd then k ok else return (none, nd) : Code (Option ℕ × Nameidata))
        ⟨st, c⟩ := by
  simp only [run_bind, run_liftM, run_isDir, Option.map_some, Option.bind_some]
  by_cases hdir : (st.dentry nd.dentry).dIsdir = true
  · simp only [if_pos hdir]
    exact hk ⟨hat, hdir⟩
  · simp only [if_neg hdir]
    exact ⟨_, fun ok c => rfl⟩

theorem afterLookup_bind {k : Bool × Nameidata → Code (Option ℕ × Nameidata)}
    (hord : Orderly st) (hlt : nd.dentry < st.dentries.size)
    (hnone : st.childNamed nd.dentry s = none) (hfail : ∀ nd, k (true, nd) = pure (none, nd))
    (hfile : ∀ nd a, (a.state.dentry nd.dentry).dIsdir = false →
      ∃ o, run (k (false, nd)) a = some ((o, nd), a) ∧ ∀ d, o = some d → d = nd.dentry) :
    AfterLookup (run (slowLookup ok nd s) ⟨st, c⟩) (run (doLookup ok nd s >>= k) ⟨st, c⟩) := by
  rw [run_bind, run_doLookup_none hord hlt hnone]
  cases run (slowLookup ok nd s) ⟨st, c⟩ with
  | none => rfl
  | some x =>
    obtain ⟨⟨failed, nd₁⟩, a⟩ := x
    cases failed with
    | true =>
      rw [Option.bind_some, hfail]
      rfl
    | false => exact hfile nd₁ a

theorem afterMake_bind {m : Code (Option Nameidata)}
    {k : Option Nameidata → Code (Option ℕ × Nameidata)} (hnone : k none = pure (none, nd))
    (hsome : ∀ nd a x b, Inv a.state → Orderly a.state → At a.state nd →
      run (k (some nd)) a = some (x, b) → Later a.state b.state) :
    AfterMake (run m ⟨st, c⟩) (run (m >>= k) ⟨st, c⟩) := by
  rw [run_bind]
  cases run m ⟨st, c⟩ with
  | none => rfl
  | some r =>
    obtain ⟨o, a⟩ := r
    cases o with
    | none =>
      rw [Option.bind_some, hnone]
      exact ⟨nd, rfl⟩
    | some nd₁ => exact fun hinv hord hat x b hr => hsome nd₁ a x b hinv hord hat hr

/-- `path_lookup` up to its question. -/
theorem walks_pathLoop (hord : Orderly st) (hn : s.length ≤ n) (hs : AtName s)
    (hD : DirAt st nd) :
    Walks st (fun q ok c => AfterLookup (run (slowLookup ok q.nd q.name) ⟨st, c⟩))
      (question st (parts n s) nd) fun ok c => run (pathLoop ok n s dir nd) ⟨st, c⟩ := by
  induction n generalizing s dir nd with
  | zero => exact absurd (List.length_eq_zero_iff.mp (Nat.le_zero.mp hn)) hs.1
  | succ n ih =>
    have hlen := length_remainder_lt hs.1
    -- A part that needs no lookup.
    have hstep : ∀ {nd₁}, DirAt st nd₁ →
        Walks st (fun q ok c => AfterLookup (run (slowLookup ok q.nd q.name) ⟨st, c⟩))
          (question st (if remainder s = [] then [] else parts n (remainder s)) nd₁) fun ok c =>
          run (if remainder s = [] then return (some nd₁.dentry, nd₁)
            else pathLoop ok n (remainder s) (dir || trailing s) nd₁) ⟨st, c⟩ := by
      intro nd₁ hD₁
      by_cases hrem : remainder s = []
      · simp only [if_pos hrem]
        exact ⟨_, fun ok c => rfl⟩
      · simp only [if_neg hrem]
        exact ih (by omega) (atName_remainder hrem) hD₁
    unfold pathLoop parts
    by_cases hdot : component s = ['.']
    · simp only [Part.of, if_pos hdot]
      exact hstep hD
    simp only [if_neg hdot]
    by_cases hdd : component s = ['.', '.']
    · obtain ⟨nd₁, hc, hD₁⟩ := hord.climb hD
      simp only [Part.of, if_neg hdot, if_pos hdd, run_bind, run_liftM, run_followDotdot hc,
        Option.map_some, Option.bind_some]
      rw [question_dotdot hc]
      exact hstep hD₁
    simp only [if_neg hdd]
    rw [part_of_name hdot hdd]
    rcases look_cases hord hD (component s) with ⟨nd₁, hl, hat⟩ | ⟨hnone, hl⟩
    · rw [question_hit hl]
      simp only [run_bind, run_doLookup_hit hord hD.lt hl, Option.bind_some, Bool.false_eq_true,
        if_false]
      by_cases hrem : remainder s = []
      · simp only [hrem, ne_eq, not_true_eq_false, if_true, if_false]
        rw [question, ite_self]
        exact walks_end
      · simp only [hrem, ne_eq, not_false_eq_true, if_true, if_false]
        apply walks_descend hat
        exact fun hD₁ => ih (by omega) (atName_remainder hrem) hD₁
    · rw [question_name hl]
      refine ⟨⟨hD, hnone, hs.validName hdot hdd⟩, fun ok c => ?_⟩
      apply afterLookup_bind hord hD.lt hnone (fun _ => rfl)
      intro nd₁ a hfile
      simp only [Bool.false_eq_true, if_false]
      by_cases hrem : remainder s = []
      · rw [if_neg (not_not.mpr hrem), run_liftM_bind run_isDir]
        split
        · exact ⟨none, rfl, fun d hd => by cases hd⟩
        · exact ⟨some nd₁.dentry, rfl, fun d hd => (Option.some.inj hd).symm⟩
      · rw [if_pos hrem, run_liftM_bind run_isDir, hfile, if_neg Bool.false_ne_true]
        exact ⟨none, rfl, fun d hd => by cases hd⟩

theorem filter_question (htr : trailing s = true) (hrem : remainder s = []) :
    (question st [Part.of (component s)] nd).filter
      (fun q => false || !(q.last && slashed (n + 1) s)) = none := by
  have hslash : slashed (n + 1) s = true := by rw [slashed, if_pos hrem, htr]
  rw [hslash]
  cases hq : question st [Part.of (component s)] nd with
  | none => rfl
  | some q =>
    have hlast : q.last = true := by
      cases hp : Part.of (component s) with
      | dot =>
        rw [hp, question, question] at hq
        cases hq
      | dotdot =>
        rw [hp, question] at hq
        split at hq
        · rw [question] at hq
          cases hq
        · cases hq
      | name s =>
        rw [hp, question] at hq
        split at hq
        · rw [question, ite_self] at hq
          cases hq
        · cases hq
        · obtain rfl := Option.some.inj hq
          rfl
    rw [Option.filter, hlast]
    rfl

/-- `make_path` up to its question. -/
theorem walks_makeLoop (hord : Orderly st) (hn : s.length ≤ n) (hs : AtName s)
    (hD : DirAt st nd) :
    Walks st (fun q ok c =>
        AfterMake (run (lookupOrMake ok t q.nd q.name (q.last && !dir) mode) ⟨st, c⟩))
      ((question st (parts n s) nd).filter fun q => dir || !(q.last && slashed n s)) fun ok c =>
      run (makeLoop ok t dir mode n s nd) ⟨st, c⟩ := by
  induction n generalizing s nd with
  | zero => exact absurd (List.length_eq_zero_iff.mp (Nat.le_zero.mp hn)) hs.1
  | succ n ih =>
    have hlen := length_remainder_lt hs.1
    have hslash : remainder s ≠ [] → slashed (n + 1) s = slashed n (remainder s) := fun hrem => by
      rw [slashed, if_neg hrem]
    -- A part that needs no lookup.
    have hstep : ∀ {nd₁}, DirAt st nd₁ →
        Walks st (fun q ok c =>
            AfterMake (run (lookupOrMake ok t q.nd q.name (q.last && !dir) mode) ⟨st, c⟩))
          ((question st (if remainder s = [] then [] else parts n (remainder s)) nd₁).filter
            fun q => dir || !(q.last && slashed (n + 1) s)) fun ok c =>
          run (if remainder s = [] then return (if dir then some nd₁.dentry else none, nd₁)
            else makeLoop ok t dir mode n (remainder s) nd₁) ⟨st, c⟩ := by
      intro nd₁ hD₁
      by_cases hrem : remainder s = []
      · simp only [if_pos hrem]
        exact ⟨_, fun ok c => rfl⟩
      · simp only [if_neg hrem, hslash hrem]
        exact ih (by omega) (atName_remainder hrem) hD₁
    unfold makeLoop parts
    by_cases htr : trailing s = true ∧ dir = false
    · obtain ⟨htr, rfl⟩ := htr
      have hrem : remainder s = [] := by
        by_contra hrem
        rw [trailing_of_remainder hrem] at htr
        cases htr
      simp only [hrem, if_true, htr, and_self]
      rw [filter_question htr hrem]
      exact ⟨_, fun ok c => rfl⟩
    simp only [if_neg htr]
    by_cases hdot : component s = ['.']
    · simp only [Part.of, if_pos hdot]
      exact hstep hD
    simp only [if_neg hdot]
    by_cases hdd : component s = ['.', '.']
    · obtain ⟨nd₁, hc, hD₁⟩ := hord.climb hD
      simp only [Part.of, if_neg hdot, if_pos hdd, run_bind, run_liftM, run_followDotdot hc,
        Option.map_some, Option.bind_some]
      rw [question_dotdot hc]
      exact hstep hD₁
    simp only [if_neg hdd]
    rw [part_of_name hdot hdd]
    rcases look_cases hord hD (component s) with ⟨nd₁, hl, hat⟩ | ⟨hnone, hl⟩
    · rw [question_hit hl]
      simp only [run_bind, run_lookupOrMake_hit hord hD.lt hl, Option.bind_some]
      by_cases hrem : remainder s = []
      · simp only [hrem, ne_eq, not_true_eq_false, if_true, if_false]
        rw [question, ite_self]
        exact walks_end
      · simp only [hrem, ne_eq, not_false_eq_true, if_true, if_false]
        rw [apply_ite fun q => Option.filter _ q, hslash hrem]
        apply walks_descend hat
        exact fun hD₁ => ih (by omega) (atName_remainder hrem) hD₁
    · have hlast : ((if remainder s = [] then [] else parts n (remainder s)) = []) ↔
          remainder s = [] := by
        by_cases hrem : remainder s = []
        · simp [hrem]
        · simpa [hrem] using parts_ne_nil (by omega) hrem
      have hkeep : (dir || !(decide (remainder s = []) && slashed (n + 1) s)) = true := by
        by_cases hrem : remainder s = []
        · rw [slashed, if_pos hrem]
          cases dir with
          | true => rfl
          | false =>
            have hno : trailing s = false := Bool.eq_false_iff.mpr fun ht => htr ⟨ht, rfl⟩
            rw [hno, Bool.and_false]
            rfl
        · simp [hrem]
      rw [question_name hl]
      simp only [hlast, Option.filter, hkeep, if_true]
      refine ⟨⟨hD, hnone, hs.validName hdot hdd⟩, fun ok c => ?_⟩
      apply afterMake_bind rfl
      intro nd₁ a r b hinv hord₁ hat hr
      apply Later.rest hinv hord₁ hat _ hr
      intro hrem hD₁ hrun
      exact later_makeLoop hinv hord₁ (by omega) (atName_remainder hrem) hD₁ hrun

theorem walks_pathLookup (dir : Bool) (hord : Orderly st) (hD : DirAt st (start st t path)) :
    Walks st (fun q ok c => AfterLookup (run (slowLookup ok q.nd q.name) ⟨st, c⟩))
      (lookupQuestion st t path) fun ok c => run (pathLookup ok t path dir) ⟨st, c⟩ := by
  simp only [pathLookup, run_bind, run_liftM, run_startOf, Option.map_some, Option.bind_some]
  unfold lookupQuestion partsOf
  by_cases hrel : relative path = []
  · rw [hrel]
    simp only [show path.dropWhile (· = '/') = [] from hrel, if_true]
    exact ⟨_, fun ok c => rfl⟩
  · simp only [show path.dropWhile (· = '/') ≠ [] from hrel, if_false]
    exact walks_pathLoop hord le_rfl (atName_dropWhile hrel) hD

theorem walks_makePath (t : ℕ) (dir : Bool) (mode : UInt16) (hord : Orderly st)
    (hD : DirAt st (start st t path)) :
    Walks st (fun q ok c =>
        AfterMake (run (lookupOrMake ok t q.nd q.name (q.last && !dir) mode) ⟨st, c⟩))
      (makeQuestion st t path dir) fun ok c => run (makePath ok t path dir mode) ⟨st, c⟩ := by
  simp only [makePath, run_bind, run_liftM, run_startOf, Option.map_some, Option.bind_some]
  unfold makeQuestion lookupQuestion partsOf wantsDir
  by_cases hrel : relative path = []
  · rw [hrel]
    simp only [show path.dropWhile (· = '/') = [] from hrel, if_true]
    exact ⟨_, fun ok c => rfl⟩
  · simp only [show path.dropWhile (· = '/') ≠ [] from hrel, if_false]
    exact walks_makeLoop hord le_rfl (atName_dropWhile hrel) hD

/-- After a lookup that has found nothing, the same question comes up again. -/
theorem Missed.question {e : Nameidata} {name : List Char} {st' : State}
    (hm : Missed t mode st e name st') (hord : Orderly st) (hlater : Later st st')
    (he : e.dentry < st.dentries.size) (hnone : st.childNamed e.dentry name = none)
    (hD : DirAt st nd) (ps : List Part) : question st' ps nd = question st ps nd := by
  have hext : Namespace.Extends st.toNamespace st'.toNamespace := by
    rcases hm with rfl | henter
    · exact .refl
    · exact henter.extends hord.wf he hnone
  induction ps generalizing nd with
  | nil => rfl
  | cons p ps ih =>
    cases p with
    | dot => exact ih hD
    | dotdot =>
      obtain ⟨nd₁, hc, hD₁⟩ := hord.climb hD
      have hmnt : ∃ m < st.mounts.size, nd.mnt = some m := by
        obtain ⟨m, hlt, hnd, -⟩ := hD.mnt
        exact ⟨m, hlt, hnd⟩
      have hc' := (climb_grown hord.wf hext.toGrown hD.lt hmnt).trans hc
      rw [question_dotdot hc, question_dotdot hc']
      exact ih hD₁
    | name s =>
      rcases look_cases hord hD s with ⟨nd₁, hl, hat⟩ | ⟨hnone₁, hl⟩
      · rw [question_hit hl, question_hit (look_extends hord.wf hext hD.lt hl),
          hm.spared.dentry hat.lt]
        by_cases hdir : (st.dentry nd₁.dentry).dIsdir = true
        · rw [if_pos hdir, if_pos hdir]
          exact ih ⟨hat, hdir⟩
        · rw [if_neg hdir, if_neg hdir]
      · have hnone₂ : st'.childNamed nd.dentry s = none :=
          (hm.childNamed hord.wf he hD.lt).trans hnone₁
        rw [question_name hl]
        rcases look_cases hlater.orderly (hlater.place hD) s with ⟨nd₁, hl', -⟩ | ⟨-, hl'⟩
        · rw [look, hnone₂] at hl'
          dsimp only at hl'
          unfold askDriver at hl'
          split at hl'
          · cases hl'
          · split at hl' <;> cases hl'
        · exact question_name hl'

end Question

end NSOS.Vfs.Scarce
