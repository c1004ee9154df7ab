import NSOS.Vfs.Granted
import NSOS.Vfs.Scarce
import NSOS.Vfs.Spared

/-! # Asking a driver on scarce memory

A walk goes along entries in memory up to the first name that is not there.
Before that it changes nothing and does not allocate. The lookup that asks the
driver fails where one of its checked allocations is refused.
-/

namespace NSOS.Vfs.Scarce

open Basis Prog

section Lookups

variable {ok : ℕ → Bool} {st : State} {nd nd' : Nameidata} {name : List Char} {t ip c : ℕ}
  {mode : UInt16} {file : Bool}

theorem costs_makeEntry : Costs ok 3 (makeEntry ok t nd name file mode)
    (Vfs.makeEntry t nd name file mode) := by
  unfold makeEntry Vfs.makeEntry
  refine .plain .liftM fun fs => .unchecked fun newinode => ?_
  refine .plain (.gets fun _ => rfl) fun uid => .plain (.gets fun _ => rfl) fun gid => ?_
  refine .plain .liftM fun _ => ?_
  refine .granted (.unchecked fun newdentry => Plain.costs ?_)
  refine .bind (.gets fun _ => rfl) fun iop => .bind .liftM fun failed => .ite ?_ ?_
  · exact .bind .liftM fun _ => .bind .liftM fun _ => .pure _
  · exact .bind .liftM fun _ => .pure _

/-- A lookup that asks the driver fails when one of its first two requests is refused, and halts
the machine when the third one is. -/
theorem run_slowLookup (hi : (st.dentry nd.dentry).dInode = some ip) :
    run (slowLookup ok nd name) ⟨st, c⟩ =
      if ok c then
        if ok (c + 1) then
          if ok (c + 2) then
            (run (Vfs.slowLookup nd name) st).map fun r => (r.1, ⟨r.2, c + 3⟩)
          else none
        else some ((true, nd), ⟨st, c + 2⟩)
      else some ((true, nd), ⟨st, c + 1⟩) := by
  rw [slowLookup, run_bind, run_gets, Option.bind_some, hi, run_bind, run_demand, Option.map_some,
    Option.bind_some, run_bind, run_gets, Option.bind_some, run_bind, run_granted,
    Option.bind_some]
  dsimp only
  split
  case isFalse => rfl
  rw [run_bind, run_granted, Option.bind_some]
  dsimp only
  split
  case isFalse => rfl
  conv_rhs =>
    rw [Vfs.slowLookup, run_bind, run_gets, Option.bind_some, hi, run_bind, run_demand,
      Option.map_some, Option.bind_some, run_bind, run_gets, Option.bind_some]
  refine Costs.run_one (.plain .liftM fun fs => .plain .liftM fun denit =>
    .unchecked fun newinode => Plain.costs (.bind .liftM fun found => .ite ?_ ?_))
  · exact .bind .liftM fun _ => .pure _
  · exact .bind .liftM fun _ => .bind .liftM fun _ => .bind .liftM fun _ => .pure _

theorem run_doLookup_hit (h : Orderly st) (hlt : nd.dentry < st.dentries.size)
    (hl : look st nd name = .hit nd') :
    run (doLookup ok nd name) ⟨st, c⟩ = some ((false, nd'), ⟨st, c⟩) := by
  rw [doLookup, run_liftM_bind (run_findEntry h.wf hlt)]
  unfold look at hl
  cases hd : st.childNamed nd.dentry name with
  | none =>
    rw [hd] at hl
    dsimp only at hl
    unfold askDriver at hl
    split at hl
    · cases hl
    · split at hl <;> cases hl
  | some d =>
    rw [hd] at hl
    exact run_liftM_bind (run_enter h.wf hl)

theorem run_doLookup_none (h : Orderly st) (hlt : nd.dentry < st.dentries.size)
    (hnone : st.childNamed nd.dentry name = none) :
    run (doLookup ok nd name) ⟨st, c⟩ = run (slowLookup ok nd name) ⟨st, c⟩ := by
  rw [doLookup, run_liftM_bind (run_findEntry h.wf hlt), hnone]

/-- The lookup that asks the driver reports that there is no entry: one of its checked requests is
refused, or the driver has none. -/
def Misses (ok : ℕ → Bool) (c : ℕ) (st : State) (nd : Nameidata) (name : List Char) : Prop :=
  ¬ (ok c = true ∧ ok (c + 1) = true) ∨
    ok (c + 2) = true ∧ Reference.supplies st nd name = false

instance : Decidable (Misses ok c st nd name) := inferInstanceAs (Decidable (_ ∨ _))

def lookupAsks (ok : ℕ → Bool) (c : ℕ) : ℕ := if ok c then if ok (c + 1) then 3 else 2 else 1

/-- A lookup has found nothing. It was refused a request, or the driver had no entry. -/
def Missed (t : ℕ) (mode : UInt16) (st : State) (nd : Nameidata) (name : List Char)
    (st' : State) : Prop := st' = st ∨ Enters t mode st nd name .lost st'

theorem run_slowLookup_supplies (t : ℕ) (mode : UInt16) (hD : DirAt st nd) (name : List Char) :
    ∃ st', if Reference.supplies st nd name then
        run (Vfs.slowLookup nd name) st = some ((false, ⟨st.dentries.size, nd.mnt⟩), st') ∧
          Enters t mode st nd name .cached st'
      else run (Vfs.slowLookup nd name) st = some ((true, nd), st') ∧
        Enters t mode st nd name .lost st' := by
  obtain ⟨ip, hi⟩ := Option.ne_none_iff_exists'.mp hD.inode
  obtain ⟨m, -, hm, -⟩ := hD.mnt
  have hsup : Reference.supplies st nd name =
      (driverEntry st (st.inode ip).iOp nd.dentry name).isSome := by
    rw [Reference.supplies, hi]
  rw [hsup]
  exact run_slowLookup_enters t mode name hD.lt hm hi

theorem run_slowLookup_misses (t : ℕ) (mode : UInt16) (hD : DirAt st nd)
    (hmiss : Misses ok c st nd name) : ∃ st',
      run (slowLookup ok nd name) ⟨st, c⟩ = some ((true, nd), ⟨st', c + lookupAsks ok c⟩) ∧
        Missed t mode st nd name st' := by
  obtain ⟨ip, hi⟩ := Option.ne_none_iff_exists'.mp hD.inode
  rw [run_slowLookup hi, lookupAsks]
  by_cases h₁ : ok c = true
  case neg =>
    rw [if_neg h₁, if_neg h₁]
    exact ⟨st, rfl, .inl rfl⟩
  by_cases h₂ : ok (c + 1) = true
  case neg =>
    rw [if_pos h₁, if_pos h₁, if_neg h₂, if_neg h₂]
    exact ⟨st, rfl, .inl rfl⟩
  rcases hmiss with hmiss | ⟨h₃, hnone⟩
  · exact absurd ⟨h₁, h₂⟩ hmiss
  rw [if_pos h₁, if_pos h₁, if_pos h₂, if_pos h₂, if_pos h₃]
  obtain ⟨st', hrun⟩ := run_slowLookup_supplies t mode hD name
  rw [hnone, if_neg Bool.false_ne_true] at hrun
  obtain ⟨hrun, he⟩ := hrun
  rw [hrun]
  exact ⟨st', rfl, .inr he⟩

theorem slowLookup_finds {r : Bool × Nameidata} {s : Asked State} (t : ℕ) (mode : UInt16)
    (hD : DirAt st nd) (hmiss : ¬ Misses ok c st nd name)
    (hr : run (slowLookup ok nd name) ⟨st, c⟩ = some (r, s)) :
    r = (false, ⟨st.dentries.size, nd.mnt⟩) ∧ s.asks = c + 3 ∧
      (∀ k < 3, ok (c + k) = true) ∧ Enters t mode st nd name .cached s.state := by
  obtain ⟨ip, hi⟩ := Option.ne_none_iff_exists'.mp hD.inode
  unfold Misses at hmiss
  push Not at hmiss
  obtain ⟨⟨h₁, h₂⟩, hsup⟩ := hmiss
  rw [run_slowLookup hi, if_pos h₁, if_pos h₂] at hr
  obtain ⟨h₃, hr⟩ := Option.ite_none_right_eq_some.mp hr
  obtain ⟨st', hrun⟩ := run_slowLookup_supplies t mode hD name
  rw [if_pos (Bool.eq_true_of_not_eq_false (hsup h₃))] at hrun
  obtain ⟨hrun, he⟩ := hrun
  rw [hrun] at hr
  obtain ⟨rfl, rfl⟩ := Prod.mk.inj (Option.some.inj hr)
  refine ⟨rfl, rfl, ?_, he⟩
  rintro (_ | _ | _ | k) hk
  · exact h₁
  · exact h₂
  · exact h₃
  · omega

end Lookups

section Missed

def madeAt (st : State) (nd : Nameidata) (file : Bool) : Kind :=
  match nd.mnt with
  | some m => st.makes (st.fsType (st.mount m).mntFs).iop file
  | none => .lost

variable {st st' : State} {nd e : Nameidata} {name s : List Char} {t u d : ℕ} {mode : UInt16}
  {file : Bool}

theorem Missed.spared (hm : Missed t mode st nd name st') : Spared st st' := by
  rcases hm with rfl | he
  · exact .refl
  · exact he.spared

theorem Missed.evolves (hm : Missed t mode st nd name st') (h : Inv st)
    (hlt : nd.dentry < st.dentries.size) : Evolves st st' := by
  rcases hm with rfl | ⟨y, j, F, he⟩
  · exact .refl h
  · exact he.evolves h hlt

theorem Missed.orderly (hm : Missed t mode st nd name st') (h : Orderly st) (hD : DirAt st nd)
    (hnone : st.childNamed nd.dentry name = none) (hvalid : ValidName name) : Orderly st' := by
  rcases hm with rfl | he
  · exact h
  · exact (he.orderly h hD hnone hvalid).1

theorem Missed.childNamed (hm : Missed t mode st nd name st') (h : st.toNamespace.Wf)
    (hlt : nd.dentry < st.dentries.size) (hd : d < st.dentries.size) :
    st'.childNamed d s = st.childNamed d s := by
  rcases hm with rfl | ⟨y, j, F, he⟩
  · rfl
  · rw [he.namespace_eq, Namespace.childNamed_enter h hlt he.leaf hd, if_neg fun hc => hc.1 rfl]

theorem Missed.supplies (hm : Missed t mode st nd name st') (h : Inv st)
    (hlt : nd.dentry < st.dentries.size) (hd : e.dentry < st.dentries.size) :
    Reference.supplies st' e s = Reference.supplies st e s := by
  rcases hm with rfl | he
  · rfl
  · exact he.supplies h hlt hd s

theorem Missed.inode (hm : Missed t mode st nd name st') (h : Inv st)
    (hd : d < st.dentries.size) {i : ℕ} (hi : (st.dentry d).dInode = some i) :
    st'.inode i = st.inode i := by
  rcases hm with rfl | ⟨y, j, F, he⟩
  · rfl
  · exact he.inode_of_lt (h.inode_lt hd hi)

theorem Missed.writable (hm : Missed t mode st nd name st') (h : Inv st)
    (hd : d < st.dentries.size) : Writable st' u d ↔ Writable st u d := by
  have hdentry := hm.spared.dentry hd
  have hthread := hm.spared.thread
  constructor
  · rintro ⟨i, hi, hacl⟩
    rw [hdentry] at hi
    rw [hthread, hm.inode h hd hi] at hacl
    exact ⟨i, hi, hacl⟩
  · rintro ⟨i, hi, hacl⟩
    refine ⟨i, hdentry.symm ▸ hi, ?_⟩
    rw [hthread, hm.inode h hd hi]
    exact hacl

theorem Missed.madeAt (hm : Missed t mode st nd name st') :
    madeAt st' e file = madeAt st e file := by
  rcases hm with rfl | ⟨y, j, F, he⟩
  · rfl
  · have hmount : st'.mount = st.mount := by
      rw [he.namespace_eq]
      rfl
    have hslot : st'.freeSlot? = st.freeSlot? := by
      rw [he.state_eq]
      rfl
    have htypes : st'.fsType = st.fsType := by
      rw [he.state_eq]
      rfl
    unfold Scarce.madeAt State.makes
    rw [hmount, hslot, htypes]

end Missed

section Making

variable {ok : ℕ → Bool} {st : State} {nd nd' : Nameidata} {name : List Char} {t c : ℕ}
  {mode : UInt16} {file : Bool} {s : Asked State} {o : Option Nameidata}

/-- `make_path` gives up on an entry that is not there: the directory does not permit it, or the
driver refuses it after all requests have been granted. -/
def GivesUp (ok : ℕ → Bool) (c t : ℕ) (st : State) (nd : Nameidata) (file : Bool) : Prop :=
  ¬ Writable st t nd.dentry ∨ madeAt st nd file = .lost ∧ ∀ k < 3, ok (c + k) = true

theorem run_lookupOrMake_missed {st₁ : State} {b : ℕ} (file : Bool) (h : Inv st)
    (hord : Orderly st) (hD : DirAt st nd) (hnone : st.childNamed nd.dentry name = none)
    (hm : Missed t mode st nd name st₁)
    (hr : run (slowLookup ok nd name) ⟨st, c⟩ = some ((true, nd), ⟨st₁, b⟩)) :
    (¬ Writable st t nd.dentry →
      run (lookupOrMake ok t nd name file mode) ⟨st, c⟩ = some (none, ⟨st₁, b⟩)) ∧
    (Writable st t nd.dentry → run (lookupOrMake ok t nd name file mode) ⟨st, c⟩ =
      run (makeEntry ok t nd name file mode) ⟨st₁, b⟩) := by
  obtain ⟨i, hi⟩ := Option.ne_none_iff_exists'.mp hD.inode
  have hi₁ : (st₁.dentry nd.dentry).dInode = some i := (hm.spared.dentry hD.lt).symm ▸ hi
  have hrun : run (lookupOrMake ok t nd name file mode) ⟨st, c⟩ =
      run (if checkAcl (st₁.thread t).uid (st₁.thread t).gid (st₁.inode i) (R_OK ||| W_OK) then
        return none else makeEntry ok t nd name file mode) ⟨st₁, b⟩ := by
    rw [lookupOrMake, run_bind, run_doLookup_none hord hD.lt hnone, hr]
    simp only [Option.bind_some, if_true, run_bind, run_gets, run_demand, hi₁, Option.map_some]
  rw [hrun, hm.inode h hD.lt hi, hm.spared.thread]
  constructor
  · intro hacl
    rw [if_pos]
    · rfl
    · by_contra hok
      exact hacl ⟨i, hi, Bool.eq_false_iff.mpr hok⟩
  · rintro ⟨i', hi', hacl⟩
    obtain rfl := Option.some.inj (hi.symm.trans hi')
    rw [hacl, if_neg Bool.false_ne_true]

theorem run_lookupOrMake_spared (mode : UInt16) (h : Inv st) (hord : Orderly st) (hD : DirAt st nd)
    (hnone : st.childNamed nd.dentry name = none) (hmiss : Misses ok c st nd name)
    (hgive : GivesUp ok (c + lookupAsks ok c) t st nd file) : ∃ s,
      run (lookupOrMake ok t nd name file mode) ⟨st, c⟩ = some (none, s) ∧ Spared st s.state := by
  obtain ⟨st₁, hslow, hm⟩ := run_slowLookup_misses t mode hD hmiss
  obtain ⟨hno, hyes⟩ := run_lookupOrMake_missed file h hord hD hnone hm hslow
  by_cases hacl : Writable st t nd.dentry
  case neg => exact ⟨_, hno hacl, hm.spared⟩
  rcases hgive with hgive | ⟨hlost, hok⟩
  · exact absurd hacl hgive
  obtain ⟨m, -, hmnt, -⟩ := hD.mnt
  obtain ⟨k, st₂, y, j, F, hk, he, -, hrun⟩ := run_makeEntry_makes st₁ t name file mode hmnt
  have hkind : madeAt st₁ nd file = k := by
    rw [madeAt, hmnt, hk]
  rw [hm.madeAt, hlost] at hkind
  subst hkind
  refine ⟨⟨st₂, c + lookupAsks ok c + 3⟩, ?_, hm.spared.trans (Enters.spared ⟨y, j, F, he⟩)⟩
  rw [hyes hacl, costs_makeEntry, if_pos hok, hrun]
  rfl

theorem lookupOrMake_raises (h : Inv st) (hord : Orderly st) (hD : DirAt st nd)
    (hnone : st.childNamed nd.dentry name = none) (hvalid : ValidName name)
    (hno : ¬ (Misses ok c st nd name ∧ GivesUp ok (c + lookupAsks ok c) t st nd file))
    (hr : run (lookupOrMake ok t nd name file mode) ⟨st, c⟩ = some (o, s)) :
    ∃ nd', o = some nd' ∧ Orderly s.state ∧ At s.state nd' ∧
      Raised nd.dentry st.dentries.size s.state := by
  by_cases hmiss : Misses ok c st nd name
  · obtain ⟨st₁, hslow, hm⟩ := run_slowLookup_misses t mode hD hmiss
    obtain ⟨hdenied, hyes⟩ := run_lookupOrMake_missed file h hord hD hnone hm hslow
    have hord₁ := hm.orderly hord hD hnone hvalid
    have hD₁ := hD.grown hord.wf (hm.evolves h hD.lt).grown
    have hnone₁ := (hm.childNamed (s := name) hord.wf hD.lt hD.lt).trans hnone
    have hgive : ¬ GivesUp ok (c + lookupAsks ok c) t st nd file := fun hg => hno ⟨hmiss, hg⟩
    unfold GivesUp at hgive
    push Not at hgive
    obtain ⟨hacl, hlost⟩ := hgive
    rw [hyes hacl, costs_makeEntry] at hr
    obtain ⟨hok, hr⟩ := Option.ite_none_right_eq_some.mp hr
    obtain ⟨m, -, hmnt, -⟩ := hD.mnt
    obtain ⟨k, st₂, y, j, F, hk, he, -, hrun⟩ := run_makeEntry_makes st₁ t name file mode hmnt
    have hkind : madeAt st₁ nd file = k := by
      rw [madeAt, hmnt, hk]
    rw [hm.madeAt] at hkind
    have hne : k ≠ .lost := by
      rintro rfl
      obtain ⟨i, hi, hi'⟩ := hlost hkind
      exact hi' (hok i hi)
    rw [hrun, if_neg hne] at hr
    obtain ⟨rfl, rfl⟩ := Prod.mk.inj (Option.some.inj hr)
    have he : Enters t mode st₁ nd name k st₂ := ⟨y, j, F, he⟩
    obtain ⟨hord₂, hat⟩ := he.orderly hord₁ hD₁ hnone₁ hvalid
    exact ⟨_, rfl, hord₂, hat hne, (he.raised hD₁.lt hne).mono hD.lt hm.spared.dentries_le⟩
  · rw [lookupOrMake, run_bind, run_doLookup_none hord hD.lt hnone] at hr
    obtain ⟨⟨r, s₁⟩, hslow, hrest⟩ := Option.bind_eq_some_iff.mp hr
    obtain ⟨rfl, -, -, he⟩ := slowLookup_finds t mode hD hmiss hslow
    obtain ⟨rfl, rfl⟩ := Prod.mk.inj (Option.some.inj hrest)
    obtain ⟨hord₁, hat⟩ := he.orderly hord hD hnone hvalid
    exact ⟨_, rfl, hord₁, hat (by simp), he.raised hD.lt (by simp)⟩

end Making

end NSOS.Vfs.Scarce
