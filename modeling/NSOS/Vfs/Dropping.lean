import NSOS.Vfs.Revalidate

/-! # Dropping twice

`d_drop` looks for a dentry among the entries of its parent, and leaves a list
alone that it is not in. It reads the link of the first entry even when there
is none, so that the last entry of a directory cannot be dropped twice.
-/

namespace NSOS.Vfs

open Basis Prog

section Chains

variable {st st' : State} {p q dp : ℕ} {l pre post : List ℕ}

/-- The dentry is not among the entries any more, and the others are as before. Nothing happens to
entries that it was not among, also when it is dropped again. -/
structure Unlinks (st : State) (p : ℕ) (l : List ℕ) (dp : ℕ) (st' : State) : Prop where
  siblings : Siblings st' p (l.erase dp)
  rest : st' = { st with dentries := st'.dentries }
  dentry : ∀ a, ∃ o s, st'.dentry a = { st.dentry a with dChild := o, dSubdirs := s }
  outside : ∀ a, a ≠ p → a ∉ l → st'.dentry a = st.dentry a
  absent : dp ∉ l → st' = st
  again : run (dDrop dp) st' = some ((), st')

theorem Siblings.run_dDrop_nil (hs : Siblings st p []) (hp : (st.dentry dp).dParent = p) :
    run (dDrop dp) st = none := by
  have hhead : (st.dentry p).dSubdirs = none := hs.chain
  rw [hs.run_dDrop hp (by rw [hhead]; exact nofun)]
  rfl

theorem Siblings.run_dDrop_absent (hs : Siblings st p l) (hp : (st.dentry dp).dParent = p)
    (hne : l ≠ []) (hdp : dp ∉ l) : run (dDrop dp) st = some ((), st) := by
  have hfirst : (st.dentry p).dSubdirs ≠ some dp := by
    intro hhead
    obtain ⟨a, l, rfl⟩ := List.exists_cons_of_ne_nil hne
    obtain rfl := Option.some.inj (hhead.symm.trans hs.chain.1)
    exact hdp List.mem_cons_self
  obtain ⟨a, ha, hend⟩ := hs.chain.exists_end hne
  obtain ⟨q, hq⟩ : ∃ q, l.find? (fun a => (st.dentry a).dChild = none ||
      (st.dentry a).dChild = some dp) = some q := by
    apply Option.isSome_iff_exists.mp
    rw [List.find?_isSome]
    exact ⟨a, ha, by simp [hend]⟩
  have hlast : (st.dentry q).dChild = none := by
    have hhit := List.find?_some hq
    rcases (Bool.or_eq_true _ _).mp hhit with hnone | hsome
    · exact of_decide_eq_true hnone
    · have hin := hs.chain.mem_of_next (List.mem_of_find?_eq_some hq) (of_decide_eq_true hsome)
      exact absurd hin hdp
  rw [hs.run_dDrop hp hfirst, hq, Option.bind_some, if_pos hlast]

/-- What is left when one link has changed. -/
theorem Siblings.unlinks {f : Dentry → Dentry} (hs : Siblings st p l)
    (hp : (st.dentry dp).dParent = p) (hother : ∃ e ∈ l, e ≠ dp) (hdp : dp ∈ l)
    (hf : ∀ x, ∃ o s, f x = { x with dChild := o, dSubdirs := s }) (hq : q = p ∨ q ∈ l)
    (hst : st' = { st with dentries := st.dentries.set q f })
    (hchain : Chain (fun a => (st'.dentry a).dChild) (st'.dentry p).dSubdirs (l.erase dp)) :
    Unlinks st p l dp st' := by
  have hdentry := dentry_of_set hst
  have hsize : st'.dentries.size = st.dentries.size := by rw [hst]; rfl
  have hsib : Siblings st' p (l.erase dp) :=
    ⟨hchain, fun a ha => hsize ▸ hs.lt a (List.mem_of_mem_erase ha)⟩
  have hlinks : ∀ a, ∃ o s, st'.dentry a = { st.dentry a with dChild := o, dSubdirs := s } := by
    intro a
    rw [hdentry]
    split
    case isTrue h =>
      rw [h]
      exact hf _
    case isFalse => exact ⟨_, _, rfl⟩
  constructor
  case siblings => exact hsib
  case rest => rw [hst]
  case dentry => exact hlinks
  case outside =>
    intro a hap hal
    rw [hdentry, if_neg]
    rintro rfl
    exact hq.elim hap hal
  case absent => exact fun h => absurd hdp h
  case again =>
    obtain ⟨o, s, hkept⟩ := hlinks dp
    apply hsib.run_dDrop_absent
    · rw [hkept]
      exact hp
    · obtain ⟨e, he, hne⟩ := hother
      exact List.ne_nil_of_mem ((List.mem_erase_of_ne hne).mpr he)
    · exact fun h => (hs.chain.nodup.mem_erase_iff.mp h).1 rfl

theorem Siblings.unlinks_first (hs : Siblings st p (dp :: post))
    (hp : (st.dentry dp).dParent = p) (hother : ∃ e ∈ dp :: post, e ≠ dp)
    (hst : st' = { st with dentries := st.dentries.set p fun d =>
      { d with dSubdirs := (st.dentry dp).dChild } }) : Unlinks st p (dp :: post) dp st' := by
  refine hs.unlinks hp hother List.mem_cons_self (fun x => ⟨_, _, rfl⟩) (.inl rfl) hst ?_
  obtain ⟨hnext, hsub⟩ := dSubdirs_of_set hst
  rw [List.erase_cons_head, hnext, hsub, if_pos rfl]
  exact hs.chain.2

theorem Siblings.unlinks_behind (hs : Siblings st p (pre ++ q :: dp :: post))
    (hp : (st.dentry dp).dParent = p)
    (hst : st' = { st with dentries := st.dentries.set q fun d =>
      { d with dChild := (st.dentry dp).dChild } }) :
    Unlinks st p (pre ++ q :: dp :: post) dp st' := by
  refine hs.unlinks hp ⟨q, by simp, hs.chain.ne_behind⟩ (by simp) (fun x => ⟨_, _, rfl⟩)
    (.inr (by simp)) hst ?_
  obtain ⟨hnext, hsub⟩ := dChild_of_set hst
  rw [hs.chain.erase_behind, hnext, hsub]
  exact hs.chain.unlink

/-- `d_drop` takes a dentry out of the entries of its parent, whether it is among them or not and
also a second time, exactly when another dentry is among them. -/
theorem dDrop_unlinks_iff (hs : Siblings st p l) (hp : (st.dentry dp).dParent = p) :
    (∃ st', run (dDrop dp) st = some ((), st') ∧ Unlinks st p l dp st') ↔ ∃ e ∈ l, e ≠ dp := by
  constructor
  · rintro ⟨st', hrun, hunlinks⟩
    by_contra hnone
    have hleft : l.erase dp = [] := by
      rw [List.eq_nil_iff_forall_not_mem]
      intro e he
      obtain ⟨hne, hin⟩ := hs.chain.nodup.mem_erase_iff.mp he
      exact hnone ⟨e, hin, hne⟩
    have hsib := hunlinks.siblings
    obtain ⟨o, s, hkept⟩ := hunlinks.dentry dp
    rw [hleft] at hsib
    have hagain : run (dDrop dp) st' = none := hsib.run_dDrop_nil (by rw [hkept]; exact hp)
    exact absurd (hunlinks.again.symm.trans hagain) nofun
  · intro hother
    by_cases hdp : dp ∈ l
    · obtain ⟨pre, post, rfl⟩ := List.append_of_mem hdp
      rcases List.eq_nil_or_concat pre with rfl | ⟨pre, q, rfl⟩
      · exact ⟨_, run_dDrop_first hp hs.chain.1, hs.unlinks_first hp hother rfl⟩
      · rw [List.concat_eq_append, List.append_assoc, List.singleton_append] at hs ⊢
        exact ⟨_, hs.run_dDrop_behind hp, hs.unlinks_behind hp rfl⟩
    · have hne : l ≠ [] := by
        obtain ⟨e, he, -⟩ := hother
        exact List.ne_nil_of_mem he
      have hrun := hs.run_dDrop_absent hp hne hdp
      refine ⟨st, hrun, ?_, rfl, fun a => ⟨_, _, rfl⟩, fun a _ _ => rfl, fun _ => rfl, hrun⟩
      rwa [List.erase_of_not_mem hdp]

/-- The directory 0 with some entries, in the order of their numbers. -/
def directoryOf (n : ℕ) : State := { (default : State) with
  dentries := ⟨fun d => { (default : Dentry) with
    dSubdirs := if d = 0 ∧ n ≠ 0 then some 1 else none
    dChild := if d ≠ 0 ∧ d < n then some (d + 1) else none }, n + 1⟩ }

theorem dDrop_unlinks_first : ∃ st', run (dDrop 1) (directoryOf 3) = some ((), st') ∧
    Siblings st' 0 [2, 3] := by
  have hs : Siblings (directoryOf 3) 0 [1, 2, 3] := ⟨⟨rfl, rfl, rfl, rfl⟩, by decide⟩
  obtain ⟨st', hrun, hunlinks⟩ : ∃ st', run (dDrop 1) (directoryOf 3) = some ((), st') ∧ _ :=
    (dDrop_unlinks_iff hs rfl).mpr ⟨2, by decide⟩
  exact ⟨st', hrun, hunlinks.siblings⟩

/-- The only entry of a directory cannot be dropped twice. -/
theorem not_dDrop_unlinks : ¬ ∀ (st : State) (p dp : ℕ) (l : List ℕ), Siblings st p l →
    (st.dentry dp).dParent = p → ∃ st', run (dDrop dp) st = some ((), st') ∧
      Unlinks st p l dp st' := by
  intro h
  have hs : Siblings (directoryOf 1) 0 [1] := ⟨⟨rfl, rfl⟩, by decide⟩
  obtain ⟨st', hrun, hunlinks⟩ := h _ 0 1 [1] hs rfl
  obtain ⟨-, rfl⟩ := run_inj hrun (run_dDrop_first rfl hs.chain.1)
  have hagain : run (dDrop 1) _ = none := hunlinks.siblings.run_dDrop_nil rfl
  exact absurd (hunlinks.again.symm.trans hagain) nofun

end Chains

end NSOS.Vfs
