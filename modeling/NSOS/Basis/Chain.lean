import NSOS.Basis.Program
import Mathlib.Data.List.Nodup
import Mathlib.Data.Fintype.Card
import Mathlib.Logic.Function.Basic

/-! # Linked lists

The nodes that the links of a list lead to, how the list changes when a node
is put in front or taken out, and the search for the first node of a kind.
-/

namespace Basis

section Chain

variable {next next' : ℕ → Option ℕ} {o : Option ℕ} {a b : ℕ} {l l' pre post : List ℕ}

/-- The links lead from `o` through the nodes of a list and end behind its last one. -/
def Chain (next : ℕ → Option ℕ) : Option ℕ → List ℕ → Prop
  | o, [] => o = none
  | o, a :: l => o = some a ∧ Chain next (next a) l

@[simp] theorem chain_nil : Chain next o [] ↔ o = none := Iff.rfl
@[simp] theorem chain_cons : Chain next o (a :: l) ↔ o = some a ∧ Chain next (next a) l := Iff.rfl

theorem Chain.unique (h : Chain next o l) (h' : Chain next o l') : l = l' := by
  induction l generalizing o l' with
  | nil =>
    cases l' with
    | nil => rfl
    | cons a l' => simp [chain_nil.mp h] at h'
  | cons a l ih =>
    obtain ⟨rfl, hl⟩ := h
    cases l' with
    | nil => simp at h'
    | cons b l' =>
      obtain ⟨hb, hl'⟩ := h'
      obtain rfl := Option.some.inj hb
      rw [ih hl hl']

theorem Chain.congr (h : Chain next o l) (he : ∀ a ∈ l, next' a = next a) : Chain next' o l := by
  induction l generalizing o with
  | nil => exact h
  | cons a l ih =>
    obtain ⟨rfl, hl⟩ := h
    refine ⟨rfl, ?_⟩
    rw [he a List.mem_cons_self]
    exact ih hl fun b hb => he b (List.mem_cons_of_mem _ hb)

theorem Chain.behind (h : Chain next o (pre ++ a :: post)) : Chain next (next a) post := by
  induction pre generalizing o with
  | nil => exact h.2
  | cons b pre ih => exact ih h.2

/-- No node occurs twice, for the links behind it would never end. -/
theorem Chain.nodup (h : Chain next o l) : l.Nodup := by
  induction l generalizing o with
  | nil => exact List.nodup_nil
  | cons a l ih =>
    obtain ⟨rfl, hl⟩ := h
    refine List.nodup_cons.mpr ⟨fun ha => ?_, ih hl⟩
    obtain ⟨pre, post, rfl⟩ := List.append_of_mem ha
    have heq := hl.behind.unique hl
    have := congrArg List.length heq
    simp at this
    omega

theorem Chain.length_le (h : Chain next o l) {n : ℕ} (hn : ∀ a ∈ l, a < n) : l.length ≤ n := by
  have hsub : l ⊆ List.range n := fun a ha => List.mem_range.mpr (hn a ha)
  simpa using (h.nodup.subperm hsub).length_le

theorem Chain.update_of_notMem {p : Option ℕ} (h : Chain next o l) (ha : a ∉ l) :
    Chain (Function.update next a p) o l := by
  refine h.congr fun b hb => Function.update_of_ne ?_ ..
  rintro rfl
  exact ha hb

theorem Chain.push (h : Chain next o l) (ha : a ∉ l) :
    Chain (Function.update next a o) (some a) (a :: l) :=
  ⟨rfl, by simpa using h.update_of_notMem ha⟩

theorem Chain.ne_head (h : Chain next o (pre ++ a :: b :: post)) : o ≠ some b := by
  have hnd := h.nodup
  rintro rfl
  cases pre with
  | nil =>
    obtain rfl := Option.some.inj h.1
    simp at hnd
  | cons c pre =>
    obtain rfl := Option.some.inj h.1
    simp at hnd

theorem Chain.ne_behind (h : Chain next o (pre ++ a :: b :: post)) : a ≠ b := by
  rintro rfl
  exact (List.nodup_cons.mp (List.nodup_append'.mp h.nodup).2.1).1 List.mem_cons_self

theorem Chain.erase_behind (h : Chain next o (pre ++ a :: b :: post)) :
    (pre ++ a :: b :: post).erase b = pre ++ a :: post := by
  have hpre : b ∉ pre := fun hb =>
    (List.nodup_append'.mp h.nodup).2.2 hb (List.mem_cons_of_mem a List.mem_cons_self)
  rw [List.erase_append_right _ hpre, List.erase_cons_tail (by simpa using h.ne_behind),
    List.erase_cons_head]

/-- The node in front of another one is the only one that links to it. -/
theorem Chain.find?_front (h : Chain next o (pre ++ a :: b :: post)) :
    (pre ++ a :: b :: post).find? (fun c => next c = some b) = some a := by
  induction pre generalizing o with
  | nil =>
    obtain ⟨rfl, hb, hpost⟩ := h
    simp [hb]
  | cons c pre ih =>
    obtain ⟨rfl, hc⟩ := h
    have hcb : next c ≠ some b := hc.ne_head
    rw [List.cons_append, List.find?_cons_of_neg (by simpa using hcb)]
    exact ih hc

theorem Chain.find?_front_or_end (h : Chain next o (pre ++ a :: b :: post)) :
    (pre ++ a :: b :: post).find? (fun c => next c = none || next c = some b) = some a := by
  have hfront := h.find?_front
  induction pre generalizing o with
  | nil =>
    obtain ⟨rfl, hb, -⟩ := h
    simp [hb]
  | cons c pre ih =>
    obtain ⟨rfl, hc⟩ := h
    have hsome : next c ≠ none := by
      rintro he
      rw [he] at hc
      cases pre with
      | nil => cases hc.1
      | cons d pre => cases hc.1
    rw [List.cons_append, List.find?_cons] at hfront ⊢
    cases hcb : decide (next c = some b) with
    | true => simpa [hcb] using hfront
    | false =>
      rw [hcb] at hfront
      simpa [hcb, hsome] using ih hc hfront

theorem Chain.unlink (h : Chain next o (pre ++ a :: b :: post)) :
    Chain (Function.update next a (next b)) o (pre ++ a :: post) := by
  have hnd := h.nodup
  induction pre generalizing o with
  | nil =>
    obtain ⟨rfl, hb, hpost⟩ := h
    refine ⟨rfl, ?_⟩
    rw [Function.update_self]
    refine hpost.congr fun c hc => Function.update_of_ne ?_ ..
    rintro rfl
    simp [hc] at hnd
  | cons c pre ih =>
    obtain ⟨rfl, hc⟩ := h
    have hca : c ≠ a := by
      rintro rfl
      simp at hnd
    refine ⟨rfl, ?_⟩
    rw [Function.update_of_ne hca]
    exact ih hc (List.nodup_cons.mp hnd).2

theorem Chain.mem_of_next (h : Chain next o l) (ha : a ∈ l) (hb : next a = some b) : b ∈ l := by
  obtain ⟨pre, post, rfl⟩ := List.append_of_mem ha
  have hbehind := h.behind
  rw [hb] at hbehind
  cases post with
  | nil => cases hbehind
  | cons c post =>
    obtain rfl := Option.some.inj hbehind.1
    simp

theorem Chain.exists_end (h : Chain next o l) (hne : l ≠ []) : ∃ a ∈ l, next a = none := by
  induction l generalizing o with
  | nil => exact absurd rfl hne
  | cons a l ih =>
    cases l with
    | nil => exact ⟨a, List.mem_cons_self, h.2⟩
    | cons b l =>
      obtain ⟨c, hc, hend⟩ := ih h.2 (List.cons_ne_nil b l)
      exact ⟨c, List.mem_cons_of_mem a hc, hend⟩

def links (next : ℕ → Option ℕ) : ℕ → Option ℕ → List ℕ
  | 0, _ => []
  | _ + 1, none => []
  | n + 1, some a => a :: links next n (next a)

theorem Chain.links_eq (h : Chain next o l) {n : ℕ} (hn : l.length < n) : links next n o = l := by
  induction l generalizing o n with
  | nil =>
    obtain ⟨n, rfl⟩ := Nat.exists_eq_succ_of_ne_zero (Nat.ne_zero_of_lt hn)
    rw [chain_nil.mp h, links]
  | cons a l ih =>
    obtain ⟨n, rfl⟩ := Nat.exists_eq_succ_of_ne_zero (Nat.ne_zero_of_lt hn)
    obtain ⟨rfl, hl⟩ := h
    rw [links, ih hl (Nat.lt_of_succ_lt_succ hn)]

end Chain

namespace Prog

section Search

variable {ι σ : Type} (next : σ → ℕ → Option ℕ) (hit : σ → ℕ → Bool)

def search : ℕ → Option ℕ → Prog ι σ (Option ℕ)
  | 0, _ => stop
  | _ + 1, none => pure none
  | n + 1, some a => do
    if ← gets (hit · a) then pure (some a)
    else search n (← gets (next · a))

theorem search_run {x : σ} {l : List ℕ} {o : Option ℕ} {n : ℕ} (h : Chain (next x) o l)
    (hn : l.length < n) :
    run (search next hit n o : Prog ι σ (Option ℕ)) x = some (l.find? (hit x), x) := by
  induction l generalizing o n with
  | nil =>
    obtain ⟨n, rfl⟩ := Nat.exists_eq_succ_of_ne_zero (Nat.ne_zero_of_lt hn)
    rw [chain_nil.mp h, search]
    rfl
  | cons a l ih =>
    obtain ⟨n, rfl⟩ := Nat.exists_eq_succ_of_ne_zero (Nat.ne_zero_of_lt hn)
    obtain ⟨rfl, hl⟩ := h
    rw [search, run_bind, run_gets, Option.bind_some, List.find?_cons]
    cases hit x a with
    | true => rfl
    | false => simpa using ih hl (Nat.lt_of_succ_lt_succ hn)

instance quiet_search (n : ℕ) (o : Option ℕ) :
    Quiet (search next hit n o : Prog ι σ (Option ℕ)) := by
  induction n generalizing o with
  | zero => exact quiet_stop
  | succ n ih =>
    cases o with
    | none => exact quiet_pure none
    | some a =>
      unfold search
      infer_instance

end Search

end Prog

end Basis
