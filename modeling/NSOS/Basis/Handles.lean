import NSOS.Basis.Pool

/-! # Handles

A table of handles leads from keys to the objects of a pool. When no two keys
lead to one object, the table is a map from keys to values: a change through
one key is not seen through another.
-/

namespace Basis

variable {κ α : Type} {table table' : κ → Option ℕ} {p q : Pool α} {k k' : κ} {i : ℕ} {a : α}
  {f : α → α}

def view (table : κ → Option ℕ) (p : Pool α) (k : κ) : Option α := (table k).map p.obj

/-- Keys lead to objects that have been handed out, each to its own. -/
structure Separate (table : κ → Option ℕ) (p : Pool α) : Prop where
  lt : ∀ {k i}, table k = some i → i < p.size
  inj : ∀ {k k' i}, table k = some i → table k' = some i → k = k'

theorem Separate.sub (h : Separate table p) (hsub : ∀ {k i}, table' k = some i → table k = some i) :
    Separate table' p :=
  ⟨fun hk => h.lt (hsub hk), fun hk hk' => h.inj (hsub hk) (hsub hk')⟩

theorem Separate.mono (h : Separate table p) (hle : p.size ≤ q.size) : Separate table q :=
  ⟨fun hk => Nat.lt_of_lt_of_le (h.lt hk) hle, h.inj⟩

theorem Separate.view_grow (h : Separate table p) :
    view table (p.grow.set p.size f) = view table p := by
  funext k
  unfold view
  cases hk : table k with
  | none => rfl
  | some i =>
    rw [Option.map_some, Option.map_some, Pool.obj_set_of_ne _ _ _ _ (Nat.ne_of_lt (h.lt hk))]
    rfl

variable [DecidableEq κ]

theorem Separate.add (h : Separate table p) (hsize : q.size = p.size + 1) :
    Separate (Function.update table k (some p.size)) q where
  lt {k' i} hk := by
    rw [Function.update_apply] at hk
    split at hk
    · obtain rfl := Option.some.inj hk
      omega
    · have := h.lt hk
      omega
  inj {k₁ k₂ i} h₁ h₂ := by
    rw [Function.update_apply] at h₁ h₂
    split at h₁ <;> split at h₂
    · exact ‹k₁ = k›.trans ‹k₂ = k›.symm
    · obtain rfl := Option.some.inj h₁
      exact absurd (h.lt h₂) (Nat.lt_irrefl _)
    · obtain rfl := Option.some.inj h₂
      exact absurd (h.lt h₁) (Nat.lt_irrefl _)
    · exact h.inj h₁ h₂

theorem Separate.view_set (h : Separate table p) (hk : table k = some i) :
    view table (p.set i f) = Function.update (view table p) k (some (f (p.obj i))) := by
  funext k'
  rw [Function.update_apply]
  split
  case isTrue heq =>
    rw [heq, view, hk, Option.map_some, Pool.obj_set_self]
  case isFalse hne =>
    unfold view
    cases hk' : table k' with
    | none => rfl
    | some j =>
      rw [Option.map_some, Option.map_some, Pool.obj_set_of_ne]
      rintro rfl
      exact hne (h.inj hk' hk)

theorem view_update (o : Option ℕ) : view (Function.update table k o) p =
    Function.update (view table p) k (o.map p.obj) := by
  funext k'
  rw [view, Function.update_apply, Function.update_apply]
  split
  · rfl
  · rfl

theorem Separate.view_add (h : Separate table p) :
    view (Function.update table k (some p.size)) (p.grow.set p.size fun _ => a) =
      Function.update (view table p) k (some a) := by
  rw [view_update, h.view_grow, Option.map_some, Pool.obj_set_self]

end Basis
