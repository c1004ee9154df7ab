import NSOS.Vfs.Table
import Mathlib.Data.List.Find

/-! # Walks before and after a mount

Two states in which the same things are in memory give the same walks. A new
mount changes a walk only where it comes by name to the directory below the
mount. The walk is then at the root of the mount instead, and stays in step
with the old one until it looks up a name there.
-/

namespace NSOS.Vfs

open Basis Prog

section Agree

variable {D : ℕ → Prop} {st st' : State} {nd : Nameidata} {name : List Char} {c t e : ℕ}
  {ps : List Part} {dir : Bool} {path : List Char}

/-- What is in memory in the first state is the same in the second one, but for the mounts on
dentries outside `D`. -/
structure Agree (D : ℕ → Prop) (st st' : State) : Prop where
  dentry : ∀ {e}, e < st.dentries.size → ∃ k, st'.dentry e = { st.dentry e with dMounted := k }
  entries : ∀ {e}, e < st.dentries.size → st'.entries e = st.entries e
  covered : ∀ {e}, e < st.dentries.size → D e → st'.covered e = st.covered e
  topMount : ∀ {e}, e < st.dentries.size → D e → st'.topMount e = st.topMount e
  mount : ∀ {m}, m < st.mounts.size → st'.mount m = st.mount m
  rootDentry : st'.rootDentry = st.rootDentry
  iOp : ∀ {i}, i < st.inodes.size → (st'.inode i).iOp = (st.inode i).iOp
  places : st'.places = st.places
  threadPool : st'.threadPool = st.threadPool

namespace Agree

theorem parent (h : Agree D st st') (he : e < st.dentries.size) : st'.parent e = st.parent e := by
  obtain ⟨k, hk⟩ := h.dentry he
  rw [Namespace.parent, hk, Namespace.parent]

theorem dIsdir (h : Agree D st st') (he : e < st.dentries.size) :
    (st'.dentry e).dIsdir = (st.dentry e).dIsdir := by
  obtain ⟨k, hk⟩ := h.dentry he
  rw [hk]

theorem childNamed (h : Agree D st st') (hi : Inv st) (he : e < st.dentries.size) :
    st'.childNamed e name = st.childNamed e name := by
  rw [Namespace.childNamed, h.entries he, Namespace.childNamed]
  refine List.find?_congr fun c hc => ?_
  obtain ⟨k, hk⟩ := h.dentry ((hi.wf.chain_entries he).2 c hc).1
  rw [hk]

theorem finds (h : Agree D st st') (d : Driver) (he : e < st.dentries.size) :
    finds st' d e name = finds st d e name := by
  cases d with
  | kvfs => rfl
  | procfs => simp only [Vfs.finds, h.parent he, h.threadPool]
  | devfs => simp only [Vfs.finds, h.parent he]

theorem askDriver (h : Agree D st st') (hi : Inv st) (he : nd.dentry < st.dentries.size) :
    askDriver st' nd name = askDriver st nd name := by
  obtain ⟨k, hk⟩ := h.dentry he
  rw [Vfs.askDriver, hk, Vfs.askDriver]
  cases hip : (st.dentry nd.dentry).dInode with
  | none => rfl
  | some ip =>
    dsimp only
    rw [h.iOp (hi.inode_lt he hip), h.finds _ he]

theorem arrive (h : Agree D st st') (hi : Inv st) (hc : c < st.dentries.size) (hD : D c) :
    arrive st' nd c = arrive st nd c := by
  rw [Vfs.arrive, h.covered hc hD, h.topMount hc hD, Vfs.arrive]
  cases hm : st.topMount c with
  | none => rfl
  | some m =>
    dsimp only
    rw [h.mount (hi.wf.topMount_lt hm)]

theorem look (h : Agree D st st') (hi : Inv st) (he : nd.dentry < st.dentries.size)
    (hD : ∀ c, st.childNamed nd.dentry name = some c → D c) :
    look st' nd name = look st nd name := by
  rw [Vfs.look, h.childNamed hi he, Vfs.look]
  cases hc : st.childNamed nd.dentry name with
  | none => exact h.askDriver hi he
  | some c => exact h.arrive hi (hi.wf.childNamed_spec he hc).1 (hD c hc)

theorem climb (h : Agree D st st') (hi : Inv st) (hs : Seen st nd) :
    climb st' nd = climb st nd := by
  obtain ⟨m, hm, hv⟩ := hs
  obtain ⟨hlt, hmlt, -⟩ := hv.inTree hi.wf
  rw [Vfs.climb, h.rootDentry, h.parent hlt, hm, Vfs.climb, hm]
  dsimp only
  rw [h.mount hmlt, h.parent (hi.wf.mountpoint_lt hmlt)]

theorem goTo (h : Agree D st st') (hi : Inv st) (hs : Seen st nd)
    (hD : ∀ c, c < st.dentries.size → st.parent c ≠ c → D c) (p : Part) :
    goTo st' nd p = goTo st nd p := by
  cases p with
  | dot => rfl
  | dotdot => exact h.climb hi hs
  | name s =>
    refine h.look hi (hs.lt hi) fun c hc => ?_
    obtain ⟨hlt, hp, hne⟩ := hi.wf.childNamed_spec (hs.lt hi) hc
    exact hD c hlt fun he => hne (he.symm.trans hp)

end Agree

theorem askDriver_ne_hit {nd' : Nameidata} : askDriver st nd name ≠ .hit nd' := by
  unfold askDriver
  split
  · exact nofun
  · split <;> exact nofun

theorem seen_goTo (hi : Inv st) (hs : Seen st nd) {p : Part} {nd' : Nameidata}
    (hg : goTo st nd p = .hit nd') : Seen st nd' := by
  cases p with
  | dot => exact Found.hit.inj hg ▸ hs
  | dotdot =>
    obtain ⟨nd₁, hc, hs₁⟩ := hs.climb hi
    obtain rfl := Found.hit.inj (hc.symm.trans hg)
    exact hs₁
  | name s =>
    have hlook : look st nd s = .hit nd' := hg
    cases hc : st.childNamed nd.dentry s with
    | some c =>
      obtain ⟨nd₁, hl, hs₁⟩ := hs.childNamed hi hc
      obtain rfl := Found.hit.inj (hl.symm.trans hlook)
      exact hs₁
    | none =>
      rw [look, hc] at hlook
      exact absurd hlook askDriver_ne_hit

/-- States that agree on every dentry below another one give the same walks. -/
theorem Agree.resolve (h : Agree D st st') (hi : Inv st)
    (hD : ∀ c, c < st.dentries.size → st.parent c ≠ c → D c) (hs : Seen st nd) :
    resolve st' dir ps nd = resolve st dir ps nd := by
  induction ps generalizing nd with
  | nil => rfl
  | cons p ps ih =>
    rw [Vfs.resolve, h.goTo hi hs hD, Vfs.resolve]
    cases hg : Vfs.goTo st nd p with
    | hit nd' =>
      have hs' := seen_goTo hi hs hg
      dsimp only
      rw [h.dIsdir (hs'.lt hi), ih hs']
    | made nd' name => rfl
    | absent => rfl
    | stuck => rfl

theorem Agree.resolvePath (h : Agree D st st') (hi : Inv st)
    (hD : ∀ c, c < st.dentries.size → st.parent c ≠ c → D c) (ht : st.Running t) :
    resolvePath st' t path dir = resolvePath st t path dir := by
  have hstart : start st' t path = start st t path := by
    have hp := congrFun h.places t
    simp only [State.places, Prod.mk.injEq] at hp
    obtain ⟨h₁, h₂, h₃, h₄⟩ := hp
    rw [start, h₁, h₂, h₃, h₄, start]
  rw [Vfs.resolvePath, hstart]
  exact h.resolve hi hD (seen_start hi ht)

end Agree

section Shadow

variable {st st' : State} {t fs d m : ℕ} {path : List Char} {x : Dentry} {nd : Nameidata}
  {ps : List Part} {dir : Bool} {name : List Char} {c : ℕ}

theorem Mounts.agree (hi : Inv st) (hm : Mounts st st' t path fs d m x) :
    Agree (· ≠ d) st st' where
  dentry {e} he := by
    rw [hm.namespace_eq, Namespace.dentry_addMount, Namespace.dentry_born_of_lt he]
    split <;> exact ⟨_, rfl⟩
  entries he := by
    rw [hm.namespace_eq, Namespace.entries_addMount, Namespace.entries_born hi.wf he]
  covered {e} he hD := by
    rw [hm.namespace_eq, Namespace.covered, Namespace.dentry_addMount, if_neg hD,
      Namespace.dentry_born_of_lt he]
    rfl
  topMount {e} _ hD := by
    rw [Namespace.topMount, hm.mountList hi, List.find?_cons, hm.mount_new]
    simp only [Ne.symm hD, decide_false]
    refine List.find?_congr fun m' hm' => ?_
    rw [hm.mount_of_lt (hi.wf.chain_mountList.2 m' hm')]
  mount := hm.mount_of_lt
  rootDentry := by
    rw [hm.namespace_eq]
    rfl
  iOp := hm.rest.iOp
  places := hm.rest.places
  threadPool := hm.rest.threadPool

theorem Mounts.dentry_new (hi : Inv st) (hm : Mounts st st' t path fs d m x) :
    st'.dentry st.dentries.size = x := by
  obtain ⟨hd, -, -⟩ := hm.visible.inTree hi.wf
  rw [hm.namespace_eq, Namespace.dentry_addMount, if_neg (by exact hd.ne'),
    Namespace.dentry_born_size]

theorem Mounts.topMount_self (hi : Inv st) (hm : Mounts st st' t path fs d m x) :
    st'.topMount d = some st.mounts.size := by
  rw [Namespace.topMount, hm.mountList hi, List.find?_cons, hm.mount_new]
  simp

theorem Mounts.covered_self (hi : Inv st) (hm : Mounts st st' t path fs d m x)
    (hd : st.parent d ≠ d) : st'.covered d = true := by
  obtain ⟨hlt, -, -⟩ := hm.visible.inTree hi.wf
  have hroot : d ≠ st.rootDentry := fun he => hd (he ▸ hi.wf.root_self)
  have hcount := hi.wf.mounted hlt
  rw [if_neg hroot] at hcount
  rw [hm.namespace_eq, Namespace.covered, Namespace.dentry_addMount, if_pos rfl,
    Namespace.dentry_born_of_lt hlt]
  simp only [hm.isdir, decide_true, Bool.true_and, decide_eq_true_eq]
  omega

/-- The place that shows instead of a place after the mount: the root of the mount instead of the
directory below it. -/
def shadow (d r new : ℕ) (nd : Nameidata) : Nameidata :=
  if nd.dentry = d then ⟨r, some new⟩ else nd

theorem shadow_of_ne {r new : ℕ} (h : nd.dentry ≠ d) : shadow d r new nd = nd := if_neg h

def Found.map (f : Nameidata → Nameidata) : Found → Found
  | .hit nd => .hit (f nd)
  | found => found

theorem askDriver_map {f : Nameidata → Nameidata} :
    (askDriver st nd name).map f = askDriver st nd name := by
  cases ha : askDriver st nd name with
  | hit nd' => exact absurd ha askDriver_ne_hit
  | made nd' name' => rfl
  | absent => rfl
  | stuck => rfl

def looksIn (st : State) (d : ℕ) : List Part → Nameidata → Bool
  | [], _ => false
  | p :: ps, nd => (p.isName && nd.dentry = d) ||
    match goTo st nd p with
    | .hit nd' => looksIn st d ps nd'
    | _ => false

theorem Mounts.isdir_shadow (hi : Inv st) (hm : Mounts st st' t path fs d m x) (hs : Seen st nd) :
    (st'.dentry (shadow d st.dentries.size st.mounts.size nd).dentry).dIsdir =
      (st.dentry nd.dentry).dIsdir := by
  by_cases hnd : nd.dentry = d
  · rw [shadow, if_pos hnd, hm.dentry_new hi, hm.root.isdir, hnd, hm.isdir]
  · rw [shadow_of_ne hnd, (hm.agree hi).dIsdir (hs.lt hi)]

variable (hi : Inv st) (hm : Mounts st st' t path fs d m x) (hd : st.parent d ≠ d)

include hi hm hd

theorem Mounts.not_seen {mnt : Option ℕ} : ¬ Seen st' ⟨d, mnt⟩ := by
  rintro ⟨m', -, hv⟩
  obtain ⟨hlt, -, -⟩ := hm.visible.inTree hi.wf
  have hcov := hv.not_covered (hm.inv hi).wf (by rwa [(hm.agree hi).parent hlt])
  rw [hm.covered_self hi hd] at hcov
  cases hcov

theorem Mounts.look_shadow (hs : Seen st nd) (hne : nd.dentry ≠ d) :
    look st' nd name = (look st nd name).map (shadow d st.dentries.size st.mounts.size) := by
  have ha := hm.agree hi
  have hlt := hs.lt hi
  have hkeep : ∀ nd', Seen st nd' → nd'.dentry ≠ d → (Found.hit nd').map
      (shadow d st.dentries.size st.mounts.size) = .hit nd' := fun nd' _ hne' =>
    congrArg Found.hit (shadow_of_ne hne')
  cases hc : st.childNamed nd.dentry name with
  | none =>
    rw [ha.look hi hlt (by simp [hc]), look, hc]
    exact askDriver_map.symm
  | some c =>
    obtain ⟨hclt, hp, hcne⟩ := hi.wf.childNamed_spec hlt hc
    by_cases hcd : c = d
    · subst hcd
      -- The name leads to the directory itself, which nothing covered before.
      have hold : look st nd name = .hit ⟨c, nd.mnt⟩ := by
        rw [look, hc]
        dsimp only
        rw [arrive, hm.visible.not_covered hi.wf hd, if_neg Bool.false_ne_true]
      have hnew : look st' nd name = .hit ⟨st.dentries.size, some st.mounts.size⟩ := by
        rw [look, ha.childNamed hi hlt, hc]
        dsimp only
        rw [arrive, hm.covered_self hi hd, if_pos rfl, hm.topMount_self hi]
        dsimp only
        rw [hm.mount_new]
      rw [hold, hnew, Found.map, shadow, if_pos rfl]
    · obtain ⟨nd', hl, hs'⟩ := hs.childNamed hi hc
      rw [ha.look hi hlt fun c' hc' => by
        obtain rfl := Option.some.inj (hc.symm.trans hc')
        exact hcd, hl]
      refine (hkeep nd' hs' ?_).symm
      rw [look, hc] at hl
      dsimp only at hl
      rw [arrive] at hl
      split at hl
      · split at hl
        · obtain rfl := Found.hit.inj hl
          rintro rfl
          exact hd (hi.wf.mntRoot_root (hi.wf.topMount_lt ‹_›))
        · cases hl
      · obtain rfl := Found.hit.inj hl
        exact hcd

theorem Mounts.climb_shadow (hs : Seen st nd)
    (hs' : Seen st' (shadow d st.dentries.size st.mounts.size nd)) :
    climb st' (shadow d st.dentries.size st.mounts.size nd) =
      (climb st nd).map (shadow d st.dentries.size st.mounts.size) := by
  have ha := hm.agree hi
  obtain ⟨hlt, -, -⟩ := hm.visible.inTree hi.wf
  by_cases hnd : nd.dentry = d
  · have hmnt : nd.mnt = some m := by
      obtain ⟨m', hm', hv⟩ := hs
      rw [hnd] at hv
      rw [hm', hv.mount_unique hi.wf hm.visible]
    have hroot : d ≠ st.rootDentry := fun he => hd (he ▸ hi.wf.root_self)
    have hnew : st.dentries.size ≠ st.rootDentry := hi.wf.root_lt.ne'
    have hself : st'.parent st.dentries.size = st.dentries.size := by
      rw [Namespace.parent, hm.dentry_new hi, hm.root.parent]
    rw [shadow, if_pos hnd, climb, ha.rootDentry, if_neg hnew, if_pos hself]
    dsimp only
    rw [hm.mount_new, ha.parent hlt, climb, hnd, if_neg hroot, if_neg hd, hmnt, Found.map,
      shadow_of_ne hd]
  · rw [shadow_of_ne hnd] at hs' ⊢
    obtain ⟨nd₁, hc, hs₁⟩ := hs'.climb (hm.inv hi)
    rw [hc]
    rw [ha.climb hi hs] at hc
    rw [hc, Found.map, shadow_of_ne]
    intro he
    obtain ⟨e, mnt⟩ := nd₁
    obtain rfl : e = d := he
    exact hm.not_seen hi hd hs₁

theorem Mounts.goTo_shadow {p : Part} (hs : Seen st nd)
    (hs' : Seen st' (shadow d st.dentries.size st.mounts.size nd))
    (hp : (p.isName && nd.dentry = d) = false) :
    goTo st' (shadow d st.dentries.size st.mounts.size nd) p =
      (goTo st nd p).map (shadow d st.dentries.size st.mounts.size) := by
  cases p with
  | dot => rfl
  | dotdot => exact hm.climb_shadow hi hd hs hs'
  | name s =>
    have hne : nd.dentry ≠ d := by simpa [Part.isName] using hp
    rw [shadow_of_ne hne]
    exact hm.look_shadow hi hd hs hne

/-- The walk stays in step with the old one while it looks up no name in the directory. -/
theorem Mounts.resolve_shadow (hs : Seen st nd)
    (hs' : Seen st' (shadow d st.dentries.size st.mounts.size nd))
    (hl : looksIn st d ps nd = false) :
    resolve st' dir ps (shadow d st.dentries.size st.mounts.size nd) =
      (resolve st dir ps nd).map (shadow d st.dentries.size st.mounts.size) := by
  induction ps generalizing nd with
  | nil => rfl
  | cons p ps ih =>
    rw [looksIn, Bool.or_eq_false_iff] at hl
    have hgo := hm.goTo_shadow hi hd hs hs' hl.1
    rw [resolve, hgo, resolve]
    cases hg : goTo st nd p with
    | hit nd' =>
      have hseen := seen_goTo hi hs hg
      rw [hg] at hl hgo
      have hseen' := seen_goTo (hm.inv hi) hs' hgo
      rw [Found.map]
      dsimp only
      rw [hm.isdir_shadow hi hseen]
      split
      · rfl
      · exact ih hseen hseen' hl.2
    | made nd' name =>
      dsimp only [Found.map]
      split <;> rfl
    | absent => rfl
    | stuck => rfl

theorem Mounts.resolve_looksIn (hs : Seen st nd)
    (hs' : Seen st' (shadow d st.dentries.size st.mounts.size nd))
    (hl : looksIn st d ps nd = true) (nd₁ : Nameidata) :
    resolve st' dir ps (shadow d st.dentries.size st.mounts.size nd) ≠ .hit nd₁ := by
  induction ps generalizing nd with
  | nil => cases hl
  | cons p ps ih =>
    by_cases hp : (p.isName && nd.dentry = d) = true
    · rw [Bool.and_eq_true, decide_eq_true_eq] at hp
      cases p with
      | dot => cases hp.1
      | dotdot => cases hp.1
      | name s =>
        have hnone : st'.childNamed st.dentries.size s = none := by
          have hentries : st'.entries st.dentries.size = [] := by
            rw [Namespace.entries, hm.dentry_new hi, hm.root.subdirs]
            rfl
          rw [Namespace.childNamed, hentries]
          rfl
        rw [shadow, if_pos hp.2, resolve, goTo, look, hnone]
        cases ha : askDriver st' ⟨st.dentries.size, some st.mounts.size⟩ s with
        | hit nd' => exact absurd ha askDriver_ne_hit
        | made nd' name =>
          dsimp only
          split <;> exact Found.noConfusion
        | absent => exact Found.noConfusion
        | stuck => exact Found.noConfusion
    · rw [Bool.not_eq_true] at hp
      rw [looksIn, hp, Bool.false_or] at hl
      have hgo := hm.goTo_shadow hi hd hs hs' hp
      rw [resolve, hgo]
      cases hg : goTo st nd p with
      | hit nd' =>
        have hseen := seen_goTo hi hs hg
        rw [hg] at hl hgo
        have hseen' := seen_goTo (hm.inv hi) hs' hgo
        rw [Found.map]
        dsimp only
        split
        · exact Found.noConfusion
        · exact ih hseen hseen' hl
      | made nd' name =>
        dsimp only [Found.map]
        split <;> exact Found.noConfusion
      | absent => exact Found.noConfusion
      | stuck => exact Found.noConfusion

end Shadow

end NSOS.Vfs
