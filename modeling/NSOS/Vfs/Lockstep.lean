import NSOS.Vfs.Alike

/-! # Steps of alike states

Alike states stay alike when both take the same step, and lookups yield the
same places. Whatever reads what the kernel has not set is left out: permission
checks of `cpuinfo` and `null`, and seeks from the end of a file that is not in
`kvfs`.
-/

namespace NSOS.Vfs

open Basis Prog

section Lookups

/-- Alike states that keep their invariants. -/
structure Together (x y : State) : Prop where
  sound : Sound x
  inv : Inv y
  alike : Alike x y

variable {α : Type} {x y x' y' : State} {nd nd' : Nameidata} {name s path : List Char}
  {d m t n : ℕ} {mode : UInt16} {k : Kind} {a b : Dentry} {i j : Inode} {F G : List Obj}
  {file dir : Bool} {Q : α → State → α → State → Prop}

theorem Together.lt (h : Together x y) (hD : LiveDirAt x nd) : nd.dentry < y.dentries.size :=
  h.alike.dentries ▸ hD.lt

theorem Together.entered (h : Together x y) (hD : LiveDirAt x nd)
    (hnone : x.childNamed nd.dentry name = none) (hv : ValidName name)
    (he : Entered t mode x x' nd name k a i F) (he' : Entered t mode y y' nd name k b j G)
    (hab : b.dInode = a.dInode) (hij : k ≠ .lost → i.Alike j)
    (hperms : k ≠ .lost → (∀ op, k ≠ .directory → i.iFop = some op → op.unset name = false) →
      i.SamePerms j) :
    Together x' y' ∧ (∀ {nd}, LiveDirAt x nd → LiveDirAt x' nd) ∧
      (k ≠ .lost → LiveAt x' ⟨x.dentries.size, nd.mnt⟩) := by
  obtain ⟨hs, hkeep, hP⟩ := (walkable_live t mode).enter h.sound hD hnone hv ⟨a, i, F, he⟩
  exact ⟨⟨hs, (he'.evolves h.inv (h.lt hD)).inv,
    h.alike.entered h.sound h.inv hD.lt he he' hab hij hperms⟩, hkeep, hP⟩

theorem Together.fsOf (h : Together x y) (hm : m < x.mounts.size) :
    y.fsType (y.mount m).mntFs = x.fsType (x.mount m).mntFs := by
  obtain ⟨n, hn⟩ := h.alike.mount hm
  rw [hn]
  exact h.alike.fsType (h.sound.housed.driven hm).1

theorem run_doLookup_cached {st : State} {c : ℕ} (hw : st.toNamespace.Wf)
    (hlt : nd.dentry < st.dentries.size) (hc : st.childNamed nd.dentry name = some c)
    (ha : arrive st nd c = .hit nd') : run (doLookup nd name) st = some ((false, nd'), st) := by
  rw [doLookup, run_bind, run_findEntry hw hlt, Option.bind_some, hc]
  dsimp only
  rw [run_bind, run_enter hw ha]
  rfl

theorem run_doLookup_asked {st : State} (hw : st.toNamespace.Wf)
    (hlt : nd.dentry < st.dentries.size) (hc : st.childNamed nd.dentry name = none) :
    run (doLookup nd name) st = run (slowLookup nd name) st := by
  rw [doLookup, run_bind, run_findEntry hw hlt, Option.bind_some, hc]

/-- What lookups of a name yield in both states: the same, and when they fail the name is not
there. -/
def LooksAlike (x : State) (nd : Nameidata) (name : List Char) (r : Bool × Nameidata) (x' : State)
    (r' : Bool × Nameidata) (y' : State) : Prop :=
  r' = r ∧ Together x' y' ∧ (∀ {nd}, LiveDirAt x nd → LiveDirAt x' nd) ∧
    (r.1 = false → LiveAt x' r.2) ∧ (r.1 = true → r.2 = nd ∧ x'.childNamed nd.dentry name = none)

theorem Together.slowLookup (h : Together x y) (hD : LiveDirAt x nd) (hv : ValidName name)
    (hnone : x.childNamed nd.dentry name = none) :
    Twins x y (slowLookup nd name) (slowLookup nd name) (LooksAlike x nd name) := by
  have hal := h.alike
  obtain ⟨m, hm, hnd, ht⟩ := hD.mnt
  obtain ⟨ip, hi⟩ := Option.ne_none_iff_exists'.mp hD.inode
  have hi' : (y.dentry nd.dentry).dInode = some ip := (hal.dInode hD.lt).trans hi
  have hop : (y.inode ip).iOp = (x.inode ip).iOp := (hal.inode (hD.lives ip hi)).iOp
  have hfs := h.fsOf hm
  have howner := h.sound.housed.owner hD.lt hm ht hi
  have hentry : driverEntry y (y.inode ip).iOp nd.dentry name =
      driverEntry x (x.inode ip).iOp nd.dentry name := by rw [hop, hal.driverEntry hD.lt]
  cases hfound : driverEntry x (x.inode ip).iOp nd.dentry name with
  | none =>
    obtain ⟨x', a, i, F, hr, he, ha⟩ := run_slowLookup_lost 0 0 hD.lt hnd hi hfound
    obtain ⟨y', b, j, G, hr', he', hb⟩ :=
      run_slowLookup_lost 0 0 (h.lt hD) hnd hi' (hentry.trans hfound)
    obtain ⟨htog, hkeep, -⟩ := h.entered hD hnone hv he he' (hb.trans ha.symm)
      (fun hk => absurd rfl hk) (fun hk => absurd rfl hk)
    refine .of_run hr hr' ⟨rfl, htog, hkeep, fun hf => (by cases hf), fun _ => ⟨rfl, ?_⟩⟩
    have hlost : Enters 0 0 x nd name .lost x' := ⟨a, i, F, he⟩
    rw [hlost.childNamed_of_lost h.sound.inv.wf hD.lt, hnone]
  | some entry =>
    obtain ⟨ino, acl⟩ := entry
    obtain ⟨x', a, i, hr, he, hino, hacl⟩ := run_slowLookup_cached 0 0 hD.lt hnd hi hfound
    obtain ⟨y', b, j, hr', he', hino', hacl'⟩ :=
      run_slowLookup_cached 0 0 (h.lt hD) hnd hi' (hentry.trans hfound)
    obtain ⟨m₁, ip₁, hm₁, -, -, hiop, hifop⟩ := he.inodes
    obtain ⟨m₂, ip₂, hm₂, -, -, hjop, hjfop⟩ := he'.inodes
    obtain rfl : m = m₁ := Option.some.inj (hnd.symm.trans hm₁)
    obtain rfl : m = m₂ := Option.some.inj (hnd.symm.trans hm₂)
    rw [hfs] at hjop hjfop
    have halike : i.Alike j := by
      refine ⟨hjop.trans hiop.symm, hjfop.trans hifop.symm, fun _ => hino'.trans hino.symm, ?_⟩
      intro hkvfs
      rw [howner, Option.some.inj (hifop.symm.trans hkvfs)] at hfound
      cases hfound
    have hperms : (∀ op, Kind.cached ≠ .directory → i.iFop = some op → op.unset name = false) →
        i.SamePerms j := by
      intro hset
      rcases driverEntry_acl hfound with hunset | rfl
      · rw [howner, hset _ (by simp) hifop] at hunset
        cases hunset
      · intro uid gid flags
        rw [checkAcl_aclRead (hacl _ rfl), checkAcl_aclRead (hacl' _ rfl)]
    have hab : b.dInode = a.dInode := by
      rcases he.dInode with hx | ⟨hk, -⟩
      · rcases he'.dInode with hy | ⟨hk, -⟩
        · rw [hx, hy, hal.inodes]
        · cases hk
      · cases hk
    obtain ⟨htog, hkeep, hP⟩ := h.entered hD hnone hv he he' hab (fun _ => halike)
      (fun _ => hperms)
    rw [hal.dentries] at hr'
    exact .of_run hr hr' ⟨rfl, htog, hkeep, fun _ => hP (by simp), fun hf => by cases hf⟩

theorem Together.doLookup (h : Together x y) (hD : LiveDirAt x nd) (hv : ValidName name) :
    Twins x y (doLookup nd name) (doLookup nd name) (LooksAlike x nd name) := by
  have hchild : y.childNamed nd.dentry name = x.childNamed nd.dentry name :=
    h.alike.childNamed h.sound.inv.wf hD.lt
  cases hc : x.childNamed nd.dentry name with
  | some c =>
    obtain ⟨nd', ha, hP⟩ := h.sound.arrive hD hc
    have ha' := (h.alike.arrive h.sound hD hc).trans ha
    refine .of_run (run_doLookup_cached h.sound.inv.wf hD.lt hc ha)
      (run_doLookup_cached h.inv.wf (h.lt hD) (hchild.trans hc) ha') ?_
    exact ⟨rfl, h, id, fun _ => hP, fun hf => by cases hf⟩
  | none =>
    have hslow := h.slowLookup hD hv hc
    rwa [Twins, ← run_doLookup_asked h.sound.inv.wf hD.lt hc,
      ← run_doLookup_asked h.inv.wf (h.lt hD) (hchild.trans hc)] at hslow

/-- What walks yield in both states: the same place, whose inode is in use. -/
def WalksAlike (x : State) (r : Option ℕ × Nameidata) (x' : State) (r' : Option ℕ × Nameidata)
    (y' : State) : Prop :=
  r' = r ∧ Together x' y' ∧ (∀ {nd}, LiveDirAt x nd → LiveDirAt x' nd) ∧
    ∀ d, r.1 = some d → r.2.dentry = d ∧ LiveAt x' r.2

theorem WalksAlike.of_keep {z : State} {r r' : Option ℕ × Nameidata}
    (hkeep : ∀ {nd}, LiveDirAt z nd → LiveDirAt x nd) (h : WalksAlike x r x' r' y') :
    WalksAlike z r x' r' y' :=
  ⟨h.1, h.2.1, fun hD => h.2.2.1 (hkeep hD), h.2.2.2⟩

theorem Together.fails (h : Together x y) :
    Twins x y (pure (none, nd) : Code (Option ℕ × Nameidata)) (pure (none, nd) : Code _)
      (WalksAlike x) :=
  .pure ⟨rfl, h, fun hD => hD, fun d hd => by cases hd⟩

theorem Together.arrives (h : Together x y) (hP : LiveAt x nd) :
    Twins x y (pure (some nd.dentry, nd) : Code (Option ℕ × Nameidata))
      (pure (some nd.dentry, nd) : Code _) (WalksAlike x) :=
  .pure ⟨rfl, h, fun hD => hD, fun _ hd => ⟨Option.some.inj hd, hP⟩⟩

theorem LiveDirAt.liveAt (hD : LiveDirAt x nd) : LiveAt x nd := ⟨hD.toAt, hD.lives⟩

theorem Together.isdir (h : Together x y) (hP : LiveAt x nd) :
    (y.dentry nd.dentry).dIsdir = (x.dentry nd.dentry).dIsdir :=
  h.alike.isdir_of_lives hP.lt hP.inode hP.lives

theorem Together.starts {f g : Nameidata → Code α} (h : Together x y) (ht : x.Running t)
    (hf : LiveDirAt x (start x t path) → Twins x y (f (start x t path)) (g (start x t path)) Q) :
    Twins x y (startOf t path >>= f) (startOf t path >>= g) Q := by
  have hstart : start y t path = start x t path := by
    rw [start, h.alike.thread, start]
  apply Twins.bind_run run_startOf run_startOf
  rw [hstart]
  exact hf (h.sound.start ht)

theorem Together.climbs {f g : Nameidata → Code α} (h : Together x y) (hD : LiveDirAt x nd)
    (hf : ∀ {nd'}, LiveDirAt x nd' → Twins x y (f nd') (g nd') Q) :
    Twins x y (followDotdot nd >>= f) (followDotdot nd >>= g) Q := by
  obtain ⟨nd', hc, hD'⟩ := h.sound.climb hD
  have hc' := (h.alike.climb h.sound hD).trans hc
  exact .bind_run (run_followDotdot hc) (run_followDotdot hc') (hf hD')

theorem Together.sees {f g : Bool → Code α} (h : Together x y) (hP : LiveAt x nd)
    (hf : Twins x y (f (x.dentry nd.dentry).dIsdir) (g (x.dentry nd.dentry).dIsdir) Q) :
    Twins x y (isDir nd >>= f) (isDir nd >>= g) Q := by
  apply Twins.bind_run run_isDir run_isDir
  rw [h.isdir hP]
  exact hf

theorem Together.descends {p q : Code (Option ℕ × Nameidata)} (h : Together x y)
    (hP : LiveAt x nd) (hp : LiveDirAt x nd → Twins x y p q (WalksAlike x)) :
    Twins x y (do if ← isDir nd then p else return (none, nd))
      (do if ← isDir nd then q else return (none, nd)) (WalksAlike x) := by
  apply h.sees hP
  apply Twins.ite Iff.rfl
  · exact fun hd => hp ⟨⟨hP.toAt, hd⟩, hP.lives⟩
  · exact fun _ => h.fails

theorem Together.pathLoop (h : Together x y) (hD : LiveDirAt x nd) (hs : AtName s) :
    Twins x y (pathLoop n s dir nd) (pathLoop n s dir nd) (WalksAlike x) := by
  induction n generalizing x y s dir nd with
  | zero => exact .stop
  | succ n ih =>
    -- A part that needs no directory.
    have hstep : ∀ {nd'}, LiveDirAt x nd' → Twins x y
        (if remainder s = [] then return (some nd'.dentry, nd')
          else pathLoop n (remainder s) (dir || trailing s) nd' : Code _)
        (if remainder s = [] then return (some nd'.dentry, nd')
          else pathLoop n (remainder s) (dir || trailing s) nd' : Code _) (WalksAlike x) := by
      intro nd' hD'
      apply Twins.ite Iff.rfl
      · exact fun _ => h.arrives hD'.liveAt
      · exact fun hr => ih h hD' (atName_remainder hr)
    rw [pathLoop]
    apply Twins.ite Iff.rfl
    · exact fun _ => hstep hD
    intro hdot
    apply Twins.ite Iff.rfl
    · exact fun _ => h.climbs hD hstep
    intro hdd
    apply (h.doLookup hD (hs.validName hdot hdd)).bind
    rintro ⟨failed, nd'⟩ x' _ y' ⟨rfl, h', hkeep, hP, -⟩
    refine Twins.mono (Q := WalksAlike x') ?_ fun hw => hw.of_keep hkeep
    cases failed with
    | true => exact h'.fails
    | false =>
      have hP : LiveAt x' nd' := hP rfl
      dsimp only
      rw [if_neg Bool.false_ne_true]
      apply Twins.ite Iff.rfl
      · exact fun hr => h'.descends hP fun hD' => ih h' hD' (atName_remainder hr)
      · intro _
        apply h'.sees hP
        apply Twins.ite Iff.rfl
        · exact fun _ => h'.fails
        · exact fun _ => h'.arrives hP

/-- `path_lookup` leads to the same place. -/
theorem Together.pathLookup (h : Together x y) (ht : x.Running t) :
    Twins x y (pathLookup t path dir) (pathLookup t path dir) (WalksAlike x) := by
  apply h.starts ht
  intro hD
  apply Twins.ite Iff.rfl
  · exact fun _ => h.arrives hD.liveAt
  · exact fun hr => h.pathLoop hD (atName_dropWhile hr)

def MakesAlike (x : State) (r : Option Nameidata) (x' : State) (r' : Option Nameidata)
    (y' : State) : Prop :=
  r' = r ∧ Together x' y' ∧ (∀ {nd}, LiveDirAt x nd → LiveDirAt x' nd) ∧
    ∀ nd, r = some nd → LiveAt x' nd

theorem Alike.makes (h : Alike x y) (op : Driver) : y.makes op file = x.makes op file := by
  cases op with
  | kvfs =>
    cases file with
    | true => simp only [State.makes, State.freeSlot?, h.kvfsFiles]
    | false => rfl
  | procfs => rfl
  | devfs => rfl

theorem Together.makeEntry (h : Together x y) (hD : LiveDirAt x nd) (hv : ValidName name)
    (hnone : x.childNamed nd.dentry name = none) :
    Twins x y (makeEntry t nd name file mode) (makeEntry t nd name file mode) (MakesAlike x) := by
  have hal := h.alike
  obtain ⟨m, hm, hnd, -⟩ := hD.mnt
  obtain ⟨k, x', a, i, F, hk, he, ha, hr⟩ := run_makeEntry_makes x t name file mode hnd
  obtain ⟨k', y', b, j, G, hk', he', hb, hr'⟩ := run_makeEntry_makes y t name file mode hnd
  obtain rfl : k' = k := by rw [hk, hk', h.fsOf hm, hal.makes]
  have halike : k' ≠ .lost → i.Alike j ∧ i.SamePerms j := by
    intro hne
    rcases makes_cases x (x.fsType (x.mount m).mntFs).iop file with
      hlost | ⟨-, ⟨-, hdir⟩ | ⟨-, s, -, hfile⟩⟩
    · exact absurd (hk.trans hlost) hne
    · obtain rfl := hk.trans hdir
      obtain ⟨hu, hg, hacl, ho, hf⟩ := he.inodes
      obtain ⟨hu', hg', hacl', ho', hf'⟩ := he'.inodes
      rw [hal.thread] at hu' hg'
      have hperms : i.SamePerms j :=
        Inode.samePerms (hu'.trans hu.symm) (hg'.trans hg.symm) (hacl'.trans hacl.symm)
      exact ⟨⟨ho'.trans ho.symm, hf'.trans hf.symm, fun hne => absurd hf hne,
        fun hkvfs => by cases hf.symm.trans hkvfs⟩, hperms⟩
    · obtain rfl := hk.trans hfile
      obtain ⟨-, -, hi⟩ := he.inodes
      obtain ⟨-, -, hj⟩ := he'.inodes
      rw [hal.thread, ← hi] at hj
      rw [hj]
      exact ⟨.refl, fun _ _ _ => rfl⟩
  obtain ⟨htog, hkeep, hP⟩ := h.entered hD hnone hv he he' (by rw [ha, hb, hal.inodes])
    (fun hne => (halike hne).1) fun hne _ => (halike hne).2
  rw [hal.dentries] at hr'
  refine .of_run hr hr' ⟨rfl, htog, hkeep, fun nd' hnd' => ?_⟩
  split at hnd'
  · cases hnd'
  case isFalse hne =>
    obtain rfl := Option.some.inj hnd'
    exact hP hne

theorem Together.lookupOrMake (h : Together x y) (hD : LiveDirAt x nd) (hv : ValidName name) :
    Twins x y (lookupOrMake t nd name file mode) (lookupOrMake t nd name file mode)
      (MakesAlike x) := by
  apply (h.doLookup hD hv).bind
  rintro ⟨failed, nd'⟩ x' _ y' ⟨rfl, h', hkeep, hP, hfail⟩
  cases failed with
  | false => exact .pure ⟨rfl, h', hkeep, fun _ hnd => Option.some.inj hnd ▸ hP rfl⟩
  | true =>
    obtain ⟨hnd, hnone⟩ := hfail rfl
    obtain rfl : nd' = nd := hnd
    have hD' := hkeep hD
    have hal := h'.alike
    dsimp only
    rw [if_pos rfl]
    refine Twins.gets ?_ ?_
    · exact hal.dInode hD'.lt
    refine Twins.demand rfl fun ip hip => ?_
    obtain ⟨hisdir, hperms⟩ := hal.isdir hD'.lt hip (hD'.lives ip hip)
    apply Twins.bind_run (run_gets _) (run_gets _)
    refine Twins.gets ?_ ?_
    · rw [hal.thread]
    refine Twins.gets ?_ ?_
    · rw [hal.thread]
    apply Twins.ite
    · rw [hperms fun hunset => absurd (hunset.1.symm.trans hD'.isdir) Bool.false_ne_true]
    · exact fun _ => .pure ⟨rfl, h', hkeep, fun _ hnd => by cases hnd⟩
    · intro _
      refine (h'.makeEntry hD' hv hnone).mono ?_
      rintro _ x₂ r y₂ ⟨rfl, h₂, hkeep₂, hP₂⟩
      exact ⟨rfl, h₂, fun hD => hkeep₂ (hkeep hD), hP₂⟩

theorem Together.makeLoop (h : Together x y) (hD : LiveDirAt x nd) (hs : AtName s) :
    Twins x y (makeLoop t dir mode n s nd) (makeLoop t dir mode n s nd) (WalksAlike x) := by
  induction n generalizing x y s nd with
  | zero => exact .stop
  | succ n ih =>
    -- A part that needs no directory.
    have hstep : ∀ {nd'}, LiveDirAt x nd' → Twins x y
        (if remainder s = [] then return (if dir then some nd'.dentry else none, nd')
          else makeLoop t dir mode n (remainder s) nd' : Code _)
        (if remainder s = [] then return (if dir then some nd'.dentry else none, nd')
          else makeLoop t dir mode n (remainder s) nd' : Code _) (WalksAlike x) := by
      intro nd' hD'
      apply Twins.ite Iff.rfl
      · intro _
        cases dir with
        | true => exact h.arrives hD'.liveAt
        | false => exact h.fails
      · exact fun hr => ih h hD' (atName_remainder hr)
    rw [makeLoop]
    apply Twins.ite Iff.rfl
    · exact fun _ => h.fails
    intro _
    apply Twins.ite Iff.rfl
    · exact fun _ => hstep hD
    intro hdot
    apply Twins.ite Iff.rfl
    · exact fun _ => h.climbs hD hstep
    intro hdd
    apply (h.lookupOrMake hD (hs.validName hdot hdd)).bind
    rintro _ x' r y' ⟨rfl, h', hkeep, hP⟩
    refine Twins.mono (Q := WalksAlike x') ?_ fun hw => hw.of_keep hkeep
    cases r with
    | none => exact h'.fails
    | some nd' =>
      have hP : LiveAt x' nd' := hP nd' rfl
      apply Twins.ite Iff.rfl
      · exact fun hr => h'.descends hP fun hD' => ih h' hD' (atName_remainder hr)
      · intro _
        apply h'.sees hP
        apply Twins.ite Iff.rfl
        · exact fun _ => h'.arrives hP
        · exact fun _ => h'.fails

theorem Together.makePath (h : Together x y) (ht : x.Running t) :
    Twins x y (makePath t path dir mode) (makePath t path dir mode) (WalksAlike x) := by
  apply h.starts ht
  intro hD
  apply Twins.ite Iff.rfl
  · intro _
    cases dir with
    | true => exact h.arrives hD.liveAt
    | false => exact h.fails
  · exact fun hr => h.makeLoop hD (atName_dropWhile hr)

end Lookups

section Writes

/-- Alike states in which an open file leads to the same regular file. -/
structure Writing (x y : State) (fp ip : ℕ) : Prop where
  alike : Alike x y
  lt : fp < x.files.size
  opened : (x.file fp).fInode = ip
  isFile : x.IsFile ip

variable {x y : State} {fp ip : ℕ}

theorem Writing.file (h : Writing x y fp ip) : y.file fp = x.file fp := h.alike.file h.lt

theorem Writing.size (h : Writing x y fp ip) : (y.inode ip).iSize = (x.inode ip).iSize :=
  (h.alike.inode h.isFile.1).size h.isFile.2

theorem Writing.iIno (h : Writing x y fp ip) : (y.inode ip).iIno = (x.inode ip).iIno :=
  (h.alike.inode h.isFile.1).iIno (by rw [h.isFile.2]; simp)

theorem Writing.node (h : Writing x y fp ip) :
    y.kvfsFiles (y.inode (y.file fp).fInode).iIno =
      x.kvfsFiles (x.inode (x.file fp).fInode).iIno := by
  rw [h.file, h.opened, h.iIno, h.alike.kvfsFiles]

theorem Writing.fileSize (h : Writing x y fp ip) :
    (y.inode (y.file fp).fInode).iSize = (x.inode (x.file fp).fInode).iSize := by
  rw [h.file, h.opened, h.size]

theorem Writing.blocks_freed (h : Writing x y fp ip) (B B' : Pool (ℤ → UInt8)) (L L' : List Obj)
    (hB : B'.size = B.size) (hL : ∀ i, .inode i ∈ L ↔ .inode i ∈ x.freed) :
    Writing { x with blocks := B, freed := L } { y with blocks := B', freed := L' } fp ip :=
  ⟨h.alike.blocks_freed hB hL, h.lt, h.opened,
    ⟨h.isFile.1.1, fun hmem => h.isFile.1.2 ((hL ip).mp hmem)⟩, h.isFile.2⟩

theorem Writing.fill (h : Writing x y fp ip) (p : Ptr) (n : ℕ) (g : ℕ → UInt8) :
    Writing (x.fill p n g) (y.fill p n g) fp ip :=
  h.blocks_freed _ _ x.freed y.freed h.alike.blocks fun _ => Iff.rfl

theorem Writing.moved (h : Writing x y fp ip) {g g' : File → ℤ}
    (hg : g' (x.file fp) = g (x.file fp)) :
    Writing { x with files := x.files.set fp fun f => { f with fPos := g f } }
      { y with files := y.files.set fp fun f => { f with fPos := g' f } } fp ip := by
  refine ⟨h.alike.moved h.lt hg, h.lt, ?_, h.isFile⟩
  rw [State.file, Pool.obj_set_self]
  exact h.opened

theorem Writing.setSize (h : Writing x y fp ip) (n : ℤ) :
    Writing (x.setSize ip n) (y.setSize ip n) fp ip := by
  refine ⟨h.alike.setSize ip n, h.lt, h.opened, h.isFile.1, ?_⟩
  rw [inode_setSize]
  exact h.isFile.2

theorem Writing.table (h : Writing x y fp ip) (K : ℤ → KvfsFileNode) :
    Writing { x with kvfsFiles := K } { y with kvfsFiles := K } fp ip :=
  ⟨{ h.alike with kvfsFiles := rfl }, h.lt, h.opened, h.isFile⟩

theorem Writing.seekAppend (h : Writing x y fp ip) (mode : UInt32) :
    Twins x y (seekAppend fp mode) (seekAppend fp mode) fun _ x' _ y' => Writing x' y' fp ip := by
  unfold Vfs.seekAppend
  apply Twins.ite Iff.rfl
  · intro _
    refine Twins.gets ?_ ?_
    · exact h.fileSize
    · exact .of_run rfl rfl (h.moved rfl)
  · exact fun _ => .pure h

theorem Writing.memcpy (h : Writing x y fp ip) (p q : Ptr) (n : ℕ) :
    Twins x y (memcpy p q n) (memcpy p q n) fun _ x' _ y' => Writing x' y' fp ip := by
  obtain ⟨B, hB, -, hx⟩ := run_memcpy_blocks x p q n
  obtain ⟨B', hB', -, hy⟩ := run_memcpy_blocks y p q n
  refine .of_run hx hy (h.blocks_freed _ _ x.freed y.freed ?_ fun _ => Iff.rfl)
  exact hB'.trans (h.alike.blocks.trans hB.symm)

theorem Writing.free (h : Writing x y fp ip) (b : ℕ) :
    Twins x y (free (.block b)) (free (.block b)) fun _ x' _ y' => Writing x' y' fp ip :=
  .of_run rfl rfl (h.blocks_freed _ _ _ _ h.alike.blocks (by simp))

theorem Writing.allocBlock (h : Writing x y fp ip) :
    Twins x y allocBlock allocBlock fun p x' q y' => q = p ∧ Writing x' y' fp ip := by
  refine .of_run rfl rfl ⟨?_, ?_⟩
  · exact congrArg (Ptr.mk · 0) h.alike.blocks
  · exact h.blocks_freed _ _ x.freed y.freed (congrArg (· + 1) h.alike.blocks) fun _ => Iff.rfl

theorem Writing.kvfsGrow (h : Writing x y fp ip) (count : ℕ) :
    Twins x y (kvfsGrow fp count) (kvfsGrow fp count) fun r x' r' y' =>
      r' = r ∧ Writing x' y' fp ip := by
  unfold Vfs.kvfsGrow
  refine Twins.gets ?_ ?_
  · rw [h.file]
  apply h.allocBlock.bind
  rintro - x₁ start y₁ ⟨rfl, h₁⟩
  refine .bind_run run_memset run_memset ?_
  have h₂ := h₁.fill start (toInt ((x.file fp).fPos + count)).toNat fun _ => 0
  generalize State.fill x₁ _ _ _ = x₂ at h₂ ⊢
  generalize State.fill y₁ _ _ _ = y₂ at h₂ ⊢
  refine Twins.gets ?_ ?_
  · exact congrArg KvfsFileNode.start h₂.node
  apply Twins.ite Iff.rfl
  · intro _
    refine Twins.gets ?_ ?_
    · exact h₂.fileSize
    apply (h₂.memcpy _ _ _).bind
    rintro - x₃ - y₃ h₃
    apply (h₃.free _).bind
    rintro - x₄ - y₄ h₄
    exact .pure ⟨rfl, h₄⟩
  · exact fun _ => .pure ⟨rfl, h₂⟩

theorem Writing.raiseSize (h : Writing x y fp ip) (n : ℤ) :
    Twins x y (raiseSize ip n) (raiseSize ip n) fun _ x' _ y' => Writing x' y' fp ip := by
  unfold Vfs.raiseSize
  refine Twins.gets ?_ ?_
  · exact h.size
  apply Twins.ite Iff.rfl
  · exact fun _ => .of_run rfl rfl (h.setSize _)
  · exact fun _ => .pure h

theorem Writing.kvfsStore (h : Writing x y fp ip) (buf : List UInt8) (start last : Ptr) :
    Twins x y (kvfsStore fp buf start last) (kvfsStore fp buf start last) fun r x' r' y' =>
      r' = r ∧ Writing x' y' fp ip := by
  unfold Vfs.kvfsStore
  refine Twins.gets ?_ ?_
  · rw [h.file]
  refine .bind_run run_memcpyFrom run_memcpyFrom ?_
  have h₁ := h.fill (start.add (x.file fp).fPos) (toInt buf.length).toNat fun i => buf.getD i 0
  generalize State.fill x _ _ _ = x₁ at h₁ ⊢
  generalize State.fill y _ _ _ = y₁ at h₁ ⊢
  refine Twins.gets ?_ ?_
  · exact congrArg File.fInode h₁.file
  rw [h₁.opened]
  apply (h₁.raiseSize _).bind
  rintro - x₂ - y₂ h₂
  refine Twins.gets ?_ ?_
  · exact h₂.iIno
  refine Twins.modify ?_
  dsimp only
  rw [h₂.alike.kvfsFiles]
  exact .bind_run rfl rfl (.pure ⟨rfl, (h₂.table _).moved rfl⟩)

theorem Writing.kvfsWrite (h : Writing x y fp ip) (buf : List UInt8) :
    Twins x y (kvfsWrite fp buf) (kvfsWrite fp buf) fun r x' r' y' =>
      r' = r ∧ Alike x' y' := by
  unfold Vfs.kvfsWrite
  refine Twins.gets ?_ ?_
  · exact h.node
  refine Twins.gets ?_ ?_
  · rw [h.file]
  apply (h.seekAppend _).bind
  rintro - x' - y' h'
  apply Twins.ite Iff.rfl
  · exact fun _ => .pure ⟨rfl, h'.alike⟩
  intro _
  refine Twins.gets ?_ ?_
  · rw [h'.file]
  refine Twins.gets ?_ ?_
  · exact h'.fileSize
  apply Twins.ite Iff.rfl
  · intro _
    apply (h'.kvfsGrow _).bind
    rintro - x₂ ⟨start, last⟩ y₂ ⟨rfl, h₂⟩
    exact (h₂.kvfsStore buf start last).mono fun hw => ⟨hw.1, hw.2.alike⟩
  · intro _
    exact (h'.kvfsStore buf _ _).mono fun hw => ⟨hw.1, hw.2.alike⟩

end Writes

end NSOS.Vfs
