import NSOS.Vfs.Change
import NSOS.Vfs.Inodes
import Mathlib.Data.List.Nodup

/-! # What steps can do

Every step of the file system is one of a few effects: new entries, an open
file, a changed descriptor, a write to a regular file, a mount or the end of
one, and changes of threads. Invariants about files are kept effect by effect.
-/

namespace NSOS.Vfs

open Basis Prog

section Kept

def State.IsFile (st : State) (i : ℕ) : Prop := st.Live i ∧ (st.inode i).iFop = some .kvfs

instance {st : State} {i : ℕ} : Decidable (st.IsFile i) :=
  inferInstanceAs (Decidable (_ ∧ _))

def newFile (th : Thread) (mode : UInt16) (slot : ℕ) : Inode :=
  ⟨th.uid, th.gid, mode, slot, 0, .kvfs, some .kvfs⟩

def Obj.Since (st st' : State) : Obj → Prop
  | inode i => st.inodes.size ≤ i ∧ i < st'.inodes.size
  | dentry d => st.dentries.size ≤ d ∧ d < st'.dentries.size
  | iname d => st.dentries.size ≤ d ∧ d < st'.dentries.size ∧ st'.parent d ≠ d
  | _ => False

/-- What new entries leave alone. New files of thread `t` are empty and get free slots, and only
new objects are given back. -/
structure Kept (t : ℕ) (mode : UInt16) (st st' : State) : Prop where
  rest : st' = { st with
    toNamespace := st'.toNamespace
    inodes := st'.inodes
    kvfsFiles := st'.kvfsFiles
    freed := st'.freed }
  grown : Namespace.Grown st.toNamespace st'.toNamespace
  inodes_le : st.inodes.size ≤ st'.inodes.size
  inode : ∀ {i}, i < st.inodes.size → st'.inode i = st.inode i
  table : ∀ {k}, (st.kvfsFiles k).inuse = true → st'.kvfsFiles k = st.kvfsFiles k
  freed : ∃ F, st'.freed = F ++ st.freed ∧ F.Nodup ∧ ∀ o ∈ F, o.Since st st'
  born : ∀ {i}, st'.IsFile i → st.inodes.size ≤ i → ∃ s < KVFS_MAX_FILE,
    (st.kvfsFiles s).inuse = false ∧ st'.kvfsFiles s = ⟨true, .null, .null⟩ ∧
      st'.inode i = newFile (st.thread t) mode s
  apart : ∀ {i j}, st'.IsFile i → st'.IsFile j → st.inodes.size ≤ i → st.inodes.size ≤ j →
    (st'.inode i).iIno = (st'.inode j).iIno → i = j

variable {st st' st'' : State} {t i : ℕ} {mode : UInt16} {nd : Nameidata} {name : List Char}
  {k : Kind} {y : Dentry} {j : Inode} {F : List Obj}

theorem Obj.Since.mono {st₁ st₂ : State} {o : Obj} (h : o.Since st st')
    (hi : st₁.inodes.size ≤ st.inodes.size) (hd : st₁.dentries.size ≤ st.dentries.size)
    (hi' : st'.inodes.size ≤ st₂.inodes.size)
    (hg : Namespace.Grown st'.toNamespace st₂.toNamespace) : o.Since st₁ st₂ := by
  cases o with
  | inode i => exact ⟨hi.trans h.1, h.2.trans_le hi'⟩
  | dentry d => exact ⟨hd.trans h.1, h.2.trans_le hg.size_le⟩
  | iname d =>
    refine ⟨hd.trans h.1, h.2.1.trans_le hg.size_le, ?_⟩
    rw [hg.parent h.2.1]
    exact h.2.2
  | vfsmount m => exact h
  | fsType f => exact h
  | file f => exact h
  | block b => exact h

theorem Obj.Since.not_since {o : Obj} (h : o.Since st st') : ¬ o.Since st' st'' := by
  intro h'
  cases o with
  | inode i => exact absurd h.2 (not_lt.mpr h'.1)
  | dentry d => exact absurd h.2 (not_lt.mpr h'.1)
  | iname d => exact absurd h.2.1 (not_lt.mpr h'.1)
  | vfsmount m => exact h
  | fsType f => exact h
  | file f => exact h
  | block b => exact h

theorem Kept.refl : Kept t mode st st where
  rest := rfl
  grown := .refl
  inodes_le := le_rfl
  inode _ := rfl
  table _ := rfl
  freed := ⟨[], rfl, List.nodup_nil, fun _ ho => absurd ho List.not_mem_nil⟩
  born hi hle := absurd hi.1.1 (not_lt.mpr hle)
  apart hi _ hle := absurd hi.1.1 (not_lt.mpr hle)

theorem Kept.live (h : Kept t mode st st') (hi : i < st.inodes.size) :
    st'.Live i ↔ st.Live i := by
  obtain ⟨F, hF, -, hmem⟩ := h.freed
  have hnot : .inode i ∉ F := fun hin => absurd (hmem _ hin).1 (not_le.mpr hi)
  rw [State.Live, State.Live, hF, List.mem_append, not_or]
  exact ⟨fun hl => ⟨hi, hl.2.2⟩, fun hl => ⟨hi.trans_le h.inodes_le, hnot, hl.2⟩⟩

theorem Kept.isFile (h : Kept t mode st st') (hi : i < st.inodes.size) :
    st'.IsFile i ↔ st.IsFile i := by
  rw [State.IsFile, State.IsFile, h.live hi, h.inode hi]

theorem Kept.trans (h : Kept t mode st st') (h' : Kept t mode st' st'') : Kept t mode st st'' where
  rest := by
    rw [h'.rest, h.rest]
  grown := h.grown.trans h'.grown
  inodes_le := h.inodes_le.trans h'.inodes_le
  inode hi := (h'.inode (hi.trans_le h.inodes_le)).trans (h.inode hi)
  table hk := by
    rw [h'.table (h.table hk ▸ hk), h.table hk]
  freed := by
    obtain ⟨F, hF, hnodup, hmem⟩ := h.freed
    obtain ⟨F', hF', hnodup', hmem'⟩ := h'.freed
    have hle := h.inodes_le
    have hle' := h.grown.size_le
    refine ⟨F' ++ F, by rw [hF', hF, List.append_assoc], ?_, fun o ho => ?_⟩
    · refine hnodup'.append hnodup fun o ho' ho => ?_
      exact (hmem o ho).not_since (hmem' o ho')
    · rcases List.mem_append.mp ho with ho | ho
      · exact (hmem' o ho).mono h.inodes_le h.grown.size_le le_rfl .refl
      · exact (hmem o ho).mono le_rfl le_rfl h'.inodes_le h'.grown
  born {i} hi hle := by
    by_cases hlt : i < st'.inodes.size
    · obtain ⟨s, hs, hfree, hslot, hnew⟩ := h.born ((h'.isFile hlt).mp hi) hle
      exact ⟨s, hs, hfree, by rw [h'.table (hslot ▸ rfl), hslot], by rw [h'.inode hlt, hnew]⟩
    · obtain ⟨s, hs, hfree, hslot, hnew⟩ := h'.born hi (by omega)
      refine ⟨s, hs, ?_, hslot, ?_⟩
      · by_contra hk
        rw [Bool.not_eq_false] at hk
        rw [h.table hk, hk] at hfree
        cases hfree
      · rw [hnew, h.rest]
  apart {i j} hi hj hle hle' hino := by
    -- A file that was made first has a slot in use, and one that was made later had a free one.
    have hmixed : ∀ {i j}, st''.IsFile i → st''.IsFile j → st.inodes.size ≤ i →
        i < st'.inodes.size → st'.inodes.size ≤ j → (st''.inode i).iIno ≠ (st''.inode j).iIno := by
      intro i j hi hj hle hlt hge heq
      obtain ⟨s, -, -, hslot, hs⟩ := h.born ((h'.isFile hlt).mp hi) hle
      obtain ⟨s', -, hfree, -, hs'⟩ := h'.born hj hge
      rw [h'.inode hlt, hs, hs'] at heq
      have heq : (s : ℤ) = s' := heq
      rw [← heq, hslot] at hfree
      cases hfree
    by_cases hlt : i < st'.inodes.size
    · by_cases hlt' : j < st'.inodes.size
      · rw [h'.inode hlt, h'.inode hlt'] at hino
        exact h.apart ((h'.isFile hlt).mp hi) ((h'.isFile hlt').mp hj) hle hle' hino
      · exact absurd hino (hmixed hi hj hle hlt (not_lt.mp hlt'))
    · by_cases hlt' : j < st'.inodes.size
      · exact absurd hino.symm (hmixed hj hi hle' hlt' (not_lt.mp hlt))
      · exact h'.apart hi hj (not_lt.mp hlt) (not_lt.mp hlt') hino

theorem Entered.kept (he : Entered t mode st st' nd name k y j F) (h : Housed st)
    (hD : DirAt st nd) : Kept t mode st st' where
  rest := by rw [he.state_eq]
  grown := he.namespace_eq ▸ Namespace.grown_enter hD.lt
  inodes_le := by
    rw [he.state_eq]
    exact Nat.le_succ _
  inode hi := he.inode_of_lt hi
  table {s} hs := by
    rw [he.state_eq]
    cases k with
    | file i =>
      refine Function.update_of_ne ?_ _ _
      rintro rfl
      rw [he.inodes.2.1] at hs
      cases hs
    | lost => rfl
    | cached => rfl
    | directory => rfl
  freed := by
    refine ⟨F, by rw [he.state_eq], he.nodup, fun o ho => ?_⟩
    have hsize : st'.inodes.size = st.inodes.size + 1 := by
      rw [he.state_eq]
      rfl
    obtain ⟨hlt, o', hnew⟩ := he.dentry_size hD.lt
    rcases he.freed o ho with rfl | rfl | rfl
    · exact ⟨le_rfl, hsize ▸ Nat.lt_succ_self _⟩
    · refine ⟨le_rfl, hlt, ?_⟩
      rw [Namespace.parent, hnew]
      exact he.dParent.symm ▸ hD.lt.ne
    · exact ⟨le_rfl, hlt⟩
  born {i} hi hle := by
    obtain ⟨⟨hlt, hkept⟩, hfop⟩ := hi
    rw [he.state_eq] at hlt hkept
    have hlt : i < st.inodes.size + 1 := hlt
    obtain rfl : i = st.inodes.size := by omega
    rw [he.inode_size] at hfop ⊢
    cases k with
    | lost => exact absurd (List.mem_append_left _ (he.lost rfl)) hkept
    | directory =>
      rw [he.inodes.2.2.2.2] at hfop
      cases hfop
    | file s =>
      obtain ⟨hs, hfree, hj⟩ := he.inodes
      refine ⟨s, hs, hfree, ?_, hj⟩
      rw [he.state_eq]
      exact Function.update_self ..
    | cached =>
      -- The driver of the directory has the entry, and it is the driver of the mount.
      obtain ⟨m, ip, hm, hip, hsome, -, hj⟩ := he.inodes
      obtain ⟨m', hm', hnd, ht⟩ := hD.mnt
      obtain rfl : m' = m := Option.some.inj (hnd.symm.trans hm)
      rw [h.owner hD.lt hm' ht hip] at hsome
      rw [Option.some.inj (hj.symm.trans hfop)] at hsome
      cases hsome
  apart {i i'} hi hi' hle hle' _ := by
    have hsize : st'.inodes.size = st.inodes.size + 1 := by
      rw [he.state_eq]
      rfl
    have hlt := hi.1.1
    have hlt' := hi'.1.1
    omega

theorem Walked.kept {ps : List Part} {file : Bool} {o : Option ℕ} (h : Sound st)
    (hw : Walked t mode Sound LiveDirAt ps file o st st') : Kept t mode st st' := by
  have hstep : ∀ {st₁ i st₂}, Sound st₁ → Fresh LiveDirAt ps st₁ i → MakesAt t mode st₁ i st₂ →
      Sound st₂ ∧ Kept t mode st₁ st₂ := by
    intro st₁ i st₂ h₁ hf hm
    refine ⟨((walkable_live t mode).enters h₁ hf hm).1, ?_⟩
    obtain ⟨y, j, F, he⟩ := hm
    exact he.kept h₁.housed hf.place.toDirAt
  obtain ⟨st₁, hr, hst'⟩ := hw.steps
  have hrun : Sound st₁ ∧ Kept t mode st st₁ :=
    hr.invariant (I := fun st₁ => Sound st₁ ∧ Kept t mode st st₁) ⟨h, .refl⟩
      fun hI hf hm => by
        obtain ⟨h₂, hk⟩ := hstep hI.1 hf.1 hm
        exact ⟨h₂, hI.2.trans hk⟩
  rcases hst' with rfl | ⟨-, i, hf, -, -, hm⟩
  · exact hrun.2
  · exact hrun.2.trans (hstep hrun.1 hf hm).2

end Kept

section Effect

inductive Effect (st : State) : Op → State → Prop
  | same {op : Op} : Effect st op st
  /-- Paths have been looked up, and directories made. -/
  | looked {t : ℕ} {c : Call} {mode : UInt16} {st' : State} :
    Sound st' → Kept t mode st st' → Effect st (.call t c) st'
  | opened {t d ip : ℕ} {path : List Char} {flags : UInt32} {nd : Nameidata} {ret : ℤ}
    {st₁ st' : State} : run (makePath t path false ACL_DEFAULT) st = some ((some d, nd), st₁) →
      Sound st₁ → Kept t ACL_DEFAULT st st₁ → (st₁.dentry d).dInode = some ip → st₁.Live ip →
        Opens st₁ t ⟨d, ip, 0, flags, (st₁.inode ip).iFop⟩ ret st' →
          Effect st (.call t (.open path flags)) st'
  | read {t n : ℕ} {fd : ℤ} {b : ℤ → UInt8} :
    Effect st (.call t (.read fd n)) { st with filebuf := b }
  | printed {t : ℕ} {fd : ℤ} {buf out : List UInt8} :
    Effect st (.call t (.write fd buf)) { st with output := out }
  | wrote {t f : ℕ} {fd ret : ℤ} {buf : List UInt8} {st' : State} : st.Running t →
    OpenOn st t fd f .kvfs → run (kvfsWrite f buf) st = some (ret, st') →
      Effect st (.call t (.write fd buf)) st'
  | sought {t f : ℕ} {fd offset whence ret : ℤ} {d : Driver} {st' : State} : OpenOn st t fd f d →
    run (llseek f offset whence) st = some (ret, st') →
      Effect st (.call t (.lseek fd offset whence)) st'
  | mounted {t fs d m : ℕ} {path : List Char} {x : Dentry} {driver : Driver} {j : Inode}
    {st₁ st' : State} : Mounts st st' t path fs d m x → (st.fsType fs).mount = some driver →
      RootMade driver fs (st.fsType fs).dev st st₁ x j →
        st' = { st₁ with toNamespace := st'.toNamespace } →
          Effect st (.call t (.mount path fs)) st'
  | unmounted {t m : ℕ} {path : List Char} {nd : Nameidata} {st' : State} :
    Unmounts st st' t path nd m → Effect st (.call t (.unmount path)) st'
  | closed {t f : ℕ} {fd : ℤ} : st.Running t → 0 ≤ fd →
    (st.thread t).fileDescriptors fd.toNat = .file f →
      Effect st (.close t fd) ({ st with freed := .file f :: st.freed }.withFd t fd.toNat .null)
  | created {t : ℕ} : st.Running t → Effect st (.create t) (kmtCreate st t)
  | tornDown {t u : ℕ} : Effect st (.teardown t u)
      { st with threadPool := Function.update st.threadPool u false }
  | newFs {f : FsType} : Effect st (.newFs f)
      { st with fsTypes := st.fsTypes.grow.set st.fsTypes.size fun _ => f }
  | world {text : ℤ → List UInt8} {rand : ℕ → UInt8} : Effect st (.world text rand)
      { st with procText := text, randByte := rand }

variable {st st' : State} {t : ℕ} {c : Call} {op : Op} {path : List Char} {ret : Reply}

theorem Sound.looked_pathLookup (h : Sound st) (ht : st.Running t) (mode : UInt16)
    {r : Option ℕ × Nameidata} (hr : run (pathLookup t path false) st = some (r, st')) :
    Walked t mode Sound LiveDirAt (partsOf path) false none st st' :=
  (walkable_live t mode).walked_pathLookup h (h.start ht) hr

/-- Every step has one of the effects. -/
theorem effect_of_exec (h : Sound st) (hs : exec st op = some st') : Effect st op st' := by
  have hc : Change Sound LiveAt LiveDirAt st op st' :=
    change_of_exec walkable_live h h.inv (fun ht => h.start ht) hs
  cases hc with
  | same => exact .same
  | walked hw => exact .looked hw.inv (hw.kept h)
  | opened _ hmake hw hend hip hopen =>
    exact .opened hmake hw.inv (hw.kept h) hip (hend.place.lives _ (hend.dentry.symm ▸ hip)) hopen
  | read => exact .read
  | printed => exact .printed
  | wrote ht ho hr => exact .wrote ht ho hr
  | sought _ ho hr => exact .sought ho hr
  | mounted hm hdriver hroot hst => exact .mounted hm hdriver hroot hst
  | unmounted hu => exact .unmounted hu
  | closed ht hfd hf => exact .closed ht hfd hf
  | created ht => exact .created ht
  | tornDown => exact .tornDown
  | newFs => exact .newFs
  | world => exact .world

/-- New file systems belong to one driver, and only file systems are mounted. -/
def Proper (st : State) : Op → Prop
  | .call _ (.mount _ fs) => fs < st.fsTypes.size
  | .newFs f => f.Genuine
  | _ => True

theorem Proper.intro (hmount : ∀ {t path fs}, op = .call t (.mount path fs) → fs < st.fsTypes.size)
    (hnew : ∀ {f}, op = .newFs f → f.Genuine) : Proper st op := by
  cases op with
  | call t c => cases c <;> first | exact hmount rfl | exact trivial
  | newFs f => exact hnew rfl
  | close => exact trivial
  | create => exact trivial
  | teardown => exact trivial
  | world => exact trivial

instance : Decidable (Proper st op) :=
  match op with
  | .call _ (.mount _ fs) => inferInstanceAs (Decidable (fs < st.fsTypes.size))
  | .newFs f => inferInstanceAs (Decidable f.Genuine)
  | .call _ (.access ..) | .call _ (.unmount _) | .call _ (.open ..) | .call _ (.read ..)
  | .call _ (.write ..) | .call _ (.lseek ..) | .call _ (.mkdir ..) | .close .. | .create _
  | .teardown .. | .world .. => inferInstanceAs (Decidable True)

theorem Housed.wrote {f : ℕ} {buf : List UInt8} {z : ℤ} (h : Housed st)
    (hr : run (kvfsWrite f buf) st = some (z, st')) : Housed st' := by
  by_cases hw : (st.file f).fMode &&& O_WRONLY = 0
  · obtain ⟨-, rfl⟩ := run_inj hr (run_kvfsWrite_readonly hw)
    exact h.congr rfl rfl rfl (fun _ => rfl) fun _ => Iff.rfl
  · have hre := run_kvfsWrite_storage hw hr
    have hfreed : ∀ i, .inode i ∈ st'.freed ↔ .inode i ∈ st.freed := by
      intro i
      rcases hre.storage with ⟨-, -, hf, -⟩ | ⟨-, -, -, hf⟩
      · rw [hf]
      · rw [hf]
        split
        · rfl
        · simp
    obtain ⟨B, K, F, size, pos, hst⟩ := hre.frame
    refine h.congr (by rw [hst]) (by rw [hst]) (by rw [hst]; rfl) (fun i => ?_) hfreed
    rw [hst, State.inode, Pool.obj_set]
    split
    · subst i
      rfl
    · rfl

theorem Housed.effect (h : Sound st) (hp : Proper st op) (he : Effect st op st') : Housed st' := by
  have hsame : ∀ {s s' : State}, Housed s → s' = { s with
      files := s'.files
      thread := s'.thread
      threadPool := s'.threadPool
      procText := s'.procText
      filebuf := s'.filebuf
      randByte := s'.randByte
      output := s'.output } → Housed s' := fun hs he => by
    rw [he]
    exact hs.congr rfl rfl rfl (fun _ => rfl) fun _ => Iff.rfl
  cases he with
  | same => exact h.housed
  | looked h' => exact h'.housed
  | opened _ h₁ _ _ _ hopen =>
    rcases hopen with ⟨-, -, rfl⟩ | ⟨i, -, -, -, rfl⟩
    · exact hsame h₁.housed rfl
    · exact hsame h₁.housed rfl
  | read => exact hsame h.housed rfl
  | printed => exact hsame h.housed rfl
  | wrote _ _ hr => exact h.housed.wrote hr
  | sought _ hr =>
    rcases llseek_cases hr with rfl | ⟨pos, rfl⟩
    · exact h.housed
    · exact hsame h.housed rfl
  | mounted hm hdriver hroot hst => exact hm.housed h.inv h.orderly h.housed hp hdriver hroot hst
  | unmounted hu => exact hu.housed h.housed
  | closed => exact h.housed.congr rfl rfl rfl (fun _ => rfl) fun _ => by simp [State.withFd]
  | created =>
    unfold kmtCreate
    dsimp only
    split
    · exact h.housed
    · exact hsame h.housed rfl
  | tornDown => exact hsame h.housed rfl
  | newFs => exact h.housed.newFs hp
  | world => exact hsame h.housed rfl

theorem sound_exec (h : Sound st) (hp : Proper st op) (hs : exec st op = some st') : Sound st' := by
  have hinv := inv_exec h.inv hs
  exact ⟨hinv, ⟨hinv.wf, tidy_exec h.inv h.orderly.tidy hs⟩,
    Housed.effect h hp (effect_of_exec h hs)⟩

theorem sound_started (hs : Started st) : Sound st :=
  ⟨inv_started hs, ⟨(inv_started hs).wf, tidy_started hs⟩, housed_started hs⟩

end Effect

end NSOS.Vfs
