import NSOS.Vfs.Tidy

/-! # Walks return

The counter of a dentry counts the mounts on it, so a lookup that finds a
covered dentry also finds a mount. As directories have inodes, every walk from a
directory comes to an end.
-/

namespace NSOS.Vfs

open Basis Prog

section Walks

variable {t n : ℕ} {mode : UInt16} {I : State → Prop} {P D : State → Nameidata → Prop}
  {st : State} {nd : Nameidata} {name s path : List Char} {ps : List Part} {dir file : Bool}

theorem Walkable.look_ne_stuck (hw : Walkable t mode I P D) (hI : I st) (hD : D st nd)
    (hi : (st.dentry nd.dentry).dInode ≠ none) : look st nd name ≠ .stuck := by
  unfold look
  cases hc : st.childNamed nd.dentry name with
  | some c =>
    obtain ⟨nd', harr, -⟩ := hw.arrive hI hD hc
    dsimp only
    rw [harr]
    exact Found.noConfusion
  | none =>
    dsimp only
    unfold askDriver
    cases hip : (st.dentry nd.dentry).dInode with
    | none => exact absurd hip hi
    | some ip =>
      dsimp only
      split <;> exact Found.noConfusion

/-- The walk along the parts of a path ends. -/
theorem Walkable.resolve_ne_stuck (hw : Walkable t mode I P D)
    (hinode : ∀ {st nd}, I st → D st nd → (st.dentry nd.dentry).dInode ≠ none) (hI : I st)
    (hD : D st nd) : resolve st dir ps nd ≠ .stuck := by
  induction ps generalizing nd with
  | nil => exact Found.noConfusion
  | cons p ps ih =>
    rw [resolve]
    cases p with
    | dot =>
      rw [goTo]
      simp only [Part.isName, Bool.false_eq_true, false_and, if_false]
      exact ih hD
    | dotdot =>
      obtain ⟨nd', hc, hD'⟩ := hw.climb hI hD
      rw [goTo, hc]
      simp only [Part.isName, Bool.false_eq_true, false_and, if_false]
      exact ih hD'
    | name s =>
      rw [goTo]
      cases hf : look st nd s with
      | stuck => exact absurd hf (hw.look_ne_stuck hI hD (hinode hI hD))
      | absent => exact Found.noConfusion
      | made nd' name =>
        dsimp only
        split <;> exact Found.noConfusion
      | hit nd' =>
        have hP : P st nd' := by
          have hrun := hw.run_doLookup hI hD s
          rw [hf] at hrun
          exact hrun.2
        dsimp only
        split
        case isTrue => exact Found.noConfusion
        case isFalse hnot =>
          cases ps with
          | nil => exact Found.noConfusion
          | cons q qs =>
            refine ih (hw.down hI hP ?_)
            by_contra hdir
            exact hnot ⟨rfl, .inl (List.cons_ne_nil q qs), Bool.eq_false_iff.mpr hdir⟩

theorem Walkable.exists_pathLookup (hw : Walkable t mode I P D)
    (hinode : ∀ {st nd}, I st → D st nd → (st.dentry nd.dentry).dInode ≠ none) (hI : I st)
    (path : List Char) (dir : Bool) (hD : D st (start st t path)) :
    ∃ r, run (pathLookup t path dir) st = some r := by
  have hleads := hw.run_pathLookup hI path dir hD
  have hne : resolve st (dir || wantsDir path) (partsOf path) (start st t path) ≠ .stuck :=
    hw.resolve_ne_stuck hinode hI hD
  unfold resolvePath at hleads
  cases hf : resolve st (dir || wantsDir path) (partsOf path) (start st t path) with
  | stuck => exact absurd hf hne
  | hit nd =>
    rw [hf] at hleads
    exact ⟨_, hleads.1⟩
  | made nd name =>
    rw [hf] at hleads
    obtain ⟨-, st', hr, -⟩ := hleads
    exact ⟨_, hr⟩
  | absent =>
    rw [hf] at hleads
    obtain ⟨nd, st', hr, -⟩ := hleads
    exact ⟨_, hr⟩

theorem Walkable.exists_lookupOrMake (hw : Walkable t mode I P D)
    (hinode : ∀ {st nd}, I st → D st nd → (st.dentry nd.dentry).dInode ≠ none) (hI : I st)
    (hD : D st nd) (hvalid : ValidName name) :
    ∃ r, run (lookupOrMake t nd name file mode) st = some r := by
  have hlook := hw.run_doLookup hI hD name
  rw [lookupOrMake, run_bind]
  cases hf : look st nd name with
  | stuck => exact absurd hf (hw.look_ne_stuck hI hD (hinode hI hD))
  | hit nd' =>
    rw [hf] at hlook
    rw [hlook.1]
    exact ⟨_, rfl⟩
  | made nd' name' =>
    rw [hf] at hlook
    obtain ⟨-, -, -, st', hr, -⟩ := hlook
    rw [hr]
    exact ⟨_, rfl⟩
  | absent =>
    rw [hf] at hlook
    obtain ⟨hnone, st', hr, he⟩ := hlook
    obtain ⟨hI', hkeep, -⟩ := hw.enter hI hD hnone hvalid he
    obtain ⟨ip, hip⟩ := Option.ne_none_iff_exists'.mp (hinode hI' (hkeep hD))
    obtain ⟨m, -, hm⟩ := hw.mnt hI hD
    rw [hr]
    simp only [Option.bind_some, if_true, run_bind, run_gets, hip, run_demand, Option.map_some]
    split
    · exact ⟨_, rfl⟩
    · obtain ⟨k, st₁, ⟨-, hmake⟩ | ⟨-, hmake⟩, -⟩ :=
        run_makeEntry_enters st' t name file mode hm
      · exact ⟨_, hmake⟩
      · exact ⟨_, hmake⟩

theorem Walkable.exists_makeLoop (hw : Walkable t mode I P D)
    (hinode : ∀ {st nd}, I st → D st nd → (st.dentry nd.dentry).dInode ≠ none) (hI : I st)
    (hn : s.length ≤ n) (hs : AtName s) (hD : D st nd) :
    ∃ r, run (makeLoop t dir mode n s nd) st = some r := by
  induction n generalizing s nd st with
  | zero => exact absurd (List.length_eq_zero_iff.mp (Nat.le_zero.mp hn)) hs.1
  | succ n ih =>
    have hlen := length_remainder_lt hs.1
    -- A part that needs no directory.
    have hstep : ∀ {nd'}, D st nd' → ∃ r,
        run (if remainder s = [] then return (if dir then some nd'.dentry else none, nd')
          else makeLoop t dir mode n (remainder s) nd') st = some r := by
      intro nd' hD'
      by_cases hr : remainder s = []
      · rw [if_pos hr]
        exact ⟨_, rfl⟩
      · rw [if_neg hr]
        exact ih hI (by omega) (atName_remainder hr) hD'
    rw [makeLoop]
    split
    · exact ⟨_, rfl⟩
    split
    · exact hstep hD
    case isFalse hdot =>
      split
      · obtain ⟨nd', hc, hD'⟩ := hw.climb hI hD
        rw [run_bind, run_followDotdot hc, Option.bind_some]
        exact hstep hD'
      case isFalse hdd =>
        have hvalid := hs.validName hdot hdd
        obtain ⟨⟨o, st₁⟩, hr⟩ : ∃ r, run (lookupOrMake t nd (component s)
            (remainder s = [] && !dir) mode) st = some r :=
          hw.exists_lookupOrMake hinode hI hD hvalid
        obtain ⟨hwalk, hplace⟩ := hw.walked_lookupOrMake hI hD hvalid hr
        rw [run_bind, hr, Option.bind_some]
        cases o with
        | none => exact ⟨_, rfl⟩
        | some nd' =>
          obtain ⟨hP, -⟩ := hplace nd' rfl
          dsimp only
          by_cases hrem : remainder s = []
          · rw [if_neg (not_not.mpr hrem), run_bind, run_isDir, Option.bind_some]
            split <;> exact ⟨_, rfl⟩
          · rw [if_pos hrem, run_bind, run_isDir, Option.bind_some]
            split
            case isTrue hdir =>
              exact ih hwalk.inv (by omega) (atName_remainder hrem) (hw.down hwalk.inv hP hdir)
            case isFalse => exact ⟨_, rfl⟩

theorem Walkable.exists_makePath (hw : Walkable t mode I P D)
    (hinode : ∀ {st nd}, I st → D st nd → (st.dentry nd.dentry).dInode ≠ none) (hI : I st)
    (path : List Char) (dir : Bool) (hD : D st (start st t path)) :
    ∃ r, run (makePath t path dir mode) st = some r := by
  rw [makePath, run_bind, run_startOf, Option.bind_some]
  change ∃ r, run (if relative path = [] then _ else _) st = some r
  split
  case isTrue => exact ⟨_, rfl⟩
  case isFalse hrel => exact hw.exists_makeLoop hinode hI le_rfl (atName_dropWhile hrel) hD

end Walks

section Reached

variable {st : State}

/-- In every state the counter of a dentry other than the root is the number of listed mounts on
it, and no lookup along a path halts the machine. -/
theorem mounts_counted (h : Reachable st) :
    (∀ d, d < st.dentries.size → d ≠ st.rootDentry →
      (st.dentry d).dMounted = st.mountList.countP fun m => (st.mount m).mntMountpoint = d) ∧
    ∀ t path, st.Running t →
      (∀ dir, ∃ r, run (pathLookup t path dir) st = some r) ∧
      ∀ dir mode, ∃ r, run (makePath t path dir mode) st = some r := by
  obtain ⟨hinv, horderly⟩ := Reach.orderly h
  refine ⟨fun d hd hne => ?_, fun t path ht => ?_⟩
  · have hcount := hinv.wf.mounted hd
    rw [if_neg hne] at hcount
    rw [hcount]
    exact Int.sub_zero _
  · have hD : DirAt st (start st t path) := dirAt_start hinv horderly.tidy ht
    exact ⟨fun dir => (walkable_at t 0).exists_pathLookup (fun _ hD => hD.inode) horderly path dir
        hD,
      fun dir mode => (walkable_at t mode).exists_makePath (fun _ hD => hD.inode) horderly path
        dir hD⟩

/-- A mount on `/a`, one on `/a/b` inside it that is dropped again, and one more on `/a`, which
lies on the root of the first. -/
theorem mounts_counted_nested : ∃ st, st.mountList = [3, 1, 0] ∧
    (st.dentry 3).dMounted = (st.mountList.countP fun m => (st.mount m).mntMountpoint = 3) ∧
    (st.dentry 4).dMounted = (st.mountList.countP fun m => (st.mount m).mntMountpoint = 4) ∧
    (st.dentry 7).dMounted = (st.mountList.countP fun m => (st.mount m).mntMountpoint = 7) ∧
    [3, 4, 7].map (fun d => (st.dentry d).dMounted) = [1, 1, 0] ∧
    (∃ r, run (pathLookup 1 "/a/b/../b".toList false) st = some r ∧ r.1.2.mnt = some 1) ∧
      ∃ r, run (makePath 1 "/a/c".toList true 0x755) st = some r := by
  have hruns : ((replay exec withRamdisk [.call 1 (.mount "/a".toList 3),
      .call 1 (.mkdir "/a/b".toList 0x755), .newFs { kvfsObj with dev := "ramdisk2".toList },
      .call 1 (.mount "/a/b".toList 4), .newFs { kvfsObj with dev := "ramdisk3".toList },
      .call 1 (.mount "/a".toList 5), .call 1 (.unmount "/a/b".toList)]).any fun st =>
        st.mountList = [3, 1, 0] ∧ [3, 4, 7].map (fun d => (st.dentry d).dMounted) = [1, 1, 0] ∧
          st.rootDentry = 0 ∧ 7 < st.dentries.size ∧ st.Running 1 ∧
            (run (pathLookup 1 "/a/b/../b".toList false) st).all fun r => r.1.2.mnt = some 1) =
      true := by decide +kernel
  obtain ⟨st, hst, hstate⟩ := (Option.any_eq_true _ _).mp hruns
  obtain ⟨hlist, hmounted, hroot, hsize, hrun, hcross⟩ := of_decide_eq_true hstate
  obtain ⟨hcount, hreturn⟩ := mounts_counted (reachable_withRamdisk.replayed hst)
  obtain ⟨r, hr⟩ := (hreturn 1 "/a/b/../b".toList hrun).1 false
  rw [hr, Option.all_some] at hcross
  rw [hroot] at hcount
  exact ⟨st, hlist, hcount 3 (by omega) (by decide), hcount 4 (by omega) (by decide),
    hcount 7 hsize (by decide), hmounted, ⟨r, hr, of_decide_eq_true hcross⟩,
    (hreturn 1 "/a/c".toList hrun).2 true 0x755⟩

end Reached

end NSOS.Vfs
