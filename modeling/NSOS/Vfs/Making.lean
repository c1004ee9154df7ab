import NSOS.Vfs.Tidy

/-! # The two walks

`make_path` repeats the scanner of `path_lookup`. Where `path_lookup` finds a
dentry of the wanted kind, `make_path` does the same steps, and what
`make_path` returns, `path_lookup` finds from then on.
-/

namespace NSOS.Vfs

open Basis Prog

section Making

variable {st st' : State} {nd nd' : Nameidata} {t n d : ℕ} {mode : UInt16} {dir : Bool}
  {s path name : List Char}

theorem Orderly.doLookup_found (h : Orderly st) (hD : DirAt st nd) (hvalid : ValidName name)
    (hr : run (doLookup nd name) st = some ((false, nd'), st')) : Orderly st' ∧ At st' nd' := by
  have hlook := (walkable_at 0 0).run_doLookup h hD name
  rw [hr] at hlook
  cases hf : look st nd name with
  | hit nd₁ =>
    rw [hf] at hlook
    obtain ⟨heq, hP⟩ := hlook
    simp only [Option.some.injEq, Prod.mk.injEq, true_and] at heq
    obtain ⟨rfl, rfl⟩ := heq
    exact ⟨h, hP⟩
  | made nd₁ name₁ =>
    rw [hf] at hlook
    obtain ⟨-, -, hnone, st₁, heq, he⟩ := hlook
    simp only [Option.some.injEq, Prod.mk.injEq, true_and] at heq
    obtain ⟨rfl, rfl⟩ := heq
    obtain ⟨h', hP⟩ := he.orderly h hD hnone hvalid
    exact ⟨h', hP (by simp)⟩
  | absent =>
    rw [hf] at hlook
    obtain ⟨-, st₁, heq, -⟩ := hlook
    simp at heq
  | stuck =>
    rw [hf] at hlook
    cases hlook

theorem run_lookupOrMake_found {file : Bool}
    (hr : run (doLookup nd name) st = some ((false, nd'), st')) :
    run (lookupOrMake t nd name file mode) st = some (some nd', st') := by
  rw [lookupOrMake, run_bind, hr]
  rfl

theorem Orderly.dIsdir_of_trailing (h : Orderly st) (hD : DirAt st nd) (htr : trailing s = true)
    (hr : run (pathLoop n s dir nd) st = some ((some d, nd'), st')) :
    (st'.dentry d).dIsdir = true := by
  obtain ⟨-, hrem⟩ : component s ≠ s ∧ remainder s = [] := by simpa [trailing] using htr
  cases n with
  | zero => cases hr
  | succ n =>
    rw [pathLoop] at hr
    simp only [hrem, htr, Bool.or_true, if_true, ne_eq, not_true_eq_false, if_false,
      true_and] at hr
    by_cases hdot : component s = ['.']
    · rw [if_pos hdot] at hr
      simp only [run_pure, Option.some.injEq, Prod.mk.injEq] at hr
      obtain ⟨⟨rfl, rfl⟩, rfl⟩ := hr
      exact hD.isdir
    rw [if_neg hdot] at hr
    by_cases hdd : component s = ['.', '.']
    · obtain ⟨nd₁, hc, hD₁⟩ := h.climb hD
      rw [if_pos hdd, run_bind, run_followDotdot hc] at hr
      simp only [Option.bind_some, run_pure, Option.some.injEq, Prod.mk.injEq] at hr
      obtain ⟨⟨rfl, rfl⟩, rfl⟩ := hr
      exact hD₁.isdir
    rw [if_neg hdd] at hr
    obtain ⟨⟨failed, nd₁⟩, st₁, hlook, hr⟩ := run_bind_some hr
    cases failed with
    | true => simp at hr
    | false =>
      simp only [Bool.false_eq_true, if_false, run_bind, run_isDir, Option.bind_some] at hr
      cases hdir : (st₁.dentry nd₁.dentry).dIsdir with
      | true =>
        simp only [hdir, Bool.true_eq_false, if_false, run_pure, Option.some.injEq,
          Prod.mk.injEq] at hr
        obtain ⟨⟨rfl, rfl⟩, rfl⟩ := hr
        exact hdir
      | false => simp [hdir] at hr

/-- Where `path_lookup` finds a dentry of the wanted kind, `make_path` does the same steps. -/
theorem Orderly.run_makeLoop (h : Orderly st) (hs : AtName s) (hD : DirAt st nd)
    (hr : run (pathLoop n s dir nd) st = some ((some d, nd'), st'))
    (hkind : (st'.dentry d).dIsdir = dir) :
    run (makeLoop t dir mode n s nd) st = some ((some d, nd'), st') := by
  induction n generalizing s nd st with
  | zero => cases hr
  | succ n ih =>
    -- The walk goes on behind the component.
    have hon : ∀ {st₁ nd₁}, remainder s ≠ [] → Orderly st₁ → DirAt st₁ nd₁ →
        run (pathLoop n (remainder s) (dir || trailing s) nd₁) st₁ = some ((some d, nd'), st') →
          run (makeLoop t dir mode n (remainder s) nd₁) st₁ = some ((some d, nd'), st') := by
      intro st₁ nd₁ hrem h₁ hD₁ hrun
      rw [trailing_of_remainder hrem, Bool.or_false] at hrun
      exact ih h₁ (atName_remainder hrem) hD₁ hrun
    -- A part that needs no directory.
    have hstep : ∀ {nd₁}, DirAt st nd₁ →
        run (if remainder s = [] then return (some nd₁.dentry, nd₁)
          else pathLoop n (remainder s) (dir || trailing s) nd₁) st = some ((some d, nd'), st') →
        run (if remainder s = [] then return (if dir then some nd₁.dentry else none, nd₁)
          else makeLoop t dir mode n (remainder s) nd₁) st = some ((some d, nd'), st') := by
      intro nd₁ hD₁ hrun
      by_cases hrem : remainder s = []
      · rw [if_pos hrem] at hrun ⊢
        simp only [run_pure, Option.some.injEq, Prod.mk.injEq] at hrun
        obtain ⟨⟨rfl, rfl⟩, rfl⟩ := hrun
        rw [← hkind, hD₁.isdir]
        rfl
      · rw [if_neg hrem] at hrun ⊢
        exact hon hrem h hD₁ hrun
    rw [makeLoop]
    rw [if_neg fun htr => Bool.false_ne_true
      (htr.2.symm.trans (hkind.symm.trans (h.dIsdir_of_trailing hD htr.1 hr)))]
    rw [pathLoop] at hr
    by_cases hdot : component s = ['.']
    · rw [if_pos hdot] at hr ⊢
      exact hstep hD hr
    rw [if_neg hdot] at hr ⊢
    by_cases hdd : component s = ['.', '.']
    · obtain ⟨nd₁, hc, hD₁⟩ := h.climb hD
      rw [if_pos hdd, run_bind, run_followDotdot hc, Option.bind_some] at hr ⊢
      exact hstep hD₁ hr
    rw [if_neg hdd] at hr ⊢
    obtain ⟨⟨failed, nd₁⟩, st₁, hlook, hrest⟩ := run_bind_some hr
    clear hr
    cases failed with
    | true => simp at hrest
    | false =>
      obtain ⟨h₁, hP⟩ := h.doLookup_found hD (hs.validName hdot hdd) hlook
      rw [run_bind, run_lookupOrMake_found hlook, Option.bind_some]
      dsimp only at hrest ⊢
      rw [if_neg Bool.false_ne_true] at hrest
      by_cases hrem : remainder s = []
      · rw [if_neg (not_not.mpr hrem), run_bind, run_isDir, Option.bind_some] at hrest ⊢
        split at hrest
        · simp at hrest
        · simp only [run_pure, Option.some.injEq, Prod.mk.injEq] at hrest
          obtain ⟨⟨rfl, rfl⟩, rfl⟩ := hrest
          rw [if_pos hkind]
          rfl
      · rw [if_pos hrem, run_bind, run_isDir, Option.bind_some] at hrest ⊢
        cases hdir : (st₁.dentry nd₁.dentry).dIsdir with
        | true =>
          rw [hdir, if_pos rfl] at hrest
          rw [if_pos rfl]
          exact hon hrem h₁ ⟨hP, hdir⟩ hrest
        | false => simp [hdir] at hrest

theorem Orderly.run_makePath (h : Orderly st) (hD : DirAt st (start st t path))
    (hr : run (pathLookup t path dir) st = some ((some d, nd), st'))
    (hkind : (st'.dentry d).dIsdir = dir) :
    run (makePath t path dir mode) st = some ((some d, nd), st') := by
  rw [pathLookup, run_bind, run_startOf, Option.bind_some] at hr
  rw [makePath, run_bind, run_startOf, Option.bind_some]
  change run (if relative path = [] then _ else _) st = _ at hr
  change run (if relative path = [] then _ else _) st = _
  by_cases hrel : relative path = []
  · rw [if_pos hrel] at hr ⊢
    simp only [run_pure, Option.some.injEq, Prod.mk.injEq] at hr
    obtain ⟨⟨rfl, rfl⟩, rfl⟩ := hr
    rw [← hkind, hD.isdir]
    rfl
  · rw [if_neg hrel] at hr ⊢
    exact h.run_makeLoop (atName_dropWhile hrel) hD hr hkind

theorem Orderly.run_pathLookup (h : Orderly st) (hD : DirAt st (start st t path))
    (hr : run (makePath t path dir mode) st = some ((some d, nd), st')) :
    run (pathLookup t path dir) st' = some ((some d, nd), st') := by
  obtain ⟨hwalk, hend⟩ := (walkable_at t mode).walked_makePath h hD hr
  obtain ⟨rfl, -, -, hhit⟩ := hend d rfl
  have hstart : start st' t path = start st t path := start_congr hwalk.thread path
  have hleads := (walkable_at t mode).run_pathLookup hwalk.inv path dir
    (hstart.symm ▸ hwalk.keeps hD)
  rw [resolvePath, hstart, hhit] at hleads
  exact hleads.1

/-- `make_path` and `path_lookup` agree: what `path_lookup` finds of the wanted kind `make_path`
returns, in its place and behind it, and makes nothing. What `make_path` returns `path_lookup`
finds from then on. -/
theorem makePath_agrees (h : Reachable st) (ht : st.Running t) (path : List Char) (dir : Bool)
    (mode : UInt16) :
    (∀ {d nd st'}, run (pathLookup t path dir) st = some ((some d, nd), st') →
      (st'.dentry d).dIsdir = dir →
        run (makePath t path dir mode) st = some ((some d, nd), st') ∧
          run (makePath t path dir mode) st' = some ((some d, nd), st')) ∧
    ∀ {d nd st'}, run (makePath t path dir mode) st = some ((some d, nd), st') →
      run (pathLookup t path dir) st' = some ((some d, nd), st') := by
  obtain ⟨hinv, horder⟩ := Reach.orderly h
  have hD : DirAt st (start st t path) := dirAt_start hinv horder.tidy ht
  refine ⟨fun {d nd st'} hr hkind => ?_, fun hr => horder.run_pathLookup hD hr⟩
  have hmake : run (makePath t path dir mode) st = _ := horder.run_makePath hD hr hkind
  obtain ⟨hwalk, -⟩ := (walkable_at t mode).walked_makePath horder hD hmake
  have hD' : DirAt st' (start st' t path) := by
    rw [start_congr hwalk.thread]
    exact hwalk.keeps hD
  exact ⟨hmake, hwalk.inv.run_makePath hD' (horder.run_pathLookup hD hmake) hkind⟩

/-- `make_path` makes the directory `/a/b` next to repeated slashes and a dot. -/
theorem makePath_agrees_withRamdisk : ∃ d nd st',
    run (makePath 1 "/a//./b".toList true 0x755) withRamdisk = some ((some d, nd), st') ∧
      run (pathLookup 1 "/a//./b".toList true) st' = some ((some d, nd), st') := by
  have hmade : (run (makePath 1 "/a//./b".toList true 0x755) withRamdisk).any
      (fun r => r.1.1.isSome) = true := by decide +kernel
  obtain ⟨⟨⟨o, nd⟩, st'⟩, hr, hsome⟩ := (Option.any_eq_true _ _).mp hmade
  obtain ⟨d, rfl⟩ := Option.isSome_iff_exists.mp hsome
  exact ⟨d, nd, st', hr,
    (makePath_agrees reachable_withRamdisk running_withRamdisk _ true 0x755).2 hr⟩

end Making

end NSOS.Vfs
