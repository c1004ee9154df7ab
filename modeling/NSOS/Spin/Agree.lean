import NSOS.Spin.Nesting
import NSOS.Vfs.Threads

/-! # The operations apart from their locks

When their locks are free, the operations do to the heap what the model of the
allocator says, and to the thread pool and the file system what the model of
the file system says. What they print only concerns the log.
-/

namespace NSOS.Spin

open Basis Prog
open Pmm (Area)
open Vfs (KERNEL_MAX_THREAD)

section Log

variable {k k' : Machine} {h : Area}

def Logged (k k' : Machine) : Prop :=
  ∃ c s t, k' = { k with console := c, serial := s, ticks := t }

theorem Logged.refl : Logged k k := ⟨_, _, _, rfl⟩

theorem Logged.trans {k'' : Machine} (h : Logged k k') (h' : Logged k' k'') : Logged k k'' := by
  obtain ⟨c, s, t, rfl⟩ := h
  obtain ⟨c', s', t', rfl⟩ := h'
  exact ⟨c', s', t', rfl⟩

theorem Logged.heap (h : Logged k k') : k'.heap = k.heap := by
  obtain ⟨c, s, t, rfl⟩ := h
  rfl

theorem Logged.fs (h : Logged k k') : k'.fs = k.fs := by
  obtain ⟨c, s, t, rfl⟩ := h
  rfl

theorem Logged.struct (h : Logged k k') : k'.struct = k.struct := by
  obtain ⟨c, s, t, rfl⟩ := h
  rfl

theorem run_printf (cs : List Char) (k : Machine) :
    ∃ k', run (printf cs) k = some ((), k') ∧ Logged k k' := by
  induction cs generalizing k with
  | nil => exact ⟨k, rfl, .refl⟩
  | cons c cs ih =>
    obtain ⟨k', hr, hk⟩ :=
      ih { k with serial := c :: k.serial, console := k.console.put c }
    exact ⟨k', hr, .trans ⟨_, _, _, rfl⟩ hk⟩

theorem run_syslog (who : String) (text : List Char) (k : Machine) :
    ∃ k', run (syslog who text) k = some ((), k') ∧ Logged k k' := by
  unfold syslog getuptime32
  simp only [run_bind, run_gets, run_modify, run_pure, Option.bind_some]
  obtain ⟨k', hr, hk⟩ := run_printf _ { k with ticks := k.ticks + 1 + 1 }
  exact ⟨k', hr, .trans ⟨_, _, _, rfl⟩ hk⟩

theorem run_printBlocks (n count b : ℕ) (k : Machine) :
    ∃ k', run (printBlocks h n count b) k = some ((), k') ∧ Logged k k' := by
  induction n generalizing count b k with
  | zero => exact ⟨k, rfl, .refl⟩
  | succ n ih =>
    rw [printBlocks]
    split
    · obtain ⟨k₁, hr₁, hk₁⟩ := run_printf _ k
      obtain ⟨k₂, hr₂, hk₂⟩ := ih (count + 1) (Pmm.next k.heap.mem b) k₁
      refine ⟨k₂, ?_, hk₁.trans hk₂⟩
      rw [run_bind, run_gets, Option.bind_some, run_bind, hr₁, Option.bind_some]
      exact hr₂
    · exact ⟨k, rfl, .refl⟩

theorem run_pmmPrintMemoryLayout (k : Machine) :
    ∃ k', run (pmmPrintMemoryLayout h) k = some ((), k') ∧ Logged k k' := by
  rw [pmmPrintMemoryLayout]
  obtain ⟨k₁, hr₁, hk₁⟩ :=
    run_printf "\n           blockit    front      next       in use\n".toList k
  obtain ⟨k₂, hr₂, hk₂⟩ := run_printBlocks (h := h) 100 0 k.heap.memoryHead k₁
  obtain ⟨k₃, hr₃, hk₃⟩ := run_printf "\n".toList k₂
  refine ⟨k₃, ?_, hk₁.trans (hk₂.trans hk₃)⟩
  rw [run_bind, run_gets, Option.bind_some, run_bind, hr₁, Option.bind_some, run_bind, hr₂,
    Option.bind_some, hr₃]

end Log

section Heap

variable {k k' : Machine} {h : Area} {fuel size a ptr : ℕ} {s : Pmm.State}

theorem run_pmmPlace (b a size : ℕ) (k : Machine) : run (pmmPlace h b a size) k =
    some (a, { k with heap := Pmm.place h k.heap b a size }) := by
  unfold pmmPlace Pmm.place setHeap
  by_cases hb : Pmm.roomBefore a (Pmm.startInBlock b)
  · rw [if_pos hb, if_pos hb, run_bind, run_modify, Option.bind_some, run_bind, run_gets,
      Option.bind_some]
    dsimp only
    split <;> rfl
  · rw [if_neg hb, if_neg hb]
    rfl

theorem run_pmmAlloc (k : Machine) : (run (pmmAlloc h fuel size) k = none ∧
      Pmm.pmmAlloc h fuel k.heap size = none) ∨
    ∃ a s k', run (pmmAlloc h fuel size) k = some (a, k') ∧
      Pmm.pmmAlloc h fuel k.heap size = some (s, a) ∧ Logged { k with heap := s } k' := by
  have hpmm : Pmm.pmmAlloc h fuel k.heap size = (Pmm.roundUp size).bind fun r =>
      (Pmm.search h k.heap.mem size r.1 r.2 fuel k.heap.memoryHead).bind fun b =>
        if b = 0 then some (k.heap, 0)
        else some (Pmm.place h k.heap b (Pmm.allocAddr r.1 r.2 (Pmm.startInBlock b)) size,
          Pmm.allocAddr r.1 r.2 (Pmm.startInBlock b)) := rfl
  rw [hpmm, pmmAlloc, run_bind, run_semWait, Option.bind_some, run_bind, run_demand]
  cases Pmm.roundUp size with
  | none => exact .inl ⟨rfl, rfl⟩
  | some r =>
    rw [Option.map_some, Option.bind_some, Option.bind_some, run_bind, run_gets, Option.bind_some,
      run_bind, run_demand]
    dsimp only
    cases Pmm.search h k.heap.mem size r.1 r.2 fuel k.heap.memoryHead with
    | none => exact .inl ⟨rfl, rfl⟩
    | some b =>
      refine .inr ?_
      rw [Option.map_some, Option.bind_some, Option.bind_some]
      by_cases hb : b = 0
      · obtain ⟨k₁, hr₁, hk₁⟩ := run_syslog "PMM" "No empty block that is large enough".toList k
        obtain ⟨k₂, hr₂, hk₂⟩ := run_pmmPrintMemoryLayout (h := h) k₁
        refine ⟨0, k.heap, k₂, ?_, if_pos hb, hk₁.trans hk₂⟩
        rw [if_pos hb, run_bind, hr₁, Option.bind_some, run_bind, hr₂]
        rfl
      · refine ⟨_, _, _, ?_, if_neg hb, .refl⟩
        rw [if_neg hb]
        exact run_pmmPlace _ _ _ k

theorem run_pmmFree (k : Machine) : run (pmmFree h fuel ptr) k =
    (Pmm.pmmFree h fuel k.heap ptr).map fun s => ((), { k with heap := s }) := by
  rw [pmmFree, run_bind, run_semWait, Option.bind_some, run_bind, run_gets, Option.bind_some,
    run_bind, run_demand]
  cases Pmm.pmmFree h fuel k.heap ptr <;> rfl

end Heap

section Procfs

variable {k : Machine} {ip dp fp count : ℕ} {α : Type}

theorem run_onFs (p : Vfs.Code α) (k : Machine) :
    run (onFs p) k = (run p k.fs).map fun r => (r.1, { k with fs := r.2 }) := by
  rw [onFs, run, run_demand]
  cases run p k.fs <;> rfl

/-- Both models of `proc_lookup` link an entry in this way, or find none. -/
def linked (k : Machine) (ip dp : ℕ) : Option (ℤ × Option UInt16) → Option (Bool × Machine)
  | none => some (false, k)
  | some (ino, acl) => (run (Vfs.linkEntry ip dp ino acl) k.fs).map fun r =>
      (true, { k with fs := r.2 })

theorem run_link (ino : ℤ) (acl : Option UInt16) (k : Machine) :
    run (do
      onFs (Vfs.linkEntry ip dp ino acl)
      kmtSpinUnlock .threadLock
      return true) k = linked k ip dp (some (ino, acl)) := by
  rw [run_bind, run_onFs, linked]
  cases run (Vfs.linkEntry ip dp ino acl) k.fs <;> rfl

theorem run_procLookupPid (pid : ℤ) (name : List Char) (k : Machine) :
    run (procLookupPid ip dp pid name) k = linked k ip dp (match Vfs.parsePid pid name with
      | none => none
      | some pid => if pid ≤ KERNEL_MAX_THREAD ∧ 0 < pid ∧ k.fs.threadPool pid = true then
          some (pid, some Vfs.aclRead) else none) := by
  induction name generalizing pid with
  | nil =>
    rw [procLookupPid, run_bind, run_gets, Option.bind_some, Vfs.parsePid]
    dsimp only
    split
    · exact run_link pid _ k
    · rfl
  | cons c cs ih =>
    rw [procLookupPid, Vfs.parsePid]
    split
    · exact ih _
    · rfl

theorem run_procLookup (k : Machine) : run (procLookup ip dp) k =
    (run (Vfs.procLookup ip dp) k.fs).map fun r => (r.1, { k with fs := r.2 }) := by
  have hroot : ∀ st : Vfs.State, ∃ root, run (Vfs.atRoot dp) st = some (root, st) :=
    fun st => ⟨_, rfl⟩
  obtain ⟨root, hroot⟩ := hroot k.fs
  rw [procLookup, Vfs.procLookup, run_bind, run_semWait, Option.bind_some, run_bind, run_onFs,
    run_bind, hroot]
  cases root with
  | false => rfl
  | true =>
    have hmodel : ∀ e, (run (match e with
        | none => pure false
        | some (ino, acl) => do
          Vfs.linkEntry ip dp ino acl
          return true) k.fs).map (fun r => (r.1, { k with fs := r.2 })) = linked k ip dp e := by
      rintro (_ | ⟨ino, acl⟩)
      · rfl
      · rw [run_bind, linked]
        cases run (Vfs.linkEntry ip dp ino acl) k.fs <;> rfl
    refine Eq.trans ?_ (hmodel (Vfs.procEntry k.fs.threadPool (k.fs.dentry dp).dIname)).symm
    rw [Option.map_some, Option.bind_some, if_pos rfl, run_bind, run_gets, Option.bind_some,
      Vfs.procEntry]
    split
    · exact run_link _ _ k
    split
    · exact run_link _ _ k
    split
    · rfl
    split
    · rfl
    · exact run_procLookupPid 0 _ k

theorem run_procRead (k : Machine) : run (procRead fp count) k =
    (run (Vfs.procRead fp count) k.fs).map fun r => (r.1, { k with fs := r.2 }) := by
  rw [procRead, Vfs.procRead, run_bind, run_semWait, Option.bind_some, run_bind, run_gets,
    Option.bind_some, run_bind, run_gets, Option.bind_some, run_bind, run_gets, Option.bind_some,
    run_bind, run_gets, Option.bind_some]
  split
  · rfl
  · rw [run_bind, run_gets, Option.bind_some, run_bind, run_gets, Option.bind_some, run_bind,
      run_onFs, run_modify, Option.map_some, Option.bind_some, run_bind, run_onFs, run_bind,
      run_gets, Option.bind_some, run_bind, run_gets, Option.bind_some, run_bind, run_modify,
      Option.bind_some, run_bind]
    cases run (Vfs.procReadLoop _ count _ []) _ <;> rfl

end Procfs

section Pool

variable {k k' : Machine} {h : Area} {fuel thread : ℕ} {r : ℤ}

theorem scan_eq_emptySlot (st : Vfs.State) (n i : ℕ) :
    scan (fun u => !st.threadPool u) n i = Vfs.emptySlot st n i := by
  induction n generalizing i with
  | zero => rfl
  | succ n ih =>
    rw [scan, Vfs.emptySlot, ih]
    cases st.threadPool i <;> rfl

theorem scan_eq_slotOf (K : Vfs.Kernel) (hfs : K.fs = k.fs) (hstruct : K.struct = k.struct)
    (n i : ℕ) : scan (fun u => k.Holds thread u) n i = K.slotOf thread n i := by
  induction n generalizing i with
  | zero => rfl
  | succ n ih =>
    rw [scan, Vfs.Kernel.slotOf, ih, hfs, hstruct]
    by_cases hi : k.Holds thread i
    · rw [if_pos (by simpa using hi)]
      exact (if_pos hi).symm
    · rw [if_neg (by simpa using hi)]
      exact (if_neg hi).symm

theorem fs_kmtCreate (hnot : ∀ u, ¬ k.Holds thread u)
    (hr : run (kmtCreate h fuel thread) k = some (r, k')) :
    k'.fs = Vfs.kmtCreate k.fs k.currentThreadIndex := by
  rw [kmtCreate, run_bind, run_semWait, Option.bind_some, run_bind, run_gets, Option.bind_some,
    scanPool, scan_eq_emptySlot] at hr
  unfold Vfs.kmtCreate
  dsimp only
  generalize Vfs.emptySlot k.fs KERNEL_MAX_THREAD.toNat 1 = i at hr ⊢
  split at hr
  case isTrue hfull =>
    obtain ⟨k₁, hlog, hk₁⟩ := run_syslog "KMT"
      "Attempted to create a thread while the thread pool is full".toList k
    rw [run_bind, hlog, Option.bind_some] at hr
    obtain ⟨-, rfl⟩ := Prod.mk.inj (Option.some.inj hr)
    rw [if_pos hfull, hk₁.fs]
  case isFalse hfree =>
    rw [run_bind, run_modify, Option.bind_some, run_bind, run_modify, Option.bind_some] at hr
    obtain ⟨a, k₁, halloc, hr⟩ := run_bind_some hr
    rcases run_pmmAlloc ((k.occupy i thread).setThread thread fun th => { th with id := i }) with
      ⟨hnone, -⟩ | ⟨b, s, k₂, hsome, -, hk₂⟩
    · rw [hnone] at halloc
      cases halloc
    rw [hsome] at halloc
    obtain ⟨rfl, rfl⟩ := Prod.mk.inj (Option.some.inj halloc)
    have hholds : ∀ u, (k.occupy i thread).Holds thread u ↔ u = i := by
      intro u
      unfold Machine.Holds Machine.occupy
      dsimp only
      by_cases hu : u = i
      · subst hu
        simp
      · rw [Function.update_of_ne (by omega), Function.update_of_ne hu]
        exact ⟨fun hold => absurd hold (hnot u), fun heq => absurd heq hu⟩
    obtain ⟨c, p, t, rfl⟩ := hk₂
    rw [run_bind, run_modify, Option.bind_some, run_bind, run_modify, Option.bind_some, run_bind,
      run_modify, Option.bind_some, run_bind, run_modify, Option.bind_some, run_bind, run_gets,
      Option.bind_some, run_bind, run_modify, Option.bind_some] at hr
    obtain ⟨u, k₃, hlog, hr⟩ := run_bind_some hr
    obtain ⟨k₄, hlog', hk₄⟩ := run_syslog _ _ _
    rw [hlog'] at hlog
    obtain ⟨-, rfl⟩ := Prod.mk.inj (Option.some.inj hlog)
    obtain ⟨-, rfl⟩ := Prod.mk.inj (Option.some.inj hr)
    rw [if_neg hfree, hk₄.fs]
    have hthread : ∀ th : Vfs.Thread, (fun u => if (k.occupy i thread).Holds thread u then th
        else k.fs.thread u) = Function.update k.fs.thread i th := fun th => by
      funext u
      rw [Function.update_apply]
      exact if_congr (hholds u) rfl rfl
    exact congrArg (fun f => { k.fs with
      threadPool := Function.update k.fs.threadPool i true, thread := f }) (hthread _)

theorem run_kmtTeardownSlot {i : ℕ} {u : Unit}
    (hr : run (kmtTeardownSlot h fuel i) k = some (u, k')) :
    i ≠ k.currentThreadIndex ∧ k'.fs = (k.vacate i).fs := by
  rw [kmtTeardownSlot, run_bind, run_gets, Option.bind_some] at hr
  have hpanic : ∀ text, run (syslog "KMT" text >>= fun _ => (stop : Code Unit)) k = none := by
    intro text
    obtain ⟨k₁, hlog, -⟩ := run_syslog "KMT" text k
    rw [run_bind, hlog, Option.bind_some, run_stop]
  split at hr
  case isTrue =>
    rw [hpanic] at hr
    cases hr
  case isFalse hne =>
    refine ⟨hne, ?_⟩
    rw [run_bind, run_gets, Option.bind_some, run_bind, run_gets, Option.bind_some, run_bind,
      run_gets, Option.bind_some] at hr
    split at hr
    case isTrue =>
      rw [hpanic] at hr
      cases hr
    case isFalse =>
      rw [run_bind, run_pmmFree] at hr
      obtain ⟨x, hfree, hr⟩ := Option.bind_eq_some_iff.mp hr
      obtain ⟨s, -, rfl⟩ := Option.map_eq_some_iff.mp hfree
      obtain ⟨-, rfl⟩ := Prod.mk.inj (Option.some.inj hr)
      rfl

theorem fs_kmtTeardown (K : Vfs.Kernel) (hfs : K.fs = k.fs) (hstruct : K.struct = k.struct)
    {u : Unit} (hr : run (kmtTeardown h fuel thread) k = some (u, k')) :
    ∃ K', K.teardown k.currentThreadIndex thread = some K' ∧ K'.fs = k'.fs := by
  rw [kmtTeardown, run_bind, run_semWait, Option.bind_some, run_bind, run_gets, Option.bind_some,
    scanPool, scan_eq_slotOf K hfs hstruct] at hr
  unfold Vfs.Kernel.teardown
  dsimp only
  generalize K.slotOf thread KERNEL_MAX_THREAD.toNat 1 = i at hr ⊢
  split at hr
  case isTrue hnone =>
    obtain ⟨k₁, hlog, hk₁⟩ := run_syslog "KMT" "Attempted to kill a non-exist thread".toList k
    rw [hlog] at hr
    obtain ⟨-, rfl⟩ := Prod.mk.inj (Option.some.inj hr)
    exact ⟨K, if_pos hnone, hfs.trans hk₁.fs.symm⟩
  case isFalse hfound =>
    obtain ⟨hne, hvacate⟩ := run_kmtTeardownSlot hr
    rw [if_neg hfound, if_neg hne, hfs]
    exact ⟨_, rfl, hvacate.symm⟩

end Pool

end NSOS.Spin
