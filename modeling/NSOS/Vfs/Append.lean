import NSOS.Vfs.Guard
import NSOS.Vfs.Reading

/-! # Appending writes

Threads that append to one file, each through a descriptor of its own. The
semaphore makes the writes take effect one after the other, so the file ends
up with all buffers, in the order in which the writes got the semaphore.
-/

namespace NSOS.Vfs

open Basis Prog Kmt

section Writes

variable {st : State} {t u ip f : ℕ} {fd : ℤ} {buf : List UInt8}

/-- A descriptor of a thread that is open for appending to a file. -/
structure Appends (st : State) (t : ℕ) (fd : ℤ) (ip : ℕ) : Prop where
  user : isStd fd = false
  range : 0 ≤ fd ∧ fd < MAX_FILE_PER_THREAD
  file : ∃ f, (st.thread t).fileDescriptors fd.toNat = .file f ∧ (st.file f).fInode = ip ∧
    (st.file f).fOp = some .kvfs ∧ (st.file f).fMode &&& O_APPEND ≠ 0 ∧
      (st.file f).fMode &&& O_WRONLY ≠ 0

theorem Appends.wrote {st' : State} {fp : ℕ} {pos : ℤ} (h : Appends st t fd ip)
    (hw : Wrote st st' fp u pos buf) : Appends st' t fd ip := by
  obtain ⟨B, K, F, rfl⟩ := hw.frame
  obtain ⟨f, hf, h₁, h₂, h₃, h₄⟩ := h.file
  refine ⟨h.user, h.range, f, hf, ?_⟩
  by_cases hfp : f = fp
  · subst hfp
    simpa [State.file] using ⟨h₁, h₂, h₃, h₄⟩
  · simpa [State.file, hfp] using ⟨h₁, h₂, h₃, h₄⟩

theorem run_vfsWrite (buf : List UInt8) (h : Appends st t fd ip) (hs : Stored st ip)
    (hlt : (content st ip).length + buf.length < 2 ^ 31) :
    ∃ st', run (vfsWrite t fd buf) st = some ((buf.length : ℤ), st') ∧ Stored st' ip ∧
      content st' ip = content st ip ++ buf ∧
        ∀ u fd', Appends st u fd' ip → Appends st' u fd' ip := by
  obtain ⟨f, hf, hip, hop, happ, hwr⟩ := h.file
  have hstd := h.user
  simp only [isStd, Bool.or_eq_false_iff, decide_eq_false_iff_not] at hstd
  have hnn := hs.nonneg
  have hpos : st.writePos f = (st.inode ip).iSize := by rw [State.writePos, if_pos happ, hip]
  rw [length_content] at hlt
  obtain ⟨st', hrun, hw, -⟩ := run_kvfsWrite buf hs hip hwr (by omega) (by omega)
  refine ⟨st', ?_, hw.stored, ?_, fun u fd' hu => hu.wrote hw⟩
  · rw [vfsWrite, run_bind, run_semWait, Option.bind_some,
      if_neg (not_or.mpr ⟨hstd.1.2, hstd.2⟩), if_pos hstd.1.1, run_bind,
      run_fileOf h.range hf hop, Option.bind_some]
    simp only [Driver.write, run_bind, hrun, Option.bind_some, run_semSignal, run_pure]
  · rw [hw.content, hpos, ← length_content, splice_length]

end Writes

section Machine

variable {n : ℕ} {st : State} {ip : ℕ} {fd : Fin n → ℤ}

/-- Every thread has a descriptor for appending to one file. -/
structure Appending (st : State) (ip : ℕ) (fd : Fin n → ℤ) : Prop where
  stored : Stored st ip
  each : ∀ t : Fin n, Appends st t (fd t) ip

/-- A write of some buffer through the descriptor of the thread. -/
def WritesTo (fd : Fin n → ℤ) (t : Fin n) (c : Call) : Prop := ∃ buf, c = .write (fd t) buf

def Call.buffer : Call → List UInt8
  | write _ buf => buf
  | _ => []

/-- The buffers of the calls that got the semaphore, in their order. -/
def appended (k : Machine n) : List UInt8 :=
  ((k.entries .vfsSem).reverse.map fun e => e.2.buffer).flatten

theorem runAll_writes (h : Appending st ip fd) (L : List (Fin n × Call))
    (hL : ∀ e ∈ L, WritesTo fd e.1 e.2)
    (hlt : (content st ip).length + (L.map fun e => e.2.buffer).flatten.length < 2 ^ 31) :
    ∃ st', runAll body st L = some st' ∧
      content st' ip = content st ip ++ (L.map fun e => e.2.buffer).flatten := by
  induction L generalizing st with
  | nil => exact ⟨st, rfl, by simp⟩
  | cons e L ih =>
    obtain ⟨t, c⟩ := e
    obtain ⟨buf, rfl⟩ : WritesTo fd t c := hL _ List.mem_cons_self
    simp only [List.map_cons, List.flatten_cons, List.length_append] at hlt
    have hbuf : (Call.write (fd t) buf).buffer = buf := rfl
    rw [hbuf] at hlt
    obtain ⟨st₁, hrun, hs, hc, hkeep⟩ := run_vfsWrite buf (h.each t) h.stored (by omega)
    have h₁ : Appending st₁ ip fd := ⟨hs, fun u => hkeep _ _ (h.each u)⟩
    have hlen : (content st₁ ip).length + (L.map fun e => e.2.buffer).flatten.length < 2 ^ 31 := by
      rw [hc, List.length_append]
      omega
    obtain ⟨st', hall, hcontent⟩ := ih h₁ (fun e he => hL e (List.mem_cons_of_mem _ he)) hlen
    refine ⟨st', ?_, ?_⟩
    · rw [runAll, body, Call.body, plain, run_bind, hrun]
      exact hall
    · rw [hcontent, hc, List.map_cons, List.flatten_cons, hbuf, List.append_assoc]

/-- In every state in which no thread is inside, the file holds its first content and then the
buffers of all writes that got the semaphore, in the order in which they got it. A thread
between two calls has got it once for each write it made. -/
theorem append_in_order (st : State) (ip : ℕ) (fd : Fin n → ℤ) (t : Fin n) (k : Machine n)
    (h : Appending st ip fd) (hr : Run Tick (Calls (WritesTo fd)) (boot st t) k)
    (hlt : (content st ip).length + (appended k).length < 2 ^ 31)
    (hout : ∀ u, ¬ k.Holds u .vfsSem) :
    content k.shared ip = content st ip ++ appended k ∧
      ∀ u, k.phase u = .idle → callsOf k.events u = entriesOf k.events u .vfsSem := by
  have hany : Run Tick Any (boot st t) k := hr.mono fun _ => trivial
  obtain ⟨he, hser⟩ := exclusive_serial_boot hany
  have hkind : ∀ e ∈ (k.entries .vfsSem).reverse, WritesTo fd e.1 e.2 := fun e hmem =>
    calls_of_run hr _ _ (he.calls_of_entries _ (List.mem_reverse.mp hmem))
  obtain ⟨st', hall, hcontent⟩ := runAll_writes h _ hkind hlt
  have hshared : st' = k.shared := Option.some.inj (hall.symm.trans (hser.free hout))
  refine ⟨hshared ▸ hcontent, fun u hu => ?_⟩
  have hf := he.follows u
  simp only [Kernel.Follows, hu] at hf
  exact hf.1

def sharedFile : State := { (default : State) with
  blocks := ⟨fun _ _ => 0, 1⟩
  files := ⟨fun _ => ⟨0, 0, 0, O_APPEND ||| O_WRONLY, some .kvfs⟩, 2⟩
  thread := fun t => { (default : Thread) with
    fileDescriptors := fun i => if i = 3 then .file t else .null } }

theorem appending_sharedFile : Appending sharedFile 0 fun _ : Fin 2 => 3 where
  stored := ⟨le_rfl, by decide, rfl, by decide, fun _ => rfl, rfl⟩
  each t := by
    have happ : (O_APPEND ||| O_WRONLY) &&& O_APPEND ≠ 0 := by decide
    have hwr : (O_APPEND ||| O_WRONLY) &&& O_WRONLY ≠ 0 := by decide
    exact ⟨rfl, by decide, t, rfl, rfl, rfl, happ, hwr⟩

/-- The second thread tries to write while the first one is inside, and sleeps. -/
def twoWrites : List (Act Call 2) :=
  .call (.write 3 [65, 66]) :: List.replicate 12 .exec ++ .switch 1 :: .call (.write 3 [67]) ::
    List.replicate 6 .exec ++ .switch 0 :: List.replicate 25 .exec ++ .switch 1 ::
      List.replicate 42 .exec

theorem calls_twoWrites : ∀ a ∈ twoWrites, ∀ k : Machine 2, Calls (WritesTo fun _ => 3) k a := by
  intro a ha k
  have hcases : a = .call (.write 3 [65, 66]) ∨ a = .call (.write 3 [67]) ∨ a = .exec ∨
      a = .switch 0 ∨ a = .switch 1 := by
    simp only [twoWrites, List.mem_cons, List.mem_append, List.mem_replicate, List.cons_append]
      at ha
    tauto
  rcases hcases with rfl | rfl | rfl | rfl | rfl
  · exact ⟨_, rfl⟩
  · exact ⟨_, rfl⟩
  · trivial
  · trivial
  · trivial

instance {k : Machine n} {t : Fin n} : Decidable (k.Holds t .vfsSem) :=
  inferInstanceAs (Decidable (_ < _))

theorem isSome_twoWrites : (replay (perform body) (boot sharedFile 0) twoWrites).isSome = true := by
  decide +kernel

/-- A run with two writes. -/
theorem append_in_order_run : ∃ k : Machine 2,
    appended k = [65, 66, 67] ∧ content k.shared 0 = [65, 66, 67] := by
  let k : Machine 2 := Option.get _ isSome_twoWrites
  have happ : appended k = [65, 66, 67] := by decide +kernel
  have hlt : (content sharedFile 0).length + (appended k).length < 2 ^ 31 := by decide +kernel
  have hout : ∀ u, ¬ k.Holds u .vfsSem := by decide +kernel
  have hr := Run.of_labels step_of_perform calls_twoWrites (Option.some_get isSome_twoWrites).symm
  have h := append_in_order sharedFile 0 _ 0 k appending_sharedFile hr hlt hout
  refine ⟨k, happ, ?_⟩
  rw [h.1, happ]
  rfl

end Machine

end NSOS.Vfs
