/-
# Where the waiting time goes

Every completed syscall has an elapsed time, and most of the return handlers add it
to one entry of one table.  `handle_pipe_return` and `handle_socketpair_return`
differ: on success they add `elapsed_ns/2` to each of two entries, which loses a
nanosecond of an odd time, and on failure they add nothing, where their sibling
`handle_socket_return` records a failed call like any other.

The sum of all times in the two tables is therefore the time that the tracee
waited, after every part of a run, if and only if no call of the run is one of
these (`waiting_time_conserved_iff`).
-/

import Iotrace.Recorded
import Mathlib.Tactic.Abel

namespace Iotrace

/-- The four times of a file. -/
def FileStat.totalNs (stat : FileStat) : CULongLong :=
  stat.openStats.totalNs + stat.closeStats.totalNs + stat.readStats.totalNs +
    stat.writeStats.totalNs

/-- The time in all entries of both tables. -/
def Tracer.totalNs (s : Tracer) : CULongLong :=
  FiniteMap.sum (fun _ => FileStat.totalNs) s.fileStatTable +
    FiniteMap.sum (fun _ => SyscallStat.totalNs) s.syscallTable

/-- The time of an event. -/
def FileEvent.timeNs : FileEvent → CULongLong
  | incrOpen _ timeNs | incrClose _ timeNs | incrRead _ timeNs _ | incrWrite _ timeNs _ => timeNs

/-! ### An event adds its time -/

/-- An event adds its time. -/
theorem FileStat.totalNs_record (stat : FileStat) (e : FileEvent) :
    (stat.record e).totalNs = stat.totalNs + e.timeNs := by
  cases e <;>
    simp only [record, totalNs, FileEvent.timeNs, openCloseAcc, OpenCloseStat.incr, readWriteAcc,
      fileStatIncrRw] <;> abel

/-- The total of a table grows by the times of the events. -/
theorem sum_recordFile (table : FileStatTable) (es : List FileEvent) :
    FiniteMap.sum (fun _ => FileStat.totalNs) (fileTables.recordAll table es) =
      FiniteMap.sum (fun _ => FileStat.totalNs) table + (es.map FileEvent.timeNs).sum := by
  rw [fileTables_eq]
  refine Cell.sum_table_recordAll (fun e => ?_) (fun stat e => stat.totalNs_record e) table es
  exact (initFileStat.totalNs_record e).trans (zero_add e.timeNs)

/-- The total of a table grows by the times of the syscalls. -/
theorem sum_recordSyscall (table : SyscallTable) (es : List SyscallEvent) :
    FiniteMap.sum (fun _ => SyscallStat.totalNs) (syscallTables.recordAll table es) =
      FiniteMap.sum (fun _ => SyscallStat.totalNs) table + (es.map SyscallEvent.timeNs).sum := by
  rw [syscallTables_eq]
  exact Cell.sum_table_recordAll (fun e => zero_add e.timeNs) (fun _ _ => rfl) table es

/-! ### What a completed syscall adds -/

/-- The syscalls that return two descriptors. -/
def Completed.returnsPair (c : Completed) : Bool :=
  sysno c.sc = .SYS_pipe ∨ sysno c.sc = .SYS_pipe2 ∨ sysno c.sc = .SYS_socketpair

/-- The time that a completed syscall adds to the two tables. -/
def Completed.recordedNs (c : Completed) : CULongLong :=
  if c.returnsPair then if c.rax = 0 then c.elapsedNs / 2 + c.elapsedNs / 2 else 0
  else c.elapsedNs

/-- A syscall that returns two descriptors took an even number of nanoseconds if it
succeeded and no time if it failed. -/
def Completed.InFull (c : Completed) : Prop :=
  c.returnsPair = true → if c.rax = 0 then 2 ∣ c.elapsedNs.toNat else c.elapsedNs = 0

/-- Two halves make up an even number only. -/
theorem half_add_half_iff (ns : CULongLong) : ns / 2 + ns / 2 = ns ↔ 2 ∣ ns.toNat := by
  have hlt := ns.isLt
  have htwo : BitVec.toNat (2 : CULongLong) = 2 := rfl
  rw [← BitVec.toNat_inj, BitVec.toNat_add, BitVec.toNat_udiv, htwo]
  omega

theorem Completed.recordedNs_eq_iff (c : Completed) : c.recordedNs = c.elapsedNs ↔ c.InFull := by
  unfold recordedNs InFull
  by_cases hpair : c.returnsPair = true
  · rw [if_pos hpair]
    split_ifs with hret
    · rw [half_add_half_iff]
      exact ⟨fun h _ => h, fun h => h hpair⟩
    · exact ⟨fun h _ => h.symm, fun h => (h hpair).symm⟩
  · rw [if_neg hpair]
    exact ⟨fun _ h => absurd h hpair, fun _ => rfl⟩

theorem Completed.sum_pairEvents (c : Completed) (filenameA filenameB : CString) :
    ((c.pairEvents filenameA filenameB).map FileEvent.timeNs).sum =
      if c.rax = 0 then c.elapsedNs / 2 + c.elapsedNs / 2 else 0 := by
  unfold pairEvents
  split_ifs
  · simp [FileEvent.timeNs]
  · rfl

/-- The events of a completed syscall, whatever its handler, have this time. -/
theorem Completed.sum_events (c : Completed) (file : CString) :
    ((c.fileEvents file).map FileEvent.timeNs).sum +
      (c.syscallEvents.map SyscallEvent.timeNs).sum = c.recordedNs := by
  unfold fileEvents syscallEvents unconsidered recordedNs returnsPair
  cases hsc : sysno c.sc
  case SYS_pipe | SYS_pipe2 | SYS_socketpair => simp [sum_pairEvents]
  all_goals simp [openEvents, FileEvent.timeNs]

/-- **A completed syscall adds its time,** or what is left of it. -/
theorem handleCompleted_totalNs {s s' : Tracer} {c : Completed}
    (h : handleCompleted s c = .ok s') : s'.totalNs = s.totalNs + c.recordedNs := by
  obtain ⟨file, hrec⟩ := handleCompleted_recorded h
  rw [Tracer.totalNs, hrec.fileStatTable, hrec.syscallTable, sum_recordFile, sum_recordSyscall,
    add_add_add_comm, c.sum_events, Tracer.totalNs]

/-- So does a run. -/
theorem foldlM_totalNs {s s' : Tracer} {l : List Completed}
    (h : l.foldlM handleCompleted s = .ok s') :
    s'.totalNs = s.totalNs + (l.map Completed.recordedNs).sum := by
  induction l generalizing s with
  | nil =>
      obtain rfl := Except.ok.inj h
      exact (add_zero _).symm
  | cons c l ih =>
      obtain ⟨s₁, hstep, hrun⟩ := Runs.foldlM_cons_ok.mp h
      rw [ih hrun, handleCompleted_totalNs hstep, List.map_cons, List.sum_cons, add_assoc]

/-! ### Conservation -/

/-- Fresh tables have no time in them. -/
theorem Tracer.Fresh.totalNs {s : Tracer} (h : s.Fresh) : s.totalNs = 0 := by
  rw [Tracer.totalNs, h.fileStatTable, h.syscallTable]
  rfl

/-- **Waiting time is conserved** in a run that no handler aborts, after every part
of it, if and only if no call that returns two descriptors took an odd time or
failed after a time that is not zero. -/
theorem waiting_time_conserved_iff {s : Tracer} (hs : s.Fresh) {l : List Completed}
    (hrun : ∃ s', l.foldlM handleCompleted s = .ok s') :
    (∀ l₁ s₁, l₁ <+: l → l₁.foldlM handleCompleted s = .ok s₁ →
      s₁.totalNs = (l₁.map Completed.elapsedNs).sum) ↔ ∀ c ∈ l, c.InFull := by
  obtain ⟨s', hs'⟩ := hrun
  have htotal : ∀ (l₁ : List Completed) s₁, l₁.foldlM handleCompleted s = .ok s₁ →
      s₁.totalNs = (l₁.map Completed.recordedNs).sum := fun l₁ s₁ hs₁ => by
    rw [foldlM_totalNs hs₁, hs.totalNs, zero_add]
  have hcalls : (∀ c ∈ l, c.InFull) ↔ ∀ c ∈ l, c.recordedNs = c.elapsedNs :=
    forall₂_congr fun c _ => c.recordedNs_eq_iff.symm
  rw [hcalls, ← Runs.forall_prefix_sum_eq_iff]
  constructor
  · intro h l₁ hl₁
    obtain ⟨s₁, hs₁⟩ := Runs.foldlM_prefix_ok hs' hl₁
    rw [← htotal l₁ s₁ hs₁, h l₁ s₁ hl₁ hs₁]
  · intro h l₁ s₁ hl₁ hs₁
    rw [htotal l₁ s₁ hs₁, h l₁ hl₁]

/-- A `pipe` with the given result that took the given time. -/
def pipeTook (rax : CLong) (ns : CULongLong) : Completed where
  call := (Completed.ofRegs 22 0x7ff8 0 0 0 rax fun _ => none).call
  ret := { (Completed.ofRegs 22 0x7ff8 0 0 0 rax fun _ => none).ret with clock := some ⟨0, ns⟩ }

/-- A `getpid` and two calls of `pipe`, one of which succeeds after an even time, while the
other one fails at once. -/
theorem waiting_time_conserved_three :
    ∃ s', [.ofRegs 39 0 0 0 0 7 fun _ => none, pipeTook 0 6, pipeTook (-24) 0].foldlM
        handleCompleted Tracer.start = .ok s' ∧ s'.totalNs = 6 := by
  obtain ⟨s', hs'⟩ : ∃ s', [.ofRegs 39 0 0 0 0 7 fun _ => none, pipeTook 0 6,
      pipeTook (-24) 0].foldlM handleCompleted Tracer.start = .ok s' := ⟨_, rfl⟩
  refine ⟨s', hs', ?_⟩
  refine ((waiting_time_conserved_iff Tracer.start_fresh ⟨s', hs'⟩).mpr fun c hc => ?_) _ _
    (List.prefix_refl _) hs'
  simp only [List.mem_cons, List.not_mem_nil, or_false] at hc
  unfold Completed.InFull
  rcases hc with rfl | rfl | rfl <;> decide

/-- **A failed `pipe` is not recorded at all,** and a nanosecond of an odd time is lost
where it succeeds. -/
theorem pipe_time_lost :
    (∃ s', [pipeTook (-24) 5].foldlM handleCompleted Tracer.start = .ok s' ∧
      s'.totalNs = 0 ∧ ([pipeTook (-24) 5].map Completed.elapsedNs).sum = 5) ∧
    ∃ s', [pipeTook 0 7].foldlM handleCompleted Tracer.start = .ok s' ∧
      s'.totalNs = 6 ∧ ([pipeTook 0 7].map Completed.elapsedNs).sum = 7 := by
  obtain ⟨s₁, hs₁⟩ : ∃ s', [pipeTook (-24) 5].foldlM handleCompleted Tracer.start = .ok s' :=
    ⟨_, rfl⟩
  obtain ⟨s₂, hs₂⟩ : ∃ s', [pipeTook 0 7].foldlM handleCompleted Tracer.start = .ok s' := ⟨_, rfl⟩
  refine ⟨⟨s₁, hs₁, ?_, by decide⟩, s₂, hs₂, ?_, by decide⟩
  · rw [foldlM_totalNs hs₁, Tracer.start_fresh.totalNs]
    decide
  · rw [foldlM_totalNs hs₂, Tracer.start_fresh.totalNs]
    decide

end Iotrace
