/-
# Where the statistics of a trace are

The statistics of a tracer thread are one of many accounts: a thread opens it when it
starts, its return handlers record in it, and when its tracee has exited it is merged into
the main tables.  `Handled.Accounted` says that together they have recorded the given
events, each once.

It is kept in every run in which no number of a tracee is used again too early: most events
record nothing (`Accounted.silent`), and a return records what its syscall adds, for some
file (`Accounted.returns`), which is the one that the tracer has for the descriptor
(`Accounted.returns_contents`).
-/

import Iotrace.HandledTables
import Iotrace.Histogram
import Iotrace.Library.Ledger
import Iotrace.WaitingTime

namespace Iotrace

open Kernel Runs RefCount FiniteMap Accumulation

namespace Handled

/-- The main tables and the statistics of the threads have together recorded the events. -/
structure Accounted (s : Handled) (files : List FileEvent) (syscalls : List SyscallEvent) :
    Prop where
  files : fileTables.Balanced s.main.fileStatTable (fun p => (s.stats p).fileStatTable)
    s.family.world.process.threadTmpsTable.keys files
  syscalls : syscallTables.Balanced s.main.syscallTable (fun p => (s.stats p).syscallTable)
    s.family.world.process.threadTmpsTable.keys syscalls

variable {s s' : Handled} {tracee : CInt} {files : List FileEvent} {syscalls : List SyscallEvent}

/-- An event that changes no statistics and no keys. -/
theorem Accounted.same (h : s.Accounted files syscalls) (hmain : s'.main = s.main)
    (hkeys : s'.family.world.process.threadTmpsTable.keys =
      s.family.world.process.threadTmpsTable.keys)
    (hstats : s'.stats = s.stats) : s'.Accounted files syscalls := by
  obtain ⟨hfiles, hsyscalls⟩ := h
  exact ⟨by rw [hmain, hkeys, hstats]; exact hfiles, by rw [hmain, hkeys, hstats]; exact hsyscalls⟩

/-- **A thread starts** with fresh statistics. -/
theorem Accounted.enter (h : s.Accounted files syscalls) (hmain : s'.main = s.main)
    (hnone : s.family.world.process.threadTmpsTable.lookup tracee = none) {tmps : ThreadTmps}
    (hrecs : s'.family.world.process.threadTmpsTable =
      s.family.world.process.threadTmpsTable.insert tracee tmps)
    (hstats : s'.stats = Function.update s.stats tracee .create) : s'.Accounted files syscalls := by
  have hkey : tracee ∉ s.family.world.process.threadTmpsTable.keys := fun hmem =>
    Finmap.lookup_eq_none.mp hnone (Finmap.mem_keys.mp hmem)
  refine ⟨?_, ?_⟩
  all_goals rw [hmain, hrecs, hstats, keys_insert]
  · refine (h.files.enter hkey).congr fun p _ => ?_
    rw [Function.update_apply, Function.update_apply]
    split_ifs <;> rfl
  · refine (h.syscalls.enter hkey).congr fun p _ => ?_
    rw [Function.update_apply, Function.update_apply]
    split_ifs <;> rfl

/-- **A return handler records** what it records. -/
theorem Accounted.record (h : s.Accounted files syscalls) {t t' : Tracer} {K : Processes}
    (htracer : s.tracer tracee = .ok t) {es : List FileEvent} {es' : List SyscallEvent}
    (hrec : t.Records t' es es') :
    (s.put tracee t' K).Accounted (files ++ es) (syscalls ++ es') := by
  obtain ⟨tmps, hid, rfl⟩ := tracer_ok htracer
  have hkey := mem_keys_of_some hid
  have hkeys : (s.put tracee t' K).family.world.process.threadTmpsTable.keys =
      s.family.world.process.threadTmpsTable.keys :=
    (keys_insert _ _ _).trans (Finset.insert_eq_of_mem hkey)
  refine ⟨?_, ?_⟩
  · rw [hkeys]
    refine (h.files.record hkey es).congr fun p _ => ?_
    show (Function.update s.stats tracee ⟨t'.fileStatTable, t'.syscallTable⟩ p).fileStatTable = _
    rw [Function.update_apply, Function.update_apply]
    split_ifs
    · exact hrec.fileStatTable
    · rfl
  · rw [hkeys]
    refine (h.syscalls.record hkey es').congr fun p _ => ?_
    show (Function.update s.stats tracee ⟨t'.fileStatTable, t'.syscallTable⟩ p).syscallTable = _
    rw [Function.update_apply, Function.update_apply]
    split_ifs
    · exact hrec.syscallTable
    · rfl

/-- **A thread ends** and merges its statistics. -/
theorem Accounted.close (h : s.Accounted files syscalls)
    (hmain : s'.main = s.main.merge (s.stats tracee)) {tmps : ThreadTmps}
    (hid : s.family.world.process.threadTmpsTable.lookup tracee = some tmps)
    (hrecs : s'.family.world.process.threadTmpsTable =
      s.family.world.process.threadTmpsTable.erase tracee)
    (hstats : s'.stats = s.stats) : s'.Accounted files syscalls := by
  have hkey := mem_keys_of_some hid
  refine ⟨?_, ?_⟩
  all_goals rw [hmain, hrecs, hstats, keys_erase]
  · exact h.files.close fileTables_lawful hkey
  · exact h.syscalls.close syscallTables_lawful hkey

/-! ### One event -/

/-- **An event that is no return of a syscall** records nothing. -/
theorem Accounted.silent (h : s.Accounted files syscalls) {e : HandledEvent}
    (hregular : s.Regular e) (hstep : s.step e = .ok s')
    (hsilent : ∀ tracee stop K', e = .syscallReturn tracee stop K' → s.calls tracee = none) :
    s'.Accounted files syscalls := by
  cases e with
  | create kind parent child rdi =>
      obtain ⟨world, rfl, hrecs, -⟩ := step_create hstep
      exact h.same rfl (congrArg Finmap.keys hrecs) rfl
  | register child block =>
      obtain ⟨hstarted, hnone⟩ := hregular
      obtain ⟨data, hdata⟩ := Option.isSome_iff_exists.mp hstarted
      obtain ⟨world, hfunc, rfl⟩ := step_register hstep
      obtain ⟨tmps, hrecs⟩ := threadFunc_records hdata hfunc
      exact h.enter rfl hnone hrecs rfl
  | syscallCall tracee stop =>
      obtain ⟨t, tmps, htracer, -, rfl⟩ := step_syscallCall hstep
      obtain ⟨tmps', hid, rfl⟩ := tracer_ok htracer
      refine h.same rfl ?_ (Function.update_eq_self _ _)
      exact (keys_insert _ _ _).trans (Finset.insert_eq_of_mem (mem_keys_of_some hid))
  | syscallReturn tracee stop K' =>
      simp only [Handled.step, hsilent tracee stop K' rfl] at hstep
      obtain rfl := Except.ok.inj hstep
      exact h
  | exit tracee =>
      obtain rfl := Except.ok.inj hstep
      exact h.same rfl rfl rfl
  | tracerEnd tracee =>
      obtain ⟨-, tmps, hid⟩ := hregular
      obtain ⟨world, hend, rfl⟩ := step_tracerEnd hstep
      exact h.close rfl hid (tracerEnd_records hid hend) rfl

section Returns

variable {call stop : Stop} {K' : Kernel.Table}

/-- **The return of a syscall** records what the syscall adds, for some file. -/
theorem Accounted.returns (h : s.Accounted files syscalls) (hcalls : s.InCalls)
    (hcall : s.calls tracee = some call)
    (hstep : s.step (.syscallReturn tracee stop K') = .ok s') :
    ∃ file, s'.Accounted (files ++ Completed.fileEvents ⟨call, stop⟩ file)
      (syscalls ++ Completed.syscallEvents ⟨call, stop⟩) := by
  obtain ⟨t, t', htracer, hret, rfl⟩ := step_syscallReturn hcall hstep
  obtain ⟨-, tmps₀, tmps, hid, hhandled⟩ := hcalls tracee call hcall
  obtain ⟨tmps', hid', rfl⟩ := tracer_ok htracer
  obtain rfl := Option.some.inj (hid.symm.trans hid')
  have hcompleted := handleCompleted_of_call (c := ⟨call, stop⟩)
    (s := ⟨s.family.world.process.heap, tmps, (s.stats tracee).fileStatTable,
      (s.stats tracee).syscallTable⟩) hhandled
  obtain ⟨file, hrec⟩ := handleCompleted_recorded (hcompleted.trans hret)
  exact ⟨file, h.record htracer ⟨hrec.1, hrec.2⟩⟩

end Returns

theorem first_accounted {block : ThreadTmps} {w : World} (hmain : mainTracer tracee block = .ok w) :
    (first tracee w).Accounted [] [] := by
  obtain rfl := Except.ok.inj hmain
  have hkeys : ∀ tmps : ThreadTmps,
      (Finmap.insert tracee tmps ∅ : Finmap fun _ : CInt => ThreadTmps).keys = {tracee} := by
    intro tmps
    rw [keys_insert, Finmap.keys_empty]
    rfl
  refine ⟨?_, ?_⟩
  · show fileTables.Balanced _ _ (Finmap.insert tracee _ ∅).keys []
    rw [hkeys]
    exact Balanced.first rfl
  · show syscallTables.Balanced _ _ (Finmap.insert tracee _ ∅).keys []
    rw [hkeys]
    exact Balanced.first rfl

/-! ### What the accounts hold -/

/-- All tracer threads have ended. -/
def Ended (s : Handled) : Prop := s.family.world.process.threadTmpsTable = ∅

/-- When all threads have ended, the main tables have recorded everything. -/
theorem Accounted.ended (h : s.Accounted files syscalls) (hended : s.Ended)
    (hrange : ∀ e ∈ files, e.InRange) :
    s.main.fileStatTable = files.foldl recordFile fileStatCreate ∧
      s.main.syscallTable = syscalls.foldl recordSyscall syscallStatCreate := by
  obtain ⟨hfiles, hsyscalls⟩ := h
  rw [hended, Finmap.keys_empty] at hfiles hsyscalls
  exact ⟨hfiles.main_eq fun e he e' he' => fileTables_commute (hrange e he) (hrange e' he'),
    hsyscalls.main_eq fun e _ e' _ => syscallTables_commute e e'⟩

end Handled

/-- The time in all entries of both tables. -/
def Statistics.totalNs (stats : Statistics) : CULongLong :=
  FiniteMap.sum (fun _ => FileStat.totalNs) stats.fileStatTable +
    FiniteMap.sum (fun _ => SyscallStat.totalNs) stats.syscallTable

/-- The time in the main tables and in those of the threads that are running. -/
def Handled.totalNs (s : Handled) : CULongLong :=
  s.main.totalNs + ∑ p ∈ s.family.world.process.threadTmpsTable.keys, (s.stats p).totalNs

/-- All of the time is in some table. -/
theorem Handled.Accounted.totalNs {s : Handled} {files : List FileEvent}
    {syscalls : List SyscallEvent} (h : s.Accounted files syscalls) :
    s.totalNs = (files.map FileEvent.timeNs).sum + (syscalls.map SyscallEvent.timeNs).sum := by
  have hfiles := h.files.total (f := FiniteMap.sum fun _ => FileStat.totalNs)
    (g := FileEvent.timeNs) fun es => (sum_recordFile fileStatCreate es).trans (zero_add _)
  have hsyscalls := h.syscalls.total (f := FiniteMap.sum fun _ => SyscallStat.totalNs)
    (g := SyscallEvent.timeNs) fun es => (sum_recordSyscall syscallStatCreate es).trans (zero_add _)
  rw [← hfiles, ← hsyscalls, add_add_add_comm, ← Finset.sum_add_distrib]
  rfl

end Iotrace
