/-
# A whole trace

The tracer next to the processes that it traces (`Trace.step`).  A tracee enters a syscall,
and the call handler works on its record; at a later moment the kernel performs the syscall
on the descriptors that the tracee has then, shared with others or not; at a still later
moment the return handler works on what the tracer has.  Between these three moments
anything can happen to the other tracees.  At the event of a new child, after the kernel has
made it, the tracer puts a table, or a copy of one, into start data; the child's own thread
enters a record and starts with fresh statistics; and when a tracee has exited, its thread
merges its statistics into the main tables and removes the record.

A tracee whose syscall has been performed is in that syscall until its return is handled
(`Trace.InCalls`).
-/

import Iotrace.HandledTrace
import Iotrace.KernelOrder

namespace Iotrace

open Kernel Runs RefCount FiniteMap

/-- The tracer and the kernel, and the syscalls whose returns are still to be handled. -/
structure Trace where
  handled : Handled
  pending : List Performed

namespace Trace

/-- The kernel's part of a trace. -/
def tasks (s : Trace) : Tasks := ⟨s.handled.kernel, s.pending⟩

/-- One event.  Only the kernel's part sees that a syscall is performed; the handlers of the
tracer are those of `Handled.step`. -/
def step (s : Trace) : TraceEvent → Except Abort Trace
  | .perform tracee stop =>
    let T := s.tasks.perform tracee stop
    .ok ⟨{ s.handled with tables := T.processes.tables }, T.pending⟩
  | e =>
    match s.tasks.handled e with
    | none => .ok s
    | some e' => do
      let handled ← s.handled.step e'
      .ok ⟨handled, s.tasks.stillPending e⟩

/-- What the kernel does and the ids promise: a live tracee that is in no syscall enters
one, which is performed once; the thread of a child starts once and ends when the child has
exited; and no number is used again before the record of the former tracee is gone. -/
def Regular (s : Trace) : TraceEvent → Prop
  | .create kind parent child rdi =>
    s.handled.Regular (.create kind parent child rdi (s.tasks.tableBefore parent))
  | .register child block => s.handled.Regular (.register child block)
  | .syscallCall tracee stop => s.handled.Regular (.syscallCall tracee stop)
  | .perform tracee _ => s.tasks.performed tracee = none
  | .tracerEnd tracee => s.handled.Regular (.tracerEnd tracee)
  | .syscallReturn _ | .exit _ => True

/-- The scope of the results about descriptors.  Tracees enter syscalls when they are
registered; they create children, return from an `execve` and exit when their children are
registered, too; a new child is the work of a syscall that has been performed, and has a number
that no tracee and no record has.  The kernel performs the syscall that a tracee is in, of
which `Completed.Permitted` says what it may do, and a tracee does not exit before the return
of a syscall that has been performed is handled.  The clock and the paths of opens can be
read. -/
def InScope (s : Trace) : TraceEvent → Prop
  | .create kind parent child rdi =>
    s.handled.family.InScope (.create kind parent child rdi) ∧
      ∃ p, s.tasks.performed parent = some p ∧ p.syscall.Creates kind rdi
  | .register child block => s.handled.InScope (.register child block)
  | .syscallCall tracee stop => s.handled.InScope (.syscallCall tracee stop)
  | .perform tracee stop => s.tasks.performed tracee = none ∧
      ∃ call, s.handled.calls tracee = some call ∧
        Completed.Permitted ⟨call, stop⟩ (s.handled.kernel.table tracee)
  | .syscallReturn tracee => ∃ p, s.tasks.performed tracee = some p ∧
      (sysno p.syscall.sc = .SYS_execve → s.handled.family.Proceeds tracee)
  | .exit tracee => s.tasks.performed tracee = none ∧ s.handled.InScope (.exit tracee)
  | .tracerEnd tracee => s.handled.InScope (.tracerEnd tracee)

/-- What the tracer sees: it does not see the flags of a child that is not made by `clone`,
an array at the end of the mapped memory, and the flags that three handlers do not look
at. -/
def Seen (s : Trace) : TraceEvent → Prop
  | .create kind parent child rdi => Family.FlagsMeant (.create kind parent child rdi)
  | .syscallReturn tracee => ∀ p, s.tasks.performed tracee = some p →
      p.syscall.ArrayPeeked ∧ p.syscall.FlagSeen Eq
  | _ => True

/-- The condition on the order in which syscalls are handled. -/
def InOrder (s : Trace) (e : TraceEvent) : Prop := s.tasks.InOrder e

/-- `main_tracer` before its loop, with the first tracee. -/
def first (tracee : CInt) (world : World) : Trace := ⟨Handled.first tracee world, []⟩

end Trace

/-! ### The syscalls whose returns are still to be handled -/

namespace Kernel.Tasks

variable {T : Tasks} {tracee : CInt} {p : Performed}

theorem performed_some (h : T.performed tracee = some p) :
    p ∈ T.pending ∧ p.tracee = tracee :=
  ⟨List.mem_of_find?_eq_some h, by simpa using List.find?_some h⟩

theorem performed_none (h : T.performed tracee = none) (hp : p ∈ T.pending) :
    p.tracee ≠ tracee := by
  simpa using List.find?_eq_none.mp h p hp

theorem mem_others : p ∈ T.others tracee ↔ p ∈ T.pending ∧ p.tracee ≠ tracee := by
  rw [others, List.mem_filter, decide_eq_true_iff]

end Kernel.Tasks

namespace Trace

variable {s s' : Trace} {tracee : CInt}

/-! ### What an event leads to -/

/-- An event that has a handler. -/
theorem step_of_handled {e : TraceEvent} {e' : HandledEvent} (h : s.tasks.handled e = some e') :
    s.step e = (s.handled.step e').bind fun handled => .ok ⟨handled, s.tasks.stillPending e⟩ := by
  cases e with
  | perform tracee stop => cases h
  | _ =>
      simp only [step, h]
      rfl

/-- The kernel performs a syscall, or a handler works, or nothing happens. -/
theorem step_cases {e : TraceEvent} (h : s.step e = .ok s') :
    (∃ tracee stop, e = .perform tracee stop ∧ s' =
      ⟨{ s.handled with tables := (s.tasks.perform tracee stop).processes.tables },
        (s.tasks.perform tracee stop).pending⟩) ∨
    (∃ e' handled, s.tasks.handled e = some e' ∧ s.handled.step e' = .ok handled ∧
      s' = ⟨handled, s.tasks.stillPending e⟩) ∨
    ((∃ tracee, e = .syscallReturn tracee ∧ s.tasks.performed tracee = none) ∧ s' = s) := by
  cases he : s.tasks.handled e with
  | some e' =>
      rw [step_of_handled he] at h
      obtain ⟨handled, hstep, hs'⟩ := bind_eq_ok.mp h
      exact Or.inr (Or.inl ⟨e', handled, rfl, hstep, (Except.ok.inj hs').symm⟩)
  | none =>
      cases e with
      | perform tracee stop => exact Or.inl ⟨tracee, stop, rfl, (Except.ok.inj h).symm⟩
      | syscallReturn tracee =>
          have hnone : s.tasks.performed tracee = none := Option.map_eq_none_iff.mp he
          simp only [step, he] at h
          exact Or.inr (Or.inr ⟨⟨tracee, rfl, hnone⟩, (Except.ok.inj h).symm⟩)
      | _ => cases he

/-- The kernel's part when it performs a syscall. -/
theorem tasks_perform (s : Trace) (tracee : CInt) (stop : Stop) :
    (⟨{ s.handled with tables := (s.tasks.perform tracee stop).processes.tables },
      (s.tasks.perform tracee stop).pending⟩ : Trace).tasks = s.tasks.perform tracee stop := by
  unfold Tasks.perform
  split <;> rfl

/-- **The kernel does its part,** whatever the tracer does. -/
theorem tasks_step {e : TraceEvent} (h : s.step e = .ok s') : s'.tasks = s.tasks.step e := by
  rcases step_cases h with ⟨tracee, stop, rfl, rfl⟩ | ⟨e', handled, he, hstep, rfl⟩ |
    ⟨⟨tracee, rfl, hnone⟩, rfl⟩
  · exact tasks_perform s tracee stop
  · have hstep' : s.tasks.step e = ⟨s.tasks.processes.step e', s.tasks.stillPending e⟩ := by
      cases e with
      | perform tracee stop => cases he
      | _ => simp only [Tasks.step, he, Option.elim_some]
    rw [hstep']
    exact congrArg (Tasks.mk · _) (Handled.kernel_step hstep)
  · simp only [Tasks.step, Tasks.handled, hnone, Option.map_none, Option.elim_none]

/-- A tracee that is in a syscall has a record as the call handler has left it, and if the
syscall has been performed, it is the one that the tracee is in. -/
structure InCalls (s : Trace) : Prop where
  handled : s.handled.InCalls
  pending : ∀ p ∈ s.pending, s.handled.calls p.tracee = some p.syscall.call
  nodup : (s.pending.map Performed.tracee).Nodup

theorem first_inCalls (tracee : CInt) (world : World) : (first tracee world).InCalls :=
  ⟨nofun, nofun, List.nodup_nil⟩

/-- The handlers see a promise about the numbers. -/
theorem Regular.handled {e : TraceEvent} (h : s.Regular e) {e' : HandledEvent}
    (he : s.tasks.handled e = some e') : s.handled.Regular e' := by
  cases e with
  | syscallReturn tracee =>
      obtain ⟨p, -, rfl⟩ := Option.map_eq_some_iff.mp he
      trivial
  | perform tracee stop => cases he
  | _ =>
      obtain rfl := Option.some.inj he
      exact h

/-- A handler leaves the tracees in their syscalls whose returns are still to be handled. -/
theorem InCalls.stillPending (h : s.InCalls) {e : TraceEvent} (hregular : s.Regular e)
    {e' : HandledEvent} (he : s.tasks.handled e = some e') {p : Performed}
    (hp : p ∈ s.tasks.stillPending e) :
    p ∈ s.pending ∧ (s.handled.kernel.step e').calls p.tracee = s.handled.calls p.tracee := by
  cases e with
  | perform tracee stop => cases he
  | syscallCall tracee stop =>
      obtain rfl := Option.some.inj he
      have hne : p.tracee ≠ tracee := fun heq => by
        cases (heq ▸ h.pending p hp).symm.trans hregular.2
      exact ⟨hp, Function.update_of_ne hne _ _⟩
  | syscallReturn tracee =>
      obtain ⟨hp, hne⟩ := Tasks.mem_others.mp hp
      obtain ⟨q, -, rfl⟩ := Option.map_eq_some_iff.mp he
      refine ⟨hp, ?_⟩
      rw [Processes.step]
      cases s.handled.kernel.calls tracee with
      | none => rfl
      | some call => exact (Handled.complete_files s.handled.kernel hne _ _).2
  | exit tracee =>
      obtain ⟨hp, hne⟩ := Tasks.mem_others.mp hp
      obtain rfl := Option.some.inj he
      exact ⟨hp, Function.update_of_ne hne _ _⟩
  | _ =>
      obtain rfl := Option.some.inj he
      exact ⟨hp, rfl⟩

theorem stillPending_sublist (T : Tasks) (e : TraceEvent) :
    (T.stillPending e).Sublist T.pending := by
  cases e with
  | syscallReturn | exit => exact List.filter_sublist
  | _ => exact List.Sublist.refl _

/-- **One event** leaves the tracees in their syscalls. -/
theorem InCalls.step (h : s.InCalls) {e : TraceEvent} (hregular : s.Regular e)
    (hstep : s.step e = .ok s') : s'.InCalls := by
  rcases step_cases hstep with ⟨tracee, stop, rfl, rfl⟩ | ⟨e', handled, he, hhandled, rfl⟩ |
    ⟨-, rfl⟩
  · cases hcall : s.handled.calls tracee with
    | none =>
        have hperform : s.tasks.perform tracee stop = s.tasks := by
          rw [Tasks.perform, show s.tasks.processes.calls tracee = none from hcall]
        rw [hperform]
        exact h
    | some call =>
        have hnew : (s.tasks.perform tracee stop).pending = s.pending ++
            [⟨tracee, ⟨call, stop⟩, s.handled.kernel.table tracee⟩] := by
          rw [Tasks.perform, show s.tasks.processes.calls tracee = some call from hcall]
          rfl
        refine ⟨h.handled, fun p hp => ?_, ?_⟩
        · rw [hnew, List.mem_append, List.mem_singleton] at hp
          rcases hp with hp | rfl
          · exact h.pending p hp
          · exact hcall
        · show ((s.tasks.perform tracee stop).pending.map Performed.tracee).Nodup
          rw [hnew, List.map_append]
          refine List.nodup_append.mpr ⟨h.nodup, List.nodup_singleton _, ?_⟩
          rintro q hq q' hq' rfl
          obtain ⟨p, hp, rfl⟩ := List.mem_map.mp hq
          exact Tasks.performed_none hregular hp (List.mem_singleton.mp hq')
  · refine ⟨h.handled.step (hregular.handled he) hhandled, fun p hp => ?_,
      h.nodup.sublist ((stillPending_sublist s.tasks e).map _)⟩
    obtain ⟨hp, hcalls⟩ := h.stillPending hregular he hp
    rw [← h.pending p hp, ← hcalls, ← Handled.kernel_step hhandled]
    rfl
  · exact h

end Trace

end Iotrace
