/-
# The processes that are traced

An abstract model of what a whole trace is about, with nothing of the tracer in it: the
tracees, the descriptor table that each of them has in the kernel, possibly together
with others, the syscall that each of them is in, and the events that change all this.

There are two views of it.  In the world that is traced the kernel performs a call at a
moment of its own, between the stops at its entry and at its return, and the return is
handled later, possibly after the kernel has performed calls of other tracees that have
the same table (`Tasks`).  In the view of the handlers a syscall has its effect when its
return is handled (`Processes`).

A child, and a tracee after an `execve`, have the copy that the kernel made of a table when
it performed the syscall.  They are stopped until the event or the return is handled, and are
counted from then on.  An `execve` while other threads of the process go on, in which the
kernel ends them and may give the caller another id, is not modelled.  The handler of a
return is one step; where it takes the mutex twice, as at a `close`, is the matter of
`Iotrace.SharedTable`.

`Tasks.completedLog` has every syscall of any tracee that has returned, with the
descriptors that the tracee had when the kernel performed it, and `fileLog` is what the
statistics of files are to be about: the opens, closes, reads and writes of these
syscalls, each of the file that the kernel had for the descriptor at that moment.
-/

import Iotrace.Coverage
import Iotrace.Recorded
import Iotrace.Sharing

namespace Iotrace

open Kernel

/-- What happens in a trace.  The three moments of a syscall are events of their own. -/
inductive TraceEvent where
  /-- The event of a child that the syscall of a tracee has created is handled. -/
  | create (kind : Creation) (parent child : CInt) (rdi : CLong)
  /-- The tracer thread of a new tracee starts. -/
  | register (child : CInt) (block : ThreadTmps)
  /-- A tracee enters a syscall. -/
  | syscallCall (tracee : CInt) (stop : Stop)
  /-- The kernel performs the syscall: it looks the descriptors up and changes them.  The
  syscall will stop with `stop` at its return. -/
  | perform (tracee : CInt) (stop : Stop)
  /-- The return of the syscall is handled. -/
  | syscallReturn (tracee : CInt)
  /-- A tracee exits. -/
  | exit (tracee : CInt)
  /-- The tracer thread of a tracee that has exited ends. -/
  | tracerEnd (tracee : CInt)

/-- What happens in the view of the handlers: a syscall returns, and leaves the tracee
with the given descriptors, or creates a child, which has them if it does not share. -/
inductive HandledEvent where
  | create (kind : Creation) (parent child : CInt) (rdi : CLong) (table : Kernel.Table)
  | register (child : CInt) (block : ThreadTmps)
  | syscallCall (tracee : CInt) (stop : Stop)
  | syscallReturn (tracee : CInt) (stop : Stop) (table : Kernel.Table)
  | exit (tracee : CInt)
  | tracerEnd (tracee : CInt)

/-- What the kernel may do that has the table `K`.  The clock and the paths of opens can be
read.  A call that opens descriptors, a pair of them among these, or closes one returns what
its interface says, errors included.  Duplicating, flag-setting and peer calls and `execve`
succeed: at a failure their handlers go wrong (`failed_calls_unchanged`,
`failed_execve_unchanged`).  The calls that the handlers do not follow return anything, and
leave the descriptors alone (`Completed.leaves`): of those that open one the tracer has no
entry (`missing_entry_creat`). -/
structure Completed.Permitted (c : Completed) (K : Kernel.Table) : Prop where
  timed : c.Timed
  followed : c.Followed → c.InScope K
  execve : sysno c.sc = .SYS_execve → c.rax = 0

/-- The number of the syscall that creates a child. -/
def Creation.number : Creation → CInt
  | .fork => 57
  | .vfork => 58
  | .clone => 56

/-- A syscall that creates a child of this kind, with this register at its event. -/
def Completed.Creates (c : Completed) (kind : Creation) (rdi : CLong) : Prop :=
  c.sc = kind.number ∧ c.call.user .RDI = rdi

/-- At these syscalls the kernel makes a copy of the table. -/
def Completed.CopiesTable (c : Completed) : Prop :=
  sysno c.sc = .SYS_execve ∨ ∃ kind : Creation, c.sc = kind.number ∧
    ¬kind.Shares (c.call.user .RDI)

/-- The descriptors after a syscall: the calls that the handlers do not follow leave them
alone. -/
def Completed.leaves (c : Completed) (K : Kernel.Table) : Kernel.Table :=
  if sysno c.sc = .SYS_execve then Kernel.execve K else c.kernelEffect.apply K

theorem Completed.kernelEffect_of_not_followed {c : Completed} (h : ¬c.Followed)
    (K : Kernel.Table) : c.kernelEffect.apply K = K := by
  unfold Followed DuplicatesOrFlags at h
  unfold kernelEffect
  cases hsc : sysno c.sc <;> simp only [hsc, not_true_eq_false] at h ⊢
  case SYS_fcntl =>
    simp only [List.mem_cons, List.not_mem_nil, or_false, not_or] at h
    rw [if_neg h.1, if_neg h.2.1, if_neg h.2.2, ite_self]
    rfl
  case SYS_ioctl =>
    rw [if_neg fun h' => h h'.2]
    rfl
  all_goals rfl

/-- An `execve` leaves the table that it copies alone. -/
theorem Completed.kernelEffect_execve {c : Completed} (h : sysno c.sc = .SYS_execve)
    (K : Kernel.Table) : c.kernelEffect.apply K = K := by
  rw [kernelEffect, h]
  rfl

namespace Kernel

/-- The live tracees, with the number of the descriptor table that each of them has, the
tables, and the entry stops of the tracees that are in a syscall. -/
structure Processes where
  files : CInt → Option ℕ
  nextFiles : ℕ
  tables : ℕ → Table
  calls : CInt → Option Stop

namespace Processes

/-- The first tracee has the standard streams. -/
def first (tracee : CInt) : Processes where
  files := Function.update (fun _ => none) tracee (some 0)
  nextFiles := 1
  tables := fun _ => ofFdTable fdTableCreate
  calls := fun _ => none

/-- The descriptors of a tracee. -/
def table (K : Processes) (tracee : CInt) : Table := (K.files tracee).elim (fun _ => none) K.tables

/-- A tracee has other descriptors, and so have those that share its table. -/
def setTable (K : Processes) (tracee : CInt) (K' : Table) : ℕ → Table :=
  (K.files tracee).elim K.tables fun k => Function.update K.tables k K'

/-- A syscall has returned. -/
def complete (K : Processes) (tracee : CInt) (c : Completed) (K' : Table) : Processes :=
  if sysno c.sc = .SYS_execve then {
    files := Function.update K.files tracee (some K.nextFiles)
    nextFiles := K.nextFiles + 1
    tables := Function.update K.tables K.nextFiles K'
    calls := Function.update K.calls tracee none }
  else { K with
    tables := K.setTable tracee K'
    calls := Function.update K.calls tracee none }

/-- What an event does to the processes.  A child shares the table of its parent or has one
of its own, as has the tracee after an `execve`. -/
def step (K : Processes) : HandledEvent → Processes
  | .create kind parent child rdi K' => { K with
      files := Function.update K.files child
        (if kind.Shares rdi then K.files parent else some K.nextFiles)
      nextFiles := K.nextFiles + 1
      tables := if kind.Shares rdi then K.tables else Function.update K.tables K.nextFiles K' }
  | .register _ _ | .tracerEnd _ => K
  | .syscallCall tracee stop => { K with calls := Function.update K.calls tracee (some stop) }
  | .syscallReturn tracee stop K' =>
    (K.calls tracee).elim K fun call => K.complete tracee ⟨call, stop⟩ K'
  | .exit tracee => { K with
      files := Function.update K.files tracee none
      calls := Function.update K.calls tracee none }

end Processes

/-- A syscall that the kernel has performed and whose return is still to be handled, with
the descriptors that the tracee had when it was performed. -/
structure Performed where
  tracee : CInt
  syscall : Completed
  before : Table

/-- The processes, and the syscalls whose returns are still to be handled, in the order in
which the kernel has performed them. -/
structure Tasks where
  processes : Processes
  pending : List Performed

namespace Tasks

/-- The syscall of a tracee whose return is still to be handled. -/
def performed (T : Tasks) (tracee : CInt) : Option Performed :=
  T.pending.find? fun p => p.tracee = tracee

/-- The other syscalls whose returns are still to be handled. -/
def others (T : Tasks) (tracee : CInt) : List Performed :=
  T.pending.filter fun p => p.tracee ≠ tracee

/-- The kernel performs the syscall that a tracee is in. -/
def perform (T : Tasks) (tracee : CInt) (stop : Stop) : Tasks :=
  match T.processes.calls tracee with
  | none => T
  | some call =>
    let K := T.processes.table tracee
    let c : Completed := ⟨call, stop⟩
    ⟨{ T.processes with tables := T.processes.setTable tracee (c.kernelEffect.apply K) },
      T.pending ++ [⟨tracee, c, K⟩]⟩

/-- The table of a tracee when its syscall was performed, if it has been. -/
def tableBefore (T : Tasks) (tracee : CInt) : Table :=
  (T.performed tracee).elim (T.processes.table tracee) Performed.before

/-- The event in the view of the handlers: what the return of a syscall leaves the tracee
with is what it has.  A child and a tracee after an `execve`, the latter without the flagged
descriptors, have what the tracee had when its syscall was performed. -/
def handled (T : Tasks) : TraceEvent → Option HandledEvent
  | .create kind parent child rdi =>
    some (.create kind parent child rdi (T.tableBefore parent))
  | .register child block => some (.register child block)
  | .syscallCall tracee stop => some (.syscallCall tracee stop)
  | .perform _ _ => none
  | .syscallReturn tracee => (T.performed tracee).map fun p =>
    .syscallReturn tracee p.syscall.ret
      (if sysno p.syscall.sc = .SYS_execve then Kernel.execve p.before
        else T.processes.table tracee)
  | .exit tracee => some (.exit tracee)
  | .tracerEnd tracee => some (.tracerEnd tracee)

/-- The returns that are still to be handled after an event.  A tracee that has exited
does not return. -/
def stillPending (T : Tasks) : TraceEvent → List Performed
  | .syscallReturn tracee | .exit tracee => T.others tracee
  | _ => T.pending

/-- One event. -/
def step (T : Tasks) : TraceEvent → Tasks
  | .perform tracee stop => T.perform tracee stop
  | e => (T.handled e).elim T fun e' => ⟨T.processes.step e', T.stillPending e⟩

/-- The syscall whose return an event handles, with the descriptors that its tracee had
when the kernel performed it. -/
def completed (T : Tasks) : TraceEvent → List (Table × Completed)
  | .syscallReturn tracee => (T.performed tracee).toList.map fun p => (p.before, p.syscall)
  | _ => []

/-- All syscalls whose returns a row of events handles, in this order. -/
def completedLog (T : Tasks) : List TraceEvent → List (Table × Completed)
  | [] => []
  | e :: l => T.completed e ++ (T.step e).completedLog l

/-- The first tracee. -/
def first (tracee : CInt) : Tasks := ⟨Processes.first tracee, []⟩

end Tasks

/-- The opens, closes, reads and writes of completed syscalls, with the files that the
kernel has for the descriptors. -/
def fileLog (log : List (Table × Completed)) : List FileEvent :=
  log.flatMap fun p => p.2.fileEvents (kernelFile p.1 (p.2.arg .RDI))

/-- The other syscalls. -/
def syscallLog (log : List (Table × Completed)) : List SyscallEvent :=
  log.flatMap fun p => p.2.syscallEvents

end Kernel

end Iotrace
