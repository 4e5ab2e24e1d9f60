/-
# What a completed syscall records

The handlers reach the statistics through about a dozen return handlers.  This file
states once what a completed syscall adds to the two tables of its thread
(`Completed.fileEvents`, `Completed.syscallEvents`), as events of `Iotrace.Merge`
and as functions of the registers, the memory and the clock at the two stops, and
proves that the handlers, where none of them aborts, add just that
(`handleCompleted_recorded`).  Only the name that a read, a write or a close is
attributed to depends on anything else.
-/

import Iotrace.Attribution
import Iotrace.Merge
import Iotrace.Scratch

namespace Iotrace

/-- The events of a syscall that returns a new descriptor: an open, whatever it returned. -/
def Completed.openEvents (c : Completed) (filename : CString) : List FileEvent :=
  [.incrOpen filename c.elapsedNs]

/-- The events of a syscall that returns two descriptors: if it returned zero, two
opens of half the time each. -/
def Completed.pairEvents (c : Completed) (filenameA filenameB : CString) : List FileEvent :=
  if c.rax = 0 then
    [.incrOpen filenameA (c.elapsedNs / 2), .incrOpen filenameB (c.elapsedNs / 2)]
  else []

/-- What a completed syscall adds to the statistics of files, where `file` is the
name that its descriptor is attributed to. -/
def Completed.fileEvents (c : Completed) (file : CString) : List FileEvent :=
  match sysno c.sc with
  | .SYS_open => c.openEvents (c.path .RDI)
  | .SYS_openat => c.openEvents (c.path .RSI)
  | .SYS_close => [.incrClose file c.elapsedNs]
  | .SYS_read | .SYS_readv | .SYS_preadv | .SYS_preadv2 | .SYS_pread64 =>
    [.incrRead file c.elapsedNs c.rax]
  | .SYS_write | .SYS_writev | .SYS_pwritev | .SYS_pwritev2 | .SYS_pwrite64 =>
    [.incrWrite file c.elapsedNs c.rax]
  | .SYS_pipe | .SYS_pipe2 => c.pairEvents PIPE_R PIPE_W
  | .SYS_socketpair => c.pairEvents SOCKET SOCKET
  | .SYS_socket => c.openEvents SOCKET
  | .SYS_eventfd | .SYS_eventfd2 => c.openEvents EVENTFD
  | .SYS_epoll_create | .SYS_epoll_create1 => c.openEvents EPOLL
  | .SYS_accept | .SYS_accept4 => c.openEvents ACCEPT
  | _ => []

/-- The syscalls that the file statistics do not consider. -/
def Completed.unconsidered (c : Completed) : Bool :=
  match sysno c.sc with
  | .SYS_dup | .SYS_dup2 | .SYS_dup3 | .SYS_fcntl | .SYS_ioctl | .SYS_execve | .other => true
  | _ => false

/-- What a completed syscall adds to the statistics of syscalls. -/
def Completed.syscallEvents (c : Completed) : List SyscallEvent :=
  if c.unconsidered then [⟨c.sc, c.elapsedNs⟩] else []

/-- The two tables of `s'` are those of `s` with the given events recorded. -/
structure Tracer.Records (s s' : Tracer) (files : List FileEvent) (syscalls : List SyscallEvent) :
    Prop where
  fileStatTable : s'.fileStatTable = fileTables.recordAll s.fileStatTable files
  syscallTable : s'.syscallTable = syscallTables.recordAll s.syscallTable syscalls

/-- A tracer thread at its start: both tables are fresh. -/
structure Tracer.Fresh (s : Tracer) : Prop where
  fileStatTable : s.fileStatTable = fileStatCreate
  syscallTable : s.syscallTable = syscallStatCreate

/-- A tracer thread with a table of its own, at its start. -/
def Tracer.start : Tracer := { Tracer.ofTable fdTableCreate with fileStatTable := fileStatCreate }

theorem Tracer.start_fresh : Tracer.start.Fresh := ⟨rfl, rfl⟩

/-! ### The return handlers -/

theorem calcElapsedNs_ok {c : Completed} {tmps : ThreadTmps} {sc : CInt} {elapsedNs : CULongLong}
    (hcall : c.call.clock = some tmps.startTime) (h : calcElapsedNs tmps c.ret sc = .ok elapsedNs) :
    elapsedNs = c.elapsedNs := by
  unfold calcElapsedNs at h
  unfold Completed.elapsedNs
  rw [hcall]
  cases hret : c.ret.clock with
  | none =>
      rw [hret] at h
      cases h
  | some now =>
      rw [hret] at h
      exact (Except.ok.inj h).symm

/-- Entering a descriptor changes the heap only. -/
theorem insertFd_ok {s s' : Tracer} {fd : CInt} {filename : CString} {cloexec : Bool}
    (h : insertFd s fd filename cloexec = .ok s') : ∃ heap, s' = { s with heap } := by
  obtain ⟨heap, -, hs'⟩ := bind_eq_ok.mp h
  exact ⟨heap, (Except.ok.inj hs').symm⟩

section Handlers

variable {s s' : Tracer} {c : Completed} (hcall : c.call.clock = some s.tmps.startTime)

include hcall

theorem returnFd_records {filename : CString} {cloexec : Bool}
    (h : returnFd s c.ret c.sc filename cloexec = .ok s') :
    s.Records s' (c.openEvents filename) [] := by
  obtain ⟨elapsedNs, helapsed, h⟩ := bind_eq_ok.mp h
  obtain rfl := calcElapsedNs_ok hcall helapsed
  by_cases hret : 0 ≤ (c.ret.user .RAX).toInt
  · simp only [if_pos hret] at h
    obtain ⟨s₁, hinsert, h⟩ := bind_eq_ok.mp h
    obtain ⟨heap, rfl⟩ := insertFd_ok hinsert
    obtain rfl := Except.ok.inj h
    exact ⟨rfl, rfl⟩
  · simp only [if_neg hret] at h
    obtain rfl := Except.ok.inj h
    exact ⟨rfl, rfl⟩

theorem returnPair_records {filenameA filenameB : CString} {cloexec : Bool}
    (h : returnPair s c.ret c.sc filenameA filenameB cloexec = .ok s') :
    s.Records s' (c.pairEvents filenameA filenameB) [] := by
  obtain ⟨elapsedNs, helapsed, h⟩ := bind_eq_ok.mp h
  obtain rfl := calcElapsedNs_ok hcall helapsed
  unfold Completed.pairEvents Completed.rax
  split_ifs at h ⊢ with hret
  · obtain ⟨s₁, hinsert, h⟩ := bind_eq_ok.mp h
    obtain ⟨heap, rfl⟩ := insertFd_ok hinsert
    obtain ⟨s₂, hinsert, h⟩ := bind_eq_ok.mp h
    obtain ⟨heap', rfl⟩ := insertFd_ok hinsert
    obtain rfl := Except.ok.inj h
    exact ⟨rfl, rfl⟩
  · obtain rfl := Except.ok.inj h
    exact ⟨rfl, rfl⟩

theorem handleReadReturn_records (h : handleReadReturn s c.ret c.sc = .ok s') :
    ∃ file, s.Records s' [.incrRead file c.elapsedNs c.rax] [] := by
  obtain ⟨elapsedNs, helapsed, h⟩ := bind_eq_ok.mp h
  obtain rfl := calcElapsedNs_ok hcall helapsed
  obtain ⟨file, -, h⟩ := bind_eq_ok.mp h
  obtain rfl := Except.ok.inj h
  exact ⟨file, rfl, rfl⟩

theorem handleWriteReturn_records (h : handleWriteReturn s c.ret c.sc = .ok s') :
    ∃ file, s.Records s' [.incrWrite file c.elapsedNs c.rax] [] := by
  obtain ⟨elapsedNs, helapsed, h⟩ := bind_eq_ok.mp h
  obtain rfl := calcElapsedNs_ok hcall helapsed
  obtain ⟨file, -, h⟩ := bind_eq_ok.mp h
  obtain rfl := Except.ok.inj h
  exact ⟨file, rfl, rfl⟩

theorem handleCloseReturn_records (h : handleCloseReturn s c.ret c.sc = .ok s') :
    ∃ file, s.Records s' [.incrClose file c.elapsedNs] [] := by
  obtain ⟨s₁, hcount, h⟩ := bind_eq_ok.mp h
  obtain ⟨elapsedNs, helapsed, hcount⟩ := bind_eq_ok.mp hcount
  obtain rfl := calcElapsedNs_ok hcall helapsed
  obtain ⟨file, -, hcount⟩ := bind_eq_ok.mp hcount
  obtain rfl := Except.ok.inj hcount
  obtain ⟨heap, -, h⟩ := bind_eq_ok.mp h
  obtain rfl := Except.ok.inj h
  exact ⟨file, rfl, rfl⟩

/-- The other syscalls are counted before the second switch. -/
theorem handleUnconsideredReturn_records (h : handleUnconsideredReturn s c.ret c.sc = .ok s') :
    s.Records s' [] [⟨c.sc, c.elapsedNs⟩] := by
  obtain ⟨elapsedNs, helapsed, h⟩ := bind_eq_ok.mp h
  obtain rfl := calcElapsedNs_ok hcall helapsed
  obtain rfl := Except.ok.inj h
  exact ⟨rfl, rfl⟩

end Handlers

/-- The second switch changes no statistics. -/
theorem handleUnconsideredSwitch_records {s s' : Tracer} {stop : Stop} {sc : CInt}
    (h : handleUnconsideredSwitch s stop sc = .ok s') : s.Records s' [] [] := by
  unfold handleUnconsideredSwitch at h
  cases hsc : sysno sc <;> simp only [hsc] at h
  case SYS_dup | SYS_dup2 | SYS_dup3 | SYS_fcntl | SYS_ioctl | SYS_execve =>
    obtain ⟨heap, -, h⟩ := bind_eq_ok.mp h
    obtain rfl := Except.ok.inj h
    exact ⟨rfl, rfl⟩
  all_goals
    obtain rfl := Except.ok.inj h
    exact ⟨rfl, rfl⟩

/-- What a handler records first is all that it records if the rest records nothing. -/
theorem Tracer.Records.trans {s s₁ s' : Tracer} {syscalls : List SyscallEvent}
    (h : s.Records s₁ [] syscalls) (h' : s₁.Records s' [] []) : s.Records s' [] syscalls :=
  ⟨h'.fileStatTable.trans h.fileStatTable, h'.syscallTable.trans h.syscallTable⟩

/-- **What a completed syscall records,** whatever handler it takes, where no
handler aborts. -/
theorem handleCompleted_recorded {s s' : Tracer} {c : Completed}
    (h : handleCompleted s c = .ok s') :
    ∃ file, s.Records s' (c.fileEvents file) c.syscallEvents := by
  obtain ⟨tmps, hcall, h⟩ := bind_eq_ok.mp h
  obtain ⟨-, hscr, hclock⟩ := handleSyscallCall_ok hcall
  have hother : (do
      let s ← handleUnconsideredReturn { s with tmps } c.ret c.sc
      handleUnconsideredSwitch s c.ret c.sc) = .ok s' →
        s.Records s' [] [⟨c.sc, c.elapsedNs⟩] := fun h => by
    obtain ⟨s₁, hret, h⟩ := bind_eq_ok.mp h
    have hrec : Tracer.Records { s with tmps } s₁ _ _ :=
      handleUnconsideredReturn_records (s := { s with tmps }) hclock hret
    have hrec' := hrec.trans (handleUnconsideredSwitch_records h)
    exact ⟨hrec'.1, hrec'.2⟩
  unfold Completed.Scratch at hscr
  unfold Completed.fileEvents Completed.syscallEvents Completed.unconsidered
  unfold handleSyscallReturn at h
  cases hsc : sysno c.sc <;> simp only [hsc] at hscr h ⊢
  case SYS_open | SYS_openat =>
    have hrec := returnFd_records (s := { s with tmps }) hclock h
    rw [hscr.2] at hrec
    exact ⟨[], hrec.1, hrec.2⟩
  case SYS_close =>
    obtain ⟨file, hrec⟩ := handleCloseReturn_records (s := { s with tmps }) hclock h
    exact ⟨file, hrec.1, hrec.2⟩
  case SYS_read | SYS_readv | SYS_preadv | SYS_preadv2 | SYS_pread64 =>
    obtain ⟨file, hrec⟩ := handleReadReturn_records (s := { s with tmps }) hclock h
    exact ⟨file, hrec.1, hrec.2⟩
  case SYS_write | SYS_writev | SYS_pwritev | SYS_pwritev2 | SYS_pwrite64 =>
    obtain ⟨file, hrec⟩ := handleWriteReturn_records (s := { s with tmps }) hclock h
    exact ⟨file, hrec.1, hrec.2⟩
  case SYS_pipe | SYS_pipe2 | SYS_socketpair =>
    have hrec := returnPair_records (s := { s with tmps }) hclock h
    exact ⟨[], hrec.1, hrec.2⟩
  case SYS_socket | SYS_eventfd | SYS_eventfd2 | SYS_epoll_create | SYS_epoll_create1
      | SYS_accept | SYS_accept4 =>
    have hrec := returnFd_records (s := { s with tmps }) hclock h
    exact ⟨[], hrec.1, hrec.2⟩
  all_goals exact ⟨[], hother h⟩

end Iotrace
