/-
# What a completed syscall does to the descriptor table

The handlers reach the descriptor table through the heap, and between the entry
and the return of a syscall through the scratch fields of the record.  This file
states once what a completed syscall does to the contents of the table
(`Completed.tableEffect`), as a function of the registers and the memory at the
two stops alone, and proves that the handlers do that (`handleCompleted_eq`):
the record keeps its references, nothing else on the heap changes, and a call
that aborts is one whose effect on the table aborts.  An `execve`, which changes
the references themselves, is left to `Iotrace.Execve`.
-/

import Iotrace.ReadString

namespace Iotrace

/-- The table that the record of `s` refers to is alive and holds `t`. -/
structure Tracer.Holds (s : Tracer) (t : FdTable) : Prop where
  table : s.heap.tables.cell s.tmps.fdTable = some t
  mutex : s.heap.mutexes.cell s.tmps.fdMutex = some ()

/-- A tracer thread whose record refers to a table that no other record refers to. -/
def Tracer.ofTable (t : FdTable) : Tracer where
  heap := ⟨Arena.empty.alloc t, Arena.empty.alloc 1, Arena.empty.alloc ()⟩
  tmps := ⟨⟨0, 0⟩, 0, 0, 0, 0, fun _ => 0, 0, 0, 0⟩
  fileStatTable := ∅
  syscallTable := ∅

theorem Tracer.ofTable_holds (t : FdTable) : (Tracer.ofTable t).Holds t := ⟨rfl, rfl⟩

/-- The heap with the contents of one table replaced. -/
def Heap.setTable (heap : Heap) (fdTable : ℕ) (t : FdTable) : Heap :=
  { heap with tables := heap.tables.write fdTable t }

/-- Two records refer to the same table, counter and mutex. -/
structure ThreadTmps.SameRefs (tmps tmps' : ThreadTmps) : Prop where
  fdTable : tmps'.fdTable = tmps.fdTable
  shareCount : tmps'.shareCount = tmps.shareCount
  fdMutex : tmps'.fdMutex = tmps.fdMutex

/-- The clock can be read at both stops. -/
structure Completed.Timed (c : Completed) : Prop where
  call : c.call.clock.isSome
  ret : c.ret.clock.isSome

/-- An argument of a completed syscall, as an `int`. -/
def Completed.arg (c : Completed) (r : Reg) : CInt := toCInt (c.call.user r)

/-- The result of a completed syscall. -/
def Completed.rax (c : Completed) : CLong := c.ret.user .RAX

/-- The path that an argument points to. -/
def Completed.path (c : Completed) (r : Reg) : CString := pathAt c.call.mem (c.call.user r)

/-- `read_string` can read the path that an argument points to. -/
def Completed.PathReadable (c : Completed) (r : Reg) : Prop :=
  ∀ dest, (readString c.call.mem (c.call.user r) dest FILENAME_BUFF_SIZE).1 = 0

/-! ### The effect on the contents of the table -/

/-- A descriptor is entered if the syscall returned one. -/
def enterFd (t : FdTable) (rax : CLong) (filename : CString) (cloexec : Bool) : FdTable :=
  if 0 ≤ rax.toInt then fdTableInsert t (toCInt rax) filename cloexec else t

/-- Two descriptors, as an unchecked `PTRACE_PEEKDATA` finds them in the array
at `ptr`, are entered if the syscall returned zero. -/
def enterPair (t : FdTable) (c : Completed) (ptr : CLong) (filenameA filenameB : CString)
    (cloexec : Bool) : FdTable :=
  if c.rax = 0 then
    fdTableInsert
      (fdTableInsert t (toCInt (peekDataUnchecked c.ret.mem ptr)) filenameA cloexec)
      (toCInt (peekDataUnchecked c.ret.mem (ptr + 4))) filenameB cloexec
  else t

/-- What the handlers do to the contents of the table. -/
def Completed.tableEffect (c : Completed) (t : FdTable) : Except Abort FdTable :=
  match sysno c.sc with
  | .SYS_open => .ok (enterFd t c.rax (c.path .RDI) (hasBit (c.arg .RSI) O_CLOEXEC))
  | .SYS_openat => .ok (enterFd t c.rax (c.path .RSI) (hasBit (c.arg .RDX) O_CLOEXEC))
  | .SYS_close => .ok (fdTableRemove t (c.arg .RDI))
  | .SYS_pipe => .ok (enterPair t c (c.call.user .RDI) PIPE_R PIPE_W false)
  | .SYS_pipe2 =>
    .ok (enterPair t c (c.call.user .RDI) PIPE_R PIPE_W (hasBit (c.arg .RSI) O_CLOEXEC))
  | .SYS_socket => .ok (enterFd t c.rax SOCKET (hasBit (c.arg .RSI) SOCK_CLOEXEC))
  | .SYS_socketpair => .ok (enterPair t c (c.call.user .R10) SOCKET SOCKET false)
  | .SYS_eventfd => .ok (enterFd t c.rax EVENTFD false)
  | .SYS_eventfd2 => .ok (enterFd t c.rax EVENTFD (hasBit (c.arg .RSI) EFD_CLOEXEC))
  | .SYS_epoll_create => .ok (enterFd t c.rax EPOLL false)
  | .SYS_epoll_create1 => .ok (enterFd t c.rax EPOLL (hasBit (c.arg .RDI) EPOLL_CLOEXEC))
  | .SYS_accept => .ok (enterFd t c.rax ACCEPT false)
  | .SYS_accept4 => .ok (enterFd t c.rax ACCEPT (hasBit (c.arg .R10) SOCK_CLOEXEC))
  | .SYS_dup | .SYS_dup2 | .SYS_dup3 =>
    if 0 ≤ (c.arg .RDI).toInt ∧ c.arg .RDI ≠ toCInt c.rax then
      fdTableInsertDup (c.arg .RDI) (toCInt c.rax) false false t
    else .ok t
  | .SYS_fcntl =>
    if toCInt c.rax ≠ -1 then
      if c.arg .RSI = F_DUPFD then fdTableInsertDup (c.arg .RDI) (toCInt c.rax) false false t
      else if c.arg .RSI = F_DUPFD_CLOEXEC then
        fdTableInsertDup (c.arg .RDI) (toCInt c.rax) true false t
      else if c.arg .RSI = F_SETFD then
        fdTableSetCloexec (c.arg .RDI) (hasBit (c.arg .RDX) FD_CLOEXEC) t
      else .ok t
    else .ok t
  | .SYS_ioctl =>
    if c.arg .RSI = TIOCGPTPEER then
      fdTableInsertDup (c.arg .RDI) (toCInt c.rax) false true t
    else .ok t
  | _ => .ok t

/-- The open calls whose name `read_string` has to read, with the register of the name. -/
def Completed.Readable (c : Completed) : Prop :=
  match sysno c.sc with
  | .SYS_open => c.PathReadable .RDI
  | .SYS_openat => c.PathReadable .RSI
  | _ => True

/-! ### The call handlers -/

/-- The scratch fields that the return handler of a syscall reads hold what the
call handler found in the registers and the memory at the entry stop. -/
def Completed.Scratch (c : Completed) (tmps : ThreadTmps) : Prop :=
  match sysno c.sc with
  | .SYS_open =>
    tmps.intA = c.arg .RSI ∧ bufferString tmps.filenameBuffer = c.path .RDI
  | .SYS_openat =>
    tmps.intA = c.arg .RDX ∧ bufferString tmps.filenameBuffer = c.path .RSI
  | .SYS_pipe => tmps.ptr = c.call.user .RDI
  | .SYS_pipe2 => tmps.ptr = c.call.user .RDI ∧ tmps.intA = c.arg .RSI
  | .SYS_socketpair => tmps.ptr = c.call.user .R10
  | .SYS_socket | .SYS_eventfd2 => tmps.intA = c.arg .RSI
  | .SYS_accept4 => tmps.intA = c.arg .R10
  | .SYS_fcntl =>
    tmps.intA = c.arg .RDI ∧ tmps.intB = c.arg .RSI ∧ tmps.intC = c.arg .RDX
  | .SYS_ioctl => tmps.intA = c.arg .RDI ∧ tmps.intB = c.arg .RSI
  | .SYS_eventfd | .SYS_epoll_create | .SYS_accept | .SYS_execve | .other => True
  | _ => tmps.intA = c.arg .RDI

theorem saveCurrentTime_of_clock {tmps : ThreadTmps} {stop : Stop} {sc : CInt} {now : Timespec}
    (h : stop.clock = some now) :
    saveCurrentTime tmps stop sc = .ok { tmps with startTime := now } := by
  rw [saveCurrentTime, h]

/-- Reading the name of an open that can be read. -/
theorem handleOpenCall_of_readable {tmps : ThreadTmps} {stop : Stop} {now : Timespec}
    {openat : Bool} (sc : CInt) (h : stop.clock = some now)
    (hr : (readString stop.mem (stop.user (if openat then .RSI else .RDI)) tmps.filenameBuffer
      FILENAME_BUFF_SIZE).1 = 0) :
    ∃ buffer, handleOpenCall tmps stop sc openat = .ok { tmps with
        intA := toCInt (stop.user (if openat then .RDX else .RSI))
        filenameBuffer := buffer
        startTime := now } ∧
      bufferString buffer = pathAt stop.mem (stop.user (if openat then .RSI else .RDI)) := by
  obtain ⟨buffer, hbuffer⟩ : ∃ buffer, readString stop.mem
      (stop.user (if openat then .RSI else .RDI)) tmps.filenameBuffer FILENAME_BUFF_SIZE =
        (0, buffer) := ⟨_, Prod.ext hr rfl⟩
  refine ⟨buffer, ?_, readString_eq hbuffer⟩
  simp only [handleOpenCall, hbuffer, if_true, saveCurrentTime_of_clock h]

/-- **The call handlers keep what the return handlers read.**  The record keeps
its references; everything else that a return handler uses is set here. -/
theorem handleSyscallCall_scratch {c : Completed} {now : Timespec} (h : c.call.clock = some now)
    (hr : c.Readable) (tmps : ThreadTmps) :
    ∃ tmps', handleSyscallCall tmps c.call c.sc = .ok tmps' ∧ tmps.SameRefs tmps' ∧
      c.Scratch tmps' ∧ tmps'.startTime = now := by
  have hopen : ∀ openat : Bool,
      c.PathReadable (if openat then .RSI else .RDI) →
        ∃ tmps', handleOpenCall tmps c.call c.sc openat = .ok tmps' ∧ tmps.SameRefs tmps' ∧
          (tmps'.intA = c.arg (if openat then .RDX else .RSI) ∧
            bufferString tmps'.filenameBuffer = c.path (if openat then .RSI else .RDI)) ∧
          tmps'.startTime = now := by
    intro openat hread
    obtain ⟨buffer, hcall, hbuffer⟩ := handleOpenCall_of_readable c.sc h
      (hread tmps.filenameBuffer)
    exact ⟨_, hcall, ⟨rfl, rfl, rfl⟩, ⟨rfl, hbuffer⟩, rfl⟩
  unfold Completed.Readable at hr
  unfold handleSyscallCall Completed.Scratch
  cases hsc : sysno c.sc <;> simp only [hsc] at hr ⊢
  case SYS_open => exact hopen false hr
  case SYS_openat => exact hopen true hr
  all_goals
    simp only [handleCloseCall, handleReadCall, handleWriteCall, saveFd, handlePipeCall,
      handleSocketCall, handleSocketpairCall, handleEventfdCall, handleEpollcreateCall,
      handleAcceptCall, handleUnconsideredCall, handleDupCall, handleFcntlCall, handleIoctlCall,
      saveCurrentTime_of_clock h]
    exact ⟨_, rfl, ⟨rfl, rfl, rfl⟩, by simp [Completed.arg], rfl⟩

/-! ### The return handlers -/

theorem Heap.setTable_same {heap : Heap} {a : ℕ} {t : FdTable} (h : heap.tables.cell a = some t) :
    heap.setTable a t = heap := by
  rw [setTable, Arena.write_same h]

theorem Heap.setTable_setTable (heap : Heap) (a : ℕ) (t t' : FdTable) :
    (heap.setTable a t).setTable a t' = heap.setTable a t' := by
  simp only [setTable, Arena.write_write]

theorem Tracer.Holds.locked {s : Tracer} {t : FdTable} (hs : s.Holds t)
    (body : FdTable → Except Abort FdTable) :
    s.heap.locked s.tmps.fdTable s.tmps.fdMutex body =
      (body t).map (s.heap.setTable s.tmps.fdTable) :=
  Heap.locked_of_cell hs.table hs.mutex body

theorem Tracer.Holds.setTable {s : Tracer} {t : FdTable} (hs : s.Holds t) (t' : FdTable)
    (tmps : ThreadTmps) (hrefs : s.tmps.SameRefs tmps) (fileStat : FileStatTable)
    (syscalls : SyscallTable) :
    Tracer.Holds ⟨s.heap.setTable s.tmps.fdTable t', tmps, fileStat, syscalls⟩ t' where
  table := by
    rw [hrefs.fdTable]
    exact Arena.write_cell_self hs.table
  mutex := by
    rw [hrefs.fdMutex]
    exact hs.mutex

/-- The record as a call handler leaves it still refers to the table. -/
theorem Tracer.Holds.withTmps {s : Tracer} {t : FdTable} (hs : s.Holds t) {tmps : ThreadTmps}
    (hrefs : s.tmps.SameRefs tmps) : Tracer.Holds { s with tmps } t where
  table := by rw [hrefs.fdTable]; exact hs.table
  mutex := by rw [hrefs.fdMutex]; exact hs.mutex

theorem calcElapsedNs_of_clock {tmps : ThreadTmps} {stop : Stop} {sc : CInt} {now : Timespec}
    (h : stop.clock = some now) :
    calcElapsedNs tmps stop sc = .ok (now.toNs - tmps.startTime.toNs) := by
  rw [calcElapsedNs, h]

theorem insertFd_of_holds {s : Tracer} {t : FdTable} (hs : s.Holds t) (fd : CInt)
    (filename : CString) (cloexec : Bool) :
    insertFd s fd filename cloexec =
      .ok { s with
        heap := s.heap.setTable s.tmps.fdTable (fdTableInsert t fd filename cloexec) } := by
  rw [insertFd, hs.locked]
  rfl

/-- A syscall that returns a descriptor enters it. -/
theorem returnFd_of_holds {s : Tracer} {t : FdTable} {stop : Stop} {now : Timespec}
    (hs : s.Holds t) (h : stop.clock = some now) (sc : CInt) (filename : CString)
    (cloexec : Bool) :
    ∃ fileStat, returnFd s stop sc filename cloexec = .ok { s with
      heap := s.heap.setTable s.tmps.fdTable (enterFd t (stop.user .RAX) filename cloexec)
      fileStatTable := fileStat } := by
  refine ⟨fileStatIncrOpen s.fileStatTable filename (now.toNs - s.tmps.startTime.toNs), ?_⟩
  rw [returnFd, calcElapsedNs_of_clock h, ok_bind]
  unfold enterFd
  split_ifs with hret
  · simp only [hret, if_true, insertFd_of_holds hs, ok_bind]
  · simp only [hret, if_false, ok_bind, Heap.setTable_same hs.table]

/-- A syscall that stores two descriptors in memory enters them as they are read there. -/
theorem returnPair_of_holds {s : Tracer} {t : FdTable} {c : Completed} {now : Timespec}
    (hs : s.Holds t) (h : c.ret.clock = some now) (sc : CInt) (filenameA filenameB : CString)
    (cloexec : Bool) :
    ∃ fileStat, returnPair s c.ret sc filenameA filenameB cloexec = .ok { s with
      heap := s.heap.setTable s.tmps.fdTable
        (enterPair t c s.tmps.ptr filenameA filenameB cloexec)
      fileStatTable := fileStat } := by
  unfold returnPair enterPair
  rw [calcElapsedNs_of_clock h, ok_bind]
  by_cases hret : c.rax = 0
  · have hret' : c.ret.user .RAX = 0 := hret
    have hs' := hs.setTable (fdTableInsert t (toCInt (peekDataUnchecked c.ret.mem s.tmps.ptr))
      filenameA cloexec) s.tmps ⟨rfl, rfl, rfl⟩ s.fileStatTable s.syscallTable
    simp only [hret, hret', if_true, insertFd_of_holds hs, ok_bind, insertFd_of_holds hs',
      Heap.setTable_setTable]
    exact ⟨_, rfl⟩
  · have hret' : ¬c.ret.user .RAX = 0 := hret
    simp only [hret, hret', if_false, Heap.setTable_same hs.table]
    exact ⟨_, rfl⟩

theorem attributedFile_of_holds {s : Tracer} {t : FdTable} (hs : s.Holds t) :
    attributedFile s = .ok ((fdTableLookup t s.tmps.intA).getD (cstr "NULL")) := by
  rw [attributedFile, Heap.lockedTable_of_cell hs.table hs.mutex, ok_bind]

/-- A close counts for the file of its descriptor. -/
theorem handleCloseReturnCount_of_holds {s : Tracer} {t : FdTable} {stop : Stop} {now : Timespec}
    (hs : s.Holds t) (h : stop.clock = some now) (sc : CInt) :
    handleCloseReturnCount s stop sc = .ok { s with
      fileStatTable := fileStatIncrClose s.fileStatTable
        ((fdTableLookup t s.tmps.intA).getD (cstr "NULL"))
        (now.toNs - s.tmps.startTime.toNs) } := by
  rw [handleCloseReturnCount, calcElapsedNs_of_clock h, ok_bind, attributedFile_of_holds hs,
    ok_bind]

/-- A close drops the entry. -/
theorem handleCloseReturnRemove_of_holds {s : Tracer} {t : FdTable} (hs : s.Holds t) :
    handleCloseReturnRemove s = .ok { s with
      heap := s.heap.setTable s.tmps.fdTable (fdTableRemove t s.tmps.intA) } := by
  rw [handleCloseReturnRemove, hs.locked]
  rfl

/-- A close counts for the file of its descriptor and drops the entry. -/
theorem handleCloseReturn_of_holds {s : Tracer} {t : FdTable} {stop : Stop} {now : Timespec}
    (hs : s.Holds t) (h : stop.clock = some now) (sc : CInt) :
    handleCloseReturn s stop sc = .ok { s with
      heap := s.heap.setTable s.tmps.fdTable (fdTableRemove t s.tmps.intA)
      fileStatTable := fileStatIncrClose s.fileStatTable
        ((fdTableLookup t s.tmps.intA).getD (cstr "NULL"))
        (now.toNs - s.tmps.startTime.toNs) } := by
  rw [handleCloseReturn, handleCloseReturnCount_of_holds hs h, ok_bind]
  exact handleCloseReturnRemove_of_holds ⟨hs.table, hs.mutex⟩

/-- A read counts for the file of its descriptor. -/
theorem handleReadReturn_of_holds {s : Tracer} {t : FdTable} {stop : Stop} {now : Timespec}
    (hs : s.Holds t) (h : stop.clock = some now) (sc : CInt) :
    handleReadReturn s stop sc = .ok { s with
      fileStatTable := fileStatIncrRead s.fileStatTable
        ((fdTableLookup t s.tmps.intA).getD (cstr "NULL")) (now.toNs - s.tmps.startTime.toNs)
        (stop.user .RAX) } := by
  rw [handleReadReturn, calcElapsedNs_of_clock h, ok_bind, attributedFile_of_holds hs, ok_bind]

/-- A write counts for the file of its descriptor. -/
theorem handleWriteReturn_of_holds {s : Tracer} {t : FdTable} {stop : Stop} {now : Timespec}
    (hs : s.Holds t) (h : stop.clock = some now) (sc : CInt) :
    handleWriteReturn s stop sc = .ok { s with
      fileStatTable := fileStatIncrWrite s.fileStatTable
        ((fdTableLookup t s.tmps.intA).getD (cstr "NULL")) (now.toNs - s.tmps.startTime.toNs)
        (stop.user .RAX) } := by
  rw [handleWriteReturn, calcElapsedNs_of_clock h, ok_bind, attributedFile_of_holds hs, ok_bind]

/-- `handle_dup_return` on the contents of the table. -/
theorem handleDupReturn_of_holds {s : Tracer} {t : FdTable} (hs : s.Holds t) (stop : Stop) :
    handleDupReturn s.heap s.tmps stop =
      (if 0 ≤ s.tmps.intA.toInt ∧ s.tmps.intA ≠ toCInt (stop.user .RAX) then
        fdTableInsertDup s.tmps.intA (toCInt (stop.user .RAX)) false false t
      else .ok t).map (s.heap.setTable s.tmps.fdTable) := by
  simp only [handleDupReturn]
  split_ifs
  · exact hs.locked _
  · exact congrArg Except.ok (Heap.setTable_same hs.table).symm

/-- `handle_fcntl_return` on the contents of the table. -/
theorem handleFcntlReturn_of_holds {s : Tracer} {t : FdTable} (hs : s.Holds t) (stop : Stop) :
    handleFcntlReturn s.heap s.tmps stop =
      (if toCInt (stop.user .RAX) ≠ -1 then
        if s.tmps.intB = F_DUPFD then
          fdTableInsertDup s.tmps.intA (toCInt (stop.user .RAX)) false false t
        else if s.tmps.intB = F_DUPFD_CLOEXEC then
          fdTableInsertDup s.tmps.intA (toCInt (stop.user .RAX)) true false t
        else if s.tmps.intB = F_SETFD then
          fdTableSetCloexec s.tmps.intA (hasBit s.tmps.intC FD_CLOEXEC) t
        else .ok t
      else .ok t).map (s.heap.setTable s.tmps.fdTable) := by
  have hsame : Except.ok (ε := Abort) s.heap =
      (Except.ok t).map (s.heap.setTable s.tmps.fdTable) :=
    congrArg Except.ok (Heap.setTable_same hs.table).symm
  simp only [handleFcntlReturn]
  split_ifs
  · exact hs.locked _
  · exact hs.locked _
  · exact hs.locked _
  · exact hsame
  · exact hsame

/-- `handle_ioctl_return` on the contents of the table. -/
theorem handleIoctlReturn_of_holds {s : Tracer} {t : FdTable} (hs : s.Holds t) (stop : Stop) :
    handleIoctlReturn s.heap s.tmps stop =
      (if s.tmps.intB = TIOCGPTPEER then
        fdTableInsertDup s.tmps.intA (toCInt (stop.user .RAX)) false true t
      else .ok t).map (s.heap.setTable s.tmps.fdTable) := by
  simp only [handleIoctlReturn]
  split_ifs
  · exact hs.locked _
  · exact congrArg Except.ok (Heap.setTable_same hs.table).symm

/-- The second switch changes the heap only, by a critical section or not at all. -/
theorem handleUnconsideredSwitch_of_holds {s : Tracer} {t : FdTable} {c : Completed}
    (hs : s.Holds t) (hscr : c.Scratch s.tmps)
    (hsc : sysno c.sc ∈ [Sysno.SYS_dup, .SYS_dup2, .SYS_dup3, .SYS_fcntl, .SYS_ioctl, .other]) :
    handleUnconsideredSwitch s c.ret c.sc =
      (c.tableEffect t).map fun t' => { s with heap := s.heap.setTable s.tmps.fdTable t' } := by
  have hmap : ∀ x : Except Abort FdTable,
      (x.map (s.heap.setTable s.tmps.fdTable) >>= fun heap =>
        Except.ok (ε := Abort) { s with heap }) =
      x.map fun t' => { s with heap := s.heap.setTable s.tmps.fdTable t' } := by
    intro x
    cases x <;> rfl
  unfold Completed.Scratch at hscr
  unfold handleUnconsideredSwitch Completed.tableEffect
  cases hsys : sysno c.sc <;> simp only [hsys] at hscr hsc ⊢
  case SYS_dup | SYS_dup2 | SYS_dup3 =>
    rw [handleDupReturn_of_holds hs, hmap, hscr]
    rfl
  case SYS_fcntl =>
    rw [handleFcntlReturn_of_holds hs, hmap, hscr.1, hscr.2.1, hscr.2.2]
    rfl
  case SYS_ioctl =>
    rw [handleIoctlReturn_of_holds hs, hmap, hscr.1, hscr.2]
    rfl
  case other =>
    rw [Except.map, Heap.setTable_same hs.table]
  all_goals exact absurd hsc (by decide)

/-- **The return handlers on the contents of the table.**  With the scratch
fields as the call handler leaves them, the return handler of every syscall but
`execve` does to the table what `tableEffect` says, and to nothing else on the
heap. -/
theorem handleSyscallReturn_eq {s : Tracer} {t : FdTable} {c : Completed} {now : Timespec}
    (hs : s.Holds t) (hscr : c.Scratch s.tmps) (h : c.ret.clock = some now)
    (hexec : sysno c.sc ≠ .SYS_execve) :
    ∃ fileStat syscalls, handleSyscallReturn s c.ret c.sc =
      (c.tableEffect t).map fun t' =>
        ⟨s.heap.setTable s.tmps.fdTable t', s.tmps, fileStat, syscalls⟩ := by
  by_cases hsc : sysno c.sc ∈
      [Sysno.SYS_dup, .SYS_dup2, .SYS_dup3, .SYS_fcntl, .SYS_ioctl, .other]
  · have hret : handleSyscallReturn s c.ret c.sc =
        (handleUnconsideredReturn s c.ret c.sc >>= fun s =>
          handleUnconsideredSwitch s c.ret c.sc) := by
      unfold handleSyscallReturn
      cases hsys : sysno c.sc <;> simp only [hsys] at hsc ⊢
      all_goals exact absurd hsc (by decide)
    rw [hret, handleUnconsideredReturn, calcElapsedNs_of_clock h, ok_bind, ok_bind]
    exact ⟨_, _, handleUnconsideredSwitch_of_holds ⟨hs.table, hs.mutex⟩ hscr hsc⟩
  · have hfd : ∀ filename cloexec, ∃ fileStat syscalls,
        returnFd s c.ret c.sc filename cloexec = .ok
          ⟨s.heap.setTable s.tmps.fdTable (enterFd t c.rax filename cloexec), s.tmps, fileStat,
            syscalls⟩ := fun filename cloexec =>
      (returnFd_of_holds hs h c.sc filename cloexec).imp fun _ hf => ⟨_, hf⟩
    have hpair : ∀ filenameA filenameB cloexec, ∃ fileStat syscalls,
        returnPair s c.ret c.sc filenameA filenameB cloexec = .ok
          ⟨s.heap.setTable s.tmps.fdTable (enterPair t c s.tmps.ptr filenameA filenameB cloexec),
            s.tmps, fileStat, syscalls⟩ := fun filenameA filenameB cloexec =>
      (returnPair_of_holds hs h c.sc filenameA filenameB cloexec).imp fun _ hf => ⟨_, hf⟩
    unfold Completed.Scratch at hscr
    unfold handleSyscallReturn Completed.tableEffect
    cases hsys : sysno c.sc <;> simp only [hsys] at hscr hsc hexec ⊢
    case SYS_open | SYS_openat =>
      rw [handleOpenReturn, hscr.1, hscr.2]
      exact hfd _ _
    case SYS_close =>
      rw [handleCloseReturn_of_holds hs h, hscr]
      exact ⟨_, _, rfl⟩
    case SYS_read | SYS_readv | SYS_preadv | SYS_preadv2 | SYS_pread64 =>
      rw [handleReadReturn_of_holds hs h]
      exact ⟨_, _, by rw [Except.map, Heap.setTable_same hs.table]⟩
    case SYS_write | SYS_writev | SYS_pwritev | SYS_pwritev2 | SYS_pwrite64 =>
      rw [handleWriteReturn_of_holds hs h]
      exact ⟨_, _, by rw [Except.map, Heap.setTable_same hs.table]⟩
    case SYS_pipe =>
      rw [handlePipeReturn, ← hscr]
      exact hpair _ _ _
    case SYS_pipe2 =>
      rw [handlePipeReturn, ← hscr.1, hscr.2]
      exact hpair _ _ _
    case SYS_socketpair =>
      rw [handleSocketpairReturn, ← hscr]
      exact hpair _ _ _
    case SYS_socket =>
      rw [handleSocketReturn, hscr]
      exact hfd _ _
    case SYS_eventfd2 =>
      rw [handleEventfdReturn, hscr]
      exact hfd _ _
    case SYS_epoll_create1 =>
      rw [handleEpollcreateReturn, hscr]
      exact hfd _ _
    case SYS_accept4 =>
      rw [handleAcceptReturn, hscr]
      exact hfd _ _
    case SYS_eventfd | SYS_epoll_create | SYS_accept => exact hfd _ _
    all_goals simp at hsc hexec

/-- **The handlers on the contents of the table.**  A completed syscall other
than `execve` leaves the record with its references and the heap as it was, but
for the table, which `tableEffect` says; where that aborts, so do the handlers. -/
theorem handleCompleted_eq {s : Tracer} {t : FdTable} {c : Completed} (hs : s.Holds t)
    (hc : c.Timed) (hr : c.Readable) (hexec : sysno c.sc ≠ .SYS_execve) :
    ∃ tmps fileStat syscalls, s.tmps.SameRefs tmps ∧ handleCompleted s c =
      (c.tableEffect t).map fun t' =>
        ⟨s.heap.setTable s.tmps.fdTable t', tmps, fileStat, syscalls⟩ := by
  obtain ⟨start, hstart⟩ := Option.isSome_iff_exists.mp hc.call
  obtain ⟨now, hnow⟩ := Option.isSome_iff_exists.mp hc.ret
  obtain ⟨tmps, hcall, hrefs, hscr, -⟩ := handleSyscallCall_scratch hstart hr s.tmps
  obtain ⟨fileStat, syscalls, hret⟩ :=
    handleSyscallReturn_eq (hs.withTmps hrefs) hscr hnow hexec
  refine ⟨tmps, fileStat, syscalls, hrefs, ?_⟩
  rw [handleCompleted, hcall, ok_bind, hret, hrefs.fdTable]

/-! ### Names fit the buffer -/

theorem FdTable.Fits.enterFd {t : FdTable} (ht : t.Fits) (rax : CLong) {name : CString}
    (hname : name.length < FILENAME_BUFF_SIZE) (cloexec : Bool) :
    FdTable.Fits (Iotrace.enterFd t rax name cloexec) := by
  unfold Iotrace.enterFd
  split_ifs
  · exact ht.insert _ hname _
  · exact ht

theorem FdTable.Fits.enterPair {t : FdTable} (ht : t.Fits) (c : Completed) (ptr : CLong)
    {nameA nameB : CString} (hA : nameA.length < FILENAME_BUFF_SIZE)
    (hB : nameB.length < FILENAME_BUFF_SIZE) (cloexec : Bool) :
    FdTable.Fits (Iotrace.enterPair t c ptr nameA nameB cloexec) := by
  unfold Iotrace.enterPair
  split_ifs
  · exact (ht.insert _ hA _).insert _ hB _
  · exact ht

/-- **Every completed syscall keeps the names within the buffer.** -/
theorem Completed.tableEffect_fits {c : Completed} {t t' : FdTable} (ht : t.Fits)
    (h : c.tableEffect t = .ok t') : t'.Fits := by
  have hlabel : ∀ name ∈ [PIPE_R, PIPE_W, SOCKET, EVENTFD, EPOLL, ACCEPT],
      name.length < FILENAME_BUFF_SIZE := by decide
  unfold tableEffect at h
  cases hsc : sysno c.sc <;> simp only [hsc] at h
  case SYS_open | SYS_openat =>
    obtain rfl := Except.ok.inj h
    exact ht.enterFd _ (pathAt_length _ _) _
  case SYS_close =>
    obtain rfl := Except.ok.inj h
    exact ht.remove _
  case SYS_pipe | SYS_pipe2 | SYS_socketpair =>
    obtain rfl := Except.ok.inj h
    exact ht.enterPair _ _ (hlabel _ (by simp)) (hlabel _ (by simp)) _
  case SYS_dup | SYS_dup2 | SYS_dup3 =>
    split_ifs at h
    · exact ht.insertDup h
    · exact Except.ok.inj h ▸ ht
  case SYS_fcntl =>
    split_ifs at h
    · exact ht.insertDup h
    · exact ht.insertDup h
    · exact ht.setCloexec h
    · exact Except.ok.inj h ▸ ht
    · exact Except.ok.inj h ▸ ht
  case SYS_ioctl =>
    split_ifs at h
    · exact ht.insertDup h
    · exact Except.ok.inj h ▸ ht
  case SYS_socket | SYS_eventfd | SYS_eventfd2 | SYS_epoll_create | SYS_epoll_create1
      | SYS_accept | SYS_accept4 =>
    obtain rfl := Except.ok.inj h
    exact ht.enterFd _ (hlabel _ (by simp)) _
  all_goals exact Except.ok.inj h ▸ ht

end Iotrace
